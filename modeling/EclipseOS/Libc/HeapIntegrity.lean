import EclipseOS.Libc.HeapCalls

/-!
# The integrity of the heap

Runs of a program over its heap.  Every allocation that is live has a block of its
own, and nothing but the program writes into it.
-/

namespace EclipseOS

namespace Libc

open LittleEndian Segments

def MAX_REQUEST : ℕ := 2 ^ 31 - 8192

/-- The allocations without that at `ptr`. -/
def release (ptr : ℕ) (live : List (ℕ × ℕ)) : List (ℕ × ℕ) := live.filter fun p ↦ p.1 ≠ ptr

/-- The payloads of these allocations, as their headers tell their sizes. -/
def Intact (h h' : Heap) (live : List (ℕ × ℕ)) : Prop :=
  ∀ p ∈ live, ∀ m, read32 h.mem (p.1 - HDR) = some m → ∀ k < m, h'.mem (p.1 + k) = h.mem (p.1 + k)

namespace HeapOp

variable (h h' : Heap) (live : List (ℕ × ℕ)) (r : ℕ)

/-- Only live pointers, or `NULL`, are given back. -/
def Allowed : HeapOp → Prop
  | malloc size => size ≤ MAX_REQUEST
  | calloc n size => n * size ≤ MAX_REQUEST
  | realloc ptr size => (ptr = 0 ∨ ptr ∈ live.map Prod.fst) ∧ size ≤ MAX_REQUEST
  | free ptr => ptr = 0 ∨ ptr ∈ live.map Prod.fst

/-- The allocations, each with the size that was asked for, after `r` was returned. -/
def after : HeapOp → List (ℕ × ℕ)
  | malloc size => if r = 0 then live else (r, size) :: live
  | calloc n size => if r = 0 then live else (r, n * size) :: live
  | realloc ptr size =>
      if size = 0 then release ptr live
      else if r = 0 then live
      else (r, size) :: release ptr live
  | free ptr => release ptr live

/-- What an operation may do to the bytes of live allocations. -/
def Faithful : HeapOp → Prop
  | malloc _ => Intact h h' live
  | calloc n size => Intact h h' live ∧ (r ≠ 0 → ∀ k < n * size, h'.mem (r + k) = some 0)
  | realloc ptr size =>
      Intact h h' (release ptr live) ∧ (r = 0 → size ≠ 0 → Intact h h' live) ∧
        ∀ n, (ptr, n) ∈ live → r ≠ 0 → ∀ k < min n size, h'.mem (r + k) = h.mem (ptr + k)
  | free ptr => Intact h h' (release ptr live)

end HeapOp

/-- A program that calls the heap and writes into its allocations. -/
inductive HeapRun (s : Beginning) : Heap → List (ℕ × ℕ) → Prop
  | start : HeapRun s s.heap []
  | call {h h' : Heap} {live : List (ℕ × ℕ)} {r : ℕ} (o : HeapOp) :
      HeapRun s h live → o.Allowed live → o.run h = some (r, h') → HeapRun s h' (o.after live r)
  | write {h : Heap} {live : List (ℕ × ℕ)} {q n k : ℕ} (b : UInt8) :
      HeapRun s h live → (q, n) ∈ live → k < n →
        HeapRun s { h with mem := Function.update h.mem (q + k) (some b) } live

/-- The block list, and a block for every allocation. -/
structure Integrity (start : ℕ) (h : Heap) (live : List (ℕ × ℕ)) (bs : List Block) : Prop where
  holds : Holds start h bs
  told : ∀ p, h.mistaken p = false
  own : ∀ p ∈ live, ∃ b ∈ bs, b.free = false ∧ p.1 = b.addr + HDR ∧ 0 < p.2 ∧ p.2 ≤ b.size
  distinct : (live.map Prod.fst).Nodup

variable {h h' : Heap} {start ptr r n size : ℕ} {live : List (ℕ × ℕ)} {b : Block}
  {bs bs' : List Block}

theorem mem_release {p : ℕ × ℕ} : p ∈ release ptr live ↔ p ∈ live ∧ p.1 ≠ ptr := by
  rw [release, List.mem_filter, decide_eq_true_eq]

theorem release_sublist : (release ptr live).Sublist live := List.filter_sublist

namespace Integrity

variable (hi : Integrity start h live bs)

include hi

/-- What a header tells is the size of the block. -/
theorem intact_of {live' : List (ℕ × ℕ)} (hsub : live' ⊆ live)
    (hbytes : ∀ b ∈ bs, b.free = false → (∃ p ∈ live', p.1 = b.addr + HDR) →
      ∀ a ∈ Set.Ico (b.addr + HDR) b.stop, h'.mem a = h.mem a) : Intact h h' live' := by
  intro p hp m hm k hk
  obtain ⟨b, hb, hused, hptr, -, -⟩ := hi.own p (hsub hp)
  refine hbytes b hb hused ⟨p, hp, hptr⟩ _ ⟨by omega, ?_⟩
  obtain ⟨pre, post, rfl⟩ := List.append_of_mem hb
  obtain ⟨q, hheader, -⟩ := hi.holds.stands.header
  rw [hptr, Nat.add_sub_cancel, hheader.words.size] at hm
  obtain rfl := Option.some.inj hm
  rw [Block.stop]
  omega

theorem intact (hu : Untouched h h' bs) : Intact h h' live :=
  hi.intact_of (fun _ hp ↦ hp) fun b hb hused _ ↦ hu b hb hused

theorem refused (hr : Refused h h') : Integrity start h' live bs ∧ Intact h h' live := by
  refine ⟨⟨?_, hr.told ▸ hi.told, hi.own, hi.distinct⟩, fun _ _ _ _ _ _ ↦ by rw [hr.mem]⟩
  exact (hr.stands hi.holds.stands).holds (hr.brk ▸ hi.holds.tiles)

/-- One more allocation. -/
theorem add (ha : Allocated start h h' bs bs' b n) (hn : 0 < n) :
    Integrity start h' ((b.addr + HDR, n) :: live) bs' := by
  refine ⟨ha.stands.holds (ha.tiles hi.holds.tiles), ha.told ▸ hi.told, fun p hp ↦ ?_, ?_⟩
  · rcases List.mem_cons.mp hp with rfl | hp
    · exact ⟨b, ha.mem, ha.used, rfl, hn, ha.fits⟩
    · obtain ⟨c, hc, hused, hrest⟩ := hi.own p hp
      exact ⟨c, (ha.kept c hc hused).1, hused, hrest⟩
  · refine List.nodup_cons.mpr ⟨fun hmem ↦ ?_, hi.distinct⟩
    obtain ⟨p, hp, heq⟩ := List.mem_map.mp hmem
    obtain ⟨c, hc, hused, hptr, -⟩ := hi.own p hp
    refine (ha.kept c hc hused).2 ?_
    dsimp only at heq
    omega

/-- The other allocations, when one block may be gone. -/
theorem drop (hh : Holds start h' bs') (htold : h'.mistaken = h.mistaken)
    (hkept : ∀ c ∈ bs, c.free = false → c.addr ≠ b.addr → c ∈ bs') :
    Integrity start h' (release (b.addr + HDR) live) bs' := by
  refine ⟨hh, htold ▸ hi.told, fun p hp ↦ ?_, hi.distinct.sublist (release_sublist.map Prod.fst)⟩
  obtain ⟨hp, hne⟩ := mem_release.mp hp
  obtain ⟨c, hc, hused, hptr, hrest⟩ := hi.own p hp
  exact ⟨c, hkept c hc hused fun heq ↦ hne (by omega), hused, hptr, hrest⟩

/-- A pointer that is live is that of a block. -/
theorem block (hptr : ptr ∈ live.map Prod.fst) :
    ∃ b ∈ bs, b.free = false ∧ ptr = b.addr + HDR ∧ 0 < b.size ∧
      ∀ n, (ptr, n) ∈ live → 0 < n ∧ n ≤ b.size := by
  obtain ⟨p, hp, rfl⟩ := List.mem_map.mp hptr
  obtain ⟨b, hb, hused, hptr, hpos, hle⟩ := hi.own p hp
  refine ⟨b, hb, hused, hptr, by omega, fun n hn ↦ ?_⟩
  obtain ⟨c, hc, -, hptr', hpos', hle'⟩ := hi.own _ hn
  dsimp only at hptr' hpos' hle'
  rw [hi.holds.tiles.spaced.eq_of_lo_eq hb hc (by omega)]
  exact ⟨hpos', hle'⟩

theorem serves (hsize : size ≤ MAX_REQUEST) : h.Serves bs size :=
  h.serves_of_told (hsize.trans (by decide)) (hi.told h.brk)

theorem malloc (hsize : size ≤ MAX_REQUEST) : ∃ r h' bs', h.malloc size = some (r, h') ∧
    Integrity start h' (HeapOp.after live r (.malloc size)) bs' ∧ Intact h h' live := by
  rcases hi.holds.stands.malloc fun _ ↦ hi.serves hsize with
    ⟨h', hmalloc, hr⟩ | ⟨h', b, bs', hmalloc, hpos, ha⟩
  · exact ⟨0, h', bs, hmalloc, hi.refused hr⟩
  · refine ⟨b.addr + HDR, h', bs', hmalloc, ?_, hi.intact ha.untouched⟩
    rw [HeapOp.after, if_neg (by rw [HDR]; omega)]
    exact hi.add ha hpos

theorem calloc (htotal : n * size ≤ MAX_REQUEST) : ∃ r h' bs', h.calloc n size = some (r, h') ∧
    Integrity start h' (HeapOp.after live r (.calloc n size)) bs' ∧
      HeapOp.Faithful h h' live r (.calloc n size) := by
  rcases hi.holds.stands.calloc (htotal.trans_lt (by decide)) fun _ ↦ hi.serves htotal with
    ⟨h', hcalloc, hr⟩ | ⟨h', b, bs', hcalloc, hpos, ha, hzero⟩
  · obtain ⟨hi', hintact⟩ := hi.refused hr
    exact ⟨0, h', bs, hcalloc, hi', hintact, fun hne ↦ absurd rfl hne⟩
  · refine ⟨b.addr + HDR, h', bs', hcalloc, ?_, hi.intact ha.untouched, fun _ ↦ hzero⟩
    rw [HeapOp.after, if_neg (by rw [HDR]; omega)]
    exact hi.add ha hpos

theorem free (hptr : ptr = 0 ∨ ptr ∈ live.map Prod.fst) : ∃ h' bs', h.free ptr = some h' ∧
    Integrity start h' (release ptr live) bs' ∧ Intact h h' (release ptr live) := by
  have hzero : 0 ∉ live.map Prod.fst := fun hmem ↦ by
    obtain ⟨b, -, -, hptr, -⟩ := hi.block hmem
    rw [HDR] at hptr
    omega
  by_cases hnull : ptr = 0
  · subst hnull
    refine ⟨h, bs, rfl, ⟨hi.holds, hi.told, fun p hp ↦ hi.own p (mem_release.mp hp).1, ?_⟩,
      fun _ _ _ _ _ _ ↦ rfl⟩
    exact hi.distinct.sublist (release_sublist.map Prod.fst)
  · obtain ⟨b, hb, hused, rfl, hpos, -⟩ := hi.block (hptr.resolve_left hnull)
    obtain ⟨h', bs', hfree, hh', htiles, honly, hkept, -⟩ := hi.holds.stands.free hb
    refine ⟨h', bs', hfree, hi.drop (hh'.holds (htiles hi.holds.tiles)) honly.mistaken hkept, ?_⟩
    exact hi.intact_of release_sublist.subset fun c hc _ _ a ha ↦
      honly.kept a (hi.holds.stands.payload_apart hc hb ha)

/-- `realloc` of a live pointer. -/
theorem move (hptr : ptr ∈ live.map Prod.fst) (hne : size ≠ 0) (hsize : size ≤ MAX_REQUEST) :
    ∃ r h' bs', h.realloc ptr size = some (r, h') ∧
      Integrity start h' (HeapOp.after live r (.realloc ptr size)) bs' ∧
        HeapOp.Faithful h h' live r (.realloc ptr size) := by
  have hpos : 0 < size := Nat.pos_of_ne_zero hne
  obtain ⟨b, hb, hused, rfl, -, hfits⟩ := hi.block hptr
  have hrest : ∀ p ∈ release (b.addr + HDR) live, b.addr + HDR ≠ p.1 :=
    fun p hp ↦ Ne.symm (mem_release.mp hp).2
  have hafter (r : ℕ) : HeapOp.after live r (.realloc (b.addr + HDR) size) =
      if r = 0 then live else (r, size) :: release (b.addr + HDR) live := if_neg hne
  simp only [hafter]
  rcases hi.holds.stands.realloc hb hused hne fun _ ↦ hi.serves hsize with
    ⟨hle, hrealloc⟩ | ⟨h', hrealloc, hr⟩ | ⟨h', b', bs', hrealloc, hm⟩
  · refine ⟨b.addr + HDR, h, bs, hrealloc, ?_, fun _ _ _ _ _ _ ↦ rfl, fun _ _ _ _ _ _ _ _ ↦ rfl,
      fun _ _ _ _ _ ↦ rfl⟩
    rw [if_neg (by rw [HDR]; omega)]
    refine ⟨hi.holds, hi.told, fun p hp ↦ ?_, ?_⟩
    · rcases List.mem_cons.mp hp with rfl | hp
      · exact ⟨b, hb, hused, rfl, hpos, hle⟩
      · exact hi.own p (mem_release.mp hp).1
    · refine List.nodup_cons.mpr ⟨fun hmem ↦ ?_, hi.distinct.sublist (release_sublist.map Prod.fst)⟩
      obtain ⟨p, hp, heq⟩ := List.mem_map.mp hmem
      exact hrest p hp heq.symm
  · obtain ⟨hi', hintact⟩ := hi.refused hr
    exact ⟨0, h', bs, hrealloc, hi', fun p hp ↦ hintact p (mem_release.mp hp).1,
      fun _ _ ↦ hintact, fun _ _ hne ↦ absurd rfl hne⟩
  · refine ⟨b'.addr + HDR, h', bs', hrealloc, ?_, ?_, ?_, ?_⟩
    · rw [if_neg (by rw [HDR]; omega)]
      have hdrop := hi.drop (hm.stands.holds (hm.tiles hi.holds.tiles)) hm.told
        fun c hc hcused hne ↦ (hm.kept c hc hcused hne).1
      refine ⟨hdrop.holds, hdrop.told, fun p hp ↦ ?_,
        List.nodup_cons.mpr ⟨fun hmem ↦ ?_, hdrop.distinct⟩⟩
      · rcases List.mem_cons.mp hp with rfl | hp
        · exact ⟨b', hm.mem, hm.used, rfl, hpos, hm.fits⟩
        · exact hdrop.own p hp
      · obtain ⟨p, hp, heq⟩ := List.mem_map.mp hmem
        obtain ⟨hp', hne'⟩ := mem_release.mp hp
        obtain ⟨c, hc, hcused, hcptr, -⟩ := hi.own p hp'
        refine (hm.kept c hc hcused fun heq' ↦ hne' (by omega)).2 ?_
        dsimp only at heq
        omega
    · exact fun p hp ↦ hi.intact hm.untouched p (mem_release.mp hp).1
    · intro hzero
      rw [HDR] at hzero
      omega
    · intro n hn _ k hk
      have hle := (hfits n hn).2
      exact hm.copied k (by omega)

theorem realloc (hptr : ptr = 0 ∨ ptr ∈ live.map Prod.fst) (hsize : size ≤ MAX_REQUEST) :
    ∃ r h' bs', h.realloc ptr size = some (r, h') ∧
      Integrity start h' (HeapOp.after live r (.realloc ptr size)) bs' ∧
        HeapOp.Faithful h h' live r (.realloc ptr size) := by
  have hzero : 0 ∉ live.map Prod.fst := fun hmem ↦ by
    obtain ⟨b, -, -, hptr, -⟩ := hi.block hmem
    rw [HDR] at hptr
    omega
  have hrelease : release 0 live = live := List.filter_eq_self.mpr fun p hp ↦ by
    rw [decide_eq_true_eq]
    exact fun heq ↦ hzero (heq ▸ List.mem_map_of_mem hp)
  by_cases hnull : ptr = 0
  · subst hnull
    obtain ⟨r, h', bs', hmalloc, hi', hintact⟩ := hi.malloc hsize
    refine ⟨r, h', bs', ?_, ?_, ?_, fun _ _ ↦ hintact, fun n hn ↦ ?_⟩
    · rw [Heap.realloc, if_pos rfl, hmalloc]
    · rw [HeapOp.after, hrelease]
      split
      · next hsize0 =>
        subst hsize0
        obtain ⟨rfl, -⟩ := Prod.mk.inj (Option.some.inj hmalloc)
        exact hi'
      · exact hi'
    · rw [hrelease]
      exact hintact
    · exact absurd (List.mem_map_of_mem hn) hzero
  · have hlive := hptr.resolve_left hnull
    by_cases hsize0 : size = 0
    · subst hsize0
      obtain ⟨h', bs', hfree, hi', hintact⟩ := hi.free hptr
      refine ⟨0, h', bs', ?_, hi', hintact, fun _ hne ↦ absurd rfl hne, fun _ _ hne ↦ absurd rfl hne⟩
      rw [Heap.realloc, if_neg hnull, if_pos rfl, hfree]
      rfl
    · exact hi.move hlive hsize0 hsize

/-- One operation. -/
theorem step (o : HeapOp) (ho : o.Allowed live) : ∃ r h' bs', o.run h = some (r, h') ∧
    Integrity start h' (o.after live r) bs' ∧ o.Faithful h h' live r := by
  cases o with
  | malloc size => exact hi.malloc ho
  | calloc n size => exact hi.calloc ho
  | realloc ptr size => exact hi.realloc ho.1 ho.2
  | free ptr =>
      obtain ⟨h', bs', hfree, hi', hintact⟩ := hi.free ho
      exact ⟨0, h', bs', by rw [HeapOp.run, hfree]; rfl, hi', hintact⟩

/-- The program writes into one of its allocations. -/
theorem write {q k : ℕ} (v : UInt8) (hq : (q, n) ∈ live) (hk : k < n) :
    Integrity start { h with mem := Function.update h.mem (q + k) (some v) } live bs := by
  obtain ⟨b, hb, -, hptr, -, hle⟩ := hi.own _ hq
  dsimp only at hptr hle
  refine ⟨(hi.holds.stands.payload hb ⟨rfl, fun a ha ↦ ?_, fun a ha ↦ ?_⟩).holds hi.holds.tiles,
    hi.told, hi.own, hi.distinct⟩
  · refine Function.update_of_ne ?_ _ _
    rintro rfl
    exact ha ⟨by omega, by rw [Block.stop]; omega⟩
  · by_cases heq : a = q + k
    · subst heq
      simp
    · dsimp only
      rwa [Function.update_of_ne heq]

theorem apart : live.Pairwise fun p q ↦ p.1 + p.2 ≤ q.1 ∨ q.1 + q.2 ≤ p.1 := by
  have hne : live.Pairwise fun p q ↦ p.1 ≠ q.1 := List.pairwise_map.mp hi.distinct
  refine hne.imp_of_mem fun {p q} hp hq hpq ↦ ?_
  obtain ⟨b, hb, -, hptr, -, hle⟩ := hi.own p hp
  obtain ⟨c, hc, -, hptr', -, hle'⟩ := hi.own q hq
  rcases hi.holds.tiles.spaced.apart hb hc with rfl | hbc | hcb
  · omega
  · rw [Block.stop] at hbc
    omega
  · rw [Block.stop] at hcb
    omega

end Integrity

/-- Every run keeps the block list. -/
theorem HeapRun.integrity {s : Beginning} (hrun : HeapRun s h live) :
    ∃ bs, Integrity s.start h live bs := by
  induction hrun with
  | start =>
      exact ⟨[], ⟨s.start_pos, s.start_le, fun a ha hlt ↦ absurd ha (Nat.not_le_of_lt hlt), rfl, rfl⟩,
        fun _ ↦ rfl, fun p hp ↦ (nomatch hp), List.nodup_nil⟩
  | call o _ ho hcall ih =>
      obtain ⟨bs, hi⟩ := ih
      obtain ⟨r, h', bs', hrun, hi', -⟩ := hi.step o ho
      obtain ⟨rfl, rfl⟩ := Prod.mk.inj (Option.some.inj (hrun.symm.trans hcall))
      exact ⟨bs', hi'⟩
  | write b _ hq hk ih =>
      obtain ⟨bs, hi⟩ := ih
      exact ⟨bs, hi.write b hq hk⟩

/-- Along every run the blocks tile the memory from the first break on, each live
allocation has one of its own, and the next operation ends and leaves the bytes of
the live allocations alone. -/
theorem user_heap_integrity {s : Beginning} (hrun : HeapRun s h live) :
    (∃ bs, Linked (Header h.mem) h.head bs 0 ∧ bs.Pairwise (fun b c ↦ b.addr < c.addr) ∧
      Tiles Block.addr Block.stop s.start bs h.brk ∧
      ∀ p ∈ live, ∃ b ∈ bs, b.free = false ∧ p.1 = b.addr + HDR ∧ 0 < p.2 ∧ p.2 ≤ b.size) ∧
    (live.map Prod.fst).Nodup ∧ live.Pairwise (fun p q ↦ p.1 + p.2 ≤ q.1 ∨ q.1 + q.2 ≤ p.1) ∧
    ∀ o : HeapOp, o.Allowed live → ∃ r h', o.run h = some (r, h') ∧
      HeapRun s h' (o.after live r) ∧ o.Faithful h h' live r := by
  obtain ⟨bs, hi⟩ := hrun.integrity
  refine ⟨⟨bs, hi.holds.linked, hi.holds.tiles.increasing, hi.holds.tiles, hi.own⟩, hi.distinct,
    hi.apart, fun o ho ↦ ?_⟩
  obtain ⟨r, h', bs', hcall, -, hfaithful⟩ := hi.step o ho
  exact ⟨r, h', hcall, hrun.call o ho hcall, hfaithful⟩

/-- A break at 4096 and room for fifteen pages. -/
def smallBeginning : Beginning where
  mem := fun _ ↦ none
  start := 0x1000
  limit := 0x10000
  refuse := fun _ ↦ false
  fresh := fun _ ↦ 0
  start_pos := by decide
  start_le := by decide
  limit_le := by decide

/-- Five bytes are allocated and then moved. -/
theorem user_heap_integrity_small : ∃ h r h', HeapRun smallBeginning h [(0x100C, 5)] ∧
    h.realloc 0x100C 20 = some (r, h') ∧ (r ≠ 0 → ∀ k < 5, h'.mem (r + k) = h.mem (0x100C + k)) := by
  have hmalloc : (smallBeginning.heap.malloc 5).map Prod.fst = some 0x100C := by decide +kernel
  obtain ⟨⟨r, h⟩, hcall, rfl⟩ := Option.map_eq_some_iff.mp hmalloc
  have hrun := HeapRun.start.call (.malloc 5) (by decide : 5 ≤ MAX_REQUEST) hcall
  obtain ⟨-, -, -, hop⟩ := user_heap_integrity hrun
  obtain ⟨r, h', hrealloc, -, -, -, hcopied⟩ :=
    hop (.realloc 0x100C 20) ⟨.inr List.mem_cons_self, by decide⟩
  exact ⟨h, r, h', hrun, hrealloc, hcopied 5 List.mem_cons_self⟩

end Libc

end EclipseOS
