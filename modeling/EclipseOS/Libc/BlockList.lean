import Mathlib.Order.Interval.Set.Basic
import EclipseOS.Lib.Segments
import EclipseOS.Libc.Malloc

/-!
# The block list

The blocks stand in the memory from the first break on, one after the other, and
their headers are linked in this order.  They fill it as long as nothing else
moves the break.
-/

namespace EclipseOS

namespace Libc

open LittleEndian Segments

variable {h h' h'' : Heap} {a p q s f w : ℕ} {S T : Set ℕ}

/-- From `h` to `h'` at most the bytes in `S` were written. -/
structure Only (h h' : Heap) (S : Set ℕ) : Prop where
  rest : h' = { h with mem := h'.mem }
  kept : ∀ a, a ∉ S → h'.mem a = h.mem a
  defined : ∀ a, h.mem a ≠ none → h'.mem a ≠ none

namespace Only

theorem refl (h : Heap) (S : Set ℕ) : Only h h S := ⟨rfl, fun _ _ ↦ rfl, fun _ hne ↦ hne⟩

theorem mono (ho : Only h h' S) (hST : S ⊆ T) : Only h h' T :=
  ⟨ho.rest, fun a ha ↦ ho.kept a fun hS ↦ ha (hST hS), ho.defined⟩

theorem trans (ho : Only h h' S) (ho' : Only h' h'' S) : Only h h'' S := by
  refine ⟨?_, fun a ha ↦ (ho'.kept a ha).trans (ho.kept a ha),
    fun a ha ↦ ho'.defined a (ho.defined a ha)⟩
  rw [ho'.rest, ho.rest]

theorem brk (ho : Only h h' S) : h'.brk = h.brk := by rw [ho.rest]

theorem head (ho : Only h h' S) : h'.head = h.head := by rw [ho.rest]

theorem mistaken (ho : Only h h' S) : h'.mistaken = h.mistaken := by rw [ho.rest]

end Only

/-! ## Headers -/

/-- The three words of a header. -/
structure Words (mem : Bytes) (p s q f : ℕ) : Prop where
  size : read32 mem p = some s
  next : read32 mem (p + 4) = some q
  free : read32 mem (p + 8) = some f

theorem Words.congr {mem mem' : Bytes} (hw : Words mem p s q f)
    (hm : ∀ a ∈ Set.Ico p (p + HDR), mem' a = mem a) : Words mem' p s q f := by
  have hmem (k : ℕ) (hk : k < 12) : mem' (p + k) = mem (p + k) :=
    hm (p + k) ⟨Nat.le_add_right p k, Nat.add_lt_add_left hk p⟩
  refine ⟨?_, ?_, ?_⟩
  · rw [← hw.size]
    exact read32_congr fun k hk ↦ hmem k (by omega)
  · rw [← hw.next]
    refine read32_congr fun k hk ↦ ?_
    rw [Nat.add_assoc]
    exact hmem (4 + k) (by omega)
  · rw [← hw.free]
    refine read32_congr fun k hk ↦ ?_
    rw [Nat.add_assoc]
    exact hmem (8 + k) (by omega)

/-- Whatever is there can be read as a header. -/
theorem words_of_defined (mem : Bytes) (p : ℕ) (hdef : ∀ a ∈ Set.Ico p (p + HDR), mem a ≠ none) :
    ∃ s q f, Words mem p s q f := by
  have hword (k : ℕ) (hk : k ≤ 8) : ∃ w, read32 mem (p + k) = some w := by
    apply Option.ne_none_iff_exists'.mp
    intro hnone
    refine read32_eq_none.mp hnone fun i hi ↦ hdef _ ⟨by omega, ?_⟩
    rw [HDR]
    omega
  obtain ⟨s, hs⟩ := hword 0 (by omega)
  obtain ⟨q, hq⟩ := hword 4 (by omega)
  obtain ⟨f, hf⟩ := hword 8 (by omega)
  exact ⟨s, q, f, hs, hq, hf⟩

/-- A word that can be read can be written. -/
theorem store_spec (hv : read32 h.mem a = some s) (ha : a + 4 ≤ 2 ^ 32) (hw : w < 2 ^ 32) :
    ∃ h', h.store a w = some h' ∧ Only h h' (Set.Ico a (a + 4)) ∧ read32 h'.mem a = some w := by
  refine ⟨{ h with mem := write32 h.mem a w }, ?_, ⟨rfl, ?_, ?_⟩, ?_⟩
  · rw [Heap.store, Heap.load, Nat.mod_eq_of_lt (by omega), hv]
    rfl
  · intro x hx
    rw [Set.mem_Ico, not_and_or] at hx
    rcases hx with hx | hx
    · exact fill_apply_of_lt (by omega)
    · exact fill_apply_of_ge (by omega)
  · exact fun x hx ↦ fill_ne_none hx
  · have hread := read32_write32 h.mem a w
    rwa [Nat.mod_eq_of_lt hw] at hread

namespace Words

variable (hw : Words h.mem p s q f) (hp : p + HDR ≤ 2 ^ 32)

include hw hp

theorem sizeOf : h.sizeOf p = some s := by
  rw [HDR] at hp
  rw [Heap.sizeOf, Heap.load, Nat.mod_eq_of_lt (by omega), hw.size]

theorem nextOf : h.nextOf p = some q := by
  rw [HDR] at hp
  rw [Heap.nextOf, Heap.load, Nat.mod_eq_of_lt (by omega), hw.next]

theorem freeOf : h.freeOf p = some f := by
  rw [HDR] at hp
  rw [Heap.freeOf, Heap.load, Nat.mod_eq_of_lt (by omega), hw.free]

theorem setSize (hs : w < 2 ^ 32) : ∃ h', h.setSize p w = some h' ∧
    Only h h' (Set.Ico p (p + HDR)) ∧ Words h'.mem p w q f := by
  rw [HDR] at hp
  obtain ⟨h', hstore, honly, hread⟩ := store_spec hw.size (by omega) hs
  refine ⟨h', hstore, honly.mono ?_, hread, ?_, ?_⟩
  · exact Set.Ico_subset_Ico_right (by rw [HDR]; omega)
  · rw [← hw.next]
    exact read32_congr fun k _ ↦ honly.kept _ fun hmem ↦ by have := hmem.2; omega
  · rw [← hw.free]
    exact read32_congr fun k _ ↦ honly.kept _ fun hmem ↦ by have := hmem.2; omega

theorem setNext (hq : w < 2 ^ 32) : ∃ h', h.setNext p w = some h' ∧
    Only h h' (Set.Ico p (p + HDR)) ∧ Words h'.mem p s w f := by
  rw [HDR] at hp
  obtain ⟨h', hstore, honly, hread⟩ := store_spec hw.next (by omega) hq
  refine ⟨h', hstore, honly.mono ?_, ?_, hread, ?_⟩
  · exact Set.Ico_subset_Ico (by omega) (by rw [HDR]; omega)
  · rw [← hw.size]
    exact read32_congr fun k _ ↦ honly.kept _ fun hmem ↦ by have := hmem.1; omega
  · rw [← hw.free]
    exact read32_congr fun k _ ↦ honly.kept _ fun hmem ↦ by have := hmem.2; omega

theorem setFree (hf : w < 2 ^ 32) : ∃ h', h.setFree p w = some h' ∧
    Only h h' (Set.Ico p (p + HDR)) ∧ Words h'.mem p s q w := by
  rw [HDR] at hp
  obtain ⟨h', hstore, honly, hread⟩ := store_spec hw.free (by omega) hf
  refine ⟨h', hstore, honly.mono ?_, ?_, ?_, hread⟩
  · exact Set.Ico_subset_Ico (by omega) (Nat.le_refl (p + HDR))
  · rw [← hw.size]
    exact read32_congr fun k _ ↦ honly.kept _ fun hmem ↦ by have := hmem.1; omega
  · rw [← hw.next]
    exact read32_congr fun k _ ↦ honly.kept _ fun hmem ↦ by have := hmem.1; omega

end Words

/-! ## Blocks -/

structure Block where
  addr : ℕ
  size : ℕ
  free : Bool
  deriving DecidableEq

def Block.stop (b : Block) : ℕ := b.addr + HDR + b.size

/-- The block `b` at `p`, with the link `q`. -/
structure Header (mem : Bytes) (p : ℕ) (b : Block) (q : ℕ) : Prop where
  addr : p = b.addr
  nonzero : p ≠ 0
  words : Words mem p b.size q b.free.toNat

/-- The blocks `bs` stand between `start` and the break, in the order of the list;
there may be gaps. -/
structure Stands (start : ℕ) (h : Heap) (bs : List Block) : Prop where
  pos : 0 < start
  bounded : h.brk ≤ 2 ^ 32
  defined : ∀ b ∈ bs, ∀ a ∈ Set.Ico b.addr b.stop, h.mem a ≠ none
  spaced : Spaced Block.addr Block.stop start bs h.brk
  linked : Linked (Header h.mem) h.head bs 0

/-- The blocks `bs` fill the memory from `start` to the break, in the order of
the list. -/
structure Holds (start : ℕ) (h : Heap) (bs : List Block) : Prop where
  pos : 0 < start
  bounded : h.brk ≤ 2 ^ 32
  defined : ∀ a, start ≤ a → a < h.brk → h.mem a ≠ none
  tiles : Tiles Block.addr Block.stop start bs h.brk
  linked : Linked (Header h.mem) h.head bs 0

variable {start e r n : ℕ} {b c : Block} {bs pre mid mid' post : List Block}

theorem Holds.stands (hh : Holds start h bs) : Stands start h bs where
  pos := hh.pos
  bounded := hh.bounded
  defined := fun b hb a ha ↦ by
    obtain ⟨hlo, -, hhi⟩ := hh.tiles.spaced.bounds hb
    exact hh.defined a (hlo.trans ha.1) (ha.2.trans_le hhi)
  spaced := hh.tiles.spaced
  linked := hh.linked

theorem Stands.holds (hs : Stands start h bs) (ht : Tiles Block.addr Block.stop start bs h.brk) :
    Holds start h bs where
  pos := hs.pos
  bounded := hs.bounded
  defined := fun a ha hlt ↦ by
    obtain ⟨b, hb, hin⟩ := ht.covers ha hlt
    exact hs.defined b hb a hin
  tiles := ht
  linked := hs.linked

/-- Headers that were not written. -/
theorem linked_congr {mem mem' : Bytes} (hl : Linked (Header mem) p bs q)
    (hm : ∀ b ∈ bs, ∀ a ∈ Set.Ico b.addr (b.addr + HDR), mem' a = mem a) :
    Linked (Header mem') p bs q := by
  refine hl.mono fun b hb p q hh ↦ ⟨hh.addr, hh.nonzero, hh.words.congr fun a ha ↦ ?_⟩
  rw [hh.addr] at ha
  exact hm b hb a ha

namespace Stands

theorem bounds (hh : Stands start h bs) (hb : b ∈ bs) : start ≤ b.addr ∧ b.stop ≤ h.brk := by
  obtain ⟨hlo, -, hhi⟩ := hh.spaced.bounds hb
  exact ⟨hlo, hhi⟩

/-- A stretch of the list, with what may be put in its place. -/
theorem cut (hh : Stands start h (pre ++ mid ++ post)) :
    ∃ a e p q, start ≤ a ∧ e ≤ h.brk ∧ Spaced Block.addr Block.stop a mid e ∧
      Linked (Header h.mem) p mid q ∧
      ∀ h' mid', Only h h' (Set.Ico a e) → Spaced Block.addr Block.stop a mid' e →
        (∀ b ∈ mid', ∀ x ∈ Set.Ico b.addr b.stop, h'.mem x ≠ none) →
        Linked (Header h'.mem) p mid' q → Stands start h' (pre ++ mid' ++ post) := by
  obtain ⟨e, hspaced, hpost⟩ := spaced_append.mp hh.spaced
  obtain ⟨a, hpre, hmid⟩ := spaced_append.mp hspaced
  obtain ⟨q, hlinked, hlpost⟩ := linked_append.mp hh.linked
  obtain ⟨p, hlpre, hlmid⟩ := linked_append.mp hlinked
  refine ⟨a, e, p, q, hpre.le, hpost.le, hmid, hlmid, fun h' mid' honly hmid' hdef hlmid' ↦ ?_⟩
  refine ⟨hh.pos, ?_, fun b hb x hx ↦ ?_, ?_, ?_⟩
  · rw [honly.brk]
    exact hh.bounded
  · simp only [List.mem_append] at hb
    rcases hb with (hb | hb) | hb
    · exact honly.defined x (hh.defined b (by simp [hb]) x hx)
    · exact hdef b hb x hx
    · exact honly.defined x (hh.defined b (by simp [hb]) x hx)
  · rw [honly.brk]
    exact spaced_append.mpr ⟨e, spaced_append.mpr ⟨a, hpre, hmid'⟩, hpost⟩
  · rw [honly.head]
    refine linked_append.mpr ⟨q, linked_append.mpr ⟨p, ?_, hlmid'⟩, ?_⟩
    · refine linked_congr hlpre fun b hb x hx ↦ honly.kept x fun hmem ↦ ?_
      obtain ⟨-, -, hba⟩ := hpre.bounds hb
      rw [Block.stop] at hba
      have h₁ := hx.2
      have h₂ := hmem.1
      omega
    · refine linked_congr hlpost fun b hb x hx ↦ honly.kept x fun hmem ↦ ?_
      obtain ⟨hba, -, -⟩ := hpost.bounds hb
      have h₁ := hx.1
      have h₂ := hmem.2
      omega

theorem length_lt (hh : Stands start h bs) : bs.length < TURNS := by
  have hlength := hh.spaced.add_length_le
  have hbrk := hh.bounded
  have hpos := hh.pos
  rw [TURNS]
  omega

theorem header_le (hh : Stands start h bs) (hb : b ∈ bs) : b.addr + HDR ≤ 2 ^ 32 := by
  have hstop := (hh.bounds hb).2
  have hbrk := hh.bounded
  rw [Block.stop] at hstop
  omega

/-- The header of a block in the list. -/
theorem header (hh : Stands start h (pre ++ b :: post)) :
    ∃ q, Header h.mem b.addr b q ∧ Linked (Header h.mem) q post 0 := by
  obtain ⟨p, -, q, hb, hpost⟩ := linked_append.mp hh.linked
  have haddr := hb.addr
  subst haddr
  exact ⟨q, hb, hpost⟩

end Stands

/-! ## Walks -/

theorem findFreeLoop_spec (hl : Linked (Header h.mem) p bs 0)
    (hle : ∀ b ∈ bs, b.addr + HDR ≤ 2 ^ 32) (size turns : ℕ) (hturns : bs.length < turns) :
    h.findFreeLoop size turns p = some 0 ∧ (∀ b ∈ bs, b.free = true → b.size < size) ∨
      ∃ pre b post, bs = pre ++ b :: post ∧ b.free = true ∧
        size ≤ b.size ∧ b.addr ≠ 0 ∧ h.findFreeLoop size turns p = some b.addr := by
  induction bs generalizing p turns with
  | nil =>
      have hp : p = 0 := hl
      obtain ⟨turns, rfl⟩ := Nat.exists_eq_succ_of_ne_zero (by omega : turns ≠ 0)
      refine .inl ⟨?_, nofun⟩
      rw [Heap.findFreeLoop, if_pos hp]
  | cons b bs ih =>
      obtain ⟨q, hb, hrest⟩ := hl
      have haddr := hb.addr
      subst haddr
      rw [List.length_cons] at hturns
      obtain ⟨turns, rfl⟩ := Nat.exists_eq_succ_of_ne_zero (by omega : turns ≠ 0)
      have hp := hle b List.mem_cons_self
      have hgo : (¬ (b.free = true ∧ size ≤ b.size)) →
          h.findFreeLoop size (turns + 1) b.addr = h.findFreeLoop size turns q := by
        intro hno
        rw [Heap.findFreeLoop, if_neg hb.nonzero, hb.words.freeOf hp]
        cases hfree : b.free with
        | false => simp [hb.words.nextOf hp]
        | true =>
            have hsmall : ¬ size ≤ b.size := fun hfit ↦ hno ⟨hfree, hfit⟩
            simp [hb.words.nextOf hp, hb.words.sizeOf hp, hsmall]
      by_cases hfit : b.free = true ∧ size ≤ b.size
      · refine .inr ⟨[], b, bs, rfl, hfit.1, hfit.2, hb.nonzero, ?_⟩
        rw [Heap.findFreeLoop, if_neg hb.nonzero, hb.words.freeOf hp, hfit.1]
        simp [hb.words.sizeOf hp, hfit.2]
      · rw [hgo hfit]
        rcases ih hrest (fun c hc ↦ hle c (List.mem_cons_of_mem b hc)) turns (by omega) with
          ⟨hnone, hsmall⟩ | ⟨pre, c, post, rfl, hc⟩
        · exact .inl ⟨hnone, List.forall_mem_cons.mpr
            ⟨fun hfree ↦ not_le.mp fun hle ↦ hfit ⟨hfree, hle⟩, hsmall⟩⟩
        · exact .inr ⟨b :: pre, c, post, rfl, hc⟩

/-- The last block. -/
theorem lastLoop_spec (hl : Linked (Header h.mem) p (bs ++ [b]) 0)
    (hle : ∀ c ∈ bs ++ [b], c.addr + HDR ≤ 2 ^ 32) (turns : ℕ) (hturns : bs.length < turns) :
    h.lastLoop turns p = some b.addr := by
  induction bs generalizing p turns with
  | nil =>
      obtain ⟨q, hb, hq⟩ := hl
      have hq : q = 0 := hq
      obtain ⟨turns, rfl⟩ := Nat.exists_eq_succ_of_ne_zero (by omega : turns ≠ 0)
      have hp : p + HDR ≤ 2 ^ 32 := by
        rw [hb.addr]
        exact hle b (by simp)
      rw [Heap.lastLoop, hb.words.nextOf hp, hq, hb.addr]
      rfl
  | cons c bs ih =>
      obtain ⟨q, hc, hrest⟩ := hl
      rw [List.length_cons] at hturns
      obtain ⟨turns, rfl⟩ := Nat.exists_eq_succ_of_ne_zero (by omega : turns ≠ 0)
      have hp : p + HDR ≤ 2 ^ 32 := by
        rw [hc.addr]
        exact hle c (by simp)
      have hne : q ≠ 0 := by
        cases bs with
        | nil =>
            obtain ⟨r, hb, -⟩ := hrest
            exact hb.nonzero
        | cons d bs =>
            obtain ⟨r, hd, -⟩ := hrest
            exact hd.nonzero
      rw [Heap.lastLoop, hc.words.nextOf hp, Option.bind_eq_bind, Option.bind_some, if_neg hne]
      exact ih hrest (fun d hd ↦ hle d (List.mem_cons_of_mem c hd)) turns (by omega)

end Libc

end EclipseOS
