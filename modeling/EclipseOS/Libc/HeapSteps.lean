import EclipseOS.Libc.BlockList

/-!
# Splitting, coalescing and growing

What the parts of `malloc` and `free` do to the block list, and which bytes they
write.
-/

namespace EclipseOS

namespace Libc

open LittleEndian Segments

/-! ## Blocks as values -/

namespace Block

/-- What `split` leaves of a block. -/
def shrunk (b : Block) (n : ℕ) : Block :=
  if b.size < n + HDR + 8 then b else { b with size := n }

def remainder (b : Block) (n : ℕ) : List Block :=
  if b.size < n + HDR + 8 then [] else [⟨b.addr + HDR + n, b.size - n - HDR, true⟩]

/-- A block with the free blocks right after it. -/
def absorb (b : Block) : List Block → List Block
  | [] => [b]
  | c :: post =>
      if c.free ∧ b.stop = c.addr then absorb { b with size := b.size + HDR + c.size } post
      else b :: c :: post

variable {b c : Block} {n : ℕ} {post : List Block}

theorem shrunk_addr : (b.shrunk n).addr = b.addr := by
  rw [shrunk]
  split <;> rfl

theorem shrunk_free : (b.shrunk n).free = b.free := by
  rw [shrunk]
  split <;> rfl

theorem le_shrunk (h : n ≤ b.size) : n ≤ (b.shrunk n).size := by
  rw [shrunk]
  split
  · exact h
  · exact Nat.le_refl n

theorem mem_absorb (hc : c ∈ post) (hused : c.free = false) : c ∈ b.absorb post := by
  induction post generalizing b with
  | nil => exact nomatch hc
  | cons d post ih =>
      rw [absorb]
      split
      · next hfree =>
        rcases List.mem_cons.mp hc with rfl | hc
        · rw [hused] at hfree
          exact nomatch hfree.1
        · exact ih hc
      · exact List.mem_cons_of_mem b hc

/-- The first block only grows. -/
theorem absorb_eq_cons (b : Block) (post : List Block) :
    ∃ c rest, b.absorb post = c :: rest ∧ c.addr = b.addr ∧ c.free = b.free ∧ b.size ≤ c.size := by
  induction post generalizing b with
  | nil => exact ⟨b, [], rfl, rfl, rfl, le_rfl⟩
  | cons d post ih =>
      rw [absorb]
      split
      · obtain ⟨c, rest, heq, haddr, hfree, hle⟩ := ih { b with size := b.size + HDR + d.size }
        refine ⟨c, rest, heq, haddr, hfree, le_trans ?_ hle⟩
        dsimp only
        omega
      · exact ⟨b, d :: post, rfl, rfl, rfl, le_rfl⟩

/-! Tilings stay tilings. -/

variable {a e : ℕ}

theorem tiles_free (f : Bool) (h : Tiles addr stop a [b] e) :
    Tiles addr stop a [{ b with free := f }] e := h

theorem tiles_split (n : ℕ) (h : Tiles addr stop a [b] e) :
    Tiles addr stop a (b.shrunk n :: b.remainder n) e := by
  obtain ⟨haddr, hlt, hstop⟩ := h
  have hstop : b.stop = e := hstop
  rw [shrunk, remainder]
  by_cases hsmall : b.size < n + HDR + 8
  · rw [if_pos hsmall, if_pos hsmall]
    exact ⟨haddr, hlt, hstop⟩
  · rw [if_neg hsmall, if_neg hsmall]
    rw [stop] at hlt hstop
    refine ⟨haddr, ?_, ?_, ?_, ?_⟩
    all_goals simp only [Tiles, stop]
    all_goals have hHDR : HDR = 12 := rfl
    all_goals omega

theorem tiles_absorb (h : Tiles addr stop a (b :: post) e) : Tiles addr stop a (b.absorb post) e := by
  induction post generalizing b with
  | nil => exact h
  | cons c post ih =>
      rw [absorb]
      split
      · next hfree =>
        obtain ⟨haddr, hlt, hc, hlt', hrest⟩ := h
        apply ih
        rw [stop] at hlt hc hlt' hrest
        refine ⟨haddr, ?_, ?_⟩
        · dsimp only [stop]
          omega
        · have hstop : ({ b with size := b.size + HDR + c.size } : Block).stop =
              c.addr + HDR + c.size := by
            dsimp only [stop]
            omega
          rw [hstop]
          exact hrest
      · exact h

end Block

variable {h h' : Heap} {start p q s f w n : ℕ} {b c : Block} {bs pre post : List Block}

/-- A header that lies apart from what was written. -/
theorem Words.frame (hw : Words h.mem p s q f) {lo hi : ℕ} (honly : Only h h' (Set.Ico lo hi))
    (hapart : p + HDR ≤ lo ∨ hi ≤ p) : Words h'.mem p s q f := by
  refine hw.congr fun a ha ↦ honly.kept a fun hmem ↦ ?_
  have h₁ := ha.1
  have h₂ := ha.2
  have h₃ := hmem.1
  have h₄ := hmem.2
  omega

namespace Stands

/-- Payloads do not meet headers. -/
theorem payload_apart (hh : Stands start h bs) (hb : b ∈ bs) (hc : c ∈ bs) {a : ℕ}
    (ha : a ∈ Set.Ico (b.addr + HDR) b.stop) : a ∉ Set.Ico c.addr (c.addr + HDR) := by
  intro hmem
  have h₁ := ha.1
  have h₂ := ha.2
  have h₃ := hmem.1
  have h₄ := hmem.2
  have hstop : c.addr + HDR ≤ c.stop := Nat.le_add_right _ _
  rcases hh.spaced.apart hb hc with rfl | hle | hle
  · omega
  · omega
  · omega

/-- A block in the list may be replaced by another list of blocks. -/
theorem replace (hh : Stands start h (pre ++ b :: post)) (mid : List Block)
    (honly : Only h h' (Set.Ico b.addr b.stop)) (hmid : Spaced Block.addr Block.stop b.addr mid b.stop)
    (hlinked : ∀ q, Header h.mem b.addr b q → Linked (Header h'.mem) b.addr mid q) :
    Stands start h' (pre ++ mid ++ post) := by
  have hcut : Stands start h (pre ++ [b] ++ post) := by
    rw [List.append_assoc]
    exact hh
  obtain ⟨a, e, p, q, -, -, ⟨ha, -, he⟩, ⟨r, hb, rfl⟩, hput⟩ := hcut.cut
  have haddr := hb.addr
  subst haddr
  have he : b.stop ≤ e := he
  refine hput h' mid (honly.mono (Set.Ico_subset_Ico ha he)) (hmid.widen ha he) ?_ (hlinked r hb)
  intro c hc x hx
  obtain ⟨hlo, -, hhi⟩ := hmid.bounds hc
  exact honly.defined x (hh.defined b (by simp) x ⟨hlo.trans hx.1, hx.2.trans_le hhi⟩)

theorem addr_lt_stop (hh : Stands start h (pre ++ b :: post)) : b.addr < b.stop :=
  (hh.spaced.bounds (List.mem_append_right pre List.mem_cons_self)).2.1

theorem setFree (hh : Stands start h (pre ++ b :: post)) (f : Bool) :
    ∃ h', h.setFree b.addr f.toNat = some h' ∧ Only h h' (Set.Ico b.addr (b.addr + HDR)) ∧
      Stands start h' (pre ++ { b with free := f } :: post) := by
  have hmem : b ∈ pre ++ b :: post := List.mem_append_right pre List.mem_cons_self
  obtain ⟨q, hb, -⟩ := hh.header
  obtain ⟨h', hset, honly, hwords⟩ := hb.words.setFree (hh.header_le hmem) (w := f.toNat) (by
    cases f <;> decide)
  refine ⟨h', hset, honly, ?_⟩
  have hall := hh.replace [{ b with free := f }]
    (honly.mono (Set.Ico_subset_Ico_right (Nat.le_add_right _ _)))
    ⟨le_rfl, hh.addr_lt_stop, le_rfl⟩ fun q' hb' ↦ ?_
  · rwa [List.append_assoc] at hall
  · obtain rfl : q = q' := Option.some.inj (hb.words.next.symm.trans hb'.words.next)
    exact ⟨q, ⟨rfl, hb.nonzero, hwords⟩, rfl⟩

/-- `split` cuts a block in two when the second part can hold something. -/
theorem split (hh : Stands start h (pre ++ b :: post)) (hn : n + HDR + 8 < 2 ^ 32) :
    ∃ h', h.split b.addr n = some h' ∧ Only h h' (Set.Ico b.addr b.stop) ∧
      Stands start h' (pre ++ b.shrunk n :: (b.remainder n ++ post)) := by
  have hmem : b ∈ pre ++ b :: post := List.mem_append_right pre List.mem_cons_self
  obtain ⟨hstart, hstop⟩ := hh.bounds hmem
  have hbrk := hh.bounded
  have hpos := hh.pos
  have hle := hh.header_le hmem
  obtain ⟨q, hb, -⟩ := hh.header
  rw [Heap.split, hb.words.sizeOf hle, Option.bind_eq_bind, Option.bind_some, Nat.mod_eq_of_lt hn,
    Block.shrunk, Block.remainder]
  by_cases hsmall : b.size < n + HDR + 8
  · rw [if_pos hsmall, if_pos hsmall, if_pos hsmall]
    exact ⟨h, rfl, Only.refl h _, hh⟩
  · rw [if_neg hsmall, if_neg hsmall, if_neg hsmall]
    have hstop' := hstop
    rw [Block.stop] at hstop'
    have hHDR : HDR = 12 := rfl
    -- the new header lies in the payload of `b`
    have hmod : (b.addr + HDR + n) % 2 ^ 32 = b.addr + HDR + n := Nat.mod_eq_of_lt (by omega)
    have hsize : (b.size + 2 * 2 ^ 32 - n - HDR) % 2 ^ 32 = b.size - n - HDR := by omega
    rw [hmod, hsize]
    generalize hrest : b.addr + HDR + n = rest
    have hrestle : rest + HDR ≤ 2 ^ 32 := by omega
    have hin : Set.Ico rest (rest + HDR) ⊆ Set.Ico b.addr b.stop :=
      Set.Ico_subset_Ico (by omega) (by rw [Block.stop]; omega)
    have hhead : Set.Ico b.addr (b.addr + HDR) ⊆ Set.Ico b.addr b.stop :=
      Set.Ico_subset_Ico_right (Nat.le_add_right _ _)
    obtain ⟨s, q', f, hwords⟩ := words_of_defined h.mem rest fun a ha ↦
      hh.defined b hmem a (hin ha)
    obtain ⟨h₁, hset₁, honly₁, hrest₁⟩ := hwords.setSize hrestle (w := b.size - n - HDR) (by omega)
    have hb₁ := hb.words.frame honly₁ (by omega)
    obtain ⟨h₂, hset₂, honly₂, hrest₂⟩ := hrest₁.setNext hrestle (read32_lt hb.words.next)
    have hb₂ := hb₁.frame honly₂ (by omega)
    obtain ⟨h₃, hset₃, honly₃, hrest₃⟩ := hrest₂.setFree hrestle (w := 1) (by omega)
    have hb₃ := hb₂.frame honly₃ (by omega)
    obtain ⟨h₄, hset₄, honly₄, hb₄⟩ := hb₃.setSize hle (w := n) (by omega)
    have hrest₄ := hrest₃.frame honly₄ (by omega)
    obtain ⟨h₅, hset₅, honly₅, hb₅⟩ := hb₄.setNext hle (w := rest) (by omega)
    have hrest₅ := hrest₄.frame honly₅ (by omega)
    have honly : Only h h₅ (Set.Ico b.addr b.stop) :=
      ((((honly₁.mono hin).trans (honly₂.mono hin)).trans (honly₃.mono hin)).trans
        (honly₄.mono hhead)).trans (honly₅.mono hhead)
    refine ⟨h₅, ?_, honly, ?_⟩
    · simp only [hset₁, hb₁.nextOf hle, hset₂, hset₃, hset₄, hset₅,
        Option.bind_eq_bind, Option.bind_some]
    · have hall := hh.replace [{ b with size := n }, ⟨rest, b.size - n - HDR, true⟩] honly
        ⟨le_rfl, ?_, ?_, ?_, ?_⟩ fun q'' hb' ↦ ?_
      · rwa [List.append_assoc] at hall
      · simp only [Block.stop]
        omega
      · simp only [Block.stop]
        omega
      · simp only [Block.stop]
        omega
      · simp only [Spaced, Block.stop]
        omega
      · obtain rfl : q = q'' := Option.some.inj (hb.words.next.symm.trans hb'.words.next)
        exact ⟨rest, ⟨rfl, hb.nonzero, hb₅⟩, q, ⟨rfl, by omega, hrest₅⟩, rfl⟩

/-- The loop of `free` absorbs the free blocks that follow. -/
theorem coalesce (hh : Stands start h (pre ++ b :: post)) (turns : ℕ)
    (hturns : post.length < turns) :
    ∃ h', Heap.coalesce b.addr turns h = some h' ∧ Only h h' (Set.Ico b.addr (b.addr + HDR)) ∧
      Stands start h' (pre ++ b.absorb post) := by
  induction post generalizing h b turns with
  | nil =>
      obtain ⟨turns, rfl⟩ := Nat.exists_eq_succ_of_ne_zero (by omega : turns ≠ 0)
      obtain ⟨q, hb, hq⟩ := hh.header
      have hq : q = 0 := hq
      have hle := hh.header_le (List.mem_append_right pre List.mem_cons_self)
      refine ⟨h, ?_, Only.refl h _, hh⟩
      rw [Heap.coalesce, hb.words.nextOf hle, Option.bind_eq_bind, Option.bind_some, if_pos hq]
  | cons c post ih =>
      rw [List.length_cons] at hturns
      obtain ⟨turns, rfl⟩ := Nat.exists_eq_succ_of_ne_zero (by omega : turns ≠ 0)
      obtain ⟨q, hb, r, hc, -⟩ := hh.header
      have haddr := hc.addr
      subst haddr
      have hbmem : b ∈ pre ++ b :: c :: post := List.mem_append_right pre List.mem_cons_self
      have hcmem : c ∈ pre ++ b :: c :: post := by simp
      have hble := hh.header_le hbmem
      have hcle := hh.header_le hcmem
      rw [Heap.coalesce, hb.words.nextOf hble, Option.bind_eq_bind, Option.bind_some,
        if_neg hc.nonzero, hc.words.freeOf hcle, Option.bind_some, Block.absorb]
      have hHDR : HDR = 12 := rfl
      have hafter : b.stop ≤ c.addr :=
        (List.pairwise_cons.mp (List.pairwise_append.mp hh.spaced.pairwise).2.1).1 c (by simp)
      have hmod : (b.addr + HDR + b.size) % 2 ^ 32 = b.stop := Nat.mod_eq_of_lt (by
        rw [Block.stop] at hafter
        omega)
      cases hfree : c.free with
      | false => exact ⟨h, rfl, Only.refl h _, hh⟩
      | true =>
        by_cases hbc : b.stop = c.addr
        · have hcut : Stands start h (pre ++ [b, c] ++ post) := by
            rw [List.append_assoc]
            exact hh
          obtain ⟨a, e, p, q, -, hebrk, ⟨hab, -, -, -, hce⟩,
            ⟨r₁, hb', r₂, hc', rfl⟩, hput⟩ := hcut.cut
          have haddr := hb'.addr
          subst haddr
          have hcaddr := hc'.addr
          subst hcaddr
          obtain rfl : r = r₂ := Option.some.inj (hc.words.next.symm.trans hc'.words.next)
          have hbounded := hh.bounded
          have hce : c.stop ≤ e := hce
          have hnext := hmod.trans hbc
          have hcstop := hce.trans hebrk
          rw [Block.stop] at hbc hcstop
          have hsum : (b.size + (HDR + c.size)) % 2 ^ 32 = b.size + HDR + c.size := by
            have hpos := hh.pos
            have hstart := (hh.bounds hbmem).1
            omega
          have hstop : ({ b with size := b.size + HDR + c.size } : Block).stop = c.stop := by
            simp only [Block.stop]
            omega
          obtain ⟨h₁, hset₁, honly₁, hb₁⟩ :=
            hb.words.setSize hble (w := b.size + HDR + c.size) (by omega)
          have hc₁ := hc.words.frame honly₁ (by omega)
          obtain ⟨h₂, hset₂, honly₂, hb₂⟩ := hb₁.setNext hble (read32_lt hc.words.next)
          have honly := honly₁.trans honly₂
          have hstep : Stands start h₂ (pre ++ { b with size := b.size + HDR + c.size } :: post) := by
            have hall := hput h₂ [{ b with size := b.size + HDR + c.size }]
              (honly.mono (Set.Ico_subset_Ico hab (by rw [Block.stop] at hce; omega)))
              ⟨hab, by simp only [Block.stop]; omega, hstop.trans_le hce⟩ ?_
              ⟨r, ⟨rfl, hb'.nonzero, hb₂⟩, rfl⟩
            · rwa [List.append_assoc] at hall
            · intro d hd x hx
              rw [List.mem_singleton.mp hd, hstop] at hx
              apply honly.defined
              by_cases hxc : x < c.addr
              · exact hh.defined b hbmem x ⟨hx.1, by rw [Block.stop]; omega⟩
              · exact hh.defined c hcmem x ⟨not_lt.mp hxc, hx.2⟩
          obtain ⟨h', hloop, honly', hh'⟩ := ih hstep turns (by omega)
          refine ⟨h', ?_, honly.trans honly', ?_⟩
          swap
          · rw [if_pos ⟨rfl, Block.stop.eq_1 b ▸ hbc⟩]
            exact hh'
          simp only [hb.words.sizeOf hble, hc.words.sizeOf hcle, hnext, hsum, hset₁,
            hb₁.nextOf hble, hc₁.nextOf hcle, hset₂, Option.bind_eq_bind, Option.bind_some]
          rw [if_neg (by decide), if_neg (by simp)]
          exact hloop
        · refine ⟨h, ?_, Only.refl h _, ?_⟩
          · simp only [hb.words.sizeOf hble, hmod, Option.bind_eq_bind, Option.bind_some]
            rw [if_neg (by decide), if_pos hbc]
          · rw [if_neg fun hand ↦ hbc hand.2]
            exact hh

end Stands

/-! ## Growing -/

/-- The kernel does not move the break by `i`. -/
def Heap.Refuses (h : Heap) (i : ℤ) : Prop :=
  h.refuse h.sbrks = true ∨ h.brk + i < 0 ∨ h.limit < h.brk + i

/-- What `grow` asks `sbrk` for. -/
def need (size : ℕ) : ℕ := (((size + HDR) % 2 ^ 32 + 0xFFF) % 2 ^ 32) &&& 0xFFFFF000

theorem need_eq_mod (size : ℕ) :
    need size = ((size + HDR) % 2 ^ 32 + 0xFFF) % 2 ^ 32 / 4096 * 4096 :=
  and_page_mask (Nat.mod_lt _ (by norm_num))

theorem sbrk_of_refuses {i : ℤ} (hr : h.Refuses i) :
    h.sbrk i = (none, { h with sbrks := h.sbrks + 1, asked := i :: h.asked }) := if_pos hr

theorem grow_of_refuses (hr : h.Refuses (intptr (need n))) : h.grow n =
    some (0, { h with sbrks := h.sbrks + 1, asked := intptr (need n) :: h.asked }) := by
  have hsbrk := sbrk_of_refuses hr
  rw [need] at hsbrk ⊢
  rw [Heap.grow, hsbrk]

/-- The old break is told, or taken for an error. -/
theorem sbrk_of_not_refuses {i : ℤ} (hr : ¬ h.Refuses i) :
    ∃ h', h.sbrk i = (if h.mistaken h.brk then none else some h.brk, h') ∧
      (h'.brk : ℤ) = h.brk + i ∧ h'.asked = i :: h.asked ∧ h'.head = h.head ∧
      h'.limit = h.limit ∧ h'.mistaken = h.mistaken ∧ h'.brk ≤ h.limit ∧
      ∀ a < h.brk, a < h'.brk → h'.mem a = h.mem a := by
  have hbrk : ¬ (h.brk + i < 0) ∧ ¬ (h.limit < h.brk + i) := by
    rw [Heap.Refuses, not_or, not_or] at hr
    exact hr.2
  refine ⟨_, if_neg hr, ?_, rfl, rfl, rfl, rfl, ?_, fun a ha hlt ↦ ?_⟩
  · exact Int.toNat_of_nonneg (by omega)
  · dsimp only
    omega
  · dsimp only at hlt ⊢
    rw [if_neg (by omega), if_neg (by omega)]

namespace Stands

/-- A positive increment that is granted gives memory from the break on. -/
theorem sbrk (_ : Stands start h bs) (n : ℕ) (hr : ¬ h.Refuses n)
    (htold : h.mistaken h.brk = false) :
    ∃ h', h.sbrk n = (some h.brk, h') ∧ h'.brk = h.brk + n ∧ h'.head = h.head ∧
      h'.mistaken = h.mistaken ∧ h'.brk ≤ 2 ^ 32 ∧ (∀ a < h.brk, h'.mem a = h.mem a) ∧
      ∀ a ∈ Set.Ico h.brk (h.brk + n), h'.mem a ≠ none := by
  have hbrk : ¬ (h.limit < (h.brk + n : ℤ)) := fun hlt ↦ hr (.inr (.inr hlt))
  have hle := h.limit_le
  have hto : (h.brk + n : ℤ).toNat = h.brk + n := by omega
  have hgrant : ¬ (h.refuse h.sbrks = true ∨ h.brk + (n : ℤ) < 0 ∨ h.limit < h.brk + (n : ℤ)) := hr
  rw [Heap.sbrk]
  rw [if_neg hgrant, htold, if_neg Bool.false_ne_true]
  refine ⟨_, rfl, hto, rfl, rfl, ?_, fun a ha ↦ ?_, fun a ha ↦ ?_⟩
  · dsimp only
    rw [hto]
    omega
  · dsimp only
    rw [if_neg (by omega), if_neg (by omega)]
  · have h₁ := ha.1
    have h₂ := ha.2
    dsimp only
    rw [if_pos (by omega)]
    exact Option.some_ne_none _

theorem need_eq (hsize : n ≤ 2 ^ 31 - 4112) : need n = (n + HDR + 4095) / 4096 * 4096 := by
  have hHDR : HDR = 12 := rfl
  rw [need_eq_mod]
  omega

/-- Nothing of the blocks was written. -/
theorem frame (hh : Stands start h bs) {lo hi : ℕ} (honly : Only h h' (Set.Ico lo hi))
    (hapart : ∀ b ∈ bs, b.stop ≤ lo) : Stands start h' bs where
  pos := hh.pos
  bounded := honly.brk ▸ hh.bounded
  defined := fun b hb a ha ↦ honly.defined a (hh.defined b hb a ha)
  spaced := honly.brk ▸ hh.spaced
  linked := by
    rw [honly.head]
    refine linked_congr hh.linked fun b hb a ha ↦ honly.kept a fun hmem ↦ ?_
    have h₁ := ha.2
    have h₂ := hmem.1
    have h₃ := hapart b hb
    rw [Block.stop] at h₃
    omega

/-- Memory that is added behind the break. -/
theorem raise (hh : Stands start h bs) (hhead : h'.head = h.head) (hle : h.brk ≤ h'.brk)
    (hbounded : h'.brk ≤ 2 ^ 32) (hkept : ∀ a < h.brk, h'.mem a = h.mem a) : Stands start h' bs where
  pos := hh.pos
  bounded := hbounded
  defined := fun b hb a ha ↦ by
    rw [hkept a (ha.2.trans_le (hh.bounds hb).2)]
    exact hh.defined b hb a ha
  spaced := hh.spaced.widen le_rfl hle
  linked := by
    rw [hhead]
    refine linked_congr hh.linked fun b hb a ha ↦ hkept a ?_
    have hstop := (hh.bounds hb).2
    rw [Block.stop] at hstop
    exact ha.2.trans_le (by omega)

/-- A header is written where there is memory. -/
theorem write_header {p s q f : ℕ} (hp : p + HDR ≤ 2 ^ 32)
    (hdef : ∀ a ∈ Set.Ico p (p + HDR), h.mem a ≠ none) (hs : s < 2 ^ 32) (hq : q < 2 ^ 32)
    (hf : f < 2 ^ 32) : ∃ h₁ h₂ h', h.setSize p s = some h₁ ∧ h₁.setNext p q = some h₂ ∧
      h₂.setFree p f = some h' ∧ Only h h' (Set.Ico p (p + HDR)) ∧ Words h'.mem p s q f := by
  obtain ⟨s₀, q₀, f₀, hwords⟩ := words_of_defined h.mem p hdef
  obtain ⟨h₁, hset₁, honly₁, hwords₁⟩ := hwords.setSize hp hs
  obtain ⟨h₂, hset₂, honly₂, hwords₂⟩ := hwords₁.setNext hp hq
  obtain ⟨h', hset', honly', hwords'⟩ := hwords₂.setFree hp hf
  exact ⟨h₁, h₂, h', hset₁, hset₂, hset', (honly₁.trans honly₂).trans honly', hwords'⟩

/-- A block behind the others is linked after the last one. -/
theorem link (hh : Stands start h bs) (hb : Header h.mem b.addr b 0) (hlow : start ≤ b.addr)
    (hafter : ∀ c ∈ bs, c.stop ≤ b.addr) (hstop : b.stop ≤ h.brk)
    (hdef : ∀ a ∈ Set.Ico b.addr b.stop, h.mem a ≠ none) :
    ∃ h', (if h.head = 0 then some { h with head := b.addr }
        else (h.lastLoop TURNS h.head).bind fun last ↦ h.setNext last b.addr) = some h' ∧
      Stands start h' (bs ++ [b]) ∧ h'.brk = h.brk ∧ h'.mistaken = h.mistaken ∧
      ∀ c ∈ bs, ∀ a ∈ Set.Ico (c.addr + HDR) c.stop, h'.mem a = h.mem a := by
  have hHDR : HDR = 12 := rfl
  have hbounded := hh.bounded
  have hlt : b.addr < b.stop := by
    rw [Block.stop]
    omega
  have hspaced : Spaced Block.addr Block.stop start (bs ++ [b]) h.brk := by
    refine spaced_append.mpr ⟨b.addr, ?_, le_rfl, hlt, hstop⟩
    rcases List.eq_nil_or_concat bs with rfl | ⟨init, last, rfl⟩
    · exact hlow
    · rw [List.concat_eq_append] at hh hafter ⊢
      obtain ⟨a, hinit, hlast⟩ := spaced_append.mp hh.spaced
      exact spaced_append.mpr ⟨a, hinit, hlast.1, hlast.2.1, hafter last (by simp)⟩
  have hall (h' : Heap) (hd : ∀ a, h.mem a ≠ none → h'.mem a ≠ none) :
      ∀ c ∈ bs ++ [b], ∀ a ∈ Set.Ico c.addr c.stop, h'.mem a ≠ none := by
    intro c hc a ha
    rcases List.mem_append.mp hc with hc | hc
    · exact hd a (hh.defined c hc a ha)
    · rw [List.mem_singleton.mp hc] at ha
      exact hd a (hdef a ha)
  by_cases hempty : h.head = 0
  · rw [if_pos hempty]
    have hnil : bs = [] := by
      cases bs with
      | nil => rfl
      | cons c bs =>
          obtain ⟨q, hc, -⟩ := hh.linked
          exact absurd hempty hc.nonzero
    subst hnil
    exact ⟨_, rfl, ⟨hh.pos, hbounded, hall _ fun _ hne ↦ hne, hspaced, 0, hb, rfl⟩, rfl, rfl,
      fun _ hc ↦ absurd hc List.not_mem_nil⟩
  · rw [if_neg hempty]
    rcases List.eq_nil_or_concat bs with rfl | ⟨init, last, rfl⟩
    · exact absurd hh.linked hempty
    · rw [List.concat_eq_append] at *
      have hmem : last ∈ init ++ [last] := by simp
      have hturns : init.length < TURNS := by
        have hlength := hh.length_lt
        rw [List.length_append] at hlength
        omega
      obtain ⟨p, hinit, q, hlast, -⟩ := linked_append.mp hh.linked
      have haddr := hlast.addr
      subst haddr
      have hle := hh.header_le hmem
      have hlast_stop := hafter last hmem
      rw [Block.stop] at hlast_stop
      obtain ⟨h', hset, honly, hwords⟩ := hlast.words.setNext hle (w := b.addr) (by omega)
      rw [lastLoop_spec hh.linked (fun c hc ↦ hh.header_le hc) TURNS hturns, Option.bind_some, hset]
      refine ⟨h', rfl, ⟨hh.pos, honly.brk ▸ hbounded, hall _ honly.defined, honly.brk ▸ hspaced, ?_⟩,
        honly.brk, honly.mistaken, fun c hc a ha ↦ honly.kept a (hh.payload_apart hc hmem ha)⟩
      have hb' : Header h'.mem b.addr b 0 :=
        ⟨rfl, hb.nonzero, hb.words.frame honly (.inr (by omega))⟩
      have hinit' : Linked (Header h'.mem) h.head init last.addr :=
        linked_congr hinit fun c hc a ha ↦ honly.kept a fun hin ↦ by
          have hbefore := (List.pairwise_append.mp hh.spaced.pairwise).2.2 c hc last (by simp)
          have h₁ := ha.2
          have h₂ := hin.1
          rw [Block.stop] at hbefore
          omega
      rw [honly.head]
      refine linked_append.mpr ⟨b.addr, linked_append.mpr ⟨last.addr, hinit', b.addr, ?_, rfl⟩, 0,
        hb', rfl⟩
      exact ⟨rfl, hlast.nonzero, hwords⟩

/-- `grow` puts a block at the end of the list. -/
theorem grow (hh : Stands start h bs) (hsize : n ≤ 2 ^ 31 - 4112)
    (hr : ¬ h.Refuses (intptr (need n)))
    (htold : h.mistaken h.brk = false) :
    ∃ h' b, h.grow n = some (b.addr, h') ∧ b.addr ≠ 0 ∧ b.free = false ∧ n ≤ b.size ∧
      h'.mistaken = h.mistaken ∧ Stands start h' (bs ++ [b]) ∧
      (Tiles Block.addr Block.stop start bs h.brk →
        Tiles Block.addr Block.stop start (bs ++ [b]) h'.brk) ∧
      ∀ c ∈ bs, ∀ a ∈ Set.Ico (c.addr + HDR) c.stop, h'.mem a = h.mem a := by
  have hHDR : HDR = 12 := rfl
  have hstart := hh.spaced.le
  have hpos := hh.pos
  obtain ⟨N, hN, hle, hmax⟩ : ∃ N, N = need n ∧ n + HDR ≤ N ∧ N ≤ 2 ^ 31 - 4096 :=
    ⟨need n, rfl, by rw [need_eq hsize]; omega, by rw [need_eq hsize]; omega⟩
  have hint : intptr N = N := by rw [intptr, if_pos (by omega)]
  rw [← hN, hint] at hr
  obtain ⟨h₁, hsbrk, hbrk, hhead, htold₁, hbounded, hkept, hdef⟩ := hh.sbrk N hr htold
  have hsub : (N + 2 ^ 32 - HDR) % 2 ^ 32 = N - HDR := by omega
  obtain ⟨b, haddr, hsize', hfree⟩ : ∃ b : Block, b.addr = h.brk ∧ b.size = N - HDR ∧ b.free = false :=
    ⟨⟨h.brk, N - HDR, false⟩, rfl, rfl, rfl⟩
  have hstop : b.stop = h₁.brk := by
    rw [hbrk, Block.stop]
    omega
  obtain ⟨h₂, h₃, h₄, hset₂, hset₃, hset₄, honly, hwords⟩ :=
    write_header (h := h₁) (p := h.brk) (s := N - HDR) (q := 0) (f := 0) (by omega)
      (fun a ha ↦ hdef a ⟨ha.1, by have := ha.2; omega⟩) (by omega) (by omega) (by omega)
  have hh₄ : Stands start h₄ bs :=
    (hh.raise hhead (by omega) hbounded hkept).frame honly fun c hc ↦ (hh.bounds hc).2
  have hheader : Header h₄.mem b.addr b 0 := ⟨rfl, by omega, by rw [haddr, hsize', hfree]; exact hwords⟩
  obtain ⟨h', hlink, hh', hbrk', htold', hpayload⟩ := hh₄.link hheader (by omega)
    (fun c hc ↦ haddr ▸ (hh.bounds hc).2) (by rw [hstop, honly.brk])
    fun a ha ↦ honly.defined a (hdef a ⟨haddr ▸ ha.1, by rw [← hbrk, ← hstop]; exact ha.2⟩)
  rw [haddr] at hlink
  refine ⟨h', b, ?_, by omega, hfree, by omega, ?_, hh', fun ht ↦ ?_, fun c hc a ha ↦ ?_⟩
  · have hneed : (((n + HDR) % 2 ^ 32 + 0xFFF) % 2 ^ 32) &&& 0xFFFFF000 = N := hN.symm
    rw [Heap.grow]
    rw [hneed, hint, hsbrk]
    dsimp only
    rw [if_neg (by omega), hsub, haddr]
    simp only [hset₂, hset₃, hset₄, Option.bind_eq_bind, Option.bind_some]
    by_cases hempty : h₄.head = 0
    · rw [if_pos hempty] at hlink ⊢
      rw [← Option.some.inj hlink]
    · rw [if_neg hempty] at hlink ⊢
      obtain ⟨last, hlast, hset⟩ := Option.bind_eq_some_iff.mp hlink
      rw [hlast, Option.bind_some, hset, Option.bind_some]
  · rw [htold', honly.mistaken, htold₁]
  · refine tiles_append.mpr ⟨h.brk, ht, haddr, ?_, ?_⟩
    · rw [hstop]
      omega
    · rw [hbrk', honly.brk]
      exact hstop
  · have hlt : a < h.brk := ha.2.trans_le (hh.bounds hc).2
    rw [hpayload c hc a ha, honly.kept a fun hmem ↦ absurd hmem.1 (not_le.mpr hlt), hkept a hlt]

end Stands

end Libc

end EclipseOS
