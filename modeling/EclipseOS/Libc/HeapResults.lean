import EclipseOS.Libc.HeapCalls

/-!
# Results of heap calls

What a call returns and where it leaves the break, whatever the heap looks like.
-/

namespace EclipseOS

namespace Libc

variable {h h' h'' h₁ : Heap} {a b p r n w size dst src ptr : ℕ}

/-- Neither the break nor the record of calls changed. -/
structure Settled (h h' : Heap) : Prop where
  brk : h'.brk = h.brk
  asked : h'.asked = h.asked

namespace Settled

theorem refl (h : Heap) : Settled h h := ⟨rfl, rfl⟩

theorem trans (hs : Settled h h') (hs' : Settled h' h'') : Settled h h'' :=
  ⟨hs'.brk.trans hs.brk, hs'.asked.trans hs.asked⟩

end Settled

/-! ## Writes -/

theorem settled_store (hs : h.store a w = some h') : Settled h h' := by
  obtain ⟨v, -, rfl⟩ := Option.map_eq_some_iff.mp hs
  exact ⟨rfl, rfl⟩

theorem settled_store8 {v : UInt8} (hs : h.store8 a v = some h') : Settled h h' := by
  obtain ⟨v', -, rfl⟩ := Option.map_eq_some_iff.mp hs
  exact ⟨rfl, rfl⟩

theorem settled_memset {v : UInt8} (hs : h.memset dst v n = some h') : Settled h h' := by
  induction n generalizing h dst with
  | zero =>
      obtain rfl := Option.some.inj hs
      exact Settled.refl h
  | succ n ih =>
      obtain ⟨h₁, hstore, hrest⟩ := Option.bind_eq_some_iff.mp hs
      exact (settled_store8 hstore).trans (ih hrest)

theorem settled_memcpy (hs : h.memcpy dst src n = some h') : Settled h h' := by
  induction n generalizing h dst src with
  | zero =>
      obtain rfl := Option.some.inj hs
      exact Settled.refl h
  | succ n ih =>
      obtain ⟨v, -, hs⟩ := Option.bind_eq_some_iff.mp hs
      obtain ⟨h₁, hstore, hrest⟩ := Option.bind_eq_some_iff.mp hs
      exact (settled_store8 hstore).trans (ih hrest)

theorem settled_split (hs : h.split b size = some h') : Settled h h' := by
  obtain ⟨n, -, hs⟩ := Option.bind_eq_some_iff.mp hs
  split_ifs at hs
  · obtain rfl := Option.some.inj hs
    exact Settled.refl h
  · obtain ⟨h₁, hset₁, hs⟩ := Option.bind_eq_some_iff.mp hs
    obtain ⟨q, -, hs⟩ := Option.bind_eq_some_iff.mp hs
    obtain ⟨h₂, hset₂, hs⟩ := Option.bind_eq_some_iff.mp hs
    obtain ⟨h₃, hset₃, hs⟩ := Option.bind_eq_some_iff.mp hs
    obtain ⟨h₄, hset₄, hs⟩ := Option.bind_eq_some_iff.mp hs
    have hfirst := (settled_store hset₁).trans (settled_store hset₂)
    exact hfirst.trans ((settled_store hset₃).trans ((settled_store hset₄).trans (settled_store hs)))

theorem settled_coalesce {turns : ℕ} (hs : Heap.coalesce b turns h = some h') : Settled h h' := by
  induction turns generalizing h with
  | zero => exact nomatch hs
  | succ turns ih =>
      obtain ⟨q, -, hs⟩ := Option.bind_eq_some_iff.mp hs
      split_ifs at hs
      · obtain rfl := Option.some.inj hs
        exact Settled.refl h
      · obtain ⟨f, -, hs⟩ := Option.bind_eq_some_iff.mp hs
        split_ifs at hs
        · obtain rfl := Option.some.inj hs
          exact Settled.refl h
        · obtain ⟨n, -, hs⟩ := Option.bind_eq_some_iff.mp hs
          split_ifs at hs
          · obtain rfl := Option.some.inj hs
            exact Settled.refl h
          · obtain ⟨n', -, hs⟩ := Option.bind_eq_some_iff.mp hs
            obtain ⟨h₁, hset₁, hs⟩ := Option.bind_eq_some_iff.mp hs
            obtain ⟨r, -, hs⟩ := Option.bind_eq_some_iff.mp hs
            obtain ⟨r', -, hs⟩ := Option.bind_eq_some_iff.mp hs
            obtain ⟨h₂, hset₂, hs⟩ := Option.bind_eq_some_iff.mp hs
            exact (settled_store hset₁).trans ((settled_store hset₂).trans (ih hs))

theorem settled_free (hs : h.free ptr = some h') : Settled h h' := by
  rw [Heap.free] at hs
  split_ifs at hs
  · obtain rfl := Option.some.inj hs
    exact Settled.refl h
  · obtain ⟨h₁, hset, hs⟩ := Option.bind_eq_some_iff.mp hs
    exact (settled_store hset).trans (settled_coalesce hs)

/-! ## Calls -/

/-- `sbrk` gives no block for a payload of `n` bytes: the kernel refuses, or the old
break is taken for an error or for `NULL`. -/
def Heap.Starves (h : Heap) (n : ℕ) : Prop :=
  h.Refuses (intptr (need n)) ∨ h.mistaken h.brk = true ∨ h.brk = 0

/-- What `grow` does to the break and to the record of calls. -/
structure Grown (h h' : Heap) (n : ℕ) : Prop where
  asked : h'.asked = intptr (need n) :: h.asked
  brk : h'.brk = h.brk ∧ h.Refuses (intptr (need n)) ∨
    ¬ h.Refuses (intptr (need n)) ∧ (h'.brk : ℤ) = h.brk + intptr (need n) ∧ h'.brk ≤ h.limit

theorem Grown.trans (hg : Grown h h' n) (hs : Settled h' h'') : Grown h h'' n where
  asked := hs.asked.trans hg.asked
  brk := hs.brk ▸ hg.brk

theorem sbrk_grown {p : Option ℕ} (hs : h.sbrk (intptr (need n)) = (p, h')) : Grown h h' n ∧
    h'.head = h.head ∧ ((p = none ∨ p = some 0) ∧ h.Starves n ∨ ¬ h.Starves n ∧ p = some h.brk) := by
  by_cases hr : h.Refuses (intptr (need n))
  · rw [sbrk_of_refuses hr] at hs
    obtain ⟨rfl, rfl⟩ := Prod.mk.inj hs
    exact ⟨⟨rfl, .inl ⟨rfl, hr⟩⟩, rfl, .inl ⟨.inl rfl, .inl hr⟩⟩
  · obtain ⟨h₁, hs₁, hbrk, hasked, hhead, -, -, hle, -⟩ := sbrk_of_not_refuses hr
    rw [hs₁] at hs
    obtain ⟨rfl, rfl⟩ := Prod.mk.inj hs
    refine ⟨⟨hasked, .inr ⟨hr, hbrk, hle⟩⟩, hhead, ?_⟩
    by_cases hm : h.mistaken h.brk = true
    · exact .inl ⟨.inl (if_pos hm), .inr (.inl hm)⟩
    · rw [if_neg hm]
      by_cases hzero : h.brk = 0
      · exact .inl ⟨.inr (congrArg some hzero), .inr (.inr hzero)⟩
      · refine .inr ⟨?_, rfl⟩
        rintro (hr' | hm' | hzero')
        · exact hr hr'
        · exact hm hm'
        · exact hzero hzero'

/-- A block is at the old break. -/
theorem grow_cases (hg : h.grow n = some (p, h')) : Grown h h' n ∧
    (h.Starves n ∧ p = 0 ∧ h'.head = h.head ∨ ¬ h.Starves n ∧ p = h.brk ∧ p ≠ 0) := by
  obtain ⟨⟨q, h₁⟩, hs⟩ : ∃ q, h.sbrk (intptr (need n)) = q := ⟨_, rfl⟩
  obtain ⟨hgrown, hhead, hq⟩ := sbrk_grown hs
  rw [need] at hs
  rw [Heap.grow, hs] at hg
  rcases hq with ⟨rfl | rfl, hstarves⟩ | ⟨hno, rfl⟩
  · obtain ⟨rfl, rfl⟩ := Prod.mk.inj (Option.some.inj hg)
    exact ⟨hgrown, .inl ⟨hstarves, rfl, hhead⟩⟩
  · obtain ⟨rfl, rfl⟩ := Prod.mk.inj (Option.some.inj hg)
    exact ⟨hgrown, .inl ⟨hstarves, rfl, hhead⟩⟩
  · have hne : h.brk ≠ 0 := fun hzero ↦ hno (.inr (.inr hzero))
    dsimp only at hg
    rw [if_neg hne] at hg
    obtain ⟨h₂, hset₂, hg⟩ := Option.bind_eq_some_iff.mp hg
    obtain ⟨h₃, hset₃, hg⟩ := Option.bind_eq_some_iff.mp hg
    obtain ⟨h₄, hset₄, hg⟩ := Option.bind_eq_some_iff.mp hg
    have hsettled := ((settled_store hset₂).trans (settled_store hset₃)).trans (settled_store hset₄)
    split_ifs at hg
    · obtain ⟨rfl, rfl⟩ := Prod.mk.inj (Option.some.inj hg)
      exact ⟨⟨hsettled.asked.trans hgrown.asked, hsettled.brk ▸ hgrown.brk⟩, .inr ⟨hno, rfl, hne⟩⟩
    · obtain ⟨last, -, hg⟩ := Option.bind_eq_some_iff.mp hg
      obtain ⟨h₅, hset₅, hg⟩ := Option.bind_eq_some_iff.mp hg
      obtain ⟨rfl, rfl⟩ := Prod.mk.inj (Option.some.inj hg)
      exact ⟨hgrown.trans (hsettled.trans (settled_store hset₅)), .inr ⟨hno, rfl, hne⟩⟩

/-- The block is a free one, or at the old break, or there is none. -/
theorem malloc_cases (hsize : size ≠ 0) (hm : h.malloc size = some (r, h')) :
    (∃ b, b ≠ 0 ∧ h.findFree (roundUp size) = some b ∧ r = (b + HDR) % 2 ^ 32 ∧ Settled h h') ∨
      h.findFree (roundUp size) = some 0 ∧ Grown h h' (roundUp size) ∧
        (h.Starves (roundUp size) ∧ r = 0 ∧ h'.head = h.head ∨
          ¬ h.Starves (roundUp size) ∧ r = (h.brk + HDR) % 2 ^ 32) := by
  rw [malloc_eq hsize] at hm
  obtain ⟨b, hfound, hm⟩ := Option.bind_eq_some_iff.mp hm
  split_ifs at hm with hb
  · obtain ⟨h₁, hsplit, hm⟩ := Option.bind_eq_some_iff.mp hm
    obtain ⟨h₂, hset, hm⟩ := Option.bind_eq_some_iff.mp hm
    obtain ⟨rfl, rfl⟩ := Prod.mk.inj (Option.some.inj hm)
    exact .inl ⟨b, hb, hfound, rfl, (settled_split hsplit).trans (settled_store hset)⟩
  · obtain ⟨⟨p, h₁⟩, hgrow, hm⟩ := Option.bind_eq_some_iff.mp hm
    obtain rfl : b = 0 := not_not.mp hb
    refine .inr ⟨hfound, ?_⟩
    obtain ⟨hgrown, ⟨hstarves, rfl, hhead⟩ | ⟨hno, rfl, hne⟩⟩ := grow_cases hgrow
    · obtain ⟨rfl, rfl⟩ := Prod.mk.inj (Option.some.inj hm)
      exact ⟨hgrown, .inl ⟨hstarves, rfl, hhead⟩⟩
    · dsimp only at hm
      rw [if_neg hne] at hm
      obtain ⟨h₂, hsplit, hm⟩ := Option.bind_eq_some_iff.mp hm
      obtain ⟨rfl, rfl⟩ := Prod.mk.inj (Option.some.inj hm)
      exact ⟨hgrown.trans (settled_split hsplit), .inr ⟨hno, rfl⟩⟩

/-- The product of a call of `calloc` that overflows. -/
def Overflows (n size : ℕ) : Prop := n ≠ 0 ∧ n * size % 2 ^ 32 / n ≠ size

theorem calloc_of_overflows (ho : Overflows n size) : h.calloc n size = some (0, h) := if_pos ho

/-- Zeroing the block changes nothing else. -/
theorem calloc_cases (ho : ¬ Overflows n size) (hc : h.calloc n size = some (r, h')) :
    ∃ h₁, h.malloc (n * size % 2 ^ 32) = some (r, h₁) ∧ Settled h₁ h' ∧ (r = 0 → h' = h₁) := by
  have hcall : h.calloc n size = _ := if_neg ho
  rw [hcall] at hc
  obtain ⟨⟨p, h₁⟩, hmalloc, hc⟩ := Option.bind_eq_some_iff.mp hc
  dsimp only at hc
  split_ifs at hc with hp
  · obtain ⟨h₂, hset, hc⟩ := Option.bind_eq_some_iff.mp hc
    obtain ⟨rfl, rfl⟩ := Prod.mk.inj (Option.some.inj hc)
    exact ⟨h₁, hmalloc, settled_memset hset, fun hzero ↦ absurd hzero hp⟩
  · obtain ⟨rfl, rfl⟩ := Prod.mk.inj (Option.some.inj hc)
    exact ⟨h₁, hmalloc, Settled.refl h₁, fun _ ↦ rfl⟩

/-- The block has room, or `malloc` finds another one. -/
theorem realloc_cases (hptr : ptr ≠ 0) (hsize : size ≠ 0) (hr : h.realloc ptr size = some (r, h')) :
    ∃ n, h.sizeOf ((ptr + 2 ^ 32 - HDR) % 2 ^ 32) = some n ∧
      (size ≤ n ∧ r = ptr ∧ h' = h ∨
        n < size ∧ ∃ h₁, h.malloc size = some (r, h₁) ∧ Settled h₁ h') := by
  rw [Heap.realloc, if_neg hptr, if_neg hsize] at hr
  obtain ⟨n, hn, hr⟩ := Option.bind_eq_some_iff.mp hr
  refine ⟨n, hn, ?_⟩
  split_ifs at hr with hfits
  · obtain ⟨rfl, rfl⟩ := Prod.mk.inj (Option.some.inj hr)
    exact .inl ⟨hfits, rfl, rfl⟩
  · obtain ⟨⟨p, h₁⟩, hmalloc, hr⟩ := Option.bind_eq_some_iff.mp hr
    refine .inr ⟨not_le.mp hfits, h₁, ?_⟩
    dsimp only at hr
    split_ifs at hr with hp
    · obtain ⟨k, -, hr⟩ := Option.bind_eq_some_iff.mp hr
      obtain ⟨h₂, hcopy, hr⟩ := Option.bind_eq_some_iff.mp hr
      obtain ⟨h₃, hfree, hr⟩ := Option.bind_eq_some_iff.mp hr
      obtain ⟨rfl, rfl⟩ := Prod.mk.inj (Option.some.inj hr)
      exact ⟨hmalloc, (settled_memcpy hcopy).trans (settled_free hfree)⟩
    · obtain ⟨rfl, rfl⟩ := Prod.mk.inj (Option.some.inj hr)
      exact ⟨hmalloc, Settled.refl h₁⟩

/-- The check of `calloc` tells just the products that do not fit. -/
theorem overflows_iff : Overflows n size ↔ 2 ^ 32 ≤ n * size := by
  constructor
  · rintro ⟨hn, hne⟩
    by_contra hlt
    rw [Nat.mod_eq_of_lt (not_le.mp hlt)] at hne
    exact hne (Nat.mul_div_cancel_left size (Nat.pos_of_ne_zero hn))
  · intro hle
    have hn : n ≠ 0 := by
      rintro rfl
      omega
    refine ⟨hn, fun heq ↦ ?_⟩
    have hdiv := Nat.div_mul_le_self (n * size % 2 ^ 32) n
    have hlt := Nat.mod_lt (n * size) (by norm_num : 2 ^ 32 > 0)
    rw [heq, Nat.mul_comm] at hdiv
    omega

end Libc

end EclipseOS
