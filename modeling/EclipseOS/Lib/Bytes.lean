import EclipseOS.Lib.Words

/-!
# Partial byte memories

A memory gives a byte for some of the addresses.  `fill` writes a run of bytes
and thereby defines them; words are read at any address and need not be aligned.
-/

namespace LittleEndian

abbrev Bytes := ℕ → Option UInt8

/-- `n` bytes from `a` on are the values of `f`. -/
def fill (μ : Bytes) (a n : ℕ) (f : ℕ → UInt8) : Bytes := fun x ↦
  if a ≤ x ∧ x < a + n then some (f (x - a)) else μ x

/-- All of `n` bytes from `a` on are there. -/
def Defined (μ : Bytes) (a n : ℕ) : Prop := ∀ k < n, μ (a + k) ≠ none

def read32 (μ : Bytes) (a : ℕ) : Option ℕ := do
  let b₀ ← μ a
  let b₁ ← μ (a + 1)
  let b₂ ← μ (a + 2)
  let b₃ ← μ (a + 3)
  return joinBytes b₀ b₁ b₂ b₃

def write32 (μ : Bytes) (a w : ℕ) : Bytes := fill μ a 4 (byteOf w)

variable {μ ν : Bytes} {a b n k w x : ℕ} {f g : ℕ → UInt8}

theorem fill_zero (μ : Bytes) (a : ℕ) (f : ℕ → UInt8) : fill μ a 0 f = μ := by
  funext x
  rw [fill, if_neg]
  omega

/-- The first byte, then the others. -/
theorem fill_succ (μ : Bytes) (a n : ℕ) (f : ℕ → UInt8) :
    fill (Function.update μ a (some (f 0))) (a + 1) n (fun k ↦ f (k + 1)) = fill μ a (n + 1) f := by
  funext x
  simp only [fill, Function.update_apply]
  by_cases hx : x = a
  · subst hx
    simp
  · by_cases hin : a + 1 ≤ x ∧ x < a + 1 + n
    · rw [if_pos hin, if_pos (by omega), show x - (a + 1) + 1 = x - a by omega]
    · rw [if_neg hin, if_neg hx, if_neg (by omega)]

theorem fill_apply_of_lt (h : x < a) : fill μ a n f x = μ x := by
  rw [fill, if_neg (by omega)]

theorem fill_apply_of_ge (h : a + n ≤ x) : fill μ a n f x = μ x := by
  rw [fill, if_neg (by omega)]

theorem fill_apply_add (h : k < n) : fill μ a n f (a + k) = some (f k) := by
  rw [fill, if_pos (by omega), Nat.add_sub_cancel_left]

theorem fill_ne_none (h : μ x ≠ none) : fill μ a n f x ≠ none := by
  rw [fill]
  split
  · exact Option.some_ne_none _
  · exact h

namespace Defined

theorem update {c : UInt8} (h : Defined μ b k) : Defined (Function.update μ a (some c)) b k :=
  fun i hi ↦ by
    rw [Function.update_apply]
    split
    · exact Option.some_ne_none _
    · exact h i hi

theorem succ (h : Defined μ a (n + 1)) : μ a ≠ none ∧ Defined μ (a + 1) n :=
  ⟨h 0 (by omega), fun i hi ↦ by
    have := h (i + 1) (by omega)
    rwa [show a + (i + 1) = a + 1 + i by omega] at this⟩

end Defined

/-- A word is there exactly when its four bytes are. -/
theorem read32_eq_none : read32 μ a = none ↔ ¬ Defined μ a 4 := by
  constructor
  · intro h hdef
    obtain ⟨b₀, h₀⟩ := Option.ne_none_iff_exists'.mp (hdef 0 (by norm_num))
    obtain ⟨b₁, h₁⟩ := Option.ne_none_iff_exists'.mp (hdef 1 (by norm_num))
    obtain ⟨b₂, h₂⟩ := Option.ne_none_iff_exists'.mp (hdef 2 (by norm_num))
    obtain ⟨b₃, h₃⟩ := Option.ne_none_iff_exists'.mp (hdef 3 (by norm_num))
    rw [Nat.add_zero] at h₀
    simp [read32, h₀, h₁, h₂, h₃] at h
  · intro h
    by_contra hne
    obtain ⟨v, hv⟩ := Option.ne_none_iff_exists'.mp hne
    simp only [read32, Option.bind_eq_bind, Option.bind_eq_some_iff] at hv
    obtain ⟨b₀, h₀, b₁, h₁, b₂, h₂, b₃, h₃, -⟩ := hv
    refine h fun k hk ↦ ?_
    obtain rfl | rfl | rfl | rfl : k = 0 ∨ k = 1 ∨ k = 2 ∨ k = 3 := by omega
    · simp [h₀]
    · simp [h₁]
    · simp [h₂]
    · simp [h₃]

/-- A word depends on its four bytes. -/
theorem read32_congr (h : ∀ k < 4, μ (a + k) = ν (a + k)) : read32 μ a = read32 ν a := by
  have h₀ := h 0 (by norm_num)
  rw [Nat.add_zero] at h₀
  simp only [read32, h₀, h 1 (by norm_num), h 2 (by norm_num), h 3 (by norm_num)]

theorem read32_lt (h : read32 μ a = some w) : w < 2 ^ 32 := by
  simp only [read32, Option.bind_eq_bind, Option.bind_eq_some_iff, Option.pure_def,
    Option.some.injEq] at h
  obtain ⟨b₀, -, b₁, -, b₂, -, b₃, -, rfl⟩ := h
  exact joinBytes_lt b₀ b₁ b₂ b₃

/-- The bytes of a word that was read. -/
theorem apply_of_read32 (h : read32 μ a = some w) (hk : k < 4) : μ (a + k) = some (byteOf w k) := by
  simp only [read32, Option.bind_eq_bind, Option.bind_eq_some_iff, Option.pure_def,
    Option.some.injEq] at h
  obtain ⟨b₀, h₀, b₁, h₁, b₂, h₂, b₃, h₃, rfl⟩ := h
  obtain ⟨e₀, e₁, e₂, e₃⟩ := byteOf_joinBytes b₀ b₁ b₂ b₃
  obtain rfl | rfl | rfl | rfl : k = 0 ∨ k = 1 ∨ k = 2 ∨ k = 3 := by omega
  · rw [Nat.add_zero, h₀, e₀]
  · rw [h₁, e₁]
  · rw [h₂, e₂]
  · rw [h₃, e₃]

/-- Memories with the same word have the same bytes. -/
theorem apply_eq_of_read32_eq (h : read32 μ a = read32 ν a) (hdef : Defined μ a 4) (hk : k < 4) :
    μ (a + k) = ν (a + k) := by
  obtain ⟨w, hw⟩ := Option.ne_none_iff_exists'.mp fun hnone ↦ read32_eq_none.mp hnone hdef
  have hw' : read32 ν a = some w := by rw [← h, hw]
  rw [apply_of_read32 hw hk, apply_of_read32 hw' hk]

theorem read32_write32 (μ : Bytes) (a w : ℕ) : read32 (write32 μ a w) a = some (w % 2 ^ 32) := by
  have h : ∀ k < 4, write32 μ a w (a + k) = some (byteOf w k) := fun k hk ↦ fill_apply_add hk
  have h₀ := h 0 (by norm_num)
  rw [Nat.add_zero] at h₀
  simp only [read32, h₀, h 1 (by norm_num), h 2 (by norm_num), h 3 (by norm_num),
    Option.bind_eq_bind, Option.bind_some, Option.pure_def, joinBytes_byteOf]

/-- One memory is part of another. -/
def Extends (μ ν : Bytes) : Prop := ∀ x b, μ x = some b → ν x = some b

namespace Extends

theorem apply (h : Extends μ ν) (hx : μ x ≠ none) : ν x = μ x := by
  obtain ⟨b, hb⟩ := Option.ne_none_iff_exists'.mp hx
  rw [hb, h x b hb]

theorem defined (h : Extends μ ν) (hdef : Defined μ a n) : Defined ν a n := fun k hk ↦ by
  rw [h.apply (hdef k hk)]
  exact hdef k hk

theorem read32 (h : Extends μ ν) (hw : LittleEndian.read32 μ a = some w) :
    LittleEndian.read32 ν a = some w := by
  have hdef : Defined μ a 4 := by
    by_contra hno
    rw [read32_eq_none.mpr hno] at hw
    exact nomatch hw
  rw [← hw]
  exact read32_congr fun k hk ↦ h.apply (hdef k hk)

end Extends

theorem extends_none (ν : Bytes) : Extends (fun _ ↦ none) ν := fun _ _ hb ↦ by cases hb

/-- What is in `μ`, and elsewhere what is in `κ`. -/
def beside (μ κ : Bytes) : Bytes := fun x ↦ (μ x).or (κ x)

@[simp] theorem beside_none (μ : Bytes) : beside μ (fun _ ↦ none) = μ := by
  funext x
  rw [beside, Option.or_none]

theorem beside_eq_none {κ : Bytes} : beside μ κ x = none ↔ μ x = none ∧ κ x = none := Option.or_eq_none_iff

/-! ## Adding to words -/

/-- `c` is added to the word at `w`. -/
def addWord (c : ℕ) (μ : Bytes) (w : ℕ) : Bytes :=
  match read32 μ w with
  | some v => write32 μ w (v + c)
  | none => μ

/-- To one word after another. -/
def addWords (c : ℕ) (μ : Bytes) (ws : List ℕ) : Bytes := ws.foldl (addWord c) μ

/-- Words that do not overlap. -/
def Apart (v w : ℕ) : Prop := v + 4 ≤ w ∨ w + 4 ≤ v

theorem addWord_apply_of_out {c : ℕ} (h : x < w ∨ w + 4 ≤ x) : addWord c μ w x = μ x := by
  rw [addWord]
  cases read32 μ w with
  | none => rfl
  | some v =>
      dsimp only
      rw [write32, fill, if_neg (by omega)]

theorem addWord_read32_self (c : ℕ) (μ : Bytes) (w : ℕ) :
    read32 (addWord c μ w) w = (read32 μ w).map fun v ↦ (v + c) % 2 ^ 32 := by
  rw [addWord]
  cases h : read32 μ w with
  | none => rw [h, Option.map_none]
  | some v => rw [read32_write32, Option.map_some]

theorem addWord_ne_none {c : ℕ} (h : μ x ≠ none) : addWord c μ w x ≠ none := by
  rw [addWord]
  cases read32 μ w with
  | none => exact h
  | some v => exact fill_ne_none h

theorem write32_eq_self (h : read32 μ w = some n) : write32 μ w n = μ := by
  funext x
  rw [write32, fill]
  split
  · next hx =>
      have := apply_of_read32 h (k := x - w) (by omega)
      rw [Nat.add_sub_cancel' hx.1] at this
      rw [this]
  · rfl

theorem addWords_zero (μ : Bytes) (ws : List ℕ) : addWords 0 μ ws = μ := by
  induction ws with
  | nil => rfl
  | cons w ws ih =>
      have hword : addWord 0 μ w = μ := by
        rw [addWord]
        cases h : read32 μ w with
        | none => rfl
        | some v => exact write32_eq_self h
      rw [addWords, List.foldl_cons, hword]
      exact ih

theorem addWords_ne_none {c : ℕ} {ws : List ℕ} (h : μ x ≠ none) : addWords c μ ws x ≠ none := by
  induction ws generalizing μ with
  | nil => exact h
  | cons w ws ih => exact ih (addWord_ne_none h)

theorem addWords_apply_of_out {c : ℕ} {ws : List ℕ} (h : ∀ w ∈ ws, x < w ∨ w + 4 ≤ x) :
    addWords c μ ws x = μ x := by
  induction ws generalizing μ with
  | nil => rfl
  | cons w ws ih =>
      rw [addWords, List.foldl_cons, ← addWords, ih fun w hw ↦ h w (by simp [hw]),
        addWord_apply_of_out (h w (by simp))]

/-- Every word gets `c` once. -/
theorem addWords_read32 {c : ℕ} {ws : List ℕ} (hapart : ws.Pairwise Apart) (hw : w ∈ ws) :
    read32 (addWords c μ ws) w = (read32 μ w).map fun v ↦ (v + c) % 2 ^ 32 := by
  induction ws generalizing μ with
  | nil => exact absurd hw List.not_mem_nil
  | cons v ws ih =>
      obtain ⟨hv, hrest⟩ := List.pairwise_cons.mp hapart
      rw [addWords, List.foldl_cons, ← addWords]
      obtain rfl | hw := List.mem_cons.mp hw
      · rw [← addWord_read32_self c μ w]
        refine read32_congr fun k hk ↦ addWords_apply_of_out fun u hu ↦ ?_
        have := hv u hu
        rw [Apart] at this
        omega
      · rw [ih hrest hw]
        congr 1
        refine read32_congr fun k hk ↦ addWord_apply_of_out ?_
        have := hv w hw
        rw [Apart] at this
        omega

instance : Std.Symm Apart := ⟨fun _ _ h ↦ Or.symm h⟩

/-- Words apart can be changed in any order. -/
theorem addWord_comm {c v : ℕ} (h : Apart v w) :
    addWord c (addWord c μ v) w = addWord c (addWord c μ w) v := by
  have hkeep : ∀ {u z}, Apart u z → read32 (addWord c μ u) z = read32 μ z := fun huz ↦
    read32_congr fun k hk ↦ addWord_apply_of_out (by rw [Apart] at huz; omega)
  have hsymm : Apart w v := Or.symm h
  rw [addWord, hkeep h, addWord.eq_1 c (addWord c μ w) v, hkeep hsymm]
  cases hw : read32 μ w with
  | none => simp [addWord, hw]
  | some a =>
      cases hv : read32 μ v with
      | none => simp [addWord, hw, hv]
      | some b =>
          funext x
          simp only [addWord, hw, hv, write32, fill]
          rw [Apart] at h
          split_ifs <;> first | rfl | omega

theorem addWords_perm {c : ℕ} {ws ws' : List ℕ} (h : ws.Perm ws') (hapart : ws'.Pairwise Apart) :
    addWords c μ ws = addWords c μ ws' := by
  refine h.foldl_eq' (fun v hv w hw ν ↦ ?_) μ
  by_cases hvw : v = w
  · rw [hvw]
  · exact addWord_comm (hapart.forall (h.mem_iff.mp hv) (h.mem_iff.mp hw) hvw)

theorem byteOf_add_of_low {c : ℕ} (hc : c % 2 ^ 24 = 0) (hk : k < 3) :
    byteOf (n + c) k = byteOf n k := by
  apply UInt8.toNat_inj.mp
  rw [byteOf, byteOf, UInt8.toNat_ofNat', UInt8.toNat_ofNat']
  obtain rfl | rfl | rfl : k = 0 ∨ k = 1 ∨ k = 2 := by omega
  · omega
  · omega
  · omega

/-- Only the top bytes of the words change when `c` is below no other byte. -/
theorem addWords_apply_of_low {c : ℕ} (hc : c % 2 ^ 24 = 0) {ws : List ℕ} (h : ∀ w ∈ ws, x ≠ w + 3) :
    addWords c μ ws x = μ x := by
  induction ws generalizing μ with
  | nil => rfl
  | cons w ws ih =>
      rw [addWords, List.foldl_cons, ← addWords, ih fun v hv ↦ h v (List.mem_cons_of_mem w hv), addWord]
      cases hw : read32 μ w with
      | none => rfl
      | some v =>
          have hx := h w List.mem_cons_self
          dsimp only
          rw [write32, fill]
          split
          · next hin =>
            have hbyte := apply_of_read32 hw (k := x - w) (by omega)
            rw [Nat.add_sub_cancel' hin.1] at hbyte
            rw [hbyte, byteOf_add_of_low hc (by omega)]
          · rfl

end LittleEndian
