import Mathlib.Data.BitVec
import Mathlib.Tactic

/-!
# Stacks of words

A memory gives a byte for every 32-bit address.  Words are stored with the
least significant byte first, and addresses wrap around.  `At a ws` says that
the words `ws` lie one above the other from `a` on: a push puts a word in front
of the list, and a pop takes it off.
-/

namespace WordStack

abbrev Word := BitVec 32

abbrev Memory := Word → BitVec 8

namespace Memory

variable {μ ν : Memory} {a b w : Word} {ws vs : List Word} {n : ℕ}

def read (μ : Memory) (a : Word) : Word := μ (a + 3) ++ μ (a + 2) ++ μ (a + 1) ++ μ a

def write (μ : Memory) (a w : Word) : Memory := fun x ↦
  if (x - a).toNat < 4 then w.extractLsb' (8 * (x - a).toNat) 8 else μ x

/-- A block of `n` bytes at `b` has nothing of the word at `a`. -/
def Clear (a b : Word) (n : ℕ) : Prop := 4 ≤ (b - a).toNat ∧ (b - a).toNat + n ≤ 2 ^ 32

instance (a b : Word) (n : ℕ) : Decidable (Clear a b n) := inferInstanceAs (Decidable (_ ∧ _))

theorem sub_toNat_of_clear (h : Clear a b n) {i : ℕ} (hi : i < n) :
    (b + BitVec.ofNat 32 i - a).toNat = (b - a).toNat + i := by
  obtain ⟨hlow, hhigh⟩ := h
  rw [show b + BitVec.ofNat 32 i - a = b - a + BitVec.ofNat 32 i by ring, BitVec.toNat_add,
    BitVec.toNat_ofNat, Nat.mod_eq_of_lt (by omega : i < 2 ^ 32)]
  exact Nat.mod_eq_of_lt (by omega)

theorem write_apply_of_clear (h : Clear a b n) {i : ℕ} (hi : i < n) :
    μ.write a w (b + BitVec.ofNat 32 i) = μ (b + BitVec.ofNat 32 i) := by
  apply if_neg
  rw [sub_toNat_of_clear h hi]
  have := h.1
  omega

/-- The four bytes of a word. -/
theorem extract_append (w : Word) : w.extractLsb' (8 * 3) 8 ++ w.extractLsb' (8 * 2) 8 ++
    w.extractLsb' (8 * 1) 8 ++ w.extractLsb' (8 * 0) 8 = w := by
  apply BitVec.eq_of_getLsbD_eq
  intro i hi
  simp only [BitVec.getLsbD_append, BitVec.getLsbD_extractLsb']
  split_ifs <;> rw [decide_eq_true (by omega), Bool.true_and] <;> congr 1 <;> omega

theorem read_write_self (μ : Memory) (a w : Word) : (μ.write a w).read a = w := by
  have hoff : ∀ i < 4, (a + BitVec.ofNat 32 i - a).toNat = i := by
    intro i hi
    rw [show a + BitVec.ofNat 32 i - a = BitVec.ofNat 32 i by ring, BitVec.toNat_ofNat]
    exact Nat.mod_eq_of_lt (by omega)
  have hbyte : ∀ i < 4, μ.write a w (a + BitVec.ofNat 32 i) = w.extractLsb' (8 * i) 8 := by
    intro i hi
    rw [write, hoff i hi, if_pos hi]
  have h₀ := hbyte 0 (by norm_num)
  have h₁ := hbyte 1 (by norm_num)
  have h₂ := hbyte 2 (by norm_num)
  have h₃ := hbyte 3 (by norm_num)
  rw [show a + BitVec.ofNat 32 0 = a by simp] at h₀
  rw [read, show a + 1 = a + BitVec.ofNat 32 1 from rfl,
    show a + 2 = a + BitVec.ofNat 32 2 from rfl, show a + 3 = a + BitVec.ofNat 32 3 from rfl, h₀,
    h₁, h₂, h₃]
  exact extract_append w

theorem read_congr (h : ∀ i < 4, μ (a + BitVec.ofNat 32 i) = ν (a + BitVec.ofNat 32 i)) :
    μ.read a = ν.read a := by
  have h₀ := h 0 (by norm_num)
  rw [show a + BitVec.ofNat 32 0 = a by simp] at h₀
  have h₁ : μ (a + 1) = ν (a + 1) := h 1 (by norm_num)
  have h₂ : μ (a + 2) = ν (a + 2) := h 2 (by norm_num)
  have h₃ : μ (a + 3) = ν (a + 3) := h 3 (by norm_num)
  rw [read, read, h₀, h₁, h₂, h₃]

theorem read_write_of_clear (h : Clear a b n) (hn : 4 ≤ n) : (μ.write a w).read b = μ.read b :=
  read_congr fun _ hi ↦ write_apply_of_clear h (hi.trans_le hn)

/-! ## Words in a row -/

theorem offset_zero (a : Word) : a + BitVec.ofNat 32 (4 * 0) = a := by simp

theorem addr_succ (a : Word) (i : ℕ) :
    a + BitVec.ofNat 32 (4 * (i + 1)) = a + 4 + BitVec.ofNat 32 (4 * i) := by
  bv_omega

theorem offset_add (a : Word) (i j : ℕ) :
    a + BitVec.ofNat 32 (4 * i) + BitVec.ofNat 32 (4 * j) = a + BitVec.ofNat 32 (4 * (i + j)) := by
  bv_omega

/-- The words `ws` lie from `a` on. -/
def At (μ : Memory) : Word → List Word → Prop
  | _, [] => True
  | a, w :: ws => μ.read a = w ∧ At μ (a + 4) ws

instance decidableAt (μ : Memory) : (a : Word) → (ws : List Word) → Decidable (μ.At a ws)
  | _, [] => isTrue trivial
  | a, _ :: ws =>
      have := decidableAt μ (a + 4) ws
      inferInstanceAs (Decidable (_ ∧ _))

@[simp] theorem at_nil : μ.At a [] := trivial

@[simp] theorem at_cons : μ.At a (w :: ws) ↔ μ.read a = w ∧ μ.At (a + 4) ws := Iff.rfl

theorem at_append : μ.At a (ws ++ vs) ↔
    μ.At a ws ∧ μ.At (a + BitVec.ofNat 32 (4 * ws.length)) vs := by
  induction ws generalizing a with
  | nil => simp
  | cons w ws ih =>
      rw [List.cons_append, at_cons, at_cons, ih, List.length_cons, addr_succ, and_assoc]

theorem Clear.next (h : Clear a b (n + 4)) (hn : 0 < n) : Clear a (b + 4) n := by
  have hsub := sub_toNat_of_clear h (i := 4) (by omega)
  have hsub' : (b + 4 - a).toNat = (b - a).toNat + 4 := hsub
  obtain ⟨hlow, hhigh⟩ := h
  exact ⟨by omega, by omega⟩

/-- A store apart from the words leaves them. -/
theorem At.write (h : μ.At b ws) (hclear : Clear a b (4 * ws.length)) (w : Word) :
    (μ.write a w).At b ws := by
  induction ws generalizing b with
  | nil => trivial
  | cons v ws ih =>
      obtain ⟨hread, hrest⟩ := h
      rw [List.length_cons, Nat.mul_add] at hclear
      refine ⟨by rw [read_write_of_clear hclear (by omega), hread], ?_⟩
      cases ws with
      | nil => trivial
      | cons _ ws => exact ih hrest (hclear.next (by simp))

theorem At.read (h : μ.At a ws) {i : ℕ} (hi : i < ws.length) :
    μ.read (a + BitVec.ofNat 32 (4 * i)) = ws[i] := by
  induction ws generalizing a i with
  | nil => exact absurd hi (Nat.not_lt_zero i)
  | cons v ws ih =>
      obtain ⟨hv, hrest⟩ := h
      cases i with
      | zero => simpa using hv
      | succ i =>
          rw [addr_succ, ih hrest (i := i) (by simpa using hi)]
          rfl

/-- A store to word `i` of the row. -/
theorem At.set (h : μ.At a ws) {i : ℕ} (hi : i < ws.length) (hlen : 4 * ws.length ≤ 2 ^ 32)
    (w : Word) : (μ.write (a + BitVec.ofNat 32 (4 * i)) w).At a (ws.set i w) := by
  induction ws generalizing a i with
  | nil => exact absurd hi (Nat.not_lt_zero i)
  | cons v ws ih =>
      obtain ⟨hv, hrest⟩ := h
      rw [List.length_cons] at hi hlen
      cases i with
      | zero =>
          rw [offset_zero]
          have hsub : (a + 4 - a).toNat = 4 := by
            rw [show a + 4 - a = 4 by bv_omega]
            rfl
          exact ⟨read_write_self .., hrest.write ⟨hsub.ge, by omega⟩ w⟩
      | succ i =>
          refine ⟨?_, ?_⟩
          · have hclear : Clear (a + BitVec.ofNat 32 (4 * (i + 1))) a 4 := by
              constructor <;> bv_omega
            rw [read_write_of_clear hclear le_rfl, hv]
          · rw [addr_succ]
            exact ih hrest (by omega) (by omega)

/-- The `k` bytes at `b` are none of the `n` bytes at `a`. -/
def Apart (a : Word) (n : ℕ) (b : Word) (k : ℕ) : Prop :=
  n ≤ (b - a).toNat ∧ (b - a).toNat + k ≤ 2 ^ 32

instance (a : Word) (n : ℕ) (b : Word) (k : ℕ) : Decidable (Apart a n b k) :=
  inferInstanceAs (Decidable (_ ∧ _))

theorem Apart.symm {k : ℕ} (h : Apart a n b k) (hn : 0 < n) : Apart b k a n := by
  obtain ⟨hlow, hhigh⟩ := h
  constructor <;> bv_omega

theorem Apart.clear {k : ℕ} (h : Apart a n b k) {i : ℕ} (hi : i + 4 ≤ n) :
    Clear (a + BitVec.ofNat 32 i) b k := by
  obtain ⟨hlow, hhigh⟩ := h
  have hsub : (b - (a + BitVec.ofNat 32 i)).toNat = (b - a).toNat - i := by
    rw [show b - (a + BitVec.ofNat 32 i) = b - a - BitVec.ofNat 32 i by ring]
    bv_omega
  constructor <;> omega

/-- A store to the bytes at `a` leaves words apart from them. -/
theorem At.write_apart (h : μ.At b ws) (hap : Apart a n b (4 * ws.length)) {i : ℕ} (hi : i + 4 ≤ n)
    (w : Word) : (μ.write (a + BitVec.ofNat 32 i) w).At b ws :=
  h.write (hap.clear hi) w

theorem at_of_read (h : ∀ (i : ℕ) (hi : i < ws.length),
    μ.read (a + BitVec.ofNat 32 (4 * i)) = ws[i]) : μ.At a ws := by
  induction ws generalizing a with
  | nil => trivial
  | cons v ws ih =>
      have h₀ := h 0 (by simp)
      rw [offset_zero] at h₀
      refine ⟨h₀, ih fun i hi ↦ ?_⟩
      have hi' := h (i + 1) (by simpa using hi)
      rwa [addr_succ] at hi'

/-- A word more, and there is still no wrap. -/
theorem At.push (h : μ.At a ws) (hlen : 4 * (ws.length + 1) ≤ 2 ^ 32) (w : Word) :
    (μ.write (a - 4) w).At (a - 4) (w :: ws) := by
  refine ⟨read_write_self .., ?_⟩
  have hsub : (a - (a - 4)).toNat = 4 := by
    rw [show a - (a - 4) = 4 by bv_omega]
    rfl
  rw [show a - 4 + 4 = a by bv_omega]
  exact h.write ⟨hsub.ge, by omega⟩ w

end Memory

end WordStack
