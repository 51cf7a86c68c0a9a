import Mathlib.Data.Nat.Digits.Lemmas
import Mathlib.Tactic.Common

/-!
# Numerals

Positional notation with the most significant digit first, read from left to
right as a parser does.  The other order is that of `Nat.digits`.
-/

namespace Numerals

variable {base n d : ℕ} {ds ds' : List ℕ}

/-- The value after more digits. -/
def readOn (base n : ℕ) (ds : List ℕ) : ℕ := ds.foldl (fun n d ↦ n * base + d) n

@[simp] theorem readOn_nil : readOn base n [] = n := rfl

@[simp] theorem readOn_cons : readOn base n (d :: ds) = readOn base (n * base + d) ds := rfl

theorem le_readOn (hbase : 0 < base) : n ≤ readOn base n ds := by
  induction ds generalizing n with
  | nil => exact le_rfl
  | cons d ds ih =>
      calc n ≤ n * base := Nat.le_mul_of_pos_right n hbase
        _ ≤ n * base + d := Nat.le_add_right _ _
        _ ≤ readOn base n (d :: ds) := ih

/-- The digits of a number, in the order in which they are written. -/
theorem readOn_digits (base n : ℕ) : readOn base 0 (Nat.digits base n).reverse = n := by
  calc readOn base 0 (Nat.digits base n).reverse
      = Nat.ofDigits base (Nat.digits base n) := by
        rw [readOn, List.foldl_reverse, Nat.ofDigits_eq_foldr]
        exact congrArg (fun f ↦ List.foldr f 0 _) (funext₂ fun d m ↦ by
          rw [Nat.cast_id, Nat.mul_comm, Nat.add_comm])
    _ = n := Nat.ofDigits_digits base n

theorem readOn_eq_zero (hbase : 0 < base) : readOn base 0 ds = 0 ↔ ∀ d ∈ ds, d = 0 := by
  induction ds with
  | nil => simp
  | cons d ds ih =>
      rw [readOn_cons, Nat.zero_mul, Nat.zero_add, List.forall_mem_cons]
      constructor
      · intro h
        have hd : d = 0 := Nat.eq_zero_of_le_zero (h ▸ le_readOn hbase)
        subst hd
        exact ⟨rfl, ih.mp h⟩
      · rintro ⟨rfl, h⟩
        exact ih.mpr h

end Numerals
