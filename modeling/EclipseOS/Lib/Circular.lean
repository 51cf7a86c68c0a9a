import Mathlib.Logic.Function.Basic
import Mathlib.Tactic

/-!
# Circular buffers

A buffer of `cap` slots is read and written at indices that are taken modulo
`cap`.  What it stores is a window: some number of slots from a start on.
-/

namespace Circular

variable {α : Type*} {buf : ℕ → α} {cap start n i j : ℕ} {a : α}

/-- The `n` slots from `start` on. -/
def window (buf : ℕ → α) (cap start n : ℕ) : List α :=
  (List.range n).map fun i ↦ buf ((start + i) % cap)

@[simp] theorem length_window : (window buf cap start n).length = n := by simp [window]

@[simp] theorem window_zero : window buf cap start 0 = [] := rfl

theorem window_succ :
    window buf cap start (n + 1) = window buf cap start n ++ [buf ((start + n) % cap)] := by
  simp [window, List.range_succ]

theorem window_cons :
    window buf cap start (n + 1) = buf (start % cap) :: window buf cap (start + 1) n := by
  have hshift : ∀ i, start + 1 + i = start + (i + 1) := by omega
  simp [window, List.range_succ_eq_map, hshift]

theorem window_mod : window buf cap (start % cap) n = window buf cap start n := by
  simp [window]

/-- Slots less than a capacity apart are different. -/
theorem slot_ne (hij : i < j) (hcap : j < i + cap) : (start + i) % cap ≠ (start + j) % cap := by
  intro heq
  obtain ⟨d, hd⟩ : ∃ d, j = i + d := ⟨j - i, by omega⟩
  have hmod : start + i ≡ start + i + d [MOD cap] := by
    rw [hd] at heq
    rw [Nat.add_assoc]
    exact heq
  have hzero : d ≡ 0 [MOD cap] := (Nat.ModEq.add_left_cancel' (start + i) hmod).symm
  have := (Nat.modEq_zero_iff_dvd.mp hzero)
  have := Nat.le_of_dvd (by omega) this
  omega

theorem window_update (hj : ∀ i < n, (start + i) % cap ≠ j) :
    window (Function.update buf j a) cap start n = window buf cap start n := by
  apply List.map_congr_left
  intro i hi
  exact Function.update_of_ne (hj i (List.mem_range.mp hi)) a buf

/-- A buffer with a free slot takes one more element at its end. -/
theorem window_push (hn : n < cap) :
    window (Function.update buf ((start + n) % cap) a) cap start (n + 1) =
      window buf cap start n ++ [a] := by
  have hfree : ∀ i < n, (start + i) % cap ≠ (start + n) % cap := fun i hi ↦ slot_ne hi (by omega)
  rw [window_succ, window_update hfree, Function.update_self]

end Circular
