import Mathlib.Data.Int.GCD
import Mathlib.Data.Nat.ModEq
import Mathlib.Tactic.Common

/-!
# Counters that wrap

A counter starts at zero and grows by `e`, modulo `n`.  It takes the multiples
of `gcd e n` below `n`, each once, and is back at zero.
-/

namespace Counter

variable {e n k l : ℕ}

/-- Turns until the counter is back at zero. -/
def period (e n : ℕ) : ℕ := n / e.gcd n

theorem period_mul_gcd (e n : ℕ) : period e n * e.gcd n = n := Nat.div_mul_cancel (e.gcd_dvd_right n)

theorem period_pos (hn : 0 < n) : 0 < period e n :=
  Nat.div_pos (Nat.gcd_le_right e hn) (Nat.gcd_pos_of_pos_right e hn)

theorem back (e n : ℕ) : period e n * e % n = 0 := by
  apply Nat.mod_eq_zero_of_dvd
  obtain ⟨r, hr⟩ := e.gcd_dvd_left n
  refine ⟨r, ?_⟩
  calc period e n * e = period e n * (e.gcd n * r) := by rw [← hr]
    _ = n * r := by rw [← Nat.mul_assoc, period_mul_gcd]

theorem apart (hn : 0 < n) (hkl : k < l) (hl : l < period e n) : k * e % n ≠ l * e % n := by
  intro heq
  have hmod : k ≡ l [MOD n / n.gcd e] := Nat.ModEq.cancel_right_div_gcd hn heq
  rw [Nat.gcd_comm] at hmod
  have hlt : l % period e n = l := Nat.mod_eq_of_lt hl
  have hkt : k % period e n = k := Nat.mod_eq_of_lt (hkl.trans hl)
  have : k % period e n = l % period e n := hmod
  omega

/-- All values are at most `n - gcd e n`. -/
theorem le_last (hn : 0 < n) : k * e % n ≤ n - e.gcd n := by
  have hdvd : e.gcd n ∣ k * e % n :=
    (Nat.dvd_mod_iff (e.gcd_dvd_right n)).mpr (Dvd.dvd.mul_left (e.gcd_dvd_left n) k)
  have hlt := Nat.mod_lt (k * e) hn
  obtain ⟨a, ha⟩ := hdvd
  obtain ⟨b, hb⟩ := e.gcd_dvd_right n
  have hg : 0 < e.gcd n := Nat.gcd_pos_of_pos_right e hn
  have hab : a < b := by
    apply Nat.lt_of_mul_lt_mul_left (a := e.gcd n)
    omega
  have hstep : e.gcd n * (a + 1) ≤ e.gcd n * b := Nat.mul_le_mul_left _ hab
  rw [Nat.mul_add_one] at hstep
  omega

/-- The largest of them is taken. -/
theorem last (hn : 0 < n) : ∃ k < period e n, k * e % n = n - e.gcd n := by
  obtain hg | hg := (Nat.gcd_le_right e hn).lt_or_eq
  · obtain ⟨j, -, hj⟩ := Nat.exists_mul_mod_eq_gcd hg
    refine ⟨(n - 1) * j % period e n, Nat.mod_lt _ (period_pos hn), ?_⟩
    have hdrop : (n - 1) * j % period e n * e ≡ (n - 1) * j * e [MOD n] := by
      have hback : n ∣ period e n * e := Nat.dvd_of_mod_eq_zero (back e n)
      have hdiv := Nat.div_add_mod ((n - 1) * j) (period e n)
      apply Nat.ModEq.symm
      apply (Nat.modEq_iff_dvd' (Nat.mul_le_mul_right e (Nat.mod_le _ _))).mpr ?_ |>.symm
      rw [← Nat.sub_mul]
      have : (n - 1) * j - (n - 1) * j % period e n = period e n * ((n - 1) * j / period e n) := by
        omega
      rw [this, Nat.mul_right_comm]
      exact hback.mul_right _
    have hvalue : (n - 1) * j * e ≡ (n - 1) * e.gcd n [MOD n] := by
      have : e * j ≡ e.gcd n [MOD n] := by
        rw [Nat.ModEq, hj, Nat.mod_eq_of_lt hg]
      rw [Nat.mul_assoc, Nat.mul_comm j]
      exact this.mul_left _
    have hneg : (n - 1) * e.gcd n ≡ n - e.gcd n [MOD n] := by
      have hsum : (n - 1) * e.gcd n + e.gcd n ≡ n - e.gcd n + e.gcd n [MOD n] := by
        rw [Nat.sub_add_cancel hg.le, ← Nat.succ_mul, Nat.succ_eq_add_one, Nat.sub_add_cancel hn]
        exact (Nat.modEq_zero_iff_dvd.mpr (dvd_mul_right _ _)).trans
          (Nat.modEq_zero_iff_dvd.mpr dvd_rfl).symm
      exact hsum.add_right_cancel'
    have hpos : 0 < e.gcd n := Nat.gcd_pos_of_pos_right e hn
    have hlt : n - e.gcd n < n := by omega
    calc (n - 1) * j % period e n * e % n = (n - e.gcd n) % n := (hdrop.trans hvalue).trans hneg
      _ = n - e.gcd n := Nat.mod_eq_of_lt hlt
  · refine ⟨0, period_pos hn, ?_⟩
    rw [hg, Nat.zero_mul, Nat.zero_mod, Nat.sub_self]

end Counter
