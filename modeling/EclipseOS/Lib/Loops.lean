import Mathlib.Order.Basic
import Mathlib.Tactic.Common

/-!
# Loops

A loop is a step function; it ends where the step gives no next state.  A loop
whose measure grows below a bound ends, and a loop that comes back to a state
does not.
-/

namespace Loop

variable {σ : Type*} {step : σ → Option σ} {s t u : σ} {n k : ℕ}

/-- The state after `n` turns, if the loop makes that many. -/
def turns (step : σ → Option σ) (s : σ) : ℕ → Option σ
  | 0 => some s
  | n + 1 => (turns step s n).bind step

def Ends (step : σ → Option σ) (s : σ) : Prop := ∃ n, turns step s n = none

@[simp] theorem turns_zero : turns step s 0 = some s := rfl

theorem turns_succ (step : σ → Option σ) (s : σ) (n : ℕ) :
    turns step s (n + 1) = (turns step s n).bind step := rfl

theorem turns_succ' (step : σ → Option σ) (s : σ) (n : ℕ) :
    turns step s (n + 1) = (step s).bind fun t ↦ turns step t n := by
  induction n with
  | zero => cases h : step s <;> simp [turns, h]
  | succ n ih =>
      rw [turns_succ, ih, Option.bind_assoc]
      rfl

theorem turns_add (h : turns step s n = some t) (k : ℕ) :
    turns step s (n + k) = turns step t k := by
  induction k with
  | zero => exact h
  | succ k ih => rw [← Nat.add_assoc, turns_succ, ih, turns_succ]

/-- A loop that makes `n` turns makes fewer. -/
theorem turns_le (h : turns step s n = some t) (hk : k ≤ n) : ∃ u, turns step s k = some u := by
  induction n generalizing t with
  | zero => exact ⟨s, by rw [Nat.le_zero.mp hk]; rfl⟩
  | succ n ih =>
      rcases Nat.le_succ_iff.mp hk with hk | rfl
      · rw [turns_succ, Option.bind_eq_some_iff] at h
        obtain ⟨u, hu, -⟩ := h
        exact ih hu hk
      · exact ⟨t, h⟩

/-- What the step keeps holds after every turn. -/
theorem turns_induction {P : σ → Prop} (hs : P s) (hstep : ∀ t u, P t → step t = some u → P u)
    (h : turns step s n = some t) : P t := by
  induction n generalizing t with
  | zero =>
      obtain rfl := Option.some.inj h
      exact hs
  | succ n ih =>
      rw [turns_succ, Option.bind_eq_some_iff] at h
      obtain ⟨u, hu, hut⟩ := h
      exact hstep u t (ih hu) hut

/-- A measure that grows with every turn and stays below a bound. -/
theorem ends_of_measure {P : σ → Prop} (μ : σ → ℕ) (b : ℕ) (hs : P s)
    (hstep : ∀ t u, P t → step t = some u → P u) (hgrow : ∀ t u, P t → step t = some u → μ t < μ u)
    (hbound : ∀ t, P t → μ t ≤ b) : Ends step s := by
  refine ⟨b + 1, ?_⟩
  have hle : ∀ n t, turns step s n = some t → n ≤ μ t := by
    intro n
    induction n with
    | zero => exact fun t _ ↦ Nat.zero_le _
    | succ n ih =>
        intro t ht
        rw [turns_succ, Option.bind_eq_some_iff] at ht
        obtain ⟨u, hu, hut⟩ := ht
        exact Nat.lt_of_le_of_lt (ih u hu) (hgrow u t (turns_induction hs hstep hu) hut)
  cases h : turns step s (b + 1) with
  | none => rfl
  | some t =>
      have h₁ := hle (b + 1) t h
      have h₂ := hbound t (turns_induction hs hstep h)
      omega

/-- Every state of a set leads to another one of it. -/
theorem not_ends_of_progress {P : σ → Prop} (hs : P s) (hstep : ∀ t, P t → ∃ u, step t = some u ∧ P u) :
    ¬ Ends step s := by
  rintro ⟨n, hn⟩
  have hall : ∀ n, ∃ t, turns step s n = some t ∧ P t := by
    intro n
    induction n with
    | zero => exact ⟨s, rfl, hs⟩
    | succ n ih =>
        obtain ⟨t, ht, hPt⟩ := ih
        obtain ⟨u, hu, hPu⟩ := hstep t hPt
        exact ⟨u, by rw [turns_succ, ht, Option.bind_some, hu], hPu⟩
  obtain ⟨t, ht, -⟩ := hall n
  rw [hn] at ht
  exact nomatch ht

/-- Some number of turns leads from `s` to `t`. -/
def Reaches (step : σ → Option σ) (s t : σ) : Prop := ∃ n, turns step s n = some t

theorem Reaches.refl (step : σ → Option σ) (s : σ) : Reaches step s s := ⟨0, rfl⟩

theorem Reaches.trans (hst : Reaches step s t) (htu : Reaches step t u) : Reaches step s u := by
  obtain ⟨n, hn⟩ := hst
  obtain ⟨k, hk⟩ := htu
  exact ⟨n + k, by rw [turns_add hn, hk]⟩

theorem Reaches.head (hst : step s = some t) (htu : Reaches step t u) : Reaches step s u :=
  Reaches.trans ⟨1, by rw [turns_succ, turns_zero, Option.bind_some, hst]⟩ htu

theorem Reaches.tail (hst : Reaches step s t) (htu : step t = some u) : Reaches step s u :=
  hst.trans (Reaches.head htu (Reaches.refl step u))

/-- A counting loop: `f i` is the state after `i` turns. -/
theorem Reaches.count (step : σ → Option σ) (f : ℕ → σ) (hf : ∀ i < n, step (f i) = some (f (i + 1))) :
    Reaches step (f 0) (f n) := by
  induction n with
  | zero => exact Reaches.refl step (f 0)
  | succ n ih => exact (ih fun i hi ↦ hf i (Nat.lt_succ_of_lt hi)).tail (hf n (Nat.lt_succ_self n))

/-- A state without a next one leads to itself only. -/
theorem Reaches.eq_of_none (hst : Reaches step s t) (hs : step s = none) : s = t := by
  obtain ⟨n, hn⟩ := hst
  cases n with
  | zero => exact Option.some.inj hn
  | succ n =>
      rw [turns_succ', hs] at hn
      exact nomatch hn

theorem Reaches.ends_iff (hst : Reaches step s t) : Ends step s ↔ Ends step t := by
  obtain ⟨n, hn⟩ := hst
  constructor
  · rintro ⟨k, hk⟩
    refine ⟨k, ?_⟩
    rw [← turns_add hn k, Nat.add_comm]
    cases h : turns step s (k + n) with
    | none => rfl
    | some u =>
        obtain ⟨v, hv⟩ := turns_le h (Nat.le_add_right k n)
        rw [hk] at hv
        exact nomatch hv
  · rintro ⟨k, hk⟩
    exact ⟨n + k, by rw [turns_add hn, hk]⟩

/-- Every state of a run that ends is on the way to its last one. -/
theorem Reaches.to_last (hst : Reaches step s t) (ht : step t = none) (hsu : Reaches step s u) :
    Reaches step u t := by
  obtain ⟨n, hn⟩ := hst
  obtain ⟨k, hk⟩ := hsu
  rcases Nat.le_total k n with hle | hle
  · refine ⟨n - k, ?_⟩
    rw [← turns_add hk, Nat.add_sub_cancel' hle, hn]
  · rcases Nat.eq_or_lt_of_le hle with rfl | hlt
    · rw [hn] at hk
      exact ⟨0, by rw [Option.some.inj hk, turns_zero]⟩
    · obtain ⟨v, hv⟩ := turns_le hk hlt
      rw [turns_succ, hn, Option.bind_some, ht] at hv
      exact nomatch hv

/-- A run that ends has a last state. -/
theorem Ends.exists_last (h : Ends step s) : ∃ t, Reaches step s t ∧ step t = none := by
  obtain ⟨n, hn⟩ := h
  induction n generalizing s with
  | zero => exact nomatch hn
  | succ n ih =>
      cases hs : step s with
      | none => exact ⟨s, Reaches.refl step s, hs⟩
      | some u =>
          rw [turns_succ', hs, Option.bind_some] at hn
          obtain ⟨t, hut, ht⟩ := ih hn
          exact ⟨t, Reaches.head hs hut, ht⟩

/-- A loop over consecutive indices that may fail: `f i` is the state before turn `i`. -/
theorem foldlM_range' {step : σ → ℕ → Option σ} {f : ℕ → σ} {a : ℕ}
    (hf : ∀ i, a ≤ i → i < a + n → step (f i) i = some (f (i + 1))) :
    (List.range' a n).foldlM step (f a) = some (f (a + n)) := by
  induction n generalizing a with
  | zero => rfl
  | succ n ih =>
      have hrest := ih (a := a + 1) fun i hle hlt ↦ hf i (by omega) (by omega)
      rw [List.range'_succ, List.foldlM_cons, hf a (Nat.le_refl a) (by omega)]
      rw [Nat.add_assoc, Nat.add_comm 1 n] at hrest
      exact hrest

theorem foldlM_range {step : σ → ℕ → Option σ} {f : ℕ → σ}
    (hf : ∀ i < n, step (f i) i = some (f (i + 1))) :
    (List.range n).foldlM step (f 0) = some (f n) := by
  rw [List.range_eq_range', foldlM_range' fun i _ hi ↦ hf i (by omega), Nat.zero_add]

/-- What every turn of a loop relates, the loop relates. -/
theorem foldlM_rel {ι β : Type*} {r : β → β → Prop} (hrefl : ∀ b, r b b)
    (htrans : ∀ {a b c}, r a b → r b c → r a c) {π : σ → β} {step : σ → ι → Option σ}
    (hstep : ∀ s i s', step s i = some s' → r (π s) (π s')) {l : List ι} {s s' : σ}
    (h : l.foldlM step s = some s') : r (π s) (π s') := by
  induction l generalizing s with
  | nil =>
      rw [List.foldlM_nil, Option.pure_def, Option.some.injEq] at h
      rw [h]
      exact hrefl _
  | cons i l ih =>
      rw [List.foldlM_cons, Option.bind_eq_bind, Option.bind_eq_some_iff] at h
      obtain ⟨s₁, h₁, h₂⟩ := h
      exact htrans (hstep s i s₁ h₁) (ih h₂)

end Loop
