import Mathlib.Data.List.Basic
import Mathlib.Tactic.Common

/-!
# Linked segments and tilings

A linked segment is a list whose elements stand at addresses, each with a link to
the next.  Intervals are spaced if each starts behind the one before it, and tile
a range if each starts where the one before it ends.
-/

namespace Segments

variable {α : Type*}

/-! ## Linked segments -/

/-- From the address `p` the links go through `l` and end in `q`. -/
def Linked (node : ℕ → α → ℕ → Prop) : ℕ → List α → ℕ → Prop
  | p, [], q => p = q
  | p, x :: l, q => ∃ r, node p x r ∧ Linked node r l q

variable {node node' : ℕ → α → ℕ → Prop} {p q r : ℕ} {x : α} {l l' : List α}

theorem linked_append : Linked node p (l ++ l') q ↔ ∃ r, Linked node p l r ∧ Linked node r l' q := by
  induction l generalizing p with
  | nil =>
      constructor
      · intro h
        exact ⟨p, rfl, h⟩
      · rintro ⟨r, rfl, h⟩
        exact h
  | cons x l ih =>
      constructor
      · rintro ⟨s, hx, h⟩
        obtain ⟨r, hl, hl'⟩ := ih.mp h
        exact ⟨r, ⟨s, hx, hl⟩, hl'⟩
      · rintro ⟨r, ⟨s, hx, hl⟩, hl'⟩
        exact ⟨s, hx, ih.mpr ⟨r, hl, hl'⟩⟩

/-- Nodes that are kept keep the segment. -/
theorem Linked.mono (h : Linked node p l q) (hnode : ∀ x ∈ l, ∀ p q, node p x q → node' p x q) :
    Linked node' p l q := by
  induction l generalizing p with
  | nil => exact h
  | cons x l ih =>
      obtain ⟨r, hx, hl⟩ := h
      exact ⟨r, hnode x List.mem_cons_self p r hx,
        ih hl fun y hy ↦ hnode y (List.mem_cons_of_mem x hy)⟩

/-! ## Intervals in order -/

/-- From `a` to `e`, in order and apart; no interval is empty. -/
def Spaced (lo hi : α → ℕ) : ℕ → List α → ℕ → Prop
  | a, [], e => a ≤ e
  | a, x :: l, e => a ≤ lo x ∧ lo x < hi x ∧ Spaced lo hi (hi x) l e

/-- From `a` to `e`, without gap; no interval is empty. -/
def Tiles (lo hi : α → ℕ) : ℕ → List α → ℕ → Prop
  | a, [], e => a = e
  | a, x :: l, e => lo x = a ∧ a < hi x ∧ Tiles lo hi (hi x) l e

variable {lo hi : α → ℕ} {a e n : ℕ}

theorem spaced_append :
    Spaced lo hi a (l ++ l') e ↔ ∃ b, Spaced lo hi a l b ∧ Spaced lo hi b l' e := by
  induction l generalizing a with
  | nil =>
      constructor
      · intro h
        exact ⟨a, Nat.le_refl a, h⟩
      · rintro ⟨b, hab, h⟩
        cases l' with
        | nil => exact Nat.le_trans hab h
        | cons x l' => exact ⟨Nat.le_trans hab h.1, h.2⟩
  | cons x l ih =>
      constructor
      · rintro ⟨hlo, hlt, h⟩
        obtain ⟨b, hl, hl'⟩ := ih.mp h
        exact ⟨b, ⟨hlo, hlt, hl⟩, hl'⟩
      · rintro ⟨b, ⟨hlo, hlt, hl⟩, hl'⟩
        exact ⟨hlo, hlt, ih.mpr ⟨b, hl, hl'⟩⟩

theorem tiles_append :
    Tiles lo hi a (l ++ l') e ↔ ∃ b, Tiles lo hi a l b ∧ Tiles lo hi b l' e := by
  induction l generalizing a with
  | nil =>
      constructor
      · intro h
        exact ⟨a, rfl, h⟩
      · rintro ⟨b, rfl, h⟩
        exact h
  | cons x l ih =>
      constructor
      · rintro ⟨hlo, hlt, h⟩
        obtain ⟨b, hl, hl'⟩ := ih.mp h
        exact ⟨b, ⟨hlo, hlt, hl⟩, hl'⟩
      · rintro ⟨b, ⟨hlo, hlt, hl⟩, hl'⟩
        exact ⟨hlo, hlt, ih.mpr ⟨b, hl, hl'⟩⟩

namespace Spaced

theorem add_length_le (h : Spaced lo hi a l e) : a + l.length ≤ e := by
  induction l generalizing a with
  | nil => exact h
  | cons x l ih =>
      obtain ⟨hlo, hlt, hl⟩ := h
      have hrest := ih hl
      rw [List.length_cons]
      omega

theorem le (h : Spaced lo hi a l e) : a ≤ e :=
  Nat.le_trans (Nat.le_add_right a l.length) h.add_length_le

/-- The range may be wider. -/
theorem widen {a' e' : ℕ} (h : Spaced lo hi a l e) (ha : a' ≤ a) (he : e ≤ e') :
    Spaced lo hi a' l e' := by
  induction l generalizing a a' with
  | nil => exact Nat.le_trans ha (Nat.le_trans h he)
  | cons x l ih => exact ⟨Nat.le_trans ha h.1, h.2.1, ih h.2.2 (Nat.le_refl _)⟩

theorem bounds (h : Spaced lo hi a l e) (hx : x ∈ l) : a ≤ lo x ∧ lo x < hi x ∧ hi x ≤ e := by
  induction l generalizing a with
  | nil => exact nomatch hx
  | cons y l ih =>
      obtain ⟨hlo, hlt, hl⟩ := h
      rcases List.mem_cons.mp hx with rfl | hx
      · exact ⟨hlo, hlt, hl.le⟩
      · obtain ⟨hy, hlx, hxe⟩ := ih hl hx
        exact ⟨by omega, hlx, hxe⟩

/-- Every interval ends before the later ones start. -/
theorem pairwise (h : Spaced lo hi a l e) : l.Pairwise fun x y ↦ hi x ≤ lo y := by
  induction l generalizing a with
  | nil => exact List.Pairwise.nil
  | cons x l ih =>
      obtain ⟨-, -, hl⟩ := h
      exact List.pairwise_cons.mpr ⟨fun y hy ↦ (hl.bounds hy).1, ih hl⟩

/-- Two intervals are the same one or lie apart. -/
theorem apart (h : Spaced lo hi a l e) {y : α} (hx : x ∈ l) (hy : y ∈ l) :
    x = y ∨ hi x ≤ lo y ∨ hi y ≤ lo x := by
  induction l generalizing a with
  | nil => exact nomatch hx
  | cons z l ih =>
      obtain ⟨-, -, hl⟩ := h
      rcases List.mem_cons.mp hx with rfl | hx' <;> rcases List.mem_cons.mp hy with rfl | hy'
      · exact .inl rfl
      · exact .inr (.inl (hl.bounds hy').1)
      · exact .inr (.inr (hl.bounds hx').1)
      · exact ih hl hx' hy'

theorem eq_of_lo_eq (h : Spaced lo hi a l e) {y : α} (hx : x ∈ l) (hy : y ∈ l) (heq : lo x = lo y) :
    x = y := by
  have hlx := (h.bounds hx).2.1
  have hly := (h.bounds hy).2.1
  rcases h.apart hx hy with heq' | hle | hle
  · exact heq'
  · omega
  · omega

end Spaced

namespace Tiles

theorem spaced (h : Tiles lo hi a l e) : Spaced lo hi a l e := by
  induction l generalizing a with
  | nil => exact Nat.le_of_eq h
  | cons x l ih =>
      obtain ⟨rfl, hlt, hl⟩ := h
      exact ⟨Nat.le_refl _, hlt, ih hl⟩

theorem increasing (h : Tiles lo hi a l e) : l.Pairwise fun x y ↦ lo x < lo y :=
  h.spaced.pairwise.imp_of_mem fun hx _ hle ↦ Nat.lt_of_lt_of_le (h.spaced.bounds hx).2.1 hle

/-- The end of a tiling may be tiled in another way. -/
theorem replace_tail {mid : List α} (h : Tiles lo hi a (l ++ l') e)
    (hmid : ∀ a, Tiles lo hi a l' e → Tiles lo hi a mid e) : Tiles lo hi a (l ++ mid) e := by
  obtain ⟨b, hl, hl'⟩ := tiles_append.mp h
  exact tiles_append.mpr ⟨b, hl, hmid b hl'⟩

/-- One interval may be cut into several. -/
theorem replace_one {mid : List α} (h : Tiles lo hi a (l ++ x :: l') e)
    (hmid : ∀ a e, Tiles lo hi a [x] e → Tiles lo hi a mid e) :
    Tiles lo hi a (l ++ (mid ++ l')) e := by
  refine h.replace_tail fun b hb ↦ ?_
  obtain ⟨hlo, hlt, hl'⟩ := hb
  exact tiles_append.mpr ⟨hi x, hmid b (hi x) ⟨hlo, hlt, rfl⟩, hl'⟩

/-- The intervals cover the range. -/
theorem covers (h : Tiles lo hi a l e) (ha : a ≤ n) (he : n < e) : ∃ x ∈ l, lo x ≤ n ∧ n < hi x := by
  induction l generalizing a with
  | nil =>
      have hae : a = e := h
      omega
  | cons x l ih =>
      obtain ⟨hlo, -, hl⟩ := h
      by_cases hn : n < hi x
      · exact ⟨x, List.mem_cons_self, by omega, hn⟩
      · obtain ⟨y, hy, hin⟩ := ih hl (by omega)
        exact ⟨y, List.mem_cons_of_mem x hy, hin⟩

end Tiles

end Segments
