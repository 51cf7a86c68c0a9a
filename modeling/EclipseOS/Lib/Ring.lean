import Mathlib.Data.List.Rotate
import Mathlib.Logic.Function.Basic
import Mathlib.Tactic

/-!
# Intrusive circular lists

A circular list is given by a partial successor function `next`; nothing else
is stored.  `Ring next c` says that the members of `c` are distinct and that
following `next` from the head of `c` meets them in order and comes back to
the head.
-/

namespace IntrusiveList

variable {α : Type*} {next next' : α → Option α} {a b t : α} {l l' c : List α}

/-- Following `next` from `a` meets exactly the members of `l` before `b`. -/
def Links (next : α → Option α) : α → List α → α → Prop
  | a, [], b => next a = some b
  | a, x :: l, b => next a = some x ∧ Links next x l b

def Ring (next : α → Option α) (c : List α) : Prop :=
  ∃ a l, c = a :: l ∧ c.Nodup ∧ Links next a l a

theorem ring_cons : Ring next (a :: l) ↔ (a :: l).Nodup ∧ Links next a l a := by
  constructor
  · rintro ⟨x, xs, h, hnodup, hlinks⟩
    cases h
    exact ⟨hnodup, hlinks⟩
  · rintro ⟨hnodup, hlinks⟩
    exact ⟨a, l, rfl, hnodup, hlinks⟩

theorem Ring.nodup (h : Ring next c) : c.Nodup := by
  obtain ⟨_, _, _, hnodup, _⟩ := h
  exact hnodup

theorem links_append (x : α) :
    Links next a (l ++ x :: l') b ↔ Links next a l x ∧ Links next x l' b := by
  induction l generalizing a with
  | nil => simp [Links]
  | cons y l ih => simp [Links, ih, and_assoc]

theorem Links.congr (h : Links next a l b) (heq : ∀ x ∈ a :: l, next' x = next x) :
    Links next' a l b := by
  induction l generalizing a with
  | nil =>
      have ha := heq a (by simp)
      simpa [Links, ha] using h
  | cons x l ih =>
      have ha := heq a (by simp)
      refine ⟨by rw [ha]; exact h.1, ih h.2 fun y hy ↦ heq y (List.mem_cons_of_mem a hy)⟩

theorem Ring.congr (h : Ring next c) (heq : ∀ x ∈ c, next' x = next x) : Ring next' c := by
  obtain ⟨a, l, rfl, hnodup, hlinks⟩ := h
  exact ring_cons.mpr ⟨hnodup, hlinks.congr heq⟩

/-- A link leads to the next member or to the end. -/
theorem Links.next_mem {x : α} (h : Links next a l b) (hx : x ∈ a :: l) :
    ∃ y, next x = some y ∧ (y ∈ l ∨ y = b) := by
  induction l generalizing a with
  | nil =>
      obtain rfl := List.mem_singleton.mp hx
      exact ⟨b, h, Or.inr rfl⟩
  | cons c l ih =>
      rcases List.mem_cons.mp hx with rfl | hx
      · exact ⟨c, h.1, Or.inl (List.mem_cons_self ..)⟩
      · obtain ⟨y, hy, hmem⟩ := ih h.2 hx
        exact ⟨y, hy, hmem.imp_left (List.mem_cons_of_mem c)⟩

/-- No link leads out of a ring. -/
theorem Ring.next_mem {x : α} (h : Ring next c) (hx : x ∈ c) : ∃ y ∈ c, next x = some y := by
  obtain ⟨a, l, rfl, -, hlinks⟩ := h
  obtain ⟨y, hy, hmem | rfl⟩ := hlinks.next_mem hx
  · exact ⟨y, List.mem_cons_of_mem a hmem, hy⟩
  · exact ⟨y, List.mem_cons_self .., hy⟩

/-- The successor of the head. -/
theorem Ring.next_head (h : Ring next (a :: l)) : next a = some ((l ++ [a]).head (by simp)) := by
  obtain ⟨_, hlinks⟩ := ring_cons.mp h
  cases l with
  | nil => simpa [Links] using hlinks
  | cons x l => simpa [Links] using hlinks.1

theorem Ring.rotate_one (h : Ring next c) : Ring next (c.rotate 1) := by
  obtain ⟨a, l, rfl, hnodup, hlinks⟩ := h
  cases l with
  | nil => simpa using ring_cons.mpr ⟨hnodup, hlinks⟩
  | cons b l =>
      have hrot : (a :: b :: l).rotate 1 = b :: (l ++ [a]) := by simp
      rw [hrot]
      refine ring_cons.mpr ⟨?_, ?_⟩
      · rw [← hrot]
        exact List.nodup_rotate.mpr hnodup
      · exact (links_append a).mpr ⟨hlinks.2, hlinks.1⟩

theorem Ring.rotate (h : Ring next c) (n : ℕ) : Ring next (c.rotate n) := by
  induction n with
  | zero => simpa using h
  | succ n ih =>
      have := ih.rotate_one
      rwa [List.rotate_rotate] at this

/-- Links that start in a ring end in it. -/
theorem Ring.links_mem (h : Ring next c) (ha : a ∈ c) (hl : Links next a l b) : b ∈ c := by
  induction l generalizing a with
  | nil =>
      obtain ⟨y, hy, hnext⟩ := h.next_mem ha
      obtain rfl := Option.some.inj (hl.symm.trans hnext)
      exact hy
  | cons x l ih =>
      obtain ⟨y, hy, hnext⟩ := h.next_mem ha
      obtain rfl := Option.some.inj (hl.1.symm.trans hnext)
      exact ih hy hl.2

/-- A member that no link leads to is not met on the way. -/
theorem Links.notMem (hl : Links next a l b) {p : α} (hp : next p = some t) (hta : t ≠ b)
    (htl : t ∉ l) : p ∉ a :: l := by
  intro hmem
  obtain ⟨y, hy, hyl⟩ := hl.next_mem hmem
  obtain rfl := Option.some.inj (hp.symm.trans hy)
  exact hyl.elim htl hta

variable [DecidableEq α]

/-- The members before `t`, read from the head. -/
theorem Ring.links_to (h : Ring next (a :: l)) (ht : t ∈ a :: l) (hne : a ≠ t) :
    ∃ l', Links next a l' t ∧ (a :: l').Nodup ∧ t ∉ l' ∧ l'.length + 1 = (a :: l).idxOf t := by
  obtain ⟨hnodup, hlinks⟩ := ring_cons.mp h
  obtain ⟨l₁, l₂, rfl⟩ := List.append_of_mem ((List.mem_cons.mp ht).resolve_left hne.symm)
  have hsplit := (links_append t).mp hlinks
  rw [← List.cons_append] at hnodup
  obtain ⟨hl₁, -, hdis⟩ := List.nodup_append.mp hnodup
  have htl : t ∉ a :: l₁ := fun hmem ↦ hdis t hmem t (List.mem_cons_self ..) rfl
  refine ⟨l₁, hsplit.1, hl₁, fun hmem ↦ htl (List.mem_cons_of_mem a hmem), ?_⟩
  rw [← List.cons_append, List.idxOf_append_of_notMem htl, List.idxOf_cons_self]
  rfl

/-- Splicing a fresh member in after the head. -/
theorem Ring.insert (h : Ring next (a :: l)) (ht : t ∉ a :: l) :
    Ring (Function.update (Function.update next t (next a)) a (some t)) (a :: t :: l) := by
  obtain ⟨hnodup, hlinks⟩ := ring_cons.mp h
  have hta : t ≠ a := fun heq ↦ ht (by simp [heq])
  have htl : t ∉ l := fun hmem ↦ ht (List.mem_cons_of_mem a hmem)
  have hal : a ∉ l := (List.nodup_cons.mp hnodup).1
  refine ring_cons.mpr ⟨?_, ?_, ?_⟩
  · refine List.nodup_cons.mpr ⟨?_, List.nodup_cons.mpr ⟨htl, (List.nodup_cons.mp hnodup).2⟩⟩
    simp [hta.symm, hal]
  · simp
  · cases l with
    | nil => simpa [Links, hta] using hlinks
    | cons b l =>
        refine ⟨by simpa [hta] using hlinks.1, hlinks.2.congr fun x hx ↦ ?_⟩
        have hxa : x ≠ a := fun heq ↦ hal (heq ▸ hx)
        have hxt : x ≠ t := fun heq ↦ htl (heq ▸ hx)
        simp [hxa, hxt]

/-- Unlinking the head: its predecessor takes over its successor. -/
theorem Ring.remove_head (h : Ring next (a :: l ++ [t])) :
    Ring (Function.update next t (next a)) (l ++ [t]) := by
  obtain ⟨hnodup, hlinks⟩ := ring_cons.mp (by simpa using h)
  have hnd : (l ++ [t]).Nodup := (List.nodup_cons.mp hnodup).2
  have htl : t ∉ l := by
    have hdis := (List.nodup_append.mp hnd).2.2
    exact fun hmem ↦ hdis t hmem t (by simp) rfl
  have hsplit := (links_append t).mp hlinks
  cases l with
  | nil =>
      refine ring_cons.mpr ⟨by simp, ?_⟩
      simpa [Links] using hsplit.1
  | cons b l =>
      refine ring_cons.mpr ⟨hnd, (links_append t).mpr ⟨?_, ?_⟩⟩
      · refine hsplit.1.2.congr fun x hx ↦ ?_
        have hxt : x ≠ t := fun heq ↦ htl (heq ▸ hx)
        simp [hxt]
      · simpa [Links] using hsplit.1.1

end IntrusiveList
