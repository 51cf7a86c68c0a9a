import EclipseOS.Directory

/-!
# Address spaces

What the kernel keeps true of the loaded directory: every frame in use is
marked, no table is the directory or the scratch table, and user pages lie in
entries 1 to 767.
-/

namespace EclipseOS

open LittleEndian

namespace Machine

variable {m m' : Machine} {d t i a F P D S f w : ℕ}

/-- Both levels of page `(d, t)` are present and carry the user bit. -/
def UserMapped (m : Machine) (D d t : ℕ) : Prop :=
  m.pde D d % 2 = 1 ∧ m.pde D d &&& PAGE_USER ≠ 0 ∧
    m.pte D d t % 2 = 1 ∧ m.pte D d t &&& PAGE_USER ≠ 0

instance : Decidable (m.UserMapped D d t) := inferInstanceAs (Decidable (_ ∧ _ ∧ _ ∧ _))

theorem pagingIsUser_addr {o : ℕ} (h : m.Recursive) (hd : d < 1024) (ht : t < 1024) (ho : o < 4096) :
    m.pagingIsUser (pageAddr d t + o) = some (decide (m.UserMapped m.dir d t)) := by
  obtain ⟨hdi, -, hti, -⟩ := pageAddr_split hd ht ho
  simp only [pagingIsUser, hdi, hti, h.load_pd hd, Option.bind_eq_bind, Option.bind_some]
  by_cases hpde : m.pde m.dir d % 2 = 1 ∧ m.pde m.dir d &&& PAGE_USER ≠ 0
  · rw [if_neg (not_not.mpr ((and_need_iff _).mpr hpde)), h.load_pt hd ht hpde.1, Option.bind_some]
    apply congrArg some
    rw [beq_eq_decide]
    apply decide_eq_decide.mpr
    rw [and_need_iff, UserMapped]
    exact ⟨fun hpte ↦ ⟨hpde.1, hpde.2, hpte⟩, fun hmap ↦ hmap.2.2⟩
  · rw [if_pos fun hneed ↦ hpde ((and_need_iff _).mp hneed)]
    apply congrArg some
    exact (decide_eq_false fun hmap ↦ hpde ⟨hmap.1, hmap.2.1⟩).symm

/-- The test of the copy loop: it asks for the user bit of the page only. -/
def copied (m : Machine) (D d t : ℕ) : Bool :=
  m.pde D d % 2 == 1 && m.pte D d t % 2 == 1 && (m.pte D d t &&& PAGE_USER != 0)

theorem copied_iff : m.copied D d t = true ↔
    m.pde D d % 2 = 1 ∧ m.pte D d t % 2 = 1 ∧ m.pte D d t &&& PAGE_USER ≠ 0 := by
  simp [copied, and_assoc]

/-- The pages of the loop in the order it meets them. -/
def copiedPages (m : Machine) (D : ℕ) : List (ℕ × ℕ) :=
  (List.range KERNEL_DIR_START).flatMap fun d ↦
    ((List.range 1024).filter fun t ↦ m.copied D d t).map fun t ↦ (d, t)

theorem mem_copiedPages {p : ℕ × ℕ} : p ∈ m.copiedPages D ↔
    p.1 < 768 ∧ p.2 < 1024 ∧ m.copied D p.1 p.2 = true := by
  obtain ⟨d, t⟩ := p
  simp [copiedPages, KERNEL_DIR_START]

theorem nodup_copiedPages (m : Machine) (D : ℕ) : (m.copiedPages D).Nodup := by
  rw [copiedPages, List.nodup_flatMap]
  refine ⟨fun d _ ↦ (List.nodup_range.filter _).map fun t t' h ↦ (Prod.mk.inj h).2,
    List.nodup_range.imp fun {d d'} hne ↦ ?_⟩
  rw [Function.onFun, List.disjoint_left]
  rintro p hp hp'
  obtain ⟨t, -, rfl⟩ := List.mem_map.mp hp
  obtain ⟨t', -, heq⟩ := List.mem_map.mp hp'
  exact hne (Prod.mk.inj heq).1.symm

/-- The loaded directory as the kernel keeps it. -/
structure Space (m : Machine) : Prop where
  window : m.Recursive
  lastAlloc : m.lastAlloc ≤ m.totalFrames
  zeroUsed : m.frameTest 0 = true
  dirUsed : m.frameTest m.dir = true
  dirZero : m.dir ≠ 0
  table : ∀ d, d < 1023 → m.pde m.dir d % 2 = 1 →
    m.frameTest (m.pde m.dir d / 4096) = true ∧ m.pde m.dir d / 4096 ≠ m.dir
  slots : ∀ d, d < 1022 → m.pde m.dir d % 2 = 1 → m.pde m.dir 1022 % 2 = 1 →
    m.pde m.dir d / 4096 ≠ m.pde m.dir 1022 / 4096
  leaf : ∀ d t F, 1 ≤ d → d < 768 → t < 1024 → m.leaf m.dir d t = some F →
    m.frameTest F = true ∧ F ≠ m.dir ∧ (m.pde m.dir 1022 % 2 = 1 → F ≠ m.pde m.dir 1022 / 4096)
  low : ∀ t, t < 1024 → m.copied m.dir 0 t = false
  user : ∀ d t, 1 ≤ d → d < 768 → t < 1024 → m.copied m.dir d t = true →
    m.pde m.dir d &&& PAGE_USER ≠ 0

namespace Space

theorem userMapped_iff (h : m.Space) (hd : d < 768) (ht : t < 1024) :
    m.UserMapped m.dir d t ↔ m.copied m.dir d t = true := by
  rw [copied_iff, UserMapped]
  constructor
  · rintro ⟨h₁, -, h₃, h₄⟩
    exact ⟨h₁, h₃, h₄⟩
  · rintro ⟨h₁, h₃, h₄⟩
    obtain rfl | hpos := Nat.eq_zero_or_pos d
    · have := h.low t ht
      rw [Bool.eq_false_iff, Ne, copied_iff] at this
      exact absurd ⟨h₁, h₃, h₄⟩ this
    · exact ⟨h₁, h.user d t hpos hd ht (copied_iff.mpr ⟨h₁, h₃, h₄⟩), h₃, h₄⟩

theorem scratch (h : m.Space) (hp : m.pde m.dir 1022 % 2 = 1) :
    m.Scratch (m.pde m.dir 1022 / 4096) :=
  ⟨h.window, hp, rfl, (h.table 1022 (by norm_num) hp).2⟩

/-- Copied pages are not in entry 0. -/
theorem copied_pos (h : m.Space) (ht : t < 1024) (hc : m.copied m.dir d t = true) : 1 ≤ d := by
  obtain rfl | hpos := Nat.eq_zero_or_pos d
  · rw [h.low t ht] at hc
    exact nomatch hc
  · exact hpos

end Space

end Machine

end EclipseOS
