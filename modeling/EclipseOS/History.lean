import EclipseOS.Frames

/-!
# The record of calls

Nothing takes an entry out of the record, so an allocation that failed can be
seen at the end of every run it is part of.  Stores leave the record and the
allocator alone, and mapping a page takes one frame at most.
-/

namespace EclipseOS

namespace Machine

variable {m m' m'' : Machine} {va w d n : ℕ}

/-- The record of `m` is the older part of the record of `m'`. -/
def Before (m m' : Machine) : Prop := m.calls <:+ m'.calls

namespace Before

theorem refl (m : Machine) : m.Before m := List.suffix_refl _

theorem trans (h : m.Before m') (h' : m'.Before m'') : m.Before m'' := List.IsSuffix.trans h h'

theorem log (m : Machine) (c : Call) : m.Before (m.log c) := List.suffix_cons _ _

theorem of_eq (h : m'.calls = m.calls) : m.Before m' := by
  rw [Before, h]

/-- An allocation that failed stays in the record. -/
theorem mem {c : Call} (h : m.Before m') (hc : c ∈ m.calls) : c ∈ m'.calls := h.subset hc

/-- A loop whose turns keep the record. -/
theorem foldlM {σ ι : Type} {π : σ → Machine} {step : σ → ι → Option σ}
    (hstep : ∀ s i s', step s i = some s' → (π s).Before (π s')) {l : List ι} {s s' : σ}
    (h : l.foldlM step s = some s') : (π s).Before (π s') := by
  induction l generalizing s with
  | nil =>
      rw [List.foldlM_nil, Option.pure_def, Option.some.injEq] at h
      rw [h]
      exact refl _
  | cons i l ih =>
      rw [List.foldlM_cons, Option.bind_eq_bind, Option.bind_eq_some_iff] at h
      obtain ⟨s₁, h₁, h₂⟩ := h
      exact (hstep s i s₁ h₁).trans (ih h₂)

end Before

/-! ## Accesses -/

/-- Only the memory is different. -/
def Stores (m m' : Machine) : Prop := m' = { m with mem := m'.mem }

namespace Stores

theorem refl (m : Machine) : m.Stores m := rfl

theorem trans (h : m.Stores m') (h' : m'.Stores m'') : m.Stores m'' := by
  rw [Stores] at *
  rw [h', h]

theorem before (h : m.Stores m') : m.Before m' := Before.of_eq (by rw [h])

end Stores

theorem store8_stores {b : UInt8} (h : m.store8 va b = some m') : m.Stores m' := by
  rw [store8, Option.map_eq_some_iff] at h
  obtain ⟨p, -, rfl⟩ := h
  rfl

theorem store32_stores (h : m.store32 va w = some m') : m.Stores m' := by
  simp only [store32, Option.bind_eq_bind, Option.bind_eq_some_iff, Option.pure_def,
    Option.some.injEq] at h
  obtain ⟨p₀, -, p₁, -, p₂, -, p₃, -, rfl⟩ := h
  rfl

theorem memset_stores {v : UInt8} (h : m.memset va v n = some m') : m.Stores m' := by
  induction n generalizing m va with
  | zero =>
      rw [memset, Option.some.injEq] at h
      exact h ▸ Stores.refl m
  | succ n ih =>
      rw [memset, Option.bind_eq_bind, Option.bind_eq_some_iff] at h
      obtain ⟨m₁, h₁, h₂⟩ := h
      exact (store8_stores h₁).trans (ih h₂)

theorem memcpyFrom_stores {src : ℕ → UInt8} {off : ℕ} (h : m.memcpyFrom va src off n = some m') :
    m.Stores m' := by
  induction n generalizing m va off with
  | zero =>
      rw [memcpyFrom, Option.some.injEq] at h
      exact h ▸ Stores.refl m
  | succ n ih =>
      rw [memcpyFrom, Option.bind_eq_bind, Option.bind_eq_some_iff] at h
      obtain ⟨m₁, h₁, h₂⟩ := h
      exact (store8_stores h₁).trans (ih h₂)

/-! ## Allocator and paging -/

theorem pmmAllocFrame_calls (m : Machine) :
    m.pmmAllocFrame.2.calls = .alloc m.pmmAllocFrame.1 :: m.calls := by
  simp only [pmmAllocFrame]
  split <;> rfl

theorem pmmAllocFrame_before (m : Machine) : m.Before m.pmmAllocFrame.2 := by
  rw [Before, pmmAllocFrame_calls]
  exact List.suffix_cons _ _

theorem pagingEnsureTable_before (h : m.pagingEnsureTable d = some m') : m.Before m' := by
  rw [pagingEnsureTable, Option.bind_eq_bind, Option.bind_eq_some_iff] at h
  obtain ⟨pde, -, h⟩ := h
  split at h
  · rw [Option.bind_eq_bind, Option.bind_eq_some_iff] at h
    obtain ⟨m₁, h₁, h₂⟩ := h
    exact (m.pmmAllocFrame_before.trans (store32_stores h₁).before).trans (memset_stores h₂).before
  · rw [Option.pure_def, Option.some.injEq] at h
    exact h ▸ Before.refl m

theorem pagingMap_before {phys flags : ℕ} (h : m.pagingMap va phys flags = some m') :
    m.Before m' := by
  simp only [pagingMap, Option.bind_eq_bind, Option.bind_eq_some_iff] at h
  obtain ⟨m₁, h₁, pde, -, m₂, h₂, h₃⟩ := h
  exact (((Before.log m _).trans (pagingEnsureTable_before h₁)).trans (store32_stores h₂).before).trans
    (store32_stores h₃).before

theorem shareEntry_before (h : m.shareEntry d = some m') : m.Before m' := by
  simp only [shareEntry, Option.bind_eq_bind, Option.bind_eq_some_iff] at h
  obtain ⟨pde, -, h⟩ := h
  exact (store32_stores h).before

/-- The allocation of a table is in the record of `paging_map`. -/
theorem pagingMap_table_before {phys flags pde : ℕ} (h : m.pagingMap va phys flags = some m')
    (hload : m.load32 (pdVirt (va >>> 22)) = some pde) (hp : pde % 2 = 0) :
    (m.log (.map va phys flags)).pmmAllocFrame.2.Before m' := by
  have hload' : (m.log (.map va phys flags)).load32 (pdVirt (va >>> 22)) = some pde := hload
  simp only [pagingMap, pagingEnsureTable, hload', PAGE_PRESENT, LittleEndian.and_one_eq, hp, if_true,
    Option.bind_eq_bind, Option.bind_some, Option.bind_eq_some_iff] at h
  obtain ⟨m₁, ⟨m₂, h₂, h₁⟩, pde, -, m₃, h₃, h₄⟩ := h
  exact (((store32_stores h₂).before.trans (memset_stores h₁).before).trans (store32_stores h₃).before).trans
    (store32_stores h₄).before

/-- The allocations of `paging_new_directory` are in the record at its end. -/
theorem pagingNewDirectory_before {a : ℕ} (h : m.pagingNewDirectory = some (a, m')) :
    a = m.pmmAllocFrame.1 ∧ ∃ m₁, m.pmmAllocFrame.2.pagingTmpMap a = some m₁ ∧ m₁.Before m' := by
  simp only [pagingNewDirectory, Option.bind_eq_bind, Option.bind_eq_some_iff, Option.pure_def,
    Option.some.injEq, Prod.mk.injEq] at h
  obtain ⟨m₁, h₁, m₂, h₂, m₃, h₃, m₄, h₄, m₅, h₅, rfl, rfl⟩ := h
  exact ⟨rfl, m₁, h₁, (((memset_stores h₂).before.trans (shareEntry_before h₃)).trans
    (Before.foldlM (π := id) (fun _ _ _ ↦ shareEntry_before) h₄)).trans (store32_stores h₅).before⟩

/-! ## How many frames -/

/-- At most `k` frames are taken. -/
structure Takes (k : ℕ) (m m' : Machine) : Prop where
  totalFrames : m'.totalFrames = m.totalFrames
  test : ∀ f, m.frameTest f = true → m'.frameTest f = true
  lastAlloc : m.lastAlloc ≤ m.totalFrames → m'.lastAlloc ≤ m'.totalFrames
  card : m.lastAlloc ≤ m.totalFrames → m.free.card ≤ m'.free.card + k

namespace Takes

variable {k l : ℕ}

theorem of_stores (h : m.Stores m') : Takes 0 m m' := by
  have hfree : m'.free = m.free := by
    rw [h]
    rfl
  refine ⟨by rw [h], fun f hf ↦ ?_, fun hlast ↦ by rw [h]; exact hlast, fun _ ↦ by rw [hfree, Nat.add_zero]⟩
  rw [h]
  exact hf

theorem trans (h : Takes k m m') (h' : Takes l m' m'') : Takes (k + l) m m'' where
  totalFrames := h'.totalFrames.trans h.totalFrames
  test f hf := h'.test f (h.test f hf)
  lastAlloc hlast := h'.lastAlloc (h.lastAlloc hlast)
  card hlast := by
    have h₁ := h.card hlast
    have h₂ := h'.card (h.lastAlloc hlast)
    omega

theorem mono (h : Takes k m m') (hkl : k ≤ l) : Takes l m m' :=
  ⟨h.totalFrames, h.test, h.lastAlloc, fun hlast ↦ (h.card hlast).trans (Nat.add_le_add_left hkl _)⟩

end Takes

theorem pmmAllocFrame_takes (m : Machine) : Takes 1 m m.pmmAllocFrame.2 := by
  have htest : ∀ f, m.frameTest f = true → m.pmmAllocFrame.2.frameTest f = true := by
    intro f hf
    simp only [pmmAllocFrame]
    split
    · exact (m.frameTest_frameSet _ f).trans (by rw [hf, Bool.or_true])
    · exact hf
  by_cases hlast : m.lastAlloc ≤ m.totalFrames
  · obtain ⟨i, hi, halloc⟩ | ⟨-, halloc⟩ := pmmAllocFrame_cases hlast
    · rw [halloc] at htest ⊢
      refine ⟨rfl, htest, fun _ ↦ ((mem_free m).mp hi).1.le, fun _ ↦ ?_⟩
      rw [withAlloc_free]
      exact (Finset.card_erase_add_one hi).ge
    · rw [halloc]
      exact ⟨rfl, fun _ hf ↦ hf, id, fun _ ↦ Nat.le_succ _⟩
  · refine ⟨?_, htest, fun h ↦ absurd h hlast, fun h ↦ absurd h hlast⟩
    simp only [pmmAllocFrame]
    split <;> rfl

/-- A page takes one frame at most: the one for its table. -/
theorem pagingMap_takes {phys flags : ℕ} (h : m.pagingMap va phys flags = some m') :
    Takes 1 m m' := by
  simp only [pagingMap, Option.bind_eq_bind, Option.bind_eq_some_iff] at h
  obtain ⟨m₁, h₁, pde, -, m₂, h₂, h₃⟩ := h
  have htable : Takes 1 (m.log (.map va phys flags)) m₁ := by
    rw [pagingEnsureTable, Option.bind_eq_bind, Option.bind_eq_some_iff] at h₁
    obtain ⟨pde, -, h₁⟩ := h₁
    split at h₁
    · rw [Option.bind_eq_bind, Option.bind_eq_some_iff] at h₁
      obtain ⟨m₃, h₄, h₅⟩ := h₁
      exact ((pmmAllocFrame_takes _).trans (.of_stores (store32_stores h₄))).trans
        (.of_stores (memset_stores h₅))
    · rw [Option.pure_def, Option.some.injEq] at h₁
      exact h₁ ▸ (Takes.of_stores (Stores.refl _)).mono (Nat.zero_le 1)
  have hall := (htable.trans (.of_stores (store32_stores h₂))).trans
    (.of_stores (store32_stores h₃))
  exact ⟨hall.totalFrames, hall.test, hall.lastAlloc, hall.card⟩

end Machine

end EclipseOS
