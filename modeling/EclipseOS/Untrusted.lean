import EclipseOS.RelocationTrace

/-!
# Images from files

What a file has to say for the loader to stay in user space, and for it to read
no more than the file.  `elf_load` does not ask.
-/

namespace EclipseOS

open LittleEndian Access

namespace Image

/-- Dynamic entries and relocation records are in the image. -/
def TablesInside (data : Image) (base : ℕ) : Prop :=
  ∀ va, data.relocated base (fun _ ↦ none) (data.loaded base) ≠ .error (.read va)

end Image

namespace Machine

variable {m m' m₁ : Machine} {B D d t i n off base hi high v x size : ℕ} {L K : Set ℕ}
variable {data : Image} {μ ν : Bytes}

/-! ## Frames -/

/-- `elf_load` answers 0. -/
def Refuses (m : Machine) (data : Image) (size : ℕ) : Prop :=
  ∃ brk m', m.elfLoad data size = some (0, brk, m')

theorem loadPage_takes {s s' : ElfLoop} (h : loadPage s v = some s') (hoom : s.outOfMemory = false)
    (h0 : s.machine.frameTest 0 = true) (hlast : s.machine.lastAlloc ≤ s.machine.totalFrames)
    (hroom : 2 ≤ s.machine.free.card) :
    s'.outOfMemory = false ∧ Takes 2 s.machine s'.machine := by
  obtain ⟨i, hi, halloc⟩ | ⟨hnone, -⟩ := pmmAllocFrame_cases hlast
  · have hi0 : i * PAGE_SIZE ≠ 0 := Nat.mul_ne_zero (Ledger.free_ne hi h0) (by decide)
    have htakes := s.machine.pmmAllocFrame_takes
    rw [halloc] at htakes
    simp only [loadPage, hoom, Bool.false_eq_true, if_false, halloc, hi0, Option.bind_eq_bind,
      Option.bind_eq_some_iff, Option.pure_def, Option.some.injEq] at h
    obtain ⟨m₁, h₁, m₂, h₂, rfl⟩ := h
    exact ⟨rfl, (htakes.trans (pagingMap_takes h₁)).trans (.of_stores (memset_stores h₂))⟩
  · rw [hnone, Finset.card_empty] at hroom
    omega

theorem loadPages_takes {s s' : ElfLoop} {l : List ℕ} (h : l.foldlM loadPage s = some s')
    (hoom : s.outOfMemory = false) (h0 : s.machine.frameTest 0 = true)
    (hlast : s.machine.lastAlloc ≤ s.machine.totalFrames)
    (hroom : 2 * l.length ≤ s.machine.free.card) :
    s'.outOfMemory = false ∧ Takes (2 * l.length) s.machine s'.machine := by
  induction l generalizing s with
  | nil =>
      rw [List.foldlM_nil, Option.pure_def, Option.some.injEq] at h
      subst h
      exact ⟨hoom, .of_stores (Stores.refl _)⟩
  | cons v l ih =>
      rw [List.foldlM_cons, Option.bind_eq_bind, Option.bind_eq_some_iff] at h
      obtain ⟨s₁, h₁, h₂⟩ := h
      rw [List.length_cons] at hroom ⊢
      obtain ⟨hoom₁, htakes₁⟩ := loadPage_takes h₁ hoom h0 hlast (by omega)
      have hcard := htakes₁.card hlast
      obtain ⟨hoom₂, htakes₂⟩ := ih h₂ hoom₁ (htakes₁.test 0 h0) (htakes₁.lastAlloc hlast) (by omega)
      exact ⟨hoom₂, (htakes₁.trans htakes₂).mono (by omega)⟩

/-- Two frames for each page are enough, whatever the pages are. -/
theorem loadSegments_takes {s s' : ElfLoop} {l : List ℕ}
    (h : l.foldlM (loadSegment data base) s = some s') (hoom : s.outOfMemory = false)
    (h0 : s.machine.frameTest 0 = true) (hlast : s.machine.lastAlloc ≤ s.machine.totalFrames)
    (hroom : 2 * (l.flatMap (data.segPages base)).length ≤ s.machine.free.card) :
    s'.outOfMemory = false := by
  induction l generalizing s with
  | nil =>
      rw [List.foldlM_nil, Option.pure_def, Option.some.injEq] at h
      exact h ▸ hoom
  | cons i l ih =>
      rw [List.foldlM_cons, Option.bind_eq_bind, Option.bind_eq_some_iff] at h
      obtain ⟨s₁, h₁, h₂⟩ := h
      rw [List.flatMap_cons, List.length_append, Image.segPages] at hroom
      by_cases hload : data.pType i = PT_LOAD
      · rw [if_pos hload] at hroom
        rw [loadSegment, if_neg (by simp [hload, hoom])] at h₁
        dsimp only at h₁
        rw [Option.bind_eq_bind, Option.bind_eq_some_iff] at h₁
        obtain ⟨s₂, hpages, h₁⟩ := h₁
        obtain ⟨hoom₂, htakes⟩ := loadPages_takes hpages hoom h0 hlast (by dsimp only; omega)
        have hcard := htakes.card hlast
        dsimp only at htakes hcard
        rw [if_neg (by simp [hoom₂]), Option.bind_eq_bind, Option.bind_eq_some_iff] at h₁
        obtain ⟨m₃, hcpy, h₁⟩ := h₁
        obtain rfl := Option.some.inj h₁
        have hstores := Takes.of_stores (memcpyFrom_stores hcpy)
        have hcard' := hstores.card (htakes.lastAlloc hlast)
        exact ih h₂ hoom₂ (hstores.test 0 (htakes.test 0 h0))
          (hstores.lastAlloc (htakes.lastAlloc hlast)) (by dsimp only; omega)
      · rw [if_neg hload] at hroom
        rw [loadSegment, if_pos (Or.inr hload), Option.pure_def, Option.some.injEq] at h₁
        subst h₁
        exact ih h₂ hoom h0 hlast (by simpa using hroom)

/-- An image with an entry point is refused by the header's tests or for want of
frames. -/
theorem Refuses.outOfMemory (h : m.Refuses data size) (hbase : data.headerBase size = some base)
    (hentry : (base + data.eEntry) % 2 ^ 32 ≠ 0) :
    ∃ s, (List.range data.ePhnum).foldlM (loadSegment data base) ⟨m, 0, false⟩ = some s ∧
      s.outOfMemory = true := by
  obtain ⟨brk, m', h⟩ := h
  rw [elfLoad, hbase] at h
  dsimp only at h
  rw [Option.bind_eq_bind, Option.bind_eq_some_iff] at h
  obtain ⟨s, hs, h⟩ := h
  refine ⟨s, hs, ?_⟩
  by_contra hoom
  rw [if_neg hoom, Option.bind_eq_bind, Option.bind_eq_some_iff] at h
  obtain ⟨m₁, -, h⟩ := h
  simp only [Option.pure_def, Option.some.injEq, Prod.mk.injEq] at h
  exact hentry h.1

end Machine

/-! ## What is in the record -/

/-- A byte of the fixed header. -/
def Access.Fixed (a : Access) : Prop := ∃ off < EHDR_SIZE, a = .data off

theorem fixed_of_dataBytes {a : Access} {off n : ℕ} (hle : off + n ≤ EHDR_SIZE)
    (ha : a ∈ dataBytes off n) : a.Fixed := by
  obtain ⟨k, hk, rfl⟩ := mem_dataBytes.mp ha
  rw [EHDR_SIZE] at hle
  rw [Nat.mod_eq_of_lt (by omega)]
  exact ⟨off + k, by rw [EHDR_SIZE]; omega, rfl⟩

theorem fixed_of_headerTrace {data : Image} {size : ℕ} {a : Access}
    (ha : a ∈ Machine.headerTrace data size) : a.Fixed := by
  rw [Machine.headerTrace] at ha
  split at ha
  · exact absurd ha List.not_mem_nil
  rw [List.mem_append] at ha
  obtain ha | ha := ha
  · exact fixed_of_dataBytes (by decide) ha
  split at ha
  · exact absurd ha List.not_mem_nil
  rw [List.mem_append] at ha
  obtain ha | ha := ha
  · exact fixed_of_dataBytes (by decide) ha
  split at ha
  · exact absurd ha List.not_mem_nil
  rw [List.mem_append] at ha
  obtain ha | ha := ha
  · exact fixed_of_dataBytes (by decide) ha
  split at ha
  · exact absurd ha List.not_mem_nil
  · exact fixed_of_dataBytes (by decide) ha

namespace Image

variable {data : Image} {base n x i v off : ℕ}

/-- The pages that own an address. -/
theorem owned_iff : data.Owned base n x ↔
    ∃ j < n, ∃ v ∈ data.segPages base j, v ≤ x ∧ x < v + PAGE_SIZE := by
  simp only [mem_segPages, PAGE_SIZE]
  constructor
  · rintro ⟨j, hj, hload, h₁, h₂⟩
    have := Machine.segStart_mod data base j
    exact ⟨j, hj, x - x % 4096, ⟨hload, by omega, by omega, by omega⟩, by omega, by omega⟩
  · rintro ⟨j, hj, v, ⟨hload, h₁, h₂, h₃⟩, h₄, h₅⟩
    have := Machine.segEnd_mod data base j
    exact ⟨j, hj, hload, by omega, by omega⟩

theorem map_mem_headerEvents : .map v ∈ data.headerEvents base i ↔ v ∈ data.segPages base i := by
  rw [headerEvents, segPages]
  by_cases hload : data.pType i = PT_LOAD
  · simp [hload, pagesTrace, copyEvents, mem_dataBytes, mem_writeBytes]
  · simp [hload, mem_dataBytes]

theorem write_mem_headerEvents (h : .write x ∈ data.headerEvents base i) :
    (∃ v ∈ data.segPages base i, ∃ k < PAGE_SIZE, x = (v + k) % 2 ^ 32) ∨
      (data.pType i = PT_LOAD ∧
        ∃ k < data.pFilesz i, x = ((base + data.pVaddr i) % 2 ^ 32 + k) % 2 ^ 32) := by
  rw [headerEvents] at h
  rw [segPages]
  by_cases hload : data.pType i = PT_LOAD
  · simpa [hload, pagesTrace, copyEvents, mem_dataBytes, mem_writeBytes, eq_comm] using h
  · simp [hload, mem_dataBytes] at h

/-- What is read of the file for header `i`. -/
theorem data_mem_headerEvents : .data off ∈ data.headerEvents base i ↔
    (∃ k < 4, off = (data.phdr i + k) % 2 ^ 32) ∨ (data.pType i = PT_LOAD ∧
      ((∃ f ∈ [8, 20, 4, 16], ∃ k < 4, off = (data.phdr i + f + k) % 2 ^ 32) ∨
        ∃ k < data.pFilesz i, off = (data.pOffset i + k) % 2 ^ 32)) := by
  rw [headerEvents]
  by_cases hload : data.pType i = PT_LOAD
  · simp [hload, pagesTrace, copyEvents, mem_dataBytes, mem_writeBytes, or_assoc]
  · simp [hload, mem_dataBytes]

/-- And for the search for `PT_DYNAMIC`. -/
theorem data_mem_dynamicHeaderTrace : .data off ∈ Machine.dynamicHeaderTrace data ↔
    ∃ i < data.ePhnum, (∃ k < 4, off = (data.phdr i + k) % 2 ^ 32) ∨
      (data.pType i = PT_DYNAMIC ∧ ∃ k < 4, off = (data.phdr i + 8 + k) % 2 ^ 32) := by
  simp only [Machine.dynamicHeaderTrace, List.mem_flatMap, List.mem_range, List.mem_append]
  refine exists_congr fun i ↦ and_congr_right fun _ ↦ ?_
  by_cases hdyn : data.pType i = PT_DYNAMIC <;> simp [hdyn, mem_dataBytes]

theorem eq_data_of_mem_dynamicHeaderTrace {a : Access} (h : a ∈ Machine.dynamicHeaderTrace data) :
    ∃ off, a = .data off := by
  simp only [Machine.dynamicHeaderTrace, List.mem_flatMap, List.mem_append, mem_dataBytes] at h
  obtain ⟨i, -, ⟨k, -, rfl⟩ | h⟩ := h
  · exact ⟨_, rfl⟩
  · split at h
    · obtain ⟨k, -, rfl⟩ := mem_dataBytes.mp h
      exact ⟨_, rfl⟩
    · exact absurd h List.not_mem_nil

/-- Everything the headers make the loader read of the file. -/
theorem insideFile_iff (base : ℕ) {size : ℕ} : data.InsideFile size ↔
    (∀ i < data.ePhnum, ∀ off, .data off ∈ data.headerEvents base i → off < size) ∧
      ∀ off, .data off ∈ Machine.dynamicHeaderTrace data → off < size := by
  constructor
  · intro h
    refine ⟨fun i hi off hoff ↦ ?_, fun off hoff ↦ ?_⟩
    · obtain ⟨hfirst, hload, -⟩ := h i hi
      obtain ⟨k, hk, rfl⟩ | ⟨htype, ⟨f, hf, k, hk, rfl⟩ | ⟨k, hk, rfl⟩⟩ :=
        data_mem_headerEvents.mp hoff
      · exact hfirst k hk
      · exact (hload htype).1 f hf k hk
      · exact (hload htype).2 k hk
    · obtain ⟨i, hi, ⟨k, hk, rfl⟩ | ⟨htype, k, hk, rfl⟩⟩ := data_mem_dynamicHeaderTrace.mp hoff
      · exact (h i hi).1 k hk
      · exact (h i hi).2.2 htype k hk
  · rintro ⟨hheader, hdyn⟩ i hi
    refine ⟨fun k hk ↦ ?_, fun htype ↦ ⟨fun f hf k hk ↦ ?_, fun k hk ↦ ?_⟩, fun htype k hk ↦ ?_⟩
    · exact hheader i hi _ (data_mem_headerEvents.mpr (Or.inl ⟨k, hk, rfl⟩))
    · exact hheader i hi _ (data_mem_headerEvents.mpr (Or.inr ⟨htype, Or.inl ⟨f, hf, k, hk, rfl⟩⟩))
    · exact hheader i hi _ (data_mem_headerEvents.mpr (Or.inr ⟨htype, Or.inr ⟨k, hk, rfl⟩⟩))
    · exact hdyn _ (data_mem_dynamicHeaderTrace.mpr ⟨i, hi, Or.inr ⟨htype, k, hk, rfl⟩⟩)

end Image

end EclipseOS
