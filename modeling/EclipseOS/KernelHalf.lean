import EclipseOS.Sample
import EclipseOS.Startup

/-!
# The shared half of the address spaces

Entries 0 and 768 to 1022 of a directory are copied when it is made and never
brought up to date afterwards.  No operation changes them once there is more
than one directory.
-/

namespace EclipseOS

namespace Machine

/-- One operation on the machine and on the frames of the live directories.
Flags are the low twelve bits of an entry. -/
inductive SpaceStep (B : ℕ) (m : Machine) (L : Set ℕ) : Machine → Set ℕ → Prop
  | newDirectory {D : ℕ} {m' : Machine} : m.pagingNewDirectory = some (D * PAGE_SIZE, m') →
      SpaceStep B m L m' (insert D L)
  | switchDirectory {D : ℕ} : D ∈ L →
      SpaceStep B m L (m.pagingSwitchDirectory (D * PAGE_SIZE)) L
  | freeDirectory {D : ℕ} {m' : Machine} : D ∈ L → D ≠ m.dir → D ≠ B →
      m.pagingFreeDirectory (D * PAGE_SIZE) = some m' → SpaceStep B m L m' (L \ {D})
  | tmpMap {P : ℕ} {m' : Machine} : P < 2 ^ 20 → m.pagingTmpMap (P * PAGE_SIZE) = some m' →
      SpaceStep B m L m' L
  | tmp2Map {P : ℕ} {m' : Machine} : P < 2 ^ 20 → m.pagingTmp2Map (P * PAGE_SIZE) = some m' →
      SpaceStep B m L m' L
  | map {va flags frame : ℕ} {m₁ m' : Machine} : va < 2 ^ 32 → 1 ≤ va >>> 22 → va >>> 22 < 768 →
      flags < 4096 → m.pmmAllocFrame = (frame, m₁) → m₁.pagingMap va frame flags = some m' →
      SpaceStep B m L m' L
  | unmap {va : ℕ} {m' : Machine} : va < 2 ^ 32 → 1 ≤ va >>> 22 → va >>> 22 < 768 →
      m.pagingUnmap va = some m' → SpaceStep B m L m' L

/-- What can come of `m₀` while frame allocations succeed. -/
inductive SpaceRun (B : ℕ) (m₀ : Machine) : Machine → Set ℕ → Prop
  | start : SpaceRun B m₀ m₀ {B}
  | step {m m' : Machine} {L L' : Set ℕ} : SpaceRun B m₀ m L → SpaceStep B m L m' L' →
      Call.alloc 0 ∉ m'.calls → SpaceRun B m₀ m' L'

variable {m m' m₀ : Machine} {B T D D' : ℕ} {L L' K : Set ℕ}

/-- Every operation keeps the ledger. -/
theorem SpaceStep.ledger (hstep : SpaceStep B m L m' L') (h : m.Ledger B L K)
    (hcalls : Call.alloc 0 ∉ m'.calls) : ∃ K', m'.Ledger B L' K' := by
  cases hstep with
  | newDirectory hrun =>
      obtain ⟨a, -, S, haddr, -, hled, -⟩ := h.pagingNewDirectory hrun hcalls
      obtain rfl := Nat.eq_of_mul_eq_mul_right (by decide) haddr
      exact ⟨_, hled⟩
  | switchDirectory hD => exact ⟨K, h.switch hD⟩
  | freeDirectory hD hne hB hrun =>
      obtain ⟨m₁, S, hrun', -, -, hled, -⟩ := h.pagingFreeDirectory hD hne hB
      obtain rfl := Option.some.inj (hrun.symm.trans hrun')
      exact ⟨K, hled⟩
  | tmpMap hP hrun =>
      obtain ⟨S, hled⟩ := h.slot (t := 1023) (by norm_num) (by decide) hP hrun hcalls
      exact ⟨_, hled⟩
  | tmp2Map hP hrun =>
      obtain ⟨S, hled⟩ := h.slot (t := 1022) (by norm_num) (by decide) hP hrun hcalls
      exact ⟨_, hled⟩
  | @map va _ _ _ _ _ h₁ h₂ hfl halloc hrun =>
      have hbefore := pagingMap_before hrun
      obtain ⟨F, hF, halloc'⟩ := h.alloc_success fun hmem ↦
        hcalls (hbefore.mem (by rwa [halloc] at hmem))
      rw [halloc, Prod.mk.injEq] at halloc'
      obtain ⟨rfl, rfl⟩ := halloc'
      obtain ⟨hled, hloose⟩ := h.alloc hF
      have ht : (va >>> 12) &&& 0x3FF < 1024 := by
        rw [LittleEndian.and_index_mask]
        exact Nat.mod_lt _ (by norm_num)
      exact ⟨K, hled.pagingMap h₁ h₂ ht ⟨rfl, rfl⟩ hloose (Ledger.free_lt hF) hfl hrun hcalls⟩
  | unmap hva h₁ h₂ hrun =>
      obtain ⟨m₁, hrun', hled⟩ := h.pagingUnmap hva h₁ h₂
      obtain rfl := Option.some.inj (hrun.symm.trans hrun')
      exact ⟨K, hled⟩

theorem SpaceRun.ledger (hrun : SpaceRun B m₀ m L) (h : m₀.Ledger B {B} K) :
    ∃ K', m.Ledger B L K' := by
  induction hrun with
  | start => exact ⟨K, h⟩
  | step _ hstep hcalls ih =>
      obtain ⟨K', h'⟩ := ih
      exact hstep.ledger h' hcalls

/-- The walk from a directory that holds the same entry. -/
theorem translate_congr {va : ℕ} (hva : va < 2 ^ 32)
    (h : m.pde D (va >>> 22) = m.pde D' (va >>> 22)) :
    (m.pagingSwitchDirectory (D * PAGE_SIZE)).translate va =
      (m.pagingSwitchDirectory (D' * PAGE_SIZE)).translate va := by
  obtain ⟨d, t, o, hd, ht, ho, rfl⟩ := exists_pageAddr hva
  rw [(pageAddr_split hd ht ho).1] at h
  have hdir : ∀ D, (m.pagingSwitchDirectory (D * PAGE_SIZE)).dir = D := fun D ↦
    Nat.mul_div_cancel D (by decide)
  have hleaf : ∀ D, (m.pagingSwitchDirectory (D * PAGE_SIZE)).leaf D d t = m.leaf D d t :=
    fun _ ↦ rfl
  rw [translate_page hd ht ho, translate_page hd ht ho, frameAt, frameAt, hdir, hdir, hleaf, hleaf,
    leaf, leaf, pte, pte, h]

/-- Booted machines, whatever is done with directories and user pages. -/
theorem kernel_half_shared (hreset : m₀.Reset B T) {heap : Kheap}
    (hboot : (m₀.pagingInitialize (B * PAGE_SIZE) (T * PAGE_SIZE)).kheapInitialize KERNEL_HEAP_BASE
      KERNEL_HEAP_SIZE = some (heap, m)) (hcalls : Call.alloc 0 ∉ m.calls)
    (hrun : SpaceRun B m m' L) :
    (∀ D ∈ L, ∀ D' ∈ L, ∀ i, i = 0 ∨ 768 ≤ i ∧ i ≤ 1022 → m'.pde D i = m'.pde D' i) ∧
    (∀ D ∈ L, m'.pde D 1023 % 2 = 1 ∧ m'.pde D 1023 / 4096 = D) ∧
    ∀ D ∈ L, ∀ D' ∈ L, ∀ va, va < 2 ^ 32 → va >>> 22 = 0 ∨ 768 ≤ va >>> 22 ∧ va >>> 22 ≤ 1022 →
      (m'.pagingSwitchDirectory (D * PAGE_SIZE)).translate va =
        (m'.pagingSwitchDirectory (D' * PAGE_SIZE)).translate va := by
  obtain ⟨K, h⟩ := hrun.ledger (hreset.kheapInitialize hboot hcalls).ledger
  have hshared : ∀ D ∈ L, ∀ D' ∈ L, ∀ i, i = 0 ∨ 768 ≤ i ∧ i ≤ 1022 → m'.pde D i = m'.pde D' i := by
    intro D hD D' hD' i hi
    have hi' : KernelEntry i := by
      rw [KernelEntry]
      omega
    rw [h.shared D hD i hi', h.shared D' hD' i hi']
  exact ⟨hshared, h.self, fun D hD D' hD' va hva hi ↦
    translate_congr hva (hshared D hD D' hD' _ hi)⟩

/-- Frames 1 and 2 hold the arrays, and 300 frames are free. -/
theorem reset_sample : (Sample.machine 300).Reset 1 2 :=
  ⟨by decide, by decide +kernel, by decide +kernel, by decide +kernel, by decide, by decide,
    by decide, by decide, by decide⟩

/-- A second directory is made and loaded. -/
theorem kernel_half_sample : ∃ heap m a m', a ≠ 1 ∧
    ((Sample.machine 300).pagingInitialize (1 * PAGE_SIZE) (2 * PAGE_SIZE)).kheapInitialize
      KERNEL_HEAP_BASE KERNEL_HEAP_SIZE = some (heap, m) ∧
    SpaceRun 1 m m' {a, 1} ∧ ∀ va, va < 2 ^ 32 → va >>> 22 = 0 ∨ 768 ≤ va >>> 22 ∧ va >>> 22 ≤ 1022 →
      (m'.pagingSwitchDirectory (a * PAGE_SIZE)).translate va =
        (m'.pagingSwitchDirectory (1 * PAGE_SIZE)).translate va := by
  have hfree : (Sample.machine 300).free.card = 300 := by
    rw [← pmmFreeFrameCount_eq]
    decide +kernel
  obtain ⟨heap, m, X, hboot, hcalls, hX, hcard⟩ :=
    reset_sample.kheapInitialize_exists (by rw [hfree]; norm_num) (by decide)
  have hled := (reset_sample.kheapInitialize hboot hcalls).ledger
  have hroom : 2 ≤ m.free.card := by
    have := Finset.le_card_sdiff X (Sample.machine 300).free
    rw [hX]
    omega
  have h0 : m.frameTest 0 = true := (reset_sample.kheapInitialize hboot hcalls).reset.zero
  obtain ⟨a, ha, m₁, hnew, hcalls₁⟩ := hled.pagingNewDirectory_exists h0 hroom hcalls
  have hrun : SpaceRun 1 m (m₁.pagingSwitchDirectory (a * PAGE_SIZE)) {a, 1} :=
    (SpaceRun.start.step (.newDirectory hnew) hcalls₁).step (.switchDirectory (Or.inl rfl)) hcalls₁
  refine ⟨heap, m, a, _, Ledger.free_ne ha (hled.dir_used rfl).1, hboot, hrun, ?_⟩
  exact (kernel_half_shared reset_sample hboot hcalls hrun).2.2 a (Or.inl rfl) 1 (Or.inr rfl)

end Machine

end EclipseOS
