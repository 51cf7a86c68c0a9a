import EclipseOS.History
import EclipseOS.Ledger

/-!
# Directories in the ledger

`paging_new_directory` enters one directory, `paging_free_directory` takes one
out together with everything it owns, and `paging_map` and `paging_unmap`
change one entry.
-/

namespace EclipseOS

open LittleEndian

namespace Owner

/-- The directory an owner is part of. -/
def space : Owner → ℕ
  | dir D => D
  | table D _ => D
  | leaf D _ _ => D

end Owner

namespace Machine

variable {m m' m₁ : Machine} {B D d t i a F P S f w va flags addr : ℕ} {L K : Set ℕ} {o o' : Owner}

theorem holds_diff : m.Holds (L \ {D}) o f ↔ m.Holds L o f ∧ o.space ≠ D := by
  cases o <;> simp only [Holds, Owner.space, Set.mem_sdiff, Set.mem_singleton_iff] <;> tauto

/-- A directory without tables adds itself. -/
theorem holds_insert (hnone : ∀ d, 1 ≤ d → d < 768 → m.pde a d = 0) (o : Owner) (f : ℕ) :
    m.Holds (insert a L) o f ↔ m.Holds L o f ∨ o = .dir a ∧ f = a := by
  have hzero : ¬ (0 : ℕ) % 2 = 1 := by norm_num
  cases o with
  | dir D =>
      simp only [Holds, Set.mem_insert_iff, Owner.dir.injEq]
      constructor
      · rintro ⟨rfl | hD, rfl⟩
        · exact Or.inr ⟨rfl, rfl⟩
        · exact Or.inl ⟨hD, rfl⟩
      · rintro (⟨hD, rfl⟩ | ⟨rfl, rfl⟩)
        · exact ⟨Or.inr hD, rfl⟩
        · exact ⟨Or.inl rfl, rfl⟩
  | table D d =>
      simp only [Holds, Set.mem_insert_iff, reduceCtorEq, false_and, or_false]
      refine ⟨?_, fun ho ↦ ⟨Or.inr ho.1, ho.2⟩⟩
      rintro ⟨rfl | hD, h₁, h₂, hp, hf⟩
      · rw [hnone d h₁ h₂] at hp
        exact absurd hp hzero
      · exact ⟨hD, h₁, h₂, hp, hf⟩
  | leaf D d t =>
      simp only [Holds, Set.mem_insert_iff, reduceCtorEq, false_and, or_false]
      refine ⟨?_, fun ho ↦ ⟨Or.inr ho.1, ho.2⟩⟩
      rintro ⟨rfl | hD, h₁, h₂, ht, hf⟩
      · rw [leaf_eq_some, hnone d h₁ h₂] at hf
        exact absurd hf.1 hzero
      · exact ⟨hD, h₁, h₂, ht, hf⟩

/-- What a live directory gives back is what its owners hold. -/
theorem mem_spaceFrames (hD : D ∈ L) :
    f ∈ m.spaceFrames D ↔ ∃ o, o.space = D ∧ m.Holds L o f := by
  simp only [spaceFrames, Set.mem_insert_iff, Set.mem_iUnion, Set.mem_Ico]
  constructor
  · rintro (rfl | ⟨d, ⟨h₁, h₂⟩, hf⟩)
    · exact ⟨.dir f, rfl, hD, rfl⟩
    · rw [tableFrames] at hf
      split at hf
      · exact absurd hf (Set.notMem_empty f)
      · next hp =>
          rw [Set.mem_insert_iff] at hf
          obtain rfl | ⟨t, ht, hleaf⟩ := hf
          · exact ⟨.table D d, rfl, hD, h₁, h₂, by omega, rfl⟩
          · exact ⟨.leaf D d t, rfl, hD, h₁, h₂, ht, hleaf⟩
  · rintro ⟨o, rfl, hheld⟩
    cases o with
    | dir D => exact Or.inl hheld.2.symm
    | table D d =>
        obtain ⟨-, h₁, h₂, hp, rfl⟩ := hheld
        refine Or.inr ⟨d, ⟨h₁, h₂⟩, ?_⟩
        rw [tableFrames, Owner.space, if_neg (by omega)]
        exact Set.mem_insert _ _
    | leaf D d t =>
        obtain ⟨-, h₁, h₂, ht, hleaf⟩ := hheld
        refine Or.inr ⟨d, ⟨h₁, h₂⟩, ?_⟩
        have hp := (leaf_eq_some.mp hleaf).1
        rw [tableFrames, Owner.space, if_neg (by omega)]
        exact Set.mem_insert_of_mem _ ⟨t, ht, hleaf⟩

namespace Ledger

/-! ### New directories -/

theorem newDir (h : m.Ledger B L K) (hnew : NewDir m m' a S) (ha : m.frameTest a = false)
    (haS : a ≠ S)
    (hslot : (S ∈ K ∧ m.Scratch S) ∨ (S ∉ K ∧ (∀ o, ¬ m.Holds L o S) ∧ L = {B}))
    (hlast : m'.lastAlloc ≤ m'.totalFrames) (ha' : m'.frameTest a = true)
    (hS' : m'.frameTest S = true) (htest : ∀ f, m.frameTest f = true → m'.frameTest f = true) :
    m'.Ledger B (insert a L) (insert S K) ∧ ∀ o f, m'.Holds (insert a L) o f ↔
      m.Holds L o f ∨ o = .dir a ∧ f = a := by
  obtain ⟨haK, hano⟩ := h.free_loose ha
  have hSno : ∀ o, ¬ m.Holds L o S := by
    obtain ⟨hSK, -⟩ | ⟨-, hSno, -⟩ := hslot
    · exact fun o ho ↦ (h.used o S ho).2 hSK
    · exact hSno
  have haL : ∀ D ∈ L, D ≠ a := fun D hD heq ↦ hano (.dir D) ⟨hD, heq⟩
  have hSL : ∀ D ∈ L, D ≠ S := fun D hD heq ↦ hSno (.dir D) ⟨hD, heq⟩
  have hdir : m'.dir = m.dir := hnew.dir
  have hpde : ∀ D ∈ L, ∀ i, i ≠ 1022 → m'.pde D i = m.pde D i := by
    intro D hD i hi
    by_cases heq : D = m.dir
    · rw [heq, hnew.entry i hi]
    · rw [pde, hnew.mem D (haL D hD) (hSL D hD) heq, pde]
  have hslots : ∀ D ∈ L, m'.pde D 1022 = m'.pde m'.dir 1022 := by
    intro D hD
    rw [hdir]
    obtain ⟨-, hs⟩ | ⟨-, -, rfl⟩ := hslot
    · have hown := (hnew.own hs).1
      have hDmem : m'.pde D 1022 = m.pde D 1022 := by
        by_cases heq : D = m.dir
        · rw [heq, pde, hown, pde]
        · rw [pde, hnew.mem D (haL D hD) (hSL D hD) heq, pde]
      rw [hDmem, h.shared D hD 1022 (Or.inr (by norm_num)), pde, pde, hown, ← pde, ← pde,
        h.shared m.dir h.loaded 1022 (Or.inr (by norm_num))]
    · rw [Set.mem_singleton_iff.mp hD, Set.mem_singleton_iff.mp h.loaded]
  have hshared : ∀ D ∈ L, ∀ i, KernelEntry i → m'.pde D i = m'.pde B i := by
    intro D hD i hi
    by_cases h1022 : i = 1022
    · rw [h1022, hslots D hD, hslots B h.boot]
    · rw [hpde D hD i h1022, hpde B h.boot i h1022, h.shared D hD i hi]
  have hB : m'.pde B 1022 % 2 = 1 ∧ m'.pde B 1022 / 4096 = S := by
    rw [hslots B h.boot]
    exact ⟨hnew.scratch.present, hnew.scratch.table⟩
  have hentry : ∀ i, i < 1024 → m'.pde a i = m'.newEntry a i := hnew.image
  have htable : ∀ D ∈ L, ∀ d, 1 ≤ d → d < 768 → m.pde D d % 2 = 1 →
      m'.mem (m.pde D d / 4096) = m.mem (m.pde D d / 4096) := by
    intro D hD d h₁ h₂ hp
    have hT : m.Holds L (.table D d) (m.pde D d / 4096) := ⟨hD, h₁, h₂, hp, rfl⟩
    exact hnew.mem _ (fun heq ↦ hano _ (heq ▸ hT)) (fun heq ↦ hSno _ (heq ▸ hT))
      (h.table_ne hD h.loaded h₁ h₂ hp)
  have hnone : ∀ d, 1 ≤ d → d < 768 → m'.pde a d = 0 := by
    intro d h₁ h₂
    rw [hentry d (by omega), newEntry, if_neg (by omega), if_neg (by omega)]
  have hholds : ∀ o f, m'.Holds (insert a L) o f ↔ m.Holds L o f ∨ o = .dir a ∧ f = a := fun o f ↦ by
    rw [holds_insert hnone, holds_congr (fun D hD d _ h₂ ↦ hpde D hD d (by omega)) htable]
  refine ⟨⟨hlast, ?_, ?_, Or.inr h.boot, ?_, ?_, ?_, ?_, ?_, ?_, ?_, Or.inl hB.1⟩,
    hholds⟩
  · rw [hdir, hnew.cr3, h.cr3]
  · rw [hdir]
    exact Or.inr h.loaded
  · rintro D (rfl | hD)
    · have hlt : D < 2 ^ 20 := by
        have := word_lt (m'.mem S) 1023
        rw [hnew.slot] at this
        omega
      rw [hentry 1023 (by norm_num), newEntry, if_pos rfl]
      omega
    · rw [hpde D hD 1023 (by norm_num)]
      exact h.self D hD
  · intro o o' f ho ho'
    rcases (hholds o f).mp ho with ho | ⟨rfl, rfl⟩ <;>
      rcases (hholds o' _).mp ho' with ho' | ⟨rfl, heq⟩
    · exact h.unique o o' f ho ho'
    · exact absurd (heq ▸ ho) (hano o)
    · exact absurd ho' (hano o')
    · rfl
  · intro o f ho
    rcases (hholds o f).mp ho with ho | ⟨rfl, rfl⟩
    · refine ⟨htest f (h.used o f ho).1, ?_⟩
      rintro (rfl | hK)
      · exact hSno o ho
      · exact (h.used o f ho).2 hK
    · refine ⟨ha', ?_⟩
      rintro (heq | hK)
      · exact haS heq
      · exact haK hK
  · rintro f (rfl | hK)
    · exact hS'
    · exact htest f (h.kernel f hK)
  · rintro D (rfl | hD) i hi
    · have h₁ : i ≠ 1023 ∧ i < 1024 ∧ (i = 0 ∨ 768 ≤ i) := by
        obtain rfl | hi := hi <;> omega
      rw [hentry i h₁.2.1, newEntry, if_neg h₁.1, if_pos h₁.2.2, hdir, hshared m.dir h.loaded i hi]
    · exact hshared D hD i hi
  · intro i hi hp
    by_cases h1022 : i = 1022
    · rw [h1022, hB.2]
      exact Or.inl rfl
    · rw [hpde B h.boot i h1022] at hp ⊢
      exact Or.inr (h.tables i hi hp)
  · intro i hi h1022 hp _
    rw [hB.2]
    rw [hpde B h.boot i h1022] at hp ⊢
    obtain ⟨-, hs⟩ | ⟨hSK, -⟩ := hslot
    · have hBS : m.pde B 1022 = m.pde m.dir 1022 :=
        (h.shared m.dir h.loaded 1022 (Or.inr (by norm_num))).symm
      have := h.slots i hi h1022 hp (by rw [hBS]; exact hs.present)
      rwa [hBS, hs.table] at this
    · exact fun heq ↦ hSK (heq ▸ h.tables i hi hp)

/-- A call of the allocator that is not recorded as failed. -/
theorem alloc_success (h : m.Ledger B L K) (hcalls : Call.alloc 0 ∉ m.pmmAllocFrame.2.calls) :
    ∃ F ∈ m.free, m.pmmAllocFrame = (F * PAGE_SIZE, m.withAlloc F) := by
  obtain hfree | ⟨-, halloc⟩ := pmmAllocFrame_cases h.lastAlloc
  · exact hfree
  · rw [halloc] at hcalls
    exact absurd (List.mem_cons_self ..) hcalls

theorem free_lt (hF : F ∈ m.free) : F < 2 ^ 20 := ((mem_free m).mp hF).1.trans m.totalFrames_lt

theorem free_ne (hF : F ∈ m.free) (hf : m.frameTest f = true) : F ≠ f := fun heq ↦ by
  rw [mem_free, heq, hf] at hF
  exact nomatch hF.2

/-- The new directory, when the scratch slots have their table. -/
theorem enterScratch (h : m.Ledger B L K) (ha : a ∈ m.free)
    (halloc : m.pmmAllocFrame = (a * PAGE_SIZE, m.withAlloc a)) (hslot : m.pde B 1022 % 2 = 1)
    (hS : m.pde B 1022 / 4096 = S) :
    ∃ q m', m' = (((m.withAlloc a).log (.map TMP_VIRT (a * PAGE_SIZE) PAGE_WRITE)).setWord S 1023
        (a * 4096 + 3)).setFrame a q ∧ m.pagingNewDirectory = some (a * PAGE_SIZE, m') ∧
      NewDir m m' a S ∧ m'.Ledger B (insert a L) (insert S K) ∧ ∀ o f, m'.Holds (insert a L) o f ↔
        m.Holds L o f ∨ o = .dir a ∧ f = a := by
  obtain ⟨halt, hafree⟩ := (mem_free m).mp ha
  have hs := h.scratch_loaded hslot
  have hSK := h.tables 1022 (Or.inr (by norm_num)) hslot
  rw [hS] at hs hSK
  have haS : a ≠ S := free_ne ha (h.kernel S hSK)
  obtain ⟨q, hrun, hnew⟩ := pagingNewDirectory_scratch hs halloc
    (free_ne ha (h.dir_used h.loaded).1) haS (free_lt ha)
  exact ⟨q, _, rfl, hrun, hnew, h.newDir hnew hafree haS (Or.inl ⟨hSK, hs⟩) halt.le (by simp)
    (by simp [h.kernel S hSK]) fun f hf ↦ by simp [hf]⟩

/-- The new directory, when the frame `S` becomes the table of the slots. -/
theorem enterFresh (h : m.Ledger B {B} K) (ha : a ∈ m.free)
    (halloc : m.pmmAllocFrame = (a * PAGE_SIZE, m.withAlloc a)) (hslot : m.pde B 1022 % 2 = 0)
    (halloc' : ((m.withAlloc a).log (.map TMP_VIRT (a * PAGE_SIZE) PAGE_WRITE)).pmmAllocFrame =
      (S * PAGE_SIZE, m₁)) (hSK : S ∉ K) (hSno : ∀ o, ¬ m.Holds {B} o S) (haS : a ≠ S)
    (hSlt : S < 2 ^ 20) (hlast : m₁.lastAlloc ≤ m₁.totalFrames) (hS : m₁.frameTest S = true)
    (htest : ∀ f, (m.withAlloc a).frameTest f = true → m₁.frameTest f = true) :
    ∃ q m', m' = ((m₁.withTable 1022 S).setWord S 1023 (a * 4096 + 3)).setFrame a q ∧
      m.pagingNewDirectory = some (a * PAGE_SIZE, m') ∧ NewDir m m' a S ∧
      m'.Ledger B {a, B} (insert S K) ∧ ∀ o f, m'.Holds {a, B} o f ↔
        m.Holds {B} o f ∨ o = .dir a ∧ f = a := by
  obtain ⟨halt, hafree⟩ := (mem_free m).mp ha
  have hp : m.pde m.dir 1022 % 2 = 0 := by
    rw [Set.mem_singleton_iff.mp h.loaded, hslot]
  have hSdir : S ≠ m.dir := fun heq ↦ hSno (.dir m.dir) ⟨h.loaded, heq.symm⟩
  obtain ⟨q, hrun, hnew⟩ := pagingNewDirectory_absent h.recursive hp halloc halloc'
    (free_ne ha (h.dir_used h.loaded).1) haS hSdir (free_lt ha) hSlt
  exact ⟨q, _, rfl, hrun, hnew, h.newDir hnew hafree haS (Or.inr ⟨hSK, hSno, rfl⟩) hlast
    (htest a (by simp)) hS fun f hf ↦ htest f (by simp [hf])⟩

/-- The frame that `enterFresh` takes for the table. -/
theorem slotTable (h : m.Ledger B {B} K)
    (hS : S ∈ ((m.withAlloc a).log (.map TMP_VIRT (a * PAGE_SIZE) PAGE_WRITE)).free) :
    S ∈ m.free ∧ a ≠ S ∧ S ∉ K ∧ ∀ o, ¬ m.Holds {B} o S := by
  rw [log_free, withAlloc_free, Finset.mem_erase] at hS
  obtain ⟨hSK, hSno⟩ := h.free_loose ((mem_free m).mp hS.2).2
  exact ⟨hS.2, hS.1.symm, hSK, hSno⟩

/-- `paging_new_directory` enters one directory and, the first time, the table
of the scratch slots. -/
theorem pagingNewDirectory (h : m.Ledger B L K)
    (hrun : m.pagingNewDirectory = some (addr, m')) (hcalls : Call.alloc 0 ∉ m'.calls) :
    ∃ a ∈ m.free, ∃ S, addr = a * PAGE_SIZE ∧ NewDir m m' a S ∧
      m'.Ledger B (insert a L) (insert S K) ∧ ∀ o f, m'.Holds (insert a L) o f ↔
        m.Holds L o f ∨ o = .dir a ∧ f = a := by
  obtain ⟨haddr, m₂, htmp, hbefore⟩ := pagingNewDirectory_before hrun
  have hbefore₂ : m.pmmAllocFrame.2.Before m' := (pagingMap_before htmp).trans hbefore
  obtain ⟨a, ha, halloc⟩ := h.alloc_success fun hmem ↦ hcalls (hbefore₂.mem hmem)
  obtain rfl : addr = a * PAGE_SIZE := by rw [haddr, halloc]
  rw [halloc] at htmp
  by_cases hslot : m.pde B 1022 % 2 = 1
  · obtain ⟨q, m₁, -, hrun', hnew, hled, hholds⟩ := h.enterScratch ha halloc hslot rfl
    rw [hrun, Option.some.injEq, Prod.mk.injEq] at hrun'
    obtain ⟨-, rfl⟩ := hrun'
    exact ⟨a, ha, _, rfl, hnew, hled, hholds⟩
  · obtain rfl := h.scratch.resolve_left hslot
    have hdirB : m.dir = B := Set.mem_singleton_iff.mp h.loaded
    have hrec : (m.withAlloc a).Recursive := h.recursive.congr rfl rfl
    have hload := hrec.load_pd (d := 1022) (by norm_num)
    have hbefore₁ := pagingMap_table_before htmp
      (by rw [show TMP_VIRT >>> 22 = 1022 from by decide]; exact hload)
      (by rw [withAlloc_dir, withAlloc_pde, hdirB]; omega)
    have hled₁ := (h.alloc ha).1.log (.map TMP_VIRT (a * PAGE_SIZE) PAGE_WRITE)
    obtain ⟨S, hS, halloc'⟩ := hled₁.alloc_success fun hmem ↦
      hcalls ((hbefore₁.trans hbefore).mem hmem)
    obtain ⟨hSm, haS, hSK, hSno⟩ := h.slotTable hS
    obtain ⟨q, m₁, -, hrun', hnew, hled, hholds⟩ := h.enterFresh ha halloc (by omega) halloc' hSK
      hSno haS (free_lt hSm) ((mem_free _).mp hS).1.le (by simp) fun f hf ↦ by
        rw [withAlloc_frameTest, log_frameTest, hf, Bool.or_true]
    rw [hrun, Option.some.injEq, Prod.mk.injEq] at hrun'
    obtain ⟨-, rfl⟩ := hrun'
    exact ⟨a, ha, S, rfl, hnew, hled, hholds⟩

/-- Two free frames are enough for a directory. -/
theorem pagingNewDirectory_exists (h : m.Ledger B L K) (h0 : m.frameTest 0 = true)
    (hroom : 2 ≤ m.free.card) (hcalls : Call.alloc 0 ∉ m.calls) : ∃ a ∈ m.free, ∃ m',
      m.pagingNewDirectory = some (a * PAGE_SIZE, m') ∧ Call.alloc 0 ∉ m'.calls := by
  have hne0 : ∀ {F}, F ∈ m.free → F * PAGE_SIZE ≠ 0 := fun hF ↦
    Nat.mul_ne_zero (free_ne hF h0) (by decide)
  obtain ⟨a, ha, halloc⟩ | ⟨hnone, -⟩ := pmmAllocFrame_cases h.lastAlloc
  · have ha0 := hne0 ha
    by_cases hslot : m.pde B 1022 % 2 = 1
    · obtain ⟨q, m', rfl, hrun, -⟩ := h.enterScratch ha halloc hslot rfl
      refine ⟨a, ha, _, hrun, ?_⟩
      simp [hcalls, ha0.symm]
    · obtain rfl := h.scratch.resolve_left hslot
      set c := Call.map TMP_VIRT (a * PAGE_SIZE) PAGE_WRITE with hc
      have hled₁ := (h.alloc ha).1.log c
      obtain ⟨S, hS, halloc'⟩ | ⟨hnone, -⟩ := pmmAllocFrame_cases hled₁.lastAlloc
      · obtain ⟨hSm, haS, hSK, hSno⟩ := h.slotTable hS
        obtain ⟨q, m', rfl, hrun, -⟩ := h.enterFresh ha halloc (by omega) halloc' hSK hSno haS
          (free_lt hSm) ((mem_free _).mp hS).1.le (by simp) fun f hf ↦ by
            rw [withAlloc_frameTest, log_frameTest, hf, Bool.or_true]
        refine ⟨a, ha, _, hrun, ?_⟩
        simp [Machine.withTable, hcalls, ha0.symm, (hne0 hSm).symm, hc]
      · rw [log_free, withAlloc_free] at hnone
        have := Finset.card_erase_of_mem ha
        rw [hnone, Finset.card_empty] at this
        omega
  · rw [hnone, Finset.card_empty] at hroom
    omega

/-! ### Freed directories -/

/-- `paging_free_directory` takes out a directory that is not loaded. -/
theorem pagingFreeDirectory (h : m.Ledger B L K) (hD : D ∈ L) (hne : D ≠ m.dir) (hB : D ≠ B) :
    ∃ m' S, m.pagingFreeDirectory (D * PAGE_SIZE) = some m' ∧ S ∈ K ∧
      Frees S m m' (m.spaceFrames D) ∧ m'.Ledger B (L \ {D}) K ∧
      ∀ o f, m'.Holds (L \ {D}) o f ↔ m.Holds L o f ∧ o.space ≠ D := by
  have hslot : m.pde B 1022 % 2 = 1 := h.scratch.resolve_right fun hL ↦ hB (by rwa [hL] at hD)
  have hs := h.scratch_loaded hslot
  have hSK := h.tables 1022 (Or.inr (by norm_num)) hslot
  set S := m.pde B 1022 / 4096 with hS
  have hplain := h.kernel_plain hSK
  obtain ⟨m', hrun, hfrees, -, -⟩ := pagingFreeDirectory_spec hs (fun heq ↦ hplain.1 (heq ▸ hD))
    (h.lt hD) fun d h₁ h₂ hp ↦ hplain.2 D hD d h₁ h₂ hp
  have hmem : ∀ D ∈ L, m'.mem D = m.mem D := fun D hD ↦
    hfrees.mem D fun heq ↦ hplain.1 (heq ▸ hD)
  have hpde : ∀ D ∈ L, ∀ i, m'.pde D i = m.pde D i := fun D hD i ↦ by rw [pde, hmem D hD, pde]
  have hholds : ∀ o f, m'.Holds (L \ {D}) o f ↔ m.Holds L o f ∧ o.space ≠ D := by
    intro o f
    rw [← holds_diff]
    exact holds_congr (fun D' hD' d _ _ ↦ hpde D' hD'.1 d) fun D' hD' d h₁ h₂ hp ↦
      hfrees.mem _ (hplain.2 D' hD'.1 d h₁ h₂ hp)
  have hkept : ∀ f, m.frameTest f = true → (∀ o, o.space = D → ¬ m.Holds L o f) →
      m'.frameTest f = true := by
    intro f hf hno
    refine (hfrees.test f).mpr ⟨hf, fun hmem ↦ ?_⟩
    obtain ⟨o, ho, hheld⟩ := (mem_spaceFrames hD).mp hmem
    exact hno o ho hheld
  have hdir := hfrees.dir
  refine ⟨m', S, hrun, hSK, hfrees, ⟨?_, ?_, ?_, ⟨h.boot, hB.symm⟩, ?_, ?_, ?_, ?_, ?_, ?_,
    ?_, ?_⟩, hholds⟩
  · rw [hfrees.totalFrames]
    exact ((hfrees.lastAlloc _).mp le_rfl).1.trans h.lastAlloc
  · rw [hfrees.cr3, hdir, h.cr3]
  · rw [hdir]
    exact ⟨h.loaded, fun heq ↦ hne heq.symm⟩
  · intro D' hD'
    rw [hpde D' hD'.1]
    exact h.self D' hD'.1
  · intro o o' f ho ho'
    exact h.unique o o' f ((hholds o f).mp ho).1 ((hholds o' f).mp ho').1
  · intro o f ho
    obtain ⟨hheld, hspace⟩ := (hholds o f).mp ho
    refine ⟨hkept f (h.used o f hheld).1 fun o' ho' hheld' ↦ ?_, (h.used o f hheld).2⟩
    exact hspace (h.unique o o' f hheld hheld' ▸ ho')
  · exact fun f hf ↦ hkept f (h.kernel f hf) fun o _ hheld ↦ (h.used o f hheld).2 hf
  · intro D' hD' i hi
    rw [hpde D' hD'.1, hpde B h.boot, h.shared D' hD'.1 i hi]
  · intro i hi hp
    rw [hpde B h.boot] at hp ⊢
    exact h.tables i hi hp
  · intro i hi hi' hp hp'
    rw [hpde B h.boot] at hp hp' ⊢
    rw [hpde B h.boot]
    exact h.slots i hi hi' hp hp'
  · rw [hpde B h.boot]
    exact Or.inl hslot

/-! ### Entries of the loaded directory -/

theorem pagingUnmap (h : m.Ledger B L K) (hva : va < 2 ^ 32) (h₁ : 1 ≤ va >>> 22)
    (h₂ : va >>> 22 < 768) : ∃ m', m.pagingUnmap va = some m' ∧ m'.Ledger B L K := by
  obtain ⟨d, t, o, hd, ht, ho, rfl⟩ := exists_pageAddr hva
  obtain ⟨hdi, -, hti, -⟩ := pageAddr_split hd ht ho
  rw [hdi] at h₁ h₂
  have hlog := h.log (.unmap (pageAddr d t + o))
  by_cases hp : m.pde m.dir d % 2 = 0
  · exact ⟨_, pagingUnmap_absent h.recursive hd hdi hp, hlog⟩
  · refine ⟨_, pagingUnmap_present h.recursive hd ht ⟨hdi, hti⟩ (by omega), ?_⟩
    have := (hlog.setEntry h₁ h₂ ht (v := m.pde m.dir d) (w := 0)
      (by rw [log_dir, pde, log_mem]; rw [pde] at hp; omega) (by omega) rfl (by norm_num)
      (by norm_num)).1
    rwa [log_dir, pde, ← log_mem m (.unmap (pageAddr d t + o)), setWord_self] at this

theorem flags_or_one (P : ℕ) (hfl : flags < 4096) :
    (P * 4096 + (flags ||| 1)) % 2 = 1 ∧ (P * 4096 + (flags ||| 1)) / 4096 = P := by
  have hodd : (flags ||| 1) % 2 = 1 := by
    have := Nat.or_mod_two_pow (a := flags) (b := 1) (n := 1)
    rw [pow_one] at this
    rw [this]
    obtain h | h : flags % 2 = 0 ∨ flags % 2 = 1 := by omega
    all_goals rw [h]; rfl
  have hlt : flags ||| 1 < 4096 := or_lt_page hfl (by norm_num)
  omega

/-- A loose frame becomes page `(d, t)` of the loaded directory. -/
theorem withPage (h : m.Ledger B L K) (h₁ : 1 ≤ d) (h₂ : d < 768) (ht : t < 1024)
    (hp : m.pde m.dir d % 2 = 1) (hP : m.Loose L K P) (hlt : P < 2 ^ 20) (hfl : flags < 4096) :
    (m.withPage d t P flags).Ledger B L K ∧ ∀ o f, (m.withPage d t P flags).Holds L o f ↔
      (o ≠ .leaf m.dir d t ∧ m.Holds L o f) ∨ (o = .leaf m.dir d t ∧ f = P) := by
  obtain ⟨hodd, hdiv⟩ := flags_or_one P hfl
  have hpde := m.pde_lt m.dir d
  set v := m.pde m.dir d ||| (flags &&& PAGE_USER) with hv
  obtain ⟨hvodd, hvdiv⟩ : v % 2 = 1 ∧ v / 4096 = m.pde m.dir d / 4096 := by
    obtain hu | hu := and_user_cases flags <;> rw [hv, hu]
    · exact ⟨by simpa using hp, by simp⟩
    · exact ⟨by rw [or_even_mod (by norm_num), hp], or_low_div (by norm_num)⟩
  obtain ⟨hled, hholds⟩ := h.setEntry h₁ h₂ ht hp hvodd hvdiv
    (w := P * 4096 + (flags ||| 1)) (by omega) fun _ ↦ by rwa [hdiv]
  refine ⟨hled, fun o f ↦ (hholds o f).trans ?_⟩
  rw [hodd, hdiv]
  simp

/-- What `paging_map` does while allocations succeed. -/
theorem pagingMap_cases (h : m.Ledger B L K) (h₂ : d < 768) (ht : t < 1024)
    (hva : va >>> 22 = d ∧ (va >>> 12) &&& 0x3FF = t) (hP : P < 2 ^ 20) (hfl : flags < 4096)
    (hrun : m.pagingMap va (P * PAGE_SIZE) flags = some m') (hcalls : Call.alloc 0 ∉ m'.calls) :
    (m.pde m.dir d % 2 = 1 ∧
      m' = (m.log (.map va (P * PAGE_SIZE) flags)).withPage d t P flags) ∨
    (m.pde m.dir d % 2 = 0 ∧ ∃ F ∈ m.free,
      m' = (((m.log (.map va (P * PAGE_SIZE) flags)).withAlloc F).withTable d F).withPage d t P
        flags) := by
  set c := Call.map va (P * PAGE_SIZE) flags with hc
  by_cases hp : m.pde m.dir d % 2 = 0
  · right
    have hload := h.recursive.load_pd (d := d) (by omega)
    have hbefore := pagingMap_table_before hrun (by rw [hva.1]; exact hload) hp
    obtain ⟨F, hF, halloc⟩ := (h.log c).alloc_success fun hmem ↦ hcalls (hbefore.mem hmem)
    have hFm : F ∈ m.free := hF
    refine ⟨hp, F, hFm, ?_⟩
    have := pagingMap_absent h.recursive (by omega) ht hva hp halloc (free_lt hFm)
      (free_ne hFm (h.dir_used h.loaded).1) hP hfl
    exact Option.some.inj (hrun.symm.trans this)
  · left
    have hodd : m.pde m.dir d % 2 = 1 := by omega
    have := pagingMap_present h.recursive (by omega) ht hva hodd hP hfl
    exact ⟨hodd, Option.some.inj (hrun.symm.trans this)⟩

theorem Loose.congr (h : m.Loose L K P) (htest : m'.frameTest P = true)
    (hholds : ∀ o, m'.Holds L o P → m.Holds L o P) : m'.Loose L K P :=
  ⟨htest, h.2.1, fun o ho ↦ h.2.2 o (hholds o ho)⟩

/-- A table for entry `d`, taken from the allocator. -/
theorem provideTable (h : m.Ledger B L K) (h₁ : 1 ≤ d) (h₂ : d < 768) (hp : m.pde m.dir d % 2 = 0)
    (hF : F ∈ m.free) : ((m.withAlloc F).withTable d F).Ledger B L K ∧
      ∀ o f, ((m.withAlloc F).withTable d F).Holds L o f ↔
        m.Holds L o f ∨ o = .table m.dir d ∧ f = F := by
  obtain ⟨hled, hloose⟩ := h.alloc hF
  exact hled.withTable h₁ h₂ hp hloose (free_lt hF)

/-- The pages of entries 1 to 767: a loose frame is mapped. -/
theorem pagingMap (h : m.Ledger B L K) (h₁ : 1 ≤ d) (h₂ : d < 768) (ht : t < 1024)
    (hva : va >>> 22 = d ∧ (va >>> 12) &&& 0x3FF = t) (hP : m.Loose L K P) (hlt : P < 2 ^ 20)
    (hfl : flags < 4096) (hrun : m.pagingMap va (P * PAGE_SIZE) flags = some m')
    (hcalls : Call.alloc 0 ∉ m'.calls) : m'.Ledger B L K := by
  set c := Call.map va (P * PAGE_SIZE) flags with hc
  obtain ⟨hp, rfl⟩ | ⟨hp, F, hF, rfl⟩ := h.pagingMap_cases h₂ ht hva hlt hfl hrun hcalls
  · exact ((h.log c).withPage h₁ h₂ ht hp hP hlt hfl).1
  · obtain ⟨hled, hholds⟩ := (h.log c).provideTable h₁ h₂ hp hF
    have hne : P ≠ F := (free_ne hF hP.1).symm
    have hP' : (((m.log c).withAlloc F).withTable d F).Loose L K P := by
      refine Loose.congr hP ?_ fun o ho ↦ ?_
      · rw [Machine.withTable, setFrame_frameTest, setWord_frameTest, withAlloc_frameTest,
          log_frameTest, hP.1, Bool.or_true]
      · exact ((hholds o P).mp ho).resolve_right fun heq ↦ hne heq.2
    have hpde : (((m.log c).withAlloc F).withTable d F).pde m.dir d = F * 4096 + 3 :=
      withTable_pde _ (free_ne hF (h.dir_used h.loaded).1) (free_lt hF)
    have hp' : (((m.log c).withAlloc F).withTable d F).pde m.dir d % 2 = 1 := by
      rw [hpde]
      omega
    exact (hled.withPage h₁ h₂ ht hp' hP' hlt hfl).1

/-! ### The scratch slots -/

/-- The first use of a slot gives the boot directory its table 1022. -/
theorem scratchTable (h : m.Ledger B {B} K) (hS : m.Loose {B} K S)
    (hlt : S < 2 ^ 20) : (m.withTable 1022 S).Ledger B {B} (insert S K) := by
  have hdir : m.dir = B := Set.mem_singleton_iff.mp h.loaded
  have hSB : S ≠ B := fun heq ↦ hS.plain.1 (Set.mem_singleton_iff.mpr heq)
  have hpde : ∀ i, (m.withTable 1022 S).pde B i = if i = 1022 then S * 4096 + 3 else m.pde B i := by
    intro i
    rw [Machine.withTable, setFrame_pde hSB, pde, word_setWord, hdir,
      Nat.mod_eq_of_lt (by omega : S * 4096 + 3 < 2 ^ 32), pde]
    simp
  have hkeep : ∀ D ∈ ({B} : Set ℕ), ∀ i, i ≠ 1022 → (m.withTable 1022 S).pde D i = m.pde D i := by
    intro D hD i hi
    rw [Set.mem_singleton_iff.mp hD, hpde, if_neg hi]
  have hholds : ∀ o f, (m.withTable 1022 S).Holds {B} o f ↔ m.Holds {B} o f := fun o f ↦
    holds_congr (fun D hD d _ h₂ ↦ hkeep D hD d (by omega)) fun D hD d h₁ h₂ hp' ↦ by
      have hT := h.table_ne hD h.loaded h₁ h₂ hp'
      rw [Machine.withTable, setFrame_mem_of_ne _ (hS.plain.2 D hD d h₁ h₂ hp'),
        setWord_mem_of_ne _ _ hT]
  have hslot := hpde 1022
  rw [if_pos rfl] at hslot
  refine ⟨h.lastAlloc, h.cr3, h.loaded, rfl, fun D hD ↦ ?_, fun o o' f ho ho' ↦ ?_,
    fun o f ho ↦ ?_, ?_, fun D hD i _ ↦ by rw [Set.mem_singleton_iff.mp hD], fun i hi hp' ↦ ?_,
    fun i hi hne hp' _ ↦ ?_, Or.inr rfl⟩
  · rw [hkeep D hD 1023 (by norm_num)]
    exact h.self D hD
  · exact h.unique o o' f ((hholds o f).mp ho) ((hholds o' f).mp ho')
  · have hheld := (hholds o f).mp ho
    refine ⟨(h.used o f hheld).1, ?_⟩
    rintro (rfl | hK)
    · exact hS.2.2 o hheld
    · exact (h.used o f hheld).2 hK
  · rintro f (rfl | hK)
    · exact hS.1
    · exact h.kernel f hK
  · by_cases h1022 : i = 1022
    · rw [h1022, hslot]
      exact Or.inl (by omega)
    · rw [hkeep B rfl i h1022] at hp' ⊢
      exact Or.inr (h.tables i hi hp')
  · rw [hkeep B rfl i hne] at hp' ⊢
    rw [hslot, show (S * 4096 + 3) / 4096 = S by omega]
    exact fun heq ↦ hS.2.1 (heq ▸ h.tables i hi hp')

/-- A slot is pointed anywhere. -/
theorem slot (h : m.Ledger B L K) (ht : t < 1024) (hva : va >>> 22 = 1022 ∧ (va >>> 12) &&& 0x3FF = t)
    (hP : P < 2 ^ 20) (hrun : m.pagingMap va (P * PAGE_SIZE) PAGE_WRITE = some m')
    (hcalls : Call.alloc 0 ∉ m'.calls) : ∃ S, m'.Ledger B L (insert S K) := by
  set c := Call.map va (P * PAGE_SIZE) PAGE_WRITE with hc
  by_cases hslot : m.pde B 1022 % 2 = 1
  · have hs := h.scratch_loaded hslot
    have hSK := h.tables 1022 (Or.inr (by norm_num)) hslot
    have := pagingMap_present hs.window (by norm_num) ht hva hs.present hP
      (show PAGE_WRITE < 4096 by decide)
    rw [hrun, Option.some.injEq, withPage_kernel _ _ _ _ (by decide)] at this
    refine ⟨m.pde B 1022 / 4096, ?_⟩
    rw [Set.insert_eq_of_mem hSK, this, log_dir]
    have hlog := h.log c
    refine hlog.setFrame (hlog.kernel_plain ?_) _
    have htable : (m.log c).pde m.dir 1022 / 4096 = m.pde B 1022 / 4096 := hs.table
    rwa [htable]
  · obtain rfl := h.scratch.resolve_left hslot
    have hdir : m.dir = B := Set.mem_singleton_iff.mp h.loaded
    have hp : m.pde m.dir 1022 % 2 = 0 := by
      rw [hdir]
      omega
    have hload := h.recursive.load_pd (d := 1022) (by norm_num)
    have hbefore := pagingMap_table_before hrun (by rw [hva.1]; exact hload) hp
    obtain ⟨S, hS, halloc⟩ := (h.log c).alloc_success fun hmem ↦ hcalls (hbefore.mem hmem)
    have hSm : S ∈ m.free := hS
    have := pagingMap_absent h.recursive (by norm_num) ht hva hp halloc (free_lt hSm)
      (free_ne hSm (h.dir_used h.loaded).1) hP (show PAGE_WRITE < 4096 by decide)
    rw [hrun, Option.some.injEq, withPage_kernel _ _ _ _ (by decide)] at this
    obtain ⟨hled, hloose⟩ := (h.log c).alloc hS
    have hled' := hled.scratchTable hloose (free_lt hSm)
    have hpde : (((m.log c).withAlloc S).withTable 1022 S).pde m.dir 1022 = S * 4096 + 3 :=
      withTable_pde _ (free_ne hSm (h.dir_used h.loaded).1) (free_lt hSm)
    have hframe : (((m.log c).withAlloc S).withTable 1022 S).pde m.dir 1022 / 4096 = S := by
      rw [hpde]
      omega
    refine ⟨S, ?_⟩
    rw [this]
    refine hled'.setFrame (hled'.kernel_plain ?_) _
    exact Or.inl hframe

end Ledger

end Machine

end EclipseOS
