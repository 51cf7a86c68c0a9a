import Mathlib.Data.Set.Lattice
import EclipseOS.Tables

/-!
# The scratch slots

Table 1022 holds the two slots through which a directory or a table that is not
loaded is read and written.  `paging_free_directory` clears the bits of all
frames its directory owns and changes no memory but the two slots.
-/

namespace EclipseOS

open LittleEndian

namespace Machine

variable {m m' m'' m₁ m₂ : Machine} {d t i j a F P D S f w : ℕ} {X Y : Set ℕ}

/-- Frame `S` holds the table of the scratch slots. -/
structure Scratch (m : Machine) (S : ℕ) : Prop where
  window : m.Recursive
  present : m.pde m.dir 1022 % 2 = 1
  table : m.pde m.dir 1022 / 4096 = S
  ne : S ≠ m.dir

namespace Scratch

theorem lt (h : m.Scratch S) : S < 2 ^ 20 := by
  have h₁ := h.table
  have h₂ := m.pde_lt m.dir 1022
  omega

theorem congr (h : m.Scratch S) (hcr3 : m'.cr3 = m.cr3)
    (hself : word (m'.mem m.dir) 1023 = word (m.mem m.dir) 1023)
    (hslot : word (m'.mem m.dir) 1022 = word (m.mem m.dir) 1022) : m'.Scratch S := by
  have hdir : m'.dir = m.dir := by rw [dir, hcr3, dir]
  have hpde : m'.pde m'.dir 1022 = m.pde m.dir 1022 := by rw [pde, hdir, hslot, pde]
  exact ⟨h.window.congr hcr3 hself, by rw [hpde, h.present], by rw [hpde, h.table], hdir ▸ h.ne⟩

theorem log (h : m.Scratch S) (c : Call) : (m.log c).Scratch S := h.congr rfl rfl rfl

theorem setFrame (h : m.Scratch S) (hf : f ≠ m.dir) (p : Page) : (m.setFrame f p).Scratch S :=
  h.congr rfl (by rw [setFrame_mem_of_ne _ hf.symm]) (by rw [setFrame_mem_of_ne _ hf.symm])

theorem setWord (h : m.Scratch S) (hf : f ≠ m.dir) (i w : ℕ) : (m.setWord f i w).Scratch S :=
  h.setFrame hf _

theorem frameAt_slot (h : m.Scratch S) (hslot : word (m.mem S) t = F * 4096 + 3) :
    m.frameAt 1022 t = some F := by
  rw [frameAt_eq_some, pte, h.table, hslot]
  refine ⟨h.present, ?_, ?_⟩ <;> omega

/-- The slot points at `P`. -/
theorem pagingTmpMap (h : m.Scratch S) (hP : P < 2 ^ 20) : m.pagingTmpMap (P * PAGE_SIZE) =
    some ((m.log (.map TMP_VIRT (P * PAGE_SIZE) PAGE_WRITE)).setWord S 1023 (P * 4096 + 3)) := by
  have hmap := pagingMap_present h.window (d := 1022) (t := 1023) (by norm_num)
    (by norm_num) (pageAddr_index (by norm_num)) h.present hP (show PAGE_WRITE < 4096 by decide)
  rw [Machine.pagingTmpMap, tmp_virt_eq, hmap, withPage_kernel _ _ _ _ (by decide)]
  have htable : (m.log (.map (pageAddr 1022 1023) (P * PAGE_SIZE) PAGE_WRITE)).pde m.dir 1022 / 4096
    = S := h.table
  rw [log_dir, htable]
  rfl

theorem pagingTmp2Map (h : m.Scratch S) (hP : P < 2 ^ 20) : m.pagingTmp2Map (P * PAGE_SIZE) =
    some ((m.log (.map TMP2_VIRT (P * PAGE_SIZE) PAGE_WRITE)).setWord S 1022 (P * 4096 + 3)) := by
  have hmap := pagingMap_present h.window (d := 1022) (t := 1022) (by norm_num)
    (by norm_num) (pageAddr_index (by norm_num)) h.present hP (show PAGE_WRITE < 4096 by decide)
  rw [Machine.pagingTmp2Map, tmp2_virt_eq, hmap, withPage_kernel _ _ _ _ (by decide)]
  have htable : (m.log (.map (pageAddr 1022 1022) (P * PAGE_SIZE) PAGE_WRITE)).pde m.dir 1022 / 4096
    = S := h.table
  rw [log_dir, htable]
  rfl

end Scratch

/-! ## Loops that only free -/

/-- The frames of `X` are given back, and of the memory only the slots of the
scratch table `S` may change. -/
structure Frees (S : ℕ) (m m' : Machine) (X : Set ℕ) : Prop where
  mem : ∀ f, f ≠ S → m'.mem f = m.mem f
  scratch : ∀ o, o / 4 ≠ 1022 → o / 4 ≠ 1023 → m'.mem S o = m.mem S o
  cr3 : m'.cr3 = m.cr3
  totalFrames : m'.totalFrames = m.totalFrames
  lastAlloc : ∀ x, x ≤ m'.lastAlloc ↔ x ≤ m.lastAlloc ∧ ∀ f ∈ X, x ≤ f
  test : ∀ j, m'.frameTest j = true ↔ m.frameTest j = true ∧ j ∉ X
  calls : ∃ cs, m'.calls = cs ++ m.calls ∧ .alloc 0 ∉ cs

namespace Frees

theorem refl (S : ℕ) (m : Machine) : Frees S m m ∅ :=
  ⟨fun _ _ ↦ rfl, fun _ _ _ ↦ rfl, rfl, rfl, by simp, by simp, [], rfl, by simp⟩

theorem trans (h : Frees S m m' X) (h' : Frees S m' m'' Y) : Frees S m m'' (X ∪ Y) where
  mem f hf := (h'.mem f hf).trans (h.mem f hf)
  scratch o h₁ h₂ := (h'.scratch o h₁ h₂).trans (h.scratch o h₁ h₂)
  cr3 := h'.cr3.trans h.cr3
  totalFrames := h'.totalFrames.trans h.totalFrames
  lastAlloc x := by
    simp only [h'.lastAlloc, h.lastAlloc, and_assoc, Set.mem_union, or_imp, forall_and]
  test j := by
    rw [h'.test, h.test, Set.mem_union]
    tauto
  calls := by
    obtain ⟨cs, hcs, hnot⟩ := h.calls
    obtain ⟨cs', hcs', hnot'⟩ := h'.calls
    exact ⟨cs' ++ cs, by rw [hcs', hcs, List.append_assoc], by simp [hnot, hnot']⟩

theorem free (S : ℕ) (m : Machine) (F : ℕ) :
    Frees S m (m.pmmFreeFrame (F * PAGE_SIZE)) {F} where
  mem f _ := by simp
  scratch o _ _ := by simp
  cr3 := by simp
  totalFrames := by simp
  lastAlloc x := by
    rw [pmmFreeFrame_lastAlloc, Nat.mul_div_cancel _ (by decide), le_min_iff]
    simp
  test j := by
    rw [pmmFreeFrame_frameTest, Nat.mul_div_cancel _ (by decide)]
    simp [and_comm]
  calls := ⟨[.free (F * PAGE_SIZE)], by simp, by simp⟩

theorem log (S : ℕ) (m : Machine) {c : Call} (hc : c ≠ .alloc 0) : Frees S m (m.log c) ∅ where
  mem _ _ := rfl
  scratch _ _ _ := rfl
  cr3 := rfl
  totalFrames := rfl
  lastAlloc := by simp
  test := by simp
  calls := ⟨[c], rfl, by simpa using hc.symm⟩

/-- A store into one of the slots. -/
theorem slot (m : Machine) (hi : i = 1022 ∨ i = 1023) (S w : ℕ) :
    Frees S m (m.setWord S i w) ∅ where
  mem f hf := setWord_mem_of_ne i w hf
  scratch o h₁ h₂ := by
    rw [setWord_mem_self, putWord_apply_of_ne]
    rintro rfl
    exact hi.elim h₁ h₂
  cr3 := rfl
  totalFrames := rfl
  lastAlloc := by simp
  test := by simp
  calls := ⟨[], rfl, by simp⟩

theorem dir (h : Frees S m m' X) : m'.dir = m.dir := by rw [Machine.dir, h.cr3, Machine.dir]

theorem scratch_table (h : Frees S m m' X) (hs : m.Scratch S) : m'.Scratch S :=
  hs.congr h.cr3 (by rw [h.mem _ hs.ne.symm]) (by rw [h.mem _ hs.ne.symm])

theorem slot_word (h : Frees S m m' X) (hi : i < 1022) : word (m'.mem S) i = word (m.mem S) i :=
  word_congr fun o ho ↦ h.scratch o (by omega) (by omega)

end Frees

/-- Frames of the pages of table `d`. -/
def leaves (m : Machine) (D d : ℕ) : Set ℕ := {f | ∃ t < 1024, m.leaf D d t = some f}

/-- What `paging_free_directory` gives back for entry `d`: the pages and the table. -/
def tableFrames (m : Machine) (D d : ℕ) : Set ℕ :=
  if m.pde D d % 2 = 0 then ∅ else insert (m.pde D d / 4096) (m.leaves D d)

/-- What a directory owns: itself, its tables and their pages. -/
def spaceFrames (m : Machine) (D : ℕ) : Set ℕ :=
  insert D (⋃ d ∈ Set.Ico 1 768, m.tableFrames D d)

/-- The frames of the present entries with index in `l` of the table in `T`. -/
def presentFrames (m : Machine) (T : ℕ) (l : List ℕ) : Set ℕ :=
  {f | ∃ t ∈ l, word (m.mem T) t % 2 = 1 ∧ word (m.mem T) t / 4096 = f}

theorem freeEntry_foldl (h : m.Scratch S) (hat : m.frameAt 1022 1022 = some F)
    {l : List ℕ} (hl : ∀ t ∈ l, t < 1024) :
    ∃ m', l.foldlM freeEntry m = some m' ∧ Frees S m m' (m.presentFrames F l) ∧ m'.mem = m.mem := by
  induction l generalizing m with
  | nil => exact ⟨m, rfl, by simpa [presentFrames] using Frees.refl S m, rfl⟩
  | cons t l ih =>
      have hload := load32_page (m := m) (d := 1022) (t := 1022) (i := t) (by norm_num)
        (by norm_num) (hl t (by simp)) hat
      set w := word (m.mem F) t with hw
      have hmask : w &&& PAGE_MASK = w / 4096 * PAGE_SIZE := and_page_mask (word_lt _ _)
      by_cases hp : w % 2 = 0
      · have hstep : freeEntry m t = some m := by
          simp [freeEntry, tmp2_virt_eq, hload, PAGE_PRESENT, hp]
        obtain ⟨m', hrun, hfrees, hmem⟩ := ih h hat fun t ht ↦ hl t (by simp [ht])
        refine ⟨m', by simp [List.foldlM_cons, hstep, hrun], ?_, hmem⟩
        have hset : m.presentFrames F (t :: l) = m.presentFrames F l := by
          ext f
          simp [presentFrames, ← hw, hp]
        rwa [hset]
      · have hstep : freeEntry m t = some (m.pmmFreeFrame (w / 4096 * PAGE_SIZE)) := by
          have hodd : w % 2 = 1 := by omega
          simp [freeEntry, tmp2_virt_eq, hload, PAGE_PRESENT, hodd, hmask]
        have hfree := Frees.free S m (w / 4096)
        obtain ⟨m', hrun, hfrees, hmem⟩ := ih (m := m.pmmFreeFrame (w / 4096 * PAGE_SIZE))
          (hfree.scratch_table h) (by rw [← hat]; exact frameAt_congr (by simp) (by simp) (by simp))
          fun t ht ↦ hl t (by simp [ht])
        refine ⟨m', by simp [List.foldlM_cons, hstep, hrun], ?_, by rw [hmem, pmmFreeFrame_mem]⟩
        have hset : m.presentFrames F (t :: l) =
            {w / 4096} ∪ (m.pmmFreeFrame (w / 4096 * PAGE_SIZE)).presentFrames F l := by
          ext f
          have hodd : w % 2 = 1 := by omega
          simp [presentFrames, ← hw, hodd, eq_comm]
        rw [hset]
        exact hfree.trans hfrees

theorem leaves_eq (hp : m.pde D d % 2 = 1) :
    m.leaves D d = m.presentFrames (m.pde D d / 4096) (List.range 1024) := by
  ext f
  simp [leaves, presentFrames, leaf_eq_some, hp, pte]

theorem tableFrames_congr (hD : m'.mem D = m.mem D)
    (hT : m.pde D d % 2 = 1 → m'.mem (m.pde D d / 4096) = m.mem (m.pde D d / 4096)) :
    m'.tableFrames D d = m.tableFrames D d := by
  have hpde : m'.pde D d = m.pde D d := by rw [pde, hD, pde]
  by_cases hp : m.pde D d % 2 = 0
  · rw [tableFrames, hpde, if_pos hp, tableFrames, if_pos hp]
  · have hodd : m.pde D d % 2 = 1 := by omega
    rw [tableFrames, hpde, if_neg hp, tableFrames, if_neg hp, leaves_eq (hpde ▸ hodd),
      leaves_eq hodd, presentFrames, presentFrames, hpde, hT hodd]

theorem freeTable_step (h : m.Scratch S) (hslot : word (m.mem S) 1023 = D * 4096 + 3)
    (hd : d < 1024) (hT : m.pde D d % 2 = 1 → m.pde D d / 4096 ≠ S) :
    ∃ m', freeTable m d = some m' ∧ Frees S m m' (m.tableFrames D d) ∧
      word (m'.mem S) 1023 = D * 4096 + 3 := by
  have hload := load32_page (m := m) (d := 1022) (t := 1023) (by norm_num) (by norm_num) hd
    (h.frameAt_slot hslot)
  have hpde : word (m.mem D) d = m.pde D d := rfl
  rw [hpde] at hload
  by_cases hp : m.pde D d % 2 = 0
  · refine ⟨m, ?_, ?_, hslot⟩
    · simp [freeTable, tmp_virt_eq, hload, PAGE_PRESENT, hp]
    · rw [tableFrames, if_pos hp]
      exact Frees.refl S m
  · have hodd : m.pde D d % 2 = 1 := by omega
    have hne := hT hodd
    set T := m.pde D d / 4096 with hTdef
    have hmask : m.pde D d &&& PAGE_MASK = T * PAGE_SIZE := and_page_mask (m.pde_lt D d)
    have hlt : T < 2 ^ 20 := by
      have := m.pde_lt D d
      omega
    set c := Call.map TMP2_VIRT (T * PAGE_SIZE) PAGE_WRITE with hc
    set m₁ := (m.log c).setWord S 1022 (T * 4096 + 3) with hm₁
    have hfree₁ : Frees S m m₁ ∅ := by
      simpa using (Frees.log S m (c := c) fun h ↦ Call.noConfusion h).trans
        (Frees.slot (m.log c) (Or.inl rfl) S (T * 4096 + 3))
    have h₁ : m₁.Scratch S := hfree₁.scratch_table h
    have hslot₂ : word (m₁.mem S) 1022 = T * 4096 + 3 := by
      rw [hm₁, word_setWord, if_pos ⟨rfl, rfl⟩]
      omega
    have hslot₁ : word (m₁.mem S) 1023 = D * 4096 + 3 := by
      rw [hm₁, word_setWord, if_neg (by norm_num)]
      exact hslot
    obtain ⟨m₂, hrun, hfree₂, hmem⟩ := freeEntry_foldl h₁ (h₁.frameAt_slot hslot₂)
      (l := List.range 1024) fun t ht ↦ List.mem_range.mp ht
    refine ⟨m₂.pmmFreeFrame (T * PAGE_SIZE), ?_, ?_, ?_⟩
    · simp only [freeTable, tmp_virt_eq, hload, Option.bind_eq_bind, Option.bind_some,
        PAGE_PRESENT, and_one_eq, hodd, one_ne_zero, if_false, hmask, h.pagingTmp2Map hlt,
        Option.pure_def]
      rw [← hc, ← hm₁, hrun, Option.bind_some]
    · have hset : m.tableFrames D d = ∅ ∪ m₁.presentFrames T (List.range 1024) ∪ {T} := by
        rw [tableFrames, if_neg hp, leaves_eq hodd, ← hTdef, presentFrames, presentFrames,
          hfree₁.mem T hne, Set.empty_union, Set.union_singleton]
      rw [hset]
      exact (hfree₁.trans hfree₂).trans (Frees.free S m₂ T)
    · rw [pmmFreeFrame_mem, hmem, hslot₁]

theorem freeTable_foldl (h : m.Scratch S) (hslot : word (m.mem S) 1023 = D * 4096 + 3)
    (hD : D ≠ S) {l : List ℕ}
    (hl : ∀ d ∈ l, d < 1024 ∧ (m.pde D d % 2 = 1 → m.pde D d / 4096 ≠ S)) :
    ∃ m', l.foldlM freeTable m = some m' ∧ Frees S m m' (⋃ d ∈ l, m.tableFrames D d) := by
  induction l generalizing m with
  | nil => exact ⟨m, rfl, by simpa using Frees.refl S m⟩
  | cons d l ih =>
      obtain ⟨hd, hT⟩ := hl d (by simp)
      obtain ⟨m₁, hstep, hfree, hslot₁⟩ := freeTable_step h hslot hd hT
      have hpde : ∀ d, m₁.pde D d = m.pde D d := fun d ↦ by rw [pde, hfree.mem D hD, pde]
      obtain ⟨m₂, hrun, hfree₂⟩ := ih (hfree.scratch_table h) hslot₁ fun d hd ↦ by
        rw [hpde]
        exact hl d (by simp [hd])
      refine ⟨m₂, by simp [List.foldlM_cons, hstep, hrun], ?_⟩
      have hset : (⋃ d' ∈ d :: l, m.tableFrames D d') =
          m.tableFrames D d ∪ ⋃ d' ∈ l, m₁.tableFrames D d' := by
        rw [show (⋃ d' ∈ d :: l, m.tableFrames D d') =
          m.tableFrames D d ∪ ⋃ d' ∈ l, m.tableFrames D d' by simp [Set.iUnion_or, Set.iUnion_union_distrib]]
        congr 1
        refine Set.iUnion₂_congr fun d' hd' ↦ (tableFrames_congr (hfree.mem D hD) fun hp ↦ ?_).symm
        exact hfree.mem _ ((hl d' (by simp [hd'])).2 hp)
      rw [hset]
      exact hfree.trans hfree₂

/-- The frames of a directory that is not loaded are given back and both slots
end up empty. -/
theorem pagingFreeDirectory_spec (h : m.Scratch S) (hD : D ≠ S) (hlt : D < 2 ^ 20)
    (hT : ∀ d, 1 ≤ d → d < 768 → m.pde D d % 2 = 1 → m.pde D d / 4096 ≠ S) :
    ∃ m', m.pagingFreeDirectory (D * PAGE_SIZE) = some m' ∧ Frees S m m' (m.spaceFrames D) ∧
      word (m'.mem S) 1022 = 0 ∧ word (m'.mem S) 1023 = 0 := by
  set c := Call.map TMP_VIRT (D * PAGE_SIZE) PAGE_WRITE with hc
  set m₀ := m.log (.freeDirectory (D * PAGE_SIZE)) with hm₀
  have h₀ : m₀.Scratch S := h.log _
  set m₁ := (m₀.log c).setWord S 1023 (D * 4096 + 3) with hm₁
  have hfree₁ : Frees S m m₁ ∅ := by
    simpa using ((Frees.log S m (c := .freeDirectory (D * PAGE_SIZE)) fun h ↦ Call.noConfusion h).trans
      (Frees.log S m₀ (c := c) fun h ↦ Call.noConfusion h)).trans
        (Frees.slot (m₀.log c) (Or.inr rfl) S (D * 4096 + 3))
  have hslot₁ : word (m₁.mem S) 1023 = D * 4096 + 3 := by
    rw [hm₁, word_setWord, if_pos ⟨rfl, rfl⟩]
    omega
  have hpde : ∀ d, m₁.pde D d = m.pde D d := fun d ↦ by rw [pde, hfree₁.mem D hD, pde]
  obtain ⟨m₂, hrun, hfree₂⟩ := freeTable_foldl (hfree₁.scratch_table h) hslot₁ hD
    (l := List.range' 1 (KERNEL_DIR_START - 1)) fun d hd ↦ by
      rw [List.mem_range'_1, KERNEL_DIR_START] at hd
      rw [hpde]
      exact ⟨by omega, hT d (by omega) (by omega)⟩
  set m₃ := m₂.pmmFreeFrame (D * PAGE_SIZE) with hm₃
  have hfree₃ := (hfree₁.trans hfree₂).trans (Frees.free S m₂ D)
  have h₃ : m₃.Scratch S := hfree₃.scratch_table h
  set m₄ := (m₃.log (.unmap TMP_VIRT)).setWord S 1023 0 with hm₄
  have hunmap₁ : m₃.pagingUnmap TMP_VIRT = some m₄ := by
    rw [tmp_virt_eq, pagingUnmap_present h₃.window (by norm_num) (by norm_num)
      (pageAddr_index (by norm_num)) h₃.present, h₃.table, hm₄, tmp_virt_eq]
  have hfree₄ := (hfree₃.trans (Frees.log S m₃ (c := .unmap TMP_VIRT) fun h ↦ Call.noConfusion h)).trans
    (Frees.slot (m₃.log (.unmap TMP_VIRT)) (Or.inr rfl) S 0)
  have h₄ : m₄.Scratch S := hfree₄.scratch_table h
  set m₅ := (m₄.log (.unmap TMP2_VIRT)).setWord S 1022 0 with hm₅
  have hunmap₂ : m₄.pagingUnmap TMP2_VIRT = some m₅ := by
    rw [tmp2_virt_eq, pagingUnmap_present h₄.window (by norm_num) (by norm_num)
      (pageAddr_index (by norm_num)) h₄.present, h₄.table, hm₅, tmp2_virt_eq]
  have hfree₅ := (hfree₄.trans (Frees.log S m₄ (c := .unmap TMP2_VIRT) fun h ↦ Call.noConfusion h)).trans
    (Frees.slot (m₄.log (.unmap TMP2_VIRT)) (Or.inl rfl) S 0)
  refine ⟨m₅, ?_, ?_, ?_, ?_⟩
  · simp only [pagingFreeDirectory]
    rw [← hm₀, h₀.pagingTmpMap hlt, Option.bind_eq_bind, Option.bind_some, ← hc, ← hm₁, hrun,
      Option.bind_some, ← hm₃, hunmap₁, Option.bind_some, hunmap₂]
  · have hset : m.spaceFrames D =
        (⋃ d ∈ List.range' 1 (KERNEL_DIR_START - 1), m₁.tableFrames D d) ∪ {D} := by
      rw [spaceFrames, Set.union_singleton]
      congr 1
      refine Set.ext fun f ↦ ?_
      simp only [Set.mem_iUnion, Set.mem_Ico, List.mem_range'_1, KERNEL_DIR_START, exists_prop]
      refine exists_congr fun d ↦ ?_
      constructor
      · rintro ⟨hd, hf⟩
        refine ⟨by omega, ?_⟩
        rwa [tableFrames_congr (hfree₁.mem D hD) fun hp ↦ hfree₁.mem _ (hT d hd.1 hd.2 hp)]
      · rintro ⟨hd, hf⟩
        refine ⟨by omega, ?_⟩
        rwa [tableFrames_congr (hfree₁.mem D hD) fun hp ↦
          hfree₁.mem _ (hT d (by omega) (by omega) hp)] at hf
    rw [hset]
    simpa using hfree₅
  · rw [hm₅, word_setWord, if_pos ⟨rfl, rfl⟩, Nat.zero_mod]
  · rw [hm₅, word_setWord, if_neg (by norm_num)]
    rw [log_mem, hm₄, word_setWord, if_pos ⟨rfl, rfl⟩, Nat.zero_mod]

end Machine

end EclipseOS
