import EclipseOS.Scratch

/-!
# New directories

`paging_new_directory` writes one page: the kernel's entries of the loaded
directory, nothing below them, and itself at the last entry.
-/

namespace EclipseOS

open LittleEndian

namespace Machine

variable {m m' m₁ m₂ : Machine} {d t i j a F P D S f w : ℕ}

/-- Entry `i` of the directory that `paging_new_directory` builds in frame `a`. -/
def newEntry (m : Machine) (a i : ℕ) : ℕ :=
  if i = 1023 then a * 4096 + 3 else if i = 0 ∨ 768 ≤ i then m.pde m.dir i else 0

theorem setFrame_pde (h : a ≠ D) (p : Page) (d : ℕ) : (m.setFrame a p).pde D d = m.pde D d := by
  rw [pde, setFrame_mem_of_ne _ h.symm, pde]

theorem shareEntry_foldl (h : m.Recursive) (hat : m.frameAt 1022 1023 = some a) (ha : a ≠ m.dir)
    (hS : a ≠ m.pde m.dir 1022 / 4096) {l : List ℕ} (hl : ∀ i ∈ l, i < 1024) :
    ∃ q, l.foldlM shareEntry m = some (m.setFrame a q) ∧
      (∀ i, word q i = if i ∈ l then m.pde m.dir i else word (m.mem a) i) ∧
      ∀ o, 4096 ≤ o → q o = m.mem a o := by
  induction l generalizing m with
  | nil => exact ⟨m.mem a, by simp [setFrame_eq_self], by simp, fun _ _ ↦ rfl⟩
  | cons i l ih =>
      have hi : i < 1024 := hl i (by simp)
      have hstep : shareEntry m i = some (m.setWord a i (m.pde m.dir i)) := by
        simp only [shareEntry, h.load_pd hi, Option.bind_eq_bind, Option.bind_some]
        rw [tmp_virt_eq, store32_page (by norm_num) (by norm_num) hi hat]
      set m₁ := m.setWord a i (m.pde m.dir i) with hm₁
      have hpde : ∀ d, m₁.pde m.dir d = m.pde m.dir d := setFrame_pde ha _
      obtain ⟨q, hrun, hq, ho⟩ := ih (m := m₁) (h.setWord (Or.inl ha) _)
        ((frameAt_setFrame ha hS _).trans hat) ha (by rw [show m₁.dir = m.dir from rfl, hpde]; exact hS)
        fun i hi ↦ hl i (by simp [hi])
      refine ⟨q, ?_, fun j ↦ ?_, fun o h4 ↦ ?_⟩
      · rw [List.foldlM_cons, hstep, Option.bind_eq_bind, Option.bind_some, hrun, hm₁, setWord,
          setFrame_setFrame]
      · rw [hq, show m₁.dir = m.dir from rfl, hpde, hm₁, word_setWord]
        by_cases hj : j ∈ l
        · simp [hj]
        · by_cases hji : j = i
          · subst hji
            rw [if_neg hj, if_pos ⟨rfl, rfl⟩, if_pos (by simp), Nat.mod_eq_of_lt (m.pde_lt m.dir j)]
          · simp [hj, hji]
      · rw [ho o h4, hm₁, setWord_mem_self, putWord_apply_of_ne]
        omega

/-- Everything after the scratch slot was pointed at the new frame. -/
theorem fillDirectory (h : m.Recursive) (hat : m.frameAt 1022 1023 = some a) (ha : a ≠ m.dir)
    (hS : a ≠ m.pde m.dir 1022 / 4096) (hlt : a < 2 ^ 20) :
    ∃ q, (do
        let m ← m.memset TMP_VIRT 0 PAGE_SIZE
        let m ← m.shareEntry 0
        let m ← (List.range' KERNEL_DIR_START (1023 - KERNEL_DIR_START)).foldlM shareEntry m
        m.store32 (TMP_VIRT + 4 * 1023) (a * PAGE_SIZE ||| PAGE_PRESENT ||| PAGE_WRITE)) =
          some (m.setFrame a q) ∧
      (∀ i, i < 1024 → word q i = m.newEntry a i) ∧ ∀ o, 4096 ≤ o → q o = m.mem a o := by
  set p := splice (m.mem a) 0 4096 fun _ ↦ 0 with hp
  have hset : m.memset TMP_VIRT 0 PAGE_SIZE = some (m.setFrame a p) := by
    have := memset_page (m := m) (d := 1022) (t := 1023) (o := 0) (n := 4096) (by norm_num)
      (by norm_num) (by norm_num) hat ha hS 0
    rw [tmp_virt_eq]
    exact this
  set m₁ := m.setFrame a p with hm₁
  have hpde : ∀ d, m₁.pde m.dir d = m.pde m.dir d := setFrame_pde ha _
  obtain ⟨q, hrun, hq, ho⟩ := shareEntry_foldl (m := m₁) (h.setFrame ha p)
    ((frameAt_setFrame ha hS _).trans hat) ha (by rw [show m₁.dir = m.dir from rfl, hpde]; exact hS)
    (l := 0 :: List.range' KERNEL_DIR_START (1023 - KERNEL_DIR_START)) fun i hi ↦ by
      simp only [List.mem_cons, List.mem_range'_1, KERNEL_DIR_START] at hi
      omega
  rw [List.foldlM_cons] at hrun
  have hlast : (m.setFrame a q).store32 (TMP_VIRT + 4 * 1023)
      (a * PAGE_SIZE ||| PAGE_PRESENT ||| PAGE_WRITE) =
      some (m.setFrame a (putWord q 1023 (a * 4096 + 3))) := by
    rw [tmp_virt_eq, store32_page (by norm_num) (by norm_num) (by norm_num)
      ((frameAt_setFrame ha hS _).trans hat), Nat.or_assoc, PAGE_SIZE,
      frame_or_flags a (by decide), setWord, setFrame_mem_self, setFrame_setFrame]
    rfl
  refine ⟨putWord q 1023 (a * 4096 + 3), ?_, fun i hi ↦ ?_, fun o h4 ↦ ?_⟩
  · rw [hset, Option.bind_eq_bind, Option.bind_some, ← Option.bind_eq_bind, ← bind_assoc, hrun,
      hm₁, setFrame_setFrame]
    exact hlast
  · by_cases h1023 : i = 1023
    · subst h1023
      rw [word_putWord_self, newEntry, if_pos rfl, Nat.mod_eq_of_lt (by omega)]
    · rw [word_putWord_of_ne _ _ h1023, hq, newEntry, if_neg h1023, show m₁.dir = m.dir from rfl,
        hpde, hm₁, setFrame_mem_self, hp, word_splice_page _ _ hi, word_zero]
      refine if_congr ?_ rfl rfl
      simp only [List.mem_cons, List.mem_range'_1, KERNEL_DIR_START]
      omega
  · rw [putWord_apply_of_ne _ _ (by omega), ho o h4, hm₁, setFrame_mem_self, hp,
      splice_page_apply _ _ h4]

/-- Frame `a` holds a new directory and the slot in table `S` still shows it. -/
structure NewDir (m m' : Machine) (a S : ℕ) : Prop where
  scratch : m'.Scratch S
  cr3 : m'.cr3 = m.cr3
  slot : word (m'.mem S) 1023 = a * 4096 + 3
  image : ∀ i, i < 1024 → word (m'.mem a) i = m'.newEntry a i
  tail : ∀ o, 4096 ≤ o → m'.mem a o = m.mem a o
  mem : ∀ f, f ≠ a → f ≠ S → f ≠ m.dir → m'.mem f = m.mem f
  entry : ∀ i, i ≠ 1022 → m'.pde m.dir i = m.pde m.dir i
  own : m.Scratch S → m'.mem m.dir = m.mem m.dir ∧
    ∀ o, o / 4 ≠ 1023 → m'.mem S o = m.mem S o
  fresh : m.pde m.dir 1022 % 2 = 0 → m'.pde m.dir 1022 = S * 4096 + 3 ∧
    ∀ i < 1023, word (m'.mem S) i = 0

theorem NewDir.dir (h : NewDir m m' a S) : m'.dir = m.dir := by
  rw [Machine.dir, h.cr3, Machine.dir]

/-- `paging_new_directory` after its first two calls. -/
theorem pagingNewDirectory_of_tmpMap (halloc : m.pmmAllocFrame = (a * PAGE_SIZE, m₁))
    (htmp : m₁.pagingTmpMap (a * PAGE_SIZE) = some m₂) (h : m₂.Scratch S) (hcr3 : m₂.cr3 = m.cr3)
    (hslot : word (m₂.mem S) 1023 = a * 4096 + 3) (ha : a ≠ m.dir) (hS : a ≠ S) (hlt : a < 2 ^ 20)
    (hmem : ∀ f, f ≠ S → f ≠ m.dir → m₂.mem f = m.mem f)
    (hentry : ∀ i, i ≠ 1022 → m₂.pde m.dir i = m.pde m.dir i)
    (hown : m.Scratch S → m₂.mem m.dir = m.mem m.dir ∧
      ∀ o, o / 4 ≠ 1023 → m₂.mem S o = m.mem S o)
    (hfresh : m.pde m.dir 1022 % 2 = 0 → m₂.pde m.dir 1022 = S * 4096 + 3 ∧
      ∀ i < 1023, word (m₂.mem S) i = 0) :
    ∃ q, m.pagingNewDirectory = some (a * PAGE_SIZE, m₂.setFrame a q) ∧
      NewDir m (m₂.setFrame a q) a S := by
  have hdir : m₂.dir = m.dir := by rw [Machine.dir, hcr3, Machine.dir]
  obtain ⟨q, hfill, hq, htail⟩ := fillDirectory h.window (h.frameAt_slot hslot) (hdir ▸ ha)
    (h.table.symm ▸ hS) hlt
  have hnew : ∀ i, (m₂.setFrame a q).newEntry a i = m₂.newEntry a i := by
    intro i
    rw [newEntry, setFrame_dir, setFrame_pde (hdir ▸ ha), newEntry]
  refine ⟨q, ?_, ?_⟩
  · simp only [pagingNewDirectory, halloc, htmp, Option.bind_eq_bind, Option.bind_some]
    simp only [Option.bind_eq_bind] at hfill
    have := congrArg (fun o ↦ o.bind fun m ↦ some (a * PAGE_SIZE, m)) hfill
    simpa [Option.bind_assoc] using this
  · exact {
      scratch := h.setFrame (hdir ▸ ha) q
      cr3 := hcr3
      slot := by rw [setFrame_mem_of_ne _ hS.symm, hslot]
      image := fun i hi ↦ by rw [setFrame_mem_self, hq i hi, hnew]
      tail := fun o ho ↦ by rw [setFrame_mem_self, htail o ho, hmem a hS ha]
      mem := fun f hfa hfS hfd ↦ by rw [setFrame_mem_of_ne _ hfa, hmem f hfS hfd]
      entry := fun i hi ↦ by rw [setFrame_pde ha, hentry i hi]
      own := fun hs ↦ by
        obtain ⟨h₁, h₂⟩ := hown hs
        refine ⟨by rw [setFrame_mem_of_ne _ ha.symm, h₁], fun o ho ↦ ?_⟩
        rw [setFrame_mem_of_ne _ hS.symm, h₂ o ho]
      fresh := fun hp ↦ by
        rw [setFrame_pde ha, setFrame_mem_of_ne _ hS.symm]
        exact hfresh hp }

/-- The scratch table exists. -/
theorem pagingNewDirectory_scratch (h : m.Scratch S)
    (halloc : m.pmmAllocFrame = (a * PAGE_SIZE, m₁)) (ha : a ≠ m.dir) (hS : a ≠ S)
    (hlt : a < 2 ^ 20) :
    ∃ q, m.pagingNewDirectory = some (a * PAGE_SIZE, ((m₁.log (.map TMP_VIRT (a * PAGE_SIZE)
        PAGE_WRITE)).setWord S 1023 (a * 4096 + 3)).setFrame a q) ∧
      NewDir m (((m₁.log (.map TMP_VIRT (a * PAGE_SIZE) PAGE_WRITE)).setWord S 1023
        (a * 4096 + 3)).setFrame a q) a S := by
  have hm₁ : m₁ = m.pmmAllocFrame.2 := by rw [halloc]
  have h₁ : m₁.Scratch S := h.congr (by simp [hm₁]) (by simp [hm₁]) (by simp [hm₁])
  have hmem₁ : m₁.mem = m.mem := by simp [hm₁]
  have hdir₁ : m₁.dir = m.dir := by simp [hm₁]
  refine pagingNewDirectory_of_tmpMap halloc (h₁.pagingTmpMap hlt)
    ((h₁.log _).setWord h₁.ne _ _) ?_ ?_ ha hS hlt (fun f hfS _ ↦ ?_) (fun i _ ↦ ?_)
    (fun _ ↦ ⟨?_, fun o ho ↦ ?_⟩) fun hp ↦ absurd (h.present.symm.trans hp) (by norm_num)
  · simp [hm₁]
  · rw [word_setWord, if_pos ⟨rfl, rfl⟩]
    omega
  · rw [setWord_mem_of_ne _ _ hfS, log_mem, hmem₁]
  · rw [setWord, setFrame_pde h.ne, pde, log_mem, hmem₁, pde]
  · rw [setWord_mem_of_ne _ _ h.ne.symm, log_mem, hmem₁]
  · rw [setWord_mem_self, putWord_apply_of_ne _ _ ho, log_mem, hmem₁]

/-- The scratch table is created by the first use of its slot. -/
theorem pagingNewDirectory_absent (h : m.Recursive) (hp : m.pde m.dir 1022 % 2 = 0)
    (halloc : m.pmmAllocFrame = (a * PAGE_SIZE, m₁))
    (halloc' : (m₁.log (.map TMP_VIRT (a * PAGE_SIZE) PAGE_WRITE)).pmmAllocFrame =
      (S * PAGE_SIZE, m₂)) (ha : a ≠ m.dir) (hS : a ≠ S) (hSd : S ≠ m.dir)
    (hlt : a < 2 ^ 20) (hSlt : S < 2 ^ 20) :
    ∃ q, m.pagingNewDirectory = some (a * PAGE_SIZE,
        ((m₂.withTable 1022 S).setWord S 1023 (a * 4096 + 3)).setFrame a q) ∧
      NewDir m (((m₂.withTable 1022 S).setWord S 1023 (a * 4096 + 3)).setFrame a q) a S := by
  have hm₁ : m₁ = m.pmmAllocFrame.2 := by rw [halloc]
  have hm₂ : m₂ = (m₁.log (.map TMP_VIRT (a * PAGE_SIZE) PAGE_WRITE)).pmmAllocFrame.2 := by
    rw [halloc']
  have h₁ : m₁.Recursive := h.congr (by simp [hm₁]) (by simp [hm₁])
  have hmem₂ : m₂.mem = m.mem := by simp [hm₂, hm₁]
  have hdir₁ : m₁.dir = m.dir := by simp [hm₁]
  have hdir₂ : m₂.dir = m.dir := by simp [hm₂, hm₁]
  have h₂ : m₂.Recursive := h.congr (by simp [hm₂, hm₁]) (by simp [hm₂, hm₁])
  have hpde₂ := m₂.withTable_pde (d := 1022) (hdir₂.symm ▸ hSd) hSlt
  have h₃ : (m₂.withTable 1022 S).Scratch S :=
    ⟨h₂.withTable (by norm_num) (hdir₂.symm ▸ hSd), by rw [hpde₂]; omega, by rw [hpde₂]; omega,
      by rw [show (m₂.withTable 1022 S).dir = m₂.dir from rfl, hdir₂]; exact hSd⟩
  have htmp : m₁.pagingTmpMap (a * PAGE_SIZE) =
      some ((m₂.withTable 1022 S).setWord S 1023 (a * 4096 + 3)) := by
    rw [pagingTmpMap, tmp_virt_eq, pagingMap_absent h₁ (by norm_num) (by norm_num)
      (pageAddr_index (by norm_num)) (by simpa [hm₁, pde] using hp)
      (by rw [← tmp_virt_eq]; exact halloc') hSlt (hdir₁ ▸ hSd) hlt (by decide), withPage_kernel _ _ _ _ (by decide), h₃.table]
    rfl
  have hword : ∀ i, i ≠ 1022 → (m₂.withTable 1022 S).pde m.dir i = m.pde m.dir i := by
    intro i hi
    rw [withTable, setFrame_pde hSd, pde, word_setWord, if_neg fun h ↦ hi h.2, hmem₂, pde]
  refine pagingNewDirectory_of_tmpMap halloc htmp (h₃.setWord h₃.ne _ _) ?_ ?_ ha hS hlt
    (fun f hfS hfd ↦ ?_) (fun i hi ↦ ?_) (fun hs ↦ ?_) fun _ ↦ ⟨?_, fun i hi ↦ ?_⟩
  · exact (show m₂.cr3 = m.cr3 by simp [hm₂, hm₁])
  · rw [word_setWord, if_pos ⟨rfl, rfl⟩]
    omega
  · rw [setWord_mem_of_ne _ _ hfS, withTable, setFrame_mem_of_ne _ hfS,
      setWord_mem_of_ne _ _ (hdir₂.symm ▸ hfd), hmem₂]
  · rw [setWord, setFrame_pde hSd, hword i hi]
  · have := hs.present
    omega
  · rw [setWord, setFrame_pde hSd, ← hpde₂, show (m₂.withTable 1022 S).dir = m₂.dir from rfl, hdir₂]
  · rw [word_setWord, if_neg (by omega), withTable, setFrame_mem_self, word_splice_page _ _ (by omega),
      word_zero]

end Machine

end EclipseOS
