import EclipseOS.Mapping

/-!
# Two runs side by side

Two machines that agree except on the bytes of some frames take the same steps
as long as none of these frames is a directory or a table: the allocator hands
out the same frames, and every entry is the same.
-/

namespace EclipseOS

open LittleEndian

namespace Machine

variable {m n m' n' m₁ n₁ : Machine} {d d' t t' i o f F P va flags : ℕ} {S T V : Set ℕ}

/-- The machines agree, except on the bytes of the frames that are free or in `S`. -/
structure Alike (S : Set ℕ) (m n : Machine) : Prop where
  cr3 : n.cr3 = m.cr3
  totalFrames : n.totalFrames = m.totalFrames
  lastAlloc : n.lastAlloc = m.lastAlloc
  test : ∀ f, n.frameTest f = m.frameTest f
  mem : ∀ f, m.frameTest f = true → f ∉ S → ∀ o < 4096, n.mem f o = m.mem f o

namespace Alike

theorem dir (h : Alike S m n) : n.dir = m.dir := by rw [Machine.dir, h.cr3, Machine.dir]

theorem free (h : Alike S m n) : n.free = m.free := by
  ext f
  rw [mem_free, mem_free, h.totalFrames, h.test]

theorem mono (h : Alike S m n) (hST : S ⊆ T) : Alike T m n :=
  ⟨h.cr3, h.totalFrames, h.lastAlloc, h.test, fun f hf hT ↦ h.mem f hf fun hS ↦ hT (hST hS)⟩

theorem word (h : Alike S m n) (hf : m.frameTest f = true) (hS : f ∉ S) (hi : i < 1024) :
    LittleEndian.word (n.mem f) i = LittleEndian.word (m.mem f) i := by
  apply word_congr
  intro o ho
  exact h.mem f hf hS o (by omega)

theorem pde (h : Alike S m n) (hf : m.frameTest f = true) (hS : f ∉ S) (hi : i < 1024) :
    n.pde f i = m.pde f i :=
  h.word hf hS hi

theorem log (h : Alike S m n) (c c' : Call) : Alike S (m.log c) (n.log c') :=
  ⟨h.cr3, h.totalFrames, h.lastAlloc, h.test, h.mem⟩

/-- A frame that is written as a whole is the same afterwards. -/
theorem setFrame (h : Alike S m n) (f : ℕ) {p q : Page} (hpq : ∀ o < 4096, q o = p o) :
    Alike (S \ {f}) (m.setFrame f p) (n.setFrame f q) := by
  refine ⟨h.cr3, h.totalFrames, h.lastAlloc, h.test, fun g hg hS o ho ↦ ?_⟩
  by_cases hgf : g = f
  · subst hgf
    rw [setFrame_mem_self, setFrame_mem_self, hpq o ho]
  · rw [setFrame_mem_of_ne _ hgf, setFrame_mem_of_ne _ hgf]
    exact h.mem g hg (fun hgS ↦ hS ⟨hgS, hgf⟩) o ho

theorem setWord (h : Alike S m n) (f i w : ℕ) : Alike S (m.setWord f i w) (n.setWord f i w) := by
  refine ⟨h.cr3, h.totalFrames, h.lastAlloc, h.test, fun g hg hS o ho ↦ ?_⟩
  by_cases hgf : g = f
  · subst hgf
    rw [setWord_mem_self, setWord_mem_self, putWord, putWord, h.mem g hg hS o ho]
  · rw [setWord_mem_of_ne _ _ hgf, setWord_mem_of_ne _ _ hgf]
    exact h.mem g hg hS o ho

/-- The frame just taken has its old bytes. -/
theorem alloc (h : Alike S m n) (F : ℕ) : Alike (insert F S) (m.withAlloc F) (n.withAlloc F) := by
  refine ⟨h.cr3, h.totalFrames, rfl, fun f ↦ ?_, fun f hf hS ↦ ?_⟩
  · rw [withAlloc_frameTest, withAlloc_frameTest, h.test]
  · rw [Set.mem_insert_iff, not_or] at hS
    rw [withAlloc_frameTest, decide_eq_false hS.1, Bool.false_or] at hf
    exact h.mem f hf hS.2

/-- The allocator looks at its own globals only. -/
theorem pmmAllocFrame (h : Alike S m n) (hlast : m.lastAlloc ≤ m.totalFrames) :
    (∃ F ∈ m.free, m.pmmAllocFrame = (F * PAGE_SIZE, m.withAlloc F) ∧
      n.pmmAllocFrame = (F * PAGE_SIZE, n.withAlloc F)) ∨
    (m.free = ∅ ∧ m.pmmAllocFrame = (0, m.log (.alloc 0)) ∧
      n.pmmAllocFrame = (0, n.log (.alloc 0))) := by
  have hfirst : ∀ lo hi, n.firstFree lo hi = m.firstFree lo hi := by
    intro lo hi
    simp only [firstFree, h.test]
  have hfst : n.pmmAllocFrame.1 = m.pmmAllocFrame.1 := by
    simp only [Machine.pmmAllocFrame, hfirst, h.lastAlloc, h.totalFrames]
    cases (m.firstFree m.lastAlloc m.totalFrames).or (m.firstFree 0 m.lastAlloc) <;> rfl
  have hlast' : n.lastAlloc ≤ n.totalFrames := by rw [h.lastAlloc, h.totalFrames]; exact hlast
  have hpos : 0 < PAGE_SIZE := by decide
  obtain ⟨F, hF, hm⟩ | ⟨hnone, hm⟩ := pmmAllocFrame_cases hlast
  · obtain ⟨G, hG, hn⟩ | ⟨hnone', -⟩ := pmmAllocFrame_cases hlast'
    · rw [hm, hn] at hfst
      obtain rfl := Nat.eq_of_mul_eq_mul_right hpos hfst
      exact Or.inl ⟨G, hF, hm, hn⟩
    · rw [← h.free, hnone'] at hF
      exact absurd hF (Finset.notMem_empty F)
  · obtain ⟨G, hG, -⟩ | ⟨-, hn⟩ := pmmAllocFrame_cases hlast'
    · rw [h.free, hnone] at hG
      exact absurd hG (Finset.notMem_empty G)
    · exact Or.inr ⟨hnone, hm, hn⟩

theorem withTable (h : Alike S m n) (d F : ℕ) :
    Alike (S \ {F}) (m.withTable d F) (n.withTable d F) := by
  rw [Machine.withTable, Machine.withTable, h.dir]
  apply (h.setWord m.dir d (F * 4096 + 3)).setFrame F
  intro o ho
  rw [splice_page _ _ ho, splice_page _ _ ho]

theorem withPage (h : Alike S m n) (hdir : m.frameTest m.dir = true) (hS : m.dir ∉ S)
    (hd : d < 1024) (t P flags : ℕ) : Alike S (m.withPage d t P flags) (n.withPage d t P flags) := by
  rw [Machine.withPage, Machine.withPage, h.dir, h.pde hdir hS hd]
  exact (h.setWord _ _ _).setWord _ _ _

end Alike

/-! ## What the loaded space refers to -/

/-- A page of user space, or one in `V`. -/
def Watched (V : Set ℕ) (d t : ℕ) : Prop := 1 ≤ d ∧ d < 768 ∨ pageAddr d t ∈ V

/-- The loaded directory and its tables are frames in use outside of `S`, the pages
of user space and of `V` are frames in use, and the first table, the kernel's, is
complete. -/
structure Anchored (S V : Set ℕ) (m : Machine) : Prop where
  lastAlloc : m.lastAlloc ≤ m.totalFrames
  recursive : m.Recursive
  own : ∀ f ∈ S, m.frameTest f = true
  zero : m.frameTest 0 = true ∧ 0 ∉ S ∧ m.dir ≠ 0
  dir : m.frameTest m.dir = true ∧ m.dir ∉ S
  table : ∀ d, 1 ≤ d → d < 1023 → m.pde m.dir d % 2 = 1 → m.frameTest (m.pde m.dir d / 4096) = true ∧
    m.pde m.dir d / 4096 ∉ S ∧ m.pde m.dir d / 4096 ≠ m.dir
  leaf : ∀ d t F, d < 1023 → t < 1024 → Watched V d t → m.leaf m.dir d t = some F →
    m.frameTest F = true
  low : m.pde m.dir 0 % 2 = 1 ∧ m.frameTest (m.pde m.dir 0 / 4096) = true ∧
    m.pde m.dir 0 / 4096 ∉ S ∧ m.pde m.dir 0 / 4096 ≠ 0 ∧ m.pde m.dir 0 / 4096 ≠ m.dir ∧
      ∀ t < 1024, m.pte m.dir 0 t % 2 = 1

namespace Anchored

/-- The frames in which the walk finds the directory and its tables. -/
def Reads (m : Machine) (f : ℕ) : Prop :=
  f = m.dir ∨ ∃ d < 1023, m.pde m.dir d % 2 = 1 ∧ f = m.pde m.dir d / 4096

/-- No table is the directory. -/
theorem table_ne (ha : Anchored S V m) (hd : d < 1023) (hp : m.pde m.dir d % 2 = 1) :
    m.pde m.dir d / 4096 ≠ m.dir := by
  by_cases h0 : d = 0
  · rw [h0]
    exact ha.low.2.2.2.2.1
  · exact (ha.table d (by omega) hd hp).2.2

theorem reads (ha : Anchored S V m) (hf : Reads m f) : m.frameTest f = true ∧ f ∉ S := by
  rcases hf with rfl | ⟨d, hd, hp, rfl⟩
  · exact ha.dir
  · by_cases h0 : d = 0
    · subst h0
      exact ⟨ha.low.2.1, ha.low.2.2.1⟩
    · obtain ⟨hused, hS, -⟩ := ha.table d (by omega) hd hp
      exact ⟨hused, hS⟩

/-- Changes of the allocator and of frames the walk does not read. -/
theorem congr (ha : Anchored S V m) (hlast : m'.lastAlloc ≤ m'.totalFrames) (hcr3 : m'.cr3 = m.cr3)
    (htest : ∀ f, m.frameTest f = true → m'.frameTest f = true)
    (hT : ∀ f ∈ T, m'.frameTest f = true) (hTS : ∀ f ∈ T, f ∈ S ∨ m.frameTest f = false)
    (hmem : ∀ f, Reads m f → ∀ i < 1024, LittleEndian.word (m'.mem f) i =
      LittleEndian.word (m.mem f) i) : Anchored T V m' := by
  have hdir : m'.dir = m.dir := by rw [Machine.dir, hcr3, Machine.dir]
  have hnot : ∀ f, m.frameTest f = true → f ∉ S → f ∉ T := by
    intro f hf hS hfT
    obtain hfS | hfree := hTS f hfT
    · exact hS hfS
    · rw [hf] at hfree
      cases hfree
  have hpde : ∀ i < 1024, m'.pde m'.dir i = m.pde m.dir i := fun i hi ↦ by
    rw [hdir]
    exact hmem m.dir (Or.inl rfl) i hi
  refine ⟨hlast, ha.recursive.congr hcr3 (hmem m.dir (Or.inl rfl) 1023 (by norm_num)), hT,
    ⟨htest 0 ha.zero.1, hnot 0 ha.zero.1 ha.zero.2.1, by rw [hdir]; exact ha.zero.2.2⟩,
    ⟨by rw [hdir]; exact htest _ ha.dir.1, by rw [hdir]; exact hnot _ ha.dir.1 ha.dir.2⟩,
    fun d h₁ h₂ hp ↦ ?_, fun d t F hd ht hw hF ↦ ?_, ?_⟩
  · rw [hpde d (by omega)] at hp ⊢
    obtain ⟨hused, hS, hne⟩ := ha.table d h₁ h₂ hp
    exact ⟨htest _ hused, hnot _ hused hS, by rw [hdir]; exact hne⟩
  · apply htest F
    apply ha.leaf d t F hd ht hw
    rw [leaf_eq_some] at hF ⊢
    rw [hpde d (by omega), pte, hpde d (by omega)] at hF
    obtain ⟨hp, hq, hdiv⟩ := hF
    rw [hmem _ (Or.inr ⟨d, hd, hp, rfl⟩) t ht] at hq hdiv
    exact ⟨hp, hq, hdiv⟩
  · obtain ⟨hp, hused, hS, h0, hne, hfull⟩ := ha.low
    rw [hpde 0 (by norm_num), hdir]
    refine ⟨hp, htest _ hused, hnot _ hused hS, h0, hne, fun t ht ↦ ?_⟩
    have hfirst : m'.pde m.dir 0 = m.pde m.dir 0 := by
      rw [← hdir, hpde 0 (by norm_num), hdir]
    rw [pte, hfirst, hmem _ (Or.inr ⟨0, by norm_num, hp, rfl⟩) t ht]
    exact hfull t ht

theorem log (ha : Anchored S V m) (c : Call) : Anchored S V (m.log c) :=
  ha.congr ha.lastAlloc rfl (fun _ hf ↦ hf) ha.own (fun _ hf ↦ Or.inl hf) fun _ _ _ _ ↦ rfl

/-- The frame just taken is not referred to. -/
theorem alloc (ha : Anchored S V m) (hF : F ∈ m.free) : Anchored (insert F S) V (m.withAlloc F) := by
  obtain ⟨hlt, hfree⟩ := (mem_free m).mp hF
  refine ha.congr hlt.le rfl (fun f hf ↦ by simp [hf]) (fun f hf ↦ ?_) (fun f hf ↦ ?_)
    fun _ _ _ _ ↦ rfl
  · obtain rfl | hf := hf
    · simp
    · simp [ha.own f hf]
  · obtain rfl | hf := hf
    · exact Or.inr hfree
    · exact Or.inl hf

theorem anti (ha : Anchored S V m) (hTS : T ⊆ S) : Anchored T V m :=
  ha.congr ha.lastAlloc rfl (fun _ hf ↦ hf) (fun f hf ↦ ha.own f (hTS hf))
    (fun _ hf ↦ Or.inl (hTS hf)) fun _ _ _ _ ↦ rfl

/-- Frame `F` becomes a table of user space.  It may have been in use, as frame 0
is when the allocator has nothing left. -/
theorem withTable (ha : Anchored S V m) (h₁ : 1 ≤ d) (h₂ : d < 768)
    (hF : m.frameTest F = true) (hS : F ∉ S) (hdir : F ≠ m.dir) (hlow : F ≠ m.pde m.dir 0 / 4096)
    (hlt : F < 2 ^ 20) : Anchored S V (m.withTable d F) ∧
      (∀ i, (m.withTable d F).pde m.dir i = if i = d then F * 4096 + 3 else m.pde m.dir i) ∧
      (∀ f ∈ S, (m.withTable d F).mem f = m.mem f) ∧
      ∀ f, m.frameTest f = false → (m.withTable d F).mem f = m.mem f := by
  have hmem : ∀ f, f ≠ F → f ≠ m.dir → (m.withTable d F).mem f = m.mem f := by
    intro f hfF hfdir
    rw [Machine.withTable, setFrame_mem_of_ne _ hfF, setWord_mem_of_ne _ _ hfdir]
  have hpde : ∀ i, (m.withTable d F).pde m.dir i =
      if i = d then F * 4096 + 3 else m.pde m.dir i := by
    intro i
    rw [Machine.withTable, setFrame_pde hdir, pde, word_setWord,
      Nat.mod_eq_of_lt (by omega : F * 4096 + 3 < 2 ^ 32)]
    simp only [true_and, pde]
  have hzero : ∀ t < 1024, LittleEndian.word ((m.withTable d F).mem F) t = 0 := by
    intro t ht
    rw [Machine.withTable, setFrame_mem_self, word_splice_page _ _ ht, word_zero]
  refine ⟨⟨ha.lastAlloc, ha.recursive.withTable (by omega) hdir, ha.own, ha.zero, ha.dir,
    fun i hi₁ hi₂ hpi ↦ ?_, fun i t P hi ht hw hP ↦ ?_, ?_⟩, hpde, fun f hf ↦ ?_, fun f hf ↦ ?_⟩
  · rw [show (m.withTable d F).dir = m.dir from rfl] at hpi ⊢
    rw [hpde] at hpi ⊢
    by_cases hi : i = d
    · rw [if_pos hi, show (F * 4096 + 3) / 4096 = F by omega]
      exact ⟨hF, hS, hdir⟩
    · rw [if_neg hi] at hpi ⊢
      exact ha.table i hi₁ hi₂ hpi
  · rw [show (m.withTable d F).dir = m.dir from rfl, leaf_eq_some, pte, hpde] at hP
    obtain ⟨hpi, hq, rfl⟩ := hP
    by_cases hid : i = d
    · rw [if_pos hid, show (F * 4096 + 3) / 4096 = F by omega, hzero t ht] at hq
      exact absurd hq (by norm_num)
    · rw [if_neg hid] at hpi hq ⊢
      by_cases hT : m.pde m.dir i / 4096 = F
      · rw [hT, hzero t ht] at hq
        exact absurd hq (by norm_num)
      · rw [hmem _ hT (ha.table_ne hi hpi)] at hq ⊢
        exact ha.leaf i t _ hi ht hw (leaf_eq_some.mpr ⟨hpi, hq, rfl⟩)
  · obtain ⟨hp0, hused, hS0, h0, hne, hfull⟩ := ha.low
    have hpde0 : (m.withTable d F).pde m.dir 0 = m.pde m.dir 0 := by
      rw [hpde, if_neg (by omega)]
    rw [show (m.withTable d F).dir = m.dir from rfl, hpde0]
    refine ⟨hp0, hused, hS0, h0, hne, fun t ht ↦ ?_⟩
    rw [pte, hpde0, hmem _ hlow.symm hne]
    exact hfull t ht
  · exact hmem f (fun heq ↦ hS (heq ▸ hf)) fun heq ↦ ha.dir.2 (heq ▸ hf)
  · have hidle : ∀ g, m.frameTest g = true → f ≠ g := by
      rintro g hg rfl
      rw [hf] at hg
      cases hg
    exact hmem f (hidle F hF) (hidle _ ha.dir.1)

/-- A frame in use becomes page `(d, t)`. -/
theorem withPage (ha : Anchored S V m) (h₁ : 1 ≤ d) (h₂ : d < 768)
    (hp : m.pde m.dir d % 2 = 1) (hP : m.frameTest P = true) (hlt : P < 2 ^ 20) (hfl : flags < 4096) :
    Anchored S V (m.withPage d t P flags) ∧ (m.withPage d t P flags).leaf m.dir d t = some P ∧
      (m.withPage d t P flags).pde m.dir d % 2 = 1 ∧
      (∀ t' < 1024, t' ≠ t → (m.withPage d t P flags).leaf m.dir d t' = m.leaf m.dir d t') ∧
      (∀ f ∈ S, (m.withPage d t P flags).mem f = m.mem f) ∧
      ∀ f, m.frameTest f = false → (m.withPage d t P flags).mem f = m.mem f := by
  obtain ⟨hused, hTS, hTdir⟩ := ha.table d h₁ (by omega) hp
  obtain ⟨hodd, hdiv⟩ := Ledger.flags_or_one P hfl
  have hfl' : flags ||| 1 < 4096 := or_lt_page hfl (by norm_num)
  have hentry : ∀ i, (m.withPage d t P flags).pde m.dir i % 2 = m.pde m.dir i % 2 ∧
      (m.withPage d t P flags).pde m.dir i / 4096 = m.pde m.dir i / 4096 := by
    intro i
    have hpde := m.pde_lt m.dir d
    rw [Machine.withPage, Machine.setWord, setFrame_pde hTdir, pde, word_setWord]
    by_cases hi : i = d
    · subst hi
      rw [if_pos ⟨rfl, rfl⟩]
      obtain hu | hu := and_user_cases flags <;> rw [hu]
      · rw [Nat.or_zero, Nat.mod_eq_of_lt hpde]
        exact ⟨rfl, rfl⟩
      · rw [Nat.mod_eq_of_lt (Nat.or_lt_two_pow hpde (by norm_num)), or_even_mod (by norm_num),
          or_low_div (by norm_num)]
        exact ⟨rfl, rfl⟩
    · rw [if_neg fun heq ↦ hi heq.2, pde]
      exact ⟨rfl, rfl⟩
  have hword : ∀ f, f ≠ m.dir → ∀ s, LittleEndian.word ((m.withPage d t P flags).mem f) s =
      if f = m.pde m.dir d / 4096 ∧ s = t then P * 4096 + (flags ||| 1)
      else LittleEndian.word (m.mem f) s := by
    intro f hf s
    rw [Machine.withPage, word_setWord, setWord_mem_of_ne _ _ hf, Nat.mod_eq_of_lt (by omega)]
  have hpte : ∀ i < 1023, m.pde m.dir i % 2 = 1 → ∀ s,
      (m.withPage d t P flags).pte m.dir i s =
        if m.pde m.dir i / 4096 = m.pde m.dir d / 4096 ∧ s = t then P * 4096 + (flags ||| 1)
        else m.pte m.dir i s := by
    intro i hi hpi s
    rw [pte, (hentry i).2, hword _ (ha.table_ne hi hpi), pte]
  have hdir : (m.withPage d t P flags).dir = m.dir := rfl
  refine ⟨⟨ha.lastAlloc, ?_, ha.own, ha.zero, ha.dir, fun i hi₁ hi₂ hpi ↦ ?_,
    fun i s F hi hs hw hF ↦ ?_, ?_⟩, ?_, ?_, fun t' ht' hne ↦ ?_, fun f hf ↦ ?_, fun f hf ↦ ?_⟩
  · have h1023 := hentry 1023
    exact ⟨ha.recursive.cr3, h1023.1.trans ha.recursive.present, h1023.2.trans ha.recursive.self⟩
  · rw [hdir] at hpi ⊢
    rw [(hentry i).1] at hpi
    rw [(hentry i).2]
    exact ha.table i hi₁ hi₂ hpi
  · rw [hdir, leaf_eq_some, (hentry i).1] at hF
    obtain ⟨hpi, hq, rfl⟩ := hF
    rw [hpte i hi hpi] at hq ⊢
    by_cases hT : m.pde m.dir i / 4096 = m.pde m.dir d / 4096 ∧ s = t
    · rw [if_pos hT, hdiv]
      exact hP
    · rw [if_neg hT] at hq ⊢
      exact ha.leaf i s _ hi hs hw (leaf_eq_some.mpr ⟨hpi, hq, rfl⟩)
  · obtain ⟨hp0, hused0, hS0, h0, hne, hfull⟩ := ha.low
    rw [hdir, (hentry 0).1, (hentry 0).2]
    refine ⟨hp0, hused0, hS0, h0, hne, fun s hs ↦ ?_⟩
    rw [hpte 0 (by norm_num) hp0]
    split
    · exact hodd
    · exact hfull s hs
  · rw [leaf_eq_some, (hentry d).1, hpte d (by omega) hp, if_pos ⟨rfl, rfl⟩]
    exact ⟨hp, hodd, hdiv⟩
  · rw [(hentry d).1, hp]
  · apply Option.ext
    intro F
    rw [leaf_eq_some, leaf_eq_some, (hentry d).1, hpte d (by omega) hp,
      if_neg fun heq ↦ hne heq.2]
  · have hfT : f ≠ m.pde m.dir d / 4096 := fun heq ↦ hTS (heq ▸ hf)
    have hfdir : f ≠ m.dir := fun heq ↦ ha.dir.2 (heq ▸ hf)
    rw [Machine.withPage, setWord_mem_of_ne _ _ hfT, setWord_mem_of_ne _ _ hfdir]
  · have hidle : ∀ g, m.frameTest g = true → f ≠ g := by
      rintro g hg rfl
      rw [hf] at hg
      cases hg
    rw [Machine.withPage, setWord_mem_of_ne _ _ (hidle _ hused),
      setWord_mem_of_ne _ _ (hidle _ ha.dir.1)]

end Anchored

/-! ## The same call on both sides -/

/-- Page `(d, t)` was mapped to `P`. -/
structure Maps (S : Set ℕ) (d t P : ℕ) (m m' : Machine) : Prop where
  cr3 : m'.cr3 = m.cr3
  test : ∀ f, m.frameTest f = true → m'.frameTest f = true
  present : m'.pde m.dir d % 2 = 1
  leaf : m'.leaf m.dir d t = some P
  kept : m.pde m.dir d % 2 = 1 → ∀ t' < 1024, t' ≠ t → m'.leaf m.dir d t' = m.leaf m.dir d t'
  mem : ∀ f ∈ S, m'.mem f = m.mem f
  idle : ∀ f, m'.frameTest f = false → m'.mem f = m.mem f

/-- Frame `F` can become a table, and `m₁` is the machine after it was chosen. -/
structure TableFrame (S V : Set ℕ) (F : ℕ) (m m₁ : Machine) : Prop where
  anchored : Anchored S V m₁
  used : m₁.frameTest F = true
  notMem : F ∉ S
  ne_dir : F ≠ m.dir
  ne_low : F ≠ m.pde m.dir 0 / 4096
  lt : F < 2 ^ 20
  mem : m₁.mem = m.mem
  cr3 : m₁.cr3 = m.cr3
  test : ∀ f, m.frameTest f = true → m₁.frameTest f = true

namespace Anchored

theorem tableFrame (ha : Anchored S V m) (hF : F ∈ m.free) (c : Call) :
    TableFrame S V F m ((m.log c).withAlloc F) := by
  have hne : ∀ f, m.frameTest f = true → F ≠ f := fun f hf ↦ Ledger.free_ne hF hf
  exact {
    anchored := ((ha.log c).alloc (m := m.log c) hF).anti (Set.subset_insert F S)
    used := by simp
    notMem := fun hFS ↦ hne F (ha.own F hFS) rfl
    ne_dir := hne _ ha.dir.1
    ne_low := hne _ ha.low.2.1
    lt := Ledger.free_lt hF
    mem := rfl
    cr3 := rfl
    test := fun f hf ↦ by simp [hf] }

theorem tableZero (ha : Anchored S V m) (c : Call) :
    TableFrame S V 0 m ((m.log c).log (.alloc 0)) where
  anchored := (ha.log c).log _
  used := ha.zero.1
  notMem := ha.zero.2.1
  ne_dir := ha.zero.2.2.symm
  ne_low := ha.low.2.2.2.1.symm
  lt := by norm_num
  mem := rfl
  cr3 := rfl
  test _ hf := hf

/-- `paging_map` where there is no table. -/
theorem mapAbsent (ha : Anchored S V m) (h₁ : 1 ≤ d) (h₂ : d < 768) (ht : t < 1024)
    (hva : va >>> 22 = d ∧ (va >>> 12) &&& 0x3FF = t) (hp : m.pde m.dir d % 2 = 0)
    (hP : m.frameTest P = true) (hlt : P < 2 ^ 20) (hfl : flags < 4096)
    (hm : (m.log (.map va (P * PAGE_SIZE) flags)).pmmAllocFrame = (F * PAGE_SIZE, m₁))
    (hF : TableFrame S V F m m₁) :
    ∃ m', m.pagingMap va (P * PAGE_SIZE) flags = some m' ∧
      (m' = (m₁.withTable d F).withPage d t P flags ∧ Anchored S V (m₁.withTable d F)) ∧
      Anchored S V m' ∧ Maps S d t P m m' := by
  have hdir₁ : m₁.dir = m.dir := by rw [Machine.dir, hF.cr3, Machine.dir]
  have hpde₁ : ∀ D i, m₁.pde D i = m.pde D i := fun D i ↦ by rw [pde, hF.mem, pde]
  obtain ⟨hanch₂, hpde₂, hmem₂, hidle₂⟩ := hF.anchored.withTable h₁ h₂ hF.used
    hF.notMem (by rw [hdir₁]; exact hF.ne_dir) (by rw [hdir₁, hpde₁]; exact hF.ne_low) hF.lt
  have hdir₂ : (m₁.withTable d F).dir = m.dir := hdir₁
  have hp₂ : (m₁.withTable d F).pde (m₁.withTable d F).dir d % 2 = 1 := by
    rw [hdir₂, ← hdir₁, hpde₂, if_pos rfl]
    omega
  obtain ⟨hanch₃, hleaf, hodd, -, hmem₃, hidle₃⟩ := hanch₂.withPage h₁ h₂ hp₂ (hF.test P hP) hlt hfl
  rw [hdir₂] at hleaf hodd
  refine ⟨_, pagingMap_absent ha.recursive (by omega) ht hva hp hm hF.lt hF.ne_dir hlt hfl,
    ⟨rfl, hanch₂⟩, hanch₃, hF.cr3, hF.test, hodd, hleaf, fun hpres ↦ absurd hpres (by omega),
    fun f hf ↦ ?_, fun f hf ↦ ?_⟩
  · rw [hmem₃ f hf, hmem₂ f hf, hF.mem]
  · rw [hidle₃ f hf, hidle₂ f hf, hF.mem]

/-- `paging_map` where there is one. -/
theorem mapPresent (ha : Anchored S V m) (h₁ : 1 ≤ d) (h₂ : d < 768)
    (hp : m.pde m.dir d % 2 = 1) (hP : m.frameTest P = true) (hlt : P < 2 ^ 20) (hfl : flags < 4096)
    (c : Call) : Anchored S V ((m.log c).withPage d t P flags) ∧
      Maps S d t P m ((m.log c).withPage d t P flags) := by
  obtain ⟨hanch, hleaf, hodd, hkept, hmem, hidle⟩ := (ha.log c).withPage (m := m.log c) h₁ h₂ hp
    hP hlt hfl
  exact ⟨hanch, rfl, fun _ hf ↦ hf, hodd, hleaf, fun _ ↦ hkept, hmem, hidle⟩

end Anchored

namespace Alike

theorem recursive (h : Alike S m n) (ha : Anchored S V m) : n.Recursive :=
  ha.recursive.congr h.cr3 (h.word ha.dir.1 ha.dir.2 (by norm_num))

theorem anchored (h : Alike S m n) (ha : Anchored S V m) : Anchored S V n := by
  refine ha.congr ?_ h.cr3 (fun f hf ↦ by rw [h.test, hf]) (fun f hf ↦ ?_) (fun f hf ↦ Or.inl hf)
    fun f hf i hi ↦ h.word (ha.reads hf).1 (ha.reads hf).2 hi
  · rw [h.lastAlloc, h.totalFrames]
    exact ha.lastAlloc
  · rw [h.test, ha.own f hf]

/-- `paging_map` takes the same frame for the table, or finds the same one. -/
theorem pagingMap (h : Alike S m n) (ha : Anchored S V m) (h₁ : 1 ≤ d) (h₂ : d < 768) (ht : t < 1024)
    (hva : va >>> 22 = d ∧ (va >>> 12) &&& 0x3FF = t) (hP : m.frameTest P = true) (hlt : P < 2 ^ 20)
    (hfl : flags < 4096) :
    ∃ m' n', m.pagingMap va (P * PAGE_SIZE) flags = some m' ∧
      n.pagingMap va (P * PAGE_SIZE) flags = some n' ∧ Alike S m' n' ∧ Anchored S V m' ∧
      Maps S d t P m m' ∧ Maps S d t P n n' := by
  set c := Call.map va (P * PAGE_SIZE) flags with hc
  have hrec := h.recursive ha
  have hna := h.anchored ha
  have hpde : n.pde n.dir d = m.pde m.dir d := by
    rw [h.dir]
    exact h.pde ha.dir.1 ha.dir.2 (by omega)
  by_cases hp : m.pde m.dir d % 2 = 0
  · -- the table comes from the allocator, or is frame 0
    obtain ⟨F, m₁, n₁, hm, hn, halike, hfm, hfn⟩ : ∃ F m₁ n₁,
        (m.log c).pmmAllocFrame = (F * PAGE_SIZE, m₁) ∧
        (n.log c).pmmAllocFrame = (F * PAGE_SIZE, n₁) ∧ Alike (insert F S) m₁ n₁ ∧
        TableFrame S V F m m₁ ∧ TableFrame S V F n n₁ := by
      obtain ⟨F, hF, hm, hn⟩ | ⟨-, hm, hn⟩ := (h.log c c).pmmAllocFrame (m := m.log c) ha.lastAlloc
      · exact ⟨F, _, _, hm, hn, (h.log c c).alloc F, ha.tableFrame hF c,
          hna.tableFrame (by rw [h.free]; exact hF) c⟩
      · exact ⟨0, _, _, by rw [hm, Nat.zero_mul], by rw [hn, Nat.zero_mul],
          ((h.log c c).log _ _).mono (Set.subset_insert 0 S), ha.tableZero c, hna.tableZero c⟩
    obtain ⟨m', hrun, hpage, hanch, hmaps⟩ := ha.mapAbsent h₁ h₂ ht hva hp hP hlt hfl hm hfm
    obtain ⟨n', hrunn, hpagen, -, hmapsn⟩ := hna.mapAbsent h₁ h₂ ht hva (by rw [hpde, hp])
      (by rw [h.test, hP]) hlt hfl hn hfn
    have halike₂ : Alike S (m₁.withTable d F) (n₁.withTable d F) :=
      (halike.withTable d F).mono fun f hf ↦ hf.1.resolve_left hf.2
    refine ⟨m', n', hrun, hrunn, ?_, hanch, hmaps, hmapsn⟩
    rw [hpage.1, hpagen.1]
    exact halike₂.withPage hpage.2.dir.1 hpage.2.dir.2 (by omega) t P flags
  · have hodd : m.pde m.dir d % 2 = 1 := by omega
    obtain ⟨hanch, hmaps⟩ := ha.mapPresent h₁ h₂ hodd hP hlt hfl c
    obtain ⟨-, hmapsn⟩ := hna.mapPresent h₁ h₂ (by rw [hpde, hodd]) (by rw [h.test, hP]) hlt hfl c
    exact ⟨_, _, pagingMap_present ha.recursive (by omega) ht hva hodd hlt hfl,
      pagingMap_present hrec (by omega) ht hva (by rw [hpde, hodd]) hlt hfl,
      (h.log c c).withPage (m := m.log c) ha.dir.1 ha.dir.2 (by omega) t P flags, hanch, hmaps,
      hmapsn⟩

/-- The pages are the same frames on both sides. -/
theorem leaf (h : Alike S m n) (ha : Anchored S V m) (hd : d < 1023) (ht : t < 1024) :
    n.leaf n.dir d t = m.leaf m.dir d t := by
  have hpde := h.pde ha.dir.1 ha.dir.2 (i := d) (by omega)
  rw [h.dir]
  by_cases hp : m.pde m.dir d % 2 = 1
  · obtain ⟨hused, hS⟩ := ha.reads (Or.inr ⟨d, hd, hp, rfl⟩)
    exact leaf_congr hpde (h.word hused hS ht)
  · rw [Machine.leaf, Machine.leaf, hpde, if_pos (by omega), if_pos (by omega)]

/-- Clearing a user page. -/
theorem memset (h : Alike S m n) (ha : Anchored S V m) (h₁ : 1 ≤ d) (h₂ : d < 768) (ht : t < 1024)
    (hleaf : m.leaf m.dir d t = some F) (hF : F ∈ S) (v : UInt8) :
    ∃ m' n', m.memset (pageAddr d t) v PAGE_SIZE = some m' ∧
      n.memset (pageAddr d t) v PAGE_SIZE = some n' ∧ Alike (S \ {F}) m' n' ∧
      Anchored (S \ {F}) V m' ∧ m'.cr3 = m.cr3 ∧ (∀ f, m'.frameTest f = m.frameTest f) ∧
      ∀ f, f ≠ F → m'.mem f = m.mem f := by
  have hp := (leaf_eq_some.mp hleaf).1
  obtain ⟨-, hTS, -⟩ := ha.table d h₁ (by omega) hp
  have hFdir : F ≠ m.dir := fun heq ↦ ha.dir.2 (heq ▸ hF)
  have hFT : F ≠ m.pde m.dir d / 4096 := fun heq ↦ hTS (heq ▸ hF)
  have hpde : n.pde n.dir d = m.pde m.dir d := by
    rw [h.dir]
    exact h.pde ha.dir.1 ha.dir.2 (by omega)
  have hm := memset_page (m := m) (o := 0) (n := 4096) (by omega) ht (by norm_num) hleaf hFdir hFT v
  have hn := memset_page (m := n) (o := 0) (n := 4096) (by omega) ht (by norm_num)
    ((h.leaf ha (by omega) ht).trans hleaf) (by rw [h.dir]; exact hFdir) (by rw [hpde]; exact hFT) v
  rw [Nat.add_zero] at hm hn
  rw [PAGE_SIZE]
  refine ⟨_, _, hm, hn, h.setFrame F fun o ho ↦ by rw [splice_page _ _ ho, splice_page _ _ ho], ?_,
    rfl, fun _ ↦ rfl, fun f hf ↦ setFrame_mem_of_ne _ hf⟩
  refine ha.congr ha.lastAlloc rfl (fun _ hf ↦ hf) (fun f hf ↦ ha.own f hf.1)
    (fun f hf ↦ Or.inl hf.1) fun f hf i _ ↦ ?_
  rw [setFrame_mem_of_ne _ fun heq : f = F ↦ (ha.reads hf).2 (heq ▸ hF)]

/-- What is behind the user pages outside of `S` is the same. -/
theorem view_eq (h : Alike S m n) (ha : Anchored S V m)
    (hS : ∀ d t F, 1 ≤ d → d < 768 → t < 1024 → m.leaf m.dir d t = some F → F ∈ S →
      ∀ o < 4096, n.mem F o = m.mem F o) : n.view = m.view := by
  funext x
  by_cases hx : UserAddr x
  · obtain ⟨d, t, o, h₁, h₂, ht, ho, rfl⟩ := hx.exists_pageAddr
    rw [view_page h₁ h₂ ht ho, view_page h₁ h₂ ht ho, h.leaf ha (by omega) ht]
    apply Option.map_congr
    intro F hF
    by_cases hFS : F ∈ S
    · exact hS d t F h₁ h₂ ht hF hFS o ho
    · exact h.mem F (ha.leaf d t F (by omega) ht (Or.inl ⟨h₁, h₂⟩) hF) hFS o ho
  · rw [view_eq_none hx, view_eq_none hx]

end Alike

end Machine

end EclipseOS
