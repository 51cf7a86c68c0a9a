import EclipseOS.Directory

/-!
# Who owns a frame

Directories, tables and pages of the live address spaces each own a frame, no
frame has two owners, and the frames of the kernel have none.  Every paging
operation is an exchange in this ledger.
-/

namespace EclipseOS

open LittleEndian

/-- What a frame can be for the directory in frame `D`. -/
inductive Owner
  | dir (D : ℕ)
  | table (D d : ℕ)
  | leaf (D d t : ℕ)
  deriving DecidableEq

/-- Entries that all directories share. -/
def KernelEntry (i : ℕ) : Prop := i = 0 ∨ 768 ≤ i ∧ i < 1023

namespace Machine

variable {m m' m₁ : Machine} {B D d t i a F P S f w : ℕ} {L K : Set ℕ} {o o' : Owner} {X : Set ℕ}

/-- Frame `f` is what the owner `o` of a live directory refers to. -/
def Holds (m : Machine) (L : Set ℕ) : Owner → ℕ → Prop
  | .dir D, f => D ∈ L ∧ D = f
  | .table D d, f => D ∈ L ∧ 1 ≤ d ∧ d < 768 ∧ m.pde D d % 2 = 1 ∧ m.pde D d / 4096 = f
  | .leaf D d t, f => D ∈ L ∧ 1 ≤ d ∧ d < 768 ∧ t < 1024 ∧ m.leaf D d t = some f

/-- The frame is neither a directory nor a table of a live space. -/
def Plain (m : Machine) (L : Set ℕ) (f : ℕ) : Prop :=
  f ∉ L ∧ ∀ D ∈ L, ∀ d, 1 ≤ d → d < 768 → m.pde D d % 2 = 1 → m.pde D d / 4096 ≠ f

/-- The frame is in use and belongs to no one yet. -/
def Loose (m : Machine) (L K : Set ℕ) (f : ℕ) : Prop :=
  m.frameTest f = true ∧ f ∉ K ∧ ∀ o, ¬ m.Holds L o f

/-- `B` is the boot directory, `L` the live directories, and `K` the frames of
the kernel. -/
structure Ledger (m : Machine) (B : ℕ) (L K : Set ℕ) : Prop where
  lastAlloc : m.lastAlloc ≤ m.totalFrames
  cr3 : m.cr3 = m.dir * 4096
  loaded : m.dir ∈ L
  boot : B ∈ L
  self : ∀ D ∈ L, m.pde D 1023 % 2 = 1 ∧ m.pde D 1023 / 4096 = D
  unique : ∀ o o' f, m.Holds L o f → m.Holds L o' f → o = o'
  used : ∀ o f, m.Holds L o f → m.frameTest f = true ∧ f ∉ K
  kernel : ∀ f ∈ K, m.frameTest f = true
  shared : ∀ D ∈ L, ∀ i, KernelEntry i → m.pde D i = m.pde B i
  tables : ∀ i, KernelEntry i → m.pde B i % 2 = 1 → m.pde B i / 4096 ∈ K
  slots : ∀ i, KernelEntry i → i ≠ 1022 → m.pde B i % 2 = 1 → m.pde B 1022 % 2 = 1 →
    m.pde B i / 4096 ≠ m.pde B 1022 / 4096
  scratch : m.pde B 1022 % 2 = 1 ∨ L = {B}

theorem Loose.plain (h : m.Loose L K f) : m.Plain L f :=
  ⟨fun hf ↦ h.2.2 (.dir f) ⟨hf, rfl⟩, fun D hD d h₁ h₂ hp heq ↦
    h.2.2 (.table D d) ⟨hD, h₁, h₂, hp, heq⟩⟩

namespace Ledger

theorem recursive (h : m.Ledger B L K) : m.Recursive :=
  ⟨h.cr3, (h.self _ h.loaded).1, (h.self _ h.loaded).2⟩

theorem lt (h : m.Ledger B L K) (hD : D ∈ L) : D < 2 ^ 20 := by
  have h₁ := (h.self D hD).2
  have h₂ := m.pde_lt D 1023
  omega

theorem dir_used (h : m.Ledger B L K) (hD : D ∈ L) : m.frameTest D = true ∧ D ∉ K :=
  h.used (.dir D) D ⟨hD, rfl⟩

/-- A frame of the kernel is no directory and no table of entries 1 to 767. -/
theorem kernel_plain (h : m.Ledger B L K) (hf : f ∈ K) : m.Plain L f :=
  ⟨fun hL ↦ (h.dir_used hL).2 hf, fun D hD d h₁ h₂ hp heq ↦
    (h.used (.table D d) f ⟨hD, h₁, h₂, hp, heq⟩).2 hf⟩

/-- No table is a directory. -/
theorem table_ne (h : m.Ledger B L K) (hD : D ∈ L) (hP : P ∈ L) (h₁ : 1 ≤ d) (h₂ : d < 768)
    (hp : m.pde D d % 2 = 1) : m.pde D d / 4096 ≠ P := fun heq ↦
  Owner.noConfusion (h.unique (.table D d) (.dir P) _ ⟨hD, h₁, h₂, hp, heq⟩ ⟨hP, rfl⟩)

/-- Nor is a page. -/
theorem leaf_plain (h : m.Ledger B L K) (hf : m.Holds L (.leaf D d t) f) : m.Plain L f :=
  ⟨fun hL ↦ Owner.noConfusion (h.unique _ (.dir f) _ hf ⟨hL, rfl⟩),
    fun D' hD' d' h₁ h₂ hp heq ↦
      Owner.noConfusion (h.unique _ (.table D' d') _ hf ⟨hD', h₁, h₂, hp, heq⟩)⟩

/-- A frame taken from the allocator belongs to no one. -/
theorem free_loose (h : m.Ledger B L K) (hf : m.frameTest f = false) :
    f ∉ K ∧ ∀ o, ¬ m.Holds L o f := by
  refine ⟨fun hK ↦ ?_, fun o ho ↦ ?_⟩
  · rw [h.kernel f hK] at hf
    exact nomatch hf
  · rw [(h.used o f ho).1] at hf
    exact nomatch hf

theorem scratch_loaded (h : m.Ledger B L K) (hp : m.pde B 1022 % 2 = 1) :
    m.Scratch (m.pde B 1022 / 4096) := by
  have hshare := h.shared _ h.loaded 1022 (Or.inr (by norm_num))
  have hK := h.tables 1022 (Or.inr (by norm_num)) hp
  exact ⟨h.recursive, by rw [hshare, hp], by rw [hshare],
    fun heq ↦ (h.kernel_plain hK).1 (heq ▸ h.loaded)⟩

/-! ### Same tables -/

/-- The owners see the words of directories and their tables only. -/
theorem holds_congr (hdir : ∀ D ∈ L, ∀ d, 1 ≤ d → d < 768 → m'.pde D d = m.pde D d)
    (htable : ∀ D ∈ L, ∀ d, 1 ≤ d → d < 768 → m.pde D d % 2 = 1 →
      m'.mem (m.pde D d / 4096) = m.mem (m.pde D d / 4096)) :
    m'.Holds L o f ↔ m.Holds L o f := by
  cases o with
  | dir D => rfl
  | table D d =>
      simp only [Holds]
      refine and_congr_right fun hD ↦ and_congr_right fun h₁ ↦ and_congr_right fun h₂ ↦ ?_
      rw [hdir D hD d h₁ h₂]
  | leaf D d t =>
      simp only [Holds]
      refine and_congr_right fun hD ↦ and_congr_right fun h₁ ↦ and_congr_right fun h₂ ↦
        and_congr_right fun _ ↦ ?_
      have hd := hdir D hD d h₁ h₂
      by_cases hp : m.pde D d % 2 = 1
      · rw [leaf_congr hd (by rw [htable D hD d h₁ h₂ hp])]
      · rw [leaf_eq_some, leaf_eq_some, hd]
        simp [hp]

/-- What a change has to keep besides the two facts about owners. -/
theorem of_holds (h : m.Ledger B L K) (hlast : m'.lastAlloc ≤ m'.totalFrames)
    (hcr3 : m'.cr3 = m'.dir * 4096) (hloaded : m'.dir ∈ L)
    (hentry : ∀ D ∈ L, ∀ i, KernelEntry i ∨ i = 1023 → m'.pde D i = m.pde D i)
    (hunique : ∀ o o' f, m'.Holds L o f → m'.Holds L o' f → o = o')
    (hused : ∀ o f, m'.Holds L o f → m'.frameTest f = true ∧ f ∉ K)
    (htest : ∀ f ∈ K, m'.frameTest f = true) : m'.Ledger B L K := by
  have hB : ∀ i, KernelEntry i → m'.pde B i = m.pde B i := fun i hi ↦ hentry B h.boot i (Or.inl hi)
  have hslot : KernelEntry 1022 := Or.inr (by norm_num)
  refine ⟨hlast, hcr3, hloaded, h.boot, fun D hD ↦ ?_, hunique, hused, htest,
    fun D hD i hi ↦ ?_, fun i hi hp ↦ ?_, fun i hi hne hp hp' ↦ ?_, ?_⟩
  · rw [hentry D hD 1023 (Or.inr rfl)]
    exact h.self D hD
  · rw [hB i hi, hentry D hD i (Or.inl hi), h.shared D hD i hi]
  · rw [hB i hi] at hp ⊢
    exact h.tables i hi hp
  · rw [hB i hi] at hp ⊢
    rw [hB 1022 hslot] at hp' ⊢
    exact h.slots i hi hne hp hp'
  · rw [hB 1022 hslot]
    exact h.scratch

/-- A change of memory, of the loaded directory and of the allocator's place
that keeps directories and tables, and no bit of a frame in use. -/
theorem congr (h : m.Ledger B L K) (hlast : m'.lastAlloc ≤ m'.totalFrames)
    (hcr3 : m'.cr3 = m'.dir * 4096) (hloaded : m'.dir ∈ L)
    (hdir : ∀ D ∈ L, ∀ d, m'.pde D d = m.pde D d)
    (htable : ∀ D ∈ L, ∀ d, 1 ≤ d → d < 768 → m.pde D d % 2 = 1 →
      m'.mem (m.pde D d / 4096) = m.mem (m.pde D d / 4096))
    (htest : ∀ f, m.frameTest f = true → m'.frameTest f = true) : m'.Ledger B L K := by
  have hholds : ∀ o f, m'.Holds L o f ↔ m.Holds L o f := fun o f ↦
    holds_congr (fun D hD d _ _ ↦ hdir D hD d) htable
  refine h.of_holds hlast hcr3 hloaded (fun D hD i _ ↦ hdir D hD i) (fun o o' f ho ho' ↦ ?_)
    (fun o f ho ↦ ?_) fun f hf ↦ htest f (h.kernel f hf)
  · exact h.unique o o' f ((hholds o f).mp ho) ((hholds o' f).mp ho')
  · obtain ⟨h₁, h₂⟩ := h.used o f ((hholds o f).mp ho)
    exact ⟨htest f h₁, h₂⟩

/-- The contents of a frame that is neither directory nor table do not matter. -/
theorem setFrame (h : m.Ledger B L K) (hf : m.Plain L f) (p : Page) :
    (m.setFrame f p).Ledger B L K :=
  h.congr h.lastAlloc h.cr3 h.loaded
    (fun D hD d ↦ setFrame_pde (fun heq : f = D ↦ hf.1 (heq ▸ hD)) p d)
    (fun D hD d h₁ h₂ hp ↦ setFrame_mem_of_ne p (hf.2 D hD d h₁ h₂ hp)) fun _ ht ↦ ht

theorem log (h : m.Ledger B L K) (c : Call) : (m.log c).Ledger B L K :=
  h.congr h.lastAlloc h.cr3 h.loaded (fun _ _ _ ↦ rfl) (fun _ _ _ _ _ _ ↦ rfl) fun _ ht ↦ ht

/-- An allocation: the new frame is loose. -/
theorem alloc (h : m.Ledger B L K) (hF : F ∈ m.free) :
    (m.withAlloc F).Ledger B L K ∧ (m.withAlloc F).Loose L K F := by
  obtain ⟨hlt, htest⟩ := (mem_free m).mp hF
  obtain ⟨hK, hno⟩ := h.free_loose htest
  refine ⟨h.congr hlt.le h.cr3 h.loaded (fun _ _ _ ↦ rfl) (fun _ _ _ _ _ _ ↦ rfl)
    fun f hf ↦ by simp [hf], by simp, hK, hno⟩

/-- A live directory is loaded. -/
theorem switch (h : m.Ledger B L K) (hD : D ∈ L) :
    ({ m with cr3 := D * PAGE_SIZE } : Machine).Ledger B L K := by
  have hdir : ({ m with cr3 := D * PAGE_SIZE } : Machine).dir = D :=
    Nat.mul_div_cancel D (by decide)
  exact h.congr h.lastAlloc (congrArg (· * 4096) hdir.symm) (by rwa [hdir]) (fun _ _ _ ↦ rfl)
    (fun _ _ _ _ _ _ ↦ rfl) fun _ ht ↦ ht

/-! ### Entries -/

/-- A cleared frame becomes table `d` of the loaded directory. -/
theorem withTable (h : m.Ledger B L K) (h₁ : 1 ≤ d) (h₂ : d < 768) (hp : m.pde m.dir d % 2 = 0)
    (hF : m.Loose L K F) (hlt : F < 2 ^ 20) :
    (m.withTable d F).Ledger B L K ∧ ∀ o f, (m.withTable d F).Holds L o f ↔
      m.Holds L o f ∨ o = .table m.dir d ∧ f = F := by
  obtain ⟨hFL, hFT⟩ := hF.plain
  have hne : ∀ D ∈ L, F ≠ D := fun D hD heq ↦ hFL (heq ▸ hD)
  have hpde : ∀ D ∈ L, ∀ i, (m.withTable d F).pde D i =
      if D = m.dir ∧ i = d then F * 4096 + 3 else m.pde D i := by
    intro D hD i
    rw [Machine.withTable, setFrame_pde (hne D hD), pde, word_setWord,
      Nat.mod_eq_of_lt (by omega : F * 4096 + 3 < 2 ^ 32), pde]
  have hleaf : ∀ D ∈ L, ∀ i, 1 ≤ i → i < 768 → ∀ t, t < 1024 →
      (m.withTable d F).leaf D i t = m.leaf D i t := by
    intro D hD i hi₁ hi₂ t ht
    have hi := hpde D hD i
    by_cases hDi : D = m.dir ∧ i = d
    · obtain ⟨rfl, rfl⟩ := hDi
      rw [if_pos ⟨rfl, rfl⟩] at hi
      have hpte : (m.withTable i F).pte m.dir i t = 0 := by
        rw [pte, hi, show (F * 4096 + 3) / 4096 = F by omega, Machine.withTable, setFrame_mem_self,
          word_splice_page _ _ ht, word_zero]
      rw [leaf, leaf, if_pos hp, hpte]
      simp
    · rw [if_neg hDi] at hi
      by_cases hpi : m.pde D i % 2 = 1
      · refine leaf_congr hi ?_
        have hT := hFT D hD i hi₁ hi₂ hpi
        have hTdir := h.table_ne hD h.loaded hi₁ hi₂ hpi
        rw [Machine.withTable, setFrame_mem_of_ne _ hT, setWord_mem_of_ne _ _ hTdir]
      · rw [leaf, leaf, hi, if_pos (by omega), if_pos (by omega)]
  have hholds : ∀ o f, (m.withTable d F).Holds L o f ↔
      m.Holds L o f ∨ o = .table m.dir d ∧ f = F := by
    intro o f
    cases o with
    | dir D => simp [Holds]
    | table D i =>
        simp only [Holds, Owner.table.injEq]
        by_cases hDi : D = m.dir ∧ i = d
        · obtain ⟨rfl, rfl⟩ := hDi
          rw [hpde _ h.loaded, if_pos ⟨rfl, rfl⟩, show (F * 4096 + 3) / 4096 = F by omega]
          have hodd : (F * 4096 + 3) % 2 = 1 := by omega
          simp [h.loaded, h₁, h₂, hp, hodd, eq_comm]
        · by_cases hD : D ∈ L
          · rw [hpde D hD, if_neg hDi]
            simp [hDi]
          · simp [hD, hDi]
    | leaf D i t =>
        simp only [Holds, reduceCtorEq, false_and, or_false]
        refine and_congr_right fun hD ↦ and_congr_right fun hi₁ ↦ and_congr_right fun hi₂ ↦
          and_congr_right fun ht ↦ ?_
        rw [hleaf D hD i hi₁ hi₂ t ht]
  refine ⟨h.of_holds h.lastAlloc h.cr3 h.loaded (fun D hD i hi ↦ ?_) (fun o o' f ho ho' ↦ ?_)
    (fun o f ho ↦ ?_) h.kernel, hholds⟩
  · rw [hpde D hD, if_neg]
    rintro ⟨-, rfl⟩
    obtain (rfl | hi) | hi := hi <;> omega
  · rcases (hholds o f).mp ho with ho | ⟨rfl, rfl⟩ <;>
      rcases (hholds o' f).mp ho' with ho' | ⟨rfl, heq⟩
    · exact h.unique o o' f ho ho'
    · exact absurd (heq ▸ ho) (hF.2.2 o)
    · exact absurd ho' (hF.2.2 o')
    · rfl
  · rcases (hholds o f).mp ho with ho | ⟨rfl, rfl⟩
    · exact h.used o f ho
    · exact ⟨hF.1, hF.2.1⟩

/-- Entry `t` of table `d` of the loaded directory gets a new word, and the
directory's own entry new flags. -/
theorem setEntry (h : m.Ledger B L K) (h₁ : 1 ≤ d) (h₂ : d < 768) (ht : t < 1024)
    (hp : m.pde m.dir d % 2 = 1) {v : ℕ} (hv : v % 2 = 1) (hvT : v / 4096 = m.pde m.dir d / 4096)
    (hw : w < 2 ^ 32) (hnew : w % 2 = 1 → m.Loose L K (w / 4096)) :
    ((m.setWord m.dir d v).setWord (m.pde m.dir d / 4096) t w).Ledger B L K ∧
      ∀ o f, ((m.setWord m.dir d v).setWord (m.pde m.dir d / 4096) t w).Holds L o f ↔
        (o ≠ .leaf m.dir d t ∧ m.Holds L o f) ∨ (o = .leaf m.dir d t ∧ w % 2 = 1 ∧ f = w / 4096) := by
  set T := m.pde m.dir d / 4096 with hT
  set m' := (m.setWord m.dir d v).setWord T t w with hm'
  have hTheld : m.Holds L (.table m.dir d) T := ⟨h.loaded, h₁, h₂, hp, rfl⟩
  have hTL : ∀ D ∈ L, T ≠ D := fun D hD ↦ h.table_ne h.loaded hD h₁ h₂ hp
  have hv32 : v < 2 ^ 32 := by
    have := m.pde_lt m.dir d
    omega
  have hpde : ∀ D ∈ L, ∀ i, m'.pde D i = if D = m.dir ∧ i = d then v else m.pde D i := by
    intro D hD i
    rw [hm', setWord, setFrame_pde (hTL D hD), pde, word_setWord, Nat.mod_eq_of_lt hv32, pde]
  have hodd : ∀ D ∈ L, ∀ i, m'.pde D i % 2 = m.pde D i % 2 ∧
      m'.pde D i / 4096 = m.pde D i / 4096 := by
    intro D hD i
    rw [hpde D hD i]
    split
    · next hDi =>
        obtain ⟨rfl, rfl⟩ := hDi
        exact ⟨hv.trans hp.symm, hvT⟩
    · exact ⟨rfl, rfl⟩
  have hword : ∀ D ∈ L, ∀ i, 1 ≤ i → i < 768 → m.pde D i % 2 = 1 → ∀ s,
      m'.pte D i s = if D = m.dir ∧ i = d ∧ s = t then w else m.pte D i s := by
    intro D hD i hi₁ hi₂ hpi s
    have hTi := h.table_ne hD h.loaded hi₁ hi₂ hpi
    rw [pte, (hodd D hD i).2, hm', word_setWord, setWord_mem_of_ne _ _ hTi, Nat.mod_eq_of_lt hw, pte]
    refine if_congr ⟨?_, ?_⟩ rfl rfl
    · rintro ⟨heq, rfl⟩
      have := h.unique (.table D i) _ _ ⟨hD, hi₁, hi₂, hpi, heq⟩ hTheld
      simp only [Owner.table.injEq] at this
      exact ⟨this.1, this.2, rfl⟩
    · rintro ⟨rfl, rfl, rfl⟩
      exact ⟨rfl, rfl⟩
  have hholds : ∀ o f, m'.Holds L o f ↔ (o ≠ .leaf m.dir d t ∧ m.Holds L o f) ∨
      (o = .leaf m.dir d t ∧ w % 2 = 1 ∧ f = w / 4096) := by
    intro o f
    cases o with
    | dir D => simp [Holds]
    | table D i =>
        simp only [Holds, ne_eq, reduceCtorEq, not_false_eq_true, true_and, false_and, or_false]
        refine and_congr_right fun hD ↦ ?_
        rw [(hodd D hD i).1, (hodd D hD i).2]
    | leaf D i s =>
        by_cases hD : D ∈ L
        · simp only [Holds, leaf_eq_some, ne_eq, Owner.leaf.injEq]
          by_cases hrange : 1 ≤ i ∧ i < 768 ∧ m.pde D i % 2 = 1
          · obtain ⟨hi₁, hi₂, hpi⟩ := hrange
            rw [(hodd D hD i).1, hword D hD i hi₁ hi₂ hpi s]
            by_cases hDi : D = m.dir ∧ i = d ∧ s = t
            · obtain ⟨rfl, rfl, rfl⟩ := hDi
              simp [hD, hi₁, hi₂, hpi, ht, eq_comm]
            · simp [hDi]
          · have hDi : ¬ (D = m.dir ∧ i = d ∧ s = t) := by
              rintro ⟨rfl, rfl, rfl⟩
              exact hrange ⟨h₁, h₂, hp⟩
            rw [(hodd D hD i).1]
            simp only [hDi, not_false_eq_true, true_and, false_and, or_false]
            tauto
        · have hDi : D ≠ m.dir := fun heq ↦ hD (heq ▸ h.loaded)
          simp [Holds, hD, hDi]
  refine ⟨h.of_holds h.lastAlloc h.cr3 h.loaded (fun D hD i hi ↦ ?_) (fun o o' f ho ho' ↦ ?_)
    (fun o f ho ↦ ?_) h.kernel, hholds⟩
  · rw [hpde D hD, if_neg]
    rintro ⟨-, rfl⟩
    obtain (rfl | hi) | hi := hi <;> omega
  · rcases (hholds o f).mp ho with ⟨-, ho⟩ | ⟨rfl, hodd, rfl⟩ <;>
      rcases (hholds o' _).mp ho' with ⟨-, ho'⟩ | ⟨rfl, hodd', heq⟩
    · exact h.unique o o' f ho ho'
    · exact absurd (heq ▸ ho) ((hnew hodd').2.2 o)
    · exact absurd ho' ((hnew hodd).2.2 o')
    · rfl
  · rcases (hholds o f).mp ho with ⟨-, ho⟩ | ⟨rfl, hodd, rfl⟩
    · exact h.used o f ho
    · exact ⟨(hnew hodd).1, (hnew hodd).2.1⟩

end Ledger

end Machine

end EclipseOS
