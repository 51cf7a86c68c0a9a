import EclipseOS.UserMemory

/-!
# Mapping pages

A loose frame mapped into the loaded space shows its bytes at the page's
addresses.  Whatever a space takes from the allocator, frames that stay free
and frames of other spaces keep their bytes.
-/

namespace EclipseOS

open LittleEndian

namespace Machine

variable {m m' m'' m₁ : Machine} {B D d t i a n o F G P S f w va flags : ℕ} {L K : Set ℕ}
variable {X Y : Finset ℕ}

/-- The loaded space got the frames of `X`; only its own frames changed, and no
entry of the kernel. -/
structure Grows (L : Set ℕ) (m m' : Machine) (X : Finset ℕ) : Prop where
  cr3 : m'.cr3 = m.cr3
  test : ∀ f, m.frameTest f = true → m'.frameTest f = true
  used : ∀ f ∈ X, m'.frameTest f = true
  mem : ∀ f, f ∉ X → (∀ o, o.space = m.dir → ¬ m.Holds L o f) → m'.mem f = m.mem f
  holds : ∀ o f, m'.Holds L o f → m.Holds L o f ∨ (o.space = m.dir ∧ f ∈ X)
  others : ∀ o f, o.space ≠ m.dir → m.Holds L o f → m'.Holds L o f
  entry : ∀ D ∈ L, ∀ i, KernelEntry i ∨ i = 1023 → m'.pde D i = m.pde D i

namespace Grows

theorem refl (L : Set ℕ) (m : Machine) : Grows L m m ∅ :=
  ⟨rfl, fun _ hf ↦ hf, by simp, fun _ _ _ ↦ rfl, fun _ _ ho ↦ Or.inl ho, fun _ _ _ ho ↦ ho,
    fun _ _ _ _ ↦ rfl⟩

theorem dir (h : Grows L m m' X) : m'.dir = m.dir := by rw [Machine.dir, h.cr3, Machine.dir]

theorem trans (h : Grows L m m' X) (h' : Grows L m' m'' Y) : Grows L m m'' (X ∪ Y) where
  cr3 := h'.cr3.trans h.cr3
  test f hf := h'.test f (h.test f hf)
  used f hf := (Finset.mem_union.mp hf).elim (fun hX ↦ h'.test f (h.used f hX)) (h'.used f)
  mem f hf hno := by
    rw [Finset.mem_union, not_or] at hf
    rw [h'.mem f hf.2 fun o ho hheld ↦ ?_, h.mem f hf.1 hno]
    rw [h.dir] at ho
    obtain hold | ⟨-, hX⟩ := h.holds o f hheld
    · exact hno o ho hold
    · exact hf.1 hX
  holds o f ho := by
    obtain ho | ⟨hspace, hY⟩ := h'.holds o f ho
    · obtain ho | ⟨hspace, hX⟩ := h.holds o f ho
      · exact Or.inl ho
      · exact Or.inr ⟨hspace, Finset.mem_union_left _ hX⟩
    · exact Or.inr ⟨hspace.trans h.dir, Finset.mem_union_right _ hY⟩
  others o f hspace ho := h'.others o f (h.dir ▸ hspace) (h.others o f hspace ho)
  entry D hD i hi := (h'.entry D hD i hi).trans (h.entry D hD i hi)

/-- A frame that is free afterwards has the bytes it had. -/
theorem free_mem (h : Grows L m m' X) (hled : m.Ledger B L K) (hf : m'.frameTest f = false) :
    m'.mem f = m.mem f := by
  refine h.mem f (fun hX ↦ ?_) fun o _ ho ↦ ?_
  · rw [h.used f hX] at hf
    exact nomatch hf
  · rw [h.test f (hled.used o f ho).1] at hf
    exact nomatch hf

theorem log (L : Set ℕ) (m : Machine) (c : Call) : Grows L m (m.log c) ∅ :=
  ⟨rfl, fun _ hf ↦ hf, by simp, fun _ _ _ ↦ rfl, fun _ _ ho ↦ Or.inl ho, fun _ _ _ ho ↦ ho,
    fun _ _ _ _ ↦ rfl⟩

theorem alloc (L : Set ℕ) (m : Machine) (F : ℕ) : Grows L m (m.withAlloc F) {F} :=
  ⟨rfl, fun f hf ↦ by simp [hf], by simp, fun _ _ _ ↦ rfl, fun _ _ ho ↦ Or.inl ho,
    fun _ _ _ ho ↦ ho, fun _ _ _ _ ↦ rfl⟩

theorem mono (h : Grows L m m' X) (hXY : X ⊆ Y) (hY : ∀ f ∈ Y, m'.frameTest f = true) :
    Grows L m m' Y :=
  ⟨h.cr3, h.test, hY, fun f hf ↦ h.mem f fun hX ↦ hf (hXY hX), fun o f ho ↦
    (h.holds o f ho).imp_right fun hX ↦ ⟨hX.1, hXY hX.2⟩, h.others, h.entry⟩

end Grows

/-- A frame that belongs to no one and was not taken. -/
theorem Grows.loose (h : Grows L m m' X) (hf : m.Loose L K f) (hX : f ∉ X) : m'.Loose L K f :=
  Ledger.Loose.congr hf (h.test f hf.1) fun o ho ↦
    (h.holds o f ho).resolve_right fun hmem ↦ hX hmem.2

/-- Frame 0 is in use, and belongs to no one while there are free frames. -/
structure Spared (L K : Set ℕ) (m : Machine) : Prop where
  used : m.frameTest 0 = true
  loose : m.free.Nonempty → m.Loose L K 0

theorem Pokes.grows (h : Pokes L m m') (hled : m.Ledger B L K) : Grows L m m' ∅ :=
  ⟨h.cr3, fun f hf ↦ by rw [h.frameTest, hf], by simp,
    fun f _ hno ↦ h.mem f fun _ _ hheld ↦ hno _ rfl hheld,
    fun _ _ ho ↦ Or.inl ((h.holds hled).mp ho), fun _ _ _ ho ↦ (h.holds hled).mpr ho,
    fun D hD i _ ↦ by rw [pde, (h.plain hled).1 D hD, pde]⟩

/-- The view of the pages that did not move and kept their bytes. -/
theorem view_congr (hleaf : m'.leaf m'.dir d t = m.leaf m.dir d t) (h₁ : 1 ≤ d) (h₂ : d < 768)
    (ht : t < 1024) (ho : o < 4096)
    (hmem : ∀ F, m.leaf m.dir d t = some F → m'.mem F o = m.mem F o) :
    m'.view (pageAddr d t + o) = m.view (pageAddr d t + o) := by
  rw [view_page h₁ h₂ ht ho, view_page h₁ h₂ ht ho, hleaf]
  exact Option.map_congr hmem

/-- Directory entries of the loaded directory that have no table. -/
def missing (m : Machine) (ds : Finset ℕ) : Finset ℕ :=
  ds.filter fun d ↦ m.pde m.dir d % 2 = 0

namespace Ledger

/-- Leaves are what the ledger holds. -/
theorem leaf_iff (h : m.Ledger B L K) (h₁ : 1 ≤ d) (h₂ : d < 768) (ht : t < 1024) :
    m.leaf m.dir d t = some F ↔ m.Holds L (.leaf m.dir d t) F := by
  simp [Holds, h.loaded, h₁, h₂, ht]

/-- A change that keeps the loaded directory and the pages of the ledger shows
the same bytes, if these are kept as well. -/
theorem view_eq (h : m.Ledger B L K) (h' : m'.Ledger B L K) (hdir : m'.dir = m.dir)
    (hholds : ∀ d t f, m'.Holds L (.leaf m.dir d t) f ↔ m.Holds L (.leaf m.dir d t) f)
    (hmem : ∀ d t f, m.Holds L (.leaf m.dir d t) f → m'.mem f = m.mem f) : m'.view = m.view := by
  funext x
  by_cases hx : UserAddr x
  · obtain ⟨d, t, o, h₁, h₂, ht, ho, rfl⟩ := hx.exists_pageAddr
    refine view_congr (Option.ext fun F ↦ ?_) h₁ h₂ ht ho fun F hF ↦ ?_
    · rw [h'.leaf_iff h₁ h₂ ht, h.leaf_iff h₁ h₂ ht, hdir]
      exact hholds d t F
    · rw [hmem d t F ((h.leaf_iff h₁ h₂ ht).mp hF)]
  · rw [view_eq_none hx, view_eq_none hx]

/-- A change that moves page `(d, t)` to the frame `P`. -/
theorem view_fill (h : m.Ledger B L K) (h' : m'.Ledger B L K) (hdir : m'.dir = m.dir) (h₁ : 1 ≤ d)
    (h₂ : d < 768) (ht : t < 1024)
    (hholds : ∀ o f, m'.Holds L o f ↔ (o ≠ .leaf m.dir d t ∧ m.Holds L o f) ∨
      (o = .leaf m.dir d t ∧ f = P))
    (hmem : ∀ d t f, m.Holds L (.leaf m.dir d t) f → m'.mem f = m.mem f) :
    m'.view = fill m.view (pageAddr d t) 4096 (m'.mem P) := by
  funext x
  by_cases hx : UserAddr x
  · obtain ⟨d', t', o, h₁', h₂', ht', ho, rfl⟩ := hx.exists_pageAddr
    by_cases heq : d' = d ∧ t' = t
    · obtain ⟨rfl, rfl⟩ := heq
      have hleaf : m'.leaf m'.dir d' t' = some P := by
        rw [h'.leaf_iff h₁ h₂ ht, hdir, hholds]
        exact Or.inr ⟨rfl, rfl⟩
      rw [fill_apply_add ho, view_page h₁ h₂ ht ho, hleaf, Option.map_some]
    · have hout : fill m.view (pageAddr d t) 4096 (m'.mem P) (pageAddr d' t' + o) =
          m.view (pageAddr d' t' + o) := by
        rw [fill, if_neg]
        rintro ⟨hle, hlt⟩
        refine heq ?_
        have hadd := Nat.add_sub_cancel' hle
        have := pageAddr_inj ht (by omega) ht' ho hadd
        exact ⟨this.1.symm, this.2.1.symm⟩
      rw [hout]
      refine view_congr (Option.ext fun F ↦ ?_) h₁' h₂' ht' ho fun F hF ↦ ?_
      · rw [h'.leaf_iff h₁' h₂' ht', h.leaf_iff h₁' h₂' ht', hdir, hholds]
        have : Owner.leaf m.dir d' t' ≠ .leaf m.dir d t := by simpa using heq
        simp [this]
      · rw [hmem d' t' F ((h.leaf_iff h₁' h₂' ht').mp hF)]
  · have hout : fill m.view (pageAddr d t) 4096 (m'.mem P) x = m.view x := by
      rw [fill, if_neg]
      rintro ⟨hle, hlt⟩
      exact hx (by
        have := userAddr_pageAddr (o := x - pageAddr d t) h₁ h₂ ht (by omega)
        rwa [Nat.add_sub_cancel' hle] at this)
    rw [hout, view_eq_none hx, view_eq_none hx]

/-- The frames of the loaded directory and of its tables. -/
theorem ne_of_no_owner (h : m.Ledger B L K) (hno : ∀ o, o.space = m.dir → ¬ m.Holds L o f) :
    f ≠ m.dir ∧ ∀ d, 1 ≤ d → d < 768 → m.pde m.dir d % 2 = 1 → f ≠ m.pde m.dir d / 4096 :=
  ⟨fun heq ↦ hno (.dir m.dir) rfl ⟨h.loaded, heq.symm⟩,
    fun d h₁ h₂ hp heq ↦ hno (.table m.dir d) rfl ⟨h.loaded, h₁, h₂, hp, heq.symm⟩⟩

/-- Which entries of the directory are present after `withPage`. -/
theorem withPage_parity (hdir : m.pde m.dir d / 4096 ≠ m.dir) (hp : m.pde m.dir d % 2 = 1) :
    (m.withPage d t P flags).pde m.dir i % 2 = 0 ↔ i ≠ d ∧ m.pde m.dir i % 2 = 0 := by
  rw [Machine.withPage, setWord, setFrame_pde hdir, pde, word_setWord]
  by_cases hi : i = d
  · subst hi
    have hodd : (m.pde m.dir i ||| (flags &&& PAGE_USER)) % 2 = 1 := by
      obtain hu | hu := and_user_cases flags <;> rw [hu]
      · simpa using hp
      · rw [or_even_mod (by norm_num), hp]
    rw [if_pos ⟨rfl, rfl⟩]
    omega
  · rw [if_neg fun heq ↦ hi heq.2]
    simp [hi, pde]

/-- Entries of the kernel stay. -/
theorem withPage_entry (h : m.Ledger B L K) (h₁ : 1 ≤ d) (h₂ : d < 768) (hp : m.pde m.dir d % 2 = 1)
    (hD : D ∈ L) (hi : KernelEntry i ∨ i = 1023) :
    (m.withPage d t P flags).pde D i = m.pde D i := by
  have hTD := h.table_ne h.loaded hD h₁ h₂ hp
  rw [Machine.withPage, setWord, setFrame_pde hTD, pde, word_setWord, if_neg, pde]
  rintro ⟨-, rfl⟩
  obtain (rfl | hi) | hi := hi <;> omega

theorem withTable_entry (h₁ : 1 ≤ d) (h₂ : d < 768) (hF : m.Loose L K F) (hD : D ∈ L)
    (hi : KernelEntry i ∨ i = 1023) : (m.withTable d F).pde D i = m.pde D i := by
  have hFD : F ≠ D := fun heq ↦ hF.plain.1 (heq ▸ hD)
  rw [Machine.withTable, setFrame_pde hFD, pde, word_setWord, if_neg, pde]
  rintro ⟨-, rfl⟩
  obtain (rfl | hi) | hi := hi <;> omega

/-- The loose frame `P` is mapped where there is a table. -/
theorem withPage_view (h : m.Ledger B L K) (h₁ : 1 ≤ d) (h₂ : d < 768) (ht : t < 1024)
    (hp : m.pde m.dir d % 2 = 1) (hP : m.Loose L K P) (hlt : P < 2 ^ 20) (hfl : flags < 4096) :
    Grows L m (m.withPage d t P flags) {P} ∧
      (m.withPage d t P flags).view = fill m.view (pageAddr d t) 4096 (m.mem P) ∧
      (m.withPage d t P flags).mem P = m.mem P := by
  obtain ⟨hled, hholds⟩ := h.withPage h₁ h₂ ht hp hP hlt hfl
  have hmem : ∀ f, f ≠ m.dir → f ≠ m.pde m.dir d / 4096 → (m.withPage d t P flags).mem f = m.mem f := by
    intro f hdir htable
    rw [Machine.withPage, setWord_mem_of_ne _ _ htable, setWord_mem_of_ne _ _ hdir]
  have hPmem : (m.withPage d t P flags).mem P = m.mem P :=
    hmem P (fun heq ↦ hP.plain.1 (heq ▸ h.loaded)) fun heq ↦ hP.plain.2 _ h.loaded d h₁ h₂ hp heq.symm
  refine ⟨⟨rfl, fun _ hf ↦ hf, fun f hf ↦ ?_, fun f _ hno ↦ ?_, fun o f ho ↦ ?_,
    fun o f hspace ho ↦ (hholds o f).mpr (Or.inl ⟨fun heq ↦ hspace (heq ▸ rfl), ho⟩),
    fun D hD i hi ↦ h.withPage_entry h₁ h₂ hp hD hi⟩, ?_, hPmem⟩
  · rw [Finset.mem_singleton.mp hf]
    exact hP.1
  · obtain ⟨hdir, htable⟩ := h.ne_of_no_owner hno
    exact hmem f hdir (htable d h₁ h₂ hp)
  · obtain ⟨-, ho⟩ | ⟨rfl, rfl⟩ := (hholds o f).mp ho
    · exact Or.inl ho
    · exact Or.inr ⟨rfl, Finset.mem_singleton_self _⟩
  · rw [h.view_fill hled rfl h₁ h₂ ht hholds fun d' t' f hf ↦ ?_, hPmem]
    have hplain := h.leaf_plain hf
    exact hmem f (fun heq ↦ hplain.1 (heq ▸ h.loaded)) fun heq ↦
      hplain.2 _ h.loaded d h₁ h₂ hp heq.symm

/-- A new table shows nothing. -/
theorem withTable_view (h : m.Ledger B L K) (h₁ : 1 ≤ d) (h₂ : d < 768) (hp : m.pde m.dir d % 2 = 0)
    (hF : m.Loose L K F) (hlt : F < 2 ^ 20) :
    Grows L m (m.withTable d F) {F} ∧ (m.withTable d F).view = m.view ∧
      ∀ f, f ≠ F → f ≠ m.dir → (m.withTable d F).mem f = m.mem f := by
  obtain ⟨hled, hholds⟩ := h.withTable h₁ h₂ hp hF hlt
  have hmem : ∀ f, f ≠ F → f ≠ m.dir → (m.withTable d F).mem f = m.mem f := by
    intro f hfF hdir
    rw [Machine.withTable, setFrame_mem_of_ne _ hfF, setWord_mem_of_ne _ _ hdir]
  refine ⟨⟨rfl, fun _ hf ↦ hf, fun f hf ↦ ?_, fun f hfF hno ↦ ?_, fun o f ho ↦ ?_,
    fun o f _ ho ↦ (hholds o f).mpr (Or.inl ho),
    fun D hD i hi ↦ withTable_entry h₁ h₂ hF hD hi⟩, ?_, hmem⟩
  · rw [Finset.mem_singleton.mp hf]
    exact hF.1
  · exact hmem f (by simpa using hfF) (h.ne_of_no_owner hno).1
  · obtain ho | ⟨rfl, rfl⟩ := (hholds o f).mp ho
    · exact Or.inl ho
    · exact Or.inr ⟨rfl, Finset.mem_singleton_self _⟩
  · refine h.view_eq hled rfl (fun d' t' f ↦ ?_) fun d' t' f hf ↦ ?_
    · rw [hholds]
      simp
    · refine hmem f (fun heq ↦ hF.2.2 _ (heq ▸ hf)) fun heq ↦ (h.leaf_plain hf).1 (heq ▸ h.loaded)

/-- `paging_map` where there is a table. -/
theorem mapPresent (h : m.Ledger B L K) (h₁ : 1 ≤ d) (h₂ : d < 768) (ht : t < 1024)
    (hva : va >>> 22 = d ∧ (va >>> 12) &&& 0x3FF = t) (hp : m.pde m.dir d % 2 = 1)
    (hP : m.Loose L K P) (hlt : P < 2 ^ 20) (hfl : flags < 4096) :
    ∃ m', m.pagingMap va (P * PAGE_SIZE) flags = some m' ∧ m'.Ledger B L K ∧ Grows L m m' {P} ∧
      m'.free = m.free ∧ m'.view = fill m.view (pageAddr d t) 4096 (m.mem P) ∧
      ∀ i, m'.pde m.dir i % 2 = 0 ↔ i ≠ d ∧ m.pde m.dir i % 2 = 0 := by
  set c := Call.map va (P * PAGE_SIZE) flags with hc
  have hrun := pagingMap_present h.recursive (by omega) ht hva hp hlt hfl
  have hP₁ : (m.log c).Loose L K P := hP
  obtain ⟨hled₁, -⟩ := (h.log c).withPage h₁ h₂ ht hp hP₁ hlt hfl
  obtain ⟨hgrow₁, hview₁, -⟩ := (h.log c).withPage_view h₁ h₂ ht hp hP₁ hlt hfl
  have hdirP := h.table_ne h.loaded h.loaded h₁ h₂ hp
  have hgrow := (Grows.log L m c).trans hgrow₁
  rw [Finset.empty_union] at hgrow
  exact ⟨_, hrun, hled₁, hgrow, rfl, hview₁, fun i ↦ withPage_parity (m := m.log c) hdirP hp⟩

/-- `paging_map` where there is none, with what the allocator answers. -/
theorem mapAbsent (h : m.Ledger B L K) (h₁ : 1 ≤ d) (h₂ : d < 768) (ht : t < 1024)
    (hva : va >>> 22 = d ∧ (va >>> 12) &&& 0x3FF = t) (hp : m.pde m.dir d % 2 = 0)
    (hP : m.Loose L K P) (hlt : P < 2 ^ 20) (hfl : flags < 4096)
    (halloc : (m.log (.map va (P * PAGE_SIZE) flags)).pmmAllocFrame = (F * PAGE_SIZE, m₁))
    (hgrow : Grows L m m₁ {F}) (hled₁ : m₁.Ledger B L K) (hF : m₁.Loose L K F) (hFlt : F < 2 ^ 20)
    (hPF : P ≠ F) :
    ∃ m', m.pagingMap va (P * PAGE_SIZE) flags = some m' ∧ m'.Ledger B L K ∧ Grows L m m' {F, P} ∧
      m'.free = m₁.free ∧ m'.view = fill m.view (pageAddr d t) 4096 (m.mem P) ∧
      ∀ i, m'.pde m.dir i % 2 = 0 ↔ i ≠ d ∧ m.pde m.dir i % 2 = 0 := by
  have hm₁ : m₁ = (m.log (.map va (P * PAGE_SIZE) flags)).pmmAllocFrame.2 := by rw [halloc]
  have hmem₁ : m₁.mem = m.mem := by simp [hm₁]
  have hdir₁ : m₁.dir = m.dir := by simp [hm₁]
  have hpde₁ : ∀ D i, m₁.pde D i = m.pde D i := fun D i ↦ by rw [pde, hmem₁, pde]
  have hview₁ : m₁.view = m.view := by
    have hcr3₁ : m₁.cr3 = m.cr3 := by simp [hm₁]
    have hpeek : m₁.peek = m.peek := by
      funext p
      rw [peek, hmem₁, peek]
    funext x
    simp only [view, load8, translate, hcr3₁, hmem₁, hpeek]
  have hp₁ : m₁.pde m₁.dir d % 2 = 0 := by rw [hdir₁, hpde₁, hp]
  have hFdir : F ≠ m.dir := fun heq ↦ hF.plain.1 (heq ▸ h.loaded)
  have hrun := pagingMap_absent h.recursive (by omega) ht hva hp halloc hFlt hFdir hlt hfl
  obtain ⟨hled₂, hholds₂⟩ := hled₁.withTable h₁ h₂ hp₁ hF hFlt
  obtain ⟨hgrow₂, hview₂, hmem₂⟩ := hled₁.withTable_view h₁ h₂ hp₁ hF hFlt
  set m₂ := m₁.withTable d F with hm₂
  have hdir₂ : m₂.dir = m.dir := hdir₁
  have hpde₂ : ∀ i, m₂.pde m.dir i = if i = d then F * 4096 + 3 else m.pde m.dir i := by
    intro i
    rw [hm₂, Machine.withTable, setFrame_pde hFdir, pde, word_setWord,
      Nat.mod_eq_of_lt (by omega : F * 4096 + 3 < 2 ^ 32), hdir₁, hmem₁]
    simp only [true_and, pde]
  have hp₂ : m₂.pde m₂.dir d % 2 = 1 := by
    rw [hdir₂, hpde₂, if_pos rfl]
    omega
  have hP₂ : m₂.Loose L K P := by
    refine Loose.congr hP ?_ fun o ho ↦ ?_
    · rw [hm₂, Machine.withTable, setFrame_frameTest, setWord_frameTest]
      exact hgrow.test P hP.1
    · obtain hold | ⟨-, hmem⟩ := (hgrow.trans hgrow₂).holds o P ho
      · exact hold
      · exact absurd hmem (by simp [hPF])
  obtain ⟨hled₃, -⟩ := hled₂.withPage h₁ h₂ ht hp₂ hP₂ hlt hfl
  obtain ⟨hgrow₃, hview₃, -⟩ := hled₂.withPage_view h₁ h₂ ht hp₂ hP₂ hlt hfl
  have hset : {F} ∪ {F} ∪ {P} = ({F, P} : Finset ℕ) := by
    ext
    simp
  refine ⟨_, hrun, hled₃, hset ▸ (hgrow.trans hgrow₂).trans hgrow₃, rfl, ?_, fun i ↦ ?_⟩
  · rw [hview₃, hview₂, hview₁, hmem₂ P hPF fun heq ↦ hP.plain.1 (heq ▸ hdir₁ ▸ h.loaded), hmem₁]
  · have hdirP := hled₂.table_ne hled₂.loaded hled₂.loaded h₁ h₂ hp₂
    have hparity : (m₂.withPage d t P flags).pde m₂.dir i % 2 = 0 ↔
        i ≠ d ∧ m₂.pde m₂.dir i % 2 = 0 := withPage_parity hdirP hp₂
    rw [hdir₂] at hparity
    rw [hparity]
    by_cases hi : i = d
    · simp [hi]
    · rw [hpde₂, if_neg hi]

/-- `paging_map` of a loose frame at a page of user space.  When no frame is
left for the table, frame 0 becomes the table. -/
theorem mapUser (h : m.Ledger B L K) (h0 : m.Loose L K 0) (h₁ : 1 ≤ d) (h₂ : d < 768)
    (ht : t < 1024) (hva : va >>> 22 = d ∧ (va >>> 12) &&& 0x3FF = t) (hP : m.Loose L K P)
    (hP0 : P ≠ 0) (hlt : P < 2 ^ 20) (hfl : flags < 4096) :
    ∃ m' X, m.pagingMap va (P * PAGE_SIZE) flags = some m' ∧ m'.Ledger B L K ∧ Grows L m m' X ∧
      (∀ f ∈ X, f ∉ K) ∧ m'.Spared L K ∧ m'.view = fill m.view (pageAddr d t) 4096 (m.mem P) ∧
      (∀ i, m'.pde m.dir i % 2 = 0 ↔ i ≠ d ∧ m.pde m.dir i % 2 = 0) ∧
      m'.free.card = m.free.card - if m.pde m.dir d % 2 = 0 then 1 else 0 := by
  by_cases hp : m.pde m.dir d % 2 = 0
  · set c := Call.map va (P * PAGE_SIZE) flags with hc
    obtain ⟨F, hF, halloc⟩ | ⟨hnone, halloc⟩ := pmmAllocFrame_cases (m := m.log c) h.lastAlloc
    · obtain ⟨hled₁, hloose₁⟩ := (h.log c).alloc hF
      have hF0 : F ≠ 0 := free_ne hF h0.1
      have hgrow := (Grows.log L m c).trans (Grows.alloc L (m.log c) F)
      rw [Finset.empty_union] at hgrow
      obtain ⟨m', hrun, hled', hgrow', hfree, hview, hpde⟩ := h.mapAbsent h₁ h₂ ht hva hp hP hlt hfl
        halloc hgrow hled₁ hloose₁ (free_lt hF) (free_ne hF hP.1).symm
      refine ⟨m', _, hrun, hled', hgrow', ?_, ?_, hview, hpde, ?_⟩
      · simp [hloose₁.2.1, hP.2.1]
      · exact ⟨hgrow'.test 0 h0.1, fun _ ↦ hgrow'.loose h0 (by simp [hF0.symm, hP0.symm])⟩
      · rw [hfree, withAlloc_free, log_free, if_pos hp]
        exact Finset.card_erase_of_mem (s := m.free) hF
    · have hgrow : Grows L m ((m.log c).log (.alloc 0)) {0} :=
        ((Grows.log L m c).trans (Grows.log L (m.log c) _)).mono (by simp)
          (by simpa using h0.1)
      have hnone' : m.free = ∅ := hnone
      obtain ⟨m', hrun, hled', hgrow', hfree, hview, hpde⟩ := h.mapAbsent (F := 0) h₁ h₂ ht hva hp hP
        hlt hfl (by rw [halloc, Nat.zero_mul]) hgrow ((h.log c).log _) h0 (by norm_num) hP0
      refine ⟨m', _, hrun, hled', hgrow', ?_, ⟨hgrow'.test 0 h0.1, fun hne ↦ ?_⟩, hview, hpde, ?_⟩
      · simp [h0.2.1, hP.2.1]
      · rw [hfree, log_free, log_free, hnone'] at hne
        exact absurd hne Finset.not_nonempty_empty
      · rw [hfree, log_free, log_free, hnone', Finset.card_empty, Nat.zero_sub]
  · obtain ⟨m', hrun, hled', hgrow', hfree, hview, hpde⟩ := h.mapPresent h₁ h₂ ht hva (by omega) hP
      hlt hfl
    refine ⟨m', _, hrun, hled', hgrow', ?_, ?_, hview, hpde, ?_⟩
    · simp [hP.2.1]
    · exact ⟨hgrow'.test 0 h0.1, fun _ ↦ hgrow'.loose h0 (by simp [hP0.symm])⟩
    · rw [hfree, if_neg hp, Nat.sub_zero]

end Ledger

end Machine

end EclipseOS
