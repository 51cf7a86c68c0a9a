import EclipseOS.PageMap
import EclipseOS.StaleMemory

/-!
# Pages of the heap

What `sys_sbrk` keeps of the pages from the first break on: each is under
entries that let user code write, and its frame is its own and not frame 0.
Growing shows new bytes, all 0, in the pages it was asked for; shrinking takes
out the pages it was asked for together with their frames.
-/

namespace EclipseOS

open LittleEndian

namespace Machine

variable {m m' m'' m₁ : Machine} {base B D d t d' t' i f F P S v w x : ℕ} {L K : Set ℕ}
variable {X : Finset ℕ} {A A' : Set ℕ}

/-- Both levels of page `(d, t)` are present and let user code write. -/
def Writable (m : Machine) (d t : ℕ) : Prop := m.pde m.dir d % 8 = 7 ∧ m.pte m.dir d t % 8 = 7

/-- The pages of the heap, which starts at `base`, in the loaded directory. -/
structure HeapOf (base B : ℕ) (L K : Set ℕ) (m : Machine) : Prop where
  ledger : m.Ledger B L K
  zero : m.frameTest 0 = true
  tables : ∀ d, 1 ≤ d → d < 768 → m.pde m.dir d % 2 = 1 → m.pde m.dir d % 4 = 3
  pages : ∀ d t F, 1 ≤ d → d < 768 → t < 1024 → base ≤ pageAddr d t →
    pageAddr d t < USER_BRK_LIMIT → m.leaf m.dir d t = some F → F ≠ 0 ∧ m.Writable d t

/-! ## Words of directories and tables -/

namespace Ledger

theorem table_inj (h : m.Ledger B L K) (hD : D ∈ L) (h₁ : 1 ≤ d) (h₂ : d < 768)
    (hp : m.pde D d % 2 = 1) (h₁' : 1 ≤ d') (h₂' : d' < 768) (hp' : m.pde D d' % 2 = 1)
    (heq : m.pde D d' / 4096 = m.pde D d / 4096) : d' = d := by
  have := h.unique (.table D d') (.table D d) _ ⟨hD, h₁', h₂', hp', heq⟩ ⟨hD, h₁, h₂, hp, rfl⟩
  exact (Owner.table.inj this).2

/-- The words of the loaded directory and of the tables that were there. -/
theorem withTable_words (h : m.Ledger B L K) (hF : m.Loose L K F) (hlt : F < 2 ^ 20) :
    (∀ i, (m.withTable d F).pde m.dir i = if i = d then F * 4096 + 3 else m.pde m.dir i) ∧
      ∀ i s, 1 ≤ i → i < 768 → m.pde m.dir i % 2 = 1 → i ≠ d →
        (m.withTable d F).pte m.dir i s = m.pte m.dir i s := by
  obtain ⟨hFL, hFT⟩ := hF.plain
  have hpde : ∀ i, (m.withTable d F).pde m.dir i = if i = d then F * 4096 + 3 else m.pde m.dir i := by
    intro i
    rw [Machine.withTable, setFrame_pde fun heq : F = m.dir ↦ hFL (heq ▸ h.loaded), pde, word_setWord,
      Nat.mod_eq_of_lt (by omega : F * 4096 + 3 < 2 ^ 32), pde]
    simp only [true_and]
  refine ⟨hpde, fun i s hi₁ hi₂ hp hne ↦ ?_⟩
  rw [pte, hpde, if_neg hne, Machine.withTable, setFrame_mem_of_ne _ (hFT _ h.loaded i hi₁ hi₂ hp),
    setWord_mem_of_ne _ _ (h.table_ne h.loaded h.loaded hi₁ hi₂ hp), pte]

/-- An entry of a table and the flags above it. -/
theorem setEntry_words (h : m.Ledger B L K) (h₁ : 1 ≤ d) (h₂ : d < 768) (hp : m.pde m.dir d % 2 = 1)
    (hv : v < 2 ^ 32) (hvT : v / 4096 = m.pde m.dir d / 4096) (hw : w < 2 ^ 32) :
    (∀ i, ((m.setWord m.dir d v).setWord (m.pde m.dir d / 4096) t w).pde m.dir i =
      if i = d then v else m.pde m.dir i) ∧
      ∀ i s, 1 ≤ i → i < 768 → m.pde m.dir i % 2 = 1 →
        ((m.setWord m.dir d v).setWord (m.pde m.dir d / 4096) t w).pte m.dir i s =
          if i = d ∧ s = t then w else m.pte m.dir i s := by
  have hdir := h.table_ne h.loaded h.loaded h₁ h₂ hp
  have hpde : ∀ i, ((m.setWord m.dir d v).setWord (m.pde m.dir d / 4096) t w).pde m.dir i =
      if i = d then v else m.pde m.dir i := by
    intro i
    rw [setWord, setFrame_pde hdir, pde, word_setWord, Nat.mod_eq_of_lt hv, pde]
    simp only [true_and]
  refine ⟨hpde, fun i s hi₁ hi₂ hpi ↦ ?_⟩
  have hdiv : (if i = d then v else m.pde m.dir i) / 4096 = m.pde m.dir i / 4096 := by
    split
    · next heq => rw [heq, hvT]
    · rfl
  rw [pte, hpde, hdiv, word_setWord,
    setWord_mem_of_ne _ _ (h.table_ne h.loaded h.loaded hi₁ hi₂ hpi), Nat.mod_eq_of_lt hw, pte]
  refine if_congr ⟨?_, ?_⟩ rfl rfl
  · rintro ⟨heq, rfl⟩
    exact ⟨h.table_inj h.loaded h₁ h₂ hp hi₁ hi₂ hpi heq, rfl⟩
  · rintro ⟨rfl, rfl⟩
    exact ⟨rfl, rfl⟩

/-- The entry of the identity map gets other flags. -/
theorem flagEntry (h : m.Ledger B {B} K)
    (hp : m.pde B 0 % 2 = 1) (hv : v % 2 = 1) (hvT : v / 4096 = m.pde B 0 / 4096) (hlt : v < 2 ^ 32) :
    (m.setWord B 0 v).Ledger B {B} K := by
  have hpde : ∀ D ∈ ({B} : Set ℕ), ∀ i, (m.setWord B 0 v).pde D i = if i = 0 then v else m.pde D i := by
    intro D hD i
    rw [Set.mem_singleton_iff.mp hD, pde, word_setWord, Nat.mod_eq_of_lt hlt,
      pde]
    simp only [true_and]
  have hodd : ∀ i, (m.setWord B 0 v).pde B i % 2 = m.pde B i % 2 ∧
      (m.setWord B 0 v).pde B i / 4096 = m.pde B i / 4096 := by
    intro i
    rw [hpde B rfl]
    split
    · next heq =>
        rw [heq]
        exact ⟨hv.trans hp.symm, hvT⟩
    · exact ⟨rfl, rfl⟩
  have hholds : ∀ o f, (m.setWord B 0 v).Holds {B} o f ↔ m.Holds {B} o f := fun o f ↦
    holds_congr (fun D hD d h₁ _ ↦ by rw [hpde D hD, if_neg (by omega)])
      fun D hD d h₁ h₂ hpd ↦ setWord_mem_of_ne _ _ (h.table_ne hD h.boot h₁ h₂ hpd)
  refine ⟨h.lastAlloc, h.cr3, h.loaded, rfl, fun D hD ↦ ?_, fun o o' f ho ho' ↦ ?_, fun o f ho ↦ ?_,
    h.kernel, fun D hD i _ ↦ by rw [Set.mem_singleton_iff.mp hD], fun i hi hpi ↦ ?_,
    fun i hi hne hpi hp' ↦ ?_, Or.inr rfl⟩
  · rw [hpde D hD, if_neg (by norm_num)]
    exact h.self D hD
  · exact h.unique o o' f ((hholds o f).mp ho) ((hholds o' f).mp ho')
  · exact h.used o f ((hholds o f).mp ho)
  · rw [(hodd i).1] at hpi
    rw [(hodd i).2]
    exact h.tables i hi hpi
  · rw [(hodd i).1] at hpi
    rw [(hodd 1022).1] at hp'
    rw [(hodd i).2, (hodd 1022).2]
    exact h.slots i hi hne hpi hp'

end Ledger

/-- The user bit on an entry of a table that can be written. -/
theorem or_user_word (hw : w % 4 = 3) (hlt : w < 2 ^ 32) : (w ||| PAGE_USER) % 8 = 7 ∧
    (w ||| PAGE_USER) / 4096 = w / 4096 ∧ w ||| PAGE_USER < 2 ^ 32 := by
  have hmod := Nat.or_mod_two_pow (a := w) (b := PAGE_USER) (n := 3)
  have hcases : w % 8 = 3 ∨ w % 8 = 7 := by omega
  refine ⟨?_, or_low_div (by decide), Nat.or_lt_two_pow hlt (by decide)⟩
  rcases hcases with hlow | hlow
  all_goals
    norm_num [hlow, PAGE_USER] at hmod
    exact hmod

/-! ## What keeps the heap -/

namespace HeapOf

theorem recursive (h : m.HeapOf base B L K) : m.Recursive := h.ledger.recursive

/-- The same words in the directory and its tables. -/
theorem congr (h : m.HeapOf base B L K) (hled : m'.Ledger B L K) (hdir : m'.dir = m.dir)
    (hzero : m'.frameTest 0 = true) (hpde : ∀ i, m'.pde m.dir i = m.pde m.dir i)
    (hmem : ∀ i, 1 ≤ i → i < 768 → m.pde m.dir i % 2 = 1 →
      m'.mem (m.pde m.dir i / 4096) = m.mem (m.pde m.dir i / 4096)) : m'.HeapOf base B L K := by
  refine ⟨hled, hzero, fun i h₁ h₂ hp ↦ ?_, fun d t F h₁ h₂ ht hbase hlim hF ↦ ?_⟩
  · rw [hdir, hpde] at hp ⊢
    exact h.tables i h₁ h₂ hp
  · rw [hdir] at hF
    have hp := (leaf_eq_some.mp hF).1
    rw [hpde] at hp
    have hword := congrArg (fun p ↦ word p t) (hmem d h₁ h₂ hp)
    rw [leaf_congr (hpde d) hword] at hF
    obtain ⟨hne, hw⟩ := h.pages d t F h₁ h₂ ht hbase hlim hF
    refine ⟨hne, ?_⟩
    rw [Writable, hdir, pte, hpde, hword]
    exact hw

theorem log (h : m.HeapOf base B L K) (c : Call) : (m.log c).HeapOf base B L K :=
  h.congr (h.ledger.log c) rfl h.zero (fun _ ↦ rfl) fun _ _ _ _ ↦ rfl

theorem alloc (h : m.HeapOf base B L K) (hF : F ∈ m.free) : (m.withAlloc F).HeapOf base B L K :=
  h.congr (h.ledger.alloc hF).1 rfl (by simp [h.zero]) (fun _ ↦ rfl) fun _ _ _ _ ↦ rfl

theorem pokes (h : m.HeapOf base B L K) (hpokes : Pokes L m m') : m'.HeapOf base B L K := by
  obtain ⟨hdir, htable⟩ := hpokes.plain h.ledger
  exact h.congr (hpokes.ledger h.ledger) hpokes.dir (by rw [hpokes.frameTest, h.zero])
    (fun i ↦ by rw [pde, hdir _ h.ledger.loaded, pde]) (htable _ h.ledger.loaded)

theorem withTable (h : m.HeapOf base B L K) (h₁ : 1 ≤ d) (h₂ : d < 768)
    (hp : m.pde m.dir d % 2 = 0) (hF : m.Loose L K F) (hlt : F < 2 ^ 20) :
    (m.withTable d F).HeapOf base B L K := by
  obtain ⟨hled, hholds⟩ := h.ledger.withTable h₁ h₂ hp hF hlt
  obtain ⟨hpde, hpte⟩ := h.ledger.withTable_words (d := d) hF hlt
  have hdir : (m.withTable d F).dir = m.dir := rfl
  refine ⟨hled, h.zero, fun i hi₁ hi₂ hodd ↦ ?_, fun i s G hi₁ hi₂ hs hbase hlim hG ↦ ?_⟩
  · rw [hdir, hpde] at hodd ⊢
    split at hodd
    · next heq =>
        rw [if_pos heq]
        omega
    · next hne =>
        rw [if_neg hne]
        exact h.tables i hi₁ hi₂ hodd
  · rw [hled.leaf_iff hi₁ hi₂ hs, hholds] at hG
    have hleaf := (h.ledger.leaf_iff hi₁ hi₂ hs).mpr (hG.resolve_right fun heq ↦ by cases heq.1)
    have hodd := (leaf_eq_some.mp hleaf).1
    have hne : i ≠ d := by
      rintro rfl
      omega
    obtain ⟨hG0, hw⟩ := h.pages i s G hi₁ hi₂ hs hbase hlim hleaf
    refine ⟨hG0, ?_⟩
    rw [Writable, hdir, hpde, if_neg hne, hpte i s hi₁ hi₂ hodd hne]
    exact hw

/-- A loose frame becomes a page for user code. -/
theorem withPage (h : m.HeapOf base B L K) (h₁ : 1 ≤ d) (h₂ : d < 768) (ht : t < 1024)
    (hp : m.pde m.dir d % 2 = 1) (hP : m.Loose L K P) (hP0 : P ≠ 0) (hlt : P < 2 ^ 20) :
    (m.withPage d t P (PAGE_USER ||| PAGE_WRITE)).HeapOf base B L K := by
  obtain ⟨hled, hholds⟩ := h.ledger.withPage h₁ h₂ ht hp hP hlt
    (show PAGE_USER ||| PAGE_WRITE < 4096 by decide)
  have hflags : P * 4096 + (PAGE_USER ||| PAGE_WRITE ||| 1) = P * 4096 + 7 := rfl
  obtain ⟨huser, hdiv, hlt'⟩ := or_user_word (h.tables d h₁ h₂ hp) (m.pde_lt m.dir d)
  obtain ⟨hpde, hpte⟩ := h.ledger.setEntry_words (t := t) (w := P * 4096 + 7) h₁ h₂ hp hlt' hdiv
    (by omega)
  have hword : m.withPage d t P (PAGE_USER ||| PAGE_WRITE) =
      (m.setWord m.dir d (m.pde m.dir d ||| PAGE_USER)).setWord (m.pde m.dir d / 4096) t
        (P * 4096 + 7) := rfl
  rw [← hword] at hpde hpte
  have hdir : (m.withPage d t P (PAGE_USER ||| PAGE_WRITE)).dir = m.dir := rfl
  refine ⟨hled, h.zero, fun i hi₁ hi₂ hodd ↦ ?_, fun i s G hi₁ hi₂ hs hbase hlim hG ↦ ?_⟩
  · rw [hdir, hpde] at hodd ⊢
    split at hodd
    · next heq =>
        rw [if_pos heq]
        omega
    · next hne =>
        rw [if_neg hne]
        exact h.tables i hi₁ hi₂ hodd
  · rw [hled.leaf_iff hi₁ hi₂ hs, hdir, hholds] at hG
    rw [Writable, hdir, hpde]
    rcases hG with ⟨hne, hG⟩ | ⟨heq, rfl⟩
    · have hleaf := (h.ledger.leaf_iff hi₁ hi₂ hs).mpr hG
      have hodd := (leaf_eq_some.mp hleaf).1
      obtain ⟨hG0, hw⟩ := h.pages i s G hi₁ hi₂ hs hbase hlim hleaf
      refine ⟨hG0, ?_, ?_⟩
      · split
        · exact huser
        · exact hw.1
      · rw [hpte i s hi₁ hi₂ hodd, if_neg]
        · exact hw.2
        · rintro ⟨rfl, rfl⟩
          exact hne rfl
    · obtain ⟨-, rfl, rfl⟩ := Owner.leaf.inj heq
      refine ⟨hP0, ?_, ?_⟩
      · rw [if_pos rfl]
        exact huser
      · rw [hpte i s hi₁ hi₂ hp, if_pos ⟨rfl, rfl⟩]
        omega

end HeapOf

/-! ## Growing -/

/-- If the page at `a` needs a table there is a frame for it. -/
def TableFits (m : Machine) (a : ℕ) : Prop := m.pde m.dir (a >>> 22) % 2 = 0 → m.pmmAllocFrame.1 ≠ 0

/-- What growing leaves alone, and what is new in the pages of `A`. -/
structure Extended (K A : Set ℕ) (m m' : Machine) : Prop where
  cr3 : m'.cr3 = m.cr3
  entry : ∀ i, KernelEntry i → m'.pde m.dir i = m.pde m.dir i
  kernel : ∀ f ∈ K, m'.mem f = m.mem f
  view : ∀ x, m.view x ≠ none → m'.view x = m.view x
  fresh : ∀ x, m.view x = none → m'.view x ≠ none → m'.view x = some 0 ∧ x / 4096 * 4096 ∈ A

namespace Extended

theorem dir (h : Extended K A m m') : m'.dir = m.dir := by rw [Machine.dir, h.cr3, Machine.dir]

theorem refl (K A : Set ℕ) (m : Machine) : Extended K A m m :=
  ⟨rfl, fun _ _ ↦ rfl, fun _ _ ↦ rfl, fun _ _ ↦ rfl, fun _ hx hx' ↦ absurd hx hx'⟩

theorem mono (h : Extended K A m m') (hA : A ⊆ A') : Extended K A' m m' :=
  ⟨h.cr3, h.entry, h.kernel, h.view, fun x hx hx' ↦ (h.fresh x hx hx').imp_right fun hmem ↦ hA hmem⟩

theorem trans (h : Extended K A m m') (h' : Extended K A m' m'') : Extended K A m m'' where
  cr3 := h'.cr3.trans h.cr3
  entry i hi := (h.dir ▸ h'.entry i hi).trans (h.entry i hi)
  kernel f hf := (h'.kernel f hf).trans (h.kernel f hf)
  view x hx := (h'.view x (by rwa [h.view x hx])).trans (h.view x hx)
  fresh x hx hx' := by
    by_cases hmid : m'.view x = none
    · exact h'.fresh x hmid hx'
    · obtain ⟨hzero, hmem⟩ := h.fresh x hx hmid
      exact ⟨(h'.view x hmid).trans hzero, hmem⟩

end Extended

namespace HeapOf

/-- `paging_map` for a page of the heap, the frame of its table being granted. -/
theorem mapPage (h : m.HeapOf base B L K) (h₁ : 1 ≤ d) (h₂ : d < 768) (ht : t < 1024)
    (hP : m.Loose L K P) (hP0 : P ≠ 0) (hlt : P < 2 ^ 20) (hfits : m.TableFits (pageAddr d t)) :
    ∃ m' X, m.pagingMap (pageAddr d t) (P * PAGE_SIZE) (PAGE_USER ||| PAGE_WRITE) = some m' ∧
      m'.HeapOf base B L K ∧ Grows L m m' X ∧ (∀ f ∈ X, f = P ∨ m.frameTest f = false) ∧
      m'.view = fill m.view (pageAddr d t) 4096 (m.mem P) := by
  have hva := pageAddr_index (d := d) ht
  have hfl : PAGE_USER ||| PAGE_WRITE < 4096 := by decide
  set c := Call.map (pageAddr d t) (P * PAGE_SIZE) (PAGE_USER ||| PAGE_WRITE) with hc
  rcases Nat.mod_two_eq_zero_or_one (m.pde m.dir d) with hp | hp
  · have hne : (m.log c).pmmAllocFrame.1 ≠ 0 := by
      rw [(log_pmmAllocFrame m c).1]
      exact hfits (by rw [hva.1]; exact hp)
    rcases pmmAllocFrame_cases (m := m.log c) h.ledger.lastAlloc with ⟨F, hF, halloc⟩ | ⟨-, halloc⟩
    · obtain ⟨hled₁, hloose₁⟩ := (h.ledger.log c).alloc hF
      have hFm : F ∈ m.free := hF
      have hPF : P ≠ F := (Ledger.free_ne hFm hP.1).symm
      have hFlt := Ledger.free_lt hFm
      have hFdir : F ≠ m.dir := Ledger.free_ne hFm (h.ledger.dir_used h.ledger.loaded).1
      have hgrow := (Grows.log L m c).trans (Grows.alloc L (m.log c) F)
      rw [Finset.empty_union] at hgrow
      obtain ⟨m', hrun, -, hgrow', -, hview, -⟩ := h.ledger.mapAbsent h₁ h₂ ht hva hp hP hlt hfl halloc
        hgrow hled₁ hloose₁ hFlt hPF
      have hexact := pagingMap_absent h.recursive (by omega) ht hva hp halloc hFlt hFdir hlt hfl
      obtain rfl := Option.some.inj (hrun.symm.trans hexact)
      refine ⟨_, _, hrun, ?_, hgrow', fun f hf ↦ ?_, hview⟩
      · have hheap := ((h.log c).alloc hF).withTable h₁ h₂ hp hloose₁ hFlt
        obtain ⟨-, hholds⟩ := hled₁.withTable h₁ h₂ hp hloose₁ hFlt
        have hword := withTable_pde (d := d) ((m.log c).withAlloc F) hFdir hFlt
        refine hheap.withPage h₁ h₂ ht (by rw [hword]; omega) ?_ hP0 hlt
        refine Ledger.Loose.congr hP ?_ fun o ho ↦ ?_
        · exact hgrow.test P hP.1
        · exact ((hholds o P).mp ho).resolve_right fun heq ↦ hPF heq.2
      · rw [Finset.mem_insert, Finset.mem_singleton] at hf
        rcases hf with rfl | rfl
        · exact Or.inr ((mem_free m).mp hFm).2
        · exact Or.inl rfl
    · exact absurd (congrArg Prod.fst halloc) hne
  · obtain ⟨m', hrun, -, hgrow, -, hview, -⟩ := h.ledger.mapPresent h₁ h₂ ht hva hp hP hlt hfl
    have hexact := pagingMap_present h.recursive (by omega) ht hva hp hlt hfl
    obtain rfl := Option.some.inj (hrun.symm.trans hexact)
    refine ⟨_, _, hrun, (h.log c).withPage h₁ h₂ ht hp hP hP0 hlt, hgrow, fun f hf ↦ ?_, hview⟩
    exact Or.inl (Finset.mem_singleton.mp hf)

/-- One page of the loop that grows the heap. -/
theorem growPage (h : m.HeapOf base B L K) (h₁ : 1 ≤ d) (h₂ : d < 768) (ht : t < 1024)
    (hfits : m.frameAt d t = none → m.pmmAllocFrame.1 ≠ 0 →
      m.pmmAllocFrame.2.TableFits (pageAddr d t)) :
    ∃ m' b, Machine.growPage ⟨m, false⟩ (pageAddr d t) = some ⟨m', b⟩ ∧ m'.HeapOf base B L K ∧
      Extended K {pageAddr d t} m m' ∧
      (b = false → ∀ o < 4096, m'.view (pageAddr d t + o) ≠ none) := by
  cases hF : m.frameAt d t with
  | some F =>
      refine ⟨m, false, growPage_mapped h.recursive (by omega) ht hF, h, Extended.refl _ _ m,
        fun _ o ho ↦ ?_⟩
      rw [view_page h₁ h₂ ht ho, show m.leaf m.dir d t = some F from hF]
      exact Option.some_ne_none _
  | none =>
      have hphys := pagingVirtToPhys_page h.recursive (show d < 1024 by omega) ht
      rw [hF, Option.elim_none] at hphys
      rcases pmmAllocFrame_cases h.ledger.lastAlloc with ⟨P, hP, halloc⟩ | ⟨-, halloc⟩
      · have hP0 : P ≠ 0 := Ledger.free_ne hP h.zero
        have haddr : P * PAGE_SIZE ≠ 0 := Nat.mul_ne_zero hP0 (by decide)
        have hfree := ((mem_free m).mp hP).2
        obtain ⟨hled₁, hloose₁⟩ := h.ledger.alloc hP
        have hfit : (m.withAlloc P).TableFits (pageAddr d t) := by
          have := hfits hF (by rw [halloc]; exact haddr)
          rwa [halloc] at this
        obtain ⟨m₂, X, hmap, hheap₂, hgrow₂, hX, hview₂⟩ := (h.alloc hP).mapPage h₁ h₂ ht hloose₁ hP0
          (Ledger.free_lt hP) hfit
        have hdef : Defined m₂.view (pageAddr d t) 4096 := fun o ho ↦ by
          rw [hview₂, fill_apply_add ho]
          exact Option.some_ne_none _
        obtain ⟨m₃, hset, hpokes, hview₃⟩ := memset_view hheap₂.ledger hdef 0
        have hview : ∀ x, m₃.view x = fill m.view (pageAddr d t) 4096 (fun _ ↦ 0) x := by
          intro x
          rw [hview₃, hview₂]
          simp only [fill]
          split
          · rfl
          · rfl
        have hnone : ∀ o < 4096, m.view (pageAddr d t + o) = none := fun o ho ↦ by
          rw [view_page h₁ h₂ ht ho, show m.leaf m.dir d t = none from hF, Option.map_none]
        have hrun : Machine.growPage ⟨m, false⟩ (pageAddr d t) = some ⟨m₃, false⟩ := by
          rw [PAGE_SIZE] at hmap haddr
          simp [Machine.growPage, hphys, halloc, haddr, hmap, hset, PAGE_SIZE]
        refine ⟨m₃, false, hrun, hheap₂.pokes hpokes, ⟨?_, fun i hi ↦ ?_, fun f hf ↦ ?_, fun x hx ↦ ?_,
          fun x hx hx' ↦ ?_⟩, fun _ o ho ↦ ?_⟩
        · rw [hpokes.cr3, hgrow₂.cr3, withAlloc_cr3]
        · rw [pde, (hpokes.plain hheap₂.ledger).1 m.dir h.ledger.loaded, ← pde,
            hgrow₂.entry m.dir h.ledger.loaded i (Or.inl hi), withAlloc_pde]
        · rw [hpokes.mem f fun d' t' hheld ↦ (hheap₂.ledger.used _ f hheld).2 hf,
            hgrow₂.mem f (fun hmem ↦ ?_) fun o _ hheld ↦ (hled₁.used o f hheld).2 hf, withAlloc_mem]
          rcases hX f hmem with rfl | hfalse
          · exact hloose₁.2.1 hf
          · rw [hled₁.kernel f hf] at hfalse
            cases hfalse
        · rw [hview, fill, if_neg]
          rintro ⟨hle, hlt⟩
          have := hnone (x - pageAddr d t) (by omega)
          rw [Nat.add_sub_cancel' hle] at this
          exact hx this
        · rw [hview, fill] at hx' ⊢
          split at hx'
          · next hin =>
              rw [if_pos hin]
              refine ⟨rfl, ?_⟩
              rw [Set.mem_singleton_iff]
              simp only [pageAddr] at hin ⊢
              omega
          · exact absurd hx hx'
        · rw [hview, fill_apply_add ho]
          exact Option.some_ne_none _
      · have hrun : Machine.growPage ⟨m, false⟩ (pageAddr d t) =
            some ⟨m.log (.alloc 0), true⟩ := by
          simp [Machine.growPage, hphys, halloc]
        refine ⟨_, true, hrun, h.log _, ⟨rfl, fun _ _ ↦ rfl, fun _ _ ↦ rfl, fun _ _ ↦ rfl,
          fun x hx hx' ↦ ?_⟩,
          fun hb ↦ by cases hb⟩
        exact absurd hx hx'

end HeapOf

/-- No table that the loop asks for is refused. -/
def TablesFit : SbrkLoop → List ℕ → Prop
  | _, [] => True
  | s, a :: as =>
      (s.outOfMemory = false → s.machine.pagingVirtToPhys a = some NOT_MAPPED →
        s.machine.pmmAllocFrame.1 ≠ 0 → s.machine.pmmAllocFrame.2.TableFits a) ∧
      ∀ s', growPage s a = some s' → TablesFit s' as

/-- The loop that grows the heap. -/
theorem HeapOf.growPages (h : m.HeapOf base B L K) {l : List ℕ}
    (hl : ∀ v ∈ l, ∃ d t, 1 ≤ d ∧ d < 768 ∧ t < 1024 ∧ v = pageAddr d t)
    (hfits : TablesFit ⟨m, false⟩ l) :
    ∃ m' b, l.foldlM Machine.growPage ⟨m, false⟩ = some ⟨m', b⟩ ∧ m'.HeapOf base B L K ∧
      Extended K {v | v ∈ l} m m' ∧ (b = false → ∀ v ∈ l, ∀ o < 4096, m'.view (v + o) ≠ none) := by
  induction l generalizing m with
  | nil => exact ⟨m, false, rfl, h, Extended.refl _ _ m, fun _ v hv ↦ nomatch hv⟩
  | cons v l ih =>
      obtain ⟨d, t, h₁, h₂, ht, rfl⟩ := hl v (by simp)
      have hphys := pagingVirtToPhys_page h.recursive (show d < 1024 by omega) ht
      obtain ⟨m₁, b, hstep, hheap₁, hext₁, hnew⟩ := h.growPage h₁ h₂ ht fun hnone hne ↦
        hfits.1 rfl (by rw [hphys, hnone, Option.elim_none]) hne
      have hhead : {pageAddr d t} ⊆ {x | x ∈ pageAddr d t :: l} := by simp
      have htail : {x | x ∈ l} ⊆ {x | x ∈ pageAddr d t :: l} := fun x hx ↦
        List.mem_cons_of_mem _ hx
      cases b with
      | false =>
          obtain ⟨m₂, b, hrun, hheap₂, hext₂, hnew₂⟩ := ih hheap₁ (fun v hv ↦ hl v (by simp [hv]))
            (hfits.2 _ hstep)
          refine ⟨m₂, b, ?_, hheap₂, (hext₁.mono hhead).trans (hext₂.mono htail), fun hb v hv ↦ ?_⟩
          · rw [List.foldlM_cons, hstep, Option.bind_eq_bind, Option.bind_some, hrun]
          · rcases List.mem_cons.mp hv with rfl | hv
            · intro o ho
              rw [hext₂.view _ (hnew rfl o ho)]
              exact hnew rfl o ho
            · exact hnew₂ hb v hv
      | true =>
          refine ⟨m₁, true, ?_, hheap₁, hext₁.mono hhead, fun hb ↦ nomatch hb⟩
          rw [List.foldlM_cons, hstep, Option.bind_eq_bind, Option.bind_some, growPages_outOfMemory rfl]

/-! ## Shrinking -/

/-- What shrinking leaves alone; the pages of `A` and their frames go. -/
structure Reduced (K A : Set ℕ) (m m' : Machine) : Prop where
  cr3 : m'.cr3 = m.cr3
  entry : ∀ i, KernelEntry i → m'.pde m.dir i = m.pde m.dir i
  kernel : ∀ f ∈ K, m'.mem f = m.mem f
  leaf : ∀ d t F, 1 ≤ d → d < 768 → t < 1024 →
    (m'.leaf m.dir d t = some F ↔ m.leaf m.dir d t = some F ∧ pageAddr d t ∉ A)
  view : ∀ x, x / 4096 * 4096 ∉ A → m'.view x = m.view x
  test : ∀ f, m'.frameTest f = true ↔ m.frameTest f = true ∧
    ∀ d t, 1 ≤ d → d < 768 → t < 1024 → pageAddr d t ∈ A → m.leaf m.dir d t ≠ some f

namespace Reduced

theorem dir (h : Reduced K A m m') : m'.dir = m.dir := by rw [Machine.dir, h.cr3, Machine.dir]

theorem refl (K : Set ℕ) (m : Machine) : Reduced K ∅ m m :=
  ⟨rfl, fun _ _ ↦ rfl, fun _ _ ↦ rfl, fun _ _ _ _ _ _ ↦ by simp, fun _ _ ↦ rfl, fun _ ↦ by simp⟩

theorem trans (h : Reduced K A m m') (h' : Reduced K A' m' m'') : Reduced K (A ∪ A') m m'' where
  cr3 := h'.cr3.trans h.cr3
  entry i hi := (h.dir ▸ h'.entry i hi).trans (h.entry i hi)
  kernel f hf := (h'.kernel f hf).trans (h.kernel f hf)
  leaf d t F h₁ h₂ ht := by
    have hleaf' := h'.leaf d t F h₁ h₂ ht
    rw [h.dir] at hleaf'
    rw [hleaf', h.leaf d t F h₁ h₂ ht, Set.mem_union, not_or, and_assoc]
  view x hx := by
    rw [Set.mem_union, not_or] at hx
    rw [h'.view x hx.2, h.view x hx.1]
  test f := by
    rw [h'.test, h.test, and_assoc]
    refine and_congr_right fun _ ↦ ⟨fun hno d t h₁ h₂ ht hmem hF ↦ ?_, fun hno ↦
      ⟨fun d t h₁ h₂ ht hmem ↦ hno d t h₁ h₂ ht (Or.inl hmem), fun d t h₁ h₂ ht hmem hF ↦ ?_⟩⟩
    · by_cases hA : pageAddr d t ∈ A
      · exact hno.1 d t h₁ h₂ ht hA hF
      · apply hno.2 d t h₁ h₂ ht (hmem.resolve_left hA)
        rw [h.dir]
        exact (h.leaf d t f h₁ h₂ ht).mpr ⟨hF, hA⟩
    · rw [h.dir] at hF
      exact hno d t h₁ h₂ ht (Or.inr hmem) ((h.leaf d t f h₁ h₂ ht).mp hF).1

/-- What is still there was there, and not in the pages that went. -/
theorem of_view (h : Reduced K A m m') (hx : m'.view x ≠ none) :
    m.view x ≠ none ∧ x / 4096 * 4096 ∉ A := by
  obtain ⟨d, t, o, h₁, h₂, ht, ho, rfl⟩ := (userAddr_of_view hx).exists_pageAddr
  have hround : (pageAddr d t + o) / 4096 * 4096 = pageAddr d t := by
    rw [pageAddr]
    omega
  rw [view_page h₁ h₂ ht ho, h.dir, Ne, Option.map_eq_none_iff] at hx
  obtain ⟨F, hF⟩ := Option.ne_none_iff_exists'.mp hx
  obtain ⟨hleaf, hA⟩ := (h.leaf d t F h₁ h₂ ht).mp hF
  rw [view_page h₁ h₂ ht ho, hleaf, hround]
  exact ⟨Option.some_ne_none _, hA⟩

end Reduced

/-- A frame without an owner goes back to the allocator. -/
theorem Ledger.freeFrame (h : m.Ledger B L K) (hK : F ∉ K) (hno : ∀ o, ¬ m.Holds L o F) :
    (m.pmmFreeFrame (F * PAGE_SIZE)).Ledger B L K := by
  have hpde : ∀ D i, (m.pmmFreeFrame (F * PAGE_SIZE)).pde D i = m.pde D i := fun D i ↦ by
    rw [pde, pmmFreeFrame_mem, pde]
  have hholds : ∀ o f, (m.pmmFreeFrame (F * PAGE_SIZE)).Holds L o f ↔ m.Holds L o f := fun o f ↦
    holds_congr (fun D _ d _ _ ↦ hpde D d) fun D _ d _ _ _ ↦ by rw [pmmFreeFrame_mem]
  have htest : ∀ f, f ≠ F → m.frameTest f = true →
      (m.pmmFreeFrame (F * PAGE_SIZE)).frameTest f = true := by
    intro f hne hf
    rw [pmmFreeFrame_frameTest, Nat.mul_div_cancel F (by decide), hf]
    simp [hne]
  refine h.of_holds ?_ ?_ ?_ (fun D _ i _ ↦ hpde D i) (fun o o' f ho ho' ↦ ?_) (fun o f ho ↦ ?_)
    fun f hf ↦ ?_
  · have := h.lastAlloc
    rw [pmmFreeFrame_totalFrames, pmmFreeFrame_lastAlloc]
    omega
  · rw [pmmFreeFrame_cr3, pmmFreeFrame_dir, h.cr3]
  · rw [pmmFreeFrame_dir]
    exact h.loaded
  · exact h.unique o o' f ((hholds o f).mp ho) ((hholds o' f).mp ho')
  · have hheld := (hholds o f).mp ho
    obtain ⟨hused, hnK⟩ := h.used o f hheld
    exact ⟨htest f (fun heq ↦ hno o (heq ▸ hheld)) hused, hnK⟩
  · exact htest f (fun heq ↦ hK (heq ▸ hf)) (h.kernel f hf)

namespace HeapOf

/-- The entry of a page of the heap is cleared. -/
theorem clearEntry (h : m.HeapOf base B L K) (h₁ : 1 ≤ d) (h₂ : d < 768) (ht : t < 1024)
    (hp : m.pde m.dir d % 2 = 1) : (m.setWord (m.pde m.dir d / 4096) t 0).HeapOf base B L K ∧
      ∀ o f, (m.setWord (m.pde m.dir d / 4096) t 0).Holds L o f ↔
        o ≠ .leaf m.dir d t ∧ m.Holds L o f := by
  have hlt := m.pde_lt m.dir d
  obtain ⟨hled, hholds⟩ := h.ledger.setEntry h₁ h₂ ht hp (v := m.pde m.dir d) (w := 0) hp rfl
    (by norm_num) (by norm_num)
  obtain ⟨hpde, hpte⟩ := h.ledger.setEntry_words (v := m.pde m.dir d) (w := 0) (t := t) h₁ h₂ hp hlt
    rfl (by norm_num)
  have hself : m.setWord m.dir d (m.pde m.dir d) = m := setWord_self m m.dir d
  rw [hself] at hled hholds hpde hpte
  have hsame : ∀ i, (if i = d then m.pde m.dir d else m.pde m.dir i) = m.pde m.dir i := by
    intro i
    split
    · next heq => rw [heq]
    · rfl
  simp only [hsame] at hpde
  have hholds' : ∀ o f, (m.setWord (m.pde m.dir d / 4096) t 0).Holds L o f ↔
      o ≠ .leaf m.dir d t ∧ m.Holds L o f := fun o f ↦ by
    rw [hholds]
    simp
  have hdir : (m.setWord (m.pde m.dir d / 4096) t 0).dir = m.dir := rfl
  refine ⟨⟨hled, h.zero, fun i hi₁ hi₂ hodd ↦ ?_, fun i s G hi₁ hi₂ hs hbase hlim hG ↦ ?_⟩, hholds'⟩
  · rw [hdir, hpde] at hodd ⊢
    exact h.tables i hi₁ hi₂ hodd
  · rw [hled.leaf_iff hi₁ hi₂ hs, hdir, hholds'] at hG
    have hleaf := (h.ledger.leaf_iff hi₁ hi₂ hs).mpr hG.2
    obtain ⟨hG0, hw⟩ := h.pages i s G hi₁ hi₂ hs hbase hlim hleaf
    refine ⟨hG0, ?_⟩
    rw [Writable, hdir, hpde, hpte i s hi₁ hi₂ (leaf_eq_some.mp hleaf).1, if_neg]
    · exact hw
    · rintro ⟨rfl, rfl⟩
      exact hG.1 rfl

/-- A frame without an owner goes back to the allocator. -/
theorem freeFrame (h : m.HeapOf base B L K) (hF : F ≠ 0) (hK : F ∉ K)
    (hno : ∀ o, ¬ m.Holds L o F) : (m.pmmFreeFrame (F * PAGE_SIZE)).HeapOf base B L K := by
  refine h.congr (h.ledger.freeFrame hK hno) (pmmFreeFrame_dir _ _) ?_
    (fun i ↦ by rw [pde, pmmFreeFrame_mem, pde]) fun i _ _ _ ↦ by rw [pmmFreeFrame_mem]
  rw [pmmFreeFrame_frameTest, Nat.mul_div_cancel F (by decide), h.zero]
  simp [hF.symm]

/-- One page of the loop that shrinks the heap. -/
theorem shrinkPage (h : m.HeapOf base B L K) (h₁ : 1 ≤ d) (h₂ : d < 768) (ht : t < 1024)
    (hbase : base ≤ pageAddr d t) (hlim : pageAddr d t < USER_BRK_LIMIT) :
    ∃ m', Machine.shrinkPage m (pageAddr d t) = some m' ∧ m'.HeapOf base B L K ∧
      Reduced K {pageAddr d t} m m' := by
  have hphys := pagingVirtToPhys_page h.recursive (show d < 1024 by omega) ht
  have hpage : ∀ {d' t'}, t' < 1024 → pageAddr d' t' ∈ ({pageAddr d t} : Set ℕ) →
      d' = d ∧ t' = t := by
    intro d' t' ht' hmem
    have heq : pageAddr d' t' = pageAddr d t := hmem
    simp only [pageAddr] at heq
    omega
  cases hF : m.frameAt d t with
  | none =>
      rw [hF, Option.elim_none] at hphys
      refine ⟨m, by simp [Machine.shrinkPage, hphys], h, ⟨rfl, fun _ _ ↦ rfl, fun _ _ ↦ rfl,
        fun d' t' F h₁' h₂' ht' ↦ ⟨fun hleaf ↦ ⟨hleaf, fun hmem ↦ ?_⟩, And.left⟩, fun _ _ ↦ rfl,
        fun f ↦ ⟨fun hf ↦ ⟨hf, fun d' t' h₁' h₂' ht' hmem hleaf ↦ ?_⟩, And.left⟩⟩⟩
      all_goals
        obtain ⟨rfl, rfl⟩ := hpage ht' hmem
        rw [show m.leaf m.dir d' t' = none from hF] at hleaf
        cases hleaf
  | some F =>
      rw [hF, Option.elim_some] at hphys
      have hleaf : m.leaf m.dir d t = some F := hF
      obtain ⟨hp, -, hdiv⟩ := leaf_eq_some.mp hleaf
      have hlt : F < 2 ^ 20 := by
        have := m.pte_lt m.dir d t
        omega
      have hne : F * 4096 ≠ NOT_MAPPED := by
        rw [NOT_MAPPED]
        omega
      have hheld := (h.ledger.leaf_iff h₁ h₂ ht).mp hleaf
      obtain ⟨hF0, -⟩ := h.pages d t F h₁ h₂ ht hbase hlim hleaf
      have hunmap := pagingUnmap_present h.recursive (by omega) ht (pageAddr_index ht) hp
      set c := Call.unmap (pageAddr d t) with hc
      set m₁ := (m.log c).setWord (m.pde m.dir d / 4096) t 0 with hm₁
      obtain ⟨hheap₁, hholds₁⟩ : m₁.HeapOf base B L K ∧ ∀ o f, m₁.Holds L o f ↔
          o ≠ .leaf m.dir d t ∧ m.Holds L o f := (h.log c).clearEntry h₁ h₂ ht hp
      have hT : m.Holds L (.table m.dir d) (m.pde m.dir d / 4096) :=
        ⟨h.ledger.loaded, h₁, h₂, hp, rfl⟩
      have hmem₁ : ∀ f, f ≠ m.pde m.dir d / 4096 → m₁.mem f = m.mem f := fun f hf ↦ by
        rw [hm₁, setWord_mem_of_ne _ _ hf, log_mem]
      have hno : ∀ o, ¬ m₁.Holds L o F := fun o ho ↦ by
        obtain ⟨hneq, ho⟩ := (hholds₁ o F).mp ho
        exact hneq (h.ledger.unique _ _ _ ho hheld)
      have hrun : Machine.shrinkPage m (pageAddr d t) = some (m₁.pmmFreeFrame (F * PAGE_SIZE)) := by
        have hmask := mask_frame hlt
        rw [PAGE_SIZE] at hmask
        simp [Machine.shrinkPage, hphys, hne, hunmap, hmask, PAGE_SIZE]
      have hheap := hheap₁.freeFrame hF0 (h.ledger.used _ _ hheld).2 hno
      have hdir : (m₁.pmmFreeFrame (F * PAGE_SIZE)).dir = m.dir := pmmFreeFrame_dir _ _
      have hleaf' : ∀ d' t' G, 1 ≤ d' → d' < 768 → t' < 1024 →
          ((m₁.pmmFreeFrame (F * PAGE_SIZE)).leaf m.dir d' t' = some G ↔
            m.leaf m.dir d' t' = some G ∧ pageAddr d' t' ∉ ({pageAddr d t} : Set ℕ)) := by
        intro d' t' G h₁' h₂' ht'
        have hstep : (m₁.pmmFreeFrame (F * PAGE_SIZE)).leaf m.dir d' t' = m₁.leaf m.dir d' t' := by
          apply leaf_congr
          all_goals rw [pmmFreeFrame_mem]
        have hiff : m₁.leaf m.dir d' t' = some G ↔ m₁.Holds L (.leaf m.dir d' t') G :=
          hheap₁.ledger.leaf_iff h₁' h₂' ht'
        rw [hstep, hiff, hholds₁, h.ledger.leaf_iff h₁' h₂' ht', and_comm]
        refine and_congr_right fun _ ↦ not_congr ⟨fun heq ↦ ?_, fun hmem ↦ ?_⟩
        · obtain ⟨-, rfl, rfl⟩ := Owner.leaf.inj heq
          rfl
        · obtain ⟨rfl, rfl⟩ := hpage ht' hmem
          rfl
      refine ⟨_, hrun, hheap, ⟨?_, fun i _ ↦ ?_, fun f hf ↦ ?_, hleaf', fun x hx ↦ ?_, fun f ↦ ?_⟩⟩
      · rw [pmmFreeFrame_cr3]
        rfl
      · rw [pde, pmmFreeFrame_mem,
          hmem₁ m.dir (h.ledger.table_ne h.ledger.loaded h.ledger.loaded h₁ h₂ hp).symm, ← pde]
      · rw [pmmFreeFrame_mem, hmem₁ f fun heq ↦ (h.ledger.used _ _ hT).2 (heq ▸ hf)]
      · by_cases hux : UserAddr x
        · obtain ⟨d', t', o, h₁', h₂', ht', ho, rfl⟩ := hux.exists_pageAddr
          have hround : (pageAddr d' t' + o) / 4096 * 4096 = pageAddr d' t' := by
            rw [pageAddr]
            omega
          rw [hround] at hx
          refine view_congr (Option.ext fun G ↦ ?_) h₁' h₂' ht' ho fun G hG ↦ ?_
          · rw [hdir, hleaf' d' t' G h₁' h₂' ht', and_iff_left hx]
          · rw [pmmFreeFrame_mem, hmem₁ G fun heq ↦ ?_]
            have := h.ledger.unique _ _ _ ((h.ledger.leaf_iff h₁' h₂' ht').mp hG) (heq ▸ hT)
            cases this
        · rw [view_eq_none hux, view_eq_none hux]
      · rw [pmmFreeFrame_frameTest, Nat.mul_div_cancel F (by decide), Bool.and_eq_true,
          decide_eq_true_iff, and_comm]
        refine and_congr_right fun _ ↦ ⟨fun hfF d' t' h₁' h₂' ht' hmem hG ↦ ?_, fun hall ↦ ?_⟩
        · obtain ⟨rfl, rfl⟩ := hpage ht' hmem
          exact hfF (Option.some.inj (hG.symm.trans hleaf))
        · rintro rfl
          exact hall d t h₁ h₂ ht rfl hleaf

/-- The loop that shrinks the heap. -/
theorem shrinkPages (h : m.HeapOf base B L K) {l : List ℕ}
    (hl : ∀ v ∈ l, base ≤ v ∧ v < USER_BRK_LIMIT ∧
      ∃ d t, 1 ≤ d ∧ d < 768 ∧ t < 1024 ∧ v = pageAddr d t) :
    ∃ m', l.foldlM Machine.shrinkPage m = some m' ∧ m'.HeapOf base B L K ∧
      Reduced K {v | v ∈ l} m m' := by
  induction l generalizing m with
  | nil =>
      have hempty : {v | v ∈ ([] : List ℕ)} = ∅ := by simp
      exact ⟨m, rfl, h, hempty ▸ Reduced.refl K m⟩
  | cons v l ih =>
      obtain ⟨hbase, hlim, d, t, h₁, h₂, ht, rfl⟩ := hl v (by simp)
      obtain ⟨m₁, hstep, hheap₁, hred₁⟩ := h.shrinkPage h₁ h₂ ht hbase hlim
      obtain ⟨m₂, hrun, hheap₂, hred₂⟩ := ih hheap₁ fun v hv ↦ hl v (by simp [hv])
      have hcons : {x | x ∈ pageAddr d t :: l} = {pageAddr d t} ∪ {x | x ∈ l} := by
        ext
        simp
      refine ⟨m₂, ?_, hheap₂, hcons ▸ hred₁.trans hred₂⟩
      rw [List.foldlM_cons, hstep, Option.bind_eq_bind, Option.bind_some, hrun]

end HeapOf

/-! ## Pages that are not of the heap -/

/-- Pages under the entries of the kernel, whose words did not change. -/
theorem frameAt_kernel (h : m.Ledger B L K) (hcr3 : m'.cr3 = m.cr3)
    (hentry : ∀ i, KernelEntry i → m'.pde m.dir i = m.pde m.dir i)
    (hmem : ∀ f ∈ K, m'.mem f = m.mem f) (hd : KernelEntry d) : m'.frameAt d t = m.frameAt d t := by
  have hdir : m'.dir = m.dir := by rw [dir, hcr3, dir]
  have hpde := hentry d hd
  rw [frameAt, frameAt, hdir]
  by_cases hp : m.pde m.dir d % 2 = 1
  · have hshare := h.shared m.dir h.loaded d hd
    have hK := h.tables d hd (by rw [← hshare, hp])
    rw [← hshare] at hK
    exact leaf_congr hpde (by rw [hmem _ hK])
  · rw [leaf, leaf, hpde, if_pos (by omega), if_pos (by omega)]

/-- The first 4 MiB are mapped.  What user code may reach there lies in frames
that no space owns. -/
def Low (K : Set ℕ) (m : Machine) : Prop :=
  ∀ t < 1024, ∃ F, m.frameAt 0 t = some F ∧ (m.UserMapped m.dir 0 t → F ∈ K)

/-- The first 4 MiB stay as user code sees them. -/
theorem Low.keep (hlow : Low K m) (h : m.Ledger B L K) (hcr3 : m'.cr3 = m.cr3)
    (hentry : ∀ i, KernelEntry i → m'.pde m.dir i = m.pde m.dir i)
    (hmem : ∀ f ∈ K, m'.mem f = m.mem f) : Low K m' ∧
      ∀ t < 1024, ∀ o < 4096, m.UserMapped m.dir 0 t →
        m'.load8 (pageAddr 0 t + o) = m.load8 (pageAddr 0 t + o) := by
  have hdir : m'.dir = m.dir := by rw [dir, hcr3, dir]
  have hat := fun t ↦ frameAt_kernel (t := t) h hcr3 hentry hmem (Or.inl rfl)
  have huser : ∀ t < 1024, m'.UserMapped m'.dir 0 t ↔ m.UserMapped m.dir 0 t := by
    intro t ht
    obtain ⟨F, hF, -⟩ := hlow t ht
    have hshare := h.shared m.dir h.loaded 0 (Or.inl rfl)
    have hK := h.tables 0 (Or.inl rfl) (by rw [← hshare]; exact (frameAt_eq_some.mp hF).1)
    rw [← hshare] at hK
    rw [UserMapped, UserMapped, pte, pte, hdir, hentry 0 (Or.inl rfl), hmem _ hK]
  refine ⟨fun t ht ↦ ?_, fun t ht o ho hmap ↦ ?_⟩
  · obtain ⟨F, hF, hK⟩ := hlow t ht
    exact ⟨F, (hat t).trans hF, fun hmap ↦ hK ((huser t ht).mp hmap)⟩
  · obtain ⟨F, hF, hK⟩ := hlow t ht
    rw [load8_page (by norm_num) ht ho ((hat t).trans hF), load8_page (by norm_num) ht ho hF,
      hmem F (hK hmap)]

end Machine

end EclipseOS
