import EclipseOS.CallCases
import EclipseOS.Draws
import EclipseOS.TwoLoads

/-!
# Recycled frames

Two runs of `execve` from states that differ in the bytes of free frames only,
followed by the same calls of `sbrk`.  All pages are cleared when they are
mapped, except the four of the stack.
-/

namespace EclipseOS

open LittleEndian

namespace Machine

variable {m n m' n' m₁ n₁ : Machine} {B D d t i f a v F S : ℕ} {L K U V : Set ℕ} {ν : Bytes}
variable {l : List ℕ}

namespace Alike

/-! ## Cleared pages -/

/-- A frame from the allocator, mapped and cleared. -/
theorem freshPage {A : Set ℕ} (h : Alike A m n) (ha : Anchored A V m) (hF : F ∈ m.free)
    (hv : UserPage v) :
    ∃ m' n', ((m.withAlloc F).pagingMap v (F * PAGE_SIZE) (PAGE_USER ||| PAGE_WRITE)).bind
        (fun m ↦ m.memset v 0 PAGE_SIZE) = some m' ∧
      ((n.withAlloc F).pagingMap v (F * PAGE_SIZE) (PAGE_USER ||| PAGE_WRITE)).bind
        (fun m ↦ m.memset v 0 PAGE_SIZE) = some n' ∧ Alike A m' n' ∧ Anchored A V m' := by
  obtain ⟨d, t, h₁, h₂, ht, rfl⟩ := hv
  have hFA : F ∉ A := fun hA ↦ by
    have := ha.own F hA
    rw [((mem_free m).mp hF).2] at this
    exact nomatch this
  have hset : insert F A \ {F} = A := Set.insert_sdiff_self_of_notMem hFA
  obtain ⟨m₁, n₁, hm, hn, halike, hanch, hmaps, -⟩ := (h.alloc F).pagingMap (ha.alloc hF) h₁ h₂ ht
    (pageAddr_index ht) (by simp) (Ledger.free_lt hF) (show PAGE_USER ||| PAGE_WRITE < 4096 by decide)
  have hdir : m₁.dir = m.dir := by rw [Machine.dir, hmaps.cr3]; rfl
  obtain ⟨m₂, n₂, hm₂, hn₂, halike₂, hanch₂, -⟩ := halike.memset hanch h₁ h₂ ht
    (by rw [hdir]; exact hmaps.leaf) (Set.mem_insert F A) 0
  rw [hset] at halike₂ hanch₂
  exact ⟨m₂, n₂, by rw [hm, Option.bind_some, hm₂], by rw [hn, Option.bind_some, hn₂], halike₂,
    hanch₂⟩

/-! ## The new directory -/

theorem newDir (h : Alike ∅ m n) (hm : NewDir m m' a S) (hn : NewDir n n' a S)
    (hdir : m.frameTest m.dir = true)
    (hslot : (m.Scratch S ∧ n.Scratch S ∧ m.frameTest S = true) ∨ m.pde m.dir 1022 % 2 = 0)
    (htotal : n'.totalFrames = m'.totalFrames) (hlast : n'.lastAlloc = m'.lastAlloc)
    (htest : ∀ f, n'.frameTest f = m'.frameTest f)
    (hused : ∀ f, m'.frameTest f = true → f = a ∨ f = S ∨ m.frameTest f = true) :
    Alike ∅ m' n' := by
  have hbytes : ∀ {p q : Page}, (∀ i < 1024, LittleEndian.word p i = LittleEndian.word q i) →
      ∀ o < 4096, p o = q o := fun hw o ho ↦ eq_of_word_eq (hw (o / 4) (by omega))
  have hdirw : ∀ i < 1024, n'.pde m.dir i = m'.pde m.dir i := by
    intro i hi
    by_cases h1022 : i = 1022
    · obtain ⟨hsm, hsn, -⟩ | hp := hslot
      · have hown := (hn.own hsn).1
        rw [h.dir] at hown
        rw [Machine.pde, hown, Machine.pde, (hm.own hsm).1]
        exact h.word hdir (Set.notMem_empty _) hi
      · have hnp : n.pde n.dir 1022 % 2 = 0 := by
          rw [h.dir, h.pde hdir (Set.notMem_empty _) (by norm_num), hp]
        have hfresh := (hn.fresh hnp).1
        rw [h.dir] at hfresh
        rw [h1022, hfresh, (hm.fresh hp).1]
    · have hentry := hn.entry i h1022
      rw [h.dir] at hentry
      rw [hentry, hm.entry i h1022]
      exact h.pde hdir (Set.notMem_empty _) hi
  refine ⟨by rw [hn.cr3, hm.cr3, h.cr3], htotal, hlast, htest, fun f hf _ ↦ ?_⟩
  by_cases hfa : f = a
  · subst hfa
    refine hbytes fun i hi ↦ ?_
    rw [hn.image i hi, hm.image i hi, newEntry, newEntry, hn.dir, hm.dir, h.dir]
    split_ifs
    · rfl
    · exact hdirw i hi
    · rfl
  by_cases hfS : f = S
  · subst hfS
    refine hbytes fun i hi ↦ ?_
    by_cases h1023 : i = 1023
    · rw [h1023, hn.slot, hm.slot]
    obtain ⟨hsm, hsn, hSused⟩ | hp := hslot
    · have hkeep : ∀ {x x' : Machine}, (∀ o, o / 4 ≠ 1023 → x'.mem f o = x.mem f o) →
          LittleEndian.word (x'.mem f) i = LittleEndian.word (x.mem f) i :=
        fun hx ↦ word_congr fun o ho ↦ hx o (by omega)
      rw [hkeep (hn.own hsn).2, hkeep (hm.own hsm).2]
      exact h.word hSused (Set.notMem_empty _) hi
    · have hnp : n.pde n.dir 1022 % 2 = 0 := by
        rw [h.dir, h.pde hdir (Set.notMem_empty _) (by norm_num), hp]
      rw [(hn.fresh hnp).2 i (by omega), (hm.fresh hp).2 i (by omega)]
  by_cases hfd : f = m.dir
  · rw [hfd]
    exact hbytes hdirw
  · rw [hn.mem f hfa hfS (by rw [h.dir]; exact hfd), hm.mem f hfa hfS hfd]
    obtain heq | heq | hf := hused f hf
    · exact absurd heq hfa
    · exact absurd heq hfS
    · exact h.mem f hf (Set.notMem_empty f)

end Alike

/-- `paging_new_directory` made frame `a` a directory, `S` being the table of
the scratch slots. -/
structure Entered (B : ℕ) (L K : Set ℕ) (m m' : Machine) (a S : ℕ) : Prop where
  run : m.pagingNewDirectory = some (a * PAGE_SIZE, m')
  newDir : NewDir m m' a S
  ledger : m'.Ledger B (insert a L) (insert S K)
  holds : ∀ o f, m'.Holds (insert a L) o f ↔ m.Holds L o f ∨ o = .dir a ∧ f = a
  spared : m'.Spared (insert a L) (insert S K)
  totalFrames : m'.totalFrames = m.totalFrames
  test : ∀ f, m'.frameTest f = (decide (f = a ∨ f = S) || m.frameTest f)
  card : m'.free.card = m.free.card - (1 + if m.pde B 1022 % 2 = 0 then 1 else 0)
  slot : m.Scratch S ∨ m.pde m.dir 1022 % 2 = 0 ∧ (m.frameTest S = false ∨ S = 0)

/-- Frame 0 stays apart. -/
theorem Spared.newDir (hs : m.Spared L K) (ha : a ∈ m.free)
    (hholds : ∀ o f, m'.Holds (insert a L) o f ↔ m.Holds L o f ∨ o = .dir a ∧ f = a)
    (htest : m'.frameTest 0 = true) (hS : m'.free.Nonempty → S ≠ 0) :
    m'.Spared (insert a L) (insert S K) where
  used := htest
  loose hne := by
    obtain ⟨-, hK, hno⟩ := hs.loose ⟨a, ha⟩
    refine ⟨htest, ?_, fun o ho ↦ ?_⟩
    · rintro (heq | hmem)
      · exact hS hne heq.symm
      · exact hK hmem
    · obtain ho | ⟨-, heq⟩ := (hholds o 0).mp ho
      · exact hno o ho
      · exact Ledger.free_ne ha hs.used heq.symm

namespace Ledger

theorem entersScratch (h : m.Ledger B L K) (hs : m.Spared L K) (ha : a ∈ m.free)
    (halloc : m.pmmAllocFrame = (a * PAGE_SIZE, m.withAlloc a)) (hslot : m.pde B 1022 % 2 = 1) :
    ∃ m', Entered B L K m m' a (m.pde B 1022 / 4096) ∧ m'.lastAlloc = a := by
  have hSK := h.tables 1022 (Or.inr (by norm_num)) hslot
  have hSused := h.kernel _ hSK
  obtain ⟨q, m', rfl, hrun, hnew, hled, hholds⟩ := h.enterScratch ha halloc hslot rfl
  refine ⟨_, ⟨hrun, hnew, hled, hholds, hs.newDir ha hholds (by simp [hs.used]) fun _ h0 ↦ ?_, rfl,
    fun f ↦ ?_, ?_, Or.inl (h.scratch_loaded hslot)⟩, rfl⟩
  · exact (hs.loose ⟨a, ha⟩).2.1 (h0 ▸ hSK)
  · rw [setFrame_frameTest, setWord_frameTest, log_frameTest, withAlloc_frameTest]
    by_cases hfS : f = m.pde B 1022 / 4096
    · simp [hfS, hSused]
    · simp [hfS]
  · rw [setFrame_free, setWord_free, log_free, withAlloc_free, Finset.card_erase_of_mem ha,
      if_neg (by omega)]

theorem entersFresh (h : m.Ledger B {B} K) (hs : m.Spared {B} K) (ha : a ∈ m.free)
    (halloc : m.pmmAllocFrame = (a * PAGE_SIZE, m.withAlloc a)) (hslot : m.pde B 1022 % 2 = 0)
    {c : Call} (hc : c = .map TMP_VIRT (a * PAGE_SIZE) PAGE_WRITE)
    (halloc' : (S ∈ ((m.withAlloc a).log c).free ∧ ((m.withAlloc a).log c).pmmAllocFrame =
        (S * PAGE_SIZE, ((m.withAlloc a).log c).withAlloc S)) ∨
      (((m.withAlloc a).log c).free = ∅ ∧ S = 0 ∧ ((m.withAlloc a).log c).pmmAllocFrame =
        (0, ((m.withAlloc a).log c).log (.alloc 0)))) :
    ∃ m', Entered B {B} K m m' a S ∧
      m'.lastAlloc = ((m.withAlloc a).log c).pmmAllocFrame.2.lastAlloc := by
  subst hc
  have habsent : m.pde m.dir 1022 % 2 = 0 := by
    rw [h.shared _ h.loaded 1022 (Or.inr (by norm_num)), hslot]
  set c := Call.map TMP_VIRT (a * PAGE_SIZE) PAGE_WRITE with hc
  obtain ⟨hS, halloc'⟩ | ⟨hnone, rfl, halloc'⟩ := halloc'
  · obtain ⟨hSm, haS, hSK, hSno⟩ := h.slotTable hS
    obtain ⟨q, m', rfl, hrun, hnew, hled, hholds⟩ := h.enterFresh ha halloc hslot halloc' hSK hSno haS
      (free_lt hSm) ((mem_free _).mp hS).1.le (by simp) fun f hf ↦ by
        rw [withAlloc_frameTest, log_frameTest, hf, Bool.or_true]
    have htest : ∀ f, ((((((m.withAlloc a).log c).withAlloc S).withTable 1022 S).setWord S 1023
        (a * 4096 + 3)).setFrame a q).frameTest f = (decide (f = a ∨ f = S) || m.frameTest f) := by
      intro f
      simp only [setFrame_frameTest, setWord_frameTest, Machine.withTable, withAlloc_frameTest,
        log_frameTest, Bool.decide_or]
      rw [← Bool.or_assoc, Bool.or_comm (decide (f = S))]
    refine ⟨_, ⟨hrun, hnew, hled, hholds, hs.newDir ha hholds ?_ fun _ ↦ free_ne hSm hs.used, rfl,
      htest, ?_, Or.inr ⟨habsent, Or.inl ((mem_free m).mp hSm).2⟩⟩, by rw [halloc']; rfl⟩
    · rw [htest, hs.used, Bool.or_true]
    · rw [log_free, withAlloc_free] at hS
      rw [setFrame_free, setWord_free, Machine.withTable, setFrame_free, setWord_free, withAlloc_free,
        log_free, withAlloc_free, Finset.card_erase_of_mem hS, Finset.card_erase_of_mem ha, if_pos hslot]
      rfl
  · obtain ⟨-, h0K, h0no⟩ := hs.loose ⟨a, ha⟩
    have ha0 : a ≠ 0 := free_ne ha hs.used
    have hzero : ((m.withAlloc a).log c).pmmAllocFrame =
        (0 * PAGE_SIZE, ((m.withAlloc a).log c).log (.alloc 0)) := by rw [halloc', Nat.zero_mul]
    obtain ⟨q, m', rfl, hrun, hnew, hled, hholds⟩ := h.enterFresh ha halloc hslot hzero h0K h0no ha0
      (by norm_num) ((mem_free m).mp ha).1.le
      (by simp [hs.used]) fun f hf ↦ hf
    have htest : ∀ f, ((((((m.withAlloc a).log c).log (.alloc 0)).withTable 1022 0).setWord 0 1023
        (a * 4096 + 3)).setFrame a q).frameTest f = (decide (f = a ∨ f = 0) || m.frameTest f) := by
      intro f
      simp only [setFrame_frameTest, setWord_frameTest, Machine.withTable, withAlloc_frameTest,
        log_frameTest]
      by_cases hf0 : f = 0
      · simp [hf0, hs.used]
      · simp [hf0]
    refine ⟨_, ⟨hrun, hnew, hled, hholds, hs.newDir ha hholds ?_ fun hne ↦ ?_, rfl, htest, ?_,
      Or.inr ⟨habsent, Or.inr rfl⟩⟩, by rw [halloc']; rfl⟩
    · rw [htest, hs.used, Bool.or_true]
    · rw [setFrame_free, setWord_free, Machine.withTable, setFrame_free, setWord_free, log_free,
        hnone] at hne
      exact absurd hne Finset.not_nonempty_empty
    · rw [log_free, withAlloc_free] at hnone
      have hcard := Finset.card_erase_of_mem ha
      rw [hnone, Finset.card_empty] at hcard
      rw [setFrame_free, setWord_free, Machine.withTable, setFrame_free, setWord_free, log_free,
        log_free, withAlloc_free, hnone, Finset.card_empty, if_pos hslot]
      omega

end Ledger

/-- Both sides get the same directory, if the first one gets any. -/
theorem Alike.pagingNewDirectory (h : Alike ∅ m n) (hm : m.Ledger B L K) (hn : n.Ledger B L K)
    (hsm : m.Spared L K) (hsn : n.Spared L K) {addr : ℕ}
    (hrun : m.pagingNewDirectory = some (addr, m')) (haddr : addr ≠ 0) :
    ∃ a ∈ m.free, ∃ S n', addr = a * PAGE_SIZE ∧ Entered B L K m m' a S ∧
      Entered B L K n n' a S ∧ Alike ∅ m' n' := by
  have hdir := (hm.dir_used hm.loaded).1
  have hB : n.pde B 1022 = m.pde B 1022 :=
    h.pde (hm.dir_used hm.boot).1 (Set.notMem_empty _) (by norm_num)
  have hfst := (pagingNewDirectory_before hrun).1
  obtain ⟨a, ha, hma, hna⟩ | ⟨-, hma, -⟩ := h.pmmAllocFrame hm.lastAlloc
  · obtain rfl : addr = a * PAGE_SIZE := by rw [hfst, hma]
    have han : a ∈ n.free := by rw [h.free]; exact ha
    have hdone : ∀ {S m₁ n'}, Entered B L K m m₁ a S → Entered B L K n n' a S →
        n'.lastAlloc = m₁.lastAlloc →
        ((m.Scratch S ∧ n.Scratch S ∧ m.frameTest S = true) ∨ m.pde m.dir 1022 % 2 = 0) →
        ∃ a' ∈ m.free, ∃ S n', a * PAGE_SIZE = a' * PAGE_SIZE ∧ Entered B L K m m' a' S ∧
          Entered B L K n n' a' S ∧ Alike ∅ m' n' := by
      intro S m₁ n' hem hen hlast hslot
      have heq := hem.run
      rw [hrun, Option.some.injEq, Prod.mk.injEq] at heq
      obtain ⟨-, rfl⟩ := heq
      refine ⟨a, ha, S, n', rfl, hem, hen, h.newDir hem.newDir hen.newDir hdir hslot ?_ hlast
        (fun f ↦ ?_) fun f hf ↦ ?_⟩
      · rw [hen.totalFrames, hem.totalFrames, h.totalFrames]
      · rw [hen.test, hem.test, h.test]
      · rw [hem.test, Bool.or_eq_true, decide_eq_true_eq, or_assoc] at hf
        exact hf
    by_cases hslot : m.pde B 1022 % 2 = 1
    · obtain ⟨m₁, hem, hlm⟩ := hm.entersScratch hsm ha hma hslot
      obtain ⟨n', hen, hln⟩ := hn.entersScratch hsn han hna (by rw [hB, hslot])
      rw [hB] at hen
      have hsn' := hn.scratch_loaded (by rw [hB, hslot])
      rw [hB] at hsn'
      exact hdone hem hen (by rw [hln, hlm]) (Or.inl ⟨hm.scratch_loaded hslot, hsn',
        hm.kernel _ (hm.tables 1022 (Or.inr (by norm_num)) hslot)⟩)
    · obtain rfl := hm.scratch.resolve_left hslot
      have hp : m.pde B 1022 % 2 = 0 := by omega
      set c := Call.map TMP_VIRT (a * PAGE_SIZE) PAGE_WRITE with hc
      have halike : Alike {a} ((m.withAlloc a).log c) ((n.withAlloc a).log c) :=
        ((h.alloc a).mono (by simp)).log c c
      have hpdir : m.pde m.dir 1022 % 2 = 0 := by
        rw [Set.mem_singleton_iff.mp hm.loaded, hp]
      obtain ⟨S, hS, hmS, hnS⟩ | ⟨hnone, hmS, hnS⟩ := halike.pmmAllocFrame
        (show a ≤ m.totalFrames from ((mem_free m).mp ha).1.le)
      · obtain ⟨m₁, hem, hlm⟩ := hm.entersFresh hsm ha hma hp hc (Or.inl ⟨hS, hmS⟩)
        obtain ⟨n', hen, hln⟩ := hn.entersFresh hsn han hna (by rw [hB, hp]) hc
          (Or.inl ⟨by rw [halike.free]; exact hS, hnS⟩)
        exact hdone hem hen (by rw [hln, hlm, hmS, hnS]; rfl) (Or.inr hpdir)
      · obtain ⟨m₁, hem, hlm⟩ := hm.entersFresh hsm ha hma hp hc (Or.inr ⟨hnone, rfl, hmS⟩)
        obtain ⟨n', hen, hln⟩ := hn.entersFresh hsn han hna (by rw [hB, hp]) hc
          (Or.inr ⟨by rw [halike.free]; exact hnone, rfl, hnS⟩)
        exact hdone hem hen (by rw [hln, hlm, hmS, hnS]; rfl) (Or.inr hpdir)
  · rw [hma] at hfst
    exact absurd hfst haddr

/-- No other table of the kernel is that of the scratch slots. -/
theorem Ledger.slot_ne (h : m.Ledger B L K) (hD : D ∈ L) (hd : KernelEntry d) (hne : d ≠ 1022)
    (hp : m.pde D d % 2 = 1) (hslot : m.pde B 1022 % 2 = 1) :
    m.pde D d / 4096 ∈ K ∧ m.pde D d / 4096 ≠ m.pde B 1022 / 4096 := by
  rw [h.shared D hD d hd] at hp ⊢
  exact ⟨h.tables d hd hp, h.slots d hd hne hp hslot⟩

/-! ## In the new directory -/

open Classical in
/-- Frames in use that are no tables, as the kernel's entries of the loaded directory
show them outside of `pages`. -/
noncomputable def outerView (m : Machine) (pages : List ℕ) : Bytes := fun x ↦
  if KernelEntry (x >>> 22) ∧ x >>> 22 ≠ 1022 ∧ x / 4096 * 4096 ∉ pages then
    (m.translate x).bind fun p ↦
      if m.frameTest p.1 = true ∧ p.1 ≠ 0 ∧ ¬ m.InUse p.1 then some (m.mem p.1 p.2) else none
  else none

theorem outerView_eq_some {x : ℕ} {b : UInt8} (h : m.outerView l x = some b) :
    KernelEntry (x >>> 22) ∧ x >>> 22 ≠ 1022 ∧ x / 4096 * 4096 ∉ l ∧ ∃ F o,
      m.translate x = some (F, o) ∧ m.frameTest F = true ∧ F ≠ 0 ∧ ¬ m.InUse F ∧ m.mem F o = b := by
  rw [outerView] at h
  split at h
  · next hx =>
    rw [Option.bind_eq_some_iff] at h
    obtain ⟨⟨F, o⟩, htrans, h⟩ := h
    split at h
    · next hF => exact ⟨hx.1, hx.2.1, hx.2.2, F, o, htrans, hF.1, hF.2.1, hF.2.2, Option.some.inj h⟩
    · cases h
  · cases h

namespace Entered

theorem switch_dir : (m'.pagingSwitchDirectory (a * PAGE_SIZE)).dir = a :=
  Nat.mul_div_cancel a (by decide)

theorem switch_ledger (h : Entered B L K m m' a S) :
    (m'.pagingSwitchDirectory (a * PAGE_SIZE)).Ledger B (insert a L) (insert S K) :=
  h.ledger.switch (Set.mem_insert a L)

theorem switch_spared (h : Entered B L K m m' a S) :
    (m'.pagingSwitchDirectory (a * PAGE_SIZE)).Spared (insert a L) (insert S K) :=
  ⟨h.spared.used, h.spared.loose⟩

/-- It has the table of the scratch slots. -/
theorem slot_entry (h : Entered B L K m m' a S) :
    m'.pde B 1022 % 2 = 1 ∧ m'.pde B 1022 / 4096 = S := by
  have hshared := h.ledger.shared _ h.ledger.loaded 1022 (Or.inr (by norm_num))
  rw [← hshared]
  exact ⟨h.newDir.scratch.present, h.newDir.scratch.table⟩

theorem switch_scratch (h : Entered B L K m m' a S) :
    (m'.pagingSwitchDirectory (a * PAGE_SIZE)).Scratch S := by
  have hs := h.switch_ledger.scratch_loaded h.slot_entry.1
  rwa [show (m'.pagingSwitchDirectory (a * PAGE_SIZE)).pde B 1022 / 4096 = S from
    h.slot_entry.2] at hs

/-- It is empty but for the kernel. -/
theorem user_entry (h : Entered B L K m m' a S) (h₁ : 1 ≤ d) (h₂ : d < 768) :
    (m'.pagingSwitchDirectory (a * PAGE_SIZE)).pde a d = 0 := by
  refine (h.newDir.image d (by omega)).trans ?_
  rw [newEntry, if_neg (by omega), if_neg (by omega)]

theorem kernel_entry (h : Entered B L K m m' a S) (hd : KernelEntry d) (hne : d ≠ 1022) :
    (m'.pagingSwitchDirectory (a * PAGE_SIZE)).pde a d = m.pde m.dir d := by
  rw [KernelEntry] at hd
  refine (h.newDir.image d (by omega)).trans ?_
  rw [newEntry, if_neg (by omega), if_pos (by omega), h.newDir.dir, h.newDir.entry d hne]

/-- Tables of the kernel keep their entries, but for the scratch slots. -/
theorem kernel_table (h : Entered B L K m m' a S) (hled : m.Ledger B L K) (ha : a ∈ m.free)
    (hd : KernelEntry d) (hne : d ≠ 1022) (hp : m.pde m.dir d % 2 = 1) :
    m.pde m.dir d / 4096 ∈ K ∧ m'.mem (m.pde m.dir d / 4096) = m.mem (m.pde m.dir d / 4096) := by
  have hT : m.pde m.dir d / 4096 ∈ K := by
    rw [hled.shared _ hled.loaded d hd] at hp ⊢
    exact hled.tables d hd hp
  have hentry := h.kernel_entry hd hne
  have hslot := h.switch_ledger.slot_ne (Set.mem_insert a L) hd hne (by rw [hentry, hp]) h.slot_entry.1
  rw [hentry] at hslot
  refine ⟨hT, h.newDir.mem _ (fun heq ↦ ?_) (fun heq ↦ hslot.2 (heq.trans h.slot_entry.2.symm))
    fun heq ↦ ?_⟩
  · exact Ledger.free_ne ha (hled.kernel _ hT) heq.symm
  · exact (hled.kernel_plain hT).1 (by rw [heq]; exact hled.loaded)

theorem kernel_page (h : Entered B L K m m' a S) (hled : m.Ledger B L K) (ha : a ∈ m.free)
    (hd : KernelEntry d) (hne : d ≠ 1022) :
    (m'.pagingSwitchDirectory (a * PAGE_SIZE)).pageEntry d t = m.pageEntry d t := by
  have hentry := h.kernel_entry hd hne
  rw [pageEntry_eq, pageEntry_eq, switch_dir, hentry]
  by_cases hp : m.pde m.dir d % 2 = 0
  · rw [if_pos hp, if_pos hp]
  · rw [if_neg hp, if_neg hp, pte, pte, hentry,
      show (m'.pagingSwitchDirectory (a * PAGE_SIZE)).mem = m'.mem from rfl,
      (h.kernel_table hled ha hd hne (by omega)).2]

theorem paged (h : Entered B L K m m' a S) (hled : m.Ledger B L K) (hp : m.Paged) (ha : a ∈ m.free) :
    (m'.pagingSwitchDirectory (a * PAGE_SIZE)).Paged := by
  set x := m'.pagingSwitchDirectory (a * PAGE_SIZE) with hx
  have hdir : x.dir = a := switch_dir
  have hledx : x.Ledger B (insert a L) (insert S K) := h.switch_ledger
  have haL : a ∈ insert a L := Set.mem_insert a L
  have hself : x.pde a 1023 / 4096 = a := (hledx.self a haL).2
  have hkernel : ∀ i < 1023, x.pde a i % 2 = 1 → KernelEntry i := by
    intro i hi hodd
    by_contra hno
    rw [KernelEntry] at hno
    rw [h.user_entry (by omega) (by omega)] at hodd
    cases hodd
  have htable : ∀ i, KernelEntry i → x.pde a i % 2 = 1 → x.pde a i / 4096 ≠ a := by
    intro i hi hodd heq
    have hshare := hledx.shared a haL i hi
    rw [hshare] at hodd
    have hK := hledx.tables i hi hodd
    rw [← hshare, heq] at hK
    exact (hledx.dir_used haL).2 hK
  have hslot : ∀ i, KernelEntry i → i ≠ 1022 → x.pde a i % 2 = 1 →
      x.pde a i / 4096 ≠ x.pde a 1022 / 4096 := by
    intro i hi hne hodd
    rw [hledx.shared a haL 1022 (Or.inr (by norm_num))]
    exact (hledx.slot_ne haL hi hne hodd h.slot_entry.1).2
  refine ⟨hledx.recursive, fun d d' hd hd' hodd hodd' heq ↦ ?_, fun d t hd ht hc ↦ ?_⟩
  · rw [hdir] at hodd hodd' heq
    by_cases hd3 : d = 1023
    · by_contra hne
      rw [hd3, hself] at heq
      exact htable d' (hkernel d' (by omega) hodd') hodd' heq.symm
    by_cases hd3' : d' = 1023
    · rw [hd3', hself] at heq
      exact absurd heq (htable d (hkernel d (by omega) hodd) hodd)
    have hk := hkernel d (by omega) hodd
    have hk' := hkernel d' (by omega) hodd'
    by_cases hd2 : d = 1022
    · by_contra hne
      rw [hd2] at heq
      exact hslot d' hk' (by omega) hodd' heq.symm
    by_cases hd2' : d' = 1022
    · rw [hd2'] at heq
      exact absurd heq (hslot d hk hd2 hodd)
    rw [h.kernel_entry hk hd2] at hodd heq
    rw [h.kernel_entry hk' hd2'] at hodd' heq
    exact hp.distinct d d' hd hd' hodd hodd' heq
  · rw [hdir]
    have hodd : x.pde a d % 2 = 1 := by
      rw [hdir, copied_iff] at hc
      exact hc.1
    have hk := hkernel d hd hodd
    by_cases hd2 : d = 1022
    · subst hd2
      have hentry : x.pde a 1022 = m'.pde m.dir 1022 := by
        refine (h.newDir.image 1022 (by norm_num)).trans ?_
        rw [newEntry, if_neg (by norm_num), if_pos (by norm_num), h.newDir.dir]
      have hpte : x.pte a 1022 t = LittleEndian.word (m'.mem S) t := by
        rw [pte, hledx.shared a haL 1022 (Or.inr (by norm_num)),
          show x.pde B 1022 / 4096 = S from h.slot_entry.2]
        rfl
      rw [hdir, copied_iff, hpte] at hc
      obtain ⟨-, hc, hu⟩ := hc
      by_cases ht3 : t = 1023
      · -- the slot is not for user code
        rw [ht3, h.newDir.slot, and_user_mod, show (a * 4096 + 3) % 4096 = 3 by omega] at hu
        exact absurd rfl hu
      obtain hs | ⟨heven, -⟩ := h.slot
      · obtain ⟨hown, hkeep⟩ := h.newDir.own hs
        have hword : LittleEndian.word (m'.mem S) t = m.pte m.dir 1022 t := by
          rw [pte, hs.table]
          exact word_congr fun o ho ↦ hkeep o (by omega)
        have hpde : m'.pde m.dir 1022 = m.pde m.dir 1022 := by rw [pde, hown, pde]
        rw [hword] at hc hu
        rw [hentry, hpde] at hodd ⊢
        exact hp.user 1022 t (by norm_num) ht (copied_iff.mpr ⟨hodd, hc, hu⟩)
      · rw [(h.newDir.fresh heven).2 t (by omega)] at hc
        cases hc
    · rw [copied_iff_entry, h.kernel_page hled ha hk hd2, ← copied_iff_entry] at hc
      rw [h.kernel_entry hk hd2]
      exact hp.user d t hd ht hc

/-- The old memory of the kernel is behind the same addresses. -/
theorem backs (h : Entered B L K m m' a S) (hled : m.Ledger B L K) (ha : a ∈ m.free) (l : List ℕ) :
    (m'.pagingSwitchDirectory (a * PAGE_SIZE)).Backs
      {f | (m'.pagingSwitchDirectory (a * PAGE_SIZE)).frameTest f = true ∧ f ≠ 0} (m.outerView l) := by
  intro x b hb
  obtain ⟨hd, hne, -, F, o, htrans, hused, hF0, hno, rfl⟩ := outerView_eq_some hb
  have hx : x < 0xFFC00000 := by
    rw [Nat.shiftRight_eq_div_pow, KernelEntry] at hd
    omega
  have hFa : F ≠ a := fun heq ↦ Ledger.free_ne ha hused heq.symm
  have hFS : F ≠ S := by
    rintro rfl
    obtain hs | ⟨-, hfree | rfl⟩ := h.slot
    · exact hno ⟨1022, by norm_num, hs.present, hs.table⟩
    · rw [hused] at hfree
      cases hfree
    · exact hF0 rfl
  have hFdir : F ≠ m.dir := fun heq ↦
    hno ⟨1023, by norm_num, hled.recursive.present, hled.recursive.self.trans heq.symm⟩
  obtain ⟨d, t, o', hd', ht, ho, rfl⟩ := exists_pageAddr (show x < 2 ^ 32 by omega)
  have hidx : (pageAddr d t + o') >>> 22 = d := by
    rw [Nat.shiftRight_eq_div_pow, pageAddr]
    omega
  have hmod : (pageAddr d t + o') % 4096 = o' := by
    simp only [pageAddr]
    omega
  rw [hidx] at hd hne
  rw [translate_page hd' ht ho, Option.map_eq_some_iff] at htrans
  obtain ⟨G, hG, heq⟩ := htrans
  obtain ⟨rfl, rfl⟩ := Prod.mk.inj heq
  refine ⟨hx, G, ?_, ?_, ⟨?_, hF0⟩, ?_⟩
  · rw [translate_page hd' ht ho, frameAt_eq, h.kernel_page hled ha hd hne, ← frameAt_eq, hG, hmod]
    rfl
  · rw [hmod]
    exact congrFun (h.newDir.mem G hFa hFS hFdir) o'
  · exact (h.test G).trans (by rw [hused, Bool.or_true])
  · rintro ⟨i, hi, hodd, heq⟩
    rw [switch_dir] at hodd heq
    by_cases h3 : i = 1023
    · rw [h3, (h.switch_ledger.self a (Set.mem_insert a L)).2] at heq
      exact hFa heq.symm
    by_cases hk : KernelEntry i
    · by_cases h2 : i = 1022
      · rw [h2, h.switch_ledger.shared a (Set.mem_insert a L) 1022 (Or.inr (by norm_num)),
          show (m'.pagingSwitchDirectory (a * PAGE_SIZE)).pde B 1022 / 4096 = S from
            h.slot_entry.2] at heq
        exact hFS heq.symm
      · rw [h.kernel_entry hk h2] at hodd heq
        exact hno ⟨i, hi, hodd, heq⟩
    · rw [KernelEntry] at hk
      rw [h.user_entry (by omega) (by omega)] at hodd
      cases hodd

end Entered

/-! ## The old directory -/

/-- The frames of directory `D` are free again, and the entries of the loaded one are
as they were. -/
structure Releases (D : ℕ) (m m' : Machine) : Prop where
  totalFrames : m'.totalFrames = m.totalFrames
  test : ∀ f, m'.frameTest f = true ↔ m.frameTest f = true ∧ f ∉ m.spaceFrames D
  pde : ∀ i, m'.pde m'.dir i = m.pde m.dir i
  packed : m.Packed → m'.Packed
  idle : ∀ f, m'.frameTest f = false → m'.mem f = m.mem f

/-- Frame 0, and what the walk and the pages of the loaded space refer to. -/
def Anchored.Refers (V : Set ℕ) (m : Machine) (f : ℕ) : Prop :=
  f = 0 ∨ Anchored.Reads m f ∨
    ∃ d t, d < 1023 ∧ t < 1024 ∧ Watched V d t ∧ m.leaf m.dir d t = some f

/-- The space stays anchored when frames are given back that it does not refer to. -/
theorem Anchored.frees {X : Set ℕ} (ha : Anchored ∅ V m) (hfrees : Frees S m m' X) (hs : m.Scratch S)
    (hS : m.pde m.dir 0 / 4096 ≠ S) (hX : ∀ f, Anchored.Refers V m f → f ∉ X)
    (h₂ : LittleEndian.word (m'.mem S) 1022 = 0) (h₃ : LittleEndian.word (m'.mem S) 1023 = 0) :
    Anchored ∅ V m' := by
  have hdir := hfrees.dir
  have hpde : ∀ i, m'.pde m.dir i = m.pde m.dir i := fun i ↦ by
    rw [Machine.pde, hfrees.mem _ hs.ne.symm, Machine.pde]
  have hkeep : ∀ f, m.frameTest f = true → Anchored.Refers V m f → m'.frameTest f = true :=
    fun f hf hrefers ↦ (hfrees.test f).mpr ⟨hf, hX f hrefers⟩
  have hreads : ∀ f, Anchored.Reads m f → m'.frameTest f = true := fun f hf ↦
    hkeep f (ha.reads hf).1 (Or.inr (Or.inl hf))
  obtain ⟨hp, hused, -, h0, hne, hfull⟩ := ha.low
  refine ⟨?_, ha.recursive.congr hfrees.cr3 (by rw [hfrees.mem _ hs.ne.symm]),
    fun f hf ↦ absurd hf (Set.notMem_empty f),
    ⟨hkeep 0 ha.zero.1 (Or.inl rfl), Set.notMem_empty 0, by rw [hdir]; exact ha.zero.2.2⟩,
    ⟨by rw [hdir]; exact hreads _ (Or.inl rfl), Set.notMem_empty _⟩, fun d h₁ hd hp ↦ ?_,
    fun d t F hd ht hw hF ↦ ?_, ?_⟩
  · rw [hfrees.totalFrames]
    exact (((hfrees.lastAlloc _).mp le_rfl).1).trans ha.lastAlloc
  · rw [hdir, hpde] at hp ⊢
    exact ⟨hreads _ (Or.inr ⟨d, hd, hp, rfl⟩), Set.notMem_empty _, ha.table_ne hd hp⟩
  · rw [hdir, leaf_eq_some, hpde, pte, hpde] at hF
    obtain ⟨hp, hq, rfl⟩ := hF
    have hword : LittleEndian.word (m'.mem (m.pde m.dir d / 4096)) t = m.pte m.dir d t := by
      rw [pte]
      by_cases hT : m.pde m.dir d / 4096 = S
      · rw [hT] at hq ⊢
        -- the slots are empty, the other entries as they were
        have hlt : t < 1022 := by
          by_contra hge
          obtain rfl | rfl : t = 1022 ∨ t = 1023 := by omega
          · rw [h₂] at hq
            cases hq
          · rw [h₃] at hq
            cases hq
        exact hfrees.slot_word hlt
      · rw [hfrees.mem _ hT]
    rw [hword] at hq ⊢
    have hleaf : m.leaf m.dir d t = some (m.pte m.dir d t / 4096) := leaf_eq_some.mpr ⟨hp, hq, rfl⟩
    exact hkeep _ (ha.leaf d t _ hd ht hw hleaf) (Or.inr (Or.inr ⟨d, t, hd, ht, hw, hleaf⟩))
  · rw [hdir, hpde]
    refine ⟨hp, hreads _ (Or.inr ⟨0, by norm_num, hp, rfl⟩), Set.notMem_empty _, h0, hne, fun t ht ↦ ?_⟩
    rw [pte, hpde, hfrees.mem _ hS]
    exact hfull t ht

namespace Alike

/-- The same frames are given back. -/
theorem pagingFreeDirectory (h : Alike ∅ m n) (ha : Anchored ∅ V m) (hs : m.Scratch S)
    (hlow : m.pde m.dir 0 / 4096 ≠ S) (hlt : D < 2 ^ 20) (hD : m.frameTest D = true ∧ D ≠ S)
    (hT : ∀ d, 1 ≤ d → d < 768 → m.pde D d % 2 = 1 →
      m.frameTest (m.pde D d / 4096) = true ∧ m.pde D d / 4096 ≠ S)
    (hkeep : ∀ f, Anchored.Refers V m f → f ∉ m.spaceFrames D) :
    ∃ m' n', m.pagingFreeDirectory (D * PAGE_SIZE) = some m' ∧
      n.pagingFreeDirectory (D * PAGE_SIZE) = some n' ∧ Alike ∅ m' n' ∧ Anchored ∅ V m' ∧
      Releases D m m' ∧ ∀ f, n'.frameTest f = false → n'.mem f = n.mem f := by
  have hSread : Anchored.Reads m S := Or.inr ⟨1022, by norm_num, hs.present, hs.table.symm⟩
  have hSused : m.frameTest S = true := (ha.reads hSread).1
  have hpdeD : ∀ d < 1024, n.pde D d = m.pde D d := fun d hd ↦
    h.pde hD.1 (Set.notMem_empty _) hd
  have hsn : n.Scratch S := by
    have hpde : n.pde n.dir 1022 = m.pde m.dir 1022 := by
      rw [h.dir]
      exact h.pde ha.dir.1 (Set.notMem_empty _) (by norm_num)
    exact ⟨h.recursive ha, by rw [hpde, hs.present], by rw [hpde, hs.table], by rw [h.dir]; exact hs.ne⟩
  -- both sides by what the call does
  obtain ⟨m', hrun, hfm, hm1022, hm1023⟩ := pagingFreeDirectory_spec hs hD.2 hlt
    fun d h₁ h₂ hp ↦ (hT d h₁ h₂ hp).2
  obtain ⟨n', hrunn, hfn, hn1022, hn1023⟩ := pagingFreeDirectory_spec hsn hD.2 hlt
    fun d h₁ h₂ hp ↦ by
      rw [hpdeD d (by omega)] at hp ⊢
      exact (hT d h₁ h₂ hp).2
  have hspace : n.spaceFrames D = m.spaceFrames D := by
    have htable : ∀ d, 1 ≤ d → d < 768 → n.tableFrames D d = m.tableFrames D d := by
      intro d h₁ h₂
      have hpde := hpdeD d (by omega)
      rw [tableFrames, tableFrames, hpde]
      by_cases hp : m.pde D d % 2 = 0
      · rw [if_pos hp, if_pos hp]
      · have hodd : m.pde D d % 2 = 1 := by omega
        rw [if_neg hp, if_neg hp, leaves_eq hodd, leaves_eq (hpde ▸ hodd), presentFrames,
          presentFrames, hpde]
        congr 1
        ext f
        refine exists_congr fun t ↦ and_congr_right fun ht ↦ ?_
        rw [h.word (hT d h₁ h₂ hodd).1 (Set.notMem_empty _) (List.mem_range.mp ht)]
    rw [spaceFrames, spaceFrames]
    congr 1
    exact Set.iUnion₂_congr fun d hd ↦ htable d hd.1 hd.2
  rw [hspace] at hfn
  have htest : ∀ f, n'.frameTest f = m'.frameTest f := fun f ↦ by
    rw [Bool.eq_iff_iff, hfn.test, hfm.test, h.test]
  have hSused' : m'.frameTest S = true := (hfm.test S).mpr ⟨hSused, hkeep S (Or.inr (Or.inl hSread))⟩
  have hidle : ∀ f, m'.frameTest f = false → f ≠ S := by
    rintro f hf rfl
    rw [hSused'] at hf
    cases hf
  refine ⟨m', n', hrun, hrunn, ⟨by rw [hfn.cr3, hfm.cr3, h.cr3],
    by rw [hfn.totalFrames, hfm.totalFrames, h.totalFrames], ?_, htest, fun f hf _ o ho ↦ ?_⟩,
    ha.frees hfm hs hlow hkeep hm1022 hm1023,
    ⟨hfm.totalFrames, hfm.test, fun i ↦ ?_, fun hpacked ↦ ⟨?_, fun f hf ↦ ?_⟩,
      fun f hf ↦ hfm.mem f (hidle f hf)⟩, fun f hf ↦ hfn.mem f (hidle f ((htest f).symm.trans hf))⟩
  · apply eq_of_forall_le_iff
    intro x
    rw [hfn.lastAlloc, hfm.lastAlloc, h.lastAlloc]
  · have hused : m.frameTest f = true := ((hfm.test f).mp hf).1
    by_cases hfS : f = S
    · subst hfS
      refine eq_of_word_eq ?_
      by_cases h1022 : o / 4 = 1022
      · rw [h1022, hn1022, hm1022]
      by_cases h1023 : o / 4 = 1023
      · rw [h1023, hn1023, hm1023]
      · rw [hfn.slot_word (by omega), hfm.slot_word (by omega)]
        exact h.word hused (Set.notMem_empty _) (by omega)
    · rw [hfn.mem f hfS, hfm.mem f hfS]
      exact h.mem f hused (Set.notMem_empty f) o ho
  · rw [hfm.dir, Machine.pde, hfm.mem _ hs.ne.symm, Machine.pde]
  · rw [hfm.totalFrames]
    exact ((hfm.lastAlloc _).mp le_rfl).1.trans hpacked.lastAlloc
  · obtain ⟨hlast, hfreed⟩ := (hfm.lastAlloc _).mp le_rfl
    exact (hfm.test f).mpr ⟨hpacked.below f (hf.trans_le hlast), fun hmem ↦
      absurd (hfreed f hmem) (not_le.mpr hf)⟩

end Alike

/-! ## When the image is loaded -/

/-- A directory that is empty but for the kernel, whose first table is complete. -/
structure Bare (m : Machine) : Prop where
  ready : m.Ready
  dir : m.dir ≠ 0
  user : ∀ d, 1 ≤ d → d < 768 → m.pde m.dir d = 0
  low : ∀ t < 1024, m.frameAt 0 t ≠ none
  first : m.pde m.dir 0 / 4096 ≠ 0

theorem Entered.bare (h : Entered B L K m m' a S) (hled : m.Ledger B L K) (hs : m.Spared L K)
    (hp : m.Paged) (ha : a ∈ m.free) (hlow : ∀ t < 1024, m.frameAt 0 t ≠ none) :
    (m'.pagingSwitchDirectory (a * PAGE_SIZE)).Bare := by
  have hk : KernelEntry 0 := Or.inl rfl
  obtain ⟨-, h0K, -⟩ := hs.loose ⟨a, ha⟩
  refine ⟨h.switch_ledger.ready h.switch_spared (h.paged hled hp ha), ?_, fun d h₁ h₂ ↦ ?_,
    fun t ht ↦ ?_, fun heq ↦ ?_⟩
  · rw [switch_dir]
    exact Ledger.free_ne ha hs.used
  · rw [switch_dir, h.user_entry h₁ h₂]
  · rw [frameAt_eq, h.kernel_page hled ha hk (by norm_num), ← frameAt_eq]
    exact hlow t ht
  · obtain ⟨F, hF⟩ := Option.ne_none_iff_exists'.mp (hlow 0 (by norm_num))
    rw [switch_dir, h.kernel_entry hk (by norm_num)] at heq
    have hT := (h.kernel_table hled ha hk (by norm_num) (frameAt_eq_some.mp hF).1).1
    rw [heq] at hT
    exact h0K hT

namespace Lays

/-- The new space, with an image that has a byte on each page of `V`. -/
theorem anchored (h : Lays U l ν m m') (hb : m.Bare) (hV : ∀ v ∈ V, ν v ≠ none) : Anchored ∅ V m' := by
  have hpaged := h.ready.paged
  have hdir := h.spreads.dir
  obtain ⟨F, hF⟩ := Option.ne_none_iff_exists'.mp (hb.low 0 (by norm_num))
  obtain ⟨hodd, hdiv⟩ := h.spreads.entry 0 (frameAt_eq_some.mp hF).1
  rw [← hdir] at hodd hdiv
  refine ⟨h.ready.lastAlloc, hpaged.window, fun f hf ↦ absurd hf (Set.notMem_empty f),
    ⟨h.ready.zero, Set.notMem_empty 0, by rw [hdir]; exact hb.dir⟩,
    ⟨h.ready.tables _ hpaged.inUse_dir, Set.notMem_empty _⟩, fun d _ hd hp ↦ ?_,
    fun d t F hd ht hw hF ↦ ?_, hodd, h.ready.tables _ ⟨0, by norm_num, hodd, rfl⟩,
    Set.notMem_empty _, ?_, hpaged.table_ne_dir (by norm_num) hodd, fun t ht ↦ ?_⟩
  · exact ⟨h.ready.tables _ ⟨d, by omega, hp, rfl⟩, Set.notMem_empty _, hpaged.table_ne_dir hd hp⟩
  · obtain ⟨h₁, h₂⟩ | hv := hw
    · obtain hold | ⟨-, hused⟩ := h.spreads.frame d t F hd ht hF
      · have hp := (frameAt_eq_some.mp hold).1
        rw [hb.user d h₁ h₂] at hp
        cases hp
      · exact hused
    · obtain ⟨b, hb⟩ := Option.ne_none_iff_exists'.mp (hV _ hv)
      obtain ⟨-, G, htrans, -, hused, -⟩ := h.shows.shown _ b hb
      have hpage := translate_page (m := m') (o := 0) (show d < 1024 by omega) ht (by norm_num)
      rw [Nat.add_zero, frameAt, hF, Option.map_some] at hpage
      rw [hpage, Option.some.injEq, Prod.mk.injEq] at htrans
      rw [htrans.1]
      exact hused
  · rw [hdiv, hdir]
    exact hb.first
  · obtain ⟨G, hG⟩ := Option.ne_none_iff_exists'.mp
      (h.spreads.present 0 t (by norm_num) ht (hb.low t ht))
    exact (frameAt_eq_some.mp hG).2.1

/-- What the new space refers to are tables of the kernel and frames that were free. -/
theorem refers (h : Lays U l ν m m') (hb : m.Bare) (hV : ∀ v ∈ V, ν v ≠ none)
    (hf : Anchored.Refers V m' f) : f = 0 ∨ m.InUse f ∨ f ∉ U := by
  obtain rfl | hread | ⟨d, t, hd, ht, hw, hF⟩ := hf
  · exact Or.inl rfl
  · right
    obtain rfl | ⟨d, hd, hp, rfl⟩ := hread
    · exact h.spreads.table _ h.ready.paged.inUse_dir
    · exact h.spreads.table _ ⟨d, by omega, hp, rfl⟩
  · right
    right
    obtain ⟨h₁, h₂⟩ | hv := hw
    · obtain hold | ⟨hnew, -⟩ := h.spreads.frame d t f hd ht hF
      · have hp := (frameAt_eq_some.mp hold).1
        rw [hb.user d h₁ h₂] at hp
        cases hp
      · exact hnew
    · obtain ⟨b, hb⟩ := Option.ne_none_iff_exists'.mp (hV _ hv)
      obtain ⟨-, G, htrans, -, -, -, hG, -⟩ := h.shows.shown _ b hb
      have hpage := translate_page (m := m') (o := 0) (show d < 1024 by omega) ht (by norm_num)
      rw [Nat.add_zero, frameAt, hF, Option.map_some] at hpage
      rw [hpage, Option.some.injEq, Prod.mk.injEq] at htrans
      rw [htrans.1]
      exact hG

end Lays

end Machine

end EclipseOS
