import EclipseOS.PageMap
import EclipseOS.Relocating

/-!
# Loading over anything

A page that `elf_load` maps shows a frame of its own from then on, whatever it
showed before and whatever else is mapped.  Below the recursive window the image
comes out as its segments are placed, wherever they are.
-/

namespace EclipseOS

open LittleEndian

namespace Machine

variable {m m' m'' m₀ : Machine} {d d' t t' v x y n f F G P base k : ℕ} {B : ℕ} {A L K U : Set ℕ}
variable {κ μ ν : Bytes} {data : Image} {l l' : List ℕ}

/-- The tables of the loaded directory are frames in use.  So is frame 0, which is
a table only when there is no frame left. -/
structure Ready (m : Machine) : Prop where
  paged : m.Paged
  lastAlloc : m.lastAlloc ≤ m.totalFrames
  zero : m.frameTest 0 = true
  tables : ∀ F, m.InUse F → m.frameTest F = true
  loose : m.free.Nonempty → ¬ m.InUse 0

/-- Whose the tables of the loaded directory are. -/
theorem Ledger.inUse_cases (h : m.Ledger B L K) (hf : m.InUse f) :
    f ∈ K ∨ ∃ o, o.space = m.dir ∧ m.Holds L o f := by
  obtain ⟨d, hd, hpde, rfl⟩ := hf
  by_cases hself : d = 1023
  · rw [hself, (h.self _ h.loaded).2]
    exact Or.inr ⟨.dir m.dir, rfl, h.loaded, rfl⟩
  · by_cases hkernel : KernelEntry d
    · have hshare := h.shared _ h.loaded d hkernel
      rw [hshare] at hpde ⊢
      exact Or.inl (h.tables d hkernel hpde)
    · have hrange : 1 ≤ d ∧ d < 768 := by
        rw [KernelEntry] at hkernel
        omega
      exact Or.inr ⟨.table m.dir d, rfl, h.loaded, hrange.1, hrange.2, hpde, rfl⟩

theorem Ledger.ready (h : m.Ledger B L K) (hs : m.Spared L K) (hp : m.Paged) : m.Ready := by
  refine ⟨hp, h.lastAlloc, hs.used, fun F hF ↦ ?_, fun hne h0 ↦ ?_⟩
  · obtain hK | ⟨o, -, ho⟩ := h.inUse_cases hF
    · exact h.kernel F hK
    · exact (h.used o F ho).1
  · obtain ⟨-, h0K, hno⟩ := hs.loose hne
    obtain hK | ⟨o, -, ho⟩ := h.inUse_cases h0
    · exact h0K hK
    · exact hno o ho

theorem frameAt_eq (m : Machine) (d t : ℕ) : m.frameAt d t = (m.pageEntry d t).map Prod.fst := by
  rw [pageEntry, Option.map_map]
  exact Option.map_id'.symm

namespace Ready

theorem log (h : m.Ready) (c : Call) : (m.log c).Ready :=
  ⟨h.paged.log c, h.lastAlloc, h.zero, h.tables, h.loose⟩

theorem withAlloc (h : m.Ready) (hF : F ∈ m.free) : (m.withAlloc F).Ready := by
  refine ⟨⟨h.paged.window.congr rfl rfl, h.paged.distinct, h.paged.user⟩,
    (((mem_free m).mp hF).1).le, ?_, fun G hG ↦ ?_, fun _ ↦ h.loose ⟨F, hF⟩⟩
  · rw [withAlloc_frameTest, h.zero, Bool.or_true]
  · rw [withAlloc_frameTest, h.tables G hG, Bool.or_true]

/-- A free frame is no table. -/
theorem fresh (h : m.Ready) (hF : F ∈ m.free) : ¬ m.InUse F := fun hin ↦
  Ledger.free_ne hF (h.tables F hin) rfl

end Ready

/-! ## Entries -/

/-- What `paging_map` does to a table that is there. -/
theorem Ready.withPage (h : m.Ready) (hd : d < 1023) (ht : t < 1024) (hp : m.pde m.dir d % 2 = 1)
    (hP : P < 2 ^ 20) {flags : ℕ} (hfl : flags &&& (PAGE_WRITE ||| PAGE_USER) = flags) :
    (m.withPage d t P flags).Ready ∧
      (∀ i, (m.withPage d t P flags).pde m.dir i % 2 = m.pde m.dir i % 2 ∧
        (m.withPage d t P flags).pde m.dir i / 4096 = m.pde m.dir i / 4096) ∧
      (∀ f, ¬ m.InUse f → (m.withPage d t P flags).mem f = m.mem f) ∧
      ∀ d' t', d' < 1023 → (m.withPage d t P flags).frameAt d' t' =
        if d' = d ∧ t' = t then some P else m.frameAt d' t' := by
  obtain ⟨hpaged, hentry⟩ := h.paged.withPage hd ht hp hP hfl
  have htable : m.InUse (m.pde m.dir d / 4096) := ⟨d, by omega, hp, rfl⟩
  have hword : ∀ i, (m.withPage d t P flags).pde m.dir i % 2 = m.pde m.dir i % 2 ∧
      (m.withPage d t P flags).pde m.dir i / 4096 = m.pde m.dir i / 4096 := by
    intro i
    have hpde : (m.withPage d t P flags).pde m.dir i = (m.withUser d flags).pde m.dir i := by
      rw [Machine.withPage, setWord, setFrame_pde (h.paged.table_ne_dir hd hp), withUser]
    rw [hpde, withUser_pde]
    split
    · next heq =>
      subst heq
      exact ⟨(or_user _ flags).1, (or_user _ flags).2.1⟩
    · exact ⟨rfl, rfl⟩
  have huse : ∀ f, (m.withPage d t P flags).InUse f → m.InUse f := by
    rintro f ⟨i, hi, hpi, rfl⟩
    rw [show (m.withPage d t P flags).dir = m.dir from rfl] at hpi ⊢
    exact ⟨i, hi, (hword i).1 ▸ hpi, (hword i).2.symm⟩
  refine ⟨⟨hpaged, h.lastAlloc, h.zero, fun F hF ↦ h.tables F (huse F hF), fun hne h0 ↦
    h.loose hne (huse 0 h0)⟩, hword, fun f hf ↦ ?_, fun d' t' hd' ↦ ?_⟩
  · have hdir : f ≠ m.dir := fun heq ↦ hf (heq ▸ h.paged.inUse_dir)
    have hne : f ≠ m.pde m.dir d / 4096 := fun heq ↦ hf (heq ▸ htable)
    rw [Machine.withPage, setWord_mem_of_ne _ _ hne, setWord_mem_of_ne _ _ hdir]
  · rw [frameAt_eq, hentry d' t' hd', frameAt_eq]
    split <;> rfl

/-- What it does first when there is none. -/
theorem Ready.withTable (h : m.Ready) (hd : d < 1023) (hp : m.pde m.dir d % 2 = 0)
    (hG : m.frameTest G = true) (hfresh : ¬ m.InUse G) (hlt : G < 2 ^ 20)
    (hloose : m.free.Nonempty → G ≠ 0) :
    (m.withTable d G).Ready ∧
      (∀ i, (m.withTable d G).pde m.dir i = if i = d then G * 4096 + 3 else m.pde m.dir i) ∧
      (∀ f, ¬ m.InUse f → f ≠ G → (m.withTable d G).mem f = m.mem f) ∧
      ∀ d' t', d' < 1023 → t' < 1024 → (m.withTable d G).frameAt d' t' = m.frameAt d' t' := by
  obtain ⟨hpaged, -, hentry⟩ := h.paged.withTable hd hp hfresh hlt
  have hdir : G ≠ m.dir := fun heq ↦ hfresh (heq ▸ h.paged.inUse_dir)
  have hpde : ∀ i, (m.withTable d G).pde m.dir i = if i = d then G * 4096 + 3 else m.pde m.dir i := by
    intro i
    rw [Machine.withTable, setFrame_pde hdir, pde, word_setWord,
      Nat.mod_eq_of_lt (by omega : G * 4096 + 3 < 2 ^ 32), pde]
    simp only [true_and]
  have huse : ∀ f, (m.withTable d G).InUse f → m.InUse f ∨ f = G := by
    rintro f ⟨i, hi, hp', rfl⟩
    rw [show (m.withTable d G).dir = m.dir from rfl, hpde] at hp' ⊢
    split at hp'
    · next heq =>
      rw [if_pos heq]
      exact Or.inr (by omega)
    · next hne =>
      rw [if_neg hne]
      exact Or.inl ⟨i, hi, hp', rfl⟩
  refine ⟨⟨hpaged, h.lastAlloc, h.zero, fun F hF ↦ ?_, fun hne h0 ↦ ?_⟩, hpde, fun f hf hfG ↦ ?_,
    fun d' t' hd' ht' ↦ ?_⟩
  · obtain hF | rfl := huse F hF
    · exact h.tables F hF
    · exact hG
  · obtain h0 | h0 := huse 0 h0
    · exact h.loose hne h0
    · exact hloose hne h0.symm
  · have hne : f ≠ m.dir := fun heq ↦ hf (heq ▸ h.paged.inUse_dir)
    rw [Machine.withTable, setFrame_mem_of_ne _ hfG, setWord_mem_of_ne _ _ hne]
  · rw [frameAt_eq, hentry d' t' hd' ht', frameAt_eq]

/-- Frame `F` was mapped at page `(d, t)`.  A new table was a free frame, or it is
frame 0; other frames that are no tables keep their bytes. -/
structure MapsAt (m m' : Machine) (d t F : ℕ) : Prop where
  ready : m'.Ready
  cr3 : m'.cr3 = m.cr3
  totalFrames : m'.totalFrames = m.totalFrames
  test : ∀ f, m.frameTest f = true → m'.frameTest f = true
  parity : ∀ i, m'.pde m.dir i % 2 = 0 ↔ i ≠ d ∧ m.pde m.dir i % 2 = 0
  entry : ∀ i, m.pde m.dir i % 2 = 1 → m'.pde m.dir i / 4096 = m.pde m.dir i / 4096
  table : ∀ f, m'.InUse f → m.InUse f ∨ m.frameTest f = false ∨ f = 0
  frame : ∀ d' t', d' < 1023 → t' < 1024 → m'.frameAt d' t' =
    if d' = d ∧ t' = t then some F else m.frameAt d' t'
  mem : ∀ f, ¬ m'.InUse f → m'.mem f = m.mem f
  card : m'.free.card = m.free.card - if m.pde m.dir d % 2 = 0 then 1 else 0

theorem MapsAt.dir (h : MapsAt m m' d t F) : m'.dir = m.dir := by rw [Machine.dir, h.cr3, Machine.dir]

/-- A page goes into a new table `G`, and `m₀` is the machine after it was chosen. -/
theorem Ready.mapAbsent (h : m₀.Ready) (hd : d < 1023) (ht : t < 1024) (hp : m.pde m.dir d % 2 = 0)
    (hG : m₀.frameTest G = true) (hfresh : ¬ m.InUse G) (hold : m.frameTest G = false ∨ G = 0)
    (hlt : G < 2 ^ 20) (hloose : m₀.free.Nonempty → G ≠ 0) (hF : F < 2 ^ 20)
    (hmem : m₀.mem = m.mem) (hcr3 : m₀.cr3 = m.cr3) (htotal : m₀.totalFrames = m.totalFrames)
    (htest : ∀ f, m.frameTest f = true → m₀.frameTest f = true)
    (hcard : m₀.free.card = m.free.card - 1)
    {flags : ℕ} (hfl : flags &&& (PAGE_WRITE ||| PAGE_USER) = flags) :
    MapsAt m ((m₀.withTable d G).withPage d t F flags) d t F := by
  have hdir : m₀.dir = m.dir := by rw [Machine.dir, hcr3, Machine.dir]
  have hpde₀ : ∀ i, m₀.pde m₀.dir i = m.pde m.dir i := fun i ↦ by rw [pde, hmem, hdir, pde]
  have huse₀ : ∀ f, m₀.InUse f ↔ m.InUse f := fun f ↦ by simp only [InUse, hpde₀]
  have hframe₀ : ∀ d t, m₀.frameAt d t = m.frameAt d t := fun d t ↦
    frameAt_congr (by rw [hcr3]) (by rw [hmem]) (by rw [hmem])
  obtain ⟨h₁, hpde, hkeep, hframe⟩ := h.withTable hd (by rw [hpde₀, hp]) hG
    (fun hin ↦ hfresh ((huse₀ G).mp hin)) hlt hloose
  have hodd : (m₀.withTable d G).pde m₀.dir d % 2 = 1 := by
    rw [hpde, if_pos rfl]
    omega
  obtain ⟨h₂, hword, hmem₂, hframe₂⟩ := h₁.withPage hd ht hodd hF hfl
  have hentry : ∀ i, ((m₀.withTable d G).withPage d t F flags).pde m.dir i % 2 =
        (if i = d then G * 4096 + 3 else m.pde m.dir i) % 2 ∧
      ((m₀.withTable d G).withPage d t F flags).pde m.dir i / 4096 =
        (if i = d then G * 4096 + 3 else m.pde m.dir i) / 4096 := by
    intro i
    rw [← hpde₀, ← hdir, ← hpde]
    exact hword i
  have huse : ∀ f, ((m₀.withTable d G).withPage d t F flags).InUse f → m.InUse f ∨ f = G := by
    rintro f ⟨i, hi, hpi, rfl⟩
    rw [show ((m₀.withTable d G).withPage d t F flags).dir = m.dir from hdir] at hpi ⊢
    rw [(hentry i).1] at hpi
    rw [(hentry i).2]
    by_cases heq : i = d
    · rw [if_pos heq]
      exact Or.inr (by omega)
    · rw [if_neg heq] at hpi ⊢
      exact Or.inl ⟨i, hi, hpi, rfl⟩
  have huseG : ((m₀.withTable d G).withPage d t F flags).InUse G := by
    refine ⟨d, by omega, ?_, ?_⟩
    · rw [show ((m₀.withTable d G).withPage d t F flags).dir = m.dir from hdir, (hentry d).1, if_pos rfl]
      omega
    · rw [show ((m₀.withTable d G).withPage d t F flags).dir = m.dir from hdir, (hentry d).2, if_pos rfl]
      omega
  refine ⟨h₂, hcr3, htotal, htest, fun i ↦ ?_, fun i hi ↦ ?_, fun f hf ↦ ?_, fun d' t' hd' ht' ↦ ?_,
    fun f hf ↦ ?_, ?_⟩
  · rw [(hentry i).1]
    by_cases heq : i = d
    · rw [if_pos heq]
      omega
    · rw [if_neg heq]
      simp [heq]
  · rw [(hentry i).2, if_neg]
    rintro rfl
    omega
  · obtain hf | rfl := huse f hf
    · exact Or.inl hf
    · exact Or.inr hold
  · rw [hframe₂ d' t' hd', hframe d' t' hd' ht', hframe₀]
  · have hfG : f ≠ G := by
      rintro rfl
      exact hf huseG
    have hf₁ : ¬ (m₀.withTable d G).InUse f := by
      rintro ⟨i, hi, hpi, rfl⟩
      exact hf ⟨i, hi, (hword i).1.trans hpi, (hword i).2⟩
    have hf₀ : ¬ m₀.InUse f := by
      rintro ⟨i, hi, hpi, rfl⟩
      have hne : i ≠ d := by
        rintro rfl
        rw [hpde₀] at hpi
        omega
      have hsame : (m₀.withTable d G).pde m₀.dir i = m₀.pde m₀.dir i := by rw [hpde, if_neg hne]
      exact hf₁ ⟨i, hi, hsame ▸ hpi, congrArg (· / 4096) hsame⟩
    rw [hmem₂ f hf₁, hkeep f hf₀ hfG, hmem]
  · rw [if_pos hp]
    exact hcard

/-- A frame in use that is no table is mapped.  Its table, if it takes one, is the
next free frame, or frame 0. -/
theorem Ready.pagingMap (h : m.Ready) (hd : d < 1023) (ht : t < 1024) (hF : F < 2 ^ 20)
    (h0 : ¬ m.InUse 0) {flags : ℕ} (hfl : flags &&& (PAGE_WRITE ||| PAGE_USER) = flags) :
    ∃ m', m.pagingMap (pageAddr d t) (F * PAGE_SIZE) flags = some m' ∧ MapsAt m m' d t F := by
  have hva := pageAddr_index (d := d) ht
  have hlt : flags < 4096 := by
    have hle : flags ≤ 6 := hfl ▸ Nat.and_le_right
    omega
  set c := Call.map (pageAddr d t) (F * PAGE_SIZE) flags with hc
  have h₁ := h.log c
  rcases Nat.mod_two_eq_zero_or_one (m.pde m.dir d) with hp | hp
  · obtain ⟨G, hG, halloc⟩ | ⟨hnone, halloc⟩ := pmmAllocFrame_cases (m := m.log c) h₁.lastAlloc
    · have hGm : m.frameTest G = false := ((mem_free m).mp hG).2
      have hG' : ¬ m.InUse G := h.fresh hG
      refine ⟨_, pagingMap_absent h.paged.window hd ht hva hp halloc (Ledger.free_lt hG)
        (fun heq ↦ hG' (heq ▸ h.paged.inUse_dir)) hF hlt,
        (h₁.withAlloc hG).mapAbsent hd ht hp (by simp) hG' (Or.inl hGm) (Ledger.free_lt hG)
          (fun _ ↦ Ledger.free_ne hG h.zero) hF rfl rfl rfl (fun f hf ↦ by simp [hf]) ?_ hfl⟩
      rw [withAlloc_free]
      exact Finset.card_erase_of_mem hG
    · have hrun := pagingMap_absent (F := 0) (P := F) h.paged.window hd ht hva hp
        (by rw [halloc, Nat.zero_mul]) (by norm_num) (fun heq ↦ h0 (heq ▸ h.paged.inUse_dir)) hF hlt
      have hnone' : m.free = ∅ := hnone
      refine ⟨_, hrun, (h₁.log (.alloc 0)).mapAbsent hd ht hp h.zero h0 (Or.inr rfl) (by norm_num)
        (fun hne ↦ ?_) hF rfl rfl rfl (fun f hf ↦ hf) ?_ hfl⟩
      · rw [log_free, log_free, hnone'] at hne
        exact absurd hne Finset.not_nonempty_empty
      · rw [log_free, log_free, hnone']
        rfl
  · have hrun : m.pagingMap (pageAddr d t) (F * PAGE_SIZE) flags =
        some ((m.log c).withPage d t F flags) :=
      pagingMap_present h.paged.window hd ht hva hp hF hlt
    obtain ⟨h₂, hword, hmem, hframe⟩ := h₁.withPage hd ht hp hF hfl
    simp only [log_dir, log_pde] at hword
    have huse : ∀ f, ((m.log c).withPage d t F flags).InUse f ↔ m.InUse f := fun f ↦ by
      refine exists_congr fun i ↦ and_congr_right fun _ ↦ ?_
      rw [show ((m.log c).withPage d t F flags).dir = m.dir from rfl, (hword i).1, (hword i).2]
    refine ⟨_, hrun, h₂, rfl, rfl, fun _ hf ↦ hf, fun i ↦ ?_, fun i _ ↦ (hword i).2,
      fun f hf ↦ Or.inl ((huse f).mp hf), fun d' t' hd' _ ↦ hframe d' t' hd',
      fun f hf ↦ hmem f fun hin ↦ hf ((huse f).mpr hin), ?_⟩
    · rw [(hword i).1]
      refine ⟨fun heven ↦ ⟨?_, heven⟩, And.right⟩
      rintro rfl
      omega
    · rw [if_neg (by omega), Nat.sub_zero]
      rfl

/-! ## What stays -/

/-- Of the frames in `U` those that are no tables keep their bytes and become none,
and pages that are mapped get other frames. -/
structure Spreads (U : Set ℕ) (m m' : Machine) : Prop where
  cr3 : m'.cr3 = m.cr3
  totalFrames : m'.totalFrames = m.totalFrames
  test : ∀ f, m.frameTest f = true → m'.frameTest f = true
  entry : ∀ i, m.pde m.dir i % 2 = 1 →
    m'.pde m.dir i % 2 = 1 ∧ m'.pde m.dir i / 4096 = m.pde m.dir i / 4096
  table : ∀ f, m'.InUse f → m.InUse f ∨ f ∉ U
  frame : ∀ d t F, d < 1023 → t < 1024 → m'.frameAt d t = some F →
    m.frameAt d t = some F ∨ F ∉ U ∧ m'.frameTest F = true
  present : ∀ d t, d < 1023 → t < 1024 → m.frameAt d t ≠ none → m'.frameAt d t ≠ none
  mem : ∀ f ∈ U, ¬ m.InUse f → m'.mem f = m.mem f
  idle : ∀ f, m'.frameTest f = false → m'.mem f = m.mem f

namespace Spreads

theorem refl (U : Set ℕ) (m : Machine) : Spreads U m m where
  cr3 := rfl
  totalFrames := rfl
  test _ hf := hf
  entry _ hi := ⟨hi, rfl⟩
  table _ hf := Or.inl hf
  frame _ _ _ _ _ hF := Or.inl hF
  present _ _ _ _ hF := hF
  mem _ _ _ := rfl
  idle _ _ := rfl

theorem dir (h : Spreads U m m') : m'.dir = m.dir := by rw [Machine.dir, h.cr3, Machine.dir]

/-- No frame is given back. -/
theorem free (h : Spreads U m m') (hf : m'.frameTest f = false) : m.frameTest f = false := by
  by_contra htest
  rw [h.test f ((Bool.not_eq_false _).mp htest)] at hf
  cases hf

theorem trans (h : Spreads U m m') (h' : Spreads U m' m'') : Spreads U m m'' where
  cr3 := h'.cr3.trans h.cr3
  totalFrames := h'.totalFrames.trans h.totalFrames
  test f hf := h'.test f (h.test f hf)
  entry i hi := by
    obtain ⟨hodd, hdiv⟩ := h.entry i hi
    obtain ⟨hodd', hdiv'⟩ := h'.entry i (by rw [h.dir]; exact hodd)
    rw [h.dir] at hodd' hdiv'
    exact ⟨hodd', hdiv'.trans hdiv⟩
  table f hf := (h'.table f hf).elim (h.table f) Or.inr
  frame d t F hd ht hF := by
    obtain hF | hF := h'.frame d t F hd ht hF
    · exact (h.frame d t F hd ht hF).imp_right fun hnew ↦ ⟨hnew.1, h'.test F hnew.2⟩
    · exact Or.inr hF
  present d t hd ht hF := h'.present d t hd ht (h.present d t hd ht hF)
  mem f hf hno := by
    have hno' : ¬ m'.InUse f := fun hin ↦ (h.table f hin).elim hno fun hU ↦ hU hf
    rw [h'.mem f hf hno', h.mem f hf hno]
  idle f hf := by rw [h'.idle f hf, h.idle f (h'.free hf)]

end Spreads

theorem MapsAt.spreads (h : MapsAt (m.withAlloc F) m' d t F) (hF : F ∈ m.free)
    (hU : ∀ f ∈ U, m.frameTest f = true ∧ f ≠ 0) : Spreads U m m' := by
  have hFU : F ∉ U := fun hin ↦ Ledger.free_ne hF (hU F hin).1 rfl
  have htest : ∀ f, m.frameTest f = true → m'.frameTest f = true := fun f hf ↦
    h.test f (by simp [hf])
  have hdir : m'.dir = m.dir := h.dir
  have htable : ∀ f, m'.InUse f → m.InUse f ∨ f ∉ U := by
    intro f hf
    obtain hold | hfree | rfl := h.table f hf
    · exact Or.inl hold
    · refine Or.inr fun hin ↦ ?_
      rw [withAlloc_frameTest, (hU f hin).1, Bool.or_true] at hfree
      cases hfree
    · exact Or.inr fun hin ↦ (hU 0 hin).2 rfl
  refine ⟨h.cr3, h.totalFrames, htest, fun i hi ↦ ⟨?_, h.entry i hi⟩, htable,
    fun d' t' G hd' ht' hG ↦ ?_, fun d' t' hd' ht' hG ↦ ?_, fun f hf hno ↦ ?_, fun f hf ↦ ?_⟩
  · have hparity := (h.parity i).not
    have hpde : (m.withAlloc F).pde (m.withAlloc F).dir i = m.pde m.dir i := rfl
    rw [hpde] at hparity
    have hodd : ¬ m'.pde (m.withAlloc F).dir i % 2 = 0 := hparity.mpr fun hboth ↦ by omega
    exact Nat.mod_two_ne_zero.mp hodd
  · rw [h.frame d' t' hd' ht'] at hG
    split at hG
    · obtain rfl := Option.some.inj hG
      exact Or.inr ⟨hFU, h.test F (by simp)⟩
    · exact Or.inl hG
  · rw [h.frame d' t' hd' ht']
    split
    · exact Option.some_ne_none F
    · exact hG
  · exact h.mem f fun hin ↦ (htable f hin).elim hno fun hU ↦ hU hf
  · refine h.mem f fun hin ↦ ?_
    rw [h.ready.tables f hin] at hf
    cases hf

/-! ## Bytes -/

/-- The bytes of `μ` lie below the recursive window, in frames outside of `U` that
are no tables, and different pages of it have different frames. -/
structure Shows (U : Set ℕ) (m : Machine) (μ : Bytes) : Prop where
  own : ∀ f ∈ U, m.frameTest f = true ∧ f ≠ 0
  shown : ∀ x b, μ x = some b → x < 0xFFC00000 ∧ ∃ F, m.translate x = some (F, x % 4096) ∧
    m.mem F (x % 4096) = b ∧ m.frameTest F = true ∧ F ≠ 0 ∧ F ∉ U ∧ ¬ m.InUse F
  apart : ∀ x y F, μ x ≠ none → μ y ≠ none → m.translate x = some (F, x % 4096) →
    m.translate y = some (F, y % 4096) → x / 4096 = y / 4096

theorem shows_none (hU : ∀ f ∈ U, m.frameTest f = true ∧ f ≠ 0) : m.Shows U fun _ ↦ none :=
  ⟨hU, fun _ _ hb ↦ (by cases hb), fun _ _ _ hx _ _ _ ↦ absurd rfl hx⟩

theorem Shows.extends (h : m.Shows U μ) : Extends μ m.load8 := fun x b hb ↦ by
  obtain ⟨-, F, htrans, hmem, -⟩ := h.shown x b hb
  rw [load8, htrans, Option.map_some, peek, hmem]

/-- The bytes of `κ` lie in frames of `U` that are no tables. -/
def Backs (U : Set ℕ) (m : Machine) (κ : Bytes) : Prop :=
  ∀ x b, κ x = some b → x < 0xFFC00000 ∧ ∃ F, m.translate x = some (F, x % 4096) ∧
    m.mem F (x % 4096) = b ∧ F ∈ U ∧ ¬ m.InUse F

/-- Only what is behind the addresses of `A` is different in `m'`, and no table. -/
structure Stored (A : Set ℕ) (m m' : Machine) : Prop where
  same : m' = { m with mem := m'.mem }
  tables : ∀ F, m.InUse F → m'.mem F = m.mem F
  bytes : ∀ F o, (∀ x ∈ A, m.translate x ≠ some (F, o)) → m'.mem F o = m.mem F o

namespace Stored

theorem refl (A : Set ℕ) (m : Machine) : Stored A m m := ⟨rfl, fun _ _ ↦ rfl, fun _ _ _ ↦ rfl⟩

theorem cr3 (h : Stored A m m') : m'.cr3 = m.cr3 := by rw [h.same]
theorem dir (h : Stored A m m') : m'.dir = m.dir := by rw [h.same]; rfl
theorem frameTest (h : Stored A m m') (f : ℕ) : m'.frameTest f = m.frameTest f := by
  rw [h.same]
  rfl

theorem free (h : Stored A m m') : m'.free = m.free := by rw [h.same]; rfl

theorem pde (h : Stored A m m') (hr : m.Ready) (i : ℕ) : m'.pde m.dir i = m.pde m.dir i := by
  rw [Machine.pde, h.tables _ hr.paged.inUse_dir, Machine.pde]

theorem inUse (h : Stored A m m') (hr : m.Ready) {f : ℕ} : m'.InUse f ↔ m.InUse f := by
  simp only [InUse, h.dir, h.pde hr]

theorem pageEntry (h : Stored A m m') (hr : m.Ready) (hd : d < 1024) :
    m'.pageEntry d t = m.pageEntry d t := by
  refine pageEntry_congr (by rw [h.same]) (by rw [h.pde hr]) (by rw [h.pde hr]) fun hp ↦ ?_
  rw [h.tables _ ⟨d, hd, hp, rfl⟩]

theorem ready (h : Stored A m m') (hr : m.Ready) : m'.Ready := by
  have hpaged := hr.paged
  refine ⟨⟨hpaged.window.congr (by rw [h.same]) (h.pde hr 1023), ?_, ?_⟩, ?_, ?_, ?_, ?_⟩
  · simp only [h.dir, h.pde hr]
    exact hpaged.distinct
  · intro d t hd ht hc
    rw [copied_iff_entry, h.pageEntry hr (by omega), ← copied_iff_entry] at hc
    rw [h.dir, h.pde hr]
    exact hpaged.user d t hd ht hc
  · rw [h.same]
    exact hr.lastAlloc
  · rw [h.frameTest, hr.zero]
  · intro F hF
    rw [h.frameTest]
    exact hr.tables F ((h.inUse hr).mp hF)
  · intro hne h0
    rw [h.free] at hne
    exact hr.loose hne ((h.inUse hr).mp h0)

theorem translate (h : Stored A m m') (hr : m.Ready) {x : ℕ} (hx : x < 2 ^ 32) :
    m'.translate x = m.translate x := by
  obtain ⟨d, t, o, hd, ht, ho, rfl⟩ := exists_pageAddr hx
  rw [translate_page hd ht ho, translate_page hd ht ho, frameAt_eq, frameAt_eq, h.pageEntry hr hd]

theorem trans (h : Stored A m₀ m) (h' : Stored A m m') (hr : m₀.Ready) (hA : ∀ x ∈ A, x < 2 ^ 32) :
    Stored A m₀ m' where
  same := by rw [h'.same, h.same]
  tables F hF := by rw [h'.tables F ((h.inUse hr).mpr hF), h.tables F hF]
  bytes F o hno := by
    rw [h'.bytes F o fun x hx ↦ by rw [h.translate hr (hA x hx)]; exact hno x hx, h.bytes F o hno]

theorem charges (h : Stored A m m') (hr : m.Ready) : Charges m m' [] where
  need rest := by
    have hneed : m'.need rest = m.need rest := by simp only [Machine.need, missing, h.dir, h.pde hr]
    rw [need_nil, List.nil_append, Nat.add_zero, hneed]
  card := by
    rw [need_nil, h.free, Nat.sub_zero]

/-- Frames that no byte of `μ` is in stay as they are. -/
theorem mem (h : Stored A m m') (hμ : m.Shows U μ) (hA : ∀ x ∈ A, μ x ≠ none)
    (hf : f ∈ U ∨ m.frameTest f = false) : m'.mem f = m.mem f := by
  funext o
  refine h.bytes f o fun x hx htrans ↦ ?_
  obtain ⟨b, hb⟩ := Option.ne_none_iff_exists'.mp (hA x hx)
  obtain ⟨-, F, htrans', -, hused, -, hFU, -⟩ := hμ.shown x b hb
  rw [htrans, Option.some.injEq, Prod.mk.injEq] at htrans'
  obtain ⟨rfl, -⟩ := htrans'
  obtain hf | hf := hf
  · exact hFU hf
  · rw [hused] at hf
    cases hf

theorem spreads (h : Stored A m m') (hr : m.Ready) (hμ : m.Shows U μ) (hA : ∀ x ∈ A, μ x ≠ none) :
    Spreads U m m' where
  cr3 := h.cr3
  totalFrames := by rw [h.same]
  test f hf := by rw [h.frameTest, hf]
  entry i hi := by
    rw [h.pde hr]
    exact ⟨hi, rfl⟩
  table f hf := Or.inl ((h.inUse hr).mp hf)
  frame d t F hd _ hF := by
    rw [frameAt_eq, h.pageEntry hr (by omega), ← frameAt_eq] at hF
    exact Or.inl hF
  present d t hd _ hne := by
    rw [frameAt_eq, h.pageEntry hr (by omega), ← frameAt_eq]
    exact hne
  mem f hf _ := h.mem hμ hA (Or.inl hf)
  idle f hf := h.mem hμ hA (Or.inr (by rw [← h.frameTest, hf]))

theorem backs (h : Stored A m m') (hr : m.Ready) (hμ : m.Shows U μ) (hA : ∀ x ∈ A, μ x ≠ none)
    (hκ : m.Backs U κ) : m'.Backs U κ := by
  intro x b hb
  obtain ⟨hx, F, htrans, hmem, hF, hno⟩ := hκ x b hb
  refine ⟨hx, F, by rw [h.translate hr (by omega), htrans], ?_, hF, fun hin ↦ hno ((h.inUse hr).mp hin)⟩
  rw [h.mem hμ hA (Or.inl hF), hmem]

end Stored

/-- Loads and stores at the addresses of `μ`, with `κ` beside it. -/
theorem Shows.mirrors (h : m.Shows U μ) (hr : m.Ready) (hκ : m.Backs U κ) :
    Mirrors (fun m' ν ↦ Stored {x | μ x ≠ none} m m' ∧ m'.Shows U ν ∧ ∀ x, ν x ≠ none ↔ μ x ≠ none)
      κ where
  load8 := by
    rintro m' ν ⟨hm', hν, -⟩ x b hb
    rw [beside, Option.or_eq_some_iff] at hb
    obtain hb | ⟨-, hb⟩ := hb
    · exact hν.extends x b hb
    · obtain ⟨-, F, htrans, hmem, -⟩ := hm'.backs hr h (fun x hx ↦ hx) hκ x b hb
      rw [load8, htrans, Option.map_some, peek, hmem]
  store8 := by
    rintro m' ν x b ⟨hm', hν, hdom⟩ hx
    have hr' := hm'.ready hr
    obtain ⟨c, hc⟩ := Option.ne_none_iff_exists'.mp hx
    obtain ⟨hlt, F, htrans, -, hused, hF0, hFU, hF⟩ := hν.shown x c hc
    set m'' := m'.poke (F, x % 4096) b with hm''
    have hstored : Stored {x | μ x ≠ none} m' m'' := by
      refine ⟨rfl, fun G hG ↦ Function.update_of_ne ?_ _ _, fun G o hno ↦ ?_⟩
      · rintro rfl
        exact hF hG
      · rw [hm'', poke]
        dsimp only
        by_cases hGF : G = F
        · subst hGF
          rw [Function.update_self, Function.update_of_ne]
          rintro rfl
          exact hno x ((hdom x).mp hx) htrans
        · rw [Function.update_of_ne hGF]
    have hsame : ∀ y, ν y ≠ none → m''.translate y = m'.translate y := by
      intro y hy
      obtain ⟨c', hc'⟩ := Option.ne_none_iff_exists'.mp hy
      exact hstored.translate hr' (by have := (hν.shown y c' hc').1; omega)
    have hupdate : ∀ y, Function.update ν x (some b) y ≠ none ↔ ν y ≠ none := by
      intro y
      rw [Function.update_apply]
      split
      · next heq =>
        rw [heq]
        exact iff_of_true (Option.some_ne_none b) hx
      · exact Iff.rfl
    have hlow : ∀ y ∈ {x | μ x ≠ none}, y < 2 ^ 32 := by
      intro y hy
      obtain ⟨c', hc'⟩ := Option.ne_none_iff_exists'.mp hy
      have := (h.shown y c' hc').1
      omega
    refine ⟨m'', by rw [Machine.store8, htrans, Option.map_some], ⟨hm'.trans hstored hr hlow,
      ⟨fun f hf ↦ ?_, ?_, ?_⟩, fun y ↦ (hupdate y).trans (hdom y)⟩, hsame⟩
    · rw [hstored.frameTest]
      exact hν.own f hf
    · intro y c' hc'
      obtain ⟨c₀, hc₀⟩ := Option.ne_none_iff_exists'.mp
        ((hupdate y).mp (by rw [hc']; exact Option.some_ne_none c'))
      obtain ⟨hylt, G, hytrans, hmem, hGused, hG0, hGU, hG⟩ := hν.shown y c₀ hc₀
      refine ⟨hylt, G, by rw [hsame y (by rw [hc₀]; exact Option.some_ne_none c₀), hytrans], ?_,
        by rw [hstored.frameTest, hGused], hG0, hGU, fun hin ↦ hG ((hstored.inUse hr').mp hin)⟩
      -- a byte of the same frame is a byte of the same page
      by_cases hGF : G = F
      · subst hGF
        have hpage := hν.apart x y G hx (by rw [hc₀]; exact Option.some_ne_none c₀) htrans hytrans
        rw [hm'', poke]
        dsimp only
        rw [Function.update_self, Function.update_apply]
        by_cases hyx : y = x
        · rw [hyx, Function.update_self, Option.some.injEq] at hc'
          rw [if_pos (by rw [hyx]), hc']
        · rw [Function.update_of_ne hyx, hc₀, Option.some.injEq] at hc'
          rw [if_neg (by omega), hmem, hc']
      · have hyx : y ≠ x := by
          rintro rfl
          rw [htrans, Option.some.injEq, Prod.mk.injEq] at hytrans
          exact hGF hytrans.1.symm
        rw [Function.update_of_ne hyx, hc₀, Option.some.injEq] at hc'
        rw [hm'', poke]
        dsimp only
        rw [Function.update_of_ne hGF, hmem, hc']
    · intro y z G hy hz hyt hzt
      rw [hsame y ((hupdate y).mp hy)] at hyt
      rw [hsame z ((hupdate z).mp hz)] at hzt
      exact hν.apart y z G ((hupdate y).mp hy) ((hupdate z).mp hz) hyt hzt

/-! ## Pages -/

theorem MapsAt.keeps (h : MapsAt m m' d t F) (hf : m.frameTest f = true) (h0 : f ≠ 0)
    (hno : ¬ m.InUse f) : m'.frameTest f = true ∧ ¬ m'.InUse f ∧ m'.mem f = m.mem f := by
  have hno' : ¬ m'.InUse f := by
    intro hin
    obtain hold | hfree | hzero := h.table f hin
    · exact hno hold
    · rw [hf] at hfree
      cases hfree
    · exact h0 hzero
  exact ⟨h.test f hf, hno', h.mem f hno'⟩

/-- A page that is mapped shows its frame. -/
theorem Shows.map (h : m.Shows U μ) (hF : F ∈ m.free) (hr : m.Ready)
    (hmap : MapsAt (m.withAlloc F) m' d t F) (hd : d < 1023) (ht : t < 1024) :
    m'.Shows U (fill μ (pageAddr d t) PAGE_SIZE (m.mem F)) := by
  have hF0 : F ≠ 0 := Ledger.free_ne hF hr.zero
  have hFU : F ∉ U := fun hin ↦ Ledger.free_ne hF (h.own F hin).1 rfl
  have htranslate : ∀ d' t' o, d' < 1023 → t' < 1024 → o < 4096 → m'.translate (pageAddr d' t' + o) =
      if d' = d ∧ t' = t then some (F, o) else m.translate (pageAddr d' t' + o) := by
    intro d' t' o hd' ht' ho
    rw [translate_page (by omega) ht' ho, translate_page (by omega) ht' ho, hmap.frame d' t' hd' ht']
    split
    · rfl
    · rfl
  -- an address below the window, and whether it is in the page
  have hcases : ∀ x, x < 0xFFC00000 →
      (pageAddr d t ≤ x ∧ x < pageAddr d t + PAGE_SIZE ∧ m'.translate x = some (F, x % 4096)) ∨
      (x / 4096 ≠ pageAddr d t / 4096 ∧ ¬ (pageAddr d t ≤ x ∧ x < pageAddr d t + PAGE_SIZE) ∧
        m'.translate x = m.translate x) := by
    intro x hx
    obtain ⟨d', t', o, -, ht', ho, rfl⟩ := exists_pageAddr (show x < 2 ^ 32 by omega)
    have hd' : d' < 1023 := by
      simp only [pageAddr] at hx
      omega
    rw [htranslate d' t' o hd' ht' ho]
    by_cases heq : d' = d ∧ t' = t
    · obtain ⟨rfl, rfl⟩ := heq
      refine Or.inl ⟨by omega, by rw [PAGE_SIZE]; omega, ?_⟩
      rw [if_pos ⟨rfl, rfl⟩]
      congr 2
      simp only [pageAddr]
      omega
    · rw [if_neg heq]
      refine Or.inr ⟨?_, ?_, rfl⟩
      · simp only [pageAddr]
        omega
      · simp only [pageAddr, PAGE_SIZE]
        omega
  have hnone : ∀ {x b}, μ x = some b → m.translate x ≠ some (F, x % 4096) := by
    intro x b hb htrans
    obtain ⟨-, G, htrans', -, hused, -⟩ := h.shown x b hb
    rw [htrans, Option.some.injEq, Prod.mk.injEq] at htrans'
    exact Ledger.free_ne hF hused htrans'.1
  have hpage : ∀ x, fill μ (pageAddr d t) PAGE_SIZE (m.mem F) x ≠ none → x < 0xFFC00000 := by
    intro x hx
    rw [fill] at hx
    split at hx
    · next hin =>
      rw [PAGE_SIZE] at hin
      simp only [pageAddr] at hin
      omega
    · obtain ⟨b, hb⟩ := Option.ne_none_iff_exists'.mp hx
      exact (h.shown x b hb).1
  refine ⟨fun f hf ↦ ⟨hmap.test f (by simp [(h.own f hf).1]), (h.own f hf).2⟩, fun x b hb ↦ ?_,
    fun x y G hx hy hxt hyt ↦ ?_⟩
  · have hx := hpage x (by rw [hb]; exact Option.some_ne_none b)
    refine ⟨hx, ?_⟩
    obtain ⟨h₁, h₂, htrans⟩ | ⟨-, hout, htrans⟩ := hcases x hx
    · obtain ⟨hused, hno, hmem⟩ := hmap.keeps (by simp) hF0 (hr.fresh hF)
      refine ⟨F, htrans, ?_, hused, hF0, hFU, hno⟩
      rw [fill, if_pos ⟨h₁, h₂⟩, Option.some.injEq] at hb
      rw [hmem, ← hb, withAlloc_mem]
      congr 1
      rw [PAGE_SIZE] at h₂
      simp only [pageAddr] at h₁ h₂ ⊢
      omega
    · rw [fill, if_neg hout] at hb
      obtain ⟨-, G, htrans', hmem, hused, hG0, hGU, hG⟩ := h.shown x b hb
      obtain ⟨hused', hno, hmem'⟩ := hmap.keeps (by simp [hused]) hG0 hG
      exact ⟨G, by rw [htrans, htrans'], by rw [hmem', withAlloc_mem, hmem], hused', hG0, hGU, hno⟩
  · have hback : ∀ {z}, fill μ (pageAddr d t) PAGE_SIZE (m.mem F) z ≠ none →
        m'.translate z = some (G, z % 4096) →
        (z / 4096 = pageAddr d t / 4096 ∧ G = F) ∨
          (μ z ≠ none ∧ m.translate z = some (G, z % 4096) ∧ G ≠ F) := by
      intro z hz hzt
      obtain ⟨h₁, h₂, htrans⟩ | ⟨-, hout, htrans⟩ := hcases z (hpage z hz)
      · rw [hzt, Option.some.injEq, Prod.mk.injEq] at htrans
        rw [PAGE_SIZE] at h₂
        refine Or.inl ⟨?_, htrans.1⟩
        simp only [pageAddr] at h₁ h₂ ⊢
        omega
      · rw [fill, if_neg hout] at hz
        rw [htrans] at hzt
        obtain ⟨b, hb⟩ := Option.ne_none_iff_exists'.mp hz
        refine Or.inr ⟨hz, hzt, ?_⟩
        rintro rfl
        exact hnone hb hzt
    obtain ⟨hx', rfl⟩ | ⟨hx', hxt', hne⟩ := hback hx hxt
    · obtain ⟨hy', -⟩ | ⟨-, -, hne⟩ := hback hy hyt
      · rw [hx', hy']
      · exact absurd rfl hne
    · obtain ⟨-, rfl⟩ | ⟨hy', hyt', -⟩ := hback hy hyt
      · exact absurd rfl hne
      · exact h.apart x y G hx' hy' hxt' hyt'

/-- What loading does: the pages of `l` are mapped, and the machine shows `μ`. -/
structure Lays (U : Set ℕ) (l : List ℕ) (μ : Bytes) (m m' : Machine) : Prop where
  ready : m'.Ready
  shows : m'.Shows U μ
  spreads : Spreads U m m'
  others : ∀ d t, d < 1023 → t < 1024 → pageAddr d t ∉ l → m'.frameAt d t = m.frameAt d t
  charges : Charges m m' l

namespace Lays

theorem refl (h : m.Shows U μ) (hr : m.Ready) : Lays U [] μ m m :=
  ⟨hr, h, .refl U m, fun _ _ _ _ _ ↦ rfl, .refl m⟩

theorem trans (h : Lays U l μ m m') (h' : Lays U l' ν m' m'') : Lays U (l ++ l') ν m m'' where
  ready := h'.ready
  shows := h'.shows
  spreads := h.spreads.trans h'.spreads
  others d t hd ht hno := by
    rw [List.mem_append, not_or] at hno
    rw [h'.others d t hd ht hno.2, h.others d t hd ht hno.1]
  charges := h.charges.trans h'.charges

theorem stored (h : Lays U l μ m m') (hs : Stored {x | μ x ≠ none} m' m'') (hν : m''.Shows U ν) :
    Lays U l ν m m'' where
  ready := hs.ready h.ready
  shows := hν
  spreads := h.spreads.trans (hs.spreads h.ready h.shows fun _ hx ↦ hx)
  others d t hd ht hno := by
    rw [frameAt_eq, hs.pageEntry h.ready (by omega), ← frameAt_eq, h.others d t hd ht hno]
  charges := by
    have hcharges := h.charges.trans (hs.charges h.ready)
    rwa [List.append_nil] at hcharges

/-- What is beside the pages stays behind its addresses. -/
theorem backs (h : Lays U l μ m m') (hκ : m.Backs U κ)
    (hl : ∀ x, κ x ≠ none → x / 4096 * 4096 ∉ l) : m'.Backs U κ := by
  intro x b hb
  obtain ⟨hx, F, htrans, hmem, hF, hno⟩ := hκ x b hb
  have hout := hl x (by rw [hb]; exact Option.some_ne_none b)
  obtain ⟨d, t, o, -, ht, ho, rfl⟩ := exists_pageAddr (show x < 2 ^ 32 by omega)
  have hd : d < 1023 := by
    simp only [pageAddr] at hx
    omega
  have hpage : (pageAddr d t + o) / 4096 * 4096 = pageAddr d t := by
    simp only [pageAddr]
    omega
  rw [hpage] at hout
  refine ⟨hx, F, ?_, by rw [h.spreads.mem F hF hno, hmem], hF, fun hin ↦ ?_⟩
  · rw [← htrans, translate_page (by omega) ht ho, translate_page (by omega) ht ho,
      h.others d t hd ht hout]
  · exact (h.spreads.table F hin).elim hno fun hFU ↦ hFU hF

end Lays

/-- A page is mapped to a frame from the allocator. -/
theorem Ready.freshPage (hr : m.Ready) (hF : F ∈ m.free) (hd : d < 1023) (ht : t < 1024) :
    ∃ m', (m.withAlloc F).pagingMap (pageAddr d t) (F * PAGE_SIZE) (PAGE_USER ||| PAGE_WRITE) =
      some m' ∧ MapsAt (m.withAlloc F) m' d t F :=
  (hr.withAlloc hF).pagingMap hd ht (Ledger.free_lt hF) (hr.loose ⟨F, hF⟩) (by decide)

theorem MapsAt.charges (h : MapsAt (m.withAlloc F) m' d t F) (hF : F ∈ m.free) (ht : t < 1024) :
    Charges m m' [pageAddr d t] := by
  have hidx := (pageAddr_index (d := d) ht).1
  have hstep : ∀ rest, m'.need rest + 1 + (if m.pde m.dir d % 2 = 0 then 1 else 0) =
      m.need (pageAddr d t :: rest) := by
    intro rest
    have hone := need_step (m := m) (v := pageAddr d t) h.dir (by rw [hidx]; exact h.parity) rest
    rwa [hidx] at hone
  have hone := hstep []
  rw [need_nil] at hone
  have hcard := h.card
  rw [withAlloc_dir, withAlloc_pde, withAlloc_free, Finset.card_erase_of_mem hF] at hcard
  refine ⟨fun rest ↦ ?_, by omega⟩
  have := hstep rest
  rw [List.singleton_append]
  omega

theorem exists_page (hv : v % 4096 = 0) (hlt : v < 0xFFC00000) :
    ∃ d t, d < 1023 ∧ t < 1024 ∧ v = pageAddr d t := by
  refine ⟨v / 2 ^ 22, v / 2 ^ 12 % 1024, by omega, by omega, ?_⟩
  simp only [pageAddr]
  omega

/-- One page: it is mapped and cleared, or there was no frame. -/
theorem Shows.loadPage (h : m.Shows U μ) (hr : m.Ready) (hv : v % 4096 = 0) (hlt : v < 0xFFC00000) :
    (m.free.Nonempty ∧ ∃ m', Machine.loadPage ⟨m, k, false⟩ v = some ⟨m', k, false⟩ ∧
      Lays U [v] (fill μ v PAGE_SIZE fun _ ↦ 0) m m') ∨
    (m.free = ∅ ∧ Machine.loadPage ⟨m, k, false⟩ v = some ⟨m.log (.alloc 0), k, true⟩) := by
  obtain ⟨d, t, hd, ht, rfl⟩ := exists_page hv hlt
  obtain ⟨F, hF, halloc⟩ | ⟨hnone, halloc⟩ := pmmAllocFrame_cases hr.lastAlloc
  · have hF0 : F * PAGE_SIZE ≠ 0 := Nat.mul_ne_zero (Ledger.free_ne hF hr.zero) (by decide)
    obtain ⟨m₁, hmap, hat⟩ := hr.freshPage hF hd ht
    have h₁ := h.map hF hr hat hd ht
    obtain ⟨m₂, hset, hstored, h₂, -⟩ := (h₁.mirrors hat.ready (κ := fun _ ↦ none)
      fun _ _ hb ↦ (by cases hb)).memset (n := PAGE_SIZE) ⟨.refl _ m₁, h₁, fun _ ↦ Iff.rfl⟩
      (fun k hk ↦ by rw [fill_apply_add hk]; exact Option.some_ne_none _) 0
    have hlays : Lays U [pageAddr d t] (fill μ (pageAddr d t) PAGE_SIZE (m.mem F)) m m₁ := by
      refine ⟨hat.ready, h₁, hat.spreads hF h.own, fun d' t' hd' ht' hne ↦ ?_, hat.charges hF ht⟩
      rw [hat.frame d' t' hd' ht', if_neg]
      · rfl
      · rintro ⟨rfl, rfl⟩
        exact hne List.mem_cons_self
    refine Or.inl ⟨⟨F, hF⟩, m₂, by simp [Machine.loadPage, halloc, hF0, hmap, hset], ?_⟩
    convert hlays.stored hstored h₂ using 1
    funext x
    simp only [fill]
    split <;> rfl
  · exact Or.inr ⟨hnone, by simp [Machine.loadPage, halloc]⟩

/-- The loop over the pages of a segment. -/
theorem Shows.loadPages (h : m.Shows U μ) (hr : m.Ready)
    (hl : ∀ v ∈ l, v % 4096 = 0 ∧ v < 0xFFC00000) :
    (m.Grants l ∧ ∃ m', l.foldlM Machine.loadPage ⟨m, k, false⟩ = some ⟨m', k, false⟩ ∧
      Lays U l (zeroPages μ l) m m') ∨
    (¬ m.Grants l ∧ ∃ m', l.foldlM Machine.loadPage ⟨m, k, false⟩ = some ⟨m', k, true⟩) := by
  induction l generalizing m μ with
  | nil => exact Or.inl ⟨m.grants_nil, m, rfl, .refl h hr⟩
  | cons v l ih =>
      obtain ⟨hv, hlt⟩ := hl v List.mem_cons_self
      obtain ⟨hne, m₁, hstep, hlays⟩ | ⟨hnone, hstep⟩ := h.loadPage (k := k) hr hv hlt
      · have hgrants : m.Grants ([v] ++ l) ↔ m₁.Grants l :=
          hlays.charges.grants_iff (grants_singleton hne v)
        obtain ⟨hall, m₂, hrun, hlays'⟩ | ⟨hout, m₂, hrun⟩ := ih hlays.shows hlays.ready
          fun v hv ↦ hl v (List.mem_cons_of_mem _ hv)
        · refine Or.inl ⟨hgrants.mpr hall, m₂, ?_, hlays.trans hlays'⟩
          rw [List.foldlM_cons, hstep, Option.bind_eq_bind, Option.bind_some, hrun]
        · refine Or.inr ⟨fun hall ↦ hout (hgrants.mp hall), m₂, ?_⟩
          rw [List.foldlM_cons, hstep, Option.bind_eq_bind, Option.bind_some, hrun]
      · refine Or.inr ⟨not_grants_cons hnone, m.log (.alloc 0), ?_⟩
        rw [List.foldlM_cons, hstep]
        exact loadPages_outOfMemory _ _ _

/-! ## Relocating by zero -/

theorem poke_peek (m : Machine) (p : ℕ × ℕ) : m.poke p (m.peek p) = m := by
  rw [poke, peek, Function.update_eq_self, Function.update_eq_self]

/-- Storing the word that is there. -/
theorem store32_load32 {a w : ℕ} (hload : m.load32 a = some w) (hstore : m.store32 a w = some m') :
    m' = m := by
  simp only [store32, Option.bind_eq_bind, Option.bind_eq_some_iff, Option.pure_def,
    Option.some.injEq] at hstore
  obtain ⟨p₀, h₀, p₁, h₁, p₂, h₂, p₃, h₃, rfl⟩ := hstore
  simp only [load32, load8, h₀, h₁, h₂, h₃, Option.map_some, Option.bind_eq_bind, Option.bind_some,
    Option.pure_def, Option.some.injEq] at hload
  obtain ⟨e₀, e₁, e₂, e₃⟩ := byteOf_joinBytes (m.peek p₀) (m.peek p₁) (m.peek p₂) (m.peek p₃)
  rw [← hload, e₀, e₁, e₂, e₃, poke_peek, poke_peek, poke_peek, poke_peek]

theorem relocate_zero {info : DynInfo} {fuel off : ℕ} (h : m.relocate 0 info fuel off = some m') :
    m' = m := by
  induction fuel generalizing m off with
  | zero => cases h
  | succ fuel ih =>
      rw [relocate_succ] at h
      split at h
      · rw [Option.bind_eq_some_iff] at h
        obtain ⟨m₁, hrecord, hrest⟩ := h
        obtain rfl := ih hrest
        rw [relocateRecord, Option.bind_eq_bind, Option.bind_eq_some_iff] at hrecord
        obtain ⟨rInfo, -, hrecord⟩ := hrecord
        split at hrecord
        · simp only [Option.bind_eq_some_iff] at hrecord
          obtain ⟨rOffset, -, v, hv, hstore⟩ := hrecord
          exact store32_load32 hv hstore
        · exact (Option.some.inj hrecord).symm
      · exact (Option.some.inj h).symm

theorem applyRelocations_zero (h : m.applyRelocations data 0 = some m') : m' = m := by
  rw [applyRelocations] at h
  split at h
  · exact (Option.some.inj h).symm
  · dsimp only at h
    split at h
    · exact (Option.some.inj h).symm
    · rw [Option.bind_eq_bind, Option.bind_eq_some_iff] at h
      obtain ⟨info, -, h⟩ := h
      exact relocate_zero h

/-! ## Segments -/

/-- One header, whose bytes go to pages that are mapped by then. -/
theorem Shows.loadSegment {i : ℕ} (h : m.Shows U (data.placed base μ i)) (hr : m.Ready)
    (hpages : ∀ v ∈ data.segPages base i, v < 0xFFC00000)
    (hcopy : data.pType i = PT_LOAD → ∀ k < data.pFilesz i,
      data.Owned base (i + 1) ((base + data.pVaddr i) % 2 ^ 32 + k)) :
    (m.Grants (data.segPages base i) ∧
      ∃ m', Machine.loadSegment data base ⟨m, k, false⟩ i = some ⟨m', if data.pType i = PT_LOAD then
          max k (data.segEnd base i) else k, false⟩ ∧
        Lays U (data.segPages base i) (data.placed base μ (i + 1)) m m') ∨
    (¬ m.Grants (data.segPages base i) ∧
      ∃ m' high, Machine.loadSegment data base ⟨m, k, false⟩ i = some ⟨m', high, true⟩) := by
  rw [Image.placed_succ, Image.place]
  by_cases hload : data.pType i = PT_LOAD
  · have hlist : data.segPages base i = pagesBetween (data.segStart base i) (data.segEnd base i) := by
      rw [Image.segPages, if_pos hload]
    obtain ⟨hall, m₁, hrun, hlays⟩ | ⟨hout, m₁, hrun⟩ := h.loadPages (k := max k (data.segEnd base i))
      hr fun v hv ↦ ⟨(Image.mem_segPages.mp hv).2.2.2, hpages v hv⟩
    · rw [hlist, zeroPages_pagesBetween _ (segStart_mod data base i) (segEnd_mod data base i)] at hlays
      rw [hlist] at hrun
      obtain ⟨m₂, hcpy, hstored, h₂, -⟩ := (hlays.shows.mirrors hlays.ready (κ := fun _ ↦ none)
        fun _ _ hb ↦ (by cases hb)).memcpyFrom (n := data.pFilesz i)
        ⟨.refl _ m₁, hlays.shows, fun _ ↦ Iff.rfl⟩
        (fun k hk ↦ Image.cleared_ne_none (hcopy hload k hk)) data (data.pOffset i)
      refine Or.inl ⟨hall, m₂, ?_, ?_⟩
      · rw [Machine.loadSegment, if_neg (by simp [hload])]
        dsimp only
        rw [hrun, Option.bind_eq_bind, Option.bind_some, if_neg Bool.false_ne_true, hcpy, if_pos hload]
        rfl
      · rw [if_pos hload, hlist]
        exact hlays.stored hstored h₂
    · rw [hlist] at hrun
      refine Or.inr ⟨hout, m₁, max k (data.segEnd base i), ?_⟩
      rw [Machine.loadSegment, if_neg (by simp [hload])]
      dsimp only
      rw [hrun, Option.bind_eq_bind, Option.bind_some, if_pos rfl]
      rfl
  · have hlist : data.segPages base i = [] := by rw [Image.segPages, if_neg hload]
    rw [if_neg hload, if_neg hload, hlist]
    exact Or.inl ⟨m.grants_nil, m, by simp [Machine.loadSegment, hload], .refl h hr⟩

/-- The loop over the headers, after `n` of them. -/
theorem Shows.loadSegments (h : m.Shows U μ) (hr : m.Ready)
    (hpages : ∀ v ∈ data.pages base n, v < 0xFFC00000)
    (hcopy : ∀ i < n, data.pType i = PT_LOAD → ∀ k < data.pFilesz i,
      data.Owned base (i + 1) ((base + data.pVaddr i) % 2 ^ 32 + k)) :
    (m.Grants (data.pages base n) ∧
      ∃ m', (List.range n).foldlM (Machine.loadSegment data base) ⟨m, 0, false⟩ =
          some ⟨m', data.highest base n, false⟩ ∧
        Lays U (data.pages base n) (data.placed base μ n) m m') ∨
    (¬ m.Grants (data.pages base n) ∧
      ∃ s, (List.range n).foldlM (Machine.loadSegment data base) ⟨m, 0, false⟩ = some s ∧
        s.outOfMemory = true) := by
  induction n with
  | zero => exact Or.inl ⟨m.grants_nil, m, rfl, .refl h hr⟩
  | succ n ih =>
      rw [Image.pages_succ] at hpages ⊢
      obtain ⟨hall, m₁, hrun, hlays⟩ | ⟨hout, s, hrun, hoom⟩ :=
        ih (fun v hv ↦ hpages v (List.mem_append_left _ hv)) fun i hi ↦ hcopy i (by omega)
      · have hgrants : m.Grants (data.pages base n ++ data.segPages base n) ↔
            m₁.Grants (data.segPages base n) := hlays.charges.grants_iff hall
        obtain ⟨hall', m₂, hstep, hlays'⟩ | ⟨hout, m₂, high, hstep⟩ :=
          hlays.shows.loadSegment (k := data.highest base n) hlays.ready
            (fun v hv ↦ hpages v (List.mem_append_right _ hv)) (hcopy n n.lt_succ_self)
        · refine Or.inl ⟨hgrants.mpr hall', m₂, ?_, hlays.trans hlays'⟩
          rw [List.range_succ, List.foldlM_append, hrun, Option.bind_eq_bind, Option.bind_some,
            List.foldlM_cons, hstep, Image.highest_succ]
          rfl
        · refine Or.inr ⟨fun hall ↦ hout (hgrants.mp hall), ⟨m₂, high, true⟩, ?_, rfl⟩
          rw [List.range_succ, List.foldlM_append, hrun, Option.bind_eq_bind, Option.bind_some,
            List.foldlM_cons, hstep]
          rfl
      · refine Or.inr ⟨fun hall ↦ hout hall.front, s, ?_, hoom⟩
        rw [List.range_succ, List.foldlM_append, hrun, Option.bind_eq_bind, Option.bind_some]
        exact loadSegments_outOfMemory data base hoom [n]

/-- The relocation pass, when its patches stay in the image. -/
theorem Lays.applyRelocations (h : Lays U l μ m m') (hκ : m'.Backs U κ)
    (hrun : data.relocated base κ μ = .ok ν) :
    ∃ m'', m'.applyRelocations data base = some m'' ∧ Stored {x | μ x ≠ none} m' m'' ∧
      Lays U l ν m m'' ∧ ∀ x, ν x ≠ none ↔ μ x ≠ none := by
  obtain ⟨m'', happly, hstored, hν, hdom⟩ := (h.shows.mirrors h.ready hκ).applyRelocations
    ⟨.refl _ m', h.shows, fun _ ↦ Iff.rfl⟩ hrun
  exact ⟨m'', happly, hstored, h.stored hstored hν, hdom⟩

/-- What `elf_load` does when its copies stay in its own pages. -/
theorem Ready.elfLoad {size : ℕ} (hr : m.Ready) (hU : ∀ f ∈ U, m.frameTest f = true ∧ f ≠ 0)
    (hbase : data.headerBase size = some base)
    (hpages : ∀ v ∈ data.pages base data.ePhnum, v < 0xFFC00000)
    (hcopy : ∀ i < data.ePhnum, data.pType i = PT_LOAD → ∀ k < data.pFilesz i,
      data.Owned base (i + 1) ((base + data.pVaddr i) % 2 ^ 32 + k)) :
    (m.Grants (data.pages base data.ePhnum) ∧
      ∃ m₁, Lays U (data.pages base data.ePhnum) (data.loaded base) m m₁ ∧
        m.elfLoad data size = (m₁.applyRelocations data base).map fun m' ↦
          ((base + data.eEntry) % 2 ^ 32, data.highest base data.ePhnum, m')) ∨
    (¬ m.Grants (data.pages base data.ePhnum) ∧ ∃ m', m.elfLoad data size = some (0, 0, m')) := by
  obtain ⟨hall, m₁, hrun, hlays⟩ | ⟨hout, s, hrun, hoom⟩ := (shows_none hU).loadSegments hr hpages hcopy
  · exact Or.inl ⟨hall, m₁, hlays, elfLoad_relocates hbase hrun⟩
  · refine Or.inr ⟨hout, s.machine, ?_⟩
    rw [Machine.elfLoad, hbase]
    dsimp only
    rw [hrun, Option.bind_eq_bind, Option.bind_some, if_pos hoom]
    rfl

end Machine

end EclipseOS
