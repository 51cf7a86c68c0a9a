import EclipseOS.Shown
import EclipseOS.TwoRuns

/-!
# Two loads side by side

`elf_load` in two machines that agree except on the bytes of free frames.  Each
page that is mapped is cleared, and what is copied and patched lies in pages
that are mapped, so the machines agree afterwards too.
-/

namespace EclipseOS

open LittleEndian

namespace Machine

variable {m n m' n' : Machine} {d t i f v F P base hi high : ℕ} {A S U : Set ℕ}
variable {data : Image} {κ μ ν : Bytes} {l : List ℕ}

namespace Alike

/-! ## Entries -/

theorem pde_dir (h : Alike S m n) (hr : m.Ready) (hS : ∀ f, m.InUse f → f ∉ S) (hd : d < 1024) :
    n.pde m.dir d = m.pde m.dir d :=
  h.pde (hr.tables _ hr.paged.inUse_dir) (hS _ hr.paged.inUse_dir) hd

theorem pageEntry (h : Alike S m n) (hr : m.Ready) (hS : ∀ f, m.InUse f → f ∉ S) (hd : d < 1024)
    (ht : t < 1024) : n.pageEntry d t = m.pageEntry d t := by
  refine pageEntry_congr h.cr3 (by rw [h.pde_dir hr hS hd]) (by rw [h.pde_dir hr hS hd]) fun hp ↦ ?_
  have htable : m.InUse (m.pde m.dir d / 4096) := ⟨d, hd, hp, rfl⟩
  exact h.word (hr.tables _ htable) (hS _ htable) ht

theorem translate (h : Alike S m n) (hr : m.Ready) (hS : ∀ f, m.InUse f → f ∉ S) {x : ℕ}
    (hx : x < 2 ^ 32) : n.translate x = m.translate x := by
  obtain ⟨d, t, o, hd, ht, ho, rfl⟩ := exists_pageAddr hx
  rw [translate_page hd ht ho, translate_page hd ht ho, frameAt_eq, frameAt_eq,
    h.pageEntry hr hS hd ht]

theorem inUse (h : Alike S m n) (hr : m.Ready) (hS : ∀ f, m.InUse f → f ∉ S) :
    n.InUse f ↔ m.InUse f := by
  refine exists_congr fun i ↦ and_congr_right fun hi ↦ ?_
  rw [h.dir, h.pde_dir hr hS hi]

theorem ready (h : Alike S m n) (hr : m.Ready) (hS : ∀ f, m.InUse f → f ∉ S) : n.Ready := by
  refine ⟨⟨hr.paged.window.congr h.cr3 (h.pde_dir hr hS (by norm_num)), fun d d' hd hd' ↦ ?_,
    fun d t hd ht hc ↦ ?_⟩, ?_, by rw [h.test, hr.zero], fun F hF ↦ ?_, fun hne h0 ↦ ?_⟩
  · rw [h.dir, h.pde_dir hr hS hd, h.pde_dir hr hS hd']
    exact hr.paged.distinct d d' hd hd'
  · rw [copied_iff_entry, h.pageEntry hr hS (by omega) ht, ← copied_iff_entry] at hc
    rw [h.dir, h.pde_dir hr hS (by omega)]
    exact hr.paged.user d t hd ht hc
  · rw [h.lastAlloc, h.totalFrames]
    exact hr.lastAlloc
  · rw [h.test]
    exact hr.tables F ((h.inUse hr hS).mp hF)
  · rw [h.free] at hne
    exact hr.loose hne ((h.inUse hr hS).mp h0)

/-- What is behind `κ` on one side is behind it on the other. -/
theorem backs (h : Alike ∅ m n) (hr : m.Ready) (hU : ∀ f ∈ U, m.frameTest f = true)
    (hκ : m.Backs U κ) : n.Backs U κ := by
  have hS : ∀ f, m.InUse f → f ∉ (∅ : Set ℕ) := fun f _ ↦ Set.notMem_empty f
  intro x b hb
  obtain ⟨hx, F, htrans, hmem, hF, hno⟩ := hκ x b hb
  refine ⟨hx, F, by rw [h.translate hr hS (by omega), htrans], ?_, hF,
    fun hin ↦ hno ((h.inUse hr hS).mp hin)⟩
  rw [h.mem F (hU F hF) (Set.notMem_empty F) _ (Nat.mod_lt x (by norm_num)), hmem]

/-- `paging_map` takes the same frame for the table, or finds the same one. -/
theorem mapPage (h : Alike S m n) (hr : m.Ready) (hS : ∀ f, m.InUse f → f ∉ S) (hd : d < 1023)
    (ht : t < 1024) (hF : F < 2 ^ 20) (h0 : ¬ m.InUse 0) {flags : ℕ}
    (hfl : flags &&& (PAGE_WRITE ||| PAGE_USER) = flags) :
    ∃ m' n', m.pagingMap (pageAddr d t) (F * PAGE_SIZE) flags = some m' ∧
      n.pagingMap (pageAddr d t) (F * PAGE_SIZE) flags = some n' ∧ MapsAt m m' d t F ∧
      Alike S m' n' := by
  obtain ⟨m', hrun, hmaps⟩ := hr.pagingMap hd ht hF h0 hfl
  have hva := pageAddr_index (d := d) ht
  have hlt : flags < 4096 := by
    have hle : flags ≤ 6 := hfl ▸ Nat.and_le_right
    omega
  have hdir := hr.paged.inUse_dir
  have hwin := (h.ready hr hS).paged.window
  have hpde := h.pde_dir hr hS (d := d) (by omega)
  set c := Call.map (pageAddr d t) (F * PAGE_SIZE) flags with hc
  -- a table `G` that is not the directory, chosen on both sides
  have hnew : ∀ {G m₁ n₁}, (m.log c).pmmAllocFrame = (G * PAGE_SIZE, m₁) →
      (n.log c).pmmAllocFrame = (G * PAGE_SIZE, n₁) → Alike (insert G S) m₁ n₁ → G < 2 ^ 20 →
      G ≠ m.dir → m₁.cr3 = m.cr3 → m₁.frameTest m.dir = true → m.pde m.dir d % 2 = 0 →
      ∃ m' n', m.pagingMap (pageAddr d t) (F * PAGE_SIZE) flags = some m' ∧
        n.pagingMap (pageAddr d t) (F * PAGE_SIZE) flags = some n' ∧ Alike S m' n' := by
    intro G m₁ n₁ hm hn halike hG hne hcr3 hused hp
    have hdir₁ : m₁.dir = m.dir := by rw [Machine.dir, hcr3, Machine.dir]
    have halike₁ : Alike S (m₁.withTable d G) (n₁.withTable d G) :=
      (halike.withTable d G).mono fun f hf ↦ hf.1.resolve_left hf.2
    refine ⟨_, _, pagingMap_absent hr.paged.window hd ht hva hp hm hG hne hF hlt,
      pagingMap_absent hwin hd ht hva (by rw [h.dir, hpde, hp]) hn hG (by rw [h.dir]; exact hne) hF hlt,
      halike₁.withPage ?_ ?_ (by omega) t F flags⟩
    · rw [show (m₁.withTable d G).dir = m.dir from hdir₁]
      exact hused
    · rw [show (m₁.withTable d G).dir = m.dir from hdir₁]
      exact hS _ hdir
  suffices hboth : ∃ m' n', m.pagingMap (pageAddr d t) (F * PAGE_SIZE) flags = some m' ∧
      n.pagingMap (pageAddr d t) (F * PAGE_SIZE) flags = some n' ∧ Alike S m' n' by
    obtain ⟨m'', n', hrun', hrunn, halike⟩ := hboth
    obtain rfl := Option.some.inj (hrun.symm.trans hrun')
    exact ⟨m', n', hrun, hrunn, hmaps, halike⟩
  rcases Nat.mod_two_eq_zero_or_one (m.pde m.dir d) with hp | hp
  · obtain ⟨G, hG, hm, hn⟩ | ⟨-, hm, hn⟩ := (h.log c c).pmmAllocFrame (m := m.log c) hr.lastAlloc
    · have hGdir : G ≠ m.dir := Ledger.free_ne hG (hr.tables _ hdir)
      exact hnew hm hn ((h.log c c).alloc G) (Ledger.free_lt hG) hGdir rfl
        (by simp [hr.tables _ hdir]) hp
    · exact hnew (by rw [hm, Nat.zero_mul]) (by rw [hn, Nat.zero_mul])
        (((h.log c c).log _ _).mono (Set.subset_insert 0 S)) (by norm_num) (fun heq ↦ h0 (heq ▸ hdir))
        rfl (hr.tables _ hdir) hp
  · exact ⟨_, _, pagingMap_present hr.paged.window hd ht hva hp hF hlt,
      pagingMap_present hwin hd ht hva (by rw [h.dir, hpde, hp]) hF hlt,
      (h.log c c).withPage (m := m.log c) (hr.tables _ hdir) (hS _ hdir) (by omega) t F flags⟩

/-! ## Pages -/

theorem loadPage {k : ℕ} (h : Alike ∅ m n) (hr : m.Ready) (hv : v % 4096 = 0) (hlt : v < 0xFFC00000) :
    ∃ m' n' b, Machine.loadPage ⟨m, k, false⟩ v = some ⟨m', k, b⟩ ∧
      Machine.loadPage ⟨n, k, false⟩ v = some ⟨n', k, b⟩ ∧ Alike ∅ m' n' ∧ m'.Ready := by
  obtain ⟨d, t, hd, ht, rfl⟩ := exists_page hv hlt
  obtain ⟨F, hF, hm, hn⟩ | ⟨-, hm, hn⟩ := h.pmmAllocFrame hr.lastAlloc
  · have hF0 : F ≠ 0 := Ledger.free_ne hF hr.zero
    have hfresh := hr.fresh hF
    have hone : ∀ f, (m.withAlloc F).InUse f → f ∉ insert F (∅ : Set ℕ) := by
      rintro f hf (rfl | hf')
      · exact hfresh hf
      · exact hf'
    obtain ⟨m₁, n₁, hmap, hmapn, hat, h₁⟩ := (h.alloc F).mapPage (hr.withAlloc hF) hone hd ht
      (Ledger.free_lt hF) (hr.loose ⟨F, hF⟩) (show (PAGE_USER ||| PAGE_WRITE) &&&
        (PAGE_WRITE ||| PAGE_USER) = PAGE_USER ||| PAGE_WRITE by decide)
    obtain ⟨-, hno, -⟩ := hat.keeps (by simp) hF0 hfresh
    have hone₁ : ∀ f, m₁.InUse f → f ∉ insert F (∅ : Set ℕ) := by
      rintro f hf (rfl | hf')
      · exact hno hf
      · exact hf'
    have hframe : m₁.frameAt d t = some F := by rw [hat.frame d t hd ht, if_pos ⟨rfl, rfl⟩]
    have hframen : n₁.frameAt d t = some F := by
      rw [frameAt_eq, h₁.pageEntry hat.ready hone₁ (by omega) ht, ← frameAt_eq, hframe]
    have hclear : ∀ {x : Machine}, x.Ready → x.frameAt d t = some F → ¬ x.InUse F →
        x.memset (pageAddr d t) 0 PAGE_SIZE =
          some (x.setFrame F (splice (x.mem F) 0 4096 fun _ ↦ 0)) := by
      intro x hx hx' hno
      have hp := (frameAt_eq_some.mp hx').1
      have hset := memset_page (o := 0) (n := 4096) (by omega) ht (by norm_num) hx'
        (fun heq ↦ hno (heq ▸ hx.paged.inUse_dir)) (fun heq ↦ hno ⟨d, by omega, hp, heq.symm⟩) 0
      rwa [Nat.add_zero] at hset
    have hm₂ := hclear hat.ready hframe hno
    have hn₂ := hclear (h₁.ready hat.ready hone₁) hframen
      fun hin ↦ hno ((h₁.inUse hat.ready hone₁).mp hin)
    have hzero : F * PAGE_SIZE ≠ 0 := Nat.mul_ne_zero hF0 (by decide)
    have hrun : Machine.loadPage ⟨m, k, false⟩ (pageAddr d t) =
        some ⟨m₁.setFrame F (splice (m₁.mem F) 0 4096 fun _ ↦ 0), k, false⟩ := by
      simp [Machine.loadPage, hm, hzero, hmap, hm₂]
    have hrunn : Machine.loadPage ⟨n, k, false⟩ (pageAddr d t) =
        some ⟨n₁.setFrame F (splice (n₁.mem F) 0 4096 fun _ ↦ 0), k, false⟩ := by
      simp [Machine.loadPage, hn, hzero, hmapn, hn₂]
    refine ⟨_, _, false, hrun, hrunn, ?_, ?_⟩
    · refine (h₁.setFrame F fun o ho ↦ ?_).mono fun f hf ↦ absurd hf.1 fun hin ↦ hf.2 ?_
      · rw [splice_page _ _ ho, splice_page _ _ ho]
      · exact hin.resolve_right (Set.notMem_empty f)
    · obtain ⟨-, m₂, hrun', hlays⟩ | ⟨-, hrun'⟩ := (m.shows_none (U := ∅)
        fun f hf ↦ absurd hf (Set.notMem_empty f)).loadPage (k := k) hr hv hlt
      · rw [hrun, Option.some.injEq, ElfLoop.mk.injEq] at hrun'
        rw [hrun'.1]
        exact hlays.ready
      · rw [hrun, Option.some.injEq, ElfLoop.mk.injEq] at hrun'
        cases hrun'.2.2
  · exact ⟨_, _, true, by simp [Machine.loadPage, hm]; rfl, by simp [Machine.loadPage, hn]; rfl,
      h.log _ _, hr.log _⟩

theorem loadPages (h : Alike ∅ m n) (hr : m.Ready) (hl : ∀ v ∈ l, v % 4096 = 0 ∧ v < 0xFFC00000)
    (hi : ℕ) :
    ∃ m' n' b, l.foldlM Machine.loadPage ⟨m, hi, false⟩ = some ⟨m', hi, b⟩ ∧
      l.foldlM Machine.loadPage ⟨n, hi, false⟩ = some ⟨n', hi, b⟩ ∧ Alike ∅ m' n' := by
  induction l generalizing m n with
  | nil => exact ⟨m, n, false, rfl, rfl, h⟩
  | cons v l ih =>
      obtain ⟨hv, hlt⟩ := hl v List.mem_cons_self
      obtain ⟨m₁, n₁, b, hm, hn, h₁, hr₁⟩ := h.loadPage (k := hi) hr hv hlt
      cases b with
      | false =>
          obtain ⟨m₂, n₂, b, hm₂, hn₂, h₂⟩ := ih h₁ hr₁ fun v hv ↦ hl v (List.mem_cons_of_mem _ hv)
          refine ⟨m₂, n₂, b, ?_, ?_, h₂⟩
          · rw [List.foldlM_cons, hm, Option.bind_eq_bind, Option.bind_some, hm₂]
          · rw [List.foldlM_cons, hn, Option.bind_eq_bind, Option.bind_some, hn₂]
      | true =>
          refine ⟨m₁, n₁, true, ?_, ?_, h₁⟩
          · rw [List.foldlM_cons, hm, Option.bind_eq_bind, Option.bind_some, loadPages_outOfMemory]
          · rw [List.foldlM_cons, hn, Option.bind_eq_bind, Option.bind_some, loadPages_outOfMemory]

/-! ## Stores into the image -/

/-- Stores behind the addresses of `A`, after which both sides show the same there. -/
theorem stored (h : Alike ∅ m n) (hr : m.Ready) (hm : Stored A m m') (hn : Stored A n n')
    (hsm : m'.Shows U μ) (hsn : n'.Shows U μ) (hA : ∀ x ∈ A, μ x ≠ none) : Alike ∅ m' n' := by
  have hS : ∀ f, m.InUse f → f ∉ (∅ : Set ℕ) := fun f _ ↦ Set.notMem_empty f
  have htest : ∀ f, n'.frameTest f = m'.frameTest f := fun f ↦ by
    rw [hn.frameTest, hm.frameTest, h.test]
  refine ⟨by rw [hn.cr3, hm.cr3, h.cr3], by rw [hn.same, hm.same]; exact h.totalFrames,
    by rw [hn.same, hm.same]; exact h.lastAlloc, htest, fun f hf _ o ho ↦ ?_⟩
  by_cases hshown : ∃ x ∈ A, m.translate x = some (f, o)
  · obtain ⟨x, hx, htrans⟩ := hshown
    obtain ⟨b, hb⟩ := Option.ne_none_iff_exists'.mp (hA x hx)
    obtain ⟨hlt, F, htransm, hmemm, -⟩ := hsm.shown x b hb
    obtain ⟨-, G, htransn, hmemn, -⟩ := hsn.shown x b hb
    rw [hm.translate hr (by omega), htrans, Option.some.injEq, Prod.mk.injEq] at htransm
    rw [hn.translate (h.ready hr hS) (by omega), h.translate hr hS (by omega), htrans,
      Option.some.injEq, Prod.mk.injEq] at htransn
    obtain ⟨rfl, rfl⟩ := htransm
    obtain ⟨rfl, -⟩ := htransn
    rw [hmemm, hmemn]
  · have hno : ∀ x ∈ A, m.translate x ≠ some (f, o) := fun x hx htrans ↦ hshown ⟨x, hx, htrans⟩
    have hlow : ∀ x ∈ A, x < 2 ^ 32 := fun x hx ↦ by
      obtain ⟨b, hb⟩ := Option.ne_none_iff_exists'.mp (hA x hx)
      have := (hsm.shown x b hb).1
      omega
    rw [hm.bytes f o hno, hn.bytes f o fun x hx ↦ by
      rw [h.translate hr hS (hlow x hx)]
      exact hno x hx]
    rw [hm.frameTest] at hf
    exact h.mem f hf (Set.notMem_empty f) o ho

/-- One header, before which both sides show the same image. -/
theorem loadSegment (h : Alike ∅ m n) (hr : m.Ready) (hsm : m.Shows U (data.placed base μ i))
    (hsn : n.Shows U (data.placed base μ i)) (hpages : ∀ v ∈ data.segPages base i, v < 0xFFC00000)
    (hcopy : data.pType i = PT_LOAD → ∀ k < data.pFilesz i,
      data.Owned base (i + 1) ((base + data.pVaddr i) % 2 ^ 32 + k))
    (hrun : Machine.loadSegment data base ⟨m, high, false⟩ i = some ⟨m', hi, false⟩) :
    ∃ n', Machine.loadSegment data base ⟨n, high, false⟩ i = some ⟨n', hi, false⟩ ∧
      Alike ∅ m' n' := by
  by_cases hload : data.pType i = PT_LOAD
  · have hlist : data.segPages base i = pagesBetween (data.segStart base i) (data.segEnd base i) := by
      rw [Image.segPages, if_pos hload]
    have haligned : ∀ v ∈ data.segPages base i, v % 4096 = 0 ∧ v < 0xFFC00000 := fun v hv ↦
      ⟨(Image.mem_segPages.mp hv).2.2.2, hpages v hv⟩
    rw [hlist] at haligned
    obtain ⟨m₁, n₁, b, hm₁, hn₁, h₁⟩ := h.loadPages hr haligned (max high (data.segEnd base i))
    rw [Machine.loadSegment, if_neg (by simp [hload])] at hrun ⊢
    dsimp only at hrun ⊢
    rw [hm₁, Option.bind_eq_bind, Option.bind_some] at hrun
    rw [hn₁, Option.bind_eq_bind, Option.bind_some]
    cases b with
    | true =>
        rw [if_pos rfl] at hrun
        exact absurd (congrArg ElfLoop.outOfMemory (Option.some.inj hrun)) (by simp)
    | false =>
        have hnr := h.ready hr fun f _ ↦ Set.notMem_empty f
        -- each side alone shows the cleared pages
        have hside : ∀ {x x₁ : Machine}, x.Ready → x.Shows U (data.placed base μ i) →
            (pagesBetween (data.segStart base i) (data.segEnd base i)).foldlM Machine.loadPage
              ⟨x, max high (data.segEnd base i), false⟩ =
                some ⟨x₁, max high (data.segEnd base i), false⟩ → x₁.Ready ∧
            x₁.Shows U (zeroPages (data.placed base μ i) (pagesBetween (data.segStart base i)
              (data.segEnd base i))) := by
          intro x x₁ hx hsx hx₁
          obtain ⟨-, x₂, hx₂, hlays⟩ | ⟨-, x₂, hx₂⟩ :=
            hsx.loadPages (k := max high (data.segEnd base i)) hx haligned
          · rw [hx₁, Option.some.injEq, ElfLoop.mk.injEq] at hx₂
            rw [hx₂.1]
            exact ⟨hlays.ready, hlays.shows⟩
          · rw [hx₁, Option.some.injEq, ElfLoop.mk.injEq] at hx₂
            cases hx₂.2.2
        obtain ⟨hrm₁, hsm₁⟩ := hside hr hsm hm₁
        obtain ⟨hrn₁, hsn₁⟩ := hside hnr hsn hn₁
        have hdef : Defined (zeroPages (data.placed base μ i) (pagesBetween (data.segStart base i)
            (data.segEnd base i))) ((base + data.pVaddr i) % 2 ^ 32) (data.pFilesz i) := by
          intro k hk
          rw [zeroPages_pagesBetween _ (segStart_mod data base i) (segEnd_mod data base i)]
          exact Image.cleared_ne_none (hcopy hload k hk)
        have hnone : ∀ x : Machine, x.Backs U fun _ ↦ none := fun _ _ _ hb ↦ (by cases hb)
        obtain ⟨m₂, hcpm, hstm, hsm₂, hdom⟩ := (hsm₁.mirrors hrm₁ (hnone m₁)).memcpyFrom
          ⟨.refl _ m₁, hsm₁, fun _ ↦ Iff.rfl⟩ hdef data (data.pOffset i)
        obtain ⟨n₂, hcpn, hstn, hsn₂, -⟩ := (hsn₁.mirrors hrn₁ (hnone n₁)).memcpyFrom
          ⟨.refl _ n₁, hsn₁, fun _ ↦ Iff.rfl⟩ hdef data (data.pOffset i)
        have h₂ := h₁.stored hrm₁ hstm hstn hsm₂ hsn₂ fun x hx ↦ (hdom x).mpr hx
        rw [if_neg Bool.false_ne_true, hcpm] at hrun
        obtain ⟨rfl, rfl, -⟩ := ElfLoop.mk.inj (Option.some.inj hrun)
        refine ⟨n₂, ?_, h₂⟩
        rw [if_neg Bool.false_ne_true, hcpn]
        rfl
  · rw [Machine.loadSegment, if_pos (Or.inr hload)] at hrun ⊢
    obtain ⟨rfl, rfl, -⟩ := ElfLoop.mk.inj (Option.some.inj hrun)
    exact ⟨n, rfl, h⟩

/-- The headers before the `k`-th. -/
theorem loadSegments (h : Alike ∅ m n) (hr : m.Ready) (hsm : m.Shows U μ) (hsn : n.Shows U μ) {k : ℕ}
    (hpages : ∀ v ∈ data.pages base k, v < 0xFFC00000)
    (hcopy : ∀ i < k, data.pType i = PT_LOAD → ∀ j < data.pFilesz i,
      data.Owned base (i + 1) ((base + data.pVaddr i) % 2 ^ 32 + j))
    (hrun : (List.range k).foldlM (Machine.loadSegment data base) ⟨m, 0, false⟩ =
      some ⟨m', hi, false⟩) :
    ∃ n', (List.range k).foldlM (Machine.loadSegment data base) ⟨n, 0, false⟩ =
        some ⟨n', hi, false⟩ ∧ Alike ∅ m' n' := by
  induction k generalizing m' hi with
  | zero =>
      obtain ⟨rfl, rfl, -⟩ := ElfLoop.mk.inj (Option.some.inj hrun)
      exact ⟨n, rfl, h⟩
  | succ k ih =>
      have hnr := h.ready hr fun f _ ↦ Set.notMem_empty f
      rw [Image.pages_succ] at hpages
      have hfront : ∀ v ∈ data.pages base k, v < 0xFFC00000 := fun v hv ↦
        hpages v (List.mem_append_left _ hv)
      have hcopies : ∀ i < k, data.pType i = PT_LOAD → ∀ j < data.pFilesz i,
          data.Owned base (i + 1) ((base + data.pVaddr i) % 2 ^ 32 + j) := fun i hi ↦ hcopy i (by omega)
      rw [List.range_succ, List.foldlM_append] at hrun
      obtain ⟨-, m₁, hm₁, hlaysm⟩ | ⟨-, s, hs, hoom⟩ := hsm.loadSegments hr hfront hcopies
      · obtain ⟨n₁, hn₁, h₁⟩ := ih hfront hcopies hm₁
        obtain ⟨-, n₂, hn₂, hlaysn⟩ | ⟨-, s, hs, hoom⟩ := hsn.loadSegments hnr hfront hcopies
        · rw [hn₁, Option.some.injEq, ElfLoop.mk.injEq] at hn₂
          obtain ⟨rfl, -, -⟩ := hn₂
          rw [hm₁, Option.bind_eq_bind, Option.bind_some, List.foldlM_cons] at hrun
          obtain ⟨s, hstep, hs⟩ := Option.bind_eq_some_iff.mp hrun
          obtain rfl := Option.some.inj hs
          obtain ⟨n₂, hn₂, h₂⟩ := h₁.loadSegment hlaysm.ready hlaysm.shows hlaysn.shows
            (fun v hv ↦ hpages v (List.mem_append_right _ hv)) (hcopy k k.lt_succ_self) hstep
          refine ⟨n₂, ?_, h₂⟩
          rw [List.range_succ, List.foldlM_append, hn₁, Option.bind_eq_bind, Option.bind_some,
            List.foldlM_cons, hn₂]
          rfl
        · rw [hn₁, Option.some.injEq] at hs
          rw [← hs] at hoom
          cases hoom
      · rw [hs, Option.bind_eq_bind, Option.bind_some, loadSegments_outOfMemory data base hoom] at hrun
        obtain rfl := Option.some.inj hrun
        cases hoom

/-- `elf_load`, when it succeeds on the first side. -/
theorem elfLoad (h : Alike ∅ m n) (hr : m.Ready) (hU : ∀ f ∈ U, m.frameTest f = true ∧ f ≠ 0)
    {size entry brk : ℕ} (hbase : data.headerBase size = some base)
    (hpages : ∀ v ∈ data.pages base data.ePhnum, v < 0xFFC00000)
    (hcopy : ∀ i < data.ePhnum, data.pType i = PT_LOAD → ∀ k < data.pFilesz i,
      data.Owned base (i + 1) ((base + data.pVaddr i) % 2 ^ 32 + k))
    (hκ : m.Backs U κ) (hout : ∀ x, κ x ≠ none → x / 4096 * 4096 ∉ data.pages base data.ePhnum)
    (hreloc : data.relocated base κ (data.loaded base) = .ok ν)
    (hrun : m.elfLoad data size = some (entry, brk, m')) (hentry : entry ≠ 0) :
    Lays U (data.pages base data.ePhnum) ν m m' ∧ (∀ x, data.loaded base x ≠ none → ν x ≠ none) ∧
      ∃ n', n.elfLoad data size = some (entry, brk, n') ∧ Alike ∅ m' n' ∧
        Lays U (data.pages base data.ePhnum) ν n n' := by
  have hnr := h.ready hr fun f _ ↦ Set.notMem_empty f
  have hUn : ∀ f ∈ U, n.frameTest f = true ∧ f ≠ 0 := fun f hf ↦ by
    rw [h.test]
    exact hU f hf
  have hκn := h.backs hr (fun f hf ↦ (hU f hf).1) hκ
  rw [Machine.elfLoad, hbase] at hrun ⊢
  dsimp only at hrun ⊢
  obtain ⟨-, m₁, hm₁, hlaysm⟩ | ⟨-, s, hs, hoom⟩ := (m.shows_none hU).loadSegments hr hpages hcopy
  · obtain ⟨n₁, hn₁, h₁⟩ := h.loadSegments hr (m.shows_none hU) (n.shows_none hUn) hpages hcopy hm₁
    obtain ⟨-, n₂, hn₂, hlaysn⟩ | ⟨-, s, hs, hoom⟩ :=
      (n.shows_none hUn).loadSegments hnr hpages hcopy
    · rw [hn₁, Option.some.injEq, ElfLoop.mk.injEq] at hn₂
      obtain ⟨rfl, -, -⟩ := hn₂
      obtain ⟨m₂, happm, hstm, hlaysm₂, hdom⟩ := hlaysm.applyRelocations (hlaysm.backs hκ hout) hreloc
      obtain ⟨n₂, happn, hstn, hlaysn₂, -⟩ := hlaysn.applyRelocations (hlaysn.backs hκn hout) hreloc
      have h₂ := h₁.stored hlaysm.ready hstm hstn hlaysm₂.shows hlaysn₂.shows
        fun x hx ↦ (hdom x).mpr hx
      rw [hm₁, Option.bind_eq_bind, Option.bind_some, if_neg Bool.false_ne_true, happm,
        Option.bind_eq_bind, Option.bind_some] at hrun
      rw [Option.pure_def, Option.some.injEq, Prod.mk.injEq, Prod.mk.injEq] at hrun
      obtain ⟨rfl, rfl, rfl⟩ := hrun
      refine ⟨hlaysm₂, fun x ↦ (hdom x).mpr, n₂, ?_, h₂, hlaysn₂⟩
      rw [hn₁, Option.bind_eq_bind, Option.bind_some, if_neg Bool.false_ne_true, happn]
      rfl
    · rw [hn₁, Option.some.injEq] at hs
      rw [← hs] at hoom
      cases hoom
  · rw [hs, Option.bind_eq_bind, Option.bind_some, if_pos hoom] at hrun
    exact absurd (Prod.mk.inj (Option.some.inj hrun)).1.symm hentry

end Alike

end Machine

end EclipseOS
