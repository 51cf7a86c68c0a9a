import EclipseOS.Process
import EclipseOS.Space

/-!
# The two phases of the copy

Phase 1 copies the user pages of the loaded directory into fresh frames, phase
2 enters the copies in a directory without user pages.  Each loop has an
invariant that says what has been done for the pages met so far.
-/

namespace EclipseOS

open LittleEndian

namespace Kernel

open Machine

variable {m m' : Machine} {d t a F S f : ℕ} {φ : ℕ × ℕ → ℕ} {pages : List (ℕ × ℕ)} {s s' : CopyLoop}

/-! ## Phase 1 -/

/-- The copies of `pages` are in the frames `φ` names. -/
structure Copies (m : Machine) (S : ℕ) (φ : ℕ × ℕ → ℕ) (pages : List (ℕ × ℕ)) (s : CopyLoop) :
    Prop where
  list : s.copyList = pages.map fun p ↦
    ⟨pageAddr p.1 p.2, φ p * PAGE_SIZE, m.pte m.dir p.1 p.2 % 4096⟩
  bound : pages.length ≤ MAX_COPY_PAGES
  nodup : (pages.map φ).Nodup
  allocs : Allocs m s.machine (pages.map φ).toFinset
  cr3 : s.machine.cr3 = m.cr3
  mem : ∀ f, f ≠ S → f ∉ pages.map φ → s.machine.mem f = m.mem f
  slot : ∀ o, o / 4 ≠ 1023 → s.machine.mem S o = m.mem S o
  copy : ∀ p ∈ pages, ∀ F, m.leaf m.dir p.1 p.2 = some F →
    ∀ o < 4096, s.machine.mem (φ p) o = m.mem F o

/-- The loop is under way, or it stopped at a page for which there was no room
in the list or no frame. -/
def CopyState (m : Machine) (S : ℕ) (pages : List (ℕ × ℕ)) (s : CopyLoop) : Prop :=
  (s.outOfSlots = false ∧ ∃ φ, Copies m S φ pages s) ∨
    (s.outOfSlots = true ∧ ∃ φ done s₀, done.length < pages.length ∧ Copies m S φ done s₀ ∧
      s.copyList = s₀.copyList ∧
      ((MAX_COPY_PAGES ≤ done.length ∧ s.machine = s₀.machine) ∨
        (s₀.machine.free = ∅ ∧ s.machine = s₀.machine.log (.alloc 0))))

theorem virt_eq (ht : t < 1024) : (d <<< 22) ||| (t <<< 12) = pageAddr d t := by
  have h := Nat.two_pow_add_eq_or_of_lt (i := 22) (b := t * 2 ^ 12) (by omega) d
  rw [Nat.shiftLeft_eq, Nat.shiftLeft_eq, pageAddr, Nat.mul_comm d, h]

theorem Copies.dir (hc : Copies m S φ pages s) : s.machine.dir = m.dir := by
  rw [Machine.dir, hc.cr3, Machine.dir]

/-- A frame in use is none of the copies. -/
theorem Copies.mem_used (hc : Copies m S φ pages s) (hf : m.frameTest f = true) (hS : f ≠ S) :
    s.machine.mem f = m.mem f := by
  refine hc.mem f hS fun hin ↦ ?_
  exact hc.allocs.mem_iff hf (by simpa using hin)

theorem map_update_of_notMem {α β : Type*} [DecidableEq α] (φ : α → β) {x : α} {l : List α}
    (hx : x ∉ l) (y : β) : l.map (Function.update φ x y) = l.map φ :=
  List.map_congr_left fun z hz ↦ by
    rw [Function.update_of_ne (fun h : z = x ↦ hx (h ▸ hz))]

section Phase1

variable (h : m.Space) (hs : m.Scratch S)
include h hs

theorem Copies.scratch (hc : Copies m S φ pages s) : s.machine.Scratch S := by
  have hmem := hc.mem_used h.dirUsed hs.ne.symm
  exact hs.congr hc.cr3 (by rw [hmem]) (by rw [hmem])

theorem Copies.pde (hc : Copies m S φ pages s) (d : ℕ) :
    s.machine.pde m.dir d = m.pde m.dir d := by
  rw [Machine.pde, hc.mem_used h.dirUsed hs.ne.symm, Machine.pde]

theorem slots_ne (hd : d < 1022) (hp : m.pde m.dir d % 2 = 1) : m.pde m.dir d / 4096 ≠ S := by
  have := h.slots d hd hp hs.present
  rwa [hs.table] at this

theorem scratchUsed : m.frameTest S = true := by
  rw [← hs.table]
  exact (h.table 1022 (by norm_num) hs.present).1

theorem Copies.pte (hc : Copies m S φ pages s) (hd : d < 768) (hp : m.pde m.dir d % 2 = 1)
    (t : ℕ) : s.machine.pte m.dir d t = m.pte m.dir d t := by
  rw [Machine.pte, hc.pde h hs, hc.mem_used (h.table d (by omega) hp).1
    (slots_ne h hs (by omega) hp), Machine.pte]

/-- The invariant when the page behind `(d, t)`, frame `L`, was copied to `F`. -/
theorem Copies.extend (hc : Copies m S φ pages s) {L : ℕ} (hleaf : m.leaf m.dir d t = some L)
    (hL : m.frameTest L = true) (hLS : L ≠ S) (hnew : (d, t) ∉ pages)
    (hroom : pages.length < MAX_COPY_PAGES) (hF : F ∈ s.machine.free) (hF0 : F ≠ 0) (hFS : F ≠ S)
    {c : Call} (hcall : c ≠ .alloc 0) {m₂ : Machine}
    (hm₂ : m₂ = ((s.machine.withAlloc F).log c).setWord S 1023 (F * 4096 + 3)) :
    Copies m S (Function.update φ (d, t) F) (pages ++ [(d, t)])
      ⟨m₂.setFrame F (splice (m₂.mem F) 0 4096 (m₂.mem L)), s.copyList ++ [⟨pageAddr d t,
        F * PAGE_SIZE, m.pte m.dir d t % 4096⟩], false⟩ := by
  have hmap : (pages ++ [(d, t)]).map (Function.update φ (d, t) F) = pages.map φ ++ [F] := by
    rw [List.map_append, map_update_of_notMem φ hnew]
    simp
  have hnotin : F ∉ pages.map φ := fun hin ↦ by
    rw [mem_free, hc.allocs.test] at hF
    simp [hin] at hF
  have hLpages : L ∉ pages.map φ := fun hin ↦ hc.allocs.mem_iff hL (by simpa using hin)
  have hmem₂ : ∀ f, f ≠ S → m₂.mem f = s.machine.mem f := fun f hf ↦ by
    rw [hm₂, setWord_mem_of_ne _ _ hf]
    rfl
  constructor
  case list =>
    rw [hc.list, List.map_append]
    refine congrArg₂ (· ++ ·) ?_ ?_
    · refine List.map_congr_left fun p hp ↦ ?_
      rw [Function.update_of_ne fun h : p = (d, t) ↦ hnew (h ▸ hp)]
    · simp
  case bound =>
    rw [List.length_append, List.length_singleton]
    omega
  case nodup =>
    rw [hmap]
    exact hc.nodup.append (List.nodup_singleton F) (by simpa using hnotin)
  case allocs =>
    have hset : ((pages ++ [(d, t)]).map (Function.update φ (d, t) F)).toFinset =
        (pages.map φ).toFinset ∪ {F} ∪ ∅ ∪ ∅ ∪ ∅ := by
      rw [hmap]
      simp
    rw [hset, hm₂]
    exact (((hc.allocs.trans (Allocs.alloc hF hF0)).trans (Allocs.log _ hcall)).trans
      (Allocs.setFrame _ _ _)).trans (Allocs.setFrame _ _ _)
  case cr3 => exact hm₂ ▸ hc.cr3
  case mem =>
    intro f hfS hf
    rw [hmap, List.mem_append, List.mem_singleton, not_or] at hf
    rw [setFrame_mem_of_ne _ hf.2, hmem₂ f hfS, hc.mem f hfS hf.1]
  case slot =>
    intro o ho
    rw [setFrame_mem_of_ne _ hFS.symm, hm₂, setWord_mem_self, putWord_apply_of_ne _ _ ho]
    exact hc.slot o ho
  case copy =>
    intro p hp G hG o ho
    rw [List.mem_append, List.mem_singleton] at hp
    rcases hp with hp | rfl
    · have hne : φ p ≠ F := fun h ↦ hnotin (h ▸ List.mem_map_of_mem hp)
      have hpS : φ p ≠ S := fun h' ↦ hc.allocs.mem_iff (scratchUsed h hs)
        (by rw [← h', List.mem_toFinset]; exact List.mem_map_of_mem hp)
      rw [Function.update_of_ne fun h : p = (d, t) ↦ hnew (h ▸ hp), setFrame_mem_of_ne _ hne,
        hmem₂ _ hpS, hc.copy p hp G hG o ho]
    · have hGL : G = L := Option.some.inj (hG.symm.trans hleaf)
      rw [Function.update_self, setFrame_mem_self, splice_page _ _ ho, hmem₂ L hLS,
        hc.mem L hLS hLpages, hGL]

/-- One more page is copied into the frame `F`. -/
theorem Copies.snoc (hc : Copies m S φ pages s) (hd : d < 768) (ht : t < 1024)
    (hcopied : m.copied m.dir d t = true) (hnew : (d, t) ∉ pages)
    (hroom : pages.length < MAX_COPY_PAGES) (hF : F ∈ s.machine.free) (hout : s.outOfSlots = false)
    (halloc : s.machine.pmmAllocFrame = (F * PAGE_SIZE, s.machine.withAlloc F)) :
    ∃ s', copyPage d s t = some s' ∧ s'.outOfSlots = false ∧
      Copies m S (Function.update φ (d, t) F) (pages ++ [(d, t)]) s' := by
  obtain ⟨hpde, hpte, huser⟩ := copied_iff.mp hcopied
  have hpos := h.copied_pos ht hcopied
  set L := m.pte m.dir d t / 4096 with hL
  have hleaf : m.leaf m.dir d t = some L := leaf_eq_some.mpr ⟨hpde, hpte, rfl⟩
  obtain ⟨hLused, hLdir, hLslot⟩ := h.leaf d t L hpos hd ht hleaf
  have hLS : L ≠ S := hs.table ▸ hLslot hs.present
  have hfree : ∀ f, m.frameTest f = true → F ≠ f := by
    rintro f hf rfl
    rw [mem_free, hc.allocs.test, hf] at hF
    simp at hF
  have hF0 : F ≠ 0 := hfree 0 h.zeroUsed
  have hFlt : F < 2 ^ 20 := ((mem_free _).mp hF).1.trans s.machine.totalFrames_lt
  have hFS := hfree S (scratchUsed h hs)
  have hFdir := hfree m.dir h.dirUsed
  have hFtable := hfree _ (h.table d (by omega) hpde).1
  have hdir := hc.dir
  set c := Call.map TMP_VIRT (F * PAGE_SIZE) PAGE_WRITE with hcall
  set m₂ := ((s.machine.withAlloc F).log c).setWord S 1023 (F * 4096 + 3) with hm₂
  have hs₁ : (s.machine.withAlloc F).Scratch S := (hc.scratch h hs).congr rfl rfl rfl
  have hs₂ : m₂.Scratch S := (hs₁.log c).setWord hs₁.ne _ _
  have hslot : word (m₂.mem S) 1023 = F * 4096 + 3 := by
    rw [hm₂, word_setWord, if_pos ⟨rfl, rfl⟩]
    omega
  have hmem₂ : ∀ f, f ≠ S → m₂.mem f = s.machine.mem f := fun f hf ↦ setWord_mem_of_ne _ _ hf
  have hpde₂ : m₂.pde m.dir d = m.pde m.dir d := by
    rw [Machine.pde, hmem₂ _ hs.ne.symm, ← hc.pde h hs, Machine.pde]
  have hpte₂ : m₂.pte m.dir d t = m.pte m.dir d t := by
    rw [Machine.pte, hpde₂, hmem₂ _ (slots_ne h hs (by omega) hpde), ← hc.pte h hs hd hpde,
      Machine.pte, hc.pde h hs]
  have hat : m₂.frameAt d t = some L := by
    rw [frameAt, show m₂.dir = m.dir from hdir, leaf_eq_some, hpde₂, hpte₂]
    exact ⟨hpde, hpte, rfl⟩
  have hcopy := memcpy_page (m := m₂) (d := 1022) (t := 1023) (o := 0)
    (n := 4096) (by norm_num) (by norm_num) (by omega) ht (by norm_num) (hs₂.frameAt_slot hslot) hat
    (by rw [show m₂.dir = m.dir from hdir]; exact hFdir) (by rw [hs₂.table]; exact hFS)
    (by rw [show m₂.dir = m.dir from hdir, hpde₂]; exact hFtable) (hfree L hLused)
  set q := splice (m₂.mem F) 0 4096 (m₂.mem L) with hq
  refine ⟨⟨m₂.setFrame F q, s.copyList ++ [⟨pageAddr d t, F * PAGE_SIZE,
    m.pte m.dir d t % 4096⟩], false⟩, ?_, rfl, ?_⟩
  · have hload := (hc.scratch h hs).window.load_pt (d := d) (t := t) (by omega) ht
      (by rw [hdir, hc.pde h hs]; exact hpde)
    rw [hdir, hc.pte h hs hd hpde] at hload
    have hlen : ¬ MAX_COPY_PAGES ≤ s.copyList.length := by
      rw [hc.list, List.length_map]
      omega
    have hF4 : F * PAGE_SIZE ≠ 0 := by simp [PAGE_SIZE, hF0]
    have hand : ¬ (m.pte m.dir d t &&& PAGE_PRESENT = 0 ∨ m.pte m.dir d t &&& PAGE_USER = 0) := by
      rw [PAGE_PRESENT, and_one_eq]
      omega
    simp only [copyPage, hout, Bool.false_eq_true, if_false, hload, Option.bind_eq_bind,
      Option.bind_some, if_neg hand, if_neg hlen, halloc, if_neg hF4, hs₁.pagingTmpMap hFlt,
      virt_eq ht]
    rw [← hcall, ← hm₂, tmp_virt_eq, show PAGE_SIZE = 4096 from rfl]
    simp only [Nat.add_zero] at hcopy
    rw [hcopy, Option.bind_some, and_offset_mask]
    simp
  · exact hc.extend h hs hleaf hLused hLS hnew hroom hF hF0 hFS
      (c := .map _ _ _) (fun h ↦ Call.noConfusion h) hm₂

/-- One turn of the inner loop. -/
theorem CopyState.step (hst : CopyState m S pages s) (hd : d < 768) (ht : t < 1024)
    (hp : m.pde m.dir d % 2 = 1) (hnew : (d, t) ∉ pages) :
    ∃ s', copyPage d s t = some s' ∧
      CopyState m S (if m.copied m.dir d t then pages ++ [(d, t)] else pages) s' := by
  obtain ⟨hout, φ, hc⟩ | ⟨hout, φ, done, s₀, hlen, hc, hlist, hstop⟩ := hst
  · have hdir := hc.dir
    have hload := (hc.scratch h hs).window.load_pt (d := d) (t := t) (by omega) ht
      (by rw [hdir, hc.pde h hs]; exact hp)
    rw [hdir, hc.pte h hs hd hp] at hload
    by_cases hcopied : m.copied m.dir d t = true
    · rw [if_pos hcopied]
      obtain ⟨-, hpte, huser⟩ := copied_iff.mp hcopied
      have hand : ¬ (m.pte m.dir d t &&& PAGE_PRESENT = 0 ∨ m.pte m.dir d t &&& PAGE_USER = 0) := by
        rw [PAGE_PRESENT, and_one_eq]
        omega
      have hlength : s.copyList.length = pages.length := by rw [hc.list, List.length_map]
      by_cases hroom : pages.length < MAX_COPY_PAGES
      · have hlast : s.machine.lastAlloc ≤ s.machine.totalFrames := by
          rw [hc.allocs.totalFrames]
          exact hc.allocs.lastAlloc h.lastAlloc
        obtain ⟨F, hF, halloc⟩ | ⟨hnone, halloc⟩ := pmmAllocFrame_cases hlast
        · obtain ⟨s', hstep, hout', hc'⟩ := hc.snoc h hs hd ht hcopied hnew hroom hF hout halloc
          exact ⟨s', hstep, Or.inl ⟨hout', _, hc'⟩⟩
        · refine ⟨{ s with machine := s.machine.log (.alloc 0), outOfSlots := true }, ?_,
            Or.inr ⟨rfl, φ, pages, s, by simp, hc, rfl, Or.inr ⟨hnone, rfl⟩⟩⟩
          simp [copyPage, hout, hload, hand, hlength, hroom, halloc]
      · refine ⟨{ s with outOfSlots := true }, ?_,
          Or.inr ⟨rfl, φ, pages, s, by simp, hc, rfl, Or.inl ⟨by omega, rfl⟩⟩⟩
        have hfull : MAX_COPY_PAGES ≤ s.copyList.length := by omega
        simp [copyPage, hout, hload, hand, hfull]
    · rw [if_neg hcopied]
      refine ⟨s, ?_, Or.inl ⟨hout, φ, hc⟩⟩
      have hand : m.pte m.dir d t &&& PAGE_PRESENT = 0 ∨ m.pte m.dir d t &&& PAGE_USER = 0 := by
        rw [PAGE_PRESENT, and_one_eq]
        rw [copied_iff] at hcopied
        by_contra hno
        exact hcopied ⟨hp, by omega, fun hu ↦ hno (Or.inr hu)⟩
      simp [copyPage, hout, hload, hand]
  · refine ⟨s, by simp [copyPage, hout], Or.inr ⟨hout, φ, done, s₀, ?_, hc, hlist, hstop⟩⟩
    split
    · rw [List.length_append]
      omega
    · exact hlen

/-- The inner loop. -/
theorem CopyState.inner (hst : CopyState m S pages s) (hd : d < 768)
    (hp : m.pde m.dir d % 2 = 1) {l : List ℕ} (hl : ∀ t ∈ l, t < 1024 ∧ (d, t) ∉ pages)
    (hnodup : l.Nodup) : ∃ s', l.foldlM (copyPage d) s = some s' ∧
      CopyState m S (pages ++ (l.filter fun t ↦ m.copied m.dir d t).map fun t ↦ (d, t)) s' := by
  induction l generalizing pages s with
  | nil => exact ⟨s, rfl, by simpa using hst⟩
  | cons t l ih =>
      obtain ⟨hnot, hnodup⟩ := List.nodup_cons.mp hnodup
      obtain ⟨ht, hnew⟩ := hl t (by simp)
      obtain ⟨s₁, hstep, hst₁⟩ := hst.step h hs hd ht hp hnew
      obtain ⟨s₂, hrun, hst₂⟩ := ih hst₁ (fun t' ht' ↦ by
        obtain ⟨hlt, hnew'⟩ := hl t' (by simp [ht'])
        refine ⟨hlt, ?_⟩
        split
        · have : t' ≠ t := fun h ↦ hnot (h ▸ ht')
          simp [hnew', this]
        · exact hnew') hnodup
      refine ⟨s₂, by simp [List.foldlM_cons, hstep, hrun], ?_⟩
      by_cases hcopied : m.copied m.dir d t = true <;> simpa [hcopied] using hst₂

/-- The outer loop. -/
theorem CopyState.outer (hst : CopyState m S pages s) {l : List ℕ}
    (hl : ∀ d ∈ l, d < 768 ∧ ∀ t, (d, t) ∉ pages) (hnodup : l.Nodup) :
    ∃ s', l.foldlM copyTable s = some s' ∧ CopyState m S (pages ++ l.flatMap fun d ↦
      ((List.range 1024).filter fun t ↦ m.copied m.dir d t).map fun t ↦ (d, t)) s' := by
  induction l generalizing pages s with
  | nil => exact ⟨s, rfl, by simpa using hst⟩
  | cons d l ih =>
      obtain ⟨hnot, hnodup⟩ := List.nodup_cons.mp hnodup
      obtain ⟨hd, hnew⟩ := hl d (by simp)
      set new := ((List.range 1024).filter fun t ↦ m.copied m.dir d t).map fun t ↦ (d, t) with hdef
      obtain ⟨s₁, hstep, hst₁⟩ : ∃ s', copyTable s d = some s' ∧ CopyState m S (pages ++ new) s' := by
        obtain hout | hout := Bool.eq_false_or_eq_true s.outOfSlots
        · refine ⟨s, by simp [copyTable, hout], ?_⟩
          obtain ⟨hout', -⟩ | ⟨-, φ, done, s₀, hlen, hrest⟩ := hst
          · rw [hout] at hout'
            cases hout'
          · exact Or.inr ⟨hout, φ, done, s₀, by rw [List.length_append]; omega, hrest⟩
        · obtain ⟨-, φ, hc⟩ | ⟨hout', -⟩ := hst
          · have hload := (hc.scratch h hs).window.load_pd (d := d) (by omega)
            rw [hc.dir, hc.pde h hs] at hload
            by_cases hp : m.pde m.dir d % 2 = 0
            · have hnone : new = [] := by
                rw [hdef, List.map_eq_nil_iff, List.filter_eq_nil_iff]
                intro t _
                simp [Machine.copied, hp]
              refine ⟨s, ?_, by rw [hnone, List.append_nil]; exact Or.inl ⟨hout, φ, hc⟩⟩
              simp [copyTable, hout, hload, PAGE_PRESENT, hp]
            · have hodd : m.pde m.dir d % 2 = 1 := by omega
              obtain ⟨s', hrun, hst'⟩ := CopyState.inner h hs (Or.inl ⟨hout, φ, hc⟩) hd hodd
                (l := List.range 1024) (fun t ht ↦ ⟨List.mem_range.mp ht, hnew t⟩) List.nodup_range
              refine ⟨s', ?_, hst'⟩
              simp [copyTable, hout, hload, PAGE_PRESENT, hodd, hrun]
          · rw [hout] at hout'
            cases hout'
      obtain ⟨s₂, hrun, hst₂⟩ := ih hst₁ (fun d' hd' ↦ by
        obtain ⟨hlt, hnew'⟩ := hl d' (by simp [hd'])
        refine ⟨hlt, fun t ↦ ?_⟩
        have hne : d ≠ d' := fun h ↦ hnot (h ▸ hd')
        simp [hdef, hnew' t, hne]) hnodup
      refine ⟨s₂, by simp [List.foldlM_cons, hstep, hrun], ?_⟩
      simpa [hdef] using hst₂

/-- Phase 1. -/
theorem copyPages_spec : ∃ s, copyPages m = some s ∧ CopyState m S (m.copiedPages m.dir) s := by
  have hstart : CopyState m S [] ⟨m, [], false⟩ := by
    refine Or.inl ⟨rfl, fun _ ↦ 0, ?_⟩
    exact ⟨rfl, by simp, by simp, by simpa using Allocs.refl m, rfl, fun _ _ _ ↦ rfl,
      fun _ _ ↦ rfl, by simp⟩
  obtain ⟨s, hrun, hst⟩ := hstart.outer h hs (l := List.range KERNEL_DIR_START)
    (fun d hd ↦ ⟨List.mem_range.mp hd, by simp⟩) List.nodup_range
  rw [List.nil_append] at hst
  refine ⟨s, ?_, hst⟩
  rw [copyPages, hrun]

end Phase1

/-- The loop gets to its end if and only if there is room for every page. -/
theorem CopyState.outcome (hst : CopyState m S pages s) :
    s.outOfSlots = false ↔ pages.length ≤ MAX_COPY_PAGES ∧ pages.length ≤ m.free.card := by
  have hcard : ∀ {φ : ℕ × ℕ → ℕ} {l : List (ℕ × ℕ)} {s : CopyLoop}, Copies m S φ l s →
      s.machine.free.card + l.length = m.free.card := by
    intro φ l s hc
    have := hc.allocs.card
    rwa [List.toFinset_card_of_nodup hc.nodup, List.length_map] at this
  obtain ⟨hout, φ, hc⟩ | ⟨hout, φ, done, s₀, hlen, hc, -, ⟨hfull, -⟩ | ⟨hnone, -⟩⟩ := hst
  · have := hcard hc
    exact ⟨fun _ ↦ ⟨hc.bound, by omega⟩, fun _ ↦ hout⟩
  · rw [hout]
    exact ⟨nofun, fun hle ↦ by omega⟩
  · have := hcard hc
    rw [hnone, Finset.card_empty] at this
    rw [hout]
    exact ⟨nofun, fun hle ↦ by omega⟩

end Kernel

end EclipseOS
