import EclipseOS.Forking
import EclipseOS.HeapPages
import EclipseOS.Mapping

/-!
# The space of a child

Phase 2 enters the copies of phase 1 in a new directory.  What was in use keeps
its bytes, and the child gets the pages of the parent, each in a frame of its
own with the same bytes and flags.
-/

namespace EclipseOS

open LittleEndian

namespace Machine

open Kernel

variable {m m' m₀ : Machine} {B a d t f F P S : ℕ} {L K : Set ℕ}
variable {φ fl : ℕ × ℕ → ℕ} {done : List (ℕ × ℕ)}

/-! ## Phase 2 -/

/-- The pages `done` of the loaded directory `a` are the frames that `φ` names,
with the flags `fl`.  What was in use at `m₀` is as it was, but for `a` itself. -/
structure Installed (m₀ : Machine) (a : ℕ) (φ fl : ℕ × ℕ → ℕ) (done : List (ℕ × ℕ)) (m : Machine) :
    Prop where
  cr3 : m.cr3 = a * 4096
  range : ∀ d t, (d, t) ∈ done → 1 ≤ d ∧ d < 768 ∧ t < 1024
  test : ∀ f, m₀.frameTest f = true → m.frameTest f = true
  mem : ∀ f, m₀.frameTest f = true → f ≠ a → m.mem f = m₀.mem f
  entry : ∀ i, i = 0 ∨ 768 ≤ i → m.pde a i = m₀.pde a i
  table : ∀ d, 1 ≤ d → d < 768 → m.pde a d % 2 = 1 →
    m₀.frameTest (m.pde a d / 4096) = false ∧ m.pde a d % 4 = 3
  page : ∀ d t, (d, t) ∈ done → m.pde a d % 2 = 1 ∧ m.pde a d &&& PAGE_USER ≠ 0 ∧
    m.pte a d t = φ (d, t) * 4096 + fl (d, t)
  rest : ∀ d t, 1 ≤ d → d < 768 → t < 1024 → (d, t) ∉ done → m.leaf a d t = none

namespace Installed

theorem dir (hi : Installed m₀ a φ fl done m) : m.dir = a := by
  rw [Machine.dir, hi.cr3, Nat.mul_div_cancel _ (by norm_num)]

theorem log (hi : Installed m₀ a φ fl done m) (c : Call) : Installed m₀ a φ fl done (m.log c) :=
  ⟨hi.cr3, hi.range, hi.test, hi.mem, hi.entry, hi.table, hi.page, hi.rest⟩

/-- A frame that is free now was not in use at the start. -/
theorem free (hi : Installed m₀ a φ fl done m) (hF : F ∈ m.free) : m₀.frameTest F = false := by
  rw [Bool.eq_false_iff]
  intro hused
  have htest := ((mem_free m).mp hF).2
  rw [hi.test F hused] at htest
  exact Bool.noConfusion htest

/-- A table is added. -/
theorem withTable (hi : Installed m₀ a φ fl done m) (h : m.Ledger B L K) (h₁ : 1 ≤ d) (h₂ : d < 768)
    (hp : m.pde a d % 2 = 0) (hF : F ∈ m.free) :
    Installed m₀ a φ fl done ((m.withAlloc F).withTable d F) := by
  have hdir := hi.dir
  have hdir' : ((m.withAlloc F).withTable d F).dir = a := hdir
  obtain ⟨hled, hloose⟩ := h.alloc hF
  obtain ⟨hpde, hpte⟩ := hled.withTable_words (d := d) hloose (Ledger.free_lt hF)
  obtain ⟨hled', hholds⟩ := h.provideTable h₁ h₂ (by rwa [hdir]) hF
  have hFa : F ≠ a := hdir ▸ Ledger.free_ne hF (h.dir_used h.loaded).1
  rw [withAlloc_dir, hdir] at hpde hpte
  simp only [withAlloc_pde] at hpde hpte
  refine ⟨hi.cr3, hi.range, fun f hf ↦ ?_, fun f hf hfa ↦ ?_, fun i hcase ↦ ?_,
    fun i hi₁ hi₂ hodd ↦ ?_, fun i s hin ↦ ?_, fun i s hi₁ hi₂ hs hnot ↦ ?_⟩
  · rw [Machine.withTable, setFrame_frameTest, setWord_frameTest, withAlloc_frameTest, hi.test f hf,
      Bool.or_true]
  · have hfF : f ≠ F := by
      rintro rfl
      rw [hi.free hF] at hf
      exact Bool.noConfusion hf
    rw [Machine.withTable, setFrame_mem_of_ne _ hfF, withAlloc_dir, hdir, setWord_mem_of_ne _ _ hfa,
      withAlloc_mem, hi.mem f hf hfa]
  · rw [hpde, if_neg (by omega), hi.entry i hcase]
  · rw [hpde] at hodd ⊢
    split at hodd
    · next heq =>
        rw [if_pos heq, show (F * 4096 + 3) / 4096 = F by omega]
        exact ⟨hi.free hF, by omega⟩
    · next hne =>
        rw [if_neg hne]
        exact hi.table i hi₁ hi₂ hodd
  · obtain ⟨hi₁, hi₂, -⟩ := hi.range i s hin
    obtain ⟨hodd, huser, hword⟩ := hi.page i s hin
    have hne : i ≠ d := by
      rintro rfl
      omega
    refine ⟨by rwa [hpde, if_neg hne], by rwa [hpde, if_neg hne], ?_⟩
    rw [hpte i s hi₁ hi₂ hodd hne, ← hword, pte, pte, withAlloc_pde, withAlloc_mem]
  · refine Option.eq_none_iff_forall_ne_some.mpr fun f hf ↦ ?_
    have hheld := (hled'.leaf_iff hi₁ hi₂ hs).mp (by rwa [hdir'])
    rw [hdir', hholds] at hheld
    obtain hheld | ⟨heq, -⟩ := hheld
    · rw [← hdir, ← h.leaf_iff hi₁ hi₂ hs, hdir, hi.rest i s hi₁ hi₂ hs hnot] at hheld
      exact Option.some_ne_none f hheld.symm
    · exact Owner.noConfusion heq

/-- A page is entered where there is a table. -/
theorem withPage (hi : Installed m₀ a φ fl done m) (h : m.Ledger B L K) (h₁ : 1 ≤ d) (h₂ : d < 768)
    (ht : t < 1024) (hp : m.pde a d % 2 = 1) (hnew : (d, t) ∉ done) (hP : m.Loose L K (φ (d, t)))
    (hlt : φ (d, t) < 2 ^ 20) (hfl : fl (d, t) < 4096) (hodd : fl (d, t) % 2 = 1)
    (huser : fl (d, t) &&& PAGE_USER ≠ 0) :
    Installed m₀ a φ fl (done ++ [(d, t)]) (m.withPage d t (φ (d, t)) (fl (d, t))) := by
  have hdir := hi.dir
  have hdir' : (m.withPage d t (φ (d, t)) (fl (d, t))).dir = a := hdir
  have hflags : fl (d, t) ||| 1 = fl (d, t) := by
    have := Nat.two_pow_add_eq_or_of_lt (i := 1) (b := 1) (by norm_num) (fl (d, t) / 2)
    have hsplit : 2 ^ 1 * (fl (d, t) / 2) + 1 = fl (d, t) := by omega
    rw [hsplit] at this
    rw [this, Nat.or_assoc, Nat.or_self]
  have huser4 : fl (d, t) &&& PAGE_USER = 4 := (and_user_cases _).resolve_left huser
  obtain ⟨hled, hholds⟩ := h.withPage h₁ h₂ ht (by rwa [hdir]) hP hlt hfl
  have hv := m.pde_lt m.dir d
  obtain ⟨hpde, hpte⟩ := h.setEntry_words (t := t) (v := m.pde m.dir d ||| (fl (d, t) &&& PAGE_USER))
    (w := φ (d, t) * 4096 + (fl (d, t) ||| 1)) h₁ h₂ (by rwa [hdir])
    (by rw [huser4]; exact Nat.or_lt_two_pow hv (by norm_num))
    (by rw [huser4]; exact or_low_div (by norm_num)) (by rw [hflags]; omega)
  rw [← Machine.withPage] at hpde hpte
  rw [hdir, huser4] at hpde
  rw [hdir, hflags] at hpte
  have hodd' : (m.pde a d ||| 4) % 2 = 1 := by rw [or_even_mod (by norm_num), hp]
  have huser' : (m.pde a d ||| 4) &&& PAGE_USER ≠ 0 := by
    rw [PAGE_USER, Nat.and_or_distrib_right]
    intro hzero
    have := (Nat.or_eq_zero_iff.mp hzero).2
    exact absurd this (by decide)
  have hlow : (m.pde a d ||| 4) % 4 = m.pde a d % 4 := by
    have := Nat.or_mod_two_pow (a := m.pde a d) (b := 4) (n := 2)
    simpa using this
  obtain ⟨htable, hthree⟩ := hi.table d h₁ h₂ hp
  refine ⟨hi.cr3, fun i s hin ↦ ?_, hi.test, fun f hf hfa ↦ ?_, fun i hcase ↦ ?_,
    fun i hi₁ hi₂ hpi ↦ ?_, fun i s hin ↦ ?_, fun i s hi₁ hi₂ hs hnot ↦ ?_⟩
  · rw [List.mem_append, List.mem_singleton] at hin
    obtain hin | heq := hin
    · exact hi.range i s hin
    · obtain ⟨rfl, rfl⟩ := Prod.mk.inj heq
      exact ⟨h₁, h₂, ht⟩
  · have hfT : f ≠ m.pde a d / 4096 := by
      rintro rfl
      rw [htable] at hf
      exact Bool.noConfusion hf
    rw [Machine.withPage, hdir, setWord_mem_of_ne _ _ hfT, setWord_mem_of_ne _ _ hfa, hi.mem f hf hfa]
  · rw [hpde, if_neg (by omega), hi.entry i hcase]
  · rw [hpde] at hpi ⊢
    split at hpi
    · next heq =>
        rw [if_pos heq, or_low_div (by norm_num), hlow]
        exact ⟨htable, hthree⟩
    · next hne =>
        rw [if_neg hne]
        exact hi.table i hi₁ hi₂ hpi
  · rw [List.mem_append, List.mem_singleton] at hin
    obtain hin | heq := hin
    · obtain ⟨hi₁, hi₂, -⟩ := hi.range i s hin
      obtain ⟨hpi, hui, hword⟩ := hi.page i s hin
      have hne : ¬ (i = d ∧ s = t) := by
        rintro ⟨rfl, rfl⟩
        exact hnew hin
      rw [hpte i s hi₁ hi₂ hpi, if_neg hne, hpde]
      split
      · exact ⟨hodd', huser', hword⟩
      · exact ⟨hpi, hui, hword⟩
    · obtain ⟨rfl, rfl⟩ := Prod.mk.inj heq
      rw [hpte i s h₁ h₂ hp, if_pos ⟨rfl, rfl⟩, hpde, if_pos rfl]
      exact ⟨hodd', huser', rfl⟩
  · rw [List.mem_append, List.mem_singleton, not_or] at hnot
    refine Option.eq_none_iff_forall_ne_some.mpr fun f hf ↦ ?_
    have hheld := (hled.leaf_iff hi₁ hi₂ hs).mp (by rwa [hdir'])
    rw [hdir', hholds, hdir] at hheld
    obtain ⟨-, hheld⟩ | ⟨heq, -⟩ := hheld
    · rw [← hdir, ← h.leaf_iff hi₁ hi₂ hs, hdir, hi.rest i s hi₁ hi₂ hs hnot.1] at hheld
      exact Option.some_ne_none f hheld.symm
    · obtain ⟨-, rfl, rfl⟩ := Owner.leaf.inj heq
      exact hnot.2 rfl

/-- One turn of the loop. -/
theorem step (hi : Installed m₀ a φ fl done m) (h : m.Ledger B L K) (h₁ : 1 ≤ d) (h₂ : d < 768)
    (ht : t < 1024) (hnew : (d, t) ∉ done) (hP : m.Loose L K (φ (d, t))) (hlt : φ (d, t) < 2 ^ 20)
    (hfl : fl (d, t) < 4096) (hodd : fl (d, t) % 2 = 1) (huser : fl (d, t) &&& PAGE_USER ≠ 0)
    (hrun : m.pagingMap (pageAddr d t) (φ (d, t) * PAGE_SIZE) (fl (d, t)) = some m')
    (hcalls : Call.alloc 0 ∉ m'.calls) :
    Installed m₀ a φ fl (done ++ [(d, t)]) m' ∧ m'.Ledger B L K ∧
      ∀ P, m.Loose L K P → P ≠ φ (d, t) → m'.Loose L K P := by
  have hva : pageAddr d t >>> 22 = d ∧ (pageAddr d t >>> 12) &&& 0x3FF = t := by
    have hsplit := pageAddr_split (o := 0) (show d < 1024 by omega) ht (by norm_num)
    rw [Nat.add_zero] at hsplit
    exact ⟨hsplit.1, hsplit.2.2.1⟩
  have hdir := hi.dir
  obtain ⟨hp, rfl⟩ | ⟨hp, F, hF, rfl⟩ := h.pagingMap_cases h₂ ht hva hlt hfl hrun hcalls
  all_goals
    set c := Call.map (pageAddr d t) (φ (d, t) * PAGE_SIZE) (fl (d, t)) with hc
    rw [hdir] at hp
  · obtain ⟨hled, hholds⟩ := (h.log c).withPage h₁ h₂ ht (by rwa [log_dir, hdir]) hP hlt hfl
    refine ⟨(hi.log c).withPage (h.log c) h₁ h₂ ht hp hnew hP hlt hfl hodd huser, hled,
      fun P hloose hne ↦ Ledger.Loose.congr hloose ?_ fun o ho ↦ ?_⟩
    · rw [Machine.withPage, setWord_frameTest, setWord_frameTest, log_frameTest, hloose.1]
    · obtain ⟨-, ho⟩ | ⟨-, heq⟩ := (hholds o P).mp ho
      · exact ho
      · exact absurd heq hne
  · obtain ⟨hled, hholds⟩ := (h.log c).provideTable h₁ h₂ (by rwa [log_dir, hdir]) hF
    have hkeep : ∀ P, m.Loose L K P → (((m.log c).withAlloc F).withTable d F).Loose L K P := by
      intro P hloose
      have hPF : P ≠ F := (Ledger.free_ne hF hloose.1).symm
      refine Ledger.Loose.congr hloose ?_ fun o ho ↦ ?_
      · rw [Machine.withTable, setFrame_frameTest, setWord_frameTest, withAlloc_frameTest,
          log_frameTest, hloose.1, Bool.or_true]
      · exact ((hholds o P).mp ho).resolve_right fun heq ↦ hPF heq.2
    have hi' := (hi.log c).withTable (h.log c) h₁ h₂ hp hF
    have hdir' := hi'.dir
    have hpde : (((m.log c).withAlloc F).withTable d F).pde a d = F * 4096 + 3 := by
      rw [← hdir']
      exact withTable_pde _ (Ledger.free_ne hF (h.dir_used h.loaded).1) (Ledger.free_lt hF)
    have hp' : (((m.log c).withAlloc F).withTable d F).pde a d % 2 = 1 := by
      rw [hpde]
      omega
    obtain ⟨hled', hholds'⟩ := hled.withPage h₁ h₂ ht (by rwa [hdir']) (hkeep _ hP) hlt hfl
    refine ⟨hi'.withPage hled h₁ h₂ ht hp' hnew (hkeep _ hP) hlt hfl hodd huser, hled',
      fun P hloose hne ↦ Ledger.Loose.congr (hkeep P hloose) ?_ fun o ho ↦ ?_⟩
    · rw [Machine.withPage, setWord_frameTest, setWord_frameTest, (hkeep P hloose).1]
    · obtain ⟨-, ho⟩ | ⟨-, heq⟩ := (hholds' o P).mp ho
      · exact ho
      · exact absurd heq hne

end Installed

/-- The pages `l` are still to be entered: their frames belong to no one. -/
structure Pending (L K : Set ℕ) (φ fl : ℕ × ℕ → ℕ) (done l : List (ℕ × ℕ)) (m : Machine) : Prop where
  range : ∀ d t, (d, t) ∈ l → 1 ≤ d ∧ d < 768 ∧ t < 1024 ∧ (d, t) ∉ done
  frame : ∀ p ∈ l, m.Loose L K (φ p) ∧ φ p < 2 ^ 20
  flags : ∀ p ∈ l, fl p < 4096 ∧ fl p % 2 = 1 ∧ fl p &&& PAGE_USER ≠ 0
  nodup : (l.map φ).Nodup

/-- One page is done, and no other frame has found an owner. -/
theorem Pending.tail {l : List (ℕ × ℕ)} (hpend : Pending L K φ fl done ((d, t) :: l) m)
    (hkeep : ∀ P, m.Loose L K P → P ≠ φ (d, t) → m'.Loose L K P) :
    Pending L K φ fl (done ++ [(d, t)]) l m' := by
  obtain ⟨hnot, hnodup⟩ := List.nodup_cons.mp hpend.nodup
  have hne : ∀ p ∈ l, φ p ≠ φ (d, t) := fun p hp heq ↦ hnot (heq ▸ List.mem_map_of_mem hp)
  refine ⟨fun i s hin ↦ ?_, fun p hp ↦ ?_, fun p hp ↦ hpend.flags p (List.mem_cons_of_mem _ hp), hnodup⟩
  · obtain ⟨hi₁, hi₂, hs, hnot'⟩ := hpend.range i s (List.mem_cons_of_mem _ hin)
    refine ⟨hi₁, hi₂, hs, ?_⟩
    rw [List.mem_append, List.mem_singleton, not_or]
    exact ⟨hnot', fun heq ↦ hne _ hin (congrArg φ heq)⟩
  · obtain ⟨hloose, hlt⟩ := hpend.frame p (List.mem_cons_of_mem _ hp)
    exact ⟨hkeep _ hloose (hne p hp), hlt⟩

namespace Installed

/-- The loop over the list of copies. -/
theorem run {l : List (ℕ × ℕ)} (hi : Installed m₀ a φ fl done m) (h : m.Ledger B L K)
    (hpend : Pending L K φ fl done l m)
    (hrun : (l.map fun p ↦ (⟨pageAddr p.1 p.2, φ p * PAGE_SIZE, fl p⟩ : CopyEntry)).foldlM
      installPage m = some m') (hcalls : Call.alloc 0 ∉ m'.calls) :
    Installed m₀ a φ fl (done ++ l) m' ∧ m'.Ledger B L K := by
  induction l generalizing m done with
  | nil =>
      rw [List.map_nil, List.foldlM_nil, Option.pure_def, Option.some.injEq] at hrun
      subst hrun
      rw [List.append_nil]
      exact ⟨hi, h⟩
  | cons p l ih =>
      obtain ⟨d, t⟩ := p
      rw [List.map_cons, List.foldlM_cons, Option.bind_eq_bind, Option.bind_eq_some_iff] at hrun
      obtain ⟨m₁, hmap, hrun⟩ := hrun
      have hcalls₁ : Call.alloc 0 ∉ m₁.calls := by
        have hbefore : m₁.Before m' :=
          Before.foldlM (π := id) (fun _ _ _ hstep ↦ pagingMap_before hstep) hrun
        exact fun hmem ↦ hcalls (hbefore.mem hmem)
      obtain ⟨h₁, h₂, ht, hnew⟩ := hpend.range d t (List.mem_cons_self ..)
      obtain ⟨hloose, hlt⟩ := hpend.frame (d, t) (List.mem_cons_self ..)
      obtain ⟨hfl, hodd, huser⟩ := hpend.flags (d, t) (List.mem_cons_self ..)
      obtain ⟨hi₁, hled₁, hkeep⟩ := hi.step h h₁ h₂ ht hnew hloose hlt hfl hodd huser hmap hcalls₁
      have hlast := ih hi₁ hled₁ (hpend.tail hkeep) hrun
      rwa [List.append_assoc] at hlast

end Installed

/-! ## Before phase 2 -/

theorem pagingNewDirectory_takes {dir : ℕ} (h : m.pagingNewDirectory = some (dir, m')) :
    Takes 2 m m' := by
  simp only [pagingNewDirectory, Option.bind_eq_bind, Option.bind_eq_some_iff, Option.pure_def,
    Option.some.injEq, Prod.mk.injEq] at h
  obtain ⟨m₁, h₁, m₂, h₂, m₃, h₃, m₄, h₄, m₅, h₅, rfl, rfl⟩ := h
  have hshare : ∀ {m m' : Machine} {i : ℕ}, m.shareEntry i = some m' → Takes 0 m m' := by
    intro m m' i hi
    simp only [shareEntry, Option.bind_eq_bind, Option.bind_eq_some_iff] at hi
    obtain ⟨pde, -, hi⟩ := hi
    exact .of_stores (store32_stores hi)
  have hloop : Takes 0 m₃ m₄ :=
    Loop.foldlM_rel (r := Takes 0) (π := id) (fun m ↦ .of_stores (Stores.refl m)) Takes.trans
      (fun _ _ _ ↦ hshare) h₄
  exact (((((pmmAllocFrame_takes m).trans (pagingMap_takes h₁)).trans
    (.of_stores (memset_stores h₂))).trans (hshare h₃)).trans hloop).trans
    (.of_stores (store32_stores h₅))

theorem memcpy_stores {dst src n : ℕ} (h : m.memcpy dst src n = some m') : m.Stores m' := by
  induction n generalizing m dst src with
  | zero =>
      cases h
      exact Stores.refl _
  | succ n ih =>
      simp only [memcpy, Option.bind_eq_bind, Option.bind_eq_some_iff] at h
      obtain ⟨b, -, m₁, hstore, hrest⟩ := h
      exact (store8_stores hstore).trans (ih hrest)

theorem copyPage_before {s s' : CopyLoop} (hrun : copyPage d s t = some s') :
    s.machine.Before s'.machine := by
  rw [copyPage] at hrun
  split at hrun
  · cases hrun
    exact .refl _
  · obtain ⟨pte, -, hrun⟩ := Option.bind_eq_some_iff.mp hrun
    split at hrun
    · cases hrun
      exact .refl _
    · split at hrun
      · cases hrun
        exact .refl _
      · have halloc : s.machine.Before s.machine.pmmAllocFrame.2 := pmmAllocFrame_before s.machine
        dsimp only at hrun
        split at hrun
        · cases hrun
          exact halloc
        · obtain ⟨m₁, hmap, hrun⟩ := Option.bind_eq_some_iff.mp hrun
          obtain ⟨m₂, hcopy, hrun⟩ := Option.bind_eq_some_iff.mp hrun
          cases hrun
          exact (halloc.trans (pagingMap_before hmap)).trans (memcpy_stores hcopy).before

theorem copyPages_before {s : CopyLoop} (hrun : copyPages m = some s) : m.Before s.machine := by
  refine Before.foldlM (π := CopyLoop.machine) (fun s d s' hstep ↦ ?_) hrun
  rw [copyTable] at hstep
  split at hstep
  · cases hstep
    exact .refl _
  · obtain ⟨pde, -, hstep⟩ := Option.bind_eq_some_iff.mp hstep
    split at hstep
    · cases hstep
      exact .refl _
    · exact Before.foldlM (π := CopyLoop.machine) (fun _ _ _ ↦ copyPage_before) hstep

theorem installPages_before {dir : ℕ} {l : List CopyEntry} (hrun : installPages m dir l = some m') :
    m.Before m' := by
  obtain ⟨m₁, hloop, hrun⟩ := Option.bind_eq_some_iff.mp hrun
  cases hrun
  have hbefore : (m.pagingSwitchDirectory dir).Before m₁ :=
    Before.foldlM (π := id) (fun _ _ _ hstep ↦ pagingMap_before hstep) hloop
  exact hbefore

/-- A live directory with its user pages in entries 1 to 767. -/
theorem Ledger.space (h : m.Ledger B L K) (hzero : m.frameTest 0 = true) (hdir : m.dir ≠ 0)
    (hlow : ∀ t < 1024, m.copied m.dir 0 t = false)
    (huser : ∀ d t, 1 ≤ d → d < 768 → t < 1024 → m.copied m.dir d t = true →
      m.pde m.dir d &&& PAGE_USER ≠ 0) : m.Space := by
  have hkernel : ∀ i, KernelEntry i → m.pde m.dir i % 2 = 1 → m.pde m.dir i / 4096 ∈ K := by
    intro i hi hp
    rw [h.shared _ h.loaded i hi] at hp ⊢
    exact h.tables i hi hp
  have hslot : KernelEntry 1022 := Or.inr (by norm_num)
  refine ⟨h.recursive, h.lastAlloc, hzero, (h.dir_used h.loaded).1, hdir, fun d hd hp ↦ ?_,
    fun d hd hp hp' ↦ ?_, fun d t F h₁ h₂ ht hleaf ↦ ?_, hlow, huser⟩
  · by_cases hcase : KernelEntry d
    · have hK := hkernel d hcase hp
      exact ⟨h.kernel _ hK, fun heq ↦ (h.dir_used h.loaded).2 (heq ▸ hK)⟩
    · rw [KernelEntry] at hcase
      have hheld : m.Holds L (.table m.dir d) _ := ⟨h.loaded, by omega, by omega, hp, rfl⟩
      exact ⟨(h.used _ _ hheld).1, h.table_ne h.loaded h.loaded (by omega) (by omega) hp⟩
  · by_cases hcase : KernelEntry d
    · rw [h.shared _ h.loaded d hcase] at hp ⊢
      rw [h.shared _ h.loaded 1022 hslot] at hp' ⊢
      exact h.slots d hcase (by omega) hp hp'
    · rw [KernelEntry] at hcase
      have hheld : m.Holds L (.table m.dir d) _ := ⟨h.loaded, by omega, by omega, hp, rfl⟩
      exact fun heq ↦ (h.used _ _ hheld).2 (heq ▸ hkernel 1022 hslot hp')
  · have hheld := (h.leaf_iff h₁ h₂ ht).mp hleaf
    exact ⟨(h.used _ _ hheld).1, fun heq ↦ (h.leaf_plain hheld).1 (heq ▸ h.loaded),
      fun hp heq ↦ (h.used _ _ hheld).2 (heq ▸ hkernel 1022 hslot hp)⟩

/-- The copies are loose frames. -/
theorem Ledger.copies (h : m.Ledger B L K) (hS : S ∈ K) {pages : List (ℕ × ℕ)} {s : CopyLoop}
    (hc : Copies m S φ pages s) : s.machine.Ledger B L K ∧
      ∀ p ∈ pages, s.machine.Loose L K (φ p) ∧ φ p < 2 ^ 20 := by
  have hdir := hc.dir
  have hne : ∀ f, f ∉ K → f ≠ S := fun f hf heq ↦ hf (heq ▸ hS)
  have hmemDir : ∀ D ∈ L, s.machine.mem D = m.mem D := fun D hD ↦
    hc.mem_used (h.dir_used hD).1 (hne D (h.dir_used hD).2)
  have hpde : ∀ D ∈ L, ∀ d, s.machine.pde D d = m.pde D d := fun D hD d ↦ by
    rw [pde, hmemDir D hD, pde]
  have htable : ∀ D ∈ L, ∀ d, 1 ≤ d → d < 768 → m.pde D d % 2 = 1 →
      s.machine.mem (m.pde D d / 4096) = m.mem (m.pde D d / 4096) := by
    intro D hD d h₁ h₂ hp
    obtain ⟨hused, hK⟩ := h.used (.table D d) _ ⟨hD, h₁, h₂, hp, rfl⟩
    exact hc.mem_used hused (hne _ hK)
  have hlast : s.machine.lastAlloc ≤ s.machine.totalFrames := by
    rw [hc.allocs.totalFrames]
    exact hc.allocs.lastAlloc h.lastAlloc
  refine ⟨h.congr hlast (by rw [hc.cr3, h.cr3, hdir]) (by rw [hdir]; exact h.loaded) hpde htable
    fun f hf ↦ by rw [hc.allocs.test, hf, Bool.or_true], fun p hp ↦ ?_⟩
  have hmem : φ p ∈ (pages.map φ).toFinset := by
    rw [List.mem_toFinset]
    exact List.mem_map_of_mem hp
  have hfree := hc.allocs.sub hmem
  obtain ⟨hK, hno⟩ := h.free_loose ((mem_free m).mp hfree).2
  refine ⟨⟨by simp [hc.allocs.test, hmem], hK, fun o ho ↦ hno o ?_⟩, free_lt hfree⟩
  exact (holds_congr (fun D hD d _ _ ↦ hpde D hD d) htable).mp ho

/-! ## Both phases -/

/-- The directory `a` has the user pages of the loaded directory, in frames that
were free, with the same bytes and flags. -/
structure Forked (m m' : Machine) (a S : ℕ) : Prop where
  cr3 : m'.cr3 = m.cr3
  mapped : ∀ d t, d < 768 → t < 1024 → (m'.UserMapped a d t ↔ m.UserMapped m.dir d t)
  leaf : ∀ d t F', 1 ≤ d → d < 768 → t < 1024 → m'.leaf a d t = some F' →
    m.UserMapped m.dir d t ∧ F' ∈ m.free
  flags : ∀ d t, d < 768 → t < 1024 → m.UserMapped m.dir d t →
    m'.pte a d t % 4096 = m.pte m.dir d t % 4096
  bytes : ∀ d t F F', 1 ≤ d → d < 768 → t < 1024 → m.leaf m.dir d t = some F →
    m'.leaf a d t = some F' → ∀ o < 4096, m'.mem F' o = m.mem F o
  mem : ∀ f, m.frameTest f = true → f ≠ a → f ≠ S → f ≠ m.dir → m'.mem f = m.mem f
  entry : ∀ i, i ≠ 1022 → m'.pde m.dir i = m.pde m.dir i
  kernel : ∀ i, KernelEntry i → m'.pde a i = m'.pde m.dir i
  table : ∀ d, 1 ≤ d → d < 768 → m'.pde a d % 2 = 1 → m'.pde a d % 4 = 3
  slot : m'.pde m.dir 1022 % 2 = 1 ∧ m'.pde m.dir 1022 / 4096 = S
  test : ∀ f, m.frameTest f = true → m'.frameTest f = true

theorem Space.mem_copiedPages (h : m.Space) : (d, t) ∈ m.copiedPages m.dir ↔
    1 ≤ d ∧ d < 768 ∧ t < 1024 ∧ m.copied m.dir d t = true := by
  rw [Machine.mem_copiedPages]
  exact ⟨fun hin ↦ ⟨h.copied_pos hin.2.1 hin.2.2, hin⟩, fun hin ↦ hin.2⟩

section Phases

variable {s : CopyLoop} (h : m.Ledger B L K) (hspace : m.Space) (hs : m.Scratch S) (hS : S ∈ K)
variable (ha : a ∈ L) (hc : Copies m S φ (m.copiedPages m.dir) s)
include h hspace hs hS ha hc

omit hs in
/-- Where phase 2 starts: the directory without user pages is loaded. -/
theorem Ledger.phase2 (hempty : ∀ d, 1 ≤ d → d < 768 → m.pde a d = 0) :
    (s.machine.pagingSwitchDirectory (a * PAGE_SIZE)).Ledger B L K ∧
      Installed s.machine a φ (fun p ↦ m.pte m.dir p.1 p.2 % 4096) []
        (s.machine.pagingSwitchDirectory (a * PAGE_SIZE)) ∧
      Pending L K φ (fun p ↦ m.pte m.dir p.1 p.2 % 4096) [] (m.copiedPages m.dir)
        (s.machine.pagingSwitchDirectory (a * PAGE_SIZE)) := by
  obtain ⟨hled, hloose⟩ := h.copies hS hc
  have hamem : s.machine.mem a = m.mem a :=
    hc.mem_used (h.dir_used ha).1 fun heq ↦ (h.dir_used ha).2 (heq ▸ hS)
  set m₀ := s.machine.pagingSwitchDirectory (a * PAGE_SIZE) with hm₀
  have hnone : ∀ d, 1 ≤ d → d < 768 → m₀.pde a d = 0 := by
    intro d h₁ h₂
    rw [pde, show m₀.mem a = m.mem a from hamem, ← hempty d h₁ h₂, pde]
  refine ⟨hled.switch ha, ⟨rfl, by simp, fun _ hf ↦ hf, fun _ _ _ ↦ rfl, fun _ _ ↦ rfl,
    fun d h₁ h₂ hp ↦ ?_, by simp, fun d t h₁ h₂ ht _ ↦ ?_⟩, fun d t hin ↦ ?_, hloose, fun p hp ↦ ?_,
    hc.nodup⟩
  · rw [hnone d h₁ h₂] at hp
    exact absurd hp (by norm_num)
  · rw [Machine.leaf, hnone d h₁ h₂]
    rfl
  · obtain ⟨h₁, h₂, ht, -⟩ := hspace.mem_copiedPages.mp hin
    exact ⟨h₁, h₂, ht, List.not_mem_nil⟩
  · obtain ⟨-, hpte, huser⟩ := copied_iff.mp (Machine.mem_copiedPages.mp hp).2.2
    refine ⟨Nat.mod_lt _ (by norm_num), by omega, ?_⟩
    rwa [← and_user_mod]

variable (hi : Installed s.machine a φ (fun p ↦ m.pte m.dir p.1 p.2 % 4096)
  (m.copiedPages m.dir) m')
include hi

omit h hspace hs hS ha hc in
/-- The pages of the new directory are the copies. -/
theorem Installed.leaf (h₁ : 1 ≤ d) (h₂ : d < 768) (ht : t < 1024) (hF : m'.leaf a d t = some F) :
    (d, t) ∈ m.copiedPages m.dir ∧ F = φ (d, t) := by
  by_cases hin : (d, t) ∈ m.copiedPages m.dir
  · obtain ⟨-, -, hpte⟩ := hi.page d t hin
    obtain ⟨-, -, heq⟩ := leaf_eq_some.mp hF
    refine ⟨hin, heq.symm.trans ?_⟩
    rw [hpte]
    dsimp only
    omega
  · rw [hi.rest d t h₁ h₂ ht hin] at hF
    exact absurd hF.symm (Option.some_ne_none F)

omit h hspace hs hS ha hc in
theorem Installed.mapped (h₁ : 1 ≤ d) (h₂ : d < 768) (ht : t < 1024) :
    m'.UserMapped a d t ↔ (d, t) ∈ m.copiedPages m.dir := by
  constructor
  · rintro ⟨hpde, -, hpte, -⟩
    exact (hi.leaf h₁ h₂ ht (leaf_eq_some.mpr ⟨hpde, hpte, rfl⟩)).1
  · intro hin
    obtain ⟨hpde, huser, hpte⟩ := hi.page d t hin
    have hcop : m.copied m.dir d t = true := (Machine.mem_copiedPages.mp hin).2.2
    obtain ⟨-, hodd, hubit⟩ := copied_iff.mp hcop
    dsimp only at hpte
    refine ⟨hpde, huser, by rw [hpte]; omega, ?_⟩
    rw [and_user_mod, hpte, Nat.mul_add_mod_self_right, Nat.mod_mod, ← and_user_mod]
    exact hubit

omit h hspace hs hS ha in
/-- What was in use before phase 1. -/
theorem Installed.used (hf : m.frameTest f = true) (hfa : f ≠ a) (hfS : f ≠ S) :
    m'.mem f = m.mem f := by
  have hused : s.machine.frameTest f = true := by rw [hc.allocs.test, hf, Bool.or_true]
  rw [hi.mem f hused hfa, hc.mem_used hf hfS]

omit hspace hs ha in
theorem Installed.loadedDir (hne : a ≠ m.dir) (i : ℕ) : m'.pde m.dir i = m.pde m.dir i := by
  have hmem := hi.used hc (h.dir_used h.loaded).1 hne.symm fun heq ↦
    (h.dir_used h.loaded).2 (heq ▸ hS)
  rw [pde, hmem, pde]

/-- What the two phases have made, seen from the directory that was loaded. -/
theorem Installed.forked (hne : a ≠ m.dir) (hled : m'.Ledger B L K) :
    Forked m (m'.pagingSwitchDirectory m.cr3) a S := by
  have hentry := hi.loadedDir h hS hc hne
  have hold : ∀ f, m.frameTest f = true → f ≠ a → f ≠ S → m'.mem f = m.mem f :=
    fun f hf hfa hfS ↦ hi.used hc hf hfa hfS
  have hkernel : ∀ i, KernelEntry i → m'.pde a i = m'.pde m.dir i := by
    intro i hcase
    rw [hled.shared a ha i hcase, hled.shared m.dir h.loaded i hcase]
  have hfree : ∀ p ∈ m.copiedPages m.dir, φ p ∈ m.free := fun p hp ↦ hc.allocs.sub (by
    rw [List.mem_toFinset]
    exact List.mem_map_of_mem hp)
  refine ⟨rfl, fun d t h₂ ht ↦ ?_, fun d t F' h₁ h₂ ht hF' ↦ ?_, fun d t h₂ ht hmap ↦ ?_,
    fun d t F F' h₁ h₂ ht hF hF' o ho ↦ ?_, fun f hf hfa hfS _ ↦ hold f hf hfa hfS,
    fun i _ ↦ hentry i, hkernel, fun d h₁ h₂ hp ↦ (hi.table d h₁ h₂ hp).2, ?_, fun f hf ↦
    hi.test f (by rw [hc.allocs.test, hf, Bool.or_true])⟩
  · obtain rfl | h₁ := Nat.eq_zero_or_pos d
    · -- the identity map is shared
      change m'.UserMapped a 0 t ↔ m.UserMapped m.dir 0 t
      rw [UserMapped, UserMapped, pte, pte, hkernel 0 (Or.inl rfl), hentry]
      refine and_congr_right fun hp ↦ ?_
      have hT := hspace.table 0 (by norm_num) hp
      have hTa : m.pde m.dir 0 / 4096 ≠ a := fun heq ↦ by
        have hK := h.tables 0 (Or.inl rfl) (by rwa [← h.shared m.dir h.loaded 0 (Or.inl rfl)])
        rw [← h.shared m.dir h.loaded 0 (Or.inl rfl), heq] at hK
        exact (h.dir_used ha).2 hK
      rw [hold _ hT.1 hTa (slots_ne hspace hs (by norm_num) hp)]
    · refine (hi.mapped h₁ h₂ ht).trans ?_
      rw [hspace.userMapped_iff h₂ ht, hspace.mem_copiedPages]
      exact ⟨fun hin ↦ hin.2.2.2, fun hin ↦ ⟨h₁, h₂, ht, hin⟩⟩
  · obtain ⟨hin, rfl⟩ := hi.leaf h₁ h₂ ht hF'
    exact ⟨(hspace.userMapped_iff h₂ ht).mpr (hspace.mem_copiedPages.mp hin).2.2.2, hfree _ hin⟩
  · have hcop := (hspace.userMapped_iff h₂ ht).mp hmap
    obtain ⟨-, -, hpte⟩ := hi.page d t
      (hspace.mem_copiedPages.mpr ⟨hspace.copied_pos ht hcop, h₂, ht, hcop⟩)
    change m'.pte a d t % 4096 = _
    rw [hpte, Nat.mul_add_mod_self_right, Nat.mod_mod]
  · obtain ⟨hin, rfl⟩ := hi.leaf h₁ h₂ ht hF'
    have hused : s.machine.frameTest (φ (d, t)) = true := ((h.copies hS hc).2 _ hin).1.1
    change m'.mem (φ (d, t)) o = m.mem F o
    rw [hi.mem _ hused (Ledger.free_ne (hfree _ hin) (h.dir_used ha).1), hc.copy (d, t) hin F hF o ho]
  · change m'.pde m.dir 1022 % 2 = 1 ∧ m'.pde m.dir 1022 / 4096 = S
    rw [hentry]
    exact ⟨hs.present, hs.table⟩

end Phases

/-- The directory that was loaded is loaded again. -/
theorem copies_saved {s : CopyLoop} {pages : List (ℕ × ℕ)} (hc : Copies m S φ pages s)
    (h : m.Ledger B L K) : s.machine.pagingCurrentDirectory = m.cr3 := by
  have hlt := h.lt h.loaded
  rw [pagingCurrentDirectory, hc.cr3, h.cr3, PAGE_MASK, and_page_mask (by omega)]
  omega

/-- The two phases, from a directory without user pages. -/
theorem Ledger.copyInto (h : m.Ledger B L K) (hspace : m.Space) (hs : m.Scratch S) (hS : S ∈ K)
    (ha : a ∈ L) (hne : a ≠ m.dir) (hempty : ∀ d, 1 ≤ d → d < 768 → m.pde a d = 0) {s : CopyLoop}
    (hcopy : copyPages m = some s) (hout : s.outOfSlots = false)
    (hinstall : installPages s.machine (a * PAGE_SIZE) s.copyList = some m')
    (hcalls : Call.alloc 0 ∉ m'.calls) : m'.Ledger B L K ∧ Forked m m' a S := by
  obtain ⟨s', hcopy', hstate⟩ := copyPages_spec hspace hs
  obtain rfl := Option.some.inj (hcopy.symm.trans hcopy')
  obtain ⟨-, φ, hc⟩ | ⟨hfull, -⟩ := hstate
  · obtain ⟨hled₀, hstart, hpend⟩ := h.phase2 hspace hS ha hc hempty
    obtain ⟨m₁, hrun, hswitch⟩ := Option.bind_eq_some_iff.mp hinstall
    rw [hc.list] at hrun
    rw [copies_saved hc h, Option.pure_def, Option.some.injEq] at hswitch
    subst hswitch
    obtain ⟨hi, hled₁⟩ := hstart.run hled₀ hpend hrun hcalls
    rw [List.nil_append] at hi
    refine ⟨?_, hi.forked h hspace hs hS ha hc hne hled₁⟩
    rw [pagingSwitchDirectory, show m.cr3 = m.dir * PAGE_SIZE from h.cr3]
    exact hled₁.switch h.loaded
  · rw [hout] at hfull
    exact Bool.noConfusion hfull

/-! ## The new directory -/

section NewDirectory

variable (hnew : NewDir m m₀ a S) (h : m.Ledger B L K) (h₀ : m₀.Ledger B (insert a L) (insert S K))
variable (ha : a ∈ m.free)
include hnew h h₀ ha

omit h h₀ in
theorem NewDir.ne (hf : m.frameTest f = true) (hheld : f ∈ K ∧ f ≠ S ∨ f ∉ insert S K)
    (hdir : f ≠ m.dir) : m₀.mem f = m.mem f := by
  refine hnew.mem f (Ledger.free_ne ha hf).symm ?_ hdir
  obtain ⟨-, hne⟩ | hno := hheld
  · exact hne
  · exact fun heq ↦ hno (heq ▸ Set.mem_insert S K)

/-- The tables below entry 768 are as they were. -/
theorem NewDir.table (hd : d < 768) (hp : m.pde m.dir d % 2 = 1) :
    m₀.mem (m.pde m.dir d / 4096) = m.mem (m.pde m.dir d / 4096) := by
  have hentry := hnew.entry d (by omega)
  have hdir := hnew.dir
  obtain rfl | h₁ := Nat.eq_zero_or_pos d
  · have hzero : KernelEntry 0 := Or.inl rfl
    have hshared := h.shared m.dir h.loaded 0 hzero
    have hK : m.pde m.dir 0 / 4096 ∈ K := by
      rw [hshared] at hp ⊢
      exact h.tables 0 hzero hp
    have hshared₀ := h₀.shared m₀.dir h₀.loaded
    have hslot := h₀.slots 0 hzero (by norm_num)
    rw [← hshared₀ 0 hzero, ← hshared₀ 1022 (Or.inr (by norm_num)), hnew.scratch.table, hdir,
      hentry] at hslot
    have hpresent : m₀.pde m.dir 1022 % 2 = 1 := by
      rw [← hdir]
      exact hnew.scratch.present
    refine hnew.ne ha (h.kernel _ hK) (Or.inl ⟨hK, hslot hp hpresent⟩) fun heq ↦ ?_
    exact (h.dir_used h.loaded).2 (heq ▸ hK)
  · have hheld : m.Holds L (.table m.dir d) (m.pde m.dir d / 4096) := ⟨h.loaded, h₁, hd, hp, rfl⟩
    have hheld₀ : m₀.Holds (insert a L) (.table m.dir d) (m.pde m.dir d / 4096) :=
      ⟨Set.mem_insert_of_mem a h.loaded, h₁, hd, by rwa [hentry], by rw [hentry]⟩
    exact hnew.ne ha (h.used _ _ hheld).1 (Or.inr (h₀.used _ _ hheld₀).2)
      (h.table_ne h.loaded h.loaded h₁ hd hp)

/-- So the user half shows what it showed. -/
theorem NewDir.pte (hd : d < 768) (hp : m.pde m.dir d % 2 = 1) :
    m₀.pte m.dir d t = m.pte m.dir d t := by
  rw [Machine.pte, hnew.entry d (by omega), hnew.table h h₀ ha hd hp, Machine.pte]

theorem NewDir.copied (hd : d < 768) : m₀.copied m.dir d t = m.copied m.dir d t := by
  rw [Machine.copied, hnew.entry d (by omega)]
  by_cases hp : m.pde m.dir d % 2 = 1
  · rw [hnew.pte h h₀ ha hd hp, Machine.copied]
  · have heven : (m.pde m.dir d % 2 == 1) = false := by simpa using hp
    simp only [Machine.copied, heven, Bool.false_and]

theorem NewDir.userMapped (hd : d < 768) : m₀.UserMapped m.dir d t ↔ m.UserMapped m.dir d t := by
  rw [UserMapped, UserMapped, hnew.entry d (by omega)]
  refine and_congr_right fun hp ↦ ?_
  rw [hnew.pte h h₀ ha hd hp]

theorem NewDir.leaf (hd : d < 768) : m₀.leaf m.dir d t = m.leaf m.dir d t := by
  by_cases hp : m.pde m.dir d % 2 = 1
  · exact leaf_congr (hnew.entry d (by omega)) (by rw [hnew.table h h₀ ha hd hp])
  · rw [Machine.leaf, Machine.leaf, hnew.entry d (by omega), if_pos (by omega), if_pos (by omega)]

theorem NewDir.leafMem (h₁ : 1 ≤ d) (hd : d < 768) (ht : t < 1024) (hF : m.leaf m.dir d t = some F) :
    m₀.mem F = m.mem F := by
  have hheld := (h.leaf_iff h₁ hd ht).mp hF
  have hheld₀ : m₀.Holds (insert a L) (.leaf m.dir d t) F :=
    ⟨Set.mem_insert_of_mem a h.loaded, h₁, hd, ht, by rw [hnew.leaf h h₀ ha hd, hF]⟩
  exact hnew.ne ha (h.used _ _ hheld).1 (Or.inr (h₀.used _ _ hheld₀).2)
    fun heq ↦ (h.leaf_plain hheld).1 (heq ▸ h.loaded)

/-- What holds of the space with the new directory holds of the space before. -/
theorem Forked.before (hf : Forked m₀ m' a S) (htakes : Takes 2 m m₀) : Forked m m' a S := by
  have hdir := hnew.dir
  refine ⟨hf.cr3.trans hnew.cr3, fun d t hd ht ↦ ?_, fun d t F' h₁ hd ht hF' ↦ ?_,
    fun d t hd ht hmap ↦ ?_, fun d t F F' h₁ hd ht hF hF' o ho ↦ ?_, fun f hused hfa hfS hfd ↦ ?_,
    fun i hi ↦ ?_, fun i hi ↦ ?_, hf.table, by rw [← hdir]; exact hf.slot,
    fun f hused ↦ hf.test f (htakes.test f hused)⟩
  · rw [hf.mapped d t hd ht, hdir, hnew.userMapped h h₀ ha hd]
  · obtain ⟨hmap, hfree⟩ := hf.leaf d t F' h₁ hd ht hF'
    rw [hdir, hnew.userMapped h h₀ ha hd] at hmap
    refine ⟨hmap, ?_⟩
    obtain ⟨hlt, hfree⟩ := (mem_free m₀).mp hfree
    rw [htakes.totalFrames] at hlt
    refine (mem_free m).mpr ⟨hlt, ?_⟩
    rw [Bool.eq_false_iff]
    intro hused
    rw [htakes.test F' hused] at hfree
    exact Bool.noConfusion hfree
  · have hmap₀ := (hnew.userMapped h h₀ ha hd).mpr hmap
    rw [hf.flags d t hd ht (by rwa [hdir]), hdir, hnew.pte h h₀ ha hd hmap.1]
  · rw [hf.bytes d t F F' h₁ hd ht (by rw [hdir, hnew.leaf h h₀ ha hd, hF]) hF' o ho,
      hnew.leafMem h h₀ ha h₁ hd ht hF]
  · rw [hf.mem f (htakes.test f hused) hfa hfS (by rwa [hdir]), hnew.mem f hfa hfS hfd]
  · have hentry := hf.entry i hi
    rw [hdir] at hentry
    rw [hentry, hnew.entry i hi]
  · have hkernel := hf.kernel i hi
    rwa [hdir] at hkernel

end NewDirectory

/-- The loaded directory is fit for the two phases, and the new one has no pages. -/
theorem NewDir.start (hnew : NewDir m m₀ a S) (h : m.Ledger B L K)
    (h₀ : m₀.Ledger B (insert a L) (insert S K)) (ha : a ∈ m.free) (hzero : m.frameTest 0 = true)
    (hdir : m.dir ≠ 0) (hlow : ∀ t < 1024, m.copied m.dir 0 t = false)
    (huser : ∀ d t, 1 ≤ d → d < 768 → t < 1024 → m.copied m.dir d t = true →
      m.pde m.dir d &&& PAGE_USER ≠ 0) (htakes : Takes 2 m m₀) :
    m₀.Space ∧ (∀ d, 1 ≤ d → d < 768 → m₀.pde a d = 0) ∧
      m₀.copiedPages m₀.dir = m.copiedPages m.dir := by
  have hdir₀ := hnew.dir
  refine ⟨h₀.space (htakes.test 0 hzero) (by rwa [hdir₀]) (fun t ht ↦ ?_) fun d t h₁ hd ht hc ↦ ?_,
    fun d h₁ hd ↦ ?_, ?_⟩
  · rw [hdir₀, hnew.copied h h₀ ha (by norm_num), hlow t ht]
  · rw [hdir₀] at hc ⊢
    rw [hnew.copied h h₀ ha hd] at hc
    rw [hnew.entry d (by omega)]
    exact huser d t h₁ hd ht hc
  · rw [pde, hnew.image d (by omega), newEntry, if_neg (by omega), if_neg (by omega)]
  · rw [hdir₀, copiedPages, copiedPages]
    refine List.flatMap_congr fun d hd ↦ congrArg _ (List.filter_congr fun t ht ↦ ?_)
    exact hnew.copied h h₀ ha (List.mem_range.mp hd)

/-- `process_fork` up to the descriptors: when every allocation succeeds, the new
directory has copies of the user pages of its parent. -/
theorem forkSpace_copies (h : m.Ledger B L K) (hzero : m.frameTest 0 = true) (hdir : m.dir ≠ 0)
    (hlow : ∀ t < 1024, m.copied m.dir 0 t = false)
    (huser : ∀ d t, 1 ≤ d → d < 768 → t < 1024 → m.copied m.dir d t = true →
      m.pde m.dir d &&& PAGE_USER ≠ 0) {dir : ℕ}
    (hrun : forkSpace m = some (.built dir, m')) (hcalls : Call.alloc 0 ∉ m'.calls) :
    ∃ a ∈ m.free, ∃ S, dir = a * PAGE_SIZE ∧ m'.Ledger B (insert a L) (insert S K) ∧
      Forked m m' a S := by
  simp only [forkSpace, Option.bind_eq_bind, Option.bind_eq_some_iff] at hrun
  obtain ⟨⟨dir', m₀⟩, hnewrun, hrun⟩ := hrun
  split at hrun
  · cases hrun
  · obtain ⟨s, hcopy, hrun⟩ := Option.bind_eq_some_iff.mp hrun
    split at hrun
    · obtain ⟨m₁, -, hrun⟩ := Option.bind_eq_some_iff.mp hrun
      cases hrun
    · next hout =>
      obtain ⟨m₁, hinstall, hrun⟩ := Option.bind_eq_some_iff.mp hrun
      cases hrun
      have hbefore := (copyPages_before hcopy).trans (installPages_before hinstall)
      obtain ⟨a, ha, S, rfl, hnew, h₀, -⟩ := h.pagingNewDirectory hnewrun fun hmem ↦
        hcalls (hbefore.mem hmem)
      have htakes := pagingNewDirectory_takes hnewrun
      have hdir₀ := hnew.dir
      obtain ⟨hspace, hempty, -⟩ := hnew.start h h₀ ha hzero hdir hlow huser htakes
      obtain ⟨hled, hforked⟩ := h₀.copyInto hspace hnew.scratch (Set.mem_insert S K)
        (Set.mem_insert a L) (by rw [hdir₀]; exact Ledger.free_ne ha (h.dir_used h.loaded).1) hempty
        hcopy (by simpa using hout) hinstall hcalls
      exact ⟨a, ha, S, rfl, hled, hforked.before hnew h h₀ ha htakes⟩

/-! ## Enough frames -/

/-- `paging_map` where there is a table or a frame for one. -/
theorem Ledger.pagingMap_exists (h : m.Ledger B L K) (hzero : m.frameTest 0 = true) (h₁ : 1 ≤ d)
    (h₂ : d < 768) (ht : t < 1024) (hP : P < 2 ^ 20) {flags : ℕ} (hfl : flags < 4096)
    (hroom : m.pde m.dir d % 2 = 0 → m.free.Nonempty) : ∃ m',
      m.pagingMap (pageAddr d t) (P * PAGE_SIZE) flags = some m' ∧
      (Call.alloc 0 ∉ m.calls → Call.alloc 0 ∉ m'.calls) ∧
      (∀ i, m'.pde m.dir i % 2 = 0 → i ≠ d ∧ m.pde m.dir i % 2 = 0) ∧
      m.free.card ≤ m'.free.card + if m.pde m.dir d % 2 = 0 then 1 else 0 := by
  have hva : pageAddr d t >>> 22 = d ∧ (pageAddr d t >>> 12) &&& 0x3FF = t := by
    have hsplit := pageAddr_split (o := 0) (show d < 1024 by omega) ht (by norm_num)
    rw [Nat.add_zero] at hsplit
    exact ⟨hsplit.1, hsplit.2.2.1⟩
  set c := Call.map (pageAddr d t) (P * PAGE_SIZE) flags with hc
  by_cases hp : m.pde m.dir d % 2 = 0
  · obtain ⟨F, hF, halloc⟩ | ⟨hnone, -⟩ := pmmAllocFrame_cases (m := m.log c) h.lastAlloc
    · have hFm : F ∈ m.free := hF
      have hF0 : F * PAGE_SIZE ≠ 0 := Nat.mul_ne_zero (Ledger.free_ne hFm hzero) (by decide)
      have hFdir := Ledger.free_ne hFm (h.dir_used h.loaded).1
      obtain ⟨hled, hloose⟩ := (h.log c).alloc hF
      obtain ⟨hpde, -⟩ := hled.withTable_words (d := d) hloose (Ledger.free_lt hFm)
      set m₁ := ((m.log c).withAlloc F).withTable d F with hm₁
      have hd : m₁.pde m.dir d = F * 4096 + 3 := by
        have := hpde d
        rwa [if_pos rfl] at this
      have hodd : m₁.pde m₁.dir d % 2 = 1 := by
        change m₁.pde m.dir d % 2 = 1
        rw [hd]
        omega
      have hne : m₁.pde m₁.dir d / 4096 ≠ m₁.dir := by
        change m₁.pde m.dir d / 4096 ≠ m.dir
        rw [hd]
        omega
      refine ⟨_, pagingMap_absent h.recursive (by omega) ht hva hp halloc (Ledger.free_lt hFm)
        hFdir hP hfl, fun hcalls ↦ ?_, fun i hi ↦ ?_, ?_⟩
      · simp [Machine.withTable, Machine.withPage, hcalls, hF0.symm, hc]
      · obtain ⟨hid, hi⟩ := (withPage_parity hne hodd).mp hi
        have := hpde i
        rw [if_neg hid] at this
        refine ⟨hid, ?_⟩
        have heq : m₁.pde m₁.dir i = m.pde m.dir i := this
        rwa [heq] at hi
      · rw [if_pos hp]
        change m.free.card ≤ ((m.log c).withAlloc F).free.card + 1
        rw [withAlloc_free]
        exact (Finset.card_erase_add_one hFm).ge
    · exact absurd hnone (hroom hp).ne_empty
  · have hodd : m.pde m.dir d % 2 = 1 := by omega
    refine ⟨_, pagingMap_present h.recursive (by omega) ht hva hodd hP hfl, fun hcalls ↦ ?_,
      fun i hi ↦ ?_, by rw [if_neg hp]; exact le_rfl⟩
    · simp [Machine.withPage, hcalls]
    · exact (withPage_parity (m := m.log c) (h.table_ne h.loaded h.loaded h₁ h₂ hodd) hodd).mp hi

/-- The loop gets to its end when there is a frame for each table. -/
theorem Installed.run_exists {l : List (ℕ × ℕ)} (hi : Installed m₀ a φ fl done m)
    (h : m.Ledger B L K) (hzero : m.frameTest 0 = true) (hpend : Pending L K φ fl done l m)
    (hroom : (m.missing (l.map Prod.fst).toFinset).card ≤ m.free.card)
    (hcalls : Call.alloc 0 ∉ m.calls) : ∃ m',
      (l.map fun p ↦ (⟨pageAddr p.1 p.2, φ p * PAGE_SIZE, fl p⟩ : CopyEntry)).foldlM
        installPage m = some m' ∧ Call.alloc 0 ∉ m'.calls := by
  induction l generalizing m done with
  | nil => exact ⟨m, rfl, hcalls⟩
  | cons p l ih =>
      obtain ⟨d, t⟩ := p
      obtain ⟨h₁, h₂, ht, hnew⟩ := hpend.range d t (List.mem_cons_self ..)
      obtain ⟨hloose, hlt⟩ := hpend.frame (d, t) (List.mem_cons_self ..)
      obtain ⟨hfl, hodd, huser⟩ := hpend.flags (d, t) (List.mem_cons_self ..)
      set all := (((d, t) :: l).map Prod.fst).toFinset with hall
      have hin : d ∈ all := by simp [hall]
      obtain ⟨m₁, hmap, hcalls₁, hparity, hcard⟩ :=
        h.pagingMap_exists hzero h₁ h₂ ht hlt hfl fun hp ↦ by
          rw [← Finset.card_pos]
          refine lt_of_lt_of_le (Finset.card_pos.mpr ⟨d, ?_⟩) hroom
          exact Finset.mem_filter.mpr ⟨hin, hp⟩
      have hcalls₁ := hcalls₁ hcalls
      obtain ⟨hi₁, hled₁, hkeep⟩ := hi.step h h₁ h₂ ht hnew hloose hlt hfl hodd huser hmap hcalls₁
      have hdir : m₁.dir = m.dir := hi₁.dir.trans hi.dir.symm
      -- the table of this page is no longer missing
      have hmissing : m₁.missing (l.map Prod.fst).toFinset ⊆ (m.missing all).erase d := by
        intro i hin'
        obtain ⟨hil, hieven⟩ := Finset.mem_filter.mp hin'
        rw [hdir] at hieven
        obtain ⟨hid, hieven⟩ := hparity i hieven
        refine Finset.mem_erase.mpr ⟨hid, Finset.mem_filter.mpr ⟨?_, hieven⟩⟩
        rw [hall, List.map_cons, List.toFinset_cons]
        exact Finset.mem_insert_of_mem hil
      have hroom₁ : (m₁.missing (l.map Prod.fst).toFinset).card ≤ m₁.free.card := by
        have hle := Finset.card_le_card hmissing
        by_cases hp : m.pde m.dir d % 2 = 0
        · have hmem : d ∈ m.missing all := Finset.mem_filter.mpr ⟨hin, hp⟩
          rw [Finset.card_erase_of_mem hmem] at hle
          rw [if_pos hp] at hcard
          omega
        · rw [if_neg hp] at hcard
          have := Finset.card_erase_le (s := m.missing all) (a := d)
          omega
      obtain ⟨m', hrun, hcalls'⟩ := ih hi₁ hled₁ ((pagingMap_takes hmap).test 0 hzero)
        (hpend.tail hkeep) hroom₁ hcalls₁
      refine ⟨m', ?_, hcalls'⟩
      rw [List.map_cons, List.foldlM_cons, installPage, hmap, Option.bind_eq_bind, Option.bind_some,
        hrun]

/-- Phase 2 gets to its end. -/
theorem Ledger.installPages_exists (h : m.Ledger B L K) (hspace : m.Space) (hS : S ∈ K) (ha : a ∈ L)
    (hempty : ∀ d, 1 ≤ d → d < 768 → m.pde a d = 0) {s : CopyLoop}
    (hc : Copies m S φ (m.copiedPages m.dir) s)
    (hroom : (m.copiedPages m.dir).length + ((m.copiedPages m.dir).map Prod.fst).toFinset.card ≤
      m.free.card) (hcalls : Call.alloc 0 ∉ m.calls) :
    ∃ m', installPages s.machine (a * PAGE_SIZE) s.copyList = some m' ∧ Call.alloc 0 ∉ m'.calls := by
  obtain ⟨hled₀, hstart, hpend⟩ := h.phase2 hspace hS ha hc hempty
  have hcard := hc.allocs.card
  rw [List.toFinset_card_of_nodup hc.nodup, List.length_map] at hcard
  obtain ⟨cs, hcs, hno⟩ := hc.allocs.calls
  have hcalls₀ : Call.alloc 0 ∉ s.machine.calls := by
    rw [hcs, List.mem_append, not_or]
    exact ⟨hno, hcalls⟩
  have hzero : s.machine.frameTest 0 = true := by rw [hc.allocs.test, hspace.zeroUsed, Bool.or_true]
  have hmissing := Finset.card_filter_le ((m.copiedPages m.dir).map Prod.fst).toFinset fun d ↦
    (s.machine.pagingSwitchDirectory (a * PAGE_SIZE)).pde
      (s.machine.pagingSwitchDirectory (a * PAGE_SIZE)).dir d % 2 = 0
  have hfree : (s.machine.pagingSwitchDirectory (a * PAGE_SIZE)).free = s.machine.free := rfl
  obtain ⟨m₁, hrun, hcalls₁⟩ := hstart.run_exists hled₀ hzero hpend (by
    rw [hfree]
    refine hmissing.trans ?_
    omega) hcalls₀
  refine ⟨m₁.pagingSwitchDirectory s.machine.pagingCurrentDirectory, ?_, hcalls₁⟩
  rw [installPages, hc.list]
  exact Option.bind_eq_some_iff.mpr ⟨m₁, hrun, rfl⟩

/-- Two frames for the directory and its scratch slots, one for each page and one
for each table are enough. -/
theorem forkSpace_exists (h : m.Ledger B L K) (hzero : m.frameTest 0 = true) (hdir : m.dir ≠ 0)
    (hlow : ∀ t < 1024, m.copied m.dir 0 t = false)
    (huser : ∀ d t, 1 ≤ d → d < 768 → t < 1024 → m.copied m.dir d t = true →
      m.pde m.dir d &&& PAGE_USER ≠ 0) (hpages : (m.copiedPages m.dir).length ≤ MAX_COPY_PAGES)
    (hroom : 2 + (m.copiedPages m.dir).length +
      ((m.copiedPages m.dir).map Prod.fst).toFinset.card ≤ m.free.card)
    (hcalls : Call.alloc 0 ∉ m.calls) :
    ∃ dir m', forkSpace m = some (.built dir, m') ∧ Call.alloc 0 ∉ m'.calls := by
  obtain ⟨a₀, -, m₀, hnewrun, hcalls₀⟩ := h.pagingNewDirectory_exists hzero (by omega) hcalls
  obtain ⟨a, ha, S, haddr, hnew, h₀, -⟩ := h.pagingNewDirectory hnewrun hcalls₀
  rw [haddr] at hnewrun
  have htakes := pagingNewDirectory_takes hnewrun
  have hcard := htakes.card h.lastAlloc
  obtain ⟨hspace, hempty, hpages₀⟩ := hnew.start h h₀ ha hzero hdir hlow huser htakes
  obtain ⟨s, hcopy, hstate⟩ := copyPages_spec hspace hnew.scratch
  have hout : s.outOfSlots = false := by
    rw [hstate.outcome, hpages₀]
    omega
  obtain ⟨-, φ, hc⟩ | ⟨hfull, -⟩ := hstate
  · obtain ⟨m', hinstall, hcalls'⟩ := h₀.installPages_exists hspace (Set.mem_insert S K)
      (Set.mem_insert a L) hempty hc (by rw [hpages₀]; omega) hcalls₀
    refine ⟨a * PAGE_SIZE, m', ?_, hcalls'⟩
    have hne : a * PAGE_SIZE ≠ 0 := Nat.mul_ne_zero (Ledger.free_ne ha hzero) (by decide)
    simp [forkSpace, hnewrun, hne, hcopy, hout, hinstall]
  · rw [hout] at hfull
    exact Bool.noConfusion hfull

end Machine

end EclipseOS
