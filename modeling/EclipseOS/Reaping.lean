import EclipseOS.Sample
import EclipseOS.ProcessTree

/-!
# Waiting for children

The scan of `process_wait` walks the table while other processes run.  `Scans`
says what each scan in progress knows about the children of its process; with
the tree and the reports it gives the guarantees of fork, exit and wait.
-/

namespace EclipseOS

namespace Kernel

variable {k k' : Kernel}

/-- Entry `c` is a running or zombie child of the process `self`. -/
def Child (k : Kernel) (self c : Fin MAX_PROCS) : Prop :=
  c ≠ self ∧ (k.procTable c).state ≠ .free ∧ (k.procTable c).ppid = (k.procTable self).pid

/-- What a scan of the process `p` at entry `i` has seen: a positive count means a child,
and after the first `yield` a count of zero means that one is still ahead. -/
structure Scanned (k : Kernel) (p : Fin MAX_PROCS) (i n : ℕ) (resumed : Bool) : Prop where
  alive : (k.procTable p).state = .run
  counted : n ≠ 0 → ∃ c, k.Child p c
  skipped : resumed = false → n = 0 → ∀ c, c.val < i → ¬ k.Child p c
  ahead : resumed = true → n = 0 → ∃ c, i ≤ c.val ∧ k.Child p c

theorem SameTree.child_iff (h : SameTree k k') {self c : Fin MAX_PROCS}
    (hself : (k.procTable self).state = .run) : k'.Child self c ↔ k.Child self c := by
  have hpid := h.pid self (by rw [hself]; decide)
  simp only [Child, h.state, hpid]
  constructor
  · rintro ⟨hne, hfree, hppid⟩
    exact ⟨hne, hfree, by rwa [h.ppid c hfree] at hppid⟩
  · rintro ⟨hne, hfree, hppid⟩
    exact ⟨hne, hfree, by rwa [h.ppid c hfree]⟩

theorem Scanned.congr {self : Fin MAX_PROCS} {i n : ℕ} {resumed : Bool}
    (h : k.Scanned self i n resumed) (htree : SameTree k k') : k'.Scanned self i n resumed where
  alive := (htree.state self).trans h.alive
  counted hn := by
    obtain ⟨c, hc⟩ := h.counted hn
    exact ⟨c, (htree.child_iff h.alive).mpr hc⟩
  skipped hr hn c hci hc := h.skipped hr hn c hci ((htree.child_iff h.alive).mp hc)
  ahead hr hn := by
    obtain ⟨c, hci, hc⟩ := h.ahead hr hn
    exact ⟨c, hci, (htree.child_iff h.alive).mpr hc⟩

/-- Other processes take no child away from `self`. -/
theorem Child.step {obs : Obs} {self c : Fin MAX_PROCS} (ht : TreeStep k k' obs)
    (hself : (k.procTable self).state = .run)
    (hexit : ∀ p code : ℤ, obs = .exited p code → p ≠ 0 → p ≠ (k.procTable self).pid)
    (hreap : ∀ q d status : ℤ, obs = .reaped q d status → q ≠ (k.procTable self).pid)
    (hc : k.Child self c) : k'.Child self c := by
  obtain ⟨hne, hfree, hppid⟩ := hc
  have hself' : (k.procTable self).state ≠ .free := by rw [hself]; decide
  cases ht with
  | same hobs htree hnext => exact (htree.child_iff hself).mpr ⟨hne, hfree, hppid⟩
  | failed htree hnext => exact (htree.child_iff hself).mpr ⟨hne, hfree, hppid⟩
  | @born d hd hdfree hnext hother hstate hpid hppid' =>
      have hcd : c ≠ d := fun heq ↦ hfree (heq ▸ hdfree)
      have hsd : self ≠ d := fun heq ↦ hself' (heq ▸ hdfree)
      obtain ⟨hst, -, hpp, -⟩ := hother c hcd
      obtain ⟨-, hp, -, -⟩ := hother self hsd
      exact ⟨hne, by rwa [hst], by rw [hpp, hp, hppid]⟩
  | died hpid0 hnext hstate hpid hppid' hexit' =>
      have hpar : (k.procTable c).ppid ≠ (k.procTable k.processCurrent).pid := by
        rw [hppid]
        exact (hexit _ _ rfl hpid0).symm
      refine ⟨hne, ?_, by rw [hppid' c hfree, if_neg hpar, hpid, hppid]⟩
      rw [hstate]
      split
      · decide
      · exact hfree
  | @reaped q d hzombie hparent hqd hnext hstate hpid hppid' hexit' =>
      have hcd : c ≠ d := by
        rintro rfl
        exact hreap _ _ _ rfl (hparent.symm.trans hppid)
      exact ⟨hne, by rwa [hstate, if_neg hcd], by rw [hppid', hpid, hppid]⟩

/-- A scan that other processes interrupt. -/
theorem Scanned.step {n i : ℕ} {obs : Obs} {self : Fin MAX_PROCS} (ht : TreeStep k k' obs)
    (h : k.Scanned self i n true)
    (hexit : ∀ p code : ℤ, obs = .exited p code → p ≠ 0 → p ≠ (k.procTable self).pid)
    (hreap : ∀ q d status : ℤ, obs = .reaped q d status → q ≠ (k.procTable self).pid) :
    k'.Scanned self i n true where
  alive := by
    have hrun := h.alive
    cases ht with
    | same hobs htree hnext => rw [htree.state, hrun]
    | failed htree hnext => rw [htree.state, hrun]
    | @born d hd hdfree hnext hother hstate hpid hppid' =>
        have hsd : self ≠ d := fun heq ↦ nomatch (heq ▸ hdfree).symm.trans hrun
        rw [(hother self hsd).1, hrun]
    | died hpid0 hnext hstate hpid hppid' hexit' =>
        have hne : self ≠ k.processCurrent := fun heq ↦ hexit _ _ rfl hpid0 (by rw [heq])
        rw [hstate, if_neg hne, hrun]
    | @reaped q d hzombie hparent hqd hnext hstate hpid hppid' hexit' =>
        have hsd : self ≠ d := fun heq ↦ nomatch (heq ▸ hzombie).symm.trans hrun
        rw [hstate, if_neg hsd, hrun]
  counted hn := by
    obtain ⟨c, hc⟩ := h.counted hn
    exact ⟨c, hc.step ht h.alive hexit hreap⟩
  skipped := nofun
  ahead _ hn := by
    obtain ⟨c, hci, hc⟩ := h.ahead rfl hn
    exact ⟨c, hci, hc.step ht h.alive hexit hreap⟩

end Kernel

/-- Only the process `p` ends or reaps. -/
def Obs.Concerns (obs : Obs) (p : ℤ) : Prop :=
  match obs with
  | .exited q _ => q = p
  | .reaped q _ _ => q = p
  | _ => True

namespace System

variable {s s' : System} {op : Op} {obs : Obs}

/-- Whose scan it is. -/
def Owns (r : TaskRef) (self : Fin MAX_PROCS) : Prop :=
  (r = .main ∧ self = 0) ∨ (r = .proc self ∧ self ≠ 0)

/-- Every scan in progress; one that was not resumed yet has not been interrupted. -/
structure Scans (s : System) : Prop where
  created : ∀ n, n < s.kernel.createdCount → s.mode (.created n) = .kernel
  scanned : ∀ r self st i n resumed, s.mode r = .waiting self st i n resumed →
    Owns r self ∧ s.kernel.Scanned self i n resumed ∧ (resumed = false → r = s.cur)

/-- A context that makes system calls is that of a process. -/
theorem Scans.owns_cur (hs : s.kernel.Sched) (h : s.Scans) (hmode : s.mode s.cur ≠ .kernel) :
    Owns s.cur s.kernel.processCurrent := by
  obtain ⟨c, hc⟩ := hs.ring
  have hsched := hc.scheduled_running
  change s.kernel.Scheduled s.cur at hsched
  cases hcur : s.cur with
  | main => exact Or.inl ⟨rfl, Kernel.processCurrent_main hcur⟩
  | created n =>
      rw [hcur] at hsched hmode
      exact absurd (h.created n hsched) hmode
  | proc i =>
      rw [hcur] at hsched
      have hi : s.kernel.processCurrent = i :=
        Kernel.processCurrent_proc hcur (by rw [hsched.2]; decide)
      rw [hi]
      exact Or.inr ⟨rfl, hsched.1⟩

theorem Owns.inj {r : TaskRef} {p q : Fin MAX_PROCS} (hp : Owns r p) (hq : Owns r q) : p = q := by
  rcases hp with ⟨rfl, rfl⟩ | ⟨rfl, hp0⟩ <;> rcases hq with ⟨hr, rfl⟩ | ⟨hr, hq0⟩
  · rfl
  · exact nomatch hr
  · exact nomatch hr
  · cases hr
    rfl

theorem Owns.task_inj {r r' : TaskRef} {p : Fin MAX_PROCS} (h : Owns r p) (h' : Owns r' p) :
    r = r' := by
  rcases h with ⟨rfl, rfl⟩ | ⟨rfl, hp⟩ <;> rcases h' with ⟨rfl, h0⟩ | ⟨rfl, hp'⟩
  · rfl
  · exact absurd rfl hp'
  · exact absurd h0 hp
  · rfl

/-- The scan of a process that is not running, while the running one takes a step. -/
theorem Scans.interrupted {m : ℕ} (hs : s.kernel.Sched) (hf : s.kernel.Family m) (h : s.Scans)
    (ht : Kernel.TreeStep s.kernel s'.kernel obs) (hcur : s.mode s.cur ≠ .kernel)
    (hobs : obs.Concerns s.pid)
    {r : TaskRef} {self : Fin MAX_PROCS} {st i n : ℕ} {resumed : Bool}
    (hmode : s.mode r = .waiting self st i n resumed) (hr : r ≠ s.cur) :
    Owns r self ∧ s'.kernel.Scanned self i n resumed ∧ resumed = true := by
  obtain ⟨hown, hscan, hfresh⟩ := h.scanned r self st i n resumed hmode
  have hres : resumed = true := by
    cases resumed with
    | true => rfl
    | false => exact absurd (hfresh rfl) hr
  subst hres
  have hpid : s.pid ≠ (s.kernel.procTable self).pid := by
    intro heq
    have hrun := hs.current_run
    have hself := hf.distinct _ _ (by rw [hrun]; decide) (by rw [hscan.alive]; decide) heq
    exact hr (hown.task_inj (hself ▸ h.owns_cur hs hcur))
  refine ⟨hown, hscan.step ht (fun p code ho _ ↦ ?_) fun q d status ho ↦ ?_, rfl⟩
  · subst ho
    exact ne_of_eq_of_ne hobs hpid
  · subst ho
    exact ne_of_eq_of_ne hobs hpid

/-- Steps taken from user mode, except the start of a wait. -/
theorem Scans.user {m : ℕ} (hs : s.kernel.Sched) (hf : s.kernel.Family m) (h : s.Scans)
    (ht : Kernel.TreeStep s.kernel s'.kernel obs) (hmode : s.mode s.cur = .user)
    (hobs : obs.Concerns s.pid)
    (hcount : s'.kernel.createdCount = s.kernel.createdCount)
    (hcreated : ∀ n, s'.mode (.created n) = s.mode (.created n) ∨ s.cur = .created n)
    (hmodes : ∀ r self st i n resumed, s'.mode r = .waiting self st i n resumed →
      s.mode r = .waiting self st i n resumed) : s'.Scans where
  created n hn := by
    rw [hcount] at hn
    rcases hcreated n with heq | heq
    · rw [heq]
      exact h.created n hn
    · have := h.created n hn
      rw [← heq, hmode] at this
      cases this
  scanned r self st i n resumed hwait := by
    have hwait' := hmodes r self st i n resumed hwait
    have hr : r ≠ s.cur := by
      rintro rfl
      cases hmode.symm.trans hwait'
    obtain ⟨hown, hscan, hres⟩ := h.interrupted hs hf ht (by rw [hmode]; decide) hobs hwait' hr
    exact ⟨hown, hscan, fun hno ↦ absurd (hres.symm.trans hno) Bool.noConfusion⟩

/-- A call that leaves all modes as they are. -/
theorem Scans.call {m : ℕ} (hs : s.kernel.Sched) (hf : s.kernel.Family m) (h : s.Scans)
    (ht : Kernel.TreeStep s.kernel s'.kernel obs) (hmode : s.mode s.cur = .user)
    (hobs : obs.Concerns s.pid) (hcount : s'.kernel.createdCount = s.kernel.createdCount)
    (hmodes : s'.mode = s.mode) : s'.Scans :=
  h.user hs hf ht hmode hobs hcount (fun n ↦ Or.inl (congrFun hmodes (.created n)))
    fun r _ _ _ _ _ hw ↦ (congrFun hmodes r).symm.trans hw

/-- A step inside the scan of the running process, which goes on in `mode`. -/
theorem Scans.scanning {m : ℕ} (hs : s.kernel.Sched) (hf : s.kernel.Family m) (h : s.Scans)
    (ht : Kernel.TreeStep s.kernel s'.kernel obs) (hcur : s.mode s.cur ≠ .kernel)
    (hobs : obs.Concerns s.pid)
    (hcount : s'.kernel.createdCount = s.kernel.createdCount) {mode : Mode}
    (hmodes : s'.mode = Function.update s.mode s.cur mode)
    (hown : ∀ self st i n resumed, mode = .waiting self st i n resumed →
      Owns s.cur self ∧ s'.kernel.Scanned self i n resumed ∧ (resumed = false → s.cur = s'.cur)) :
    s'.Scans where
  created n hn := by
    rw [hcount] at hn
    have hne : .created n ≠ s.cur := by
      intro heq
      have := h.created n hn
      rw [heq] at this
      exact hcur this
    rw [hmodes, Function.update_of_ne hne]
    exact h.created n hn
  scanned r self st i n resumed hwait := by
    rw [hmodes] at hwait
    by_cases hr : r = s.cur
    · subst hr
      rw [Function.update_self] at hwait
      exact hown self st i n resumed hwait
    · rw [Function.update_of_ne hr] at hwait
      obtain ⟨hown, hscan, hres⟩ := h.interrupted hs hf ht hcur hobs hwait hr
      exact ⟨hown, hscan, fun hno ↦ absurd (hres.symm.trans hno) Bool.noConfusion⟩

/-- A step that ends the scan of the running process, or its run. -/
theorem Scans.ending {m : ℕ} (hs : s.kernel.Sched) (hf : s.kernel.Family m) (h : s.Scans)
    (ht : Kernel.TreeStep s.kernel s'.kernel obs) (hcur : s.mode s.cur ≠ .kernel)
    (hobs : obs.Concerns s.pid) (hcount : s'.kernel.createdCount = s.kernel.createdCount)
    {mode : Mode} (hmodes : s'.mode = Function.update s.mode s.cur mode)
    (hmode : ∀ self st i n resumed, mode ≠ .waiting self st i n resumed) : s'.Scans :=
  h.scanning hs hf ht hcur hobs hcount hmodes
    fun self st i n resumed hw ↦ absurd hw (hmode self st i n resumed)

/-- A step that leaves the tree alone and starts or ends no scan. -/
theorem Scans.congr (h : s.Scans) (htree : Kernel.SameTree s.kernel s'.kernel)
    (hcreated : ∀ n, n < s'.kernel.createdCount → s'.mode (.created n) = .kernel)
    (hmodes : ∀ r self st i n resumed, s'.mode r = .waiting self st i n resumed →
      s.mode r = .waiting self st i n resumed ∧ (resumed = false → s'.cur = s.cur)) :
    s'.Scans where
  created := hcreated
  scanned r self st i n resumed hwait := by
    obtain ⟨hwait', hcur⟩ := hmodes r self st i n resumed hwait
    obtain ⟨hown, hscan, hfresh⟩ := h.scanned r self st i n resumed hwait'
    exact ⟨hown, hscan.congr htree, fun hno ↦ (hfresh hno).trans (hcur hno).symm⟩

/-- One turn of a scan. -/
theorem Scanned.next {k k' : Kernel} {self : Fin MAX_PROCS} {st i n n' : ℕ} {resumed : Bool}
    (hi : i < MAX_PROCS) (h : k.Scanned self i n resumed)
    (hw : k.waitSlot self st n ⟨i, hi⟩ = some (.next n', k')) :
    k'.Scanned self (i + 1) n' resumed := by
  obtain ⟨hnext, rfl, hskip⟩ | ⟨hppid, hne, ⟨hnext, rfl, hrun⟩ | ⟨-, hno, -⟩⟩ :=
    Kernel.waitSlot_cases hw
  · cases hnext
    have hnot : ¬ k'.Child self ⟨i, hi⟩ := by
      rintro ⟨hself, hfree, hppid⟩
      rcases hskip with h' | h' | h'
      · exact hfree h'
      · exact h' hppid
      · exact hself h'
    refine ⟨h.alive, h.counted, fun hr hn c hc ↦ ?_, fun hr hn ↦ ?_⟩
    · by_cases hci : c.val = i
      · have : c = ⟨i, hi⟩ := Fin.ext hci
        rw [this]
        exact hnot
      · exact h.skipped hr hn c (by omega)
    · obtain ⟨c, hci, hc⟩ := h.ahead hr hn
      have hne : c.val ≠ i := by
        intro heq
        have : c = ⟨i, hi⟩ := Fin.ext heq
        exact hnot (this ▸ hc)
      exact ⟨c, by omega, hc⟩
  · cases hnext
    refine ⟨h.alive, fun _ ↦ ⟨_, hne, by rw [hrun]; decide, hppid⟩, fun _ hn ↦ ?_, fun _ hn ↦ ?_⟩
    · exact absurd hn (Nat.succ_ne_zero n)
    · exact absurd hn (Nat.succ_ne_zero n)
  · exact nomatch hno

theorem processFork_createdCount {k k' : Kernel} {regs : Registers} {r : ℤ}
    (hf : k.processFork regs = some (r, k')) : k'.createdCount = k.createdCount := by
  obtain ⟨-, -, rfl⟩ | ⟨c, stack, heap, -, -, ⟨-, -, rfl⟩ | ⟨-, -, o, m, dir, -, -, rfl⟩ |
    ⟨-, -, dir, m, m', -, -, rfl⟩⟩ := Kernel.processFork_cases hf
  · rfl
  · rfl
  · rfl
  · simp

theorem waitSlot_createdCount {k k' : Kernel} {self i : Fin MAX_PROCS} {status n : ℕ}
    {w : Kernel.WaitStep} (hw : k.waitSlot self status n i = some (w, k')) :
    k'.createdCount = k.createdCount := by
  obtain ⟨-, rfl, -⟩ | ⟨-, -, ⟨-, rfl, -⟩ | ⟨-, -, m, -, rfl⟩⟩ := Kernel.waitSlot_cases hw
  · rfl
  · rfl
  · rfl

theorem step_scans {m : ℕ} (hs : s.kernel.Sched) (hf : s.kernel.Family m) (h : s.Scans)
    (hstep : s.step op = some (s', obs)) : s'.Scans := by
  have ht := step_tree hs hstep
  cases step_case hstep with
  | forkNoSlot hmode hk _ =>
      exact h.call hs hf ht hmode trivial (processFork_createdCount hk) rfl
  | @fork _ _ _ c hmode hk hslot =>
      refine h.user hs hf ht hmode trivial (processFork_createdCount hk)
        (fun n ↦ ?_) fun r self st i n resumed hw ↦ ?_
      · exact Or.inl (by simp [adoptChild, withKernel, trap])
      by_cases hr : r = .proc c
      · rw [hr] at hw
        cases (Function.update_self _ _ _).symm.trans hw
      · exact (Function.update_of_ne hr _ _).symm.trans hw
  | execError hmode hk =>
      exact h.call hs hf ht hmode trivial (Kernel.sysExecve_quiet hk).created rfl
  | exec hmode hk =>
      exact h.call hs hf ht hmode trivial (Kernel.sysExecve_quiet hk).created rfl
  | halt hmode hk =>
      have hcount := (Kernel.processExit_cases hs.zeroPid hk).elim
        (fun hk ↦ congrArg Kernel.createdCount hk.2.2) fun hk ↦ by cases hk.2.1
      exact h.ending hs hf ht (by rw [hmode]; decide) rfl hcount rfl fun _ _ _ _ _ ↦ Mode.noConfusion
  | exit hmode hk hy =>
      obtain ⟨_, hexit⟩ := Kernel.exit_spec hs.zeroPid hk hy
      exact h.ending hs hf ht (by rw [hmode]; decide) rfl hexit.createdCount rfl
        fun _ _ _ _ _ ↦ Mode.noConfusion
  | waitFault hmode _ =>
      exact h.call hs hf ht hmode trivial rfl rfl
  | wait hmode _ =>
      have hcur : s.mode s.cur ≠ .kernel := by rw [hmode]; decide
      refine h.scanning hs hf ht hcur trivial rfl rfl fun self st i n resumed hw ↦ ?_
      cases hw
      exact ⟨h.owns_cur hs hcur, ⟨hs.current_run, fun hn ↦ absurd rfl hn,
        fun _ _ c hc ↦ absurd hc (Nat.not_lt_zero _), Bool.noConfusion⟩, fun _ ↦ rfl⟩
  | scanNext hmode hi hk =>
      have hcur : s.mode s.cur ≠ .kernel := by rw [hmode]; exact Mode.noConfusion
      obtain ⟨hown, hscan, -⟩ := h.scanned _ _ _ _ _ _ hmode
      have hsame := Kernel.waitSlot_treeStep_next hk
      refine h.scanning hs hf ht hcur trivial (congrArg Kernel.createdCount hsame) rfl
        fun self st i n resumed hw ↦ ?_
      cases hw
      exact ⟨hown, Scanned.next hi hscan hk, fun _ ↦ (congrArg Kernel.runningTask hsame).symm⟩
  | @reap _ self _ _ _ _ _ _ hmode hi hk =>
      have hcur : s.mode s.cur ≠ .kernel := by rw [hmode]; exact Mode.noConfusion
      obtain ⟨hown, -, -⟩ := h.scanned _ _ _ _ _ _ hmode
      have hself := hown.inj (h.owns_cur hs hcur)
      have hcount := waitSlot_createdCount hk
      have hpid : (s.kernel.procTable self).pid = s.pid := by rw [pid, ← hself]
      exact h.ending hs hf ht hcur hpid hcount rfl fun _ _ _ _ _ ↦ Mode.noConfusion
  | noChild hmode hi =>
      exact h.ending hs hf ht (by rw [hmode]; exact Mode.noConfusion) trivial rfl rfl
        fun _ _ _ _ _ ↦ Mode.noConfusion
  | block hmode hi hn hy =>
      have hcur : s.mode s.cur ≠ .kernel := by rw [hmode]; exact Mode.noConfusion
      have hspec := Kernel.yield_spec hy
      obtain ⟨hown, hscan, -⟩ := h.scanned _ _ _ _ _ _ hmode
      refine h.scanning hs hf ht hcur trivial hspec.createdCount rfl
        fun self st i n resumed hw ↦ ?_
      cases hw
      have hscan' := hscan.congr hspec.sameTree
      obtain ⟨c, hc⟩ := hscan'.counted hn
      exact ⟨hown, ⟨hscan'.alive, fun hn ↦ absurd rfl hn, Bool.noConfusion,
        fun _ _ ↦ ⟨c, Nat.zero_le _, hc⟩⟩, Bool.noConfusion⟩
  | tickUser hmode hy =>
      exact h.call hs hf ht hmode trivial (Kernel.yield_spec hy).createdCount rfl
  | tickKernel hmode hy =>
      have hspec := Kernel.yield_spec hy
      refine h.congr hspec.sameTree (fun n hn ↦ ?_) fun r self st i n resumed hw ↦ ⟨hw, fun hno ↦ ?_⟩
      · exact h.created n (by rw [← hspec.createdCount]; exact hn)
      · have hcur := (h.scanned _ _ _ _ _ _ hw).2.2 hno
        change s.mode r = _ at hw
        rw [hcur] at hw
        rcases hmode with ⟨_, _, _, _, hm⟩ | hm | hm
        · rw [hm] at hw
          cases hw
          cases hno
        · cases hm.symm.trans hw
        · cases hm.symm.trans hw
  | taskCreate hk =>
      obtain ⟨heap, m', regs, -, -, rfl⟩ := Kernel.taskCreate_cases hk
      refine h.congr ⟨fun i ↦ ?_, fun i _ ↦ ?_, fun i _ ↦ ?_, fun i _ ↦ ?_⟩ (fun n hn ↦ ?_)
        fun r self st i n resumed hw ↦ ?_
      · simp [withKernel, setMode]
      · simp [withKernel, setMode]
      · simp [withKernel, setMode]
      · simp [withKernel, setMode]
      · by_cases hnew : n = s.kernel.createdCount
        · simp [setMode, hnew]
        · have hlt : n < s.kernel.createdCount := by
            simp [withKernel, setMode, Kernel.taskAdd] at hn
            omega
          have hne : TaskRef.created n ≠ .created s.kernel.createdCount := fun heq ↦ by
            cases heq
            exact hnew rfl
          exact (Function.update_of_ne hne _ _).trans (h.created n hlt)
      · by_cases hr : r = .created s.kernel.createdCount
        · rw [hr] at hw
          cases (Function.update_self _ _ _).symm.trans hw
        · exact ⟨(Function.update_of_ne hr _ _).symm.trans hw, fun _ ↦ by
            simp [cur, withKernel, setMode, Kernel.taskAdd]⟩
  | sbrk hmode hk =>
      exact h.call hs hf ht hmode trivial (Kernel.sysSbrk_quiet hk).created rfl
  | openFile hmode hk =>
      exact h.call hs hf ht hmode trivial (Kernel.sysOpen_quiet hk).created rfl
  | closeFile hmode =>
      exact h.call hs hf ht hmode trivial (Kernel.sysClose_quiet _ _).created rfl
  | readFile hmode hk =>
      exact h.call hs hf ht hmode trivial (Kernel.sysRead_quiet hk).created rfl
  | store hmode hk =>
      exact h.call hs hf ht hmode trivial rfl rfl

/-! ## Runs -/

/-- The invariants of this module and the last, after the run `tr`. -/
structure Orderly (s : System) (tr : List (Op × Obs)) : Prop where
  sched : s.kernel.Sched
  family : s.kernel.Family (creations tr)
  history : s.kernel.History (tr.map Prod.snd)
  scans : s.Scans

theorem creations_eq (tr : List (Op × Obs)) :
    creations tr = (tr.map Prod.snd).countP Obs.creates := by
  rw [List.countP_map]
  rfl

theorem creations_concat (tr : List (Op × Obs)) (op : Op) (obs : Obs) :
    creations (tr ++ [(op, obs)]) = creations tr + obs.creates.toNat := by
  cases hobs : obs.creates <;> simp [creations, List.countP_append, hobs]

theorem boot_orderly (k : Kernel) (size brk : ℕ) : Orderly (boot k size brk) [] where
  sched := boot_sched k size brk
  family := by
    rw [boot, boot_kernel]
    refine ⟨rfl, fun i hi hst ↦ ?_, fun i j hi hj _ ↦ ?_, fun i hi hst ↦ ?_⟩
    · simp [hi, Process.zero] at hst
    · by_cases h0 : i = 0 <;> by_cases h0' : j = 0
      · rw [h0, h0']
      · simp [h0', Process.zero] at hj
      · simp [h0, Process.zero] at hi
      · simp [h0, Process.zero] at hi
    · simp [hi, Process.zero] at hst
  history := by
    rw [boot, boot_kernel]
    refine ⟨fun i hi ↦ ?_, fun _ _ h ↦ absurd h List.not_mem_nil, fun p hp ↦ Nat.zero_le _,
      fun _ _ _ h ↦ absurd h List.not_mem_nil, fun c ↦ Nat.zero_le _, fun i hi hst ↦ ?_⟩
    · by_cases h0 : i = 0 <;> simp [h0, Process.zero, bootEntry] at hi
    · simp [hi, Process.zero] at hst
  scans := by
    refine ⟨fun n hn ↦ ?_, fun r self st i n resumed hw ↦ ?_⟩
    · simp [boot, boot_kernel] at hn
    · cases hw

theorem Run.orderly {k : Kernel} {size brk : ℕ} {tr : List (Op × Obs)}
    (hrun : Run (boot k size brk) tr s) (hn : creations tr < 2 ^ 31) : Orderly s tr := by
  induction hrun with
  | start => exact boot_orderly k size brk
  | @step tr s s' op obs _ hstep ih =>
      rw [creations_concat] at hn
      obtain ⟨hs, hf, hh, hsc⟩ := ih (by omega)
      have ht := step_tree hs hstep
      refine ⟨step_sched hs hstep, ?_, ?_, step_scans hs hf hsc hstep⟩
      · rw [creations_concat]
        exact hf.step hs ht hn
      · rw [creations_eq] at hf hn
        rw [List.map_append]
        exact hh.step hs hf ht hn

/-- A wait that returns a pid returns that of a zombie child of the caller, with
its status. -/
theorem Orderly.step_reaped {tr : List (Op × Obs)} (h : Orderly s tr)
    (hstep : s.step op = some (s', obs)) {q c status : ℤ} (hobs : obs = .reaped q c status) :
    q = s.pid ∧ .exited c status ∈ tr.map Prod.snd ∧ ∃ i self st j n resumed,
      (s.kernel.procTable i).state = .zombie ∧ (s.kernel.procTable i).pid = c ∧
      (s.kernel.procTable i).ppid = q ∧ s.mode s.cur = .waiting self st j n resumed ∧
      (if st ≠ 0 then s.kernel.machine.store32 st (status % 2 ^ 32).toNat
        else some s.kernel.machine) = some s'.kernel.machine := by
  cases step_case hstep with
  | @reap _ self st j n resumed _ k hmode hi hk =>
      cases hobs
      have hcur : s.mode s.cur ≠ .kernel := by rw [hmode]; nofun
      obtain ⟨hown, -, -⟩ := h.scans.scanned _ _ _ _ _ _ hmode
      have hself := hown.inj (h.scans.owns_cur h.sched hcur)
      obtain ⟨hw, -, -⟩ | ⟨hppid, -, ⟨hw, -, -⟩ | ⟨hzombie, hw, m, hm, rfl⟩⟩ :=
        Kernel.waitSlot_cases hk
      · exact nomatch hw
      · exact nomatch hw
      · cases hw
        exact ⟨by rw [pid, hself], h.history.zombie _ hzombie, _, self, st, j, n, resumed, hzombie,
          rfl, hppid, hmode, hm⟩
  | _ => exact nomatch hobs

/-- A wait that finds no child: there is none. -/
theorem Orderly.step_noChild {tr : List (Op × Obs)} (h : Orderly s tr)
    (hstep : s.step op = some (s', obs)) {q : ℤ} (hobs : obs = .noChild q) :
    q = s.pid ∧ ∀ c, ¬ s.kernel.Child s.kernel.processCurrent c := by
  cases step_case hstep with
  | @noChild _ self st i resumed hmode hi =>
      cases hobs
      have hcur : s.mode s.cur ≠ .kernel := by rw [hmode]; nofun
      obtain ⟨hown, hscan, -⟩ := h.scans.scanned _ _ _ _ _ _ hmode
      have hself := hown.inj (h.scans.owns_cur h.sched hcur)
      rw [← hself]
      refine ⟨by rw [pid, hself], fun c ↦ ?_⟩
      have hlt := c.isLt
      cases resumed with
      | false => exact hscan.skipped rfl rfl c (by omega)
      | true =>
          obtain ⟨d, hid, -⟩ := hscan.ahead rfl rfl
          have := d.isLt
          omega
  | _ => exact nomatch hobs

/-- Where a scan ends without a child, the wait returns `-ECHILD`. -/
theorem Orderly.scan_end {tr : List (Op × Obs)} (h : Orderly s tr) {self : Fin MAX_PROCS}
    {st i n : ℕ} {resumed : Bool} (hmode : s.mode s.cur = .waiting self st i n resumed)
    (hi : ¬ i < MAX_PROCS) (hnone : ∀ c, ¬ s.kernel.Child s.kernel.processCurrent c)
    (cpu : TaskRegs) : s.step (.scan cpu) = some (s.setMode s.cur .user, .noChild s.pid) := by
  have hcur : s.mode s.cur ≠ .kernel := by rw [hmode]; nofun
  obtain ⟨hown, hscan, -⟩ := h.scans.scanned _ _ _ _ _ _ hmode
  have hself := hown.inj (h.scans.owns_cur h.sched hcur)
  have hn : n = 0 := by
    by_contra hn
    obtain ⟨c, hc⟩ := hscan.counted hn
    exact hnone c (hself ▸ hc)
  simp only [step, hmode, stepScan, dif_neg hi, hn, if_true, pid, hself]
  rfl

end System

end EclipseOS
