import EclipseOS.Turns

/-!
# The life of a process

The scheduler ring and the process tree over whole runs.  The run that goes with
them has a whole life in it: process 0 forks, the child has its turn and exits,
and process 0 waits for it.
-/

namespace EclipseOS

namespace System

variable {s s' : System}

/-! ## Steps of a life -/

/-- A process other than 0 exits, and the next task goes on. -/
theorem exit_turn {m : Machine} (hs : s.kernel.Sched) (hmode : s.mode s.cur = .user)
    (hpid : s.pid ≠ 0) (hspace : Kernel.exitSpace s.kernel.machine s.kernel.kernelDir
      (s.kernel.procTable s.kernel.processCurrent).pageDir = some m) {t : TaskRef}
    (hnext : s.kernel.next s.cur = some t) (code : BitVec 32) (cpu : TaskRegs) :
    ∃ s', s.step (.exit code cpu) = some (s', .exited s.pid code.toInt) ∧ s'.cur = t ∧
      s'.mode = Function.update s.mode s.cur .exited ∧
      ∃ m', Kernel.Exited s.kernel s'.kernel code.toInt m' := by
  obtain ⟨k₁, hexit⟩ := hs.processExit_isSome hpid hspace code.toInt
  have hleft := Kernel.processExit_left hs hexit
  have hlink : k₁.next k₁.runningTask = some t := by
    rw [hleft.running, hleft.next_running hs]
    exact hnext
  obtain ⟨k, hy⟩ := Kernel.yield_of_next hlink cpu
  have hrunning := (Kernel.yield_spec hy).running
  have hstep : s.step (.exit code cpu) = some (({ (s.trap.withKernel k).setMode s.cur .exited with
      opened := Function.update s.trap.opened s.kernel.processCurrent fun _ ↦ none } : System),
      .exited s.pid code.toInt) := by
    simp only [step, hmode, if_true, stepExit, hexit, Option.bind_eq_bind, Option.bind_some, hy]
    rfl
  exact ⟨_, hstep, Option.some.inj (hrunning.symm.trans hlink), rfl,
    Kernel.exit_spec hs.zeroPid hexit hy⟩

/-- The scan skips an entry that is free. -/
theorem scan_free {self : Fin MAX_PROCS} {status n i : ℕ} {resumed : Bool}
    (hmode : s.mode s.cur = .waiting self status i n resumed) (hi : i < MAX_PROCS)
    (hskip : (s.kernel.procTable ⟨i, hi⟩).state = .free ∨ ⟨i, hi⟩ = self) (cpu : TaskRegs) :
    s.step (.scan cpu) = some (s.setMode s.cur (.waiting self status (i + 1) n resumed), .quiet) := by
  simp only [step, hmode, stepScan, dif_pos hi, Kernel.waitSlot,
    if_pos (hskip.imp_right Or.inr)]
  rfl

/-- The scan reaps a zombie of the caller. -/
theorem scan_zombie {self : Fin MAX_PROCS} {n i : ℕ} {resumed : Bool}
    (hmode : s.mode s.cur = .waiting self 0 i n resumed) (hi : i < MAX_PROCS)
    (hstate : (s.kernel.procTable ⟨i, hi⟩).state = .zombie)
    (hppid : (s.kernel.procTable ⟨i, hi⟩).ppid = (s.kernel.procTable self).pid)
    (hself : ⟨i, hi⟩ ≠ self) (cpu : TaskRegs) :
    s.step (.scan cpu) = some ((s.withKernel (s.kernel.modifyProc ⟨i, hi⟩ fun c ↦
      { c with state := .free, kernelStack := 0 })).setMode s.cur .user,
      .reaped (s.kernel.procTable self).pid (s.kernel.procTable ⟨i, hi⟩).pid
        (s.kernel.procTable ⟨i, hi⟩).exitCode) := by
  simp [step, hmode, stepScan, hi, Kernel.waitSlot, hstate, hppid, hself, Kernel.withMachine]

end System

namespace Sample

open EclipseOS.System Machine

/-! ## A run -/

/-- Process 0 forks, the child has its turn and exits, and process 0 waits for it. -/
def life : List (Op × Obs) :=
  [(.fork registers, .forked 0 1), (.tick .zero, .quiet), (.exit 7 .zero, .exited 1 7),
    (.wait 0, .quiet), (.scan .zero, .quiet), (.scan .zero, .reaped 0 1 7)]

/-- The entries after the fork. -/
theorem forked_procTable {a : ℕ} {m : Machine} {s : System}
    (hk : s.kernel = (System.boot pageless 0 0x401000).kernel.withChild 0 1 (a * PAGE_SIZE) 0xC0001000
      ((System.boot pageless 0 0x401000).kernel.heap.kmallocAligned KSTACK_SIZE).2 m) :
    (s.kernel.procTable 0).pid = 0 ∧ (s.kernel.procTable 1).pid = 1 ∧
      (s.kernel.procTable 1).ppid = 0 ∧ (s.kernel.procTable 1).state = .run ∧
      (s.kernel.procTable 1).pageDir = a * PAGE_SIZE ∧
      (∀ i, i ≠ 0 → i ≠ 1 → (s.kernel.procTable i).state = .free) ∧
      s.kernel.kernelDir = 4096 ∧ s.kernel.createdCount = 0 ∧ s.kernel.machine = m := by
  have hdir : pageless.machine.pagingCurrentDirectory = 4096 := by decide +kernel
  rw [hk, System.boot, boot_kernel, hdir]
  refine ⟨?_, ?_, ?_, ?_, ?_, fun i h0 h1 ↦ ?_, ?_, ?_, ?_⟩
  case refine_6 =>
    rw [Kernel.withChild_procTable, if_neg h1]
    simp [h0, Process.zero]
  all_goals simp [Kernel.withChild_procTable, Kernel.childEntry, Kernel.forkedEntry,
    Kernel.freshEntry, Kernel.withFresh, bootEntry, Process.zero]

/-- The child is running, in a space of its own. -/
structure ChildTurn (s : System) (a : ℕ) (m : Machine) (S : Set ℕ) : Prop where
  run : Run (System.boot pageless 0 0x401000) (life.take 2) s
  cur : s.cur = .proc 1
  parentMode : s.mode .main = .user
  mode : s.mode (.proc 1) = .user
  next : s.kernel.next (.proc 1) = some .main
  zero : (s.kernel.procTable 0).pid = 0
  pid : (s.kernel.procTable 1).pid = 1
  ppid : (s.kernel.procTable 1).ppid = 0
  state : (s.kernel.procTable 1).state = .run
  free : ∀ i, i ≠ 0 → i ≠ 1 → (s.kernel.procTable i).state = .free
  createdCount : s.kernel.createdCount = 0
  parentEbp : (s.kernel.task .main).regs.ebp = 0
  pageDir : (s.kernel.procTable 1).pageDir = a * PAGE_SIZE
  kernelDir : s.kernel.kernelDir = 4096
  switched : s.kernel.machine.pagingSwitchDirectory 4096 = m
  frame : a ≠ 1
  dir : m.dir = 1
  ledger : m.Ledger 1 {a, 1} S

theorem pageless_turn : ∃ s a m S, ChildTurn s a m S := by
  obtain ⟨a, m, S, s₁, hfork, hk, -, ha1, hcr3, hled, hmain, hchild⟩ := pageless_forked
  obtain ⟨hcur, hnext, hback⟩ := pageless_links hk
  obtain ⟨hpid0, hpid, hppid, hstate, hdir, hfree, hkdir, hcount, hmachine⟩ := forked_procTable hk
  have hrun₁ : Run (System.boot pageless 0 0x401000) (life.take 1) s₁ := Run.start.step hfork
  obtain ⟨s₂, htick, hcur₂, hmode₂, hyield⟩ := tick_user (step_sched (boot_sched _ _ _) hfork)
    (hcur ▸ hmain) (hcur ▸ hnext) .zero
  have hy := Kernel.yield_spec hyield
  have hrunning : s₁.kernel.runningTask = .main := hcur
  have hrunning₂ : s₂.kernel.runningTask = .proc 1 := hcur₂
  have hcontext := (Kernel.yield_context hyield (by rw [hrunning, hrunning₂]; simp)).2.1
  rw [hrunning] at hcontext
  obtain ⟨cr3, hmachine₂⟩ := hy.machine
  exact ⟨s₂, a, m, S, {
    run := hrun₁.step htick
    cur := hcur₂
    parentMode := by rw [hmode₂, hmain]
    mode := by rw [hmode₂, hchild]
    next := by rw [hy.next, hback]
    zero := by rw [hy.procTable, hpid0]
    pid := by rw [hy.procTable, hpid]
    ppid := by rw [hy.procTable, hppid]
    state := by rw [hy.procTable, hstate]
    free := fun i h0 h1 ↦ by rw [hy.procTable, hfree i h0 h1]
    createdCount := by rw [hy.createdCount, hcount]
    parentEbp := by
      rw [hcontext]
      rfl
    pageDir := by rw [hy.procTable, hdir]
    kernelDir := by rw [hy.kernelDir, hkdir]
    switched := by rw [hmachine₂, hmachine, pagingSwitchDirectory, ← hcr3]
    frame := ha1
    dir := by rw [Machine.dir, hcr3]
    ledger := hled }⟩

section

variable {s : System} {a : ℕ} {m : Machine} {S : Set ℕ}

theorem ChildTurn.current (h : ChildTurn s a m S) : s.kernel.processCurrent = 1 :=
  Kernel.processCurrent_proc h.cur (by rw [h.state]; exact ProcState.noConfusion)

theorem ChildTurn.sched (h : ChildTurn s a m S) : s.kernel.Sched :=
  h.run.invariant (P := fun s ↦ s.kernel.Sched) (boot_sched _ _ _)
    fun _ _ _ _ h hs ↦ step_sched h hs

/-- The child can give up its space. -/
theorem ChildTurn.space (h : ChildTurn s a m S) : ∃ m',
    Kernel.exitSpace s.kernel.machine s.kernel.kernelDir
      (s.kernel.procTable s.kernel.processCurrent).pageDir = some m' := by
  obtain ⟨m', -, hfree, -⟩ := h.ledger.pagingFreeDirectory (D := a) (by simp)
    (by rw [h.dir]; exact h.frame) h.frame
  have hne : a * PAGE_SIZE ≠ 4096 := by
    have hframe := h.frame
    rw [PAGE_SIZE]
    omega
  exact ⟨m', by rw [Kernel.exitSpace, h.kernelDir, h.current, h.pageDir, if_pos hne, h.switched,
    hfree]⟩

/-- The child exits, and process 0 goes on. -/
theorem ChildTurn.exited (h : ChildTurn s a m S) : ∃ s',
    Run (System.boot pageless 0 0x401000) (life.take 3) s' ∧ s'.cur = .main ∧
    s'.mode .main = .user ∧ (s'.kernel.procTable 0).pid = 0 ∧ (s'.kernel.procTable 1).pid = 1 ∧
    (s'.kernel.procTable 1).ppid = 0 ∧ (s'.kernel.procTable 1).state = .zombie ∧
    (s'.kernel.procTable 1).exitCode = 7 := by
  obtain ⟨m', hspace⟩ := h.space
  have hpid : s.pid = 1 := by rw [System.pid, h.current, h.pid]
  obtain ⟨s', hexit, hcur, hmode, m₁, hexited⟩ := exit_turn h.sched (h.cur ▸ h.mode)
    (by rw [hpid]; norm_num) hspace (h.cur ▸ h.next) 7 .zero
  rw [hpid] at hexit
  have hproc : ∀ i, s'.kernel.procTable i = _ := hexited.procTable
  simp only [h.current, Kernel.withExited, h.pid] at hproc
  refine ⟨s', h.run.step hexit, hcur, ?_, ?_, ?_, ?_, ?_, ?_⟩
  · rw [hmode, h.cur]
    simpa using h.parentMode
  · simp [hproc 0, h.zero]
  all_goals simp [hproc 1, Kernel.exitedEntry, Kernel.orphaned_ppid, h.pid, h.ppid, h.state]

end

/-- The whole of it. -/
theorem pageless_life : ∃ s, Run (System.boot pageless 0 0x401000) life s ∧
    (s.kernel.procTable 1).state = .free := by
  obtain ⟨s₂, a, m, S, hturn⟩ := pageless_turn
  obtain ⟨s₃, hrun₃, hcur, hmode, hzero, hpid, hppid, hstate, hcode⟩ := hturn.exited
  have hself : s₃.kernel.processCurrent = 0 := Kernel.processCurrent_main hcur
  -- the scan skips the entry of process 0 itself
  set s₄ := s₃.trap.setMode .main (.waiting 0 0 0 0 false) with hs₄
  have hwait : s₃.step (.wait 0) = some (s₄, .quiet) := by
    simp only [step, hcur, hmode, if_true, stepWait, Kernel.sysWaitOk, hself]
    rfl
  have hcur₄ : s₄.cur = .main := hcur
  set s₅ := s₄.setMode .main (.waiting 0 0 1 0 false) with hs₅
  have hcur₅ : s₅.cur = .main := hcur
  have hskip : s₄.step (.scan .zero) = some (s₅, .quiet) := by
    rw [hs₅, ← hcur₄]
    exact scan_free (by rw [hcur₄, hs₄]; simp [setMode]) (by decide) (Or.inr rfl) .zero
  have hrun₅ : Run (System.boot pageless 0 0x401000) (life.take 5) s₅ := (hrun₃.step hwait).step hskip
  have hmode₅ : s₅.mode s₅.cur = .waiting 0 0 1 0 false := by
    rw [hcur₅, hs₅]
    simp [setMode]
  have hreap := scan_zombie hmode₅ (by decide) hstate (hppid.trans hzero.symm) (by decide) .zero
  have hobs : Obs.reaped (s₅.kernel.procTable 0).pid (s₅.kernel.procTable 1).pid
      (s₅.kernel.procTable 1).exitCode = .reaped 0 1 7 := by
    rw [show s₅.kernel = s₃.kernel from rfl, hzero, hpid, hcode]
  exact ⟨_, hobs ▸ hrun₅.step hreap, by simp [setMode, withKernel]⟩

end Sample

namespace System

variable {s : System}

/-- In every reachable state the tasks of the running processes, `main_task`
and the created tasks form one ring, and as many yields as it has members make
each of them running once and end where they began. -/
theorem scheduler_ring {k : Kernel} {size brk : ℕ} {tr : List (Op × Obs)}
    (hrun : Run (boot k size brk) tr s) :
    ∃ c, s.kernel.SchedRing c ∧
      (∀ i, (s.kernel.procTable i).state ≠ .run → .proc i ∉ c) ∧
      ∀ cpus : List TaskRegs, cpus.length = c.length → ∃ ts k',
        s.kernel.yields cpus = some (ts, k') ∧ ts.Perm c ∧
        k'.runningTask = s.kernel.runningTask := by
  have hsched : s.kernel.Sched :=
    hrun.invariant (P := fun s ↦ s.kernel.Sched) (boot_sched k size brk)
      fun _ _ _ _ h hs ↦ step_sched h hs
  obtain ⟨c, hc⟩ := hsched.ring
  refine ⟨c, hc, fun i hi hin ↦ hi ((hc.2.2 _).mp hin).2, fun cpus hlen ↦ ?_⟩
  obtain ⟨k', hyields, hc'⟩ := hc.yields hlen.le
  refine ⟨_, k', hyields, ?_, ?_⟩
  · rw [hlen, List.take_of_length_le (by simp)]
    exact List.rotate_perm c 1
  · rw [hlen, List.rotate_length] at hc'
    have h₁ := hc'.1
    have h₂ := hc.1
    rw [h₁] at h₂
    exact Option.some.inj h₂

/-- The child is in the ring until it exits. -/
theorem scheduler_ring_sample : ∃ s₁ s₂ c₁ c₂,
    Run (boot Sample.pageless 0 0x401000) (Sample.life.take 2) s₁ ∧
    Run (boot Sample.pageless 0 0x401000) Sample.life s₂ ∧
    s₁.kernel.SchedRing c₁ ∧ .main ∈ c₁ ∧ .proc 1 ∈ c₁ ∧
    s₂.kernel.SchedRing c₂ ∧ .main ∈ c₂ ∧ .proc 1 ∉ c₂ ∧
    ∀ cpus : List TaskRegs, cpus.length = c₁.length → ∃ ts k',
      s₁.kernel.yields cpus = some (ts, k') ∧ ts.Perm c₁ ∧
      k'.runningTask = s₁.kernel.runningTask := by
  obtain ⟨s₁, a, m, S, hturn⟩ := Sample.pageless_turn
  obtain ⟨s₂, hrun₂, hstate₂⟩ := Sample.pageless_life
  obtain ⟨c₁, hc₁, -, hyields⟩ := scheduler_ring hturn.run
  obtain ⟨c₂, hc₂, hgone, -⟩ := scheduler_ring hrun₂
  refine ⟨s₁, s₂, c₁, c₂, hturn.run, hrun₂, hc₁, (hc₁.2.2 _).mpr trivial, (hc₁.2.2 _).mpr ?_, hc₂,
    (hc₂.2.2 _).mpr trivial, hgone 1 ?_, hyields⟩
  · exact ⟨by decide, hturn.state⟩
  · rw [hstate₂]
    exact ProcState.noConfusion

/-- Pids in use are distinct and every parent runs; a pid exits and is reaped at
most once, by the parent it has at that moment and with the status it passed to
exit; and a wait returns `-ECHILD` exactly if the scan ends on a table without
a child of the caller. -/
theorem process_tree {k : Kernel} {size brk : ℕ} {tr : List (Op × Obs)}
    (hrun : Run (boot k size brk) tr s) (hn : creations tr < 2 ^ 31) :
    (∀ i j, (s.kernel.procTable i).state ≠ .free → (s.kernel.procTable j).state ≠ .free →
      (s.kernel.procTable i).pid = (s.kernel.procTable j).pid → i = j) ∧
    (∀ i, (s.kernel.procTable i).state ≠ .free → (s.kernel.procTable i).pid ≠ 0 →
      ∃ j, (s.kernel.procTable j).state = .run ∧
        (s.kernel.procTable j).pid = (s.kernel.procTable i).ppid) ∧
    (∀ c, (tr.countP fun x ↦ x.2.reaps c) ≤ 1) ∧
    (∀ p : ℤ, p ≠ 0 → (tr.countP fun x ↦ x.2.exits p) ≤ 1) ∧
    (∀ q c status : ℤ, .reaped q c status ∈ tr.map Prod.snd →
      .exited c status ∈ tr.map Prod.snd ∧ ∃ p, .forked p c ∈ tr.map Prod.snd ∧
        (q = p ∨ q = 0 ∧ ∃ code, .exited p code ∈ tr.map Prod.snd)) ∧
    (∀ op obs s', s.step op = some (s', obs) →
      (∀ q c status : ℤ, obs = .reaped q c status →
        q = s.pid ∧ .exited c status ∈ tr.map Prod.snd ∧ ∃ i self st j n resumed,
          (s.kernel.procTable i).state = .zombie ∧ (s.kernel.procTable i).pid = c ∧
          (s.kernel.procTable i).ppid = q ∧ s.mode s.cur = .waiting self st j n resumed ∧
          (if st ≠ 0 then s.kernel.machine.store32 st (status % 2 ^ 32).toNat
            else some s.kernel.machine) = some s'.kernel.machine) ∧
      (∀ q, obs = .noChild q →
        q = s.pid ∧ ∀ c, ¬ s.kernel.Child s.kernel.processCurrent c)) ∧
    (∀ cpu self st i n resumed, s.mode s.cur = .waiting self st i n resumed → ¬ i < MAX_PROCS →
      (∀ c, ¬ s.kernel.Child s.kernel.processCurrent c) →
      s.step (.scan cpu) = some (s.setMode s.cur .user, .noChild s.pid)) := by
  have h := hrun.orderly hn
  refine ⟨h.family.distinct, fun i hi hpid ↦ ?_, fun c ↦ ?_, fun p hp ↦ ?_, fun q c status hr ↦ ?_,
    fun op obs s' hstep ↦ ⟨fun q c status hobs ↦ h.step_reaped hstep hobs,
      fun q hobs ↦ h.step_noChild hstep hobs⟩,
    fun cpu self st i n resumed hmode hi hnone ↦ h.scan_end hmode hi hnone cpu⟩
  · exact h.family.parent i (fun h0 ↦ hpid (h0 ▸ h.sched.zeroPid)) hi
  · have := h.history.reapOnce c
    rwa [List.countP_map] at this
  · have := h.history.exitOnce p hp
    rwa [List.countP_map] at this
  · obtain ⟨-, hexit, -, -, hlineage⟩ := h.history.reaped q c status hr
    exact ⟨hexit, hlineage⟩

/-- Process 0 reaps its child. -/
theorem process_tree_sample : ∃ s, Run (boot Sample.pageless 0 0x401000) Sample.life s ∧
    .reaped 0 1 7 ∈ Sample.life.map Prod.snd ∧
    (∀ c, (Sample.life.countP fun x ↦ x.2.reaps c) ≤ 1) ∧
    (∀ p : ℤ, p ≠ 0 → (Sample.life.countP fun x ↦ x.2.exits p) ≤ 1) ∧
    (∀ q c status : ℤ, .reaped q c status ∈ Sample.life.map Prod.snd →
      .exited c status ∈ Sample.life.map Prod.snd ∧ ∃ p, .forked p c ∈ Sample.life.map Prod.snd ∧
        (q = p ∨ q = 0 ∧ ∃ code, .exited p code ∈ Sample.life.map Prod.snd)) := by
  obtain ⟨s, hrun, -⟩ := Sample.pageless_life
  obtain ⟨-, -, hreap, hexit, hlineage, -⟩ := process_tree hrun (by decide)
  exact ⟨s, hrun, by decide, hreap, hexit, hlineage⟩

end System

end EclipseOS
