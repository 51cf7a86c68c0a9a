import EclipseOS.ForkCases
import EclipseOS.System

/-!
# The steps of a system, case by case

`StepCase` lists what a step can be, with the call it makes and the state it
leads to.  Invariants are proved by cases on it.
-/

namespace EclipseOS

namespace System

/-! ## The initial state -/

section Boot

variable (k : Kernel) (size brk : ℕ)

/-- Stack top of process 0. -/
def bootStack : ℕ := ((k.heap.kmallocAligned KSTACK_SIZE).1 + KSTACK_SIZE) % 2 ^ 32

/-- The entry of process 0. -/
def bootEntry : Process :=
  let b := (brk + 0xFFF) % 2 ^ 32 &&& PAGE_MASK
  { Process.zero with
    state := .run
    pageDir := k.machine.pagingCurrentDirectory
    kernelStack := bootStack k
    brk := b
    brkMapped := b }

theorem boot_kernel : k.boot size brk = { k with
    nextPid := 1
    createdCount := 0
    mainTask := ⟨{ k.mainTask.regs with cr3 := k.machine.pagingCurrentDirectory }, some .main⟩
    runningTask := .main
    heap := ((k.heap.kmallocAligned KSTACK_SIZE).2.kmalloc size).2
    tssEsp0 := bootStack k
    kernelDir := k.machine.pagingCurrentDirectory
    fileTable := fun _ ↦ ⟨none, 0, 0⟩
    procTable := Function.update (fun _ ↦ .zero) 0 (bootEntry k brk) } := by
  have hcur : ∀ k : Kernel, k.runningTask = .main → k.processCurrent = 0 :=
    fun k ↦ Kernel.processCurrent_main
  simp only [Kernel.boot, Kernel.taskingInitialize, Kernel.processInitialize, Kernel.tssSetStack,
    Kernel.processSetBrk]
  rw [hcur _ rfl]
  simp [Kernel.modifyProc, bootEntry, bootStack]

end Boot

/-! ## Steps -/

inductive StepCase (s : System) : Op → Obs → System → Prop
  | forkNoSlot {regs r k} (hmode : s.mode s.cur = .user)
      (hk : s.kernel.processFork regs = some (r, k)) (hslot : s.kernel.freeSlot = none) :
      StepCase s (.fork regs) (.forked s.pid r) (s.trap.withKernel k)
  | fork {regs r k c} (hmode : s.mode s.cur = .user)
      (hk : s.kernel.processFork regs = some (r, k)) (hslot : s.kernel.freeSlot = some c) :
      StepCase s (.fork regs) (.forked s.pid r)
        ((s.trap.withKernel k).adoptChild s.kernel.processCurrent c)
  | execError {path e k} (hmode : s.mode s.cur = .user)
      (hk : s.kernel.sysExecve path = some (.error e, k)) :
      StepCase s (.execve path) (.returned e) (s.trap.withKernel k)
  | exec {path entry stack k} (hmode : s.mode s.cur = .user)
      (hk : s.kernel.sysExecve path = some (.user entry stack, k)) :
      StepCase s (.execve path) .quiet (s.trap.withKernel k)
  | halt {code cpu k} (hmode : s.mode s.cur = .user)
      (hk : s.kernel.processExit code.toInt = some (.halted, k)) :
      StepCase s (.exit code cpu) (.exited s.pid code.toInt)
        ((s.trap.withKernel k).setMode s.cur .halted)
  | exit {code cpu k k'} (hmode : s.mode s.cur = .user)
      (hk : s.kernel.processExit code.toInt = some (.leaving, k)) (hy : k.yield cpu = some k') :
      StepCase s (.exit code cpu) (.exited s.pid code.toInt)
        { (s.trap.withKernel k').setMode s.cur .exited with
          opened := Function.update s.opened s.kernel.processCurrent fun _ ↦ none }
  | waitFault {status} (hmode : s.mode s.cur = .user)
      (hk : s.kernel.sysWaitOk status = some false) :
      StepCase s (.wait status) (.returned (-EFAULT)) s.trap
  | wait {status} (hmode : s.mode s.cur = .user) (hk : s.kernel.sysWaitOk status = some true) :
      StepCase s (.wait status) .quiet
        (s.trap.setMode s.cur (.waiting s.kernel.processCurrent status 0 0 false))
  | scanNext {cpu self status i n resumed n' k}
      (hmode : s.mode s.cur = .waiting self status i n resumed) (hi : i < MAX_PROCS)
      (hk : s.kernel.waitSlot self status n ⟨i, hi⟩ = some (.next n', k)) :
      StepCase s (.scan cpu) .quiet
        ((s.withKernel k).setMode s.cur (.waiting self status (i + 1) n' resumed))
  | reap {cpu self status i n resumed child k}
      (hmode : s.mode s.cur = .waiting self status i n resumed) (hi : i < MAX_PROCS)
      (hk : s.kernel.waitSlot self status n ⟨i, hi⟩ = some (.reaped child, k)) :
      StepCase s (.scan cpu)
        (.reaped (s.kernel.procTable self).pid child (s.kernel.procTable ⟨i, hi⟩).exitCode)
        ((s.withKernel k).setMode s.cur .user)
  | noChild {cpu self status i resumed}
      (hmode : s.mode s.cur = .waiting self status i 0 resumed) (hi : ¬ i < MAX_PROCS) :
      StepCase s (.scan cpu) (.noChild (s.kernel.procTable self).pid) (s.setMode s.cur .user)
  | block {cpu self status i n resumed k}
      (hmode : s.mode s.cur = .waiting self status i n resumed) (hi : ¬ i < MAX_PROCS)
      (hn : n ≠ 0) (hy : s.kernel.yield cpu = some k) :
      StepCase s (.scan cpu) .quiet
        ((s.setMode s.cur (.waiting self status 0 0 true)).withKernel k)
  | tickUser {cpu k} (hmode : s.mode s.cur = .user) (hy : s.kernel.yield cpu = some k) :
      StepCase s (.tick cpu) .quiet (s.trap.withKernel k)
  | tickKernel {cpu k}
      (hmode : (∃ self status i n, s.mode s.cur = .waiting self status i n true) ∨
        s.mode s.cur = .halted ∨ s.mode s.cur = .kernel)
      (hy : s.kernel.yield cpu = some k) :
      StepCase s (.tick cpu) .quiet (s.withKernel k)
  | taskCreate {main flags k} (hk : s.kernel.taskCreate main flags = some k) :
      StepCase s (.taskCreate main flags) .quiet
        ((s.withKernel k).setMode (.created s.kernel.createdCount) .kernel)
  | sbrk {increment r k} (hmode : s.mode s.cur = .user)
      (hk : s.kernel.sysSbrk increment = some (r, k)) :
      StepCase s (.sbrk increment) (.returned r) (s.trap.withKernel k)
  | openFile {path r k} (hmode : s.mode s.cur = .user)
      (hk : s.kernel.sysOpen path = some (r, k)) :
      StepCase s (.openFile path) (.returned r) ((s.trap.recordOpen s.kernel.processCurrent
        ((s.kernel.machine.readString path PATH_MAX).bind s.kernel.vfsFinddir) r).withKernel k)
  | closeFile {fd} (hmode : s.mode s.cur = .user) :
      StepCase s (.closeFile fd) (.returned (s.kernel.sysClose fd).1) (s.stepClose fd).1
  | readFile {fd buf len r k} (hmode : s.mode s.cur = .user)
      (hk : s.kernel.sysRead fd buf len = some (r, k)) :
      StepCase s (.readFile fd buf len) (.returned r) (s.trap.withKernel k)
  | store {va b m} (hmode : s.mode s.cur = .user) (hk : s.kernel.machine.store8 va b = some m) :
      StepCase s (.store va b) .quiet (s.withKernel (s.kernel.withMachine m))

variable {s s' : System} {op : Op} {obs : Obs}

theorem stepFork_case {regs : Registers} (hmode : s.mode s.cur = .user)
    (h : s.stepFork regs = some (s', obs)) : StepCase s (.fork regs) obs s' := by
  simp only [stepFork, Option.bind_eq_bind, Option.bind_eq_some_iff] at h
  obtain ⟨⟨r, k⟩, hk, h⟩ := h
  cases hslot : s.kernel.freeSlot with
  | none =>
      simp [hslot] at h
      obtain ⟨rfl, rfl⟩ := h
      exact .forkNoSlot hmode hk hslot
  | some c =>
      simp [hslot] at h
      obtain ⟨rfl, rfl⟩ := h
      exact .fork hmode hk hslot

theorem stepExecve_case {path : ℕ} (hmode : s.mode s.cur = .user)
    (h : s.stepExecve path = some (s', obs)) : StepCase s (.execve path) obs s' := by
  simp only [stepExecve, Option.bind_eq_bind, Option.bind_eq_some_iff] at h
  obtain ⟨⟨o, k⟩, hk, h⟩ := h
  cases o with
  | error e =>
      simp at h
      obtain ⟨rfl, rfl⟩ := h
      exact .execError hmode hk
  | user entry stack =>
      simp at h
      obtain ⟨rfl, rfl⟩ := h
      exact .exec hmode hk

theorem stepExit_case {code : BitVec 32} {cpu : TaskRegs} (hmode : s.mode s.cur = .user)
    (h : s.stepExit code cpu = some (s', obs)) : StepCase s (.exit code cpu) obs s' := by
  simp only [stepExit, Option.bind_eq_bind, Option.bind_eq_some_iff] at h
  obtain ⟨⟨o, k⟩, hk, h⟩ := h
  cases o with
  | halted =>
      simp at h
      obtain ⟨rfl, rfl⟩ := h
      exact .halt hmode hk
  | leaving =>
      simp only [Option.bind_eq_some_iff] at h
      obtain ⟨k', hy, h⟩ := h
      simp at h
      obtain ⟨rfl, rfl⟩ := h
      exact .exit hmode hk hy

theorem stepWait_case {status : ℕ} (hmode : s.mode s.cur = .user)
    (h : s.stepWait status = some (s', obs)) : StepCase s (.wait status) obs s' := by
  simp only [stepWait, Option.bind_eq_bind, Option.bind_eq_some_iff] at h
  obtain ⟨ok, hk, h⟩ := h
  cases ok with
  | false =>
      simp at h
      obtain ⟨rfl, rfl⟩ := h
      exact .waitFault hmode hk
  | true =>
      simp at h
      obtain ⟨rfl, rfl⟩ := h
      exact .wait hmode hk

theorem stepScan_case {self : Fin MAX_PROCS} {status i n : ℕ} {resumed : Bool} {cpu : TaskRegs}
    (hmode : s.mode s.cur = .waiting self status i n resumed)
    (h : s.stepScan self status i n resumed cpu = some (s', obs)) :
    StepCase s (.scan cpu) obs s' := by
  simp only [stepScan] at h
  split at h
  · next hi =>
      simp only [Option.bind_eq_bind, Option.bind_eq_some_iff] at h
      obtain ⟨⟨w, k⟩, hk, h⟩ := h
      cases w with
      | next n' =>
          simp at h
          obtain ⟨rfl, rfl⟩ := h
          exact .scanNext hmode hi hk
      | reaped child =>
          simp at h
          obtain ⟨rfl, rfl⟩ := h
          exact .reap hmode hi hk
  · next hi =>
      by_cases hn : n = 0
      · subst hn
        simp at h
        obtain ⟨rfl, rfl⟩ := h
        exact .noChild hmode hi
      · simp only [if_neg hn, Option.bind_eq_bind, Option.bind_eq_some_iff] at h
        obtain ⟨k, hy, h⟩ := h
        simp at h
        obtain ⟨rfl, rfl⟩ := h
        exact .block hmode hi hn hy

theorem stepTick_case {cpu : TaskRegs} (h : s.step (.tick cpu) = some (s', obs)) :
    StepCase s (.tick cpu) obs s' := by
  simp only [step, Option.bind_eq_bind, Option.bind_eq_some_iff] at h
  obtain ⟨k, hy, h⟩ := h
  cases hmode : s.mode s.cur with
  | user =>
      simp [hmode] at h
      obtain ⟨rfl, rfl⟩ := h
      exact .tickUser hmode hy
  | waiting self status i n resumed =>
      cases resumed <;> simp [hmode] at h
      obtain ⟨rfl, rfl⟩ := h
      exact .tickKernel (Or.inl ⟨self, status, i, n, hmode⟩) hy
  | halted =>
      simp [hmode] at h
      obtain ⟨rfl, rfl⟩ := h
      exact .tickKernel (Or.inr (Or.inl hmode)) hy
  | exited => simp [hmode] at h
  | kernel =>
      simp [hmode] at h
      obtain ⟨rfl, rfl⟩ := h
      exact .tickKernel (Or.inr (Or.inr hmode)) hy

/-- The system calls start in user mode. -/
theorem stepUser_case (hmode : s.mode s.cur = .user) (h : s.step op = some (s', obs))
    (htick : ∀ cpu, op ≠ .tick cpu) (hscan : ∀ cpu, op ≠ .scan cpu)
    (hcreate : ∀ main flags, op ≠ .taskCreate main flags) : StepCase s op obs s' := by
  cases op with
  | tick cpu => exact absurd rfl (htick cpu)
  | scan cpu => exact absurd rfl (hscan cpu)
  | taskCreate main flags => exact absurd rfl (hcreate main flags)
  | fork regs => exact stepFork_case hmode (by simpa [step, hmode] using h)
  | execve path => exact stepExecve_case hmode (by simpa [step, hmode] using h)
  | exit code cpu => exact stepExit_case hmode (by simpa [step, hmode] using h)
  | wait status => exact stepWait_case hmode (by simpa [step, hmode] using h)
  | sbrk increment =>
      simp [step, hmode, Option.bind_eq_some_iff] at h
      obtain ⟨r, k, hk, rfl, rfl⟩ := h
      exact .sbrk hmode hk
  | openFile path =>
      simp [step, hmode, stepOpen, Option.bind_eq_some_iff] at h
      obtain ⟨r, k, hk, rfl, rfl⟩ := h
      exact .openFile hmode hk
  | closeFile fd =>
      simp only [step, hmode, if_true, Option.some.injEq] at h
      have hs : (s.stepClose fd).1 = s' := congrArg Prod.fst h
      have hobs : Obs.returned (s.kernel.sysClose fd).1 = obs := congrArg Prod.snd h
      subst hs hobs
      exact .closeFile hmode
  | readFile fd buf len =>
      simp [step, hmode, Option.bind_eq_some_iff] at h
      obtain ⟨r, k, hk, rfl, rfl⟩ := h
      exact .readFile hmode hk
  | store va b =>
      simp only [step, hmode, if_true, userStore, Option.map_eq_some_iff] at h
      obtain ⟨s₁, hs₁, h⟩ := h
      split at hs₁
      case isFalse => exact nomatch hs₁
      case isTrue =>
        simp [Option.bind_eq_some_iff] at hs₁ h
        obtain ⟨m, hm, rfl⟩ := hs₁
        obtain ⟨rfl, rfl⟩ := h
        exact .store hmode hm

theorem step_case (h : s.step op = some (s', obs)) : StepCase s op obs s' := by
  cases op with
  | tick cpu => exact stepTick_case h
  | scan cpu =>
      simp only [step] at h
      split at h
      · exact stepScan_case ‹_› h
      · exact nomatch h
  | taskCreate main flags =>
      simp only [step, Option.bind_eq_bind, Option.bind_eq_some_iff] at h
      obtain ⟨k, hk, h⟩ := h
      simp at h
      obtain ⟨rfl, rfl⟩ := h
      exact .taskCreate hk
  | _ =>
      by_cases hmode : s.mode s.cur = .user
      · exact stepUser_case hmode h nofun nofun nofun
      · simp [step, hmode] at h

/-- What every step keeps holds along every run. -/
theorem Run.invariant {P : System → Prop} {s₀ : System} {tr : List (Op × Obs)}
    (hrun : Run s₀ tr s) (hstart : P s₀)
    (hstep : ∀ s op obs s', P s → s.step op = some (s', obs) → P s') : P s := by
  induction hrun with
  | start => exact hstart
  | step _ hs ih => exact hstep _ _ _ _ ih hs

theorem Run.replay {s₀ : System} {tr : List (Op × Obs)} (hrun : Run s₀ tr s) {ops : List Op}
    {x : List (Op × Obs) × System} (h : s.replay ops = some x) : Run s₀ (tr ++ x.1) x.2 := by
  induction ops generalizing s tr x with
  | nil =>
      simp only [System.replay, Option.some.injEq] at h
      simpa [← h] using hrun
  | cons op ops ih =>
      simp only [System.replay, Option.bind_eq_bind, Option.bind_eq_some_iff] at h
      obtain ⟨⟨s₁, obs⟩, hstep, ⟨tr₁, s₂⟩, hrest, h⟩ := h
      simp only [Option.pure_def, Option.some.injEq] at h
      have := ih (hrun.step hstep) hrest
      rw [List.append_assoc] at this
      simpa [← h] using this

/-- A script that can be played is a run. -/
theorem run_replay {s : System} {ops : List Op} {x : List (Op × Obs) × System}
    (h : s.replay ops = some x) : Run s x.1 x.2 := Run.start.replay h

end System

end EclipseOS
