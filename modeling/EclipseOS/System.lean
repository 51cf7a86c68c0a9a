import EclipseOS.Syscall

/-!
# The running system

What the kernel's statics leave out is where each context stands: in user
mode, inside the scan of `process_wait`, in the halt loop of process 0.  A
`System` adds that control state, one `Mode` for each task, and `step` makes
the running context take one step.  Kernel entries run with the interrupt flag
clear and are one step.  Two are not: the scan of `process_wait` is preemptible
once its first `yield` has returned, so it steps slot by slot, and the `yield`
of such a scan and that of `process_exit` can be interrupted themselves.  The
runs here are those in which no timer interrupt falls into a `yield`; `Moment`
has the others.
-/

namespace EclipseOS

/-- Where a context continues when its task runs. -/
inductive Mode
  | user
  | waiting (self : Fin MAX_PROCS) (status i children : ℕ) (resumed : Bool)
  | halted
  | exited
  | kernel
  deriving DecidableEq

/-- `trapTop` and `opened` are history variables: the stack top at which the
last trap frame of a task was pushed, and the file a descriptor was opened on. -/
structure System where
  kernel : Kernel
  mode : TaskRef → Mode
  trapTop : TaskRef → ℕ
  opened : Fin MAX_PROCS → Fin MAX_FDS → Option ℕ

/-- Steps of the running context.  `cpu` holds the processor registers at a
call of `switch_task`. -/
inductive Op
  | fork (regs : Registers)
  | execve (path : ℕ)
  | exit (code : BitVec 32) (cpu : TaskRegs)
  | wait (status : ℕ)
  | scan (cpu : TaskRegs)
  | tick (cpu : TaskRegs)
  | taskCreate (main flags : ℕ)
  | sbrk (increment : BitVec 32)
  | openFile (path : ℕ)
  | closeFile (fd : ℕ)
  | readFile (fd buf len : ℕ)
  | store (va : ℕ) (b : UInt8)

/-- What a step shows: the calls that concern the process tree carry the pid
of the caller. -/
inductive Obs
  | quiet
  | returned (result : ℤ)
  | forked (pid result : ℤ)
  | exited (pid code : ℤ)
  | reaped (pid child status : ℤ)
  | noChild (pid : ℤ)
  deriving DecidableEq

/-- The statics of the kernel image at the start of `kernel_main`, over a given
memory: `.bss` is zero. -/
def Kernel.bss (m : Machine) (heap : Kheap) (files : List FsNode) : Kernel where
  machine := m
  heap := heap
  procTable := fun _ ↦ .zero
  fileTable := fun _ ↦ ⟨none, 0, 0⟩
  nextPid := 1
  kernelDir := 0
  mainTask := .zero
  createdTasks := fun _ ↦ .zero
  createdCount := 0
  runningTask := .main
  tssEsp0 := 0
  haltStackTop := 0x204000
  forkTrampoline := 0x101000
  files := files
  execBuf := fun _ ↦ 0

/-- The kernel at the `sti` of `kernel_main`. -/
def Kernel.interruptsOn (k : Kernel) : Kernel :=
  let k := { k with nextPid := 1, createdCount := 0 }.taskingInitialize
  let (stack, heap) := k.heap.kmallocAligned KSTACK_SIZE
  let top := (stack + KSTACK_SIZE) % 2 ^ 32
  ({ k with heap := heap }.tssSetStack top).processInitialize top

/-- The kernel when `kernel_main` first enters user mode.  `k` holds the memory
as `load_program` and `map_user_stack` leave it, with a heap not yet used by
process 0; `size` is the length of the init program and `brk` its break. -/
def Kernel.boot (k : Kernel) (size brk : ℕ) : Kernel :=
  let k := { k with nextPid := 1, createdCount := 0 }.taskingInitialize
  let (stack, heap) := k.heap.kmallocAligned KSTACK_SIZE
  let top := (stack + KSTACK_SIZE) % 2 ^ 32
  let k := ({ k with heap := (heap.kmalloc size).2 }.tssSetStack top).processInitialize top
  k.processSetBrk brk

namespace System

def boot (k : Kernel) (size brk : ℕ) : System where
  kernel := k.boot size brk
  mode := fun _ ↦ .user
  trapTop := fun _ ↦ 0
  opened := fun _ _ ↦ none

variable (s : System)

def cur : TaskRef := s.kernel.runningTask

def pid : ℤ := (s.kernel.procTable s.kernel.processCurrent).pid

def setMode (r : TaskRef) (mode : Mode) : System :=
  { s with mode := Function.update s.mode r mode }

/-- Entry from user mode: the processor pushes the trap frame at `tss.esp0`. -/
def trap : System := { s with trapTop := Function.update s.trapTop s.cur s.kernel.tssEsp0 }

def withKernel (k : Kernel) : System := { s with kernel := k }

/-- Control state of the entry `c` after `process_fork`: its frame was built
at the top of its kernel stack, and its descriptors are the caller's. -/
def adoptChild (parent c : Fin MAX_PROCS) : System :=
  let p := s.kernel.procTable c
  { s with
    mode := Function.update s.mode (.proc c) .user
    trapTop := Function.update s.trapTop (.proc c) p.kernelStack
    opened := Function.update s.opened c fun i ↦ if (p.fds i).isSome then s.opened parent i else none }

def stepFork (regs : Registers) : Option (System × Obs) := do
  let (r, k) ← s.kernel.processFork regs
  let s' := s.trap.withKernel k
  let s' := match s.kernel.freeSlot with
    | some c => s'.adoptChild s.kernel.processCurrent c
    | none => s'
  return (s', .forked s.pid r)

def stepExecve (path : ℕ) : Option (System × Obs) := do
  match ← s.kernel.sysExecve path with
  | (.error e, k) => return (s.trap.withKernel k, .returned e)
  | (.user _ _, k) => return (s.trap.withKernel k, .quiet)

def stepExit (code : BitVec 32) (cpu : TaskRegs) : Option (System × Obs) := do
  let p := s.kernel.processCurrent
  match ← s.kernel.processExit code.toInt with
  | (.halted, k) => return ((s.trap.withKernel k).setMode s.cur .halted, .exited s.pid code.toInt)
  | (.leaving, k) =>
      let k ← k.yield cpu
      let s' := (s.trap.withKernel k).setMode s.cur .exited
      return ({ s' with opened := Function.update s'.opened p fun _ ↦ none },
        .exited s.pid code.toInt)

def stepWait (status : ℕ) : Option (System × Obs) := do
  if ← s.kernel.sysWaitOk status then
    return (s.trap.setMode s.cur (.waiting s.kernel.processCurrent status 0 0 false), .quiet)
  else return (s.trap, .returned (-EFAULT))

/-- One turn of the scan, or its end: `-ECHILD`, or `yield` and scan again. -/
def stepScan (self : Fin MAX_PROCS) (status i children : ℕ) (resumed : Bool) (cpu : TaskRegs) :
    Option (System × Obs) := do
  let me := (s.kernel.procTable self).pid
  if h : i < MAX_PROCS then
    match ← s.kernel.waitSlot self status children ⟨i, h⟩ with
    | (.next n, k) =>
        return ((s.withKernel k).setMode s.cur (.waiting self status (i + 1) n resumed), .quiet)
    | (.reaped child, k) =>
        return ((s.withKernel k).setMode s.cur .user,
          .reaped me child (s.kernel.procTable ⟨i, h⟩).exitCode)
  else if children = 0 then return (s.setMode s.cur .user, .noChild me)
  else
    let k ← s.kernel.yield cpu
    return ((s.setMode s.cur (.waiting self status 0 0 true)).withKernel k, .quiet)

/-- Descriptor `fd` of process `p` was opened on `node`; no descriptor has a
negative number. -/
def recordOpen (p : Fin MAX_PROCS) (node : Option ℕ) (fd : ℤ) : System :=
  { s with
    opened := Function.update s.opened p fun i ↦
      if (i.val : ℤ) = fd then node else s.opened p i }

def stepOpen (path : ℕ) : Option (System × Obs) := do
  let (r, k) ← s.kernel.sysOpen path
  let node := (s.kernel.machine.readString path PATH_MAX).bind s.kernel.vfsFinddir
  return ((s.trap.recordOpen s.kernel.processCurrent node r).withKernel k, .returned r)

def stepClose (fd : ℕ) : System × Obs :=
  let p := s.kernel.processCurrent
  let (r, k) := s.kernel.sysClose fd
  let opened := fun i : Fin MAX_FDS ↦ if i.val = fd then none else s.opened p i
  ({ s.trap with kernel := k, opened := Function.update s.opened p opened }, .returned r)

/-- A user-mode store: both levels must carry the user and the write bit. -/
def userStore (va : ℕ) (b : UInt8) : Option System := do
  let m := s.kernel.machine
  let pde := LittleEndian.word (m.mem (m.cr3 / 4096)) ((va >>> 22) &&& 0x3FF)
  let pte := LittleEndian.word (m.mem (pde / 4096)) ((va >>> 12) &&& 0x3FF)
  if m.userAccessible va ∧ pde &&& PAGE_WRITE ≠ 0 ∧ pte &&& PAGE_WRITE ≠ 0 then
    let m ← m.store8 va b
    return s.withKernel (s.kernel.withMachine m)
  else none

/-- One step of the running context; `none` when it cannot take that step or
the kernel stops in it. -/
def step : Op → Option (System × Obs)
  | .tick cpu => do
      let k ← s.kernel.yield cpu
      match s.mode s.cur with
      | .user => return (s.trap.withKernel k, .quiet)
      | .waiting _ _ _ _ true => return (s.withKernel k, .quiet)
      | .halted => return (s.withKernel k, .quiet)
      | .kernel => return (s.withKernel k, .quiet)
      | _ => none
  | .scan cpu =>
      match s.mode s.cur with
      | .waiting self status i children resumed => s.stepScan self status i children resumed cpu
      | _ => none
  | .taskCreate main flags => do
      let k ← s.kernel.taskCreate main flags
      return ((s.withKernel k).setMode (.created s.kernel.createdCount) .kernel, .quiet)
  | op =>
      if s.mode s.cur = .user then
        match op with
        | .fork regs => s.stepFork regs
        | .execve path => s.stepExecve path
        | .exit code cpu => s.stepExit code cpu
        | .wait status => s.stepWait status
        | .sbrk increment => do
            let (r, k) ← s.kernel.sysSbrk increment
            return (s.trap.withKernel k, .returned r)
        | .openFile path => s.stepOpen path
        | .closeFile fd => some (s.stepClose fd)
        | .readFile fd buf len => do
            let (r, k) ← s.kernel.sysRead fd buf len
            return (s.trap.withKernel k, .returned r)
        | .store va b => (s.userStore va b).map fun s ↦ (s, .quiet)
        | _ => none
      else none

/-- The steps of a script, one after the other. -/
def replay (s : System) : List Op → Option (List (Op × Obs) × System)
  | [] => some ([], s)
  | op :: ops => do
      let (s', obs) ← s.step op
      let (tr, s'') ← replay s' ops
      return ((op, obs) :: tr, s'')

/-- Runs, with what they show, oldest first. -/
inductive Run (s₀ : System) : List (Op × Obs) → System → Prop
  | start : Run s₀ [] s₀
  | step {tr : List (Op × Obs)} {s s' : System} {op : Op} {obs : Obs} :
      Run s₀ tr s → s.step op = some (s', obs) → Run s₀ (tr ++ [(op, obs)]) s'

end System

end EclipseOS
