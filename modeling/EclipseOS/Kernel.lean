import EclipseOS.Paging

/-!
# Kernel state

The statics of the kernel as one record: heap pointers, process table, open
file table, scheduler ring and the stack field of the TSS.  Pointers become
names: a `TaskRef` says which object holds a `task_t`, a process or an open
file is its index in its table, and a null pointer is `none`.
-/

namespace EclipseOS

abbrev MAX_PROCS : ℕ := 16
abbrev MAX_FDS : ℕ := 16
abbrev MAX_OPEN_FILES : ℕ := 32

instance : NeZero MAX_PROCS := ⟨by decide⟩

def KSTACK_SIZE : ℕ := 4096
def KERNEL_HEAP_BASE : ℕ := 0xC0000000
def KERNEL_HEAP_SIZE : ℕ := 0x100000

def ENOENT : ℤ := 2
def E2BIG : ℤ := 7
def ENOEXEC : ℤ := 8
def EBADF : ℤ := 9
def EAGAIN : ℤ := 11
def ENOMEM : ℤ := 12
def EFAULT : ℤ := 14
def EINVAL : ℤ := 22
def ENFILE : ℤ := 23
def EMFILE : ℤ := 24

/-- `struct registers`: what an interrupt stub leaves on the kernel stack. -/
structure Registers where
  ds : ℕ
  edi : ℕ
  esi : ℕ
  ebp : ℕ
  espDummy : ℕ
  ebx : ℕ
  edx : ℕ
  ecx : ℕ
  eax : ℕ
  intNo : ℕ
  errCode : ℕ
  eip : ℕ
  cs : ℕ
  eflags : ℕ
  useresp : ℕ
  ss : ℕ
  deriving DecidableEq

/-- The sixteen words in memory order. -/
def Registers.words (r : Registers) : List ℕ :=
  [r.ds, r.edi, r.esi, r.ebp, r.espDummy, r.ebx, r.edx, r.ecx, r.eax, r.intNo, r.errCode,
    r.eip, r.cs, r.eflags, r.useresp, r.ss]

/-- `registers_t`: the context `switch_task` saves. -/
structure TaskRegs where
  eax : ℕ
  ebx : ℕ
  ecx : ℕ
  edx : ℕ
  esi : ℕ
  edi : ℕ
  esp : ℕ
  ebp : ℕ
  eip : ℕ
  eflags : ℕ
  cr3 : ℕ
  deriving DecidableEq

def TaskRegs.zero : TaskRegs := ⟨0, 0, 0, 0, 0, 0, 0, 0, 0, 0, 0⟩

/-- The objects that hold a `task_t`: `main_task`, the entry of a process, or
the argument of the `n`-th `task_create`. -/
inductive TaskRef
  | main
  | proc (slot : Fin MAX_PROCS)
  | created (n : ℕ)
  deriving DecidableEq

structure Task where
  regs : TaskRegs
  next : Option TaskRef

def Task.zero : Task := ⟨.zero, none⟩

inductive ProcState
  | free
  | run
  | zombie
  deriving DecidableEq

structure Process where
  pid : ℤ
  ppid : ℤ
  state : ProcState
  exitCode : ℤ
  pageDir : ℕ
  kernelStack : ℕ
  brk : ℕ
  brkMapped : ℕ
  fds : Fin MAX_FDS → Option (Fin MAX_OPEN_FILES)
  task : Task

/-- An entry after `memset(p, 0, sizeof(*p))`. -/
def Process.zero : Process := ⟨0, 0, .free, 0, 0, 0, 0, 0, fun _ ↦ none, .zero⟩

/-- `node` is an index into the file list. -/
structure OpenFile where
  node : Option ℕ
  offset : ℕ
  refcount : ℤ

/-- A file of the initrd: its name up to the terminator, its length and the
memory from `file_data` on. -/
structure FsNode where
  name : List UInt8
  length : ℕ
  data : ℕ → UInt8

structure Kheap where
  heapStart : ℕ
  heapEnd : ℕ
  heapNext : ℕ

namespace Kheap

/-- 0 stands for the null pointer. -/
def kmalloc (h : Kheap) (size : ℕ) : ℕ × Kheap :=
  if h.heapEnd < (h.heapNext + size) % 2 ^ 32 then (0, h)
  else (h.heapNext, { h with
    heapNext := (h.heapNext + (((size + 7) % 2 ^ 32) &&& 0xFFFFFFF8)) % 2 ^ 32 })

def kmallocAligned (h : Kheap) (size : ℕ) : ℕ × Kheap :=
  kmalloc { h with heapNext := ((h.heapNext + 0xFFF) % 2 ^ 32) &&& PAGE_MASK } size

end Kheap

/-- `haltStackTop` and `forkTrampoline` are link-time addresses.  `execBuf` is
the memory from `exec_buf` on. -/
structure Kernel where
  machine : Machine
  heap : Kheap
  procTable : Fin MAX_PROCS → Process
  fileTable : Fin MAX_OPEN_FILES → OpenFile
  nextPid : ℤ
  kernelDir : ℕ
  mainTask : Task
  createdTasks : ℕ → Task
  createdCount : ℕ
  runningTask : TaskRef
  tssEsp0 : ℕ
  haltStackTop : ℕ
  forkTrampoline : ℕ
  files : List FsNode
  execBuf : ℕ → UInt8

namespace Kernel

variable (k : Kernel)

def withMachine (m : Machine) : Kernel := { k with machine := m }

def modifyProc (i : Fin MAX_PROCS) (f : Process → Process) : Kernel :=
  { k with procTable := Function.update k.procTable i (f (k.procTable i)) }

def modifyFile (i : Fin MAX_OPEN_FILES) (f : OpenFile → OpenFile) : Kernel :=
  { k with fileTable := Function.update k.fileTable i (f (k.fileTable i)) }

def task : TaskRef → Task
  | .main => k.mainTask
  | .proc i => (k.procTable i).task
  | .created n => k.createdTasks n

def setTask (t : Task) : TaskRef → Kernel
  | .main => { k with mainTask := t }
  | .proc i => k.modifyProc i fun p ↦ { p with task := t }
  | .created n => { k with createdTasks := Function.update k.createdTasks n t }

def setNext (r : TaskRef) (n : Option TaskRef) : Kernel := k.setTask { k.task r with next := n } r

def modifyRegs (r : TaskRef) (f : TaskRegs → TaskRegs) : Kernel :=
  k.setTask { k.task r with regs := f (k.task r).regs } r

def tssSetStack (esp0 : ℕ) : Kernel := { k with tssEsp0 := esp0 }

/-- `process_of_task`: the first entry in use whose `task_t` is the given one. -/
def processOfTask (t : TaskRef) : Option (Fin MAX_PROCS) :=
  (List.finRange MAX_PROCS).find? fun i ↦ (k.procTable i).state ≠ .free ∧ TaskRef.proc i = t

def taskCurrent : TaskRef := k.runningTask

/-- Contexts without an entry of their own are attributed to process 0. -/
def processCurrent : Fin MAX_PROCS := (k.processOfTask k.taskCurrent).getD 0

/-- Number of `task_t` objects there are. -/
def taskCount : ℕ := 1 + MAX_PROCS + k.createdCount

/-! ## Reading back after an update -/

attribute [simp] setNext

section Update

variable (m : Machine) (f : Process → Process) (g : OpenFile → OpenFile) (n : Fin MAX_OPEN_FILES)
variable (t : Task) (r r' : TaskRef) (i j : Fin MAX_PROCS) (esp0 : ℕ)

@[simp] theorem withMachine_machine : (k.withMachine m).machine = m := rfl
@[simp] theorem withMachine_heap : (k.withMachine m).heap = k.heap := rfl
@[simp] theorem withMachine_procTable : (k.withMachine m).procTable = k.procTable := rfl
@[simp] theorem withMachine_fileTable : (k.withMachine m).fileTable = k.fileTable := rfl
@[simp] theorem withMachine_nextPid : (k.withMachine m).nextPid = k.nextPid := rfl
@[simp] theorem withMachine_kernelDir : (k.withMachine m).kernelDir = k.kernelDir := rfl
@[simp] theorem withMachine_mainTask : (k.withMachine m).mainTask = k.mainTask := rfl
@[simp] theorem withMachine_createdTasks : (k.withMachine m).createdTasks = k.createdTasks := rfl
@[simp] theorem withMachine_createdCount : (k.withMachine m).createdCount = k.createdCount := rfl
@[simp] theorem withMachine_runningTask : (k.withMachine m).runningTask = k.runningTask := rfl
@[simp] theorem withMachine_tssEsp0 : (k.withMachine m).tssEsp0 = k.tssEsp0 := rfl
@[simp] theorem withMachine_haltStackTop : (k.withMachine m).haltStackTop = k.haltStackTop := rfl
@[simp] theorem withMachine_forkTrampoline : (k.withMachine m).forkTrampoline = k.forkTrampoline := rfl
@[simp] theorem withMachine_files : (k.withMachine m).files = k.files := rfl
@[simp] theorem withMachine_execBuf : (k.withMachine m).execBuf = k.execBuf := rfl
@[simp] theorem withMachine_task : (k.withMachine m).task r = k.task r := by cases r <;> rfl

@[simp] theorem modifyProc_machine : (k.modifyProc i f).machine = k.machine := rfl
@[simp] theorem modifyProc_heap : (k.modifyProc i f).heap = k.heap := rfl
@[simp] theorem modifyProc_fileTable : (k.modifyProc i f).fileTable = k.fileTable := rfl
@[simp] theorem modifyProc_nextPid : (k.modifyProc i f).nextPid = k.nextPid := rfl
@[simp] theorem modifyProc_kernelDir : (k.modifyProc i f).kernelDir = k.kernelDir := rfl
@[simp] theorem modifyProc_mainTask : (k.modifyProc i f).mainTask = k.mainTask := rfl
@[simp] theorem modifyProc_createdTasks : (k.modifyProc i f).createdTasks = k.createdTasks := rfl
@[simp] theorem modifyProc_createdCount : (k.modifyProc i f).createdCount = k.createdCount := rfl
@[simp] theorem modifyProc_runningTask : (k.modifyProc i f).runningTask = k.runningTask := rfl
@[simp] theorem modifyProc_tssEsp0 : (k.modifyProc i f).tssEsp0 = k.tssEsp0 := rfl
@[simp] theorem modifyProc_haltStackTop : (k.modifyProc i f).haltStackTop = k.haltStackTop := rfl
@[simp] theorem modifyProc_forkTrampoline : (k.modifyProc i f).forkTrampoline = k.forkTrampoline := rfl
@[simp] theorem modifyProc_files : (k.modifyProc i f).files = k.files := rfl
@[simp] theorem modifyProc_execBuf : (k.modifyProc i f).execBuf = k.execBuf := rfl
@[simp] theorem modifyProc_self : (k.modifyProc i f).procTable i = f (k.procTable i) := by
  simp [modifyProc]
@[simp] theorem modifyProc_of_ne (h : j ≠ i) : (k.modifyProc i f).procTable j = k.procTable j := by
  simp [modifyProc, h]
theorem modifyProc_modifyProc (f' : Process → Process) :
    (k.modifyProc i f).modifyProc i f' = k.modifyProc i fun p ↦ f' (f p) := by
  simp [modifyProc]
@[simp] theorem modifyProc_withMachine :
    (k.modifyProc i f).withMachine m = (k.withMachine m).modifyProc i f := rfl
@[simp] theorem withMachine_withMachine (m' : Machine) :
    (k.withMachine m).withMachine m' = k.withMachine m' := rfl
theorem modifyProc_apply :
    (k.modifyProc i f).procTable j = if j = i then f (k.procTable i) else k.procTable j := by
  simp [modifyProc, Function.update_apply]

@[simp] theorem modifyFile_machine : (k.modifyFile n g).machine = k.machine := rfl
@[simp] theorem modifyFile_heap : (k.modifyFile n g).heap = k.heap := rfl
@[simp] theorem modifyFile_procTable : (k.modifyFile n g).procTable = k.procTable := rfl
@[simp] theorem modifyFile_nextPid : (k.modifyFile n g).nextPid = k.nextPid := rfl
@[simp] theorem modifyFile_kernelDir : (k.modifyFile n g).kernelDir = k.kernelDir := rfl
@[simp] theorem modifyFile_mainTask : (k.modifyFile n g).mainTask = k.mainTask := rfl
@[simp] theorem modifyFile_createdTasks : (k.modifyFile n g).createdTasks = k.createdTasks := rfl
@[simp] theorem modifyFile_createdCount : (k.modifyFile n g).createdCount = k.createdCount := rfl
@[simp] theorem modifyFile_runningTask : (k.modifyFile n g).runningTask = k.runningTask := rfl
@[simp] theorem modifyFile_tssEsp0 : (k.modifyFile n g).tssEsp0 = k.tssEsp0 := rfl
@[simp] theorem modifyFile_haltStackTop : (k.modifyFile n g).haltStackTop = k.haltStackTop := rfl
@[simp] theorem modifyFile_forkTrampoline : (k.modifyFile n g).forkTrampoline = k.forkTrampoline := rfl
@[simp] theorem modifyFile_files : (k.modifyFile n g).files = k.files := rfl
@[simp] theorem modifyFile_execBuf : (k.modifyFile n g).execBuf = k.execBuf := rfl
@[simp] theorem modifyFile_task : (k.modifyFile n g).task r = k.task r := by cases r <;> rfl

@[simp] theorem tssSetStack_machine : (k.tssSetStack esp0).machine = k.machine := rfl
@[simp] theorem tssSetStack_heap : (k.tssSetStack esp0).heap = k.heap := rfl
@[simp] theorem tssSetStack_procTable : (k.tssSetStack esp0).procTable = k.procTable := rfl
@[simp] theorem tssSetStack_fileTable : (k.tssSetStack esp0).fileTable = k.fileTable := rfl
@[simp] theorem tssSetStack_nextPid : (k.tssSetStack esp0).nextPid = k.nextPid := rfl
@[simp] theorem tssSetStack_kernelDir : (k.tssSetStack esp0).kernelDir = k.kernelDir := rfl
@[simp] theorem tssSetStack_mainTask : (k.tssSetStack esp0).mainTask = k.mainTask := rfl
@[simp] theorem tssSetStack_createdTasks : (k.tssSetStack esp0).createdTasks = k.createdTasks := rfl
@[simp] theorem tssSetStack_createdCount : (k.tssSetStack esp0).createdCount = k.createdCount := rfl
@[simp] theorem tssSetStack_runningTask : (k.tssSetStack esp0).runningTask = k.runningTask := rfl
@[simp] theorem tssSetStack_haltStackTop : (k.tssSetStack esp0).haltStackTop = k.haltStackTop := rfl
@[simp] theorem tssSetStack_forkTrampoline : (k.tssSetStack esp0).forkTrampoline = k.forkTrampoline := rfl
@[simp] theorem tssSetStack_files : (k.tssSetStack esp0).files = k.files := rfl
@[simp] theorem tssSetStack_execBuf : (k.tssSetStack esp0).execBuf = k.execBuf := rfl
@[simp] theorem tssSetStack_tssEsp0 : (k.tssSetStack esp0).tssEsp0 = esp0 := rfl
@[simp] theorem tssSetStack_task : (k.tssSetStack esp0).task r = k.task r := by cases r <;> rfl

theorem task_setTask : (k.setTask t r).task r' = if r' = r then t else k.task r' := by
  cases r <;> cases r' <;> simp [setTask, task, modifyProc_apply, Function.update_apply]
  case proc.proc i j => by_cases h : j = i <;> simp [h]

@[simp] theorem task_setTask_self : (k.setTask t r).task r = t := by simp [task_setTask]

@[simp] theorem task_setTask_of_ne (h : r' ≠ r) : (k.setTask t r).task r' = k.task r' := by
  simp [task_setTask, h]

@[simp] theorem setTask_machine : (k.setTask t r).machine = k.machine := by cases r <;> rfl
@[simp] theorem setTask_heap : (k.setTask t r).heap = k.heap := by cases r <;> rfl
@[simp] theorem setTask_fileTable : (k.setTask t r).fileTable = k.fileTable := by cases r <;> rfl
@[simp] theorem setTask_nextPid : (k.setTask t r).nextPid = k.nextPid := by cases r <;> rfl
@[simp] theorem setTask_kernelDir : (k.setTask t r).kernelDir = k.kernelDir := by cases r <;> rfl
@[simp] theorem setTask_createdCount : (k.setTask t r).createdCount = k.createdCount := by cases r <;> rfl
@[simp] theorem setTask_runningTask : (k.setTask t r).runningTask = k.runningTask := by cases r <;> rfl
@[simp] theorem setTask_tssEsp0 : (k.setTask t r).tssEsp0 = k.tssEsp0 := by cases r <;> rfl
@[simp] theorem setTask_haltStackTop : (k.setTask t r).haltStackTop = k.haltStackTop := by cases r <;> rfl
@[simp] theorem setTask_forkTrampoline : (k.setTask t r).forkTrampoline = k.forkTrampoline := by cases r <;> rfl
@[simp] theorem setTask_files : (k.setTask t r).files = k.files := by cases r <;> rfl
@[simp] theorem setTask_execBuf : (k.setTask t r).execBuf = k.execBuf := by cases r <;> rfl

/-- An update of a `task_t` leaves the rest of every process entry alone. -/
theorem setTask_procTable :
    (k.setTask t r).procTable i =
      { k.procTable i with task := (k.setTask t r).task (.proc i) } := by
  cases r <;> simp [setTask, task, modifyProc_apply]
  case proc j => by_cases h : i = j <;> simp [h]

@[simp] theorem setTask_pid : ((k.setTask t r).procTable i).pid = (k.procTable i).pid := by
  rw [setTask_procTable]

@[simp] theorem setTask_ppid : ((k.setTask t r).procTable i).ppid = (k.procTable i).ppid := by
  rw [setTask_procTable]

@[simp] theorem setTask_state : ((k.setTask t r).procTable i).state = (k.procTable i).state := by
  rw [setTask_procTable]

@[simp] theorem setTask_exitCode : ((k.setTask t r).procTable i).exitCode = (k.procTable i).exitCode := by
  rw [setTask_procTable]

@[simp] theorem setTask_pageDir : ((k.setTask t r).procTable i).pageDir = (k.procTable i).pageDir := by
  rw [setTask_procTable]

@[simp] theorem setTask_kernelStack : ((k.setTask t r).procTable i).kernelStack = (k.procTable i).kernelStack := by
  rw [setTask_procTable]

@[simp] theorem setTask_brk : ((k.setTask t r).procTable i).brk = (k.procTable i).brk := by
  rw [setTask_procTable]

@[simp] theorem setTask_brkMapped : ((k.setTask t r).procTable i).brkMapped = (k.procTable i).brkMapped := by
  rw [setTask_procTable]

@[simp] theorem setTask_fds : ((k.setTask t r).procTable i).fds = (k.procTable i).fds := by
  rw [setTask_procTable]

section Regs

variable (h : TaskRegs → TaskRegs)

@[simp] theorem modifyRegs_machine : (k.modifyRegs r h).machine = k.machine := by simp [modifyRegs]
@[simp] theorem modifyRegs_heap : (k.modifyRegs r h).heap = k.heap := by simp [modifyRegs]
@[simp] theorem modifyRegs_fileTable : (k.modifyRegs r h).fileTable = k.fileTable := by simp [modifyRegs]
@[simp] theorem modifyRegs_nextPid : (k.modifyRegs r h).nextPid = k.nextPid := by simp [modifyRegs]
@[simp] theorem modifyRegs_kernelDir : (k.modifyRegs r h).kernelDir = k.kernelDir := by simp [modifyRegs]
@[simp] theorem modifyRegs_createdCount : (k.modifyRegs r h).createdCount = k.createdCount := by simp [modifyRegs]
@[simp] theorem modifyRegs_runningTask : (k.modifyRegs r h).runningTask = k.runningTask := by simp [modifyRegs]
@[simp] theorem modifyRegs_tssEsp0 : (k.modifyRegs r h).tssEsp0 = k.tssEsp0 := by simp [modifyRegs]
@[simp] theorem modifyRegs_haltStackTop : (k.modifyRegs r h).haltStackTop = k.haltStackTop := by simp [modifyRegs]
@[simp] theorem modifyRegs_forkTrampoline : (k.modifyRegs r h).forkTrampoline = k.forkTrampoline := by simp [modifyRegs]
@[simp] theorem modifyRegs_files : (k.modifyRegs r h).files = k.files := by simp [modifyRegs]
@[simp] theorem modifyRegs_execBuf : (k.modifyRegs r h).execBuf = k.execBuf := by simp [modifyRegs]

theorem modifyRegs_procTable :
    (k.modifyRegs r h).procTable i =
      { k.procTable i with task := (k.modifyRegs r h).task (.proc i) } := by
  simp only [modifyRegs, setTask_procTable]

@[simp] theorem modifyRegs_pid :
    ((k.modifyRegs r h).procTable i).pid = (k.procTable i).pid := by
  rw [modifyRegs_procTable]

@[simp] theorem modifyRegs_ppid :
    ((k.modifyRegs r h).procTable i).ppid = (k.procTable i).ppid := by
  rw [modifyRegs_procTable]

@[simp] theorem modifyRegs_state :
    ((k.modifyRegs r h).procTable i).state = (k.procTable i).state := by
  rw [modifyRegs_procTable]

@[simp] theorem modifyRegs_exitCode :
    ((k.modifyRegs r h).procTable i).exitCode = (k.procTable i).exitCode := by
  rw [modifyRegs_procTable]

@[simp] theorem modifyRegs_pageDir :
    ((k.modifyRegs r h).procTable i).pageDir = (k.procTable i).pageDir := by
  rw [modifyRegs_procTable]

@[simp] theorem modifyRegs_kernelStack :
    ((k.modifyRegs r h).procTable i).kernelStack = (k.procTable i).kernelStack := by
  rw [modifyRegs_procTable]

@[simp] theorem modifyRegs_brk :
    ((k.modifyRegs r h).procTable i).brk = (k.procTable i).brk := by
  rw [modifyRegs_procTable]

@[simp] theorem modifyRegs_brkMapped :
    ((k.modifyRegs r h).procTable i).brkMapped = (k.procTable i).brkMapped := by
  rw [modifyRegs_procTable]

@[simp] theorem modifyRegs_fds :
    ((k.modifyRegs r h).procTable i).fds = (k.procTable i).fds := by
  rw [modifyRegs_procTable]

@[simp] theorem modifyRegs_withMachine :
    (k.modifyRegs r h).withMachine m = (k.withMachine m).modifyRegs r h := by
  cases r <;> rfl

end Regs

end Update

/-- The link of a task. -/
def next (r : TaskRef) : Option TaskRef := (k.task r).next

@[simp] theorem task_next (r : TaskRef) : (k.task r).next = k.next r := rfl

theorem next_setTask (t : Task) (r r' : TaskRef) :
    (k.setTask t r).next r' = if r' = r then t.next else k.next r' := by
  simp only [next, task_setTask]
  split <;> rfl

/-- `setNext` in simp normal form. -/
@[simp] theorem next_setTask_next (r : TaskRef) (regs : TaskRegs) (n : Option TaskRef) :
    (k.setTask ⟨regs, n⟩ r).next = Function.update k.next r n := by
  funext r'
  simp [next_setTask, Function.update_apply]

@[simp] theorem modifyRegs_next (r : TaskRef) (h : TaskRegs → TaskRegs) :
    (k.modifyRegs r h).next = k.next := by
  funext r'
  by_cases hr : r' = r <;> simp [modifyRegs, next_setTask, hr]

@[simp] theorem withMachine_next (m : Machine) : (k.withMachine m).next = k.next := by
  funext r
  cases r <;> rfl

/-- The link of a process entry is that of its `task_t`. -/
@[simp] theorem procTable_task_next (i : Fin MAX_PROCS) :
    (k.procTable i).task.next = k.next (.proc i) := rfl

end Kernel

end EclipseOS
