import EclipseOS.Task
import EclipseOS.Elf

/-!
# Processes

The functions of `process.c`.  Each returns `none` where the kernel itself
faults or never comes back.
-/

namespace EclipseOS

open LittleEndian

def MAX_COPY_PAGES : ℕ := 1024
def EXEC_BUF_SIZE : ℕ := 128 * 1024
def USER_STACK_TOP : ℕ := 0xB0004000
def USER_STACK_PAGES : ℕ := 4
/-- `sizeof(struct registers)`. -/
def REGISTERS_SIZE : ℕ := 64

namespace Kernel

/-! ## Open files -/

def openFileAlloc (k : Kernel) (node : ℕ) : Option (Fin MAX_OPEN_FILES) × Kernel :=
  match (List.finRange MAX_OPEN_FILES).find? fun i ↦ (k.fileTable i).refcount = 0 with
  | some i => (some i, k.modifyFile i fun _ ↦ ⟨some node, 0, 1⟩)
  | none => (none, k)

def openFileRelease (k : Kernel) : Option (Fin MAX_OPEN_FILES) → Kernel
  | none => k
  | some f =>
      k.modifyFile f fun file ↦
        if file.refcount - 1 ≤ 0 then ⟨none, 0, 0⟩
        else { file with refcount := file.refcount - 1 }

/-- `f->refcount++`. -/
def openFileRetain (k : Kernel) : Option (Fin MAX_OPEN_FILES) → Kernel
  | none => k
  | some f => k.modifyFile f fun file ↦ { file with refcount := file.refcount + 1 }

/-! ## Process table -/

/-- A 32-bit signed integer. -/
def int32 (n : ℤ) : ℤ := n.bmod (2 ^ 32)

theorem int32_add_one (n : ℤ) : int32 (int32 n + 1) = int32 (n + 1) := Int.bmod_add_bmod

theorem int32_of_lt {n : ℤ} (h₀ : 0 ≤ n) (h : n < 2 ^ 31) : int32 n = n :=
  Int.bmod_eq_of_le (by omega) (by norm_num at h ⊢; omega)

def processInitialize (k : Kernel) (kernelStackTop : ℕ) : Kernel :=
  let kernelDir := k.machine.pagingCurrentDirectory
  { k with
    kernelDir := kernelDir
    fileTable := fun _ ↦ ⟨none, 0, 0⟩
    procTable := Function.update (fun _ ↦ .zero) 0
      { Process.zero with
        state := .run
        pageDir := kernelDir
        kernelStack := kernelStackTop } }

/-- The entry `process_create` takes; 0 is reserved. -/
def freeSlot (k : Kernel) : Option (Fin MAX_PROCS) :=
  (List.finRange MAX_PROCS).find? fun i ↦ i ≠ 0 ∧ (k.procTable i).state = .free

def processCreate (k : Kernel) : Option (Fin MAX_PROCS) × Kernel :=
  match k.freeSlot with
  | none => (none, k)
  | some i =>
      let k := k.modifyProc i fun _ ↦ .zero
      let (stack, heap) := k.heap.kmallocAligned KSTACK_SIZE
      let k := { k with heap := heap }
      if stack = 0 then (none, k)
      else
        let pid := k.nextPid
        let k := { k with nextPid := int32 (k.nextPid + 1) }
        (some i, k.modifyProc i fun p ↦ { p with
          kernelStack := (stack + KSTACK_SIZE) % 2 ^ 32
          pid := pid
          state := .run })

def processSetBrk (k : Kernel) (brk : ℕ) : Kernel :=
  let i := k.processCurrent
  let b := (brk + 0xFFF) % 2 ^ 32 &&& PAGE_MASK
  k.modifyProc i fun p ↦ { p with brk := b, brkMapped := b }

/-! ## Fork -/

structure CopyEntry where
  virt : ℕ
  frame : ℕ
  flags : ℕ
  deriving DecidableEq

/-- State of the copy loops; `outOfSlots` records that `goto out_of_slots` was
taken, after which the loops do nothing. -/
structure CopyLoop where
  machine : Machine
  copyList : List CopyEntry
  outOfSlots : Bool

def copyPage (d : ℕ) (s : CopyLoop) (t : ℕ) : Option CopyLoop := do
  if s.outOfSlots then return s
  let pte ← s.machine.load32 (ptVirt d t)
  if pte &&& PAGE_PRESENT = 0 ∨ pte &&& PAGE_USER = 0 then return s
  if MAX_COPY_PAGES ≤ s.copyList.length then return { s with outOfSlots := true }
  let virt := (d <<< 22) ||| (t <<< 12)
  let (frame, m) := s.machine.pmmAllocFrame
  if frame = 0 then return { s with machine := m, outOfSlots := true }
  let m ← m.pagingTmpMap frame
  let m ← m.memcpy TMP_VIRT virt PAGE_SIZE
  return { s with machine := m, copyList := s.copyList ++ [⟨virt, frame, pte &&& 0xFFF⟩] }

def copyTable (s : CopyLoop) (d : ℕ) : Option CopyLoop := do
  if s.outOfSlots then return s
  let pde ← s.machine.load32 (pdVirt d)
  if pde &&& PAGE_PRESENT = 0 then return s
  (List.range 1024).foldlM (copyPage d) s

/-- Phase 1: copy every user page of the loaded directory. -/
def copyPages (m : Machine) : Option CopyLoop :=
  (List.range KERNEL_DIR_START).foldlM copyTable ⟨m, [], false⟩

def installPage (m : Machine) (e : CopyEntry) : Option Machine :=
  m.pagingMap e.virt e.frame e.flags

/-- Phase 2: install the copies in the child's directory. -/
def installPages (m : Machine) (dir : ℕ) (copyList : List CopyEntry) : Option Machine := do
  let saved := m.pagingCurrentDirectory
  let m := m.pagingSwitchDirectory dir
  let m ← copyList.foldlM installPage m
  return m.pagingSwitchDirectory saved

/-- `*cf = *regs`, word by word. -/
def storeWords (m : Machine) (addr : ℕ) : List ℕ → Option Machine
  | [] => some m
  | w :: ws => do
      let m ← m.store32 addr w
      storeWords m (addr + 4) ws

/-- `child->fds[i] = parent->fds[i]` and the reference it takes. -/
def shareFd (parent child : Fin MAX_PROCS) (k : Kernel) (i : Fin MAX_FDS) : Kernel :=
  let fd := (k.procTable parent).fds i
  (k.modifyProc child fun c ↦ { c with fds := Function.update c.fds i fd }).openFileRetain fd

/-- `process_fork` from the point where the child has its entry. -/
def forkInto (k : Kernel) (parent child : Fin MAX_PROCS) (regs : Registers) :
    Option (ℤ × Kernel) := do
  let p := k.procTable parent
  let k := k.modifyProc child fun c ↦ { c with
    ppid := p.pid
    brk := p.brk
    brkMapped := p.brkMapped }
  let (dir, m) ← k.machine.pagingNewDirectory
  let k := (k.withMachine m).modifyProc child fun c ↦ { c with pageDir := dir }
  if dir = 0 then
    return (-ENOMEM, k.modifyProc child fun c ↦ { c with state := .free })
  let s ← copyPages k.machine
  if s.outOfSlots then
    let m := s.copyList.foldl (fun m e ↦ m.pmmFreeFrame e.frame) s.machine
    let m ← m.pagingFreeDirectory dir
    return (-ENOMEM, (k.withMachine m).modifyProc child fun c ↦ { c with state := .free })
  let m ← installPages s.machine dir s.copyList
  let k := (List.finRange MAX_FDS).foldl (shareFd parent child) (k.withMachine m)
  let frameAddr := (k.procTable child).kernelStack - REGISTERS_SIZE
  let m ← storeWords k.machine frameAddr { regs with eax := 0 }.words
  let k := (k.withMachine m).modifyProc child fun c ↦ { c with
    task := ⟨{ TaskRegs.zero with
      esp := frameAddr
      eip := k.forkTrampoline
      eflags := 0x002
      cr3 := c.pageDir }, none⟩ }
  return ((k.procTable child).pid, k.taskAdd (.proc child))

/-- Negative error or pid of the child. -/
def processFork (k : Kernel) (regs : Registers) : Option (ℤ × Kernel) :=
  let parent := k.processCurrent
  match k.processCreate with
  | (none, k) => some (-EAGAIN, k)
  | (some child, k) => k.forkInto parent child regs

/-! ## Execve -/

inductive ExecOutcome
  | error (e : ℤ)
  | user (entry stack : ℕ)
  deriving DecidableEq

def vfsFinddir (k : Kernel) (name : List UInt8) : Option ℕ :=
  k.files.findIdx? fun n ↦ n.name = name

/-- `initrd_read`: the size it copies. -/
def initrdReadSize (n : FsNode) (offset size : ℕ) : ℕ :=
  if n.length ≤ offset then 0
  else if n.length < (offset + size) % 2 ^ 32 then n.length - offset
  else size

def mapStackPage (m : Machine) (i : ℕ) : Option Machine :=
  let (frame, m) := m.pmmAllocFrame
  m.pagingMap (USER_STACK_TOP - (i + 1) * 0x1000) frame (PAGE_USER ||| PAGE_WRITE)

/-- `USER_STACK_TOP` is where `jump_usermode` puts the user stack pointer. -/
def processExecve (k : Kernel) (path : List UInt8) : Option (ExecOutcome × Kernel) :=
  match (k.vfsFinddir path).bind (k.files[·]?) with
  | none => some (.error (-ENOENT), k)
  | some prog => do
      if EXEC_BUF_SIZE < prog.length then return (.error (-E2BIG), k)
      let got := initrdReadSize prog 0 prog.length
      let k := { k with execBuf := fun i ↦ if i < got then prog.data i else k.execBuf i }
      let p := k.processCurrent
      let oldDir := (k.procTable p).pageDir
      let (newDir, m) ← k.machine.pagingNewDirectory
      if newDir = 0 then return (.error (-ENOMEM), k.withMachine m)
      let m := m.pagingSwitchDirectory newDir
      let (entry, brk, m) ← m.elfLoad k.execBuf prog.length
      if entry = 0 then
        let m := m.pagingSwitchDirectory oldDir
        let m ← m.pagingFreeDirectory newDir
        return (.error (-ENOEXEC), k.withMachine m)
      let k := (k.withMachine m).modifyProc p fun q ↦ { q with pageDir := newDir }
      let k := k.modifyRegs k.taskCurrent fun regs ↦ { regs with cr3 := newDir }
      let k := k.modifyRegs (.proc p) fun regs ↦ { regs with cr3 := newDir }
      let m ← if oldDir ≠ k.kernelDir then k.machine.pagingFreeDirectory oldDir
        else some k.machine
      let b := (brk + 0xFFF) % 2 ^ 32 &&& PAGE_MASK
      let k := (k.withMachine m).modifyProc p fun q ↦ { q with brk := b, brkMapped := b }
      let m ← (List.range USER_STACK_PAGES).foldlM mapStackPage k.machine
      let k := (k.withMachine m).tssSetStack (k.procTable p).kernelStack
      return (.user entry USER_STACK_TOP, k)

/-! ## Exit and wait -/

def releaseFd (p : Fin MAX_PROCS) (k : Kernel) (i : Fin MAX_FDS) : Kernel :=
  let k := k.openFileRelease ((k.procTable p).fds i)
  k.modifyProc p fun q ↦ { q with fds := Function.update q.fds i none }

def reparent (pid : ℤ) (k : Kernel) (i : Fin MAX_PROCS) : Kernel :=
  let q := k.procTable i
  if q.state ≠ .free ∧ q.ppid = pid then k.modifyProc i fun q ↦ { q with ppid := 0 } else k

inductive ExitOutcome
  | halted
  | leaving
  deriving DecidableEq

/-- `process_exit` up to the `sti`: process 0 halts, any other process is left
to `yield`. -/
def processExit (k : Kernel) (code : ℤ) : Option (ExitOutcome × Kernel) :=
  let p := k.processCurrent
  if (k.procTable p).pid = 0 then some (.halted, k.tssSetStack k.haltStackTop)
  else do
    let k := (List.finRange MAX_FDS).foldl (releaseFd p) k
    let k := (List.finRange MAX_PROCS).foldl (reparent (k.procTable p).pid) k
    let k := k.modifyProc p fun q ↦ { q with exitCode := code, state := .zombie }
    let dir := (k.procTable p).pageDir
    let k := k.withMachine (k.machine.pagingSwitchDirectory k.kernelDir)
    let k := k.modifyProc p fun q ↦ { q with pageDir := k.kernelDir }
    let k := k.modifyRegs (.proc p) fun regs ↦ { regs with cr3 := k.kernelDir }
    let k := k.modifyRegs k.taskCurrent fun regs ↦ { regs with cr3 := k.kernelDir }
    let m ← if dir ≠ k.kernelDir then k.machine.pagingFreeDirectory dir else some k.machine
    let k ← (k.withMachine m).taskRemove (.proc p)
    return (.leaving, k)

inductive WaitStep
  | next (children : ℕ)
  | reaped (pid : ℤ)
  deriving DecidableEq

/-- One turn of the scan in `process_wait`. -/
def waitSlot (k : Kernel) (self : Fin MAX_PROCS) (status children : ℕ) (i : Fin MAX_PROCS) :
    Option (WaitStep × Kernel) :=
  let c := k.procTable i
  if c.state = .free ∨ c.ppid ≠ (k.procTable self).pid ∨ i = self then some (.next children, k)
  else if c.state = .zombie then do
    let m ← if status ≠ 0 then k.machine.store32 status (c.exitCode % 2 ^ 32).toNat
      else some k.machine
    return (.reaped c.pid,
      (k.withMachine m).modifyProc i fun c ↦ { c with state := .free, kernelStack := 0 })
  else some (.next (children + 1), k)

end Kernel

end EclipseOS
