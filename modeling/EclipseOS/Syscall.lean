import EclipseOS.Process

/-!
# System calls

The handlers of `syscall.c` that act on processes, files and the break.
Arguments are 32-bit words.
-/

namespace EclipseOS

def USER_LIMIT : ℕ := 0xC0000000
def USER_BRK_LIMIT : ℕ := 0xB0000000
/-- Longest path, terminator included. -/
def PATH_MAX : ℕ := 256

namespace Machine

/-- The page loop of `user_range_ok`. -/
def allUser (m : Machine) : List ℕ → Option Bool
  | [] => some true
  | a :: as => do
      if ← m.pagingIsUser a then allUser m as else return false

def userRangeOk (m : Machine) (addr len : ℕ) : Option Bool :=
  if len = 0 then some true
  else
    let stop := (addr + len) % 2 ^ 32
    if USER_LIMIT ≤ addr ∨ stop < addr ∨ USER_LIMIT < stop then some false
    else m.allUser (pagesBetween (addr &&& PAGE_MASK) stop)

def userStringOk (m : Machine) (s : ℕ) : ℕ → Option Bool
  | 0 => some false
  | n + 1 => do
      if ← m.userRangeOk s 1 then
        if (← m.load8 s) = 0 then return true
        userStringOk m ((s + 1) % 2 ^ 32) n
      else return false

/-- The string at `s`, read until its terminator. -/
def readString (m : Machine) (s : ℕ) : ℕ → Option (List UInt8)
  | 0 => none
  | n + 1 => do
      let b ← m.load8 s
      if b = 0 then return []
      return b :: (← readString m ((s + 1) % 2 ^ 32) n)

structure SbrkLoop where
  machine : Machine
  outOfMemory : Bool

def growPage (s : SbrkLoop) (a : ℕ) : Option SbrkLoop := do
  if s.outOfMemory then return s
  let phys ← s.machine.pagingVirtToPhys a
  if phys ≠ NOT_MAPPED then return s
  let (frame, m) := s.machine.pmmAllocFrame
  if frame = 0 then return ⟨m, true⟩
  let m ← m.pagingMap a frame (PAGE_USER ||| PAGE_WRITE)
  let m ← m.memset a 0 PAGE_SIZE
  return ⟨m, false⟩

def shrinkPage (m : Machine) (a : ℕ) : Option Machine := do
  let phys ← m.pagingVirtToPhys a
  if phys = NOT_MAPPED then return m
  let m ← m.pagingUnmap a
  return m.pmmFreeFrame (phys &&& PAGE_MASK)

end Machine

namespace Kernel

/-- `get_fd`; a negative `int` is a word from `2 ^ 31` on. -/
def getFd (k : Kernel) (fd : ℕ) : Option (Fin MAX_OPEN_FILES) :=
  if h : fd < MAX_FDS then (k.procTable k.processCurrent).fds ⟨fd, h⟩ else none

def sysOpen (k : Kernel) (path : ℕ) : Option (ℤ × Kernel) := do
  if !(← k.machine.userStringOk path PATH_MAX) then return (-EFAULT, k)
  match k.vfsFinddir (← k.machine.readString path PATH_MAX) with
  | none => return (-ENOENT, k)
  | some node =>
      let p := k.processCurrent
      match (List.finRange MAX_FDS).find? fun i ↦ 3 ≤ i.val ∧ (k.procTable p).fds i = none with
      | none => return (-EMFILE, k)
      | some fd =>
          match k.openFileAlloc node with
          | (none, k) => return (-ENFILE, k)
          | (some file, k) =>
              return (fd.val,
                k.modifyProc p fun q ↦ { q with fds := Function.update q.fds fd (some file) })

def sysClose (k : Kernel) (fd : ℕ) : ℤ × Kernel :=
  match k.getFd fd with
  | none => (-EBADF, k)
  | some file =>
      let k := k.modifyProc k.processCurrent fun q ↦
        { q with fds := fun i ↦ if i.val = fd then none else q.fds i }
      (0, k.openFileRelease (some file))

def sysRead (k : Kernel) (fd buf len : ℕ) : Option (ℤ × Kernel) :=
  match k.getFd fd with
  | none => some (-EBADF, k)
  | some file => do
      if !(← k.machine.userRangeOk buf len) then return (-EFAULT, k)
      let f := k.fileTable file
      match f.node.bind (k.files[·]?) with
      | none => return (0, k)
      | some node =>
          let got := initrdReadSize node f.offset len
          let m ← k.machine.memcpyFrom buf node.data f.offset got
          return (int32 got, (k.withMachine m).modifyFile file fun f ↦
            { f with offset := (f.offset + got) % 2 ^ 32 })

def sysSbrk (k : Kernel) (increment : BitVec 32) : Option (ℤ × Kernel) :=
  let inc := increment.toInt
  let p := k.processCurrent
  let old := (k.procTable p).brk
  let want := (old + increment.toNat) % 2 ^ 32
  let setBrk := fun k : Kernel ↦ k.modifyProc p fun q ↦ { q with brk := want }
  if inc = 0 then some (int32 old, k)
  else if 0 < inc then do
    if want < old ∨ USER_BRK_LIMIT < want then return (-ENOMEM, k)
    let s ← (pagesBetween (old &&& PAGE_MASK) want).foldlM Machine.growPage ⟨k.machine, false⟩
    if s.outOfMemory then return (-ENOMEM, k.withMachine s.machine)
    return (int32 old, setBrk (k.withMachine s.machine))
  else do
    if old < want then return (-EINVAL, k)
    let firstDead := (want + 0xFFF) % 2 ^ 32 &&& PAGE_MASK
    -- past the last page boundary the 32-bit counter wraps and the loop does not end
    if firstDead < old ∧ PAGE_MASK < old then none
    let m ← (pagesBetween firstDead old).foldlM Machine.shrinkPage k.machine
    return (int32 old, setBrk (k.withMachine m))

def sysExecve (k : Kernel) (path : ℕ) : Option (ExecOutcome × Kernel) := do
  if !(← k.machine.userStringOk path PATH_MAX) then return (.error (-EFAULT), k)
  k.processExecve (← k.machine.readString path PATH_MAX)

/-- The check `sys_wait` makes before `process_wait`. -/
def sysWaitOk (k : Kernel) (status : ℕ) : Option Bool :=
  if status = 0 then some true else k.machine.userRangeOk status 4

end Kernel

end EclipseOS
