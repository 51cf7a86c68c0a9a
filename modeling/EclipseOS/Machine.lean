import EclipseOS.Lib.Words

/-!
# The machine under the kernel

Physical memory, the page-directory register and the frame allocator's
globals.  Memory is indexed by frame number and offset; virtual addresses go
through the two-level walk the processor makes, so the recursive directory
entry is part of the memory and not built into the access functions.  The
kernel runs with write protection off (`paging_load` sets only the paging bit
of CR0), hence its stores need a present page only.  An access to a page that
is not present ends in `abort`, which is the value `none`.
-/

namespace EclipseOS

open LittleEndian

def PAGE_SIZE : ℕ := 4096
def PAGE_PRESENT : ℕ := 0x1
def PAGE_WRITE : ℕ := 0x2
def PAGE_USER : ℕ := 0x4

/-- Calls made into the frame allocator and the paging layer.  `alloc` carries
the address that was returned, 0 when there was no free frame. -/
inductive Call
  | alloc (addr : ℕ)
  | free (addr : ℕ)
  | map (virt phys flags : ℕ)
  | unmap (virt : ℕ)
  | freeDirectory (phys : ℕ)
  deriving DecidableEq

/-- `calls` is a history variable (newest first) and has no counterpart in the
source.  `total_frames` is a 32-bit address divided by the page size. -/
structure Machine where
  mem : ℕ → Page
  cr3 : ℕ
  frameBitmap : ℕ → BitVec 32
  totalFrames : ℕ
  lastAlloc : ℕ
  calls : List Call
  totalFrames_lt : totalFrames < 2 ^ 20

namespace Machine

variable (m : Machine)

def log (c : Call) : Machine := { m with calls := c :: m.calls }

/-- The processor's walk: frame and offset behind a virtual address. -/
def translate (va : ℕ) : Option (ℕ × ℕ) :=
  let pde := word (m.mem (m.cr3 / 4096)) ((va >>> 22) &&& 0x3FF)
  if pde &&& PAGE_PRESENT = 0 then none
  else
    let pte := word (m.mem (pde / 4096)) ((va >>> 12) &&& 0x3FF)
    if pte &&& PAGE_PRESENT = 0 then none
    else some (pte / 4096, va &&& 0xFFF)

/-- Both levels carry the user bit: what a user-mode access needs. -/
def userAccessible (va : ℕ) : Bool :=
  let need := PAGE_PRESENT ||| PAGE_USER
  let pde := word (m.mem (m.cr3 / 4096)) ((va >>> 22) &&& 0x3FF)
  let pte := word (m.mem (pde / 4096)) ((va >>> 12) &&& 0x3FF)
  pde &&& need == need && pte &&& need == need

def peek (p : ℕ × ℕ) : UInt8 := m.mem p.1 p.2

def poke (p : ℕ × ℕ) (b : UInt8) : Machine :=
  { m with mem := Function.update m.mem p.1 (Function.update (m.mem p.1) p.2 b) }

def load8 (va : ℕ) : Option UInt8 := (m.translate va).map m.peek

def store8 (va : ℕ) (b : UInt8) : Option Machine := (m.translate va).map fun p ↦ m.poke p b

def load32 (va : ℕ) : Option ℕ := do
  let b₀ ← m.load8 va
  let b₁ ← m.load8 (va + 1)
  let b₂ ← m.load8 (va + 2)
  let b₃ ← m.load8 (va + 3)
  return joinBytes b₀ b₁ b₂ b₃

/-- All four bytes are translated before the first one is written. -/
def store32 (va w : ℕ) : Option Machine := do
  let p₀ ← m.translate va
  let p₁ ← m.translate (va + 1)
  let p₂ ← m.translate (va + 2)
  let p₃ ← m.translate (va + 3)
  return (((m.poke p₀ (byteOf w 0)).poke p₁ (byteOf w 1)).poke p₂ (byteOf w 2)).poke p₃
    (byteOf w 3)

def memset (m : Machine) (dst : ℕ) (value : UInt8) : ℕ → Option Machine
  | 0 => some m
  | size + 1 => do
      let m ← m.store8 dst value
      memset m (dst + 1) value size

def memcpy (m : Machine) (dst src : ℕ) : ℕ → Option Machine
  | 0 => some m
  | size + 1 => do
      let b ← m.load8 src
      let m ← m.store8 dst b
      memcpy m (dst + 1) (src + 1) size

/-- `memcpy` out of a kernel buffer, given as the bytes from its start. -/
def memcpyFrom (m : Machine) (dst : ℕ) (src : ℕ → UInt8) (off : ℕ) : ℕ → Option Machine
  | 0 => some m
  | size + 1 => do
      let m ← m.store8 dst (src (off % 2 ^ 32))
      memcpyFrom m (dst + 1) src (off + 1) size

/-! ## Physical frame allocator -/

def frameSet (frame : ℕ) : Machine :=
  { m with
    frameBitmap := Function.update m.frameBitmap (frame / 32)
      (m.frameBitmap (frame / 32) ||| 1#32 <<< (frame % 32)) }

def frameClear (frame : ℕ) : Machine :=
  { m with
    frameBitmap := Function.update m.frameBitmap (frame / 32)
      (m.frameBitmap (frame / 32) &&& ~~~(1#32 <<< (frame % 32))) }

def frameTest (frame : ℕ) : Bool :=
  m.frameBitmap (frame / 32) &&& 1#32 <<< (frame % 32) != 0#32

/-- The scan shared by the two loops of `pmm_alloc_frame`. -/
def firstFree (lo hi : ℕ) : Option ℕ :=
  (List.range' lo (hi - lo)).find? fun i ↦ !m.frameTest i

def pmmAllocFrame : ℕ × Machine :=
  match (m.firstFree m.lastAlloc m.totalFrames).or (m.firstFree 0 m.lastAlloc) with
  | some i => (i * PAGE_SIZE, { m.frameSet i with lastAlloc := i }.log (.alloc (i * PAGE_SIZE)))
  | none => (0, m.log (.alloc 0))

def pmmFreeFrame (addr : ℕ) : Machine :=
  let frame := addr / PAGE_SIZE
  let m := (m.frameClear frame).log (.free addr)
  if frame < m.lastAlloc then { m with lastAlloc := frame } else m

def pmmFreeFrameCount : ℕ :=
  ((List.range m.totalFrames).filter fun i ↦ !m.frameTest i).length

end Machine

end EclipseOS
