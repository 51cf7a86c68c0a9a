import EclipseOS.Lib.Bytes

/-!
# The heap of the C library

`malloc`, `free`, `calloc` and `realloc` with their block headers in the memory
of the process.  An access to memory that is not there ends the process, which is
the value `none`, and so does a loop that takes more turns than there are
addresses.  `sbrk` moves the break by its increment or fails; the wrapper of the
library takes an old break from 2 GiB on for an error code.
-/

namespace EclipseOS

namespace Libc

open LittleEndian

/-- `sizeof(struct block)`: the words `size`, `next` and `free`. -/
def HDR : ℕ := 12

def TURNS : ℕ := 2 ^ 32

/-- `refuse` says which calls of `sbrk` fail, `mistaken` which old breaks the
wrapper takes for errors, `fresh` is what new memory holds.  `asked` lists the
increments that were asked for, the last one first. -/
structure Heap where
  mem : Bytes
  head : ℕ
  brk : ℕ
  sbrks : ℕ
  asked : List ℤ
  limit : ℕ
  refuse : ℕ → Bool
  mistaken : ℕ → Bool
  fresh : ℕ → UInt8
  limit_le : limit ≤ 2 ^ 32

/-- The value of a word as an `intptr_t`. -/
def intptr (w : ℕ) : ℤ := if w < 2 ^ 31 then w else w - 2 ^ 32

namespace Heap

variable (h : Heap)

/-- The old break, or `none` for `(void*) -1`.  A mistaken call has moved the break. -/
def sbrk (increment : ℤ) : Option ℕ × Heap :=
  let brk := h.brk + increment
  let asked := increment :: h.asked
  if h.refuse h.sbrks ∨ brk < 0 ∨ h.limit < brk then
    (none, { h with sbrks := h.sbrks + 1, asked := asked })
  else (if h.mistaken h.brk then none else some h.brk, { h with
    sbrks := h.sbrks + 1
    asked := asked
    brk := brk.toNat
    mem := fun a ↦
      if h.brk ≤ a ∧ a < brk then some (h.fresh a)
      else if brk ≤ a ∧ a < h.brk then none
      else h.mem a })

/-! ## Access to the headers -/

def load (a : ℕ) : Option ℕ := read32 h.mem (a % 2 ^ 32)

/-- A store needs the memory that a load needs. -/
def store (a w : ℕ) : Option Heap :=
  (h.load a).map fun _ ↦ { h with mem := write32 h.mem (a % 2 ^ 32) w }

def sizeOf (b : ℕ) : Option ℕ := h.load b
def nextOf (b : ℕ) : Option ℕ := h.load (b + 4)
def freeOf (b : ℕ) : Option ℕ := h.load (b + 8)
def setSize (b w : ℕ) : Option Heap := h.store b w
def setNext (b w : ℕ) : Option Heap := h.store (b + 4) w
def setFree (b w : ℕ) : Option Heap := h.store (b + 8) w

/-! ## Blocks -/

/-- The loop of `find_free`; 0 is `NULL`. -/
def findFreeLoop (size : ℕ) : ℕ → ℕ → Option ℕ
  | 0, _ => none
  | turns + 1, b =>
      if b = 0 then some 0
      else do
        let free ← h.freeOf b
        let fits ← if free = 0 then some false else (h.sizeOf b).map fun n ↦ size ≤ n
        if fits then some b else findFreeLoop size turns (← h.nextOf b)

def findFree (size : ℕ) : Option ℕ := h.findFreeLoop size TURNS h.head

/-- `while (last->next) last = last->next`. -/
def lastLoop : ℕ → ℕ → Option ℕ
  | 0, _ => none
  | turns + 1, last => do
      let next ← h.nextOf last
      if next = 0 then some last else lastLoop turns next

/-- The new block, or 0. -/
def grow (size : ℕ) : Option (ℕ × Heap) :=
  let need := (size + HDR) % 2 ^ 32
  let need := ((need + 0xFFF) % 2 ^ 32) &&& 0xFFFFF000
  match h.sbrk (intptr need) with
  | (none, h) => some (0, h)
  | (some p, h) =>
      if p = 0 then some (0, h)
      else do
        let h ← h.setSize p ((need + 2 ^ 32 - HDR) % 2 ^ 32)
        let h ← h.setNext p 0
        let h ← h.setFree p 0
        if h.head = 0 then some (p, { h with head := p })
        else do
          let last ← h.lastLoop TURNS h.head
          let h ← h.setNext last p
          some (p, h)

def split (b size : ℕ) : Option Heap := do
  let n ← h.sizeOf b
  if n < (size + HDR + 8) % 2 ^ 32 then some h
  else do
    let rest := (b + HDR + size) % 2 ^ 32
    let h ← h.setSize rest ((n + 2 * 2 ^ 32 - size - HDR) % 2 ^ 32)
    let h ← h.setNext rest (← h.nextOf b)
    let h ← h.setFree rest 1
    let h ← h.setSize b size
    h.setNext b rest

def malloc (size : ℕ) : Option (ℕ × Heap) :=
  if size = 0 then some (0, h)
  else do
    let size := ((size + 7) % 2 ^ 32) &&& 0xFFFFFFF8
    let b ← h.findFree size
    if b ≠ 0 then do
      let h ← h.split b size
      let h ← h.setFree b 0
      some ((b + HDR) % 2 ^ 32, h)
    else do
      let (b, h) ← h.grow size
      if b = 0 then some (0, h)
      else do
        let h ← h.split b size
        some ((b + HDR) % 2 ^ 32, h)

/-- The loop of `free`. -/
def coalesce (b : ℕ) : ℕ → Heap → Option Heap
  | 0, _ => none
  | turns + 1, h => do
      let next ← h.nextOf b
      if next = 0 then some h
      else do
        let free ← h.freeOf next
        if free = 0 then some h
        else do
          let n ← h.sizeOf b
          if (b + HDR + n) % 2 ^ 32 ≠ next then some h
          else do
            let n' ← h.sizeOf next
            let h ← h.setSize b ((n + (HDR + n')) % 2 ^ 32)
            let h ← h.setNext b (← h.nextOf (← h.nextOf b))
            coalesce b turns h

def free (ptr : ℕ) : Option Heap :=
  if ptr = 0 then some h
  else do
    let b := (ptr + 2 ^ 32 - HDR) % 2 ^ 32
    let h ← h.setFree b 1
    coalesce b TURNS h

/-! ## Bytes -/

def store8 (a : ℕ) (b : UInt8) : Option Heap :=
  (h.mem a).map fun _ ↦ { h with mem := Function.update h.mem a (some b) }

def memset (h : Heap) (dst : ℕ) (value : UInt8) : ℕ → Option Heap
  | 0 => some h
  | n + 1 => do
      let h ← h.store8 dst value
      memset h (dst + 1) value n

def memcpy (h : Heap) (dst src : ℕ) : ℕ → Option Heap
  | 0 => some h
  | n + 1 => do
      let b ← h.mem src
      let h ← h.store8 dst b
      memcpy h (dst + 1) (src + 1) n

def calloc (n size : ℕ) : Option (ℕ × Heap) :=
  let total := n * size % 2 ^ 32
  if n ≠ 0 ∧ total / n ≠ size then some (0, h)
  else do
    let (p, h) ← h.malloc total
    if p ≠ 0 then do
      let h ← h.memset p 0 total
      some (p, h)
    else some (p, h)

def realloc (ptr size : ℕ) : Option (ℕ × Heap) :=
  if ptr = 0 then h.malloc size
  else if size = 0 then do
    let h ← h.free ptr
    some (0, h)
  else do
    let b := (ptr + 2 ^ 32 - HDR) % 2 ^ 32
    if size ≤ (← h.sizeOf b) then some (ptr, h)
    else do
      let (np, h) ← h.malloc size
      if np ≠ 0 then do
        let h ← h.memcpy np ptr (← h.sizeOf b)
        let h ← h.free ptr
        some (np, h)
      else some (np, h)

end Heap

/-- A program begins without blocks, with its break above its image; no old break
is mistaken for an error. -/
structure Beginning where
  mem : Bytes
  start : ℕ
  limit : ℕ
  refuse : ℕ → Bool
  fresh : ℕ → UInt8
  start_pos : 0 < start
  start_le : start ≤ 2 ^ 32
  limit_le : limit ≤ 2 ^ 32

def Beginning.heap (s : Beginning) : Heap :=
  ⟨s.mem, 0, s.start, 0, [], s.limit, s.refuse, fun _ ↦ false, s.fresh, s.limit_le⟩

inductive HeapOp
  | malloc (size : ℕ)
  | calloc (n size : ℕ)
  | realloc (ptr size : ℕ)
  | free (ptr : ℕ)

/-- The pointer that is returned, 0 for `free`. -/
def HeapOp.run (h : Heap) : HeapOp → Option (ℕ × Heap)
  | malloc size => h.malloc size
  | calloc n size => h.calloc n size
  | realloc ptr size => h.realloc ptr size
  | free ptr => (h.free ptr).map fun h ↦ (0, h)

end Libc

end EclipseOS
