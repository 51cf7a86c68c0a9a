import EclipseOS.Machine

/-!
# Paging

The functions of `paging.c`, written over the recursive window: `pdVirt` and
`ptVirt` are virtual addresses, and every access to a directory or a table
goes through `load32` and `store32`.  The processor here has no stale
translations, which is what the `invlpg` calls of the source provide.
-/

namespace EclipseOS

def pdVirt (d : ℕ) : ℕ := 0xFFFFF000 + 4 * d
def ptVirt (d t : ℕ) : ℕ := 0xFFC00000 + (d <<< 12) + 4 * t

def TMP_VIRT : ℕ := 0xFFBFF000
def TMP2_VIRT : ℕ := 0xFFBFE000
def KERNEL_DIR_START : ℕ := 768
/-- What `paging_virt_to_phys` answers for an unmapped address. -/
def NOT_MAPPED : ℕ := 0xFFFFFFFF
def PAGE_MASK : ℕ := 0xFFFFF000

namespace Machine

/-- The step of `paging_map` that provides the page table of entry `d`.  The
frame is stored without a test for the allocator's 0. -/
def pagingEnsureTable (m : Machine) (d : ℕ) : Option Machine := do
  let pde ← m.load32 (pdVirt d)
  if pde &&& PAGE_PRESENT = 0 then
    let (frame, m) := m.pmmAllocFrame
    let m ← m.store32 (pdVirt d) (frame ||| PAGE_PRESENT ||| PAGE_WRITE)
    m.memset (ptVirt d 0) 0 PAGE_SIZE
  else
    return m

def pagingMap (m : Machine) (virt phys flags : ℕ) : Option Machine := do
  let m := m.log (.map virt phys flags)
  let d := virt >>> 22
  let t := (virt >>> 12) &&& 0x3FF
  let m ← m.pagingEnsureTable d
  let pde ← m.load32 (pdVirt d)
  let m ← m.store32 (pdVirt d) (pde ||| (flags &&& PAGE_USER))
  m.store32 (ptVirt d t) ((phys &&& PAGE_MASK) ||| flags ||| PAGE_PRESENT)

def pagingUnmap (m : Machine) (virt : ℕ) : Option Machine := do
  let m := m.log (.unmap virt)
  let d := virt >>> 22
  let pde ← m.load32 (pdVirt d)
  if pde &&& PAGE_PRESENT = 0 then return m
  m.store32 (ptVirt d ((virt >>> 12) &&& 0x3FF)) 0

def pagingVirtToPhys (m : Machine) (virt : ℕ) : Option ℕ := do
  let d := virt >>> 22
  let t := (virt >>> 12) &&& 0x3FF
  let pde ← m.load32 (pdVirt d)
  if pde &&& PAGE_PRESENT = 0 then return NOT_MAPPED
  let pte ← m.load32 (ptVirt d t)
  if pte &&& PAGE_PRESENT = 0 then return NOT_MAPPED
  return (pte &&& PAGE_MASK) ||| (virt &&& 0xFFF)

def pagingIsUser (m : Machine) (virt : ℕ) : Option Bool := do
  let d := virt >>> 22
  let t := (virt >>> 12) &&& 0x3FF
  let need := PAGE_PRESENT ||| PAGE_USER
  let pde ← m.load32 (pdVirt d)
  if pde &&& need ≠ need then return false
  let pte ← m.load32 (ptVirt d t)
  return pte &&& need == need

def pagingTmpMap (m : Machine) (phys : ℕ) : Option Machine := m.pagingMap TMP_VIRT phys PAGE_WRITE

def pagingTmp2Map (m : Machine) (phys : ℕ) : Option Machine :=
  m.pagingMap TMP2_VIRT phys PAGE_WRITE

/-- `nd[i] = PD_VIRT[i]`, the new directory being mapped at the scratch slot. -/
def shareEntry (m : Machine) (i : ℕ) : Option Machine := do
  let pde ← m.load32 (pdVirt i)
  m.store32 (TMP_VIRT + 4 * i) pde

def pagingNewDirectory (m : Machine) : Option (ℕ × Machine) := do
  let (frame, m) := m.pmmAllocFrame
  let m ← m.pagingTmpMap frame
  let m ← m.memset TMP_VIRT 0 PAGE_SIZE
  let m ← m.shareEntry 0
  let m ← (List.range' KERNEL_DIR_START (1023 - KERNEL_DIR_START)).foldlM shareEntry m
  let m ← m.store32 (TMP_VIRT + 4 * 1023) (frame ||| PAGE_PRESENT ||| PAGE_WRITE)
  return (frame, m)

def pagingCurrentDirectory (m : Machine) : ℕ := m.cr3 &&& PAGE_MASK

def pagingSwitchDirectory (m : Machine) (phys : ℕ) : Machine := { m with cr3 := phys }

/-- One turn of the inner loop: `pt[t]` through the second scratch slot. -/
def freeEntry (m : Machine) (t : ℕ) : Option Machine := do
  let pte ← m.load32 (TMP2_VIRT + 4 * t)
  if pte &&& PAGE_PRESENT = 0 then return m
  return m.pmmFreeFrame (pte &&& PAGE_MASK)

/-- One turn of the outer loop: `pd[d]` through the first scratch slot. -/
def freeTable (m : Machine) (d : ℕ) : Option Machine := do
  let pde ← m.load32 (TMP_VIRT + 4 * d)
  if pde &&& PAGE_PRESENT = 0 then return m
  let tableFrame := pde &&& PAGE_MASK
  let m ← m.pagingTmp2Map tableFrame
  let m ← (List.range 1024).foldlM freeEntry m
  return m.pmmFreeFrame tableFrame

def pagingFreeDirectory (m : Machine) (phys : ℕ) : Option Machine := do
  let m := m.log (.freeDirectory phys)
  let m ← m.pagingTmpMap phys
  let m ← (List.range' 1 (KERNEL_DIR_START - 1)).foldlM freeTable m
  let m := m.pmmFreeFrame phys
  let m ← m.pagingUnmap TMP_VIRT
  m.pagingUnmap TMP2_VIRT

end Machine

end EclipseOS
