import EclipseOS.Paging

/-!
# ELF loader

`elf_load` and `apply_relocations` of `elf.c`.  `data` is the memory from the
image buffer on, so offsets read from the file may leave the file; sums of
file fields are taken modulo `2 ^ 32` as in the source.  Console output is not
modelled.
-/

namespace EclipseOS

open LittleEndian

def PT_LOAD : ℕ := 1
def PT_DYNAMIC : ℕ := 2
def ET_EXEC : ℕ := 2
def ET_DYN : ℕ := 3
def EM_386 : ℕ := 3
def DT_NULL : ℕ := 0
def DT_REL : ℕ := 17
def DT_RELSZ : ℕ := 18
def DT_RELENT : ℕ := 19
def R_386_RELATIVE : ℕ := 8
def EHDR_SIZE : ℕ := 52
def PHDR_SIZE : ℕ := 32
def DYN_SIZE : ℕ := 8
def REL_SIZE : ℕ := 8
/-- Load address of position-independent images. -/
def DYN_BASE : ℕ := 0x40000000

abbrev Image := ℕ → UInt8

namespace Image

variable (data : Image)

def half (off : ℕ) : ℕ :=
  (data (off % 2 ^ 32)).toNat + 2 ^ 8 * (data ((off + 1) % 2 ^ 32)).toNat

def u32 (off : ℕ) : ℕ :=
  joinBytes (data (off % 2 ^ 32)) (data ((off + 1) % 2 ^ 32)) (data ((off + 2) % 2 ^ 32))
    (data ((off + 3) % 2 ^ 32))

def eType : ℕ := data.half 16
def eMachine : ℕ := data.half 18
def eEntry : ℕ := data.u32 24
def ePhoff : ℕ := data.u32 28
def ePhnum : ℕ := data.half 44

/-- Offset of program header `i`. -/
def phdr (i : ℕ) : ℕ := data.ePhoff + PHDR_SIZE * i

def pType (i : ℕ) : ℕ := data.u32 (data.phdr i)
def pOffset (i : ℕ) : ℕ := data.u32 (data.phdr i + 4)
def pVaddr (i : ℕ) : ℕ := data.u32 (data.phdr i + 8)
def pFilesz (i : ℕ) : ℕ := data.u32 (data.phdr i + 16)
def pMemsz (i : ℕ) : ℕ := data.u32 (data.phdr i + 20)

/-- The four tests `elf_load` makes, with the load base on success. -/
def headerBase (size : ℕ) : Option ℕ :=
  if size < EHDR_SIZE then none
  else if ¬ (data 0 = 0x7F ∧ data 1 = 0x45 ∧ data 2 = 0x4C ∧ data 3 = 0x46) then none
  else if data 4 ≠ 1 then none
  else if data.eMachine ≠ EM_386 then none
  else if data.eType = ET_DYN then some DYN_BASE
  else if data.eType ≠ ET_EXEC then none
  else some 0

/-- Page range of segment `i`, loaded at `base`. -/
def segStart (base i : ℕ) : ℕ := (base + data.pVaddr i) % 2 ^ 32 &&& PAGE_MASK
def segEnd (base i : ℕ) : ℕ :=
  (base + data.pVaddr i + data.pMemsz i + 0xFFF) % 2 ^ 32 &&& PAGE_MASK

end Image

/-- The addresses a loop `for (a = start; a < stop; a += 0x1000)` visits when
the counter does not wrap. -/
def pagesBetween (start stop : ℕ) : List ℕ :=
  (List.range ((stop - start + 0xFFF) / 0x1000)).map fun i ↦ start + 0x1000 * i

structure ElfLoop where
  machine : Machine
  highest : ℕ
  outOfMemory : Bool

namespace Machine

/-- One page of a segment: allocate, map, clear. -/
def loadPage (s : ElfLoop) (v : ℕ) : Option ElfLoop := do
  if s.outOfMemory then return s
  let (frame, m) := s.machine.pmmAllocFrame
  if frame = 0 then return { s with machine := m, outOfMemory := true }
  let m ← m.pagingMap v frame (PAGE_USER ||| PAGE_WRITE)
  let m ← m.memset v 0 PAGE_SIZE
  return { s with machine := m }

def loadSegment (data : Image) (base : ℕ) (s : ElfLoop) (i : ℕ) : Option ElfLoop := do
  if s.outOfMemory ∨ data.pType i ≠ PT_LOAD then return s
  let start := data.segStart base i
  let stop := data.segEnd base i
  let s := { s with highest := max s.highest stop }
  let s ← (pagesBetween start stop).foldlM loadPage s
  if s.outOfMemory then return s
  let m ← s.machine.memcpyFrom ((base + data.pVaddr i) % 2 ^ 32) data (data.pOffset i)
    (data.pFilesz i)
  return { s with machine := m }

structure DynInfo where
  rel : ℕ
  relsz : ℕ
  relent : ℕ

/-- The `switch` over the tag of the entry at `d`. -/
def dynEntry (m : Machine) (base : ℕ) (info : DynInfo) (d tag : ℕ) : Option DynInfo :=
  if tag = DT_REL then (m.load32 (d + 4)).map fun val ↦ { info with rel := (base + val) % 2 ^ 32 }
  else if tag = DT_RELSZ then (m.load32 (d + 4)).map fun val ↦ { info with relsz := val }
  else if tag = DT_RELENT then (m.load32 (d + 4)).map fun val ↦ { info with relent := val }
  else some info

/-- The walk over the dynamic section.  It reads memory only, so after as many
turns as there are entry addresses it repeats itself for ever. -/
def scanDynamic (m : Machine) (base : ℕ) (info : DynInfo) : ℕ → ℕ → Option DynInfo
  | 0, _ => none
  | fuel + 1, d => do
      let tag ← m.load32 d
      if tag = DT_NULL then return info
      let info ← m.dynEntry base info d tag
      scanDynamic m base info fuel ((d + DYN_SIZE) % 2 ^ 32)

/-- The relocation loop.  Its exit test depends on `off` alone, which takes at
most `2 ^ 32` values before it repeats. -/
def relocate (m : Machine) (base : ℕ) (info : DynInfo) : ℕ → ℕ → Option Machine
  | 0, _ => none
  | fuel + 1, off =>
      if off < info.relsz then do
        let rInfo ← m.load32 (info.rel + off + 4)
        let m ←
          if rInfo &&& 0xFF = R_386_RELATIVE then do
            let rOffset ← m.load32 (info.rel + off)
            let v ← m.load32 ((base + rOffset) % 2 ^ 32)
            m.store32 ((base + rOffset) % 2 ^ 32) (v + base)
          else some m
        relocate m base info fuel ((off + info.relent) % 2 ^ 32)
      else some m

/-- The last `PT_DYNAMIC` header wins. -/
def dynamicHeader (data : Image) : Option ℕ :=
  (List.range data.ePhnum).reverse.find? fun i ↦ data.pType i = PT_DYNAMIC

/-- A zero address of the dynamic section reads as "no dynamic section". -/
def applyRelocations (m : Machine) (data : Image) (base : ℕ) : Option Machine :=
  match dynamicHeader data with
  | none => some m
  | some i =>
      let dyn := (base + data.pVaddr i) % 2 ^ 32
      if dyn = 0 then some m
      else do
        let info ← m.scanDynamic base ⟨0, 0, REL_SIZE⟩ (2 ^ 32 + 1) dyn
        m.relocate base info (2 ^ 32 + 1) 0

/-- Entry point (0 on failure), break, machine. -/
def elfLoad (m : Machine) (data : Image) (size : ℕ) : Option (ℕ × ℕ × Machine) := do
  match data.headerBase size with
  | none => return (0, 0, m)
  | some base =>
      let s ← (List.range data.ePhnum).foldlM (loadSegment data base) ⟨m, 0, false⟩
      if s.outOfMemory then return (0, 0, s.machine)
      let m ← s.machine.applyRelocations data base
      return ((base + data.eEntry) % 2 ^ 32, s.highest, m)

end Machine

end EclipseOS
