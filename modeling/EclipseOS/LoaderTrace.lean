import EclipseOS.Relocating

/-!
# What the loader touches

The accesses of a run of `elf_load`, in order: bytes read through `data`,
bytes of dynamic entries and relocation records, bytes stored, and pages mapped.
The run itself is that of the functions of `elf.c`; a turn that faults is the
last one in the record.
-/

namespace EclipseOS

open LittleEndian

inductive Access
  | data (off : ℕ)
  | read (va : ℕ)
  | write (va : ℕ)
  | map (va : ℕ)
  deriving DecidableEq

namespace Access

def dataBytes (off n : ℕ) : List Access := (List.range n).map fun k ↦ data ((off + k) % 2 ^ 32)
def readBytes (va n : ℕ) : List Access := (List.range n).map fun k ↦ read ((va + k) % 2 ^ 32)
def writeBytes (va n : ℕ) : List Access := (List.range n).map fun k ↦ write ((va + k) % 2 ^ 32)

end Access

open Access

/-- The record of a loop whose turns record `turn`. -/
def foldTrace {σ ι : Type} (step : σ → ι → Option σ) (turn : σ → ι → List Access) :
    σ → List ι → List Access
  | _, [] => []
  | s, i :: l => turn s i ++
      match step s i with
      | none => []
      | some s => foldTrace step turn s l

namespace Machine

def loadPageTrace (s : ElfLoop) (v : ℕ) : List Access :=
  if s.outOfMemory ∨ s.machine.pmmAllocFrame.1 = 0 then [] else .map v :: writeBytes v PAGE_SIZE

def copyTrace (m : Machine) (data : Image) (dst off : ℕ) : ℕ → List Access
  | 0 => []
  | size + 1 => .data (off % 2 ^ 32) :: .write (dst % 2 ^ 32) ::
      match m.store8 dst (data (off % 2 ^ 32)) with
      | none => []
      | some m => copyTrace m data (dst + 1) (off + 1) size

/-- The fields of header `i` and what is done with them. -/
def loadSegmentTrace (data : Image) (base : ℕ) (s : ElfLoop) (i : ℕ) : List Access :=
  if s.outOfMemory then []
  else dataBytes (data.phdr i) 4 ++
    if data.pType i ≠ PT_LOAD then []
    else
      let pages := pagesBetween (data.segStart base i) (data.segEnd base i)
      let s := { s with highest := max s.highest (data.segEnd base i) }
      dataBytes (data.phdr i + 8) 4 ++ dataBytes (data.phdr i + 20) 4 ++
        foldTrace loadPage loadPageTrace s pages ++
        match pages.foldlM loadPage s with
        | none => []
        | some s =>
            if s.outOfMemory then []
            else dataBytes (data.phdr i + 4) 4 ++ dataBytes (data.phdr i + 16) 4 ++
              copyTrace s.machine data ((base + data.pVaddr i) % 2 ^ 32) (data.pOffset i)
                (data.pFilesz i)

/-- `d_val` is read for the three tags that have a case. -/
def scanTrace (m : Machine) (base : ℕ) (info : DynInfo) : ℕ → ℕ → List Access
  | 0, _ => []
  | fuel + 1, d => readBytes d 4 ++
      match m.load32 d with
      | none => []
      | some tag =>
          if tag = DT_NULL then []
          else (if tag = DT_REL ∨ tag = DT_RELSZ ∨ tag = DT_RELENT then readBytes (d + 4) 4 else []) ++
            match m.dynEntry base info d tag with
            | none => []
            | some info => scanTrace m base info fuel ((d + DYN_SIZE) % 2 ^ 32)

def recordTrace (m : Machine) (base a : ℕ) : List Access :=
  readBytes (a + 4) 4 ++
    match m.load32 (a + 4) with
    | none => []
    | some rInfo =>
        if rInfo &&& 0xFF = R_386_RELATIVE then
          readBytes a 4 ++
            match m.load32 a with
            | none => []
            | some rOffset => writeBytes ((base + rOffset) % 2 ^ 32) 4
        else []

def relocateTrace (m : Machine) (base : ℕ) (info : DynInfo) : ℕ → ℕ → List Access
  | 0, _ => []
  | fuel + 1, off =>
      if off < info.relsz then
        recordTrace m base (info.rel + off) ++
          match m.relocateRecord base (info.rel + off) with
          | none => []
          | some m => relocateTrace m base info fuel ((off + info.relent) % 2 ^ 32)
      else []

/-- The search for `PT_DYNAMIC`. -/
def dynamicHeaderTrace (data : Image) : List Access :=
  (List.range data.ePhnum).flatMap fun i ↦ dataBytes (data.phdr i) 4 ++
    if data.pType i = PT_DYNAMIC then dataBytes (data.phdr i + 8) 4 else []

def dynamicTrace (m : Machine) (data : Image) (base : ℕ) : List Access :=
  match dynamicHeader data with
  | none => []
  | some i =>
      let dyn := (base + data.pVaddr i) % 2 ^ 32
      if dyn = 0 then []
      else scanTrace m base ⟨0, 0, REL_SIZE⟩ (2 ^ 32 + 1) dyn ++
        match m.scanDynamic base ⟨0, 0, REL_SIZE⟩ (2 ^ 32 + 1) dyn with
        | none => []
        | some info => relocateTrace m base info (2 ^ 32 + 1) 0

def applyRelocationsTrace (m : Machine) (data : Image) (base : ℕ) : List Access :=
  dynamicHeaderTrace data ++ dynamicTrace m data base

/-- The four tests on the header. -/
def headerTrace (data : Image) (size : ℕ) : List Access :=
  if size < EHDR_SIZE then []
  else dataBytes 0 4 ++
    if ¬ (data 0 = 0x7F ∧ data 1 = 0x45 ∧ data 2 = 0x4C ∧ data 3 = 0x46) then []
    else dataBytes 4 1 ++
      if data 4 ≠ 1 then []
      else dataBytes 18 2 ++
        if data.eMachine ≠ EM_386 then [] else dataBytes 16 2

def elfTrace (m : Machine) (data : Image) (size : ℕ) : List Access :=
  headerTrace data size ++
    match data.headerBase size with
    | none => []
    | some base =>
        dataBytes 28 4 ++ dataBytes 44 2 ++
          foldTrace (loadSegment data base) (loadSegmentTrace data base) ⟨m, 0, false⟩
            (List.range data.ePhnum) ++
          match (List.range data.ePhnum).foldlM (loadSegment data base) ⟨m, 0, false⟩ with
          | none => []
          | some s =>
              if s.outOfMemory then []
              else dataBytes 28 4 ++ dataBytes 44 2 ++ s.machine.applyRelocationsTrace data base ++
                dataBytes 24 4

end Machine

/-- Pages are mapped in user space only, and every byte stored is in a page
that was mapped. -/
def StaysInUserSpace (T : List Access) : Prop :=
  (∀ v, .map v ∈ T → 2 ^ 22 ≤ v ∧ v + PAGE_SIZE ≤ 3 * 2 ^ 30) ∧
  ∀ va, .write va ∈ T → ∃ v, .map v ∈ T ∧ v ≤ va ∧ va < v + PAGE_SIZE

/-- Every byte of the file is read inside it, and every byte of a dynamic entry
or a relocation record in a page that was mapped. -/
def ReadsItsInput (size : ℕ) (T : List Access) : Prop :=
  (∀ off, .data off ∈ T → off < size) ∧
  ∀ va, .read va ∈ T → ∃ v, .map v ∈ T ∧ v ≤ va ∧ va < v + PAGE_SIZE

end EclipseOS
