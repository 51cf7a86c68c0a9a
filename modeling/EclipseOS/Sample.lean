import EclipseOS.System

/-!
# A small machine

Frame 1 is the directory, frame 2 the table of the identity map, frame 3 the
table of one user page, frame 4 the table of the kernel heap and frame 5 the
user page, which begins with the string `a`.  Every frame below 1024 is in use,
as many as `free` above are not.
-/

namespace EclipseOS

open LittleEndian

namespace Sample

def entry (frame flags : ℕ) : ℕ := frame * PAGE_SIZE + flags

def directory (d : ℕ) : ℕ :=
  if d = 0 then entry 2 3
  else if d = 1 then entry 3 7
  else if d = 768 then entry 4 3
  else if d = 1023 then entry 1 3
  else 0

def userTable (t : ℕ) : ℕ := if t = 0 then entry 5 7 else 0

/-- Heap pages are in the frames from 16 on. -/
def heapTable (t : ℕ) : ℕ := if t < 256 then entry (16 + t) 3 else 0

def memory (f : ℕ) : Page :=
  if f = 1 then ofWords directory
  else if f = 2 then ofWords fun t ↦ entry t 3
  else if f = 3 then ofWords userTable
  else if f = 4 then ofWords heapTable
  else if f = 5 then ofWords fun i ↦ if i = 0 then 0x61 else 0
  else ofWords fun _ ↦ 0

instance framesNeZero : NeZero 4096 := ⟨by decide⟩

def machine (free : Fin 4096) : Machine where
  mem := memory
  cr3 := entry 1 0
  frameBitmap := fun w ↦ if w < 32 then BitVec.allOnes 32 else 0
  totalFrames := 1024 + free
  lastAlloc := 0
  calls := []
  totalFrames_lt := by omega

def heap : Kheap := ⟨0xC0000000, 0xC0100000, 0xC0000000⟩

/-- One file, named `a`. -/
def file : FsNode := ⟨[0x61], 8, fun i ↦ UInt8.ofNat i⟩

def kernel (free : Fin 4096) : Kernel := .bss (machine free) heap [file]

/-- Process 0 enters user mode. -/
def boot (free : Fin 4096) : System := .boot (kernel free) 0 0x401000

/-! ## Files -/

/-- The directory has no user entry. -/
def emptySpace : Machine := { machine 4 with
  mem := Function.update memory 1 (ofWords fun d ↦ if d = 1 then 0 else directory d) }

/-- The same with more frames. -/
def userless (free : Fin 4096) : Machine := { machine free with
  mem := Function.update memory 1 (ofWords fun d ↦ if d = 1 then 0 else directory d) }

def wordBytes (w : ℕ) : List UInt8 := (List.range 4).map (byteOf w)

/-- Header, program headers of eight words each, and the rest of the file. -/
def elfFile (type entry : ℕ) (phdrs : List (List ℕ)) (rest : List UInt8) : Image := fun off ↦
  let ident := [0x7F, 0x45, 0x4C, 0x46, 1, 1, 1, 0, 0, 0, 0, 0, 0, 0, 0, 0]
  let header := ident ++ wordBytes (type + 2 ^ 16 * EM_386) ++ wordBytes 1 ++ wordBytes entry ++
    wordBytes EHDR_SIZE ++ wordBytes 0 ++ wordBytes 0 ++ wordBytes (EHDR_SIZE + 2 ^ 16 * PHDR_SIZE) ++
    wordBytes phdrs.length ++ wordBytes 0
  (header ++ phdrs.flatten.flatMap wordBytes ++ rest).getD off 0

/-- A `PT_LOAD` header. -/
def loadHeader (offset vaddr filesz memsz : ℕ) : List ℕ :=
  [PT_LOAD, offset, vaddr, 0, filesz, memsz, 0, 0]

/-- Four bytes of the file and four of zero at 4 MiB. -/
def program : Image := elfFile ET_EXEC 0x400000 [loadHeader 84 0x400000 4 8] [0x90, 0x90, 0x90, 0xF4]

/-- Process 0 before its `execve`, and the program as the file `a`. -/
def firstProcess (free : Fin 4096) : Kernel :=
  ({ kernel free with machine := userless free, files := [⟨[0x61], 88, program⟩] }).processInitialize
    0xC0100000

/-- The one program header is not in the file. -/
def headlessProgram : Image := elfFile ET_EXEC 0x400000 [List.replicate 8 0] []

/-- Four bytes for an address of the identity map, and no page. -/
def strayProgram : Image := elfFile ET_EXEC 0x400000 [loadHeader 0 0x102000 4 0] []

/-- Four bytes of code, and four bytes of zero in the same page. -/
def sharedPage : Image := elfFile ET_EXEC 0x400000
  [loadHeader 116 0x400000 4 4, loadHeader 0 0x400800 0 4] [0x90, 0x90, 0x90, 0xF4]

/-- A dynamic section with one record, and steps of zero. -/
def endlessProgram : Image := elfFile ET_EXEC 0x400000
  [loadHeader 116 0x400000 40 40, [PT_DYNAMIC, 116, 0x400000, 0, 32, 32, 0, 0]]
  ([DT_RELSZ, 8, DT_RELENT, 0, DT_REL, 0x400020, DT_NULL, 0, 0, 0].flatMap wordBytes)

/-- Position-independent, with two records.  The first one is for the word over the
type of the second. -/
def movedProgram : Image := elfFile ET_DYN 0
  [loadHeader 116 0 44 44, [PT_DYNAMIC, 116, 0, 0, 24, 24, 0, 0]]
  ([DT_REL, 24, DT_RELSZ, 16, DT_NULL, 0, 36, R_386_RELATIVE, 40, R_386_RELATIVE, 40].flatMap wordBytes)

end Sample

end EclipseOS
