import EclipseOS.Elf

/-!
# Building the frame bitmap

`pmm_initialize`: three passes over what the boot loader hands over.  The
memory map and the modules are given as lists; a pass is the list of writes it
makes into the bitmap, which starts at `kernel_end`.
-/

namespace EclipseOS

def MULTIBOOT_MEMORY_AVAILABLE : BitVec 32 := 1
/-- `sizeof(struct multiboot_module)`. -/
def SIZEOF_MODULE : ℕ := 16
/-- Where `linker.ld` puts `kernel_start`. -/
def KERNEL_START : ℕ := 0x100000

structure MultibootMmapEntry where
  addr : BitVec 64
  len : BitVec 64
  type : BitVec 32

structure MultibootModule where
  modStart : BitVec 32
  modEnd : BitVec 32

/-- The linker's end of the image, with room for any bitmap behind it. -/
structure KernelImage where
  kernelEnd : ℕ
  start_lt : KERNEL_START < kernelEnd
  end_le : kernelEnd + 2 ^ 17 ≤ 2 ^ 32

/-- `hasMods` is the bit `MULTIBOOT_INFO_MODS` of `flags`, and `mods_count` the
length of `mods`; the array of modules lies inside the address space. -/
structure MultibootInfo where
  mmapAddr : ℕ
  mmapLength : ℕ
  mmap : List MultibootMmapEntry
  hasMods : Bool
  modsAddr : ℕ
  mods : List MultibootModule
  mods_le : modsAddr + SIZEOF_MODULE * mods.length ≤ 2 ^ 32

inductive BitmapWrite
  | fill (bytes : ℕ)
  | set (frame : ℕ)
  | clear (frame : ℕ)
  deriving DecidableEq

namespace MultibootMmapEntry

variable (e : MultibootMmapEntry)

def available : Bool := e.type == MULTIBOOT_MEMORY_AVAILABLE

/-- `(uint32_t) (e->addr + e->len)`. -/
def top : ℕ := (e.addr.toNat + e.len.toNat) % 2 ^ 32

def base32 : ℕ := e.addr.toNat % 2 ^ 32
def stop32 : ℕ := (e.base32 + e.len.toNat % 2 ^ 32) % 2 ^ 32

/-- The clearing loop of one entry.  Where its counter passes 4 GiB below the
stop it starts over at the bottom and never ends. -/
def clearRegion : Option (List BitmapWrite) :=
  if !e.available then some []
  else if 0xFFFFF000 + e.base32 % 4096 < e.stop32 then none
  else some ((pagesBetween e.base32 e.stop32).map fun a ↦ .clear (a / PAGE_SIZE))

end MultibootMmapEntry

/-- `for (f = first; f <= last; f++) frame_set(f)`. -/
def setFrames (first last : ℕ) : List BitmapWrite :=
  (List.range' first (last + 1 - first)).map .set

namespace MultibootInfo

variable (mbi : MultibootInfo)

def highest : ℕ :=
  mbi.mmap.foldl (fun h e ↦ if e.available ∧ h < e.top then e.top else h) 0

def totalFrames : ℕ := mbi.highest / PAGE_SIZE

def bitmapBytes : ℕ := (mbi.totalFrames + 7) / 8

def clearRegions : Option (List BitmapWrite) :=
  mbi.mmap.foldlM (fun ws e ↦ e.clearRegion.map (ws ++ ·)) []

/-- `x - 1` of an unsigned word. -/
def pred32 (x : ℕ) : ℕ := (x + (2 ^ 32 - 1)) % 2 ^ 32

def setModule (mod : MultibootModule) : List BitmapWrite :=
  setFrames (mod.modStart.toNat / PAGE_SIZE) (pred32 mod.modEnd.toNat / PAGE_SIZE)

/-- The third pass. -/
def setReserved (img : KernelImage) : List BitmapWrite :=
  let bmpEnd := (img.kernelEnd + mbi.bitmapBytes) % 2 ^ 32
  (pagesBetween 0 0x100000).map (fun a ↦ .set (a / PAGE_SIZE)) ++
    setFrames (KERNEL_START / PAGE_SIZE) (pred32 bmpEnd / PAGE_SIZE) ++
    if mbi.hasMods then
      mbi.mods.flatMap setModule ++
        setFrames (mbi.modsAddr / PAGE_SIZE)
          (pred32 ((mbi.modsAddr + mbi.mods.length * SIZEOF_MODULE) % 2 ^ 32) / PAGE_SIZE)
    else []

/-- All writes of `pmm_initialize`, in their order. -/
def pmmWrites (img : KernelImage) : Option (List BitmapWrite) := do
  let cleared ← mbi.clearRegions
  return .fill mbi.bitmapBytes :: cleared ++ mbi.setReserved img

theorem highest_lt : mbi.highest < 2 ^ 32 := by
  have h : ∀ (l : List MultibootMmapEntry) (h : ℕ), h < 2 ^ 32 →
      l.foldl (fun h e ↦ if e.available ∧ h < e.top then e.top else h) h < 2 ^ 32 := by
    intro l
    induction l with
    | nil => exact fun h hlt ↦ hlt
    | cons e l ih =>
        intro h hlt
        refine ih _ ?_
        dsimp only
        split
        · exact Nat.mod_lt _ (by norm_num)
        · exact hlt
  exact h _ 0 (by norm_num)

end MultibootInfo

namespace Machine

/-- `memset(frame_bitmap, 0xFF, bytes)`: bit `f` is in byte `f / 8`. -/
def frameFill (m : Machine) (bytes : ℕ) : Machine :=
  { m with frameBitmap := fun w ↦
      m.frameBitmap w ||| BitVec.ofNat 32 (2 ^ (8 * bytes - 32 * w) - 1) }

def applyWrite (m : Machine) : BitmapWrite → Machine
  | .fill bytes => m.frameFill bytes
  | .set frame => m.frameSet frame
  | .clear frame => m.frameClear frame

def pmmInitialize (m : Machine) (mbi : MultibootInfo) (img : KernelImage) : Option Machine := do
  let ws ← mbi.pmmWrites img
  return { ws.foldl applyWrite m with
    totalFrames := mbi.totalFrames
    totalFrames_lt := Nat.div_lt_of_lt_mul mbi.highest_lt }

end Machine

end EclipseOS
