import EclipseOS.Process

/-!
# The initial ramdisk

`initrd_initialize` walks a tar archive in memory and registers its regular
files; `vfs_read`, `vfs_readdir` and `vfs_finddir` answer from that list.
-/

namespace EclipseOS

def MAX_FILES : ℕ := 64
/-- Space for a name with its terminator in `struct fs_node`. -/
def FS_NAME_SIZE : ℕ := 128

/-- Offsets of the fields of `struct ustar_header` the loader looks at. -/
def USTAR_SIZE : ℕ := 124
def USTAR_TYPEFLAG : ℕ := 156
def USTAR_MAGIC : ℕ := 257

/-- Nodes of the mounted file system: its directory and the files by `inode`. -/
inductive VfsNode
  | root
  | file (inode : ℕ)
  deriving DecidableEq

namespace Initrd

variable (mem : ℕ → UInt8)

def octalToInt (s : ℕ) : ℕ → ℕ → ℕ
  | 0, v => v
  | len + 1, v =>
      if 0x30 ≤ mem s ∧ mem s ≤ 0x37 then
        octalToInt (s + 1) len ((v * 8 + ((mem s).toNat - 0x30)) % 2 ^ 32)
      else v

/-- The string `strncpy` leaves in a buffer of more than `n` bytes. -/
def strncpy (src : ℕ) : ℕ → List UInt8
  | 0 => []
  | n + 1 => if mem src = 0 then [] else mem src :: strncpy (src + 1) n

/-- `memcmp(h->magic, "ustar", 5) == 0`. -/
def isUstar (h : ℕ) : Bool :=
  (List.range 5).map (fun i ↦ mem (h + USTAR_MAGIC + i)) == [0x75, 0x73, 0x74, 0x61, 0x72]

def isRegular (typeflag : UInt8) : Bool := typeflag == 0x30 || typeflag == 0

/-- The entry of a regular file whose header is at `h`. -/
def fileNode (h size : ℕ) : FsNode :=
  ⟨strncpy mem h (FS_NAME_SIZE - 1), size, fun i ↦ mem (h + 512 + i)⟩

/-- The walk over the headers. -/
def walk : ℕ → ℕ → List FsNode → Option (List FsNode)
  | 0, _, _ => none
  | fuel + 1, ptr, files =>
      if MAX_FILES ≤ files.length then some files
      else if mem ptr = 0 then some files
      else if !isUstar mem ptr then some files
      else
        let size := octalToInt mem (ptr + USTAR_SIZE) 12 0
        let files := if isRegular (mem (ptr + USTAR_TYPEFLAG)) then files ++ [fileNode mem ptr size]
          else files
        walk fuel ((ptr + 512 + (size + 511) % 2 ^ 32 / 512 * 512) % 2 ^ 32) files

/-- Every turn moves on by at least 512 bytes, so an archive below 4 GiB has
fewer headers than the fuel. -/
def initrdInitialize (location : ℕ) : Option (List FsNode) := walk mem (2 ^ 23 + 1) location []

end Initrd

section Vfs

variable (files : List FsNode)

/-- The bytes `initrd_read` copies. -/
def initrdRead (n : FsNode) (offset size : ℕ) : List UInt8 :=
  (List.range (Kernel.initrdReadSize n offset size)).map fun i ↦ n.data (offset + i)

def vfsRead (node : VfsNode) (offset size : ℕ) : List UInt8 :=
  match node with
  | .root => []
  | .file i => match files[i]? with
    | some n => initrdRead n offset size
    | none => []

/-- Name and inode of a directory entry. -/
def vfsReaddir (node : VfsNode) (index : ℕ) : Option (List UInt8 × ℕ) :=
  match node with
  | .root => files[index]?.map fun n ↦ (n.name, index)
  | .file _ => none

def vfsFinddir (node : VfsNode) (name : List UInt8) : Option VfsNode :=
  match node with
  | .root => (files.findIdx? fun n ↦ n.name = name).map .file
  | .file _ => none

end Vfs

end EclipseOS
