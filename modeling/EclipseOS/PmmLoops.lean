import EclipseOS.BitmapStores
import EclipseOS.Lib.Loops

/-!
# The loops of `pmm_initialize`

The function as a machine that makes one test of a loop a step.  It reads the
information of the boot loader, the memory map and the modules through pointers
of 32 bits, from a memory in which it has already made its writes to the
bitmap.  Where these leave alone what is still to be read it makes the writes
of `pmmWrites`, and comes to an end if every clearing loop does.
-/

namespace EclipseOS

namespace Image

variable (mem : Image)

/-! ## What the boot loader leaves in memory -/

def flags (mbi : ℕ) : ℕ := mem.u32 mbi
def modsCount (mbi : ℕ) : ℕ := mem.u32 (mbi + 20)
def modsAddr (mbi : ℕ) : ℕ := mem.u32 (mbi + 24)
def mmapLength (mbi : ℕ) : ℕ := mem.u32 (mbi + 44)
def mmapAddr (mbi : ℕ) : ℕ := mem.u32 (mbi + 48)

/-- `MULTIBOOT_INFO_MODS` is bit 3. -/
def hasMods (mbi : ℕ) : Bool := (mem.flags mbi).testBit 3

/-- `arr_end`. -/
def arrEnd (mbi : ℕ) : ℕ := (mem.modsAddr mbi + mem.modsCount mbi * SIZEOF_MODULE) % 2 ^ 32

def entryAt (e : ℕ) : MultibootMmapEntry where
  addr := BitVec.ofNat 64 (mem.u32 (e + 4) + 2 ^ 32 * mem.u32 (e + 8))
  len := BitVec.ofNat 64 (mem.u32 (e + 12) + 2 ^ 32 * mem.u32 (e + 16))
  type := BitVec.ofNat 32 (mem.u32 (e + 20))

/-- `e + e->size + sizeof(e->size)`. -/
def nextEntry (e : ℕ) : ℕ := (e + mem.u32 e + 4) % 2 ^ 32

/-- `mod[i]`. -/
def moduleAt (mod i : ℕ) : MultibootModule where
  modStart := BitVec.ofNat 32 (mem.u32 (mod + SIZEOF_MODULE * i))
  modEnd := BitVec.ofNat 32 (mem.u32 (mod + SIZEOF_MODULE * i + 4))

theorem u32_lt (a : ℕ) : mem.u32 a < 2 ^ 32 := LittleEndian.joinBytes_lt ..

end Image

/-- The entries of a memory map, one behind the other up to `stop`. -/
inductive MmapLaid (mem : Image) (stop : ℕ) : ℕ → List ℕ → Prop
  | nil : MmapLaid mem stop stop []
  | cons {e : ℕ} {es : List ℕ} (hsize : 20 ≤ mem.u32 e) (hin : e + mem.u32 e + 4 ≤ stop)
      (hrest : MmapLaid mem stop (e + mem.u32 e + 4) es) : MmapLaid mem stop e (e :: es)

/-- Memory as the boot loader leaves it, with `multiboot_info` at `mbi`.  The
entries of the memory map fill the announced bytes, below 4 GiB; of the modules
nothing is assumed. -/
structure BootInfo where
  mem : Image
  mbi : ℕ
  entries : List ℕ
  laid : MmapLaid mem (mem.mmapAddr mbi + mem.mmapLength mbi) (mem.mmapAddr mbi) entries
  below : mem.mmapAddr mbi + mem.mmapLength mbi ≤ 2 ^ 32

/-- Where `pmm_initialize` is: at the test of one of its loops, or behind the
`memset` that follows the first one. -/
inductive PmmLoop
  | highest (e : ℕ)
  | filled
  | regions (e : ℕ)
  | clearing (e a stop : ℕ)
  | low (a : ℕ)
  | kernel (f : ℕ)
  | modules (mod i : ℕ)
  | reserving (mod i f last : ℕ)
  | array (f last : ℕ)
  | finished

/-- `cleared` lists the calls of `frame_clear` with the entries they are made for. -/
structure PmmState where
  loop : PmmLoop
  highest : ℕ
  writes : List BitmapWrite
  cleared : List (ℕ × ℕ)

namespace BootInfo

variable (b : BootInfo) (img : KernelImage)

def mmapEnd : ℕ := (b.mem.mmapAddr b.mbi + b.mem.mmapLength b.mbi) % 2 ^ 32

/-- The size of the bitmap, once the first pass is over. -/
def bitmapBytes (highest : ℕ) : ℕ := (highest / PAGE_SIZE + 7) / 8

/-- `(bmp_end - 1) / PAGE_SIZE`. -/
def lastKernel (img : KernelImage) (highest : ℕ) : ℕ :=
  MultibootInfo.pred32 ((img.kernelEnd + bitmapBytes highest) % 2 ^ 32) / PAGE_SIZE

def lastModule (mod : MultibootModule) : ℕ := MultibootInfo.pred32 mod.modEnd.toNat / PAGE_SIZE

/-- Memory with the writes made so far. -/
def memory (s : PmmState) : Image := s.writes.foldl img.store b.mem

/-- One test of a loop, and the body if the test succeeds. -/
def pmmStep (s : PmmState) : Option PmmState :=
  let mem := b.memory img s
  match s.loop with
  | .highest e =>
      if e < b.mmapEnd then
        let entry := mem.entryAt e
        some { s with
          loop := .highest (mem.nextEntry e)
          highest := if entry.available ∧ s.highest < entry.top then entry.top else s.highest }
      else some { s with
        loop := .filled
        writes := s.writes ++ [.fill (bitmapBytes s.highest)] }
  | .filled => some { s with loop := .regions (mem.mmapAddr b.mbi) }
  | .regions e =>
      if e < b.mmapEnd then
        let entry := mem.entryAt e
        if entry.available then some { s with loop := .clearing e entry.base32 entry.stop32 }
        else some { s with loop := .regions (mem.nextEntry e) }
      else some { s with loop := .low 0 }
  | .clearing e a stop =>
      if a < stop then some { s with
        loop := .clearing e ((a + PAGE_SIZE) % 2 ^ 32) stop
        writes := s.writes ++ [.clear (a / PAGE_SIZE)]
        cleared := s.cleared ++ [(e, a / PAGE_SIZE)] }
      else some { s with loop := .regions (mem.nextEntry e) }
  | .low a =>
      if a < 0x100000 then some { s with
        loop := .low ((a + PAGE_SIZE) % 2 ^ 32)
        writes := s.writes ++ [.set (a / PAGE_SIZE)] }
      else some { s with loop := .kernel (KERNEL_START / PAGE_SIZE) }
  | .kernel f =>
      if f ≤ lastKernel img s.highest then some { s with
        loop := .kernel ((f + 1) % 2 ^ 32)
        writes := s.writes ++ [.set f] }
      else if mem.hasMods b.mbi then some { s with loop := .modules (mem.modsAddr b.mbi) 0 }
      else some { s with loop := .finished }
  | .modules mod i =>
      if i < mem.modsCount b.mbi then
        let m := mem.moduleAt mod i
        some { s with loop := .reserving mod i (m.modStart.toNat / PAGE_SIZE) (lastModule m) }
      else some { s with
        loop := .array (mem.modsAddr b.mbi / PAGE_SIZE)
          (MultibootInfo.pred32 (mem.arrEnd b.mbi) / PAGE_SIZE) }
  | .reserving mod i f last =>
      if f ≤ last then some { s with
        loop := .reserving mod i ((f + 1) % 2 ^ 32) last
        writes := s.writes ++ [.set f] }
      else some { s with loop := .modules mod ((i + 1) % 2 ^ 32) }
  | .array f last =>
      if f ≤ last then some { s with
        loop := .array ((f + 1) % 2 ^ 32) last
        writes := s.writes ++ [.set f] }
      else some { s with loop := .finished }
  | .finished => none

def start : PmmState := ⟨.highest (b.mem.mmapAddr b.mbi), 0, [], []⟩

/-! ## The walk over the memory map -/

/-- An entry as the boot loader left it. -/
def entryAt (e : ℕ) : MultibootMmapEntry := b.mem.entryAt e

/-- The walk of the first two passes: a pointer of 32 bits that stops at `mmap_end`. -/
inductive Walk : ℕ → List ℕ → Prop
  | nil {e : ℕ} (hstop : b.mmapEnd ≤ e) : Walk e []
  | cons {e : ℕ} {es : List ℕ} (hlt : e < b.mmapEnd) (hup : e < b.mem.nextEntry e)
      (hrest : Walk (b.mem.nextEntry e) es) : Walk e (e :: es)

/-- The entries the walk comes to: none if the map ends at 4 GiB, where
`mmap_end` is zero. -/
def visited : List ℕ :=
  if b.mem.mmapAddr b.mbi + b.mem.mmapLength b.mbi = 2 ^ 32 then [] else b.entries

theorem visited_subset {e : ℕ} (he : e ∈ b.visited) : e ∈ b.entries := by
  rw [visited] at he
  split at he
  · exact nomatch he
  · exact he

theorem walk_visited : b.Walk (b.mem.mmapAddr b.mbi) b.visited := by
  have hbelow := b.below
  rw [visited]
  split
  · next htop => exact .nil (by rw [mmapEnd, htop]; exact Nat.zero_le _)
  · next htop =>
    have hend : b.mmapEnd = b.mem.mmapAddr b.mbi + b.mem.mmapLength b.mbi :=
      Nat.mod_eq_of_lt (by omega)
    have hwalk : ∀ e es, MmapLaid b.mem (b.mem.mmapAddr b.mbi + b.mem.mmapLength b.mbi) e es →
        b.Walk e es := by
      intro e es hlaid
      induction hlaid with
      | nil => exact .nil hend.le
      | cons hsize hin _ ih =>
          have hnext : b.mem.nextEntry _ = _ := Nat.mod_eq_of_lt (lt_of_le_of_lt hin (by omega))
          exact .cons (by omega) (by rw [hnext]; omega) (by rw [hnext]; exact ih)
    exact hwalk _ _ b.laid

variable {b} in
/-- The pointer only goes up. -/
theorem Walk.le_of_mem {e e' : ℕ} {es : List ℕ} (hwalk : b.Walk e es) (he : e' ∈ es) : e ≤ e' := by
  induction hwalk with
  | nil _ => exact nomatch he
  | cons _ hup _ ih =>
      rcases List.mem_cons.mp he with rfl | he
      · exact le_rfl
      · exact hup.le.trans (ih he)

variable {b} in
theorem Walk.nodup {e : ℕ} {es : List ℕ} (hwalk : b.Walk e es) : es.Nodup := by
  induction hwalk with
  | nil _ => exact List.nodup_nil
  | cons _ hup hrest ih =>
      exact List.nodup_cons.mpr ⟨fun he ↦ absurd (hrest.le_of_mem he) (not_le.mpr hup), ih⟩

/-! ## The three passes -/

/-- The first pass at one entry. -/
def raise (h e : ℕ) : ℕ :=
  if (b.entryAt e).available ∧ h < (b.entryAt e).top then (b.entryAt e).top else h

/-- The top of usable memory. -/
def top : ℕ := b.visited.foldl b.raise 0

/-- The frames that the second pass clears at one entry. -/
def clears (e : ℕ) : List ℕ :=
  if (b.entryAt e).available then
    (pagesBetween (b.entryAt e).base32 (b.entryAt e).stop32).map (· / PAGE_SIZE)
  else []

/-- What the second pass reads of the entries from `es` on still has its values
then: the type, base and length of an available region, and, behind the
clearing loop, the size. -/
def EntriesKept (w : List BitmapWrite) : List ℕ → Prop
  | [] => True
  | e :: es =>
      img.Spares w (e + 20) 4 ∧ ((b.entryAt e).available = true → img.Spares w (e + 4) 16) ∧
        img.Spares (w ++ (b.clears e).map .clear) e 4 ∧
        EntriesKept (w ++ (b.clears e).map .clear) es

/-- The `memset` and the second pass leave the memory map to be read. -/
structure MapKept : Prop where
  addr : img.Spares [.fill (bitmapBytes b.top)] (b.mbi + 48) 4
  entries : b.EntriesKept img [.fill (bitmapBytes b.top)] b.visited

variable {b img} {e stop : ℕ} {es : List ℕ} {h : ℕ} {w : List BitmapWrite} {c : List (ℕ × ℕ)}

open Loop

theorem highest_pass (hwalk : b.Walk e es) : Reaches (b.pmmStep img) ⟨.highest e, h, [], c⟩
    ⟨.filled, es.foldl b.raise h, [.fill (bitmapBytes (es.foldl b.raise h))], c⟩ := by
  induction hwalk generalizing h with
  | nil hstop => exact Reaches.head (by simp [pmmStep, not_lt.mpr hstop]) (Reaches.refl _ _)
  | cons hlt _ _ ih =>
      refine Reaches.head ?_ ih
      simp only [pmmStep, if_pos hlt]
      rfl

/-- An entry that is still there. -/
theorem kept_available (htype : img.Spares w (e + 20) 4) :
    ((b.memory img ⟨.regions e, h, w, c⟩).entryAt e).available = (b.entryAt e).available := by
  have hword := htype.u32 b.mem 0 le_rfl
  simp only [MultibootMmapEntry.available, entryAt, Image.entryAt, memory] at hword ⊢
  rw [hword]

theorem kept_entry (htype : img.Spares w (e + 20) 4) (hrange : img.Spares w (e + 4) 16) :
    (b.memory img ⟨.regions e, h, w, c⟩).entryAt e = b.entryAt e := by
  have h₀ := htype.u32 b.mem 0 le_rfl
  have h₁ := hrange.u32 b.mem 0 (by norm_num)
  have h₂ := hrange.u32 b.mem 4 (by norm_num)
  have h₃ := hrange.u32 b.mem 8 (by norm_num)
  have h₄ := hrange.u32 b.mem 12 (by norm_num)
  simp only [entryAt, Image.entryAt, memory, Nat.add_assoc, Nat.reduceAdd] at h₀ h₁ h₂ h₃ h₄ ⊢
  rw [h₀, h₁, h₂, h₃, h₄]

theorem kept_next {loop : PmmLoop} (hsize : img.Spares w e 4) :
    (b.memory img ⟨loop, h, w, c⟩).nextEntry e = b.mem.nextEntry e := by
  have hword := hsize.u32 b.mem 0 le_rfl
  simp only [Image.nextEntry, memory, Nat.add_zero] at hword ⊢
  rw [hword]

/-- A clearing loop that ends visits the pages between base and stop. -/
theorem clearing_loop (he : (b.entryAt e).available = true) (hends : ¬ (b.entryAt e).Wraps)
    (hsize : img.Spares (w ++ (b.clears e).map .clear) e 4) :
    Reaches (b.pmmStep img) ⟨.clearing e (b.entryAt e).base32 (b.entryAt e).stop32, h, w, c⟩
      ⟨.regions (b.mem.nextEntry e), h, w ++ (b.clears e).map .clear,
        c ++ (b.clears e).map (e, ·)⟩ := by
  have hle : (b.entryAt e).stop32 ≤ 0xFFFFF000 + (b.entryAt e).base32 % 4096 :=
    not_lt.mp fun hlt ↦ hends ⟨he, hlt⟩
  have hbase : (b.entryAt e).base32 < 2 ^ 32 := Nat.mod_lt _ (by norm_num)
  rw [clears, if_pos he] at hsize ⊢
  generalize (b.entryAt e).base32 = base at *
  generalize (b.entryAt e).stop32 = stop at *
  have hcount := Reaches.count (n := (stop - base + 0xFFF) / 0x1000) (b.pmmStep img)
    (fun i ↦ ⟨.clearing e (base + 0x1000 * i) stop, h,
      w ++ (List.range i).map (fun j ↦ .clear ((base + 0x1000 * j) / PAGE_SIZE)),
      c ++ (List.range i).map (fun j ↦ (e, (base + 0x1000 * j) / PAGE_SIZE))⟩) (fun i hi ↦ by
        have hnext : (base + 0x1000 * i + PAGE_SIZE) % 2 ^ 32 = base + 0x1000 * (i + 1) := by
          rw [PAGE_SIZE]
          omega
        simp only [pmmStep, if_pos (show base + 0x1000 * i < stop by omega), hnext,
          List.range_succ, List.map_append, List.map_cons, List.map_nil, List.append_assoc])
  refine (by simpa using hcount : Reaches _ _ _).tail ?_
  have hstop : ¬ base + 0x1000 * ((stop - base + 0xFFF) / 0x1000) < stop := by omega
  simp only [pmmStep, if_neg hstop]
  simp only [pagesBetween, List.map_map, Function.comp_def] at hsize ⊢
  rw [kept_next hsize]

theorem regions_step (he : e < b.mmapEnd) (hends : ¬ (b.entryAt e).Wraps)
    (htype : img.Spares w (e + 20) 4)
    (hrange : (b.entryAt e).available = true → img.Spares w (e + 4) 16)
    (hsize : img.Spares (w ++ (b.clears e).map .clear) e 4) :
    Reaches (b.pmmStep img) ⟨.regions e, h, w, c⟩
      ⟨.regions (b.mem.nextEntry e), h, w ++ (b.clears e).map .clear,
        c ++ (b.clears e).map (e, ·)⟩ := by
  by_cases ha : (b.entryAt e).available = true
  · refine Reaches.head ?_ (clearing_loop ha hends hsize)
    simp only [pmmStep, if_pos he, kept_entry htype (hrange ha), if_pos ha]
  · refine Reaches.head ?_ (Reaches.refl _ _)
    rw [clears, if_neg ha, List.map_nil, List.append_nil] at hsize
    simp only [pmmStep, if_pos he, kept_available htype, if_neg ha, kept_next hsize, clears,
      List.map_nil, List.append_nil]

theorem regions_pass (hwalk : b.Walk e es) (hends : ∀ e ∈ es, ¬ (b.entryAt e).Wraps)
    (hkept : b.EntriesKept img w es) :
    Reaches (b.pmmStep img) ⟨.regions e, h, w, c⟩
      ⟨.low 0, h, w ++ es.flatMap fun e ↦ (b.clears e).map .clear,
        c ++ es.flatMap fun e ↦ (b.clears e).map (e, ·)⟩ := by
  induction hwalk generalizing w c with
  | nil hstop =>
      refine Reaches.head ?_ (Reaches.refl _ _)
      simp [pmmStep, not_lt.mpr hstop]
  | @cons e es hlt _ _ ih =>
      rw [List.forall_mem_cons] at hends
      obtain ⟨htype, hrange, hsize, hrest⟩ := hkept
      have hpass := ih (c := c ++ (b.clears e).map (e, ·)) hends.2 hrest
      rw [List.append_assoc, List.append_assoc] at hpass
      exact (regions_step hlt hends.1 htype hrange hsize).trans hpass

/-- Setting the frames from `first` to `last`, whichever loop does it. -/
theorem setting_loop (loop : ℕ → PmmLoop) (first : ℕ) {last : ℕ} (hlast : last < 2 ^ 20)
    (w : List BitmapWrite)
    (hstep : ∀ f w, f ≤ last → b.pmmStep img ⟨loop f, h, w, c⟩ =
      some ⟨loop ((f + 1) % 2 ^ 32), h, w ++ [.set f], c⟩) :
    ∃ f, last < f ∧ Reaches (b.pmmStep img) ⟨loop first, h, w, c⟩
      ⟨loop f, h, w ++ setFrames first last, c⟩ := by
  have hcount := Reaches.count (n := last + 1 - first) (b.pmmStep img)
    (fun i ↦ ⟨loop (first + i), h, w ++ (List.range' first i).map .set, c⟩) (fun i hi ↦ by
      have hnext : (first + i + 1) % 2 ^ 32 = first + (i + 1) := Nat.mod_eq_of_lt (by omega)
      rw [hstep _ _ (by omega), hnext, List.range'_1_concat, List.map_append, List.append_assoc]
      rfl)
  exact ⟨first + (last + 1 - first), by omega, by simpa [setFrames] using hcount⟩

theorem pred32_frame_lt (x : ℕ) : MultibootInfo.pred32 x / PAGE_SIZE < 2 ^ 20 :=
  Nat.div_lt_of_lt_mul (Nat.mod_lt _ (by norm_num))

/-- The low MiB, the image and the bitmap. -/
def kernelFrames (img : KernelImage) (h : ℕ) : List BitmapWrite :=
  (pagesBetween 0 0x100000).map (fun a ↦ .set (a / PAGE_SIZE)) ++
    setFrames (KERNEL_START / PAGE_SIZE) (lastKernel img h)

theorem low_loop : Reaches (b.pmmStep img) ⟨.low 0, h, w, c⟩ ⟨.kernel (KERNEL_START / PAGE_SIZE), h,
    w ++ (pagesBetween 0 0x100000).map (fun a ↦ .set (a / PAGE_SIZE)), c⟩ := by
  have hcount := Reaches.count (n := 256) (b.pmmStep img)
    (fun i ↦ ⟨.low (0x1000 * i), h,
      w ++ (List.range i).map (fun j ↦ .set (0x1000 * j / PAGE_SIZE)), c⟩) (fun i hi ↦ by
        have hnext : (0x1000 * i + PAGE_SIZE) % 2 ^ 32 = 0x1000 * (i + 1) := by
          rw [PAGE_SIZE]
          omega
        simp only [pmmStep, if_pos (show 0x1000 * i < 0x100000 by omega), hnext,
          List.range_succ, List.map_append, List.map_cons, List.map_nil, List.append_assoc])
  refine (by simpa using hcount : Reaches _ _ _).tail ?_
  simp [pmmStep, pagesBetween, Function.comp_def]

theorem kernel_loop (b : BootInfo) (img : KernelImage) (h : ℕ) (w : List BitmapWrite)
    (c : List (ℕ × ℕ)) : ∃ f, lastKernel img h < f ∧ Reaches (b.pmmStep img) ⟨.low 0, h, w, c⟩
    ⟨.kernel f, h, w ++ kernelFrames img h, c⟩ := by
  have hlast : lastKernel img h < 2 ^ 20 := pred32_frame_lt _
  have hstep : ∀ f w, f ≤ lastKernel img h → b.pmmStep img ⟨.kernel f, h, w, c⟩ =
      some ⟨.kernel ((f + 1) % 2 ^ 32), h, w ++ [.set f], c⟩ := fun f w hf ↦ by
    simp only [pmmStep, if_pos hf]
  obtain ⟨f, hf, hkernel⟩ := setting_loop .kernel (KERNEL_START / PAGE_SIZE) hlast
    (w ++ (pagesBetween 0 0x100000).map (fun a ↦ .set (a / PAGE_SIZE))) hstep
  refine ⟨f, hf, low_loop.trans ?_⟩
  rw [kernelFrames, ← List.append_assoc]
  exact hkernel

/-! ## Runs that end -/

/-- A clearing loop whose counter starts over below the stop clears for ever. -/
theorem clearing_not_ends (hwraps : (b.entryAt e).Wraps) : ¬ Ends (b.pmmStep img)
    ⟨.clearing e (b.entryAt e).base32 (b.entryAt e).stop32, h, w, c⟩ := by
  obtain ⟨-, hlt⟩ := hwraps
  have hbase : (b.entryAt e).base32 < 2 ^ 32 := Nat.mod_lt _ (by norm_num)
  generalize (b.entryAt e).base32 = base at *
  generalize (b.entryAt e).stop32 = stop at *
  apply not_ends_of_progress (P := fun s ↦ ∃ a w c, s = ⟨.clearing e a stop, h, w, c⟩ ∧
    a < 2 ^ 32 ∧ a % 4096 = base % 4096)
  · exact ⟨base, w, c, rfl, hbase, rfl⟩
  · rintro s ⟨a, w, c, rfl, ha, hmod⟩
    refine ⟨_, if_pos (by omega), _, _, _, rfl, Nat.mod_lt _ (by norm_num), ?_⟩
    rw [PAGE_SIZE]
    omega

/-- The second pass ends only if each of its clearing loops does. -/
theorem not_wraps_of_ends (hwalk : b.Walk e es) (hkept : b.EntriesKept img w es)
    (hends : Ends (b.pmmStep img) ⟨.regions e, h, w, c⟩) : ∀ e ∈ es, ¬ (b.entryAt e).Wraps := by
  induction hwalk generalizing w c with
  | nil _ => exact nofun
  | @cons e es hlt _ _ ih =>
      obtain ⟨htype, hrange, hsize, hrest⟩ := hkept
      have hfirst : ¬ (b.entryAt e).Wraps := by
        intro hwraps
        have hinto : Reaches (b.pmmStep img) ⟨.regions e, h, w, c⟩
            ⟨.clearing e (b.entryAt e).base32 (b.entryAt e).stop32, h, w, c⟩ := by
          refine Reaches.head ?_ (Reaches.refl _ _)
          simp only [pmmStep, if_pos hlt, kept_entry htype (hrange hwraps.1), if_pos hwraps.1]
        exact clearing_not_ends hwraps (hinto.ends_iff.mp hends)
      have hstep := regions_step (h := h) (c := c) hlt hfirst htype hrange hsize
      exact List.forall_mem_cons.mpr ⟨hfirst, ih hrest (hstep.ends_iff.mp hends)⟩

/-- The third pass, with nothing assumed of what it reads. -/
def Reserving (c : List (ℕ × ℕ)) (s : PmmState) : Prop :=
  s.cleared = c ∧ match s.loop with
    | .low a => a % 4096 = 0 ∧ a ≤ 0x100000
    | .kernel f => f ≤ 2 ^ 20
    | .modules _ i => i < 2 ^ 32
    | .reserving _ i f last => i + 1 < 2 ^ 32 ∧ f ≤ 2 ^ 20 ∧ last < 2 ^ 20
    | .array f last => f ≤ 2 ^ 20 ∧ last < 2 ^ 20
    | .finished => True
    | _ => False

/-- How far the third pass is. -/
def progress (s : PmmState) : ℕ :=
  match s.loop with
  | .low a => a / 4096
  | .kernel f => 2 ^ 9 + f
  | .modules _ i => 2 ^ 22 * (i + 1)
  | .reserving _ i f _ => 2 ^ 22 * (i + 1) + 1 + f
  | .array f _ => 2 ^ 22 * (2 ^ 32 + 1) + f
  | .finished => 2 ^ 22 * (2 ^ 32 + 2)
  | _ => 0

theorem reserving_step {s t : PmmState} (hs : Reserving c s) (hstep : b.pmmStep img s = some t) :
    Reserving c t ∧ progress s < progress t := by
  obtain ⟨loop, h, w, c'⟩ := s
  obtain ⟨rfl, hloop⟩ := hs
  cases loop with
  | highest e => exact hloop.elim
  | filled => exact hloop.elim
  | regions e => exact hloop.elim
  | clearing e a stop => exact hloop.elim
  | low a =>
      obtain ⟨hmod, hle⟩ := hloop
      simp only [pmmStep] at hstep
      split at hstep <;> obtain rfl := Option.some.inj hstep
      · simp only [Reserving, progress, PAGE_SIZE, true_and]
        omega
      · simp only [Reserving, progress, KERNEL_START, PAGE_SIZE, true_and]
        omega
  | kernel f =>
      have hlast := pred32_frame_lt ((img.kernelEnd + bitmapBytes h) % 2 ^ 32)
      have hf : f ≤ 2 ^ 20 := hloop
      simp only [pmmStep, lastKernel] at hstep
      split at hstep
      · obtain rfl := Option.some.inj hstep
        simp only [Reserving, progress, true_and]
        omega
      · split at hstep <;> obtain rfl := Option.some.inj hstep <;>
          simp only [Reserving, progress, true_and] <;> omega
  | modules mod i =>
      have hi : i < 2 ^ 32 := hloop
      have hcount := (b.memory img ⟨.modules mod i, h, w, c'⟩).u32_lt (b.mbi + 20)
      simp only [pmmStep] at hstep
      split at hstep
      · next hlt =>
          obtain rfl := Option.some.inj hstep
          have hlast := pred32_frame_lt
            ((b.memory img ⟨.modules mod i, h, w, c'⟩).moduleAt mod i).modEnd.toNat
          have hfirst := ((b.memory img ⟨.modules mod i, h, w, c'⟩).moduleAt mod i).modStart.isLt
          rw [Image.modsCount] at hlt
          simp only [Reserving, progress, lastModule, true_and]
          rw [PAGE_SIZE] at *
          omega
      · obtain rfl := Option.some.inj hstep
        have haddr := (b.memory img ⟨.modules mod i, h, w, c'⟩).u32_lt (b.mbi + 24)
        have hlast := pred32_frame_lt ((b.memory img ⟨.modules mod i, h, w, c'⟩).arrEnd b.mbi)
        simp only [Reserving, progress, Image.modsAddr, true_and]
        rw [PAGE_SIZE] at *
        omega
  | reserving mod i f last =>
      obtain ⟨hi, hf, hlast⟩ := hloop
      simp only [pmmStep] at hstep
      split at hstep <;> obtain rfl := Option.some.inj hstep <;>
        simp only [Reserving, progress, true_and] <;> omega
  | array f last =>
      obtain ⟨hf, hlast⟩ := hloop
      simp only [pmmStep] at hstep
      split at hstep <;> obtain rfl := Option.some.inj hstep <;>
        simp only [Reserving, progress, true_and] <;> omega
  | finished => cases hstep

/-- The third pass ends whatever it reads, and clears nothing. -/
theorem reserving_ends (b : BootInfo) (img : KernelImage) (h : ℕ) (w : List BitmapWrite)
    (c : List (ℕ × ℕ)) : ∃ s, Reaches (b.pmmStep img) ⟨.low 0, h, w, c⟩ s ∧
    b.pmmStep img s = none ∧ s.cleared = c := by
  have hstart : Reserving c ⟨.low 0, h, w, c⟩ := ⟨rfl, rfl, Nat.zero_le _⟩
  have hends : Ends (b.pmmStep img) ⟨.low 0, h, w, c⟩ := by
    refine ends_of_measure (P := Reserving c) progress (2 ^ 22 * (2 ^ 32 + 2)) hstart
      (fun t u ht hstep ↦ (reserving_step ht hstep).1)
      (fun t u ht hstep ↦ (reserving_step ht hstep).2) ?_
    rintro ⟨loop, h, w, c'⟩ ⟨-, hloop⟩
    cases loop <;> simp only [progress] <;> first | exact hloop.elim | omega
  obtain ⟨s, hs, hstop⟩ := hends.exists_last
  obtain ⟨n, hn⟩ := hs
  exact ⟨s, ⟨n, hn⟩, hstop, (turns_induction (P := Reserving c) hstart
    (fun t u ht hstep ↦ (reserving_step ht hstep).1) hn).1⟩

variable (b img)

/-! ## Pass by pass -/

/-- The writes up to the end of the second pass. -/
def freeing : List BitmapWrite :=
  [.fill (bitmapBytes b.top)] ++ b.visited.flatMap fun e ↦ (b.clears e).map .clear

/-- The state between the second pass and the third. -/
def freed : PmmState where
  loop := .low 0
  highest := b.top
  writes := b.freeing
  cleared := b.visited.flatMap fun e ↦ (b.clears e).map (e, ·)

def hasMods : Bool := b.mem.hasMods b.mbi
def modsAddr : ℕ := b.mem.modsAddr b.mbi
def modsCount : ℕ := b.mem.modsCount b.mbi
def moduleAt (i : ℕ) : MultibootModule := b.mem.moduleAt b.modsAddr i

/-- The writes for the first `n` modules. -/
def moduleFrames (n : ℕ) : List BitmapWrite :=
  (List.range n).flatMap fun i ↦ MultibootInfo.setModule (b.moduleAt i)

/-- What the third pass reads of the information and of the modules still has its
values then. -/
structure ModsKept : Prop where
  flags : img.Spares (b.freeing ++ kernelFrames img b.top) b.mbi 4
  fields : b.hasMods = true →
    img.Spares (b.freeing ++ kernelFrames img b.top ++ b.moduleFrames b.modsCount) (b.mbi + 20) 8
  modules : b.hasMods = true → ∀ i < b.modsCount,
    img.Spares (b.freeing ++ kernelFrames img b.top ++ b.moduleFrames i)
      (b.modsAddr + SIZEOF_MODULE * i) 8

/-- The writes of the third pass. -/
def reserves : List BitmapWrite :=
  kernelFrames img b.top ++
    if b.hasMods then
      b.moduleFrames b.modsCount ++
        setFrames (b.modsAddr / PAGE_SIZE) (MultibootInfo.pred32 (b.mem.arrEnd b.mbi) / PAGE_SIZE)
    else []

/-- The state in which the function returns. -/
def last : PmmState :=
  { b.freed with loop := .finished, writes := b.freeing ++ b.reserves img }

variable {b img}

/-- The second pass begins where the first did. -/
theorem reaches_regions (hkept : b.MapKept img) : Reaches (b.pmmStep img) b.start
    ⟨.regions (b.mem.mmapAddr b.mbi), b.top, [.fill (bitmapBytes b.top)], []⟩ := by
  have haddr : (b.memory img ⟨.filled, b.top, [.fill (bitmapBytes b.top)], []⟩).mmapAddr b.mbi =
      b.mem.mmapAddr b.mbi := hkept.addr.u32 b.mem 0 le_rfl
  refine (highest_pass b.walk_visited).tail ?_
  rw [← haddr]
  rfl

theorem reaches_freed (hkept : b.MapKept img) (hends : ∀ e ∈ b.visited, ¬ (b.entryAt e).Wraps) :
    Reaches (b.pmmStep img) b.start b.freed := by
  have hpass := regions_pass (h := b.top) (c := []) b.walk_visited hends hkept.entries
  exact (reaches_regions hkept).trans hpass

theorem ends_iff (hkept : b.MapKept img) :
    Ends (b.pmmStep img) b.start ↔ ∀ e ∈ b.visited, ¬ (b.entryAt e).Wraps := by
  constructor
  · intro hends
    exact not_wraps_of_ends b.walk_visited hkept.entries ((reaches_regions hkept).ends_iff.mp hends)
  · intro hends
    obtain ⟨s, hs, hstop, -⟩ := reserving_ends b img b.top b.freeing b.freed.cleared
    exact ((reaches_freed hkept hends).trans hs).ends_iff.mpr ⟨1, hstop⟩

theorem moduleFrames_succ (n : ℕ) : b.moduleFrames (n + 1) =
    b.moduleFrames n ++ setFrames ((b.moduleAt n).modStart.toNat / PAGE_SIZE)
      (lastModule (b.moduleAt n)) := by
  rw [moduleFrames, List.range_succ, List.flatMap_append, List.flatMap_singleton]
  rfl

theorem moduleFrames_subset {i n : ℕ} (h : i ≤ n) : b.moduleFrames i ⊆ b.moduleFrames n := by
  intro w hw
  obtain ⟨j, hj, hw⟩ := List.mem_flatMap.mp hw
  refine List.mem_flatMap.mpr ⟨j, ?_, hw⟩
  rw [List.mem_range] at hj ⊢
  omega

/-- The loop over the modules, up to its test for module `n`. -/
theorem modules_loop (hm : b.hasMods = true) (hkept : b.ModsKept img) {n : ℕ}
    (hn : n ≤ b.modsCount) :
    Reaches (b.pmmStep img)
      ⟨.modules b.modsAddr 0, h, b.freeing ++ kernelFrames img b.top, c⟩
      ⟨.modules b.modsAddr n, h, b.freeing ++ kernelFrames img b.top ++ b.moduleFrames n, c⟩ := by
  have hlt : b.modsCount < 2 ^ 32 := b.mem.u32_lt _
  induction n with
  | zero => simpa [moduleFrames] using Reaches.refl (b.pmmStep img) _
  | succ n ih =>
      set w := b.freeing ++ kernelFrames img b.top ++ b.moduleFrames n with hw
      have hsub : w ⊆ b.freeing ++ kernelFrames img b.top ++ b.moduleFrames b.modsCount := by
        rw [hw]
        intro x hx
        exact List.mem_append.mpr ((List.mem_append.mp hx).imp_right
          fun hx ↦ moduleFrames_subset (by omega) hx)
      have hcount : (b.memory img ⟨.modules b.modsAddr n, h, w, c⟩).modsCount b.mbi =
          b.modsCount := ((hkept.fields hm).mono hsub).u32 b.mem 0 (by norm_num)
      have hmodule : (b.memory img ⟨.modules b.modsAddr n, h, w, c⟩).moduleAt b.modsAddr n =
          b.moduleAt n := by
        have hspares := hkept.modules hm n (by omega)
        have h₀ := hspares.u32 b.mem 0 (by norm_num)
        have h₁ := hspares.u32 b.mem 4 (by norm_num)
        rw [Nat.add_zero] at h₀
        simp only [moduleAt, Image.moduleAt, memory] at h₀ h₁ ⊢
        rw [h₀, h₁]
      have hstep : ∀ f w, f ≤ lastModule (b.moduleAt n) →
          b.pmmStep img ⟨.reserving b.modsAddr n f (lastModule (b.moduleAt n)), h, w, c⟩ =
            some ⟨.reserving b.modsAddr n ((f + 1) % 2 ^ 32) (lastModule (b.moduleAt n)), h,
              w ++ [.set f], c⟩ := fun f w hf ↦ by simp only [pmmStep, if_pos hf]
      have hlast : lastModule (b.moduleAt n) < 2 ^ 20 := pred32_frame_lt _
      obtain ⟨f, hf, hset⟩ := setting_loop
        (fun f ↦ .reserving b.modsAddr n f (lastModule (b.moduleAt n)))
        ((b.moduleAt n).modStart.toNat / PAGE_SIZE) hlast w hstep
      have hnext : (n + 1) % 2 ^ 32 = n + 1 := Nat.mod_eq_of_lt (by omega)
      refine (ih (by omega)).trans (Reaches.head ?_ (hset.tail ?_))
      · simp only [pmmStep, hcount, if_pos (show n < b.modsCount by omega), hmodule]
      · have hpast : ¬ f ≤ lastModule (b.moduleAt n) := not_le.mpr hf
        simp only [pmmStep, if_neg hpast, hnext, moduleFrames_succ, hw, List.append_assoc]

/-- Behind the modules, their array. -/
theorem array_loop (hspares : img.Spares w (b.mbi + 20) 8) : Reaches (b.pmmStep img)
    ⟨.modules b.modsAddr b.modsCount, h, w, c⟩ ⟨.finished, h, w ++ setFrames (b.modsAddr / PAGE_SIZE)
      (MultibootInfo.pred32 (b.mem.arrEnd b.mbi) / PAGE_SIZE), c⟩ := by
  set last := MultibootInfo.pred32 (b.mem.arrEnd b.mbi) / PAGE_SIZE with hlast
  have hcount : (b.memory img ⟨.modules b.modsAddr b.modsCount, h, w, c⟩).modsCount b.mbi =
      b.modsCount := hspares.u32 b.mem 0 (by norm_num)
  have hmods : (b.memory img ⟨.modules b.modsAddr b.modsCount, h, w, c⟩).modsAddr b.mbi =
      b.modsAddr := hspares.u32 b.mem 4 (by norm_num)
  have harrEnd : (b.memory img ⟨.modules b.modsAddr b.modsCount, h, w, c⟩).arrEnd b.mbi =
      b.mem.arrEnd b.mbi := by
    rw [Image.arrEnd, hmods, hcount]
    rfl
  have hstep : ∀ f w, f ≤ last → b.pmmStep img ⟨.array f last, h, w, c⟩ =
      some ⟨.array ((f + 1) % 2 ^ 32) last, h, w ++ [.set f], c⟩ := fun f w hf ↦ by
    simp only [pmmStep, if_pos hf]
  have hlt : last < 2 ^ 20 := pred32_frame_lt (b.mem.arrEnd b.mbi)
  obtain ⟨f, hf, harray⟩ := setting_loop (fun f ↦ .array f last) (b.modsAddr / PAGE_SIZE) hlt w hstep
  refine Reaches.head ?_ (harray.tail ?_)
  · simp only [pmmStep, hcount, if_neg (lt_irrefl _), hmods, harrEnd, hlast]
  · simp only [pmmStep, if_neg (not_le.mpr hf)]

/-- The third pass, where it reads what the boot loader left. -/
theorem reserving_pass (hkept : b.ModsKept img) :
    Reaches (b.pmmStep img) b.freed (b.last img) := by
  obtain ⟨f, hf, hkernel⟩ := kernel_loop b img b.top b.freeing b.freed.cleared
  have hflags : (b.memory img ⟨.kernel f, b.top, b.freeing ++ kernelFrames img b.top,
      b.freed.cleared⟩).hasMods b.mbi = b.hasMods := by
    have hword := hkept.flags.u32 b.mem 0 le_rfl
    simp only [hasMods, Image.hasMods, Image.flags, memory, Nat.add_zero] at hword ⊢
    rw [hword]
  refine Reaches.trans hkernel ?_
  by_cases hm : b.hasMods = true
  · have hmods : (b.memory img ⟨.kernel f, b.top, b.freeing ++ kernelFrames img b.top,
        b.freed.cleared⟩).modsAddr b.mbi = b.modsAddr :=
      ((hkept.fields hm).mono (List.subset_append_left _ _)).u32 b.mem 4 (by norm_num)
    have harray := array_loop (h := b.top) (c := b.freed.cleared) (hkept.fields hm)
    have hfinal : b.last img = ⟨.finished, b.top, b.freeing ++ kernelFrames img b.top ++
        b.moduleFrames b.modsCount ++ setFrames (b.modsAddr / PAGE_SIZE)
          (MultibootInfo.pred32 (b.mem.arrEnd b.mbi) / PAGE_SIZE), b.freed.cleared⟩ := by
      simp only [last, reserves, if_pos hm, freed, List.append_assoc]
    rw [hfinal]
    refine Reaches.head ?_ ((modules_loop hm hkept le_rfl).trans harray)
    simp only [pmmStep, if_neg (not_le.mpr hf), hflags, if_pos hm, hmods]
  · have hfinal : b.last img =
        ⟨.finished, b.top, b.freeing ++ kernelFrames img b.top, b.freed.cleared⟩ := by
      simp only [last, reserves, if_neg hm, freed, List.append_nil]
    rw [hfinal]
    refine Reaches.head ?_ (Reaches.refl _ _)
    simp only [pmmStep, if_neg (not_le.mpr hf), hflags, if_neg hm]

theorem reaches_last (hmap : b.MapKept img) (hmods : b.ModsKept img)
    (hends : ∀ e ∈ b.visited, ¬ (b.entryAt e).Wraps) :
    Reaches (b.pmmStep img) b.start (b.last img) :=
  (reaches_freed hmap hends).trans (reserving_pass hmods)

variable (b img)

/-- The log of cleared frames only grows. -/
theorem cleared_grows {s t : PmmState} (hst : Reaches (b.pmmStep img) s t) :
    s.cleared <+: t.cleared := by
  obtain ⟨n, hn⟩ := hst
  refine turns_induction (P := fun t ↦ s.cleared <+: t.cleared) (List.prefix_refl _) ?_ hn
  intro t u ht hstep
  have hlog : t.cleared <+: u.cleared := by
    obtain ⟨loop, h, w, c⟩ := t
    cases loop <;> simp only [pmmStep] at hstep <;> (repeat' split at hstep) <;>
      cases hstep <;> first | exact List.prefix_refl _ | exact List.prefix_append _ _
  exact ht.trans hlog

/-- All loops end, and an entry clears no frame twice and none of which it has
not a byte. -/
structure InitSound : Prop where
  ends : Ends (b.pmmStep img) b.start
  once : ∀ s, Reaches (b.pmmStep img) b.start s → s.cleared.Nodup
  contained : ∀ s, Reaches (b.pmmStep img) b.start s → ∀ e f, (e, f) ∈ s.cleared →
    e ∈ b.entries ∧ ∃ x, (b.entryAt e).Covers x ∧ x / PAGE_SIZE = f

variable {b}

/-- The clearing loop as the list of its writes. -/
theorem clearRegion_eq (hends : ¬ (b.entryAt e).Wraps) :
    (b.entryAt e).clearRegion = some ((b.clears e).map .clear) := by
  rw [MultibootMmapEntry.clearRegion, clears]
  by_cases ha : (b.entryAt e).available = true
  · have hno : ¬ 0xFFFFF000 + (b.entryAt e).base32 % 4096 < (b.entryAt e).stop32 :=
      fun hlt ↦ hends ⟨ha, hlt⟩
    rw [if_neg (by simp [ha]), if_neg hno, if_pos ha, List.map_map]
    rfl
  · rw [if_pos (by simpa using ha), if_neg ha, List.map_nil]

theorem mem_clears {f : ℕ} (hends : ¬ (b.entryAt e).Wraps) :
    f ∈ b.clears e ↔ (b.entryAt e).Visits f := by
  have hmem := (b.entryAt e).mem_clearRegion (clearRegion_eq hends) (.clear f)
  simpa using hmem

theorem clears_nodup (e : ℕ) : (b.clears e).Nodup := by
  rw [clears]
  split
  · rw [pagesBetween, List.map_map]
    apply List.Nodup.map ?_ List.nodup_range
    intro i j hij
    have hpage : ((b.entryAt e).base32 + 0x1000 * i) / PAGE_SIZE =
        ((b.entryAt e).base32 + 0x1000 * j) / PAGE_SIZE := hij
    rw [PAGE_SIZE] at hpage
    omega
  · exact List.nodup_nil

/-- What the loop visits below 4 GiB has a byte in the region. -/
theorem covers_of_visits {entry : MultibootMmapEntry} {f : ℕ} (hlow : entry.addr.toNat < 2 ^ 32)
    (hvisit : entry.Visits f) : ∃ x, entry.Covers x ∧ x / PAGE_SIZE = f := by
  obtain ⟨ha, hlo, hhi⟩ := hvisit
  have hbase : entry.base32 = entry.addr.toNat := Nat.mod_eq_of_lt hlow
  have hstop : entry.stop32 ≤ entry.base32 + entry.len.toNat :=
    (Nat.mod_le _ _).trans (Nat.add_le_add_left (Nat.mod_le _ _) _)
  refine ⟨entry.addr.toNat + 0x1000 * (f - entry.addr.toNat / 4096), ⟨ha, by omega, by omega⟩, ?_⟩
  rw [PAGE_SIZE]
  omega

/-- Above 4 GiB it has none. -/
theorem not_covers_of_visits {entry : MultibootMmapEntry} {f : ℕ}
    (hhigh : 2 ^ 32 ≤ entry.addr.toNat) (hvisit : entry.Visits f) :
    ¬ ∃ x, entry.Covers x ∧ x / PAGE_SIZE = f := by
  rintro ⟨x, ⟨-, hx, -⟩, rfl⟩
  obtain ⟨-, hlo, hhi⟩ := hvisit
  have hbase : entry.base32 < 2 ^ 32 := Nat.mod_lt _ (by norm_num)
  have hstop : entry.stop32 < 2 ^ 32 := Nat.mod_lt _ (by norm_num)
  rw [PAGE_SIZE] at hlo hhi
  omega

variable (b)

/-- Every region that is walked ends below the last page, counted from its base,
and none above 4 GiB has anything left when cut to 32 bits. -/
def RegionsFit : Prop :=
  ∀ e ∈ b.visited, (b.entryAt e).available = true →
    (b.entryAt e).stop32 ≤ 0xFFFFF000 + (b.entryAt e).base32 % 4096 ∧
      (2 ^ 32 ≤ (b.entryAt e).addr.toNat → (b.entryAt e).stop32 ≤ (b.entryAt e).base32)

theorem freed_cleared_nodup : b.freed.cleared.Nodup := by
  apply List.nodup_flatMap.mpr
  constructor
  · intro e _
    exact (clears_nodup e).map fun f g hfg ↦ (Prod.mk.inj hfg).2
  · apply b.walk_visited.nodup.imp
    intro e e' hne
    rw [Function.onFun, List.disjoint_left]
    intro p hp hp'
    obtain ⟨f, -, rfl⟩ := List.mem_map.mp hp
    obtain ⟨g, -, hg⟩ := List.mem_map.mp hp'
    exact hne (Prod.mk.inj hg).1.symm

/-- Where its own writes leave the memory map alone, `pmm_initialize` ends and
clears soundly on these maps and no others. -/
theorem initSound_iff (hkept : b.MapKept img) : b.InitSound img ↔ b.RegionsFit := by
  constructor
  · intro hsound e he ha
    have hends := (ends_iff hkept).mp hsound.ends
    refine ⟨not_lt.mp fun hlt ↦ hends e he ⟨ha, hlt⟩, fun hhigh ↦ ?_⟩
    by_contra hnot
    have hvisit : (b.entryAt e).Visits ((b.entryAt e).base32 / 4096) :=
      ⟨ha, le_rfl, by omega⟩
    have hmem : (e, (b.entryAt e).base32 / 4096) ∈ b.freed.cleared :=
      List.mem_flatMap.mpr ⟨e, he, List.mem_map.mpr ⟨_, (mem_clears (hends e he)).mpr hvisit, rfl⟩⟩
    have hin := hsound.contained _ (reaches_freed hkept hends) _ _ hmem
    exact not_covers_of_visits hhigh hvisit hin.2
  · intro hfit
    have hends : ∀ e ∈ b.visited, ¬ (b.entryAt e).Wraps := fun e he hwraps ↦
      absurd hwraps.2 (not_lt.mpr (hfit e he hwraps.1).1)
    -- whatever the third pass reads, it adds nothing to the log
    obtain ⟨t, ht, hstop, hlog⟩ := reserving_ends b img b.top b.freeing b.freed.cleared
    have hlast := (reaches_freed hkept hends).trans ht
    have hgrows : ∀ s, Reaches (b.pmmStep img) b.start s → s.cleared <+: b.freed.cleared := by
      intro s hs
      rw [← hlog]
      exact b.cleared_grows img (hlast.to_last hstop hs)
    refine ⟨(ends_iff hkept).mpr hends, fun s hs ↦ ?_, fun s hs e f hf ↦ ?_⟩
    · exact b.freed_cleared_nodup.sublist (hgrows s hs).sublist
    · obtain ⟨e', he', hpair⟩ := List.mem_flatMap.mp ((hgrows s hs).subset hf)
      obtain ⟨f', hf', heq⟩ := List.mem_map.mp hpair
      obtain ⟨rfl, rfl⟩ := Prod.mk.inj heq
      have hvisit := (mem_clears (hends e' he')).mp hf'
      refine ⟨b.visited_subset he', covers_of_visits ?_ hvisit⟩
      by_contra hhigh
      have hcut := (hfit e' he' hvisit.1).2 (not_lt.mp hhigh)
      obtain ⟨-, hlo, hhi⟩ := hvisit
      omega

variable {b img}

/-! ## Maps below the image -/

/-- What lies below the image is read as it was left. -/
theorem mapKept_of_below (hmbi : b.mbi + 52 ≤ img.kernelEnd)
    (hmap : ∀ e ∈ b.visited, e + 24 ≤ img.kernelEnd) : b.MapKept img := by
  have hkept : ∀ es w, (∀ e ∈ es, e + 24 ≤ img.kernelEnd) → b.EntriesKept img w es := by
    intro es
    induction es with
    | nil => exact fun w _ ↦ trivial
    | cons e es ih =>
        intro w hes
        rw [List.forall_mem_cons] at hes
        exact ⟨KernelImage.spares_of_below (by omega) _,
          fun _ ↦ KernelImage.spares_of_below (by omega) _,
          KernelImage.spares_of_below (by omega) _, ih _ hes.2⟩
  exact ⟨KernelImage.spares_of_below (by omega) _, hkept _ _ hmap⟩

end BootInfo

namespace Sample

open BootInfo

/-- `multiboot_info` at `0x8000`, without modules, and the memory map at `0x9000`. -/
def bootMemory (entries : List UInt8) : Image := fun a ↦
  if a < 0x9000 then
    (List.replicate 44 0 ++ [UInt8.ofNat entries.length, 0, 0, 0, 0, 0x90, 0, 0]).getD (a - 0x8000) 0
  else entries.getD (a - 0x9000) 0

/-- Available memory from 1 MiB to 8 MiB. -/
def smallEntry : List UInt8 :=
  [20, 0, 0, 0, 0, 0, 0x10, 0, 0, 0, 0, 0, 0, 0, 0x70, 0, 0, 0, 0, 0, 1, 0, 0, 0]

/-- Available memory from 1 MiB to the last byte below 4 GiB. -/
def fullEntry : List UInt8 :=
  [20, 0, 0, 0, 0, 0, 0x10, 0, 0, 0, 0, 0, 0xFF, 0xFF, 0xEF, 0xFF, 0, 0, 0, 0, 1, 0, 0, 0]

def smallMap : BootInfo where
  mem := bootMemory smallEntry
  mbi := 0x8000
  entries := [0x9000]
  laid := .cons (by decide) (by decide) .nil
  below := by decide

def fullMap : BootInfo where
  mem := bootMemory fullEntry
  mbi := 0x8000
  entries := [0x9000]
  laid := .cons (by decide) (by decide) .nil
  below := by decide

theorem smallMap_kept : smallMap.MapKept MultibootInfo.sampleImage :=
  mapKept_of_below (by decide) (by decide)

theorem fullMap_kept : fullMap.MapKept MultibootInfo.sampleImage :=
  mapKept_of_below (by decide) (by decide)

theorem smallMap_sound : smallMap.InitSound MultibootInfo.sampleImage := by
  refine (smallMap.initSound_iff _ smallMap_kept).mpr fun e he _ ↦ ?_
  obtain rfl := List.mem_singleton.mp (smallMap.visited_subset he)
  decide

/-- The counter steps from `0xFFFFF000` to zero, which is below the stop again. -/
theorem fullMap_not_sound : ¬ fullMap.InitSound MultibootInfo.sampleImage := fun hsound ↦
  (ends_iff fullMap_kept).mp hsound.ends 0x9000 (by decide) ⟨by decide, by decide⟩

end Sample

end EclipseOS
