import EclipseOS.ArchiveWalk

/-!
# What is read of an archive

The bytes that the walk over the headers looks at and those that `initrd_read`
copies afterwards, and when they are bytes of the module.
-/

namespace EclipseOS

/-- `memcpy`, byte after byte. -/
def memcpy (dst src : ℕ → UInt8) : ℕ → ℕ → UInt8
  | 0 => dst
  | size + 1 => Function.update (memcpy dst src size) size (src size)

theorem memcpy_apply (dst src : ℕ → UInt8) (size i : ℕ) :
    memcpy dst src size i = if i < size then src i else dst i := by
  induction size with
  | zero => rfl
  | succ size ih =>
      rw [memcpy, Function.update_apply, ih]
      rcases lt_trichotomy i size with hlt | rfl | hgt
      · rw [if_neg hlt.ne, if_pos hlt, if_pos (by omega)]
      · rw [if_pos rfl, if_pos (by omega)]
      · rw [if_neg hgt.ne', if_neg (by omega), if_neg (by omega)]

namespace Initrd

variable {mem : ℕ → UInt8} {location h k : ℕ} {s : ℕ × List FsNode} {files : List FsNode}

/-! ## Reading a file -/

/-- `initrd_read`: what it returns, and the buffer after it. -/
def initrdReadInto (n : FsNode) (offset size : ℕ) (buffer : ℕ → UInt8) : ℕ × (ℕ → UInt8) :=
  let size := Kernel.initrdReadSize n offset size
  (size, memcpy buffer (fun i ↦ n.data (offset + i)) size)

/-- The places in the file that are read. -/
def readPlaces (n : FsNode) (offset size : ℕ) : List ℕ :=
  (List.range (Kernel.initrdReadSize n offset size)).map (offset + ·)

/-- What is there of the wanted bytes is copied, and nothing else is touched. -/
structure ReadsExactly (n : FsNode) (offset size : ℕ) (buffer : ℕ → UInt8) : Prop where
  count : (initrdReadInto n offset size buffer).1 =
    if n.length ≤ offset then 0 else min size (n.length - offset)
  copied : ∀ i < (initrdReadInto n offset size buffer).1,
    (initrdReadInto n offset size buffer).2 i = n.data (offset + i)
  kept : ∀ i, (initrdReadInto n offset size buffer).1 ≤ i →
    (initrdReadInto n offset size buffer).2 i = buffer i
  inside : ∀ p ∈ readPlaces n offset size, p < n.length

/-- A node that `initrd_initialize` registered. -/
structure Registered where
  mem : ℕ → UInt8
  location : ℕ
  files : List FsNode
  walked : initrdInitialize mem location = some files
  node : FsNode
  listed : node ∈ files

theorem octalToInt_lt (mem : ℕ → UInt8) (s : ℕ) : octalToInt mem s 12 0 < 2 ^ 32 := by
  have hsize := octalToInt_eq mem s 12 0
  rw [Nat.zero_mod] at hsize
  rw [hsize]
  exact Nat.mod_lt _ (by norm_num)

/-- A turn registers nothing, or the file of the header. -/
theorem walkStep_files {t : ℕ × List FsNode} (hstep : walkStep mem s = some t) :
    t.2 = s.2 ∨ t.2 = s.2 ++ [fileNode mem s.1 (octalToInt mem (s.1 + USTAR_SIZE) 12 0)] := by
  rw [walkStep] at hstep
  split_ifs at hstep
  all_goals
    obtain rfl := Option.some.inj hstep
    dsimp only
  · exact Or.inr rfl
  · exact Or.inl rfl

theorem walk_length_lt {fuel ptr : ℕ} {files' : List FsNode}
    (hwalk : walk mem fuel ptr files = some files') (hfiles : ∀ n ∈ files, n.length < 2 ^ 32) :
    ∀ n ∈ files', n.length < 2 ^ 32 := by
  induction fuel generalizing ptr files with
  | zero => exact nomatch hwalk
  | succ fuel ih =>
      rw [walk_succ] at hwalk
      cases hstep : walkStep mem (ptr, files) with
      | none =>
          rw [hstep] at hwalk
          obtain rfl := Option.some.inj hwalk
          exact hfiles
      | some t =>
          rw [hstep] at hwalk
          apply ih hwalk
          rcases walkStep_files hstep with ht | ht
          · rw [ht]
            exact hfiles
          · rw [ht]
            intro n hn
            rcases List.mem_append.mp hn with hn | hn
            · exact hfiles n hn
            · rw [List.mem_singleton.mp hn]
              exact octalToInt_lt mem _

theorem Registered.length_lt (r : Registered) : r.node.length < 2 ^ 32 :=
  walk_length_lt r.walked (fun _ hn ↦ nomatch hn) r.node r.listed

/-- The size that is copied, when the end of the wanted bytes is a word. -/
theorem initrdReadSize_of_lt {n : FsNode} {offset size : ℕ} (h : offset + size < 2 ^ 32) :
    Kernel.initrdReadSize n offset size =
      if n.length ≤ offset then 0 else min size (n.length - offset) := by
  rw [Kernel.initrdReadSize, Nat.mod_eq_of_lt h]
  split_ifs
  all_goals omega

/-- When it is not, nothing is cut off. -/
theorem initrdReadSize_of_ge {n : FsNode} {offset size : ℕ} (hoffset : offset < n.length)
    (hlength : n.length < 2 ^ 32) (hsize : size < 2 ^ 32) (h : 2 ^ 32 ≤ offset + size) :
    Kernel.initrdReadSize n offset size = size := by
  have hmod : (offset + size) % 2 ^ 32 = offset + size - 2 ^ 32 := by omega
  rw [Kernel.initrdReadSize, if_neg (by omega), if_neg (by omega)]

/-- Reading is exact just when it starts behind the file, or the end of the wanted
bytes does not wrap. -/
theorem initrdRead_exact_iff (r : Registered) (offset size : BitVec 32) (buffer : ℕ → UInt8) :
    ReadsExactly r.node offset.toNat size.toNat buffer ↔
      r.node.length ≤ offset.toNat ∨ offset.toNat + size.toNat < 2 ^ 32 := by
  have hlength := r.length_lt
  have hsize := size.isLt
  constructor
  · intro hexact
    by_contra hwrap
    have hoffset : offset.toNat < r.node.length := by omega
    have hcount := hexact.count
    rw [initrdReadInto, initrdReadSize_of_ge hoffset hlength hsize (by omega),
      if_neg (by omega)] at hcount
    omega
  · intro hcond
    have hcount : Kernel.initrdReadSize r.node offset.toNat size.toNat =
        if r.node.length ≤ offset.toNat then 0 else min size.toNat (r.node.length - offset.toNat) := by
      rcases hcond with hend | hfits
      · rw [Kernel.initrdReadSize, if_pos hend, if_pos hend]
      · exact initrdReadSize_of_lt hfits
    refine ⟨hcount, fun i hi ↦ ?_, fun i hi ↦ ?_, fun p hp ↦ ?_⟩
    · exact (memcpy_apply _ _ _ i).trans (if_pos hi)
    · exact (memcpy_apply _ _ _ i).trans (if_neg (not_lt.mpr hi))
    · obtain ⟨i, hi, rfl⟩ := List.mem_map.mp hp
      rw [List.mem_range, hcount] at hi
      split_ifs at hi
      all_goals omega

/-- An archive at 2 MiB of one file `d` with the given digits as its size. -/
def oneFile (digits : List UInt8) (a : ℕ) : UInt8 :=
  if a = 0x200000 + USTAR_TYPEFLAG then 0x30 else directoryHeader digits a

/-- Of eight bytes. -/
def eightBytes : List UInt8 := [0x31, 0x30]

theorem walkStep_oneFile : walkStep (oneFile eightBytes) (0x200000, []) =
    some (0x200400, [fileNode (oneFile eightBytes) 0x200000 8]) := by
  have hsize : octalToInt (oneFile eightBytes) (0x200000 + USTAR_SIZE) 12 0 = 8 := by decide +kernel
  rw [walkStep, if_neg (by decide), if_neg (by decide), if_neg (by decide)]
  dsimp only
  rw [hsize, if_pos (by decide)]
  rfl

theorem walkStep_oneFile_end (files : List FsNode) :
    walkStep (oneFile eightBytes) (0x200400, files) = none := by
  have hname : oneFile eightBytes 0x200400 = 0 := by decide
  rw [walkStep]
  by_cases hfull : MAX_FILES ≤ files.length
  · rw [if_pos hfull]
  · rw [if_neg hfull, if_pos hname]

def theFile : Registered where
  mem := oneFile eightBytes
  location := 0x200000
  files := [fileNode (oneFile eightBytes) 0x200000 8]
  walked := by
    rw [initrdInitialize, walk_succ, walkStep_oneFile, show 2 ^ 23 = 8388607 + 1 by norm_num]
    dsimp only
    rw [walk_succ, walkStep_oneFile_end]
  node := fileNode (oneFile eightBytes) 0x200000 8
  listed := List.mem_singleton_self _

/-- From offset 1 of the eight bytes, `2 ^ 32 - 1` bytes are copied. -/
theorem initrdRead_not_clipped :
    (initrdReadInto theFile.node 1 (2 ^ 32 - 1) fun _ ↦ 0).1 = 2 ^ 32 - 1 ∧
      ¬ ReadsExactly theFile.node 1 (2 ^ 32 - 1) fun _ ↦ 0 := by
  have hcount : (initrdReadInto theFile.node 1 (2 ^ 32 - 1) fun _ ↦ 0).1 = 2 ^ 32 - 1 := by
    rw [initrdReadInto, Kernel.initrdReadSize]
    rfl
  refine ⟨hcount, fun hexact ↦ ?_⟩
  have hmin := hcount.symm.trans hexact.count
  exact absurd hmin (by decide)

/-! ## The walk -/

def USTAR : List UInt8 := [0x75, 0x73, 0x74, 0x61, 0x72]

/-- The bytes that `memcmp` looks at: up to the first that differs. -/
def memcmpReads (mem : ℕ → UInt8) : ℕ → List UInt8 → List ℕ
  | _, [] => []
  | s, c :: cs => s :: if mem s = c then memcmpReads mem (s + 1) cs else []

/-- The bytes that `octal_to_int` looks at: up to the first that is no octal digit. -/
def octalReads (mem : ℕ → UInt8) : ℕ → ℕ → List ℕ
  | _, 0 => []
  | s, len + 1 => s :: if 0x30 ≤ mem s ∧ mem s ≤ 0x37 then octalReads mem (s + 1) len else []

/-- The bytes that `strncpy` looks at: up to the terminator. -/
def strncpyReads (mem : ℕ → UInt8) : ℕ → ℕ → List ℕ
  | _, 0 => []
  | src, n + 1 => src :: if mem src = 0 then [] else strncpyReads mem (src + 1) n

/-- The bytes that a turn of the walk looks at. -/
def headerReads (mem : ℕ → UInt8) (s : ℕ × List FsNode) : List ℕ :=
  if MAX_FILES ≤ s.2.length then []
  else if mem s.1 = 0 then [s.1]
  else if !isUstar mem s.1 then s.1 :: memcmpReads mem (s.1 + USTAR_MAGIC) USTAR
  else s.1 :: memcmpReads mem (s.1 + USTAR_MAGIC) USTAR ++ octalReads mem (s.1 + USTAR_SIZE) 12 ++
    (s.1 + USTAR_TYPEFLAG) ::
      if isRegular (mem (s.1 + USTAR_TYPEFLAG)) then strncpyReads mem s.1 (FS_NAME_SIZE - 1) else []

/-- How many bytes agree with a text before the first that differs. -/
def agreeing (mem : ℕ → UInt8) : ℕ → List UInt8 → ℕ
  | _, [] => 0
  | s, c :: cs => if mem s = c then agreeing mem (s + 1) cs + 1 else 0

/-- The end of the bytes of the magic that are compared. -/
def magicEnd (mem : ℕ → UInt8) (h : ℕ) : ℕ :=
  h + USTAR_MAGIC + min 5 (agreeing mem (h + USTAR_MAGIC) USTAR + 1)

theorem mem_memcmpReads {a p : ℕ} {cs : List UInt8} :
    a ∈ memcmpReads mem p cs ↔ p ≤ a ∧ a < p + min cs.length (agreeing mem p cs + 1) := by
  induction cs generalizing p with
  | nil =>
      rw [memcmpReads, List.length_nil]
      refine ⟨fun h ↦ (nomatch h), fun h ↦ ?_⟩
      omega
  | cons c cs ih =>
      rw [memcmpReads, agreeing, List.length_cons]
      by_cases hc : mem p = c
      · rw [if_pos hc, if_pos hc, List.mem_cons, ih]
        omega
      · rw [if_neg hc, if_neg hc, List.mem_singleton]
        omega

theorem octalReads_bound {a p len : ℕ} (h : a ∈ octalReads mem p len) : p ≤ a ∧ a < p + len := by
  induction len generalizing p with
  | zero => exact nomatch h
  | succ len ih =>
      rw [octalReads] at h
      rcases List.mem_cons.mp h with rfl | h
      · omega
      · split_ifs at h
        · have := ih h
          omega
        · exact nomatch h

theorem strncpyReads_bound {a p n : ℕ} (h : a ∈ strncpyReads mem p n) : p ≤ a ∧ a < p + n := by
  induction n generalizing p with
  | zero => exact nomatch h
  | succ n ih =>
      rw [strncpyReads] at h
      rcases List.mem_cons.mp h with rfl | h
      · omega
      · split_ifs at h
        · exact nomatch h
        · have := ih h
          omega

theorem agreeing_of_isUstar (hustar : isUstar mem h = true) :
    agreeing mem (h + USTAR_MAGIC) USTAR = 5 := by
  simp only [isUstar, List.range_succ, List.range_zero, List.nil_append,
    List.map_cons, List.map_nil, List.cons_append, beq_iff_eq, List.cons.injEq, Nat.add_assoc,
    Nat.add_zero] at hustar
  obtain ⟨h₀, h₁, h₂, h₃, h₄, -⟩ := hustar
  simp only [agreeing, USTAR, Nat.add_assoc, Nat.reduceAdd]
  rw [if_pos h₀, if_pos h₁, if_pos h₂, if_pos h₃, if_pos h₄]

/-- The first byte that is not counted as agreeing differs. -/
theorem agreeing_differs {p : ℕ} {cs : List UInt8} (hlt : agreeing mem p cs < cs.length) :
    mem (p + agreeing mem p cs) ≠ cs[agreeing mem p cs] := by
  induction cs generalizing p with
  | nil => exact absurd hlt (Nat.not_lt_zero _)
  | cons c cs ih =>
      by_cases hc : mem p = c
      · have hcount : agreeing mem p (c :: cs) = agreeing mem (p + 1) cs + 1 := by
          rw [agreeing, if_pos hc]
        have hrest : agreeing mem (p + 1) cs < cs.length := by
          rw [hcount, List.length_cons] at hlt
          omega
        have hdiffers := ih hrest
        simp only [hcount, List.getElem_cons_succ]
        rwa [show p + (agreeing mem (p + 1) cs + 1) = p + 1 + agreeing mem (p + 1) cs by omega]
      · have hcount : agreeing mem p (c :: cs) = 0 := by rw [agreeing, if_neg hc]
        simpa only [hcount, List.getElem_cons_zero, Nat.add_zero] using hc

/-- No byte from a differing one on is counted. -/
theorem agreeing_le {p i : ℕ} {cs : List UInt8} (hi : i < cs.length) (hne : mem (p + i) ≠ cs[i]) :
    agreeing mem p cs ≤ i := by
  induction cs generalizing p i with
  | nil => exact absurd hi (Nat.not_lt_zero _)
  | cons c cs ih =>
      rw [agreeing]
      split
      · next hc =>
        cases i with
        | zero => exact absurd hc hne
        | succ i =>
            rw [List.getElem_cons_succ] at hne
            have hle := ih (p := p + 1) (i := i) (by simpa using hi)
              (by rwa [show p + 1 + i = p + (i + 1) by omega])
            omega
      · exact Nat.zero_le _

/-- A turn stays inside just when the header starts there and the compared bytes
of its magic do not run out of it. -/
theorem headerReads_inside_iff {start stop : ℕ} (hcount : s.2.length < MAX_FILES) :
    (∀ a ∈ headerReads mem s, start ≤ a ∧ a < stop) ↔
      start ≤ s.1 ∧ s.1 < stop ∧ (mem s.1 ≠ 0 → magicEnd mem s.1 ≤ stop) := by
  rw [headerReads, if_neg (not_le.mpr hcount)]
  have hend : magicEnd mem s.1 = s.1 + 257 + min 5 (agreeing mem (s.1 + USTAR_MAGIC) USTAR + 1) := rfl
  by_cases hname : mem s.1 = 0
  · rw [if_pos hname, List.forall_mem_singleton]
    refine ⟨fun h ↦ ⟨h.1, h.2, fun hno ↦ absurd hname hno⟩, fun h ↦ ⟨h.1, h.2.1⟩⟩
  · have hlast : magicEnd mem s.1 - 1 ∈ memcmpReads mem (s.1 + USTAR_MAGIC) USTAR := by
      apply mem_memcmpReads.mpr
      have hlen : USTAR.length = 5 := rfl
      have hmagic : USTAR_MAGIC = 257 := rfl
      omega
    have hcompared : (∀ a ∈ memcmpReads mem (s.1 + USTAR_MAGIC) USTAR, start ≤ a ∧ a < stop) →
        magicEnd mem s.1 ≤ stop := by
      intro h
      have := (h _ hlast).2
      omega
    have hinside (hstart : start ≤ s.1) (hstop : magicEnd mem s.1 ≤ stop) :
        ∀ a ∈ memcmpReads mem (s.1 + USTAR_MAGIC) USTAR, start ≤ a ∧ a < stop := by
      intro a ha
      obtain ⟨hlo, hhi⟩ := mem_memcmpReads.mp ha
      have hlen : USTAR.length = 5 := rfl
      have hmagic : USTAR_MAGIC = 257 := rfl
      omega
    rw [if_neg hname]
    by_cases hustar : isUstar mem s.1 = true
    · rw [if_neg (by rw [hustar]; decide)]
      constructor
      · intro h
        obtain ⟨hlo, hhi⟩ := h s.1 (by simp)
        exact ⟨hlo, hhi, fun _ ↦ hcompared fun a ha ↦ h a (by simp [ha])⟩
      · rintro ⟨hlo, hhi, hmagic⟩ a ha
        have hfull : magicEnd mem s.1 = s.1 + 262 := by
          rw [hend]
          have hagree := agreeing_of_isUstar hustar
          omega
        have hstop := hmagic hname
        have hsize : USTAR_SIZE = 124 := rfl
        have hflag : USTAR_TYPEFLAG = 156 := rfl
        have hfs : FS_NAME_SIZE = 128 := rfl
        simp only [List.cons_append, List.mem_cons, List.mem_append] at ha
        rcases ha with rfl | (ha | ha) | rfl | ha
        · omega
        · exact hinside hlo hstop a ha
        · have := octalReads_bound ha
          omega
        · omega
        · split_ifs at ha
          · have := strncpyReads_bound ha
            omega
          · exact nomatch ha
    · rw [if_pos (by simp [hustar])]
      rw [List.forall_mem_cons]
      constructor
      · rintro ⟨⟨hlo, hhi⟩, hreads⟩
        exact ⟨hlo, hhi, fun _ ↦ hcompared hreads⟩
      · rintro ⟨hlo, hhi, hmagic⟩
        exact ⟨⟨hlo, hhi⟩, hinside hlo (hmagic hname)⟩

/-! ## From the walk to the last read -/

/-- A regular file whose header is at `h`. -/
def RegisteredAt (mem : ℕ → UInt8) (location h : ℕ) : Prop :=
  ∃ k s, Loop.turns (walkStep mem) (location, []) k = some s ∧ s.1 = h ∧
    s.2.length < MAX_FILES ∧ isHeader mem h ∧ isRegular (mem (h + USTAR_TYPEFLAG)) = true

/-- The length of the file, as its node has it. -/
def fileLength (mem : ℕ → UInt8) (h : ℕ) : ℕ := octalToInt mem (h + USTAR_SIZE) 12 0

theorem fileLength_eq (mem : ℕ → UInt8) (h : ℕ) : fileLength mem h = fieldSize mem h % 2 ^ 32 := by
  have hsize := octalToInt_eq mem (h + USTAR_SIZE) 12 0
  rwa [Nat.zero_mod] at hsize

/-- The files are those of the last turn. -/
theorem exists_turn_of_walk {fuel ptr : ℕ} {files' : List FsNode}
    (hwalk : walk mem fuel ptr files = some files') :
    ∃ k s, Loop.turns (walkStep mem) (ptr, files) k = some s ∧ s.2 = files' := by
  induction fuel generalizing ptr files with
  | zero => exact nomatch hwalk
  | succ fuel ih =>
      rw [walk_succ] at hwalk
      cases hstep : walkStep mem (ptr, files) with
      | none =>
          rw [hstep] at hwalk
          exact ⟨0, (ptr, files), rfl, Option.some.inj hwalk⟩
      | some t =>
          rw [hstep] at hwalk
          obtain ⟨k, s, hk, hs⟩ := ih hwalk
          refine ⟨k + 1, s, ?_, hs⟩
          rw [Loop.turns_succ', hstep, Option.bind_some]
          exact hk

/-- Each node stands for a header of the walk. -/
theorem registeredAt_of_mem (hfiles : initrdInitialize mem location = some files) {n : FsNode}
    (hn : n ∈ files) : ∃ h, RegisteredAt mem location h ∧ n = fileNode mem h (fileLength mem h) := by
  obtain ⟨k, s, hk, rfl⟩ := exists_turn_of_walk hfiles
  clear hfiles
  induction k generalizing s with
  | zero =>
      obtain rfl := Option.some.inj hk
      exact nomatch hn
  | succ k ih =>
      rw [Loop.turns_succ, Option.bind_eq_some_iff] at hk
      obtain ⟨t, ht, hstep⟩ := hk
      by_cases hold : n ∈ t.2
      · exact ih t ht hold
      · obtain ⟨hcount, hheader, -, hlength⟩ := walkStep_eq_some hstep
        rcases walkStep_files hstep with hs | hs
        · exact absurd (hs ▸ hn) hold
        · rw [hs] at hn hlength
          have hregular : isRegular (mem (t.1 + USTAR_TYPEFLAG)) = true := by
            by_contra hno
            rw [if_neg hno, List.length_append, List.length_singleton] at hlength
            omega
          refine ⟨t.1, ⟨k, t, ht, rfl, hcount, hheader, hregular⟩, ?_⟩
          exact List.mem_singleton.mp ((List.mem_append.mp hn).resolve_left hold)

/-- A later `initrd_read` of the file with this header. -/
structure ReadCall where
  header : ℕ
  offset : BitVec 32
  size : BitVec 32

/-- The addresses it reads; `file_data[inode] + offset` is a word. -/
def ReadCall.addresses (mem : ℕ → UInt8) (c : ReadCall) : List ℕ :=
  (readPlaces (fileNode mem c.header (fileLength mem c.header)) c.offset.toNat c.size.toNat).map
    fun p ↦ (c.header + 512 + p) % 2 ^ 32

/-- Of the memory only the bytes from `start` to `stop` are read, by the walk and by
the calls after it, and there the files are. -/
structure StaysInside (mem : ℕ → UInt8) (start stop : BitVec 32) (calls : List ReadCall) : Prop where
  walk : ∀ k s, Loop.turns (walkStep mem) (start.toNat, []) k = some s →
    ∀ a ∈ headerReads mem s, start.toNat ≤ a ∧ a < stop.toNat
  data : ∀ h, RegisteredAt mem start.toNat h → ∀ i < fileLength mem h,
    start.toNat ≤ h + 512 + i ∧ h + 512 + i < stop.toNat
  later : ∀ c ∈ calls, RegisteredAt mem start.toNat c.header →
    ∀ a ∈ c.addresses mem, start.toNat ≤ a ∧ a < stop.toNat

/-- Where a header of 32-bit addresses puts the next one. -/
def nextHeader (mem : ℕ → UInt8) (h : ℕ) : ℕ :=
  (h + 512 + (fileLength mem h + 511) % 2 ^ 32 / 512 * 512) % 2 ^ 32

/-- Headers as their size fields put them one behind the other from `location` on, in
32-bit addresses, with the number of regular files before each. -/
inductive Chained (mem : ℕ → UInt8) (location : ℕ) : ℕ → ℕ → Prop
  | first : Chained mem location location 0
  | next {h n : ℕ} (hchain : Chained mem location h n) (hn : n < MAX_FILES) (hh : isHeader mem h) :
      Chained mem location (nextHeader mem h)
        (if isRegular (mem (h + USTAR_TYPEFLAG)) then n + 1 else n)

/-- The magic at `h` is whole before `stop`, or a byte of it before `stop` is wrong. -/
def MagicSettled (mem : ℕ → UInt8) (stop h : ℕ) : Prop :=
  h + USTAR_MAGIC + 5 ≤ stop ∨
    ∃ i, ∃ hi : i < USTAR.length, h + USTAR_MAGIC + i < stop ∧ mem (h + USTAR_MAGIC + i) ≠ USTAR[i]

/-- A complete archive: until the files are 64, each position in the chain of headers is
in the module, with its magic unless it ends the archive by a NUL; a regular file ends
before the module does; and the calls do not wrap. -/
structure Complete (mem : ℕ → UInt8) (start stop : BitVec 32) (calls : List ReadCall) : Prop where
  header : ∀ h n, Chained mem start.toNat h n → n < MAX_FILES →
    start.toNat ≤ h ∧ h < stop.toNat ∧ (mem h = 0 ∨ MagicSettled mem stop.toNat h)
  file : ∀ h n, Chained mem start.toNat h n → n < MAX_FILES → isHeader mem h →
    isRegular (mem (h + USTAR_TYPEFLAG)) = true →
    fileLength mem h = 0 ∨ h + 512 + fileLength mem h ≤ stop.toNat
  unwrapped : ∀ c ∈ calls, ∀ n, Chained mem start.toNat c.header n → n < MAX_FILES →
    isHeader mem c.header → isRegular (mem (c.header + USTAR_TYPEFLAG)) = true →
    fileLength mem c.header ≤ c.offset.toNat ∨ c.offset.toNat + c.size.toNat < 2 ^ 32

theorem walkStep_next {t : ℕ × List FsNode} (hstep : walkStep mem s = some t) :
    t.1 = nextHeader mem s.1 := by
  rw [nextHeader, fileLength_eq]
  exact (walkStep_eq_some hstep).2.2.1

/-- The turns of the walk are the chain of headers. -/
theorem chained_iff {n : ℕ} : Chained mem location h n ↔
    ∃ k s, Loop.turns (walkStep mem) (location, []) k = some s ∧ s.1 = h ∧ s.2.length = n := by
  constructor
  · intro hchain
    induction hchain with
    | first => exact ⟨0, (location, []), rfl, rfl, rfl⟩
    | next _ hn hh ih =>
        obtain ⟨k, s, hk, rfl, rfl⟩ := ih
        obtain ⟨t, hstep⟩ := walkStep_of_header hn hh
        exact ⟨k + 1, t, by rw [Loop.turns_succ, hk, Option.bind_some, hstep],
          walkStep_next hstep, (walkStep_eq_some hstep).2.2.2⟩
  · rintro ⟨k, s, hk, rfl, rfl⟩
    refine Loop.turns_induction (P := fun s ↦ Chained mem location s.1 s.2.length) .first
      (fun s t hs hstep ↦ ?_) hk
    obtain ⟨hn, hh, -, hlength⟩ := walkStep_eq_some hstep
    rw [hlength, walkStep_next hstep]
    exact hs.next hn hh

theorem registeredAt_iff : RegisteredAt mem location h ↔
    ∃ n, Chained mem location h n ∧ n < MAX_FILES ∧ isHeader mem h ∧
      isRegular (mem (h + USTAR_TYPEFLAG)) = true := by
  constructor
  · rintro ⟨k, s, hk, rfl, hn, hh, hregular⟩
    exact ⟨_, chained_iff.mpr ⟨k, s, hk, rfl, rfl⟩, hn, hh, hregular⟩
  · rintro ⟨n, hchain, hn, hh, hregular⟩
    obtain ⟨k, s, hk, rfl, rfl⟩ := chained_iff.mp hchain
    exact ⟨k, s, hk, rfl, hn, hh, hregular⟩

/-- The compared bytes end in the module just when the magic is settled there. -/
theorem magicEnd_le_iff {stop : ℕ} : magicEnd mem h ≤ stop ↔ MagicSettled mem stop h := by
  have hend : magicEnd mem h =
      h + USTAR_MAGIC + min 5 (agreeing mem (h + USTAR_MAGIC) USTAR + 1) := rfl
  rw [hend, MagicSettled]
  constructor
  · intro hle
    by_cases hall : 5 ≤ agreeing mem (h + USTAR_MAGIC) USTAR + 1 ∧ h + USTAR_MAGIC + 5 ≤ stop
    · exact Or.inl hall.2
    · by_cases hshort : agreeing mem (h + USTAR_MAGIC) USTAR < 5
      · exact Or.inr ⟨_, hshort, by omega, agreeing_differs hshort⟩
      · exact Or.inl (by omega)
  · rintro (hle | ⟨i, hi, hlt, hne⟩)
    · omega
    · have := agreeing_le hi hne
      omega

theorem ReadCall.mem_addresses {c : ReadCall} {a : ℕ} : a ∈ c.addresses mem ↔
    ∃ i < Kernel.initrdReadSize (fileNode mem c.header (fileLength mem c.header)) c.offset.toNat
      c.size.toNat, (c.header + 512 + (c.offset.toNat + i)) % 2 ^ 32 = a := by
  simp only [ReadCall.addresses, readPlaces, List.mem_map, List.mem_range, exists_exists_and_eq_and]

/-- A call that does not wrap reads in the file. -/
theorem ReadCall.inside {c : ReadCall} {start stop : ℕ} (hstop : stop < 2 ^ 32)
    (hstart : start ≤ c.header)
    (hfile : fileLength mem c.header = 0 ∨ c.header + 512 + fileLength mem c.header ≤ stop)
    (hunwrapped : fileLength mem c.header ≤ c.offset.toNat ∨ c.offset.toNat + c.size.toNat < 2 ^ 32) :
    ∀ a ∈ c.addresses mem, start ≤ a ∧ a < stop := by
  intro a ha
  obtain ⟨i, hi, rfl⟩ := ReadCall.mem_addresses.mp ha
  have hend : c.offset.toNat + i < fileLength mem c.header := by
    have hlength : (fileNode mem c.header (fileLength mem c.header)).length =
      fileLength mem c.header := rfl
    rcases hunwrapped with hbehind | hfits
    · rw [Kernel.initrdReadSize, hlength, if_pos hbehind] at hi
      omega
    · rw [initrdReadSize_of_lt hfits, hlength] at hi
      split_ifs at hi
      all_goals omega
  have hword : c.header + 512 + (c.offset.toNat + i) < 2 ^ 32 := by omega
  rw [Nat.mod_eq_of_lt hword]
  omega

/-- A call that wraps comes to the end of the module. -/
theorem ReadCall.stop_mem {c : ReadCall} {stop : ℕ} (hstop : stop < 2 ^ 32)
    (hfile : c.header + 512 + fileLength mem c.header ≤ stop)
    (hoffset : c.offset.toNat < fileLength mem c.header)
    (hwrap : 2 ^ 32 ≤ c.offset.toNat + c.size.toNat) : stop ∈ c.addresses mem := by
  have hsize := c.size.isLt
  apply ReadCall.mem_addresses.mpr
  refine ⟨stop - (c.header + 512 + c.offset.toNat), ?_, ?_⟩
  · rw [initrdReadSize_of_ge (n := fileNode mem c.header (fileLength mem c.header)) hoffset
      (octalToInt_lt mem _) hsize hwrap]
    omega
  · rw [show c.header + 512 + (c.offset.toNat + (stop - (c.header + 512 + c.offset.toNat))) = stop by
      omega]
    exact Nat.mod_eq_of_lt hstop

/-- Reading stays in the module only if the archive is complete. -/
theorem StaysInside.complete {start stop : BitVec 32} {calls : List ReadCall}
    (h : StaysInside mem start stop calls) : Complete mem start stop calls := by
  have hstop := stop.isLt
  have hfile : ∀ a, RegisteredAt mem start.toNat a →
      fileLength mem a = 0 ∨ a + 512 + fileLength mem a ≤ stop.toNat := by
    intro a ha
    rcases Nat.eq_zero_or_pos (fileLength mem a) with hzero | hpos
    · exact Or.inl hzero
    · have hlast := h.data a ha (fileLength mem a - 1) (by omega)
      right
      omega
  refine ⟨fun a n hchain hn ↦ ?_, fun a n hchain hn hh hregular ↦ ?_,
    fun c hc n hchain hn hh hregular ↦ ?_⟩
  · obtain ⟨k, s, hk, rfl, rfl⟩ := chained_iff.mp hchain
    obtain ⟨hlo, hhi, hmagic⟩ := (headerReads_inside_iff hn).mp (h.walk k s hk)
    exact ⟨hlo, hhi, or_iff_not_imp_left.mpr fun hname ↦ magicEnd_le_iff.mp (hmagic hname)⟩
  · exact hfile a (registeredAt_iff.mpr ⟨n, hchain, hn, hh, hregular⟩)
  · have hreg : RegisteredAt mem start.toNat c.header :=
      registeredAt_iff.mpr ⟨n, hchain, hn, hh, hregular⟩
    by_contra hwrap
    rcases hfile c.header hreg with hzero | hend
    · omega
    · have hmem := ReadCall.stop_mem (c := c) hstop hend (by omega) (by omega)
      exact absurd (h.later c hc hreg _ hmem).2 (lt_irrefl _)

/-- And if it is complete, reading stays there. -/
theorem Complete.staysInside {start stop : BitVec 32} {calls : List ReadCall}
    (h : Complete mem start stop calls) : StaysInside mem start stop calls := by
  have hstop := stop.isLt
  have hstart : ∀ a, RegisteredAt mem start.toNat a → start.toNat ≤ a := by
    intro a ha
    obtain ⟨n, hchain, hn, -⟩ := registeredAt_iff.mp ha
    exact (h.header a n hchain hn).1
  have hfile : ∀ a, RegisteredAt mem start.toNat a →
      fileLength mem a = 0 ∨ a + 512 + fileLength mem a ≤ stop.toNat := by
    intro a ha
    obtain ⟨n, hchain, hn, hh, hregular⟩ := registeredAt_iff.mp ha
    exact h.file a n hchain hn hh hregular
  refine ⟨fun k s hk ↦ ?_, fun a ha i hi ↦ ?_, fun c hc hreg ↦ ?_⟩
  · by_cases hcount : s.2.length < MAX_FILES
    · obtain ⟨hlo, hhi, hmagic⟩ := h.header s.1 _ (chained_iff.mpr ⟨k, s, hk, rfl, rfl⟩) hcount
      exact (headerReads_inside_iff hcount).mpr
        ⟨hlo, hhi, fun hname ↦ magicEnd_le_iff.mpr (hmagic.resolve_left hname)⟩
    · rw [headerReads, if_pos (not_lt.mp hcount)]
      exact fun a ha ↦ nomatch ha
  · have := hstart a ha
    rcases hfile a ha with hzero | hend
    · omega
    · omega
  · obtain ⟨n, hchain, hn, hh, hregular⟩ := registeredAt_iff.mp hreg
    exact ReadCall.inside hstop (hstart c.header hreg) (hfile c.header hreg)
      (h.unwrapped c hc n hchain hn hh hregular)

end Initrd

end EclipseOS
