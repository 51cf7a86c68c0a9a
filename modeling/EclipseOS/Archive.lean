import EclipseOS.Initrd

/-!
# Decoding an archive

An archive in memory is a list of entries, each a header block and its data
padded to whole blocks, and a zero block.  The loader finds exactly the regular
files, unless a name fills its field and runs on into the next one.
-/

namespace EclipseOS

/-- Number an octal field stands for. -/
def octalValue (digits : List (Fin 8)) : ℕ := digits.foldl (fun v d ↦ v * 8 + d.val) 0

/-- An entry with its header block.  The size field holds up to twelve octal
digits and ends before the next field or at a byte that is no octal digit. -/
structure ArchiveEntry where
  name : List UInt8
  header : ℕ → UInt8
  digits : List (Fin 8)
  data : List UInt8
  name_pos : name ≠ []
  name_le : name.length ≤ 100
  name_nonzero : ∀ b ∈ name, b ≠ 0
  header_name : ∀ i (h : i < name.length), header i = name[i]
  header_end : name.length < 100 → header name.length = 0
  magic : ∀ i (h : i < 5), header (USTAR_MAGIC + i) = [0x75, 0x73, 0x74, 0x61, 0x72][i]
  digits_pos : digits ≠ []
  digits_le : digits.length ≤ 12
  header_size : ∀ i (h : i < digits.length),
    header (USTAR_SIZE + i) = UInt8.ofNat (0x30 + (digits[i]).val)
  header_size_end : digits.length < 12 →
    ¬ (0x30 ≤ header (USTAR_SIZE + digits.length) ∧ header (USTAR_SIZE + digits.length) ≤ 0x37)
  size : octalValue digits = data.length
  size_lt : data.length < 2 ^ 32 - 1024

namespace ArchiveEntry

variable (e : ArchiveEntry)

def regular : Bool := Initrd.isRegular (e.header USTAR_TYPEFLAG)

/-- Bytes of the entry: header and padded data. -/
def blocks : ℕ := 512 + (e.data.length + 511) / 512 * 512

end ArchiveEntry

/-- The memory from `ptr` on holds the entries and a zero block. -/
def Holds (mem : ℕ → UInt8) : ℕ → List ArchiveEntry → Prop
  | ptr, [] => ∀ i < 512, mem (ptr + i) = 0
  | ptr, e :: es => (∀ i < 512, mem (ptr + i) = e.header i) ∧
      (∀ i (h : i < e.data.length), mem (ptr + 512 + i) = e.data[i]) ∧
      Holds mem (ptr + e.blocks) es

/-- A ustar archive the loader is meant for. -/
structure Archive where
  mem : ℕ → UInt8
  location : ℕ
  entries : List ArchiveEntry
  holds : Holds mem location entries
  fits : location + (entries.map ArchiveEntry.blocks).sum + 512 ≤ 2 ^ 32
  count : (entries.filter (·.regular)).length ≤ MAX_FILES
  distinct : ((entries.filter (·.regular)).map (·.name)).Nodup

namespace Initrd

variable {mem : ℕ → UInt8} {e : ArchiveEntry} {es : List ArchiveEntry} {ptr : ℕ}

/-! ## One header -/

theorem octalToInt_digits {s len : ℕ} {ds : List (Fin 8)} (hlen : ds.length ≤ len)
    (hds : ∀ i (h : i < ds.length), mem (s + i) = UInt8.ofNat (0x30 + (ds[i]).val))
    (hend : ds.length < len → ¬ (0x30 ≤ mem (s + ds.length) ∧ mem (s + ds.length) ≤ 0x37)) (v : ℕ)
    (hv : ds.foldl (fun v d ↦ v * 8 + d.val) v < 2 ^ 32) :
    octalToInt mem s len v = ds.foldl (fun v d ↦ v * 8 + d.val) v := by
  have hmono : ∀ (l : List (Fin 8)) (v : ℕ), v ≤ l.foldl (fun v d ↦ v * 8 + d.val) v := by
    intro l
    induction l with
    | nil => exact fun v ↦ le_rfl
    | cons d l ih => exact fun v ↦ le_trans (show v ≤ v * 8 + d.val by omega) (ih _)
  induction ds generalizing s len v with
  | nil =>
      cases len with
      | zero => rfl
      | succ len => rw [octalToInt, if_neg (by simpa using hend (by simp)), List.foldl_nil]
  | cons d ds ih =>
      cases len with
      | zero => simp at hlen
      | succ len =>
          have hd := hds 0 (by simp)
          rw [Nat.add_zero, List.getElem_cons_zero] at hd
          have hnat : (mem s).toNat = 0x30 + d.val := by
            rw [hd, UInt8.toNat_ofNat']
            omega
          have hdigit : 0x30 ≤ mem s ∧ mem s ≤ 0x37 := by
            rw [UInt8.le_iff_toNat_le, UInt8.le_iff_toNat_le, hnat]
            exact ⟨by simp, by simp; omega⟩
          rw [List.foldl_cons] at hv ⊢
          have hlt : v * 8 + d.val < 2 ^ 32 := (hmono ds _).trans_lt hv
          rw [octalToInt, if_pos hdigit, hnat, Nat.add_sub_cancel_left, Nat.mod_eq_of_lt hlt]
          refine ih (by simpa using hlen) (fun i hi ↦ ?_) (fun hi ↦ ?_) _ hv
          · have := hds (i + 1) (by simpa using hi)
            rw [Nat.add_assoc, Nat.add_comm 1 i]
            simpa using this
          · have := hend (by simpa using hi)
            rw [List.length_cons] at this
            rwa [Nat.add_assoc, Nat.add_comm 1 ds.length]

/-- What is read at a pointer that shows an entry. -/
theorem header_facts (h : ∀ i < 512, mem (ptr + i) = e.header i) :
    mem ptr ≠ 0 ∧ isUstar mem ptr = true ∧
      octalToInt mem (ptr + USTAR_SIZE) 12 0 = e.data.length ∧
      isRegular (mem (ptr + USTAR_TYPEFLAG)) = e.regular := by
  refine ⟨?_, ?_, ?_, ?_⟩
  · have hpos := List.length_pos_iff.mpr e.name_pos
    rw [← Nat.add_zero ptr, h 0 (by norm_num), e.header_name 0 hpos]
    exact e.name_nonzero _ (List.getElem_mem hpos)
  · rw [isUstar, beq_iff_eq]
    refine List.ext_getElem (by simp) fun i hi _ ↦ ?_
    have hi5 : i < 5 := by simpa using hi
    rw [List.getElem_map, List.getElem_range, Nat.add_assoc,
      h _ (by rw [USTAR_MAGIC]; omega), e.magic i hi5]
  · have hlen := e.digits_le
    have hpos := List.length_pos_iff.mpr e.digits_pos
    have hsize := e.size_lt
    have hvalue := e.size
    rw [octalValue] at hvalue
    rw [octalToInt_digits e.digits_le (fun i hi ↦ ?_) (fun hi ↦ ?_) 0 (by omega), hvalue]
    · rw [Nat.add_assoc, h _ (by rw [USTAR_SIZE]; omega), e.header_size i hi]
    · rw [Nat.add_assoc, h _ (by rw [USTAR_SIZE]; omega)]
      exact e.header_size_end hi
  · rw [h _ (by rw [USTAR_TYPEFLAG]; omega), ArchiveEntry.regular]

theorem strncpy_append {src n : ℕ} {l : List UInt8} (hl : ∀ b ∈ l, b ≠ 0)
    (hmem : ∀ i (h : i < l.length), mem (src + i) = l[i]) :
    strncpy mem src (l.length + n) = l ++ strncpy mem (src + l.length) n := by
  induction l generalizing src with
  | nil => simp
  | cons b l ih =>
      have hb := hmem 0 (by simp)
      rw [Nat.add_zero, List.getElem_cons_zero] at hb
      have hne : b ≠ 0 := hl b (by simp)
      have hrest := ih (fun c hc ↦ hl c (by simp [hc])) fun i hi ↦ by
        have := hmem (i + 1) (by simpa using hi)
        rw [Nat.add_assoc, Nat.add_comm 1 i]
        simpa using this
      rw [List.length_cons, Nat.add_right_comm, strncpy, hb, if_neg hne, hrest, List.cons_append,
        Nat.add_assoc, Nat.add_comm 1 l.length]

/-- The registered name is the name exactly if the field is terminated. -/
theorem strncpy_name (h : ∀ i < 512, mem (ptr + i) = e.header i) :
    strncpy mem ptr (FS_NAME_SIZE - 1) = e.name ↔ (e.name.length = 100 → e.header 100 = 0) := by
  have hle := e.name_le
  have hcopy := strncpy_append (n := 127 - e.name.length) e.name_nonzero
    fun i hi ↦ (h i (by omega)).trans (e.header_name i hi)
  rw [Nat.add_sub_cancel' (by omega)] at hcopy
  have hnext : mem (ptr + e.name.length) = e.header e.name.length := h _ (by omega)
  rw [show FS_NAME_SIZE - 1 = 127 from rfl, hcopy]
  obtain ⟨n, hn⟩ : ∃ n, 127 - e.name.length = n + 1 := ⟨126 - e.name.length, by omega⟩
  rw [hn, strncpy, hnext, List.append_right_eq_self]
  by_cases h100 : e.name.length = 100
  · rw [h100]
    by_cases hz : e.header 100 = 0 <;> simp [hz]
  · rw [if_pos (e.header_end (by omega))]
    simp [h100]

/-! ## The walk -/

/-- The entries with the addresses of their headers. -/
def placed : ℕ → List ArchiveEntry → List (ℕ × ArchiveEntry)
  | _, [] => []
  | ptr, e :: es => (ptr, e) :: placed (ptr + e.blocks) es

theorem placed_snd (ptr : ℕ) (es : List ArchiveEntry) : (placed ptr es).map Prod.snd = es := by
  induction es generalizing ptr with
  | nil => rfl
  | cons e es ih => rw [placed, List.map_cons, ih]

/-- The nodes of the regular files. -/
def nodes (mem : ℕ → UInt8) (ptr : ℕ) (es : List ArchiveEntry) : List FsNode :=
  ((placed ptr es).filter fun p ↦ p.2.regular).map fun p ↦ fileNode mem p.1 p.2.data.length

theorem nodes_length : (nodes mem ptr es).length = (es.filter (·.regular)).length := by
  conv_rhs => rw [← placed_snd ptr es]
  rw [nodes, List.length_map, List.filter_map, List.length_map]
  rfl

/-- With fuel for every header the walk registers the regular files. -/
theorem walk_spec {fuel : ℕ} {files : List FsNode} (h : Holds mem ptr es)
    (hfits : ptr + (es.map ArchiveEntry.blocks).sum + 512 ≤ 2 ^ 32) (hfuel : es.length < fuel)
    (hcount : files.length + (es.filter (·.regular)).length ≤ MAX_FILES) :
    walk mem fuel ptr files = some (files ++ nodes mem ptr es) := by
  induction es generalizing ptr fuel files with
  | nil =>
      obtain ⟨fuel, rfl⟩ := Nat.exists_eq_succ_of_ne_zero (show fuel ≠ 0 by omega)
      have hz : mem ptr = 0 := h 0 (by norm_num)
      simp [walk, hz, nodes, placed]
  | cons e es ih =>
      obtain ⟨fuel, rfl⟩ := Nat.exists_eq_succ_of_ne_zero (show fuel ≠ 0 by omega)
      obtain ⟨hheader, -, hrest⟩ := h
      obtain ⟨hname, hmagic, hsize, hregular⟩ := header_facts hheader
      have hlt := e.size_lt
      rw [List.map_cons, List.sum_cons] at hfits
      have hnext : (ptr + 512 + (e.data.length + 511) % 2 ^ 32 / 512 * 512) % 2 ^ 32 =
          ptr + e.blocks := by
        rw [ArchiveEntry.blocks] at hfits ⊢
        rw [Nat.mod_eq_of_lt (show e.data.length + 511 < 2 ^ 32 by omega), Nat.add_assoc,
          Nat.mod_eq_of_lt (by omega)]
      rw [walk]
      by_cases hfull : MAX_FILES ≤ files.length
      · have hnone : nodes mem ptr (e :: es) = [] := by
          rw [← List.length_eq_zero_iff, nodes_length]
          omega
        rw [if_pos hfull, hnone, List.append_nil]
      · rw [if_neg hfull, if_neg hname, if_neg (by simp [hmagic]), hsize, hregular]
        dsimp only
        rw [hnext]
        rw [ih hrest (by omega) (by simpa using hfuel)]
        · cases hr : e.regular <;> simp [nodes, placed, hr]
        · cases hr : e.regular <;> simp [hr] at hcount ⊢ <;> omega

theorem placed_holds (h : Holds mem ptr es) {p : ℕ × ArchiveEntry} (hp : p ∈ placed ptr es) :
    (∀ i < 512, mem (p.1 + i) = p.2.header i) ∧
      ∀ i (h : i < p.2.data.length), mem (p.1 + 512 + i) = p.2.data[i] := by
  induction es generalizing ptr with
  | nil => exact nomatch hp
  | cons e es ih =>
      obtain rfl | hp := List.mem_cons.mp hp
      · exact ⟨h.1, h.2.1⟩
      · exact ih h.2.2 hp

/-- A node reads back the data of its entry. -/
theorem read_fileNode {p : ℕ × ArchiveEntry}
    (hdata : ∀ i (h : i < p.2.data.length), mem (p.1 + 512 + i) = p.2.data[i]) :
    initrdRead (fileNode mem p.1 p.2.data.length) 0 p.2.data.length = p.2.data := by
  have hlt := p.2.size_lt
  refine List.ext_getElem ?_ fun i hi h' ↦ ?_
  · rw [initrdRead, List.length_map, List.length_range, Kernel.initrdReadSize, fileNode]
    by_cases hz : p.2.data.length ≤ 0
    · simp only [hz, if_true]
      omega
    · rw [if_neg hz, Nat.zero_add, if_neg]
      exact not_lt.mpr (Nat.mod_le _ _)
  · simp only [initrdRead, fileNode, List.getElem_map, List.getElem_range, Nat.zero_add]
    exact hdata i h'

theorem findIdx_of_nodup {α : Type*} [DecidableEq α] {l : List α} (h : l.Nodup) {i : ℕ} {x : α}
    (hx : l[i]? = some x) : l.findIdx? (fun y ↦ y = x) = some i := by
  obtain ⟨hi, rfl⟩ := List.getElem?_eq_some_iff.mp hx
  rw [List.findIdx?_eq_some_iff_getElem]
  refine ⟨hi, by simp, fun j hj ↦ ?_⟩
  have hne : l[j] ≠ l[i] := fun heq ↦ by
    have := (List.Nodup.getElem_inj_iff h).mp heq
    omega
  simpa using hne

end Initrd

open Initrd

/-- What the mounted file system should answer for the files `es`. -/
structure Decodes (files : List FsNode) (es : List ArchiveEntry) : Prop where
  length : files.length = es.length
  file : ∀ i e, es[i]? = some e → vfsFinddir files .root e.name = some (.file i) ∧
    (∃ n, files[i]? = some n ∧ n.length = e.data.length) ∧
    vfsRead files (.file i) 0 e.data.length = e.data ∧
    vfsReaddir files .root i = some (e.name, i)
  last : ∀ i, es.length ≤ i → vfsReaddir files .root i = none
  other : ∀ name, (∀ e ∈ es, e.name ≠ name) → vfsFinddir files .root name = none

namespace Archive

variable (a : Archive)

/-- The regular files in archive order. -/
def files : List ArchiveEntry := a.entries.filter (·.regular)

theorem blocks_ge (es : List ArchiveEntry) :
    512 * es.length ≤ (es.map ArchiveEntry.blocks).sum := by
  induction es with
  | nil => simp
  | cons e es ih =>
      rw [List.map_cons, List.sum_cons, List.length_cons, ArchiveEntry.blocks]
      omega

theorem initialize_eq :
    initrdInitialize a.mem a.location = some (nodes a.mem a.location a.entries) := by
  have hfits := a.fits
  have hblocks := blocks_ge a.entries
  rw [initrdInitialize, walk_spec a.holds hfits (by omega) (by simpa using a.count),
    List.nil_append]

theorem nodes_getElem {i : ℕ} {e : ArchiveEntry} (h : a.files[i]? = some e) :
    ∃ ptr, (nodes a.mem a.location a.entries)[i]? = some (fileNode a.mem ptr e.data.length) ∧
      (∀ i < 512, a.mem (ptr + i) = e.header i) ∧
      ∀ i (h : i < e.data.length), a.mem (ptr + 512 + i) = e.data[i] := by
  have hfiles : a.files = ((placed a.location a.entries).filter fun p ↦ p.2.regular).map
      Prod.snd := by
    rw [files]
    conv_lhs => rw [← placed_snd a.location a.entries]
    rw [List.filter_map]
    rfl
  rw [hfiles, List.getElem?_map, Option.map_eq_some_iff] at h
  obtain ⟨p, hp, rfl⟩ := h
  have hin := (List.mem_filter.mp (List.mem_of_getElem? hp)).1
  refine ⟨p.1, ?_, placed_holds a.holds hin⟩
  rw [nodes, List.getElem?_map, hp, Option.map_some]

/-- The loader's answers are right. -/
def Decoded : Prop :=
  ∃ files, initrdInitialize a.mem a.location = some files ∧ Decodes files a.files

/-- A name that is listed right ends inside its field. -/
theorem Decoded.terminated {a : Archive} (h : a.Decoded) {e : ArchiveEntry} (he : e ∈ a.files) :
    e.name.length = 100 → e.header 100 = 0 := by
  obtain ⟨files, hrun, hdec⟩ := h
  rw [a.initialize_eq, Option.some.injEq] at hrun
  obtain ⟨i, hi, rfl⟩ := List.getElem_of_mem he
  have hget : a.files[i]? = some a.files[i] := List.getElem?_eq_getElem hi
  obtain ⟨ptr, hnode, hheader, -⟩ := a.nodes_getElem hget
  have hdir := (hdec.file i _ hget).2.2.2
  rw [← hrun, vfsReaddir, hnode, Option.map_some, Option.some.injEq, Prod.mk.injEq] at hdir
  exact (strncpy_name hheader).mp hdir.1

/-- The file system is the archive exactly if no name of 100 bytes runs on into
its mode field. -/
theorem decoded_iff :
    a.Decoded ↔ ∀ e ∈ a.files, e.name.length = 100 → e.header 100 = 0 := by
  have hlength : (nodes a.mem a.location a.entries).length = a.files.length := nodes_length
  constructor
  · exact fun h e he ↦ h.terminated he
  · intro hnames
    have hname : (nodes a.mem a.location a.entries).map (·.name) = a.files.map (·.name) := by
      refine List.ext_getElem? fun i ↦ ?_
      rw [List.getElem?_map, List.getElem?_map]
      cases hget : a.files[i]? with
      | none =>
          rw [List.getElem?_eq_none_iff] at hget
          rw [List.getElem?_eq_none (by omega)]
          rfl
      | some e =>
          obtain ⟨ptr, hnode, hheader, -⟩ := a.nodes_getElem hget
          rw [hnode, Option.map_some, Option.map_some]
          exact congrArg some ((strncpy_name hheader).mpr (hnames e (List.mem_of_getElem? hget)))
    have hfind : ∀ name, vfsFinddir (nodes a.mem a.location a.entries) .root name =
        ((a.files.map (·.name)).findIdx? fun x ↦ x = name).map .file := by
      intro name
      rw [vfsFinddir, ← hname, List.findIdx?_map]
      rfl
    refine ⟨_, a.initialize_eq, hlength, fun i e hget ↦ ?_, fun i hi ↦ ?_, fun name hno ↦ ?_⟩
    · obtain ⟨ptr, hnode, hheader, hdata⟩ := a.nodes_getElem hget
      have hreg := (strncpy_name hheader).mpr (hnames e (List.mem_of_getElem? hget))
      refine ⟨?_, ⟨_, hnode, rfl⟩, ?_, ?_⟩
      · have hdistinct : (a.files.map (·.name)).Nodup := a.distinct
        rw [hfind, findIdx_of_nodup hdistinct (i := i) (by rw [List.getElem?_map, hget]; rfl)]
        rfl
      · rw [vfsRead, hnode]
        exact read_fileNode (p := (ptr, e)) hdata
      · rw [vfsReaddir, hnode, Option.map_some, fileNode, hreg]
    · rw [vfsReaddir, List.getElem?_eq_none (by omega), Option.map_none]
    · rw [hfind, List.findIdx?_eq_none_iff.mpr, Option.map_none]
      intro x hx
      obtain ⟨e, he, rfl⟩ := List.mem_map.mp hx
      simpa using hno e he

/-- A name of 100 bytes, mode `0000644`, and one byte of data. -/
def longHeader (i : ℕ) : UInt8 :=
  if i < 100 then 0x61
  else if i < 104 then 0x30
  else if i = 104 then 0x36
  else if i < 107 then 0x34
  else if i = USTAR_SIZE then 0x31
  else if i = USTAR_TYPEFLAG then 0x30
  else ([0x75, 0x73, 0x74, 0x61, 0x72] : List UInt8).getD (i - USTAR_MAGIC) 0

def longEntry : ArchiveEntry where
  name := List.replicate 100 0x61
  header := longHeader
  digits := [1]
  data := [0x78]
  name_pos := by simp
  name_le := by simp
  name_nonzero := by simp
  header_name := fun i h ↦ by
    rw [List.getElem_replicate, longHeader, if_pos (by simpa using h)]
  header_end := by simp
  magic := by decide
  digits_pos := by simp
  digits_le := by simp
  header_size := by decide
  header_size_end := fun _ ↦ by decide
  size := rfl
  size_lt := by simp

def longArchive : Archive where
  mem := fun i ↦ if i < 512 then longHeader i else if i = 512 then 0x78 else 0
  location := 0
  entries := [longEntry]
  holds := by
    refine ⟨fun i hi ↦ ?_, fun i hi ↦ ?_, fun i hi ↦ ?_⟩
    · simp [hi, longEntry]
    · obtain rfl : i = 0 := by simpa [longEntry] using hi
      simp [longEntry]
    · have hblocks : longEntry.blocks = 1024 := rfl
      rw [hblocks]
      dsimp only
      rw [if_neg (by omega), if_neg (by omega)]
  fits := by simp [ArchiveEntry.blocks, longEntry]
  count := by decide
  distinct := by decide

/-- The registered name goes on with the mode. -/
theorem long_name_lost : ¬ longArchive.Decoded := fun h ↦
  absurd (h.terminated (e := longEntry) (by simp [files, longArchive]; decide) rfl) (by decide)

end Archive

end EclipseOS
