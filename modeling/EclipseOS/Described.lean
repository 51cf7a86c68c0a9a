import EclipseOS.Shown
import EclipseOS.UserPage

/-!
# The image a file describes

Segments as byte ranges, not as pages, and relocations as a set of words.  The
loader builds this image unless a segment's pages hold bytes of an earlier one,
or a relocation changes a record that is still to be read.
-/

namespace EclipseOS

open LittleEndian

namespace Image

variable (data : Image) (base : ℕ)

def InSegment (i x : ℕ) : Prop :=
  data.pType i = PT_LOAD ∧ base + data.pVaddr i ≤ x ∧ x < base + data.pVaddr i + data.pMemsz i

instance (i x : ℕ) : Decidable (data.InSegment base i x) := inferInstanceAs (Decidable (_ ∧ _ ∧ _))

/-- Byte `k` of segment `i`: from the file, then zero. -/
def segByte (i k : ℕ) : UInt8 :=
  if k < data.pFilesz i then data ((data.pOffset i + k) % 2 ^ 32) else 0

/-- The bytes of all segments. -/
def content : Bytes := fun x ↦
  ((List.range data.ePhnum).find? fun i ↦ data.InSegment base i x).map fun i ↦
    data.segByte i (x - (base + data.pVaddr i))

/-- The page-rounded end of the highest segment. -/
def imageEnd : ℕ :=
  ((List.range data.ePhnum).foldl (fun h i ↦
    if data.pType i = PT_LOAD then max h (base + data.pVaddr i + data.pMemsz i) else h) 0 + 0xFFF) /
      0x1000 * 0x1000

structure WellFormed (size : ℕ) : Prop where
  header : data.headerBase size = some base
  phentsize : data.half 42 = PHDR_SIZE
  phdrs : data.ePhoff + PHDR_SIZE * data.ePhnum ≤ size
  tables : ∀ i < data.ePhnum, data.pType i = PT_LOAD ∨ data.pType i = PT_DYNAMIC →
    data.pOffset i + data.pFilesz i ≤ size
  filesz : ∀ i < data.ePhnum, data.pType i = PT_LOAD → data.pFilesz i ≤ data.pMemsz i
  range : ∀ i < data.ePhnum, data.pType i = PT_LOAD →
    base + data.pVaddr i + data.pMemsz i ≤ 2 ^ 32
  disjoint : ∀ i < data.ePhnum, ∀ j < data.ePhnum, i ≠ j → ∀ x,
    data.InSegment base i x → ¬ data.InSegment base j x

/-- The record at `a` is for the word `w`. -/
def Names (base : ℕ) (μ : Bytes) (a w : ℕ) : Prop :=
  ∃ r off, read32 μ (a + 4) = some r ∧ r &&& 0xFF = R_386_RELATIVE ∧ read32 μ a = some off ∧
    (base + off) % 2 ^ 32 = w

/-- A relocation table in the memory `μ`: `R_386_RELATIVE` records for the words
of `words`, which are there and do not overlap. -/
structure RelocationTable (μ : Bytes) (i : ℕ) (info : Machine.DynInfo) (words : List ℕ) : Prop where
  scan : scanBytes μ base ⟨0, 0, REL_SIZE⟩ (2 ^ 32 + 1) ((base + data.pVaddr i) % 2 ^ 32) = .ok info
  relent : info.relent = REL_SIZE
  relsz : info.relsz = REL_SIZE * words.length
  names : ∀ j w, words[j]? = some w → Names base μ (info.rel + REL_SIZE * j) w
  inside : ∀ w ∈ words, Defined μ w 4
  apart : words.Pairwise Apart

/-- The words to be relocated: those of the table, or none. -/
def Relocations (μ : Bytes) (info : Machine.DynInfo) (words : List ℕ) : Prop :=
  match Machine.dynamicHeader data with
  | none => words = []
  | some i => data.RelocationTable base μ i info words

/-- All segments end below the recursive window. -/
def EndsBelow : Prop := ∀ i < data.ePhnum, data.pType i = PT_LOAD →
  base + data.pVaddr i + data.pMemsz i ≤ 0xFFC00000

/-- Bytes of a segment that lie in pages of a later header are zero. -/
def SharesZeros : Prop := ∀ i j, i < j → j < data.ePhnum → data.pType i = PT_LOAD →
  data.pType j = PT_LOAD → ∀ k < data.pMemsz i, data.segStart base j ≤ base + data.pVaddr i + k →
    base + data.pVaddr i + k < data.segEnd base j → data.segByte i k = 0

/-- With the segments in memory and the words already done relocated, every record
is for a word of the table when its turn comes.  Which one it is does not matter. -/
def Follows (info : Machine.DynInfo) (words : List ℕ) : Prop :=
  ∃ order : List ℕ, order.Perm words ∧ ∀ j w, order[j]? = some w →
    Names base (addWords base (data.loaded base) (order.take j)) (info.rel + REL_SIZE * j) w

/-- What the image is to look like: the bytes of the segments, and `base` added
once to every relocated word. -/
structure Built (words : List ℕ) (ν : Bytes) : Prop where
  byte : ∀ x b, data.content base x = some b → (∀ w ∈ words, x < w ∨ w + 4 ≤ x) → ν x = some b
  word : ∀ w ∈ words, read32 ν w = (read32 (data.content base) w).map fun v ↦ (v + base) % 2 ^ 32

variable {data base} {i j k n x size : ℕ} {μ ν : Bytes} {info : Machine.DynInfo} {words : List ℕ}

/-! ## Segments -/

theorem content_of_inSegment (hwf : data.WellFormed base size) (hi : i < data.ePhnum)
    (hx : data.InSegment base i x) :
    data.content base x = some (data.segByte i (x - (base + data.pVaddr i))) := by
  rw [content]
  cases hfind : (List.range data.ePhnum).find? fun i ↦ data.InSegment base i x with
  | none =>
      rw [List.find?_eq_none] at hfind
      exact absurd hx (by simpa using hfind i (List.mem_range.mpr hi))
  | some j =>
      have hj := List.mem_range.mp (List.mem_of_find?_eq_some hfind)
      have hjx : data.InSegment base j x := by simpa using List.find?_some hfind
      obtain rfl : j = i := by
        by_contra hne
        exact hwf.disjoint j hj i hi hne x hjx hx
      rfl

theorem inSegment_of_content {b : UInt8} (h : data.content base x = some b) :
    ∃ i < data.ePhnum, data.InSegment base i x := by
  rw [content, Option.map_eq_some_iff] at h
  obtain ⟨i, hfind, -⟩ := h
  exact ⟨i, List.mem_range.mp (List.mem_of_find?_eq_some hfind), by simpa using List.find?_some hfind⟩

theorem segStart_eq (hend : data.EndsBelow base) (hi : i < data.ePhnum)
    (hload : data.pType i = PT_LOAD) :
    data.segStart base i = (base + data.pVaddr i) / 4096 * 4096 := by
  have := hend i hi hload
  rw [segStart, PAGE_MASK, and_page_mask (Nat.mod_lt _ (by norm_num)), Nat.mod_eq_of_lt (by omega)]

theorem segEnd_eq (hend : data.EndsBelow base) (hi : i < data.ePhnum)
    (hload : data.pType i = PT_LOAD) :
    data.segEnd base i = (base + data.pVaddr i + data.pMemsz i + 0xFFF) / 4096 * 4096 := by
  have := hend i hi hload
  rw [segEnd, PAGE_MASK, and_page_mask (Nat.mod_lt _ (by norm_num)), Nat.mod_eq_of_lt (by omega)]

theorem pages_lt (hend : data.EndsBelow base) {v : ℕ} (hv : v ∈ data.pages base data.ePhnum) :
    v < 0xFFC00000 := by
  rw [pages, List.mem_flatMap] at hv
  obtain ⟨i, hi, hv⟩ := hv
  rw [List.mem_range] at hi
  obtain ⟨hload, -, hlt, -⟩ := mem_segPages.mp hv
  have := hend i hi hload
  rw [segEnd_eq hend hi hload] at hlt
  omega

/-- The bytes of the file go to pages of their own segment. -/
theorem copies_owned (hwf : data.WellFormed base size) (hend : data.EndsBelow base) :
    ∀ i < data.ePhnum, data.pType i = PT_LOAD → ∀ k < data.pFilesz i,
      data.Owned base (i + 1) ((base + data.pVaddr i) % 2 ^ 32 + k) := by
  intro i hi hload k hk
  have hrange := hend i hi hload
  have hsize := hwf.filesz i hi hload
  refine ⟨i, by omega, hload, ?_, ?_⟩
  · rw [Nat.mod_eq_of_lt (by omega), segStart_eq hend hi hload]
    omega
  · rw [Nat.mod_eq_of_lt (by omega), segEnd_eq hend hi hload]
    omega

theorem base_cases (h : data.headerBase size = some base) : base = 0 ∨ base = DYN_BASE := by
  rw [headerBase] at h
  split_ifs at h
  · exact Or.inr (Option.some.inj h).symm
  · exact Or.inl (Option.some.inj h).symm

/-- Where the memory of the image is. -/
theorem loaded_range (hwf : data.WellFormed base size) (hend : data.EndsBelow base)
    (hx : data.loaded base x ≠ none) : base ≤ x ∧ x < 0xFFC00000 := by
  obtain ⟨i, hi, hload, h₁, h₂⟩ := owned_of_placed (copies_owned hwf hend) hx
  have hrange := hend i hi hload
  rw [segStart_eq hend hi hload] at h₁
  rw [segEnd_eq hend hi hload] at h₂
  obtain rfl | rfl := base_cases hwf.header
  · omega
  · rw [DYN_BASE] at *
    omega

/-- A later header, of the first `n`, has a page with the address `x`. -/
def Covered (data : Image) (base n i x : ℕ) : Prop :=
  ∃ j, i < j ∧ j < n ∧ data.pType j = PT_LOAD ∧ data.segStart base j ≤ x ∧ x < data.segEnd base j

/-- A byte of a segment is there until a later header clears its page. -/
theorem placed_of_inSegment (hwf : data.WellFormed base size) (hend : data.EndsBelow base)
    (hin : i < n) (hn : n ≤ data.ePhnum) (hx : data.InSegment base i x) :
    (data.Covered base n i x → data.placed base μ n x = some 0) ∧
    (¬ data.Covered base n i x →
      data.placed base μ n x = some (data.segByte i (x - (base + data.pVaddr i)))) := by
  obtain ⟨hload, h₁, h₂⟩ := hx
  induction n with
  | zero => exact absurd hin (Nat.not_lt_zero i)
  | succ n ih =>
      rw [placed_succ, place]
      by_cases heq : n = i
      · subst heq
        have hrange := hend n (by omega) hload
        have hstart := segStart_eq hend (by omega) hload
        have hstop := segEnd_eq hend (by omega) hload
        refine ⟨?_, fun _ ↦ ?_⟩
        · rintro ⟨j, h₃, h₄, -⟩
          omega
        rw [if_pos hload, Nat.mod_eq_of_lt (by omega : base + data.pVaddr n < 2 ^ 32), fill, segByte]
        by_cases hk : x - (base + data.pVaddr n) < data.pFilesz n
        · rw [if_pos (by omega), if_pos hk]
        · rw [if_neg (by omega), if_neg hk, fill, if_pos (by omega)]
      · obtain ⟨hcov, hkeep⟩ := ih (by omega) (by omega)
        have hmono : data.Covered base (n + 1) i x ↔ data.Covered base n i x ∨
            (data.pType n = PT_LOAD ∧ data.segStart base n ≤ x ∧ x < data.segEnd base n) := by
          constructor
          · rintro ⟨j, h₃, h₄, h₅⟩
            by_cases hjn : j = n
            · exact Or.inr (hjn ▸ h₅)
            · exact Or.inl ⟨j, h₃, by omega, h₅⟩
          · rintro (⟨j, h₃, h₄, h₅⟩ | h₅)
            · exact ⟨j, h₃, by omega, h₅⟩
            · exact ⟨n, by omega, by omega, h₅⟩
        by_cases hloadn : data.pType n = PT_LOAD
        · have hdst := hend n (by omega) hloadn
          have hsize := hwf.filesz n (by omega) hloadn
          have hout : ¬ ((base + data.pVaddr n) % 2 ^ 32 ≤ x ∧
              x < (base + data.pVaddr n) % 2 ^ 32 + data.pFilesz n) := by
            rw [Nat.mod_eq_of_lt (by omega)]
            rintro ⟨h₃, h₄⟩
            exact hwf.disjoint i (by omega) n (by omega) (fun h ↦ heq h.symm) x ⟨hload, h₁, h₂⟩
              ⟨hloadn, h₃, by omega⟩
          rw [if_pos hloadn, fill, if_neg hout, fill]
          by_cases hpage : data.segStart base n ≤ x ∧ x < data.segEnd base n
          · rw [if_pos (by omega)]
            exact ⟨fun _ ↦ rfl, fun hno ↦ absurd (hmono.mpr (Or.inr ⟨hloadn, hpage⟩)) hno⟩
          · rw [if_neg (by omega)]
            refine ⟨fun h ↦ hcov ((hmono.mp h).resolve_right fun h ↦ hpage h.2), fun hno ↦ hkeep ?_⟩
            exact fun h ↦ hno (hmono.mpr (Or.inl h))
        · rw [if_neg hloadn]
          refine ⟨fun h ↦ hcov ((hmono.mp h).resolve_right fun h ↦ hloadn h.1), fun hno ↦ hkeep ?_⟩
          exact fun h ↦ hno (hmono.mpr (Or.inl h))

/-- The segments come out as described exactly when shared pages hold zeros. -/
theorem extends_loaded_iff (hwf : data.WellFormed base size) (hend : data.EndsBelow base) :
    Extends (data.content base) (data.loaded base) ↔ data.SharesZeros base := by
  constructor
  · intro hext i j hij hj hload hloadj k hk h₁ h₂
    have hx : data.InSegment base i (base + data.pVaddr i + k) := ⟨hload, by omega, by omega⟩
    have hcontent := content_of_inSegment hwf (by omega) hx
    rw [Nat.add_sub_cancel_left] at hcontent
    have := (placed_of_inSegment (μ := fun _ ↦ none) hwf hend (by omega : i < data.ePhnum) le_rfl
      hx).1 ⟨j, hij, hj, hloadj, h₁, h₂⟩
    have hsame := hext _ _ hcontent
    rw [loaded, this, Option.some.injEq] at hsame
    exact hsame.symm
  · intro hzero x b hb
    obtain ⟨i, hi, hx⟩ := inSegment_of_content hb
    rw [content_of_inSegment hwf hi hx] at hb
    obtain ⟨hcov, hkeep⟩ := placed_of_inSegment (μ := fun _ ↦ none) hwf hend hi le_rfl hx
    by_cases hc : data.Covered base data.ePhnum i x
    · obtain ⟨hload, h₁, h₂⟩ := hx
      rw [loaded, hcov hc, ← hb]
      obtain ⟨j, h₃, h₄, h₅, h₆, h₇⟩ := hc
      rw [hzero i j h₃ h₄ hload h₅ (x - (base + data.pVaddr i)) (by omega) (by omega) (by omega)]
    · rw [loaded, hkeep hc, ← hb]

/-! ## Relocations -/

theorem scanBytes_of_extends (hext : Extends μ ν) {info r : Machine.DynInfo} {fuel d : ℕ}
    (h : scanBytes μ base info fuel d = .ok r) : scanBytes ν base info fuel d = .ok r := by
  have hword : ∀ {a w e}, readWord μ a e = .ok w → readWord ν a e = .ok w := fun hw ↦
    readWord_eq_ok.mpr (hext.read32 (readWord_eq_ok.mp hw))
  induction fuel generalizing info d with
  | zero => exact nomatch h
  | succ fuel ih =>
      rw [scanBytes, bind_eq_ok] at h ⊢
      obtain ⟨tag, htag, h⟩ := h
      refine ⟨tag, hword htag, ?_⟩
      split at h
      · next hnull =>
          rw [if_pos hnull]
          exact h
      · next hnull =>
          rw [bind_eq_ok] at h
          obtain ⟨info', hentry, h⟩ := h
          rw [if_neg hnull, bind_eq_ok]
          refine ⟨info', ?_, ih h⟩
          have hval : ∀ {f : ℕ → Machine.DynInfo},
              (readWord μ (d + 4) (.read (d + 4))).map f = .ok info' →
              (readWord ν (d + 4) (.read (d + 4))).map f = .ok info' := fun hf ↦ by
            obtain ⟨w, hw, rfl⟩ := map_eq_ok.mp hf
            exact map_eq_ok.mpr ⟨w, hword hw, rfl⟩
          rw [dynEntryBytes] at hentry ⊢
          split_ifs at hentry ⊢
          · exact hval hentry
          · exact hval hentry
          · exact hval hentry
          · exact hentry

theorem Names.of_extends {a w : ℕ} (h : Names base μ a w) (hext : Extends μ ν) :
    Names base ν a w := by
  obtain ⟨r, off, hr, htype, hoff, hw⟩ := h
  exact ⟨r, off, hext.read32 hr, htype, hext.read32 hoff, hw⟩

/-- A table in part of a memory is one in the memory. -/
theorem Relocations.of_extends (h : data.Relocations base μ info words) (hext : Extends μ ν) :
    data.Relocations base ν info words := by
  rw [Relocations] at h ⊢
  split at h
  · exact h
  · exact ⟨scanBytes_of_extends hext h.scan, h.relent, h.relsz,
      fun j w hj ↦ (h.names j w hj).of_extends hext, fun w hw ↦ hext.defined (h.inside w hw), h.apart⟩

theorem Relocations.wordsApart (h : data.Relocations base μ info words) :
    (∀ w ∈ words, Defined μ w 4) ∧ words.Pairwise Apart := by
  rw [Relocations] at h
  split at h
  · rw [h]
    exact ⟨fun w hw ↦ absurd hw List.not_mem_nil, List.Pairwise.nil⟩
  · exact ⟨h.inside, h.apart⟩

/-- A record that is all below `2 ^ 32`. -/
theorem recordBytes_of_names {a w : ℕ} (ha : a + 4 < 2 ^ 32) (h : Names base μ a w)
    (hdef : Defined μ w 4) :
    recordBytes (fun _ ↦ none) μ base a = .ok (addWord base μ w) := by
  obtain ⟨r, off, hr, htype, hoff, rfl⟩ := h
  obtain ⟨v, hv⟩ := Option.ne_none_iff_exists'.mp fun hnone ↦ read32_eq_none.mp hnone hdef
  rw [recordBytes, bind_eq_ok]
  refine ⟨r, readWord_eq_ok.mpr ?_, ?_⟩
  · rw [beside_none, Nat.mod_eq_of_lt ha, hr]
  · rw [if_pos htype, patchBytes_eq_ok]
    refine ⟨off, v, ?_, hv, ?_⟩
    · rw [beside_none, Nat.mod_eq_of_lt (by omega), hoff]
    · rw [addWord, hv]

/-- A record changes a word, or it is of another kind. -/
theorem names_of_recordBytes {a : ℕ} (ha : a + 4 < 2 ^ 32)
    (h : recordBytes (fun _ ↦ none) μ base a = .ok ν) :
    (∃ w, Names base μ a w ∧ ν = addWord base μ w) ∨ ν = μ := by
  rw [recordBytes, bind_eq_ok] at h
  obtain ⟨r, hr, h⟩ := h
  rw [readWord_eq_ok, beside_none, Nat.mod_eq_of_lt ha] at hr
  split at h
  · next htype =>
    obtain ⟨off, v, hoff, hv, rfl⟩ := patchBytes_eq_ok.mp h
    rw [beside_none, Nat.mod_eq_of_lt (by omega)] at hoff
    exact Or.inl ⟨_, ⟨r, off, hr, htype, hoff, rfl⟩, by rw [addWord, hv]⟩
  · exact Or.inr (Except.ok.inj h).symm

/-- The loop over the records, some of the words having been relocated. -/
theorem relocateBytes_order (hrelent : info.relent = REL_SIZE) {order : List ℕ}
    (hrelsz : info.relsz = REL_SIZE * order.length)
    (hbound : ∀ j < order.length, info.rel + REL_SIZE * j + 4 < 2 ^ 32)
    (hlt : REL_SIZE * order.length < 2 ^ 32)
    (hnames : ∀ j w, order[j]? = some w →
      Names base (addWords base μ (order.take j)) (info.rel + REL_SIZE * j) w)
    (hinside : ∀ w ∈ order, Defined μ w 4) {before rest : List ℕ} (hsplit : order = before ++ rest)
    {fuel : ℕ} (hfuel : rest.length < fuel) :
    relocateBytes (fun _ ↦ none) (addWords base μ before) base info fuel (REL_SIZE * before.length) =
      .ok (addWords base μ order) := by
  have hrel : REL_SIZE = 8 := rfl
  induction rest generalizing before fuel with
  | nil =>
      obtain ⟨fuel, rfl⟩ := Nat.exists_eq_succ_of_ne_zero (by omega : fuel ≠ 0)
      rw [List.append_nil] at hsplit
      rw [relocateBytes, hrelsz, hsplit, if_neg (lt_irrefl _)]
  | cons w rest ih =>
      obtain ⟨fuel, rfl⟩ := Nat.exists_eq_succ_of_ne_zero (by omega : fuel ≠ 0)
      have hlen : order.length = before.length + (rest.length + 1) := by
        rw [hsplit, List.length_append, List.length_cons]
      have hrecord := recordBytes_of_names (μ := addWords base μ before) (w := w)
        (hbound before.length (by omega)) (by
          have := hnames before.length w (by simp [hsplit])
          rwa [hsplit, List.take_left] at this) (fun k hk ↦
        addWords_ne_none (hinside w (by rw [hsplit]; simp) k hk))
      rw [relocateBytes, if_pos (by rw [hrelsz, hrel]; omega), bind_eq_ok]
      refine ⟨_, hrecord, ?_⟩
      have hnext : (REL_SIZE * before.length + info.relent) % 2 ^ 32 =
          REL_SIZE * (before ++ [w]).length := by
        rw [hrelent, List.length_append, List.length_singleton]
        rw [hrel] at hlt ⊢
        omega
      have hadd : addWord base (addWords base μ before) w = addWords base μ (before ++ [w]) := by
        rw [addWords, addWords, List.foldl_append, List.foldl_cons, List.foldl_nil]
      rw [hnext, hadd]
      exact ih (by rw [hsplit, List.append_assoc, List.singleton_append]) (by
        rw [List.length_cons] at hfuel
        omega)

/-- Whatever the loop does is to add `base` to words, one for each record that is
of the right kind by then. -/
theorem relocateBytes_patches (hrelent : info.relent = REL_SIZE) (hrelsz : info.relsz = REL_SIZE * n)
    (hbound : ∀ j < n, info.rel + REL_SIZE * j + 4 < 2 ^ 32) (hlt : REL_SIZE * n < 2 ^ 32)
    {fuel k : ℕ} (hk : k ≤ n)
    (hrun : relocateBytes (fun _ ↦ none) μ base info fuel (REL_SIZE * k) = .ok ν) :
    ∃ ps : List ℕ, ps.length ≤ n - k ∧ ν = addWords base μ ps ∧ (ps.length = n - k → ∀ j w,
      ps[j]? = some w →
        Names base (addWords base μ (ps.take j)) (info.rel + REL_SIZE * (k + j)) w) := by
  have hrel : REL_SIZE = 8 := rfl
  induction fuel generalizing μ k with
  | zero => cases hrun
  | succ fuel ih =>
      rw [relocateBytes] at hrun
      split at hrun
      · next hlt' =>
        have hkn : k < n := by
          rw [hrelsz, hrel] at hlt'
          omega
        rw [bind_eq_ok] at hrun
        obtain ⟨μ₁, hrecord, hrun⟩ := hrun
        have hnext : (REL_SIZE * k + info.relent) % 2 ^ 32 = REL_SIZE * (k + 1) := by
          rw [hrelent]
          rw [hrel] at hlt ⊢
          omega
        rw [hnext] at hrun
        obtain ⟨ps, hlen, hν, hps⟩ := ih (by omega) hrun
        obtain ⟨w, hw, rfl⟩ | rfl := names_of_recordBytes (hbound k hkn) hrecord
        · refine ⟨w :: ps, by rw [List.length_cons]; omega, hν, fun hfull j u hj ↦ ?_⟩
          rw [List.length_cons] at hfull
          cases j with
          | zero =>
              obtain rfl := Option.some.inj hj
              exact hw
          | succ j =>
              have := hps (by omega) j u hj
              rwa [Nat.add_assoc, Nat.add_comm 1 j] at this
        · exact ⟨ps, by omega, hν, fun hfull ↦ by omega⟩
      · next hge =>
        obtain rfl := Except.ok.inj hrun
        have hkn : n ≤ k := by
          rw [hrelsz, hrel] at hge
          omega
        exact ⟨[], by simp, rfl, fun _ j w hj ↦ by simp at hj⟩

theorem RelocationTable.bounds {i : ℕ} (h : data.RelocationTable base μ i info words)
    (hmem : ∀ x, μ x ≠ none → x < 0xFFC00000) :
    (∀ j < words.length, info.rel + REL_SIZE * j + 4 < 2 ^ 32) ∧
      REL_SIZE * words.length < 2 ^ 32 := by
  have hrel : REL_SIZE = 8 := rfl
  have hlast : ∀ j < words.length, info.rel + REL_SIZE * j + 4 + 3 < 0xFFC00000 := by
    intro j hj
    obtain ⟨r, -, hr, -⟩ := h.names j _ (List.getElem?_eq_getElem hj)
    exact hmem _ (by rw [apply_of_read32 hr (by norm_num)]; exact Option.some_ne_none _)
  refine ⟨fun j hj ↦ by have := hlast j hj; omega, ?_⟩
  by_cases hn : words.length = 0
  · rw [hn]
    norm_num
  · have := hlast (words.length - 1) (by omega)
    rw [hrel] at this ⊢
    omega

theorem scan_of_relocations {i : ℕ} (hdyn : Machine.dynamicHeader data = some i)
    (h : data.Relocations base μ info words) : data.RelocationTable base μ i info words := by
  rw [Relocations, hdyn] at h
  exact h

/-- A dynamic section at address 0 is none, but then `base` is zero. -/
theorem relocated_of_table {i : ℕ} (hdyn : Machine.dynamicHeader data = some i)
    (h : data.RelocationTable base μ i info words) (hmem : ∀ x, μ x ≠ none → base ≤ x) :
    (base = 0 ∧ data.relocated base (fun _ ↦ none) μ = .ok μ) ∨
      data.relocated base (fun _ ↦ none) μ =
        relocateBytes (fun _ ↦ none) μ base info (2 ^ 32 + 1) 0 := by
  rw [relocated, hdyn]
  dsimp only
  by_cases hzero : (base + data.pVaddr i) % 2 ^ 32 = 0
  · have hscan := h.scan
    rw [scanBytes, bind_eq_ok] at hscan
    obtain ⟨tag, htag, -⟩ := hscan
    have hfirst := apply_of_read32 (readWord_eq_ok.mp htag) (k := 0) (by norm_num)
    have hle := hmem _ (by rw [hfirst]; exact Option.some_ne_none _)
    rw [if_pos hzero]
    exact Or.inl ⟨by omega, rfl⟩
  · rw [if_neg hzero, beside_none, h.scan]
    exact Or.inr rfl

/-- A table that is followed has `base` added once to every word. -/
theorem relocated_of_follows (h : data.Relocations base (data.loaded base) info words)
    (hmem : ∀ x, data.loaded base x ≠ none → base ≤ x ∧ x < 0xFFC00000)
    (hfollows : data.Follows base info words) :
    data.relocated base (fun _ ↦ none) (data.loaded base) =
      .ok (addWords base (data.loaded base) words) := by
  cases hdyn : Machine.dynamicHeader data with
  | none =>
      rw [Relocations, hdyn] at h
      rw [relocated, hdyn, h]
      rfl
  | some i =>
      have htable := scan_of_relocations hdyn h
      obtain ⟨rfl, hrun⟩ | hrun := relocated_of_table hdyn htable fun x hx ↦ (hmem x hx).1
      · rw [hrun, addWords_zero]
      · obtain ⟨order, hperm, hnames⟩ := hfollows
        have hlen := hperm.length_eq
        obtain ⟨hbound, hlt⟩ := htable.bounds fun x hx ↦ (hmem x hx).2
        have hrel : REL_SIZE = 8 := rfl
        have := relocateBytes_order htable.relent (by rw [htable.relsz, hlen])
          (fun j hj ↦ hbound j (by omega)) (by rw [hlen]; exact hlt) hnames
          (fun w hw ↦ htable.inside w (hperm.mem_iff.mp hw)) (List.nil_append order).symm
          (show order.length < 2 ^ 32 + 1 by rw [hrel] at hlt; omega)
        rw [List.length_nil, Nat.mul_zero] at this
        rw [hrun, ← addWords_perm hperm htable.apart]
        exact this

/-- No word to be relocated has its top byte, the only one that the base of a moved
image changes, in the offset or the type of a later record. -/
def LeavesRecords (info : Machine.DynInfo) (words : List ℕ) : Prop :=
  ∀ a b, a < b → b < words.length → ∀ w, words[a]? = some w →
    w + 3 < info.rel + REL_SIZE * b ∨ info.rel + REL_SIZE * b + 4 < w + 3

theorem read32_low {a r s : ℕ} (hr : read32 μ a = some r) (hs : read32 ν a = some s) (h : μ a = ν a) :
    r &&& 0xFF = s &&& 0xFF := by
  have hr₀ := apply_of_read32 hr (k := 0) (by norm_num)
  have hs₀ := apply_of_read32 hs (k := 0) (by norm_num)
  rw [Nat.add_zero] at hr₀ hs₀
  rw [h, hs₀, Option.some.injEq, byteOf, byteOf, ← UInt8.toNat_inj, UInt8.toNat_ofNat',
    UInt8.toNat_ofNat'] at hr₀
  rw [show 0xFF = 2 ^ 8 - 1 from rfl, Nat.and_two_pow_sub_one_eq_mod, Nat.and_two_pow_sub_one_eq_mod]
  omega

/-- Such a table is followed in its own order. -/
theorem follows_of_leavesRecords (hbase : base % 2 ^ 24 = 0)
    (h : data.Relocations base (data.loaded base) info words) (hleaves : LeavesRecords info words) :
    data.Follows base info words := by
  refine ⟨words, List.Perm.refl words, fun j w hj ↦ ?_⟩
  cases hdyn : Machine.dynamicHeader data with
  | none =>
      rw [Relocations, hdyn] at h
      rw [h] at hj
      cases hj
  | some i =>
      have htable := scan_of_relocations hdyn h
      obtain ⟨r, off, hr, htype, hoff, hw⟩ := htable.names j w hj
      obtain ⟨hjlt, -⟩ := List.getElem?_eq_some_iff.mp hj
      have hkeep : ∀ k < 5,
          addWords base (data.loaded base) (words.take j) (info.rel + REL_SIZE * j + k) =
            data.loaded base (info.rel + REL_SIZE * j + k) := by
        intro k hk
        refine addWords_apply_of_low hbase fun u hu ↦ ?_
        obtain ⟨a, ha, rfl⟩ := List.mem_iff_getElem.mp hu
        rw [List.length_take] at ha
        rw [List.getElem_take]
        have := hleaves a j (by omega) hjlt _ (List.getElem?_eq_getElem (by omega))
        omega
      have hdef : Defined (addWords base (data.loaded base) (words.take j))
          (info.rel + REL_SIZE * j + 4) 4 := fun k hk ↦ addWords_ne_none (by
        rw [apply_of_read32 hr hk]
        exact Option.some_ne_none _)
      obtain ⟨s, hs⟩ := Option.ne_none_iff_exists'.mp fun hnone ↦ read32_eq_none.mp hnone hdef
      exact ⟨s, off, hs, by rw [read32_low hs hr (hkeep 4 (by norm_num)), htype],
        by rw [read32_congr fun k hk ↦ hkeep k (by omega), hoff], hw⟩

/-! ## Built images -/

theorem highest_eq (hend : data.EndsBelow base) (hn : n ≤ data.ePhnum) : data.highest base n =
    ((List.range n).foldl (fun h i ↦ if data.pType i = PT_LOAD then
      max h (base + data.pVaddr i + data.pMemsz i) else h) 0 + 0xFFF) / 0x1000 * 0x1000 := by
  induction n with
  | zero => simp [highest]
  | succ n ih =>
      rw [highest_succ, ih (by omega), List.range_succ, List.foldl_append, List.foldl_cons,
        List.foldl_nil]
      split
      · next hload =>
          rw [segEnd_eq hend (by omega) hload]
          omega
      · rfl

/-- Relocating a memory gives the described image just when the memory has the
bytes of the segments. -/
theorem built_addWords_iff (h : data.Relocations base (data.content base) info words)
    (hdom : ∀ x, data.content base x ≠ none → ν x ≠ none) :
    data.Built base words (addWords base ν words) ↔ Extends (data.content base) ν := by
  obtain ⟨hwords, hapart⟩ := h.wordsApart
  constructor
  · intro hbuilt x b hb
    by_cases hout : ∀ w ∈ words, x < w ∨ w + 4 ≤ x
    · have := hbuilt.byte x b hb hout
      rwa [addWords_apply_of_out hout] at this
    · simp only [not_forall, not_or, not_lt, not_le] at hout
      obtain ⟨w, hw, h₁, h₂⟩ := hout
      have hword := hbuilt.word w hw
      rw [addWords_read32 hapart hw] at hword
      obtain ⟨v, hv⟩ := Option.ne_none_iff_exists'.mp fun hnone ↦
        read32_eq_none.mp hnone fun k hk ↦ hdom _ (hwords w hw k hk)
      obtain ⟨u, hu⟩ := Option.ne_none_iff_exists'.mp fun hnone ↦
        read32_eq_none.mp hnone (hwords w hw)
      have hv' := read32_lt hv
      have hu' := read32_lt hu
      rw [hv, hu, Option.map_some, Option.map_some, Option.some.injEq] at hword
      obtain rfl : v = u := by omega
      have := apply_eq_of_read32_eq (hu.trans hv.symm) (hwords w hw) (k := x - w) (by omega)
      rw [Nat.add_sub_cancel' h₁] at this
      rw [← this, hb]
  · intro hext
    refine ⟨fun x b hb hout ↦ ?_, fun w hw ↦ ?_⟩
    · rw [addWords_apply_of_out hout]
      exact hext x b hb
    · rw [addWords_read32 hapart hw, read32_congr fun k hk ↦ hext.apply (hwords w hw k hk)]

/-- What the memory has at other addresses does not matter. -/
theorem Built.congr (hbuilt : data.Built base words ν)
    (h : data.Relocations base (data.content base) info words) {ν' : Bytes}
    (hsame : ∀ x, data.content base x ≠ none → ν' x = ν x) : data.Built base words ν' where
  byte x b hb hout := by
    rw [hsame x (by rw [hb]; exact Option.some_ne_none b), hbuilt.byte x b hb hout]
  word w hw := by
    rw [read32_congr fun k hk ↦ hsame _ (h.wordsApart.1 w hw k hk), hbuilt.word w hw]

theorem content_loaded (hwf : data.WellFormed base size) (hend : data.EndsBelow base)
    (hx : data.content base x ≠ none) : data.loaded base x ≠ none := by
  obtain ⟨b, hb⟩ := Option.ne_none_iff_exists'.mp hx
  obtain ⟨i, hi, hx⟩ := inSegment_of_content hb
  obtain ⟨hcov, hkeep⟩ := placed_of_inSegment (μ := fun _ ↦ none) hwf hend hi le_rfl hx
  by_cases hc : data.Covered base data.ePhnum i x
  · rw [loaded, hcov hc]
    exact Option.some_ne_none _
  · rw [loaded, hkeep hc]
    exact Option.some_ne_none _

theorem follows_zero (h : data.Relocations 0 (data.loaded 0) info words) :
    data.Follows 0 info words := by
  refine ⟨words, List.Perm.refl words, fun j w hj ↦ ?_⟩
  rw [addWords_zero]
  cases hdyn : Machine.dynamicHeader data with
  | none =>
      rw [Relocations, hdyn] at h
      rw [h] at hj
      cases hj
  | some i => exact (scan_of_relocations hdyn h).names j w hj

/-- Every word needs a patch of its own, and there are no more records than words. -/
theorem follows_of_built (hwf : data.WellFormed base size) (hend : data.EndsBelow base)
    (h : data.Relocations base (data.content base) info words)
    (hext : Extends (data.content base) (data.loaded base))
    (hrun : data.relocated base (fun _ ↦ none) (data.loaded base) = .ok ν)
    (hbuilt : data.Built base words ν) : data.Follows base info words := by
  have hloaded := h.of_extends hext
  obtain rfl | rfl := base_cases hwf.header
  · exact follows_zero hloaded
  cases hdyn : Machine.dynamicHeader data with
  | none =>
      rw [Relocations, hdyn] at h
      exact ⟨[], by rw [h], fun j w hj ↦ by cases hj⟩
  | some i =>
      have htable := scan_of_relocations hdyn hloaded
      obtain ⟨hzero, -⟩ | hloop := relocated_of_table hdyn htable fun x hx ↦
        (loaded_range hwf hend hx).1
      · exact absurd hzero (by decide)
      obtain ⟨hbound, hlt⟩ := htable.bounds fun x hx ↦ (loaded_range hwf hend hx).2
      obtain ⟨ps, hlen, rfl, hnames⟩ := relocateBytes_patches (k := 0) htable.relent htable.relsz
        hbound hlt (Nat.zero_le _) (by rw [Nat.mul_zero, ← hloop, hrun])
      have hsub : words ⊆ ps := by
        intro w hw
        by_contra hno
        obtain ⟨v, hv⟩ := Option.ne_none_iff_exists'.mp fun hnone ↦
          read32_eq_none.mp hnone (h.wordsApart.1 w hw)
        have hword := hbuilt.word w hw
        rw [hv, Option.map_some] at hword
        have hnew := apply_of_read32 hword (k := 3) (by norm_num)
        rw [addWords_apply_of_low (by decide) fun p hp heq ↦ hno (by
            obtain rfl : w = p := by omega
            exact hp),
          hext _ _ (apply_of_read32 hv (k := 3) (by norm_num)), Option.some.injEq, byteOf, byteOf,
          ← UInt8.toNat_inj, UInt8.toNat_ofNat', UInt8.toNat_ofNat', DYN_BASE] at hnew
        omega
      have hnodup : words.Nodup := htable.apart.imp fun {v u} hvu heq ↦ by
        rw [heq, Apart] at hvu
        omega
      have hperm : words.Perm ps := (hnodup.subperm hsub).perm_of_length_le (by omega)
      refine ⟨ps, hperm.symm, fun j w hj ↦ ?_⟩
      have := hnames (by rw [Nat.sub_zero, hperm.length_eq]) j w hj
      rwa [Nat.zero_add] at this

end Image

namespace Machine

variable {m m' : Machine} {B base size : ℕ} {L K : Set ℕ}
variable {data : Image} {info : DynInfo} {words : List ℕ}

/-- `elf_load` returns the entry point and the break, and shows the image. -/
def BuildsImage (m : Machine) (data : Image) (size base : ℕ) (words : List ℕ) : Prop :=
  ∃ m', m.elfLoad data size = some ((base + data.eEntry) % 2 ^ 32, data.imageEnd base, m') ∧
    data.Built base words m'.load8

/-- The image leaves the kernel's own memory alone, in which the loader and its
buffers are: no page is in the recursive window or shows a frame in use that no
process owns. -/
structure LeavesKernel (m : Machine) (L : Set ℕ) (data : Image) (base : ℕ) : Prop where
  window : data.EndsBelow base
  pages : ∀ v ∈ data.pages base data.ePhnum, ∀ F o, m.translate v = some (F, o) →
    m.frameTest F = true → ∃ owner, m.Holds L owner F

/-- What is loaded before the relocations, and what they are. -/
theorem Ready.builds_iff (hr : m.Ready) (hwf : data.WellFormed base size)
    (hrel : data.Relocations base (data.content base) info words) (hend : data.EndsBelow base)
    (hroom : m.need (data.pages base data.ePhnum) ≤ m.free.card) :
    ∃ m₁ : Machine, m₁.Shows ∅ (data.loaded base) ∧
      (m.BuildsImage data size base words ↔
        ∃ m', m₁.applyRelocations data base = some m' ∧ data.Built base words m'.load8) ∧
      ∀ ν, data.relocated base (fun _ ↦ none) (data.loaded base) = .ok ν →
        (m.BuildsImage data size base words ↔ data.Built base words ν) := by
  obtain ⟨-, m₁, hlays, hload⟩ | ⟨hout, -⟩ := hr.elfLoad (U := ∅)
    (fun f hf ↦ absurd hf (Set.notMem_empty f)) hwf.header (fun v hv ↦ Image.pages_lt hend hv)
    (Image.copies_owned hwf hend)
  swap
  · exact absurd (grants_of_need hroom) hout
  have hiff : m.BuildsImage data size base words ↔
      ∃ m', m₁.applyRelocations data base = some m' ∧ data.Built base words m'.load8 := by
    rw [BuildsImage, hload, Image.highest_eq hend le_rfl, ← Image.imageEnd]
    simp only [Option.map_eq_some_iff, Prod.mk.injEq, true_and]
    constructor
    · rintro ⟨m', ⟨m₂, happly, heq⟩, hbuilt⟩
      exact ⟨m', heq ▸ happly, hbuilt⟩
    · rintro ⟨m', happly, hbuilt⟩
      exact ⟨m', ⟨m', happly, rfl⟩, hbuilt⟩
  refine ⟨m₁, hlays.shows, hiff, fun ν hν ↦ ?_⟩
  obtain ⟨m', happly, -, ⟨-, hshows', -⟩, -⟩ := hlays.applyRelocations
    (fun _ _ hb ↦ (by cases hb)) hν
  have hsame : ∀ x, data.content base x ≠ none → m'.load8 x = ν x := fun x hx ↦
    hshows'.extends.apply (Image.relocated_ne_none hν (Image.content_loaded hwf hend hx))
  rw [hiff]
  constructor
  · rintro ⟨m'', happly', hbuilt⟩
    obtain rfl := Option.some.inj (happly.symm.trans happly')
    exact hbuilt.congr hrel fun x hx ↦ (hsame x hx).symm
  · exact fun hbuilt ↦ ⟨m', happly, hbuilt.congr hrel hsame⟩

theorem sample_room (data : Image) (base : ℕ) (hlen : (data.pages base data.ePhnum).length ≤ 8) :
    (Sample.machine 16).need (data.pages base data.ePhnum) ≤ (Sample.machine 16).free.card := by
  have hfree : (Sample.machine 16).free.card = 16 := by
    rw [← pmmFreeFrameCount_eq]
    decide +kernel
  have := (Sample.machine 16).need_le (data.pages base data.ePhnum)
  omega

theorem spared_sample : (Sample.machine 16).Spared {1} Sample.kernelFrames where
  used := Sample.frameTest_machine 16 (by norm_num)
  loose _ := by
    refine ⟨Sample.frameTest_machine 16 (by norm_num), fun hf ↦ hf.2.1 rfl, fun o ho ↦ ?_⟩
    obtain ⟨-, h⟩ | ⟨-, h⟩ | ⟨-, h⟩ := Sample.user_holds ho <;> omega

end Machine

end EclipseOS
