import EclipseOS.Elf
import EclipseOS.Lib.Bytes

/-!
# The memory an image describes

The loader without a machine: segments are placed one after another in a
partial byte memory, and the relocations are read from that memory and applied
to it.  An access outside of it gives `none`.
-/

namespace EclipseOS

open LittleEndian

namespace Image

variable (data : Image) (base : ℕ)

/-- The addresses at which pages are mapped for header `i`. -/
def segPages (i : ℕ) : List ℕ :=
  if data.pType i = PT_LOAD then pagesBetween (data.segStart base i) (data.segEnd base i) else []

/-- Header `i`: its pages are cleared, then the file's bytes are copied. -/
def place (μ : Bytes) (i : ℕ) : Bytes :=
  if data.pType i = PT_LOAD then
    fill (fill μ (data.segStart base i) (data.segEnd base i - data.segStart base i) fun _ ↦ 0)
      ((base + data.pVaddr i) % 2 ^ 32) (data.pFilesz i) fun k ↦ data ((data.pOffset i + k) % 2 ^ 32)
  else μ

/-- The first `n` headers. -/
def placed (μ : Bytes) (n : ℕ) : Bytes := (List.range n).foldl (data.place base) μ

/-- The image before the relocations, in an empty space. -/
def loaded : Bytes := data.placed base (fun _ ↦ none) data.ePhnum

/-- Pages of the first `n` headers, in the order in which they are mapped. -/
def pages (n : ℕ) : List ℕ := (List.range n).flatMap (data.segPages base)

/-- What the break is computed from. -/
def highest (n : ℕ) : ℕ :=
  (List.range n).foldl (fun h i ↦
    if data.pType i = PT_LOAD then max h (data.segEnd base i) else h) 0

/-- A page of one of the first `n` headers has the address `x` in it. -/
def Owned (n x : ℕ) : Prop :=
  ∃ j < n, data.pType j = PT_LOAD ∧ data.segStart base j ≤ x ∧ x < data.segEnd base j

/-- The pages of header `i` are in user space, and every byte copied for it goes
to a page that is mapped by then. -/
def ConfinedAt (i : ℕ) : Prop :=
  data.pType i = PT_LOAD →
    (data.segStart base i < data.segEnd base i →
      2 ^ 22 ≤ data.segStart base i ∧ data.segEnd base i ≤ 3 * 2 ^ 30) ∧
    ∀ k < data.pFilesz i, data.Owned base (i + 1) ((base + data.pVaddr i) % 2 ^ 32 + k)

def Confined : Prop := ∀ i < data.ePhnum, data.ConfinedAt base i

end Image

/-- Why the relocations of an image cannot be carried out: a dynamic entry or a
record at the address is not all there, a word to be patched is not, or a loop
does not end. -/
inductive Fault
  | read (va : ℕ)
  | write (va : ℕ)
  | endless
  deriving DecidableEq

/-- A word, or the fault `e` where it is not there. -/
def readWord (μ : Bytes) (a : ℕ) (e : Fault) : Except Fault ℕ :=
  match read32 μ a with
  | some w => .ok w
  | none => .error e

/-- `dynEntry` over a memory. -/
def dynEntryBytes (μ : Bytes) (base : ℕ) (info : Machine.DynInfo) (d tag : ℕ) :
    Except Fault Machine.DynInfo :=
  if tag = DT_REL then
    (readWord μ (d + 4) (.read (d + 4))).map fun val ↦ { info with rel := (base + val) % 2 ^ 32 }
  else if tag = DT_RELSZ then
    (readWord μ (d + 4) (.read (d + 4))).map fun val ↦ { info with relsz := val }
  else if tag = DT_RELENT then
    (readWord μ (d + 4) (.read (d + 4))).map fun val ↦ { info with relent := val }
  else .ok info

/-- `scanDynamic` over a memory. -/
def scanBytes (μ : Bytes) (base : ℕ) (info : Machine.DynInfo) :
    ℕ → ℕ → Except Fault Machine.DynInfo
  | 0, _ => .error .endless
  | fuel + 1, d => do
      let tag ← readWord μ d (.read d)
      if tag = DT_NULL then return info
      let info ← dynEntryBytes μ base info d tag
      scanBytes μ base info fuel ((d + DYN_SIZE) % 2 ^ 32)

/-- `*(uint32_t*) (base + r->r_offset) += base` for the record at `a`.  The record
may lie in `κ`, the word that is patched does not. -/
def patchBytes (κ μ : Bytes) (base a : ℕ) : Except Fault Bytes := do
  let rOffset ← readWord (beside μ κ) (a % 2 ^ 32) (.read (a % 2 ^ 32))
  let v ← readWord μ ((base + rOffset) % 2 ^ 32) (.write ((base + rOffset) % 2 ^ 32))
  return write32 μ ((base + rOffset) % 2 ^ 32) (v + base)

/-- The record at `a`. -/
def recordBytes (κ μ : Bytes) (base a : ℕ) : Except Fault Bytes := do
  let rInfo ← readWord (beside μ κ) ((a + 4) % 2 ^ 32) (.read ((a + 4) % 2 ^ 32))
  if rInfo &&& 0xFF = R_386_RELATIVE then patchBytes κ μ base a else return μ

/-- `relocate` over a memory. -/
def relocateBytes (κ μ : Bytes) (base : ℕ) (info : Machine.DynInfo) : ℕ → ℕ → Except Fault Bytes
  | 0, _ => .error .endless
  | fuel + 1, off =>
      if off < info.relsz then do
        let μ ← recordBytes κ μ base (info.rel + off)
        relocateBytes κ μ base info fuel ((off + info.relent) % 2 ^ 32)
      else .ok μ

/-- `applyRelocations` over the memory `μ`, beside other memory `κ` that is only
read. -/
def Image.relocated (data : Image) (base : ℕ) (κ μ : Bytes) : Except Fault Bytes :=
  match Machine.dynamicHeader data with
  | none => .ok μ
  | some i =>
      let dyn := (base + data.pVaddr i) % 2 ^ 32
      if dyn = 0 then .ok μ
      else do
        let info ← scanBytes (beside μ κ) base ⟨0, 0, REL_SIZE⟩ (2 ^ 32 + 1) dyn
        relocateBytes κ μ base info (2 ^ 32 + 1) 0

/-! ## Steps of the walk -/

section Steps

variable {κ μ ν : Bytes} {a w base : ℕ} {e : Fault}

theorem readWord_eq_ok : readWord μ a e = .ok w ↔ read32 μ a = some w := by
  rw [readWord]
  cases read32 μ a <;> simp

theorem readWord_eq_error {e' : Fault} :
    readWord μ a e = .error e' ↔ e' = e ∧ ¬ Defined μ a 4 := by
  rw [← read32_eq_none, readWord]
  cases read32 μ a <;> simp [eq_comm]

theorem bind_eq_ok {α β ε : Type} {x : Except ε α} {f : α → Except ε β} {y : β} :
    x >>= f = .ok y ↔ ∃ v, x = .ok v ∧ f v = .ok y := by
  cases x <;> simp [bind, Except.bind]

theorem bind_eq_error {α β ε : Type} {x : Except ε α} {f : α → Except ε β} {e : ε} :
    x >>= f = .error e ↔ x = .error e ∨ ∃ v, x = .ok v ∧ f v = .error e := by
  cases x <;> simp [bind, Except.bind]

theorem map_eq_ok {α β ε : Type} {x : Except ε α} {f : α → β} {y : β} :
    x.map f = .ok y ↔ ∃ v, x = .ok v ∧ f v = y := by
  cases x <;> simp [Except.map]

theorem map_eq_error {α β ε : Type} {x : Except ε α} {f : α → β} {e : ε} :
    x.map f = .error e ↔ x = .error e := by
  cases x <;> simp [Except.map]

theorem patchBytes_eq_ok : patchBytes κ μ base a = .ok ν ↔ ∃ rOffset v,
    read32 (beside μ κ) (a % 2 ^ 32) = some rOffset ∧ read32 μ ((base + rOffset) % 2 ^ 32) = some v ∧
      ν = write32 μ ((base + rOffset) % 2 ^ 32) (v + base) := by
  simp only [patchBytes, bind_eq_ok, readWord_eq_ok, pure, Except.pure, Except.ok.injEq]
  constructor
  · rintro ⟨rOffset, hoff, v, hv, rfl⟩
    exact ⟨rOffset, v, hoff, hv, rfl⟩
  · rintro ⟨rOffset, v, hoff, hv, rfl⟩
    exact ⟨rOffset, hoff, v, hv, rfl⟩

/-- What is in memory stays there. -/
theorem recordBytes_ne_none {x : ℕ} (h : recordBytes κ μ base a = .ok ν) (hx : μ x ≠ none) :
    ν x ≠ none := by
  rw [recordBytes, bind_eq_ok] at h
  obtain ⟨rInfo, -, h⟩ := h
  split at h
  · obtain ⟨rOffset, v, -, -, rfl⟩ := patchBytes_eq_ok.mp h
    exact fill_ne_none hx
  · rwa [← Except.ok.inj h]

theorem relocateBytes_ne_none {x fuel off : ℕ} {info : Machine.DynInfo}
    (h : relocateBytes κ μ base info fuel off = .ok ν) (hx : μ x ≠ none) : ν x ≠ none := by
  induction fuel generalizing μ off with
  | zero => cases h
  | succ fuel ih =>
      rw [relocateBytes] at h
      split at h
      · rw [bind_eq_ok] at h
        obtain ⟨μ₁, hrecord, hrest⟩ := h
        exact ih hrest (recordBytes_ne_none hrecord hx)
      · rwa [← Except.ok.inj h]

theorem Image.relocated_ne_none {data : Image} {x : ℕ} (h : data.relocated base κ μ = .ok ν)
    (hx : μ x ≠ none) : ν x ≠ none := by
  rw [Image.relocated] at h
  split at h
  · rwa [← Except.ok.inj h]
  · dsimp only at h
    split at h
    · rwa [← Except.ok.inj h]
    · rw [bind_eq_ok] at h
      obtain ⟨info, -, h⟩ := h
      exact relocateBytes_ne_none h hx

end Steps

namespace Image

variable {data : Image} {base n x i : ℕ} {μ : Bytes}

@[simp] theorem placed_zero (data : Image) (base : ℕ) (μ : Bytes) : data.placed base μ 0 = μ := rfl

theorem placed_succ (data : Image) (base : ℕ) (μ : Bytes) (n : ℕ) :
    data.placed base μ (n + 1) = data.place base (data.placed base μ n) n := by
  rw [placed, List.range_succ, List.foldl_append, List.foldl_cons, List.foldl_nil, placed]

theorem pages_succ (data : Image) (base n : ℕ) :
    data.pages base (n + 1) = data.pages base n ++ data.segPages base n := by
  rw [pages, List.range_succ, List.flatMap_append, List.flatMap_singleton, pages]

theorem pages_le (data : Image) (base : ℕ) {k : ℕ} (h : n ≤ k) :
    ∃ rest, data.pages base k = data.pages base n ++ rest := by
  induction k, h using Nat.le_induction with
  | base => exact ⟨[], (List.append_nil _).symm⟩
  | succ k _ ih =>
      obtain ⟨rest, hrest⟩ := ih
      exact ⟨rest ++ data.segPages base k, by rw [pages_succ, hrest, List.append_assoc]⟩

theorem highest_succ (data : Image) (base n : ℕ) : data.highest base (n + 1) =
    if data.pType n = PT_LOAD then max (data.highest base n) (data.segEnd base n)
    else data.highest base n := by
  rw [highest, List.range_succ, List.foldl_append, List.foldl_cons, List.foldl_nil, highest]

/-- What is in memory stays in memory. -/
theorem place_ne_none (h : μ x ≠ none) : data.place base μ i x ≠ none := by
  rw [place]
  split
  · exact fill_ne_none (fill_ne_none h)
  · exact h

/-- The pages of a header are in memory from then on. -/
theorem placed_ne_none (h : data.Owned base n x) : data.placed base μ n x ≠ none := by
  induction n with
  | zero =>
      obtain ⟨j, hj, -⟩ := h
      exact absurd hj (Nat.not_lt_zero j)
  | succ n ih =>
      rw [placed_succ]
      obtain ⟨j, hj, hload, h₁, h₂⟩ := h
      by_cases heq : j = n
      · subst heq
        rw [place, if_pos hload]
        refine fill_ne_none ?_
        rw [fill, if_pos (by omega)]
        exact Option.some_ne_none _
      · exact place_ne_none (ih ⟨j, by omega, hload, h₁, h₂⟩)

/-- They are there before the header's own bytes are copied. -/
theorem cleared_ne_none (h : data.Owned base (n + 1) x) :
    fill (data.placed base μ n) (data.segStart base n) (data.segEnd base n - data.segStart base n)
      (fun _ ↦ 0) x ≠ none := by
  obtain ⟨j, hj, hload, h₁, h₂⟩ := h
  by_cases heq : j = n
  · subst heq
    rw [fill, if_pos (by omega)]
    exact Option.some_ne_none _
  · exact fill_ne_none (placed_ne_none ⟨j, by omega, hload, h₁, h₂⟩)

/-- Nothing else comes into memory while the copies stay inside. -/
theorem owned_of_placed (hcopy : ∀ i < n, data.pType i = PT_LOAD → ∀ k < data.pFilesz i,
      data.Owned base (i + 1) ((base + data.pVaddr i) % 2 ^ 32 + k))
    (h : data.placed base (fun _ ↦ none) n x ≠ none) : data.Owned base n x := by
  induction n with
  | zero => exact absurd rfl h
  | succ n ih =>
      have ih := ih fun i hi ↦ hcopy i (by omega)
      have hmono : data.Owned base n x → data.Owned base (n + 1) x := fun ⟨j, hj, hrest⟩ ↦
        ⟨j, by omega, hrest⟩
      rw [placed_succ, place] at h
      split at h
      · next hload =>
          rw [fill] at h
          split at h
          · next hin =>
              have := hcopy n (by omega) hload (x - (base + data.pVaddr n) % 2 ^ 32) (by omega)
              rwa [Nat.add_sub_cancel' hin.1] at this
          · rw [fill] at h
            split at h
            · next hin => exact ⟨n, by omega, hload, hin.1, by omega⟩
            · exact hmono (ih h)
      · exact hmono (ih h)

end Image

end EclipseOS
