import EclipseOS.LoaderTrace

/-!
# Where the loader reads and writes

`elf_load` tests the fixed header only.  Its accesses stay where they belong
exactly for the files whose headers and relocations say so.
-/

namespace EclipseOS

open LittleEndian Access

/-! ## Records of loops -/

section FoldTrace

variable {σ ι : Type} {step : σ → ι → Option σ} {turn : σ → ι → List Access} {s s' : σ} {l l' : List ι}

theorem foldTrace_append (h : l.foldlM step s = some s') :
    foldTrace step turn s (l ++ l') = foldTrace step turn s l ++ foldTrace step turn s' l' := by
  induction l generalizing s with
  | nil =>
      rw [List.foldlM_nil, Option.pure_def, Option.some.injEq] at h
      rw [h]
      rfl
  | cons i l ih =>
      rw [List.foldlM_cons, Option.bind_eq_bind, Option.bind_eq_some_iff] at h
      obtain ⟨s₁, hstep, hrest⟩ := h
      rw [List.cons_append, foldTrace, foldTrace, hstep]
      dsimp only
      rw [ih hrest, List.append_assoc]

theorem foldTrace_singleton {i : ι} : foldTrace step turn s [i] = turn s i := by
  rw [foldTrace]
  cases step s i <;> simp [foldTrace]

/-- A turn that faults is the last. -/
theorem foldTrace_none {i : ι} (h : step s i = none) : foldTrace step turn s (i :: l) = turn s i := by
  rw [foldTrace, h, List.append_nil]

end FoldTrace

namespace Access

variable {off n va x : ℕ} {a : Access}

theorem mem_dataBytes : a ∈ dataBytes off n ↔ ∃ k < n, a = data ((off + k) % 2 ^ 32) := by
  simp [dataBytes, eq_comm]

theorem mem_readBytes : a ∈ readBytes va n ↔ ∃ k < n, a = read ((va + k) % 2 ^ 32) := by
  simp [readBytes, eq_comm]

theorem mem_writeBytes : a ∈ writeBytes va n ↔ ∃ k < n, a = write ((va + k) % 2 ^ 32) := by
  simp [writeBytes, eq_comm]

end Access

namespace Image

variable (data : Image) (base : ℕ)

/-- The record of the pages of a segment. -/
def pagesTrace (l : List ℕ) : List Access := l.flatMap fun v ↦ .map v :: writeBytes v PAGE_SIZE

/-- The record of a copy. -/
def copyEvents (dst off n : ℕ) : List Access :=
  (List.range n).flatMap fun k ↦ [.data ((off + k) % 2 ^ 32), .write ((dst + k) % 2 ^ 32)]

/-- The record of header `i`. -/
def headerEvents (i : ℕ) : List Access :=
  dataBytes (data.phdr i) 4 ++
    if data.pType i ≠ PT_LOAD then []
    else dataBytes (data.phdr i + 8) 4 ++ dataBytes (data.phdr i + 20) 4 ++
      pagesTrace (pagesBetween (data.segStart base i) (data.segEnd base i)) ++
      (dataBytes (data.phdr i + 4) 4 ++ dataBytes (data.phdr i + 16) 4 ++
        copyEvents ((base + data.pVaddr i) % 2 ^ 32) (data.pOffset i) (data.pFilesz i))

/-- What the headers say is read through `data` lies in the first `size` bytes. -/
def InsideFile (size : ℕ) : Prop :=
  ∀ i < data.ePhnum, (∀ k < 4, (data.phdr i + k) % 2 ^ 32 < size) ∧
    (data.pType i = PT_LOAD →
      (∀ f ∈ [8, 20, 4, 16], ∀ k < 4, (data.phdr i + f + k) % 2 ^ 32 < size) ∧
      ∀ k < data.pFilesz i, (data.pOffset i + k) % 2 ^ 32 < size) ∧
    (data.pType i = PT_DYNAMIC → ∀ k < 4, (data.phdr i + 8 + k) % 2 ^ 32 < size)

end Image

namespace Machine

variable {m m' m₁ : Machine} {B D d t i n off base hi high v dst : ℕ} {L K : Set ℕ}
variable {data : Image} {κ μ ν : Bytes}

/-! ## Segments -/

/-- The pages are recorded one after another. -/
theorem loadPages_trace (h : m.Ledger B L K) (hs : m.Spared L K) {l : List ℕ} (hl : m.PagesStay l)
    (hrun : l.foldlM loadPage ⟨m, hi, false⟩ = some ⟨m', hi, false⟩) :
    foldTrace loadPage loadPageTrace ⟨m, hi, false⟩ l = Image.pagesTrace l := by
  induction l generalizing m with
  | nil => rfl
  | cons v l ih =>
      obtain ⟨F, hF, halloc⟩ | ⟨-, halloc⟩ := pmmAllocFrame_cases h.lastAlloc
      · have hone := grants_singleton ⟨F, hF⟩ v
        have hF0 : F * PAGE_SIZE ≠ 0 := Nat.mul_ne_zero (Ledger.free_ne hF hs.used) (by decide)
        obtain ⟨-, -, -, m₁, hstep, hload, -, hcharges⟩ | ⟨hnone, -⟩ :=
          loadPage_view h hs (hl [] v l rfl (hone [] v [] rfl))
        · have hl' := (hcharges.pagesStay_iff (PagesStay.front (l := [v]) hl)).mp hl
          rw [List.foldlM_cons, hstep, Option.bind_eq_bind, Option.bind_some] at hrun
          rw [foldTrace, hstep, loadPageTrace, if_neg (by simp [halloc, hF0])]
          dsimp only
          rw [ih hload.ledger hload.spared hl' hrun, Image.pagesTrace, Image.pagesTrace,
            List.flatMap_cons]
        · rw [hnone] at hF
          exact absurd hF (Finset.notMem_empty F)
      · have hstep : loadPage ⟨m, hi, false⟩ v = some ⟨m.log (.alloc 0), hi, true⟩ := by
          simp [loadPage, halloc]
        rw [List.foldlM_cons, hstep, Option.bind_eq_bind, Option.bind_some,
          loadPages_outOfMemory, Option.some.injEq, ElfLoop.mk.injEq] at hrun
        exact absurd hrun.2.2 (by decide)

theorem copy_trace (h : m.Ledger B L K) (data : Image) (off : ℕ) (hdef : Defined m.view dst n) :
    copyTrace m data dst off n = Image.copyEvents dst off n := by
  induction n generalizing m dst off with
  | zero => rfl
  | succ n ih =>
      obtain ⟨hva, hrest⟩ := hdef.succ
      obtain ⟨m₁, hstore, hpokes, hview⟩ := store8_view h hva (data (off % 2 ^ 32))
      rw [copyTrace, hstore]
      dsimp only
      rw [ih (hpokes.ledger h) (off + 1) (by rw [hview]; exact hrest.update), Image.copyEvents,
        Image.copyEvents, List.range_succ_eq_map, List.flatMap_cons, List.flatMap_map]
      simp only [Nat.add_zero, Nat.succ_eq_add_one, Nat.add_assoc, Nat.add_comm 1, List.cons_append,
        List.nil_append]

/-- The record of one header. -/
theorem loadSegment_trace (h : m.Ledger B L K) (hs : m.Spared L K)
    (hpages : m.PagesStay (data.segPages base i))
    (hcopy : data.pType i = PT_LOAD → m.Grants (data.segPages base i) →
      ∀ k < data.pFilesz i, data.Owned base (i + 1) ((base + data.pVaddr i) % 2 ^ 32 + k))
    (hview : m.view = data.placed base μ i) {s : ElfLoop}
    (hstep : loadSegment data base ⟨m, high, false⟩ i = some s) (hoom : s.outOfMemory = false) :
    loadSegmentTrace data base ⟨m, high, false⟩ i = data.headerEvents base i := by
  rw [Image.segPages] at hpages hcopy
  by_cases hload : data.pType i = PT_LOAD
  · rw [if_pos hload] at hpages hcopy
    set top := max high (data.segEnd base i) with htop
    rw [loadSegment, if_neg (by simp [hload])] at hstep
    dsimp only at hstep
    rw [← htop] at hstep
    obtain ⟨hall, m₁, hrun, hloads, hview₁, -⟩ | ⟨-, m₁, hrun⟩ := loadPages_view h hs hpages
    · rw [zeroPages_pagesBetween _ (segStart_mod data base i) (segEnd_mod data base i)] at hview₁
      have hcpy := copy_trace (n := data.pFilesz i) hloads.ledger data (data.pOffset i) fun k hk ↦ by
        rw [hview₁, hview]
        exact Image.cleared_ne_none (hcopy hload hall k hk)
      rw [loadSegmentTrace, Image.headerEvents, if_neg Bool.false_ne_true, if_neg (by simp [hload]),
        if_neg (by simp [hload])]
      dsimp only
      rw [← htop, loadPages_trace h hs hpages hrun, hrun]
      dsimp only
      rw [if_neg Bool.false_ne_true, hcpy]
    · rw [hrun, Option.bind_eq_bind, Option.bind_some, if_pos rfl] at hstep
      obtain rfl := Option.some.inj hstep
      cases hoom
  · rw [loadSegmentTrace, Image.headerEvents, if_neg Bool.false_ne_true, if_pos hload, if_pos hload]

/-- The record of the first `n` headers. -/
theorem loadSegments_trace (h : m.Ledger B L K) (hs : m.Spared L K)
    (hstay : m.SegmentsStay data base n)
    (hrun : (List.range n).foldlM (loadSegment data base) ⟨m, 0, false⟩ = some ⟨m', hi, false⟩) :
    foldTrace (loadSegment data base) (loadSegmentTrace data base) ⟨m, 0, false⟩ (List.range n) =
      (List.range n).flatMap (data.headerEvents base) := by
  induction n generalizing m' hi with
  | zero => rfl
  | succ n ih =>
      have hpages := hstay.pages
      rw [Image.pages_succ] at hpages
      have hstay' := hstay.front n.le_succ
      rw [List.range_succ, List.foldlM_append] at hrun
      obtain ⟨hall, m₁, hrun₁, hload, hview, hcharges⟩ | ⟨-, s₁, hrun₁, hoom₁⟩ :=
        loadSegments_view h hs hstay'
      · rw [hrun₁, Option.bind_eq_bind, Option.bind_some] at hrun
        rw [List.range_succ, foldTrace_append hrun₁, foldTrace_singleton, ih hstay' hrun₁,
          loadSegment_trace hload.ledger hload.spared
            ((hcharges.pagesStay_iff hpages.front).mp hpages) (fun hload hall' ↦
              hstay.copies n n.lt_succ_self hload (by
                rw [Image.pages_succ]
                exact (hcharges.grants_iff hall).mpr hall')) hview
            (by simpa using hrun) rfl, List.flatMap_append, List.flatMap_singleton]
      · rw [hrun₁, Option.bind_eq_bind, Option.bind_some,
          loadSegments_outOfMemory data base hoom₁, Option.some.injEq] at hrun
        rw [hrun] at hoom₁
        exact nomatch hoom₁

end Machine

end EclipseOS
