import EclipseOS.KernelHalf
import EclipseOS.Untrusted

/-!
# Two properties of the loader

`elf_load` stays in user space, and reads its input only, for the images that
say so themselves; other images make it leave.
-/

namespace EclipseOS

open LittleEndian Access

/-! ## Records of runs -/

theorem foldTrace_forall {σ ι : Type} {step : σ → ι → Option σ} {turn : σ → ι → List Access}
    {P : ι → Access → Prop} (hturn : ∀ s i, ∀ a ∈ turn s i, P i a) {s : σ} {l : List ι} :
    ∀ a ∈ foldTrace step turn s l, ∃ i ∈ l, P i a := by
  induction l generalizing s with
  | nil => exact fun a ha ↦ absurd ha List.not_mem_nil
  | cons i l ih =>
      intro a ha
      rw [foldTrace, List.mem_append] at ha
      obtain ha | ha := ha
      · exact ⟨i, List.mem_cons_self, hturn s i a ha⟩
      · cases hstep : step s i with
        | none =>
            rw [hstep] at ha
            exact absurd ha List.not_mem_nil
        | some s₁ =>
            rw [hstep] at ha
            obtain ⟨j, hj, hP⟩ := ih a ha
            exact ⟨j, List.mem_cons_of_mem i hj, hP⟩

theorem range_split {n k : ℕ} (h : n < k) : ∃ rest, List.range k = List.range n ++ n :: rest := by
  obtain ⟨b, rfl⟩ := Nat.exists_eq_add_of_lt h
  refine ⟨(List.range b).map fun i ↦ n + (i + 1), ?_⟩
  rw [Nat.add_assoc, List.range_add, List.range_succ_eq_map, List.map_cons, List.map_map]
  rfl

namespace Machine

variable {m m' m₁ : Machine} {B D d t i n k off base hi high v x dst size : ℕ} {L K : Set ℕ}
variable {data : Image} {μ ν : Bytes} {a : Access}

/-- Dynamic entries and records are read and patched, nothing else. -/
theorem word_of_dynamicTrace (ha : a ∈ dynamicTrace m data base) :
    ∃ x, a = .read x ∨ a = .write x := by
  have hread : ∀ {va n}, a ∈ readBytes va n → ∃ x, a = .read x ∨ a = .write x := fun ha ↦ by
    obtain ⟨k, -, rfl⟩ := mem_readBytes.mp ha
    exact ⟨_, Or.inl rfl⟩
  have hwrite : ∀ {va n}, a ∈ writeBytes va n → ∃ x, a = .read x ∨ a = .write x := fun ha ↦ by
    obtain ⟨k, -, rfl⟩ := mem_writeBytes.mp ha
    exact ⟨_, Or.inr rfl⟩
  have hscan : ∀ (fuel : ℕ) (info : DynInfo) (d : ℕ), a ∈ scanTrace m base info fuel d →
      ∃ x, a = .read x ∨ a = .write x := by
    intro fuel
    induction fuel with
    | zero => exact fun _ _ ha ↦ absurd ha List.not_mem_nil
    | succ fuel ih =>
        intro info d ha
        rw [scanTrace, List.mem_append] at ha
        obtain ha | ha := ha
        · exact hread ha
        split at ha
        · exact absurd ha List.not_mem_nil
        split at ha
        · exact absurd ha List.not_mem_nil
        rw [List.mem_append] at ha
        obtain ha | ha := ha
        · split at ha
          · exact hread ha
          · exact absurd ha List.not_mem_nil
        split at ha
        · exact absurd ha List.not_mem_nil
        · exact ih _ _ ha
  have hrecord : ∀ (m : Machine) (r : ℕ), a ∈ recordTrace m base r →
      ∃ x, a = .read x ∨ a = .write x := by
    intro m r ha
    rw [recordTrace, List.mem_append] at ha
    obtain ha | ha := ha
    · exact hread ha
    split at ha
    · exact absurd ha List.not_mem_nil
    split at ha
    · rw [List.mem_append] at ha
      obtain ha | ha := ha
      · exact hread ha
      split at ha
      · exact absurd ha List.not_mem_nil
      · exact hwrite ha
    · exact absurd ha List.not_mem_nil
  have hrelocate : ∀ (fuel : ℕ) (m : Machine) (info : DynInfo) (off : ℕ),
      a ∈ relocateTrace m base info fuel off → ∃ x, a = .read x ∨ a = .write x := by
    intro fuel
    induction fuel with
    | zero => exact fun _ _ _ ha ↦ absurd ha List.not_mem_nil
    | succ fuel ih =>
        intro m info off ha
        rw [relocateTrace] at ha
        split at ha
        · rw [List.mem_append] at ha
          obtain ha | ha := ha
          · exact hrecord m _ ha
          split at ha
          · exact absurd ha List.not_mem_nil
          · exact ih _ _ _ ha
        · exact absurd ha List.not_mem_nil
  rw [dynamicTrace] at ha
  split at ha
  · exact absurd ha List.not_mem_nil
  dsimp only at ha
  split at ha
  · exact absurd ha List.not_mem_nil
  rw [List.mem_append] at ha
  obtain ha | ha := ha
  · exact hscan _ _ _ ha
  split at ha
  · exact absurd ha List.not_mem_nil
  · exact hrelocate _ _ _ _ ha

/-- The record of the loop over the headers. -/
def headersTrace (m : Machine) (data : Image) (base : ℕ) : List Access :=
  foldTrace (loadSegment data base) (loadSegmentTrace data base) ⟨m, 0, false⟩
    (List.range data.ePhnum)

/-- The parts of the record. -/
theorem mem_elfTrace (hbase : data.headerBase size = some base) : a ∈ elfTrace m data size →
    a.Fixed ∨ a ∈ headersTrace m data base ∨
      ∃ s, (List.range data.ePhnum).foldlM (loadSegment data base) ⟨m, 0, false⟩ = some s ∧
        s.outOfMemory = false ∧
        (a ∈ dynamicHeaderTrace data ∨ a ∈ dynamicTrace s.machine data base) := by
  intro ha
  rw [elfTrace, hbase, List.mem_append] at ha
  obtain ha | ha := ha
  · exact Or.inl (fixed_of_headerTrace ha)
  simp only [List.mem_append] at ha
  obtain ((ha | ha) | ha) | ha := ha
  · exact Or.inl (fixed_of_dataBytes (by decide) ha)
  · exact Or.inl (fixed_of_dataBytes (by decide) ha)
  · exact Or.inr (Or.inl ha)
  split at ha
  · exact absurd ha List.not_mem_nil
  · next s hrun =>
      split at ha
      · exact absurd ha List.not_mem_nil
      · next hoom =>
          simp only [List.mem_append, applyRelocationsTrace] at ha
          obtain ((ha | ha) | ha) | ha := ha
          · exact Or.inl (fixed_of_dataBytes (by decide) ha)
          · exact Or.inl (fixed_of_dataBytes (by decide) ha)
          · exact Or.inr (Or.inr ⟨s, hrun, by simpa using hoom, ha⟩)
          · exact Or.inl (fixed_of_dataBytes (by decide) ha)

theorem mem_elfTrace_of_headers (hbase : data.headerBase size = some base)
    (ha : a ∈ headersTrace m data base) : a ∈ elfTrace m data size := by
  rw [elfTrace, hbase]
  simp only [List.mem_append]
  exact Or.inr (Or.inl (Or.inr ha))

theorem mem_elfTrace_of_relocations (hbase : data.headerBase size = some base) {s : ElfLoop}
    (hrun : (List.range data.ePhnum).foldlM (loadSegment data base) ⟨m, 0, false⟩ = some s)
    (hoom : s.outOfMemory = false)
    (ha : a ∈ dynamicHeaderTrace data ∨ a ∈ dynamicTrace s.machine data base) :
    a ∈ elfTrace m data size := by
  rw [elfTrace, hbase]
  dsimp only
  rw [hrun]
  dsimp only
  rw [if_neg (by simp [hoom])]
  simp only [List.mem_append, applyRelocationsTrace]
  exact Or.inr (Or.inr (Or.inl (Or.inr ha)))

/-! ## Images that stay inside -/

/-- The loop over the headers of a confined image, in an empty space. -/
theorem headersTrace_confined (h : m.Ledger B L K) (hs : m.Spared L K) (hconf : data.Confined base)
    (hrun : (List.range data.ePhnum).foldlM (loadSegment data base) ⟨m, 0, false⟩ =
      some ⟨m₁, hi, false⟩) :
    a ∈ headersTrace m data base ↔ ∃ i < data.ePhnum, a ∈ data.headerEvents base i := by
  rw [headersTrace, loadSegments_trace h hs (.of_confined hconf m) hrun, List.mem_flatMap]
  simp only [List.mem_range]

theorem map_mem_elfTrace (h : m.Ledger B L K) (hs : m.Spared L K)
    (hbase : data.headerBase size = some base) (hconf : data.Confined base)
    (hrun : (List.range data.ePhnum).foldlM (loadSegment data base) ⟨m, 0, false⟩ =
      some ⟨m₁, hi, false⟩) :
    .map v ∈ elfTrace m data size ↔ ∃ i < data.ePhnum, v ∈ data.segPages base i := by
  constructor
  · intro hv
    obtain ⟨_, -, hv⟩ | hv | ⟨s, -, -, hv | hv⟩ := mem_elfTrace hbase hv
    · exact nomatch hv
    · obtain ⟨i, hi, hv⟩ := (headersTrace_confined h hs hconf hrun).mp hv
      exact ⟨i, hi, Image.map_mem_headerEvents.mp hv⟩
    · obtain ⟨_, hv⟩ := Image.eq_data_of_mem_dynamicHeaderTrace hv
      exact nomatch hv
    · obtain ⟨_, hv | hv⟩ := word_of_dynamicTrace hv
      · exact nomatch hv
      · exact nomatch hv
  · rintro ⟨i, hi, hv⟩
    exact mem_elfTrace_of_headers hbase ((headersTrace_confined h hs hconf hrun).mpr
      ⟨i, hi, Image.map_mem_headerEvents.mpr hv⟩)

/-- The pages of the record own the memory of the image. -/
theorem covered_iff (h : m.Ledger B L K) (hs : m.Spared L K)
    (hbase : data.headerBase size = some base) (hconf : data.Confined base)
    (hrun : (List.range data.ePhnum).foldlM (loadSegment data base) ⟨m, 0, false⟩ =
      some ⟨m₁, hi, false⟩) :
    (∃ v, .map v ∈ elfTrace m data size ∧ v ≤ x ∧ x < v + PAGE_SIZE) ↔
      data.Owned base data.ePhnum x := by
  simp only [map_mem_elfTrace h hs hbase hconf hrun]
  rw [Image.owned_iff]
  constructor
  · rintro ⟨v, ⟨i, hi, hv⟩, hx⟩
    exact ⟨i, hi, v, hv, hx⟩
  · rintro ⟨i, hi, v, hv, hx⟩
    exact ⟨v, ⟨i, hi, hv⟩, hx⟩

end Machine

namespace Image

variable {data : Image} {base n x : ℕ}

theorem Owned.userAddr (h : data.Owned base n x)
    (hrange : ∀ i < n, ∀ v ∈ data.segPages base i, 2 ^ 22 ≤ v ∧ v + PAGE_SIZE ≤ 3 * 2 ^ 30) :
    UserAddr x := by
  obtain ⟨j, hj, v, hv, h₁, h₂⟩ := owned_iff.mp h
  obtain ⟨h₃, h₄⟩ := hrange j hj v hv
  exact ⟨by omega, by omega⟩

theorem Owned.mono {k : ℕ} (h : data.Owned base n x) (hnk : n ≤ k) : data.Owned base k x := by
  obtain ⟨j, hj, hrest⟩ := h
  exact ⟨j, by omega, hrest⟩

/-- The pages of a confined header. -/
theorem ConfinedAt.page {i v : ℕ} (h : data.ConfinedAt base i) (hv : v ∈ data.segPages base i) :
    2 ^ 22 ≤ v ∧ v + PAGE_SIZE ≤ 3 * 2 ^ 30 := by
  obtain ⟨hload, h₁, h₂, h₃⟩ := mem_segPages.mp hv
  obtain ⟨h₄, h₅⟩ := (h hload).1 (by omega)
  rw [PAGE_SIZE]
  omega

/-- A confined header writes to pages that are mapped by then. -/
theorem ConfinedAt.write {i : ℕ} (hconf : ∀ j ≤ i, data.ConfinedAt base j)
    (hx : .write x ∈ data.headerEvents base i) : data.Owned base (i + 1) x := by
  obtain ⟨v, hv, k, hk, rfl⟩ | ⟨hload, k, hk, rfl⟩ := write_mem_headerEvents hx
  · have hpage := (hconf i le_rfl).page hv
    rw [PAGE_SIZE] at hk hpage
    rw [Nat.mod_eq_of_lt (by omega), owned_iff]
    exact ⟨i, by omega, v, hv, by omega, by rw [PAGE_SIZE]; omega⟩
  · have hown := (hconf i le_rfl hload).2 k hk
    obtain ⟨-, hlt⟩ := hown.userAddr fun j hj v hv ↦ (hconf j (by omega)).page hv
    rwa [Nat.mod_eq_of_lt (by omega)]

/-- What is in the memory of a confined image. -/
theorem loaded_ne_none_iff (hconf : data.Confined base) :
    data.loaded base x ≠ none ↔ data.Owned base data.ePhnum x :=
  ⟨owned_of_placed fun i hi hload ↦ (hconf i hi hload).2, placed_ne_none⟩

end Image

namespace Machine

variable {m m' m₁ : Machine} {B D d t i n k off base hi high v x dst size : ℕ} {L K : Set ℕ}
variable {data : Image} {μ ν : Bytes} {a : Access}

/-! ## Where the loader writes -/

/-- `elf_load` answers 0, or its pages are in user space, its stores are in its
own pages, and the frames of the kernel and its entries are as they were. -/
def KeepsToUserSpace (L K : Set ℕ) (m : Machine) (data : Image) (size : ℕ) : Prop :=
  m.Refuses data size ∨ StaysInUserSpace (elfTrace m data size) ∧
    ∀ entry brk m', m.elfLoad data size = some (entry, brk, m') →
      (∀ f ∈ K, m'.mem f = m.mem f) ∧
      ∀ D ∈ L, ∀ i, KernelEntry i ∨ i = 1023 → m'.pde D i = m.pde D i

/-- The segments stay in user space as far as there are frames; and if there are
frames for all of them, every word that the relocation pass patches is in them,
the kernel's memory being read where it leaves them. -/
structure StoresInside (m : Machine) (K : Set ℕ) (data : Image) (base : ℕ) : Prop where
  segments : m.SegmentsStay data base data.ePhnum
  patches : m.Grants (data.pages base data.ePhnum) →
    ∀ va, data.relocated base (m.kernelView K) (data.loaded base) ≠ .error (.write va)

/-- A dynamic entry or a record that is neither in the image nor in a frame of the
kernel is nowhere. -/
def TablesSeen (m : Machine) (K : Set ℕ) (data : Image) (base : ℕ) : Prop :=
  m.Grants (data.pages base data.ePhnum) →
    ∀ va, data.relocated base (m.kernelView K) (data.loaded base) = .error (.read va) →
      m.Faults (data.loaded base) va

theorem refuses_of_outOfMemory (hbase : data.headerBase size = some base) {s : ElfLoop}
    (hrun : (List.range data.ePhnum).foldlM (loadSegment data base) ⟨m, 0, false⟩ = some s)
    (hoom : s.outOfMemory = true) : m.Refuses data size := by
  refine ⟨0, s.machine, ?_⟩
  rw [elfLoad, hbase]
  dsimp only
  rw [hrun, Option.bind_eq_bind, Option.bind_some, if_pos hoom]
  rfl

theorem refuses_of_header (hbase : data.headerBase size = none) : m.Refuses data size := by
  refine ⟨0, m, ?_⟩
  rw [elfLoad, hbase]
  rfl

/-- What stays inside keeps to user space. -/
theorem keepsToUserSpace_of_storesInside (h : m.Ledger B L K) (hs : m.Spared L K)
    (hempty : m.view = fun _ ↦ none) (hbase : data.headerBase size = some base)
    (hseen : m.TablesSeen K data base) (hinside : m.StoresInside K data base) :
    m.KeepsToUserSpace L K data size := by
  obtain ⟨hall, m₁, hrun, hload, hview, -⟩ | ⟨-, s, hrun, hoom⟩ := loadSegments_view h hs hinside.segments
  · have hconf := hinside.segments.confined hall
    rw [hempty, ← Image.loaded] at hview
    have hκ : Extends (m.kernelView K) (m₁.kernelView K) := by
      rw [hload.kernelView h]
      exact fun _ _ hb ↦ hb
    have hstops : ∀ e, data.relocated base (m.kernelView K) m₁.view = .error e →
        m₁.Stops m₁.view e := by
      intro e he
      rw [hview] at he ⊢
      refine hload.stops h ?_
      cases e with
      | read va => exact hseen hall va he
      | write va => exact absurd he (hinside.patches hall va)
      | endless => exact trivial
    refine Or.inr ⟨⟨fun v hv ↦ ?_, fun x hx ↦ (covered_iff h hs hbase hconf hrun).mpr ?_⟩,
      fun entry brk m' hsome ↦ ?_⟩
    · obtain ⟨j, hj, hv⟩ := (map_mem_elfTrace h hs hbase hconf hrun).mp hv
      exact (hconf j hj).page hv
    · obtain ⟨_, -, hx⟩ | hx | ⟨s, hrun', -, hx | hx⟩ := mem_elfTrace hbase hx
      · cases hx
      · obtain ⟨j, hj, hx⟩ := (headersTrace_confined h hs hconf hrun).mp hx
        exact (Image.ConfinedAt.write (fun k hk ↦ hconf k (by omega)) hx).mono (by omega)
      · obtain ⟨_, hx⟩ := Image.eq_data_of_mem_dynamicHeaderTrace hx
        cases hx
      · obtain rfl := Option.some.inj (hrun.symm.trans hrun')
        have := (dynamic_trace hload.ledger hκ).writes hstops
          (fun va ↦ by rw [hview]; exact hinside.patches hall va) x hx
        rw [hview] at this
        exact (Image.loaded_ne_none_iff hconf).mp this
    · rw [elfLoad_relocates hbase hrun, Option.map_eq_some_iff] at hsome
      obtain ⟨m₂, happly, heq⟩ := hsome
      obtain ⟨-, -, rfl⟩ := by simpa only [Prod.mk.injEq] using heq
      cases hrel : data.relocated base (m.kernelView K) m₁.view with
      | ok μ =>
          obtain ⟨m₃, happly', hpokes, -⟩ := applyRelocations_view hload.ledger hκ hrel
          obtain rfl := Option.some.inj (happly.symm.trans happly')
          obtain ⟨X, hgrow⟩ := hload.grows
          exact ⟨fun f hf ↦ (hpokes.kernel hload.ledger hf).trans (hload.kernel f hf),
            fun D hD i hi ↦ ((hpokes.grows hload.ledger).entry D hD i hi).trans (hgrow.entry D hD i hi)⟩
      | error e =>
          rw [applyRelocations_stops hload.ledger hκ hrel (hstops e hrel)] at happly
          cases happly
  · exact Or.inl (refuses_of_outOfMemory hbase hrun hoom)

/-! ### Images that leave -/

/-- Pages that are recorded in user space only. -/
theorem pagesStay_of_trace (h : m.Ledger B L K) (hs : m.Spared L K) (hi : ℕ) {l : List ℕ}
    (hmod : ∀ v ∈ l, v % 4096 = 0)
    (hmap : ∀ v, .map v ∈ foldTrace loadPage loadPageTrace ⟨m, hi, false⟩ l →
      2 ^ 22 ≤ v ∧ v + PAGE_SIZE ≤ 3 * 2 ^ 30) : m.PagesStay l := by
  induction l generalizing m with
  | nil =>
      intro front v rest heq
      simp at heq
  | cons v l ih =>
      obtain ⟨F, hF, halloc⟩ | ⟨hnone, -⟩ := pmmAllocFrame_cases h.lastAlloc
      · have hone := grants_singleton ⟨F, hF⟩ v
        have hF0 : F * PAGE_SIZE ≠ 0 := Nat.mul_ne_zero (Ledger.free_ne hF hs.used) (by decide)
        rw [foldTrace, loadPageTrace, if_neg (by simp [halloc, hF0])] at hmap
        have hv : UserPage v := userPage_of_range (hmod v (by simp)) (hmap v (by simp))
        obtain ⟨-, -, -, m₁, hstep, hload, -, hcharges⟩ | ⟨hnone, -⟩ := loadPage_view h hs hv
        · rw [hstep] at hmap
          have hrest := ih hload.ledger hload.spared (fun v hv ↦ hmod v (by simp [hv])) fun w hw ↦
            hmap w (List.mem_append_right _ hw)
          refine (hcharges.pagesStay_iff (fun front w rest heq _ ↦ ?_)).mpr hrest
          cases front with
          | nil =>
              obtain ⟨rfl, -⟩ := List.cons.inj heq
              exact hv
          | cons a front => simp at heq
        · rw [hnone] at hF
          exact absurd hF (Finset.notMem_empty F)
      · intro front w rest _ hroom
        rw [hnone, Finset.card_empty] at hroom
        exact absurd hroom (Nat.not_lt_zero _)

theorem copyTrace_cases (ha : a ∈ copyTrace m data dst off n) :
    (∃ k < n, a = .data ((off + k) % 2 ^ 32)) ∨ ∃ x, a = .write x := by
  induction n generalizing m dst off with
  | zero => exact absurd ha List.not_mem_nil
  | succ n ih =>
      rw [copyTrace, List.mem_cons, List.mem_cons] at ha
      obtain rfl | rfl | ha := ha
      · exact Or.inl ⟨0, by omega, rfl⟩
      · exact Or.inr ⟨_, rfl⟩
      · split at ha
        · exact absurd ha List.not_mem_nil
        · obtain ⟨k, hk, rfl⟩ | hwrite := ih ha
          · exact Or.inl ⟨k + 1, by omega, by rw [Nat.add_assoc, Nat.add_comm 1]⟩
          · exact Or.inr hwrite

theorem map_not_mem_copyTrace : .map v ∉ copyTrace m data dst off n := fun hv ↦ by
  obtain ⟨_, -, hv⟩ | ⟨_, hv⟩ := copyTrace_cases hv
  · exact nomatch hv
  · exact nomatch hv

/-- A copy reaches the first byte that is not in memory, and faults there if it
is an address of user space. -/
theorem copyTrace_reaches (h : m.Ledger B L K) (data : Image) (off : ℕ)
    (hdef : Defined m.view dst k) (hk : k < n) :
    .write ((dst + k) % 2 ^ 32) ∈ copyTrace m data dst off n ∧
      (UserAddr (dst + k) → m.view (dst + k) = none → m.memcpyFrom dst data off n = none) := by
  induction k generalizing m dst off n with
  | zero =>
      obtain ⟨n, rfl⟩ := Nat.exists_eq_succ_of_ne_zero (by omega : n ≠ 0)
      rw [copyTrace, Nat.add_zero]
      refine ⟨by simp, fun huser hnone ↦ ?_⟩
      rw [view, if_pos huser, load8, Option.map_eq_none_iff, Nat.add_zero] at hnone
      rw [memcpyFrom, store8, hnone]
      rfl
  | succ k ih =>
      obtain ⟨n, rfl⟩ := Nat.exists_eq_succ_of_ne_zero (by omega : n ≠ 0)
      obtain ⟨hva, hrest⟩ := hdef.succ
      obtain ⟨m₁, hstore, hpokes, hview⟩ := store8_view h hva (data (off % 2 ^ 32))
      obtain ⟨hmem, hnone⟩ := ih (hpokes.ledger h) (off + 1) (by rw [hview]; exact hrest.update)
        (show k < n by omega)
      rw [Nat.add_assoc, Nat.add_comm 1] at hmem hnone
      rw [copyTrace, memcpyFrom, hstore]
      refine ⟨List.mem_cons_of_mem _ (List.mem_cons_of_mem _ hmem), fun huser hnone' ↦ ?_⟩
      rw [Option.bind_eq_bind, Option.bind_some]
      refine hnone huser ?_
      rw [hview, Function.update_of_ne (by omega), hnone']

/-- The record of a segment begins with that of its pages. -/
theorem loadSegmentTrace_load (hload : data.pType i = PT_LOAD) :
    loadSegmentTrace data base ⟨m, high, false⟩ i = dataBytes (data.phdr i) 4 ++
      (dataBytes (data.phdr i + 8) 4 ++ dataBytes (data.phdr i + 20) 4 ++
        foldTrace loadPage loadPageTrace ⟨m, max high (data.segEnd base i), false⟩
          (data.segPages base i) ++
        match (data.segPages base i).foldlM loadPage ⟨m, max high (data.segEnd base i), false⟩ with
        | none => []
        | some s =>
            if s.outOfMemory then []
            else dataBytes (data.phdr i + 4) 4 ++ dataBytes (data.phdr i + 16) 4 ++
              copyTrace s.machine data ((base + data.pVaddr i) % 2 ^ 32) (data.pOffset i)
                (data.pFilesz i)) := by
  rw [Image.segPages, if_pos hload]
  exact (if_neg Bool.false_ne_true).trans (congrArg _ (if_neg (by simp [hload])))

/-- A header that leaves is seen in the record, if it is reached. -/
theorem segmentsStay_succ (h : m.Ledger B L K) (hs : m.Spared L K) (hempty : m.view = fun _ ↦ none)
    (hbase : data.headerBase size = some base) (hn : n < data.ePhnum)
    (hprev : m.SegmentsStay data base n) (hstays : StaysInUserSpace (elfTrace m data size)) :
    m.SegmentsStay data base (n + 1) := by
  obtain ⟨hall, m₁, hrun, hloads, hview, hcharges⟩ | ⟨hout, -⟩ := loadSegments_view h hs hprev
  swap
  · exact hprev.succ_of_not_grants hout
  obtain ⟨rest, hsplit⟩ := range_split hn
  set high := data.highest base n with hhigh
  set top := max high (data.segEnd base n) with htop
  have hrecord : headersTrace m data base = foldTrace (loadSegment data base)
      (loadSegmentTrace data base) ⟨m, 0, false⟩ (List.range n) ++
      foldTrace (loadSegment data base) (loadSegmentTrace data base) ⟨m₁, high, false⟩
        (n :: rest) := by
    rw [headersTrace, hsplit, foldTrace_append hrun]
  have hseg : ∀ a ∈ loadSegmentTrace data base ⟨m₁, high, false⟩ n, a ∈ elfTrace m data size := by
    intro a ha
    refine mem_elfTrace_of_headers hbase ?_
    rw [hrecord, List.mem_append, foldTrace, List.mem_append]
    exact Or.inr (Or.inl ha)
  -- the pages
  have hstay₁ : m₁.PagesStay (data.segPages base n) := by
    by_cases hload : data.pType n = PT_LOAD
    · refine pagesStay_of_trace hloads.ledger hloads.spared top
        (fun v hv ↦ (Image.mem_segPages.mp hv).2.2.2) fun v hv ↦ hstays.1 v (hseg _ ?_)
      rw [loadSegmentTrace_load hload]
      simp only [List.mem_append]
      exact Or.inr (Or.inl (Or.inr hv))
    · rw [Image.segPages, if_neg hload]
      intro front v rest heq
      simp at heq
  have hpages : m.PagesStay (data.pages base (n + 1)) := by
    rw [Image.pages_succ]
    exact (hcharges.pagesStay_iff hprev.pages).mpr hstay₁
  refine ⟨hpages, fun i hi hload hall' ↦ ?_⟩
  by_cases hin : i < n
  · exact hprev.copies i hin hload hall'
  obtain rfl : i = n := by omega
  -- the copy
  by_contra hcopy
  have hex : ∃ k, k < data.pFilesz i ∧
      ¬ data.Owned base (i + 1) ((base + data.pVaddr i) % 2 ^ 32 + k) := by
    simpa only [not_forall, exists_prop] using hcopy
  classical
  set k := Nat.find hex with hk
  obtain ⟨hksz, hkout⟩ := Nat.find_spec hex
  rw [← hk] at hksz hkout
  set dst := (base + data.pVaddr i) % 2 ^ 32 with hdst
  have hbefore : ∀ j < k, data.Owned base (i + 1) (dst + j) := fun j hj ↦ by
    by_contra hno
    exact Nat.find_min hex (hk ▸ hj) ⟨by omega, hno⟩
  have hrange : ∀ j < i + 1, ∀ v ∈ data.segPages base j, 2 ^ 22 ≤ v ∧ v + PAGE_SIZE ≤ 3 * 2 ^ 30 := by
    intro j hj v hv
    have hmem : v ∈ data.pages base (i + 1) :=
      List.mem_flatMap.mpr ⟨j, List.mem_range.mpr hj, hv⟩
    obtain ⟨front, tail, heq⟩ := List.append_of_mem hmem
    exact (hpages front v tail heq (hall' front v tail heq)).range
  have hlt : dst + k < 2 ^ 32 := by
    have hdstlt : dst < 2 ^ 32 := Nat.mod_lt _ (by norm_num)
    by_cases hk0 : k = 0
    · omega
    · have := ((hbefore (k - 1) (by omega)).userAddr hrange).2
      omega
  have hgrant₁ : m₁.Grants (data.segPages base i) := by
    rw [Image.pages_succ] at hall'
    exact (hcharges.grants_iff hall).mp hall'
  obtain ⟨-, m₂, (hload₂ : _ = some (ElfLoop.mk m₂ top false)), hloads₂, hview₂, -⟩ |
      ⟨hout, -⟩ := loadPages_view hloads.ledger hloads.spared hstay₁
  swap
  · exact hout hgrant₁
  have hcleared : m₂.view = fill (data.placed base (fun _ ↦ none) i) (data.segStart base i)
      (data.segEnd base i - data.segStart base i) fun _ ↦ 0 := by
    rw [hview₂, hview, hempty, Image.segPages, if_pos hload,
      zeroPages_pagesBetween _ (segStart_mod data base i) (segEnd_mod data base i)]
  obtain ⟨hreach, hfault⟩ := copyTrace_reaches hloads₂.ledger data
    (data.pOffset i) (fun j hj ↦ by
      rw [hcleared]
      exact Image.cleared_ne_none (hbefore j hj)) hksz
  rw [Nat.mod_eq_of_lt hlt] at hreach
  obtain ⟨v, hv, hle, hvlt⟩ := hstays.2 (dst + k) (hseg _ (by
    rw [loadSegmentTrace_load hload, hload₂]
    dsimp only
    rw [if_neg Bool.false_ne_true]
    simp only [List.mem_append]
    exact Or.inr (Or.inr (Or.inr hreach))))
  obtain ⟨h₁, h₂⟩ := hstays.1 v hv
  have hnone : m₂.view (dst + k) = none := by
    by_contra hsome
    rw [hcleared, fill] at hsome
    split at hsome
    · next hin => exact hkout ⟨i, by omega, hload, hin.1, by omega⟩
    · have hown := Image.owned_of_placed (fun i hi hload ↦ (hprev.confined hall i hi hload).2) hsome
      exact hkout (hown.mono (by omega))
  -- the store faults, so no later page is mapped there
  have hstep : loadSegment data base ⟨m₁, high, false⟩ i = none := by
    rw [Image.segPages, if_pos hload] at hload₂
    rw [loadSegment, if_neg (by simp [hload])]
    dsimp only
    rw [hload₂, Option.bind_eq_bind, Option.bind_some, if_neg Bool.false_ne_true,
      hfault ⟨by omega, by omega⟩ hnone]
    rfl
  have hstop : (List.range data.ePhnum).foldlM (loadSegment data base) ⟨m, 0, false⟩ = none := by
    rw [hsplit, List.foldlM_append, hrun, Option.bind_eq_bind, Option.bind_some,
      List.foldlM_cons, hstep]
    rfl
  obtain ⟨_, -, hv⟩ | hv | ⟨s, hs', -⟩ := mem_elfTrace hbase hv
  · cases hv
  · rw [hrecord, foldTrace_none hstep, loadSegments_trace h hs hprev hrun, List.mem_append,
      List.mem_flatMap] at hv
    obtain ⟨j, hj, hv⟩ | hv := hv
    · have hji := List.mem_range.mp hj
      exact hkout (Image.owned_iff.mpr ⟨j, by omega, v, Image.map_mem_headerEvents.mp hv, hle, hvlt⟩)
    · rw [loadSegmentTrace_load hload, hload₂,
        loadPages_trace hloads.ledger hloads.spared hstay₁ hload₂] at hv
      have hv' : v ∈ data.segPages base i := by
        simpa [mem_dataBytes, Image.pagesTrace, mem_writeBytes, map_not_mem_copyTrace] using hv
      exact hkout (Image.owned_iff.mpr ⟨i, by omega, v, hv', hle, hvlt⟩)
  · rw [hstop] at hs'
    cases hs'

theorem segmentsStay_of_stays (h : m.Ledger B L K) (hs : m.Spared L K)
    (hempty : m.view = fun _ ↦ none) (hbase : data.headerBase size = some base)
    (hstays : StaysInUserSpace (elfTrace m data size)) :
    ∀ n ≤ data.ePhnum, m.SegmentsStay data base n := by
  intro n
  induction n with
  | zero =>
      intro _
      exact ⟨fun front v rest heq ↦ by simp [Image.pages] at heq, fun i hi ↦ absurd hi (Nat.not_lt_zero i)⟩
  | succ n ih =>
      intro hn
      exact segmentsStay_succ h hs hempty hbase (by omega) (ih (by omega)) hstays

/-- What stays in user space stays inside. -/
theorem storesInside_of_stays (h : m.Ledger B L K) (hs : m.Spared L K)
    (hempty : m.view = fun _ ↦ none) (hbase : data.headerBase size = some base)
    (hstays : StaysInUserSpace (elfTrace m data size)) : m.StoresInside K data base := by
  have hsegments := segmentsStay_of_stays h hs hempty hbase hstays _ le_rfl
  refine ⟨hsegments, fun hall va hbad ↦ ?_⟩
  obtain ⟨-, m₁, hrun, hload, hview, -⟩ | ⟨hout, -⟩ := loadSegments_view h hs hsegments
  · have hconf := hsegments.confined hall
    rw [hempty, ← Image.loaded] at hview
    have hκ : Extends (m.kernelView K) (m₁.kernelView K) := by
      rw [hload.kernelView h]
      exact fun _ _ hb ↦ hb
    obtain ⟨x, hx, hnone⟩ := (dynamic_trace hload.ledger hκ).write ⟨va, by rw [hview]; exact hbad⟩
    have hcovered := hstays.2 x (mem_elfTrace_of_relocations hbase hrun rfl (Or.inr hx))
    rw [covered_iff h hs hbase hconf hrun, ← Image.loaded_ne_none_iff hconf, ← hview] at hcovered
    exact hcovered hnone
  · exact hout hall

/-- With two frames for each page an image with an entry point is not refused. -/
theorem not_refuses (h : m.Ledger B L K) (hs : m.Spared L K)
    (hbase : data.headerBase size = some base) (hentry : (base + data.eEntry) % 2 ^ 32 ≠ 0)
    (hroom : 2 * (data.pages base data.ePhnum).length ≤ m.free.card) : ¬ m.Refuses data size := by
  intro hrefuses
  obtain ⟨s, hrun, hoom⟩ := hrefuses.outOfMemory hbase hentry
  have := loadSegments_takes hrun rfl hs.used h.lastAlloc hroom
  rw [hoom] at this
  cases this

theorem Booting.spared {T : ℕ} (h : m.Booting B T) :
    m.Spared {B} {f | m.frameTest f = true ∧ f ≠ B ∧ f ≠ 0} where
  used := h.reset.zero
  loose _ := ⟨h.reset.zero, fun hK ↦ hK.2.2 rfl, fun _ ho ↦ h.reset.directory_ne_zero (h.holds ho).2.symm⟩

theorem Booting.view_eq {T : ℕ} (h : m.Booting B T) : m.view = fun _ ↦ none := by
  funext x
  by_cases hx : UserAddr x
  · obtain ⟨d, t, o, h₁, h₂, ht, ho, rfl⟩ := hx.exists_pageAddr
    rw [view_page h₁ h₂ ht ho, Option.map_eq_none_iff, h.dir_eq, leaf, if_pos (h.no_table h₁ h₂)]
  · exact view_eq_none hx

/-- A booted machine has an empty space loaded. -/
theorem booted_sample : ∃ heap m K,
    ((Sample.machine 300).pagingInitialize (1 * PAGE_SIZE) (2 * PAGE_SIZE)).kheapInitialize
      KERNEL_HEAP_BASE KERNEL_HEAP_SIZE = some (heap, m) ∧ m.Ledger 1 {1} K ∧ m.Spared {1} K ∧
      m.view = (fun _ ↦ none) ∧ 40 ≤ m.free.card := by
  have hfree : (Sample.machine 300).free.card = 300 := by
    rw [← pmmFreeFrameCount_eq]
    decide +kernel
  obtain ⟨heap, m, X, hboot, hcalls, hX, hcard⟩ :=
    reset_sample.kheapInitialize_exists (by rw [hfree]; norm_num) (by decide)
  have hbooting := reset_sample.kheapInitialize hboot hcalls
  refine ⟨heap, m, _, hboot, hbooting.ledger, hbooting.spared, hbooting.view_eq, ?_⟩
  have := Finset.le_card_sdiff X (Sample.machine 300).free
  rw [hX]
  omega

theorem program_confined : Sample.program.Confined 0 := by
  have hphnum : Sample.program.ePhnum = 1 := rfl
  intro i hi _
  obtain rfl : i = 0 := by omega
  have hstart : Sample.program.segStart 0 0 = 0x400000 := rfl
  have hend : Sample.program.segEnd 0 0 = 0x401000 := rfl
  have hsize : Sample.program.pFilesz 0 = 4 := rfl
  have hdst : (0 + Sample.program.pVaddr 0) % 2 ^ 32 = 0x400000 := rfl
  rw [hstart, hend, hsize, hdst]
  refine ⟨fun _ ↦ by norm_num, fun k hk ↦ ⟨0, by norm_num, by rfl, ?_, ?_⟩⟩
  · rw [hstart]
    omega
  · rw [hend]
    omega

theorem program_relocated (κ μ : Bytes) : Sample.program.relocated 0 κ μ = .ok μ := by
  have hnone : dynamicHeader Sample.program = none := rfl
  rw [Image.relocated, hnone]

/-- `elf_load` answers 0, or reads inside the file and its own pages. -/
def ReadsInputOnly (m : Machine) (data : Image) (size : ℕ) : Prop :=
  m.Refuses data size ∨ ReadsItsInput size (elfTrace m data size)

theorem size_of_headerBase (hbase : data.headerBase size = some base) : EHDR_SIZE ≤ size := by
  by_contra hlt
  rw [Image.headerBase, if_pos (by omega)] at hbase
  exact nomatch hbase

/-- The file is read as the headers say, whatever becomes of the pages. -/
theorem loadSegmentTrace_cases {s : ElfLoop} (ha : a ∈ loadSegmentTrace data base s i) :
    (∃ off, a = .data off ∧ a ∈ data.headerEvents base i) ∨ (∃ x, a = .write x) ∨ ∃ v, a = .map v := by
  have hbytes : ∀ {off}, a ∈ dataBytes off 4 → ∃ off, a = .data off := fun hk ↦ by
    obtain ⟨k, -, rfl⟩ := mem_dataBytes.mp hk
    exact ⟨_, rfl⟩
  rw [loadSegmentTrace] at ha
  rw [Image.headerEvents]
  split at ha
  · exact absurd ha List.not_mem_nil
  rw [List.mem_append] at ha
  obtain ha | ha := ha
  · obtain ⟨off, rfl⟩ := hbytes ha
    exact Or.inl ⟨off, rfl, List.mem_append_left _ ha⟩
  split at ha
  · exact absurd ha List.not_mem_nil
  next hload =>
  rw [if_neg hload]
  simp only [List.mem_append] at ha ⊢
  obtain ((ha | ha) | ha) | ha := ha
  · obtain ⟨off, rfl⟩ := hbytes ha
    exact Or.inl ⟨off, rfl, by tauto⟩
  · obtain ⟨off, rfl⟩ := hbytes ha
    exact Or.inl ⟨off, rfl, by tauto⟩
  · refine Or.inr ?_
    obtain ⟨-, -, hpage⟩ := foldTrace_forall
      (P := fun _ a ↦ (∃ x, a = .write x) ∨ ∃ v, a = .map v) (fun s v a ha ↦ by
        rw [loadPageTrace] at ha
        split at ha
        · exact absurd ha List.not_mem_nil
        · obtain rfl | ha := List.mem_cons.mp ha
          · exact Or.inr ⟨v, rfl⟩
          · obtain ⟨k, -, rfl⟩ := mem_writeBytes.mp ha
            exact Or.inl ⟨_, rfl⟩) a ha
    exact hpage
  · split at ha
    · exact absurd ha List.not_mem_nil
    split at ha
    · exact absurd ha List.not_mem_nil
    rw [List.mem_append, List.mem_append] at ha
    obtain (ha | ha) | ha := ha
    · obtain ⟨off, rfl⟩ := hbytes ha
      exact Or.inl ⟨off, rfl, by tauto⟩
    · obtain ⟨off, rfl⟩ := hbytes ha
      exact Or.inl ⟨off, rfl, by tauto⟩
    · obtain ⟨k, hk, rfl⟩ | hwrite := copyTrace_cases ha
      · refine Or.inl ⟨_, rfl, ?_⟩
        have : Access.data ((data.pOffset i + k) % 2 ^ 32) ∈ Image.copyEvents
            ((base + data.pVaddr i) % 2 ^ 32) (data.pOffset i) (data.pFilesz i) := by
          simp only [Image.copyEvents, List.mem_flatMap, List.mem_range]
          exact ⟨k, hk, by simp⟩
        tauto
      · exact Or.inr (Or.inl hwrite)

theorem headersTrace_cases (ha : a ∈ headersTrace m data base) :
    ∃ i < data.ePhnum, (∃ off, a = .data off ∧ a ∈ data.headerEvents base i) ∨
      (∃ x, a = .write x) ∨ ∃ v, a = .map v := by
  obtain ⟨i, hi, hcases⟩ := foldTrace_forall
    (P := fun i a ↦ (∃ off, a = .data off ∧ a ∈ data.headerEvents base i) ∨
      (∃ x, a = .write x) ∨ ∃ v, a = .map v) (fun _ _ _ ha ↦ loadSegmentTrace_cases ha) a ha
  exact ⟨i, List.mem_range.mp hi, hcases⟩

/-- No store reaches memory outside of the image: the segments stay in user space,
and the first patch of another word faults. -/
structure StoresContained (m : Machine) (data : Image) (base : ℕ) : Prop where
  segments : m.SegmentsStay data base data.ePhnum
  patches : m.Grants (data.pages base data.ePhnum) →
    ∀ va, data.relocated base (fun _ ↦ none) (data.loaded base) = .error (.write va) →
      m.Faults (data.loaded base) va

/-- The pass over an image whose stores are contained ends where the description
says. -/
theorem StoresContained.stops (hstores : m.StoresContained data base) (h : m.Ledger B L K)
    (hall : m.Grants (data.pages base data.ePhnum)) (hload : Loads B L K m m₁)
    (hview : m₁.view = data.loaded base) (htables : data.TablesInside base) {e : Fault}
    (he : data.relocated base (fun _ ↦ none) m₁.view = .error e) : m₁.Stops m₁.view e := by
  rw [hview] at he ⊢
  refine hload.stops h ?_
  cases e with
  | read va => exact absurd he (htables va)
  | write va => exact hstores.patches hall va he
  | endless => exact trivial

/-- What the headers name is in the file, and tables in the image. -/
theorem readsItsInput_of_inside (h : m.Ledger B L K) (hs : m.Spared L K)
    (hempty : m.view = fun _ ↦ none) (hbase : data.headerBase size = some base)
    (hstores : m.StoresContained data base) (hall : m.Grants (data.pages base data.ePhnum))
    (hfile : data.InsideFile size) (htables : data.TablesInside base) :
    ReadsItsInput size (elfTrace m data size) := by
  have hsize := size_of_headerBase hbase
  obtain ⟨hheaders, hsearch⟩ := (Image.insideFile_iff base).mp hfile
  refine ⟨fun off hoff ↦ ?_, fun x hx ↦ ?_⟩
  · obtain ⟨off', hlt, heq⟩ | hoff | ⟨s, -, -, hoff | hoff⟩ := mem_elfTrace hbase hoff
    · obtain rfl := Access.data.inj heq
      omega
    · obtain ⟨i, hi, ⟨_, heq, hoff⟩ | ⟨_, hoff⟩ | ⟨_, hoff⟩⟩ := headersTrace_cases hoff
      · exact hheaders i hi off hoff
      · cases hoff
      · cases hoff
    · exact hsearch off hoff
    · obtain ⟨_, hoff | hoff⟩ := word_of_dynamicTrace hoff
      · cases hoff
      · cases hoff
  · obtain ⟨_, -, hx⟩ | hx | ⟨s, hrun, hoom, hx | hx⟩ := mem_elfTrace hbase hx
    · cases hx
    · obtain ⟨i, -, ⟨_, hx, -⟩ | ⟨_, hx⟩ | ⟨_, hx⟩⟩ := headersTrace_cases hx
      · cases hx
      · cases hx
      · cases hx
    · obtain ⟨_, hx⟩ := Image.eq_data_of_mem_dynamicHeaderTrace hx
      cases hx
    · obtain ⟨-, m₁, hrun₁, hload, hview, -⟩ | ⟨hout, -⟩ := loadSegments_view h hs hstores.segments
      · have hconf := hstores.segments.confined hall
        obtain rfl := Option.some.inj (hrun₁.symm.trans hrun)
        rw [hempty, ← Image.loaded] at hview
        have := (dynamic_trace hload.ledger (extends_none _)).reads
          (fun e he ↦ hstores.stops h hall hload hview htables he)
          (by rw [hview]; exact htables) x hx
        rw [beside_none, hview] at this
        exact (covered_iff h hs hbase hconf hrun₁).mpr ((Image.loaded_ne_none_iff hconf).mp this)
      · exact absurd hall hout

end Machine

end EclipseOS
