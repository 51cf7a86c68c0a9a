import EclipseOS.ImageMemory
import EclipseOS.Mapping

/-!
# Loading an image

While there are frames, `elf_load` does to the user part of the loaded space
what the image describes.
-/

namespace EclipseOS

open LittleEndian

namespace Machine

variable {m m' m₁ : Machine} {B D d t i n base hi v : ℕ} {L K : Set ℕ} {X Y : Finset ℕ}
variable {data : Image} {μ : Bytes}

/-! ## Pages -/

/-- A page-aligned address of user space. -/
def UserPage (v : ℕ) : Prop := ∃ d t, 1 ≤ d ∧ d < 768 ∧ t < 1024 ∧ v = pageAddr d t

theorem userPage_of_mem {start stop : ℕ} (hstart : start % 4096 = 0) (hstop : stop % 4096 = 0)
    (hrange : start < stop → 2 ^ 22 ≤ start ∧ stop ≤ 3 * 2 ^ 30) (hv : v ∈ pagesBetween start stop) :
    UserPage v := by
  simp only [pagesBetween, List.mem_map, List.mem_range] at hv
  obtain ⟨j, hj, rfl⟩ := hv
  obtain ⟨h₁, h₂⟩ := hrange (by omega)
  refine ⟨(start + 4096 * j) / 2 ^ 22, (start + 4096 * j) / 2 ^ 12 % 1024, by omega, by omega,
    by omega, ?_⟩
  simp only [pageAddr]
  omega

/-- Directory entries of a list of pages. -/
def dirsOf (l : List ℕ) : Finset ℕ := (l.map fun v ↦ v >>> 22).toFinset

/-- Frames it takes to map the pages of `l`: one each, and one for every table
that is not there. -/
def need (m : Machine) (l : List ℕ) : ℕ := l.length + (m.missing (dirsOf l)).card

/-- The pages of `l` read zero. -/
def zeroPages (μ : Bytes) (l : List ℕ) : Bytes :=
  l.foldl (fun μ v ↦ fill μ v PAGE_SIZE fun _ ↦ 0) μ

theorem zeroPages_append (μ : Bytes) (l l' : List ℕ) :
    zeroPages μ (l ++ l') = zeroPages (zeroPages μ l) l' := by
  rw [zeroPages, List.foldl_append]
  rfl

theorem zeroPages_pagesBetween (μ : Bytes) {start stop : ℕ} (hle : start % 4096 = 0)
    (hstop : stop % 4096 = 0) :
    zeroPages μ (pagesBetween start stop) = fill μ start (stop - start) fun _ ↦ 0 := by
  have hrange : ∀ n, zeroPages μ ((List.range n).map fun i ↦ start + 0x1000 * i) =
      fill μ start (4096 * n) fun _ ↦ 0 := by
    intro n
    induction n with
    | zero => exact (fill_zero _ _ _).symm
    | succ n ih =>
        rw [List.range_succ, List.map_append, zeroPages_append, ih]
        funext x
        simp only [zeroPages, List.map_cons, List.map_nil, List.foldl_cons, List.foldl_nil, fill,
          PAGE_SIZE]
        by_cases h₁ : start + 0x1000 * n ≤ x ∧ x < start + 0x1000 * n + 4096
        · rw [if_pos h₁, if_pos (by omega)]
        · by_cases h₂ : start ≤ x ∧ x < start + 4096 * n
          · rw [if_neg h₁, if_pos h₂, if_pos (by omega)]
          · rw [if_neg h₁, if_neg h₂, if_neg (by omega)]
  rw [pagesBetween, hrange]
  congr 1
  omega

theorem need_cons (m : Machine) (v : ℕ) (l : List ℕ) :
    m.need (v :: l) = 1 + l.length + (m.missing (insert (v >>> 22) (dirsOf l))).card := by
  rw [need, List.length_cons, Nat.add_comm l.length, dirsOf, List.map_cons, List.toFinset_cons]
  rfl

/-- What is needed after the first page. -/
theorem need_step (hdir : m'.dir = m.dir)
    (hpde : ∀ i, m'.pde m.dir i % 2 = 0 ↔ i ≠ v >>> 22 ∧ m.pde m.dir i % 2 = 0) (l : List ℕ) :
    m'.need l + 1 + (if m.pde m.dir (v >>> 22) % 2 = 0 then 1 else 0) = m.need (v :: l) := by
  have hset : m'.missing (dirsOf l) = (m.missing (insert (v >>> 22) (dirsOf l))).erase (v >>> 22) := by
    ext i
    simp only [missing, Finset.mem_filter, Finset.mem_erase, Finset.mem_insert, hdir, hpde]
    tauto
  rw [need_cons, need, hset]
  by_cases hp : m.pde m.dir (v >>> 22) % 2 = 0
  · have hmem : v >>> 22 ∈ m.missing (insert (v >>> 22) (dirsOf l)) := by
      simp [missing, hp]
    have := Finset.card_erase_add_one hmem
    rw [if_pos hp]
    omega
  · have hmem : v >>> 22 ∉ m.missing (insert (v >>> 22) (dirsOf l)) := by
      simp [missing, hp]
    rw [if_neg hp, Finset.erase_eq_of_notMem hmem]
    omega

theorem need_nil (m : Machine) : m.need [] = 0 := by simp [need, dirsOf, missing]

theorem need_append_le (m : Machine) (l l' : List ℕ) : m.need l + l'.length ≤ m.need (l ++ l') := by
  have hsub : m.missing (dirsOf l) ⊆ m.missing (dirsOf (l ++ l')) := by
    intro i hi
    rw [missing, Finset.mem_filter] at hi ⊢
    refine ⟨?_, hi.2⟩
    rw [dirsOf, List.map_append, List.toFinset_append, Finset.mem_union]
    exact Or.inl hi.1
  have := Finset.card_le_card hsub
  rw [need, need, List.length_append]
  omega

/-- A page takes two frames at most. -/
theorem need_le (m : Machine) (l : List ℕ) : m.need l ≤ 2 * l.length := by
  have h₁ : (m.missing (dirsOf l)).card ≤ (dirsOf l).card := Finset.card_filter_le _ _
  have h₂ : (dirsOf l).card ≤ l.length := by
    have := List.toFinset_card_le (l.map fun v ↦ v >>> 22)
    rwa [List.length_map] at this
  rw [need]
  omega

/-- A place in a list of two parts. -/
theorem split_append {α : Type} {l l' front rest : List α} {v : α}
    (h : l ++ l' = front ++ v :: rest) :
    (∃ front', front = l ++ front' ∧ l' = front' ++ v :: rest) ∨
      ∃ rest', l = front ++ v :: rest' := by
  obtain ⟨front', hfront, hl'⟩ | ⟨tail, hl, htail⟩ := List.append_eq_append_iff.mp h
  · exact Or.inl ⟨front', hfront, hl'⟩
  · cases tail with
    | nil => exact Or.inl ⟨[], by rw [hl, List.append_nil, List.append_nil], htail.symm⟩
    | cons w tail =>
        obtain ⟨rfl, -⟩ := List.cons.inj htail
        exact Or.inr ⟨tail, hl⟩

/-- Every page of `l` gets a frame: one is left when the pages before it, and their
tables, have theirs. -/
def Grants (m : Machine) (l : List ℕ) : Prop :=
  ∀ front v rest, l = front ++ v :: rest → m.need front < m.free.card

/-- The pages of `l` that get a frame are in user space. -/
def PagesStay (m : Machine) (l : List ℕ) : Prop :=
  ∀ front v rest, l = front ++ v :: rest → m.need front < m.free.card → UserPage v

theorem grants_nil (m : Machine) : m.Grants [] := fun front v rest h ↦ by simp at h

theorem Grants.front {l l' : List ℕ} (h : m.Grants (l ++ l')) : m.Grants l := by
  rintro front v rest rfl
  exact h front v (rest ++ l') (by simp)

theorem PagesStay.front {l l' : List ℕ} (h : m.PagesStay (l ++ l')) : m.PagesStay l := by
  rintro front v rest rfl
  exact h front v (rest ++ l') (by simp)

/-- Behind a page without a frame there is none for any page. -/
theorem PagesStay.append_of_not_grants {l : List ℕ} (h : m.PagesStay l) (hout : ¬ m.Grants l)
    (l' : List ℕ) : m.PagesStay (l ++ l') := by
  intro front v rest heq hroom
  obtain ⟨front', rfl, -⟩ | ⟨rest', hl⟩ := split_append heq
  · refine absurd (fun front w rest hl ↦ ?_) hout
    have h₁ := m.need_append_le front (w :: rest)
    have h₂ := m.need_append_le l front'
    rw [List.length_cons, ← hl] at h₁
    omega
  · exact h front v rest' hl hroom

/-- Enough frames for all of them are enough. -/
theorem grants_of_need {l : List ℕ} (h : m.need l ≤ m.free.card) : m.Grants l := by
  rintro front v rest rfl
  have := m.need_append_le front (v :: rest)
  rw [List.length_cons] at this
  omega

/-- The machine has given the frames that the pages of `l` take. -/
structure Charges (m m' : Machine) (l : List ℕ) : Prop where
  need : ∀ rest, m'.need rest + m.need l = m.need (l ++ rest)
  card : m'.free.card = m.free.card - m.need l

namespace Charges

variable {l l' : List ℕ} {m'' : Machine}

theorem refl (m : Machine) : Charges m m [] where
  need rest := by rw [need_nil, List.nil_append, Nat.add_zero]
  card := by rw [need_nil, Nat.sub_zero]

theorem trans (h : Charges m m' l) (h' : Charges m' m'' l') : Charges m m'' (l ++ l') where
  need rest := by
    have h₁ := h.need l'
    have h₂ := h.need (l' ++ rest)
    have h₃ := h'.need rest
    rw [← List.append_assoc] at h₂
    omega
  card := by
    have h₁ := h.need l'
    rw [h'.card, h.card]
    omega

/-- A frame is left after the same pages. -/
theorem room_iff (h : Charges m m' l) {front : List ℕ} :
    m'.need front < m'.free.card ↔ m.need (l ++ front) < m.free.card := by
  have := h.need front
  rw [h.card]
  omega

/-- The rest gets its frames if all do. -/
theorem grants_iff (h : Charges m m' l) (hl : m.Grants l) {rest : List ℕ} :
    m.Grants (l ++ rest) ↔ m'.Grants rest := by
  constructor
  · rintro hall front v rest' rfl
    exact h.room_iff.mpr (hall (l ++ front) v rest' (by simp))
  · intro hrest front v rest' heq
    obtain ⟨front', rfl, hback⟩ | ⟨rest'', hback⟩ := split_append heq
    · exact h.room_iff.mp (hrest front' v rest' hback)
    · exact hl front v rest'' hback

theorem pagesStay_iff (h : Charges m m' l) (hl : m.PagesStay l) {rest : List ℕ} :
    m.PagesStay (l ++ rest) ↔ m'.PagesStay rest := by
  constructor
  · rintro hall front v rest' rfl hroom
    exact hall (l ++ front) v rest' (by simp) (h.room_iff.mp hroom)
  · intro hrest front v rest' heq hroom
    obtain ⟨front', rfl, hback⟩ | ⟨rest'', hback⟩ := split_append heq
    · exact hrest front' v rest' hback (h.room_iff.mpr hroom)
    · exact hl front v rest'' hback hroom

end Charges

theorem grants_singleton (hfree : m.free.Nonempty) (v : ℕ) : m.Grants [v] := by
  intro front w rest heq
  obtain rfl : front = [] := by
    cases front with
    | nil => rfl
    | cons a front => simp at heq
  rw [need_nil]
  exact Finset.card_pos.mpr hfree

theorem not_grants_cons {v : ℕ} {l : List ℕ} (hnone : m.free = ∅) : ¬ m.Grants (v :: l) := by
  intro h
  have := h [] v l rfl
  rw [hnone, Finset.card_empty] at this
  exact absurd this (Nat.not_lt_zero _)

theorem Pokes.free (h : Pokes L m m') : m'.free = m.free := by
  ext f
  rw [mem_free, mem_free, h.totalFrames, h.frameTest]

theorem Pokes.need (h : Pokes L m m') (hled : m.Ledger B L K) (l : List ℕ) :
    m'.need l = m.need l := by
  have hpde : ∀ d, m'.pde m.dir d = m.pde m.dir d := fun d ↦ by
    rw [pde, (h.plain hled).1 _ hled.loaded, pde]
  simp only [Machine.need, missing, h.dir, hpde]

theorem Pokes.spared (h : Pokes L m m') (hled : m.Ledger B L K) (hs : m.Spared L K) :
    m'.Spared L K where
  used := by rw [h.frameTest, hs.used]
  loose hne := by
    rw [h.free] at hne
    exact (h.grows hled).loose (hs.loose hne) (Finset.notMem_empty 0)

theorem Pokes.charges (h : Pokes L m m') (hled : m.Ledger B L K) : Charges m m' [] where
  need rest := by rw [need_nil, List.nil_append, h.need hled, Nat.add_zero]
  card := by rw [need_nil, h.free, Nat.sub_zero]

theorem Pokes.kernel (h : Pokes L m m') (hled : m.Ledger B L K) {f : ℕ} (hf : f ∈ K) :
    m'.mem f = m.mem f :=
  h.mem f fun _ _ hheld ↦ (hled.used _ f hheld).2 hf

/-- What loading some pages does.  The frames of the kernel keep their contents. -/
structure Loads (B : ℕ) (L K : Set ℕ) (m m' : Machine) : Prop where
  ledger : m'.Ledger B L K
  spared : m'.Spared L K
  grows : ∃ X, Grows L m m' X
  kernel : ∀ f ∈ K, m'.mem f = m.mem f

namespace Loads

theorem refl (h : m.Ledger B L K) (hs : m.Spared L K) : Loads B L K m m :=
  ⟨h, hs, ⟨∅, Grows.refl L m⟩, fun _ _ ↦ rfl⟩

theorem trans {m'' : Machine} (h : Loads B L K m m') (h' : Loads B L K m' m'') :
    Loads B L K m m'' := by
  obtain ⟨X, hX⟩ := h.grows
  obtain ⟨Y, hY⟩ := h'.grows
  exact ⟨h'.ledger, h'.spared, ⟨X ∪ Y, hX.trans hY⟩,
    fun f hf ↦ (h'.kernel f hf).trans (h.kernel f hf)⟩

theorem pokes (h : m.Ledger B L K) (hs : m.Spared L K) (hpokes : Pokes L m m') :
    Loads B L K m m' :=
  ⟨hpokes.ledger h, hpokes.spared h hs, ⟨∅, hpokes.grows h⟩, fun _ ↦ hpokes.kernel h⟩

theorem dir (h : Loads B L K m m') : m'.dir = m.dir := by
  obtain ⟨X, hX⟩ := h.grows
  exact hX.dir

end Loads

/-- A page is mapped to a frame from the allocator. -/
theorem Ledger.allocMap (h : m.Ledger B L K) (hs : m.Spared L K) (hF : F ∈ m.free)
    (hv : UserPage v) {flags : ℕ} (hfl : flags < 4096) :
    ∃ m', (m.withAlloc F).pagingMap v (F * PAGE_SIZE) flags = some m' ∧ Loads B L K m m' ∧
      m'.view = fill m.view v PAGE_SIZE (m.mem F) ∧ Charges m m' [v] := by
  obtain ⟨d, t, h₁, h₂, ht, rfl⟩ := hv
  have hva := pageAddr_index (d := d) ht
  have hloose := hs.loose ⟨F, hF⟩
  have hF0 : F ≠ 0 := Ledger.free_ne hF hs.used
  obtain ⟨hled, hP⟩ := h.alloc hF
  have hgrow := Grows.alloc L m F
  obtain ⟨m', X, hrun, hled', hgrow', hX, hs', hview, hpde, hcard⟩ := hled.mapUser
    (hgrow.loose hloose (by simp [hF0.symm])) h₁ h₂ ht hva hP hF0 (Ledger.free_lt hF) hfl
  have hkernel : ∀ f ∈ K, m'.mem f = m.mem f := fun f hf ↦
    hgrow'.mem f (fun hfX ↦ hX f hfX hf) fun o _ hheld ↦ (hled.used o f hheld).2 hf
  refine ⟨m', hrun, ⟨hled', hs', ⟨_, hgrow.trans hgrow'⟩, hkernel⟩, hview, ?_⟩
  have hneed := need_step (m := m) (v := pageAddr d t) hgrow'.dir (by rw [hva.1]; exact hpde)
  have hone : (m.withAlloc F).free.card + 1 = m.free.card := by
    rw [withAlloc_free]
    exact Finset.card_erase_add_one hF
  have hpage : m.need [pageAddr d t] = 1 + if m.pde m.dir d % 2 = 0 then 1 else 0 := by
    have := hneed []
    rw [need_nil, hva.1] at this
    omega
  rw [withAlloc_dir, withAlloc_pde] at hcard
  refine ⟨fun rest ↦ ?_, ?_⟩
  · have := hneed rest
    rw [hva.1] at this
    rw [hpage, List.singleton_append]
    omega
  · rw [hcard, hpage]
    omega

/-- One page: it is mapped and cleared, or there was no frame. -/
theorem loadPage_view (h : m.Ledger B L K) (hs : m.Spared L K) (hv : UserPage v) :
    (∃ F ∈ m.free, m.pmmAllocFrame = (F * PAGE_SIZE, m.withAlloc F) ∧
      ∃ m', loadPage ⟨m, hi, false⟩ v = some ⟨m', hi, false⟩ ∧ Loads B L K m m' ∧
        m'.view = fill m.view v PAGE_SIZE (fun _ ↦ 0) ∧ Charges m m' [v]) ∨
    (m.free = ∅ ∧ m.pmmAllocFrame = (0, m.log (.alloc 0)) ∧
      loadPage ⟨m, hi, false⟩ v = some ⟨m.log (.alloc 0), hi, true⟩) := by
  obtain ⟨F, hF, halloc⟩ | ⟨hnone, halloc⟩ := pmmAllocFrame_cases h.lastAlloc
  · obtain ⟨m₁, hmap, hload, hview, hcharges⟩ := h.allocMap hs hF hv
      (show PAGE_USER ||| PAGE_WRITE < 4096 by decide)
    have hF0 : F * PAGE_SIZE ≠ 0 := Nat.mul_ne_zero (Ledger.free_ne hF hs.used) (by decide)
    obtain ⟨m₂, hset, hpokes, hview₂⟩ := memset_view hload.ledger (n := PAGE_SIZE)
      (fun k hk ↦ by rw [hview, fill_apply_add hk]; exact Option.some_ne_none _) 0
    refine Or.inl ⟨F, hF, halloc, m₂, ?_, hload.trans (Loads.pokes hload.ledger hload.spared hpokes),
      ?_, hcharges.trans (hpokes.charges hload.ledger)⟩
    · simp [loadPage, halloc, hF0, hmap, hset]
    · rw [hview₂, hview]
      funext x
      simp only [fill]
      split <;> rfl
  · refine Or.inr ⟨hnone, halloc, ?_⟩
    simp [loadPage, halloc]

/-- Nothing happens once memory ran out. -/
theorem loadPages_outOfMemory (m : Machine) (hi : ℕ) (l : List ℕ) :
    l.foldlM loadPage ⟨m, hi, true⟩ = some ⟨m, hi, true⟩ := by
  induction l with
  | nil => rfl
  | cons v l ih =>
      rw [List.foldlM_cons, loadPage, if_pos rfl]
      exact ih

/-- The loop over the pages of a segment, of which those that get a frame are in
user space. -/
theorem loadPages_view (h : m.Ledger B L K) (hs : m.Spared L K) {l : List ℕ} (hl : m.PagesStay l) :
    (m.Grants l ∧ ∃ m', l.foldlM loadPage ⟨m, hi, false⟩ = some ⟨m', hi, false⟩ ∧ Loads B L K m m' ∧
      m'.view = zeroPages m.view l ∧ Charges m m' l) ∨
    (¬ m.Grants l ∧ ∃ m', l.foldlM loadPage ⟨m, hi, false⟩ = some ⟨m', hi, true⟩) := by
  induction l generalizing m with
  | nil => exact Or.inl ⟨m.grants_nil, m, rfl, Loads.refl h hs, rfl, .refl m⟩
  | cons v l ih =>
      obtain ⟨F, hF, halloc⟩ | ⟨hnone, halloc⟩ := pmmAllocFrame_cases h.lastAlloc
      · have hone := grants_singleton ⟨F, hF⟩ v
        have hv : UserPage v := hl [] v l rfl (hone [] v [] rfl)
        obtain ⟨-, -, -, m₁, hstep, hload, hview, hcharges⟩ | ⟨hnone, -⟩ := loadPage_view h hs hv
        · have hgrants : m.Grants ([v] ++ l) ↔ m₁.Grants l := hcharges.grants_iff hone
          have hl' := (hcharges.pagesStay_iff (PagesStay.front (l := [v]) hl)).mp hl
          obtain ⟨hall, m₂, hrun, hload', hview', hcharges'⟩ | ⟨hout, m₂, hrun⟩ :=
            ih hload.ledger hload.spared hl'
          · refine Or.inl ⟨hgrants.mpr hall, m₂, ?_, hload.trans hload', ?_, hcharges.trans hcharges'⟩
            · rw [List.foldlM_cons, hstep, Option.bind_eq_bind, Option.bind_some, hrun]
            · rw [hview', hview, zeroPages, zeroPages, List.foldl_cons]
          · refine Or.inr ⟨fun hall ↦ hout (hgrants.mp hall), m₂, ?_⟩
            rw [List.foldlM_cons, hstep, Option.bind_eq_bind, Option.bind_some, hrun]
        · rw [hnone] at hF
          exact absurd hF (Finset.notMem_empty F)
      · refine Or.inr ⟨not_grants_cons hnone, m.log (.alloc 0), ?_⟩
        have hstep : loadPage ⟨m, hi, false⟩ v = some ⟨m.log (.alloc 0), hi, true⟩ := by
          simp [loadPage, halloc]
        rw [List.foldlM_cons, hstep]
        exact loadPages_outOfMemory _ _ _

/-! ## Segments -/

theorem segStart_mod (data : Image) (base i : ℕ) : data.segStart base i % 4096 = 0 := by
  rw [Image.segStart, PAGE_MASK, and_page_mask (Nat.mod_lt _ (by norm_num)), Nat.mul_mod_left]

theorem segEnd_mod (data : Image) (base i : ℕ) : data.segEnd base i % 4096 = 0 := by
  rw [Image.segEnd, PAGE_MASK, and_page_mask (Nat.mod_lt _ (by norm_num)), Nat.mul_mod_left]

end Machine

namespace Image

variable {data : Image} {base i v : ℕ}

theorem mem_segPages : v ∈ data.segPages base i ↔
    data.pType i = PT_LOAD ∧ data.segStart base i ≤ v ∧ v < data.segEnd base i ∧ v % 4096 = 0 := by
  have hstart := Machine.segStart_mod data base i
  have hstop := Machine.segEnd_mod data base i
  rw [segPages]
  split
  · next hload =>
      simp only [pagesBetween, List.mem_map, List.mem_range, hload, true_and]
      constructor
      · rintro ⟨j, hj, rfl⟩
        omega
      · rintro ⟨h₁, h₂, h₃⟩
        exact ⟨(v - data.segStart base i) / 4096, by omega, by omega⟩
  · next hload => simp [hload]

end Image

namespace Machine

variable {m m' m₁ : Machine} {B D d t i n base hi v : ℕ} {L K : Set ℕ} {X Y : Finset ℕ}
variable {data : Image} {μ : Bytes}

/-- What the first `n` headers map and copy is in user space, as far as there are
frames. -/
structure SegmentsStay (m : Machine) (data : Image) (base n : ℕ) : Prop where
  pages : m.PagesStay (data.pages base n)
  copies : ∀ i < n, data.pType i = PT_LOAD → m.Grants (data.pages base (i + 1)) →
    ∀ k < data.pFilesz i, data.Owned base (i + 1) ((base + data.pVaddr i) % 2 ^ 32 + k)

theorem userPage_of_range (hv : v % 4096 = 0) (h : 2 ^ 22 ≤ v ∧ v + PAGE_SIZE ≤ 3 * 2 ^ 30) :
    UserPage v := by
  rw [PAGE_SIZE] at h
  refine ⟨v / 2 ^ 22, v / 2 ^ 12 % 1024, by omega, by omega, by omega, ?_⟩
  simp only [pageAddr]
  omega

theorem UserPage.range (h : UserPage v) : 2 ^ 22 ≤ v ∧ v + PAGE_SIZE ≤ 3 * 2 ^ 30 := by
  obtain ⟨d, t, h₁, h₂, ht, rfl⟩ := h
  simp only [pageAddr, PAGE_SIZE]
  omega

namespace SegmentsStay

theorem front {k : ℕ} (h : m.SegmentsStay data base n) (hk : k ≤ n) : m.SegmentsStay data base k where
  pages := by
    obtain ⟨rest, hrest⟩ := data.pages_le base hk
    have := h.pages
    rw [hrest] at this
    exact this.front
  copies i hi := h.copies i (by omega)

/-- Without frames for the first headers the next one does not matter. -/
theorem succ_of_not_grants (h : m.SegmentsStay data base n) (hout : ¬ m.Grants (data.pages base n)) :
    m.SegmentsStay data base (n + 1) where
  pages := by
    rw [Image.pages_succ]
    exact h.pages.append_of_not_grants hout _
  copies i hi hload hall := by
    obtain ⟨rest, hrest⟩ := data.pages_le base (show n ≤ n + 1 by omega)
    by_cases hin : i = n
    · rw [hin, hrest] at hall
      exact absurd hall.front hout
    · exact h.copies i (by omega) hload hall

end SegmentsStay

/-- One header. -/
theorem loadSegment_view (h : m.Ledger B L K) (hs : m.Spared L K)
    (hpages : m.PagesStay (data.segPages base i))
    (hcopy : data.pType i = PT_LOAD → m.Grants (data.segPages base i) →
      ∀ k < data.pFilesz i, data.Owned base (i + 1) ((base + data.pVaddr i) % 2 ^ 32 + k))
    {high : ℕ} (hview : m.view = data.placed base μ i) :
    (m.Grants (data.segPages base i) ∧
      ∃ m', loadSegment data base ⟨m, high, false⟩ i = some ⟨m', if data.pType i = PT_LOAD then
          max high (data.segEnd base i) else high, false⟩ ∧ Loads B L K m m' ∧
        m'.view = data.placed base μ (i + 1) ∧ Charges m m' (data.segPages base i)) ∨
    (¬ m.Grants (data.segPages base i) ∧
      ∃ m' high', loadSegment data base ⟨m, high, false⟩ i = some ⟨m', high', true⟩) := by
  rw [Image.placed_succ, ← hview, Image.place]
  rw [Image.segPages] at hpages hcopy ⊢
  by_cases hload : data.pType i = PT_LOAD
  · simp only [if_pos hload] at hpages hcopy ⊢
    obtain ⟨hall, m₁, hrun, hloads, hview₁, hcharges⟩ | ⟨hout, m₁, hrun⟩ := loadPages_view h hs hpages
    · rw [zeroPages_pagesBetween _ (segStart_mod data base i) (segEnd_mod data base i)] at hview₁
      obtain ⟨m₂, hcpy, hpokes, hview₂⟩ := memcpyFrom_view hloads.ledger
        (n := data.pFilesz i) (fun k hk ↦ by
          rw [hview₁, hview]
          exact Image.cleared_ne_none (hcopy hload hall k hk)) data (data.pOffset i)
      refine Or.inl ⟨hall, m₂, ?_, hloads.trans (Loads.pokes hloads.ledger hloads.spared hpokes), ?_, ?_⟩
      · rw [loadSegment, if_neg (by simp [hload])]
        dsimp only
        rw [hrun, Option.bind_eq_bind, Option.bind_some, if_neg Bool.false_ne_true, hcpy]
        rfl
      · rw [hview₂, hview₁]
      · have := hcharges.trans (hpokes.charges hloads.ledger)
        rwa [List.append_nil] at this
    · refine Or.inr ⟨hout, m₁, max high (data.segEnd base i), ?_⟩
      rw [loadSegment, if_neg (by simp [hload])]
      dsimp only
      rw [hrun, Option.bind_eq_bind, Option.bind_some, if_pos rfl]
      rfl
  · rw [if_neg hload]
    refine Or.inl ⟨m.grants_nil, m, ?_, Loads.refl h hs, ?_, .refl m⟩
    · simp [loadSegment, hload]
    · rw [if_neg hload]

/-- Once memory ran out the other headers are passed over. -/
theorem loadSegments_outOfMemory (data : Image) (base : ℕ) {s : ElfLoop} (hs : s.outOfMemory = true)
    (l : List ℕ) : l.foldlM (loadSegment data base) s = some s := by
  induction l with
  | nil => rfl
  | cons i l ih =>
      rw [List.foldlM_cons, loadSegment, if_pos (Or.inl hs)]
      exact ih

/-- The loop over the headers, after `n` of them. -/
theorem loadSegments_view (h : m.Ledger B L K) (hs : m.Spared L K)
    (hstay : m.SegmentsStay data base n) :
    (m.Grants (data.pages base n) ∧
      ∃ m', (List.range n).foldlM (loadSegment data base) ⟨m, 0, false⟩ =
          some ⟨m', data.highest base n, false⟩ ∧ Loads B L K m m' ∧
        m'.view = data.placed base m.view n ∧ Charges m m' (data.pages base n)) ∨
    (¬ m.Grants (data.pages base n) ∧
      ∃ s, (List.range n).foldlM (loadSegment data base) ⟨m, 0, false⟩ = some s ∧
        s.outOfMemory = true) := by
  induction n with
  | zero => exact Or.inl ⟨m.grants_nil, m, rfl, Loads.refl h hs, rfl, .refl m⟩
  | succ n ih =>
      have hpages := hstay.pages
      rw [Image.pages_succ] at hpages ⊢
      obtain ⟨hall, m₁, hrun, hload, hview, hcharges⟩ | ⟨hout, s, hrun, hoom⟩ :=
        ih (hstay.front n.le_succ)
      · have hgrants : m.Grants (data.pages base n ++ data.segPages base n) ↔
            m₁.Grants (data.segPages base n) := hcharges.grants_iff hall
        obtain ⟨hall', m₂, hstep, hload', hview', hcharges'⟩ | ⟨hout, m₂, high, hstep⟩ :=
          loadSegment_view hload.ledger hload.spared
            ((hcharges.pagesStay_iff hpages.front).mp hpages) (fun hload hall' ↦
              hstay.copies n n.lt_succ_self hload (by rw [Image.pages_succ]; exact hgrants.mpr hall'))
            hview
        · refine Or.inl ⟨hgrants.mpr hall', m₂, ?_, hload.trans hload', hview',
            hcharges.trans hcharges'⟩
          rw [List.range_succ, List.foldlM_append, hrun, Option.bind_eq_bind, Option.bind_some,
            List.foldlM_cons, hstep, Image.highest_succ]
          rfl
        · refine Or.inr ⟨fun hall ↦ hout (hgrants.mp hall), ⟨m₂, high, true⟩, ?_, rfl⟩
          rw [List.range_succ, List.foldlM_append, hrun, Option.bind_eq_bind, Option.bind_some,
            List.foldlM_cons, hstep]
          rfl
      · refine Or.inr ⟨fun hall ↦ hout hall.front, s, ?_, hoom⟩
        rw [List.range_succ, List.foldlM_append, hrun, Option.bind_eq_bind, Option.bind_some]
        exact loadSegments_outOfMemory data base hoom [n]

/-- With frames for all of them the headers are confined. -/
theorem SegmentsStay.confined (h : m.SegmentsStay data base n) (hall : m.Grants (data.pages base n)) :
    ∀ i < n, data.ConfinedAt base i := by
  intro i hi hload
  obtain ⟨rest, hrest⟩ := data.pages_le base (show i + 1 ≤ n from hi)
  have hrange : ∀ v ∈ data.segPages base i, 2 ^ 22 ≤ v ∧ v + PAGE_SIZE ≤ 3 * 2 ^ 30 := by
    intro v hv
    obtain ⟨front, tail, hsplit⟩ := List.append_of_mem hv
    have heq : data.pages base n = data.pages base i ++ front ++ v :: (tail ++ rest) := by
      rw [hrest, Image.pages_succ, hsplit]
      simp
    exact (h.pages _ v _ heq (hall _ v _ heq)).range
  refine ⟨fun hlt ↦ ?_, h.copies i hi hload (by rw [hrest] at hall; exact hall.front)⟩
  have hstart := segStart_mod data base i
  have hstop := segEnd_mod data base i
  have h₁ := hrange _ (Image.mem_segPages.mpr ⟨hload, le_rfl, hlt, hstart⟩)
  have h₂ := hrange (data.segEnd base i - 4096)
    (Image.mem_segPages.mpr ⟨hload, by omega, by omega, by omega⟩)
  rw [PAGE_SIZE] at h₂
  exact ⟨h₁.1, by omega⟩

theorem userPage_of_confined (hconf : data.Confined base) (hv : v ∈ data.pages base data.ePhnum) :
    UserPage v := by
  rw [Image.pages, List.mem_flatMap] at hv
  obtain ⟨i, hi, hv⟩ := hv
  obtain ⟨hload, h₁, h₂, h₃⟩ := Image.mem_segPages.mp hv
  obtain ⟨h₄, h₅⟩ := (hconf i (List.mem_range.mp hi) hload).1 (by omega)
  have hstop := segEnd_mod data base i
  exact userPage_of_range h₃ (by rw [PAGE_SIZE]; omega)

/-- A confined image stays, whatever frames there are. -/
theorem SegmentsStay.of_confined (hconf : data.Confined base) (m : Machine) :
    m.SegmentsStay data base data.ePhnum where
  pages front v rest heq _ := userPage_of_confined hconf (by rw [heq]; simp)
  copies i hi hload _ := (hconf i hi hload).2

end Machine

end EclipseOS
