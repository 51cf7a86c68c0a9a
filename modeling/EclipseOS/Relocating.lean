import EclipseOS.Loading

/-!
# Relocating an image

The relocation pass on the user part of the loaded space.  Entries and records
that are not in it may be in the memory of the kernel, which stays as it is.
-/

namespace EclipseOS

open LittleEndian

namespace Machine

variable {m m' m₁ : Machine} {B D d t i n base hi v x : ℕ} {L K : Set ℕ}
variable {data : Image} {κ μ : Bytes}

/-! ## Memory of the kernel -/

open Classical in
/-- The frames of the kernel as the kernel's entries of the loaded directory show
them. -/
noncomputable def kernelView (m : Machine) (K : Set ℕ) : Bytes := fun x ↦
  if KernelEntry (x >>> 22) then
    (m.translate x).bind fun p ↦ if p.1 ∈ K then some (m.mem p.1 p.2) else none
  else none

theorem load8_of_kernelView {x : ℕ} {b : UInt8} (h : m.kernelView K x = some b) :
    m.load8 x = some b := by
  rw [kernelView] at h
  split at h
  · rw [Option.bind_eq_some_iff] at h
    obtain ⟨p, hp, h⟩ := h
    split at h
    · rw [load8, hp]
      exact h
    · cases h
  · cases h

/-- The tables of the kernel are its frames. -/
theorem Ledger.translate_kernel (h : m.Ledger B L K) (hdir : m'.dir = m.dir)
    (hentry : ∀ i, KernelEntry i → m'.pde m.dir i = m.pde m.dir i)
    (hkernel : ∀ f ∈ K, m'.mem f = m.mem f) {x : ℕ} (hx : KernelEntry (x >>> 22)) :
    m'.translate x = m.translate x := by
  have hlt : x < 2 ^ 32 := by
    rw [Nat.shiftRight_eq_div_pow] at hx
    obtain hx | ⟨-, hx⟩ := hx
    · omega
    · omega
  obtain ⟨d, t, o, hd, ht, ho, rfl⟩ := exists_pageAddr hlt
  have hidx : (pageAddr d t + o) >>> 22 = d := by
    rw [Nat.shiftRight_eq_div_pow, pageAddr]
    omega
  rw [hidx] at hx
  rw [translate_page hd ht ho, translate_page hd ht ho, frameAt, frameAt, hdir]
  have hpde := hentry d hx
  by_cases hp : m.pde m.dir d % 2 = 0
  · rw [leaf, leaf, hpde, if_pos hp, if_pos hp]
  · have hB := h.shared _ h.loaded d hx
    rw [leaf_congr hpde]
    rw [hkernel]
    rw [hB]
    exact h.tables d hx (by rw [← hB]; omega)

theorem Ledger.kernelView_eq (h : m.Ledger B L K) (hdir : m'.dir = m.dir)
    (hentry : ∀ i, KernelEntry i → m'.pde m.dir i = m.pde m.dir i)
    (hkernel : ∀ f ∈ K, m'.mem f = m.mem f) : m'.kernelView K = m.kernelView K := by
  classical
  funext x
  rw [kernelView, kernelView]
  by_cases hx : KernelEntry (x >>> 22)
  · rw [if_pos hx, if_pos hx, h.translate_kernel hdir hentry hkernel hx]
    refine congrArg _ (funext fun p ↦ ?_)
    by_cases hp : p.1 ∈ K
    · rw [if_pos hp, if_pos hp, hkernel _ hp]
    · rw [if_neg hp, if_neg hp]
  · rw [if_neg hx, if_neg hx]

theorem Pokes.kernelView (h : Pokes L m m') (hled : m.Ledger B L K) :
    m'.kernelView K = m.kernelView K :=
  hled.kernelView_eq h.dir (fun i hi ↦ (h.grows hled).entry _ hled.loaded i (Or.inl hi))
    fun _ ↦ h.kernel hled

theorem Loads.kernelView (h : Loads B L K m m') (hled : m.Ledger B L K) :
    m'.kernelView K = m.kernelView K := by
  obtain ⟨X, hX⟩ := h.grows
  exact hled.kernelView_eq h.dir (fun i hi ↦ hX.entry _ hled.loaded i (Or.inl hi)) h.kernel

/-! ## Relocations -/

theorem extends_beside (hκ : Extends κ (m.kernelView K)) : Extends (beside m.view κ) m.load8 :=
  fun x b hb ↦ by
    rw [beside, Option.or_eq_some_iff] at hb
    obtain hb | ⟨-, hb⟩ := hb
    · exact m.view_extends x b hb
    · exact load8_of_kernelView (hκ x b hb)

/-- The user part of the space beside the memory of the kernel. -/
theorem Ledger.mirrors_kernel (h : m.Ledger B L K) (hκ : Extends κ (m.kernelView K)) :
    Mirrors (fun m' μ ↦ Pokes L m m' ∧ m'.view = μ) κ :=
  h.mirrors fun m' hpokes ↦ extends_beside (by rw [hpokes.kernelView h]; exact hκ)

theorem record_view {ν : Bytes} {a : ℕ} (h : m.Ledger B L K) (hκ : Extends κ (m.kernelView K))
    (hrecord : recordBytes κ m.view base a = .ok ν) :
    ∃ m', m.relocateRecord base a = some m' ∧ Pokes L m m' ∧ m'.view = ν :=
  (h.mirrors_kernel hκ).record ⟨Pokes.refl L m, rfl⟩ hrecord

theorem applyRelocations_view (h : m.Ledger B L K) (hκ : Extends κ (m.kernelView K))
    (hrun : data.relocated base κ m.view = .ok μ) :
    ∃ m', m.applyRelocations data base = some m' ∧ Pokes L m m' ∧ m'.view = μ :=
  (h.mirrors_kernel hκ).applyRelocations ⟨Pokes.refl L m, rfl⟩ hrun

/-! ## The loader -/

theorem elfLoad_relocates {size hi : ℕ} (hbase : data.headerBase size = some base)
    (hrun : (List.range data.ePhnum).foldlM (loadSegment data base) ⟨m, 0, false⟩ =
      some ⟨m₁, hi, false⟩) :
    m.elfLoad data size =
      (m₁.applyRelocations data base).map fun m' ↦ ((base + data.eEntry) % 2 ^ 32, hi, m') := by
  rw [elfLoad, hbase]
  dsimp only
  rw [hrun, Option.bind_eq_bind, Option.bind_some, if_neg Bool.false_ne_true, Option.bind_eq_bind,
    Option.map_eq_bind]
  rfl

/-- What `elf_load` does with a file whose segments and patches stay inside user
space.  It refuses it only when there are too few frames. -/
theorem elfLoad_view {size : ℕ} (h : m.Ledger B L K) (hs : m.Spared L K)
    (hbase : data.headerBase size = some base) (hstay : m.SegmentsStay data base data.ePhnum)
    (hκ : Extends κ (m.kernelView K))
    (hreloc : data.relocated base κ (data.placed base m.view data.ePhnum) = .ok μ) :
    (m.Grants (data.pages base data.ePhnum) ∧
      ∃ m', m.elfLoad data size =
          some ((base + data.eEntry) % 2 ^ 32, data.highest base data.ePhnum, m') ∧
        Loads B L K m m' ∧ m'.view = μ ∧ Charges m m' (data.pages base data.ePhnum)) ∨
    (¬ m.Grants (data.pages base data.ePhnum) ∧ ∃ m', m.elfLoad data size = some (0, 0, m')) := by
  obtain ⟨hall, m₁, hrun, hload, hview, hcharges⟩ | ⟨hout, s, hrun, hoom⟩ :=
    loadSegments_view h hs hstay
  · rw [← hview] at hreloc
    obtain ⟨m₂, happly, hpokes, hview₂⟩ := applyRelocations_view hload.ledger
      (by rw [hload.kernelView h]; exact hκ) hreloc
    refine Or.inl ⟨hall, m₂, ?_, hload.trans (Loads.pokes hload.ledger hload.spared hpokes), hview₂, ?_⟩
    · rw [elfLoad_relocates hbase hrun, happly, Option.map_some]
    · have := hcharges.trans (hpokes.charges hload.ledger)
      rwa [List.append_nil] at this
  · refine Or.inr ⟨hout, s.machine, ?_⟩
    rw [elfLoad, hbase]
    dsimp only
    rw [hrun, Option.bind_eq_bind, Option.bind_some, if_pos hoom]
    rfl

end Machine

end EclipseOS
