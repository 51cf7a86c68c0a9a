import Mathlib.Data.List.Sort
import EclipseOS.FirstFit
import EclipseOS.Lib.Loops
import EclipseOS.Relocating

/-!
# Frames in order

The free frames from the lowest up are what `pmm_alloc_frame` hands out, one
after the other.  A part of the kernel that gives no frame back leaves a tail of
them.
-/

namespace EclipseOS

namespace Machine

variable {m m' m'' : Machine} {va d n dir : ℕ}

/-- The free frames, lowest first. -/
def idle (m : Machine) : List ℕ := (List.range m.totalFrames).filter fun i ↦ !m.frameTest i

theorem mem_idle {f : ℕ} : f ∈ m.idle ↔ f ∈ m.free := by simp [idle]

theorem idle_increasing (m : Machine) : m.idle.Pairwise (· < ·) :=
  List.pairwise_lt_range.filter _

theorem length_idle (m : Machine) : m.idle.length = m.free.card := pmmFreeFrameCount_eq m

/-- An increasing list is known by its members. -/
theorem idle_eq {l : List ℕ} (hl : l.Pairwise (· < ·)) (h : ∀ f, f ∈ l ↔ f ∈ m.free) :
    m.idle = l :=
  m.idle_increasing.eq_of_mem_iff hl fun f ↦ by rw [mem_idle, h]

theorem idle_congr (htotal : m'.totalFrames = m.totalFrames)
    (htest : ∀ f, m'.frameTest f = m.frameTest f) : m'.idle = m.idle := by
  rw [idle, idle, htotal]
  exact congrArg (fun p ↦ (List.range m.totalFrames).filter p) (funext fun f ↦ by rw [htest])

theorem Stores.idle (h : m.Stores m') : m'.idle = m.idle := by
  rw [h]
  rfl

namespace Packed

/-- The lowest free frame is handed out; 0 stands for none. -/
theorem pmmAllocFrame (h : m.Packed) : m.pmmAllocFrame.1 = m.idle.headD 0 * PAGE_SIZE ∧
    m.pmmAllocFrame.2.idle = m.idle.tail := by
  rcases h.alloc_cases.2 with ⟨i, ⟨⟨hlt, htest⟩, hleast⟩, -, heq⟩ | ⟨hnone, -, heq⟩
  · have hi : i ∈ m.idle := mem_idle.mpr ((mem_free m).mpr ⟨hlt, htest⟩)
    have hsorted := m.idle_increasing
    cases hlist : m.idle with
    | nil =>
        rw [hlist] at hi
        exact absurd hi List.not_mem_nil
    | cons f l =>
        rw [hlist] at hi hsorted
        obtain ⟨hf, hl⟩ := List.pairwise_cons.mp hsorted
        obtain rfl : i = f := by
          have hmem : f ∈ m.free := mem_idle.mp (hlist ▸ List.mem_cons_self)
          have hle := hleast ((mem_free m).mp hmem)
          obtain rfl | hmem := List.mem_cons.mp hi
          · rfl
          · have := hf i hmem
            omega
        rw [heq]
        refine ⟨rfl, idle_eq hl fun g ↦ ?_⟩
        rw [withAlloc_free, Finset.mem_erase, ← mem_idle, hlist, List.mem_cons]
        constructor
        · exact fun hg ↦ ⟨(hf g hg).ne', Or.inr hg⟩
        · rintro ⟨hne, hg⟩
          exact hg.resolve_left hne
  · have hnil : m.idle = [] :=
      List.length_eq_zero_iff.mp (by rw [length_idle, hnone, Finset.card_empty])
    rw [heq, hnil]
    exact ⟨by simp, hnil⟩

end Packed

/-! ## Frames are only taken -/

/-- Stores, entries of the record and frames from the allocator. -/
inductive Draws : Machine → Machine → Prop
  | log (m : Machine) (c : Call) : Draws m (m.log c)
  | alloc (m : Machine) : Draws m m.pmmAllocFrame.2
  | stores {m m' : Machine} (h : m.Stores m') : Draws m m'
  | trans {m m' m'' : Machine} (h : Draws m m') (h' : Draws m' m'') : Draws m m''

namespace Draws

theorem refl (m : Machine) : Draws m m := .stores (Stores.refl m)

theorem foldlM {σ ι : Type} {π : σ → Machine} {step : σ → ι → Option σ}
    (hstep : ∀ s i s', step s i = some s' → Draws (π s) (π s')) {l : List ι} {s s' : σ}
    (h : l.foldlM step s = some s') : Draws (π s) (π s') :=
  Loop.foldlM_rel refl Draws.trans hstep h

/-- A tail of the free frames is left. -/
theorem idle (h : Draws m m') (hm : m.Packed) :
    m'.Packed ∧ m'.totalFrames = m.totalFrames ∧ ∃ n, m'.idle = m.idle.drop n := by
  induction h with
  | log m c => exact ⟨⟨hm.lastAlloc, hm.below⟩, rfl, 0, rfl⟩
  | alloc m =>
      refine ⟨hm.alloc, (pmmAllocFrame_takes m).totalFrames, 1, ?_⟩
      rw [hm.pmmAllocFrame.2, List.drop_one]
  | stores h =>
      rw [h]
      exact ⟨⟨hm.lastAlloc, hm.below⟩, rfl, 0, rfl⟩
  | trans _ _ ih ih' =>
      obtain ⟨hm', htotal, n, hn⟩ := ih hm
      obtain ⟨hm'', htotal', k, hk⟩ := ih' hm'
      exact ⟨hm'', htotal'.trans htotal, n + k, by rw [hk, hn, List.drop_drop]⟩

/-- How many were taken tells which. -/
theorem idle_of_card (h : Draws m m') (hm : m.Packed) (hcard : m'.free.card = m.free.card - n) :
    m'.idle = m.idle.drop n := by
  obtain ⟨-, -, k, hk⟩ := h.idle hm
  have hlen := congrArg List.length hk
  rw [List.length_drop, length_idle, length_idle, hcard] at hlen
  by_cases hle : m.free.card ≤ n
  · have hdrop : ∀ i, m.free.card ≤ i → m.idle.drop i = [] := fun i hi ↦
      List.drop_eq_nil_of_le (by rw [length_idle]; exact hi)
    rw [hk, hdrop n hle, hdrop k (by omega)]
  · rw [hk, show k = n by omega]

end Draws

/-! ## Paging -/

theorem pagingEnsureTable_draws (h : m.pagingEnsureTable d = some m') : Draws m m' := by
  rw [pagingEnsureTable, Option.bind_eq_bind, Option.bind_eq_some_iff] at h
  obtain ⟨pde, -, h⟩ := h
  split at h
  · rw [Option.bind_eq_bind, Option.bind_eq_some_iff] at h
    obtain ⟨m₁, h₁, h₂⟩ := h
    exact ((Draws.alloc m).trans (.stores (store32_stores h₁))).trans (.stores (memset_stores h₂))
  · rw [Option.pure_def, Option.some.injEq] at h
    exact h ▸ .refl m

theorem pagingMap_draws {phys flags : ℕ} (h : m.pagingMap va phys flags = some m') : Draws m m' := by
  simp only [pagingMap, Option.bind_eq_bind, Option.bind_eq_some_iff] at h
  obtain ⟨m₁, h₁, pde, -, m₂, h₂, h₃⟩ := h
  exact (((Draws.log m _).trans (pagingEnsureTable_draws h₁)).trans
    (.stores (store32_stores h₂))).trans (.stores (store32_stores h₃))

/-- A table is made where there is none. -/
theorem pagingMap_idle (hm : m.Packed) (hrec : m.Recursive) {phys flags : ℕ}
    (hd : va >>> 22 < 1024) (h : m.pagingMap va phys flags = some m') :
    m'.idle = if m.pde m.dir (va >>> 22) % 2 = 1 then m.idle else m.idle.tail := by
  simp only [pagingMap, Option.bind_eq_bind, Option.bind_eq_some_iff] at h
  obtain ⟨m₁, h₁, pde, -, m₂, h₂, h₃⟩ := h
  rw [(store32_stores h₃).idle, (store32_stores h₂).idle]
  set c := Call.map va phys flags with hc
  have hlog : (m.log c).Packed := ⟨hm.lastAlloc, hm.below⟩
  have hrec' : (m.log c).Recursive := hrec.congr rfl rfl
  have hload := hrec'.load_pd hd
  rw [log_dir, log_pde] at hload
  rw [pagingEnsureTable, hload, Option.bind_eq_bind, Option.bind_some, PAGE_PRESENT,
    LittleEndian.and_one_eq] at h₁
  split at h₁
  · next hp =>
      rw [Option.bind_eq_bind, Option.bind_eq_some_iff] at h₁
      obtain ⟨m₃, h₄, h₅⟩ := h₁
      have htail : m₃.idle = (m.log c).idle.tail :=
        (store32_stores h₄).idle.trans hlog.pmmAllocFrame.2
      rw [if_neg (by omega), (memset_stores h₅).idle, htail]
      rfl
  · next hp =>
      rw [Option.pure_def, Option.some.injEq] at h₁
      rw [if_pos (by omega), ← h₁]
      rfl

theorem pagingUnmap_draws (h : m.pagingUnmap va = some m') : Draws m m' := by
  simp only [pagingUnmap, Option.bind_eq_bind, Option.bind_eq_some_iff] at h
  obtain ⟨pde, -, h⟩ := h
  split at h
  · rw [Option.pure_def, Option.some.injEq] at h
    exact h ▸ .log m _
  · exact (Draws.log m _).trans (.stores (store32_stores h))

theorem shareEntry_draws (h : m.shareEntry d = some m') : Draws m m' := by
  simp only [shareEntry, Option.bind_eq_bind, Option.bind_eq_some_iff] at h
  obtain ⟨pde, -, h⟩ := h
  exact .stores (store32_stores h)

theorem pagingNewDirectory_draws (h : m.pagingNewDirectory = some (dir, m')) : Draws m m' := by
  simp only [pagingNewDirectory, Option.bind_eq_bind, Option.bind_eq_some_iff, Option.pure_def,
    Option.some.injEq, Prod.mk.injEq] at h
  obtain ⟨m₁, h₁, m₂, h₂, m₃, h₃, m₄, h₄, m₅, h₅, -, rfl⟩ := h
  exact (((((Draws.alloc m).trans (pagingMap_draws h₁)).trans (.stores (memset_stores h₂))).trans
    (shareEntry_draws h₃)).trans (Draws.foldlM (π := id) (fun _ _ _ ↦ shareEntry_draws) h₄)).trans
    (.stores (store32_stores h₅))

/-! ## Loading an image -/

theorem loadPage_draws {s s' : ElfLoop} (h : loadPage s va = some s') :
    Draws s.machine s'.machine := by
  rw [loadPage] at h
  split at h
  · rw [Option.pure_def, Option.some.injEq] at h
    exact h ▸ .refl _
  · simp only at h
    split at h
    · rw [Option.pure_def, Option.some.injEq] at h
      exact h ▸ .alloc _
    · simp only [Option.bind_eq_bind, Option.bind_eq_some_iff, Option.pure_def,
        Option.some.injEq] at h
      obtain ⟨m₁, h₁, m₂, h₂, rfl⟩ := h
      exact ((Draws.alloc _).trans (pagingMap_draws h₁)).trans (.stores (memset_stores h₂))

theorem loadSegment_draws {data : Image} {base i : ℕ} {s s' : ElfLoop}
    (h : loadSegment data base s i = some s') : Draws s.machine s'.machine := by
  rw [loadSegment] at h
  split at h
  · rw [Option.pure_def, Option.some.injEq] at h
    exact h ▸ .refl _
  · simp only [Option.bind_eq_bind, Option.bind_eq_some_iff] at h
    obtain ⟨s₁, h₁, h⟩ := h
    have hpages := Draws.foldlM (π := ElfLoop.machine) (fun _ _ _ ↦ loadPage_draws) h₁
    split at h
    · rw [Option.pure_def, Option.some.injEq] at h
      exact h ▸ hpages
    · simp only [Option.bind_eq_some_iff, Option.pure_def, Option.some.injEq] at h
      obtain ⟨m₂, h₂, rfl⟩ := h
      exact hpages.trans (.stores (memcpyFrom_stores h₂))

theorem relocateRecord_stores {base : ℕ} (h : m.relocateRecord base va = some m') :
    m.Stores m' := by
  simp only [relocateRecord, Option.bind_eq_bind, Option.bind_eq_some_iff] at h
  obtain ⟨rInfo, -, h⟩ := h
  split at h
  · simp only [Option.bind_eq_some_iff] at h
    obtain ⟨rOffset, -, v, -, h⟩ := h
    exact store32_stores h
  · rw [Option.some.injEq] at h
    exact h ▸ Stores.refl m

theorem relocate_stores {base : ℕ} {info : DynInfo} {fuel off : ℕ}
    (h : m.relocate base info fuel off = some m') : m.Stores m' := by
  induction fuel generalizing m off with
  | zero => simp [relocate] at h
  | succ fuel ih =>
      rw [relocate_succ] at h
      split at h
      · obtain ⟨m₁, h₁, h₂⟩ := Option.bind_eq_some_iff.mp h
        exact (relocateRecord_stores h₁).trans (ih h₂)
      · rw [Option.some.injEq] at h
        exact h ▸ Stores.refl m

theorem applyRelocations_stores {data : Image} {base : ℕ}
    (h : m.applyRelocations data base = some m') : m.Stores m' := by
  rw [applyRelocations] at h
  split at h
  · rw [Option.some.injEq] at h
    exact h ▸ Stores.refl m
  · simp only at h
    split at h
    · rw [Option.some.injEq] at h
      exact h ▸ Stores.refl m
    · simp only [Option.bind_eq_bind, Option.bind_eq_some_iff] at h
      obtain ⟨info, -, h⟩ := h
      exact relocate_stores h

theorem elfLoad_draws {data : Image} {size entry brk : ℕ}
    (h : m.elfLoad data size = some (entry, brk, m')) : Draws m m' := by
  rw [elfLoad] at h
  split at h
  · simp only [Option.pure_def, Option.some.injEq, Prod.mk.injEq] at h
    obtain ⟨-, -, rfl⟩ := h
    exact .refl m
  · simp only [Option.bind_eq_bind, Option.bind_eq_some_iff] at h
    obtain ⟨s, hs, h⟩ := h
    have hsegments := Draws.foldlM (π := ElfLoop.machine) (fun _ _ _ ↦ loadSegment_draws) hs
    split at h
    · simp only [Option.pure_def, Option.some.injEq, Prod.mk.injEq] at h
      obtain ⟨-, -, rfl⟩ := h
      exact hsegments
    · simp only [Option.bind_eq_some_iff, Option.pure_def, Option.some.injEq, Prod.mk.injEq] at h
      obtain ⟨m₁, h₁, -, -, rfl⟩ := h
      exact hsegments.trans (.stores (applyRelocations_stores h₁))

end Machine

end EclipseOS
