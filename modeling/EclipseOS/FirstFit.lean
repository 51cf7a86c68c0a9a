import EclipseOS.Sample
import EclipseOS.Frames

/-!
# The hint of the frame allocator

`pmm_alloc_frame` starts its search at `last_alloc`.  Every frame below the hint
is in use, so the search finds the lowest free frame, and the loop that wraps
around never finds one.
-/

namespace EclipseOS

/-- Plain first fit: no hint, one search from the bottom. -/
structure FirstFit where
  total : ℕ
  used : ℕ → Bool

namespace FirstFit

variable (p : FirstFit)

def lowest : Option ℕ := (List.range p.total).find? fun i ↦ !p.used i

def alloc : ℕ × FirstFit :=
  match p.lowest with
  | some i => (i * PAGE_SIZE, { p with used := Function.update p.used i true })
  | none => (0, p)

def release (frame : ℕ) : FirstFit := { p with used := Function.update p.used frame false }

end FirstFit

namespace Machine

variable {m m' m₀ : Machine} {p : FirstFit} {held : Finset ℕ} {f g : ℕ}

/-- The allocator without its hint. -/
def firstFit (m : Machine) : FirstFit := ⟨m.totalFrames, m.frameTest⟩

/-- Calls of the allocator, beside the same calls of plain first fit.  `held` are
the frames handed out and not yet given back; only these are given back. -/
inductive FrameRun (m₀ : Machine) : Machine → FirstFit → Finset ℕ → Prop
  | start : FrameRun m₀ m₀ m₀.firstFit ∅
  | alloc {m : Machine} {p : FirstFit} {held : Finset ℕ} (h : FrameRun m₀ m p held) :
      FrameRun m₀ m.pmmAllocFrame.2 p.alloc.2 (if m.pmmAllocFrame.1 = 0 then held
        else insert (m.pmmAllocFrame.1 / PAGE_SIZE) held)
  | free {m : Machine} {p : FirstFit} {held : Finset ℕ} {f : ℕ} (h : FrameRun m₀ m p held)
      (hf : f ∈ held) :
      FrameRun m₀ (m.pmmFreeFrame (f * PAGE_SIZE)) (p.release f) (held.erase f)

/-- What the hint stands for. -/
structure Packed (m : Machine) : Prop where
  lastAlloc : m.lastAlloc ≤ m.totalFrames
  below : ∀ f < m.lastAlloc, m.frameTest f = true

namespace Packed

/-- The lowest free frame, found by the first loop, or no frame at all. -/
theorem alloc_cases (h : m.Packed) : m.firstFree 0 m.lastAlloc = none ∧
    ((∃ i, IsLeast {f | f < m.totalFrames ∧ m.frameTest f = false} i ∧
        m.firstFit.lowest = some i ∧ m.pmmAllocFrame = (i * PAGE_SIZE, m.withAlloc i)) ∨
      (m.free = ∅ ∧ m.firstFit.lowest = none ∧ m.pmmAllocFrame = (0, m.log (.alloc 0)))) := by
  have hwrap : m.firstFree 0 m.lastAlloc = none := by
    rw [firstFree, List.find?_eq_none]
    intro f hf
    rw [List.mem_range'_1] at hf
    simp [h.below f (by omega)]
  refine ⟨hwrap, ?_⟩
  have hsplit : m.firstFit.lowest = m.firstFree m.lastAlloc m.totalFrames := by
    have hrange : List.range m.totalFrames =
        List.range' 0 m.lastAlloc ++ List.range' m.lastAlloc (m.totalFrames - m.lastAlloc) := by
      have happend := List.range'_append_1 (s := 0) (m := m.lastAlloc)
        (n := m.totalFrames - m.lastAlloc)
      rw [Nat.zero_add, Nat.add_sub_cancel' h.lastAlloc] at happend
      rw [List.range_eq_range', happend]
    rw [firstFree, Nat.sub_zero] at hwrap
    rw [FirstFit.lowest, firstFree]
    change (List.range m.totalFrames).find? (fun i ↦ !m.frameTest i) = _
    rw [hrange, List.find?_append, hwrap, Option.none_or]
  rw [hsplit]
  cases hfirst : m.firstFree m.lastAlloc m.totalFrames with
  | some i =>
      obtain ⟨hle, hlt, htest⟩ := firstFree_spec hfirst
      refine Or.inl ⟨i, ⟨⟨hlt, htest⟩, fun f hf ↦ ?_⟩, rfl, by rw [pmmAllocFrame, hfirst]; rfl⟩
      by_contra hfi
      rw [not_le] at hfi
      have hused : m.frameTest f = true := by
        by_cases hbelow : f < m.lastAlloc
        · exact h.below f hbelow
        · rw [firstFree, List.find?_range'_eq_some] at hfirst
          simpa using hfirst.2.2 f (not_lt.mp hbelow) hfi
      cases hused.symm.trans hf.2
  | none =>
      refine Or.inr ⟨Finset.eq_empty_of_forall_notMem fun f hf ↦ ?_, rfl, by
        rw [pmmAllocFrame, hfirst, hwrap]; rfl⟩
      rw [mem_free] at hf
      have hused : m.frameTest f = true := by
        by_cases hbelow : f < m.lastAlloc
        · exact h.below f hbelow
        · exact firstFree_eq_none hfirst (not_lt.mp hbelow) hf.1
      rw [hused] at hf
      cases hf.2

theorem alloc (h : m.Packed) : m.pmmAllocFrame.2.Packed := by
  rcases h.alloc_cases.2 with ⟨i, ⟨⟨hlt, htest⟩, hleast⟩, -, heq⟩ | ⟨-, -, heq⟩
  · rw [heq]
    refine ⟨hlt.le, fun f hf ↦ ?_⟩
    rw [withAlloc_lastAlloc] at hf
    have hused : m.frameTest f = true := by
      by_contra hfree
      have hmin := hleast ⟨hf.trans hlt, Bool.eq_false_iff.mpr hfree⟩
      omega
    rw [withAlloc_frameTest, hused, Bool.or_true]
  · rw [heq]
    exact ⟨h.lastAlloc, h.below⟩

theorem free (h : m.Packed) (addr : ℕ) : (m.pmmFreeFrame addr).Packed := by
  constructor
  · rw [pmmFreeFrame_lastAlloc, pmmFreeFrame_totalFrames]
    exact (Nat.min_le_left _ _).trans h.lastAlloc
  · intro g hg
    rw [pmmFreeFrame_lastAlloc, lt_min_iff] at hg
    rw [pmmFreeFrame_frameTest, decide_eq_true hg.2.ne, Bool.true_and]
    exact h.below g hg.1

end Packed

/-- The hint, beside the frames handed out. -/
structure Hinted (m : Machine) (held : Finset ℕ) : Prop where
  packed : m.Packed
  zero : m.frameTest 0 = true
  held : ∀ f ∈ held, f < m.totalFrames ∧ m.frameTest f = true ∧ f ≠ 0

namespace Hinted

theorem alloc (h : m.Hinted held) : m.pmmAllocFrame.2.Hinted (if m.pmmAllocFrame.1 = 0 then held
    else insert (m.pmmAllocFrame.1 / PAGE_SIZE) held) := by
  have hpacked := h.packed.alloc
  rcases h.packed.alloc_cases.2 with ⟨i, ⟨⟨hlt, htest⟩, -⟩, -, heq⟩ | ⟨-, -, heq⟩
  · have hi0 : i ≠ 0 := fun hi ↦ by
      rw [hi, h.zero] at htest
      exact nomatch htest
    have haddr : i * PAGE_SIZE ≠ 0 := Nat.mul_ne_zero hi0 (by decide)
    rw [heq] at hpacked ⊢
    rw [if_neg haddr, Nat.mul_div_cancel i (by decide)]
    refine ⟨hpacked, ?_, fun f hf ↦ ?_⟩
    · rw [withAlloc_frameTest, h.zero, Bool.or_true]
    · rw [withAlloc_totalFrames, withAlloc_frameTest]
      rcases Finset.mem_insert.mp hf with rfl | hf
      · exact ⟨hlt, by simp, hi0⟩
      · obtain ⟨hft, hused, hf0⟩ := h.held f hf
        exact ⟨hft, by rw [hused, Bool.or_true], hf0⟩
  · rw [heq] at hpacked ⊢
    rw [if_pos rfl]
    exact ⟨hpacked, h.zero, h.held⟩

theorem free (h : m.Hinted held) (hf : f ∈ held) :
    (m.pmmFreeFrame (f * PAGE_SIZE)).Hinted (held.erase f) := by
  obtain ⟨hlt, -, hf0⟩ := h.held f hf
  have hdiv : f * PAGE_SIZE / PAGE_SIZE = f := Nat.mul_div_cancel f (by decide)
  have htest : ∀ g, g ≠ f → (m.pmmFreeFrame (f * PAGE_SIZE)).frameTest g = m.frameTest g := by
    intro g hg
    rw [pmmFreeFrame_frameTest, hdiv, decide_eq_true hg, Bool.true_and]
  refine ⟨h.packed.free _, ?_, fun g hg ↦ ?_⟩
  · rw [htest 0 hf0.symm]
    exact h.zero
  · obtain ⟨hgf, hg⟩ := Finset.mem_erase.mp hg
    rw [pmmFreeFrame_totalFrames, htest g hgf]
    exact h.held g hg

end Hinted

theorem FrameRun.hinted (h : FrameRun m₀ m p held) (h0 : m₀.frameTest 0 = true)
    (hlast : m₀.lastAlloc = 0) : m.Hinted held ∧ p = m.firstFit := by
  induction h with
  | start =>
      refine ⟨⟨⟨?_, fun f hf ↦ ?_⟩, h0, fun f hf ↦ absurd hf (Finset.notMem_empty f)⟩, rfl⟩
      · rw [hlast]
        exact Nat.zero_le _
      · rw [hlast] at hf
        exact absurd hf (Nat.not_lt_zero f)
  | @alloc m p held _ ih =>
      obtain ⟨hm, rfl⟩ := ih
      refine ⟨hm.alloc, ?_⟩
      rcases hm.packed.alloc_cases.2 with ⟨i, -, hlow, heq⟩ | ⟨-, hlow, heq⟩ <;>
        rw [FirstFit.alloc, hlow, heq]
      · have hbits : Function.update m.frameTest i true = (m.withAlloc i).frameTest := by
          funext g
          rw [withAlloc_frameTest]
          by_cases hg : g = i <;> simp [hg]
        exact congrArg (FirstFit.mk m.totalFrames) hbits
      · rfl
  | @free m p held f _ hf ih =>
      obtain ⟨hm, rfl⟩ := ih
      refine ⟨hm.free hf, ?_⟩
      have hbits : Function.update m.frameTest f false =
          (m.pmmFreeFrame (f * PAGE_SIZE)).frameTest := by
        funext g
        rw [pmmFreeFrame_frameTest, Nat.mul_div_cancel f (by decide)]
        by_cases hg : g = f <;> simp [hg]
      have htotal := m.pmmFreeFrame_totalFrames (f * PAGE_SIZE)
      exact congrArg₂ FirstFit.mk htotal.symm hbits

/-- The next allocation takes the lowest free frame and nothing else. -/
def AllocsLowest (m : Machine) (held : Finset ℕ) : Prop :=
  (m.pmmAllocFrame.1 = 0 ↔ m.pmmFreeFrameCount = 0) ∧
  (m.pmmAllocFrame.1 = 0 → ∀ g, m.pmmAllocFrame.2.frameTest g = m.frameTest g) ∧
  (m.pmmAllocFrame.1 ≠ 0 → ∃ i, m.pmmAllocFrame.1 = i * PAGE_SIZE ∧
    IsLeast {f | f < m.totalFrames ∧ m.frameTest f = false} i ∧ i ∉ held ∧
    m.pmmAllocFrame.2.pmmFreeFrameCount + 1 = m.pmmFreeFrameCount ∧
    ∀ g, m.pmmAllocFrame.2.frameTest g = (decide (g = i) || m.frameTest g))

/-- Giving back a frame that is held frees it and nothing else. -/
def FreesOne (m : Machine) (held : Finset ℕ) : Prop :=
  ∀ f ∈ held, (m.pmmFreeFrame (f * PAGE_SIZE)).pmmFreeFrameCount = m.pmmFreeFrameCount + 1 ∧
    ∀ g, (m.pmmFreeFrame (f * PAGE_SIZE)).frameTest g = (decide (g ≠ f) && m.frameTest g)

theorem Hinted.allocsLowest (h : m.Hinted held) : m.AllocsLowest held := by
  rw [AllocsLowest, pmmFreeFrameCount_eq, pmmFreeFrameCount_eq]
  rcases h.packed.alloc_cases.2 with ⟨i, hleast, -, heq⟩ | ⟨hnone, -, heq⟩
  · have hi : i ∈ m.free := (mem_free m).mpr hleast.1
    have hi0 : i ≠ 0 := fun h0 ↦ by
      have htest := hleast.1.2
      rw [h0, h.zero] at htest
      exact nomatch htest
    have haddr : i * PAGE_SIZE ≠ 0 := Nat.mul_ne_zero hi0 (by decide)
    have hcard := Finset.card_erase_add_one hi
    rw [heq]
    refine ⟨iff_of_false haddr (Finset.card_ne_zero_of_mem hi), fun h0 ↦ absurd h0 haddr,
      fun _ ↦ ⟨i, rfl, hleast, fun hheld ↦ ?_, by rw [withAlloc_free, hcard], fun g ↦ ?_⟩⟩
    · have htest := hleast.1.2
      rw [(h.held i hheld).2.1] at htest
      exact nomatch htest
    · rw [withAlloc_frameTest]
  · rw [heq, hnone]
    exact ⟨iff_of_true rfl Finset.card_empty, fun _ _ ↦ rfl, fun hne ↦ absurd rfl hne⟩

theorem Hinted.freesOne (h : m.Hinted held) : m.FreesOne held := by
  intro f hf
  obtain ⟨hlt, hused, -⟩ := h.held f hf
  have htest : ∀ g, (m.pmmFreeFrame (f * PAGE_SIZE)).frameTest g =
      (decide (g ≠ f) && m.frameTest g) := by
    intro g
    rw [pmmFreeFrame_frameTest, Nat.mul_div_cancel f (by decide)]
  have hfree : (m.pmmFreeFrame (f * PAGE_SIZE)).free = insert f m.free := by
    ext g
    rw [mem_free, pmmFreeFrame_totalFrames, htest, Finset.mem_insert, mem_free]
    by_cases hg : g = f
    · simp [hg, hlt]
    · simp [hg]
  refine ⟨?_, htest⟩
  rw [pmmFreeFrameCount_eq, pmmFreeFrameCount_eq, hfree, Finset.card_insert_of_notMem]
  rw [mem_free, hused]
  exact fun h ↦ nomatch h.2

/-- In every history of calls the allocator answers as plain first fit does. -/
theorem pmm_first_fit (h : FrameRun m₀ m p held) (h0 : m₀.frameTest 0 = true)
    (hlast : m₀.lastAlloc = 0) :
    p = m.firstFit ∧ m.pmmAllocFrame.1 = p.alloc.1 ∧ (∀ f < m.lastAlloc, m.frameTest f = true) ∧
      m.firstFree 0 m.lastAlloc = none ∧ m.AllocsLowest held ∧ m.FreesOne held := by
  obtain ⟨hm, rfl⟩ := h.hinted h0 hlast
  refine ⟨rfl, ?_, hm.packed.below, hm.packed.alloc_cases.1, hm.allocsLowest, hm.freesOne⟩
  rcases hm.packed.alloc_cases.2 with ⟨i, -, hlow, heq⟩ | ⟨-, hlow, heq⟩ <;>
    rw [FirstFit.alloc, hlow, heq]

/-- A frame is taken and given back. -/
theorem pmm_first_fit_sample :
    let m := (Sample.machine 4).pmmAllocFrame.2.pmmFreeFrame (1024 * PAGE_SIZE)
    ∃ p, p = m.firstFit ∧ m.pmmAllocFrame.1 = p.alloc.1 ∧ (∀ f < m.lastAlloc, m.frameTest f = true) ∧
      m.firstFree 0 m.lastAlloc = none ∧ m.AllocsLowest ∅ ∧ m.FreesOne ∅ := by
  have haddr : (Sample.machine 4).pmmAllocFrame.1 = 1024 * PAGE_SIZE := by decide +kernel
  have hstart : FrameRun (Sample.machine 4) _ _ _ := .start
  have halloc := hstart.alloc
  rw [haddr, if_neg (by decide), Nat.mul_div_cancel 1024 (by decide)] at halloc
  have hrun := FrameRun.free halloc (Finset.mem_insert_self 1024 ∅)
  rw [Finset.erase_insert (Finset.notMem_empty 1024)] at hrun
  exact ⟨_, pmm_first_fit hrun (by decide) rfl⟩

end Machine

end EclipseOS
