import Mathlib.Data.Finset.Card
import Mathlib.Data.Finset.Range
import EclipseOS.Window

/-!
# The frame allocator

The bitmap as a set of used frames: `pmm_alloc_frame` adds a frame that was not
in it, `pmm_free_frame` takes one out, and two bitmaps with the same frames are
equal.
-/

namespace EclipseOS

open LittleEndian

namespace Machine

variable (m : Machine)

/-! ## Bits -/

theorem and_bit_ne_zero (w : BitVec 32) {b : ℕ} (hb : b < 32) :
    (w &&& 1#32 <<< b != 0#32) = w.getLsbD b := by
  have hbit : ∀ i, i < 32 → (w &&& 1#32 <<< b).getLsbD i = (decide (i = b) && w.getLsbD i) := by
    intro i hi
    rw [BitVec.getLsbD_and, BitVec.getLsbD_shiftLeft, BitVec.getLsbD_one]
    by_cases h : i = b
    · subst h
      simp [hi]
    · by_cases hlt : i < b
      · simp [hlt, h]
      · have hne : i - b ≠ 0 := by omega
        simp [h, hne]
  cases hw : w.getLsbD b with
  | true =>
      have hset : (w &&& 1#32 <<< b).getLsbD b = true := by rw [hbit b hb]; simp [hw]
      rw [bne_iff_ne]
      intro h0
      rw [h0] at hset
      simp at hset
  | false =>
      have hzero : w &&& 1#32 <<< b = 0#32 := by
        refine BitVec.eq_of_getLsbD_eq fun i hi ↦ ?_
        rw [hbit i hi]
        by_cases h : i = b <;> simp [h, hw]
      simp [hzero]

theorem frameTest_eq (i : ℕ) : m.frameTest i = (m.frameBitmap (i / 32)).getLsbD (i % 32) :=
  and_bit_ne_zero _ (Nat.mod_lt _ (by norm_num))

theorem frameTest_frameSet (i j : ℕ) :
    (m.frameSet i).frameTest j = (decide (j = i) || m.frameTest j) := by
  rw [frameTest_eq, frameTest_eq]
  by_cases hw : j / 32 = i / 32
  · have hlt : j % 32 < 32 := Nat.mod_lt _ (by norm_num)
    simp only [frameSet, hw, Function.update_self, BitVec.getLsbD_or, BitVec.getLsbD_shiftLeft,
      BitVec.getLsbD_one]
    by_cases h : j = i
    · subst h
      simp [hlt]
    · have hne : j % 32 ≠ i % 32 := by omega
      by_cases hle : j % 32 < i % 32
      · simp [hle, h]
      · have hsub : j % 32 - i % 32 ≠ 0 := by omega
        simp [hsub, h]
  · have h : j ≠ i := fun h ↦ hw (by rw [h])
    simp [frameSet, hw, h]

theorem frameTest_frameClear (i j : ℕ) :
    (m.frameClear i).frameTest j = (decide (j ≠ i) && m.frameTest j) := by
  rw [frameTest_eq, frameTest_eq]
  by_cases hw : j / 32 = i / 32
  · have hlt : j % 32 < 32 := Nat.mod_lt _ (by norm_num)
    simp only [frameClear, hw, Function.update_self, BitVec.getLsbD_and, BitVec.getLsbD_not,
      BitVec.getLsbD_shiftLeft, BitVec.getLsbD_one]
    by_cases h : j = i
    · subst h
      simp [hlt]
    · have hne : j % 32 ≠ i % 32 := by omega
      by_cases hle : j % 32 < i % 32
      · simp [hle, h, hlt]
      · have hsub : j % 32 - i % 32 ≠ 0 := by omega
        simp [hsub, h, hlt]
  · have h : j ≠ i := fun h ↦ hw (by rw [h])
    simp [frameClear, hw, h]

/-! ## Free frames -/

/-- The frames the allocator can hand out. -/
def free : Finset ℕ := (Finset.range m.totalFrames).filter fun i ↦ m.frameTest i = false

@[simp] theorem mem_free {i : ℕ} : i ∈ m.free ↔ i < m.totalFrames ∧ m.frameTest i = false := by
  simp [free]

theorem pmmFreeFrameCount_eq : m.pmmFreeFrameCount = m.free.card := by
  have h : m.free = ((List.range m.totalFrames).filter fun i ↦ !m.frameTest i).toFinset := by
    ext i
    simp
  rw [h, List.toFinset_card_of_nodup (List.nodup_range.filter _), pmmFreeFrameCount]

/-! ## Allocation -/

variable {m} {m' : Machine} {lo hi i j a : ℕ}

theorem firstFree_spec (h : m.firstFree lo hi = some i) :
    lo ≤ i ∧ i < hi ∧ m.frameTest i = false := by
  have hmem := List.mem_of_find?_eq_some h
  have htest := List.find?_some h
  rw [List.mem_range'_1] at hmem
  exact ⟨hmem.1, by omega, by simpa using htest⟩

theorem firstFree_eq_none (h : m.firstFree lo hi = none) (hlo : lo ≤ i) (hhi : i < hi) :
    m.frameTest i = true := by
  rw [firstFree, List.find?_eq_none] at h
  simpa using h i (by rw [List.mem_range'_1]; omega)

/-- The machine after frame `i` was handed out. -/
def withAlloc (m : Machine) (i : ℕ) : Machine :=
  { m.frameSet i with lastAlloc := i }.log (.alloc (i * PAGE_SIZE))

section Updates

variable (m) (i j f : ℕ) (p : Page) (c : Call)

@[simp] theorem withAlloc_mem : (m.withAlloc i).mem = m.mem := rfl
@[simp] theorem withAlloc_cr3 : (m.withAlloc i).cr3 = m.cr3 := rfl
@[simp] theorem withAlloc_dir : (m.withAlloc i).dir = m.dir := rfl
@[simp] theorem withAlloc_pde (D d : ℕ) : (m.withAlloc i).pde D d = m.pde D d := rfl
@[simp] theorem withAlloc_totalFrames : (m.withAlloc i).totalFrames = m.totalFrames := rfl
@[simp] theorem withAlloc_lastAlloc : (m.withAlloc i).lastAlloc = i := rfl
@[simp] theorem withAlloc_calls : (m.withAlloc i).calls = .alloc (i * PAGE_SIZE) :: m.calls := rfl
@[simp] theorem withAlloc_frameTest :
    (m.withAlloc i).frameTest j = (decide (j = i) || m.frameTest j) := m.frameTest_frameSet i j
@[simp] theorem log_mem : (m.log c).mem = m.mem := rfl
@[simp] theorem log_cr3 : (m.log c).cr3 = m.cr3 := rfl
@[simp] theorem log_dir : (m.log c).dir = m.dir := rfl
@[simp] theorem log_pde (D d : ℕ) : (m.log c).pde D d = m.pde D d := rfl
@[simp] theorem log_totalFrames : (m.log c).totalFrames = m.totalFrames := rfl
@[simp] theorem log_lastAlloc : (m.log c).lastAlloc = m.lastAlloc := rfl
@[simp] theorem log_calls : (m.log c).calls = c :: m.calls := rfl
@[simp] theorem log_frameTest : (m.log c).frameTest i = m.frameTest i := rfl
@[simp] theorem log_free : (m.log c).free = m.free := rfl
@[simp] theorem setFrame_totalFrames : (m.setFrame f p).totalFrames = m.totalFrames := rfl
@[simp] theorem setFrame_lastAlloc : (m.setFrame f p).lastAlloc = m.lastAlloc := rfl
@[simp] theorem setFrame_calls : (m.setFrame f p).calls = m.calls := rfl
@[simp] theorem setFrame_frameTest : (m.setFrame f p).frameTest i = m.frameTest i := rfl
@[simp] theorem setFrame_free : (m.setFrame f p).free = m.free := rfl

@[simp] theorem withAlloc_free : (m.withAlloc i).free = m.free.erase i := by
  ext j
  by_cases h : j = i <;> simp [h]

theorem pmmFreeFrame_frameTest (addr : ℕ) : (m.pmmFreeFrame addr).frameTest j =
    (decide (j ≠ addr / PAGE_SIZE) && m.frameTest j) := by
  simp only [pmmFreeFrame]
  split <;> exact m.frameTest_frameClear _ j

@[simp] theorem pmmFreeFrame_mem (addr : ℕ) : (m.pmmFreeFrame addr).mem = m.mem := by
  simp only [pmmFreeFrame]
  split <;> rfl

@[simp] theorem pmmFreeFrame_cr3 (addr : ℕ) : (m.pmmFreeFrame addr).cr3 = m.cr3 := by
  simp only [pmmFreeFrame]
  split <;> rfl

@[simp] theorem pmmFreeFrame_dir (addr : ℕ) : (m.pmmFreeFrame addr).dir = m.dir := by
  simp [dir]

@[simp] theorem pmmFreeFrame_totalFrames (addr : ℕ) :
    (m.pmmFreeFrame addr).totalFrames = m.totalFrames := by
  simp only [pmmFreeFrame]
  split <;> rfl

@[simp] theorem pmmFreeFrame_calls (addr : ℕ) :
    (m.pmmFreeFrame addr).calls = .free addr :: m.calls := by
  simp only [pmmFreeFrame]
  split <;> rfl

theorem pmmFreeFrame_lastAlloc (addr : ℕ) :
    (m.pmmFreeFrame addr).lastAlloc = min m.lastAlloc (addr / PAGE_SIZE) := by
  simp only [pmmFreeFrame]
  split
  · next hlt => exact (Nat.min_eq_right (Nat.le_of_lt hlt)).symm
  · next hge => exact (Nat.min_eq_left (not_lt.mp hge)).symm

end Updates

/-- A free frame, or the answer 0 when there is none. -/
theorem pmmAllocFrame_cases (hlast : m.lastAlloc ≤ m.totalFrames) :
    (∃ i ∈ m.free, m.pmmAllocFrame = (i * PAGE_SIZE, m.withAlloc i)) ∨
      (m.free = ∅ ∧ m.pmmAllocFrame = (0, m.log (.alloc 0))) := by
  cases h : (m.firstFree m.lastAlloc m.totalFrames).or (m.firstFree 0 m.lastAlloc) with
  | some i =>
      refine Or.inl ⟨i, ?_, by rw [pmmAllocFrame, h]; rfl⟩
      rw [mem_free]
      rcases Option.or_eq_some_iff.mp h with h | ⟨-, h⟩ <;>
        obtain ⟨-, hlt, htest⟩ := firstFree_spec h
      · exact ⟨hlt, htest⟩
      · exact ⟨by omega, htest⟩
  | none =>
      refine Or.inr ⟨?_, by rw [pmmAllocFrame, h]⟩
      obtain ⟨h₁, h₂⟩ := Option.or_eq_none_iff.mp h
      refine Finset.eq_empty_of_forall_notMem fun i hi ↦ ?_
      rw [mem_free] at hi
      by_cases hle : m.lastAlloc ≤ i
      · exact absurd (firstFree_eq_none h₁ hle hi.1) (by simp [hi.2])
      · exact absurd (firstFree_eq_none h₂ (Nat.zero_le i) (by omega)) (by simp [hi.2])

/-! ## Loops that only allocate -/

/-- The frames of `X` were free and are handed out, and no allocation failed. -/
structure Allocs (m m' : Machine) (X : Finset ℕ) : Prop where
  sub : X ⊆ m.free
  test : ∀ j, m'.frameTest j = (decide (j ∈ X) || m.frameTest j)
  totalFrames : m'.totalFrames = m.totalFrames
  lastAlloc : m.lastAlloc ≤ m.totalFrames → m'.lastAlloc ≤ m.totalFrames
  calls : ∃ cs, m'.calls = cs ++ m.calls ∧ .alloc 0 ∉ cs

namespace Allocs

variable {m'' : Machine} {X Y : Finset ℕ}

theorem free (h : Allocs m m' X) : m'.free = m.free \ X := by
  ext j
  rw [mem_free, h.totalFrames, h.test, Finset.mem_sdiff, mem_free]
  by_cases hj : j ∈ X <;> simp [hj]

theorem card (h : Allocs m m' X) : m'.free.card + X.card = m.free.card := by
  rw [h.free, Finset.card_sdiff_add_card_eq_card h.sub]

/-- Steps that leave the allocator alone. -/
theorem same (htest : ∀ j, m'.frameTest j = m.frameTest j) (htotal : m'.totalFrames = m.totalFrames)
    (hlast : m'.lastAlloc = m.lastAlloc) (cs : List Call) (hcalls : m'.calls = cs ++ m.calls)
    (hcs : .alloc 0 ∉ cs) : Allocs m m' ∅ :=
  ⟨Finset.empty_subset _, by simpa using htest, htotal, by rw [hlast]; exact id, cs, hcalls, hcs⟩

theorem refl (m : Machine) : Allocs m m ∅ :=
  same (fun _ ↦ rfl) rfl rfl [] rfl (by simp)

theorem log (m : Machine) {c : Call} (hc : c ≠ .alloc 0) : Allocs m (m.log c) ∅ :=
  same (fun _ ↦ rfl) rfl rfl [c] rfl (by simpa using hc.symm)

theorem setFrame (m : Machine) (f : ℕ) (p : Page) : Allocs m (m.setFrame f p) ∅ :=
  same (fun _ ↦ rfl) rfl rfl [] rfl (by simp)

theorem alloc (h : i ∈ m.free) (hi : i ≠ 0) : Allocs m (m.withAlloc i) {i} where
  sub := by simpa using h
  test j := by simp
  totalFrames := rfl
  lastAlloc _ := (mem_free m).mp h |>.1.le
  calls := ⟨[.alloc (i * PAGE_SIZE)], rfl, by simpa [PAGE_SIZE] using hi⟩

theorem trans (h : Allocs m m' X) (h' : Allocs m' m'' Y) : Allocs m m'' (X ∪ Y) where
  sub := Finset.union_subset h.sub (h'.sub.trans (by rw [h.free]; exact Finset.sdiff_subset))
  test j := by
    rw [h'.test, h.test]
    by_cases hx : j ∈ X <;> by_cases hy : j ∈ Y <;> simp [hx, hy]
  totalFrames := h'.totalFrames.trans h.totalFrames
  lastAlloc hl := by
    have := h'.lastAlloc (by rw [h.totalFrames]; exact h.lastAlloc hl)
    rwa [h.totalFrames] at this
  calls := by
    obtain ⟨cs, hcs, hnot⟩ := h.calls
    obtain ⟨cs', hcs', hnot'⟩ := h'.calls
    exact ⟨cs' ++ cs, by rw [hcs', hcs, List.append_assoc], by simp [hnot, hnot']⟩

theorem disjoint (h : Allocs m m' X) (h' : Allocs m' m'' Y) : Disjoint X Y := by
  rw [Finset.disjoint_right]
  intro j hj
  have := h'.sub hj
  rw [h.free, Finset.mem_sdiff] at this
  exact this.2

theorem mem_iff (h : Allocs m m' X) {j : ℕ} (hj : m.frameTest j = true) : j ∉ X := fun hx ↦ by
  have := h.sub hx
  rw [mem_free, hj] at this
  exact nomatch this.2

end Allocs

end Machine

end EclipseOS
