import Mathlib
import EclipseOS.KernelHalf

/-!
# Blocks of the kernel heap

`kmalloc` hands out the next bytes of the heap.  Its bound check adds two words
and forgets the carry, and `kmalloc_aligned` moves the pointer before it knows
whether the block fits.
-/

namespace EclipseOS

/-- A call of the heap with its 32-bit argument. -/
inductive HeapCall
  | kmalloc (size : BitVec 32)
  | kmallocAligned (size : BitVec 32)
  deriving DecidableEq

namespace HeapCall

def size : HeapCall → ℕ
  | kmalloc size => size.toNat
  | kmallocAligned size => size.toNat

def alignment : HeapCall → ℕ
  | kmalloc _ => 8
  | kmallocAligned _ => PAGE_SIZE

def run (h : Kheap) : HeapCall → ℕ × Kheap
  | kmalloc size => h.kmalloc size.toNat
  | kmallocAligned size => h.kmallocAligned size.toNat

/-- Where the block goes if there is room. -/
def start (h : Kheap) : HeapCall → ℕ
  | kmalloc _ => h.heapNext
  | kmallocAligned _ => (h.heapNext + 0xFFF) / 4096 * 4096

/-- The block ends below 4 GiB; a call that fails has nothing to align; and no
block but an empty one is at address 0. -/
def Fits (h : Kheap) (c : HeapCall) : Prop :=
  c.start h + c.size < 2 ^ 32 ∧ (h.heapEnd < c.start h + c.size → c.start h = h.heapNext) ∧
    (c.start h = 0 → c.size = 0 ∨ h.heapEnd < c.size)

/-- The answer is null and nothing has moved, or a block of the right alignment
inside the heap and apart from the blocks handed out before. -/
def Sound (h : Kheap) (blocks : List (ℕ × ℕ)) (c : HeapCall) : Prop :=
  ((c.run h).1 = 0 → (c.run h).2.heapNext = h.heapNext) ∧
  ((c.run h).1 ≠ 0 → (c.run h).1 % c.alignment = 0 ∧ h.heapStart ≤ (c.run h).1 ∧
    (c.run h).1 + c.size ≤ h.heapEnd ∧
    ∀ b ∈ blocks, Disjoint (Set.Ico b.1 (b.1 + b.2)) (Set.Ico (c.run h).1 ((c.run h).1 + c.size)))

/-- The blocks after a call, as address and size. -/
def blocks (h : Kheap) (blocks : List (ℕ × ℕ)) (c : HeapCall) : List (ℕ × ℕ) :=
  if (c.run h).1 = 0 then blocks else ((c.run h).1, c.size) :: blocks

end HeapCall

namespace Kheap

variable {h : Kheap} {blocks : List (ℕ × ℕ)} {c : HeapCall} {calls : List HeapCall}

def InBounds (h : Kheap) : Prop := h.heapStart ≤ h.heapNext ∧ h.heapNext ≤ h.heapEnd

/-- The pointer stays in the heap and every call of the sequence is sound. -/
def SoundRun : Kheap → List (ℕ × ℕ) → List HeapCall → Prop
  | h, _, [] => h.InBounds
  | h, blocks, c :: calls => h.InBounds ∧ c.Sound h blocks ∧
      SoundRun (c.run h).2 (c.blocks h blocks) calls

/-- Every call of the sequence fits, in the state it is made in. -/
def FitsRun : Kheap → List HeapCall → Prop
  | _, [] => True
  | h, c :: calls => c.Fits h ∧ FitsRun (c.run h).2 calls

/-- The blocks are below the pointer, which is a multiple of eight. -/
structure Stacked (h : Kheap) (blocks : List (ℕ × ℕ)) : Prop where
  bounds : h.InBounds
  next : h.heapNext % 8 = 0
  page : h.heapEnd % 4096 = 0
  stop : h.heapEnd < 2 ^ 32
  below : ∀ b ∈ blocks, b.1 + b.2 ≤ h.heapNext

/-- What a call does, by where its block would go. -/
theorem Stacked.run_cases (hs : h.Stacked blocks) (c : HeapCall) :
    h.heapNext ≤ c.start h ∧ c.start h ≤ h.heapEnd ∧ c.start h % c.alignment = 0 ∧
      c.start h % 8 = 0 ∧
      ((h.heapEnd < (c.start h + c.size) % 2 ^ 32 ∧
        c.run h = (0, { h with heapNext := c.start h })) ∨
      ((c.start h + c.size) % 2 ^ 32 ≤ h.heapEnd ∧
        c.run h = (c.start h, { h with heapNext :=
          (c.start h + (((c.size + 7) % 2 ^ 32) &&& 0xFFFFFFF8)) % 2 ^ 32 }))) := by
  obtain ⟨hlow, hhigh⟩ := hs.bounds
  have hnext := hs.next
  have hpage := hs.page
  have hstop := hs.stop
  cases c with
  | kmalloc size =>
      refine ⟨le_rfl, hhigh, hnext, hnext, ?_⟩
      simp only [HeapCall.run, HeapCall.start, HeapCall.size, kmalloc]
      split
      · next hlt => exact Or.inl ⟨hlt, rfl⟩
      · next hge => exact Or.inr ⟨not_lt.mp hge, rfl⟩
  | kmallocAligned size =>
      have hmask : ((h.heapNext + 0xFFF) % 2 ^ 32) &&& PAGE_MASK =
          (h.heapNext + 0xFFF) / 4096 * 4096 := by
        rw [Nat.mod_eq_of_lt (by omega), PAGE_MASK, LittleEndian.and_page_mask (by omega)]
      refine ⟨?_, ?_, ?_, ?_, ?_⟩
      · rw [HeapCall.start]
        omega
      · rw [HeapCall.start]
        omega
      · rw [HeapCall.start, HeapCall.alignment, PAGE_SIZE]
        omega
      · rw [HeapCall.start]
        omega
      · simp only [HeapCall.run, HeapCall.start, HeapCall.size, kmallocAligned, kmalloc, hmask]
        split
        · next hlt => exact Or.inl ⟨hlt, rfl⟩
        · next hge => exact Or.inr ⟨not_lt.mp hge, rfl⟩

theorem size_lt (c : HeapCall) : c.size < 2 ^ 32 := by
  cases c <;> exact BitVec.isLt _

/-- A call that fits, without the arithmetic of words. -/
theorem Stacked.run_fits (hs : h.Stacked blocks) (hfit : c.Fits h) :
    (h.heapEnd < c.start h + c.size ∧ c.run h = (0, h)) ∨
      (c.start h + c.size ≤ h.heapEnd ∧ (c.start h = 0 → c.size = 0) ∧
        c.run h = (c.start h, { h with heapNext := c.start h + (c.size + 7) / 8 * 8 })) := by
  obtain ⟨hwrap, hsame, hzero⟩ := hfit
  obtain ⟨hle, hend, -, height, hcase⟩ := hs.run_cases c
  have hpage := hs.page
  have hstop := hs.stop
  rw [Nat.mod_eq_of_lt hwrap] at hcase
  rcases hcase with ⟨hlt, hrun⟩ | ⟨hroom, hrun⟩
  · rw [hsame hlt] at hrun
    exact Or.inl ⟨hlt, hrun⟩
  · have hround : ((c.size + 7) % 2 ^ 32) &&& 0xFFFFFFF8 = (c.size + 7) / 8 * 8 := by
      rw [Nat.mod_eq_of_lt (by omega), LittleEndian.and_eight_mask (by omega)]
    rw [hround, Nat.mod_eq_of_lt (by omega)] at hrun
    refine Or.inr ⟨hroom, fun h0 ↦ ?_, hrun⟩
    rw [h0, Nat.zero_add] at hroom
    rcases hzero h0 with hsize | hlt
    · exact hsize
    · omega

theorem Stacked.step (hs : h.Stacked blocks) (hfit : c.Fits h) :
    (c.run h).2.Stacked (c.blocks h blocks) := by
  obtain ⟨hlow, hhigh⟩ := hs.bounds
  obtain ⟨hle, -, -, height, -⟩ := hs.run_cases c
  have hpage := hs.page
  rw [HeapCall.blocks]
  rcases hs.run_fits hfit with ⟨-, hrun⟩ | ⟨hroom, hzero, hrun⟩
  · rw [hrun, if_pos rfl]
    exact hs
  · rw [hrun]
    refine ⟨⟨?_, ?_⟩, ?_, hpage, hs.stop, fun b hb ↦ ?_⟩
    · exact (hlow.trans hle).trans (Nat.le_add_right _ _)
    · change c.start h + (c.size + 7) / 8 * 8 ≤ h.heapEnd
      omega
    · change (c.start h + (c.size + 7) / 8 * 8) % 8 = 0
      omega
    · change b.1 + b.2 ≤ c.start h + (c.size + 7) / 8 * 8
      have hold : ∀ b ∈ blocks, b.1 + b.2 ≤ c.start h + (c.size + 7) / 8 * 8 := fun b hb ↦
        ((hs.below b hb).trans hle).trans (Nat.le_add_right _ _)
      by_cases h0 : c.start h = 0
      · rw [if_pos h0] at hb
        exact hold b hb
      · rw [if_neg h0] at hb
        rcases List.mem_cons.mp hb with rfl | hb
        · change c.start h + c.size ≤ _
          omega
        · exact hold b hb

/-- A call is sound just when it fits. -/
theorem Stacked.sound_iff (hs : h.Stacked blocks) : c.Sound h blocks ↔ c.Fits h := by
  obtain ⟨hlow, hhigh⟩ := hs.bounds
  obtain ⟨hle, hend, halign, height, hcase⟩ := hs.run_cases c
  have hpage := hs.page
  have hstop := hs.stop
  have hsize := size_lt c
  constructor
  · rintro ⟨hnull, hblock⟩
    have hwrap : c.start h + c.size < 2 ^ 32 := by
      by_contra hge
      rcases hcase with ⟨hlt, hrun⟩ | ⟨-, hrun⟩
      · omega
      · rw [hrun] at hblock
        have hin := (hblock (show c.start h ≠ 0 by omega)).2.2.1
        change c.start h + c.size ≤ h.heapEnd at hin
        omega
    rw [Nat.mod_eq_of_lt hwrap] at hcase
    refine ⟨hwrap, fun hlt ↦ ?_, fun h0 ↦ ?_⟩
    · rcases hcase with ⟨-, hrun⟩ | ⟨hroom, -⟩
      · rw [hrun] at hnull
        exact hnull rfl
      · omega
    · rcases hcase with ⟨hlt, -⟩ | ⟨hroom, hrun⟩
      · rw [h0, Nat.zero_add] at hlt
        exact Or.inr hlt
      · have hround : ((c.size + 7) % 2 ^ 32) &&& 0xFFFFFFF8 = (c.size + 7) / 8 * 8 := by
          rw [Nat.mod_eq_of_lt (by omega), LittleEndian.and_eight_mask (by omega)]
        rw [hround, Nat.mod_eq_of_lt (by omega)] at hrun
        rw [hrun] at hnull
        have hmoved := hnull h0
        change c.start h + (c.size + 7) / 8 * 8 = h.heapNext at hmoved
        omega
  · intro hfit
    rcases hs.run_fits hfit with ⟨-, hrun⟩ | ⟨hroom, hzero, hrun⟩
    · rw [HeapCall.Sound, hrun]
      exact ⟨fun _ ↦ rfl, fun hne ↦ absurd rfl hne⟩
    · rw [HeapCall.Sound, hrun]
      refine ⟨fun h0 ↦ ?_, fun _ ↦ ⟨halign, hlow.trans hle, hroom, fun b hb ↦ ?_⟩⟩
      · have h0' : c.start h = 0 := h0
        have hs0 := hzero h0'
        change c.start h + (c.size + 7) / 8 * 8 = h.heapNext
        omega
      · rw [Set.disjoint_left]
        rintro x ⟨-, hx⟩ ⟨hx', -⟩
        have := hs.below b hb
        change c.start h ≤ x at hx'
        omega

theorem Stacked.soundRun_iff (hs : h.Stacked blocks) :
    h.SoundRun blocks calls ↔ h.FitsRun calls := by
  induction calls generalizing h blocks with
  | nil => exact iff_of_true hs.bounds trivial
  | cons c calls ih =>
      simp only [SoundRun, FitsRun, hs.sound_iff]
      constructor
      · rintro ⟨-, hfit, hrest⟩
        exact ⟨hfit, (ih (hs.step hfit)).mp hrest⟩
      · rintro ⟨hfit, hrest⟩
        exact ⟨hs.bounds, hfit, (ih (hs.step hfit)).mpr hrest⟩

end Kheap

namespace Machine

variable {m m' : Machine} {start size : ℕ} {heap : Kheap} {calls : List HeapCall}

theorem kheapInitialize_heap (h : m.kheapInitialize start size = some (heap, m')) :
    heap = ⟨start, (start + size) % 2 ^ 32, start⟩ := by
  rw [kheapInitialize, Option.bind_eq_bind, Option.bind_eq_some_iff] at h
  obtain ⟨m₁, -, h⟩ := h
  exact (Prod.mk.inj (Option.some.inj h)).1.symm

theorem kheapInitialize_stacked (h : m.kheapInitialize start size = some (heap, m'))
    (hstart : start % PAGE_SIZE = 0) (hsize : size % PAGE_SIZE = 0) (hend : start + size < 2 ^ 32) :
    heap.Stacked [] := by
  rw [PAGE_SIZE] at hstart hsize
  obtain rfl := kheapInitialize_heap h
  rw [Nat.mod_eq_of_lt hend]
  refine ⟨⟨le_rfl, Nat.le_add_right _ _⟩, ?_, ?_, hend, by simp⟩
  · change start % 8 = 0
    omega
  · change (start + size) % 4096 = 0
    omega

/-- The blocks of the kernel heap are sound for exactly the sequences of calls
that fit. -/
theorem heap_blocks_sound_iff (h : m.kheapInitialize start size = some (heap, m'))
    (hstart : start % PAGE_SIZE = 0) (hsize : size % PAGE_SIZE = 0) (hend : start + size < 2 ^ 32) :
    heap.SoundRun [] calls ↔ heap.FitsRun calls :=
  (kheapInitialize_stacked h hstart hsize hend).soundRun_iff

theorem heap_sample : ∃ heap m,
    ((Sample.machine 300).pagingInitialize (1 * PAGE_SIZE) (2 * PAGE_SIZE)).kheapInitialize
      KERNEL_HEAP_BASE KERNEL_HEAP_SIZE = some (heap, m) := by
  have hfree : (Sample.machine 300).free.card = 300 := by
    rw [← pmmFreeFrameCount_eq]
    decide +kernel
  obtain ⟨heap, m, -, hboot, -⟩ :=
    reset_sample.kheapInitialize_exists (by rw [hfree]; norm_num) (by decide)
  exact ⟨heap, m, hboot⟩

/-- A length that makes the sum of the bound check start over, and an aligned
block that does not fit. -/
theorem heap_blocks_unsound : ∃ heap m,
    ((Sample.machine 300).pagingInitialize (1 * PAGE_SIZE) (2 * PAGE_SIZE)).kheapInitialize
      KERNEL_HEAP_BASE KERNEL_HEAP_SIZE = some (heap, m) ∧
      ¬ heap.SoundRun [] [.kmalloc 0xFFFFFFFF#32] ∧
      ¬ heap.SoundRun [] [.kmalloc 8, .kmallocAligned (BitVec.ofNat 32 KERNEL_HEAP_SIZE)] := by
  obtain ⟨heap, m, hboot⟩ := heap_sample
  have hs := kheapInitialize_stacked hboot (by decide) (by decide) (by decide)
  obtain rfl := kheapInitialize_heap hboot
  refine ⟨_, m, hboot, ?_, ?_⟩
  · rw [hs.soundRun_iff]
    rintro ⟨⟨hwrap, -⟩, -⟩
    exact absurd hwrap (by decide)
  · rw [hs.soundRun_iff]
    rintro ⟨-, ⟨-, hsame, -⟩, -⟩
    exact absurd (hsame (by decide)) (by decide)

/-- A few bytes and a page. -/
theorem heap_blocks_sample : ∃ heap m,
    ((Sample.machine 300).pagingInitialize (1 * PAGE_SIZE) (2 * PAGE_SIZE)).kheapInitialize
      KERNEL_HEAP_BASE KERNEL_HEAP_SIZE = some (heap, m) ∧
      heap.SoundRun [] [.kmalloc 5, .kmallocAligned 4096] := by
  obtain ⟨heap, m, hboot⟩ := heap_sample
  refine ⟨heap, m, hboot,
    (heap_blocks_sound_iff hboot (by decide) (by decide) (by decide)).mpr ?_⟩
  obtain rfl := kheapInitialize_heap hboot
  exact ⟨⟨by decide, by decide, by decide⟩, ⟨by decide, by decide, by decide⟩, trivial⟩

end Machine

end EclipseOS
