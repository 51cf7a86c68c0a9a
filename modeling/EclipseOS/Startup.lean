import EclipseOS.Elf
import EclipseOS.Exchange
import EclipseOS.Kernel

/-!
# The boot directory

`paging_initialize` and `kheap_initialize`: the first directory, its identity
map and its heap.  Every other directory is made from this one.
-/

namespace EclipseOS

open LittleEndian

namespace Machine

/-- `page_directory` and `first_table` are static arrays and the processor does
not page yet, so their addresses are physical. -/
def pagingInitialize (m : Machine) (pageDirectory firstTable : ℕ) : Machine :=
  let m := (List.range 1024).foldl (fun m i ↦ m.setWord (pageDirectory / PAGE_SIZE) i PAGE_WRITE) m
  let m := (List.range 1024).foldl
    (fun m i ↦ m.setWord (firstTable / PAGE_SIZE) i (i * 0x1000 ||| PAGE_PRESENT ||| PAGE_WRITE)) m
  let m := m.setWord (pageDirectory / PAGE_SIZE) 0 (firstTable ||| PAGE_PRESENT ||| PAGE_WRITE)
  let m := m.setWord (pageDirectory / PAGE_SIZE) 1023
    (pageDirectory ||| PAGE_PRESENT ||| PAGE_WRITE)
  m.pagingSwitchDirectory pageDirectory

/-- One turn of the loop in `kheap_initialize`. -/
def backHeapPage (m : Machine) (a : ℕ) : Option Machine :=
  let (frame, m) := m.pmmAllocFrame
  m.pagingMap a frame PAGE_WRITE

def kheapInitialize (m : Machine) (start size : ℕ) : Option (Kheap × Machine) := do
  let heapEnd := (start + size) % 2 ^ 32
  let m ← (pagesBetween start heapEnd).foldlM backHeapPage m
  return (⟨start, heapEnd, start⟩, m)

variable {m m' : Machine} {B T d t i a F G f : ℕ} {K : Set ℕ}

/-- What `pmm_initialize` leaves: the arrays are in frames of the kernel image,
which are in use like the low megabyte. -/
structure Reset (m : Machine) (B T : ℕ) : Prop where
  lastAlloc : m.lastAlloc ≤ m.totalFrames
  zero : m.frameTest 0 = true
  directory : m.frameTest B = true
  table : m.frameTest T = true
  directory_ne_zero : B ≠ 0
  table_ne_zero : T ≠ 0
  ne : B ≠ T
  directory_lt : B < 2 ^ 20
  table_lt : T < 2 ^ 20

/-- The boot directory while the heap is being backed. -/
structure Booting (m : Machine) (B T : ℕ) : Prop where
  reset : m.Reset B T
  cr3 : m.cr3 = B * 4096
  self : m.pde B 1023 = B * 4096 + 3
  identity : m.pde B 0 = T * 4096 + 3
  heap : m.pde B 768 % 2 = 1 → m.frameTest (m.pde B 768 / 4096) = true ∧
    m.pde B 768 / 4096 ≠ B ∧ m.pde B 768 / 4096 ≠ 0
  others : ∀ d, d ≠ 0 → d ≠ 768 → d ≠ 1023 → d < 1024 → m.pde B d % 2 = 0

/-! ### paging_initialize -/

theorem foldl_setWord (m : Machine) (f : ℕ) (w : ℕ → ℕ) (l : List ℕ) :
    ∃ p, l.foldl (fun m i ↦ m.setWord f i (w i)) m = m.setFrame f p ∧
      ∀ j, word p j = if j ∈ l then w j % 2 ^ 32 else word (m.mem f) j := by
  induction l generalizing m with
  | nil => exact ⟨m.mem f, (setFrame_eq_self f).symm, by simp⟩
  | cons i l ih =>
      obtain ⟨p, hrun, hp⟩ := ih (m.setWord f i (w i))
      refine ⟨p, by rw [List.foldl_cons, hrun, setWord, setFrame_setFrame], fun j ↦ ?_⟩
      rw [hp, word_setWord]
      by_cases hj : j ∈ l
      · simp [hj]
      · by_cases hji : j = i
        · simp [hji]
        · simp [hj, hji]

theorem pagingInitialize_eq (m : Machine) (B T : ℕ) : ∃ p q,
    m.pagingInitialize (B * PAGE_SIZE) (T * PAGE_SIZE) =
      ((((m.setFrame B p).setFrame T q).setWord B 0 (T * 4096 + 3)).setWord B 1023
        (B * 4096 + 3)).pagingSwitchDirectory (B * PAGE_SIZE) ∧
      ∀ i, i < 1024 → word p i = 2 := by
  have hdiv : ∀ n, n * PAGE_SIZE / PAGE_SIZE = n := fun n ↦ Nat.mul_div_cancel n (by decide)
  have hflags : ∀ n, n * PAGE_SIZE ||| PAGE_PRESENT ||| PAGE_WRITE = n * 4096 + 3 := fun n ↦ by
    rw [Nat.or_assoc, PAGE_SIZE, frame_or_flags n (by decide)]
    rfl
  obtain ⟨p, hp, hpw⟩ := foldl_setWord m B (fun _ ↦ PAGE_WRITE) (List.range 1024)
  obtain ⟨q, hq, -⟩ := foldl_setWord (m.setFrame B p) T
    (fun i ↦ i * 0x1000 ||| PAGE_PRESENT ||| PAGE_WRITE) (List.range 1024)
  refine ⟨p, q, ?_, fun i hi ↦ ?_⟩
  · simp only [Machine.pagingInitialize, hdiv, hflags]
    rw [hp, hq]
  · rw [hpw, if_pos (List.mem_range.mpr hi)]
    rfl

theorem Reset.pagingInitialize (h : m.Reset B T) :
    (m.pagingInitialize (B * PAGE_SIZE) (T * PAGE_SIZE)).Booting B T := by
  have hB := h.directory_lt
  have hT := h.table_lt
  obtain ⟨p, q, hrun, hpw⟩ := m.pagingInitialize_eq B T
  have hpde : ∀ i, (m.pagingInitialize (B * PAGE_SIZE) (T * PAGE_SIZE)).pde B i =
      if i = 1023 then B * 4096 + 3 else if i = 0 then T * 4096 + 3 else word p i := by
    intro i
    rw [hrun, pde, show ∀ (m : Machine) a, (m.pagingSwitchDirectory a).mem = m.mem from fun _ _ ↦ rfl,
      word_setWord, word_setWord, setFrame_mem_of_ne _ h.ne, setFrame_mem_self,
      Nat.mod_eq_of_lt (by omega : T * 4096 + 3 < 2 ^ 32),
      Nat.mod_eq_of_lt (by omega : B * 4096 + 3 < 2 ^ 32)]
    simp
  have hothers : ∀ d, d ≠ 0 → d ≠ 1023 → d < 1024 →
      (m.pagingInitialize (B * PAGE_SIZE) (T * PAGE_SIZE)).pde B d = 2 := by
    intro d h0 h1023 hd
    rw [hpde, if_neg h1023, if_neg h0, hpw d hd]
  refine ⟨?_, ?_, ?_, ?_, ?_, ?_⟩
  · rw [hrun]
    exact ⟨h.lastAlloc, h.zero, h.directory, h.table, h.directory_ne_zero, h.table_ne_zero, h.ne, hB,
      hT⟩
  · rw [hrun]
    rfl
  · rw [hpde, if_pos rfl]
  · rw [hpde, if_neg (by norm_num), if_pos rfl]
  · rw [hothers 768 (by norm_num) (by norm_num) (by norm_num)]
    exact fun h ↦ absurd h (by norm_num)
  · intro d h0 _ h1023 hd
    rw [hothers d h0 h1023 hd]

/-! ### kheap_initialize -/

/-- Frames one more heap page takes. -/
def heapFrames (m : Machine) (B : ℕ) : ℕ := if m.pde B 768 % 2 = 1 then 1 else 2

theorem Booting.dir_eq (h : m.Booting B T) : m.dir = B := by
  rw [dir, h.cr3, Nat.mul_div_cancel _ (by norm_num)]

theorem Booting.recursive (h : m.Booting B T) : m.Recursive := by
  refine ⟨by rw [h.dir_eq, h.cr3], ?_, ?_⟩ <;> rw [h.dir_eq, h.self] <;> omega

/-- Taking a frame and writing into frames that are not the directory. -/
theorem Booting.congr (h : m.Booting B T) {X : Finset ℕ} (hX : Allocs m m' X) (hcr3 : m'.cr3 = m.cr3)
    (hmem : ∀ i, i ≠ 768 → m'.pde B i = m.pde B i)
    (hheap : m'.pde B 768 % 2 = 1 → m'.frameTest (m'.pde B 768 / 4096) = true ∧
      m'.pde B 768 / 4096 ≠ B ∧ m'.pde B 768 / 4096 ≠ 0) : m'.Booting B T := by
  have hr := h.reset
  have htest : ∀ f, m.frameTest f = true → m'.frameTest f = true := fun f hf ↦ by
    rw [hX.test, hf, Bool.or_true]
  refine ⟨⟨?_, htest _ hr.zero, htest _ hr.directory, htest _ hr.table, hr.directory_ne_zero,
    hr.table_ne_zero, hr.ne, hr.directory_lt, hr.table_lt⟩, by rw [hcr3, h.cr3],
    by rw [hmem _ (by norm_num), h.self], by rw [hmem _ (by norm_num), h.identity], hheap, ?_⟩
  · rw [hX.totalFrames]
    exact hX.lastAlloc hr.lastAlloc
  · intro d h0 h768 h1023 hd
    rw [hmem d h768, h.others d h0 h768 h1023 hd]

/-- A heap page once its table is there. -/
theorem Booting.mapHeapPage (h : m.Booting B T) (hp : m.pde B 768 % 2 = 1) (ht : t < 1024)
    (hF : F < 2 ^ 20) : ∃ m', m.pagingMap (pageAddr 768 t) (F * PAGE_SIZE) PAGE_WRITE = some m' ∧
      m'.Booting B T ∧ m'.pde B 768 % 2 = 1 ∧ Allocs m m' ∅ := by
  set c := Call.map (pageAddr 768 t) (F * PAGE_SIZE) PAGE_WRITE with hc
  set m₁ := (m.log c).setWord (m.pde B 768 / 4096) t (F * 4096 + (PAGE_WRITE ||| 1)) with hm₁
  have hrun : m.pagingMap (pageAddr 768 t) (F * PAGE_SIZE) PAGE_WRITE = some m₁ := by
    rw [pagingMap_present (d := 768) h.recursive (by norm_num) ht (pageAddr_index ht)
      (by rw [h.dir_eq, hp]) hF (by decide), withPage_kernel _ _ _ _ (by decide), log_dir, h.dir_eq]
    rfl
  have hallocs : Allocs m m₁ ∅ :=
    (Allocs.log m (c := c) nofun).trans (Allocs.setFrame (m.log c) _ _)
  have hpde : ∀ i, m₁.pde B i = m.pde B i := fun i ↦ by
    rw [hm₁, setWord, setFrame_pde (h.heap hp).2.1, log_pde]
  refine ⟨m₁, hrun, h.congr hallocs rfl (fun i _ ↦ hpde i) fun _ ↦ ?_, (hpde 768).symm ▸ hp, hallocs⟩
  rw [hpde]
  exact h.heap hp

/-- The table of the heap, in the frame the allocator gave for it. -/
theorem Booting.heapTable (h : m.Booting B T) (hG : G ∈ m.free) :
    ((m.withAlloc G).withTable 768 G).Booting B T ∧
      ((m.withAlloc G).withTable 768 G).pde B 768 % 2 = 1 ∧
      Allocs m ((m.withAlloc G).withTable 768 G) {G} := by
  have hGB : G ≠ B := Ledger.free_ne hG h.reset.directory
  have hlt : G < 2 ^ 20 := Ledger.free_lt hG
  have hdir : (m.withAlloc G).dir = B := h.dir_eq
  have hpde : ∀ i, ((m.withAlloc G).withTable 768 G).pde B i =
      if i = 768 then G * 4096 + 3 else m.pde B i := by
    intro i
    rw [Machine.withTable, setFrame_pde hGB, pde, word_setWord, hdir,
      Nat.mod_eq_of_lt (by omega : G * 4096 + 3 < 2 ^ 32), withAlloc_mem, pde]
    simp
  have hallocs := Allocs.withTable 768 hG (Ledger.free_ne hG h.reset.zero)
  have hslot := hpde 768
  rw [if_pos rfl] at hslot
  refine ⟨h.congr hallocs rfl (fun i hi ↦ by rw [hpde, if_neg hi]) fun _ ↦ ?_, ?_, hallocs⟩
  · rw [hslot, show (G * 4096 + 3) / 4096 = G by omega, hallocs.test]
    exact ⟨by simp, hGB, Ledger.free_ne hG h.reset.zero⟩
  · rw [hslot]
    omega

/-- `paging_map` of a heap page: it is mapped, or its table is not to be had
and that is recorded. -/
theorem Booting.pagingMap (h : m.Booting B T) (ht : t < 1024) (hF : F < 2 ^ 20) :
    (∃ m' X, m.pagingMap (pageAddr 768 t) (F * PAGE_SIZE) PAGE_WRITE = some m' ∧ m'.Booting B T ∧
      m'.pde B 768 % 2 = 1 ∧ Allocs m m' X ∧ X.card + 1 = m.heapFrames B) ∨
    (m.free.card + 1 < m.heapFrames B ∧
      ∀ m', m.pagingMap (pageAddr 768 t) (F * PAGE_SIZE) PAGE_WRITE = some m' →
        Call.alloc 0 ∈ m'.calls) := by
  by_cases hp : m.pde B 768 % 2 = 1
  · obtain ⟨m', hrun, h', hp', hallocs⟩ := h.mapHeapPage hp ht hF
    exact Or.inl ⟨m', ∅, hrun, h', hp', hallocs, by rw [heapFrames, if_pos hp]; rfl⟩
  · set c := Call.map (pageAddr 768 t) (F * PAGE_SIZE) PAGE_WRITE with hc
    have hp0 : m.pde m.dir 768 % 2 = 0 := by
      rw [h.dir_eq]
      omega
    have hlog : (m.log c).Booting B T :=
      h.congr (Allocs.log m (c := c) nofun) rfl (fun _ _ ↦ rfl) h.heap
    obtain ⟨G, hG, halloc⟩ | ⟨hnone, halloc⟩ := pmmAllocFrame_cases (m := m.log c) h.reset.lastAlloc
    · obtain ⟨h₁, hp₁, hallocs₁⟩ := hlog.heapTable hG
      set m₁ := ((m.log c).withAlloc G).withTable 768 G with hm₁
      have hGdir : G ≠ m.dir := by
        rw [h.dir_eq]
        exact Ledger.free_ne hG h.reset.directory
      have hrun := pagingMap_absent (d := 768) h.recursive (by norm_num) ht (pageAddr_index ht) hp0
        halloc (Ledger.free_lt hG) hGdir hF (show PAGE_WRITE < 4096 by decide)
      rw [← hm₁, withPage_kernel _ _ _ _ (by decide), h₁.dir_eq] at hrun
      have hpde : ∀ i, (m₁.setWord (m₁.pde B 768 / 4096) t
          (F * 4096 + (PAGE_WRITE ||| 1))).pde B i = m₁.pde B i := fun i ↦ by
        rw [setWord, setFrame_pde (h₁.heap hp₁).2.1]
      have hallocs₂ := hallocs₁.trans (Allocs.setFrame m₁ (m₁.pde B 768 / 4096)
        (putWord (m₁.mem (m₁.pde B 768 / 4096)) t (F * 4096 + (PAGE_WRITE ||| 1))))
      refine Or.inl ⟨_, _, hrun, h₁.congr (Allocs.setFrame m₁ _ _) rfl (fun i _ ↦ hpde i)
        fun _ ↦ ?_, (hpde 768).symm ▸ hp₁, (Allocs.log m (c := c) nofun).trans hallocs₂, ?_⟩
      · rw [hpde]
        exact h₁.heap hp₁
      · rw [Finset.union_empty, Finset.empty_union, Finset.card_singleton, heapFrames, if_neg hp]
    · have hnone' : m.free = ∅ := hnone
      refine Or.inr ⟨?_, fun m' hm' ↦ ?_⟩
      · rw [hnone', Finset.card_empty, heapFrames, if_neg hp]
        norm_num
      · have hload := h.recursive.load_pd (d := 768) (by norm_num)
        have hbefore := pagingMap_table_before hm'
          (by rw [(pageAddr_index ht).1]; exact hload) hp0
        rw [halloc] at hbefore
        exact hbefore.mem (List.mem_cons_self ..)

/-- One heap page: it is backed, or an allocation fails and that is recorded. -/
theorem Booting.backHeapPage (h : m.Booting B T) (ht : t < 1024) :
    (∃ m' X, m.backHeapPage (pageAddr 768 t) = some m' ∧ m'.Booting B T ∧ m'.pde B 768 % 2 = 1 ∧
      Allocs m m' X ∧ X.card = m.heapFrames B) ∨
    (m.free.card < m.heapFrames B ∧ ∀ m', m.backHeapPage (pageAddr 768 t) = some m' →
      Call.alloc 0 ∈ m'.calls) := by
  obtain ⟨F, hF, halloc⟩ | ⟨hnone, halloc⟩ := pmmAllocFrame_cases h.reset.lastAlloc
  · have hallocs := Allocs.alloc hF (Ledger.free_ne hF h.reset.zero)
    have h₁ : (m.withAlloc F).Booting B T := h.congr hallocs rfl (fun _ _ ↦ rfl) fun hp ↦ by
      rw [withAlloc_frameTest, withAlloc_pde, (h.heap hp).1, Bool.or_true]
      exact ⟨rfl, (h.heap hp).2⟩
    have hrun : m.backHeapPage (pageAddr 768 t) =
        (m.withAlloc F).pagingMap (pageAddr 768 t) (F * PAGE_SIZE) PAGE_WRITE := by
      rw [Machine.backHeapPage, halloc]
    have hcard := hallocs.card
    rw [Finset.card_singleton] at hcard
    rw [hrun]
    obtain ⟨m', X, hmap, h', hp', hallocs', hX⟩ | ⟨hlt, hrec⟩ :=
      h₁.pagingMap ht (Ledger.free_lt hF)
    · refine Or.inl ⟨m', {F} ∪ X, hmap, h', hp', hallocs.trans hallocs', ?_⟩
      rw [Finset.card_union_of_disjoint (hallocs.disjoint hallocs'), Finset.card_singleton,
        Nat.add_comm]
      exact hX
    · exact Or.inr ⟨by rw [← hcard]; exact hlt, hrec⟩
  · refine Or.inr ⟨?_, fun m' hm' ↦ ?_⟩
    · rw [hnone, Finset.card_empty, heapFrames]
      split <;> norm_num
    · rw [Machine.backHeapPage, halloc] at hm'
      exact (pagingMap_before hm').mem (List.mem_cons_self ..)

theorem backHeapPage_before (h : m.backHeapPage a = some m') : m.Before m' :=
  m.pmmAllocFrame_before.trans (pagingMap_before h)

/-- The whole heap, when no allocation failed. -/
theorem Booting.backHeap (h : m.Booting B T) {l : List ℕ} (hl : ∀ a ∈ l, ∃ t < 1024, a = pageAddr 768 t)
    (hrun : l.foldlM Machine.backHeapPage m = some m') (hcalls : Call.alloc 0 ∉ m'.calls) :
    m'.Booting B T := by
  induction l generalizing m with
  | nil =>
      rw [List.foldlM_nil, Option.pure_def, Option.some.injEq] at hrun
      exact hrun ▸ h
  | cons a l ih =>
      rw [List.foldlM_cons, Option.bind_eq_bind, Option.bind_eq_some_iff] at hrun
      obtain ⟨m₁, hstep, hrest⟩ := hrun
      obtain ⟨t, ht, rfl⟩ := hl a (by simp)
      obtain ⟨m₂, X, hstep', h', -⟩ | ⟨-, hrec⟩ := h.backHeapPage ht
      · obtain rfl : m₁ = m₂ := Option.some.inj (hstep.symm.trans hstep')
        exact ih h' (fun a ha ↦ hl a (by simp [ha])) hrest
      · have hbefore : m₁.Before m' :=
          Before.foldlM (π := id) (fun _ _ _ ↦ backHeapPage_before) hrest
        exact absurd (hbefore.mem (hrec m₁ hstep)) hcalls

/-- One frame for each page and one for the table are enough. -/
theorem Booting.backHeap_exists (h : m.Booting B T) {l : List ℕ}
    (hl : ∀ a ∈ l, ∃ t < 1024, a = pageAddr 768 t)
    (hroom : l.length + m.heapFrames B ≤ m.free.card + 1) :
    ∃ m' X, l.foldlM Machine.backHeapPage m = some m' ∧ Allocs m m' X ∧
      X.card + 1 ≤ l.length + m.heapFrames B := by
  induction l generalizing m with
  | nil =>
      refine ⟨m, ∅, rfl, Allocs.refl m, ?_⟩
      rw [Finset.card_empty, heapFrames]
      split <;> simp
  | cons a l ih =>
      obtain ⟨t, ht, rfl⟩ := hl a (by simp)
      rw [List.length_cons] at hroom ⊢
      obtain ⟨m₁, X, hstep, h', hp', hallocs, hX⟩ | ⟨hlt, -⟩ := h.backHeapPage ht
      · have hcard := hallocs.card
        have hone : m₁.heapFrames B = 1 := by rw [heapFrames, if_pos hp']
        obtain ⟨m₂, Y, hrun, hallocs', hY⟩ := ih h' (fun a ha ↦ hl a (by simp [ha])) (by omega)
        refine ⟨m₂, X ∪ Y, by simp [List.foldlM_cons, hstep, hrun], hallocs.trans hallocs', ?_⟩
        rw [Finset.card_union_of_disjoint (hallocs.disjoint hallocs')]
        omega
      · omega

theorem heap_pages {a : ℕ}
    (ha : a ∈ pagesBetween KERNEL_HEAP_BASE ((KERNEL_HEAP_BASE + KERNEL_HEAP_SIZE) % 2 ^ 32)) :
    ∃ t < 1024, a = pageAddr 768 t := by
  simp only [pagesBetween, List.mem_map, List.mem_range, KERNEL_HEAP_BASE, KERNEL_HEAP_SIZE] at ha
  obtain ⟨t, ht, rfl⟩ := ha
  refine ⟨t, by omega, ?_⟩
  simp only [pageAddr]
  omega

theorem Reset.kheapInitialize (h : m.Reset B T) {heap : Kheap}
    (hrun : (m.pagingInitialize (B * PAGE_SIZE) (T * PAGE_SIZE)).kheapInitialize KERNEL_HEAP_BASE
      KERNEL_HEAP_SIZE = some (heap, m')) (hcalls : Call.alloc 0 ∉ m'.calls) : m'.Booting B T := by
  rw [Machine.kheapInitialize, Option.bind_eq_bind, Option.bind_eq_some_iff] at hrun
  obtain ⟨m₁, hrun, heq⟩ := hrun
  simp only [Option.pure_def, Option.some.injEq, Prod.mk.injEq] at heq
  obtain ⟨-, rfl⟩ := heq
  exact h.pagingInitialize.backHeap (fun _ ↦ heap_pages) hrun hcalls

/-- 257 free frames are enough to boot. -/
theorem Reset.kheapInitialize_exists (h : m.Reset B T) (hroom : 257 ≤ m.free.card)
    (hcalls : Call.alloc 0 ∉ m.calls) : ∃ heap m' X,
      (m.pagingInitialize (B * PAGE_SIZE) (T * PAGE_SIZE)).kheapInitialize KERNEL_HEAP_BASE
        KERNEL_HEAP_SIZE = some (heap, m') ∧ Call.alloc 0 ∉ m'.calls ∧ m'.free = m.free \ X ∧
        X.card ≤ 257 := by
  set m₀ := m.pagingInitialize (B * PAGE_SIZE) (T * PAGE_SIZE) with hm₀
  have hboot : m₀.Booting B T := h.pagingInitialize
  obtain ⟨hfree, hcalls₀⟩ : m₀.free = m.free ∧ m₀.calls = m.calls := by
    obtain ⟨p, q, hrun, -⟩ := m.pagingInitialize_eq B T
    rw [hm₀, hrun]
    exact ⟨rfl, rfl⟩
  have hframes : m₀.heapFrames B ≤ 2 := by
    rw [heapFrames]
    split <;> norm_num
  set heapEnd := (KERNEL_HEAP_BASE + KERNEL_HEAP_SIZE) % 2 ^ 32 with hend
  have hlen : (pagesBetween KERNEL_HEAP_BASE heapEnd).length = 256 := by
    rw [pagesBetween, List.length_map, List.length_range, hend]
    rfl
  obtain ⟨m', X, hrun, hallocs, hX⟩ := hboot.backHeap_exists
    (l := pagesBetween KERNEL_HEAP_BASE heapEnd) (fun _ ↦ heap_pages) (by rw [hlen, hfree]; omega)
  obtain ⟨cs, hcs, hnot⟩ := hallocs.calls
  refine ⟨⟨KERNEL_HEAP_BASE, heapEnd, KERNEL_HEAP_BASE⟩, m', X, ?_, ?_, ?_, by omega⟩
  · rw [Machine.kheapInitialize, hrun]
    rfl
  · rw [hcs, hcalls₀, List.mem_append, not_or]
    exact ⟨hnot, hcalls⟩
  · rw [hallocs.free, hfree]

theorem Booting.no_table (h : m.Booting B T) (h₁ : 1 ≤ d) (h₂ : d < 768) : m.pde B d % 2 = 0 :=
  h.others d (by omega) (by omega) (by omega) (by omega)

/-- The boot directory owns itself and nothing else. -/
theorem Booting.holds (h : m.Booting B T) {o : Owner} {f : ℕ} (ho : m.Holds {B} o f) :
    o = .dir B ∧ f = B := by
  cases o with
  | dir D =>
      obtain ⟨hD, rfl⟩ := ho
      rw [Set.mem_singleton_iff.mp hD]
      exact ⟨rfl, rfl⟩
  | table D d =>
      obtain ⟨hD, h₁, h₂, hp, -⟩ := ho
      rw [Set.mem_singleton_iff.mp hD, h.no_table h₁ h₂] at hp
      exact absurd hp (by norm_num)
  | leaf D d t =>
      obtain ⟨hD, h₁, h₂, -, hleaf⟩ := ho
      rw [Set.mem_singleton_iff.mp hD, leaf_eq_some, h.no_table h₁ h₂] at hleaf
      exact absurd hleaf.1 (by norm_num)

/-- After `kheap_initialize` every frame in use is the kernel's, except for the
directory and frame 0, which is reserved and not used. -/
theorem Booting.ledger (h : m.Booting B T) :
    m.Ledger B {B} {f | m.frameTest f = true ∧ f ≠ B ∧ f ≠ 0} := by
  have hr := h.reset
  have hB := hr.directory_lt
  have hT := hr.table_lt
  have hslot : m.pde B 1022 % 2 = 0 :=
    h.others 1022 (by norm_num) (by norm_num) (by norm_num) (by norm_num)
  refine ⟨hr.lastAlloc, by rw [h.dir_eq, h.cr3], h.dir_eq, rfl,
    fun D hD ↦ ?_, fun o o' f ho ho' ↦ ?_, fun o f ho ↦ ?_, fun f hf ↦ hf.1, fun D hD i _ ↦ ?_,
    fun i hi hp ↦ ?_, fun i _ _ _ hp' ↦ ?_, Or.inr rfl⟩
  · rw [Set.mem_singleton_iff.mp hD, h.self]
    omega
  · rw [(h.holds ho).1, (h.holds ho').1]
  · rw [(h.holds ho).2]
    exact ⟨hr.directory, fun hf ↦ hf.2.1 rfl⟩
  · rw [Set.mem_singleton_iff.mp hD]
  · by_cases h0 : i = 0
    · rw [h0, h.identity, show (T * 4096 + 3) / 4096 = T by omega]
      exact ⟨hr.table, hr.ne.symm, hr.table_ne_zero⟩
    · by_cases h768 : i = 768
      · rw [h768] at hp ⊢
        exact h.heap hp
      · rw [h.others i h0 h768 (by obtain rfl | hi := hi <;> omega)
          (by obtain rfl | hi := hi <;> omega)] at hp
        exact absurd hp (by norm_num)
  · rw [hslot] at hp'
    exact absurd hp' (by norm_num)

end Machine

end EclipseOS
