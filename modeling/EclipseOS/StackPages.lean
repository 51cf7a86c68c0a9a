import EclipseOS.Recycled

/-!
# The pages of the stack

The frames behind the stack of a new program, named by the memory before the
call, and the two runs of `execve` up to them.
-/

namespace EclipseOS

open LittleEndian

namespace Machine

variable {m n m' n' m₁ n₁ : Machine} {B D d t i f a v F P base hi high : ℕ} {L K U V : Set ℕ}
variable {data : Image} {ν : Bytes}

/-! ## The stack -/

/-- The frames behind the four stack pages.  Frame 0 stands for a page that the
allocator could not serve. -/
def stackFrames (m : Machine) : Set ℕ := {f | f ≠ 0 ∧ ∃ t < 4, m.leaf m.dir 704 t = some f}

theorem stackPage {i : ℕ} (hi : i < 4) : USER_STACK_TOP - (i + 1) * 0x1000 = pageAddr 704 (3 - i) := by
  rw [USER_STACK_TOP, pageAddr]
  omega

/-- The place of the frame for stack page `i` among the frames handed out.  The first
page makes the table, when there is none, and the table takes a frame too. -/
def stackTurn (table : Prop) [Decidable table] (i : ℕ) : ℕ := if i = 0 ∨ table then i else i + 1

theorem stackTurn_succ (table : Prop) [Decidable table] (k : ℕ) :
    stackTurn table (k + 1) = stackTurn table k + if 0 < k ∨ table then 1 else 2 := by
  rw [stackTurn, stackTurn]
  by_cases htable : table
  · simp [htable]
  · by_cases hk : k = 0
    · simp [htable, hk]
    · simp [htable, hk, Nat.pos_of_ne_zero hk]

/-- The frames for the first `k` stack pages, out of the frames of `l`. -/
def stackSupply (l : List ℕ) (table : Prop) [Decidable table] (k : ℕ) : List ℕ :=
  (List.range k).filterMap fun i ↦ l[stackTurn table i]?

theorem mem_stackSupply_succ {l : List ℕ} {table : Prop} [Decidable table] {k : ℕ} :
    f ∈ stackSupply l table (k + 1) ↔
      f ∈ stackSupply l table k ∨ l[stackTurn table k]? = some f := by
  simp [stackSupply, List.range_succ]

theorem stackSupply_congr {l : List ℕ} {p q : Prop} [Decidable p] [Decidable q] (h : p ↔ q)
    {k : ℕ} : stackSupply l p k = stackSupply l q k := by
  simp only [stackSupply, stackTurn, h]

/-- A stack page leaves the free frames behind those of the page and its table. -/
theorem mapStackPage_idle {k : ℕ} (hm : m.Packed) (hrec : m.Recursive) (hk : k < 4)
    (h : Kernel.mapStackPage m k = some m') : m'.Packed ∧
      m'.idle = if m.pde m.dir 704 % 2 = 1 then m.idle.tail else m.idle.tail.tail := by
  obtain ⟨hd, -⟩ := pageAddr_index (d := 704) (show 3 - k < 1024 by omega)
  rw [Kernel.mapStackPage, stackPage hk] at h
  refine ⟨((pagingMap_draws h).idle hm.alloc).1, ?_⟩
  have hrec' : m.pmmAllocFrame.2.Recursive := hrec.congr (by simp) (by simp)
  have hidle := pagingMap_idle hm.alloc hrec' (by rw [hd]; norm_num) h
  have hpde : m.pmmAllocFrame.2.pde m.pmmAllocFrame.2.dir 704 = m.pde m.dir 704 := by
    simp [Machine.pde]
  rw [hd, hpde, hm.pmmAllocFrame.2] at hidle
  exact hidle

/-- The last `k` stack pages are mapped, to the frames of `S` or to frame 0. -/
structure Stacked (k : ℕ) (S : Finset ℕ) (m m' : Machine) : Prop where
  cr3 : m'.cr3 = m.cr3
  test : ∀ f, m.frameTest f = true → m'.frameTest f = true
  packed : m'.Packed
  table : m'.pde m.dir 704 % 2 = 1 ↔ 0 < k ∨ m.pde m.dir 704 % 2 = 1
  left : m'.idle = m.idle.drop (stackTurn (m.pde m.dir 704 % 2 = 1) k)
  handed : ∀ f, f ∈ S ↔ f ∈ stackSupply m.idle (m.pde m.dir 704 % 2 = 1) k
  fresh : ∀ f ∈ S, m.frameTest f = false ∧ m'.mem f = m.mem f
  mapped : ∀ f ∈ S, ∃ t < 4, 4 ≤ t + k ∧ m'.leaf m.dir 704 t = some f
  behind : ∀ t < 4, 4 ≤ t + k → ∃ f, m'.leaf m.dir 704 t = some f ∧ (f ∈ S ∨ f = 0)
  idle : ∀ f, m'.frameTest f = false → m'.mem f = m.mem f

namespace Stacked

variable {k : ℕ} {S : Finset ℕ}

theorem dir (h : Stacked k S m m') : m'.dir = m.dir := by rw [Machine.dir, h.cr3, Machine.dir]

/-- Nothing is mapped yet. -/
theorem refl (hm : m.Packed) : Stacked 0 ∅ m m where
  cr3 := rfl
  test _ hf := hf
  packed := hm
  table := by simp
  left := by simp [stackTurn]
  handed f := by simp [stackSupply]
  fresh := by simp
  mapped := by simp
  behind t ht hle := absurd hle (by omega)
  idle _ _ := rfl

/-- One page more. -/
theorem step (h : Stacked k S m m₁) (hk : k < 4) {S' : Finset ℕ}
    (hmaps : Maps S' 704 (3 - k) P m₁ m') (hrec : m₁.Recursive)
    (hrun : Kernel.mapStackPage m₁ k = some m') (hP : P ∈ S' ∨ P = 0)
    (hhead : ∀ f, f ∈ S' ↔ f ∈ S ∨ m₁.idle.head? = some f)
    (hnew : ∀ f ∈ S', f ∈ S ∨ f = P ∧ m₁.frameTest f = false) :
    Stacked (k + 1) S' m m' := by
  have hmaps' : m'.pde m.dir 704 % 2 = 1 ∧ m'.leaf m.dir 704 (3 - k) = some P := by
    rw [← h.dir]
    exact ⟨hmaps.present, hmaps.leaf⟩
  obtain ⟨hpacked, hidle⟩ := mapStackPage_idle h.packed hrec hk hrun
  have hkept : ∀ t < 4, 4 ≤ t + k → m'.leaf m.dir 704 t = m₁.leaf m.dir 704 t := by
    intro t ht hle
    have := hmaps.kept (by rw [h.dir]; exact h.table.mpr (Or.inl (by omega))) t (by omega) (by omega)
    rwa [h.dir] at this
  refine ⟨hmaps.cr3.trans h.cr3, fun f hf ↦ hmaps.test f (h.test f hf), hpacked,
    iff_of_true hmaps'.1 (Or.inl k.succ_pos), ?_, fun f ↦ ?_, fun f hf ↦ ?_, fun f hf ↦ ?_,
    fun t ht hle ↦ ?_, fun f hf ↦ ?_⟩
  · rw [hidle, h.dir, h.left]
    rw [stackTurn_succ, ← if_congr h.table rfl rfl]
    split
    · rw [List.tail_drop]
    · rw [List.tail_drop, List.tail_drop]
  · rw [hhead, h.handed, mem_stackSupply_succ, h.left, List.head?_drop]
  · rw [hmaps.mem f hf]
    obtain hS | ⟨rfl, hfree⟩ := hnew f hf
    · exact h.fresh f hS
    · refine ⟨?_, h.idle f hfree⟩
      by_contra htest
      rw [h.test f (by simpa using htest)] at hfree
      exact nomatch hfree
  · obtain hS | ⟨rfl, -⟩ := hnew f hf
    · obtain ⟨t, ht, hle, hleaf⟩ := h.mapped f hS
      exact ⟨t, ht, by omega, by rw [hkept t ht hle, hleaf]⟩
    · exact ⟨3 - k, by omega, by omega, hmaps'.2⟩
  · by_cases hlast : t = 3 - k
    · exact ⟨P, by rw [hlast, hmaps'.2], hP⟩
    · obtain ⟨f, hleaf, hf⟩ := h.behind t ht (by omega)
      exact ⟨f, by rw [hkept t ht (by omega), hleaf], hf.imp_left fun hS ↦ (hhead f).mpr (Or.inl hS)⟩
  · have hf₁ : m₁.frameTest f = false := by
      by_contra htest
      rw [hmaps.test f (by simpa using htest)] at hf
      exact nomatch hf
    rw [hmaps.idle f hf, h.idle f hf₁]

/-- After the last page nothing else is behind the stack. -/
theorem eq_stackFrames (h : Stacked 4 S m m') (h0 : 0 ∉ S) : (S : Set ℕ) = m'.stackFrames := by
  ext f
  rw [stackFrames, h.dir]
  constructor
  · intro hf
    obtain ⟨t, ht, -, hleaf⟩ := h.mapped f hf
    exact ⟨fun heq ↦ h0 (heq ▸ hf), t, ht, hleaf⟩
  · rintro ⟨hf0, t, ht, hleaf⟩
    obtain ⟨g, hg, hmem⟩ := h.behind t ht (by omega)
    rw [hleaf, Option.some.injEq] at hg
    subst hg
    exact hmem.resolve_right hf0

end Stacked

namespace Alike

theorem packed (h : Alike S m n) (hm : m.Packed) : n.Packed where
  lastAlloc := by rw [h.lastAlloc, h.totalFrames]; exact hm.lastAlloc
  below f hf := by rw [h.test, hm.below f (h.lastAlloc ▸ hf)]

/-- One stack page, on both sides. -/
theorem mapStackPage {S : Finset ℕ} {k : ℕ} (h : Alike S m₁ n₁) (ha : Anchored S V m₁) (hk : k < 4)
    (hsm : Stacked k S m m₁) (hsn : Stacked k S n n₁) :
    ∃ (S' : Finset ℕ) (m' n' : Machine), Kernel.mapStackPage m₁ k = some m' ∧
      Kernel.mapStackPage n₁ k = some n' ∧ Alike S' m' n' ∧ Anchored S' V m' ∧
      Stacked (k + 1) S' m m' ∧ Stacked (k + 1) S' n n' := by
  have hrec := ha.recursive
  have hrecn := h.recursive ha
  have hidle : n₁.idle = m₁.idle := idle_congr h.totalFrames h.test
  have hva := pageAddr_index (d := 704) (show 3 - k < 1024 by omega)
  have hfl : PAGE_USER ||| PAGE_WRITE < 4096 := by decide
  obtain ⟨F, hF, hm, hn⟩ | ⟨hnone, hm, hn⟩ := h.pmmAllocFrame ha.lastAlloc
  · have hfree := ((mem_free m₁).mp hF).2
    have hset : ((insert F S : Finset ℕ) : Set ℕ) = insert F (S : Set ℕ) := Finset.coe_insert F S
    have hnew : ∀ f ∈ insert F S, f ∈ S ∨ f = F ∧ m₁.frameTest f = false := by
      intro f hf
      obtain rfl | hf := Finset.mem_insert.mp hf
      · exact Or.inr ⟨rfl, hfree⟩
      · exact Or.inl hf
    have hnewn : ∀ f ∈ insert F S, f ∈ S ∨ f = F ∧ n₁.frameTest f = false := by
      intro f hf
      rw [h.test]
      exact hnew f hf
    have halike := h.alloc F
    have hanch := ha.alloc hF
    rw [← hset] at halike hanch
    obtain ⟨m', n', hrun, hrunn, h', ha', hmaps, hmapsn⟩ := halike.pagingMap hanch (by norm_num)
      (by norm_num) (by omega) hva (by simp) (Ledger.free_lt hF) hfl
    have hhead : ∀ f, f ∈ insert F S ↔ f ∈ S ∨ m₁.idle.head? = some f := by
      have hfst := hsm.packed.pmmAllocFrame.1
      rw [hm] at hfst
      obtain ⟨g, l, hl⟩ := List.exists_cons_of_ne_nil
        (List.ne_nil_of_mem (mem_idle.mpr hF))
      rw [hl, List.headD_cons] at hfst
      obtain rfl := Nat.eq_of_mul_eq_mul_right (by decide) hfst
      intro f
      rw [hl, List.head?_cons, Finset.mem_insert, Option.some.injEq, or_comm, eq_comm]
    have hrunm : Kernel.mapStackPage m₁ k = some m' := by
      simp only [Kernel.mapStackPage, hm, stackPage hk, hrun]
    have hrunn' : Kernel.mapStackPage n₁ k = some n' := by
      simp only [Kernel.mapStackPage, hn, stackPage hk, hrunn]
    refine ⟨insert F S, m', n', hrunm, hrunn', h', ha',
      hsm.step hk ?_ hrec hrunm (Or.inl (Finset.mem_insert_self F S)) hhead hnew,
      hsn.step hk ?_ hrecn hrunn' (Or.inl (Finset.mem_insert_self F S)) (by rw [hidle]; exact hhead)
        hnewn⟩
    · exact ⟨hmaps.cr3, fun f hf ↦ hmaps.test f (by simp [hf]), hmaps.present, hmaps.leaf, hmaps.kept,
        hmaps.mem, hmaps.idle⟩
    · exact ⟨hmapsn.cr3, fun f hf ↦ hmapsn.test f (by simp [hf]), hmapsn.present, hmapsn.leaf,
        hmapsn.kept, hmapsn.mem, hmapsn.idle⟩
  · obtain ⟨m', n', hrun, hrunn, h', ha', hmaps, hmapsn⟩ := (h.log (.alloc 0) (.alloc 0)).pagingMap
      (ha.log _) (show 1 ≤ 704 by norm_num) (by norm_num) (by omega) hva (P := 0) ha.zero.1
      (by norm_num) hfl
    rw [Nat.zero_mul] at hrun hrunn
    have hhead : ∀ f, f ∈ S ↔ f ∈ S ∨ m₁.idle.head? = some f := by
      have hnil : m₁.idle = [] :=
        List.length_eq_zero_iff.mp (by rw [length_idle, hnone, Finset.card_empty])
      simp [hnil]
    have hrunm : Kernel.mapStackPage m₁ k = some m' := by
      simp only [Kernel.mapStackPage, hm, stackPage hk, hrun]
    have hrunn' : Kernel.mapStackPage n₁ k = some n' := by
      simp only [Kernel.mapStackPage, hn, stackPage hk, hrunn]
    refine ⟨S, m', n', hrunm, hrunn', h', ha',
      hsm.step hk ?_ hrec hrunm (Or.inr rfl) hhead fun f hf ↦ Or.inl hf,
      hsn.step hk ?_ hrecn hrunn' (Or.inr rfl) (by rw [hidle]; exact hhead) fun f hf ↦ Or.inl hf⟩
    · exact ⟨hmaps.cr3, hmaps.test, hmaps.present, hmaps.leaf, hmaps.kept, hmaps.mem, hmaps.idle⟩
    · exact ⟨hmapsn.cr3, hmapsn.test, hmapsn.present, hmapsn.leaf, hmapsn.kept, hmapsn.mem,
        hmapsn.idle⟩

/-- The four pages. -/
theorem userStack (h : Alike ∅ m n) (ha : Anchored ∅ V m) (hpacked : m.Packed) :
    ∃ (S : Finset ℕ) (m' n' : Machine),
      (List.range USER_STACK_PAGES).foldlM Kernel.mapStackPage m = some m' ∧
      (List.range USER_STACK_PAGES).foldlM Kernel.mapStackPage n = some n' ∧ Alike S m' n' ∧
      Anchored S V m' ∧ Stacked 4 S m m' ∧ Stacked 4 S n n' := by
  have hrun : ∀ k ≤ 4, ∃ (S : Finset ℕ) (m' n' : Machine),
      (List.range k).foldlM Kernel.mapStackPage m = some m' ∧
      (List.range k).foldlM Kernel.mapStackPage n = some n' ∧ Alike S m' n' ∧ Anchored S V m' ∧
      Stacked k S m m' ∧ Stacked k S n n' := by
    intro k hk
    induction k with
    | zero =>
        refine ⟨∅, m, n, rfl, rfl, ?_, ?_, .refl hpacked, .refl (h.packed hpacked)⟩
        · rwa [Finset.coe_empty]
        · rwa [Finset.coe_empty]
    | succ k ih =>
        obtain ⟨S, m₁, n₁, hm, hn, h₁, ha₁, hsm, hsn⟩ := ih (by omega)
        obtain ⟨S', m₂, n₂, hm₂, hn₂, h₂, ha₂, hsm₂, hsn₂⟩ :=
          h₁.mapStackPage ha₁ (by omega) hsm hsn
        refine ⟨S', m₂, n₂, ?_, ?_, h₂, ha₂, hsm₂, hsn₂⟩
        · rw [List.range_succ, List.foldlM_append, hm, Option.bind_eq_bind, Option.bind_some,
            List.foldlM_cons, hm₂]
          rfl
        · rw [List.range_succ, List.foldlM_append, hn, Option.bind_eq_bind, Option.bind_some,
            List.foldlM_cons, hn₂]
          rfl
  exact hrun 4 le_rfl

end Alike

/-! ## The memory half of execve -/

namespace Entered

variable {S : ℕ}

/-- Frames that are free in the new directory have their old bytes. -/
theorem idle (h : Entered B L K m m' a S) (hled : m.Ledger B L K) (hf : m'.frameTest f = false) :
    m.frameTest f = false ∧ m'.mem f = m.mem f := by
  rw [h.test, Bool.or_eq_false_iff, decide_eq_false_iff_not, not_or] at hf
  obtain ⟨⟨hfa, hfS⟩, hfm⟩ := hf
  refine ⟨hfm, h.newDir.mem f hfa hfS fun heq ↦ ?_⟩
  rw [heq, (hled.dir_used hled.loaded).1] at hfm
  cases hfm

/-- What the old spaces hold the new one does not refer to. -/
theorem apart (h : Entered B L K m m' a S) (hled : m.Ledger B L K) (hs : m.Spared L K) (ha : a ∈ m.free)
    {o : Owner} (ho : m.Holds L o f) : f ≠ 0 ∧ f ∉ insert S K ∧ m'.frameTest f = true ∧
      ¬ (m'.pagingSwitchDirectory (a * PAGE_SIZE)).InUse f := by
  have hspace : o.space ≠ a := by
    rintro rfl
    have hL : o.space ∈ L := by cases o <;> exact ho.1
    exact Ledger.free_ne ha (hled.dir_used hL).1 rfl
  have hx : (m'.pagingSwitchDirectory (a * PAGE_SIZE)).Holds (insert a L) o f :=
    (h.holds o f).mpr (Or.inl ho)
  obtain ⟨hused, hK⟩ := h.switch_ledger.used o f hx
  refine ⟨?_, hK, hused, fun hin ↦ ?_⟩
  · rintro rfl
    exact (hs.loose ⟨a, ha⟩).2.2 o ho
  · obtain hK' | ⟨o', ho', hheld⟩ := h.switch_ledger.inUse_cases hin
    · exact hK hK'
    · rw [h.switch_ledger.unique o' o f hheld hx, switch_dir] at ho'
      exact hspace ho'

/-- The old spaces hold what they held. -/
theorem spaceFrames_eq (h : Entered B L K m m' a S) (hled : m.Ledger B L K) (ha : a ∈ m.free)
    (hD : D ∈ L) :
    (m'.pagingSwitchDirectory (a * PAGE_SIZE)).spaceFrames D = m.spaceFrames D := by
  ext f
  rw [mem_spaceFrames (Set.mem_insert_of_mem a hD), mem_spaceFrames hD]
  refine exists_congr fun o ↦ and_congr_right fun ho ↦ (h.holds o f).trans (or_iff_left ?_)
  rintro ⟨rfl, -⟩
  obtain rfl : a = D := ho
  exact Ledger.free_ne ha (hled.dir_used hD).1 rfl

end Entered

/-! ### Which frames the stack gets -/

/-- The directory entries for which the pages of `l` make a table in a new directory,
which has the kernel's entries and the table of the scratch slots. -/
def newTables (m : Machine) (l : List ℕ) : Finset ℕ :=
  (dirsOf l).filter fun d ↦ 1 ≤ d ∧ d < 768 ∨ d ≠ 1022 ∧ m.pde m.dir d % 2 = 0

/-- Frames that `execve` takes before those of the stack: the directory, the table of
the scratch slots where there is none, the pages of the image and their tables. -/
def imageFrames (m : Machine) (B : ℕ) (pages : List ℕ) : ℕ :=
  (1 + if m.pde B 1022 % 2 = 0 then 1 else 0) + (pages.length + (m.newTables pages).card)

open Classical in
/-- The free frames, lowest first, when the image is loaded and the old space is
given back. -/
noncomputable def idleForStack (m : Machine) (B : ℕ) (pages : List ℕ) : List ℕ :=
  (List.range m.totalFrames).filter fun f ↦
    f ∈ m.idle.drop (m.imageFrames B pages) ∨ m.dir ≠ B ∧ f ∈ m.spaceFrames m.dir

/-- The frames of the stack, from the memory before the call. -/
noncomputable def framesForStack (m : Machine) (B : ℕ) (pages : List ℕ) : List ℕ :=
  stackSupply (m.idleForStack B pages) (704 ∈ dirsOf pages) USER_STACK_PAGES

theorem idleForStack_increasing (m : Machine) (B : ℕ) (pages : List ℕ) :
    (m.idleForStack B pages).Pairwise (· < ·) :=
  List.pairwise_lt_range.filter _

theorem mem_idleForStack {pages : List ℕ} : f ∈ m.idleForStack B pages ↔ f < m.totalFrames ∧
    (f ∈ m.idle.drop (m.imageFrames B pages) ∨ m.dir ≠ B ∧ f ∈ m.spaceFrames m.dir) := by
  simp [idleForStack]

/-- The kernel's own directory is not given back. -/
theorem idleForStack_of_dir {pages : List ℕ} (hdir : m.dir = B) :
    m.idleForStack B pages = m.idle.drop (m.imageFrames B pages) := by
  refine (m.idleForStack_increasing B pages).eq_of_mem_iff
    (m.idle_increasing.sublist (List.drop_sublist _ _)) fun f ↦ ?_
  rw [mem_idleForStack]
  constructor
  · exact fun hf ↦ hf.2.resolve_right fun hold ↦ hold.1 hdir
  · exact fun hf ↦ ⟨((mem_free m).mp (mem_idle.mp (List.mem_of_mem_drop hf))).1, Or.inl hf⟩

theorem idle_eq_idleForStack {pages : List ℕ} (hidle : m'.idle = m.idle.drop (m.imageFrames B pages))
    (htotal : m'.totalFrames = m.totalFrames) (htotal' : m₁.totalFrames = m'.totalFrames)
    (htest : ∀ f, m₁.frameTest f = false ↔
      m'.frameTest f = false ∨ m.dir ≠ B ∧ f ∈ m.spaceFrames m.dir) :
    m₁.idle = m.idleForStack B pages := by
  refine idle_eq (m.idleForStack_increasing B pages) fun f ↦ ?_
  rw [mem_idleForStack, ← hidle, mem_idle, mem_free, mem_free, htest, htotal', htotal]
  tauto

/-- The frames for the image, counted before the directory is made. -/
theorem Entered.need {S : ℕ} (h : Entered B L K m m' a S) {l : List ℕ}
    (hl : ∀ v ∈ l, v < 0xFFC00000) :
    (m'.pagingSwitchDirectory (a * PAGE_SIZE)).need l = l.length + (m.newTables l).card := by
  have hslot : (m'.pagingSwitchDirectory (a * PAGE_SIZE)).pde a 1022 % 2 = 1 := by
    rw [h.switch_ledger.shared a (Set.mem_insert a L) 1022 (Or.inr (by norm_num))]
    exact h.slot_entry.1
  rw [Machine.need, missing, newTables, switch_dir]
  congr 2
  refine Finset.filter_congr fun d hd ↦ ?_
  obtain ⟨v, hv, rfl⟩ := List.mem_map.mp (List.mem_toFinset.mp hd)
  have hlt := hl v hv
  rw [Nat.shiftRight_eq_div_pow]
  by_cases huser : 1 ≤ v / 2 ^ 22 ∧ v / 2 ^ 22 < 768
  · rw [h.user_entry huser.1 huser.2]
    exact iff_of_true rfl (Or.inl huser)
  by_cases h2 : v / 2 ^ 22 = 1022
  · rw [h2, hslot]
    simp
  · rw [h.kernel_entry (by rw [KernelEntry]; omega) h2, or_iff_right huser]
    exact (and_iff_right h2).symm

/-- A table that was not there is there when a page needed it. -/
theorem Charges.table_iff {l : List ℕ} (h : Charges m m' l) (hv : m.pde m.dir (v >>> 22) % 2 = 0) :
    m'.pde m'.dir (v >>> 22) % 2 = 1 ↔ v >>> 22 ∈ dirsOf l := by
  have hneed := h.need [v]
  have hdirs : dirsOf (l ++ [v]) = insert (v >>> 22) (dirsOf l) := by
    rw [dirsOf, dirsOf, List.map_append, List.toFinset_append, Finset.union_comm]
    rfl
  rw [need_cons, Machine.need, Machine.need, hdirs, List.length_append, dirsOf, List.map_nil,
    List.toFinset_nil, missing, missing, missing, Finset.filter_insert, Finset.filter_insert,
    Finset.filter_empty, if_pos hv] at hneed
  have hsingle : (insert (v >>> 22) (∅ : Finset ℕ)).card = 1 := Finset.card_singleton _
  rw [List.length_nil, List.length_singleton] at hneed
  by_cases hmem : v >>> 22 ∈ dirsOf l
  · rw [Finset.insert_eq_of_mem (Finset.mem_filter.mpr ⟨hmem, hv⟩)] at hneed
    by_cases hodd : m'.pde m'.dir (v >>> 22) % 2 = 0
    · rw [if_pos hodd, hsingle] at hneed
      omega
    · exact iff_of_true (by omega) hmem
  · rw [Finset.card_insert_of_notMem fun hin ↦ hmem (Finset.mem_filter.mp hin).1] at hneed
    by_cases hodd : m'.pde m'.dir (v >>> 22) % 2 = 0
    · exact iff_of_false (by omega) hmem
    · rw [if_neg hodd, Finset.card_empty] at hneed
      omega

/-- The image took its frames from the lowest up. -/
theorem Entered.loaded_idle {S size entry brk : ℕ} {m₂ : Machine} (h : Entered B L K m m₁ a S)
    (hpacked : m.Packed) (hpages : ∀ v ∈ data.pages base data.ePhnum, v < 0xFFC00000)
    (hload : (m₁.pagingSwitchDirectory (a * PAGE_SIZE)).elfLoad data size = some (entry, brk, m₂))
    (hcharges : Charges (m₁.pagingSwitchDirectory (a * PAGE_SIZE)) m₂
      (data.pages base data.ePhnum)) :
    m₂.Packed ∧ m₂.totalFrames = m.totalFrames ∧
      m₂.idle = m.idle.drop (m.imageFrames B (data.pages base data.ePhnum)) ∧
      (m₂.pde m₂.dir 704 % 2 = 1 ↔ 704 ∈ dirsOf (data.pages base data.ePhnum)) := by
  set l := data.pages base data.ePhnum with hl
  set x := m₁.pagingSwitchDirectory (a * PAGE_SIZE) with hx
  have hnewdraws := pagingNewDirectory_draws h.run
  obtain ⟨hpacked₁, htotal₁, -⟩ := hnewdraws.idle hpacked
  have hpackedx : x.Packed := ⟨hpacked₁.lastAlloc, hpacked₁.below⟩
  have hidlex : x.idle = m.idle.drop (1 + if m.pde B 1022 % 2 = 0 then 1 else 0) :=
    hnewdraws.idle_of_card hpacked h.card
  have hloaddraws := elfLoad_draws hload
  obtain ⟨hpacked₂, htotal₂, -⟩ := hloaddraws.idle hpackedx
  refine ⟨hpacked₂, htotal₂.trans htotal₁, ?_, ?_⟩
  · rw [hloaddraws.idle_of_card hpackedx hcharges.card, hidlex, h.need hpages, List.drop_drop,
      imageFrames]
  · have hindex : pageAddr 704 0 >>> 22 = 704 := (pageAddr_index (by norm_num)).1
    have htable := hcharges.table_iff (v := pageAddr 704 0) (by
      rw [hindex, Entered.switch_dir, h.user_entry (by norm_num) (by norm_num)])
    rwa [hindex] at htable

/-- The old directory, once the image is in the new one. -/
theorem Entered.release {S : ℕ} {m₂ n₂ : Machine} (h : Entered B L K m m₁ a S) (hled : m.Ledger B L K)
    (hs : m.Spared L K) (ha : a ∈ m.free) {l : List ℕ}
    (hlays : Lays {f | (m₁.pagingSwitchDirectory (a * PAGE_SIZE)).frameTest f = true ∧ f ≠ 0} l ν
      (m₁.pagingSwitchDirectory (a * PAGE_SIZE)) m₂)
    (hb : (m₁.pagingSwitchDirectory (a * PAGE_SIZE)).Bare) (hV : ∀ v ∈ V, ν v ≠ none)
    (halike : Alike ∅ m₂ n₂) (hD : D ∈ L) :
    m₂.spaceFrames D = m.spaceFrames D ∧ ∃ m₃ n₃, m₂.pagingFreeDirectory (D * PAGE_SIZE) = some m₃ ∧
      n₂.pagingFreeDirectory (D * PAGE_SIZE) = some n₃ ∧ Alike ∅ m₃ n₃ ∧ Anchored ∅ V m₃ ∧
      Releases D m₂ m₃ ∧ ∀ f, n₃.frameTest f = false → n₃.mem f = n₂.mem f := by
  set x := m₁.pagingSwitchDirectory (a * PAGE_SIZE) with hx
  have hledx : x.Ledger B (insert a L) (insert S K) := h.switch_ledger
  have haL : a ∈ insert a L := Set.mem_insert a L
  have hdir : x.dir = a := Entered.switch_dir
  -- what the old space holds is not touched
  have hkept : ∀ {o f}, m.Holds L o f → m₂.mem f = x.mem f := by
    intro o f ho
    obtain ⟨h0, -, hused, hno⟩ := h.apart hled hs ha ho
    exact hlays.spreads.mem f ⟨hused, h0⟩ hno
  have hdirHeld : m.Holds L (.dir D) D := ⟨hD, rfl⟩
  obtain ⟨-, hDK, hDused, -⟩ := h.apart hled hs ha hdirHeld
  have hheld : ∀ d, 1 ≤ d → d < 768 → x.pde D d % 2 = 1 →
      m.Holds L (.table D d) (x.pde D d / 4096) := by
    intro d h₁ h₂ hp
    have hholds := (h.holds (.table D d) (x.pde D d / 4096)).mp
      ⟨Set.mem_insert_of_mem a hD, h₁, h₂, hp, rfl⟩
    exact hholds.resolve_right fun hboth ↦ Owner.noConfusion hboth.1
  have hpde : ∀ d, m₂.pde D d = x.pde D d := fun d ↦ by rw [pde, hkept hdirHeld, pde]
  have hspace : m₂.spaceFrames D = x.spaceFrames D := by
    rw [spaceFrames, spaceFrames]
    congr 1
    exact Set.iUnion₂_congr fun d hd ↦ tableFrames_congr (hkept hdirHeld) fun hp ↦
      hkept (hheld d hd.1 hd.2 hp)
  have hspace' := hspace.trans (h.spaceFrames_eq hled ha hD)
  have hScratch := h.switch_scratch
  obtain ⟨hodd, hdiv⟩ := hlays.spreads.entry 1022 hScratch.present
  rw [← hlays.spreads.dir] at hodd
  have hs₂ : m₂.Scratch S := ⟨hlays.ready.paged.window, hodd, by
    rw [hlays.spreads.dir, hdiv, hScratch.table], by rw [hlays.spreads.dir]; exact hScratch.ne⟩
  obtain ⟨F, hF⟩ := Option.ne_none_iff_exists'.mp (hb.low 0 (by norm_num))
  have hp0 := (frameAt_eq_some.mp hF).1
  obtain ⟨-, hdiv0⟩ := hlays.spreads.entry 0 hp0
  refine ⟨hspace', halike.pagingFreeDirectory (hlays.anchored hb hV) hs₂ ?_ (hled.lt hD)
    ⟨hlays.spreads.test D hDused, fun heq ↦ hDK (heq ▸ Set.mem_insert S K)⟩ (fun d h₁ h₂ hp ↦ ?_)
    fun f hf hmem ↦ ?_⟩
  · rw [hlays.spreads.dir, hdiv0, hdir]
    have hne := hledx.slot_ne haL (Or.inl rfl) (by norm_num) (hdir ▸ hp0) h.slot_entry.1
    rw [← h.slot_entry.2]
    exact hne.2
  · rw [hpde] at hp ⊢
    obtain ⟨-, hTK, hTused, -⟩ := h.apart hled hs ha (hheld d h₁ h₂ hp)
    exact ⟨hlays.spreads.test _ hTused, fun heq ↦ hTK (heq ▸ Set.mem_insert S K)⟩
  · rw [hspace', mem_spaceFrames hD] at hmem
    obtain ⟨o, -, ho⟩ := hmem
    obtain ⟨h0, -, hused, hno⟩ := h.apart hled hs ha ho
    obtain hzero | hin | hU := hlays.refers hb hV hf
    · exact h0 hzero
    · exact hno hin
    · exact hU ⟨hused, h0⟩

/-- Both sides load the same image; at the end they differ in the bytes of the
stack's frames only, and there as they did at the start. -/
theorem Alike.execSpace (h : Alike ∅ m n) (hm : m.Ledger B L K) (hn : n.Ledger B L K)
    (hsm : m.Spared L K) (hsn : n.Spared L K) (hp : m.Paged) (hpacked : m.Packed)
    (hlow : ∀ t < 1024, m.frameAt 0 t ≠ none)
    {size dir entry brk : ℕ} (hbase : data.headerBase size = some base)
    (hpages : ∀ v ∈ data.pages base data.ePhnum, v < 0xFFC00000)
    (hcopy : ∀ i < data.ePhnum, data.pType i = PT_LOAD → ∀ k < data.pFilesz i,
      data.Owned base (i + 1) ((base + data.pVaddr i) % 2 ^ 32 + k))
    (hreloc : data.relocated base (m.outerView (data.pages base data.ePhnum)) (data.loaded base) = .ok ν)
    (hrun : Kernel.execSpace m data size (B * PAGE_SIZE) (m.dir * PAGE_SIZE) =
      some (.entered dir entry brk, m')) :
    ∃ (S : Finset ℕ) (n' : Machine), Kernel.execSpace n data size (B * PAGE_SIZE)
        (m.dir * PAGE_SIZE) = some (.entered dir entry brk, n') ∧ Alike S m' n' ∧
      Anchored S {v | v ∈ data.pages base data.ePhnum} m' ∧ (S : Set ℕ) = m'.stackFrames ∧
      (∀ f, f ∈ S ↔ f ∈ m.framesForStack B (data.pages base data.ePhnum)) ∧ ∀ f ∈ S,
        ((∀ i < 4096, n'.mem f i = m'.mem f i) ↔ ∀ i < 4096, n.mem f i = m.mem f i) := by
  obtain ⟨m₁, m₂, m₃, hnew, haddr, hload, hentry, hfree, hstack⟩ := Kernel.execSpace_entered.mp hrun
  obtain ⟨a, ha, S₀, n₁, rfl, hem, hen, h₁⟩ := h.pagingNewDirectory hm hn hsm hsn hnew haddr
  have hb := hem.bare hm hsm hp ha hlow
  have h₁' : Alike ∅ (m₁.pagingSwitchDirectory (a * PAGE_SIZE))
      (n₁.pagingSwitchDirectory (a * PAGE_SIZE)) :=
    ⟨rfl, h₁.totalFrames, h₁.lastAlloc, h₁.test, h₁.mem⟩
  have hU : ∀ f ∈ {f | (m₁.pagingSwitchDirectory (a * PAGE_SIZE)).frameTest f = true ∧ f ≠ 0},
      (m₁.pagingSwitchDirectory (a * PAGE_SIZE)).frameTest f = true ∧ f ≠ 0 := fun f hf ↦ hf
  obtain ⟨hlays, hdom, n₂, hloadn, h₂, hlaysn⟩ := h₁'.elfLoad hb.ready hU hbase hpages hcopy
    (hem.backs hm ha _) (fun x hx ↦ by
      obtain ⟨b, hb⟩ := Option.ne_none_iff_exists'.mp hx
      exact (outerView_eq_some hb).2.2.1) hreloc hload hentry
  -- every page of the image has bytes
  have hV : ∀ v ∈ {v | v ∈ data.pages base data.ePhnum}, ν v ≠ none := by
    intro v hv
    obtain ⟨i, hi, hseg⟩ := List.mem_flatMap.mp hv
    obtain ⟨hload, hstart, hstop, -⟩ := Image.mem_segPages.mp hseg
    exact hdom v (Image.placed_ne_none ⟨i, List.mem_range.mp hi, hload, hstart, hstop⟩)
  obtain ⟨hpacked₂, htotal₂, hidle₂, htable₂⟩ :=
    hem.loaded_idle hpacked hpages hload hlays.charges
  -- the old directory
  obtain ⟨n₃, hfreen, h₃, ha₃, hpacked₃, htotal₃, hpde₃, htest₃, hsame⟩ : ∃ n₃,
      (if m.dir * PAGE_SIZE ≠ B * PAGE_SIZE then n₂.pagingFreeDirectory (m.dir * PAGE_SIZE)
        else some n₂) = some n₃ ∧ Alike ∅ m₃ n₃ ∧
      Anchored ∅ {v | v ∈ data.pages base data.ePhnum} m₃ ∧ m₃.Packed ∧
      m₃.totalFrames = m₂.totalFrames ∧ m₃.pde m₃.dir 704 = m₂.pde m₂.dir 704 ∧
      (∀ f, m₃.frameTest f = false ↔
        m₂.frameTest f = false ∨ m.dir ≠ B ∧ f ∈ m.spaceFrames m.dir) ∧
      ∀ f, m₃.frameTest f = false → m₃.mem f = m₂.mem f ∧ n₃.mem f = n₂.mem f := by
    by_cases hB : m.dir = B
    · rw [if_neg (by rw [hB]; exact not_not_intro rfl), Option.some.injEq] at hfree
      subst hfree
      exact ⟨n₂, if_neg (by rw [hB]; exact not_not_intro rfl), h₂, hlays.anchored hb hV, hpacked₂, rfl,
        rfl, fun f ↦ by simp [hB], fun f _ ↦ ⟨rfl, rfl⟩⟩
    · have hBs : m.dir * PAGE_SIZE ≠ B * PAGE_SIZE := fun heq ↦
        hB (Nat.eq_of_mul_eq_mul_right (by decide) heq)
      obtain ⟨hspace, m', n', hrunm, hrunn, h', ha', hrel, hidlen⟩ :=
        hem.release hm hsm ha hlays hb hV h₂ hm.loaded
      rw [if_pos hBs, hrunm, Option.some.injEq] at hfree
      subst hfree
      refine ⟨n', by rw [if_pos hBs, hrunn], h', ha', hrel.packed hpacked₂, hrel.totalFrames,
        hrel.pde 704, fun f ↦ ?_, fun f hf ↦ ⟨hrel.idle f hf, hidlen f ((h'.test f).trans hf)⟩⟩
      rw [← Bool.not_eq_true, hrel.test, hspace, ← Bool.not_eq_true, not_and_or, not_not]
      exact or_congr_right (and_iff_right hB).symm
  have hidle₃ := idle_eq_idleForStack hidle₂ htotal₂ htotal₃ htest₃
  obtain ⟨S, m'', n', hstackm, hstackn, h', ha', hSm, hSn⟩ := h₃.userStack ha₃ hpacked₃
  rw [hstack, Option.some.injEq] at hstackm
  subst hstackm
  have h0S : 0 ∉ S := by
    intro h0
    have := (hSm.fresh 0 h0).1
    rw [ha₃.zero.1] at this
    exact nomatch this
  refine ⟨S, n', Kernel.execSpace_entered.mpr ⟨n₁, n₂, n₃, hen.run, haddr, hloadn, hentry, hfreen,
    hstackn⟩, h', ha', hSm.eq_stackFrames h0S, fun f ↦ ?_, fun f hf ↦ ?_⟩
  · have htable₃ : m₃.pde m₃.dir 704 % 2 = 1 ↔ 704 ∈ dirsOf (data.pages base data.ePhnum) := by
      rw [hpde₃, htable₂]
    rw [hSm.handed, hidle₃, framesForStack, stackSupply_congr htable₃, USER_STACK_PAGES]
  · obtain ⟨hf₃, hfm⟩ := hSm.fresh f hf
    obtain ⟨-, hfn⟩ := hSn.fresh f hf
    obtain ⟨hm₃, hn₃⟩ := hsame f hf₃
    rw [hfm, hfn, hm₃, hn₃]
    by_cases hf₂ : m₂.frameTest f = true
    · -- a frame of the old space was in use, and is equal on both sides
      obtain ⟨-, hmem⟩ := ((htest₃ f).mp hf₃).resolve_left (by simp [hf₂])
      obtain ⟨o, -, hold⟩ := (mem_spaceFrames hm.loaded).mp hmem
      exact iff_of_true (h₂.mem f hf₂ (Set.notMem_empty f))
        (h.mem f (hm.used o f hold).1 (Set.notMem_empty f))
    · have hidle : m₂.frameTest f = false := by simpa using hf₂
      have hidlen : n₂.frameTest f = false := (h₂.test f).trans hidle
      have hmm := (hem.idle hm (hlays.spreads.free hidle)).2
      have hnn := (hen.idle hn (hlaysn.spreads.free hidlen)).2
      rw [hlays.spreads.idle f hidle, hlaysn.spreads.idle f hidlen]
      rw [show (m₁.pagingSwitchDirectory (a * PAGE_SIZE)).mem f = m₁.mem f from rfl,
        show (n₁.pagingSwitchDirectory (a * PAGE_SIZE)).mem f = n₁.mem f from rfl, hmm, hnn]

end Machine

end EclipseOS
