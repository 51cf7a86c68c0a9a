import Mathlib.Data.Nat.Bitwise
import EclipseOS.Frames

/-!
# Directories and tables

With a recursive directory loaded, the windows of `paging.c` reach exactly the
words they are named after, and `paging_map` is an allocation at most and two
stores.
-/

namespace EclipseOS

open LittleEndian

theorem or_low_div {w u : ℕ} (hu : u < 4096) : (w ||| u) / 4096 = w / 4096 := by
  have h := Nat.or_div_two_pow (a := w) (b := u) (n := 12)
  norm_num [Nat.div_eq_of_lt hu] at h
  exact h

theorem or_even_mod {w u : ℕ} (hu : u % 2 = 0) : (w ||| u) % 2 = w % 2 := by
  have h := Nat.or_mod_two_pow (a := w) (b := u) (n := 1)
  rw [pow_one, hu] at h
  simpa using h

theorem and_user_cases (flags : ℕ) : flags &&& PAGE_USER = 0 ∨ flags &&& PAGE_USER = 4 := by
  rw [Nat.and_comm, show PAGE_USER = 2 ^ 2 from rfl, Nat.two_pow_and]
  cases flags.testBit 2 <;> simp

/-- The test for an entry that is present and for user code. -/
theorem and_need_iff (w : ℕ) : w &&& (PAGE_PRESENT ||| PAGE_USER) = PAGE_PRESENT ||| PAGE_USER ↔
    w % 2 = 1 ∧ w &&& PAGE_USER ≠ 0 := by
  rw [Nat.and_or_distrib_left, PAGE_PRESENT, and_one_eq]
  rcases Nat.mod_two_eq_zero_or_one w with h₁ | h₁ <;>
    rcases and_user_cases w with h₂ | h₂ <;> rw [h₁, h₂] <;> decide

/-- Directory index and table index of a page. -/
theorem pageAddr_index {d t : ℕ} (ht : t < 1024) :
    pageAddr d t >>> 22 = d ∧ (pageAddr d t >>> 12) &&& 0x3FF = t := by
  simp only [and_index_mask, Nat.shiftRight_eq_div_pow, pageAddr]
  omega

@[simp] theorem word_zero (i : ℕ) : word (fun _ ↦ 0) i = 0 := by
  simp [word, joinBytes]

namespace Machine

variable {m m₁ : Machine} {d d' t t' i o F P D f g w va phys flags : ℕ}

theorem word_setWord (m : Machine) (f i w g j : ℕ) : word ((m.setWord f i w).mem g) j =
    if g = f ∧ j = i then w % 2 ^ 32 else word (m.mem g) j := by
  by_cases hg : g = f
  · subst hg
    by_cases hj : j = i
    · subst hj
      simp [word_putWord_self]
    · simp [hj, word_putWord_of_ne _ _ hj]
  · simp [hg]

theorem setWord_self (m : Machine) (f i : ℕ) : m.setWord f i (word (m.mem f) i) = m := by
  rw [setWord, putWord_word, setFrame_eq_self]

@[simp] theorem setWord_totalFrames (m : Machine) (f i w : ℕ) :
    (m.setWord f i w).totalFrames = m.totalFrames := rfl
@[simp] theorem setWord_lastAlloc (m : Machine) (f i w : ℕ) :
    (m.setWord f i w).lastAlloc = m.lastAlloc := rfl
@[simp] theorem setWord_calls (m : Machine) (f i w : ℕ) : (m.setWord f i w).calls = m.calls := rfl
@[simp] theorem setWord_frameTest (m : Machine) (f i w j : ℕ) :
    (m.setWord f i w).frameTest j = m.frameTest j := rfl
@[simp] theorem setWord_free (m : Machine) (f i w : ℕ) : (m.setWord f i w).free = m.free := rfl

@[simp] theorem pmmAllocFrame_mem (m : Machine) : m.pmmAllocFrame.2.mem = m.mem := by
  simp only [pmmAllocFrame]
  split <;> rfl

@[simp] theorem pmmAllocFrame_cr3 (m : Machine) : m.pmmAllocFrame.2.cr3 = m.cr3 := by
  simp only [pmmAllocFrame]
  split <;> rfl

@[simp] theorem pmmAllocFrame_dir (m : Machine) : m.pmmAllocFrame.2.dir = m.dir := by
  simp [dir]

/-! ## The recursive window -/

/-- The directory maps itself at its last entry. -/
structure Recursive (m : Machine) : Prop where
  cr3 : m.cr3 = m.dir * 4096
  present : m.pde m.dir 1023 % 2 = 1
  self : m.pde m.dir 1023 / 4096 = m.dir

namespace Recursive

theorem congr (h : m.Recursive) (hcr3 : m₁.cr3 = m.cr3)
    (hword : word (m₁.mem m.dir) 1023 = word (m.mem m.dir) 1023) : m₁.Recursive := by
  have hdir : m₁.dir = m.dir := by rw [dir, hcr3, dir]
  exact ⟨by rw [hdir, hcr3, h.cr3], by rw [hdir, pde, hword]; exact h.present,
    by rw [hdir, pde, hword]; exact h.self⟩

theorem setFrame (h : m.Recursive) (hf : f ≠ m.dir) (p : Page) : (m.setFrame f p).Recursive :=
  h.congr rfl (by rw [setFrame_mem_of_ne _ hf.symm])

theorem setWord (h : m.Recursive) (hne : f ≠ m.dir ∨ i ≠ 1023) (w : ℕ) :
    (m.setWord f i w).Recursive := by
  refine h.congr rfl ?_
  rw [word_setWord, if_neg]
  rintro ⟨h₁, h₂⟩
  exact hne.elim (fun hf ↦ hf h₁.symm) fun hi ↦ hi h₂.symm

theorem frameAt_pd (h : m.Recursive) : m.frameAt 1023 1023 = some m.dir := by
  rw [frameAt_eq_some]
  refine ⟨h.present, ?_, ?_⟩ <;> rw [pte, h.self]
  · exact h.present
  · exact h.self

theorem frameAt_pt (h : m.Recursive) (hp : m.pde m.dir d % 2 = 1) :
    m.frameAt 1023 d = some (m.pde m.dir d / 4096) := by
  rw [frameAt_eq_some, pte, h.self]
  exact ⟨h.present, hp, rfl⟩

theorem load_pd (h : m.Recursive) (hd : d < 1024) :
    m.load32 (pdVirt d) = some (m.pde m.dir d) := by
  rw [pdVirt_eq, load32_page (by norm_num) (by norm_num) hd h.frameAt_pd, pde]

theorem store_pd (h : m.Recursive) (hd : d < 1024) (w : ℕ) :
    m.store32 (pdVirt d) w = some (m.setWord m.dir d w) := by
  rw [pdVirt_eq, store32_page (by norm_num) (by norm_num) hd h.frameAt_pd]

theorem load_pt (h : m.Recursive) (hd : d < 1024) (ht : t < 1024) (hp : m.pde m.dir d % 2 = 1) :
    m.load32 (ptVirt d t) = some (m.pte m.dir d t) := by
  rw [ptVirt_eq, load32_page (by norm_num) hd ht (h.frameAt_pt hp), pte]

theorem store_pt (h : m.Recursive) (hd : d < 1024) (ht : t < 1024) (hp : m.pde m.dir d % 2 = 1)
    (w : ℕ) : m.store32 (ptVirt d t) w = some (m.setWord (m.pde m.dir d / 4096) t w) := by
  rw [ptVirt_eq, store32_page (by norm_num) hd ht (h.frameAt_pt hp)]

end Recursive

/-! ## paging_map -/

/-- A cleared frame as table `d` of the loaded directory. -/
def withTable (m : Machine) (d F : ℕ) : Machine :=
  (m.setWord m.dir d (F * 4096 + 3)).setFrame F (splice (m.mem F) 0 4096 fun _ ↦ 0)

/-- Page `(d, t)` of the loaded directory mapped to frame `P`. -/
def withPage (m : Machine) (d t P flags : ℕ) : Machine :=
  (m.setWord m.dir d (m.pde m.dir d ||| (flags &&& PAGE_USER))).setWord
    (m.pde m.dir d / 4096) t (P * 4096 + (flags ||| 1))

theorem Allocs.withTable (d : ℕ) (hF : F ∈ m.free) (h0 : F ≠ 0) :
    Allocs m ((m.withAlloc F).withTable d F) {F} := by
  have h := Allocs.alloc hF h0
  exact ⟨h.sub, h.test, h.totalFrames, h.lastAlloc, h.calls⟩

theorem pagingEnsureTable_present (h : m.Recursive) (hd : d < 1024) (hp : m.pde m.dir d % 2 = 1) :
    m.pagingEnsureTable d = some m := by
  simp [pagingEnsureTable, h.load_pd hd, PAGE_PRESENT, hp]

theorem pagingEnsureTable_absent (h : m.Recursive) (hd : d < 1023) (hp : m.pde m.dir d % 2 = 0)
    (halloc : m.pmmAllocFrame = (F * PAGE_SIZE, m₁)) (hF : F < 2 ^ 20) (hdir : F ≠ m.dir) :
    m.pagingEnsureTable d = some (m₁.withTable d F) := by
  have hm₁ : m₁ = m.pmmAllocFrame.2 := by rw [halloc]
  have hrec : m₁.Recursive := h.congr (by simp [hm₁]) (by simp [hm₁])
  have hdir₁ : m₁.dir = m.dir := by simp [hm₁]
  set m₂ := m₁.setWord m₁.dir d (F * 4096 + 3) with hm₂
  have hrec₂ : m₂.Recursive := hrec.setWord (Or.inr (by omega)) _
  have hword : m₂.pde m₂.dir d = F * 4096 + 3 := by
    rw [pde, hm₂, setWord_dir, word_setWord, if_pos ⟨rfl, rfl⟩]
    omega
  have hat : m₂.frameAt 1023 d = some F := by
    rw [hrec₂.frameAt_pt (by rw [hword]; omega), hword]
    congr 1
    omega
  have hset : m₂.memset (ptVirt d 0) 0 PAGE_SIZE =
      some (m₂.setFrame F (splice (m₂.mem F) 0 4096 fun _ ↦ 0)) := by
    have := memset_page (m := m₂) (d := 1023) (t := d) (o := 0) (n := 4096) (by norm_num)
      (by omega) (by norm_num) hat (by rw [hm₂, setWord_dir, hdir₁]; exact hdir)
      (by rw [hrec₂.self, hm₂, setWord_dir, hdir₁]; exact hdir) 0
    simpa [ptVirt_eq, PAGE_SIZE] using this
  have hmem : m₂.mem F = m₁.mem F := by
    rw [hm₂, setWord_mem_of_ne _ _ (by rw [hdir₁]; exact hdir)]
  have hflags : F * PAGE_SIZE ||| PAGE_PRESENT ||| PAGE_WRITE = F * 4096 + 3 := by
    rw [Nat.or_assoc, PAGE_SIZE, frame_or_flags F (by decide)]
    rfl
  simp only [pagingEnsureTable, h.load_pd (show d < 1024 by omega), Option.bind_eq_bind,
    Option.bind_some, PAGE_PRESENT, and_one_eq, hp, if_true, halloc]
  rw [show F * PAGE_SIZE ||| 1 ||| PAGE_WRITE = F * 4096 + 3 from hflags,
    hrec.store_pd (by omega), Option.bind_some, ← hm₂, hset, withTable, ← hm₂, hmem]

theorem Recursive.log (h : m.Recursive) (c : Call) : (m.log c).Recursive := h.congr rfl rfl

theorem Recursive.withTable (h : m.Recursive) (hd : d < 1023) (hF : F ≠ m.dir) :
    (m.withTable d F).Recursive :=
  (h.setWord (Or.inr (by omega)) _).setFrame hF _

theorem mask_frame (hP : P < 2 ^ 20) : P * PAGE_SIZE &&& PAGE_MASK = P * 4096 := by
  rw [PAGE_SIZE, PAGE_MASK, and_page_mask (by omega), Nat.mul_div_cancel _ (by norm_num)]

/-- The two stores of `paging_map`. -/
theorem store_page (h : m.Recursive) (hd : d < 1023) (ht : t < 1024)
    (hp : m.pde m.dir d % 2 = 1) (hphys : phys &&& PAGE_MASK = P * 4096) (hfl : flags < 4096) : (do
      let pde ← m.load32 (pdVirt d)
      let m ← m.store32 (pdVirt d) (pde ||| (flags &&& PAGE_USER))
      m.store32 (ptVirt d t) ((phys &&& PAGE_MASK) ||| flags ||| PAGE_PRESENT)) =
      some (m.withPage d t P flags) := by
  set w := m.pde m.dir d ||| (flags &&& PAGE_USER) with hw
  obtain ⟨hdiv, hmod, hlt⟩ : w / 4096 = m.pde m.dir d / 4096 ∧ w % 2 = 1 ∧ w < 2 ^ 32 := by
    have hpde := m.pde_lt m.dir d
    obtain hu | hu := and_user_cases flags <;> rw [hw, hu]
    · exact ⟨by simp, by simpa using hp, by simpa using hpde⟩
    · exact ⟨or_low_div (by norm_num), by rw [or_even_mod (by norm_num), hp],
        Nat.or_lt_two_pow hpde (by norm_num)⟩
  have hrec : (m.setWord m.dir d w).Recursive := h.setWord (Or.inr (by omega)) _
  have hpde : (m.setWord m.dir d w).pde (m.setWord m.dir d w).dir d = w := by
    rw [setWord_dir, pde, word_setWord, if_pos ⟨rfl, rfl⟩, Nat.mod_eq_of_lt hlt]
  rw [h.load_pd (by omega), Option.bind_eq_bind, Option.bind_some, ← hw, h.store_pd (by omega),
    Option.bind_eq_bind, Option.bind_some, hrec.store_pt (by omega) ht (by rw [hpde, hmod]), hpde,
    hdiv, hphys, Nat.or_assoc, PAGE_PRESENT,
    frame_or_flags P (or_lt_page hfl (by norm_num))]
  rfl

theorem pagingMap_of_present (h : m.Recursive) (hd : d < 1023) (ht : t < 1024)
    (hva : va >>> 22 = d ∧ (va >>> 12) &&& 0x3FF = t)
    (hp : m.pde m.dir d % 2 = 1) (hphys : phys &&& PAGE_MASK = P * 4096) (hfl : flags < 4096) :
    m.pagingMap va phys flags = some ((m.log (.map va phys flags)).withPage d t P flags) := by
  obtain ⟨hdi, hti⟩ := hva
  have hrec := h.log (.map va phys flags)
  have hstore := store_page hrec hd ht hp hphys hfl
  simp only [pagingMap, hdi, hti]
  rw [pagingEnsureTable_present hrec (by omega) hp, Option.bind_eq_bind, Option.bind_some]
  exact hstore

theorem pagingMap_present (h : m.Recursive) (hd : d < 1023) (ht : t < 1024)
    (hva : va >>> 22 = d ∧ (va >>> 12) &&& 0x3FF = t)
    (hp : m.pde m.dir d % 2 = 1) (hP : P < 2 ^ 20) (hfl : flags < 4096) :
    m.pagingMap va (P * PAGE_SIZE) flags =
      some ((m.log (.map va (P * PAGE_SIZE) flags)).withPage d t P flags) :=
  pagingMap_of_present h hd ht hva hp (mask_frame hP) hfl

theorem withTable_pde (m : Machine) (hF : F ≠ m.dir) (hlt : F < 2 ^ 20) :
    (m.withTable d F).pde (m.withTable d F).dir d = F * 4096 + 3 := by
  rw [show (m.withTable d F).dir = m.dir from rfl, pde, withTable, setFrame_mem_of_ne _ hF.symm,
    word_setWord, if_pos ⟨rfl, rfl⟩]
  omega

theorem pagingMap_of_absent (h : m.Recursive) (hd : d < 1023) (ht : t < 1024)
    (hva : va >>> 22 = d ∧ (va >>> 12) &&& 0x3FF = t) (hp : m.pde m.dir d % 2 = 0)
    (halloc : (m.log (.map va phys flags)).pmmAllocFrame = (F * PAGE_SIZE, m₁))
    (hF : F < 2 ^ 20) (hdir : F ≠ m.dir) (hphys : phys &&& PAGE_MASK = P * 4096)
    (hfl : flags < 4096) :
    m.pagingMap va phys flags = some ((m₁.withTable d F).withPage d t P flags) := by
  obtain ⟨hdi, hti⟩ := hva
  have hrec := h.log (.map va phys flags)
  have hm₁ : m₁ = (m.log (.map va phys flags)).pmmAllocFrame.2 := by
    rw [halloc]
  have hdir₁ : m₁.dir = m.dir := by simp [hm₁]
  have hrec₁ : m₁.Recursive := hrec.congr (by simp [hm₁]) (by simp [hm₁])
  have hpde := m₁.withTable_pde (d := d) (hdir₁ ▸ hdir) hF
  have hstore := store_page (hrec₁.withTable hd (hdir₁ ▸ hdir)) hd ht (by rw [hpde]; omega) hphys hfl
  simp only [pagingMap, hdi, hti]
  rw [pagingEnsureTable_absent hrec hd hp halloc hF hdir, Option.bind_eq_bind, Option.bind_some]
  exact hstore

theorem pagingMap_absent (h : m.Recursive) (hd : d < 1023) (ht : t < 1024)
    (hva : va >>> 22 = d ∧ (va >>> 12) &&& 0x3FF = t) (hp : m.pde m.dir d % 2 = 0)
    (halloc : (m.log (.map va (P * PAGE_SIZE) flags)).pmmAllocFrame = (F * PAGE_SIZE, m₁))
    (hF : F < 2 ^ 20) (hdir : F ≠ m.dir) (hP : P < 2 ^ 20) (hfl : flags < 4096) :
    m.pagingMap va (P * PAGE_SIZE) flags =
      some ((m₁.withTable d F).withPage d t P flags) :=
  pagingMap_of_absent h hd ht hva hp halloc hF hdir (mask_frame hP) hfl

theorem withPage_kernel (m : Machine) (d t P : ℕ) {flags : ℕ} (hfl : flags &&& PAGE_USER = 0) :
    m.withPage d t P flags =
      m.setWord (m.pde m.dir d / 4096) t (P * 4096 + (flags ||| 1)) := by
  rw [withPage, hfl, Nat.or_zero, pde, setWord_self]

/-! ## Reading and clearing an entry -/

theorem pagingUnmap_absent (h : m.Recursive) (hd : d < 1024) (hva : va >>> 22 = d)
    (hp : m.pde m.dir d % 2 = 0) : m.pagingUnmap va = some (m.log (.unmap va)) := by
  have hload := (h.log (.unmap va)).load_pd hd
  simp only [pagingUnmap, hva, hload, Option.bind_eq_bind, Option.bind_some, PAGE_PRESENT, and_one_eq]
  exact if_pos hp

theorem pagingUnmap_present (h : m.Recursive) (hd : d < 1024) (ht : t < 1024)
    (hva : va >>> 22 = d ∧ (va >>> 12) &&& 0x3FF = t) (hp : m.pde m.dir d % 2 = 1) :
    m.pagingUnmap va = some ((m.log (.unmap va)).setWord (m.pde m.dir d / 4096) t 0) := by
  obtain ⟨hdi, hti⟩ := hva
  have hrec := h.log (.unmap va)
  have hload := hrec.load_pd hd
  simp only [pagingUnmap, hdi, hti, hload, Option.bind_eq_bind, Option.bind_some, PAGE_PRESENT,
    and_one_eq]
  rw [if_neg (by simpa [pde] using hp), hrec.store_pt hd ht hp]
  rfl

theorem pagingVirtToPhys_addr (h : m.Recursive) (hd : d < 1024) (ht : t < 1024) (ho : o < 4096) :
    m.pagingVirtToPhys (pageAddr d t + o) =
      some ((m.frameAt d t).elim NOT_MAPPED fun F ↦ F * 4096 + o) := by
  obtain ⟨hdi, -, hti, hoff⟩ := pageAddr_split hd ht ho
  simp only [pagingVirtToPhys, hdi, hti, h.load_pd hd, Option.bind_eq_bind, Option.bind_some,
    PAGE_PRESENT, and_one_eq, hoff, frameAt, leaf]
  by_cases hp : m.pde m.dir d % 2 = 0
  · simp [hp]
  · have hmask := and_page_mask (m.pte_lt m.dir d t)
    have hor := frame_or_flags (m.pte m.dir d t / 4096) ho
    rw [h.load_pt hd ht (by omega)]
    by_cases hq : m.pte m.dir d t % 2 = 0
    · simp [hp, hq]
    · simp [hp, hq, PAGE_MASK, hmask, hor]

theorem pagingVirtToPhys_page (h : m.Recursive) (hd : d < 1024) (ht : t < 1024) :
    m.pagingVirtToPhys (pageAddr d t) =
      some ((m.frameAt d t).elim NOT_MAPPED fun F ↦ F * 4096) := by
  have haddr := pagingVirtToPhys_addr h hd ht (show 0 < 4096 by norm_num)
  simp only [Nat.add_zero] at haddr
  exact haddr

end Machine

end EclipseOS
