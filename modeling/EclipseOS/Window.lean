import EclipseOS.Paging

/-!
# Page-aligned accesses

`frameAt d t` is the frame behind page `(d, t)` of the loaded directory.  All
accesses of the paging code are to such pages: the recursive entry makes page
`(1023, 1023)` the directory itself and page `(1023, d)` its table `d`.
-/

namespace EclipseOS

open LittleEndian

def pageAddr (d t : ℕ) : ℕ := d * 2 ^ 22 + t * 2 ^ 12

theorem tmp_virt_eq : TMP_VIRT = pageAddr 1022 1023 := by decide

theorem tmp2_virt_eq : TMP2_VIRT = pageAddr 1022 1022 := by decide

theorem pdVirt_eq (d : ℕ) : pdVirt d = pageAddr 1023 1023 + 4 * d := by
  simp only [pdVirt, pageAddr]
  omega

theorem ptVirt_eq (d t : ℕ) : ptVirt d t = pageAddr 1023 d + 4 * t := by
  simp only [ptVirt, pageAddr, Nat.shiftLeft_eq]
  omega

/-- Directory index, table index and offset of an address. -/
theorem pageAddr_split {d t o : ℕ} (hd : d < 1024) (ht : t < 1024) (ho : o < 4096) :
    (pageAddr d t + o) >>> 22 = d ∧ ((pageAddr d t + o) >>> 22) &&& 0x3FF = d ∧
      ((pageAddr d t + o) >>> 12) &&& 0x3FF = t ∧ (pageAddr d t + o) &&& 0xFFF = o := by
  simp only [and_index_mask, and_offset_mask, Nat.shiftRight_eq_div_pow, pageAddr]
  omega

/-- Every 32-bit address is one of a page. -/
theorem exists_pageAddr {va : ℕ} (h : va < 2 ^ 32) :
    ∃ d t o, d < 1024 ∧ t < 1024 ∧ o < 4096 ∧ va = pageAddr d t + o :=
  ⟨va / 2 ^ 22, va / 2 ^ 12 % 1024, va % 4096, by omega, by omega, by omega, by
    simp only [pageAddr]; omega⟩

namespace Machine

variable {m m' : Machine} {d t d' t' i o n w D F P : ℕ}

/-! ## The walk -/

/-- Frame of the loaded directory. -/
def dir (m : Machine) : ℕ := m.cr3 / 4096

/-- Entry `d` of the directory in frame `D`. -/
def pde (m : Machine) (D d : ℕ) : ℕ := word (m.mem D) d

/-- Entry `t` of table `d` of the directory in frame `D`. -/
def pte (m : Machine) (D d t : ℕ) : ℕ := word (m.mem (m.pde D d / 4096)) t

/-- The frame behind page `(d, t)` of the directory in frame `D`, whatever the flags. -/
def leaf (m : Machine) (D d t : ℕ) : Option ℕ :=
  if m.pde D d % 2 = 0 then none
  else if m.pte D d t % 2 = 0 then none
  else some (m.pte D d t / 4096)

/-- The frame behind page `(d, t)` of the loaded directory. -/
def frameAt (m : Machine) (d t : ℕ) : Option ℕ := m.leaf m.dir d t

theorem pde_lt (m : Machine) (D d : ℕ) : m.pde D d < 2 ^ 32 := word_lt _ _

theorem pte_lt (m : Machine) (D d t : ℕ) : m.pte D d t < 2 ^ 32 := word_lt _ _

theorem translate_page (hd : d < 1024) (ht : t < 1024) (ho : o < 4096) :
    m.translate (pageAddr d t + o) = (m.frameAt d t).map fun F ↦ (F, o) := by
  obtain ⟨-, hdi, hti, hoi⟩ := pageAddr_split hd ht ho
  simp only [translate, hdi, hti, hoi, PAGE_PRESENT, and_one_eq, frameAt, leaf, pde, pte, dir]
  by_cases h₁ : word (m.mem (m.cr3 / 4096)) d % 2 = 0
  · simp [h₁]
  · by_cases h₂ : word (m.mem (word (m.mem (m.cr3 / 4096)) d / 4096)) t % 2 = 0 <;> simp [h₁, h₂]

theorem leaf_eq_some : m.leaf D d t = some F ↔
    m.pde D d % 2 = 1 ∧ m.pte D d t % 2 = 1 ∧ m.pte D d t / 4096 = F := by
  simp only [leaf]
  split
  · next h => simp [h]
  · split
    · next h => simp [h]
    · next h₁ h₂ =>
        have h₁' : m.pde D d % 2 = 1 := by omega
        have h₂' : m.pte D d t % 2 = 1 := by omega
        simp [h₁', h₂']

theorem frameAt_eq_some : m.frameAt d t = some F ↔
    m.pde m.dir d % 2 = 1 ∧ m.pte m.dir d t % 2 = 1 ∧ m.pte m.dir d t / 4096 = F :=
  leaf_eq_some

/-- What lies behind a page depends on the directory and one table. -/
theorem leaf_congr (hd : word (m'.mem D) d = word (m.mem D) d)
    (ht : word (m'.mem (m.pde D d / 4096)) t = word (m.mem (m.pde D d / 4096)) t) :
    m'.leaf D d t = m.leaf D d t := by
  have hpde : m'.pde D d = m.pde D d := hd
  have hpte : m'.pte D d t = m.pte D d t := by rw [pte, hpde, ht, pte]
  simp only [leaf, hpde, hpte]

/-- The walk reads the directory and one table. -/
theorem frameAt_congr (hcr3 : m'.cr3 = m.cr3)
    (hd : word (m'.mem m.dir) d = word (m.mem m.dir) d)
    (ht : word (m'.mem (m.pde m.dir d / 4096)) t = word (m.mem (m.pde m.dir d / 4096)) t) :
    m'.frameAt d t = m.frameAt d t := by
  have hdir : m'.dir = m.dir := by rw [dir, hcr3, dir]
  rw [frameAt, hdir, leaf_congr hd ht, frameAt]

/-! ## Accesses to a mapped page -/

/-- Memory with one frame replaced. -/
def setFrame (m : Machine) (f : ℕ) (p : Page) : Machine :=
  { m with mem := Function.update m.mem f p }

/-- Memory with one word of a frame replaced. -/
def setWord (m : Machine) (f i w : ℕ) : Machine := m.setFrame f (putWord (m.mem f) i w)

@[simp] theorem setFrame_cr3 (f : ℕ) (p : Page) : (m.setFrame f p).cr3 = m.cr3 := rfl
@[simp] theorem setFrame_dir (f : ℕ) (p : Page) : (m.setFrame f p).dir = m.dir := rfl
@[simp] theorem setFrame_mem_self (f : ℕ) (p : Page) : (m.setFrame f p).mem f = p := by
  simp [setFrame]
@[simp] theorem setFrame_mem_of_ne {f g : ℕ} (p : Page) (h : g ≠ f) :
    (m.setFrame f p).mem g = m.mem g := by
  simp [setFrame, h]
@[simp] theorem setWord_cr3 (f i w : ℕ) : (m.setWord f i w).cr3 = m.cr3 := rfl
@[simp] theorem setWord_dir (f i w : ℕ) : (m.setWord f i w).dir = m.dir := rfl
@[simp] theorem setWord_mem_self (f i w : ℕ) :
    (m.setWord f i w).mem f = putWord (m.mem f) i w := by
  simp [setWord]
@[simp] theorem setWord_mem_of_ne {f g : ℕ} (i w : ℕ) (h : g ≠ f) :
    (m.setWord f i w).mem g = m.mem g := by
  simp [setWord, h]

theorem load8_page (hd : d < 1024) (ht : t < 1024) (ho : o < 4096)
    (h : m.frameAt d t = some F) : m.load8 (pageAddr d t + o) = some (m.mem F o) := by
  simp [load8, translate_page hd ht ho, h, peek]

theorem store8_page (hd : d < 1024) (ht : t < 1024) (ho : o < 4096)
    (h : m.frameAt d t = some F) (b : UInt8) : m.store8 (pageAddr d t + o) b =
      some (m.setFrame F (Function.update (m.mem F) o b)) := by
  simp [store8, translate_page hd ht ho, h, poke, setFrame]

theorem load32_page (hd : d < 1024) (ht : t < 1024) (hi : i < 1024)
    (h : m.frameAt d t = some F) :
    m.load32 (pageAddr d t + 4 * i) = some (word (m.mem F) i) := by
  have h₀ := load8_page hd ht (o := 4 * i) (by omega) h
  have h₁ := load8_page hd ht (o := 4 * i + 1) (by omega) h
  have h₂ := load8_page hd ht (o := 4 * i + 2) (by omega) h
  have h₃ := load8_page hd ht (o := 4 * i + 3) (by omega) h
  simp only [← Nat.add_assoc] at h₁ h₂ h₃
  simp [load32, h₀, h₁, h₂, h₃, word]

theorem store32_page (hd : d < 1024) (ht : t < 1024) (hi : i < 1024)
    (h : m.frameAt d t = some F) (w : ℕ) :
    m.store32 (pageAddr d t + 4 * i) w = some (m.setWord F i w) := by
  have h₀ := translate_page (m := m) hd ht (o := 4 * i) (by omega)
  have h₁ := translate_page (m := m) hd ht (o := 4 * i + 1) (by omega)
  have h₂ := translate_page (m := m) hd ht (o := 4 * i + 2) (by omega)
  have h₃ := translate_page (m := m) hd ht (o := 4 * i + 3) (by omega)
  simp only [← Nat.add_assoc, h, Option.map_some] at h₀ h₁ h₂ h₃
  simp only [store32, h₀, h₁, h₂, h₃, Option.bind_eq_bind, Option.bind_some, Option.pure_def,
    poke, Function.update_idem, Function.update_self, update_bytes_eq_putWord]
  rfl

/-- An access to a page that is not mapped faults. -/
theorem load32_page_none (hd : d < 1024) (ht : t < 1024) (hi : i < 1024)
    (h : m.frameAt d t = none) : m.load32 (pageAddr d t + 4 * i) = none := by
  simp [load32, load8, translate_page hd ht (o := 4 * i) (by omega), h]

/-- Writes to a frame that the walk does not read leave the page where it is. -/
theorem frameAt_setFrame (hD : F ≠ m.dir) (hT : F ≠ m.pde m.dir d / 4096) (p : Page) :
    (m.setFrame F p).frameAt d t = m.frameAt d t :=
  frameAt_congr rfl (by rw [setFrame_mem_of_ne _ hD.symm]) (by rw [setFrame_mem_of_ne _ hT.symm])

/-! ## Loops over a page -/

/-- A page with `n` bytes from offset `o` on taken from `f`. -/
def splice (p : Page) (o n : ℕ) (f : ℕ → UInt8) : Page := fun x ↦
  if o ≤ x ∧ x < o + n then f x else p x

theorem splice_zero (p : Page) (o : ℕ) (f : ℕ → UInt8) : splice p o 0 f = p := by
  funext x
  simp only [splice]
  split
  · omega
  · rfl

/-- The first byte, then the others. -/
theorem splice_succ (p : Page) (o n : ℕ) (f : ℕ → UInt8) :
    splice (Function.update p o (f o)) (o + 1) n f = splice p o (n + 1) f := by
  funext x
  simp only [splice, Function.update_apply]
  by_cases hx : x = o
  · subst hx
    simp
  · simp only [hx, if_false]
    congr 1
    simp only [eq_iff_iff]
    omega

theorem splice_page (p : Page) (f : ℕ → UInt8) (ho : o < 4096) : splice p 0 4096 f o = f o := by
  rw [splice, if_pos ⟨Nat.zero_le o, by omega⟩]

theorem word_splice_page (p : Page) (f : ℕ → UInt8) (hi : i < 1024) :
    word (splice p 0 4096 f) i = word f i := by
  exact word_congr fun o ho ↦ splice_page p f (by omega)

theorem splice_page_apply (p : Page) (f : ℕ → UInt8) (ho : 4096 ≤ o) :
    splice p 0 4096 f o = p o := by
  rw [splice, if_neg fun h ↦ by omega]

@[simp] theorem setFrame_setFrame (f : ℕ) (p q : Page) :
    (m.setFrame f p).setFrame f q = m.setFrame f q := by
  simp [setFrame]

theorem setFrame_eq_self (f : ℕ) : m.setFrame f (m.mem f) = m := by
  simp [setFrame]

theorem memset_page (hd : d < 1024) (ht : t < 1024) (hon : o + n ≤ 4096)
    (h : m.frameAt d t = some F) (hD : F ≠ m.dir) (hT : F ≠ m.pde m.dir d / 4096) (v : UInt8) :
    m.memset (pageAddr d t + o) v n =
      some (m.setFrame F (splice (m.mem F) o n fun _ ↦ v)) := by
  induction n generalizing m o with
  | zero => simp [memset, splice_zero, setFrame_eq_self]
  | succ n ih =>
      have hstore := store8_page hd ht (o := o) (by omega) h v
      set p := Function.update (m.mem F) o v with hp
      have hat : (m.setFrame F p).frameAt d t = some F := by rw [frameAt_setFrame hD hT, h]
      have hpde : (m.setFrame F p).pde m.dir d = m.pde m.dir d := by
        rw [pde, setFrame_mem_of_ne _ hD.symm, pde]
      have := ih (m := m.setFrame F p) (o := o + 1) (by omega) hat hD (by rw [setFrame_dir, hpde]; exact hT)
      rw [memset, hstore, Option.bind_eq_bind, Option.bind_some, Nat.add_assoc, this,
        setFrame_setFrame, setFrame_mem_self, hp, splice_succ _ _ _ fun _ ↦ v]

/-- `memcpy` from one page into another. -/
theorem memcpy_page (hd : d < 1024) (ht : t < 1024) (hd' : d' < 1024) (ht' : t' < 1024)
    (hon : o + n ≤ 4096) (h : m.frameAt d t = some F) (h' : m.frameAt d' t' = some P)
    (hD : F ≠ m.dir) (hT : F ≠ m.pde m.dir d / 4096) (hT' : F ≠ m.pde m.dir d' / 4096)
    (hP : F ≠ P) :
    m.memcpy (pageAddr d t + o) (pageAddr d' t' + o) n =
      some (m.setFrame F (splice (m.mem F) o n (m.mem P))) := by
  induction n generalizing m o with
  | zero => simp [memcpy, splice_zero, setFrame_eq_self]
  | succ n ih =>
      have hload := load8_page hd' ht' (o := o) (by omega) h'
      have hstore := store8_page hd ht (o := o) (by omega) h (m.mem P o)
      set p := Function.update (m.mem F) o (m.mem P o) with hp
      have hat : (m.setFrame F p).frameAt d t = some F := by rw [frameAt_setFrame hD hT, h]
      have hat' : (m.setFrame F p).frameAt d' t' = some P := by rw [frameAt_setFrame hD hT', h']
      have hpde : ∀ d, (m.setFrame F p).pde m.dir d = m.pde m.dir d := by
        intro d
        rw [pde, setFrame_mem_of_ne _ hD.symm, pde]
      have := ih (m := m.setFrame F p) (o := o + 1) (by omega) hat hat' hD
        (by rw [setFrame_dir, hpde]; exact hT) (by rw [setFrame_dir, hpde]; exact hT')
      rw [memcpy, hload, Option.bind_eq_bind, Option.bind_some, hstore, Option.bind_eq_bind,
        Option.bind_some, Nat.add_assoc, Nat.add_assoc, this, setFrame_setFrame, setFrame_mem_self,
        setFrame_mem_of_ne _ hP.symm, hp, splice_succ]

end Machine

end EclipseOS
