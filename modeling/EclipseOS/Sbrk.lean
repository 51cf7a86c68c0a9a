import EclipseOS.ExitCases
import EclipseOS.HeapPages

/-!
# The break of a process

Sequences of `sys_sbrk` calls that keep the break at or above the one the
process started with.  Every state has the pages from the first break to the
current one for user code, and none besides while no call failed, exactly when
the heap starts above the first 4 MiB, which the kernel maps for itself.
-/

namespace EclipseOS

open LittleEndian

namespace Machine

variable {m m' : Machine} {d t o va : ℕ}

/-- Both levels let user code write. -/
def userWritable (m : Machine) (va : ℕ) : Bool :=
  let need := PAGE_PRESENT ||| PAGE_WRITE ||| PAGE_USER
  let pde := word (m.mem (m.cr3 / 4096)) ((va >>> 22) &&& 0x3FF)
  let pte := word (m.mem (pde / 4096)) ((va >>> 12) &&& 0x3FF)
  pde &&& need == need && pte &&& need == need

theorem and_write_need_iff (w : ℕ) : w &&& (PAGE_PRESENT ||| PAGE_WRITE ||| PAGE_USER) =
    PAGE_PRESENT ||| PAGE_WRITE ||| PAGE_USER ↔ w % 8 = 7 := by
  have hmask : PAGE_PRESENT ||| PAGE_WRITE ||| PAGE_USER = 2 ^ 3 - 1 := by decide
  rw [hmask, Nat.and_two_pow_sub_one_eq_mod]
  norm_num

theorem userAccessible_page (hd : d < 1024) (ht : t < 1024) (ho : o < 4096) :
    m.userAccessible (pageAddr d t + o) = true ↔ m.UserMapped m.dir d t := by
  obtain ⟨-, hdi, hti, -⟩ := pageAddr_split hd ht ho
  simp only [userAccessible, hdi, hti, Bool.and_eq_true, beq_iff_eq, and_need_iff, UserMapped, pde,
    pte, dir, and_assoc]

theorem userWritable_page (hd : d < 1024) (ht : t < 1024) (ho : o < 4096) :
    m.userWritable (pageAddr d t + o) = true ↔ m.Writable d t := by
  obtain ⟨-, hdi, hti, -⟩ := pageAddr_split hd ht ho
  simp only [userWritable, hdi, hti, Bool.and_eq_true, beq_iff_eq, and_write_need_iff, Writable, pde,
    pte, dir]

theorem and_user_ne_zero {w : ℕ} (hw : w % 8 = 7) : w &&& PAGE_USER ≠ 0 := by
  intro h0
  have hmod := Nat.and_mod_two_pow (a := w) (b := PAGE_USER) (n := 3)
  rw [h0, show w % 2 ^ 3 = 7 from hw] at hmod
  exact absurd hmod (by decide)

/-- What user code may write it may reach. -/
theorem Writable.userMapped (h : m.Writable d t) : m.UserMapped m.dir d t := by
  obtain ⟨hpde, hpte⟩ := h
  exact ⟨by omega, and_user_ne_zero hpde, by omega, and_user_ne_zero hpte⟩

theorem UserMapped.leaf (h : m.UserMapped m.dir d t) : m.leaf m.dir d t ≠ none := by
  obtain ⟨hpde, -, hpte, -⟩ := h
  rw [leaf_eq_some.mpr ⟨hpde, hpte, rfl⟩]
  exact Option.some_ne_none _

/-- Below 4 MiB everything is mapped. -/
theorem Low.load8 {K : Set ℕ} (h : Low K m) (hva : va < 2 ^ 22) : m.load8 va ≠ none := by
  obtain ⟨d, t, o, hd, ht, ho, rfl⟩ := exists_pageAddr (show va < 2 ^ 32 by omega)
  obtain rfl : d = 0 := by
    rw [pageAddr] at hva
    omega
  obtain ⟨F, hF, -⟩ := h t ht
  rw [load8_page (by norm_num) ht ho hF]
  exact Option.some_ne_none _

/-- What user code reaches keeps its value if the first 4 MiB and the view do. -/
theorem load8_kept
    (hlow : ∀ t < 1024, ∀ o < 4096, m.UserMapped m.dir 0 t →
      m'.load8 (pageAddr 0 t + o) = m.load8 (pageAddr 0 t + o))
    (hview : m.view va ≠ none → m'.view va = m.view va) (hva : va < 3 * 2 ^ 30)
    (huser : m.userAccessible va = true) : m'.load8 va = m.load8 va := by
  obtain ⟨d, t, o, hd, ht, ho, rfl⟩ := exists_pageAddr (show va < 2 ^ 32 by omega)
  have hmap := (userAccessible_page hd ht ho).mp huser
  rcases Nat.eq_zero_or_pos d with rfl | hpos
  · exact hlow t ht o ho hmap
  · have hd₂ : d < 768 := by
      rw [pageAddr] at hva
      omega
    have haddr := userAddr_pageAddr hpos hd₂ ht ho
    have hsome : m.view (pageAddr d t + o) ≠ none := by
      rw [view_page hpos hd₂ ht ho, Ne, Option.map_eq_none_iff]
      exact hmap.leaf
    have hsame := hview hsome
    rwa [view, view, if_pos haddr, if_pos haddr] at hsame

end Machine

theorem mem_pagesBetween {start stop v : ℕ} (h : start % 4096 = 0) :
    v ∈ pagesBetween start stop ↔ start ≤ v ∧ v < stop ∧ v % 4096 = 0 := by
  simp only [pagesBetween, List.mem_map, List.mem_range]
  constructor
  · rintro ⟨j, hj, rfl⟩
    omega
  · rintro ⟨hle, hlt, hmod⟩
    exact ⟨(v - start) / 4096, by omega, by omega⟩

/-- An aligned address of entries 1 to 767. -/
theorem exists_userPage {v : ℕ} (h₁ : 2 ^ 22 ≤ v) (h₂ : v < 3 * 2 ^ 30) (hv : v % 4096 = 0) :
    ∃ d t, 1 ≤ d ∧ d < 768 ∧ t < 1024 ∧ v = pageAddr d t :=
  ⟨v / 2 ^ 22, v / 2 ^ 12 % 1024, by omega, by omega, by omega, by rw [pageAddr]; omega⟩

theorem le_pageAddr {base d t o : ℕ} (hbase : base % 4096 = 0) (ho : o < 4096)
    (h : base ≤ pageAddr d t + o) : base ≤ pageAddr d t := by
  obtain ⟨c, rfl⟩ := Nat.dvd_of_mod_eq_zero hbase
  have hpage : pageAddr d t = 4096 * (1024 * d + t) := by
    rw [pageAddr]
    omega
  omega

namespace Kernel

variable {k k' k₀ : Kernel} {base B va : ℕ} {L K : Set ℕ} {failed : Bool} {inc : BitVec 32}
variable {r : ℤ} {b : UInt8} {m : Machine}

/-- The break of the current process. -/
def currentBrk (k : Kernel) : ℕ := (k.procTable k.processCurrent).brk

/-- A process whose heap starts at `base` and is empty. -/
structure HeapStart (base B : ℕ) (L K : Set ℕ) (k : Kernel) : Prop where
  ledger : k.machine.Ledger B L K
  zero : k.machine.frameTest 0 = true
  tables : ∀ d, 1 ≤ d → d < 768 → k.machine.pde k.machine.dir d % 2 = 1 →
    k.machine.pde k.machine.dir d % 4 = 3
  low : Machine.Low K k.machine
  brk : k.currentBrk = base
  aligned : base % 4096 = 0
  lt : base < 2 ^ 32
  empty : ∀ d t, 1 ≤ d → d < 768 → t < 1024 → base ≤ pageAddr d t →
    pageAddr d t < USER_BRK_LIMIT → k.machine.frameAt d t = none

/-- The tables that a call asks for are granted. -/
def SbrkFits (k : Kernel) (inc : BitVec 32) : Prop :=
  0 < inc.toInt → k.currentBrk ≤ k.wantedBrk inc → k.wantedBrk inc ≤ USER_BRK_LIMIT →
    Machine.TablesFit ⟨k.machine, false⟩ (pagesBetween (k.currentBrk &&& PAGE_MASK) (k.wantedBrk inc))

/-- The call does not take the break below `base`. -/
def KeepsAbove (k : Kernel) (base : ℕ) (inc : BitVec 32) : Prop :=
  0 ≤ k.currentBrk + inc.toInt → base ≤ k.currentBrk + inc.toInt

/-- Calls of `sbrk` that keep the break above `base`, and stores of the program
between them; with the information whether a call failed. -/
inductive SbrkRun (base : ℕ) (k₀ : Kernel) : Bool → Kernel → Prop
  | start : SbrkRun base k₀ false k₀
  | call {failed : Bool} {k k' : Kernel} {inc : BitVec 32} {r : ℤ} :
      SbrkRun base k₀ failed k → k.SbrkFits inc → k.KeepsAbove base inc →
      k.sysSbrk inc = some (r, k') →
      SbrkRun base k₀ (failed || decide (r = -ENOMEM ∨ r = -EINVAL)) k'
  | store {failed : Bool} {k : Kernel} {va : ℕ} {b : UInt8} {m : Machine} :
      SbrkRun base k₀ failed k → k.machine.view va ≠ none → k.machine.store8 va b = some m →
      SbrkRun base k₀ failed (k.withMachine m)

/-- The page lies between the new break and the old one, rounded up. -/
def Dead (k k' : Kernel) (d t : ℕ) : Prop :=
  k'.currentBrk ≤ pageAddr d t ∧ pageAddr d t + 4096 ≤ (k.currentBrk + 4095) / 4096 * 4096

/-- What a call is to do. -/
structure SbrkRight (k : Kernel) (inc : BitVec 32) (r : ℤ) (k' : Kernel) : Prop where
  moved : (r = int32 k.currentBrk ∧ (k'.currentBrk : ℤ) = k.currentBrk + inc.toInt) ∨
    ((r = -ENOMEM ∨ r = -EINVAL) ∧ k'.currentBrk = k.currentBrk)
  zeroed : ∀ va < USER_LIMIT, k.machine.load8 va = none → k'.machine.load8 va ≠ none →
    k'.machine.load8 va = some 0
  kept : ∀ va, va < k.currentBrk → va < k'.currentBrk → k.machine.userAccessible va = true →
    k'.machine.load8 va = k.machine.load8 va
  unmapped : k'.currentBrk < k.currentBrk → ∀ d t F, d < 1023 → t < 1024 →
    (k'.machine.frameAt d t = some F ↔ k.machine.frameAt d t = some F ∧ ¬ Dead k k' d t)
  freed : k'.currentBrk < k.currentBrk → ∀ f, k'.machine.frameTest f = true ↔
    k.machine.frameTest f = true ∧
      ¬ ∃ d t, d < 1023 ∧ t < 1024 ∧ Dead k k' d t ∧ k.machine.frameAt d t = some f

/-- What holds of a state and of every call from it. -/
structure HeapRight (base : ℕ) (failed : Bool) (k : Kernel) : Prop where
  user : ∀ va, base ≤ va → va < k.currentBrk → k.machine.userWritable va = true
  distinct : ∀ va va' F o o', base ≤ va → va < k.currentBrk → base ≤ va' → va' < k.currentBrk →
    k.machine.translate va = some (F, o) → k.machine.translate va' = some (F, o') →
    va / 4096 = va' / 4096
  exact : failed = false → ∀ va, base ≤ va → va < USER_BRK_LIMIT →
    (k.machine.userAccessible va = true ↔ va / 4096 * 4096 < k.currentBrk)
  calls : ∀ inc, k.SbrkFits inc → k.KeepsAbove base inc →
    ∃ r k', k.sysSbrk inc = some (r, k') ∧ k.SbrkRight inc r k'

/-! ## Above the first 4 MiB -/

/-- What the calls keep. -/
structure HeapInv (base B : ℕ) (L K : Set ℕ) (failed : Bool) (k : Kernel) : Prop where
  heap : k.machine.HeapOf base B L K
  low : Machine.Low K k.machine
  le : base ≤ k.currentBrk
  limit : k.currentBrk ≤ USER_BRK_LIMIT ∨ k.currentBrk = base
  mapped : ∀ va, base ≤ va → va < k.currentBrk → k.machine.view va ≠ none
  exact : failed = false → ∀ va, base ≤ va → va < USER_BRK_LIMIT → k.machine.view va ≠ none →
    va / 4096 * 4096 < k.currentBrk

theorem HeapStart.inv (h : k.HeapStart base B L K) (hbase : 2 ^ 22 ≤ base) :
    k.HeapInv base B L K false := by
  have hbrk := h.brk
  refine ⟨⟨h.ledger, h.zero, h.tables, fun d t F h₁ h₂ ht hb hl hF ↦ ?_⟩, h.low, hbrk.ge,
    Or.inr hbrk, fun va hle hlt ↦ ?_, fun _ va hle hlt hview ↦ ?_⟩
  · have hnone := h.empty d t h₁ h₂ ht hb hl
    rw [Machine.frameAt, hF] at hnone
    cases hnone
  · omega
  · rw [USER_BRK_LIMIT] at hlt
    have haligned := h.aligned
    have huser : UserAddr va := ⟨by omega, by omega⟩
    obtain ⟨d, t, o, h₁, h₂, ht, ho, rfl⟩ := huser.exists_pageAddr
    rw [Machine.view_page h₁ h₂ ht ho] at hview
    have hnone := h.empty d t h₁ h₂ ht (le_pageAddr h.aligned ho hle) (by rw [USER_BRK_LIMIT]; omega)
    rw [Machine.frameAt] at hnone
    rw [hnone] at hview
    exact absurd rfl hview

namespace HeapInv

theorem store (h : k.HeapInv base B L K failed) (hva : k.machine.view va ≠ none)
    (hstore : k.machine.store8 va b = some m) : (k.withMachine m).HeapInv base B L K failed := by
  obtain ⟨m', hrun, hpokes, hview⟩ := Machine.store8_view h.heap.ledger hva b
  obtain rfl := Option.some.inj (hrun.symm.trans hstore)
  have hsome : ∀ x, m'.view x ≠ none ↔ k.machine.view x ≠ none := by
    intro x
    rw [hview, Function.update_apply]
    split
    · next heq => simpa [heq] using hva
    · rfl
  have hplain := (hpokes.plain h.heap.ledger).1 _ h.heap.ledger.loaded
  have hlow := (h.low.keep h.heap.ledger hpokes.cr3 (fun i _ ↦ by rw [Machine.pde, hplain, Machine.pde])
    fun f hf ↦ hpokes.mem f fun d t hheld ↦ (h.heap.ledger.used _ f hheld).2 hf).1
  exact ⟨h.heap.pokes hpokes, hlow, h.le, h.limit, fun x hle hlt ↦ (hsome x).mpr (h.mapped x hle hlt),
    fun hf x hle hlt hx ↦ h.exact hf x hle hlt ((hsome x).mp hx)⟩

theorem mono (h : k.HeapInv base B L K failed) (b : Bool) :
    k.HeapInv base B L K (failed || b) :=
  ⟨h.heap, h.low, h.le, h.limit, h.mapped, fun hf ↦ h.exact (Bool.or_eq_false_iff.mp hf).1⟩

end HeapInv

/-- A call that does nothing. -/
theorem SbrkRight.unchanged
    (hr : (r = int32 k.currentBrk ∧ inc.toInt = 0) ∨ r = -ENOMEM ∨ r = -EINVAL) :
    k.SbrkRight inc r k where
  moved := by
    rcases hr with ⟨hr, hinc⟩ | hr
    · exact Or.inl ⟨hr, by rw [hinc, add_zero]⟩
    · exact Or.inr ⟨hr, rfl⟩
  zeroed _ _ hnone hsome := absurd hnone hsome
  kept _ _ _ _ := rfl
  unmapped hlt := absurd hlt (lt_irrefl _)
  freed hlt := absurd hlt (lt_irrefl _)

theorem toInt_pos_toNat (hinc : 0 < inc.toInt) : (inc.toNat : ℤ) = inc.toInt ∧ inc.toNat < 2 ^ 31 := by
  have hlt := inc.isLt
  rw [BitVec.toInt_eq_toNat_bmod, Int.bmod] at hinc ⊢
  split at hinc
  · next hsmall =>
      rw [if_pos hsmall]
      omega
  · omega

theorem toInt_neg_toNat (hinc : inc.toInt < 0) : (inc.toNat : ℤ) = inc.toInt + 2 ^ 32 ∧
    2 ^ 31 ≤ inc.toNat ∧ inc.toNat < 2 ^ 32 := by
  have hlt := inc.isLt
  rw [BitVec.toInt_eq_toNat_bmod, Int.bmod] at hinc ⊢
  split at hinc
  · omega
  · next hlarge =>
      rw [if_neg hlarge]
      omega

theorem processCurrent_modifyProc (k : Kernel) (i : Fin MAX_PROCS) {f : Process → Process}
    (hf : ∀ p, (f p).state = p.state) : (k.modifyProc i f).processCurrent = k.processCurrent := by
  have hstate : ∀ j, ((k.modifyProc i f).procTable j).state = (k.procTable j).state := by
    intro j
    rw [modifyProc_apply]
    split
    · next heq => rw [heq, hf]
    · rfl
  rw [processCurrent, processCurrent, processOfTask_congr hstate]
  rfl

theorem withBrk_currentBrk (k : Kernel) (m : Machine) (n : ℕ) :
    ((k.withMachine m).modifyProc k.processCurrent fun q ↦ { q with brk := n }).currentBrk = n := by
  rw [currentBrk, processCurrent_modifyProc _ _ (by exact fun _ ↦ rfl)]
  exact congrArg Process.brk (modifyProc_self ..)

/-- The pages a call maps. -/
theorem HeapInv.growPages (h : k.HeapInv base B L K failed) (hbase : 2 ^ 22 ≤ base)
    (haligned : base % 4096 = 0) (hinc : 0 < inc.toInt) (hfits : k.SbrkFits inc)
    (hle : k.currentBrk ≤ k.wantedBrk inc) (hlim : k.wantedBrk inc ≤ USER_BRK_LIMIT) :
    ∃ m b, (pagesBetween (k.currentBrk &&& PAGE_MASK) (k.wantedBrk inc)).foldlM Machine.growPage
        ⟨k.machine, false⟩ = some ⟨m, b⟩ ∧ m.HeapOf base B L K ∧
      Machine.Extended K {v | base ≤ v ∧ v < k.wantedBrk inc} k.machine m ∧
      (b = false → ∀ va, k.currentBrk / 4096 * 4096 ≤ va → va < k.wantedBrk inc →
        m.view va ≠ none) := by
  have hbrk := h.le
  have hmask : k.currentBrk &&& PAGE_MASK = k.currentBrk / 4096 * 4096 := by
    rw [USER_BRK_LIMIT] at hlim
    exact and_page_mask (by omega)
  rw [hmask]
  have hmem : ∀ v, v ∈ pagesBetween (k.currentBrk / 4096 * 4096) (k.wantedBrk inc) ↔
      k.currentBrk / 4096 * 4096 ≤ v ∧ v < k.wantedBrk inc ∧ v % 4096 = 0 := fun v ↦
    mem_pagesBetween (by omega)
  have hstart : base ≤ k.currentBrk / 4096 * 4096 := by omega
  have hrun := hfits hinc hle hlim
  rw [hmask] at hrun
  have hpages : ∀ v ∈ pagesBetween (k.currentBrk / 4096 * 4096) (k.wantedBrk inc),
      ∃ d t, 1 ≤ d ∧ d < 768 ∧ t < 1024 ∧ v = pageAddr d t := by
    intro v hv
    obtain ⟨hge, hlt, hmod⟩ := (hmem v).mp hv
    rw [USER_BRK_LIMIT] at hlim
    exact exists_userPage (by omega) (by omega) hmod
  obtain ⟨m, b, hfold, hheap, hext, hnew⟩ := h.heap.growPages hpages hrun
  refine ⟨m, b, hfold, hheap, hext.mono fun v hv ↦ ?_, fun hb va hge hlt ↦ ?_⟩
  · have := (hmem v).mp hv
    exact ⟨by omega, this.2.1⟩
  · have hpage := hnew hb (va / 4096 * 4096) ((hmem _).mpr ⟨by omega, by omega, by omega⟩)
      (va % 4096) (by omega)
    rwa [show va / 4096 * 4096 + va % 4096 = va by omega] at hpage

/-- A call that asks for more. -/
theorem HeapInv.grow (h : k.HeapInv base B L K failed) (hbase : 2 ^ 22 ≤ base)
    (haligned : base % 4096 = 0) (hinc : 0 < inc.toInt) (hfits : k.SbrkFits inc) :
    ∃ r k', k.sysSbrk inc = some (r, k') ∧ k.SbrkRight inc r k' ∧
      k'.HeapInv base B L K (failed || decide (r = -ENOMEM ∨ r = -EINVAL)) := by
  by_cases hlimit : k.wantedBrk inc < (k.procTable k.processCurrent).brk ∨
      USER_BRK_LIMIT < k.wantedBrk inc
  · exact ⟨-ENOMEM, k, sysSbrk_refused hinc hlimit, SbrkRight.unchanged (Or.inr (Or.inl rfl)),
      h.mono _⟩
  · have hlimit' := hlimit
    rw [not_or, not_lt, not_lt] at hlimit'
    obtain ⟨hle, hlim⟩ := hlimit'
    have hle' : k.currentBrk ≤ k.wantedBrk inc := hle
    obtain ⟨m, b, hfold, hheap, hext, hnew⟩ := h.growPages hbase haligned hinc hfits hle hlim
    have hrun := sysSbrk_grows hinc hlimit hfold
    obtain ⟨hlow, hkeep⟩ := h.low.keep h.heap.ledger hext.cr3 hext.entry hext.kernel
    have hzeroed : ∀ va < USER_LIMIT, k.machine.load8 va = none → m.load8 va ≠ none →
        m.load8 va = some 0 := by
      intro va hva hnone hsome
      rw [USER_LIMIT] at hva
      have haddr : UserAddr va := by
        refine ⟨not_lt.mp fun hlt ↦ h.low.load8 hlt hnone, by omega⟩
      have := (hext.fresh va (by rw [Machine.view, if_pos haddr, hnone])
        (by rwa [Machine.view, if_pos haddr])).1
      rwa [Machine.view, if_pos haddr] at this
    have hkept : ∀ va < k.currentBrk, k.machine.userAccessible va = true →
        m.load8 va = k.machine.load8 va := by
      intro va hva huser
      rw [USER_BRK_LIMIT] at hlim
      exact Machine.load8_kept hkeep (hext.view va) (by omega) huser
    have hsum : (k.wantedBrk inc : ℤ) = k.currentBrk + inc.toInt := by
      obtain ⟨hnat, hlt⟩ := toInt_pos_toNat hinc
      rw [← hnat]
      rw [USER_BRK_LIMIT] at hlim
      rw [wantedBrk] at hle' ⊢
      rw [currentBrk] at hle' ⊢
      omega
    cases b with
    | true =>
        refine ⟨_, _, hrun, ⟨Or.inr ⟨Or.inl rfl, rfl⟩, hzeroed, fun va hva _ ↦ hkept va hva,
          fun hlt ↦ absurd hlt (lt_irrefl _), fun hlt ↦ absurd hlt (lt_irrefl _)⟩, hheap, hlow, h.le,
          h.limit, fun va hva hlt ↦ ?_, fun hf ↦ ?_⟩
        · exact (hext.view va (h.mapped va hva hlt)).symm ▸ h.mapped va hva hlt
        · simp at hf
    | false =>
        have hbrk := withBrk_currentBrk k m (k.wantedBrk inc)
        refine ⟨_, _, hrun, ⟨Or.inl ⟨rfl, ?_⟩, ?_, ?_, ?_, ?_⟩, hheap, hlow, ?_, ?_, ?_, ?_⟩
        · rw [← hsum]
          exact congrArg Nat.cast hbrk
        · exact hzeroed
        · exact fun va hva _ ↦ hkept va hva
        · rw [hbrk]
          exact fun hlt ↦ absurd hlt (not_lt.mpr hle')
        · rw [hbrk]
          exact fun hlt ↦ absurd hlt (not_lt.mpr hle')
        · rw [hbrk]
          exact h.le.trans hle'
        · rw [hbrk]
          exact Or.inl hlim
        · rw [hbrk]
          intro va hva hlt
          by_cases hold : va < k.currentBrk
          · exact (hext.view va (h.mapped va hva hold)).symm ▸ h.mapped va hva hold
          · exact hnew rfl va (by omega) hlt
        · rw [hbrk]
          intro hf va hva hlt hview
          by_cases hold : k.machine.view va = none
          · exact (hext.fresh va hold hview).2.2
          · exact (h.exact (Bool.or_eq_false_iff.mp hf).1 va hva hlt hold).trans_le hle'

/-- A call that gives memory back. -/
theorem HeapInv.shrink (h : k.HeapInv base B L K failed) (hbase : 2 ^ 22 ≤ base)
    (hlt : k.currentBrk < 2 ^ 32) (hinc : inc.toInt < 0) (habove : k.KeepsAbove base inc) :
    ∃ r k', k.sysSbrk inc = some (r, k') ∧ k.SbrkRight inc r k' ∧
      k'.HeapInv base B L K (failed || decide (r = -ENOMEM ∨ r = -EINVAL)) := by
  obtain ⟨hnat, hlarge, hsmall⟩ := toInt_neg_toNat hinc
  have hbrk : (k.procTable k.processCurrent).brk = k.currentBrk := rfl
  by_cases hunder : k.currentBrk + inc.toInt < 0
  · have hwant : (k.currentBrk + inc.toNat) % 2 ^ 32 = k.currentBrk + inc.toNat := by omega
    refine ⟨-EINVAL, k, ?_, SbrkRight.unchanged (Or.inr (Or.inr rfl)), h.mono _⟩
    have hup : k.currentBrk < k.currentBrk + inc.toNat := by omega
    simp only [sysSbrk, if_neg hinc.ne, if_neg hinc.not_gt, hbrk, hwant]
    rw [if_pos hup]
    rfl
  · have hle := habove (not_lt.mp hunder)
    obtain ⟨want, hwant⟩ : ∃ want : ℕ, (want : ℤ) = k.currentBrk + inc.toInt :=
      ⟨(k.currentBrk + inc.toInt).toNat, Int.toNat_of_nonneg (not_lt.mp hunder)⟩
    have hmod : (k.currentBrk + inc.toNat) % 2 ^ 32 = want := by omega
    have hlim : k.currentBrk ≤ USER_BRK_LIMIT := h.limit.resolve_right fun heq ↦ by omega
    rw [USER_BRK_LIMIT] at hlim
    have hdead : (want + 0xFFF) % 2 ^ 32 &&& PAGE_MASK = (want + 4095) / 4096 * 4096 := by
      rw [Nat.mod_eq_of_lt (by omega)]
      exact and_page_mask (by omega)
    set l := pagesBetween ((want + 4095) / 4096 * 4096) k.currentBrk with hl
    have hmem : ∀ v, v ∈ l ↔ (want + 4095) / 4096 * 4096 ≤ v ∧ v < k.currentBrk ∧ v % 4096 = 0 :=
      fun v ↦ mem_pagesBetween (by omega)
    have hpages : ∀ v ∈ l, base ≤ v ∧ v < USER_BRK_LIMIT ∧
        ∃ d t, 1 ≤ d ∧ d < 768 ∧ t < 1024 ∧ v = pageAddr d t := by
      intro v hv
      obtain ⟨hge, hvlt, hvmod⟩ := (hmem v).mp hv
      refine ⟨by omega, by rw [USER_BRK_LIMIT]; omega, exists_userPage (by omega) (by omega) hvmod⟩
    obtain ⟨m, hfold, hheap, hred⟩ := h.heap.shrinkPages hpages
    have hrun : k.sysSbrk inc = some (int32 k.currentBrk, (k.withMachine m).modifyProc
        k.processCurrent fun q ↦ { q with brk := want }) := by
      have hdown : ¬ k.currentBrk < want := by omega
      have hwrap : ¬ ((want + 4095) / 4096 * 4096 < k.currentBrk ∧ PAGE_MASK < k.currentBrk) := by
        rw [PAGE_MASK]
        omega
      simp only [sysSbrk, if_neg hinc.ne, if_neg hinc.not_gt, hbrk, hmod, hdead, ← hl, hfold]
      rw [if_neg hdown, if_neg hwrap]
      rfl
    obtain ⟨hlow, hkeep⟩ := h.low.keep h.heap.ledger hred.cr3 hred.entry hred.kernel
    have hbrk' := withBrk_currentBrk k m want
    have hround : ∀ va < want, va / 4096 * 4096 ∉ l := fun va hva hv ↦ by
      have := (hmem _).mp hv
      omega
    have hDead : ∀ d t, d < 1023 → t < 1024 → (Dead k ((k.withMachine m).modifyProc
        k.processCurrent fun q ↦ { q with brk := want }) d t ↔ pageAddr d t ∈ l) := by
      intro d t hd ht
      have halign : pageAddr d t % 4096 = 0 := by
        rw [pageAddr]
        omega
      rw [Dead, hbrk', hmem]
      omega
    have hkernel : ∀ d t, d < 1023 → ¬ (1 ≤ d ∧ d < 768) → t < 1024 →
        m.frameAt d t = k.machine.frameAt d t ∧ pageAddr d t ∉ l := by
      intro d t hd hout ht
      have hentry : KernelEntry d := by
        rw [KernelEntry]
        omega
      refine ⟨Machine.frameAt_kernel h.heap.ledger hred.cr3 hred.entry hred.kernel hentry, fun hv ↦ ?_⟩
      obtain ⟨hge, hvlt, -⟩ := (hmem _).mp hv
      rw [pageAddr] at hge hvlt
      omega
    have hdir : m.dir = k.machine.dir := hred.dir
    refine ⟨_, _, hrun, ⟨Or.inl ⟨rfl, ?_⟩, fun va hva hnone hsome ↦ ?_, fun va _ hva huser ↦ ?_,
      fun _ d t F hd ht ↦ ?_, fun _ f ↦ ?_⟩, hheap, hlow, ?_, ?_, ?_, ?_⟩
    · rw [← hwant]
      exact congrArg Nat.cast hbrk'
    · rw [USER_LIMIT] at hva
      have haddr : UserAddr va := ⟨not_lt.mp fun hlt ↦ h.low.load8 hlt hnone, by omega⟩
      have hview : m.view va ≠ none := by rwa [Machine.view, if_pos haddr]
      have hold := (hred.of_view hview).1
      rw [Machine.view, if_pos haddr] at hold
      exact absurd hnone hold
    · rw [hbrk'] at hva
      exact Machine.load8_kept hkeep (fun _ ↦ hred.view va (hround va hva)) (by omega) huser
    · rw [hDead d t hd ht]
      by_cases huser : 1 ≤ d ∧ d < 768
      · have hleaf := hred.leaf d t F huser.1 huser.2 ht
        rw [← hdir] at hleaf
        refine hleaf.trans ?_
        rw [hdir]
        rfl
      · obtain ⟨hsame, hno⟩ := hkernel d t hd huser ht
        rw [and_iff_left hno, ← hsame]
        rfl
    · refine (hred.test f).trans (and_congr_right fun _ ↦ ⟨?_, fun hno d t h₁ h₂ ht hv hF ↦ ?_⟩)
      · rintro hno ⟨d, t, hd, ht, hv, hF⟩
        rw [hDead d t hd ht] at hv
        by_cases huser : 1 ≤ d ∧ d < 768
        · exact hno d t huser.1 huser.2 ht hv hF
        · exact (hkernel d t hd huser ht).2 hv
      · exact hno ⟨d, t, by omega, ht, (hDead d t (by omega) ht).mpr hv, hF⟩
    · rw [hbrk']
      omega
    · rw [hbrk', USER_BRK_LIMIT]
      omega
    · rw [hbrk']
      intro va hva hvlt
      have hsame := hred.view va (hround va hvlt)
      exact hsame.symm ▸ h.mapped va hva (by omega)
    · rw [hbrk']
      intro hf va hva hvlt hview
      obtain ⟨hold, hv⟩ := hred.of_view hview
      have hpage := h.exact (Bool.or_eq_false_iff.mp hf).1 va hva hvlt hold
      rw [Set.mem_ofPred_eq, hmem] at hv
      omega

namespace HeapInv

theorem brk_lt (h : k.HeapInv base B L K failed) (hlt : base < 2 ^ 32) : k.currentBrk < 2 ^ 32 := by
  rcases h.limit with hlim | heq
  · rw [USER_BRK_LIMIT] at hlim
    omega
  · omega

/-- Every call returns, does what it is to do, and keeps the heap. -/
theorem call (h : k.HeapInv base B L K failed) (hbase : 2 ^ 22 ≤ base) (haligned : base % 4096 = 0)
    (hlt : base < 2 ^ 32) (hfits : k.SbrkFits inc) (habove : k.KeepsAbove base inc) :
    ∃ r k', k.sysSbrk inc = some (r, k') ∧ k.SbrkRight inc r k' ∧
      k'.HeapInv base B L K (failed || decide (r = -ENOMEM ∨ r = -EINVAL)) := by
  rcases lt_trichotomy inc.toInt 0 with hinc | hinc | hinc
  · exact h.shrink hbase (h.brk_lt hlt) hinc habove
  · refine ⟨int32 k.currentBrk, k, ?_, SbrkRight.unchanged (Or.inl ⟨rfl, hinc⟩), h.mono _⟩
    simp only [sysSbrk, if_pos hinc]
    rfl
  · exact h.grow hbase haligned hinc hfits

/-- An address between the first break and the limit that is mapped. -/
theorem page (h : k.HeapInv base B L K failed) (haligned : base % 4096 = 0)
    (hva : base ≤ va) (hlt : va < USER_BRK_LIMIT) (hview : k.machine.view va ≠ none) :
    ∃ d t o F, 1 ≤ d ∧ d < 768 ∧ t < 1024 ∧ o < 4096 ∧ va = pageAddr d t + o ∧
      k.machine.frameAt d t = some F ∧ k.machine.Writable d t := by
  obtain ⟨d, t, o, h₁, h₂, ht, ho, rfl⟩ := (Machine.userAddr_of_view hview).exists_pageAddr
  rw [Machine.view_page h₁ h₂ ht ho, Ne, Option.map_eq_none_iff] at hview
  obtain ⟨F, hF⟩ := Option.ne_none_iff_exists'.mp hview
  have hpage : pageAddr d t < USER_BRK_LIMIT := by omega
  exact ⟨d, t, o, F, h₁, h₂, ht, ho, rfl, hF,
    (h.heap.pages d t F h₁ h₂ ht (le_pageAddr haligned ho hva) hpage hF).2⟩

/-- The bytes of the heap lie below the limit. -/
theorem lt_limit (h : k.HeapInv base B L K failed) (hva : base ≤ va) (hlt : va < k.currentBrk) :
    va < USER_BRK_LIMIT := by
  rcases h.limit with hlim | heq
  · exact hlt.trans_le hlim
  · omega

theorem right (h : k.HeapInv base B L K failed) (hbase : 2 ^ 22 ≤ base) (haligned : base % 4096 = 0)
    (hlt : base < 2 ^ 32) : k.HeapRight base failed := by
  refine ⟨fun va hva hvlt ↦ ?_, fun va va' F o o' hva hvlt hva' hvlt' hF hF' ↦ ?_,
    fun hf va hva hvlt ↦ ⟨fun huser ↦ ?_, fun hpage ↦ ?_⟩, fun inc hfits habove ↦ ?_⟩
  · obtain ⟨d, t, o, F, h₁, h₂, ht, ho, rfl, -, hw⟩ := h.page haligned hva (h.lt_limit hva hvlt)
      (h.mapped va hva hvlt)
    exact (Machine.userWritable_page (by omega) ht ho).mpr hw
  · obtain ⟨d, t, i, G, h₁, h₂, ht, hi, rfl, hG, -⟩ := h.page haligned hva
      (h.lt_limit hva hvlt) (h.mapped va hva hvlt)
    obtain ⟨d', t', i', G', h₁', h₂', ht', hi', rfl, hG', -⟩ := h.page haligned hva'
      (h.lt_limit hva' hvlt') (h.mapped va' hva' hvlt')
    rw [Machine.translate_page (by omega) ht hi, hG, Option.map_some, Option.some.injEq,
      Prod.mk.injEq] at hF
    rw [Machine.translate_page (by omega) ht' hi', hG', Option.map_some, Option.some.injEq,
      Prod.mk.injEq] at hF'
    obtain ⟨rfl, -⟩ := hF
    obtain ⟨rfl, -⟩ := hF'
    have := h.heap.ledger.unique _ _ _ ((h.heap.ledger.leaf_iff h₁ h₂ ht).mp hG)
      ((h.heap.ledger.leaf_iff h₁' h₂' ht').mp hG')
    obtain ⟨-, rfl, rfl⟩ := Owner.leaf.inj this
    simp only [pageAddr]
    omega
  · refine h.exact hf va hva hvlt ?_
    rw [USER_BRK_LIMIT] at hvlt
    have haddr : UserAddr va := ⟨by omega, by omega⟩
    obtain ⟨d, t, o, h₁, h₂, ht, ho, rfl⟩ := haddr.exists_pageAddr
    rw [Machine.view_page h₁ h₂ ht ho, Ne, Option.map_eq_none_iff]
    exact ((Machine.userAccessible_page (by omega) ht ho).mp huser).leaf
  · have hstart : base ≤ va / 4096 * 4096 := by omega
    obtain ⟨d, t, o, F, h₁, h₂, ht, ho, heq, -, hw⟩ := h.page haligned hstart
      (h.lt_limit hstart hpage) (h.mapped _ hstart hpage)
    have hva : va = pageAddr d t + (o + va % 4096) := by omega
    have hoff : o + va % 4096 < 4096 := by
      rw [pageAddr] at heq
      omega
    rw [hva, Machine.userAccessible_page (by omega) ht hoff]
    exact hw.userMapped
  · obtain ⟨r, k', hrun, hright, -⟩ := h.call hbase haligned hlt hfits habove
    exact ⟨r, k', hrun, hright⟩

end HeapInv

theorem SbrkRun.inv (hrun : SbrkRun base k₀ failed k) (h : k₀.HeapStart base B L K)
    (hbase : 2 ^ 22 ≤ base) : k.HeapInv base B L K failed := by
  induction hrun with
  | start => exact h.inv hbase
  | call _ hfits habove hcall ih =>
      obtain ⟨r, k', hcall', -, hinv⟩ := ih.call hbase h.aligned h.lt hfits habove
      obtain ⟨rfl, rfl⟩ := Prod.mk.inj (Option.some.inj (hcall'.symm.trans hcall))
      exact hinv
  | store _ hva hstore ih => exact ih.store hva hstore

/-! ## In the first 4 MiB -/

/-- There a page is mapped before the first call, and a call that asks for one
byte takes it as it is. -/
theorem HeapStart.sbrk_low (h : k.HeapStart base B L K) (hbase : base < 2 ^ 22) :
    ∃ k', k.SbrkFits 1#32 ∧ k.KeepsAbove base 1#32 ∧ k.sysSbrk 1#32 = some (int32 base, k') ∧
      k'.machine = k.machine ∧ k'.currentBrk = base + 1 := by
  have hbrk := h.brk
  have haligned := h.aligned
  have hinc : 0 < (1#32).toInt := by decide
  have hwant : k.wantedBrk 1#32 = base + 1 := by
    rw [wantedBrk, show (k.procTable k.processCurrent).brk = base from hbrk]
    exact Nat.mod_eq_of_lt (by simp; omega)
  have hpages : pagesBetween (base &&& PAGE_MASK) (base + 1) = [base] := by
    rw [PAGE_MASK, and_page_mask (by omega), show base / 4096 * 4096 = base by omega, pagesBetween,
      show (base + 1 - base + 0xFFF) / 0x1000 = 1 by omega]
    rfl
  obtain ⟨t, ht, rfl⟩ : ∃ t < 1024, base = pageAddr 0 t := ⟨base / 4096, by omega, by
    rw [pageAddr]
    omega⟩
  obtain ⟨F, hF, -⟩ := h.low t ht
  have hstep := Machine.growPage_mapped h.ledger.recursive (by norm_num) ht hF
  have hphys := Machine.pagingVirtToPhys_page h.ledger.recursive (d := 0) (by norm_num) ht
  rw [hF, Option.elim_some] at hphys
  have hfits : k.SbrkFits 1#32 := by
    intro _ _ _
    rw [hwant, hbrk, hpages]
    refine ⟨fun _ hnot _ ↦ ?_, fun _ _ ↦ trivial⟩
    have heq := Option.some.inj (hphys.symm.trans hnot)
    rw [NOT_MAPPED] at heq
    omega
  have hlimit : ¬ (k.wantedBrk 1#32 < (k.procTable k.processCurrent).brk ∨
      USER_BRK_LIMIT < k.wantedBrk 1#32) := by
    rw [hwant, USER_BRK_LIMIT, show (k.procTable k.processCurrent).brk = pageAddr 0 t from hbrk]
    omega
  have hrun := sysSbrk_grows (s := ⟨k.machine, false⟩) hinc hlimit (by
    rw [hwant, show (k.procTable k.processCurrent).brk = pageAddr 0 t from hbrk, hpages,
      List.foldlM_cons, hstep]
    rfl)
  rw [if_neg (by simp), show (k.procTable k.processCurrent).brk = pageAddr 0 t from hbrk] at hrun
  refine ⟨_, hfits, fun _ ↦ ?_, hrun, rfl, (withBrk_currentBrk k k.machine _).trans hwant⟩
  rw [hbrk]
  exact le_add_of_nonneg_right hinc.le

/-- The heap is right in every state of every run exactly when it starts above
the first 4 MiB. -/
theorem sbrk_within_range_iff (h : k₀.HeapStart base B L K) :
    (∀ failed k, SbrkRun base k₀ failed k → k.HeapRight base failed) ↔ 2 ^ 22 ≤ base := by
  constructor
  · intro hall
    by_contra hlow
    obtain ⟨k', hfits, habove, hrun, hmachine, hbrk⟩ := h.sbrk_low (not_le.mp hlow)
    have hstart := hall _ _ .start
    have hcall := hall _ _ (.call .start hfits habove hrun)
    have hw := hcall.user base le_rfl (by omega)
    rw [hmachine] at hw
    obtain ⟨d, t, o, hd, ht, ho, rfl⟩ := exists_pageAddr h.lt
    have huser := (Machine.userAccessible_page hd ht ho).mpr
      ((Machine.userWritable_page hd ht ho).mp hw).userMapped
    have hlim : pageAddr d t + o < USER_BRK_LIMIT := by
      rw [USER_BRK_LIMIT]
      omega
    have hpage := (hstart.exact rfl _ le_rfl hlim).mp huser
    have haligned := h.aligned
    rw [h.brk] at hpage
    omega
  · intro hbase failed k hrun
    exact (hrun.inv h hbase).right hbase h.aligned h.lt

/-! ## An image below 4 MiB -/

theorem userless_tables (d : ℕ) (h₁ : 1 ≤ d) (h₂ : d < 768) :
    (Sample.userless 16).pde 1 d = 0 := by
  rw [userless_pde, Sample.directory]
  split_ifs <;> first | rfl | omega

/-- Process 0 with an empty heap at `base`. -/
def withHeapAt (base : ℕ) : Kernel :=
  (Sample.firstProcess 16).modifyProc 0 fun p ↦ { p with brk := base }

/-- Process 0 with the one page of its image at `0x3F0000`, in frame 5. -/
def lowImage : Kernel :=
  (withHeapAt 0x3F1000).withMachine
    (((Sample.userless 16).setWord 1 0 (2 * 4096 + 7)).setWord 2 0x3F0 (5 * 4096 + 7))

/-- The heap may start right above the kernel's own 4 MiB. -/
theorem sbrk_within_range_above : 2 ^ 22 ≤ 0x401000 ∧
    ∀ failed k, SbrkRun 0x401000 (withHeapAt 0x401000) failed k → k.HeapRight 0x401000 failed := by
  have hpde : (Sample.userless 16).pde 1 0 = 2 * 4096 + 3 := userless_booting.identity
  refine ⟨by norm_num, (sbrk_within_range_iff (B := 1) (L := {1}) (K := _)
    ⟨userless_booting.ledger, userless_booting.reset.zero, fun d h₁ h₂ hp ↦ ?_, fun t ht ↦ ?_,
      by decide, by norm_num, by norm_num, fun d t h₁ h₂ ht _ _ ↦ ?_⟩).mpr (by norm_num)⟩
  · have hzero : (withHeapAt 0x401000).machine.pde (withHeapAt 0x401000).machine.dir d = 0 :=
      userless_tables d h₁ h₂
    omega
  · obtain ⟨F, hF⟩ := Option.ne_none_iff_exists'.mp (userless_low t ht)
    refine ⟨F, hF, fun hmap ↦ ?_⟩
    have huser : (Sample.userless 16).pde 1 0 &&& PAGE_USER ≠ 0 := hmap.2.1
    rw [hpde] at huser
    exact absurd (by decide) huser
  · have hzero : (withHeapAt 0x401000).machine.pde (withHeapAt 0x401000).machine.dir d = 0 :=
      userless_tables d h₁ h₂
    rw [Machine.frameAt, Machine.leaf, hzero]
    rfl

theorem lowImage_words :
    (∀ d, lowImage.machine.pde 1 d = if d = 0 then 2 * 4096 + 7 else (Sample.userless 16).pde 1 d) ∧
      ∀ t < 1024, lowImage.machine.pte 1 0 t = if t = 0x3F0 then 5 * 4096 + 7 else t * 4096 + 3 := by
  have hmachine : lowImage.machine =
      ((Sample.userless 16).setWord 1 0 (2 * 4096 + 7)).setWord 2 0x3F0 (5 * 4096 + 7) := rfl
  have hentry : ∀ d, lowImage.machine.pde 1 d =
      if d = 0 then 2 * 4096 + 7 else (Sample.userless 16).pde 1 d := by
    intro d
    rw [hmachine, Machine.pde, Machine.word_setWord, if_neg (by norm_num), Machine.word_setWord,
      Machine.pde]
    simp
  refine ⟨hentry, fun t ht ↦ ?_⟩
  have hmem : (Sample.userless 16).mem 2 = ofWords fun t ↦ Sample.entry t 3 := rfl
  have hword : word ((Sample.userless 16).mem 2) t = t * 4096 + 3 := by
    rw [hmem, word_ofWords]
    exact Nat.mod_eq_of_lt (by rw [Sample.entry, PAGE_SIZE]; omega)
  have hframe : (2 * 4096 + 7) / 4096 = 2 := by norm_num
  rw [Machine.pte, hentry, if_pos rfl, hmachine, Machine.word_setWord, Machine.word_setWord,
    if_neg (by norm_num : ¬ ((2 * 4096 + 7) / 4096 = 1 ∧ t = 0)), hframe, hword]
  simp

theorem lowImage_start : lowImage.HeapStart 0x3F1000 1 {1}
    {f | (Sample.userless 16).frameTest f = true ∧ f ≠ 1 ∧ f ≠ 0} := by
  obtain ⟨hentry, hpage⟩ := lowImage_words
  have hpde : (Sample.userless 16).pde 1 0 = 2 * 4096 + 3 := userless_booting.identity
  have hdir : lowImage.machine.dir = 1 := by decide
  have htable : 2 ∈ {f | (Sample.userless 16).frameTest f = true ∧ f ≠ 1 ∧ f ≠ 0} :=
    ⟨userless_booting.reset.table, by norm_num, by norm_num⟩
  have hled := userless_booting.ledger.flagEntry (v := 2 * 4096 + 7) (by rw [hpde]) (by norm_num)
    (by rw [hpde]) (by norm_num)
  have hnone : ∀ d, 1 ≤ d → d < 768 → lowImage.machine.pde lowImage.machine.dir d = 0 := by
    intro d h₁ h₂
    rw [hdir, hentry, if_neg (by omega), userless_tables d h₁ h₂]
  refine ⟨hled.setFrame (hled.kernel_plain htable) _, userless_booting.reset.zero,
    fun d h₁ h₂ hp ↦ ?_, fun t ht ↦ ?_, by decide, by norm_num, by norm_num, fun d t h₁ h₂ ht _ _ ↦ ?_⟩
  · rw [hnone d h₁ h₂] at hp
    exact absurd hp (by norm_num)
  · refine ⟨_, Machine.frameAt_eq_some.mpr ⟨?_, ?_, rfl⟩, fun hmap ↦ ?_⟩
    · rw [hdir, hentry, if_pos rfl]
    · rw [hdir, hpage t ht]
      split <;> omega
    · have huser := hmap.2.2.2
      rw [hdir, hpage t ht] at huser ⊢
      split at huser
      · next heq =>
          rw [if_pos heq]
          exact ⟨by decide, by norm_num, by norm_num⟩
      · rw [Machine.and_user_mod, show (t * 4096 + 3) % 4096 = 3 by omega] at huser
        exact absurd (by decide) huser
  · rw [Machine.frameAt, Machine.leaf, hnone d h₁ h₂]
    rfl

/-- The page right above the image is the kernel's, and the heap that starts
there takes it. -/
theorem sbrk_takes_kernel_page : ∃ K k', lowImage.HeapStart 0x3F1000 1 {1} K ∧
    lowImage.machine.userAccessible 0x3F0000 = true ∧ SbrkRun 0x3F1000 lowImage false k' ∧
    k'.currentBrk = 0x3F1001 ∧ k'.machine.userAccessible 0x3F1000 = false ∧
    ¬ k'.HeapRight 0x3F1000 false := by
  obtain ⟨k', hfits, habove, hrun, hmachine, hbrk⟩ := lowImage_start.sbrk_low (by norm_num)
  obtain ⟨hentry, hpage⟩ := lowImage_words
  have hdir : lowImage.machine.dir = 1 := by decide
  have haddr : ∀ t, 0x1000 * t = pageAddr 0 t + 0 := fun t ↦ by
    rw [pageAddr]
    omega
  have hwrite : ¬ lowImage.machine.UserMapped lowImage.machine.dir 0 0x3F1 := by
    rintro ⟨-, -, -, huser⟩
    rw [hdir, hpage 0x3F1 (by norm_num)] at huser
    exact absurd (by decide) huser
  have hno : k'.machine.userAccessible 0x3F1000 = false := by
    rw [hmachine, Bool.eq_false_iff, show 0x3F1000 = pageAddr 0 0x3F1 + 0 from haddr 0x3F1, Ne,
      Machine.userAccessible_page (by norm_num) (by norm_num) (by norm_num)]
    exact hwrite
  have hcall := SbrkRun.call SbrkRun.start hfits habove hrun
  have hflag : (false || decide (int32 (0x3F1000 : ℕ) = -ENOMEM ∨ int32 (0x3F1000 : ℕ) = -EINVAL)) =
      false := by decide
  rw [hflag] at hcall
  refine ⟨_, k', lowImage_start, ?_, hcall, hbrk, hno, fun hright ↦ ?_⟩
  · rw [show 0x3F0000 = pageAddr 0 0x3F0 + 0 from haddr 0x3F0,
      Machine.userAccessible_page (by norm_num) (by norm_num) (by norm_num), Machine.UserMapped, hdir,
      hentry, hpage 0x3F0 (by norm_num)]
    decide
  · have hw := hright.user 0x3F1000 le_rfl (by rw [hbrk]; norm_num)
    rw [hmachine, show 0x3F1000 = pageAddr 0 0x3F1 + 0 from haddr 0x3F1,
      Machine.userWritable_page (by norm_num) (by norm_num) (by norm_num)] at hw
    exact hwrite hw.userMapped

end Kernel

end EclipseOS
