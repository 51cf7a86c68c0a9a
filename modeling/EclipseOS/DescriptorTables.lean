import EclipseOS.Lib.Descriptor
import EclipseOS.UserCalls

/-!
# The descriptor tables

The tables that `gdt.c`, `tss.c` and `idt.c` fill, as the processor reads them.
-/

namespace EclipseOS

open Processor WordStack

/-! ## Interrupts -/

structure IdtEntry where
  baseLow : BitVec 16
  selector : BitVec 16
  always0 : BitVec 8
  flags : BitVec 8
  baseHigh : BitVec 16

namespace IdtEntry

def zero : IdtEntry := ⟨0, 0, 0, 0, 0⟩

/-- The bytes of the entry, the first in the low end. -/
def descriptor (e : IdtEntry) : Descriptor :=
  e.baseHigh ++ e.flags ++ e.always0 ++ e.selector ++ e.baseLow

def ofGate (base : Word) (sel : BitVec 16) (flags : BitVec 8) : IdtEntry where
  baseLow := (base &&& 0xFFFF).setWidth 16
  baseHigh := ((base >>> 16) &&& 0xFFFF).setWidth 16
  selector := sel
  always0 := 0
  flags := flags

end IdtEntry

abbrev Idt := BitVec 8 → IdtEntry

def idtSetGate (idt : Idt) (num : BitVec 8) (base : Word) (sel : BitVec 16) (flags : BitVec 8) :
    Idt :=
  Function.update idt num (.ofGate base sel flags)

/-- `idt_initialize`; `isr`, `irq` and `isr128` are the addresses of the stubs. -/
def idtInitialize (isr : Fin 32 → Word) (irq : Fin 16 → Word) (isr128 : Word) : Idt :=
  let idt : Idt := fun _ ↦ .zero
  let idt := (List.finRange 32).foldl (fun idt (i : Fin 32) ↦
    idtSetGate idt (BitVec.ofNat 8 i) (isr i) 0x08 0x8E) idt
  let idt := (List.finRange 16).foldl (fun idt (i : Fin 16) ↦
    idtSetGate idt (BitVec.ofNat 8 (32 + i)) (irq i) 0x08 0x8E) idt
  idtSetGate idt 0x80 isr128 0x08 0xEE

namespace IdtEntry

variable (e : IdtEntry)

theorem descriptor_getLsbD (i : ℕ) : e.descriptor.getLsbD i =
    if i < 16 then e.baseLow.getLsbD i
    else if i < 32 then e.selector.getLsbD (i - 16)
    else if i < 40 then e.always0.getLsbD (i - 32)
    else if i < 48 then e.flags.getLsbD (i - 40)
    else e.baseHigh.getLsbD (i - 48) := by
  simp only [descriptor, BitVec.getLsbD_append]
  split_ifs <;> first | rfl | omega

theorem descriptor_gate : e.descriptor.gate =
    { offset := e.baseHigh ++ e.baseLow
      selector := e.selector
      kind := e.flags.extractLsb' 0 4
      system := !e.flags.getLsbD 4
      dpl := e.flags.extractLsb' 5 2
      present := e.flags.getLsbD 7 } := by
  have hhigh : e.descriptor.extractLsb' 48 16 = e.baseHigh := by
    apply BitVec.eq_of_getLsbD_eq
    intro i hi
    rw [BitVec.getLsbD_extractLsb', descriptor_getLsbD, decide_eq_true hi, Bool.true_and,
      if_neg (by omega), if_neg (by omega), if_neg (by omega), if_neg (by omega),
      Nat.add_sub_cancel_left]
  have hlow : e.descriptor.extractLsb' 0 16 = e.baseLow := by
    apply BitVec.eq_of_getLsbD_eq
    intro i hi
    rw [BitVec.getLsbD_extractLsb', descriptor_getLsbD, decide_eq_true hi, Bool.true_and,
      if_pos (by omega), Nat.zero_add]
  have hsel : e.descriptor.extractLsb' 16 16 = e.selector := by
    apply BitVec.eq_of_getLsbD_eq
    intro i hi
    rw [BitVec.getLsbD_extractLsb', descriptor_getLsbD, decide_eq_true hi, Bool.true_and,
      if_neg (by omega), if_pos (by omega), Nat.add_sub_cancel_left]
  have hflags : ∀ i n, i + n ≤ 8 →
      e.descriptor.extractLsb' (40 + i) n = e.flags.extractLsb' i n := by
    intro i n hn
    apply BitVec.eq_of_getLsbD_eq
    intro j hj
    rw [BitVec.getLsbD_extractLsb', BitVec.getLsbD_extractLsb', descriptor_getLsbD,
      if_neg (by omega), if_neg (by omega), if_neg (by omega), if_pos (by omega), Nat.add_assoc,
      Nat.add_sub_cancel_left]
  have hbit : ∀ i < 8, e.descriptor.getLsbD (40 + i) = e.flags.getLsbD i := by
    intro i hi
    rw [descriptor_getLsbD, if_neg (by omega), if_neg (by omega), if_neg (by omega),
      if_pos (by omega), Nat.add_sub_cancel_left]
  rw [Descriptor.gate, hhigh, hlow, hsel, hflags 0 4 (by norm_num), hflags 5 2 (by norm_num),
    hbit 4 (by norm_num), hbit 7 (by norm_num)]

/-- The two halves of the base come together again. -/
theorem ofGate_base (base : Word) (sel : BitVec 16) (flags : BitVec 8) :
    (ofGate base sel flags).baseHigh ++ (ofGate base sel flags).baseLow = base := by
  apply BitVec.eq_of_getLsbD_eq
  intro i hi
  have hmask : ∀ j < 16, (0xFFFF : Word).getLsbD j = true := by decide
  simp only [ofGate, BitVec.getLsbD_append, BitVec.getLsbD_setWidth, BitVec.getLsbD_and,
    BitVec.getLsbD_ushiftRight]
  split_ifs with hlow
  · rw [hmask i hlow, decide_eq_true hlow, Bool.true_and, Bool.and_true]
  · rw [hmask (i - 16) (by omega), decide_eq_true (by omega : i - 16 < 16), Bool.true_and,
      Bool.and_true, Nat.add_sub_cancel' (by omega)]

/-- A gate of kernel code that turns interrupts off, with its level in bits 5 and 6. -/
theorem ofGate_gate (base : Word) (dpl : BitVec 2) :
    (ofGate base 0x08 (1#1 ++ dpl ++ 0x0E#5)).descriptor.gate =
      { offset := base
        selector := Asm.KERNEL_CODE
        kind := INTERRUPT_GATE
        system := true
        dpl := dpl
        present := true } := by
  have hkind : ∀ l : BitVec 2, (1#1 ++ l ++ 0x0E#5).extractLsb' 0 4 = INTERRUPT_GATE := by decide
  have hsystem : ∀ l : BitVec 2, (!(1#1 ++ l ++ 0x0E#5).getLsbD 4) = true := by decide
  have hdpl : ∀ l : BitVec 2, (1#1 ++ l ++ 0x0E#5).extractLsb' 5 2 = l := by decide
  have hpresent : ∀ l : BitVec 2, (1#1 ++ l ++ 0x0E#5).getLsbD 7 = true := by decide
  rw [descriptor_gate, ofGate_base]
  change Gate.mk base 0x08 ((1#1 ++ dpl ++ 0x0E#5).extractLsb' 0 4)
    (!(1#1 ++ dpl ++ 0x0E#5).getLsbD 4) ((1#1 ++ dpl ++ 0x0E#5).extractLsb' 5 2)
      ((1#1 ++ dpl ++ 0x0E#5).getLsbD 7) = _
  rw [hkind, hsystem, hdpl, hpresent, Asm.KERNEL_CODE]

theorem zero_gate : zero.descriptor.gate = ⟨0, 0, 0, true, 0, false⟩ := by decide

end IdtEntry

/-- A loop of `idt_initialize` sets the gates from `first` on. -/
theorem foldl_idtSetGate (first : ℕ) {n : ℕ} (hn : first + n ≤ 256) (stubs : Fin n → Word)
    (sel : BitVec 16) (flags : BitVec 8) (idt : Idt) (num : BitVec 8) (l : List (Fin n)) :
    l.foldl (fun idt (i : Fin n) ↦ idtSetGate idt (BitVec.ofNat 8 (first + i)) (stubs i) sel flags)
        idt num =
      if h : first ≤ num.toNat ∧ num.toNat < first + n then
        if ⟨num.toNat - first, by omega⟩ ∈ l then
          .ofGate (stubs ⟨num.toNat - first, by omega⟩) sel flags
        else idt num
      else idt num := by
  induction l generalizing idt with
  | nil => simp
  | cons i l ih =>
      have hkey : num = BitVec.ofNat 8 (first + i) ↔ num.toNat = first + i := by
        rw [← BitVec.toNat_inj, BitVec.toNat_ofNat, Nat.mod_eq_of_lt (by omega)]
      rw [List.foldl_cons, ih]
      by_cases h : first ≤ num.toNat ∧ num.toNat < first + n
      · rw [dif_pos h, dif_pos h]
        by_cases hi : num.toNat = first + i
        · have heq : (⟨num.toNat - first, by omega⟩ : Fin n) = i := Fin.ext (by dsimp only; omega)
          rw [idtSetGate, ← hkey.mpr hi, Function.update_self, heq, if_pos (List.mem_cons_self ..),
            ite_self]
        · have hne : (⟨num.toNat - first, by omega⟩ : Fin n) ≠ i := by
            rintro rfl
            exact hi (by dsimp only; omega)
          rw [idtSetGate, Function.update_of_ne (fun heq ↦ hi (hkey.mp heq))]
          simp only [List.mem_cons, hne, false_or]
      · rw [dif_neg h, dif_neg h, idtSetGate, Function.update_of_ne]
        intro heq
        have hnum := hkey.mp heq
        omega

/-- The stub of a vector. -/
def stubAddr (isr : Fin 32 → Word) (irq : Fin 16 → Word) (isr128 : Word) (num : BitVec 8) : Word :=
  if h : num.toNat < 32 then isr ⟨num.toNat, h⟩
  else if h : num.toNat < 48 then irq ⟨num.toNat - 32, by omega⟩
  else isr128

/-- The exceptions, the sixteen lines of the controllers and the system calls. -/
def HasStub (num : BitVec 8) : Prop := num.toNat < 48 ∨ num = 0x80

instance (num : BitVec 8) : Decidable (HasStub num) := inferInstanceAs (Decidable (_ ∨ _))

theorem idtInitialize_gate (isr : Fin 32 → Word) (irq : Fin 16 → Word) (isr128 : Word)
    (num : BitVec 8) : (idtInitialize isr irq isr128 num).descriptor.gate =
      if HasStub num then
        { offset := stubAddr isr irq isr128 num
          selector := Asm.KERNEL_CODE
          kind := INTERRUPT_GATE
          system := true
          dpl := if num = 0x80 then 3 else 0
          present := true }
      else ⟨0, 0, 0, true, 0, false⟩ := by
  have hexceptions := foldl_idtSetGate 0 (by norm_num) isr 0x08 0x8E (fun _ ↦ .zero) num
    (List.finRange 32)
  simp only [Nat.zero_add, Nat.zero_le, true_and, Nat.sub_zero, List.mem_finRange, if_true]
    at hexceptions
  have hlines := foldl_idtSetGate 32 (by norm_num) irq 0x08 0x8E
    ((List.finRange 32).foldl (fun idt (i : Fin 32) ↦
      idtSetGate idt (BitVec.ofNat 8 i) (isr i) 0x08 0x8E) fun _ ↦ .zero) num (List.finRange 16)
  simp only [List.mem_finRange, if_true] at hlines
  rw [idtInitialize, idtSetGate, Function.update_apply]
  by_cases hcall : num = 0x80
  · subst hcall
    rw [if_pos rfl, show (0xEE : BitVec 8) = 1#1 ++ 3#2 ++ 0x0E#5 by decide, IdtEntry.ofGate_gate,
      if_pos (show HasStub 0x80 from Or.inr rfl)]
    rfl
  · have hflags : (0x8E : BitVec 8) = 1#1 ++ 0#2 ++ 0x0E#5 := by decide
    rw [if_neg hcall, if_neg hcall, hlines, hexceptions, stubAddr]
    by_cases h₃₂ : num.toNat < 32
    · have hstub : HasStub num := Or.inl (by omega)
      rw [dif_neg (by omega), dif_pos h₃₂, dif_pos h₃₂, if_pos hstub, hflags, IdtEntry.ofGate_gate]
      rfl
    · by_cases h₄₈ : num.toNat < 48
      · have hstub : HasStub num := Or.inl h₄₈
        rw [dif_pos ⟨by omega, h₄₈⟩, dif_neg h₃₂, dif_pos h₄₈, if_pos hstub, hflags,
          IdtEntry.ofGate_gate]
        rfl
      · have hstub : ¬ HasStub num := not_or.mpr ⟨h₄₈, hcall⟩
        rw [dif_neg (by omega), dif_neg h₃₂, if_neg hstub]
        exact IdtEntry.zero_gate

/-- An interrupt comes to the stub of its vector, in kernel code with interrupts off, or is a
fault where there is none; and an `int` of user code may name the system calls alone. -/
theorem interrupts_reach_stubs (isr : Fin 32 → Word) (irq : Fin 16 → Word) (isr128 : Word)
    (num : BitVec 8) (c : Cpu) (esp0 err : Word) :
    c.interrupt (idtInitialize isr irq isr128 num).descriptor.gate Asm.KERNEL_DATA esp0
        (Asm.pushedErr num.toNat err) =
      (if HasStub num then
        some (Asm.trapped c num.toNat (stubAddr isr irq isr128 num) esp0 err) else none) ∧
    (Asm.trapped c num.toNat (stubAddr isr irq isr128 num) esp0 err).eflags &&& Cpu.IF_MASK = 0 ∧
    ((idtInitialize isr irq isr128 num).descriptor.gate.Open c.cpl ↔
      num = 0x80 ∨ c.cpl = 0 ∧ num.toNat < 48) := by
  have hcpl := c.cpl_lt
  have hoff : (Asm.trapped c num.toNat (stubAddr isr irq isr128 num) esp0 err).eflags &&&
      Cpu.IF_MASK = 0 := by
    have hmask : ~~~Cpu.GATE_MASK &&& Cpu.IF_MASK = 0 := by decide
    change c.eflags &&& ~~~Cpu.GATE_MASK &&& Cpu.IF_MASK = 0
    rw [BitVec.and_assoc, hmask]
    exact BitVec.and_zero
  rw [idtInitialize_gate]
  by_cases hstub : HasStub num
  · rw [if_pos hstub, if_pos hstub]
    refine ⟨rfl, hoff, ?_⟩
    by_cases hcall : num = 0x80
    · simp only [Gate.Open, hcall, if_true, true_and, true_or, iff_true]
      change c.cpl ≤ 3
      omega
    · have h₄₈ : num.toNat < 48 := hstub.resolve_right hcall
      simp only [Gate.Open, hcall, if_false, true_and, false_or, h₄₈, and_true]
      exact Nat.le_zero
  · rw [if_neg hstub, if_neg hstub]
    refine ⟨rfl, hoff, ?_⟩
    obtain ⟨h₄₈, hcall⟩ := not_or.mp hstub
    simp only [Gate.Open, hcall, h₄₈, and_false, or_false, Bool.false_eq_true, false_and]

/-! ## Segments -/

structure GdtEntry where
  limitLow : BitVec 16
  baseLow : BitVec 16
  baseMiddle : BitVec 8
  access : BitVec 8
  granularity : BitVec 8
  baseHigh : BitVec 8

namespace GdtEntry

def descriptor (e : GdtEntry) : Descriptor :=
  e.baseHigh ++ e.granularity ++ e.access ++ e.baseMiddle ++ e.baseLow ++ e.limitLow

/-- What `gdt_set_gate` stores. -/
def ofSegment (base limit : Word) (access gran : BitVec 8) : GdtEntry where
  baseLow := (base &&& 0xFFFF).setWidth 16
  baseMiddle := ((base >>> 16) &&& 0xFF).setWidth 8
  baseHigh := ((base >>> 24) &&& 0xFF).setWidth 8
  limitLow := (limit &&& 0xFFFF).setWidth 16
  granularity := ((limit >>> 16) &&& 0x0F).setWidth 8 ||| (gran &&& 0xF0)
  access := access

end GdtEntry

abbrev Gdt := ℕ → GdtEntry

def gdtSetGate (gdt : Gdt) (num : ℕ) (base limit : Word) (access gran : BitVec 8) : Gdt :=
  Function.update gdt num (.ofSegment base limit access gran)

/-- `sizeof(struct tss_entry)`. -/
def SIZEOF_TSS : ℕ := 104

/-- `gdt_initialize` with the entry that `tss_install` sets; `tss` is the address of the
task state segment. -/
def gdtInitialize (gdt : Gdt) (tss : Word) : Gdt :=
  let gdt := gdtSetGate gdt 0 0 0 0x00 0x00
  let gdt := gdtSetGate gdt 1 0 0xFFFFF 0x9A 0xC0
  let gdt := gdtSetGate gdt 2 0 0xFFFFF 0x92 0xC0
  let gdt := gdtSetGate gdt 3 0 0xFFFFF 0xFA 0xC0
  let gdt := gdtSetGate gdt 4 0 0xFFFFF 0xF2 0xC0
  gdtSetGate gdt 5 tss (BitVec.ofNat 32 (SIZEOF_TSS - 1)) 0x89 0x00

/-- The selectors in use name segments that are the whole address space, of the kind and
the level that their users take them for. -/
theorem gdt_segments (gdt : Gdt) (tss : Word) :
    (gdtInitialize gdt tss (entryOf Asm.KERNEL_CODE)).descriptor.segment = .flat 0xA 0 ∧
    (gdtInitialize gdt tss (entryOf Asm.KERNEL_DATA)).descriptor.segment = .flat 0x2 0 ∧
    (gdtInitialize gdt tss (entryOf Asm.USER_CODE)).descriptor.segment = .flat 0xA 3 ∧
    (gdtInitialize gdt tss (entryOf Asm.USER_DATA)).descriptor.segment = .flat 0x2 3 := by
  have h₁ : gdtInitialize gdt tss 1 = .ofSegment 0 0xFFFFF 0x9A 0xC0 := rfl
  have h₂ : gdtInitialize gdt tss 2 = .ofSegment 0 0xFFFFF 0x92 0xC0 := rfl
  have h₃ : gdtInitialize gdt tss 3 = .ofSegment 0 0xFFFFF 0xFA 0xC0 := rfl
  have h₄ : gdtInitialize gdt tss 4 = .ofSegment 0 0xFFFFF 0xF2 0xC0 := rfl
  rw [show entryOf Asm.KERNEL_CODE = 1 by decide, show entryOf Asm.KERNEL_DATA = 2 by decide,
    show entryOf Asm.USER_CODE = 3 by decide, show entryOf Asm.USER_DATA = 4 by decide, h₁, h₂,
    h₃, h₄]
  decide

end EclipseOS
