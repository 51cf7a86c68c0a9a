import EclipseOS.Lib.Stack

/-!
# A 32-bit processor

The part of the instruction set that interrupt stubs and context switches are
written in: stack and segment instructions, moves, a few arithmetic ones, and
the entry to and the return from an interrupt.  Control leaves a program through
`ret`, `iret` or its end; `eip` says where to.  Descriptor checks at the load of
a segment register and page faults are not part of this.
-/

namespace Processor

open WordStack

inductive Reg
  | eax | ecx | edx | ebx | esp | ebp | esi | edi
  deriving DecidableEq

/-- The data segment registers. -/
inductive Seg
  | ds | es | fs | gs
  deriving DecidableEq

structure Cpu where
  eax : Word
  ecx : Word
  edx : Word
  ebx : Word
  esp : Word
  ebp : Word
  esi : Word
  edi : Word
  eip : Word
  eflags : Word
  cs : BitVec 16
  ss : BitVec 16
  ds : BitVec 16
  es : BitVec 16
  fs : BitVec 16
  gs : BitVec 16
  cr3 : Word
  mem : Memory

/-- The privilege level that a selector asks for. -/
def rpl (s : BitVec 16) : ℕ := s.toNat % 4

/-- The words of a selector on the stack. -/
def selWord (s : BitVec 16) : Word := s.setWidth 32

def wordSel (w : Word) : BitVec 16 := w.setWidth 16

@[simp] theorem wordSel_selWord (s : BitVec 16) : wordSel (selWord s) = s := by
  simp [wordSel, selWord]

/-- The low half of a register is replaced. -/
def withLow (w : Word) (s : BitVec 16) : Word := w.extractLsb' 16 16 ++ s

@[simp] theorem wordSel_withLow (w : Word) (s : BitVec 16) : wordSel (withLow w s) = s := by
  apply BitVec.eq_of_getLsbD_eq
  intro i hi
  rw [wordSel, withLow, BitVec.getLsbD_setWidth, BitVec.getLsbD_append, if_pos hi,
    decide_eq_true hi, Bool.true_and]

namespace Cpu

variable (c : Cpu)

def get : Reg → Word
  | .eax => c.eax
  | .ecx => c.ecx
  | .edx => c.edx
  | .ebx => c.ebx
  | .esp => c.esp
  | .ebp => c.ebp
  | .esi => c.esi
  | .edi => c.edi

def set (w : Word) : Reg → Cpu
  | .eax => { c with eax := w }
  | .ecx => { c with ecx := w }
  | .edx => { c with edx := w }
  | .ebx => { c with ebx := w }
  | .esp => { c with esp := w }
  | .ebp => { c with ebp := w }
  | .esi => { c with esi := w }
  | .edi => { c with edi := w }

def getSeg : Seg → BitVec 16
  | .ds => c.ds
  | .es => c.es
  | .fs => c.fs
  | .gs => c.gs

def setSeg (s : BitVec 16) : Seg → Cpu
  | .ds => { c with ds := s }
  | .es => { c with es := s }
  | .fs => { c with fs := s }
  | .gs => { c with gs := s }

/-- The current privilege level. -/
def cpl : ℕ := rpl c.cs

def push (w : Word) : Cpu := { c with esp := c.esp - 4, mem := c.mem.write (c.esp - 4) w }

/-- Word `i` of the stack. -/
def peek (i : ℕ) : Word := c.mem.read (c.esp + BitVec.ofNat 32 (4 * i))

/-- `n` words of the stack are given up. -/
def discard (n : ℕ) : Cpu := { c with esp := c.esp + BitVec.ofNat 32 (4 * n) }

def pushAll (ws : List Word) : Cpu := ws.foldl push c

/-! ## Flags -/

def ZF : ℕ := 6
def IF_MASK : Word := 0x200

def bit (b : Bool) (i : ℕ) : Word := if b then BitVec.twoPow 32 i else 0

/-- `CF`, `PF`, `AF`, `ZF`, `SF` and `OF`. -/
def STATUS_MASK : Word := 0x8D5

/-- The flags of an operation with the result `r`. -/
def withStatus (r : Word) (cf af overflow : Bool) : Cpu :=
  let pf := ((List.range 8).filter r.getLsbD).length % 2 == 0
  { c with
    eflags := (c.eflags &&& ~~~STATUS_MASK) ||| bit cf 0 ||| bit pf 2 ||| bit af 4 |||
      bit (r == 0) ZF ||| bit r.msb 7 ||| bit overflow 11 }

def zf : Bool := c.eflags.getLsbD ZF

theorem bit_getLsbD (b : Bool) {i : ℕ} (hi : i < 32) (j : ℕ) :
    (bit b i).getLsbD j = (b && decide (i = j)) := by
  cases b with
  | false => simp [bit]
  | true => simp [bit, BitVec.getLsbD_twoPow, hi]

@[simp] theorem zf_withStatus (r : Word) (cf af overflow : Bool) :
    (c.withStatus r cf af overflow).zf = (r == 0) := by
  have hmask : STATUS_MASK.getLsbD 6 = true := by decide
  simp only [zf, withStatus, ZF, BitVec.getLsbD_or, BitVec.getLsbD_and, BitVec.getLsbD_not, hmask,
    bit_getLsbD _ (show 0 < 32 by norm_num), bit_getLsbD _ (show 2 < 32 by norm_num),
    bit_getLsbD _ (show 4 < 32 by norm_num), bit_getLsbD _ (show 6 < 32 by norm_num),
    bit_getLsbD _ (show 7 < 32 by norm_num), bit_getLsbD _ (show 11 < 32 by norm_num)]
  simp

/-- The flags of `a + b`. -/
def addFlags (a b : Word) : Cpu :=
  let r := a + b
  c.withStatus r (decide (2 ^ 32 ≤ a.toNat + b.toNat)) (decide (16 ≤ a.toNat % 16 + b.toNat % 16))
    (a.msb == b.msb && r.msb != a.msb)

/-- The flags of `a - b`. -/
def subFlags (a b : Word) : Cpu :=
  let r := a - b
  c.withStatus r (decide (a.toNat < b.toNat)) (decide (a.toNat % 16 < b.toNat % 16))
    (a.msb != b.msb && r.msb != a.msb)

/-! ## Interrupts -/

/-- `IF`, `TF`, `NT`, `RF` and `VM`: an interrupt gate clears them. -/
def GATE_MASK : Word := 0x34300

/-- The exceptions for which the processor pushes an error code. -/
def errorCodes : List ℕ := [8, 10, 11, 12, 13, 14, 17, 21, 29, 30]

/-- Entry to level 0 through an interrupt gate.  From an outer level the
processor goes over to the stack of the task state segment. -/
def enter (offset : Word) (sel ss0 : BitVec 16) (esp0 : Word) (err : Option Word) : Cpu :=
  let c₁ := if c.cpl = 0 then c
    else ({ c with ss := ss0, esp := esp0 }.push (selWord c.ss)).push c.esp
  let c₂ := ((c₁.push c.eflags).push (selWord c.cs)).push c.eip
  let c₃ := err.elim c₂ c₂.push
  { c₃ with cs := sel, eip := offset, eflags := c.eflags &&& ~~~GATE_MASK }

/-- The return from an interrupt at level 0. -/
def iret : Cpu :=
  let cs := wordSel (c.peek 1)
  let c' := { c with eip := c.peek 0, cs := cs, eflags := c.peek 2 }
  if rpl cs = 0 then c'.discard 3 else { c' with esp := c.peek 3, ss := wordSel (c.peek 4) }

end Cpu

/-! ## Programs -/

/-- Operands stand in the order destination, source.  `jz n` jumps over `n`
instructions.  A `call` is to code that is known by its effect, its return
included, and so is the service behind a software interrupt. -/
inductive Instr
  | cli
  | pushImm (w : Word)
  | push (r : Reg)
  | pop (r : Reg)
  | pusha
  | popa
  | pushf
  | popf
  | movImm16 (r : Reg) (s : BitVec 16)
  | movFromSeg (r : Reg) (s : Seg)
  | movToSeg (s : Seg) (r : Reg)
  | load (r : Reg) (disp : Word) (base : Reg)
  | store (disp : Word) (base : Reg) (r : Reg)
  | lea (r : Reg) (disp : Word) (base : Reg)
  | movFromCr3 (r : Reg)
  | movToCr3 (r : Reg)
  | addImm (r : Reg) (w : Word)
  | orImm (r : Reg) (w : Word)
  | test (r s : Reg)
  | cmp (r s : Reg)
  | jz (n : ℕ)
  | call (f : Cpu → Option Cpu) (back : Word)
  | int (f : Cpu → Option Cpu)
  | ret
  | iret

/-- The registers `pusha` stores, the first pushed first. -/
def Cpu.general (c : Cpu) : List Word :=
  [c.eax, c.ecx, c.edx, c.ebx, c.esp, c.ebp, c.esi, c.edi]

/-- `none` for what level 0 alone may do, and for code that does not return to
the address that was pushed. -/
def step (c : Cpu) : Instr → Option Cpu
  | .cli => if c.cpl = 0 then some { c with eflags := c.eflags &&& ~~~Cpu.IF_MASK } else none
  | .pushImm w => some (c.push w)
  | .push r => some (c.push (c.get r))
  | .pop r => some ((c.discard 1).set (c.peek 0) r)
  | .pusha => some (c.pushAll c.general)
  | .popa => some { c.discard 8 with
      edi := c.peek 0
      esi := c.peek 1
      ebp := c.peek 2
      ebx := c.peek 4
      edx := c.peek 5
      ecx := c.peek 6
      eax := c.peek 7 }
  | .pushf => some (c.push c.eflags)
  | .popf => if c.cpl = 0 then some { c.discard 1 with eflags := c.peek 0 } else none
  | .movImm16 r s => some (c.set (withLow (c.get r) s) r)
  | .movFromSeg r s => some (c.set (withLow (c.get r) (c.getSeg s)) r)
  | .movToSeg s r => some (c.setSeg (wordSel (c.get r)) s)
  | .load r disp base => some (c.set (c.mem.read (c.get base + disp)) r)
  | .store disp base r => some { c with mem := c.mem.write (c.get base + disp) (c.get r) }
  | .lea r disp base => some (c.set (c.get base + disp) r)
  | .movFromCr3 r => if c.cpl = 0 then some (c.set c.cr3 r) else none
  | .movToCr3 r => if c.cpl = 0 then some { c with cr3 := c.get r } else none
  | .addImm r w => some ((c.addFlags (c.get r) w).set (c.get r + w) r)
  | .orImm r w => some ((c.withStatus (c.get r ||| w) false false false).set (c.get r ||| w) r)
  | .test r s => some (c.withStatus (c.get r &&& c.get s) false false false)
  | .cmp r s => some (c.subFlags (c.get r) (c.get s))
  | .jz _ => some c
  | .call f back => do
      let c' ← f (c.push back)
      if c'.eip = back then return c' else none
  | .int f => f c
  | .ret => some { c.discard 1 with eip := c.peek 0 }
  | .iret => if c.cpl = 0 then some c.iret else none

/-- Run to the end, after the first `skip` instructions are left out. -/
def runFrom : ℕ → List Instr → Cpu → Option Cpu
  | 0, [], c => some c
  | _ + 1, [], _ => none
  | skip + 1, _ :: is, c => runFrom skip is c
  | 0, .jz n :: is, c => runFrom (if c.zf then n else 0) is c
  | 0, i :: is, c => (step c i).bind (runFrom 0 is)

def exec (is : List Instr) (c : Cpu) : Option Cpu := runFrom 0 is c

variable {c c' : Cpu} {i : Instr} {is js : List Instr} {n : ℕ} {w : Word} {ws vs : List Word}

/-! ## Rules for programs -/

@[simp] theorem exec_nil : exec [] c = some c := rfl

/-- No instruction but `jz` leaves the line. -/
theorem exec_cons (hi : ∀ n, i ≠ .jz n) : exec (i :: is) c = (step c i).bind (exec is) := by
  cases i with
  | jz n => exact absurd rfl (hi n)
  | _ => rfl

theorem exec_step (hi : ∀ n, i ≠ .jz n) (hs : step c i = some c') :
    exec (i :: is) c = exec is c' := by
  rw [exec_cons hi, hs, Option.bind_some]

theorem exec_jz_taken (h : c.zf = true) (hn : n ≤ is.length) :
    exec (.jz n :: is) c = exec (is.drop n) c := by
  have hskip : ∀ {n : ℕ} {is : List Instr}, n ≤ is.length →
      runFrom n is c = runFrom 0 (is.drop n) c := by
    intro n is hn
    induction n generalizing is with
    | zero => rfl
    | succ n ih =>
        cases is with
        | nil => exact absurd hn (by simp)
        | cons i is => exact ih (by simpa using hn)
  rw [exec, runFrom, if_pos h, hskip hn, exec]

theorem exec_jz_passed (h : c.zf = false) : exec (.jz n :: is) c = exec is c := by
  rw [exec, runFrom, if_neg (by simp [h]), exec]

theorem exec_movFromCr3 (h0 : c.cpl = 0) (r : Reg) :
    exec (.movFromCr3 r :: is) c = exec is (c.set c.cr3 r) :=
  exec_step (by simp) (by rw [step, if_pos h0])

theorem exec_movToCr3 (h0 : c.cpl = 0) (r : Reg) :
    exec (.movToCr3 r :: is) c = exec is { c with cr3 := c.get r } :=
  exec_step (by simp) (by rw [step, if_pos h0])

/-- A program that gets to its end is followed by the next. -/
theorem exec_append (h : exec is c = some c') : exec (is ++ js) c = exec js c' := by
  have hrun : ∀ (skip : ℕ) (is : List Instr) (c : Cpu), runFrom skip is c = some c' →
      runFrom skip (is ++ js) c = runFrom 0 js c' := by
    intro skip is
    induction is generalizing skip with
    | nil =>
        intro c h
        cases skip with
        | zero =>
            obtain rfl := Option.some.inj h
            rfl
        | succ skip => cases h
    | cons i is ih =>
        intro c h
        cases skip with
        | succ skip => exact ih skip c h
        | zero =>
            by_cases hi : ∀ n, i ≠ .jz n
            · have hcons : exec (i :: is) c = (step c i).bind (exec is) := exec_cons hi
              rw [exec, h] at hcons
              obtain ⟨c₁, hstep, hrest⟩ := Option.bind_eq_some_iff.mp hcons.symm
              have happend : exec (i :: (is ++ js)) c = exec (is ++ js) c₁ := exec_step hi hstep
              exact happend.trans (ih 0 c₁ hrest)
            · push Not at hi
              obtain ⟨n, rfl⟩ := hi
              exact ih _ c h
  exact hrun 0 is c h

/-! ## Rules for the stack -/

namespace Cpu

theorem general_length (c : Cpu) : c.general.length = 8 := rfl

/-- The words `ws` are on the stack, the top first. -/
def Holds (c : Cpu) (ws : List Word) : Prop := c.mem.At c.esp ws

theorem Holds.push (h : c.Holds ws) (hlen : 4 * (ws.length + 1) ≤ 2 ^ 32) (w : Word) :
    (c.push w).Holds (w :: ws) :=
  Memory.At.push h hlen w

theorem Holds.peek (h : c.Holds ws) {i : ℕ} (hi : i < ws.length) : c.peek i = ws[i] :=
  Memory.At.read h hi

theorem Holds.discard (h : c.Holds (ws ++ vs)) : (c.discard ws.length).Holds vs :=
  (Memory.at_append.mp h).2

theorem Holds.pushAll (h : c.Holds ws) (vs : List Word)
    (hlen : 4 * (vs.length + ws.length) ≤ 2 ^ 32) : (c.pushAll vs).Holds (vs.reverse ++ ws) := by
  induction vs generalizing c ws with
  | nil => exact h
  | cons v vs ih =>
      rw [List.length_cons] at hlen
      have hpush := ih (h.push (by omega) v) (by rw [List.length_cons]; omega)
      rwa [List.reverse_cons, List.append_assoc]

theorem pushAll_esp (c : Cpu) (vs : List Word) :
    (c.pushAll vs).esp = c.esp - BitVec.ofNat 32 (4 * vs.length) := by
  induction vs generalizing c with
  | nil => simp [pushAll]
  | cons v vs ih =>
      change ((c.push v).pushAll vs).esp = _
      rw [ih, push, List.length_cons]
      dsimp only
      bv_omega

theorem pushAll_concat (c : Cpu) (vs : List Word) (w : Word) :
    c.pushAll (vs ++ [w]) = (c.pushAll vs).push w :=
  List.foldl_append

/-- Pushes change the stack alone. -/
theorem pushAll_eq (c : Cpu) (vs : List Word) :
    c.pushAll vs = { c with esp := (c.pushAll vs).esp, mem := (c.pushAll vs).mem } := by
  induction vs generalizing c with
  | nil => rfl
  | cons v vs ih =>
      change (c.push v).pushAll vs = _
      rw [ih]
      rfl

end Cpu

end Processor
