import EclipseOS.Traps

/-!
# User mode and system calls

The code of `usermode.S`, and of `syscall.S` in the C library.  A wrapper of the
library calls `syscall` with the number and five arguments; the trap takes them
to `syscall_handler` in the frame, and its result comes back in `eax`.
-/

namespace EclipseOS

open Processor WordStack

namespace Asm

def USER_CODE : BitVec 16 := 0x1B
def USER_DATA : BitVec 16 := 0x23

/-! ## Entry to user mode -/

/-- The arguments of `jump_usermode`, and the segments of user mode. -/
def userSegments : List Instr :=
  [.load .eax 4 .esp, .load .ebx 8 .esp, .movImm16 .ecx 0x23, .movToSeg .ds .ecx,
    .movToSeg .es .ecx, .movToSeg .fs .ecx, .movToSeg .gs .ecx]

def interruptFlag : List Instr := [.pushf, .pop .ecx, .orImm .ecx 0x200]

def jumpUsermode : List Instr :=
  userSegments ++ [.pushImm 0x23, .push .ebx] ++ interruptFlag ++
    [.push .ecx, .pushImm 0x1B, .push .eax, .iret]

theorem exec_userSegments {c : Cpu} {ret entry stack : Word} {ws : List Word}
    (h : c.Holds (ret :: entry :: stack :: ws)) : exec userSegments c = some { c with
      eax := entry
      ebx := stack
      ecx := withLow c.ecx USER_DATA
      ds := USER_DATA
      es := USER_DATA
      fs := USER_DATA
      gs := USER_DATA } := by
  have hentry : c.mem.read (c.esp + 4) = entry := h.peek (i := 1) (by simp)
  have hstack : c.mem.read (c.esp + 8) = stack := h.peek (i := 2) (by simp)
  simp only [userSegments, exec, runFrom, step, Option.bind_some, Cpu.get, Cpu.set, Cpu.setSeg,
    hentry, hstack, wordSel_withLow, USER_DATA]

theorem exec_interruptFlag (c : Cpu) : ∃ f, exec interruptFlag c = some { c with
    ecx := c.eflags ||| Cpu.IF_MASK
    eflags := f
    mem := c.mem.write (c.esp - 4) c.eflags } := by
  have hback : c.esp - 4 + BitVec.ofNat 32 (4 * 1) = c.esp := BitVec.sub_add_cancel ..
  simp only [interruptFlag, exec, runFrom, step, Option.bind_some, Cpu.get, Cpu.set, Cpu.push,
    Cpu.peek, Cpu.discard, Memory.offset_zero, hback, Memory.read_write_self, Cpu.withStatus,
    Cpu.IF_MASK]
  exact ⟨_, rfl⟩

/-- The return of `jump_usermode` into the frame that it has made. -/
theorem exec_userFrame {c : Cpu} {stack : Word} (h0 : c.cpl = 0) (h : c.Holds [stack, 0x23]) :
    ∃ d, exec [.push .ecx, .pushImm 0x1B, .push .eax, .iret] c = some d ∧ d.eip = c.eax ∧
      d.esp = stack ∧ d.eflags = c.ecx ∧ d.cs = USER_CODE ∧ d.ss = USER_DATA ∧ d.cr3 = c.cr3 ∧
      ∀ s, d.getSeg s = c.getSeg s := by
  have hframe := ((h.push (by simp) c.ecx).push (by simp) 0x1B).push (by simp) c.eax
  set e := ((c.push c.ecx).push 0x1B).push c.eax with he
  have hpushes : exec [.push .ecx, .pushImm 0x1B, .push .eax, .iret] c = exec [.iret] e := by
    rw [exec_step (by simp) rfl, exec_step (by simp) rfl, exec_step (by simp) rfl]
    rfl
  have hlevel : e.cpl = 0 := h0
  have hseg : ∀ s, e.getSeg s = c.getSeg s := fun s ↦ by cases s <;> rfl
  have hcr3 : e.cr3 = c.cr3 := rfl
  have hiret : exec [.iret] e = some e.iret := by
    rw [exec_step (by simp) (by rw [step, if_pos hlevel]), exec_nil]
  have h₀ : e.peek 0 = c.eax := hframe.peek (i := 0) (by simp)
  have h₁ : e.peek 1 = 0x1B := hframe.peek (i := 1) (by simp)
  have h₂ : e.peek 2 = c.ecx := hframe.peek (i := 2) (by simp)
  have h₃ : e.peek 3 = stack := hframe.peek (i := 3) (by simp)
  have h₄ : e.peek 4 = 0x23 := hframe.peek (i := 4) (by simp)
  have hrpl : ¬ rpl (wordSel (0x1B : Word)) = 0 := by decide
  have hcode : wordSel (0x1B : Word) = USER_CODE := by decide
  have hdata : wordSel (0x23 : Word) = USER_DATA := by decide
  clear_value e
  refine ⟨e.iret, by rw [hpushes, hiret], ?_⟩
  rw [Cpu.iret, h₀, h₁, h₂, h₃, h₄]
  dsimp only
  rw [if_neg hrpl]
  refine ⟨rfl, rfl, rfl, hcode, hdata, hcr3, fun s ↦ ?_⟩
  rw [← hseg s]
  cases s <;> rfl

/-- `jump_usermode` goes to level 3 at its first argument, with its second for the stack
and with interrupts on. -/
theorem jump_usermode_enters {c : Cpu} {ret entry stack : Word} {ws : List Word} (h0 : c.cpl = 0)
    (h : c.Holds (ret :: entry :: stack :: ws)) : ∃ d, exec jumpUsermode c = some d ∧
      d.eip = entry ∧ d.esp = stack ∧ d.eflags = c.eflags ||| Cpu.IF_MASK ∧ d.cs = USER_CODE ∧
      d.ss = USER_DATA ∧ d.cr3 = c.cr3 ∧ ∀ s, d.getSeg s = USER_DATA := by
  have hload := exec_userSegments h
  set q : Cpu := { c with
    eax := entry
    ebx := stack
    ecx := withLow c.ecx USER_DATA
    ds := USER_DATA
    es := USER_DATA
    fs := USER_DATA
    gs := USER_DATA } with hq
  have hempty : q.Holds [] := trivial
  have hstack := (hempty.push (by simp) 0x23).push (by simp) stack
  set p := (q.push 0x23).push stack with hp
  have hpushes : exec [.pushImm 0x23, .push .ebx] q = some p := rfl
  obtain ⟨f, hflag⟩ := exec_interruptFlag p
  set e : Cpu := { p with
    ecx := p.eflags ||| Cpu.IF_MASK
    eflags := f
    mem := p.mem.write (p.esp - 4) p.eflags } with he
  have hheld : e.Holds [stack, 0x23] := by
    have hflags : (p.push p.eflags).Holds ([p.eflags] ++ [stack, 0x23]) :=
      hstack.push (by simp) p.eflags
    have hpopped := hflags.discard
    have hback : p.esp - 4 + BitVec.ofNat 32 (4 * 1) = p.esp := BitVec.sub_add_cancel ..
    rw [Cpu.Holds, Cpu.discard, Cpu.push, List.length_singleton, hback] at hpopped
    exact hpopped
  obtain ⟨d, hrun, heip, hesp, heflags, hcs, hss, hcr3, hseg⟩ := exec_userFrame (c := e) h0 hheld
  refine ⟨d, ?_, heip, hesp, heflags, hcs, hss, hcr3, fun s ↦ ?_⟩
  · rw [jumpUsermode, List.append_assoc, List.append_assoc, exec_append hload, exec_append hpushes,
      exec_append hflag, hrun]
  · rw [hseg]
    cases s <;> rfl

/-! ## System calls -/

/-- `syscall` to the trap. -/
def syscallHead : List Instr :=
  [.push .ebx, .push .esi, .push .edi, .load .eax 16 .esp, .load .ebx 20 .esp, .load .ecx 24 .esp,
    .load .edx 28 .esp, .load .esi 32 .esp, .load .edi 36 .esp]

def syscallTail : List Instr := [.pop .edi, .pop .esi, .pop .ebx, .ret]

/-- `syscall`, over what `int $0x80` does. -/
def syscall (service : Cpu → Option Cpu) : List Instr :=
  syscallHead ++ .int service :: syscallTail

/-- The gate of the system calls, with the handler that it comes to. -/
def syscallGate (handler : Cpu → Option Cpu) (offset esp0 back : Word) (c : Cpu) : Option Cpu :=
  exec (isr 128 handler back) (trapped c 128 offset esp0 0)

variable {c : Cpu} {ret number a₁ a₂ a₃ a₄ a₅ : Word} {ws : List Word}

/-- The processor at `int $0x80`. -/
def calling (c : Cpu) (number a₁ a₂ a₃ a₄ a₅ : Word) : Cpu :=
  { c.pushAll [c.ebx, c.esi, c.edi] with
    eax := number
    ebx := a₁
    ecx := a₂
    edx := a₃
    esi := a₄
    edi := a₅ }

theorem exec_syscallHead (h : c.Holds (ret :: number :: a₁ :: a₂ :: a₃ :: a₄ :: a₅ :: ws))
    (hlen : 4 * (ws.length + 10) ≤ 2 ^ 32) :
    exec syscallHead c = some (calling c number a₁ a₂ a₃ a₄ a₅) := by
  have hheld : (c.pushAll [c.ebx, c.esi, c.edi]).Holds
      (c.edi :: c.esi :: c.ebx :: ret :: number :: a₁ :: a₂ :: a₃ :: a₄ :: a₅ :: ws) :=
    h.pushAll [c.ebx, c.esi, c.edi] (by
      simp only [List.length_cons, List.length_nil]
      omega)
  have hpushes : exec syscallHead c = exec [.load .eax 16 .esp, .load .ebx 20 .esp,
      .load .ecx 24 .esp, .load .edx 28 .esp, .load .esi 32 .esp, .load .edi 36 .esp]
        (c.pushAll [c.ebx, c.esi, c.edi]) := by
    rw [syscallHead, exec_step (by simp) rfl, exec_step (by simp) rfl, exec_step (by simp) rfl]
    rfl
  rw [hpushes, calling]
  generalize c.pushAll [c.ebx, c.esi, c.edi] = q at hheld
  have h₄ : q.mem.read (q.esp + 16) = number := hheld.peek (i := 4) (by simp)
  have h₅ : q.mem.read (q.esp + 20) = a₁ := hheld.peek (i := 5) (by simp)
  have h₆ : q.mem.read (q.esp + 24) = a₂ := hheld.peek (i := 6) (by simp)
  have h₇ : q.mem.read (q.esp + 28) = a₃ := hheld.peek (i := 7) (by simp)
  have h₈ : q.mem.read (q.esp + 32) = a₄ := hheld.peek (i := 8) (by simp)
  have h₉ : q.mem.read (q.esp + 36) = a₅ := hheld.peek (i := 9) (by simp)
  simp only [exec, runFrom, step, Option.bind_some, Cpu.get, Cpu.set, h₄, h₅, h₆, h₇, h₈, h₉]

/-- The end of `syscall` takes its caller's registers off the stack. -/
theorem exec_syscallTail {bx si di : Word} (h : c.Holds (di :: si :: bx :: ret :: ws)) :
    exec syscallTail c = some { c.discard 4 with
      eip := ret
      ebx := bx
      esi := si
      edi := di } := by
  have h₀ : c.mem.read (c.esp + BitVec.ofNat 32 (4 * 0)) = di := h.peek (i := 0) (by simp)
  have h₁ : c.mem.read (c.esp + BitVec.ofNat 32 (4 * 1)) = si := h.peek (i := 1) (by simp)
  have h₂ : c.mem.read (c.esp + BitVec.ofNat 32 (4 * 2)) = bx := h.peek (i := 2) (by simp)
  have h₃ : c.mem.read (c.esp + BitVec.ofNat 32 (4 * 3)) = ret := h.peek (i := 3) (by simp)
  simp only [exec, runFrom, syscallTail, step, Option.bind_some, Cpu.set, Cpu.discard, Cpu.peek,
    Memory.offset_add, Nat.reduceAdd, h₀, h₁, h₂, h₃]

theorem calling_regs (c : Cpu) (number a₁ a₂ a₃ a₄ a₅ : Word) :
    (calling c number a₁ a₂ a₃ a₄ a₅).ebp = c.ebp ∧
    (calling c number a₁ a₂ a₃ a₄ a₅).eflags = c.eflags ∧
    (calling c number a₁ a₂ a₃ a₄ a₅).cs = c.cs ∧
    (calling c number a₁ a₂ a₃ a₄ a₅).ss = c.ss ∧
    (calling c number a₁ a₂ a₃ a₄ a₅).ds = c.ds := by
  rw [calling, Cpu.pushAll_eq]
  exact ⟨rfl, rfl, rfl, rfl, rfl⟩

theorem calling_esp (c : Cpu) (number a₁ a₂ a₃ a₄ a₅ : Word) :
    (calling c number a₁ a₂ a₃ a₄ a₅).esp = c.esp - 12 :=
  Cpu.pushAll_esp c [c.ebx, c.esi, c.edi]

/-- What `syscall_handler` takes from the frame: the number and the arguments. -/
def request (r : Registers) : List ℕ := [r.eax, r.ebx, r.ecx, r.edx, r.esi, r.edi]

/-- A C function called in the context `c` has returned `w` to `ret`.  The trap stub
reloads `es`, `fs` and `gs` with the `ds` of its caller, which C code keeps equal. -/
structure ReturnedTo (c e : Cpu) (ret w : Word) : Prop where
  eax : e.eax = w
  ebx : e.ebx = c.ebx
  esi : e.esi = c.esi
  edi : e.edi = c.edi
  ebp : e.ebp = c.ebp
  esp : e.esp = c.esp + 4
  eip : e.eip = ret
  eflags : e.eflags = c.eflags
  cs : e.cs = c.cs
  ss : e.ss = c.ss
  ds : e.ds = c.ds
  es : e.es = c.ds
  fs : e.fs = c.ds
  gs : e.gs = c.ds

/-- A system call takes the number and the arguments to the handler in the frame, and
returns to the caller of `syscall` with the handler's result, by the rules for C
functions. -/
theorem system_call (huser : c.cpl ≠ 0)
    (h : c.Holds (ret :: number :: a₁ :: a₂ :: a₃ :: a₄ :: a₅ :: ws))
    (hlen : 4 * (ws.length + 10) ≤ 2 ^ 32) (offset esp0 back : Word) :
    ∃ d, exec syscallHead c = some d ∧
      request (savedFrame d 128 esp0 0) = [number, a₁, a₂, a₃, a₄, a₅].map BitVec.toNat ∧
      (handling d 128 offset esp0 0).Holds ((esp0 - 64) :: (savedFrame d 128 esp0 0).frame) ∧
      ∀ (handler : Cpu → Option Cpu) (w : Word) (c₂ : Cpu),
        handler ((handling d 128 offset esp0 0).push back) = some c₂ →
        Returned (handling d 128 offset esp0 0) c₂ back
          { savedFrame d 128 esp0 0 with eax := w.toNat } →
        c₂.mem.At d.esp [c.edi, c.esi, c.ebx, ret] →
        ∃ e, exec (syscall (syscallGate handler offset esp0 back)) c = some e ∧
          ReturnedTo c e ret w := by
  have hhead := exec_syscallHead h hlen
  obtain ⟨hebp, heflags, hcs, hss, hds⟩ := calling_regs c number a₁ a₂ a₃ a₄ a₅
  have hesp := calling_esp c number a₁ a₂ a₃ a₄ a₅
  have hrequest : request (savedFrame (calling c number a₁ a₂ a₃ a₄ a₅) 128 esp0 0) =
      [number, a₁, a₂, a₃, a₄, a₅].map BitVec.toNat := rfl
  generalize calling c number a₁ a₂ a₃ a₄ a₅ = d at *
  have hduser : d.cpl ≠ 0 := by
    rw [Cpu.cpl, hcs]
    exact huser
  have hheld := handling_holds d 128 offset esp0 0
  rw [show trapBase d esp0 = esp0 from if_neg hduser] at hheld
  refine ⟨d, hhead, hrequest, hheld, fun handler w c₂ hrun hret hsaved ↦ ?_⟩
  set u : Cpu := { d with
    eax := w
    es := d.ds
    fs := d.ds
    gs := d.ds
    cr3 := c₂.cr3
    mem := c₂.mem } with hu
  have hgate : step d (.int (syscallGate handler offset esp0 back)) = some u := by
    rw [step, syscallGate, exec_isr hrun hret, resume_savedFrame (fun h0 ↦ absurd h0 hduser)
      fun h0 ↦ absurd h0 hduser]
    rfl
  have hsaved' : u.Holds (c.edi :: c.esi :: c.ebx :: ret :: []) := hsaved
  have htail := exec_syscallTail hsaved'
  have hexec : exec (syscall (syscallGate handler offset esp0 back)) c = exec syscallTail u := by
    rw [syscall, exec_append hhead, exec_step (by simp) hgate]
  rw [htail] at hexec
  have hpopped : d.esp + BitVec.ofNat 32 (4 * 4) = c.esp + 4 := by
    rw [hesp]
    bv_omega
  exact ⟨_, hexec, rfl, rfl, rfl, rfl, hebp, hpopped, rfl, heflags, hcs, hss, hds, hds, hds, hds⟩

end Asm

namespace Sample

open Asm

/-- User code that has called `syscall` for `read(3, 0x402000, 16)`. -/
def caller : Cpu := userCode.pushAll [0, 0, 16, 0x402000, 3, 2, 0x400123]

theorem caller_holds : caller.Holds [0x400123, 2, 3, 0x402000, 16, 0, 0] := by
  have hempty : userCode.Holds [] := trivial
  exact hempty.pushAll [0, 0, 16, 0x402000, 3, 2, 0x400123] (by decide)

theorem caller_returns : ∃ e,
    exec (syscall (syscallGate idle 0x101200 0xC0001000 0x101234)) caller = some e ∧
      ReturnedTo caller e 0x400123 2 := by
  obtain ⟨d, hhead, -, hheld, hreturn⟩ := system_call (c := caller) (by decide) caller_holds
    (by decide) 0x101200 0xC0001000 0x101234
  obtain rfl : calling caller 2 3 0x402000 16 0 0 = d :=
    Option.some.inj ((exec_syscallHead caller_holds (by decide)).symm.trans hhead)
  obtain ⟨c₂, hrun, hret, hmem⟩ := idle_returned (handling_regs _ 128 0x101200 0xC0001000 0).1 hheld
    0x101234
  refine hreturn idle 2 c₂ hrun hret ?_
  rw [hmem]
  decide

end Sample

end EclipseOS
