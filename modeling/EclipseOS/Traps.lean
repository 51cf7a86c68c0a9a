import EclipseOS.Lib.Processor
import EclipseOS.Kernel

/-!
# Interrupt stubs

The code of `isr_asm.S` and `fork_asm.S`.  A stub pushes what `struct registers`
needs below the words that the processor has pushed, calls the C handler with a
pointer to it, and unwinds.
-/

namespace EclipseOS

open Processor WordStack

/-- The words of `struct registers` on a stack. -/
def Registers.frame (r : Registers) : List Word := r.words.map (BitVec.ofNat 32)

namespace Asm

def KERNEL_CODE : BitVec 16 := 0x08
def KERNEL_DATA : BitVec 16 := 0x10

/-- `fork_trampoline`, and the tail of `isr_common` and `irq_common`. -/
def forkTrampoline : List Instr :=
  [.pop .eax, .movToSeg .ds .eax, .movToSeg .es .eax, .movToSeg .fs .eax, .movToSeg .gs .eax,
    .popa, .addImm .esp 8, .iret]

/-- `isr_common` and `irq_common` to the argument of the handler. -/
def commonHead : List Instr :=
  [.pusha, .movFromSeg .eax .ds, .push .eax, .movImm16 .eax 0x10, .movToSeg .ds .eax,
    .movToSeg .es .eax, .movToSeg .fs .eax, .movToSeg .gs .eax, .push .esp]

/-- `isr_common` and `irq_common`; `back` is the address after the call. -/
def common (handler : Cpu → Option Cpu) (back : Word) : List Instr :=
  commonHead ++ .call handler back :: .addImm .esp 4 :: forkTrampoline

/-- `ISR_NOERR`, `IRQ` and `isr128`. -/
def stubNoErr (vector : Word) : List Instr := [.cli, .pushImm 0, .pushImm vector]

/-- `ISR_ERR`: the processor has pushed the error code. -/
def stubErr (vector : Word) : List Instr := [.cli, .pushImm vector]

/-- The exceptions that are declared with `ISR_ERR`. -/
def errVectors : List ℕ := [8, 10, 11, 12, 13, 14, 17, 21, 29, 30]

/-- The stub of a vector up to its `jmp`. -/
def stub (vector : ℕ) : List Instr :=
  if vector ∈ errVectors then stubErr (BitVec.ofNat 32 vector)
  else stubNoErr (BitVec.ofNat 32 vector)

/-- From the first instruction of the stub to the call of the handler. -/
def entry (vector : ℕ) : List Instr := stub vector ++ commonHead

def isr (vector : ℕ) (handler : Cpu → Option Cpu) (back : Word) : List Instr :=
  stub vector ++ common handler back

/-- The processor as the end of a stub leaves it: in the context of the frame, which
was at the top of the stack. -/
def resume (c : Cpu) (r : Registers) : Cpu :=
  let cs := wordSel (BitVec.ofNat 32 r.cs)
  let ds := wordSel (BitVec.ofNat 32 r.ds)
  { c with
    eax := BitVec.ofNat 32 r.eax
    ecx := BitVec.ofNat 32 r.ecx
    edx := BitVec.ofNat 32 r.edx
    ebx := BitVec.ofNat 32 r.ebx
    ebp := BitVec.ofNat 32 r.ebp
    esi := BitVec.ofNat 32 r.esi
    edi := BitVec.ofNat 32 r.edi
    eip := BitVec.ofNat 32 r.eip
    eflags := BitVec.ofNat 32 r.eflags
    cs := cs
    ds := ds
    es := ds
    fs := ds
    gs := ds
    esp := if rpl cs = 0 then c.esp + 56 else BitVec.ofNat 32 r.useresp
    ss := if rpl cs = 0 then c.ss else wordSel (BitVec.ofNat 32 r.ss) }

theorem frame_peek {c : Cpu} {r : Registers} {ws : List Word} (h : c.Holds (r.frame ++ ws)) {i : ℕ}
    (hi : i < 16) : c.mem.read (c.esp + BitVec.ofNat 32 (4 * i)) =
      BitVec.ofNat 32 (r.words.getD i 0) := by
  have hlen : i < r.words.length := hi
  have hlen' : i < r.frame.length := by rwa [Registers.frame, List.length_map]
  have hpeek := h.peek (i := i) (by rw [List.length_append]; omega)
  rw [List.getElem_append_left hlen'] at hpeek
  rw [← Cpu.peek, hpeek, List.getD_eq_getElem?_getD, List.getElem?_eq_getElem hlen]
  exact List.getElem_map ..

/-- `fork_trampoline` takes the frame off the stack. -/
theorem exec_forkTrampoline {c : Cpu} {r : Registers} {ws : List Word} (h0 : c.cpl = 0)
    (h : c.Holds (r.frame ++ ws)) : exec forkTrampoline c = some (resume c r) := by
  have height : (8 : Word) = BitVec.ofNat 32 (4 * 2) := rfl
  simp only [exec, runFrom, forkTrampoline, step, Option.bind_some, Cpu.set, Cpu.setSeg, Cpu.get,
    Cpu.discard, Cpu.peek, Cpu.addFlags, Cpu.withStatus, Cpu.iret, Cpu.cpl, height,
    Memory.offset_add] at h0 ⊢
  rw [if_pos h0, Option.bind_some, frame_peek h (by norm_num : 0 < 16),
    frame_peek h (by norm_num : 1 + 0 < 16), frame_peek h (by norm_num : 1 + 1 < 16),
    frame_peek h (by norm_num : 1 + 2 < 16), frame_peek h (by norm_num : 1 + 4 < 16),
    frame_peek h (by norm_num : 1 + 5 < 16), frame_peek h (by norm_num : 1 + 6 < 16),
    frame_peek h (by norm_num : 1 + 7 < 16), frame_peek h (by norm_num : 1 + 8 + 2 + 0 < 16),
    frame_peek h (by norm_num : 1 + 8 + 2 + 1 < 16),
    frame_peek h (by norm_num : 1 + 8 + 2 + 2 < 16),
    frame_peek h (by norm_num : 1 + 8 + 2 + 3 < 16),
    frame_peek h (by norm_num : 1 + 8 + 2 + 4 < 16)]
  change some (if rpl (wordSel (BitVec.ofNat 32 r.cs)) = 0 then _ else _) = _
  rw [resume]
  split_ifs <;> rfl

/-! ## Entry -/

/-- The frame of a trap: `useresp` and `ss` are the processor's when it changed stacks. -/
def frameOf (c : Cpu) (vector err esp : Word) : Registers where
  ds := (withLow c.eax c.ds).toNat
  edi := c.edi.toNat
  esi := c.esi.toNat
  ebp := c.ebp.toNat
  espDummy := esp.toNat
  ebx := c.ebx.toNat
  edx := c.edx.toNat
  ecx := c.ecx.toNat
  eax := c.eax.toNat
  intNo := vector.toNat
  errCode := err.toNat
  eip := c.eip.toNat
  cs := (selWord c.cs).toNat
  eflags := c.eflags.toNat
  useresp := if c.cpl = 0 then (c.peek 0).toNat else c.esp.toNat
  ss := if c.cpl = 0 then (c.peek 1).toNat else (selWord c.ss).toNat

/-- The error code that the processor pushes. -/
def pushedErr (vector : ℕ) (err : Word) : Option Word :=
  if vector ∈ Cpu.errorCodes then some err else none

/-- The right exceptions are declared with `ISR_ERR`. -/
theorem pushedErr_eq (vector : ℕ) (err : Word) :
    pushedErr vector err = if vector ∈ errVectors then some err else none :=
  rfl

/-- The processor at the stub of a vector. -/
def trapped (c : Cpu) (vector : ℕ) (offset esp0 err : Word) : Cpu :=
  c.enter offset KERNEL_CODE KERNEL_DATA esp0 (pushedErr vector err)

/-- What the processor pushes. -/
theorem trapped_holds (c : Cpu) (vector : ℕ) (offset esp0 err : Word) :
    (trapped c vector offset esp0 err).Holds ((pushedErr vector err).toList ++
      [c.eip, selWord c.cs, c.eflags, if c.cpl = 0 then c.peek 0 else c.esp,
        if c.cpl = 0 then c.peek 1 else selWord c.ss]) := by
  have hbase : ∀ {d : Cpu} {u s : Word}, d.Holds [u, s] →
      (((d.push c.eflags).push (selWord c.cs)).push c.eip).Holds
        [c.eip, selWord c.cs, c.eflags, u, s] := by
    intro d u s h
    exact ((h.push (by simp) _).push (by simp) _).push (by simp) _
  have herr : ∀ {d : Cpu} {ws : List Word}, d.Holds ws → ws.length = 5 →
      ((pushedErr vector err).elim d d.push).Holds ((pushedErr vector err).toList ++ ws) := by
    intro d ws h hlen
    cases pushedErr vector err with
    | none => exact h
    | some w => exact h.push (by rw [hlen]; norm_num) w
  by_cases h0 : c.cpl = 0
  · rw [if_pos h0, if_pos h0]
    have hstack : c.Holds [c.peek 0, c.peek 1] := by
      refine ⟨?_, rfl, trivial⟩
      simp [Cpu.peek]
    have h := herr (hbase hstack) rfl
    simp only [trapped, Cpu.enter, if_pos h0]
    exact h
  · rw [if_neg h0, if_neg h0]
    have hempty : ({ c with ss := KERNEL_DATA, esp := esp0 } : Cpu).Holds [] := trivial
    have h := herr (hbase ((hempty.push (by simp) (selWord c.ss)).push (by simp) c.esp)) rfl
    simp only [trapped, Cpu.enter, if_neg h0]
    exact h

/-- `c` with the data segments of the kernel. -/
def kernelData (c : Cpu) : Cpu :=
  { c with
    eax := withLow c.eax KERNEL_DATA
    ds := KERNEL_DATA
    es := KERNEL_DATA
    fs := KERNEL_DATA
    gs := KERNEL_DATA }

/-- The processor at the call of the handler. -/
def called (c : Cpu) : Cpu :=
  let p := c.pushAll (c.general ++ [withLow c.eax c.ds])
  (kernelData { p with eax := withLow c.eax c.ds }).push p.esp

theorem exec_commonHead (c : Cpu) : exec commonHead c = some (called c) := by
  have hax : (c.pushAll c.general).eax = c.eax := by rw [Cpu.pushAll_eq]
  have hds : (c.pushAll c.general).ds = c.ds := by rw [Cpu.pushAll_eq]
  rw [called, Cpu.pushAll_concat]
  rw [commonHead, exec_step (by simp) rfl, ← hax, ← hds]
  generalize c.pushAll c.general = q
  simp only [exec, runFrom, step, Option.bind_some, Cpu.set, Cpu.setSeg, Cpu.get,
    Cpu.getSeg, wordSel_withLow, kernelData, Cpu.push, KERNEL_DATA]

theorem called_regs (c : Cpu) : (called c).cs = c.cs ∧ (called c).ss = c.ss ∧
    (called c).cr3 = c.cr3 := by
  rw [called, Cpu.pushAll_eq]
  exact ⟨rfl, rfl, rfl⟩

/-- The argument of the handler points to the words above it. -/
theorem called_esp (c : Cpu) : (called c).esp + 4 = c.esp - 36 := by
  have hesp := Cpu.pushAll_esp c (c.general ++ [withLow c.eax c.ds])
  change (c.pushAll (c.general ++ [withLow c.eax c.ds])).esp - 4 + 4 = _
  rw [hesp, List.length_append, Cpu.general_length, List.length_singleton]
  bv_omega

theorem called_holds {c : Cpu} {ws : List Word} (h : c.Holds ws) (hlen : ws.length ≤ 16) :
    (called c).Holds (((called c).esp + 4) :: withLow c.eax c.ds :: (c.general.reverse ++ ws)) := by
  have hall := h.pushAll (c.general ++ [withLow c.eax c.ds]) (by
    rw [List.length_append, Cpu.general_length, List.length_singleton]
    omega)
  rw [List.reverse_append, List.reverse_singleton, List.append_assoc] at hall
  generalize hq : c.pushAll (c.general ++ [withLow c.eax c.ds]) = q at hall
  have hcalled : called c = (kernelData { q with eax := withLow c.eax c.ds }).push q.esp := by
    rw [called, hq]
  have hheld : (kernelData { q with eax := withLow c.eax c.ds }).Holds
      ([withLow c.eax c.ds] ++ (c.general.reverse ++ ws)) := hall
  have hpush := hheld.push (by
    rw [List.length_append, List.length_append, List.length_reverse,
      Cpu.general_length, List.length_singleton]
    omega) q.esp
  rw [← hcalled] at hpush
  rwa [show (called c).esp + 4 = q.esp by rw [hcalled]; exact BitVec.sub_add_cancel ..]

/-- The processor at the `jmp` of a stub. -/
def stubbed (c : Cpu) (vector : ℕ) : Cpu :=
  let d := { c with eflags := c.eflags &&& ~~~Cpu.IF_MASK }
  if vector ∈ errVectors then d.push (BitVec.ofNat 32 vector)
  else (d.push 0).push (BitVec.ofNat 32 vector)

theorem exec_stub {c : Cpu} {vector : ℕ} (h0 : c.cpl = 0) :
    exec (stub vector) c = some (stubbed c vector) := by
  rw [stub, stubbed]
  split_ifs with hv
  · rw [stubErr, exec_step (by simp) (by rw [step, if_pos h0]), exec_step (by simp) rfl, exec_nil]
  · rw [stubNoErr, exec_step (by simp) (by rw [step, if_pos h0]), exec_step (by simp) rfl,
      exec_step (by simp) rfl, exec_nil]

/-- A stub leaves the number of its vector below an error code. -/
theorem stubbed_holds {c : Cpu} {vector : ℕ} {err : Word} {ws : List Word}
    (h : c.Holds ((pushedErr vector err).toList ++ ws)) (hlen : ws.length ≤ 5) :
    (stubbed c vector).Holds (BitVec.ofNat 32 vector :: (pushedErr vector err).getD 0 :: ws) := by
  set d : Cpu := { c with eflags := c.eflags &&& ~~~Cpu.IF_MASK } with hd
  have hheld : d.Holds ((pushedErr vector err).toList ++ ws) := h
  rw [stubbed, pushedErr_eq] at *
  split_ifs at * with hv
  · have hlen' : (err :: ws).length = ws.length + 1 := rfl
    exact hheld.push (by change 4 * ((err :: ws).length + 1) ≤ _; omega) _
  · rw [Option.toList_none, List.nil_append] at hheld
    exact (hheld.push (by omega) _).push (by rw [List.length_cons]; omega) _

theorem stubbed_regs (c : Cpu) (vector : ℕ) : (stubbed c vector).general =
    [c.eax, c.ecx, c.edx, c.ebx, (stubbed c vector).esp, c.ebp, c.esi, c.edi] ∧
    (stubbed c vector).cs = c.cs ∧ (stubbed c vector).ss = c.ss ∧
    (stubbed c vector).ds = c.ds ∧ (stubbed c vector).cr3 = c.cr3 := by
  rw [stubbed]
  split_ifs <;> exact ⟨rfl, rfl, rfl, rfl, rfl⟩

theorem stubbed_esp (c : Cpu) (vector : ℕ) :
    (stubbed c vector).esp = c.esp - if vector ∈ errVectors then 4 else 8 := by
  rw [stubbed]
  split_ifs
  · rfl
  · change c.esp - 4 - 4 = _
    bv_omega

/-- The stack top of a trap at level 0 or from an outer level. -/
def trapBase (c : Cpu) (esp0 : Word) : Word := if c.cpl = 0 then c.esp + 8 else esp0

theorem trapped_cpl (c : Cpu) (vector : ℕ) (offset esp0 err : Word) :
    (trapped c vector offset esp0 err).cpl = 0 := by
  have hcode : rpl KERNEL_CODE = 0 := by decide
  rw [trapped, Cpu.enter, Cpu.cpl, hcode]

theorem trapped_regs (c : Cpu) (vector : ℕ) (offset esp0 err : Word) :
    (trapped c vector offset esp0 err).general =
      [c.eax, c.ecx, c.edx, c.ebx, (trapped c vector offset esp0 err).esp, c.ebp, c.esi, c.edi] ∧
    (trapped c vector offset esp0 err).ss = (if c.cpl = 0 then c.ss else KERNEL_DATA) ∧
    (trapped c vector offset esp0 err).ds = c.ds ∧
    (trapped c vector offset esp0 err).cr3 = c.cr3 := by
  simp only [trapped, Cpu.enter, pushedErr_eq]
  split_ifs <;> simp only [Option.elim_some, Option.elim_none, Cpu.push, Cpu.general, and_self]

theorem trapped_esp (c : Cpu) (vector : ℕ) (offset esp0 err : Word) :
    (trapped c vector offset esp0 err).esp =
      trapBase c esp0 - if vector ∈ errVectors then 24 else 20 := by
  simp only [trapped, Cpu.enter, trapBase, pushedErr_eq]
  split_ifs <;> simp only [Option.elim_some, Option.elim_none, Cpu.push] <;> bv_omega

/-- The frame that a trap leaves at the call of the handler. -/
def savedFrame (c : Cpu) (vector : ℕ) (esp0 err : Word) : Registers :=
  frameOf c (BitVec.ofNat 32 vector) ((pushedErr vector err).getD 0) (trapBase c esp0 - 28)

/-- The processor at the call of the handler, from the context `c`. -/
def handling (c : Cpu) (vector : ℕ) (offset esp0 err : Word) : Cpu :=
  called (stubbed (trapped c vector offset esp0 err) vector)

theorem exec_entry (c : Cpu) (vector : ℕ) (offset esp0 err : Word) :
    exec (entry vector) (trapped c vector offset esp0 err) =
      some (handling c vector offset esp0 err) := by
  rw [entry, exec_append (exec_stub (trapped_cpl c vector offset esp0 err))]
  exact exec_commonHead _

theorem handling_esp (c : Cpu) (vector : ℕ) (offset esp0 err : Word) :
    (handling c vector offset esp0 err).esp + 4 = trapBase c esp0 - 64 := by
  rw [handling, called_esp, stubbed_esp, trapped_esp]
  split_ifs <;> bv_omega

theorem frameOf_frame (c : Cpu) (vector err esp : Word) : (frameOf c vector err esp).frame =
    [withLow c.eax c.ds, c.edi, c.esi, c.ebp, esp, c.ebx, c.edx, c.ecx, c.eax, vector, err, c.eip,
      selWord c.cs, c.eflags, if c.cpl = 0 then c.peek 0 else c.esp,
      if c.cpl = 0 then c.peek 1 else selWord c.ss] := by
  simp only [Registers.frame, Registers.words, frameOf, List.map_cons, List.map_nil,
    BitVec.ofNat_toNat, BitVec.setWidth_eq]
  split_ifs <;> simp only [BitVec.ofNat_toNat, BitVec.setWidth_eq]

/-- The argument of the handler points to a `struct registers` with the context. -/
theorem handling_holds (c : Cpu) (vector : ℕ) (offset esp0 err : Word) :
    (handling c vector offset esp0 err).Holds ((trapBase c esp0 - 64) ::
      (savedFrame c vector esp0 err).frame) := by
  set d := trapped c vector offset esp0 err with hd
  obtain ⟨hgeneral, -, hds, -⟩ := trapped_regs c vector offset esp0 err
  have hesp := trapped_esp c vector offset esp0 err
  rw [← hd] at hgeneral hds hesp
  obtain ⟨hregs, -, -, hds', -⟩ := stubbed_regs d vector
  have hstack := called_holds (stubbed_holds (trapped_holds c vector offset esp0 err)
    (by simp)) (by simp)
  have hdummy : (stubbed d vector).esp = trapBase c esp0 - 28 := by
    rw [stubbed_esp, hesp]
    split_ifs <;> bv_omega
  rw [← hd, ← handling, handling_esp, hregs, hdummy, hds', hds] at hstack
  simp only [Cpu.general, List.cons.injEq] at hgeneral hregs
  obtain ⟨hax, hcx, hdx, hbx, -, hbp, hsi, hdi, -⟩ := hgeneral
  rw [hregs.1, hax, hcx, hdx, hbx, hbp, hsi, hdi] at hstack
  rw [savedFrame, frameOf_frame]
  exact hstack

theorem handling_regs (c : Cpu) (vector : ℕ) (offset esp0 err : Word) :
    (handling c vector offset esp0 err).cpl = 0 ∧
    (handling c vector offset esp0 err).ss = (if c.cpl = 0 then c.ss else KERNEL_DATA) ∧
    (handling c vector offset esp0 err).cr3 = c.cr3 := by
  obtain ⟨hcs, hss, hcr3⟩ := called_regs (stubbed (trapped c vector offset esp0 err) vector)
  obtain ⟨-, hcs', hss', -, hcr3'⟩ := stubbed_regs (trapped c vector offset esp0 err) vector
  obtain ⟨-, hss'', -, hcr3''⟩ := trapped_regs c vector offset esp0 err
  refine ⟨?_, hss.trans (hss'.trans hss''), hcr3.trans (hcr3'.trans hcr3'')⟩
  rw [Cpu.cpl, handling, hcs, hcs']
  exact trapped_cpl c vector offset esp0 err

theorem handling_segments (c : Cpu) (vector : ℕ) (offset esp0 err : Word) (s : Seg) :
    (handling c vector offset esp0 err).getSeg s = KERNEL_DATA := by
  cases s <;> rfl

/-! ## Return -/

/-- A handler that was called from `c₁` has come back with the frame `r`. -/
structure Returned (c₁ c₂ : Cpu) (back : Word) (r : Registers) : Prop where
  eip : c₂.eip = back
  cpl : c₂.cpl = 0
  esp : c₂.esp = c₁.esp
  ss : c₂.ss = c₁.ss
  frame : c₂.mem.At (c₂.esp + 4) r.frame

theorem exec_isr {c : Cpu} {vector : ℕ} {offset esp0 err back : Word} {handler : Cpu → Option Cpu}
    {c₂ : Cpu} {r : Registers}
    (hrun : handler ((handling c vector offset esp0 err).push back) = some c₂)
    (hret : Returned (handling c vector offset esp0 err) c₂ back r) :
    exec (isr vector handler back) (trapped c vector offset esp0 err) =
      some (resume (c₂.discard 1) r) := by
  have hentry := exec_entry c vector offset esp0 err
  have hcall : step (handling c vector offset esp0 err) (.call handler back) = some c₂ := by
    rw [step, hrun, Option.bind_eq_bind, Option.bind_some, if_pos hret.eip]
    rfl
  set d : Cpu := (c₂.addFlags c₂.esp 4).set (c₂.esp + 4) .esp with hd
  have hadd : step c₂ (.addImm .esp 4) = some d := rfl
  have h0 : d.cpl = 0 := hret.cpl
  have hheld : d.Holds (r.frame ++ []) := by
    rw [List.append_nil]
    exact hret.frame
  have hprogram : isr vector handler back =
      entry vector ++ .call handler back :: .addImm .esp 4 :: forkTrampoline := by
    rw [isr, entry, common, List.append_assoc]
  rw [hprogram, exec_append hentry, exec_step (by simp) hcall, exec_step (by simp) hadd,
    exec_forkTrampoline h0 hheld]
  rfl

/-- The frame of a context brings it back. -/
theorem resume_savedFrame {c d : Cpu} {vector : ℕ} {esp0 err w : Word}
    (hesp : c.cpl = 0 → d.esp = trapBase c esp0 - 64) (hss : c.cpl = 0 → d.ss = c.ss) :
    resume d { savedFrame c vector esp0 err with eax := w.toNat } =
      { c with eax := w, es := c.ds, fs := c.ds, gs := c.ds, cr3 := d.cr3, mem := d.mem } := by
  have hcpl : rpl c.cs = c.cpl := rfl
  simp only [resume, savedFrame, frameOf, BitVec.ofNat_toNat, BitVec.setWidth_eq, wordSel_withLow,
    wordSel_selWord, hcpl]
  by_cases h0 : c.cpl = 0
  · have hbase : trapBase c esp0 - 64 + 56 = c.esp := by
      rw [trapBase, if_pos h0]
      bv_omega
    simp only [if_pos h0, hesp h0, hss h0, hbase]
  · simp only [if_neg h0, wordSel_selWord, BitVec.ofNat_toNat, BitVec.setWidth_eq]

/-- A trap saves the context that it interrupts below the stack top, and when the
handler, which runs at level 0 on the kernel's data segments, comes back with no change
to the frame but in `eax`, the context goes on with that value. -/
theorem trap_round_trip (c : Cpu) (vector : ℕ) (offset esp0 err : Word) :
    exec (entry vector) (trapped c vector offset esp0 err) =
        some (handling c vector offset esp0 err) ∧
      (handling c vector offset esp0 err).Holds ((trapBase c esp0 - 64) ::
        (savedFrame c vector esp0 err).frame) ∧
      (handling c vector offset esp0 err).cpl = 0 ∧
      (∀ s, (handling c vector offset esp0 err).getSeg s = KERNEL_DATA) ∧
      ∀ (handler : Cpu → Option Cpu) (back w : Word) (c₂ : Cpu),
        handler ((handling c vector offset esp0 err).push back) = some c₂ →
        Returned (handling c vector offset esp0 err) c₂ back
          { savedFrame c vector esp0 err with eax := w.toNat } →
        exec (isr vector handler back) (trapped c vector offset esp0 err) = some { c with
          eax := w
          es := c.ds
          fs := c.ds
          gs := c.ds
          cr3 := c₂.cr3
          mem := c₂.mem } := by
  refine ⟨exec_entry .., handling_holds .., (handling_regs ..).1, handling_segments c vector offset
    esp0 err, fun handler back w c₂ hrun hret ↦ ?_⟩
  rw [exec_isr hrun hret, resume_savedFrame]
  · rfl
  · intro _
    change c₂.esp + 4 = _
    rw [hret.esp, handling_esp]
  · intro h0
    change c₂.ss = _
    rw [hret.ss, (handling_regs c vector offset esp0 err).2.1, if_pos h0]

/-- A handler that comes back at once. -/
def idle (c : Cpu) : Option Cpu := some { c.discard 1 with eip := c.peek 0 }

theorem idle_returned {c : Cpu} {a : Word} {r : Registers} (h0 : c.cpl = 0)
    (h : c.Holds (a :: r.frame)) (back : Word) :
    ∃ c₂, idle (c.push back) = some c₂ ∧ Returned c c₂ back r ∧ c₂.mem = (c.push back).mem := by
  have hlen : r.frame.length = 16 := rfl
  obtain ⟨hback, -, hframe⟩ := h.push (by rw [List.length_cons, hlen]; norm_num) back
  have hesp : c.esp - 4 + 4 = c.esp := BitVec.sub_add_cancel ..
  refine ⟨_, rfl, ⟨?_, h0, hesp, rfl, hframe⟩, rfl⟩
  change Memory.read _ (c.esp - 4 + BitVec.ofNat 32 (4 * 0)) = back
  rw [Memory.offset_zero]
  exact hback

end Asm

namespace Sample

/-- User code with some values in its registers. -/
def userCode : Cpu where
  eax := 8
  ecx := 1
  edx := 2
  ebx := 3
  esp := 0xB0003FF0
  ebp := 4
  esi := 5
  edi := 6
  eip := 0x400010
  eflags := 0x202
  cs := 0x1B
  ss := 0x23
  ds := 0x23
  es := 0x23
  fs := 0x23
  gs := 0x23
  cr3 := 0x1000
  mem := fun _ ↦ 0

open Asm in
/-- A tick of the timer that does nothing. -/
theorem userCode_tick : ∃ c₂ : Cpu, exec (isr 32 idle 0x101234)
    (trapped userCode 32 0x101200 0xC0001000 0) = some { userCode with
      cr3 := c₂.cr3
      mem := c₂.mem } := by
  obtain ⟨c₂, hrun, hret, -⟩ := idle_returned (handling_regs userCode 32 0x101200 0xC0001000 0).1
    (handling_holds userCode 32 0x101200 0xC0001000 0) 0x101234
  exact ⟨c₂, (trap_round_trip userCode 32 0x101200 0xC0001000 0).2.2.2.2 idle 0x101234 userCode.eax
    c₂ hrun hret⟩

end Sample

end EclipseOS
