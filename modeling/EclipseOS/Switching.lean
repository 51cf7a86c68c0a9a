import EclipseOS.Sample
import EclipseOS.Traps

/-!
# The context switch

The code of `task_switch.S`.  A `registers_t` is a row of eleven words; the
registers that a C caller does not expect back are not saved.  Both contexts and
both stacks are in the kernel's part of the address space, so the change of
`cr3` between the stores and the loads does not move them.
-/

namespace EclipseOS

open Processor WordStack

/-- The words of `registers_t`. -/
def TaskRegs.frame (r : TaskRegs) : List Word :=
  [r.eax, r.ebx, r.ecx, r.edx, r.esi, r.edi, r.esp, r.ebp, r.eip, r.eflags, r.cr3].map
    (BitVec.ofNat 32)

namespace Asm

/-- The stores into `old->regs`. -/
def saveOld : List Instr :=
  [.load .eax 4 .esp, .store 4 .eax .ebx, .store 16 .eax .esi, .store 20 .eax .edi,
    .store 28 .eax .ebp, .load .ebx 0 .esp, .store 32 .eax .ebx, .lea .ebx 4 .esp,
    .store 24 .eax .ebx, .pushf, .pop .ebx, .orImm .ebx 0x200, .store 36 .eax .ebx,
    .movFromCr3 .ebx, .store 40 .eax .ebx]

/-- The new stack and the new address space. -/
def switchSpace : List Instr :=
  [.load .eax 8 .esp, .load .esp 24 .eax, .load .ecx 40 .eax, .test .ecx .ecx, .jz 4,
    .movFromCr3 .edx, .cmp .edx .ecx, .jz 1, .movToCr3 .ecx]

/-- The loads from `new->regs` and the jump. -/
def loadNew : List Instr :=
  [.load .ebx 32 .eax, .push .ebx, .load .ebx 36 .eax, .push .ebx, .popf, .load .ebx 4 .eax,
    .load .esi 16 .eax, .load .edi 20 .eax, .load .ebp 28 .eax, .ret]

def switchTask : List Instr := saveOld ++ switchSpace ++ loadNew

/-- The context of a caller of `switch_task`, as it is after the return. -/
def callerRegs (c : Cpu) : TaskRegs where
  eax := c.eax.toNat
  ebx := c.ebx.toNat
  ecx := c.ecx.toNat
  edx := c.edx.toNat
  esi := c.esi.toNat
  edi := c.edi.toNat
  esp := (c.esp + 4).toNat
  ebp := c.ebp.toNat
  eip := (c.peek 0).toNat
  eflags := c.eflags.toNat
  cr3 := c.cr3.toNat

/-- The memory after the stores of `switch_task` into the context at `a`. -/
def savedMem (c : Cpu) (a : Word) : Memory :=
  ((((((((c.mem.write (a + 4) c.ebx).write (a + 16) c.esi).write (a + 20) c.edi).write (a + 28)
    c.ebp).write (a + 32) (c.peek 0)).write (a + 24) (c.esp + 4)).write (c.esp - 4)
      c.eflags).write (a + 36) (c.eflags ||| 0x200)).write (a + 40) c.cr3

section Save

variable {c : Cpu} {a d : Word} {ws : List Word} {old : TaskRegs}

/-- Words apart from the context and the stack of the call are left. -/
theorem savedMem_apart (hap : Memory.Apart a 44 d (4 * ws.length))
    (hflags : Memory.Clear (c.esp - 4) d (4 * ws.length)) (hd : c.mem.At d ws) :
    (savedMem c a).At d ws := by
  have h₁ := hd.write_apart hap (i := 4) (by norm_num) c.ebx
  have h₂ := h₁.write_apart hap (i := 16) (by norm_num) c.esi
  have h₃ := h₂.write_apart hap (i := 20) (by norm_num) c.edi
  have h₄ := h₃.write_apart hap (i := 28) (by norm_num) c.ebp
  have h₅ := h₄.write_apart hap (i := 32) (by norm_num) (c.peek 0)
  have h₆ := h₅.write_apart hap (i := 24) (by norm_num) (c.esp + 4)
  have h₇ := h₆.write hflags c.eflags
  have h₈ := h₇.write_apart hap (i := 36) (by norm_num) (c.eflags ||| 0x200)
  exact h₈.write_apart hap (i := 40) (by norm_num) c.cr3

theorem saveContext_frame (c : Cpu) (old : TaskRegs) :
    (Kernel.saveContext (callerRegs c) c.cr3.toNat old).frame =
      [BitVec.ofNat 32 old.eax, c.ebx, BitVec.ofNat 32 old.ecx, BitVec.ofNat 32 old.edx, c.esi,
        c.edi, c.esp + 4, c.ebp, c.peek 0, c.eflags ||| 0x200, c.cr3] := by
  have hflags : BitVec.ofNat 32 (c.eflags.toNat ||| 0x200) = c.eflags ||| 0x200 := by
    apply BitVec.eq_of_toNat_eq
    rw [BitVec.toNat_or, BitVec.toNat_ofNat]
    exact Nat.mod_eq_of_lt (Nat.or_lt_two_pow c.eflags.isLt (by norm_num))
  simp only [TaskRegs.frame, Kernel.saveContext, callerRegs, List.map_cons, List.map_nil, hflags,
    BitVec.ofNat_toNat, BitVec.setWidth_eq]

/-- The context at `a` becomes the one that `switch_task` saves. -/
theorem savedMem_frame (hstack : Memory.Apart a 44 (c.esp - 4) 16) (hold : c.mem.At a old.frame) :
    (savedMem c a).At a (Kernel.saveContext (callerRegs c) c.cr3.toNat old).frame := by
  have hclear : Memory.Clear (c.esp - 4) a 44 := by
    obtain ⟨hlow, hhigh⟩ := hstack
    constructor <;> bv_omega
  have h₁ := hold.set (i := 1) (by simp [TaskRegs.frame]) (by simp [TaskRegs.frame]) c.ebx
  have h₂ := h₁.set (i := 4) (by simp [TaskRegs.frame]) (by simp [TaskRegs.frame]) c.esi
  have h₃ := h₂.set (i := 5) (by simp [TaskRegs.frame]) (by simp [TaskRegs.frame]) c.edi
  have h₄ := h₃.set (i := 7) (by simp [TaskRegs.frame]) (by simp [TaskRegs.frame]) c.ebp
  have h₅ := h₄.set (i := 8) (by simp [TaskRegs.frame]) (by simp [TaskRegs.frame]) (c.peek 0)
  have h₆ := h₅.set (i := 6) (by simp [TaskRegs.frame]) (by simp [TaskRegs.frame]) (c.esp + 4)
  have h₇ := h₆.write (by simpa [TaskRegs.frame] using hclear) c.eflags
  have h₈ := h₇.set (i := 9) (by simp [TaskRegs.frame]) (by simp [TaskRegs.frame])
    (c.eflags ||| 0x200)
  have h₉ := h₈.set (i := 10) (by simp [TaskRegs.frame]) (by simp [TaskRegs.frame]) c.cr3
  rw [saveContext_frame]
  exact h₉

theorem exec_saveOld (h0 : c.cpl = 0) (harg : c.peek 1 = a)
    (hstack : Memory.Apart a 44 (c.esp - 4) 16) : ∃ f, exec saveOld c = some
      { c with
        eax := a
        ebx := c.cr3
        eflags := f
        mem := savedMem c a } := by
  have hret : ((((c.mem.write (a + 4) c.ebx).write (a + 16) c.esi).write (a + 20) c.edi).write
      (a + 28) c.ebp).read (c.esp + 0) = c.peek 0 := by
    have hclear : Memory.Apart a 44 c.esp 4 := by
      obtain ⟨hlow, hhigh⟩ := hstack
      constructor <;> bv_omega
    have hd : c.mem.At c.esp [c.peek 0] := ⟨by simp [Cpu.peek], trivial⟩
    have h₁ := hd.write_apart hclear (i := 4) (by norm_num) c.ebx
    have h₂ := h₁.write_apart hclear (i := 16) (by norm_num) c.esi
    have h₃ := h₂.write_apart hclear (i := 20) (by norm_num) c.edi
    have h₄ := h₃.write_apart hclear (i := 28) (by norm_num) c.ebp
    rw [show c.esp + 0 = c.esp by simp]
    exact h₄.1
  have harg' : c.mem.read (c.esp + 4) = a := harg
  have hback : c.esp - 4 + BitVec.ofNat 32 (4 * 1) = c.esp := BitVec.sub_add_cancel ..
  rw [Cpu.cpl] at h0
  rw [Cpu.peek, Memory.offset_zero] at hret
  simp only [saveOld, exec, runFrom, step, Option.bind_some, Cpu.get, Cpu.set, harg', hret,
    Cpu.push, Cpu.peek, Cpu.discard, Memory.offset_zero, hback, Memory.read_write_self, Cpu.withStatus,
    Cpu.cpl, if_pos h0, savedMem]
  exact ⟨_, rfl⟩

theorem exec_switchSpace {b : Word} {new : TaskRegs} (h0 : c.cpl = 0) (harg : c.peek 2 = b)
    (hnew : c.mem.At b new.frame) : ∃ d, exec switchSpace c = some d ∧ d.mem = c.mem ∧
      d.eax = b ∧ d.esp = BitVec.ofNat 32 new.esp ∧ d.cs = c.cs ∧
      d.cr3 = if BitVec.ofNat 32 new.cr3 = 0 then c.cr3 else BitVec.ofNat 32 new.cr3 := by
  have harg' : c.mem.read (c.esp + 8) = b := harg
  have hesp : c.mem.read (b + 24) = BitVec.ofNat 32 new.esp :=
    hnew.read (i := 6) (by simp [TaskRegs.frame])
  have hcr3 : c.mem.read (b + 40) = BitVec.ofNat 32 new.cr3 :=
    hnew.read (i := 10) (by simp [TaskRegs.frame])
  set w := BitVec.ofNat 32 new.cr3 with hw
  set d : Cpu := ({ c with
    eax := b
    esp := BitVec.ofNat 32 new.esp
    ecx := w } : Cpu).withStatus (w &&& w) false false false with hd
  have hload : exec switchSpace c = exec [.jz 4, .movFromCr3 .edx, .cmp .edx .ecx, .jz 1,
      .movToCr3 .ecx] d := by
    simp only [switchSpace, exec, runFrom, step, Option.bind_some, Cpu.get, Cpu.set, harg', hesp,
      hcr3, hd]
  rw [hload]
  have hzf : d.zf = (w &&& w == 0) := Cpu.zf_withStatus ..
  rw [BitVec.and_self] at hzf
  by_cases hzero : w = 0
  · have htaken : d.zf = true := by rw [hzf, hzero]; rfl
    refine ⟨d, ?_, rfl, rfl, rfl, rfl, (if_pos hzero).symm⟩
    rw [exec_jz_taken htaken (by norm_num)]
    rfl
  · have hpassed : d.zf = false := by rw [hzf, beq_eq_false_iff_ne]; exact hzero
    rw [exec_jz_passed hpassed, if_neg hzero]
    set e : Cpu := ({ d with edx := c.cr3 } : Cpu).subFlags c.cr3 w with he
    have hcmp : exec [.movFromCr3 .edx, .cmp .edx .ecx, .jz 1, .movToCr3 .ecx] d =
        exec [.jz 1, .movToCr3 .ecx] e := by
      have hd0 : d.cpl = 0 := h0
      rw [exec_movFromCr3 hd0, exec_step (by simp) rfl]
      rfl
    have hzf' : e.zf = (c.cr3 - w == 0) := Cpu.zf_withStatus ..
    rw [hcmp]
    by_cases heq : c.cr3 = w
    · have htaken' : e.zf = true := by rw [hzf', heq, BitVec.sub_self]; rfl
      refine ⟨e, ?_, rfl, rfl, rfl, rfl, heq⟩
      rw [exec_jz_taken htaken' (by norm_num)]
      rfl
    · have hpassed' : e.zf = false := by
        rw [hzf', beq_eq_false_iff_ne]
        exact fun hsub ↦ heq (by bv_omega)
      refine ⟨{ e with cr3 := w }, ?_, rfl, rfl, rfl, rfl, rfl⟩
      have he0 : e.cpl = 0 := h0
      rw [exec_jz_passed hpassed', exec_movToCr3 he0, exec_nil]
      rfl

theorem exec_loadNew {b : Word} {new : TaskRegs} (h0 : c.cpl = 0) (hb : c.eax = b)
    (hnew : c.mem.At b new.frame) (hesp : c.esp = BitVec.ofNat 32 new.esp)
    (hstack : Memory.Apart b 44 (c.esp - 8) 8) : ∃ d, exec loadNew c = some d ∧
      d.ebx = BitVec.ofNat 32 new.ebx ∧ d.esi = BitVec.ofNat 32 new.esi ∧
      d.edi = BitVec.ofNat 32 new.edi ∧ d.ebp = BitVec.ofNat 32 new.ebp ∧
      d.esp = BitVec.ofNat 32 new.esp ∧ d.eip = BitVec.ofNat 32 new.eip ∧
      d.eflags = BitVec.ofNat 32 new.eflags ∧ d.cs = c.cs ∧ d.cr3 = c.cr3 ∧
      d.mem = (c.mem.write (c.esp - 4) (BitVec.ofNat 32 new.eip)).write (c.esp - 8)
        (BitVec.ofNat 32 new.eflags) := by
  set μ := c.mem.write (c.esp - 4) (BitVec.ofNat 32 new.eip) with hμ
  set ν := μ.write (c.esp - 8) (BitVec.ofNat 32 new.eflags) with hν
  have hclear₄ : Memory.Clear (c.esp - 4) b 44 := by
    obtain ⟨hlow, hhigh⟩ := hstack
    constructor <;> bv_omega
  have hclear₈ : Memory.Clear (c.esp - 8) b 44 := by
    obtain ⟨hlow, hhigh⟩ := hstack
    constructor <;> bv_omega
  have hnewμ : μ.At b new.frame := hnew.write hclear₄ _
  have hnewν : ν.At b new.frame := hnewμ.write hclear₈ _
  have heip : c.mem.read (b + 32) = BitVec.ofNat 32 new.eip :=
    hnew.read (i := 8) (by simp [TaskRegs.frame])
  have hflags : μ.read (b + 36) = BitVec.ofNat 32 new.eflags :=
    hnewμ.read (i := 9) (by simp [TaskRegs.frame])
  have hbx : ν.read (b + 4) = BitVec.ofNat 32 new.ebx :=
    hnewν.read (i := 1) (by simp [TaskRegs.frame])
  have hsi : ν.read (b + 16) = BitVec.ofNat 32 new.esi :=
    hnewν.read (i := 4) (by simp [TaskRegs.frame])
  have hdi : ν.read (b + 20) = BitVec.ofNat 32 new.edi :=
    hnewν.read (i := 5) (by simp [TaskRegs.frame])
  have hbp : ν.read (b + 28) = BitVec.ofNat 32 new.ebp :=
    hnewν.read (i := 7) (by simp [TaskRegs.frame])
  have hpop : ν.read (c.esp - 8) = BitVec.ofNat 32 new.eflags := Memory.read_write_self ..
  have hret : ν.read (c.esp - 4) = BitVec.ofNat 32 new.eip := by
    have hclear : Memory.Clear (c.esp - 8) (c.esp - 4) 4 := by
      constructor <;> bv_omega
    rw [hν, Memory.read_write_of_clear hclear le_rfl]
    exact Memory.read_write_self ..
  have hback : ∀ x : Word, x - 4 + BitVec.ofNat 32 (4 * 1) = x := fun x ↦ BitVec.sub_add_cancel ..
  have height : c.esp - 4 - 4 = c.esp - 8 := by bv_omega
  rw [Cpu.cpl] at h0
  refine ⟨{ c with
    ebx := BitVec.ofNat 32 new.ebx
    esi := BitVec.ofNat 32 new.esi
    edi := BitVec.ofNat 32 new.edi
    ebp := BitVec.ofNat 32 new.ebp
    eip := BitVec.ofNat 32 new.eip
    eflags := BitVec.ofNat 32 new.eflags
    mem := ν }, ?_, rfl, rfl, rfl, rfl, hesp, rfl, rfl, rfl, rfl, rfl⟩
  simp only [loadNew, exec, runFrom, step, Option.bind_some, Cpu.get, Cpu.set, Cpu.push, Cpu.peek,
    Cpu.discard, Cpu.cpl, if_pos h0, hb, heip, Memory.offset_zero, hback, height]
  simp only [← hμ, hflags, ← hν]
  rw [hbx, hbp, hsi, hdi, hret, hpop]

end Save

/-! ## Whole calls -/

/-- The processor at a call of `switch_task` from kernel code, with the contexts `old` at `a`
and `new` at `b`.  The two, the words at the call and the two below the new stack do not
overlap. -/
structure SwitchCall (c : Cpu) (a b : Word) (old new : TaskRegs) : Prop where
  level : c.cpl = 0
  oldArg : c.peek 1 = a
  newArg : c.peek 2 = b
  oldRegs : c.mem.At a old.frame
  newRegs : c.mem.At b new.frame
  newCr3 : new.cr3 < 2 ^ 32
  contexts : Memory.Apart a 44 b 44
  oldStack : Memory.Apart a 44 (c.esp - 4) 16
  newStack : Memory.Clear (c.esp - 4) b 44
  oldNext : Memory.Apart a 44 (BitVec.ofNat 32 new.esp - 8) 8
  newNext : Memory.Apart b 44 (BitVec.ofNat 32 new.esp - 8) 8

/-- The processor goes on in the context `r`: what a C function keeps, its stack, and
where it returns to. -/
structure Resumes (d : Cpu) (r : TaskRegs) : Prop where
  ebx : d.ebx = BitVec.ofNat 32 r.ebx
  esi : d.esi = BitVec.ofNat 32 r.esi
  edi : d.edi = BitVec.ofNat 32 r.edi
  ebp : d.ebp = BitVec.ofNat 32 r.ebp
  esp : d.esp = BitVec.ofNat 32 r.esp
  eip : d.eip = BitVec.ofNat 32 r.eip
  eflags : d.eflags = BitVec.ofNat 32 r.eflags

/-- Words apart from the old context and from the words next to the two stack pointers
are the same in `μ`. -/
def LeavesRest (c : Cpu) (a esp : Word) (μ : Memory) : Prop :=
  ∀ x ws, c.mem.At x ws → Memory.Apart a 44 x (4 * ws.length) →
    Memory.Clear (c.esp - 4) x (4 * ws.length) → Memory.Apart (esp - 8) 8 x (4 * ws.length) →
      μ.At x ws

/-- The stores below a stack leave what is apart from them. -/
theorem pushed_apart {μ : Memory} {e x v w : Word} {ws : List Word} (h : μ.At x ws)
    (hap : Memory.Apart (e - 8) 8 x (4 * ws.length)) :
    ((μ.write (e - 4) v).write (e - 8) w).At x ws := by
  have hfour : e - 4 = e - 8 + BitVec.ofNat 32 4 := by bv_omega
  have hzero : e - 8 = e - 8 + BitVec.ofNat 32 0 := by simp
  have h₁ := h.write_apart hap (i := 4) (by norm_num) v
  have h₂ := h₁.write_apart hap (i := 0) (by norm_num) w
  rwa [← hfour, ← hzero] at h₂

theorem exec_switchTask {c : Cpu} {a b : Word} {old new : TaskRegs}
    (h : SwitchCall c a b old new) : ∃ d, exec switchTask c = some d ∧
      d.mem.At a (Kernel.saveContext (callerRegs c) c.cr3.toNat old).frame ∧
      d.mem.At b new.frame ∧
      d.cr3 = (if new.cr3 = 0 then c.cr3 else BitVec.ofNat 32 new.cr3) ∧
      Resumes d new ∧ d.cpl = 0 ∧ LeavesRest c a d.esp d.mem := by
  set e := BitVec.ofNat 32 new.esp with he
  -- the stores into the old context leave the arguments and the new context
  obtain ⟨f, hsave⟩ := exec_saveOld h.level h.oldArg h.oldStack
  have hcall : Memory.Apart a 44 c.esp 12 := by
    obtain ⟨hlow, hhigh⟩ := h.oldStack
    constructor <;> bv_omega
  have hflags : Memory.Clear (c.esp - 4) c.esp 12 := by
    have hsub : (c.esp - (c.esp - 4)).toNat = 4 := by
      rw [show c.esp - (c.esp - 4) = 4 by bv_omega]
      rfl
    exact ⟨hsub.ge, by rw [hsub]; norm_num⟩
  have hwords : c.mem.At c.esp [c.peek 0, c.peek 1, c.peek 2] :=
    Memory.at_of_read fun i hi ↦ by
      rw [List.length_cons, List.length_cons, List.length_singleton] at hi
      interval_cases i <;> rfl
  have hargs : (savedMem c a).At c.esp [c.peek 0, c.peek 1, c.peek 2] :=
    savedMem_apart hcall hflags hwords
  have hnew₁ : (savedMem c a).At b new.frame := savedMem_apart h.contexts h.newStack h.newRegs
  have hold₁ := savedMem_frame h.oldStack h.oldRegs
  set c₁ : Cpu := { c with
    eax := a
    ebx := c.cr3
    eflags := f
    mem := savedMem c a } with hc₁
  have harg : c₁.peek 2 = b := (hargs.read (i := 2) (by simp)).trans h.newArg
  obtain ⟨c₂, hswitch, hmem₂, heax₂, hesp₂, hcs₂, hcr3₂⟩ :=
    exec_switchSpace (c := c₁) h.level harg hnew₁
  have hlevel₂ : c₂.cpl = 0 := by
    rw [Cpu.cpl, hcs₂]
    exact h.level
  obtain ⟨d, hload, hbx, hsi, hdi, hbp, hsp, hip, hfl, hcs, hcr3, hmem⟩ :=
    exec_loadNew hlevel₂ heax₂ (by rw [hmem₂]; exact hnew₁) hesp₂ (by rw [hesp₂]; exact h.newNext)
  have hkept : ∀ x ws, (savedMem c a).At x ws → Memory.Apart (e - 8) 8 x (4 * ws.length) →
      d.mem.At x ws := by
    intro x ws hx hap
    rw [hmem, hmem₂, hesp₂]
    exact pushed_apart hx hap
  have hzero : BitVec.ofNat 32 new.cr3 = 0 ↔ new.cr3 = 0 := by
    rw [← BitVec.toNat_inj, BitVec.toNat_ofNat, Nat.mod_eq_of_lt h.newCr3]
    rfl
  refine ⟨d, ?_, ?_, ?_, ?_, ⟨hbx, hsi, hdi, hbp, hsp, hip, hfl⟩, ?_, ?_⟩
  · rw [switchTask, List.append_assoc, exec_append hsave, exec_append hswitch, hload]
  · exact hkept _ _ hold₁ (h.oldNext.symm (by norm_num))
  · exact hkept _ _ hnew₁ (h.newNext.symm (by norm_num))
  · rw [hcr3, hcr3₂]
    exact if_congr hzero rfl rfl
  · rw [Cpu.cpl, hcs]
    exact hlevel₂
  · intro x ws hx hapOld hapFlags hapNew
    rw [hsp] at hapNew
    exact hkept x ws (savedMem_apart hapOld hapFlags hx) hapNew

/-- The instructions of `switch_task` do what the model of it says. -/
theorem switch_task_refines {k : Kernel} {c : Cpu} {addr : TaskRef → Word} {old new : TaskRef}
    (h : SwitchCall c (addr old) (addr new) (k.task old).regs (k.task new).regs)
    (hcr3 : k.machine.cr3 = c.cr3.toNat) : ∃ d, exec switchTask c = some d ∧
      d.mem.At (addr old) ((k.switchTask (callerRegs c) old new).1.task old).regs.frame ∧
      d.mem.At (addr new) ((k.switchTask (callerRegs c) old new).1.task new).regs.frame ∧
      (k.switchTask (callerRegs c) old new).1.machine.cr3 = d.cr3.toNat ∧
      Resumes d (k.switchTask (callerRegs c) old new).2 ∧ d.cpl = 0 ∧
      LeavesRest c (addr old) d.esp d.mem := by
  have hne : new ≠ old := by
    rintro rfl
    have hlow := h.contexts.1
    rw [BitVec.sub_self] at hlow
    exact absurd hlow (by decide)
  have hregs : (k.switchTask (callerRegs c) old new).2 = (k.task new).regs := by
    simp [Kernel.switchTask, Kernel.modifyRegs, hne]
  have hold : ((k.switchTask (callerRegs c) old new).1.task old).regs =
      Kernel.saveContext (callerRegs c) c.cr3.toNat (k.task old).regs := by
    rw [← hcr3]
    simp [Kernel.switchTask, Kernel.modifyRegs]
  have hnew : ((k.switchTask (callerRegs c) old new).1.task new).regs = (k.task new).regs := by
    simp [Kernel.switchTask, Kernel.modifyRegs, hne]
  have hspace : (k.switchTask (callerRegs c) old new).1.machine.cr3 =
      if (k.task new).regs.cr3 = 0 then c.cr3.toNat else (k.task new).regs.cr3 := by
    have hnewRegs := hregs
    rw [← hcr3]
    rw [Kernel.switchTask] at hnewRegs ⊢
    dsimp only at hnewRegs ⊢
    rw [Kernel.withMachine_machine, Kernel.loadSpace, hnewRegs]
    split_ifs <;> simp [Kernel.modifyRegs]
  obtain ⟨d, hrun, hsaved, hkept, hloaded, hresumes, hlevel, hrest⟩ := exec_switchTask h
  rw [hregs, hold, hnew, hspace]
  refine ⟨d, hrun, hsaved, hkept, ?_, hresumes, hlevel, hrest⟩
  rw [hloaded]
  split_ifs
  · rfl
  · rw [BitVec.toNat_ofNat]
    exact (Nat.mod_eq_of_lt h.newCr3).symm

/-- A call of `switch_task` comes back when its task is switched to again, like the call of
a C function: `c` is the processor at the call, and `c'` at the later one. -/
theorem switch_task_returns {c c' : Cpu} {a b b' : Word} {old new old' : TaskRegs}
    (h : SwitchCall c a b old new)
    (h' : SwitchCall c' b' a old' (Kernel.saveContext (callerRegs c) c.cr3.toNat old))
    (hcr3 : c.cr3 ≠ 0) : ∃ d e, exec switchTask c = some d ∧
      d.mem.At a (Kernel.saveContext (callerRegs c) c.cr3.toNat old).frame ∧
      exec switchTask c' = some e ∧ e.ebx = c.ebx ∧ e.esi = c.esi ∧ e.edi = c.edi ∧
      e.ebp = c.ebp ∧ e.esp = c.esp + 4 ∧ e.eip = c.peek 0 ∧ e.cr3 = c.cr3 ∧
      e.eflags = c.eflags ||| Cpu.IF_MASK ∧ e.cpl = 0 ∧ LeavesRest c' b' e.esp e.mem := by
  obtain ⟨d, hrun, hsaved, -⟩ := exec_switchTask h
  obtain ⟨e, hrun', -, -, hloaded, hresumes, hlevel, hrest⟩ := exec_switchTask h'
  have hword : ∀ w : Word, BitVec.ofNat 32 w.toNat = w := fun w ↦ by
    rw [BitVec.ofNat_toNat, BitVec.setWidth_eq]
  have hflags : BitVec.ofNat 32 (c.eflags.toNat ||| 0x200) = c.eflags ||| Cpu.IF_MASK := by
    rw [BitVec.ofNat_or, hword]
    rfl
  have hne : c.cr3.toNat ≠ 0 := fun heq ↦ hcr3 (BitVec.eq_of_toNat_eq heq)
  refine ⟨d, e, hrun, hsaved, hrun', ?_, ?_, ?_, ?_, ?_, ?_, ?_, ?_, hlevel, hrest⟩
  · exact hresumes.ebx.trans (hword _)
  · exact hresumes.esi.trans (hword _)
  · exact hresumes.edi.trans (hword _)
  · exact hresumes.ebp.trans (hword _)
  · exact hresumes.esp.trans (hword _)
  · exact hresumes.eip.trans (hword _)
  · exact hloaded.trans ((if_neg hne).trans (hword _))
  · exact hresumes.eflags.trans hflags

end Asm

namespace Sample

open Asm

/-- Where the contexts of process 0 and of the process in entry 1 are. -/
def taskAddr (t : TaskRef) : Word := if t = .main then 0x104000 else 0x105000

/-- `yield` at its call of `switch_task`, over zeroed contexts. -/
def yielding : Cpu := { userCode with
  cs := KERNEL_CODE
  ss := KERNEL_DATA
  esp := 0xC0000F00
  mem := (Memory.write (fun _ ↦ 0) 0xC0000F04 0x104000).write 0xC0000F08 0x105000 }

theorem yielding_switch :
    SwitchCall yielding (taskAddr .main) (taskAddr (.proc 1)) TaskRegs.zero TaskRegs.zero where
  level := by decide
  oldArg := by decide
  newArg := by decide
  oldRegs := by decide
  newRegs := by decide
  newCr3 := by decide
  contexts := by decide
  oldStack := by decide
  newStack := by decide
  oldNext := by decide
  newNext := by decide

/-- The other process switches back. -/
def yieldingBack : Cpu := { yielding with
  esp := 0xC0001F00
  mem := ((savedMem yielding 0x104000).write 0xC0001F04 0x105000).write 0xC0001F08 0x104000 }

theorem yieldingBack_switch : SwitchCall yieldingBack (taskAddr (.proc 1)) (taskAddr .main)
    TaskRegs.zero (Kernel.saveContext (callerRegs yielding) yielding.cr3.toNat TaskRegs.zero) where
  level := by decide
  oldArg := by decide
  newArg := by decide
  oldRegs := by decide
  newRegs := by decide
  newCr3 := by decide
  contexts := by decide
  oldStack := by decide
  newStack := by decide
  oldNext := by decide
  newNext := by decide

/-- The kernel of that moment: `main_task` has what the first switch saved. -/
def yieldedKernel : Kernel := (kernel 0).modifyRegs .main fun regs ↦
  Kernel.saveContext (callerRegs yielding) yielding.cr3.toNat regs

theorem yielding_refines : ∃ d, exec switchTask yieldingBack = some d ∧
    d.mem.At 0x105000 ((yieldedKernel.switchTask (callerRegs yieldingBack) (.proc 1) .main).1.task
      (.proc 1)).regs.frame ∧
    (yieldedKernel.switchTask (callerRegs yieldingBack) (.proc 1) .main).1.machine.cr3 =
      d.cr3.toNat ∧
    Resumes d (yieldedKernel.switchTask (callerRegs yieldingBack) (.proc 1) .main).2 ∧
    d.ebx = 3 ∧ d.esp = 0xC0000F04 := by
  have hregs : (yieldedKernel.task .main).regs =
      Kernel.saveContext (callerRegs yielding) yielding.cr3.toNat TaskRegs.zero := rfl
  have hcall : SwitchCall yieldingBack (taskAddr (.proc 1)) (taskAddr .main)
      (yieldedKernel.task (.proc 1)).regs (yieldedKernel.task .main).regs :=
    hregs ▸ yieldingBack_switch
  obtain ⟨d, hrun, hold, -, hcr3, hresumes, -⟩ :=
    switch_task_refines (k := yieldedKernel) hcall (by decide)
  exact ⟨d, hrun, hold, hcr3, hresumes, hresumes.ebx, hresumes.esp⟩

theorem yielding_returns : ∃ e, exec switchTask yieldingBack = some e ∧
    e.esp = 0xC0000F04 ∧ e.ebx = 3 ∧ e.cr3 = 0x1000 := by
  obtain ⟨d, e, -, -, hrun, hbx, -, -, -, hsp, -, hcr3, -⟩ :=
    switch_task_returns yielding_switch yieldingBack_switch (by decide)
  exact ⟨e, hrun, hsp, hbx, hcr3⟩

end Sample

end EclipseOS
