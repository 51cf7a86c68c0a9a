import Mathlib
import EclipseOS.Turns

/-!
# The stack for traps

The processor pushes the trap frame of a process at `tss.esp0`.  `yield` stores
the kernel stack of the next process there, but it finds no process for
`main_task`: process 0 may go on in user mode on the stack of the process that
ran before it.
-/

namespace EclipseOS

open IntrusiveList

/-- The page of the kernel stack with the given top. -/
def stackPage (top : ℕ) : Set ℕ := Set.Ico (top - KSTACK_SIZE) top

/-- The `struct registers` that a trap leaves below the given top. -/
def trapFrame (top : ℕ) : Set ℕ := Set.Ico (top - REGISTERS_SIZE) top

namespace Kernel

variable {k k' : Kernel}

/-! ## The stacks of the processes -/

/-- Every running process has a page below what the heap will give out next, and
no two have the same. -/
structure Stacks (k : Kernel) : Prop where
  below : ∀ p, (k.procTable p).state = .run → (k.procTable p).kernelStack ≤ k.heap.heapNext
  page : ∀ p, (k.procTable p).state = .run → KSTACK_SIZE ≤ (k.procTable p).kernelStack
  apart : ∀ p q, p ≠ q → (k.procTable p).state = .run → (k.procTable q).state = .run →
    Disjoint (stackPage (k.procTable p).kernelStack) (stackPage (k.procTable q).kernelStack)

theorem Stacks.liveBefore (h : k.Stacks) (hnext : k.heap.heapNext ≤ k'.heap.heapNext)
    (hlive : LiveBefore k k') : k'.Stacks where
  below p hp := by
    obtain ⟨hrun, hstack⟩ := hlive p hp
    rw [hstack]
    exact (h.below p hrun).trans hnext
  page p hp := by
    obtain ⟨hrun, hstack⟩ := hlive p hp
    rw [hstack]
    exact h.page p hrun
  apart p q hpq hp hq := by
    rw [(hlive p hp).2, (hlive q hq).2]
    exact h.apart p q hpq (hlive p hp).1 (hlive q hq).1

/-- A page above the heap pointer is apart from all before. -/
theorem Stacks.disjoint_new (h : k.Stacks) {p : Fin MAX_PROCS} (hp : (k.procTable p).state = .run)
    {top : ℕ} (htop : k.heap.heapNext + KSTACK_SIZE ≤ top) :
    Disjoint (stackPage (k.procTable p).kernelStack) (stackPage top) := by
  refine Set.disjoint_left.mpr fun a ha ha' ↦ ?_
  have hbelow := h.below p hp
  simp only [stackPage, Set.mem_Ico] at ha ha'
  omega

theorem Stacks.liveBut {c : Fin MAX_PROCS} (h : k.Stacks)
    (hnext : k.heap.heapNext ≤ k'.heap.heapNext) (hlive : LiveBut c k k') : k'.Stacks where
  below p hp := by
    obtain ⟨-, hrun, hstack⟩ | ⟨-, -, hle⟩ := hlive p hp
    · rw [hstack]
      exact (h.below p hrun).trans hnext
    · exact hle
  page p hp := by
    obtain ⟨-, hrun, hstack⟩ | ⟨-, hle, -⟩ := hlive p hp
    · rw [hstack]
      exact h.page p hrun
    · omega
  apart p q hpq hp hq := by
    obtain ⟨-, hrunp, hstackp⟩ | ⟨hpc, hnewp, -⟩ := hlive p hp <;>
      obtain ⟨-, hrunq, hstackq⟩ | ⟨hqc, hnewq, -⟩ := hlive q hq
    · rw [hstackp, hstackq]
      exact h.apart p q hpq hrunp hrunq
    · rw [hstackp]
      exact h.disjoint_new hrunp hnewq
    · rw [hstackq]
      exact (h.disjoint_new hrunq hnewp).symm
    · exact absurd (hpc.trans hqc.symm) hpq

/-- Stacks of two processes have different tops. -/
theorem Stacks.ne (h : k.Stacks) {p q : Fin MAX_PROCS} (hpq : p ≠ q)
    (hp : (k.procTable p).state = .run) (hq : (k.procTable q).state = .run) :
    (k.procTable p).kernelStack ≠ (k.procTable q).kernelStack := by
  intro heq
  have hapart := h.apart p q hpq hp hq
  rw [heq, disjoint_self, Set.bot_eq_empty, stackPage, Set.Ico_eq_empty_iff] at hapart
  have hpage := h.page q hq
  simp only [KSTACK_SIZE] at hpage hapart
  omega

/-! ## The TSS across a yield -/

theorem Yielded.tss_proc (h : Yielded k k') {i : Fin MAX_PROCS} (hi : k'.runningTask = .proc i)
    (hne : k'.runningTask ≠ k.runningTask) (hstate : (k.procTable i).state ≠ .free) :
    k'.tssEsp0 = (k.procTable i).kernelStack := by
  rw [h.esp0, if_neg hne, hi, processOfTask_proc hstate]
  rfl

/-- There is no process to be found for `main_task` or a kernel task. -/
theorem Yielded.tss_other (h : Yielded k k') (hother : ∀ i, k'.runningTask ≠ .proc i) :
    k'.tssEsp0 = k.tssEsp0 := by
  rw [h.esp0]
  split
  · rfl
  · cases hrun : k'.runningTask with
    | main => simp
    | created n => simp
    | proc i => exact absurd hrun (hother i)

theorem Yielded.tss_same (h : Yielded k k') (hsame : k'.runningTask = k.runningTask) :
    k'.tssEsp0 = k.tssEsp0 := by rw [h.esp0, if_pos hsame]

end Kernel

namespace System

variable {s s' s₀ : System} {op : Op} {obs : Obs} {tr : List (Op × Obs)}

/-! ## What the stacks are for -/

/-- Kernel stacks at one moment: a trap finds the stack of the process it comes
from, live processes have stacks apart, and the stack that a trap would use is
away from the frames of the other processes. -/
structure TrapRight (s : System) : Prop where
  ready : s.mode s.cur = .user →
    s.kernel.tssEsp0 = (s.kernel.procTable s.kernel.processCurrent).kernelStack
  apart : ∀ p q, p ≠ q → (s.kernel.procTable p).state = .run →
    (s.kernel.procTable q).state = .run →
    Disjoint (stackPage (s.kernel.procTable p).kernelStack)
      (stackPage (s.kernel.procTable q).kernelStack)
  kept : s.mode s.cur = .user → ∀ r p, Owns r p → (s.kernel.procTable p).state = .run →
    r ≠ s.cur → Disjoint (trapFrame (s.trapTop r)) (stackPage s.kernel.tssEsp0)

/-- The step is the last of a `process_wait`. -/
def EndsWait (s : System) : Op → Prop
  | .scan _ => ∃ self status i n resumed, s.mode s.cur = .waiting self status i n resumed ∧
      if h : i < MAX_PROCS then
        (s.kernel.procTable ⟨i, h⟩).state = .zombie ∧ (⟨i, h⟩ : Fin MAX_PROCS) ≠ self ∧
          (s.kernel.procTable ⟨i, h⟩).ppid = (s.kernel.procTable self).pid
      else n = 0
  | _ => False

/-- With this step process 0 comes back to user mode: it is dispatched there by
another task, or its `process_wait` ends. -/
def ResumesInit (s : System) (op : Op) : Prop :=
  s.cur ≠ .main ∧ s.yields op = true ∧ s.kernel.next s.cur = some .main ∧ s.mode .main = .user ∨
    s.cur = .main ∧ s.EndsWait op

/-- No process but process 0 has had the processor. -/
def Alone (s₀ : System) (tr : List (Op × Obs)) : Prop :=
  ∀ tr' s i, tr' <+: tr → Run s₀ tr' s → s.cur ≠ .proc i

/-- The trace of a run determines where it ends. -/
theorem Run.unique {s₁ s₂ : System} (h₁ : Run s₀ tr s₁) (h₂ : Run s₀ tr s₂) : s₁ = s₂ := by
  induction h₁ generalizing s₂ with
  | start =>
      generalize htr : ([] : List (Op × Obs)) = tr at h₂
      cases h₂ with
      | start => rfl
      | step _ _ => simp at htr
  | @step tr s s₁ op obs _ hstep ih =>
      generalize htr : tr ++ [(op, obs)] = tr' at h₂
      cases h₂ with
      | start => simp at htr
      | step h₂ hstep' =>
          obtain ⟨rfl, heq⟩ := List.append_inj' htr rfl
          obtain ⟨rfl, rfl⟩ := Prod.mk.inj (List.singleton_inj.mp heq)
          rw [← ih h₂, hstep] at hstep'
          exact (Prod.mk.inj (Option.some.inj hstep')).1

theorem Alone.mono {tr' : List (Op × Obs)} (h : Alone s₀ tr') (hpre : tr <+: tr') :
    Alone s₀ tr := fun _ _ i hle ↦ h _ _ i (hle.trans hpre)

theorem Alone.cur (h : Alone s₀ tr) (hrun : Run s₀ tr s) (i : Fin MAX_PROCS) : s.cur ≠ .proc i :=
  h _ _ i (List.prefix_refl _) hrun

theorem alone_concat (hrun : Run s₀ (tr ++ [(op, obs)]) s) :
    Alone s₀ (tr ++ [(op, obs)]) ↔ Alone s₀ tr ∧ ∀ i, s.cur ≠ .proc i := by
  constructor
  · exact fun h ↦ ⟨h.mono (List.prefix_append _ _), h.cur hrun⟩
  · rintro ⟨halone, hcur⟩ tr' s' i hpre hrun'
    obtain rfl | hpre := List.prefix_concat_iff.mp hpre
    · rw [hrun'.unique hrun]
      exact hcur i
    · exact halone tr' s' i hpre hrun'

/-! ## What a step does to modes, stacks and frames -/

/-- A context changes its mode only while it runs. -/
theorem step_mode {r : TaskRef} (hstep : s.step op = some (s', obs))
    (hr : s.kernel.Scheduled r) (hne : r ≠ s.cur) : s'.mode r = s.mode r := by
  have hset : ∀ mode, Function.update s.mode s.cur mode r = s.mode r := fun mode ↦
    Function.update_of_ne hne ..
  cases step_case hstep with
  | fork _ _ hslot =>
      refine Function.update_of_ne ?_ ..
      rintro rfl
      cases (Kernel.freeSlot_spec hslot).2.symm.trans hr.2
  | taskCreate _ =>
      refine Function.update_of_ne ?_ ..
      rintro rfl
      exact lt_irrefl _ hr
  | halt _ _ => exact hset _
  | exit _ _ _ => exact hset _
  | wait _ _ => exact hset _
  | scanNext _ _ _ => exact hset _
  | reap _ _ _ => exact hset _
  | noChild _ _ => exact hset _
  | block _ _ _ _ => exact hset _
  | _ => rfl

/-- The task object that `task_create` takes is not the running one. -/
theorem cur_ne_created (hs : s.kernel.Sched) : s.cur ≠ .created s.kernel.createdCount := by
  intro hcur
  obtain ⟨c, hc⟩ := hs.ring
  have hsched : s.kernel.Scheduled s.cur := hc.scheduled_running
  rw [hcur] at hsched
  exact lt_irrefl _ hsched

theorem step_mode_main (hstep : s.step op = some (s', obs))
    (hne : s.cur ≠ .main) : s'.mode .main = s.mode .main := by
  apply step_mode hstep
  · trivial
  · exact hne.symm

/-- A context comes to user mode at the end of a `process_wait` only. -/
theorem step_user (hs : s.kernel.Sched) (hstep : s.step op = some (s', obs))
    (huser : s'.mode s.cur = .user) : s.mode s.cur = .user ∨
      s.EndsWait op := by
  have hset : ∀ {mode}, mode ≠ .user → Function.update s.mode s.cur mode s.cur ≠ .user := by
    intro mode hmode
    rwa [Function.update_self]
  cases step_case hstep with
  | halt _ _ => exact absurd huser (hset Mode.noConfusion)
  | exit _ _ _ => exact absurd huser (hset Mode.noConfusion)
  | wait _ _ => exact absurd huser (hset Mode.noConfusion)
  | scanNext _ _ _ => exact absurd huser (hset Mode.noConfusion)
  | block _ _ _ _ => exact absurd huser (hset Mode.noConfusion)
  | tickKernel _ _ => exact Or.inl huser
  | taskCreate _ =>
      exact Or.inl ((Function.update_of_ne (cur_ne_created hs) ..).symm.trans huser)
  | reap hmode hi hk =>
      refine Or.inr ⟨_, _, _, _, _, hmode, ?_⟩
      rw [dif_pos hi]
      obtain ⟨hw, -⟩ | ⟨hppid, hself, ⟨hw, -⟩ | ⟨hzombie, -⟩⟩ := Kernel.waitSlot_cases hk
      · cases hw
      · cases hw
      · exact ⟨hzombie, hself, hppid⟩
  | noChild hmode hi =>
      refine Or.inr ⟨_, _, _, _, _, hmode, ?_⟩
      rw [dif_neg hi]
  | _ => exact Or.inl ‹_›

/-- Process 0 in its halt loop stays there. -/
theorem step_halted (hs : s.kernel.Sched) (hstep : s.step op = some (s', obs))
    (hmode : s.mode s.cur = .halted) : s'.mode s.cur = .halted := by
  have habsurd : ∀ {mode}, mode ≠ .halted → s.mode s.cur = mode → s'.mode s.cur = .halted :=
    fun hne h ↦ absurd (h.symm.trans hmode) hne
  cases step_case hstep with
  | tickKernel _ _ => exact hmode
  | taskCreate _ => exact (Function.update_of_ne (cur_ne_created hs) ..).trans hmode
  | scanNext h _ _ => exact habsurd Mode.noConfusion h
  | reap h _ _ => exact habsurd Mode.noConfusion h
  | noChild h _ => exact habsurd Mode.noConfusion h
  | block h _ _ _ => exact habsurd Mode.noConfusion h
  | _ => exact habsurd Mode.noConfusion ‹_›

/-- The processes that run have run before, on the same stacks, or have been forked. -/
theorem step_live (hs : s.kernel.Sched) (hr : s.kernel.heap.Ready)
    (hstep : s.step op = some (s', obs)) : s.kernel.LiveBefore s'.kernel ∨
      ∃ c regs, op = .fork regs ∧ s.kernel.freeSlot = some c ∧
        Kernel.LiveBut c s.kernel s'.kernel := by
  cases step_turn hs hr hstep with
  | keeps _ hk _ => exact Or.inl hk.live
  | splices _ hk hfork =>
      obtain ⟨c, ht, hslot, -, -, hlive⟩ | ⟨-, -, hlive⟩ := hk.joined
      · obtain ⟨regs, hop⟩ := hfork ⟨c, ht⟩
        exact Or.inr ⟨c, regs, hop, hslot, hlive⟩
      · exact Or.inl hlive
  | turns _ hk _ hy =>
      have hyield := (Kernel.yield_spec hy).liveBefore
      obtain rfl | hleft := hk
      · exact Or.inl hyield
      · exact Or.inl (hleft.live.trans hyield)

/-- A process that ran and runs has kept its stack. -/
theorem step_stack (hs : s.kernel.Sched) (hr : s.kernel.heap.Ready)
    (hstep : s.step op = some (s', obs)) {p : Fin MAX_PROCS}
    (hp : (s.kernel.procTable p).state = .run) (hp' : (s'.kernel.procTable p).state = .run) :
    (s'.kernel.procTable p).kernelStack = (s.kernel.procTable p).kernelStack := by
  obtain hlive | ⟨c, -, -, hslot, hlive⟩ := step_live hs hr hstep
  · exact (hlive p hp').2
  · obtain ⟨-, -, hstack⟩ | ⟨rfl, -⟩ := hlive p hp'
    · exact hstack
    · cases (Kernel.freeSlot_spec hslot).2.symm.trans hp

theorem step_stacks (hs : s.kernel.Sched) (hr : s.kernel.heap.Ready) (h : s.kernel.Stacks)
    (hstep : s.step op = some (s', obs)) : s'.kernel.Stacks := by
  obtain ⟨hr', hleft⟩ := step_heap hs hr hstep
  have hnext : s.kernel.heap.heapNext ≤ s'.kernel.heap.heapNext := by
    have hstop := hr.stop
    have hstop' := hr'.stop
    have hle := hr.next
    simp only [Kheap.left] at hleft
    omega
  obtain hlive | ⟨c, -, -, -, hlive⟩ := step_live hs hr hstep
  · exact h.liveBefore hnext hlive
  · exact h.liveBut hnext hlive

/-- A trap leaves its frame at `tss.esp0`, and a fork builds one for the child. -/
theorem step_trapTop (hstep : s.step op = some (s', obs)) : s'.trapTop = s.trapTop ∨
    s.mode s.cur = .user ∧ (s'.trapTop = s.trap.trapTop ∨ ∃ c, s.kernel.freeSlot = some c ∧
      s'.trapTop = Function.update s.trap.trapTop (.proc c) (s'.kernel.procTable c).kernelStack) := by
  cases step_case hstep with
  | fork hmode _ hslot => exact Or.inr ⟨hmode, Or.inr ⟨_, hslot, rfl⟩⟩
  | scanNext _ _ _ => exact Or.inl rfl
  | reap _ _ _ => exact Or.inl rfl
  | noChild _ _ => exact Or.inl rfl
  | block _ _ _ _ => exact Or.inl rfl
  | tickKernel _ _ => exact Or.inl rfl
  | taskCreate _ => exact Or.inl rfl
  | store _ _ => exact Or.inl rfl
  | _ => exact Or.inr ⟨‹_›, Or.inl rfl⟩

/-! ## The invariant -/

/-- As long as process 0 has not come back to user mode after another process had the
processor: the TSS has the stack of the process that runs, and it has that of process 0
just until another one runs. -/
structure Served (s₀ : System) (tr : List (Op × Obs)) (s : System) : Prop where
  heap : s.kernel.heap.Ready
  orderly : Orderly s tr
  spread : s.kernel.Stacks
  proc : ∀ i, s.cur = .proc i → s.kernel.tssEsp0 = (s.kernel.procTable i).kernelStack
  alone : Alone s₀ tr → s.mode .main ≠ .halted →
    s.kernel.tssEsp0 = (s.kernel.procTable 0).kernelStack
  shared : ¬ Alone s₀ tr → s.kernel.tssEsp0 ≠ (s.kernel.procTable 0).kernelStack ∧
    (s.cur = .main → s.mode .main ≠ .user)
  kept : ∀ r p, Owns r p → (s.kernel.procTable p).state = .run →
    s.trapTop r = 0 ∨ s.trapTop r = (s.kernel.procTable p).kernelStack

theorem Served.owns (h : Served s₀ tr s) (hmode : s.mode s.cur = .user) :
    Owns s.cur s.kernel.processCurrent :=
  h.orderly.scans.owns_cur h.orderly.sched (by rw [hmode]; exact Mode.noConfusion)

theorem Served.ready (h : Served s₀ tr s) (hmode : s.mode s.cur = .user) :
    s.kernel.tssEsp0 = (s.kernel.procTable s.kernel.processCurrent).kernelStack := by
  obtain ⟨hcur, hp⟩ | ⟨hcur, -⟩ := h.owns hmode
  · rw [hp]
    rw [hcur] at hmode
    by_cases halone : Alone s₀ tr
    · exact h.alone halone (by rw [hmode]; exact Mode.noConfusion)
    · exact absurd hmode ((h.shared halone).2 hcur)
  · exact h.proc _ hcur

theorem Served.trapRight (h : Served s₀ tr s) : s.TrapRight where
  ready := h.ready
  apart := h.spread.apart
  kept hmode r p hr hp hne := by
    have hpc : p ≠ s.kernel.processCurrent := by
      rintro rfl
      exact hne (hr.task_inj (h.owns hmode))
    rw [h.ready hmode]
    obtain h0 | htop := h.kept r p hr hp
    · rw [h0, trapFrame, Nat.zero_sub, Set.Ico_self]
      exact Set.empty_disjoint _
    · rw [htop]
      refine (h.spread.apart p _ hpc hp h.orderly.sched.current_run).mono_left ?_
      exact Set.Ico_subset_Ico_left (Nat.sub_le_sub_left (by decide) _)

/-- A process other than 0 does not halt. -/
theorem Served.pid_ne (h : Served s₀ tr s) {i : Fin MAX_PROCS} (hcur : s.cur = .proc i) :
    s.kernel.processCurrent = i ∧ s.pid ≠ 0 := by
  obtain ⟨c, hc⟩ := h.orderly.sched.ring
  have hsched : s.kernel.Scheduled s.cur := hc.scheduled_running
  rw [hcur] at hsched
  have hi : s.kernel.processCurrent = i :=
    Kernel.processCurrent_proc hcur (by rw [hsched.2]; exact ProcState.noConfusion)
  refine ⟨hi, fun hpid ↦ ?_⟩
  have hpos := (h.orderly.family.pids i hsched.1 (by rw [hsched.2]; exact ProcState.noConfusion)).1
  rw [pid, hi] at hpid
  omega

/-- The TSS after a step. -/
theorem Served.step_proc (h : Served s₀ tr s) (hstep : s.step op = some (s', obs))
    (hs' : s'.kernel.Sched) {i : Fin MAX_PROCS} (hcur : s'.cur = .proc i) :
    s'.kernel.tssEsp0 = (s'.kernel.procTable i).kernelStack := by
  have hs := h.orderly.sched
  obtain ⟨c', hc'⟩ := hs'.ring
  have hsched' : s'.kernel.Scheduled s'.cur := hc'.scheduled_running
  obtain ⟨c, hc⟩ := hs.ring
  have hsched : s.kernel.Scheduled s.cur := hc.scheduled_running
  rw [hcur] at hsched'
  have hstay : s'.cur = s.cur → s'.kernel.tssEsp0 = s.kernel.tssEsp0 →
      s'.kernel.tssEsp0 = (s'.kernel.procTable i).kernelStack := by
    intro hsame htss
    have hcur' : s.cur = .proc i := hsame.symm.trans hcur
    rw [hcur'] at hsched
    rw [step_stack hs h.heap hstep hsched.2 hsched'.2, htss]
    exact h.proc i hcur'
  cases step_turn hs h.heap hstep with
  | keeps _ hk hesp0 =>
      obtain htss | ⟨hmode, htss | ⟨hpid, -⟩⟩ := hesp0
      · exact hstay hk.running htss
      · exact hstay hk.running (htss.trans (h.ready hmode).symm)
      · exact absurd hpid (h.pid_ne (hk.running.symm.trans hcur)).2
  | splices _ hk _ => exact hstay hk.running hk.esp0
  | @turns k _ hk _ hy =>
      have hyield := Kernel.yield_spec hy
      have hstate := hyield.liveBefore i hsched'.2
      by_cases hne : s'.kernel.runningTask = k.runningTask
      · obtain rfl | hleft := hk
        · exact hstay hne (hyield.tss_same hne)
        · have hgone := hleft.gone
          rw [← hleft.running, ← hne, show s'.kernel.runningTask = .proc i from hcur] at hgone
          exact absurd ((hyield.advanced.scheduled _).mp hsched') hgone
      · rw [hyield.tss_proc hcur hne (by rw [hstate.1]; exact ProcState.noConfusion), hstate.2]

/-- Process 0 comes back to user mode on the stack that is in the TSS. -/
theorem resumesInit_spec (hs : s.kernel.Sched) (hr : s.kernel.heap.Ready)
    (hstep : s.step op = some (s', obs)) (h : s.ResumesInit op) :
    s'.cur = .main ∧ s'.mode .main = .user ∧ s'.kernel.tssEsp0 = s.kernel.tssEsp0 := by
  obtain ⟨hne, hyields, hnext, huser⟩ | ⟨hcur, hends⟩ := h
  · cases step_turn hs hr hstep with
    | keeps hno _ _ => cases hno.symm.trans hyields
    | splices hno _ _ => cases hno.symm.trans hyields
    | @turns k _ hk _ hy =>
        have hyield := Kernel.yield_spec hy
        have hk' : k.next k.runningTask = some .main ∧ k.tssEsp0 = s.kernel.tssEsp0 := by
          obtain rfl | hleft := hk
          · exact ⟨hnext, rfl⟩
          · rw [hleft.running, hleft.next_running hs]
            exact ⟨hnext, hleft.esp0⟩
        have hcur : s'.kernel.runningTask = .main :=
          (Option.some.inj (hk'.1.symm.trans hyield.running)).symm
        refine ⟨hcur, (step_mode_main hstep hne).trans huser, ?_⟩
        refine (hyield.tss_other fun i heq ↦ ?_).trans hk'.2
        cases hcur.symm.trans heq
  · cases step_case hstep with
    | scanNext hmode hi hk =>
        obtain ⟨_, _, _, _, _, hmode', hslot⟩ := hends
        obtain ⟨rfl, -, rfl, -⟩ := Mode.waiting.inj (hmode.symm.trans hmode')
        rw [dif_pos hi] at hslot
        obtain ⟨-, -, hfree | hne | heq⟩ | ⟨-, -, ⟨-, -, hrun⟩ | ⟨-, hw, -⟩⟩ := Kernel.waitSlot_cases hk
        · cases hslot.1.symm.trans hfree
        · exact absurd hslot.2.2 hne
        · exact absurd heq hslot.2.1
        · cases hslot.1.symm.trans hrun
        · cases hw
    | reap hmode hi hk =>
        have hkeep := Kernel.waitSlot_keeps hk
        refine ⟨hkeep.running.trans hcur, ?_, Kernel.waitSlot_tss hk⟩
        rw [← hcur]
        exact Function.update_self ..
    | noChild hmode hi =>
        refine ⟨hcur, ?_, rfl⟩
        rw [← hcur]
        exact Function.update_self ..
    | block hmode hi hn hy =>
        obtain ⟨_, _, _, _, _, hmode', hn'⟩ := hends
        obtain ⟨-, -, rfl, rfl, -⟩ := Mode.waiting.inj (hmode.symm.trans hmode')
        rw [dif_neg hi] at hn'
        exact absurd hn' hn
    | _ => exact hends.elim

/-- Until another process has the processor the TSS keeps the stack of process 0. -/
theorem Served.step_alone (h : Served s₀ tr s) (hrun : Run s₀ tr s)
    (hstep : s.step op = some (s', obs)) (halone : Alone s₀ (tr ++ [(op, obs)]))
    (hmode : s'.mode .main ≠ .halted) :
    s'.kernel.tssEsp0 = (s.kernel.procTable 0).kernelStack := by
  have hs := h.orderly.sched
  obtain ⟨halone', hcur'⟩ := (alone_concat (hrun.step hstep)).mp halone
  have hcur := halone'.cur hrun
  have hold : s.mode .main ≠ .halted := by
    intro hhalted
    refine hmode ?_
    by_cases hmain : s.cur = .main
    · rw [← hmain] at hhalted ⊢
      exact step_halted hs hstep hhalted
    · exact (step_mode_main hstep hmain).trans hhalted
  have htss := h.alone halone' hold
  cases step_turn hs h.heap hstep with
  | keeps _ hk hesp0 =>
      obtain hsame | ⟨huser, hcase⟩ := hesp0
      · exact hsame.trans htss
      · obtain ⟨hmain, hp⟩ | ⟨hproc, -⟩ := h.owns huser
        · obtain hstack | ⟨-, hhalted⟩ := hcase
          · rw [hstack, hp]
          · rw [hmain] at hhalted
            exact absurd hhalted hmode
        · exact absurd hproc (hcur _)
  | splices _ hk _ => exact hk.esp0.trans htss
  | turns _ hk _ hy =>
      obtain rfl | hleft := hk
      · exact ((Kernel.yield_spec hy).tss_other hcur').trans htss
      · exact absurd hleft.current (hcur _)

/-- Afterwards it never has it again. -/
theorem Served.step_shared (h : Served s₀ tr s) (hstep : s.step op = some (s', obs))
    (hs' : s'.kernel.Sched) (hshared : ¬ Alone s₀ tr) (hresume : ¬ s.ResumesInit op) :
    s'.kernel.tssEsp0 ≠ (s.kernel.procTable 0).kernelStack ∧
      (s'.cur = .main → s'.mode .main ≠ .user) := by
  have hs := h.orderly.sched
  obtain ⟨htss, hmain⟩ := h.shared hshared
  obtain ⟨c', hc'⟩ := hs'.ring
  have hsched' : s'.kernel.Scheduled s'.cur := hc'.scheduled_running
  refine ⟨?_, fun hcur' huser ↦ ?_⟩
  · by_cases hproc : ∃ i, s'.cur = .proc i
    · obtain ⟨i, hi⟩ := hproc
      rw [h.step_proc hstep hs' hi, ← step_stack hs h.heap hstep hs.zeroState hs'.zeroState]
      rw [hi] at hsched'
      exact (step_stacks hs h.heap h.spread hstep).ne hsched'.1 hsched'.2 hs'.zeroState
    · have hother : ∀ i, s'.kernel.runningTask ≠ .proc i := fun i hi ↦ hproc ⟨i, hi⟩
      cases step_turn hs h.heap hstep with
      | keeps _ hk hesp0 =>
          obtain hsame | ⟨huser, hcase⟩ := hesp0
          · rwa [hsame]
          · obtain ⟨hcur, -⟩ | ⟨hcur, -⟩ := h.owns huser
            · rw [hcur] at huser
              exact absurd huser (hmain hcur)
            · exact absurd (hk.running.trans hcur) (hother _)
      | splices _ hk _ => rwa [hk.esp0]
      | turns _ hk _ hy =>
          rw [(Kernel.yield_spec hy).tss_other hother]
          obtain rfl | hleft := hk
          · exact htss
          · rwa [hleft.esp0]
  · by_cases hcur : s.cur = .main
    · rw [← hcur] at huser
      obtain huser | hends := step_user hs hstep huser
      · rw [hcur] at huser
        exact hmain hcur huser
      · exact hresume (Or.inr ⟨hcur, hends⟩)
    · have huser' := (step_mode_main hstep hcur).symm.trans huser
      cases step_turn hs h.heap hstep with
      | keeps _ hk _ => exact hcur (hk.running.symm.trans hcur')
      | splices _ hk _ => exact hcur (hk.running.symm.trans hcur')
      | @turns k hyields hk _ hy =>
          refine hresume (Or.inl ⟨hcur, hyields, ?_, huser'⟩)
          have hrunning := (Kernel.yield_spec hy).running
          rw [show s'.kernel.runningTask = .main from hcur'] at hrunning
          obtain rfl | hleft := hk
          · exact hrunning
          · rw [hleft.running, hleft.next_running hs] at hrunning
            exact hrunning

/-- Frames stay on the stacks of their processes. -/
theorem Served.step_kept (h : Served s₀ tr s) (hstep : s.step op = some (s', obs))
    (r : TaskRef) (p : Fin MAX_PROCS) (hr : Owns r p) (hp : (s'.kernel.procTable p).state = .run) :
    s'.trapTop r = 0 ∨ s'.trapTop r = (s'.kernel.procTable p).kernelStack := by
  have hs := h.orderly.sched
  by_cases hp₀ : (s.kernel.procTable p).state = .run
  · rw [step_stack hs h.heap hstep hp₀ hp]
    have htrap : s.mode s.cur = .user → s.trap.trapTop r = 0 ∨
        s.trap.trapTop r = (s.kernel.procTable p).kernelStack := by
      intro hmode
      by_cases hcur : r = s.cur
      · right
        subst hcur
        rw [hr.inj (h.owns hmode), ← h.ready hmode]
        exact Function.update_self ..
      · have htop : s.trap.trapTop r = s.trapTop r := Function.update_of_ne hcur ..
        rw [htop]
        exact h.kept r p hr hp₀
    obtain heq | ⟨hmode, heq | ⟨c, hslot, heq⟩⟩ := step_trapTop hstep
    · rw [heq]
      exact h.kept r p hr hp₀
    · rw [heq]
      exact htrap hmode
    · have hrc : r ≠ .proc c := by
        rintro rfl
        obtain ⟨hr, -⟩ | ⟨hr, -⟩ := hr
        · cases hr
        · obtain rfl := TaskRef.proc.inj hr
          cases (Kernel.freeSlot_spec hslot).2.symm.trans hp₀
      rw [heq, Function.update_of_ne hrc]
      exact htrap hmode
  · -- a child that was forked in this step
    right
    obtain hlive | ⟨c, regs, rfl, hslot, hlive⟩ := step_live hs h.heap hstep
    · exact absurd (hlive p hp).1 hp₀
    · obtain ⟨-, hrun, -⟩ | ⟨rfl, -⟩ := hlive p hp
      · exact absurd hrun hp₀
      · obtain ⟨-, hp0⟩ | ⟨rfl, -⟩ := hr
        · exact absurd hp0 (Kernel.freeSlot_spec hslot).1
        · cases step_case hstep with
          | forkNoSlot _ _ hnone => cases hslot.symm.trans hnone
          | fork _ _ hslot' =>
              obtain rfl := Option.some.inj (hslot.symm.trans hslot')
              exact Function.update_self ..

theorem Served.step (h : Served s₀ tr s) (hrun : Run s₀ tr s) (hstep : s.step op = some (s', obs))
    (horderly : Orderly s' (tr ++ [(op, obs)])) (hresume : s.ResumesInit op → Alone s₀ tr) :
    Served s₀ (tr ++ [(op, obs)]) s' := by
  have hs := h.orderly.sched
  have hs' := horderly.sched
  have hstack := step_stack hs h.heap hstep hs.zeroState hs'.zeroState
  have hspread := step_stacks hs h.heap h.spread hstep
  exact {
    heap := (step_heap hs h.heap hstep).1
    orderly := horderly
    spread := hspread
    proc := fun i hi ↦ h.step_proc hstep hs' hi
    alone := fun halone hmode ↦ (h.step_alone hrun hstep halone hmode).trans hstack.symm
    shared := fun hshared ↦ by
      by_cases halone : Alone s₀ tr
      · have hproc : ∃ i, s'.cur = .proc i := by
          by_contra hno
          exact hshared ((alone_concat (hrun.step hstep)).mpr ⟨halone, not_exists.mp hno⟩)
        obtain ⟨i, hi⟩ := hproc
        obtain ⟨c', hc'⟩ := hs'.ring
        have hsched : s'.kernel.Scheduled s'.cur := hc'.scheduled_running
        rw [hi] at hsched
        refine ⟨?_, fun hmain ↦ TaskRef.noConfusion (hi.symm.trans hmain)⟩
        rw [h.step_proc hstep hs' hi]
        exact hspread.ne hsched.1 hsched.2 hs'.zeroState
      · rw [hstack]
        exact h.step_shared hstep hs' halone fun hr ↦ halone (hresume hr)
    kept := h.step_kept hstep }

/-! ## Runs -/

/-- The heap after an allocation no larger than the heap itself. -/
theorem kmalloc_ready {h : Kheap} (hr : h.Ready) (halign : h.heapNext % 8 = 0) {size : ℕ}
    (hsize : size ≤ KERNEL_HEAP_SIZE) :
    (h.kmalloc size).2.Ready ∧ h.heapNext ≤ (h.kmalloc size).2.heapNext := by
  obtain ⟨hstop, hstart, hle⟩ := hr
  rw [KERNEL_HEAP_BASE] at hstop hstart
  rw [KERNEL_HEAP_SIZE] at hstop hsize
  have hround : ((size + 7) % 2 ^ 32) &&& 0xFFFFFFF8 = (size + 7) / 8 * 8 := by
    rw [Nat.mod_eq_of_lt (by omega), LittleEndian.and_eight_mask (by omega)]
  rw [Kheap.kmalloc, hround, Nat.mod_eq_of_lt (by omega)]
  split
  · exact ⟨⟨by rw [hstop]; rfl, hstart, hle⟩, le_rfl⟩
  · have hnext : (h.heapNext + (size + 7) / 8 * 8) % 2 ^ 32 = h.heapNext + (size + 7) / 8 * 8 :=
      Nat.mod_eq_of_lt (by omega)
    rw [hnext]
    refine ⟨⟨by rw [hstop]; rfl, hstart.trans (Nat.le_add_right _ _), ?_⟩, Nat.le_add_right _ _⟩
    change h.heapNext + (size + 7) / 8 * 8 ≤ h.heapEnd
    omega

/-- The heap and the stack of process 0 when it enters user mode. -/
theorem boot_stack {k : Kernel} {size : ℕ} (brk : ℕ) (hheap : k.heap.Ready)
    (hsize : size ≤ KERNEL_HEAP_SIZE) (hstack : (k.heap.kmallocAligned KSTACK_SIZE).1 ≠ 0) :
    (boot k size brk).kernel.heap.Ready ∧
      KSTACK_SIZE ≤ ((boot k size brk).kernel.procTable 0).kernelStack ∧
      ((boot k size brk).kernel.procTable 0).kernelStack ≤ (boot k size brk).kernel.heap.heapNext := by
  rcases hnew : k.heap.kmallocAligned KSTACK_SIZE with ⟨stack, heap⟩
  rw [hnew] at hstack
  have hentry : ((boot k size brk).kernel.procTable 0).kernelStack =
      (stack + KSTACK_SIZE) % 2 ^ 32 := by simp [boot, boot_kernel, hnew, bootEntry, bootStack]
  have hkernel : (boot k size brk).kernel.heap = (heap.kmalloc size).2 := by
    simp [boot, boot_kernel, hnew]
  have hready := (hheap.kmallocAligned hnew).1
  have hstop := hheap.stop
  have hstart := hheap.start
  rw [KERNEL_HEAP_BASE] at hstart hstop
  rw [KERNEL_HEAP_SIZE] at hstop
  obtain ⟨-, hcase⟩ | ⟨hfits, hcase⟩ := Kheap.kmallocAligned_cases hheap <;>
    obtain ⟨rfl, rfl⟩ := Prod.mk.inj (hnew.symm.trans hcase)
  · exact absurd rfl hstack
  · obtain ⟨hready', hnext⟩ := kmalloc_ready hready (by simp only [KSTACK_SIZE]; omega) hsize
    rw [hentry, hkernel]
    simp only [KSTACK_SIZE] at hfits hnext ⊢
    refine ⟨hready', ?_, ?_⟩ <;> omega

theorem boot_served {k : Kernel} {size brk : ℕ} (hheap : k.heap.Ready)
    (hsize : size ≤ KERNEL_HEAP_SIZE) (hstack : (k.heap.kmallocAligned KSTACK_SIZE).1 ≠ 0) :
    Served (boot k size brk) [] (boot k size brk) := by
  obtain ⟨hready, hpage, hbelow⟩ := boot_stack brk hheap hsize hstack
  have hrun : ∀ p, ((boot k size brk).kernel.procTable p).state = .run → p = 0 := by
    intro p hp
    by_contra hp0
    rw [boot, boot_kernel] at hp
    simp only [Function.update_of_ne hp0] at hp
    cases hp
  have hcur : (boot k size brk).cur = .main := by
    rw [cur, boot, boot_kernel]
  have halone : Alone (boot k size brk) [] := by
    intro tr' s i hpre hrun'
    obtain rfl := List.prefix_nil.mp hpre
    rw [hrun'.unique .start, hcur]
    exact TaskRef.noConfusion
  exact {
    heap := hready
    orderly := boot_orderly k size brk
    spread := {
      below := fun p hp ↦ by
        rw [hrun p hp]
        exact hbelow
      page := fun p hp ↦ by
        rw [hrun p hp]
        exact hpage
      apart := fun p q hpq hp hq ↦ absurd ((hrun p hp).trans (hrun q hq).symm) hpq }
    proc := fun i hi ↦ by
      rw [hcur] at hi
      cases hi
    alone := fun _ _ ↦ by
      rw [boot, boot_kernel]
      rfl
    shared := fun hno ↦ absurd halone hno
    kept := fun _ _ _ _ ↦ Or.inl rfl }

end System

end EclipseOS
