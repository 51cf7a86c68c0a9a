import EclipseOS.Lib.Loops
import EclipseOS.ProcessLife
import EclipseOS.StackTrace

/-!
# The task listing of the debugger

`cmd_tasks` follows the links from the running task until it is back there.
The keyboard interrupt may start it wherever interrupts are enabled, which is
also inside a `yield` of `process_wait` and before and inside that of
`process_exit`.  There the timer can come in, too: between the load of the next
task and its store into `running_task`, and between that store and
`switch_task`.  A `Moment` is the kernel at such a point.
-/

namespace EclipseOS

open IntrusiveList

/-! ## The command -/

/-- A line of the listing, the task it is about and the backtrace below it. -/
structure TaskLine where
  i : ℕ
  task : TaskRef
  current : Bool
  eip : ℕ
  esp : ℕ
  symbol : Option (List UInt8)
  trace : Option StackTrace

/-- Where the loop of `cmd_tasks` stands.  It is stuck in a page fault of a
backtrace, or behind a null link. -/
inductive Listing
  | turn (t : TaskRef) (lines : List TaskLine)
  | returned (lines : List TaskLine)
  | stuck (lines : List TaskLine)

namespace Kernel

/-- `stack_trace_from(t->regs.ebp, 5)`. -/
def taskTrace (k : Kernel) (image : KernelImage) (ksymbols : List KSymbol) (t : TaskRef) :
    StackTrace := k.machine.stackTraceFrom image ksymbols (k.task t).regs.ebp 5

def taskLine (k : Kernel) (image : KernelImage) (ksymbols : List KSymbol) (i : ℕ)
    (t : TaskRef) : TaskLine :=
  let regs := (k.task t).regs
  { i
    task := t
    current := t = k.taskCurrent
    eip := regs.eip
    esp := regs.esp
    symbol := (symbolLookup ksymbols regs.eip).map fun s ↦ s.1.name
    trace := if t = k.taskCurrent then none else some (k.taskTrace image ksymbols t) }

/-- One turn of the loop of `cmd_tasks`. -/
def cmdTasksTurn (k : Kernel) (image : KernelImage) (ksymbols : List KSymbol) :
    Listing → Option Listing
  | .turn t lines =>
      let line := k.taskLine image ksymbols lines.length t
      let lines := lines ++ [line]
      if ∃ trace ∈ line.trace, trace.faulted then some (.stuck lines)
      else match (k.task t).next with
        | none => some (.stuck lines)
        | some t => if t = k.taskCurrent then some (.returned lines) else some (.turn t lines)
  | _ => none

/-- `cmd_tasks` returns, having printed `lines`. -/
def CmdTasks (k : Kernel) (image : KernelImage) (ksymbols : List KSymbol)
    (lines : List TaskLine) : Prop :=
  Loop.Reaches (k.cmdTasksTurn image ksymbols) (.turn k.taskCurrent []) (.returned lines)

/-! ## The parts of a yield -/

/-- `running_task->next`. -/
def loadNext (k : Kernel) : Option TaskRef := (k.task k.runningTask).next

/-- The store of what was loaded. -/
def storeRunning (k : Kernel) (next : TaskRef) : Kernel := { k with runningTask := next }

/-- `running_task = running_task->next`, with nothing in between. -/
def advance (k : Kernel) : Option Kernel := do
  let next ← k.loadNext
  return k.storeRunning next

/-- The rest of `yield`, in the context of `prev`. -/
def dispatch (k : Kernel) (cpu : TaskRegs) (prev : TaskRef) : Kernel :=
  let next := k.runningTask
  let k := (k.processOfTask next).elim k fun np ↦ k.tssSetStack (k.procTable np).kernelStack
  (k.switchTask cpu prev next).1

end Kernel

/-! ## Moments at which interrupts are enabled -/

/-- An exiting context is leaving from the `sti` of `process_exit` until its
`yield` has stored `running_task`. -/
inductive Stage
  | running
  | leaving
  deriving DecidableEq

/-- `loaded` are the tasks that a `yield` under way has loaded and not yet stored. -/
structure Moment where
  kernel : Kernel
  stage : Stage
  loaded : List TaskRef

/-- What may happen between two moments.  `work` is any code that stores to
memory and allocates; `advance` is the assignment of a `yield` that nothing
interrupts, `load` and `store` are those of one that may be; `dispatch` ends a
`yield` which was begun before. -/
inductive Action
  | work (m : Machine) (heap : Kheap)
  | setBrk (brk : ℕ)
  | fork (regs : Registers)
  | execve (path : ℕ)
  | exit (code : BitVec 32)
  | waitSlot (self : Fin MAX_PROCS) (status children : ℕ) (i : Fin MAX_PROCS)
  | taskCreate (main flags : ℕ)
  | sbrk (increment : BitVec 32)
  | openFile (path : ℕ)
  | closeFile (fd : ℕ)
  | readFile (fd buf len : ℕ)
  | advance
  | load
  | store (next : TaskRef)
  | dispatch (cpu : TaskRegs) (prev : TaskRef)

namespace Moment

/-- A call made while the running context is not leaving. -/
def call (k : Kernel) : Action → Option (Kernel × Stage)
  | .work m heap => some ({ k with machine := m, heap := heap }, .running)
  | .setBrk brk => some (k.processSetBrk brk, .running)
  | .fork regs => (k.processFork regs).map fun r ↦ (r.2, .running)
  | .execve path => (k.sysExecve path).map fun r ↦ (r.2, .running)
  | .exit code => (k.processExit code.toInt).map fun r ↦
      (r.2, match r.1 with | .halted => .running | .leaving => .leaving)
  | .waitSlot self status children i =>
      (k.waitSlot self status children i).map fun r ↦ (r.2, .running)
  | .taskCreate main flags => (k.taskCreate main flags).map fun k ↦ (k, .running)
  | .sbrk increment => (k.sysSbrk increment).map fun r ↦ (r.2, .running)
  | .openFile path => (k.sysOpen path).map fun r ↦ (r.2, .running)
  | .closeFile fd => some ((k.sysClose fd).2, .running)
  | .readFile fd buf len => (k.sysRead fd buf len).map fun r ↦ (r.2, .running)
  | .advance => k.advance.map fun k ↦ (k, .running)
  | .dispatch cpu prev => some (k.dispatch cpu prev, .running)
  | .load => none
  | .store _ => none

/-- A leaving context goes on to its `yield`, or is interrupted: by the timer,
whose `yield` moves on as its own would, or by a handler that leaves the tasks alone. -/
def leave (k : Kernel) : Action → Option (Kernel × Stage)
  | .advance => call k .advance
  | .work m heap => some ({ k with machine := m, heap := heap }, .leaving)
  | _ => none

/-- A step that neither loads nor stores apart. -/
def proceed (p : Moment) (a : Action) : Option (Kernel × Stage) :=
  match p.stage with
  | .running => call p.kernel a
  | .leaving => leave p.kernel a

/-- Which context stores what it has loaded is left open: a switch between the
load and the store may have put any of them on the processor. -/
def step (p : Moment) : Action → Option Moment
  | .load => p.kernel.loadNext.map fun next ↦ { p with loaded := next :: p.loaded }
  | .store next =>
      if next ∈ p.loaded then
        some ⟨p.kernel.storeRunning next, .running, p.loaded.erase next⟩
      else none
  | a => do
      let (k, stage) ← p.proceed a
      return ⟨k, stage, p.loaded⟩

def boot (k : Kernel) : Moment := ⟨k.interruptsOn, .running, []⟩

inductive Reachable (p₀ : Moment) : Moment → Prop
  | start : Reachable p₀ p₀
  | step {p p' : Moment} {a : Action} : Reachable p₀ p → p.step a = some p' → Reachable p₀ p'

/-- A task that is stored is still one of the ring: it has not exited since it was loaded. -/
def Timely (p : Moment) : Action → Prop
  | .store next => p.kernel.Scheduled next
  | _ => True

/-- Reached by timely steps. -/
inductive TimelyReachable (p₀ : Moment) : Moment → Prop
  | start : TimelyReachable p₀ p₀
  | step {p p' : Moment} {a : Action} :
      TimelyReachable p₀ p → p.Timely a → p.step a = some p' → TimelyReachable p₀ p'

end Moment

namespace Kernel

variable {k k' : Kernel} {image : KernelImage} {ksymbols : List KSymbol}
variable {c l : List TaskRef} {a t prev : TaskRef} {lines : List TaskLine} {cpu : TaskRegs}

/-- `yield` is its two halves. -/
theorem yield_eq (k : Kernel) (cpu : TaskRegs) : k.yield cpu = do
    let k' ← k.advance
    return if k.runningTask = k'.runningTask then k' else k'.dispatch cpu k.runningTask := by
  cases hnext : k.next k.runningTask with
  | none => simp [yield, advance, loadNext, hnext]
  | some t =>
      by_cases ht : k.runningTask = t
      · subst ht
        simp [yield, advance, loadNext, storeRunning, hnext]
      · simp [yield, advance, loadNext, storeRunning, dispatch, hnext, ht]

theorem advance_advanced (h : k.advance = some k') : Advanced k k' := by
  obtain ⟨t, ht, hk⟩ := Option.bind_eq_some_iff.mp h
  obtain rfl := Option.some.inj hk
  exact ⟨ht, rfl, rfl, fun _ ↦ rfl, fun _ ↦ rfl⟩

@[simp] theorem storeRunning_next (k : Kernel) (t : TaskRef) : (k.storeRunning t).next = k.next := by
  funext r
  cases r <;> rfl

/-- The ring read from another of its members. -/
theorem schedRing_storeRunning (hring : Ring k.next c) (hmem : ∀ t, t ∈ c ↔ k.Scheduled t)
    (ht : k.Scheduled t) : ∃ c', (k.storeRunning t).SchedRing c' := by
  obtain ⟨l₁, l₂, rfl⟩ := List.append_of_mem ((hmem t).mpr ht)
  have hrotate : (l₁ ++ t :: l₂).rotate l₁.length = t :: l₂ ++ l₁ := by simp
  refine ⟨t :: l₂ ++ l₁, rfl, ?_, fun r ↦ ?_⟩
  · rw [storeRunning_next, ← hrotate]
    exact hring.rotate _
  · have hsame : (k.storeRunning t).Scheduled r ↔ k.Scheduled r := by cases r <;> rfl
    rw [hsame, ← hmem, ← hrotate, List.mem_rotate]

theorem Sched.storeRunning (h : k.Sched) (ht : k.Scheduled t) : (k.storeRunning t).Sched := by
  obtain ⟨⟨c, -, hring, hmem⟩, hpid, hstate⟩ := h
  exact ⟨schedRing_storeRunning hring hmem ht, hpid, hstate⟩

theorem Leaving.storeRunning (h : k.Leaving) (ht : k.Scheduled t) : (k.storeRunning t).Sched := by
  obtain ⟨⟨c, -, hring, hmem, -⟩, hpid, hstate⟩ := h
  exact ⟨schedRing_storeRunning hring hmem ht, hpid, hstate⟩

/-- The second half stores to the TSS, the loaded directory and the saved registers. -/
theorem quiet_dispatch (k : Kernel) (cpu : TaskRegs) (prev : TaskRef) :
    Quiet k (k.dispatch cpu prev) := by
  have hswitch : ∀ (k : Kernel) next, Quiet k (k.switchTask cpu prev next).1 := fun k next ↦
    (quiet_modifyRegs k prev _).trans (quiet_withMachine _ _)
  rw [dispatch]
  cases k.processOfTask k.runningTask with
  | none => exact hswitch k k.runningTask
  | some p => exact (quiet_tssSetStack k _).trans (hswitch _ k.runningTask)

theorem quiet_processSetBrk (k : Kernel) (brk : ℕ) : Quiet k (k.processSetBrk brk) := by
  unfold processSetBrk
  apply quiet_modifyProc <;> exact fun _ ↦ rfl

/-- Code that leaves tasks and processes alone. -/
theorem Sched.work (h : k.Sched) (m : Machine) (heap : Kheap) :
    ({ k with machine := m, heap := heap } : Kernel).Sched := by
  obtain ⟨⟨c, hc⟩, hpid, hstate⟩ := h
  exact ⟨⟨c, hc.congr rfl (fun t _ ↦ by cases t <;> rfl) fun t ↦ by cases t <;> rfl⟩,
    hpid, hstate⟩

theorem Leaving.work (h : k.Leaving) (m : Machine) (heap : Kheap) :
    ({ k with machine := m, heap := heap } : Kernel).Leaving := by
  obtain ⟨⟨c, hhead, hring, hmem, hnot⟩, hpid, hstate⟩ := h
  have hnext : ({ k with machine := m, heap := heap } : Kernel).next = k.next := by
    funext t
    cases t <;> rfl
  refine ⟨⟨c, by rw [hnext]; exact hhead, by rw [hnext]; exact hring, fun t ↦ ?_, hnot⟩,
    hpid, hstate⟩
  rw [hmem]
  cases t <;> rfl

theorem interruptsOn_sched (k : Kernel) : k.interruptsOn.Sched := by
  have hproc : ∀ i, (k.interruptsOn.procTable i).pid = 0 ∧
      ((k.interruptsOn.procTable i).state = .run ↔ i = 0) := by
    intro i
    by_cases hi : i = 0 <;> simp [interruptsOn, processInitialize, hi, Process.zero]
  have hmain : k.interruptsOn.next .main = some .main := by
    simp [interruptsOn, processInitialize, taskingInitialize, tssSetStack, next, task]
  have hcreated : k.interruptsOn.createdCount = 0 := by
    simp [interruptsOn, processInitialize, taskingInitialize, tssSetStack]
  refine ⟨⟨[.main], ?_, ring_cons.mpr ⟨by simp, hmain⟩, fun t ↦ ?_⟩, (hproc 0).1,
    (hproc 0).2.mpr rfl⟩
  · simp [interruptsOn, processInitialize, taskingInitialize, tssSetStack]
  · cases t with
    | main => simp [Scheduled]
    | created n => simp [Scheduled, hcreated]
    | proc i => simp [Scheduled, (hproc i).2]

/-! ## Following the links -/

/-- The loop turns on a task whose backtrace does not fault. -/
theorem cmdTasksTurn_of_sound (hsound : t ≠ k.taskCurrent → ¬ (k.taskTrace image ksymbols t).faulted)
    {u : TaskRef} (hnext : k.next t = some u) (lines : List TaskLine) :
    k.cmdTasksTurn image ksymbols (.turn t lines) =
      let lines := lines ++ [k.taskLine image ksymbols lines.length t]
      if u = k.taskCurrent then some (.returned lines) else some (.turn u lines) := by
  have htrace : ¬ ∃ trace ∈ (k.taskLine image ksymbols lines.length t).trace, trace.faulted := by
    rintro ⟨trace, htrace, hfaulted⟩
    by_cases ht : t = k.taskCurrent
    · simp [taskLine, ht] at htrace
    · simp only [taskLine, if_neg ht, Option.mem_def, Option.some.injEq] at htrace
      rw [← htrace] at hfaulted
      exact hsound ht hfaulted
  simp only [cmdTasksTurn, if_neg htrace, task_next, hnext]

/-- A backtrace that faults is the end of the listing. -/
theorem cmdTasksTurn_of_faulted (ht : t ≠ k.taskCurrent)
    (hfaulted : (k.taskTrace image ksymbols t).faulted) (lines : List TaskLine) :
    k.cmdTasksTurn image ksymbols (.turn t lines) =
      some (.stuck (lines ++ [k.taskLine image ksymbols lines.length t])) := by
  have htrace : ∃ trace ∈ (k.taskLine image ksymbols lines.length t).trace, trace.faulted :=
    ⟨_, by simp [taskLine, ht], hfaulted⟩
  simp only [cmdTasksTurn, if_pos htrace]

/-- From a task on the way around the listing comes back, or gets stuck at a fault. -/
theorem cmdTasks_links (image : KernelImage) (ksymbols : List KSymbol)
    (hlinks : Links k.next a l k.taskCurrent)
    (hl : ∀ x ∈ l, x ≠ k.taskCurrent) (lines : List TaskLine) :
    ((∀ x ∈ a :: l, x ≠ k.taskCurrent → ¬ (k.taskTrace image ksymbols x).faulted) ∧
      ∃ lines', Loop.Reaches (k.cmdTasksTurn image ksymbols) (.turn a lines) (.returned lines') ∧
        lines'.map TaskLine.task = lines.map TaskLine.task ++ a :: l) ∨
    ((∃ x ∈ a :: l, x ≠ k.taskCurrent ∧ (k.taskTrace image ksymbols x).faulted) ∧
      ∃ lines', Loop.Reaches (k.cmdTasksTurn image ksymbols) (.turn a lines) (.stuck lines')) := by
  have hfirst : ∀ a l lines, a ≠ k.taskCurrent ∧ (k.taskTrace image ksymbols a).faulted →
      (∃ x ∈ a :: l, x ≠ k.taskCurrent ∧ (k.taskTrace image ksymbols x).faulted) ∧
      ∃ lines', Loop.Reaches (k.cmdTasksTurn image ksymbols) (.turn a lines) (.stuck lines') :=
    fun a l lines ha ↦ ⟨⟨a, List.mem_cons_self .., ha⟩, _,
      Loop.Reaches.head (cmdTasksTurn_of_faulted ha.1 ha.2 lines) (Loop.Reaches.refl _ _)⟩
  induction l generalizing a lines with
  | nil =>
      by_cases ha : a ≠ k.taskCurrent ∧ (k.taskTrace image ksymbols a).faulted
      · exact Or.inr (hfirst a [] lines ha)
      left
      have hsound : a ≠ k.taskCurrent → ¬ (k.taskTrace image ksymbols a).faulted :=
        fun hne hf ↦ ha ⟨hne, hf⟩
      have hturn := (cmdTasksTurn_of_sound hsound hlinks lines).trans (if_pos rfl)
      refine ⟨fun x hx ↦ ?_, _, Loop.Reaches.head hturn (Loop.Reaches.refl _ _), ?_⟩
      · rw [List.mem_singleton.mp hx]
        exact hsound
      · simp [taskLine]
  | cons b l ih =>
      by_cases ha : a ≠ k.taskCurrent ∧ (k.taskTrace image ksymbols a).faulted
      · exact Or.inr (hfirst a (b :: l) lines ha)
      have hsound : a ≠ k.taskCurrent → ¬ (k.taskTrace image ksymbols a).faulted :=
        fun hne hf ↦ ha ⟨hne, hf⟩
      have hturn := (cmdTasksTurn_of_sound hsound hlinks.1 lines).trans
        (if_neg (hl b (List.mem_cons_self ..)))
      rcases ih hlinks.2 (fun x hx ↦ hl x (List.mem_cons_of_mem b hx)) _ with
        ⟨hall, lines', hreach, hmap⟩ | ⟨⟨x, hx, hxf⟩, lines', hreach⟩
      · left
        refine ⟨fun x hx ↦ ?_, lines', Loop.Reaches.head hturn hreach, ?_⟩
        · rcases List.mem_cons.mp hx with rfl | hx
          · exact hsound
          · exact hall x hx
        · rw [hmap]
          simp [taskLine]
      · right
        exact ⟨⟨x, List.mem_cons_of_mem a hx, hxf⟩, lines', Loop.Reaches.head hturn hreach⟩

/-- On the ring the listing returns, and shows the ring, unless a backtrace faults. -/
theorem SchedRing.cmdTasks_iff (h : k.SchedRing c) :
    (∃ lines, k.CmdTasks image ksymbols lines ∧ (lines.map TaskLine.task).Perm c) ↔
      ∀ t ∈ c, t ≠ k.taskCurrent → ¬ (k.taskTrace image ksymbols t).faulted := by
  obtain ⟨l, rfl⟩ := h.exists_cons
  obtain ⟨hnodup, hlinks⟩ := ring_cons.mp h.2.1
  have hl : ∀ x ∈ l, x ≠ k.taskCurrent := by
    rintro x hx rfl
    exact (List.nodup_cons.mp hnodup).1 hx
  rcases cmdTasks_links image ksymbols hlinks hl [] with
    ⟨hsound, lines, hreach, hmap⟩ | ⟨⟨x, hx, hne, hf⟩, lines, hreach⟩
  · refine iff_of_true ⟨lines, hreach, ?_⟩ hsound
    rw [hmap]
    exact List.Perm.refl _
  · refine iff_of_false ?_ fun hall ↦ hall x hx hne hf
    rintro ⟨lines', hreturned, -⟩
    have heq := (Loop.Reaches.to_last hreach rfl hreturned).eq_of_none rfl
    exact nomatch heq

/-- From outside the ring the listing goes around it without end. -/
theorem Unlinked.not_cmdTasks (h : k.Unlinked c) : ¬ k.CmdTasks image ksymbols lines := by
  obtain ⟨hhead, hring, -, hnot⟩ := h
  -- the task of every turn is the exiting one or a member of the ring
  let Around : Listing → Prop
    | .turn t _ => t = k.taskCurrent ∨ t ∈ c
    | .returned _ => False
    | .stuck _ => True
  have hnext : ∀ t, t = k.taskCurrent ∨ t ∈ c → ∀ u, k.next t = some u → u ∈ c := by
    rintro t (rfl | ht) u hu
    · rw [taskCurrent, ← hhead] at hu
      exact List.mem_of_mem_head? hu
    · obtain ⟨v, hv, heq⟩ := hring.next_mem ht
      rw [hu] at heq
      rw [Option.some.inj heq]
      exact hv
  rintro ⟨n, hn⟩
  refine Loop.turns_induction (P := Around) (Or.inl rfl) (fun s s' hs hstep ↦ ?_) hn
  cases s with
  | returned _ => cases hstep
  | stuck _ => cases hstep
  | turn t lines =>
      by_cases hf : t ≠ k.taskCurrent ∧ (k.taskTrace image ksymbols t).faulted
      · rw [cmdTasksTurn_of_faulted hf.1 hf.2] at hstep
        rw [← Option.some.inj hstep]
        trivial
      · have hsound : t ≠ k.taskCurrent → ¬ (k.taskTrace image ksymbols t).faulted :=
          fun hne hfault ↦ hf ⟨hne, hfault⟩
        obtain ⟨u, hu⟩ : ∃ u, k.next t = some u := by
          rcases hs with rfl | ht
          · obtain ⟨a, l, rfl, -⟩ := hring
            exact ⟨a, hhead.symm⟩
          · obtain ⟨u, -, hu⟩ := hring.next_mem ht
            exact ⟨u, hu⟩
        have huc := hnext t hs u hu
        have hne : u ≠ k.taskCurrent := by
          rintro rfl
          exact hnot huc
        rw [cmdTasksTurn_of_sound hsound hu, if_neg hne] at hstep
        rw [← Option.some.inj hstep]
        exact Or.inr huc

end Kernel

namespace Moment

variable {p p' : Moment} {a : Action} {k k' : Kernel} {stage : Stage}

/-- The tasks form the ring, or the ring which a leaving task still points into. -/
def Ordered (k : Kernel) : Stage → Prop
  | .running => k.Sched
  | .leaving => k.Leaving

theorem call_ordered (h : k.Sched) (hcall : call k a = some (k', stage)) : Ordered k' stage := by
  cases a with
  | work m heap =>
      cases hcall
      exact h.work m heap
  | setBrk brk =>
      cases hcall
      exact (Kernel.quiet_processSetBrk k brk).sched h
  | fork regs =>
      obtain ⟨⟨r, k'⟩, hk, heq⟩ := Option.map_eq_some_iff.mp hcall
      cases heq
      exact h.processFork hk
  | execve path =>
      obtain ⟨⟨r, k'⟩, hk, heq⟩ := Option.map_eq_some_iff.mp hcall
      cases heq
      exact (Kernel.sysExecve_quiet hk).sched h
  | exit code =>
      obtain ⟨⟨o, k'⟩, hk, heq⟩ := Option.map_eq_some_iff.mp hcall
      cases heq
      cases o with
      | leaving => exact h.processExit hk
      | halted =>
          obtain ⟨-, -, rfl⟩ | ⟨-, ho, -⟩ := Kernel.processExit_cases h.zeroPid hk
          · exact (Kernel.quiet_tssSetStack _ _).sched h
          · exact nomatch ho
  | waitSlot self status children i =>
      obtain ⟨⟨w, k'⟩, hk, heq⟩ := Option.map_eq_some_iff.mp hcall
      cases heq
      exact h.waitSlot hk
  | taskCreate main flags =>
      rw [call] at hcall
      obtain ⟨k', hk, heq⟩ := Option.map_eq_some_iff.mp hcall
      cases heq
      exact h.taskCreate hk
  | sbrk increment =>
      obtain ⟨⟨r, k'⟩, hk, heq⟩ := Option.map_eq_some_iff.mp hcall
      cases heq
      exact (Kernel.sysSbrk_quiet hk).sched h
  | openFile path =>
      obtain ⟨⟨r, k'⟩, hk, heq⟩ := Option.map_eq_some_iff.mp hcall
      cases heq
      exact (Kernel.sysOpen_quiet hk).sched h
  | closeFile fd =>
      cases hcall
      exact (Kernel.sysClose_quiet k fd).sched h
  | readFile fd buf len =>
      obtain ⟨⟨r, k'⟩, hk, heq⟩ := Option.map_eq_some_iff.mp hcall
      cases heq
      exact (Kernel.sysRead_quiet hk).sched h
  | advance =>
      obtain ⟨k', hk, heq⟩ := Option.map_eq_some_iff.mp hcall
      cases heq
      exact h.advance (Kernel.advance_advanced hk)
  | dispatch cpu prev =>
      cases hcall
      exact (Kernel.quiet_dispatch k cpu prev).sched h
  | load => cases hcall
  | store next => cases hcall

theorem leave_ordered (h : k.Leaving) (hleave : leave k a = some (k', stage)) : Ordered k' stage := by
  cases a with
  | advance =>
      obtain ⟨k', hk, heq⟩ := Option.map_eq_some_iff.mp hleave
      cases heq
      exact h.advance (Kernel.advance_advanced hk)
  | work m heap =>
      cases hleave
      exact h.work m heap
  | _ => cases hleave

/-- A moment after a load, after a store, or after anything else. -/
theorem step_cases (hstep : p.step a = some p') :
    (a = .load ∧ p'.kernel = p.kernel ∧ p'.stage = p.stage) ∨
    (∃ next, a = .store next ∧ p'.kernel = p.kernel.storeRunning next ∧ p'.stage = .running) ∨
    p.proceed a = some (p'.kernel, p'.stage) := by
  cases a with
  | load =>
      obtain ⟨next, -, rfl⟩ := Option.map_eq_some_iff.mp hstep
      exact .inl ⟨rfl, rfl, rfl⟩
  | store next =>
      rw [step] at hstep
      split at hstep
      · obtain rfl := Option.some.inj hstep
        exact .inr (.inl ⟨next, rfl, rfl, rfl⟩)
      · cases hstep
  | _ =>
      simp only [step] at hstep
      obtain ⟨⟨k, stage⟩, hr, hp⟩ := Option.bind_eq_some_iff.mp hstep
      obtain rfl := Option.some.inj hp
      exact .inr (.inr hr)

/-- Timely steps keep the ring. -/
theorem step_ordered (h : Ordered p.kernel p.stage) (htimely : p.Timely a)
    (hstep : p.step a = some p') : Ordered p'.kernel p'.stage := by
  obtain ⟨k, stage, loaded⟩ := p
  obtain ⟨-, hk, hstage⟩ | ⟨next, rfl, hk, hstage⟩ | hcall := step_cases hstep
  · rw [hk, hstage]
    exact h
  · rw [hk, hstage]
    cases stage with
    | running => exact Kernel.Sched.storeRunning h htimely
    | leaving => exact Kernel.Leaving.storeRunning h htimely
  · cases stage with
    | running => exact call_ordered h hcall
    | leaving => exact leave_ordered h hcall

theorem TimelyReachable.ordered (h : TimelyReachable (boot k) p) : Ordered p.kernel p.stage := by
  induction h with
  | start =>
      simp only [boot, Ordered]
      exact Kernel.interruptsOn_sched k
  | step _ htimely hstep ih => exact step_ordered ih htimely hstep

theorem TimelyReachable.reachable {p₀ : Moment} (h : TimelyReachable p₀ p) : Reachable p₀ p := by
  induction h with
  | start => exact .start
  | step _ _ hstep ih => exact ih.step hstep

/-- What is called while nothing is leaving happens at that moment. -/
theorem step_of_call {loaded : List TaskRef} (h : call k a = some (k', stage)) :
    step ⟨k, .running, loaded⟩ a = some ⟨k', stage, loaded⟩ := by
  cases a with
  | load => cases h
  | store next => cases h
  | _ =>
      simp only [step, proceed, h]
      rfl

theorem TimelyReachable.call {p₀ : Moment} {loaded : List TaskRef}
    (h : TimelyReachable p₀ ⟨k, .running, loaded⟩) (hcall : Moment.call k a = some (k', stage)) :
    TimelyReachable p₀ ⟨k', stage, loaded⟩ := by
  refine h.step (a := a) ?_ (step_of_call hcall)
  cases a with
  | store next => cases hcall
  | _ => trivial

/-- In a run whose stores are timely the listing returns to its start at every moment,
having shown the whole ring, exactly when no exiting context is on the way to its
`yield` and no backtrace of another task of the ring faults. -/
theorem cmdTasks_returns_iff (hreach : TimelyReachable (boot k) p) (image : KernelImage)
    (ksymbols : List KSymbol) :
    ∃ c, Ring p.kernel.next c ∧ (∀ t, t ∈ c ↔ p.kernel.Scheduled t) ∧
      ((∃ lines, p.kernel.CmdTasks image ksymbols lines ∧ (lines.map TaskLine.task).Perm c) ↔
        p.stage = .running ∧ ∀ t ∈ c, t ≠ p.kernel.taskCurrent →
          ¬ (p.kernel.taskTrace image ksymbols t).faulted) := by
  obtain ⟨k', stage, loaded⟩ := p
  have hordered := hreach.ordered
  cases stage with
  | running =>
      obtain ⟨⟨c, hc⟩, -⟩ : k'.Sched := hordered
      refine ⟨c, hc.2.1, hc.2.2, ?_⟩
      rw [hc.cmdTasks_iff]
      exact (and_iff_right rfl).symm
  | leaving =>
      obtain ⟨⟨c, hc⟩, -⟩ : k'.Leaving := hordered
      refine ⟨c, hc.2.1, hc.2.2.1, iff_of_false ?_ fun h ↦ nomatch h.1⟩
      rintro ⟨lines, hlines, -⟩
      exact hc.not_cmdTasks hlines

end Moment

namespace System

variable {s : System} {k k' : Kernel} {p : Moment} {size brk : ℕ} {tr : List (Op × Obs)}

/-- The moments of a `yield` that nothing interrupts. -/
theorem reachable_yield {stage : Stage} {cpu : TaskRegs} (h : Moment.TimelyReachable p ⟨k, stage, []⟩)
    (hy : k.yield cpu = some k') : Moment.TimelyReachable p ⟨k', .running, []⟩ := by
  rw [Kernel.yield_eq] at hy
  obtain ⟨k₁, hadvance, hk⟩ := Option.bind_eq_some_iff.mp hy
  have hcall : Moment.call k .advance = some (k₁, .running) := by
    rw [Moment.call, hadvance]
    rfl
  have h₁ : Moment.TimelyReachable p ⟨k₁, .running, []⟩ := by
    refine h.step (a := .advance) trivial ?_
    cases stage with
    | running => exact Moment.step_of_call hcall
    | leaving => exact Option.bind_eq_some_iff.mpr ⟨_, hcall, rfl⟩
  obtain rfl := Option.some.inj hk
  split
  · exact h₁
  · exact h₁.call (a := .dispatch cpu k.runningTask) rfl

theorem boot_eq (k : Kernel) (size brk : ℕ) : (boot k size brk).kernel =
    ({ k.interruptsOn with heap := (k.interruptsOn.heap.kmalloc size).2 }).processSetBrk brk := by
  simp only [boot, Kernel.boot, Kernel.interruptsOn, Kernel.processInitialize, Kernel.tssSetStack]

theorem boot_reachable (k : Kernel) (size brk : ℕ) :
    Moment.TimelyReachable (Moment.boot k) ⟨(boot k size brk).kernel, .running, []⟩ := by
  rw [boot_eq]
  have hwork : Moment.TimelyReachable (Moment.boot k)
      ⟨{ k.interruptsOn with heap := (k.interruptsOn.heap.kmalloc size).2 }, .running, []⟩ :=
    Moment.TimelyReachable.start.call (a := .work k.interruptsOn.machine
      (k.interruptsOn.heap.kmalloc size).2) rfl
  exact hwork.call (a := .setBrk brk) rfl

/-- Whatever the kernel is between two calls, it is at a moment. -/
theorem Run.reachable (hrun : Run (boot k size brk) tr s) :
    Moment.TimelyReachable (Moment.boot k) ⟨s.kernel, .running, []⟩ := by
  refine hrun.invariant (P := fun s ↦ Moment.TimelyReachable (Moment.boot k) ⟨s.kernel, .running, []⟩)
    (boot_reachable k size brk) fun s op obs s' h hstep ↦ ?_
  cases step_case hstep with
  | forkNoSlot _ hk _ => exact h.call (a := .fork _) (by rw [Moment.call, hk]; rfl)
  | fork _ hk _ => exact h.call (a := .fork _) (by rw [Moment.call, hk]; rfl)
  | execError _ hk => exact h.call (a := .execve _) (by rw [Moment.call, hk]; rfl)
  | exec _ hk => exact h.call (a := .execve _) (by rw [Moment.call, hk]; rfl)
  | halt _ hk => exact h.call (a := .exit _) (by rw [Moment.call, hk]; rfl)
  | exit _ hk hy =>
      exact reachable_yield (h.call (a := .exit _) (by rw [Moment.call, hk]; rfl)) hy
  | waitFault _ _ => exact h
  | wait _ _ => exact h
  | scanNext _ _ hk => exact h.call (a := .waitSlot _ _ _ _) (by rw [Moment.call, hk]; rfl)
  | reap _ _ hk => exact h.call (a := .waitSlot _ _ _ _) (by rw [Moment.call, hk]; rfl)
  | noChild _ _ => exact h
  | block _ _ _ hy => exact reachable_yield h hy
  | tickUser _ hy => exact reachable_yield h hy
  | tickKernel _ hy => exact reachable_yield h hy
  | taskCreate hk => exact h.call (a := .taskCreate _ _) (by rw [Moment.call, hk]; rfl)
  | sbrk _ hk => exact h.call (a := .sbrk _) (by rw [Moment.call, hk]; rfl)
  | openFile _ hk => exact h.call (a := .openFile _) (by rw [Moment.call, hk]; rfl)
  | closeFile _ => exact h.call (a := .closeFile _) rfl
  | readFile _ hk => exact h.call (a := .readFile _ _ _) (by rw [Moment.call, hk]; rfl)
  | store _ _ => exact h.call (a := .work _ s.kernel.heap) rfl

end System

namespace Sample

open EclipseOS.System Machine

/-- The child of process 0 exits, and is interrupted before it yields. -/
theorem pageless_leaving : ∃ k, Moment.TimelyReachable (Moment.boot pageless) ⟨k, .leaving, []⟩ := by
  obtain ⟨s, a, m, S, hturn⟩ := pageless_turn
  obtain ⟨m', hspace⟩ := hturn.space
  obtain ⟨k', hexit⟩ := hturn.sched.processExit_isSome (by rw [hturn.current, hturn.pid]; norm_num)
    hspace 0
  have hcode : (0 : BitVec 32).toInt = 0 := rfl
  exact ⟨k', hturn.run.reachable.call (a := .exit 0) (by rw [Moment.call, hcode, hexit]; rfl)⟩

/-- The listing of that moment does not return. -/
theorem cmdTasks_endless : ¬ ∀ k p image ksymbols, Moment.Reachable (Moment.boot k) p →
    ∃ lines, p.kernel.CmdTasks image ksymbols lines := by
  intro h
  obtain ⟨k, hreach⟩ := pageless_leaving
  obtain ⟨lines, hlines⟩ := h pageless _ image [] hreach.reachable
  have hleaving : k.Leaving := hreach.ordered
  obtain ⟨c, hc⟩ := hleaving.ring
  exact hc.not_cmdTasks hlines

/-- A listing while the child of process 0 is running. -/
theorem cmdTasks_returns_forked : ∃ s c lines,
    Run (System.boot pageless 0 0x401000) (life.take 2) s ∧ .main ∈ c ∧ .proc 1 ∈ c ∧
    Ring s.kernel.next c ∧ s.kernel.CmdTasks image [] lines ∧
    (lines.map TaskLine.task).Perm c := by
  obtain ⟨s, a, m, S, hturn⟩ := pageless_turn
  obtain ⟨c, hring, hmem, hiff⟩ := Moment.cmdTasks_returns_iff hturn.run.reachable image []
  -- the other task of the ring is `main_task`, whose chain of frames is empty
  have hother : ∀ t ∈ c, t ≠ s.kernel.taskCurrent → t = .main := by
    intro t ht hne
    have hscheduled := (hmem t).mp ht
    cases t with
    | main => rfl
    | created n =>
        rw [Kernel.Scheduled, hturn.createdCount] at hscheduled
        exact absurd hscheduled (Nat.not_lt_zero n)
    | proc i =>
        have hi : i ≠ 1 := by
          rintro rfl
          exact hne hturn.cur.symm
        have hrun : (s.kernel.procTable i).state = .run := hscheduled.2
        rw [hturn.free i hscheduled.1 hi] at hrun
        exact absurd hrun (by decide)
  obtain ⟨lines, hlines, hperm⟩ := hiff.mpr ⟨rfl, fun t ht hne ↦ by
    rw [hother t ht hne, Kernel.taskTrace, hturn.parentEbp]
    exact Bool.false_ne_true⟩
  exact ⟨s, c, lines, hturn.run, (hmem _).mpr trivial, (hmem _).mpr ⟨by decide, hturn.state⟩, hring,
    hlines, hperm⟩

end Sample

end EclipseOS
