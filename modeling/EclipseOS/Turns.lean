import EclipseOS.KernelHeap
import EclipseOS.Reaping
import EclipseOS.FirstFork

/-!
# Turns

Which steps hand the processor over, and what a step does to the tasks that do
not run: their links, their saved registers and their modes.
-/

namespace EclipseOS

open IntrusiveList

namespace Kernel

variable {k k' : Kernel} {c : List TaskRef} {t : TaskRef}

/-! ## Links -/

theorem findPrev_next {prev : TaskRef} {fuel : ℕ} {a : TaskRef}
    (h : k.findPrev t fuel a = some (some prev)) : k.next prev = some t := by
  induction fuel generalizing a with
  | zero => simp [findPrev] at h
  | succ fuel ih =>
      simp only [findPrev, task_next] at h
      cases hnext : k.next a with
      | none => simp [hnext] at h
      | some b =>
          simp only [hnext] at h
          split_ifs at h with hb hrun
          · simp only [Option.some.injEq] at h
            rw [← h, hnext, hb]
          · simp at h
          · exact ih h

/-- A task is taken out by linking its predecessor past it. -/
theorem taskRemove_next (h : k.taskRemove t = some k') :
    k'.next = k.next ∨
      ∃ prev, k.next prev = some t ∧ k'.next = Function.update k.next prev (k.next t) := by
  obtain ⟨prev, hprev, h⟩ := Option.bind_eq_some_iff.mp h
  cases prev with
  | none => exact Or.inl (by rw [← Option.some.inj h])
  | some prev =>
      refine Or.inr ⟨prev, findPrev_next hprev, ?_⟩
      rw [← Option.some.inj h, setNext]
      simp

/-- A task of the ring is linked to itself only when it is alone. -/
theorem Sched.next_ne_self (h : k.Sched) (hmain : k.runningTask ≠ .main) :
    k.next k.runningTask ≠ some k.runningTask := by
  obtain ⟨c, hc⟩ := h.ring
  obtain ⟨l, rfl⟩ := hc.exists_cons
  have hmem := (hc.2.2 .main).mpr trivial
  cases l with
  | nil => exact absurd (List.mem_singleton.mp hmem).symm hmain
  | cons b l =>
      obtain ⟨hnodup, hlinks⟩ := ring_cons.mp hc.2.1
      rw [hlinks.1]
      intro heq
      obtain rfl := Option.some.inj heq
      exact (List.nodup_cons.mp hnodup).1 (List.mem_cons_self ..)

/-! ## Processes that go on living -/

/-- The processes that run have run before, on the same stacks. -/
def LiveBefore (k k' : Kernel) : Prop := ∀ p, (k'.procTable p).state = .run →
  (k.procTable p).state = .run ∧ (k'.procTable p).kernelStack = (k.procTable p).kernelStack

/-- The same but for the entry `c`, which has a new page. -/
def LiveBut (c : Fin MAX_PROCS) (k k' : Kernel) : Prop := ∀ p, (k'.procTable p).state = .run →
  p ≠ c ∧ (k.procTable p).state = .run ∧
    (k'.procTable p).kernelStack = (k.procTable p).kernelStack ∨
  p = c ∧ k.heap.heapNext + KSTACK_SIZE ≤ (k'.procTable p).kernelStack ∧
    (k'.procTable p).kernelStack ≤ k'.heap.heapNext

theorem LiveBefore.refl (k : Kernel) : LiveBefore k k := fun _ hp ↦ ⟨hp, rfl⟩

theorem LiveBefore.trans {k'' : Kernel} (h : LiveBefore k k') (h' : LiveBefore k' k'') :
    LiveBefore k k'' := by
  intro p hp
  obtain ⟨hp', hstack⟩ := h' p hp
  exact ⟨(h p hp').1, hstack.trans (h p hp').2⟩

theorem Quiet.liveBefore (h : Quiet k k') : LiveBefore k k' := fun p hp ↦
  ⟨(h.state p).symm.trans hp, h.kernelStack p⟩

theorem Yielded.liveBefore (h : Yielded k k') : LiveBefore k k' := by
  intro p hp
  rw [h.procTable] at hp ⊢
  exact ⟨hp, rfl⟩

/-! ## An exit up to its yield -/

/-- What `process_exit` leaves in place before it yields. -/
structure Left (k k' : Kernel) : Prop where
  pid : (k.procTable k.processCurrent).pid ≠ 0
  running : k'.runningTask = k.runningTask
  current : k.runningTask = .proc k.processCurrent
  esp0 : k'.tssEsp0 = k.tssEsp0
  createdCount : k'.createdCount = k.createdCount
  links : k'.next = k.next ∨ ∃ prev, k.next prev = some k.runningTask ∧
    k'.next = Function.update k.next prev (k.next k.runningTask)
  regs : ∀ r, r ≠ k.runningTask → (k'.task r).regs = (k.task r).regs
  gone : ¬ k'.Scheduled k.runningTask
  live : LiveBefore k k'

theorem withExited_task (p : Fin MAX_PROCS) (code : ℤ) (m : Machine) (r : TaskRef) :
    (k.withExited p code m).next r = k.next r ∧ (r ≠ .proc p →
      ((k.withExited p code m).task r).regs = (k.task r).regs) := by
  cases r with
  | main => exact ⟨rfl, fun _ ↦ rfl⟩
  | created n => exact ⟨rfl, fun _ ↦ rfl⟩
  | proc i =>
      by_cases hi : i = p
      · subst hi
        refine ⟨?_, fun h ↦ absurd rfl h⟩
        simp only [next, task, withExited, if_true, exitedEntry, orphaned_task]
      · simp only [next, task, withExited, if_neg hi, orphaned_task, implies_true, and_self]

theorem processExit_left (h : k.Sched) {code : ℤ}
    (hexit : k.processExit code = some (.leaving, k')) : Left k k' := by
  obtain ⟨-, ho, -⟩ | ⟨hpid, -, m, -, hremove⟩ := processExit_cases h.zeroPid hexit
  · cases ho
  have hp0 : k.processCurrent ≠ 0 := fun h0 ↦ hpid (h0 ▸ h.zeroPid)
  have hrun := (processCurrent_ne_zero hp0).1
  have hnext : (k.withExited k.processCurrent code m).next = k.next :=
    funext fun r ↦ (withExited_task _ _ _ r).1
  have hregs : ∀ r, r ≠ k.runningTask →
      ((k.withExited k.processCurrent code m).task r).regs = (k.task r).regs :=
    fun r hr ↦ (withExited_task _ _ _ r).2 (hrun ▸ hr)
  have hlive : LiveBefore k (k.withExited k.processCurrent code m) := by
    intro p hp
    by_cases hpc : p = k.processCurrent
    · simp [withExited, exitedEntry, hpc] at hp
    · simp only [withExited, if_neg hpc, orphaned_state] at hp
      exact ⟨hp, by simp [withExited, hpc]⟩
  have hgone : ∀ r : Kernel, (r.procTable k.processCurrent).state =
      ((k.withExited k.processCurrent code m).procTable k.processCurrent).state →
      ¬ r.Scheduled k.runningTask := by
    intro r hr hsched
    rw [hrun] at hsched
    simp [withExited, exitedEntry, hsched.2] at hr
  have hlinks := taskRemove_next hremove
  rw [hnext, ← hrun] at hlinks
  obtain rfl | ⟨prev, n, rfl⟩ := taskRemove_cases hremove
  · exact {
      pid := hpid
      running := rfl
      current := hrun
      esp0 := rfl
      createdCount := rfl
      links := hlinks
      regs := hregs
      gone := hgone _ rfl
      live := hlive }
  · exact {
      pid := hpid
      running := by rw [setNext, setTask_runningTask]; rfl
      current := hrun
      esp0 := by rw [setNext, setTask_tssEsp0]; rfl
      createdCount := by rw [setNext, setTask_createdCount]; rfl
      links := hlinks
      regs := fun r hr ↦ by
        rw [← hregs r hr, setNext, task_setTask]
        split
        · next heq => rw [heq]
        · rfl
      gone := hgone _ (by rw [setNext, setTask_state])
      live := fun p hp ↦ by
        rw [setNext, setTask_state] at hp
        rw [setNext, setTask_kernelStack]
        exact hlive p hp }

/-- The own link of the exiting task stays, so that it can yield. -/
theorem Left.next_running (h : Left k k') (hs : k.Sched) :
    k'.next k.runningTask = k.next k.runningTask := by
  obtain heq | ⟨prev, hprev, heq⟩ := h.links
  · rw [heq]
  · have hne : k.runningTask ≠ prev := by
      intro hprev'
      rw [← hprev'] at hprev
      exact hs.next_ne_self (by rw [h.current]; exact TaskRef.noConfusion) hprev
    rw [heq, Function.update_of_ne hne]

/-! ## The context that comes out of a yield -/

/-- What the processor goes on with after `yield`. -/
def yieldContext (k : Kernel) (cpu : TaskRegs) : Option TaskRegs := do
  let prev := k.runningTask
  let next ← (k.task prev).next
  let k := { k with runningTask := next }
  if prev = next then return cpu
  let k := (k.processOfTask next).elim k fun np ↦ k.tssSetStack (k.procTable np).kernelStack
  return (k.switchTask cpu prev next).2

/-- Between two tasks, `yield` saves one context and loads the other. -/
theorem yield_context {cpu : TaskRegs} (h : k.yield cpu = some k')
    (hne : k'.runningTask ≠ k.runningTask) :
    k.yieldContext cpu = some (k.task k'.runningTask).regs ∧
      (k'.task k.runningTask).regs = saveContext cpu k.machine.cr3 (k.task k.runningTask).regs ∧
      k'.machine = loadSpace k.machine (k.task k'.runningTask).regs.cr3 := by
  simp only [yield, Option.bind_eq_bind, Option.bind_eq_some_iff] at h
  obtain ⟨t, ht, h⟩ := h
  by_cases heq : k.runningTask = t
  · simp [heq] at h
    rw [← h] at hne
    exact absurd heq.symm hne
  · simp only [if_neg heq, Option.pure_def, Option.some.injEq] at h
    simp only [yieldContext, ht, Option.bind_eq_bind, Option.bind_some, if_neg heq, Option.pure_def,
      Option.some.injEq]
    set k₁ : Kernel := { k with runningTask := t } with hk₁
    have hframe : ∀ np, (k₁.processOfTask t).elim k₁ (fun np ↦
        k₁.tssSetStack (k₁.procTable np).kernelStack) = np → np.machine = k.machine ∧
        np.runningTask = t ∧ ∀ r, np.task r = k.task r := by
      rintro _ rfl
      cases k₁.processOfTask t with
      | none => exact ⟨rfl, rfl, fun r ↦ by cases r <;> rfl⟩
      | some np => exact ⟨rfl, rfl, fun r ↦ by cases r <;> rfl⟩
    obtain ⟨hmachine, hrun, htask⟩ := hframe _ rfl
    set k₂ := (k₁.processOfTask t).elim k₁ (fun np ↦
      k₁.tssSetStack (k₁.procTable np).kernelStack) with hk₂
    have hrun' : k'.runningTask = t := by
      rw [← h]
      simp [switchTask, modifyRegs, hrun]
    rw [hrun', ← h]
    simp only [switchTask, modifyRegs, setTask_machine, withMachine_task, hmachine]
    refine ⟨?_, ?_, ?_⟩
    · rw [task_setTask_of_ne _ _ _ _ (Ne.symm heq), htask]
    · rw [task_setTask, if_pos rfl, htask]
    · rw [task_setTask_of_ne _ _ _ _ (Ne.symm heq), ← htask]
      rfl

/-- The other tasks keep their contexts. -/
theorem yield_regs {cpu : TaskRegs} (h : k.yield cpu = some k') {r : TaskRef}
    (hr : r ≠ k.runningTask) : (k'.task r).regs = (k.task r).regs := by
  obtain ⟨t, -, ⟨-, rfl⟩ | ⟨-, regs, cr3, rfl⟩⟩ := yield_cases h
  · rfl
  · rw [withMachine_task, task_setTask_of_ne _ _ _ _ hr]
    cases r <;> rfl

/-! ## Calls that return to the same task -/

/-- The ring stays as it is, and so do the registers saved in it. -/
structure Keeps (k k' : Kernel) : Prop where
  running : k'.runningTask = k.runningTask
  createdCount : k'.createdCount = k.createdCount
  next : ∀ r, k.Scheduled r → k'.next r = k.next r
  regs : ∀ r, k.Scheduled r → r ≠ k.runningTask → (k'.task r).regs = (k.task r).regs
  live : LiveBefore k k'

/-- The task `t` has been spliced in after the running one. -/
structure Splices (t : TaskRef) (k k' : Kernel) : Prop where
  running : k'.runningTask = k.runningTask
  esp0 : k'.tssEsp0 = k.tssEsp0
  fresh : ¬ k.Scheduled t
  first : k'.next k.runningTask = some t
  second : k'.next t = k.next k.runningTask
  next : ∀ r, k.Scheduled r → r ≠ k.runningTask → k'.next r = k.next r
  regs : ∀ r, k.Scheduled r → (k'.task r).regs = (k.task r).regs
  joined : (∃ c, t = .proc c ∧ k.freeSlot = some c ∧ k'.createdCount = k.createdCount ∧
      k.heap.heapNext + KSTACK_SIZE ≤ k'.heap.heapNext ∧ LiveBut c k k') ∨
    (t = .created k.createdCount ∧ k'.createdCount = k.createdCount + 1 ∧ LiveBefore k k')

theorem Keeps.refl (k : Kernel) : Keeps k k where
  running := rfl
  createdCount := rfl
  next _ _ := rfl
  regs _ _ _ := rfl
  live := LiveBefore.refl k

/-- An entry that is free and stays free. -/
theorem keeps_free {i : Fin MAX_PROCS} (hfree : (k.procTable i).state = .free)
    (hfree' : (k'.procTable i).state = .free) (hrun : k'.runningTask = k.runningTask)
    (hcount : k'.createdCount = k.createdCount) (hmain : k'.mainTask = k.mainTask)
    (hcreated : k'.createdTasks = k.createdTasks)
    (hproc : ∀ j, j ≠ i → k'.procTable j = k.procTable j) : Keeps k k' := by
  have htask : ∀ r, k.Scheduled r → k'.task r = k.task r := by
    intro r hr
    cases r with
    | main => exact hmain
    | created n => exact congrFun hcreated n
    | proc j =>
        have hj : j ≠ i := by
          rintro rfl
          cases hfree.symm.trans hr.2
        simp only [task, hproc j hj]
  exact {
    running := hrun
    createdCount := hcount
    next := fun r hr ↦ congrArg Task.next (htask r hr)
    regs := fun r hr _ ↦ congrArg Task.regs (htask r hr)
    live := fun p hp ↦ by
      have hp' : p ≠ i := by
        rintro rfl
        cases hfree'.symm.trans hp
      rw [hproc p hp'] at hp ⊢
      exact ⟨hp, rfl⟩ }

theorem taskAdd_regs (k : Kernel) (t r : TaskRef) :
    ((k.taskAdd t).task r).regs = (k.task r).regs := by
  simp only [taskAdd, setNext, task_setTask]
  split
  · next heq =>
      rw [heq]
      split
      · next heq' => rw [heq']
      · rfl
  · split
    · next heq => rw [heq]
    · rfl

/-- Splicing in a task that was not scheduled, into a kernel that has changed outside
the ring. -/
theorem taskAdd_splices {k₁ : Kernel} {t : TaskRef} (hs : k.Sched) (ht : ¬ k.Scheduled t)
    (hrun : k₁.runningTask = k.runningTask) (htask : ∀ r, r ≠ t → k₁.task r = k.task r)
    (hesp0 : k₁.tssEsp0 = k.tssEsp0)
    (hjoined : (∃ c, t = .proc c ∧ k.freeSlot = some c ∧
        (k₁.taskAdd t).createdCount = k.createdCount ∧
        k.heap.heapNext + KSTACK_SIZE ≤ (k₁.taskAdd t).heap.heapNext ∧
        LiveBut c k (k₁.taskAdd t)) ∨
      (t = .created k.createdCount ∧ (k₁.taskAdd t).createdCount = k.createdCount + 1 ∧
        LiveBefore k (k₁.taskAdd t))) : Splices t k (k₁.taskAdd t) := by
  obtain ⟨c, hc⟩ := hs.ring
  have hrt : k.runningTask ≠ t := by
    intro heq
    exact ht (heq ▸ hc.scheduled_running)
  have hnext : ∀ r, r ≠ t → k₁.next r = k.next r := fun r hr ↦ congrArg Task.next (htask r hr)
  exact {
    running := by simp [taskAdd, hrun]
    esp0 := by simp [taskAdd, hesp0]
    fresh := ht
    first := by rw [taskAdd_next, hrun, Function.update_self]
    second := by
      rw [taskAdd_next, hrun, Function.update_of_ne hrt.symm, Function.update_self, hnext _ hrt]
    next := fun r hr hne ↦ by
      have hrt' : r ≠ t := by
        rintro rfl
        exact ht hr
      rw [taskAdd_next, hrun, Function.update_of_ne hne, Function.update_of_ne hrt', hnext r hrt']
    regs := fun r hr ↦ by
      have hrt' : r ≠ t := by
        rintro rfl
        exact ht hr
      rw [taskAdd_regs, htask r hrt']
    joined := hjoined }

theorem processFork_turn (hs : k.Sched) (hr : k.heap.Ready) {regs : Registers} {r : ℤ}
    (h : k.processFork regs = some (r, k')) : Keeps k k' ∨ ∃ t, Splices t k k' := by
  obtain ⟨-, -, rfl⟩ | ⟨c, stack, heap, hslot, hheap, ⟨-, -, rfl⟩ |
    ⟨-, -, o, m, dir, -, -, rfl⟩ | ⟨hstack, -, dir, m, m', -, -, rfl⟩⟩ := processFork_cases h
  · exact Or.inl (.refl _)
  · refine Or.inl (keeps_free (freeSlot_spec hslot).2 ?_ rfl rfl rfl rfl fun j hj ↦ ?_)
    · rw [modifyProc_self]
      rfl
    · rw [modifyProc_of_ne _ _ _ _ hj]
  · refine Or.inl (keeps_free (freeSlot_spec hslot).2 ?_ rfl rfl rfl rfl fun j hj ↦ ?_)
    · rw [modifyProc_self]
      rfl
    · rw [modifyProc_of_ne _ _ _ _ hj]
      simp [withFresh, hj]
  · right
    obtain ⟨-, hfree⟩ := freeSlot_spec hslot
    have hnot : ¬ k.Scheduled (.proc c) := by
      rintro ⟨-, hrun⟩
      cases hfree.symm.trans hrun
    refine ⟨.proc c, taskAdd_splices hs hnot rfl (fun r hr ↦ ?_) rfl (Or.inl ⟨c, rfl, hslot,
      withChild_createdCount .., ?_, fun p hp ↦ ?_⟩)⟩
    · cases r with
      | main => rfl
      | created n => rfl
      | proc j =>
          have hj : j ≠ c := fun heq ↦ hr (congrArg _ heq)
          simp [task, withFresh, hj]
    · obtain ⟨-, hcase⟩ | ⟨-, hcase⟩ := Kheap.kmallocAligned_cases hr <;>
        obtain ⟨rfl, rfl⟩ := Prod.mk.inj (hheap.symm.trans hcase)
      · exact absurd rfl hstack
      · change _ ≤ (k.withChild k.processCurrent c dir _ _ m').heap.heapNext
        rw [withChild_heap]
        simp only [KSTACK_SIZE]
        omega
    · set k' := k.withChild k.processCurrent c dir stack heap m' with hk'
      change (k'.procTable p).state = .run at hp
      change p ≠ c ∧ _ ∧ (k'.procTable p).kernelStack = _ ∨
        p = c ∧ _ ≤ (k'.procTable p).kernelStack ∧ (k'.procTable p).kernelStack ≤ k'.heap.heapNext
      rw [hk', withChild_procTable] at hp ⊢
      by_cases hpc : p = c
      · right
        rw [if_pos hpc] at hp ⊢
        have hstop := hr.stop
        rw [KERNEL_HEAP_BASE, KERNEL_HEAP_SIZE] at hstop
        obtain ⟨-, hcase⟩ | ⟨hfits, hcase⟩ := Kheap.kmallocAligned_cases hr <;>
          obtain ⟨rfl, rfl⟩ := Prod.mk.inj (hheap.symm.trans hcase)
        · exact absurd rfl hstack
        · rw [hstop, KSTACK_SIZE] at hfits
          simp [childEntry, forkedEntry, freshEntry, KSTACK_SIZE, hpc]
          omega
      · rw [if_neg hpc] at hp ⊢
        exact Or.inl ⟨hpc, hp, rfl⟩

theorem taskCreate_turn (hs : k.Sched) {main flags : ℕ} (h : k.taskCreate main flags = some k') :
    Splices (.created k.createdCount) k k' := by
  obtain ⟨heap, m, regs, -, -, rfl⟩ := taskCreate_cases h
  have hnot : ¬ k.Scheduled (.created k.createdCount) := fun hsched ↦ lt_irrefl _ hsched
  refine taskAdd_splices hs hnot (by simp) (fun r hr ↦ ?_) (by simp)
    (Or.inr ⟨rfl, by simp [taskAdd], fun p hp ↦ ?_⟩)
  · rw [task_setTask_of_ne _ _ _ _ hr]
    cases r <;> rfl
  · rw [taskAdd_taskless, setTask_procTable] at hp ⊢
    exact ⟨hp, rfl⟩

/-- Calls that leave the tree and the ring alone. -/
theorem Quiet.keeps (hq : Quiet k k')
    (hregs : ∀ r, k.Scheduled r → r ≠ k.runningTask → (k'.task r).regs = (k.task r).regs) :
    Keeps k k' where
  running := hq.running
  createdCount := hq.created
  next r _ := congrFun hq.next r
  regs := hregs
  live := hq.liveBefore

/-- The entry of the current process is in the ring only under the running task. -/
theorem Scheduled.ne_current {r : TaskRef} (hr : k.Scheduled r) (hne : r ≠ k.runningTask) :
    r ≠ .proc k.processCurrent := by
  rintro rfl
  exact hne (processCurrent_ne_zero hr.1).1.symm

theorem task_modifyProc (k : Kernel) (i : Fin MAX_PROCS) {f : Process → Process}
    (hf : ∀ q, (f q).task = q.task) (r : TaskRef) : (k.modifyProc i f).task r = k.task r := by
  cases r with
  | main => rfl
  | created n => rfl
  | proc j => by_cases hj : j = i <;> simp [task, hj, hf]

theorem sysExecve_keeps {path : ℕ} {o : ExecOutcome}
    (h : k.sysExecve path = some (o, k')) : Keeps k k' := by
  have hq := sysExecve_quiet h
  obtain ⟨-, rfl⟩ | ⟨name, h⟩ := sysExecve_cases h
  · exact .refl _
  · obtain ⟨-, -, rfl⟩ | ⟨prog, -, ⟨-, -, rfl⟩ | ⟨-, space, m, -, hcase⟩⟩ := processExecve_cases h
    · exact .refl _
    · exact .refl _
    · cases space with
      | failed e =>
          obtain ⟨-, rfl⟩ := hcase
          refine hq.keeps fun r _ _ ↦ ?_
          cases r <;> rfl
      | entered dir entry brk =>
          obtain ⟨-, -, rfl⟩ := hcase
          refine hq.keeps fun r hr hne ↦ ?_
          have hproc := hr.ne_current hne
          refine congrArg Task.regs ?_
          rw [withExec, tssSetStack_task, task_modifyProc, modifyRegs, task_setTask_of_ne,
            modifyRegs, task_setTask_of_ne, task_modifyProc]
          · cases r <;> rfl
          · exact fun _ ↦ rfl
          · exact hne
          · exact hproc
          · exact fun _ ↦ rfl

theorem sysSbrk_keeps {increment : BitVec 32} {r : ℤ} (h : k.sysSbrk increment = some (r, k')) :
    Keeps k k' := by
  have hq := sysSbrk_quiet h
  obtain ⟨m, b, rfl⟩ := sysSbrk_cases h
  refine hq.keeps fun r _ _ ↦ ?_
  rw [task_modifyProc, withMachine_task]
  exact fun _ ↦ rfl

theorem sysOpen_keeps {path : ℕ} {r : ℤ} (h : k.sysOpen path = some (r, k')) : Keeps k k' := by
  have hq := sysOpen_quiet h
  obtain ⟨-, rfl⟩ | ⟨node, fd, file, -, -, -, -, rfl⟩ := sysOpen_cases h
  · exact .refl _
  · refine hq.keeps fun r _ _ ↦ ?_
    rw [task_modifyProc, modifyFile_task]
    exact fun _ ↦ rfl

theorem sysClose_keeps (k : Kernel) (fd : ℕ) : Keeps k (k.sysClose fd).2 := by
  have hq := sysClose_quiet k fd
  obtain ⟨-, heq⟩ | ⟨i, file, -, -, heq⟩ := sysClose_cases k fd
  · rw [heq]
    exact .refl k
  · rw [heq] at hq ⊢
    refine hq.keeps fun r _ _ ↦ ?_
    rw [modifyFile_task, task_modifyProc]
    exact fun _ ↦ rfl

theorem sysRead_keeps {fd buf len : ℕ} {r : ℤ} (h : k.sysRead fd buf len = some (r, k')) :
    Keeps k k' := by
  have hq := sysRead_quiet h
  obtain rfl | ⟨file, got, m, -, rfl⟩ := sysRead_cases h
  · exact .refl _
  · refine hq.keeps fun r _ _ ↦ ?_
    rw [modifyFile_task, withMachine_task]

/-- `process_execve` sets the stack of the caller, or nothing. -/
theorem sysExecve_tss {path : ℕ} {o : ExecOutcome} (h : k.sysExecve path = some (o, k')) :
    k'.tssEsp0 = k.tssEsp0 ∨ k'.tssEsp0 = (k.procTable k.processCurrent).kernelStack := by
  obtain ⟨-, rfl⟩ | ⟨name, h⟩ := sysExecve_cases h
  · exact Or.inl rfl
  · obtain ⟨-, -, rfl⟩ | ⟨prog, -, ⟨-, -, rfl⟩ | ⟨-, space, m, -, hcase⟩⟩ := processExecve_cases h
    · exact Or.inl rfl
    · exact Or.inl rfl
    · cases space with
      | failed e =>
          obtain ⟨-, rfl⟩ := hcase
          exact Or.inl rfl
      | entered dir entry brk =>
          obtain ⟨-, -, rfl⟩ := hcase
          right
          simp [withExec]

theorem processFork_tss {regs : Registers} {r : ℤ} (h : k.processFork regs = some (r, k')) :
    k'.tssEsp0 = k.tssEsp0 := by
  obtain ⟨-, -, rfl⟩ | ⟨c, stack, heap, -, -, ⟨-, -, rfl⟩ | ⟨-, -, o, m, dir, -, -, rfl⟩ |
    ⟨-, -, dir, m, m', -, -, rfl⟩⟩ := processFork_cases h
  · rfl
  · rfl
  · rfl
  · exact withChild_tssEsp0 ..

/-- Process 0 that exits halts on a stack of its own. -/
theorem halted_keeps (k : Kernel) : Keeps k (k.tssSetStack k.haltStackTop) :=
  (quiet_tssSetStack k _).keeps fun r _ _ ↦ by rw [tssSetStack_task]

theorem sysSbrk_tss {increment : BitVec 32} {r : ℤ} (h : k.sysSbrk increment = some (r, k')) :
    k'.tssEsp0 = k.tssEsp0 := by
  obtain ⟨m, b, rfl⟩ := sysSbrk_cases h
  rfl

theorem sysOpen_tss {path : ℕ} {r : ℤ} (h : k.sysOpen path = some (r, k')) :
    k'.tssEsp0 = k.tssEsp0 := by
  obtain ⟨-, rfl⟩ | ⟨node, fd, file, -, -, -, -, rfl⟩ := sysOpen_cases h
  · rfl
  · rfl

theorem sysClose_tss (k : Kernel) (fd : ℕ) : (k.sysClose fd).2.tssEsp0 = k.tssEsp0 := by
  obtain ⟨-, heq⟩ | ⟨i, file, -, -, heq⟩ := sysClose_cases k fd
  · rw [heq]
  · rw [heq]
    rfl

theorem sysRead_tss {fd buf len : ℕ} {r : ℤ} (h : k.sysRead fd buf len = some (r, k')) :
    k'.tssEsp0 = k.tssEsp0 := by
  obtain rfl | ⟨file, got, m, -, rfl⟩ := sysRead_cases h
  · rfl
  · rfl

theorem waitSlot_tss {self i : Fin MAX_PROCS} {status n : ℕ} {w : WaitStep}
    (h : k.waitSlot self status n i = some (w, k')) : k'.tssEsp0 = k.tssEsp0 := by
  obtain ⟨-, rfl, -⟩ | ⟨-, -, ⟨-, rfl, -⟩ | ⟨-, -, m, -, rfl⟩⟩ := waitSlot_cases h
  · rfl
  · rfl
  · rfl

/-- Reaping frees an entry that was not running. -/
theorem waitSlot_keeps {self i : Fin MAX_PROCS} {status n : ℕ} {w : WaitStep}
    (h : k.waitSlot self status n i = some (w, k')) : Keeps k k' := by
  obtain ⟨-, rfl, -⟩ | ⟨-, -, ⟨-, rfl, -⟩ | ⟨hzombie, -, m, -, rfl⟩⟩ := waitSlot_cases h
  · exact .refl _
  · exact .refl _
  · have htask : ∀ r, ((k.withMachine m).modifyProc i fun c ↦
        { c with state := .free, kernelStack := 0 }).task r = k.task r := by
      intro r
      rw [task_modifyProc, withMachine_task]
      exact fun _ ↦ rfl
    exact {
      running := rfl
      createdCount := rfl
      next := fun r _ ↦ congrArg Task.next (htask r)
      regs := fun r _ _ ↦ congrArg Task.regs (htask r)
      live := fun p hp ↦ by
        by_cases hpi : p = i
        · simp [hpi] at hp
        · rw [modifyProc_of_ne _ _ _ _ hpi] at hp ⊢
          exact ⟨hp, rfl⟩ }

end Kernel

/-- The processor registers at the `yield` of a step. -/
def Op.cpu : Op → TaskRegs
  | .tick cpu => cpu
  | .exit _ cpu => cpu
  | .scan cpu => cpu
  | _ => .zero

namespace System

variable {s s' : System} {op : Op} {obs : Obs}

/-! ## What a step can do -/

/-- The step comes to a `yield`. -/
def yields (s : System) : Op → Bool
  | .tick _ => true
  | .exit _ _ => s.pid ≠ 0
  | .scan _ => match s.mode s.cur with
      | .waiting _ _ i n _ => MAX_PROCS ≤ i ∧ n ≠ 0
      | _ => false
  | _ => false

/-- What the processor goes on with after the `yield` of a step. -/
def context (s : System) : Op → Option TaskRegs
  | .tick cpu => s.kernel.yieldContext cpu
  | .scan cpu => s.kernel.yieldContext cpu
  | .exit code cpu => do
      match ← s.kernel.processExit code.toInt with
      | (.leaving, k) => k.yieldContext cpu
      | (.halted, _) => none
  | _ => none

/-- The running task goes on, with or without a new task behind it, or the next one
takes its turn. -/
inductive TurnStep (s : System) (op : Op) (s' : System) : Prop
  | keeps (hyields : s.yields op = false) (hk : s.kernel.Keeps s'.kernel)
      (hesp0 : s'.kernel.tssEsp0 = s.kernel.tssEsp0 ∨ s.mode s.cur = .user ∧
        (s'.kernel.tssEsp0 = (s.kernel.procTable s.kernel.processCurrent).kernelStack ∨
          s.pid = 0 ∧ s'.mode s.cur = .halted))
  | splices {t : TaskRef} (hyields : s.yields op = false) (hk : s.kernel.Splices t s'.kernel)
      (hfork : (∃ c, t = .proc c) → ∃ regs, op = .fork regs)
  | turns {k : Kernel} (hyields : s.yields op = true) (hk : k = s.kernel ∨ s.kernel.Left k)
      (hcontext : s.context op = k.yieldContext op.cpu) (hy : k.yield op.cpu = some s'.kernel)

theorem step_turn (hs : s.kernel.Sched) (hr : s.kernel.heap.Ready)
    (hstep : s.step op = some (s', obs)) : TurnStep s op s' := by
  have hfork : ∀ {regs r k}, s.kernel.processFork regs = some (r, k) → s'.kernel = k →
      op = .fork regs → TurnStep s op s' := by
    intro regs r k hk heq hop
    have hyields : s.yields op = false := by
      rw [hop]
      rfl
    obtain hkeep | ⟨t, hsplice⟩ := Kernel.processFork_turn hs hr hk
    · exact .keeps hyields (heq ▸ hkeep) (Or.inl (heq ▸ Kernel.processFork_tss hk))
    · exact .splices hyields (heq ▸ hsplice) fun _ ↦ ⟨regs, hop⟩
  cases step_case hstep with
  | forkNoSlot _ hk _ => exact hfork hk rfl rfl
  | fork _ hk _ => exact hfork hk rfl rfl
  | execError hmode hk =>
      exact .keeps rfl (Kernel.sysExecve_keeps hk)
        ((Kernel.sysExecve_tss hk).imp_right fun htss ↦ ⟨hmode, Or.inl htss⟩)
  | exec hmode hk =>
      exact .keeps rfl (Kernel.sysExecve_keeps hk)
        ((Kernel.sysExecve_tss hk).imp_right fun htss ↦ ⟨hmode, Or.inl htss⟩)
  | halt hmode hk =>
      obtain ⟨hpid, -, rfl⟩ | ⟨-, ho, -⟩ := Kernel.processExit_cases hs.zeroPid hk
      · exact .keeps (by simp [yields, pid, hpid]) (Kernel.halted_keeps _)
          (Or.inr ⟨hmode, Or.inr ⟨hpid, Function.update_self ..⟩⟩)
      · cases ho
  | exit _ hk hy =>
      have hleft := Kernel.processExit_left hs hk
      exact .turns (by simp [yields, pid, hleft.pid]) (Or.inr hleft)
        (by simp [context, hk, Op.cpu]) hy
  | waitFault _ _ => exact .keeps rfl (.refl _) (Or.inl rfl)
  | wait _ _ => exact .keeps rfl (.refl _) (Or.inl rfl)
  | scanNext hmode hi hk =>
      have hkeep := Kernel.waitSlot_keeps hk
      have htss := Kernel.waitSlot_tss hk
      exact .keeps (by simp [yields, hmode, hi]) hkeep (Or.inl htss)
  | reap hmode hi hk =>
      have hkeep := Kernel.waitSlot_keeps hk
      have htss := Kernel.waitSlot_tss hk
      exact .keeps (by simp [yields, hmode, hi]) hkeep (Or.inl htss)
  | noChild hmode _ => exact .keeps (by simp [yields, hmode]) (.refl _) (Or.inl rfl)
  | block hmode hi hn hy =>
      exact .turns (by simp [yields, hmode, hn, not_lt.mp hi]) (Or.inl rfl) rfl hy
  | tickUser _ hy => exact .turns rfl (Or.inl rfl) rfl hy
  | tickKernel _ hy => exact .turns rfl (Or.inl rfl) rfl hy
  | taskCreate hk =>
      refine .splices rfl (Kernel.taskCreate_turn hs hk) ?_
      rintro ⟨c, hc⟩
      cases hc
  | sbrk _ hk => exact .keeps rfl (Kernel.sysSbrk_keeps hk) (Or.inl (Kernel.sysSbrk_tss hk))
  | openFile _ hk => exact .keeps rfl (Kernel.sysOpen_keeps hk) (Or.inl (Kernel.sysOpen_tss hk))
  | closeFile _ =>
      exact .keeps rfl (Kernel.sysClose_keeps _ _) (Or.inl (Kernel.sysClose_tss _ _))
  | readFile _ hk => exact .keeps rfl (Kernel.sysRead_keeps hk) (Or.inl (Kernel.sysRead_tss hk))
  | store _ hk =>
      exact .keeps rfl ((Kernel.quiet_withMachine _ _).keeps fun r _ _ ↦ by
        rw [Kernel.withMachine_task]) (Or.inl rfl)

/-! ## Runs -/

/-- The heap is too small for the counter of pids to wrap. -/
theorem Run.settled {k : Kernel} {size brk : ℕ} {tr : List (Op × Obs)}
    (hheap : (boot k size brk).kernel.heap.Ready) (hrun : Run (boot k size brk) tr s) :
    s.kernel.heap.Ready ∧ Orderly s tr := by
  obtain ⟨-, hr, hleft⟩ := hrun.heap (boot_sched k size brk) hheap
  refine ⟨hr, hrun.orderly ?_⟩
  have hstop := hheap.stop
  have hstart := hheap.start
  simp only [Kheap.left, KSTACK_SIZE, KERNEL_HEAP_SIZE] at hleft hstop
  omega

/-- The timer hands the processor from a process in user mode to the next task. -/
theorem tick_user (hs : s.kernel.Sched) (hmode : s.mode s.cur = .user) {t : TaskRef}
    (hnext : s.kernel.next s.cur = some t) (cpu : TaskRegs) :
    ∃ s', s.step (.tick cpu) = some (s', .quiet) ∧ s'.cur = t ∧ s'.mode = s.mode ∧
      s.kernel.yield cpu = some s'.kernel := by
  obtain ⟨c, hc⟩ := hs.ring
  obtain ⟨k, hy⟩ := hc.yield_isSome cpu
  refine ⟨s.trap.withKernel k, by simp [step, hy, hmode], ?_, rfl, hy⟩
  have hrunning : s.kernel.next s.cur = some k.runningTask := (Kernel.yield_spec hy).running
  exact Option.some.inj (hrunning.symm.trans hnext)

end System

namespace Sample

open EclipseOS.System

/-- Process 0 forks. -/
theorem pageless_forked : ∃ a m S s,
    (System.boot pageless 0 0x401000).step (.fork registers) = some (s, .forked 0 1) ∧
    s.kernel = (System.boot pageless 0 0x401000).kernel.withChild 0 1 (a * PAGE_SIZE) 0xC0001000
      ((System.boot pageless 0 0x401000).kernel.heap.kmallocAligned KSTACK_SIZE).2 m ∧
    a ≠ 0 ∧ a ≠ 1 ∧ m.cr3 = 4096 ∧ m.Ledger 1 {a, 1} S ∧ s.mode .main = .user ∧
    s.mode (.proc 1) = .user := by
  set s₀ := System.boot pageless 0 0x401000 with hs₀
  have hrun₀ : s₀.kernel.runningTask = .main := rfl
  have hslot : s₀.kernel.freeSlot = some 1 := by
    rw [hs₀]
    decide
  obtain ⟨a, m, S, hfork, ha0, ha1, hcr3, hled⟩ := userless_fork (k := s₀.kernel)
    (by rw [hs₀, System.boot, boot_kernel]; rfl) (Kernel.processCurrent_main hrun₀) hslot
    (by rw [hs₀]; decide +kernel)
  have huser : s₀.mode s₀.cur = .user := rfl
  have hstep : s₀.step (.fork registers) = some ((s₀.trap.withKernel (s₀.kernel.withChild 0 1
      (a * PAGE_SIZE) 0xC0001000 (s₀.kernel.heap.kmallocAligned KSTACK_SIZE).2 m)).adoptChild
        s₀.kernel.processCurrent 1, .forked s₀.pid s₀.kernel.nextPid) := by
    simp only [step, huser, if_true, stepFork, hfork, hslot]
    rfl
  have hpids : s₀.pid = 0 ∧ s₀.kernel.nextPid = 1 := by
    rw [System.pid, Kernel.processCurrent_main hrun₀]
    exact ⟨rfl, rfl⟩
  rw [hpids.1, hpids.2] at hstep
  exact ⟨a, m, S, _, hstep, rfl, ha0, ha1, hcr3, hled, rfl, by simp [adoptChild]⟩

/-- After the fork the tasks are `main_task` and the child. -/
theorem pageless_links {a : ℕ} {m : Machine} {s : System}
    (hk : s.kernel = (System.boot pageless 0 0x401000).kernel.withChild 0 1 (a * PAGE_SIZE) 0xC0001000
      ((System.boot pageless 0 0x401000).kernel.heap.kmallocAligned KSTACK_SIZE).2 m) :
    s.cur = .main ∧ s.kernel.next .main = some (.proc 1) ∧ s.kernel.next (.proc 1) = some .main := by
  set s₀ := System.boot pageless 0 0x401000 with hs₀
  have hrun₀ : s₀.kernel.runningTask = .main ∧ s₀.kernel.next .main = some .main := by
    rw [hs₀, System.boot, boot_kernel]
    exact ⟨rfl, rfl⟩
  have hmain := hrun₀.2
  simp only [Kernel.next, Kernel.task] at hmain
  refine ⟨?_, ?_, ?_⟩
  · rw [cur, hk]
    exact (Kernel.withChild_runningTask ..).trans hrun₀.1
  · rw [hk, Kernel.withChild, Kernel.withForked, Kernel.taskAdd_next]
    simp [Kernel.withFresh, hrun₀.1]
  · rw [hk, Kernel.withChild, Kernel.withForked, Kernel.taskAdd_next]
    simp [Kernel.withFresh, hrun₀.1, Kernel.next, Kernel.task, hmain]

/-- The child has a turn, and then process 0 again. -/
theorem pageless_turns : ∃ o s₁ s₂ s₃,
    (System.boot pageless 0 0x401000).step (.fork registers) = some (s₁, o) ∧
    s₁.step (.tick .zero) = some (s₂, .quiet) ∧ s₂.step (.tick .zero) = some (s₃, .quiet) ∧
    s₁.cur = .main ∧ s₂.cur = .proc 1 ∧ s₃.cur = .main ∧ s₁.mode .main = .user ∧
    s₂.mode .main = .user ∧ s₁.kernel.next .main = some (.proc 1) ∧
    s₂.kernel.next (.proc 1) = some .main := by
  obtain ⟨a, m, S, s₁, hfork, hk, -, -, -, -, hmain, hchild⟩ := pageless_forked
  obtain ⟨hcur₁, hnext, hback⟩ := pageless_links hk
  have hs₁ := step_sched (boot_sched _ _ _) hfork
  obtain ⟨s₂, htick₁, hcur₂, hmode₂, hyield⟩ := tick_user hs₁ (hcur₁ ▸ hmain) (hcur₁ ▸ hnext) .zero
  have hy₂ := Kernel.yield_spec hyield
  have hs₂ := step_sched hs₁ htick₁
  obtain ⟨s₃, htick₂, hcur₃, -, -⟩ := tick_user hs₂ (by rw [hmode₂, hcur₂, hchild])
    (by rw [hy₂.next, hcur₂, hback]) .zero
  exact ⟨_, s₁, s₂, s₃, hfork, htick₁, htick₂, hcur₁, hcur₂, hcur₃, hmain,
    (congrFun hmode₂ _).trans hmain, hnext, by rw [hy₂.next, hback]⟩

/-- The heap is large enough for the stack of process 0. -/
theorem pageless_heap : (System.boot pageless 0 0x401000).kernel.heap.Ready := by
  rw [System.boot, boot_kernel]
  exact ⟨by decide, by decide, by decide⟩

end Sample

end EclipseOS
