import EclipseOS.ForkCases

/-!
# What yield, exit and wait can do

The inversion lemmas of the functions that stop a process.  The two loops of
`process_exit` get closed forms: `released` for the descriptors and `orphaned`
for the children.
-/

namespace EclipseOS

/-- `open_file_release` on one entry. -/
def OpenFile.release (file : OpenFile) : OpenFile :=
  if file.refcount - 1 ≤ 0 then ⟨none, 0, 0⟩ else { file with refcount := file.refcount - 1 }

/-- The shape `do` gives to an action that depends on a test. -/
theorem ite_bind {α β : Type} {c : Prop} [Decidable c] (a b : Option α) (f : α → Option β) :
    (if c then a.bind f else b.bind f) = (if c then a else b).bind f := by
  split <;> rfl

namespace Kernel

variable {k k' : Kernel}

/-! ## Yield -/

/-- What `yield` leaves in place, and the two fields that it drives. -/
structure Yielded (k k' : Kernel) : Prop where
  running : k.next k.runningTask = some k'.runningTask
  next : k'.next = k.next
  procTable : ∀ i, k'.procTable i = { k.procTable i with task := k'.task (.proc i) }
  fileTable : k'.fileTable = k.fileTable
  nextPid : k'.nextPid = k.nextPid
  heap : k'.heap = k.heap
  kernelDir : k'.kernelDir = k.kernelDir
  createdCount : k'.createdCount = k.createdCount
  files : k'.files = k.files
  haltStackTop : k'.haltStackTop = k.haltStackTop
  machine : ∃ cr3, k'.machine = { k.machine with cr3 := cr3 }
  esp0 : k'.tssEsp0 = if k'.runningTask = k.runningTask then k.tssEsp0 else
    ((k.processOfTask k'.runningTask).map fun i ↦ (k.procTable i).kernelStack).getD k.tssEsp0

theorem processOfTask_congr (h : ∀ i, (k'.procTable i).state = (k.procTable i).state)
    (t : TaskRef) : k'.processOfTask t = k.processOfTask t := by
  simp only [processOfTask, h]

theorem loadSpace_eq (m : Machine) (cr3 : ℕ) : ∃ c, loadSpace m cr3 = { m with cr3 := c } := by
  unfold loadSpace
  split
  · exact ⟨m.cr3, rfl⟩
  · exact ⟨cr3, rfl⟩

/-- `switch_task` writes the saved registers of `old` and `cr3`. -/
theorem switchTask_spec (cpu : TaskRegs) (old new : TaskRef) :
    ∃ regs cr3, (k.switchTask cpu old new).1 =
      (k.setTask ⟨regs, k.next old⟩ old).withMachine { k.machine with cr3 := cr3 } := by
  obtain ⟨cr3, hload⟩ := loadSpace_eq k.machine
    ((k.modifyRegs old (saveContext cpu k.machine.cr3)).task new).regs.cr3
  refine ⟨saveContext cpu k.machine.cr3 (k.task old).regs, cr3, ?_⟩
  simp only [switchTask, modifyRegs, setTask_machine, task_next] at hload ⊢
  rw [hload]

/-- The kernel that `yield` hands to `switch_task`. -/
def dispatched (k : Kernel) (t : TaskRef) : Kernel :=
  { k with
    runningTask := t
    tssEsp0 := ((k.processOfTask t).map fun i ↦ (k.procTable i).kernelStack).getD k.tssEsp0 }

theorem yield_cases {cpu : TaskRegs} (h : k.yield cpu = some k') :
    ∃ t, k.next k.runningTask = some t ∧
      (t = k.runningTask ∧ k' = k ∨ t ≠ k.runningTask ∧ ∃ regs cr3, k' =
        ((k.dispatched t).setTask ⟨regs, k.next k.runningTask⟩ k.runningTask).withMachine
          { k.machine with cr3 := cr3 }) := by
  simp only [yield, Option.bind_eq_bind, Option.bind_eq_some_iff] at h
  obtain ⟨t, ht, h⟩ := h
  refine ⟨t, ht, ?_⟩
  by_cases heq : k.runningTask = t
  · subst heq
    simp at h
    exact Or.inl ⟨rfl, h.symm⟩
  · simp only [if_neg heq, Option.pure_def, Option.some.injEq] at h
    have hk : (({ k with runningTask := t } : Kernel).processOfTask t).elim
        { k with runningTask := t } (fun np ↦ ({ k with runningTask := t } : Kernel).tssSetStack
          (k.procTable np).kernelStack) = k.dispatched t := by
      have hproc : ({ k with runningTask := t } : Kernel).processOfTask t = k.processOfTask t := rfl
      rw [hproc, dispatched]
      cases k.processOfTask t <;> rfl
    rw [hk] at h
    obtain ⟨regs, cr3, hsw⟩ := switchTask_spec (k := k.dispatched t) cpu k.runningTask t
    exact Or.inr ⟨fun h ↦ heq h.symm, regs, cr3, by rw [← h, hsw]; rfl⟩

@[simp] theorem dispatched_next (t : TaskRef) : (k.dispatched t).next = k.next := by
  funext r
  cases r <;> rfl

theorem yield_spec {cpu : TaskRegs} (h : k.yield cpu = some k') : Yielded k k' := by
  obtain ⟨t, ht, ⟨rfl, rfl⟩ | ⟨hne, regs, cr3, rfl⟩⟩ := yield_cases h
  · exact {
      running := ht
      next := rfl
      procTable := fun i ↦ rfl
      fileTable := rfl
      nextPid := rfl
      heap := rfl
      kernelDir := rfl
      createdCount := rfl
      files := rfl
      haltStackTop := rfl
      machine := ⟨k'.machine.cr3, rfl⟩
      esp0 := by simp }
  · exact {
      running := by simp [ht, dispatched]
      next := by simp
      procTable := fun i ↦ by simp [setTask_procTable, dispatched]
      fileTable := by simp [dispatched]
      nextPid := by simp [dispatched]
      heap := by simp [dispatched]
      kernelDir := by simp [dispatched]
      createdCount := by simp [dispatched]
      files := by simp [dispatched]
      haltStackTop := by simp [dispatched]
      machine := ⟨cr3, rfl⟩
      esp0 := by simp [dispatched, hne] }

/-! ## Exit -/

/-- The file table with one reference less for each of the descriptors. -/
def released (k : Kernel) (fds : Fin MAX_FDS → Option (Fin MAX_OPEN_FILES))
    (l : List (Fin MAX_FDS)) (f : Fin MAX_OPEN_FILES) : OpenFile :=
  OpenFile.release^[fdCount fds l f] (k.fileTable f)

theorem openFileRelease_some (f : Fin MAX_OPEN_FILES) :
    k.openFileRelease (some f) = k.modifyFile f OpenFile.release := rfl

/-- Releasing descriptors touches the file table and the descriptors. -/
theorem releaseFd_foldl (p : Fin MAX_PROCS) (l : List (Fin MAX_FDS)) (hl : l.Nodup) (k : Kernel) :
    l.foldl (releaseFd p) k =
      { k with fileTable := k.released (k.procTable p).fds l }.modifyProc p fun q ↦
        { q with fds := fun i ↦ if i ∈ l then none else q.fds i } := by
  induction l generalizing k with
  | nil =>
      have hfile : k.released (k.procTable p).fds [] = k.fileTable := by
        funext f
        simp [released, fdCount]
      simp [hfile, modifyProc]
  | cons i l ih =>
      obtain ⟨hi, hl⟩ := List.nodup_cons.mp hl
      rw [List.foldl_cons, ih hl]
      have hfds : ∀ j, (if j ∈ l then none else Function.update (k.procTable p).fds i none j) =
          if j ∈ i :: l then none else (k.procTable p).fds j := by
        intro j
        by_cases hj : j = i <;> by_cases hmem : j ∈ l <;> simp [hj, hmem]
      have hcount : ∀ f, fdCount (Function.update (k.procTable p).fds i none) l f =
          fdCount (k.procTable p).fds l f := by
        intro f
        refine List.countP_congr fun j hj ↦ ?_
        have hji : j ≠ i := fun h ↦ hi (h ▸ hj)
        simp [hji]
      have hfile : (releaseFd p k i).released ((releaseFd p k i).procTable p).fds l =
          k.released (k.procTable p).fds (i :: l) := by
        funext f
        cases hfd : (k.procTable p).fds i with
        | none =>
            have hother : fdCount (k.procTable p).fds (i :: l) f =
                fdCount (k.procTable p).fds l f := by simp [fdCount, hfd]
            simp [releaseFd, openFileRelease, released, hcount, hfd, hother]
        | some g =>
            by_cases hg : f = g
            · subst hg
              have hself : fdCount (k.procTable p).fds (i :: l) f =
                  fdCount (k.procTable p).fds l f + 1 := by simp [fdCount, hfd]
              simp [releaseFd, openFileRelease_some, released, hfd, hcount, hself, modifyFile]
            · have hother : fdCount (k.procTable p).fds (i :: l) f =
                  fdCount (k.procTable p).fds l f := by
                have hgf : g ≠ f := fun h ↦ hg h.symm
                simp [fdCount, hfd, hgf]
              simp [releaseFd, openFileRelease_some, released, hfd, hcount, hother, hg, modifyFile]
      rw [hfile]
      cases hfd : (k.procTable p).fds i <;>
        simp [releaseFd, openFileRelease, hfd, modifyProc, modifyFile] at hfds ⊢ <;> simp [hfds]

/-- What `process_exit` does to the entry of a child. -/
def orphaned (pid : ℤ) (q : Process) : Process :=
  if q.state ≠ .free ∧ q.ppid = pid then { q with ppid := 0 } else q

section Orphaned

variable (pid : ℤ) (q : Process)

@[simp] theorem orphaned_pid : (orphaned pid q).pid = q.pid := by unfold orphaned; split <;> rfl
@[simp] theorem orphaned_state : (orphaned pid q).state = q.state := by
  unfold orphaned; split <;> rfl
@[simp] theorem orphaned_exitCode : (orphaned pid q).exitCode = q.exitCode := by
  unfold orphaned; split <;> rfl
@[simp] theorem orphaned_pageDir : (orphaned pid q).pageDir = q.pageDir := by
  unfold orphaned; split <;> rfl
@[simp] theorem orphaned_kernelStack : (orphaned pid q).kernelStack = q.kernelStack := by
  unfold orphaned; split <;> rfl
@[simp] theorem orphaned_brk : (orphaned pid q).brk = q.brk := by unfold orphaned; split <;> rfl
@[simp] theorem orphaned_fds : (orphaned pid q).fds = q.fds := by unfold orphaned; split <;> rfl
@[simp] theorem orphaned_task : (orphaned pid q).task = q.task := by
  unfold orphaned; split <;> rfl

theorem orphaned_ppid (h : q.state ≠ .free) :
    (orphaned pid q).ppid = if q.ppid = pid then 0 else q.ppid := by
  by_cases hp : q.ppid = pid <;> simp [orphaned, h, hp]

end Orphaned

theorem reparent_foldl (pid : ℤ) (l : List (Fin MAX_PROCS)) (hl : l.Nodup) (k : Kernel) :
    l.foldl (reparent pid) k = { k with
      procTable := fun i ↦
        if i ∈ l then orphaned pid (k.procTable i) else k.procTable i } := by
  induction l generalizing k with
  | nil => simp
  | cons i l ih =>
      obtain ⟨hi, hl⟩ := List.nodup_cons.mp hl
      have hstep : reparent pid k i = k.modifyProc i (orphaned pid) := by
        simp only [reparent, orphaned, modifyProc]
        split
        · rfl
        · simp
      rw [List.foldl_cons, ih hl, hstep]
      congr 1
      funext j
      by_cases hj : j = i
      · subst hj
        simp [hi]
      · simp [hj]

/-- The entry of a process that has exited. -/
def exitedEntry (k : Kernel) (code : ℤ) (q : Process) : Process :=
  { q with
    state := .zombie
    exitCode := code
    pageDir := k.kernelDir
    fds := fun _ ↦ none
    task := { q.task with regs := { q.task.regs with cr3 := k.kernelDir } } }

/-- The kernel when `process_exit` of the entry `p` reaches `task_remove`. -/
def withExited (k : Kernel) (p : Fin MAX_PROCS) (code : ℤ) (m : Machine) : Kernel :=
  { k with
    machine := m
    fileTable := k.released (k.procTable p).fds (List.finRange MAX_FDS)
    procTable := fun i ↦
      let q := orphaned (k.procTable p).pid (k.procTable i)
      if i = p then k.exitedEntry code q else q }

/-- What `process_exit` does to memory. -/
def exitSpace (m : Machine) (kernelDir dir : ℕ) : Option Machine :=
  let m := m.pagingSwitchDirectory kernelDir
  if dir ≠ kernelDir then m.pagingFreeDirectory dir else some m

/-- The stores of `process_exit` before it gives up the address space. -/
theorem withExited_eq {p : Fin MAX_PROCS} (hrun : k.runningTask = .proc p) (code : ℤ)
    (m : Machine) :
    ((((((List.finRange MAX_PROCS).foldl (reparent (k.procTable p).pid)
      ((List.finRange MAX_FDS).foldl (releaseFd p) k)).modifyProc p fun q ↦
        { q with exitCode := code, state := .zombie }).withMachine m).modifyProc p fun q ↦
        { q with pageDir := k.kernelDir }).modifyRegs (.proc p) fun regs ↦
        { regs with cr3 := k.kernelDir }).modifyRegs (.proc p) (fun regs ↦
        { regs with cr3 := k.kernelDir }) = k.withExited p code m := by
  rw [releaseFd_foldl _ _ (List.nodup_finRange _), reparent_foldl _ _ (List.nodup_finRange _)]
  simp only [withExited, modifyRegs, setTask, withMachine, modifyProc, task]
  congr 1
  funext i
  by_cases hi : i = p
  · subst hi
    simp [exitedEntry, orphaned]
    split <;> simp
  · simp [hi]

/-- A process other than 0 gives up its space and leaves the ring. -/
theorem processExit_eq {p : Fin MAX_PROCS} (hrun : k.runningTask = .proc p)
    (hp : k.processCurrent = p) (hpid : (k.procTable p).pid ≠ 0) (code : ℤ) :
    k.processExit code = (exitSpace k.machine k.kernelDir (k.procTable p).pageDir).bind fun m ↦
      ((k.withExited p code m).taskRemove (.proc p)).bind fun k' ↦ some (.leaving, k') := by
  have heq := withExited_eq hrun code (k.machine.pagingSwitchDirectory k.kernelDir)
  have hfds : (((List.finRange MAX_FDS).foldl (releaseFd p) k).procTable p).pid =
      (k.procTable p).pid := by
    simp [releaseFd_foldl _ _ (List.nodup_finRange _)]
  simp only [processExit, hp, if_neg hpid, hfds]
  set k₂ := (List.finRange MAX_PROCS).foldl (reparent (k.procTable p).pid)
    ((List.finRange MAX_FDS).foldl (releaseFd p) k) with hk₂
  have hrun₂ : k₂.runningTask = .proc p := by
    simp [hk₂, reparent_foldl _ _ (List.nodup_finRange _),
      releaseFd_foldl _ _ (List.nodup_finRange _), hrun]
  have hdir₂ : k₂.kernelDir = k.kernelDir := by
    simp [hk₂, reparent_foldl _ _ (List.nodup_finRange _),
      releaseFd_foldl _ _ (List.nodup_finRange _)]
  have hmach₂ : k₂.machine = k.machine := by
    simp [hk₂, reparent_foldl _ _ (List.nodup_finRange _),
      releaseFd_foldl _ _ (List.nodup_finRange _)]
  have hpage₂ : (k₂.procTable p).pageDir = (k.procTable p).pageDir := by
    simp [hk₂, reparent_foldl _ _ (List.nodup_finRange _),
      releaseFd_foldl _ _ (List.nodup_finRange _)]
  simp only [modifyProc_kernelDir, withMachine_kernelDir, modifyProc_machine, hdir₂, hmach₂,
    modifyProc_self, hpage₂, modifyRegs, setTask_kernelDir, taskCurrent, setTask_runningTask,
    modifyProc_runningTask, withMachine_runningTask, hrun₂] at heq ⊢
  rw [heq]
  simp only [Option.bind_eq_bind, ite_bind, Option.pure_def]
  rfl

theorem processExit_cases (hzero : (k.procTable 0).pid = 0) {code : ℤ} {o : ExitOutcome}
    (h : k.processExit code = some (o, k')) :
    ((k.procTable k.processCurrent).pid = 0 ∧ o = .halted ∧
        k' = k.tssSetStack k.haltStackTop) ∨
      ((k.procTable k.processCurrent).pid ≠ 0 ∧ o = .leaving ∧ ∃ m,
        exitSpace k.machine k.kernelDir (k.procTable k.processCurrent).pageDir = some m ∧
        (k.withExited k.processCurrent code m).taskRemove (.proc k.processCurrent) = some k') := by
  by_cases hpid : (k.procTable k.processCurrent).pid = 0
  · simp [processExit, hpid] at h
    exact Or.inl ⟨hpid, h.1.symm, h.2.symm⟩
  · right
    have hp0 : k.processCurrent ≠ 0 := fun h0 ↦ hpid (h0 ▸ hzero)
    obtain ⟨hrun, -⟩ := processCurrent_ne_zero hp0
    rw [processExit_eq hrun rfl hpid] at h
    obtain ⟨m, hm, h⟩ := Option.bind_eq_some_iff.mp h
    obtain ⟨k₃, hremove, h⟩ := Option.bind_eq_some_iff.mp h
    obtain ⟨rfl, rfl⟩ := Prod.mk.inj (Option.some.inj h)
    exact ⟨hpid, rfl, m, hm, hremove⟩

theorem taskRemove_cases {t : TaskRef} (h : k.taskRemove t = some k') :
    k' = k ∨ ∃ prev n, k' = k.setNext prev n := by
  simp only [taskRemove, Option.bind_eq_bind, Option.bind_eq_some_iff] at h
  obtain ⟨prev, -, h⟩ := h
  cases prev with
  | none =>
      simp at h
      exact Or.inl h.symm
  | some prev =>
      simp only [Option.pure_def, Option.some.injEq] at h
      exact Or.inr ⟨prev, _, h.symm⟩

/-- What is left of a process after `process_exit` and the `yield` that ends it. -/
structure Exited (k k' : Kernel) (code : ℤ) (m : Machine) : Prop where
  pid : (k.procTable k.processCurrent).pid ≠ 0
  space : exitSpace k.machine k.kernelDir (k.procTable k.processCurrent).pageDir = some m
  procTable : ∀ i, k'.procTable i =
    { (k.withExited k.processCurrent code m).procTable i with task := k'.task (.proc i) }
  fileTable : k'.fileTable =
    k.released (k.procTable k.processCurrent).fds (List.finRange MAX_FDS)
  nextPid : k'.nextPid = k.nextPid
  heap : k'.heap = k.heap
  kernelDir : k'.kernelDir = k.kernelDir
  createdCount : k'.createdCount = k.createdCount
  machine : ∃ cr3, k'.machine = { m with cr3 := cr3 }

theorem exit_spec (hzero : (k.procTable 0).pid = 0) {code : ℤ} {cpu : TaskRegs} {k₁ : Kernel}
    (hexit : k.processExit code = some (.leaving, k₁)) (hy : k₁.yield cpu = some k') :
    ∃ m, Exited k k' code m := by
  obtain ⟨-, ho, -⟩ | ⟨hpid, -, m, hspace, hremove⟩ := processExit_cases hzero hexit
  · exact nomatch ho
  have hspec := yield_spec hy
  obtain rfl | ⟨prev, n, rfl⟩ := taskRemove_cases hremove
  · exact ⟨m, {
      pid := hpid
      space := hspace
      procTable := hspec.procTable
      fileTable := hspec.fileTable
      nextPid := hspec.nextPid
      heap := hspec.heap
      kernelDir := hspec.kernelDir
      createdCount := hspec.createdCount
      machine := hspec.machine }⟩
  · refine ⟨m, {
      pid := hpid
      space := hspace
      procTable := fun i ↦ ?_
      fileTable := ?_
      nextPid := ?_
      heap := ?_
      kernelDir := ?_
      createdCount := ?_
      machine := ?_ }⟩
    · rw [hspec.procTable, setNext, setTask_procTable]
    · rw [hspec.fileTable, setNext, setTask_fileTable]
      rfl
    · rw [hspec.nextPid, setNext, setTask_nextPid]
      rfl
    · rw [hspec.heap, setNext, setTask_heap]
      rfl
    · rw [hspec.kernelDir, setNext, setTask_kernelDir]
      rfl
    · rw [hspec.createdCount, setNext, setTask_createdCount]
      rfl
    · simpa [withExited] using hspec.machine

/-! ## Wait -/

/-- A turn of the scan skips the entry, counts a running child or reaps a zombie. -/
theorem waitSlot_cases {self i : Fin MAX_PROCS} {status n : ℕ} {w : WaitStep}
    (h : k.waitSlot self status n i = some (w, k')) :
    (w = .next n ∧ k' = k ∧ ((k.procTable i).state = .free ∨
        (k.procTable i).ppid ≠ (k.procTable self).pid ∨ i = self)) ∨
      ((k.procTable i).ppid = (k.procTable self).pid ∧ i ≠ self ∧
        (w = .next (n + 1) ∧ k' = k ∧ (k.procTable i).state = .run ∨
          (k.procTable i).state = .zombie ∧ w = .reaped (k.procTable i).pid ∧ ∃ m,
            (if status ≠ 0 then
              k.machine.store32 status ((k.procTable i).exitCode % 2 ^ 32).toNat
              else some k.machine) = some m ∧
            k' = (k.withMachine m).modifyProc i fun c ↦
              { c with state := .free, kernelStack := 0 })) := by
  simp only [waitSlot] at h
  by_cases hskip : (k.procTable i).state = .free ∨
      (k.procTable i).ppid ≠ (k.procTable self).pid ∨ i = self
  · rw [if_pos hskip] at h
    simp at h
    exact Or.inl ⟨h.1.symm, h.2.symm, hskip⟩
  · rw [if_neg hskip] at h
    push Not at hskip
    obtain ⟨hfree, hppid, hself⟩ := hskip
    refine Or.inr ⟨hppid, hself, ?_⟩
    cases hstate : (k.procTable i).state with
    | free => exact absurd hstate hfree
    | run =>
        simp [hstate] at h
        exact Or.inl ⟨h.1.symm, h.2.symm, rfl⟩
    | zombie =>
        simp only [hstate, if_true, Option.bind_eq_bind, ite_bind, Option.bind_eq_some_iff] at h
        obtain ⟨m, hm, h⟩ := h
        simp at h
        obtain ⟨rfl, rfl⟩ := h
        exact Or.inr ⟨rfl, rfl, m, hm, rfl⟩

end Kernel

end EclipseOS
