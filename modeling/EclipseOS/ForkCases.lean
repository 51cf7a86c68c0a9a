import EclipseOS.Process

/-!
# What a fork can do

`process_fork` ends in one of four ways.  Its memory half is gathered in
`forkSpace`; the inversion lemma `processFork_cases` says what the process
table, the files and the ring look like in each case, so that later modules do
not unfold `processFork` again.
-/

namespace EclipseOS

namespace Kernel

variable {k k' : Kernel}

/-! ## Choosing an entry -/

theorem freeSlot_spec {c : Fin MAX_PROCS} (h : k.freeSlot = some c) :
    c ≠ 0 ∧ (k.procTable c).state = .free := by
  have := List.find?_some h
  simpa using this

theorem processOfTask_spec {t : TaskRef} {i : Fin MAX_PROCS} (h : k.processOfTask t = some i) :
    t = .proc i ∧ (k.procTable i).state ≠ .free := by
  have := List.find?_some h
  simp only [ne_eq, decide_eq_true_eq] at this
  exact ⟨this.2.symm, this.1⟩

theorem processOfTask_proc {i : Fin MAX_PROCS} (h : (k.procTable i).state ≠ .free) :
    k.processOfTask (.proc i) = some i := by
  cases hfind : k.processOfTask (.proc i) with
  | none =>
      have := List.find?_eq_none.mp hfind i (List.mem_finRange i)
      simp [h] at this
  | some j =>
      obtain ⟨heq, _⟩ := processOfTask_spec hfind
      cases heq
      rfl

@[simp] theorem processOfTask_main : k.processOfTask .main = none := by
  cases hfind : k.processOfTask .main with
  | none => rfl
  | some j => exact nomatch (processOfTask_spec hfind).1

@[simp] theorem processOfTask_created (n : ℕ) : k.processOfTask (.created n) = none := by
  cases hfind : k.processOfTask (.created n) with
  | none => rfl
  | some j => exact nomatch (processOfTask_spec hfind).1

theorem processCurrent_proc {i : Fin MAX_PROCS} (hrun : k.runningTask = .proc i)
    (h : (k.procTable i).state ≠ .free) : k.processCurrent = i := by
  simp [processCurrent, taskCurrent, hrun, processOfTask_proc h]

theorem processCurrent_main (hrun : k.runningTask = .main) : k.processCurrent = 0 := by
  simp [processCurrent, taskCurrent, hrun]

/-- A process other than 0 is current only while its own task runs. -/
theorem processCurrent_ne_zero (h : k.processCurrent ≠ 0) :
    k.runningTask = .proc k.processCurrent ∧ (k.procTable k.processCurrent).state ≠ .free := by
  cases hfind : k.processOfTask k.runningTask with
  | none => simp [processCurrent, taskCurrent, hfind] at h
  | some i =>
      have hcur : k.processCurrent = i := by simp [processCurrent, taskCurrent, hfind]
      rw [hcur]
      exact processOfTask_spec hfind

/-- The new entry is never that of the caller. -/
theorem freeSlot_ne_processCurrent {c : Fin MAX_PROCS} (h : k.freeSlot = some c) :
    k.processCurrent ≠ c := by
  obtain ⟨hc, hfree⟩ := freeSlot_spec h
  intro heq
  obtain ⟨_, hstate⟩ := processCurrent_ne_zero (k := k) (by rw [heq]; exact hc)
  rw [heq] at hstate
  exact hstate hfree

/-- The entry `process_create` sets up, with its stack at `stack`. -/
def freshEntry (k : Kernel) (stack : ℕ) : Process :=
  { Process.zero with
    kernelStack := (stack + KSTACK_SIZE) % 2 ^ 32
    pid := k.nextPid
    state := .run }

/-- The kernel after a successful `process_create`. -/
def withFresh (k : Kernel) (c : Fin MAX_PROCS) (stack : ℕ) (heap : Kheap) : Kernel :=
  { k with
    heap := heap
    nextPid := int32 (k.nextPid + 1)
    procTable := Function.update k.procTable c (k.freshEntry stack) }

theorem processCreate_cases (k : Kernel) :
    (k.freeSlot = none ∧ k.processCreate = (none, k)) ∨
      ∃ c stack heap, k.freeSlot = some c ∧ k.heap.kmallocAligned KSTACK_SIZE = (stack, heap) ∧
        ((stack = 0 ∧ k.processCreate =
            (none, { k with heap := heap }.modifyProc c fun _ ↦ .zero)) ∨
          (stack ≠ 0 ∧ k.processCreate = (some c, k.withFresh c stack heap))) := by
  cases hfree : k.freeSlot with
  | none => exact Or.inl ⟨rfl, by simp [processCreate, hfree]⟩
  | some c =>
      rcases hheap : k.heap.kmallocAligned KSTACK_SIZE with ⟨stack, heap⟩
      refine Or.inr ⟨c, stack, heap, rfl, rfl, ?_⟩
      by_cases hstack : stack = 0
      · exact Or.inl ⟨hstack, by simp [processCreate, hfree, hheap, hstack, modifyProc]⟩
      · refine Or.inr ⟨hstack, ?_⟩
        simp [processCreate, hfree, hheap, hstack, modifyProc, withFresh, freshEntry,
          Process.zero]

/-! ## Sharing descriptors -/

/-- How many of the descriptors in `l` point to the entry `f`. -/
def fdCount (fds : Fin MAX_FDS → Option (Fin MAX_OPEN_FILES)) (l : List (Fin MAX_FDS))
    (f : Fin MAX_OPEN_FILES) : ℕ :=
  l.countP fun i ↦ fds i = some f

/-- The file table with one more reference for each of the descriptors. -/
def retained (k : Kernel) (fds : Fin MAX_FDS → Option (Fin MAX_OPEN_FILES))
    (l : List (Fin MAX_FDS)) (f : Fin MAX_OPEN_FILES) : OpenFile :=
  { k.fileTable f with refcount := (k.fileTable f).refcount + fdCount fds l f }

/-- Sharing descriptors touches the file table and the descriptors of the
child, nothing else. -/
theorem shareFd_foldl (parent child : Fin MAX_PROCS) (hne : parent ≠ child)
    (l : List (Fin MAX_FDS)) (k : Kernel) :
    l.foldl (shareFd parent child) k =
      { k with fileTable := k.retained (k.procTable parent).fds l }.modifyProc child fun c ↦
        { c with fds := fun i ↦ if i ∈ l then (k.procTable parent).fds i else c.fds i } := by
  induction l generalizing k with
  | nil =>
      have hfile : k.retained (k.procTable parent).fds [] = k.fileTable := by
        funext f
        simp [retained, fdCount]
      simp [hfile, modifyProc]
  | cons i l ih =>
      rw [List.foldl_cons, ih]
      have hfds : ∀ c : Fin MAX_FDS → Option (Fin MAX_OPEN_FILES), ∀ j,
          (if j ∈ l then (k.procTable parent).fds j
            else Function.update c i ((k.procTable parent).fds i) j) =
            if j ∈ i :: l then (k.procTable parent).fds j else c j := by
        intro c j
        by_cases hj : j = i <;> by_cases hl : j ∈ l <;> simp [hj, hl]
      have hproc : (shareFd parent child k i).procTable parent = k.procTable parent := by
        cases hfd : (k.procTable parent).fds i <;> simp [shareFd, openFileRetain, hne, hfd]
      have hfile : (shareFd parent child k i).retained (k.procTable parent).fds l =
          k.retained (k.procTable parent).fds (i :: l) := by
        funext f
        cases hfd : (k.procTable parent).fds i with
        | none => simp [shareFd, openFileRetain, retained, fdCount, hfd]
        | some g =>
            by_cases hg : f = g
            · subst hg
              simp [shareFd, openFileRetain, retained, fdCount, hfd, modifyFile]
              ring
            · have hgf : g ≠ f := fun h ↦ hg h.symm
              simp [shareFd, openFileRetain, retained, fdCount, hfd, hg, hgf, modifyFile]
      rw [hproc, hfile]
      cases hfd : (k.procTable parent).fds i <;>
        simp [shareFd, openFileRetain, hfd, modifyProc, modifyFile] at hfds ⊢ <;> simp [hfds]

/-! ## The memory half -/

inductive SpaceOutcome
  | noDirectory
  | outOfSlots
  | built (dir : ℕ)

/-- What `process_fork` does to memory before it shares the descriptors. -/
def forkSpace (m : Machine) : Option (SpaceOutcome × Machine) := do
  let (dir, m) ← m.pagingNewDirectory
  if dir = 0 then return (.noDirectory, m)
  let s ← copyPages m
  if s.outOfSlots then
    let m := s.copyList.foldl (fun m e ↦ m.pmmFreeFrame e.frame) s.machine
    let m ← m.pagingFreeDirectory dir
    return (.outOfSlots, m)
  let m ← installPages s.machine dir s.copyList
  return (.built dir, m)

/-- The child's entry when `process_fork` returns its pid. -/
def forkedEntry (k : Kernel) (parent : Fin MAX_PROCS) (dir : ℕ) (c : Process) : Process :=
  let p := k.procTable parent
  { c with
    ppid := p.pid
    brk := p.brk
    brkMapped := p.brkMapped
    pageDir := dir
    fds := p.fds
    task := ⟨{ TaskRegs.zero with
      esp := c.kernelStack - REGISTERS_SIZE
      eip := k.forkTrampoline
      eflags := 0x002
      cr3 := dir }, none⟩ }

/-- The child's entry when `process_fork` gives it back. -/
def failedEntry (k : Kernel) (parent : Fin MAX_PROCS) (dir : ℕ) (c : Process) : Process :=
  let p := k.procTable parent
  { c with
    ppid := p.pid
    brk := p.brk
    brkMapped := p.brkMapped
    pageDir := dir
    state := .free }

/-- The kernel after the tail of `process_fork` built a directory. -/
def withForked (k : Kernel) (parent child : Fin MAX_PROCS) (dir : ℕ) (m : Machine) : Kernel :=
  (({ k with fileTable := k.retained (k.procTable parent).fds (List.finRange MAX_FDS)
    }.withMachine m).modifyProc child (k.forkedEntry parent dir)).taskAdd (.proc child)

section Forked

variable (k : Kernel) (parent c : Fin MAX_PROCS) (dir stack : ℕ) (heap : Kheap) (m : Machine)

/-- The child's entry when its pid is returned, but for the link of its task. -/
def childEntry : Process := (k.withFresh c stack heap).forkedEntry parent dir (k.freshEntry stack)

/-- The kernel when its pid is returned. -/
def withChild : Kernel := (k.withFresh c stack heap).withForked parent c dir m

@[simp] theorem taskAdd_taskless (t : TaskRef) (j : Fin MAX_PROCS) :
    (k.taskAdd t).procTable j = { k.procTable j with task := (k.taskAdd t).task (.proc j) } := by
  simp only [taskAdd, setNext]
  rw [setTask_procTable, setTask_procTable]

/-- Links may change everywhere, the rest only in the entry of the child. -/
theorem withChild_procTable (j : Fin MAX_PROCS) :
    (k.withChild parent c dir stack heap m).procTable j =
      { (if j = c then k.childEntry parent c dir stack heap else k.procTable j) with
        task := (k.withChild parent c dir stack heap m).task (.proc j) } := by
  simp only [withChild, withForked]
  rw [taskAdd_taskless]
  by_cases hj : j = c
  · subst hj
    simp [childEntry, withFresh]
  · simp [hj, withFresh]

theorem withChild_fileTable : (k.withChild parent c dir stack heap m).fileTable =
    (k.withFresh c stack heap).retained ((k.withFresh c stack heap).procTable parent).fds
      (List.finRange MAX_FDS) := by
  simp [withChild, withForked, taskAdd]

@[simp] theorem withChild_machine : (k.withChild parent c dir stack heap m).machine = m := by
  simp [withChild, withForked, taskAdd]

@[simp] theorem withChild_heap : (k.withChild parent c dir stack heap m).heap = heap := by
  simp [withChild, withForked, taskAdd, withFresh]

@[simp] theorem withChild_nextPid :
    (k.withChild parent c dir stack heap m).nextPid = int32 (k.nextPid + 1) := by
  simp [withChild, withForked, taskAdd, withFresh]

@[simp] theorem withChild_kernelDir :
    (k.withChild parent c dir stack heap m).kernelDir = k.kernelDir := by
  simp [withChild, withForked, taskAdd, withFresh]

@[simp] theorem withChild_runningTask :
    (k.withChild parent c dir stack heap m).runningTask = k.runningTask := by
  simp [withChild, withForked, taskAdd, withFresh]

@[simp] theorem withChild_createdCount :
    (k.withChild parent c dir stack heap m).createdCount = k.createdCount := by
  simp [withChild, withForked, taskAdd, withFresh]

@[simp] theorem withChild_tssEsp0 :
    (k.withChild parent c dir stack heap m).tssEsp0 = k.tssEsp0 := by
  simp [withChild, withForked, taskAdd, withFresh]

@[simp] theorem withChild_files : (k.withChild parent c dir stack heap m).files = k.files := by
  simp [withChild, withForked, taskAdd, withFresh]

end Forked

theorem forkInto_cases {parent child : Fin MAX_PROCS} (hne : parent ≠ child) {regs : Registers}
    {r : ℤ} (h : k.forkInto parent child regs = some (r, k')) :
    ∃ o m, forkSpace k.machine = some (o, m) ∧
      match o with
      | .built dir => r = (k.procTable child).pid ∧ ∃ m',
          storeWords m ((k.procTable child).kernelStack - REGISTERS_SIZE)
            { regs with eax := 0 }.words = some m' ∧
          k' = k.withForked parent child dir m'
      | _ => r = -ENOMEM ∧ ∃ dir,
          k' = (k.withMachine m).modifyProc child (k.failedEntry parent dir) := by
  simp only [forkInto, Option.bind_eq_bind, Option.bind_eq_some_iff] at h
  obtain ⟨⟨dir, m₁⟩, hdir, h⟩ := h
  simp only [modifyProc_machine] at hdir
  by_cases hzero : dir = 0
  · simp [hzero, modifyProc_modifyProc] at h
    refine ⟨.noDirectory, m₁, by simp [forkSpace, hdir, hzero], h.1.symm, 0, ?_⟩
    rw [← h.2]
    rfl
  · simp only [if_neg hzero, Option.bind_eq_some_iff, modifyProc_machine, withMachine_machine] at h
    obtain ⟨s, hcopy, h⟩ := h
    by_cases hslots : s.outOfSlots = true
    · simp only [if_pos hslots, Option.bind_eq_some_iff] at h
      obtain ⟨m₂, hfree, h⟩ := h
      simp [modifyProc_modifyProc] at h
      refine ⟨.outOfSlots, m₂, by simp [forkSpace, hdir, hzero, hcopy, hslots, hfree], h.1.symm,
        dir, ?_⟩
      rw [← h.2]
      rfl
    · simp only [if_neg hslots, Option.bind_eq_some_iff] at h
      obtain ⟨m₂, hinstall, m₃, hstore, h⟩ := h
      rw [shareFd_foldl _ _ hne] at h hstore
      simp [modifyProc_modifyProc] at h hstore
      refine ⟨.built dir, m₂, by simp [forkSpace, hdir, hzero, hcopy, hslots, hinstall],
        h.1.symm, m₃, hstore, ?_⟩
      rw [← h.2]
      refine congrArg (fun k : Kernel ↦ k.taskAdd (.proc child)) ?_
      simp [modifyProc, withMachine, forkedEntry, hne]
      rfl

/-- The entry that `process_fork` gives back, as `process_create` left it but
for the fields copied from the parent. -/
def failedFresh (k : Kernel) (parent c : Fin MAX_PROCS) (dir stack : ℕ) (heap : Kheap) : Process :=
  (k.withFresh c stack heap).failedEntry parent dir (k.freshEntry stack)

/-- No entry or no stack for it, no memory, or a child. -/
theorem processFork_cases {regs : Registers} {r : ℤ} (h : k.processFork regs = some (r, k')) :
    (k.freeSlot = none ∧ r = -EAGAIN ∧ k' = k) ∨
      ∃ c stack heap, k.freeSlot = some c ∧
        k.heap.kmallocAligned KSTACK_SIZE = (stack, heap) ∧
        ((stack = 0 ∧ r = -EAGAIN ∧ k' = { k with heap := heap }.modifyProc c fun _ ↦ .zero) ∨
          (stack ≠ 0 ∧ r = -ENOMEM ∧ ∃ o m dir, forkSpace k.machine = some (o, m) ∧
            (∀ dir, o ≠ .built dir) ∧
            k' = ((k.withFresh c stack heap).withMachine m).modifyProc c fun _ ↦
              k.failedFresh k.processCurrent c dir stack heap) ∨
          (stack ≠ 0 ∧ r = k.nextPid ∧ ∃ dir m m', forkSpace k.machine = some (.built dir, m) ∧
            storeWords m ((stack + KSTACK_SIZE) % 2 ^ 32 - REGISTERS_SIZE)
              { regs with eax := 0 }.words = some m' ∧
            k' = k.withChild k.processCurrent c dir stack heap m')) := by
  obtain ⟨hnone, hcreate⟩ |
    ⟨c, stack, heap, hfree, hheap, ⟨hstack, hcreate⟩ | ⟨hstack, hcreate⟩⟩ := processCreate_cases k
  · simp only [processFork, hcreate, Option.some.injEq, Prod.mk.injEq] at h
    exact Or.inl ⟨hnone, h.1.symm, h.2.symm⟩
  · simp only [processFork, hcreate, Option.some.injEq, Prod.mk.injEq] at h
    exact Or.inr ⟨c, stack, heap, hfree, hheap, Or.inl ⟨hstack, h.1.symm, h.2.symm⟩⟩
  · simp only [processFork, hcreate] at h
    refine Or.inr ⟨c, stack, heap, hfree, hheap, Or.inr ?_⟩
    have hentry : (k.withFresh c stack heap).procTable c = k.freshEntry stack := by
      simp [withFresh]
    obtain ⟨o, m, hspace, ho⟩ := forkInto_cases (freeSlot_ne_processCurrent hfree) h
    cases o with
    | noDirectory =>
        obtain ⟨hr, dir, hk⟩ := ho
        refine Or.inl ⟨hstack, hr, .noDirectory, m, dir, hspace, fun _ ↦ SpaceOutcome.noConfusion, ?_⟩
        simp [hk, modifyProc, hentry, failedFresh]
    | outOfSlots =>
        obtain ⟨hr, dir, hk⟩ := ho
        refine Or.inl ⟨hstack, hr, .outOfSlots, m, dir, hspace, fun _ ↦ SpaceOutcome.noConfusion, ?_⟩
        simp [hk, modifyProc, hentry, failedFresh]
    | built dir =>
        obtain ⟨hr, m', hstore, hk⟩ := ho
        rw [hentry] at hr hstore
        exact Or.inr ⟨hstack, hr, dir, m, m', hspace, hstore, hk⟩

end Kernel

end EclipseOS
