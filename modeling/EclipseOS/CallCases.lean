import EclipseOS.ExitCases
import EclipseOS.Syscall

/-!
# What the remaining calls can do

Inversion lemmas for `execve`, the file calls, `sbrk` and `task_create`, with
the memory half of `execve` gathered in `execSpace`.
-/

namespace EclipseOS

namespace Kernel

variable {k k' : Kernel}

/-! ## Execve -/

inductive ExecSpace
  | failed (e : ℤ)
  | entered (dir entry brk : ℕ)

/-- What `process_execve` does to memory once the image is in `exec_buf`. -/
def execSpace (m : Machine) (data : Image) (size kernelDir oldDir : ℕ) :
    Option (ExecSpace × Machine) := do
  let (newDir, m) ← m.pagingNewDirectory
  if newDir = 0 then return (.failed (-ENOMEM), m)
  let (entry, brk, m) ← (m.pagingSwitchDirectory newDir).elfLoad data size
  if entry = 0 then
    let m ← (m.pagingSwitchDirectory oldDir).pagingFreeDirectory newDir
    return (.failed (-ENOEXEC), m)
  let m ← if oldDir ≠ kernelDir then m.pagingFreeDirectory oldDir else some m
  let m ← (List.range USER_STACK_PAGES).foldlM mapStackPage m
  return (.entered newDir entry brk, m)

/-- The stages of a call that succeeds. -/
theorem execSpace_entered {m m' : Machine} {data : Image} {size kernelDir oldDir dir entry brk : ℕ} :
    execSpace m data size kernelDir oldDir = some (.entered dir entry brk, m') ↔
      ∃ m₁ m₂ m₃, m.pagingNewDirectory = some (dir, m₁) ∧ dir ≠ 0 ∧
        (m₁.pagingSwitchDirectory dir).elfLoad data size = some (entry, brk, m₂) ∧ entry ≠ 0 ∧
        (if oldDir ≠ kernelDir then m₂.pagingFreeDirectory oldDir else some m₂) = some m₃ ∧
        (List.range USER_STACK_PAGES).foldlM mapStackPage m₃ = some m' := by
  simp only [execSpace, Option.bind_eq_bind, Option.bind_eq_some_iff]
  constructor
  · rintro ⟨⟨newDir, m₁⟩, hnew, h⟩
    by_cases hzero : newDir = 0
    · simp [hzero] at h
    · simp only [if_neg hzero, Option.bind_eq_some_iff] at h
      obtain ⟨⟨e, b, m₂⟩, hload, h⟩ := h
      by_cases hentry : e = 0
      · simp [hentry, Option.bind_eq_some_iff] at h
      · simp only [if_neg hentry, ite_bind, Option.bind_eq_some_iff] at h
        obtain ⟨m₃, hfree, m₄, hstack, h⟩ := h
        simp only [Option.pure_def, Option.some.injEq, Prod.mk.injEq, ExecSpace.entered.injEq] at h
        obtain ⟨⟨rfl, rfl, rfl⟩, rfl⟩ := h
        exact ⟨m₁, m₂, m₃, hnew, hzero, hload, hentry, hfree, hstack⟩
  · rintro ⟨m₁, m₂, m₃, hnew, hzero, hload, hentry, hfree, hstack⟩
    refine ⟨(dir, m₁), hnew, ?_⟩
    simp only [if_neg hzero, Option.bind_eq_some_iff]
    refine ⟨(entry, brk, m₂), hload, ?_⟩
    rw [if_neg hentry]
    by_cases hdir : oldDir = kernelDir
    · simp only [hdir, ne_eq, not_true_eq_false, if_false, Option.some.injEq] at hfree ⊢
      subst hfree
      simp [hstack]
    · simp only [ne_eq, hdir, not_false_eq_true, if_true] at hfree ⊢
      simp [hfree, hstack]

/-- The buffer after `vfs_read` of a whole file. -/
def execImage (k : Kernel) (prog : FsNode) : Image := fun i ↦
  if i < initrdReadSize prog 0 prog.length then prog.data i else k.execBuf i

/-- The kernel when a successful `process_execve` enters user mode. -/
def withExec (k : Kernel) (image : Image) (dir brk : ℕ) (m : Machine) : Kernel :=
  let p := k.processCurrent
  let b := (brk + 0xFFF) % 2 ^ 32 &&& PAGE_MASK
  let k := { k with execBuf := image }
  let k := (k.withMachine m).modifyProc p fun q ↦ { q with pageDir := dir }
  let k := k.modifyRegs k.runningTask fun regs ↦ { regs with cr3 := dir }
  let k := k.modifyRegs (.proc p) fun regs ↦ { regs with cr3 := dir }
  let k := k.modifyProc p fun q ↦ { q with brk := b, brkMapped := b }
  k.tssSetStack (k.procTable p).kernelStack

theorem processExecve_cases {path : List UInt8} {o : ExecOutcome}
    (h : k.processExecve path = some (o, k')) :
    ((k.vfsFinddir path).bind (k.files[·]?) = none ∧ o = .error (-ENOENT) ∧ k' = k) ∨
      ∃ prog, (k.vfsFinddir path).bind (k.files[·]?) = some prog ∧
        ((EXEC_BUF_SIZE < prog.length ∧ o = .error (-E2BIG) ∧ k' = k) ∨
          (prog.length ≤ EXEC_BUF_SIZE ∧ ∃ space m,
            execSpace k.machine (k.execImage prog) prog.length k.kernelDir
              (k.procTable k.processCurrent).pageDir = some (space, m) ∧
            match space with
            | .failed e => o = .error e ∧
                k' = { k with execBuf := k.execImage prog }.withMachine m
            | .entered dir entry brk => o = .user entry USER_STACK_TOP ∧
                k' = k.withExec (k.execImage prog) dir brk m)) := by
  unfold processExecve at h
  cases hprog : (k.vfsFinddir path).bind (k.files[·]?) with
  | none =>
      simp [hprog] at h
      exact Or.inl ⟨rfl, h.1.symm, h.2.symm⟩
  | some prog =>
      right
      refine ⟨prog, rfl, ?_⟩
      simp only [hprog] at h
      by_cases hbig : EXEC_BUF_SIZE < prog.length
      · simp [hbig] at h
        exact Or.inl ⟨hbig, h.1.symm, h.2.symm⟩
      · right
        refine ⟨by omega, ?_⟩
        have himage : (fun i ↦ if i < initrdReadSize prog 0 prog.length then prog.data i
            else k.execBuf i) = k.execImage prog := rfl
        have hcur : ({ k with execBuf := k.execImage prog } : Kernel).processCurrent =
            k.processCurrent := rfl
        simp only [if_neg hbig, Option.bind_eq_bind, Option.bind_eq_some_iff, himage, hcur] at h
        obtain ⟨⟨newDir, m₁⟩, hnew, h⟩ := h
        by_cases hzero : newDir = 0
        · simp [hzero] at h
          refine ⟨.failed (-ENOMEM), m₁, by simp [execSpace, hnew, hzero], h.1.symm, h.2.symm⟩
        · simp only [if_neg hzero, Option.bind_eq_some_iff] at h
          obtain ⟨⟨entry, brk, m₂⟩, hload, h⟩ := h
          by_cases hentry : entry = 0
          · simp only [if_pos hentry, Option.bind_eq_some_iff] at h
            obtain ⟨m₃, hfree, h⟩ := h
            simp at h
            refine ⟨.failed (-ENOEXEC), m₃, ?_, h.1.symm, h.2.symm⟩
            simp [execSpace, hnew, hzero, hload, hentry, hfree]
          · simp only [if_neg hentry, ite_bind, Option.bind_eq_some_iff] at h
            obtain ⟨m₃, hfree, m₄, hstack, h⟩ := h
            simp only [Option.pure_def, Option.some.injEq, Prod.mk.injEq] at h
            simp at hfree hstack
            refine ⟨.entered newDir entry brk, m₄, ?_, h.1.symm, ?_⟩
            · by_cases hdir : (k.procTable k.processCurrent).pageDir = k.kernelDir
              · simp [hdir] at hfree
                simp [execSpace, hnew, hzero, hload, hentry, hdir, hfree, hstack]
              · simp [hdir] at hfree
                simp [execSpace, hnew, hzero, hload, hentry, hdir, hfree, hstack]
            · rw [← h.2]
              simp [withExec, taskCurrent]

theorem sysExecve_cases {path : ℕ} {o : ExecOutcome} (h : k.sysExecve path = some (o, k')) :
    (o = .error (-EFAULT) ∧ k' = k) ∨ ∃ name, k.processExecve name = some (o, k') := by
  simp only [sysExecve, Option.bind_eq_bind, Option.bind_eq_some_iff] at h
  obtain ⟨ok, hok, h⟩ := h
  cases ok with
  | false =>
      simp at h
      exact Or.inl ⟨h.1.symm, h.2.symm⟩
  | true =>
      simp only [Bool.not_true, Bool.false_eq_true, if_false, Option.bind_eq_some_iff] at h
      obtain ⟨name, _, h⟩ := h
      exact Or.inr ⟨name, h⟩

/-! ## Files -/

theorem openFileAlloc_cases (k : Kernel) (node : ℕ) :
    ((∀ f, (k.fileTable f).refcount ≠ 0) ∧ k.openFileAlloc node = (none, k)) ∨
      ∃ f, (k.fileTable f).refcount = 0 ∧
        k.openFileAlloc node = (some f, k.modifyFile f fun _ ↦ ⟨some node, 0, 1⟩) := by
  cases hfind : (List.finRange MAX_OPEN_FILES).find? fun i ↦ (k.fileTable i).refcount = 0 with
  | none =>
      refine Or.inl ⟨fun f ↦ ?_, by simp only [openFileAlloc, hfind]⟩
      have := List.find?_eq_none.mp hfind f (List.mem_finRange f)
      simpa using this
  | some f =>
      have := List.find?_some hfind
      exact Or.inr ⟨f, by simpa using this, by simp only [openFileAlloc, hfind]⟩

/-- An error leaves the kernel as it was; a descriptor is a free one of the
caller and gets an entry without references. -/
theorem sysOpen_cases {path : ℕ} {r : ℤ} (h : k.sysOpen path = some (r, k')) :
    (r < 0 ∧ k' = k) ∨ ∃ node fd file,
      (k.machine.readString path PATH_MAX).bind k.vfsFinddir = some node ∧
      r = (fd : Fin MAX_FDS).val ∧ (k.procTable k.processCurrent).fds fd = none ∧
      (k.fileTable file).refcount = 0 ∧
      k' = (k.modifyFile file fun _ ↦ ⟨some node, 0, 1⟩).modifyProc k.processCurrent fun q ↦
        { q with fds := Function.update q.fds fd (some file) } := by
  simp only [sysOpen, Option.bind_eq_bind, Option.bind_eq_some_iff] at h
  obtain ⟨ok, hok, h⟩ := h
  cases ok with
  | false =>
      simp at h
      exact Or.inl ⟨by rw [← h.1]; decide, h.2.symm⟩
  | true =>
      simp only [Bool.not_true, Bool.false_eq_true, if_false, Option.bind_eq_some_iff] at h
      obtain ⟨name, hname, h⟩ := h
      cases hnode : k.vfsFinddir name with
      | none =>
          simp [hnode] at h
          exact Or.inl ⟨by rw [← h.1]; decide, h.2.symm⟩
      | some node =>
          simp only [hnode] at h
          split at h
          · simp at h
            exact Or.inl ⟨by rw [← h.1]; decide, h.2.symm⟩
          · next fd hfd =>
              obtain ⟨_, halloc⟩ | ⟨file, hzero, halloc⟩ := k.openFileAlloc_cases node
              · simp [halloc] at h
                exact Or.inl ⟨by rw [← h.1]; decide, h.2.symm⟩
              · simp [halloc] at h
                have hfree := List.find?_some hfd
                simp only [decide_eq_true_eq] at hfree
                exact Or.inr ⟨node, fd, file, by simp [hname, hnode], h.1.symm, hfree.2, hzero,
                  h.2.symm⟩

theorem sysClose_cases (k : Kernel) (fd : ℕ) :
    (k.getFd fd = none ∧ k.sysClose fd = (-EBADF, k)) ∨ ∃ (i : Fin MAX_FDS) (file : _),
      i.val = fd ∧ (k.procTable k.processCurrent).fds i = some file ∧
      k.sysClose fd = (0, (k.modifyProc k.processCurrent fun q ↦
        { q with fds := Function.update q.fds i none }).modifyFile file OpenFile.release) := by
  cases hfd : k.getFd fd with
  | none => exact Or.inl ⟨rfl, by simp [sysClose, hfd]⟩
  | some file =>
      right
      unfold getFd at hfd
      split at hfd
      · next hlt =>
          refine ⟨⟨fd, hlt⟩, file, rfl, hfd, ?_⟩
          have hget : k.getFd fd = some file := by simp [getFd, hlt, hfd]
          simp only [sysClose, hget, openFileRelease_some]
          congr 3
          funext q
          congr 1
          funext i
          simp [Function.update_apply, Fin.ext_iff]
      · exact nomatch hfd

/-- A read moves the offset of its file, if it does anything. -/
theorem sysRead_cases {fd buf len : ℕ} {r : ℤ} (h : k.sysRead fd buf len = some (r, k')) :
    k' = k ∨ ∃ file got m, k.getFd fd = some file ∧ k' = (k.withMachine m).modifyFile file fun f ↦
      { f with offset := (f.offset + got) % 2 ^ 32 } := by
  unfold sysRead at h
  cases hfd : k.getFd fd with
  | none =>
      simp [hfd] at h
      exact Or.inl h.2.symm
  | some file =>
      simp only [hfd, Option.bind_eq_bind, Option.bind_eq_some_iff] at h
      obtain ⟨ok, hok, h⟩ := h
      cases ok with
      | false =>
          simp at h
          exact Or.inl h.2.symm
      | true =>
          simp only [Bool.not_true, Bool.false_eq_true, if_false] at h
          split at h
          · simp at h
            exact Or.inl h.2.symm
          · next node hnode =>
              simp only [Option.bind_eq_some_iff] at h
              obtain ⟨m, hm, h⟩ := h
              simp at h
              exact Or.inr ⟨file, _, m, rfl, h.2.symm⟩

/-! ## The break and kernel tasks -/

/-- `sbrk` moves the break of the caller and changes memory, nothing else. -/
theorem sysSbrk_cases {increment : BitVec 32} {r : ℤ}
    (h : k.sysSbrk increment = some (r, k')) :
    ∃ m b, k' = (k.withMachine m).modifyProc k.processCurrent fun q ↦ { q with brk := b } := by
  have hsame : ∀ m, (k.withMachine m) = (k.withMachine m).modifyProc k.processCurrent fun q ↦
      { q with brk := (k.procTable k.processCurrent).brk } := by
    intro m
    simp only [modifyProc, withMachine, Function.update_eq_self]
  simp only [sysSbrk] at h
  split at h
  · simp at h
    exact ⟨k.machine, _, by rw [← h.2]; exact hsame k.machine⟩
  · split at h
    · split at h
      · simp at h
        exact ⟨k.machine, _, by rw [← h.2]; exact hsame k.machine⟩
      · simp only [Option.bind_eq_bind, Option.bind_eq_some_iff] at h
        obtain ⟨loop, hloop, h⟩ := h
        split at h
        · simp at h
          exact ⟨loop.machine, _, by rw [← h.2]; exact hsame loop.machine⟩
        · simp only [Option.pure_def, Option.some.injEq, Prod.mk.injEq] at h
          exact ⟨loop.machine, _, h.2.symm⟩
    · split at h
      · simp at h
        exact ⟨k.machine, _, by rw [← h.2]; exact hsame k.machine⟩
      · split at h
        · simp at h
        · simp only [Option.bind_eq_bind, Option.bind_eq_some_iff] at h
          obtain ⟨m, hm, h⟩ := h
          simp only [Option.pure_def, Option.some.injEq, Prod.mk.injEq] at h
          exact ⟨m, _, h.2.symm⟩

/-- `task_create` adds the new task behind the running one. -/
theorem taskCreate_cases {main flags : ℕ} (h : k.taskCreate main flags = some k') :
    ∃ heap m regs, k.machine.memset (k.heap.kmallocAligned KSTACK_SIZE).1 0 KSTACK_SIZE = some m ∧
      heap = (k.heap.kmallocAligned KSTACK_SIZE).2 ∧
      k' = (({ k with createdCount := k.createdCount + 1, heap := heap }.withMachine m).setTask
        ⟨regs, k.next (.created k.createdCount)⟩ (.created k.createdCount)).taskAdd
          (.created k.createdCount) := by
  simp only [taskCreate, Option.bind_eq_bind, Option.bind_eq_some_iff] at h
  obtain ⟨m, hm, h⟩ := h
  simp only [Option.pure_def, Option.some.injEq] at h
  exact ⟨_, m, _, hm, rfl, h.symm⟩

/-! ## Calls that leave the process tree and the ring alone -/

structure Quiet (k k' : Kernel) : Prop where
  running : k'.runningTask = k.runningTask
  created : k'.createdCount = k.createdCount
  nextPid : k'.nextPid = k.nextPid
  heap : k'.heap = k.heap
  next : k'.next = k.next
  pid : ∀ i, (k'.procTable i).pid = (k.procTable i).pid
  ppid : ∀ i, (k'.procTable i).ppid = (k.procTable i).ppid
  state : ∀ i, (k'.procTable i).state = (k.procTable i).state
  exitCode : ∀ i, (k'.procTable i).exitCode = (k.procTable i).exitCode
  kernelStack : ∀ i, (k'.procTable i).kernelStack = (k.procTable i).kernelStack

theorem Quiet.refl (k : Kernel) : Quiet k k where
  running := rfl
  created := rfl
  nextPid := rfl
  heap := rfl
  next := rfl
  pid _ := rfl
  ppid _ := rfl
  state _ := rfl
  exitCode _ := rfl
  kernelStack _ := rfl

/-- Descriptors, the break and the directory are no part of the tree. -/
theorem quiet_modifyProc (p : Fin MAX_PROCS) (f : Process → Process)
    (hpid : ∀ q, (f q).pid = q.pid) (hppid : ∀ q, (f q).ppid = q.ppid)
    (hstate : ∀ q, (f q).state = q.state) (hexit : ∀ q, (f q).exitCode = q.exitCode)
    (hstack : ∀ q, (f q).kernelStack = q.kernelStack) (htask : ∀ q, (f q).task = q.task) :
    Quiet k (k.modifyProc p f) where
  running := rfl
  created := rfl
  nextPid := rfl
  heap := rfl
  next := by
    funext r
    cases r with
    | main => rfl
    | created n => rfl
    | proc i =>
        simp only [next, task, modifyProc_apply]
        split
        · next h => rw [h, htask]
        · rfl
  pid i := by simp only [modifyProc_apply]; split <;> simp_all
  ppid i := by simp only [modifyProc_apply]; split <;> simp_all
  state i := by simp only [modifyProc_apply]; split <;> simp_all
  exitCode i := by simp only [modifyProc_apply]; split <;> simp_all
  kernelStack i := by simp only [modifyProc_apply]; split <;> simp_all

theorem Quiet.trans {k'' : Kernel} (h : Quiet k k') (h' : Quiet k' k'') : Quiet k k'' where
  running := h'.running.trans h.running
  created := h'.created.trans h.created
  nextPid := h'.nextPid.trans h.nextPid
  heap := h'.heap.trans h.heap
  next := h'.next.trans h.next
  pid i := (h'.pid i).trans (h.pid i)
  ppid i := (h'.ppid i).trans (h.ppid i)
  state i := (h'.state i).trans (h.state i)
  exitCode i := (h'.exitCode i).trans (h.exitCode i)
  kernelStack i := (h'.kernelStack i).trans (h.kernelStack i)

theorem quiet_withMachine (k : Kernel) (m : Machine) : Quiet k (k.withMachine m) where
  running := rfl
  created := rfl
  nextPid := rfl
  heap := rfl
  next := k.withMachine_next m
  pid _ := rfl
  ppid _ := rfl
  state _ := rfl
  exitCode _ := rfl
  kernelStack _ := rfl

theorem quiet_modifyRegs (k : Kernel) (r : TaskRef) (f : TaskRegs → TaskRegs) :
    Quiet k (k.modifyRegs r f) where
  running := by simp
  created := by simp
  nextPid := by simp
  heap := by simp
  next := by simp
  pid i := by simp
  ppid i := by simp
  state i := by simp
  exitCode i := by simp
  kernelStack i := by simp

theorem quiet_tssSetStack (k : Kernel) (esp0 : ℕ) : Quiet k (k.tssSetStack esp0) where
  running := rfl
  created := rfl
  nextPid := rfl
  heap := rfl
  next := by funext r; simp only [next, tssSetStack_task]
  pid _ := rfl
  ppid _ := rfl
  state _ := rfl
  exitCode _ := rfl
  kernelStack _ := rfl

theorem quiet_modifyFile (k : Kernel) (f : Fin MAX_OPEN_FILES) (g : OpenFile → OpenFile) :
    Quiet k (k.modifyFile f g) where
  running := rfl
  created := rfl
  nextPid := rfl
  heap := rfl
  next := by funext r; simp only [next, modifyFile_task]
  pid _ := rfl
  ppid _ := rfl
  state _ := rfl
  exitCode _ := rfl
  kernelStack _ := rfl

theorem quiet_execBuf (k : Kernel) (image : Image) : Quiet k { k with execBuf := image } where
  running := rfl
  created := rfl
  nextPid := rfl
  heap := rfl
  next := by funext r; cases r <;> rfl
  pid _ := rfl
  ppid _ := rfl
  state _ := rfl
  exitCode _ := rfl
  kernelStack _ := rfl

theorem withExec_quiet (image : Image) (dir brk : ℕ) (m : Machine) :
    Quiet k (k.withExec image dir brk m) := by
  refine (?_ : Quiet k _).trans (quiet_tssSetStack _ _)
  refine (?_ : Quiet k _).trans (quiet_modifyProc _ _ (fun _ ↦ rfl) (fun _ ↦ rfl) (fun _ ↦ rfl)
    (fun _ ↦ rfl) (fun _ ↦ rfl) (fun _ ↦ rfl))
  refine (?_ : Quiet k _).trans (quiet_modifyRegs _ _ _)
  refine (?_ : Quiet k _).trans (quiet_modifyRegs _ _ _)
  refine (?_ : Quiet k _).trans (quiet_modifyProc _ _ (fun _ ↦ rfl) (fun _ ↦ rfl) (fun _ ↦ rfl)
    (fun _ ↦ rfl) (fun _ ↦ rfl) (fun _ ↦ rfl))
  exact (quiet_execBuf k image).trans (quiet_withMachine _ m)

theorem sysExecve_quiet {path : ℕ} {o : ExecOutcome} (h : k.sysExecve path = some (o, k')) :
    Quiet k k' := by
  obtain ⟨-, rfl⟩ | ⟨name, h⟩ := sysExecve_cases h
  · exact .refl k'
  obtain ⟨-, -, rfl⟩ | ⟨prog, -, ⟨-, -, rfl⟩ | ⟨-, space, m, -, hspace⟩⟩ := processExecve_cases h
  · exact .refl k'
  · exact .refl k'
  · cases space with
    | failed e =>
        obtain ⟨-, rfl⟩ := hspace
        exact (quiet_execBuf k _).trans (quiet_withMachine _ m)
    | entered dir entry brk =>
        obtain ⟨-, rfl⟩ := hspace
        exact withExec_quiet _ _ _ _

theorem sysOpen_quiet {path : ℕ} {r : ℤ} (h : k.sysOpen path = some (r, k')) : Quiet k k' := by
  obtain ⟨-, rfl⟩ | ⟨node, fd, file, -, -, -, -, rfl⟩ := sysOpen_cases h
  · exact .refl k'
  · exact (quiet_modifyFile k _ _).trans (quiet_modifyProc _ _ (fun _ ↦ rfl) (fun _ ↦ rfl)
      (fun _ ↦ rfl) (fun _ ↦ rfl) (fun _ ↦ rfl) (fun _ ↦ rfl))

theorem sysClose_quiet (k : Kernel) (fd : ℕ) : Quiet k (k.sysClose fd).2 := by
  obtain ⟨-, h⟩ | ⟨i, file, -, -, h⟩ := k.sysClose_cases fd
  · rw [h]
    exact .refl k
  · rw [h]
    refine (?_ : Quiet k _).trans (quiet_modifyFile _ _ _)
    exact quiet_modifyProc _ _ (fun _ ↦ rfl) (fun _ ↦ rfl) (fun _ ↦ rfl) (fun _ ↦ rfl)
      (fun _ ↦ rfl) (fun _ ↦ rfl)

theorem sysRead_quiet {fd buf len : ℕ} {r : ℤ} (h : k.sysRead fd buf len = some (r, k')) :
    Quiet k k' := by
  obtain rfl | ⟨file, got, m, -, rfl⟩ := sysRead_cases h
  · exact .refl k'
  · exact (quiet_withMachine k m).trans (quiet_modifyFile _ _ _)

theorem sysSbrk_quiet {increment : BitVec 32} {r : ℤ} (h : k.sysSbrk increment = some (r, k')) :
    Quiet k k' := by
  obtain ⟨m, b, rfl⟩ := sysSbrk_cases h
  exact (quiet_withMachine k m).trans (quiet_modifyProc _ _ (fun _ ↦ rfl) (fun _ ↦ rfl)
    (fun _ ↦ rfl) (fun _ ↦ rfl) (fun _ ↦ rfl) (fun _ ↦ rfl))

end Kernel

end EclipseOS
