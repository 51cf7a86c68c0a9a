import EclipseOS.Contexts
import EclipseOS.Draws

/-!
# Whose address space is loaded

Only `process_execve`, `process_exit` and `switch_task` load CR3.  While a process
runs it is its own page directory, and so it is in every context that is saved.
-/

namespace EclipseOS

namespace Machine

variable {m m' m'' : Machine} {va w d n dir : ℕ}

/-- The directory stays loaded, and the allocator starts its search inside memory. -/
structure Stays (m m' : Machine) : Prop where
  cr3 : m'.cr3 = m.cr3
  lastAlloc : m.lastAlloc ≤ m.totalFrames → m'.lastAlloc ≤ m'.totalFrames

namespace Stays

theorem refl (m : Machine) : m.Stays m := ⟨rfl, id⟩

theorem trans (h : m.Stays m') (h' : m'.Stays m'') : m.Stays m'' :=
  ⟨h'.cr3.trans h.cr3, fun hlast ↦ h'.lastAlloc (h.lastAlloc hlast)⟩

theorem log (m : Machine) (c : Call) : m.Stays (m.log c) := ⟨rfl, id⟩

theorem free (m : Machine) (addr : ℕ) : m.Stays (m.pmmFreeFrame addr) := by
  refine ⟨pmmFreeFrame_cr3 m addr, fun hlast ↦ ?_⟩
  rw [pmmFreeFrame_lastAlloc, pmmFreeFrame_totalFrames]
  exact (Nat.min_le_left _ _).trans hlast

theorem alloc (m : Machine) : m.Stays m.pmmAllocFrame.2 :=
  ⟨pmmAllocFrame_cr3 m, (pmmAllocFrame_takes m).lastAlloc⟩

theorem foldlM {σ ι : Type} {π : σ → Machine} {step : σ → ι → Option σ}
    (hstep : ∀ s i s', step s i = some s' → (π s).Stays (π s')) {l : List ι} {s s' : σ}
    (h : l.foldlM step s = some s') : (π s).Stays (π s') :=
  Loop.foldlM_rel refl trans hstep h

end Stays

theorem Stores.stays (h : m.Stores m') : m.Stays m' := by
  rw [h]
  exact ⟨rfl, id⟩

theorem Draws.stays (h : Draws m m') : m.Stays m' := by
  induction h with
  | log m c => exact .log m c
  | alloc m => exact .alloc m
  | stores h => exact h.stays
  | trans _ _ ih ih' => exact ih.trans ih'

/-! ## Paging -/

/-- The new directory is a frame. -/
theorem pagingNewDirectory_aligned (h : m.pagingNewDirectory = some (dir, m'))
    (hlast : m.lastAlloc ≤ m.totalFrames) : dir &&& PAGE_MASK = dir := by
  rw [(pagingNewDirectory_before h).1]
  obtain ⟨i, hi, halloc⟩ | ⟨-, halloc⟩ := pmmAllocFrame_cases hlast
  · have hlt := ((mem_free m).mp hi).1
    have htotal := m.totalFrames_lt
    rw [halloc, PAGE_MASK, PAGE_SIZE, LittleEndian.and_page_mask (by omega)]
    omega
  · rw [halloc]
    exact Nat.zero_and _

theorem freeEntry_stays (h : m.freeEntry d = some m') : m.Stays m' := by
  simp only [freeEntry, Option.bind_eq_bind, Option.bind_eq_some_iff] at h
  obtain ⟨pte, -, h⟩ := h
  split at h
  · rw [Option.pure_def, Option.some.injEq] at h
    exact h ▸ Stays.refl m
  · rw [Option.pure_def, Option.some.injEq] at h
    exact h ▸ Stays.free m _

theorem freeTable_stays (h : m.freeTable d = some m') : m.Stays m' := by
  simp only [freeTable, Option.bind_eq_bind, Option.bind_eq_some_iff] at h
  obtain ⟨pde, -, h⟩ := h
  split at h
  · rw [Option.pure_def, Option.some.injEq] at h
    exact h ▸ Stays.refl m
  · simp only [Option.bind_eq_some_iff, Option.pure_def, Option.some.injEq] at h
    obtain ⟨m₁, h₁, m₂, h₂, rfl⟩ := h
    exact ((pagingMap_draws h₁).stays.trans
      (Stays.foldlM (π := id) (fun _ _ _ ↦ freeEntry_stays) h₂)).trans (Stays.free m₂ _)

theorem pagingFreeDirectory_stays (h : m.pagingFreeDirectory dir = some m') : m.Stays m' := by
  simp only [pagingFreeDirectory, Option.bind_eq_bind, Option.bind_eq_some_iff] at h
  obtain ⟨m₁, h₁, m₂, h₂, m₃, h₃, h₄⟩ := h
  exact (((((Stays.log m _).trans (pagingMap_draws h₁).stays).trans
    (Stays.foldlM (π := id) (fun _ _ _ ↦ freeTable_stays) h₂)).trans (Stays.free m₂ _)).trans
    (pagingUnmap_draws h₃).stays).trans (pagingUnmap_draws h₄).stays

/-! ## The other loops over pages -/

theorem memcpy_stays {src : ℕ} (h : m.memcpy va src n = some m') : m.Stays m' := by
  induction n generalizing m va src with
  | zero =>
      rw [memcpy, Option.some.injEq] at h
      exact h ▸ Stays.refl m
  | succ n ih =>
      simp only [memcpy, Option.bind_eq_bind, Option.bind_eq_some_iff] at h
      obtain ⟨b, -, m₁, h₁, h₂⟩ := h
      exact (store8_stores h₁).stays.trans (ih h₂)

theorem growPage_stays {s s' : SbrkLoop} (h : growPage s va = some s') :
    s.machine.Stays s'.machine := by
  rw [growPage] at h
  split at h
  · rw [Option.pure_def, Option.some.injEq] at h
    exact h ▸ Stays.refl _
  · simp only [Option.bind_eq_bind, Option.bind_eq_some_iff] at h
    obtain ⟨phys, -, h⟩ := h
    split at h
    · rw [Option.pure_def, Option.some.injEq] at h
      exact h ▸ Stays.refl _
    · split at h
      · rw [Option.pure_def, Option.some.injEq] at h
        exact h ▸ Stays.alloc _
      · simp only [Option.bind_eq_some_iff, Option.pure_def, Option.some.injEq] at h
        obtain ⟨m₁, h₁, m₂, h₂, rfl⟩ := h
        exact ((Stays.alloc _).trans (pagingMap_draws h₁).stays).trans (memset_stores h₂).stays

theorem shrinkPage_stays (h : m.shrinkPage va = some m') : m.Stays m' := by
  simp only [shrinkPage, Option.bind_eq_bind, Option.bind_eq_some_iff] at h
  obtain ⟨phys, -, h⟩ := h
  split at h
  · rw [Option.pure_def, Option.some.injEq] at h
    exact h ▸ Stays.refl m
  · simp only [Option.bind_eq_some_iff, Option.pure_def, Option.some.injEq] at h
    obtain ⟨m₁, h₁, rfl⟩ := h
    exact (pagingUnmap_draws h₁).stays.trans (Stays.free m₁ _)

end Machine

namespace Kernel

open Machine

variable {m m' : Machine} {dir : ℕ}

theorem copyPage_stays {d t : ℕ} {s s' : CopyLoop} (h : copyPage d s t = some s') :
    s.machine.Stays s'.machine := by
  rw [copyPage] at h
  split at h
  · rw [Option.pure_def, Option.some.injEq] at h
    exact h ▸ Stays.refl _
  · simp only [Option.bind_eq_bind, Option.bind_eq_some_iff] at h
    obtain ⟨pte, -, h⟩ := h
    split at h
    · rw [Option.pure_def, Option.some.injEq] at h
      exact h ▸ Stays.refl _
    · split at h
      · rw [Option.pure_def, Option.some.injEq] at h
        exact h ▸ Stays.refl _
      · split at h
        · rw [Option.pure_def, Option.some.injEq] at h
          exact h ▸ Stays.alloc _
        · simp only [Option.bind_eq_some_iff, Option.pure_def, Option.some.injEq] at h
          obtain ⟨m₁, h₁, m₂, h₂, rfl⟩ := h
          exact ((Stays.alloc _).trans (pagingMap_draws h₁).stays).trans (memcpy_stays h₂)

theorem copyTable_stays {d : ℕ} {s s' : CopyLoop} (h : copyTable s d = some s') :
    s.machine.Stays s'.machine := by
  rw [copyTable] at h
  split at h
  · rw [Option.pure_def, Option.some.injEq] at h
    exact h ▸ Stays.refl _
  · simp only [Option.bind_eq_bind, Option.bind_eq_some_iff] at h
    obtain ⟨pde, -, h⟩ := h
    split at h
    · rw [Option.pure_def, Option.some.injEq] at h
      exact h ▸ Stays.refl _
    · exact Stays.foldlM (π := CopyLoop.machine) (fun _ _ _ ↦ copyPage_stays) h

theorem copyPages_stays {s : CopyLoop} (h : copyPages m = some s) : m.Stays s.machine :=
  Stays.foldlM (π := CopyLoop.machine) (fun _ _ _ ↦ copyTable_stays) h

/-- The directory that `paging_current_directory` read is loaded again. -/
theorem installPages_stays {copyList : List CopyEntry} (hcr3 : m.cr3 &&& PAGE_MASK = m.cr3)
    (h : installPages m dir copyList = some m') : m.Stays m' := by
  simp only [installPages, Option.bind_eq_bind, Option.bind_eq_some_iff, Option.pure_def,
    Option.some.injEq] at h
  obtain ⟨m₁, h₁, rfl⟩ := h
  have hpages : (m.pagingSwitchDirectory dir).Stays m₁ :=
    Stays.foldlM (π := id) (fun _ _ _ h ↦ (pagingMap_draws h).stays) h₁
  exact ⟨hcr3, hpages.lastAlloc⟩

theorem storeWords_stays {addr : ℕ} {ws : List ℕ} (h : storeWords m addr ws = some m') :
    m.Stays m' := by
  induction ws generalizing m addr with
  | nil =>
      rw [storeWords, Option.some.injEq] at h
      exact h ▸ Stays.refl m
  | cons w ws ih =>
      simp only [storeWords, Option.bind_eq_bind, Option.bind_eq_some_iff] at h
      obtain ⟨m₁, h₁, h₂⟩ := h
      exact (store32_stores h₁).stays.trans (ih h₂)

theorem mapStackPage_stays {i : ℕ} (h : mapStackPage m i = some m') : m.Stays m' := by
  rw [mapStackPage] at h
  exact (Stays.alloc m).trans (pagingMap_draws h).stays

/-- `process_fork` comes back to the directory of the parent, with one for the child. -/
theorem forkSpace_stays {o : SpaceOutcome} (hcr3 : m.cr3 &&& PAGE_MASK = m.cr3)
    (h : forkSpace m = some (o, m')) : m.Stays m' ∧
      ∀ dir, o = .built dir → dir ≠ 0 ∧ (m.lastAlloc ≤ m.totalFrames → dir &&& PAGE_MASK = dir) := by
  simp only [forkSpace, Option.bind_eq_bind, Option.bind_eq_some_iff] at h
  obtain ⟨⟨dir, m₁⟩, hnew, h⟩ := h
  have hstays := (pagingNewDirectory_draws hnew).stays
  have hmask := pagingNewDirectory_aligned hnew
  by_cases h0 : dir = 0
  · simp only [h0, if_true, Option.pure_def, Option.some.injEq, Prod.mk.injEq] at h
    obtain ⟨rfl, rfl⟩ := h
    exact ⟨hstays, fun _ ho ↦ SpaceOutcome.noConfusion ho⟩
  · simp only [if_neg h0, Option.bind_eq_some_iff] at h
    obtain ⟨s, hs, h⟩ := h
    have hcopied := hstays.trans (copyPages_stays hs)
    split at h
    · simp only [Option.bind_eq_some_iff, Option.pure_def, Option.some.injEq, Prod.mk.injEq] at h
      obtain ⟨m₂, h₂, rfl, rfl⟩ := h
      have hfreed : ∀ (l : List CopyEntry) (n : Machine),
          n.Stays (l.foldl (fun m e ↦ m.pmmFreeFrame e.frame) n) := by
        intro l
        induction l with
        | nil => exact Stays.refl
        | cons e l ih => exact fun n ↦ (Stays.free n e.frame).trans (ih _)
      exact ⟨(hcopied.trans (hfreed _ _)).trans (pagingFreeDirectory_stays h₂),
        fun _ ho ↦ SpaceOutcome.noConfusion ho⟩
    · simp only [Option.bind_eq_some_iff, Option.pure_def, Option.some.injEq, Prod.mk.injEq] at h
      obtain ⟨m₂, h₂, rfl, rfl⟩ := h
      refine ⟨hcopied.trans (installPages_stays (by rw [hcopied.cr3]; exact hcr3) h₂), ?_⟩
      rintro _ ho
      obtain rfl := SpaceOutcome.built.inj ho
      exact ⟨h0, hmask⟩

/-- A call of `process_execve` ends in the new directory or, when it fails, where it
was or in the directory of the caller. -/
theorem execSpace_stays {data : Image} {size kernelDir oldDir : ℕ} {space : ExecSpace}
    (hlast : m.lastAlloc ≤ m.totalFrames)
    (h : execSpace m data size kernelDir oldDir = some (space, m')) :
    m'.lastAlloc ≤ m'.totalFrames ∧ ((∃ e, space = .failed e ∧ (m'.cr3 = m.cr3 ∨ m'.cr3 = oldDir)) ∨
      ∃ dir entry brk, space = .entered dir entry brk ∧ m'.cr3 = dir ∧ dir ≠ 0 ∧
        dir &&& PAGE_MASK = dir) := by
  cases space with
  | entered dir entry brk =>
      obtain ⟨m₁, m₂, m₃, hnew, h0, hload, -, hfree, hmap⟩ := execSpace_entered.mp h
      have hstays := (pagingNewDirectory_draws hnew).stays
      have hmask := pagingNewDirectory_aligned hnew
      have hload' : (m₁.pagingSwitchDirectory dir).Stays m₂ := (elfLoad_draws hload).stays
      have hfree' : m₂.Stays m₃ := by
        split at hfree
        · exact pagingFreeDirectory_stays hfree
        · rw [Option.some.injEq] at hfree
          exact hfree ▸ Stays.refl m₂
      have hall := (hload'.trans hfree').trans
        (Stays.foldlM (π := id) (fun _ _ _ ↦ mapStackPage_stays) hmap)
      exact ⟨hall.lastAlloc (hstays.lastAlloc hlast),
        Or.inr ⟨_, _, _, rfl, hall.cr3, h0, hmask hlast⟩⟩
  | failed e =>
      simp only [execSpace, Option.bind_eq_bind, Option.bind_eq_some_iff] at h
      obtain ⟨⟨dir, m₁⟩, hnew, h⟩ := h
      have hstays := (pagingNewDirectory_draws hnew).stays
      by_cases h0 : dir = 0
      · simp only [h0, if_true, Option.pure_def, Option.some.injEq, Prod.mk.injEq] at h
        rw [← h.2]
        exact ⟨hstays.lastAlloc hlast, Or.inl ⟨_, rfl, Or.inl hstays.cr3⟩⟩
      · simp only [if_neg h0, Option.bind_eq_some_iff] at h
        obtain ⟨⟨entry, brk, m₂⟩, hload, h⟩ := h
        have hload' : (m₁.pagingSwitchDirectory dir).Stays m₂ := (elfLoad_draws hload).stays
        by_cases hentry : entry = 0
        · simp only [hentry, if_true, Option.bind_eq_some_iff, Option.pure_def, Option.some.injEq,
            Prod.mk.injEq] at h
          obtain ⟨m₃, h₃, -, rfl⟩ := h
          have hfree := pagingFreeDirectory_stays h₃
          exact ⟨hfree.lastAlloc (hload'.lastAlloc (hstays.lastAlloc hlast)),
            Or.inl ⟨_, rfl, Or.inr hfree.cr3⟩⟩
        · rw [if_neg hentry] at h
          split at h <;> simp [Option.bind_eq_some_iff] at h

theorem exitSpace_stays {kernelDir : ℕ} (h : exitSpace m kernelDir dir = some m') :
    m.lastAlloc ≤ m.totalFrames → m'.lastAlloc ≤ m'.totalFrames := by
  rw [exitSpace] at h
  split at h
  · exact (pagingFreeDirectory_stays h).lastAlloc
  · rw [Option.some.injEq] at h
    rw [← h]
    exact id

/-! ## The directories of the processes -/

open EclipseOS.System (Owns)

variable {k k' : Kernel}

/-- Every process has a directory of its own name: the loaded one is that of the process
that runs, and the saved contexts of the others hold theirs. -/
structure Spaces (k : Kernel) : Prop where
  lastAlloc : k.machine.lastAlloc ≤ k.machine.totalFrames
  dir : ∀ p, (k.procTable p).state = .run →
    (k.procTable p).pageDir ≠ 0 ∧ (k.procTable p).pageDir &&& PAGE_MASK = (k.procTable p).pageDir
  loaded : ∀ p, Owns k.runningTask p → (k.procTable p).state = .run →
    k.machine.cr3 = (k.procTable p).pageDir
  saved : ∀ r p, Owns r p → (k.procTable p).state = .run → r ≠ k.runningTask →
    (k.task r).regs.cr3 = (k.procTable p).pageDir

theorem owns_taskOf (p : Fin MAX_PROCS) : ∃ r, Owns r p := by
  by_cases hp : p = 0
  · exact ⟨.main, Or.inl ⟨rfl, hp⟩⟩
  · exact ⟨.proc p, Or.inr ⟨rfl, hp⟩⟩

/-- The running task goes on; a process that was not there has its directory in its context. -/
theorem Spaces.goesOn (h : k.Spaces) (hm : k.machine.Stays k'.machine)
    (hrun : k'.runningTask = k.runningTask)
    (hentry : ∀ r p, Owns r p → (k'.procTable p).state = .run →
      ((k.procTable p).state = .run ∧ (k'.procTable p).pageDir = (k.procTable p).pageDir ∧
        (r ≠ k.runningTask → (k'.task r).regs = (k.task r).regs)) ∨
      (r ≠ k.runningTask ∧ (k'.procTable p).pageDir ≠ 0 ∧
        (k'.procTable p).pageDir &&& PAGE_MASK = (k'.procTable p).pageDir ∧
        (k'.task r).regs.cr3 = (k'.procTable p).pageDir)) : k'.Spaces where
  lastAlloc := hm.lastAlloc h.lastAlloc
  dir p hp := by
    obtain ⟨r, hr⟩ := owns_taskOf p
    obtain ⟨hold, hdir, -⟩ | ⟨-, h0, hmask, -⟩ := hentry r p hr hp
    · rw [hdir]
      exact h.dir p hold
    · exact ⟨h0, hmask⟩
  loaded p hr hp := by
    rw [hrun] at hr
    obtain ⟨hold, hdir, -⟩ | ⟨hne, -⟩ := hentry _ p hr hp
    · rw [hdir, hm.cr3]
      exact h.loaded p hr hold
    · exact absurd rfl hne
  saved r p hr hp hne := by
    rw [hrun] at hne
    obtain ⟨hold, hdir, hregs⟩ | ⟨-, -, -, hcr3⟩ := hentry r p hr hp
    · rw [hdir, hregs hne]
      exact h.saved r p hr hold hne
    · exact hcr3

/-- Handing the processor over loads the directory of the next process. -/
theorem Spaces.yield {cpu : TaskRegs} (h : k.Spaces) (hy : k.yield cpu = some k') :
    k'.Spaces := by
  have hyield := yield_spec hy
  have hentry : ∀ p, (k'.procTable p).state = (k.procTable p).state ∧
      (k'.procTable p).pageDir = (k.procTable p).pageDir := by
    intro p
    rw [hyield.procTable]
    exact ⟨rfl, rfl⟩
  by_cases hne : k'.runningTask = k.runningTask
  · obtain ⟨t, ht, ⟨-, rfl⟩ | ⟨hne', -⟩⟩ := yield_cases hy
    · exact h
    · exact absurd (Option.some.inj (ht.symm.trans hyield.running)) (hne ▸ hne')
  · obtain ⟨-, hsaved, hmachine⟩ := yield_context hy hne
    have hcr3 : ∀ p, Owns k'.runningTask p → (k.procTable p).state = .run →
        k'.machine.cr3 = (k.procTable p).pageDir := by
      intro p hr hp
      have hregs := h.saved _ p hr hp hne
      rw [hmachine, loadSpace, if_neg (by rw [hregs]; exact (h.dir p hp).1)]
      exact hregs
    exact {
      lastAlloc := by
        rw [hmachine, loadSpace]
        split <;> exact h.lastAlloc
      dir := fun p hp ↦ by
        rw [(hentry p).2]
        exact h.dir p ((hentry p).1 ▸ hp)
      loaded := fun p hr hp ↦ by
        rw [(hentry p).2]
        exact hcr3 p hr ((hentry p).1 ▸ hp)
      saved := fun r p hr hp hr' ↦ by
        rw [(hentry p).2]
        have hp' : (k.procTable p).state = .run := (hentry p).1 ▸ hp
        by_cases heq : r = k.runningTask
        · subst heq
          rw [hsaved]
          exact h.loaded p hr hp'
        · rw [yield_regs hy heq]
          exact h.saved r p hr hp' heq }

/-- The same with a new process in the entry `c`, which was free. -/
theorem Spaces.joined {c : Fin MAX_PROCS} (h : k.Spaces) (hs : k.Sched)
    (hslot : k.freeSlot = some c) (hm : k.machine.Stays k'.machine)
    (hrun : k'.runningTask = k.runningTask)
    (hmain : (k'.task .main).regs = (k.task .main).regs)
    (hproc : ∀ j, j ≠ c → (k'.procTable j).state = (k.procTable j).state ∧
      (k'.procTable j).pageDir = (k.procTable j).pageDir ∧
      (k'.task (.proc j)).regs = (k.task (.proc j)).regs)
    (hc : (k'.procTable c).state = .run → (k'.procTable c).pageDir ≠ 0 ∧
      (k'.procTable c).pageDir &&& PAGE_MASK = (k'.procTable c).pageDir ∧
      (k'.task (.proc c)).regs.cr3 = (k'.procTable c).pageDir) : k'.Spaces := by
  obtain ⟨hc0, hfree⟩ := freeSlot_spec hslot
  refine h.goesOn hm hrun fun r p hr hp ↦ ?_
  by_cases hpc : p = c
  · right
    subst hpc
    obtain ⟨-, h0⟩ | ⟨rfl, -⟩ := hr
    · exact absurd h0 hc0
    · refine ⟨?_, hc hp⟩
      obtain ⟨l, hl⟩ := hs.ring
      intro heq
      have hrunning := hl.scheduled_running
      rw [← heq] at hrunning
      cases hfree.symm.trans hrunning.2
  · left
    obtain ⟨hstate, hdir, hregs⟩ := hproc p hpc
    refine ⟨hstate.symm.trans hp, hdir, fun _ ↦ ?_⟩
    obtain ⟨rfl, -⟩ | ⟨rfl, -⟩ := hr
    · exact hmain
    · exact hregs

/-- A fork leaves the other contexts alone and gives the child one for its directory. -/
theorem Spaces.processFork (h : k.Spaces) (hs : k.Sched)
    (howns : Owns k.runningTask k.processCurrent) {regs : Registers} {r : ℤ}
    (hfork : k.processFork regs = some (r, k')) : k'.Spaces := by
  have hcurrent := hs.current_run
  have hcr3 : k.machine.cr3 &&& PAGE_MASK = k.machine.cr3 := by
    rw [h.loaded _ howns hcurrent]
    exact (h.dir _ hcurrent).2
  obtain ⟨-, -, rfl⟩ | ⟨c, stack, heap, hslot, -, ⟨-, -, rfl⟩ | ⟨-, -, o, m, dir, hspace, -, rfl⟩ |
    ⟨-, -, dir, m, m', hspace, hstore, rfl⟩⟩ := processFork_cases hfork
  · exact h
  · refine h.joined hs hslot (.refl _) rfl rfl (fun j hj ↦ ?_) fun hrun ↦ ?_
    · simp [task, hj]
    · rw [modifyProc_self] at hrun
      cases hrun
  · refine h.joined hs hslot (forkSpace_stays hcr3 hspace).1 rfl rfl (fun j hj ↦ ?_) fun hrun ↦ ?_
    · simp [task, hj, withFresh]
    · rw [modifyProc_self] at hrun
      cases hrun
  · obtain ⟨hstays, hdir⟩ := forkSpace_stays hcr3 hspace
    obtain ⟨h0, hmask⟩ := hdir dir rfl
    refine h.joined hs hslot ?_ (withChild_runningTask ..) ?_ (fun j hj ↦ ?_) fun _ ↦ ?_
    · rw [withChild_machine]
      exact hstays.trans (storeWords_stays hstore)
    · rw [withChild, withForked, taskAdd_regs]
      rfl
    · rw [withChild_procTable, if_neg hj]
      refine ⟨rfl, rfl, ?_⟩
      rw [withChild, withForked, taskAdd_regs]
      simp [task, hj, withFresh]
    · rw [withChild_procTable, if_pos rfl]
      refine ⟨h0, hmask h.lastAlloc, ?_⟩
      rw [withChild, withForked, taskAdd_regs]
      simp [task, forkedEntry, childEntry]

/-- A call that changes memory and nothing the contexts are tied to. -/
theorem Spaces.quiet (h : k.Spaces) (hm : k.machine.Stays k'.machine)
    (hrun : k'.runningTask = k.runningTask)
    (hentry : ∀ p, (k'.procTable p).state = .run →
      (k.procTable p).state = .run ∧ (k'.procTable p).pageDir = (k.procTable p).pageDir)
    (hregs : ∀ r, (k'.task r).regs = (k.task r).regs) : k'.Spaces :=
  h.goesOn hm hrun fun r p _ hp ↦
    Or.inl ⟨(hentry p hp).1, (hentry p hp).2, fun _ ↦ hregs r⟩

theorem Spaces.withMachine {m : Machine} (h : k.Spaces) (hm : k.machine.Stays m) :
    (k.withMachine m).Spaces :=
  h.quiet hm rfl (fun _ hp ↦ ⟨hp, rfl⟩) fun r ↦ by rw [withMachine_task]

theorem Spaces.modifyFile (h : k.Spaces) (i : Fin MAX_OPEN_FILES) (f : OpenFile → OpenFile) :
    (k.modifyFile i f).Spaces :=
  h.quiet (.refl _) rfl (fun _ hp ↦ ⟨hp, rfl⟩) fun r ↦ by rw [modifyFile_task]

/-- The directory changes with the register, or neither does. -/
theorem Spaces.sysExecve (h : k.Spaces) (hs : k.Sched)
    (howns : Owns k.runningTask k.processCurrent) {path : ℕ} {o : ExecOutcome}
    (hexec : k.sysExecve path = some (o, k')) : k'.Spaces := by
  have hkeeps := sysExecve_keeps hexec
  have hquiet := sysExecve_quiet hexec
  have hloaded := h.loaded _ howns hs.current_run
  obtain ⟨-, rfl⟩ | ⟨name, hexec⟩ := sysExecve_cases hexec
  · exact h
  obtain ⟨-, -, rfl⟩ | ⟨prog, -, ⟨-, -, rfl⟩ | ⟨-, space, m, hspace, hcase⟩⟩ :=
    processExecve_cases hexec
  · exact h
  · exact h
  obtain ⟨hlast, ⟨e, rfl, hcr3⟩ | ⟨dir, entry, brk, rfl, hcr3, h0, hmask⟩⟩ :=
    execSpace_stays h.lastAlloc hspace
  · obtain ⟨-, rfl⟩ := hcase
    refine h.quiet ⟨hcr3.elim id fun heq ↦ heq.trans hloaded.symm, fun _ ↦ hlast⟩ rfl
      (fun p hp ↦ ⟨hp, rfl⟩) fun r ↦ ?_
    cases r <;> rfl
  · obtain ⟨-, hk⟩ := hcase
    have hmachine : k'.machine = m := by simp [hk, withExec]
    have hdir : ∀ p, (k'.procTable p).pageDir =
        if p = k.processCurrent then dir else (k.procTable p).pageDir := by
      intro p
      by_cases hp : p = k.processCurrent
      · simp [hk, withExec, hp]
      · simp [hk, withExec, hp]
    exact {
      lastAlloc := hmachine ▸ hlast
      dir := fun p hp ↦ by
        rw [hdir]
        split
        · exact ⟨h0, hmask⟩
        · exact h.dir p ((hquiet.state p).symm.trans hp)
      loaded := fun p hr hp ↦ by
        rw [hkeeps.running] at hr
        rw [hmachine, hcr3, hdir, if_pos (hr.inj howns)]
      saved := fun r p hr hp hne ↦ by
        rw [hkeeps.running] at hne
        have hpc : p ≠ k.processCurrent := by
          rintro rfl
          exact hne (hr.task_inj howns)
        have hp' := (hquiet.state p).symm.trans hp
        have hsched : k.Scheduled r := by
          obtain ⟨rfl, -⟩ | ⟨rfl, hp0⟩ := hr
          · trivial
          · exact ⟨hp0, hp'⟩
        rw [hkeeps.regs r hsched hne, hdir, if_neg hpc]
        exact h.saved r p hr hp' hne }

/-- The contexts of the others are as they were when an exiting process yields. -/
theorem Spaces.leaves (h : k.Spaces) (hs : k.Sched) {code : ℤ}
    (hexit : k.processExit code = some (.leaving, k')) : k'.Spaces := by
  have hleft := processExit_left hs hexit
  obtain ⟨-, ho, -⟩ | ⟨-, -, m, hspace, hremove⟩ := processExit_cases hs.zeroPid hexit
  · cases ho
  have hmachine : k'.machine = m := by
    obtain rfl | ⟨prev, n, rfl⟩ := taskRemove_cases hremove
    · rfl
    · rw [setNext, setTask_machine]
      rfl
  have hdir : ∀ p, p ≠ k.processCurrent →
      (k'.procTable p).pageDir = (k.procTable p).pageDir := by
    intro p hp
    have hexited : ((k.withExited k.processCurrent code m).procTable p).pageDir =
        (k.procTable p).pageDir := by simp [withExited, hp]
    obtain rfl | ⟨prev, n, rfl⟩ := taskRemove_cases hremove
    · exact hexited
    · rw [setNext, setTask_pageDir, hexited]
  have hother : ∀ p, (k'.procTable p).state = .run → p ≠ k.processCurrent := by
    rintro _ hp rfl
    have hgone := hleft.gone
    rw [hleft.current] at hgone
    refine hgone ⟨fun h0 ↦ hleft.pid ?_, hp⟩
    rw [h0]
    exact hs.zeroPid
  exact {
    lastAlloc := by
      rw [hmachine]
      exact exitSpace_stays hspace h.lastAlloc
    dir := fun p hp ↦ by
      rw [hdir p (hother p hp)]
      exact h.dir p (hleft.live p hp).1
    loaded := fun p hr hp ↦ by
      rw [hleft.running, hleft.current] at hr
      obtain ⟨hr, -⟩ | ⟨hr, -⟩ := hr
      · cases hr
      · exact absurd (TaskRef.proc.inj hr).symm (hother p hp)
    saved := fun r p hr hp hne ↦ by
      rw [hleft.running] at hne
      rw [hleft.regs r hne, hdir p (hother p hp)]
      exact h.saved r p hr (hleft.live p hp).1 hne }

theorem sysSbrk_stays {increment : BitVec 32} {r : ℤ} (h : k.sysSbrk increment = some (r, k')) :
    k.machine.Stays k'.machine := by
  simp only [sysSbrk] at h
  split at h
  · simp only [Option.some.injEq, Prod.mk.injEq] at h
    exact h.2 ▸ Stays.refl _
  · split at h
    · split at h
      · simp only [Option.pure_def, Option.some.injEq, Prod.mk.injEq] at h
        exact h.2 ▸ Stays.refl _
      · simp only [Option.bind_eq_bind, Option.bind_eq_some_iff] at h
        obtain ⟨s, hs, h⟩ := h
        have hgrow := Stays.foldlM (π := SbrkLoop.machine) (fun _ _ _ ↦ growPage_stays) hs
        split at h
        · simp only [Option.pure_def, Option.some.injEq, Prod.mk.injEq] at h
          exact h.2 ▸ hgrow
        · simp only [Option.pure_def, Option.some.injEq, Prod.mk.injEq] at h
          exact h.2 ▸ hgrow
    · split at h
      · simp only [Option.pure_def, Option.some.injEq, Prod.mk.injEq] at h
        exact h.2 ▸ Stays.refl _
      · split at h
        · simp at h
        · simp only [Option.bind_eq_bind, Option.bind_eq_some_iff, Option.pure_def, Option.some.injEq,
            Prod.mk.injEq] at h
          obtain ⟨m, hm, -, rfl⟩ := h
          exact Stays.foldlM (π := id) (fun _ _ _ ↦ shrinkPage_stays) hm

theorem sysRead_stays {fd buf len : ℕ} {r : ℤ} (h : k.sysRead fd buf len = some (r, k')) :
    k.machine.Stays k'.machine := by
  rw [sysRead] at h
  split at h
  · simp only [Option.some.injEq, Prod.mk.injEq] at h
    exact h.2 ▸ Stays.refl _
  · simp only [Option.bind_eq_bind, Option.bind_eq_some_iff] at h
    obtain ⟨ok, -, h⟩ := h
    split at h
    · simp only [Option.pure_def, Option.some.injEq, Prod.mk.injEq] at h
      exact h.2 ▸ Stays.refl _
    · split at h
      · simp only [Option.pure_def, Option.some.injEq, Prod.mk.injEq] at h
        exact h.2 ▸ Stays.refl _
      · simp only [Option.bind_eq_some_iff, Option.pure_def, Option.some.injEq, Prod.mk.injEq] at h
        obtain ⟨m, hm, -, rfl⟩ := h
        exact (memcpyFrom_stores hm).stays

/-- Moving the break or the descriptors of a process. -/
theorem Spaces.modifyProc (h : k.Spaces) (i : Fin MAX_PROCS) (f : Process → Process)
    (hf : ∀ q, (f q).pageDir = q.pageDir ∧ (f q).task = q.task ∧ ((f q).state = .run → q.state = .run)) :
    (k.modifyProc i f).Spaces := by
  refine h.quiet (.refl _) rfl (fun p hp ↦ ?_) fun r ↦ by
    rw [task_modifyProc k i fun q ↦ (hf q).2.1]
  by_cases hpi : p = i
  · subst hpi
    rw [modifyProc_self] at hp ⊢
    exact ⟨(hf _).2.2 hp, (hf _).1⟩
  · rw [modifyProc_of_ne _ _ _ _ hpi] at hp ⊢
    exact ⟨hp, rfl⟩

theorem Spaces.sysSbrk (h : k.Spaces) {increment : BitVec 32} {r : ℤ}
    (hsbrk : k.sysSbrk increment = some (r, k')) : k'.Spaces := by
  have hm := sysSbrk_stays hsbrk
  obtain ⟨m, b, rfl⟩ := sysSbrk_cases hsbrk
  apply Spaces.modifyProc
  · exact h.withMachine hm
  · exact fun q ↦ ⟨rfl, rfl, id⟩

theorem Spaces.sysOpen (h : k.Spaces) {path : ℕ} {r : ℤ}
    (hopen : k.sysOpen path = some (r, k')) : k'.Spaces := by
  obtain ⟨-, rfl⟩ | ⟨node, fd, file, -, -, -, -, rfl⟩ := sysOpen_cases hopen
  · exact h
  · apply Spaces.modifyProc
    · exact h.modifyFile _ _
    · exact fun q ↦ ⟨rfl, rfl, id⟩

theorem Spaces.sysClose (h : k.Spaces) (fd : ℕ) : (k.sysClose fd).2.Spaces := by
  obtain ⟨-, heq⟩ | ⟨i, file, -, -, heq⟩ := sysClose_cases k fd
  · rw [heq]
    exact h
  · rw [heq]
    apply Spaces.modifyFile
    apply Spaces.modifyProc
    · exact h
    · exact fun q ↦ ⟨rfl, rfl, id⟩

theorem Spaces.sysRead (h : k.Spaces) {fd buf len : ℕ} {r : ℤ}
    (hread : k.sysRead fd buf len = some (r, k')) : k'.Spaces := by
  have hm := sysRead_stays hread
  obtain rfl | ⟨file, got, m, -, rfl⟩ := sysRead_cases hread
  · exact h
  · apply Spaces.modifyFile
    exact h.withMachine hm

theorem Spaces.waitSlot (h : k.Spaces) {self i : Fin MAX_PROCS} {status n : ℕ} {w : WaitStep}
    (hwait : k.waitSlot self status n i = some (w, k')) : k'.Spaces := by
  obtain ⟨-, rfl, -⟩ | ⟨-, -, ⟨-, rfl, -⟩ | ⟨-, -, m, hstore, rfl⟩⟩ := waitSlot_cases hwait
  · exact h
  · exact h
  · apply Spaces.modifyProc
    · apply h.withMachine
      split at hstore
      · exact (store32_stores hstore).stays
      · rw [Option.some.injEq] at hstore
        exact hstore ▸ Stays.refl _
    · exact fun q ↦ ⟨rfl, rfl, fun hrun ↦ ProcState.noConfusion hrun⟩

/-- A kernel task has no directory of its own. -/
theorem Spaces.taskCreate (h : k.Spaces) {main flags : ℕ}
    (hcreate : k.taskCreate main flags = some k') : k'.Spaces := by
  obtain ⟨heap, m, regs, hm, -, rfl⟩ := taskCreate_cases hcreate
  refine h.goesOn ?_ (by simp [taskAdd]) fun r p hr hp ↦ Or.inl ?_
  · simp only [taskAdd, setNext, setTask_machine]
    exact (memset_stores hm).stays
  · rw [taskAdd_taskless, setTask_procTable] at hp ⊢
    refine ⟨hp, rfl, fun _ ↦ ?_⟩
    have hne : r ≠ .created k.createdCount := by
      rintro rfl
      obtain ⟨hr, -⟩ | ⟨hr, -⟩ := hr <;> cases hr
    rw [taskAdd_regs, task_setTask_of_ne _ _ _ _ hne]
    cases r <;> rfl

end Kernel

namespace System

variable {s s' : System} {op : Op} {obs : Obs} {tr : List (Op × Obs)}

theorem step_spaces (hs : s.kernel.Sched) (hsc : s.Scans) (h : s.kernel.Spaces)
    (hstep : s.step op = some (s', obs)) : s'.kernel.Spaces := by
  have howns : s.mode s.cur = .user → Owns s.kernel.runningTask s.kernel.processCurrent := by
    intro hmode
    exact hsc.owns_cur hs (by rw [hmode]; exact Mode.noConfusion)
  cases step_case hstep with
  | forkNoSlot hmode hk _ => exact h.processFork hs (howns hmode) hk
  | fork hmode hk _ => exact h.processFork hs (howns hmode) hk
  | execError hmode hk => exact h.sysExecve hs (howns hmode) hk
  | exec hmode hk => exact h.sysExecve hs (howns hmode) hk
  | halt _ hk =>
      obtain ⟨-, -, rfl⟩ | ⟨-, ho, -⟩ := Kernel.processExit_cases hs.zeroPid hk
      · exact h.quiet (.refl _) rfl (fun p hp ↦ ⟨hp, rfl⟩) fun r ↦ by
          rw [withKernel, setMode, Kernel.tssSetStack_task]
      · cases ho
  | exit _ hk hy => exact (h.leaves hs hk).yield hy
  | waitFault _ _ => exact h
  | wait _ _ => exact h
  | scanNext _ _ hk => exact h.waitSlot hk
  | reap _ _ hk => exact h.waitSlot hk
  | noChild _ _ => exact h
  | block _ _ _ hy => exact h.yield hy
  | tickUser _ hy => exact h.yield hy
  | tickKernel _ hy => exact h.yield hy
  | taskCreate hk => exact h.taskCreate hk
  | sbrk _ hk => exact h.sysSbrk hk
  | openFile _ hk => exact h.sysOpen hk
  | closeFile _ => exact h.sysClose _
  | readFile _ hk => exact h.sysRead hk
  | store _ hk => exact h.withMachine (Machine.store8_stores hk).stays

theorem boot_spaces {k : Kernel} {size brk : ℕ} (hcr3 : k.machine.cr3 &&& PAGE_MASK = k.machine.cr3)
    (h0 : k.machine.cr3 ≠ 0) (hlast : k.machine.lastAlloc ≤ k.machine.totalFrames) :
    (boot k size brk).kernel.Spaces := by
  have hrun : ∀ p, ((boot k size brk).kernel.procTable p).state = .run → p = 0 := by
    intro p hp
    by_contra hp0
    rw [boot, boot_kernel] at hp
    simp only [Function.update_of_ne hp0] at hp
    cases hp
  have hdir : ((boot k size brk).kernel.procTable 0).pageDir = k.machine.cr3 := by
    rw [boot, boot_kernel]
    exact hcr3
  exact {
    lastAlloc := by
      rw [boot, boot_kernel]
      exact hlast
    dir := fun p hp ↦ by
      rw [hrun p hp, hdir]
      exact ⟨h0, hcr3⟩
    loaded := fun p _ hp ↦ by
      rw [hrun p hp, hdir, boot, boot_kernel]
    saved := fun r p hr hp hne ↦ by
      obtain rfl := hrun p hp
      obtain ⟨rfl, -⟩ | ⟨-, hp0⟩ := hr
      · rw [boot, boot_kernel] at hne
        exact absurd rfl hne
      · exact absurd rfl hp0 }

/-- While a process has the processor its own directory is loaded, and every other
process will be resumed in its own. -/
theorem own_spaces {k : Kernel} {size brk : ℕ} (hheap : (boot k size brk).kernel.heap.Ready)
    (hcr3 : k.machine.cr3 &&& PAGE_MASK = k.machine.cr3) (h0 : k.machine.cr3 ≠ 0)
    (hlast : k.machine.lastAlloc ≤ k.machine.totalFrames) (hrun : Run (boot k size brk) tr s)
    {r : TaskRef} {p : Fin MAX_PROCS} (hr : Owns r p) (hp : (s.kernel.procTable p).state = .run) :
    (s.kernel.procTable p).pageDir ≠ 0 ∧
      (if r = s.cur then s.kernel.machine.cr3 else (s.kernel.task r).regs.cr3) =
        (s.kernel.procTable p).pageDir := by
  have h : s.kernel.Spaces := by
    clear hr hp
    induction hrun with
    | start => exact boot_spaces hcr3 h0 hlast
    | step hrun hstep ih =>
        obtain ⟨-, horderly⟩ := hrun.settled hheap
        exact step_spaces horderly.sched horderly.scans ih hstep
  refine ⟨(h.dir p hp).1, ?_⟩
  split
  · next heq =>
      subst heq
      exact h.loaded p hr hp
  · next hne => exact h.saved r p hr hp hne

/-- The child in its turn. -/
theorem own_spaces_child : ∃ s : System, s.cur = .proc 1 ∧ s.kernel.machine.cr3 ≠ 0 ∧
    s.kernel.machine.cr3 = (s.kernel.procTable 1).pageDir := by
  obtain ⟨o, s₁, s₂, s₃, hfork, htick₁, -, -, hcur, -⟩ := Sample.pageless_turns
  obtain ⟨c, hc⟩ := (step_sched (step_sched (boot_sched _ _ _) hfork) htick₁).ring
  have hsched : s₂.kernel.Scheduled s₂.cur := hc.scheduled_running
  rw [hcur] at hsched
  obtain ⟨h0, hspace⟩ := own_spaces Sample.pageless_heap (by decide) (by decide)
    (by decide) ((Run.start.step hfork).step htick₁) (Or.inr ⟨rfl, hsched.1⟩) hsched.2
  rw [if_pos hcur.symm] at hspace
  exact ⟨s₂, hcur, by rwa [hspace], hspace⟩

end System

end EclipseOS
