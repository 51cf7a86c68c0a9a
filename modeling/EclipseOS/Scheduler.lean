import EclipseOS.Sample
import EclipseOS.CallCases
import EclipseOS.SystemCases
import EclipseOS.Lib.Ring

/-!
# The scheduler ring

`Sched` ties the circular list to the states of the processes: the ring from
the running task is made of `main_task`, of the tasks of the running processes
other than 0 and of the created kernel tasks.  Every call keeps it, and `k`
consecutive yields walk once around it.
-/

namespace EclipseOS

open IntrusiveList

namespace Kernel

/-- The tasks that belong into the ring. -/
def Scheduled (k : Kernel) : TaskRef → Prop
  | .main => True
  | .proc i => i ≠ 0 ∧ (k.procTable i).state = .run
  | .created n => n < k.createdCount

/-- The ring read from the running task. -/
def SchedRing (k : Kernel) (c : List TaskRef) : Prop :=
  c.head? = some k.runningTask ∧ Ring k.next c ∧ ∀ t, t ∈ c ↔ k.Scheduled t

/-- The scheduler invariant, with what it needs to know about entry 0. -/
structure Sched (k : Kernel) : Prop where
  ring : ∃ c, k.SchedRing c
  zeroPid : (k.procTable 0).pid = 0
  zeroState : (k.procTable 0).state = .run

variable {k k' : Kernel} {c : List TaskRef}

theorem SchedRing.scheduled_running (h : k.SchedRing c) : k.Scheduled k.runningTask :=
  (h.2.2 _).mp (List.mem_of_mem_head? h.1)

theorem SchedRing.exists_cons (h : k.SchedRing c) : ∃ l, c = k.runningTask :: l := by
  obtain ⟨hhead, -, -⟩ := h
  cases c with
  | nil => exact nomatch hhead
  | cons a l =>
      cases hhead
      exact ⟨l, rfl⟩

/-- The ring looks at the running task, the links of its members and the states. -/
theorem SchedRing.congr (h : k.SchedRing c) (hrun : k'.runningTask = k.runningTask)
    (hnext : ∀ t, k.Scheduled t → k'.next t = k.next t)
    (hsched : ∀ t, k'.Scheduled t ↔ k.Scheduled t) : k'.SchedRing c := by
  obtain ⟨hhead, hring, hmem⟩ := h
  refine ⟨by rw [hhead, hrun], hring.congr fun x hx ↦ hnext x ((hmem x).mp hx), fun t ↦ ?_⟩
  rw [hmem, hsched]

theorem Quiet.scheduled (h : Quiet k k') (t : TaskRef) : k'.Scheduled t ↔ k.Scheduled t := by
  cases t with
  | main => exact Iff.rfl
  | proc i => simp only [Scheduled, h.state]
  | created n => simp only [Scheduled, h.created]

theorem Quiet.sched (hq : Quiet k k') (h : k.Sched) : k'.Sched := by
  obtain ⟨⟨c, hc⟩, hpid, hstate⟩ := h
  exact ⟨⟨c, hc.congr hq.running (fun t _ ↦ congrFun hq.next t) hq.scheduled⟩,
    (hq.pid 0).trans hpid, (hq.state 0).trans hstate⟩

/-- The current process runs. -/
theorem Sched.current_run (h : k.Sched) : (k.procTable k.processCurrent).state = .run := by
  by_cases h0 : k.processCurrent = 0
  · rw [h0]
    exact h.zeroState
  · obtain ⟨c, hc⟩ := h.ring
    have hs := hc.scheduled_running
    rw [(processCurrent_ne_zero h0).1] at hs
    exact hs.2

/-! ## Yield -/

/-- The running task has moved on by one link. -/
structure Advanced (k k' : Kernel) : Prop where
  running : k.next k.runningTask = some k'.runningTask
  next : k'.next = k.next
  createdCount : k'.createdCount = k.createdCount
  pid : ∀ i, (k'.procTable i).pid = (k.procTable i).pid
  state : ∀ i, (k'.procTable i).state = (k.procTable i).state

theorem Yielded.advanced (h : Yielded k k') : Advanced k k' where
  running := h.running
  next := h.next
  createdCount := h.createdCount
  pid := fun i ↦ by rw [h.procTable]
  state := fun i ↦ by rw [h.procTable]

theorem Advanced.scheduled (h : Advanced k k') (t : TaskRef) : k'.Scheduled t ↔ k.Scheduled t := by
  cases t with
  | main => exact Iff.rfl
  | proc i => simp only [Scheduled, h.state]
  | created n => simp only [Scheduled, h.createdCount]

/-- Moving on turns the ring by one. -/
theorem SchedRing.advance (h : k.SchedRing c) (ha : Advanced k k') :
    k'.SchedRing (c.rotate 1) := by
  obtain ⟨l, rfl⟩ := h.exists_cons
  obtain ⟨-, hring, hmem⟩ := h
  refine ⟨?_, ?_, fun t ↦ ?_⟩
  · have hnext := hring.next_head
    rw [ha.running] at hnext
    cases l with
    | nil => simpa using hnext.symm
    | cons b l => simpa using hnext.symm
  · rw [ha.next]
    exact hring.rotate_one
  · rw [List.mem_rotate, hmem]
    exact (ha.scheduled t).symm

theorem Sched.advance (h : k.Sched) (ha : Advanced k k') : k'.Sched := by
  obtain ⟨⟨c, hc⟩, hpid, hstate⟩ := h
  exact ⟨⟨_, hc.advance ha⟩, (ha.pid 0).trans hpid, (ha.state 0).trans hstate⟩

/-- A yield turns the ring by one. -/
theorem SchedRing.yield {cpu : TaskRegs} (h : k.SchedRing c) (hy : k.yield cpu = some k') :
    k'.SchedRing (c.rotate 1) := h.advance (yield_spec hy).advanced

theorem Sched.yield {cpu : TaskRegs} (h : k.Sched) (hy : k.yield cpu = some k') : k'.Sched :=
  h.advance (yield_spec hy).advanced

/-- A task that is linked to another can yield. -/
theorem yield_of_next {t : TaskRef} (h : k.next k.runningTask = some t) (cpu : TaskRegs) :
    ∃ k', k.yield cpu = some k' := by
  have hnext : (k.task k.runningTask).next = some t := h
  simp only [Kernel.yield, hnext, Option.bind_eq_bind, Option.bind_some]
  split
  · exact ⟨_, rfl⟩
  · exact ⟨_, rfl⟩

/-- In a ring there is always a task to yield to. -/
theorem SchedRing.yield_isSome (h : k.SchedRing c) (cpu : TaskRegs) :
    ∃ k', k.yield cpu = some k' := by
  obtain ⟨l, rfl⟩ := h.exists_cons
  exact yield_of_next h.2.1.next_head cpu

/-- Consecutive yields, with the task that each one makes running. -/
def yields (k : Kernel) : List TaskRegs → Option (List TaskRef × Kernel)
  | [] => some ([], k)
  | cpu :: cpus => do
      let k' ← k.yield cpu
      let (ts, k'') ← k'.yields cpus
      return (k'.runningTask :: ts, k'')

/-- `n` yields visit the `n` tasks that follow the running one. -/
theorem SchedRing.yields {cpus : List TaskRegs} (h : k.SchedRing c)
    (hlen : cpus.length ≤ c.length) :
    ∃ k', k.yields cpus = some ((c.rotate 1).take cpus.length, k') ∧
      k'.SchedRing (c.rotate cpus.length) := by
  induction cpus generalizing k c with
  | nil => exact ⟨k, by simp [Kernel.yields], by simpa using h⟩
  | cons cpu cpus ih =>
      obtain ⟨k₁, hy⟩ := h.yield_isSome cpu
      have h₁ := h.yield hy
      obtain ⟨l, hl⟩ := h₁.exists_cons
      have hlen₁ : cpus.length ≤ l.length := by
        have hrot : (c.rotate 1).length = l.length + 1 := by simp [hl]
        rw [List.length_rotate] at hrot
        simp at hlen
        omega
      obtain ⟨k₂, hys, h₂⟩ := ih h₁ (by simp [hl]; omega)
      refine ⟨k₂, ?_, ?_⟩
      · simp only [Kernel.yields, hy, hys, Option.bind_eq_bind, Option.bind_some, Option.pure_def]
        rw [hl]
        simp [List.take_append_of_le_length hlen₁]
      · rw [List.rotate_rotate] at h₂
        simpa [Nat.add_comm] using h₂

/-! ## Adding and removing -/

theorem taskAdd_next (k : Kernel) (t : TaskRef) : (k.taskAdd t).next =
    Function.update (Function.update k.next t (k.next k.runningTask)) k.runningTask (some t) := by
  simp [taskAdd]

/-- A task that becomes scheduled is spliced in. -/
theorem SchedRing.taskAdd {k₁ : Kernel} {t : TaskRef} (h : k.SchedRing c)
    (ht : ¬ k.Scheduled t) (hrun : k₁.runningTask = k.runningTask)
    (hnext : ∀ r, r ≠ t → k₁.next r = k.next r)
    (hsched : ∀ r, (k₁.taskAdd t).Scheduled r ↔ r = t ∨ k.Scheduled r) :
    ∃ c', (k₁.taskAdd t).SchedRing c' := by
  obtain ⟨l, rfl⟩ := h.exists_cons
  obtain ⟨-, hring, hmem⟩ := h
  have htc : t ∉ k.runningTask :: l := fun hin ↦ ht ((hmem t).mp hin)
  have hrt : k.runningTask ≠ t := fun heq ↦ htc (by simp [heq])
  have hadd : (k₁.taskAdd t).next = Function.update
      (Function.update k.next t (k.next k.runningTask)) k.runningTask (some t) := by
    rw [taskAdd_next, hrun, hnext _ hrt]
    funext r
    by_cases hr : r = t
    · simp [hr, hrt.symm]
    · by_cases hr' : r = k.runningTask <;> simp [hr, hr', hnext]
  refine ⟨k.runningTask :: t :: l, by simp [Kernel.taskAdd, hrun], ?_, fun r ↦ ?_⟩
  · rw [hadd]
    exact hring.insert htc
  · rw [hsched, ← hmem]
    simp only [List.mem_cons]
    tauto

/-- The walk of `task_remove` from the running task to its predecessor. -/
theorem findPrev_links {l : List TaskRef} {a t : TaskRef} {fuel : ℕ}
    (hlinks : Links k.next a l t) (hfuel : l.length < fuel)
    (hl : ∀ x ∈ l, x ≠ t ∧ x ≠ k.runningTask) :
    k.findPrev t fuel a = some (some ((a :: l).getLast (by simp))) := by
  induction l generalizing a fuel with
  | nil =>
      obtain ⟨fuel, rfl⟩ : ∃ n, fuel = n + 1 := ⟨fuel - 1, by simp at hfuel; omega⟩
      have hnext : k.next a = some t := hlinks
      simp [findPrev, hnext]
  | cons b l ih =>
      obtain ⟨fuel, rfl⟩ : ∃ n, fuel = n + 1 := ⟨fuel - 1, by simp at hfuel; omega⟩
      have hnext : k.next a = some b := hlinks.1
      obtain ⟨hbt, hbrun⟩ := hl b (by simp)
      have hrest := ih hlinks.2 (by simp at hfuel; omega) fun x hx ↦
        hl x (List.mem_cons_of_mem b hx)
      simp [findPrev, hnext, hbt, hbrun, hrest]

/-- There are at most as many tasks in the ring as there are task objects. -/
theorem SchedRing.length_le (h : k.SchedRing c) : c.length ≤ k.taskCount := by
  have hsub : c ⊆ .main :: ((List.finRange MAX_PROCS).map .proc ++
      (List.range k.createdCount).map .created) := by
    intro t ht
    have hs := (h.2.2 t).mp ht
    cases t with
    | main => simp
    | proc i => simp
    | created n => simpa [Scheduled] using hs
  have := (h.2.1.nodup.subperm hsub).length_le
  simp at this
  simp [taskCount]
  omega

/-- The running task takes itself out: its predecessor is linked past it. -/
theorem taskRemove_running {l : List TaskRef} {t : TaskRef}
    (hring : Ring k.next (k.runningTask :: l ++ [t])) (hlen : l.length < k.taskCount) :
    k.taskRemove k.runningTask = some (k.setNext t (k.next k.runningTask)) := by
  obtain ⟨hnodup, hlinks⟩ := ring_cons.mp (by simpa using hring)
  have hne : ∀ x ∈ l ++ [t], x ≠ k.runningTask ∧ x ≠ k.runningTask := by
    intro x hx
    have : x ≠ k.runningTask := fun heq ↦ (List.nodup_cons.mp hnodup).1 (heq ▸ hx)
    exact ⟨this, this⟩
  have hfuel : (l ++ [t]).length < k.taskCount + 1 := by
    rw [List.length_append, List.length_singleton]
    omega
  have hfind := findPrev_links hlinks hfuel hne
  simp only [taskRemove, hfind]
  simp

/-! ## Fork -/

/-- Links outside the entry `i` when only that entry has changed. -/
theorem next_congr {i : Fin MAX_PROCS} (hmain : k'.mainTask = k.mainTask)
    (hcreated : k'.createdTasks = k.createdTasks)
    (hproc : ∀ j, j ≠ i → k'.procTable j = k.procTable j) {r : TaskRef} (hr : r ≠ .proc i) :
    k'.next r = k.next r := by
  cases r with
  | main => simp only [next, task, hmain]
  | created n => simp only [next, task, hcreated]
  | proc j => simp only [next, task, hproc j fun heq ↦ hr (congrArg _ heq)]

/-- An entry that was free and stays free is not in the ring. -/
theorem Sched.modifyFree {i : Fin MAX_PROCS} (h : k.Sched) (hi : i ≠ 0)
    (hfree : (k.procTable i).state = .free) (hmain : k'.mainTask = k.mainTask)
    (hcreated : k'.createdTasks = k.createdTasks) (hcount : k'.createdCount = k.createdCount)
    (hrun : k'.runningTask = k.runningTask)
    (hproc : ∀ j, j ≠ i → k'.procTable j = k.procTable j)
    (hfree' : (k'.procTable i).state = .free) : k'.Sched := by
  obtain ⟨⟨c, hc⟩, hpid, hstate⟩ := h
  have hzero := hproc 0 hi.symm
  refine ⟨⟨c, hc.congr hrun (fun t ht ↦ next_congr hmain hcreated hproc ?_) fun t ↦ ?_⟩,
    by rw [hzero]; exact hpid, by rw [hzero]; exact hstate⟩
  · rintro rfl
    rw [Scheduled, hfree] at ht
    exact nomatch ht.2
  · cases t with
    | main => exact Iff.rfl
    | created n => simp only [Scheduled, hcount]
    | proc j =>
        by_cases hj : j = i
        · subst hj
          constructor <;> rintro ⟨-, hrun⟩
          · exact nomatch hfree'.symm.trans hrun
          · exact nomatch hfree.symm.trans hrun
        · simp only [Scheduled, hproc j hj]

theorem Sched.processFork {regs : Registers} {r : ℤ} (h : k.Sched)
    (hf : k.processFork regs = some (r, k')) : k'.Sched := by
  obtain ⟨-, -, rfl⟩ | ⟨i, stack, heap, hslot, -, ⟨-, -, rfl⟩ | ⟨-, -, o, m, dir, -, -, rfl⟩ |
    ⟨-, -, dir, m, m', -, -, rfl⟩⟩ := processFork_cases hf
  · exact h
  · obtain ⟨hi, hfree⟩ := freeSlot_spec hslot
    refine h.modifyFree hi hfree rfl rfl rfl rfl (fun j hj ↦ ?_) ?_
    · rw [modifyProc_of_ne _ _ _ _ hj]
    · rw [modifyProc_self]
      rfl
  · obtain ⟨hi, hfree⟩ := freeSlot_spec hslot
    refine h.modifyFree hi hfree rfl rfl rfl rfl (fun j hj ↦ ?_) ?_
    · rw [modifyProc_of_ne _ _ _ _ hj]
      simp [withFresh, hj]
    · rw [modifyProc_self]
      rfl
  · obtain ⟨hi, hfree⟩ := freeSlot_spec hslot
    obtain ⟨⟨c, hc⟩, hpid, hstate⟩ := h
    have hnot : ¬ k.Scheduled (.proc i) := fun hs ↦ by cases hfree.symm.trans hs.2
    refine ⟨hc.taskAdd hnot rfl (fun r hr ↦ ?_) fun r ↦ ?_, ?_, ?_⟩
    · refine next_congr (k := k) (i := i) ?_ ?_ (fun j hj ↦ ?_) hr
      · rfl
      · rfl
      · rw [modifyProc_of_ne _ _ _ _ hj]
        simp [withFresh, hj]
    · change (k.withChild k.processCurrent i dir stack heap m').Scheduled r ↔ _
      cases r with
      | main => simp [Scheduled]
      | created n => simp [Scheduled]
      | proc j =>
          by_cases hj : j = i
          · simp [Scheduled, hj, withChild_procTable, childEntry, forkedEntry, freshEntry, hi]
          · simp [Scheduled, hj, withChild_procTable]
    · simpa [withChild_procTable, hi.symm] using hpid
    · simpa [withChild_procTable, hi.symm] using hstate

/-! ## Task creation, exit and reaping -/

theorem Sched.taskCreate {main flags : ℕ} (h : k.Sched)
    (ht : k.taskCreate main flags = some k') : k'.Sched := by
  obtain ⟨heap, m, regs, -, -, rfl⟩ := taskCreate_cases ht
  obtain ⟨⟨c, hc⟩, hpid, hstate⟩ := h
  have hnot : ¬ k.Scheduled (.created k.createdCount) := fun hs ↦ lt_irrefl _ hs
  refine ⟨hc.taskAdd hnot (by simp) (fun r hr ↦ ?_) fun r ↦ ?_, ?_, ?_⟩
  · rw [next_setTask, if_neg hr]
    cases r <;> rfl
  · cases r with
    | main => simp [Scheduled]
    | created n =>
        simp [Scheduled, Kernel.taskAdd]
        omega
    | proc j => simp [Scheduled]
  · simpa using hpid
  · simpa using hstate

/-- The running task has left the ring, which its link still leads into. -/
def Unlinked (k : Kernel) (c : List TaskRef) : Prop :=
  c.head? = k.next k.runningTask ∧ Ring k.next c ∧ (∀ t, t ∈ c ↔ k.Scheduled t) ∧
    k.runningTask ∉ c

/-- The scheduler between `task_remove` and the `yield` of `process_exit`. -/
structure Leaving (k : Kernel) : Prop where
  ring : ∃ c, k.Unlinked c
  zeroPid : (k.procTable 0).pid = 0
  zeroState : (k.procTable 0).state = .run

/-- Moving on from there leaves the exiting task behind. -/
theorem Leaving.advance (h : k.Leaving) (ha : Advanced k k') : k'.Sched := by
  obtain ⟨⟨c, hhead, hring, hmem, -⟩, hpid, hstate⟩ := h
  refine ⟨⟨c, ?_, ?_, fun t ↦ ?_⟩, (ha.pid 0).trans hpid, (ha.state 0).trans hstate⟩
  · rw [hhead, ha.running]
  · rw [ha.next]
    exact hring
  · rw [hmem, ha.scheduled]

/-- `process_exit` takes its task out of the ring. -/
theorem SchedRing.withExited {p : Fin MAX_PROCS} (hc : k.SchedRing c)
    (hrun : k.runningTask = .proc p) (code : ℤ) (m : Machine) :
    ∃ k', (k.withExited p code m).taskRemove (.proc p) = some k' ∧
      (∃ c', k'.Unlinked c') ∧ ∀ i, i ≠ p → (k'.procTable i).pid = (k.procTable i).pid ∧
        (k'.procTable i).state = (k.procTable i).state := by
  have hk₂ : ∀ r, (k.withExited p code m).next r = k.next r := by
    intro r
    cases r with
    | main => rfl
    | created n => rfl
    | proc j =>
        simp only [next, task, Kernel.withExited]
        split <;> simp [exitedEntry]
  have hstate₂ : ∀ j, ((k.withExited p code m).procTable j).state =
      if j = p then .zombie else (k.procTable j).state := by
    intro j
    by_cases hj : j = p <;> simp [Kernel.withExited, exitedEntry, hj]
  obtain ⟨l, rfl⟩ := hc.exists_cons
  -- the ring has a last member besides the running task, since it contains `main_task`
  obtain ⟨l', t, rfl⟩ : ∃ l' t, l = l' ++ [t] := by
    refine ⟨l.dropLast, l.getLast ?_, (List.dropLast_append_getLast _).symm⟩
    rintro rfl
    have hmain := (hc.2.2 .main).mpr trivial
    simp [hrun] at hmain
  have hring₂ := hc.2.1.congr fun x _ ↦ hk₂ x
  have hlen : l'.length < (k.withExited p code m).taskCount := by
    have := hc.length_le
    simp at this
    exact (Nat.lt_succ_self _).trans this
  have hrun₂ : (k.withExited p code m).runningTask = k.runningTask := rfl
  have hremoved := taskRemove_running (by simpa [hrun₂] using hring₂) hlen
  rw [hrun₂, hrun] at hremoved
  have hnotin : k.runningTask ∉ l' ++ [t] := (List.nodup_cons.mp (ring_cons.mp hc.2.1).1).1
  have htrun : k.runningTask ≠ t := fun heq ↦ hnotin (by simp [heq])
  have hnext₂ : ((k.withExited p code m).setNext t
      ((k.withExited p code m).next (.proc p))).next =
        Function.update (k.withExited p code m).next t
          ((k.withExited p code m).next k.runningTask) := by
    rw [setNext, hrun]
    simp
  have hcreated : (k.withExited p code m).createdCount = k.createdCount := rfl
  refine ⟨_, hremoved, ⟨l' ++ [t], ?_, ?_, fun r ↦ ?_, ?_⟩, fun i hi ↦ ⟨?_, ?_⟩⟩
  · rw [hnext₂, setNext, setTask_runningTask, hrun₂, Function.update_of_ne htrun, hk₂,
      hc.2.1.next_head]
    cases l' <;> rfl
  · rw [hnext₂]
    exact Ring.remove_head (by simpa using hring₂)
  · have hne : ∀ r ∈ l' ++ [t], r ≠ k.runningTask := fun r hr heq ↦ hnotin (heq ▸ hr)
    have hmem : r ∈ l' ++ [t] ↔ k.Scheduled r ∧ r ≠ k.runningTask := by
      rw [← hc.2.2]
      have := hne r
      simp only [List.mem_cons]
      tauto
    rw [hmem, hrun]
    cases r with
    | main => simp [Scheduled]
    | created n => simp [Scheduled, hcreated]
    | proc j => by_cases hj : j = p <;> simp [Scheduled, hstate₂, hj]
  · simpa [hrun₂] using hnotin
  · simp [Kernel.withExited, hi]
  · simp [hstate₂, hi]

/-- `process_exit` up to its `yield`: the entry leaves the ring. -/
theorem Sched.processExit {code : ℤ} (h : k.Sched)
    (hexit : k.processExit code = some (.leaving, k')) : k'.Leaving := by
  obtain ⟨⟨c, hc⟩, hpid, hstate⟩ := h
  obtain ⟨-, ho, -⟩ | ⟨hcur, -, m, -, hremove⟩ := processExit_cases hpid hexit
  · exact nomatch ho
  have hp0 : k.processCurrent ≠ 0 := fun h0 ↦ hcur (h0 ▸ hpid)
  obtain ⟨k₁, hremoved, hring, hother⟩ := hc.withExited (processCurrent_ne_zero hp0).1 _ _
  obtain rfl := Option.some.inj (hremove.symm.trans hremoved)
  obtain ⟨hpid₁, hstate₁⟩ := hother 0 hp0.symm
  exact ⟨hring, hpid₁.trans hpid, hstate₁.trans hstate⟩

/-- An exit that can give up its address space comes to its `yield`. -/
theorem Sched.processExit_isSome {m : Machine} (h : k.Sched)
    (hpid : (k.procTable k.processCurrent).pid ≠ 0)
    (hspace : exitSpace k.machine k.kernelDir (k.procTable k.processCurrent).pageDir = some m)
    (code : ℤ) : ∃ k', k.processExit code = some (.leaving, k') := by
  obtain ⟨c, hc⟩ := h.ring
  have hp0 : k.processCurrent ≠ 0 := fun h0 ↦ hpid (h0 ▸ h.zeroPid)
  obtain ⟨hrun, -⟩ := processCurrent_ne_zero hp0
  obtain ⟨k', hremoved, -⟩ := hc.withExited hrun code m
  refine ⟨k', ?_⟩
  rw [processExit_eq hrun rfl hpid, hspace, Option.bind_some, hremoved, Option.bind_some]

/-- `process_exit` followed by its `yield`. -/
theorem Sched.exit {code : ℤ} {cpu : TaskRegs} {k₁ : Kernel} (h : k.Sched)
    (hexit : k.processExit code = some (.leaving, k₁)) (hy : k₁.yield cpu = some k') : k'.Sched :=
  (h.processExit hexit).advance (yield_spec hy).advanced

/-- Reaping frees an entry that was not in the ring. -/
theorem Sched.waitSlot {self i : Fin MAX_PROCS} {status n : ℕ} {w : WaitStep} (h : k.Sched)
    (hw : k.waitSlot self status n i = some (w, k')) : k'.Sched := by
  obtain ⟨-, rfl, -⟩ | ⟨-, -, ⟨-, rfl, -⟩ | ⟨hzombie, -, m, -, rfl⟩⟩ := waitSlot_cases hw
  · exact h
  · exact h
  · obtain ⟨⟨c, hc⟩, hpid, hstate⟩ := h
    have hi : (0 : Fin MAX_PROCS) ≠ i := by
      rintro rfl
      exact nomatch hstate.symm.trans hzombie
    refine ⟨⟨c, hc.congr rfl (fun t _ ↦ ?_) fun t ↦ ?_⟩, ?_, ?_⟩
    · cases t with
      | main => rfl
      | created n => rfl
      | proc j =>
          simp only [next, task, modifyProc_apply]
          split
          · next hj => rw [hj]; rfl
          · rfl
    · cases t with
      | main => exact Iff.rfl
      | created n => exact Iff.rfl
      | proc j =>
          by_cases hj : j = i
          · subst hj
            simp [Scheduled, hzombie]
          · simp [Scheduled, hj]
    · simpa [modifyProc_apply, hi] using hpid
    · simpa [modifyProc_apply, hi] using hstate

end Kernel

namespace System

variable {s s' : System} {op : Op} {obs : Obs}

/-- No step breaks the ring. -/
theorem step_sched (h : s.kernel.Sched) (hstep : s.step op = some (s', obs)) :
    s'.kernel.Sched := by
  cases step_case hstep with
  | forkNoSlot _ hk _ => exact h.processFork hk
  | fork _ hk _ => exact h.processFork hk
  | execError _ hk => exact (Kernel.sysExecve_quiet hk).sched h
  | exec _ hk => exact (Kernel.sysExecve_quiet hk).sched h
  | halt _ hk =>
      obtain ⟨-, -, rfl⟩ | ⟨-, ho, -⟩ := Kernel.processExit_cases h.zeroPid hk
      · exact (Kernel.quiet_tssSetStack _ _).sched h
      · exact nomatch ho
  | exit _ hk hy => exact h.exit hk hy
  | waitFault _ _ => exact h
  | wait _ _ => exact h
  | scanNext _ _ hk => exact h.waitSlot hk
  | reap _ _ hk => exact h.waitSlot hk
  | noChild _ _ => exact h
  | block _ _ _ hy => exact h.yield hy
  | tickUser _ hy => exact h.yield hy
  | tickKernel _ hy => exact h.yield hy
  | taskCreate hk => exact h.taskCreate hk
  | sbrk _ hk => exact (Kernel.sysSbrk_quiet hk).sched h
  | openFile _ hk => exact (Kernel.sysOpen_quiet hk).sched h
  | closeFile _ => exact (Kernel.sysClose_quiet _ _).sched h
  | readFile _ hk => exact (Kernel.sysRead_quiet hk).sched h
  | store _ _ => exact (Kernel.quiet_withMachine _ _).sched h

theorem boot_sched (k : Kernel) (size brk : ℕ) : (boot k size brk).kernel.Sched := by
  rw [boot, boot_kernel]
  refine ⟨⟨[.main], rfl, ring_cons.mpr ⟨by simp, rfl⟩, fun t ↦ ?_⟩, rfl, rfl⟩
  cases t with
  | main => simp [Kernel.Scheduled]
  | created n => simp [Kernel.Scheduled]
  | proc i => by_cases hi : i = 0 <;> simp [Kernel.Scheduled, hi, Process.zero]

end System

end EclipseOS
