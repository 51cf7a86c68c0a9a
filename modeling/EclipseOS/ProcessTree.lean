import EclipseOS.Scheduler

/-!
# The process tree

`TreeStep` says what a step of the system does to pids, parents and states; it
is all that the invariants of this module look at.  `Family` keeps the pids
apart and every parent running, `History` relates the table to what the calls
have reported so far, and `Scans` follows the scans of `process_wait` across
preemption.
-/

namespace EclipseOS

/-- Reports that go with no change of the tree. -/
def Obs.Idle : Obs → Prop
  | .forked _ r => r = -EAGAIN
  | .exited p _ => p = 0
  | .reaped _ _ _ => False
  | _ => True

/-- A call of `process_create` that took a pid. -/
def Obs.creates : Obs → Bool
  | .forked _ r => r ≠ -EAGAIN
  | _ => false

def Obs.exits (p : ℤ) : Obs → Bool
  | .exited q _ => q = p
  | _ => false

def Obs.reaps (c : ℤ) : Obs → Bool
  | .reaped _ d _ => d = c
  | _ => false

/-- Number of process creations. -/
def creations (tr : List (Op × Obs)) : ℕ := tr.countP fun x ↦ x.2.creates

namespace Kernel

variable {k k' : Kernel}

/-- Entries in use stay as they are, free ones stay free. -/
structure SameTree (k k' : Kernel) : Prop where
  state : ∀ i, (k'.procTable i).state = (k.procTable i).state
  pid : ∀ i, (k.procTable i).state ≠ .free → (k'.procTable i).pid = (k.procTable i).pid
  ppid : ∀ i, (k.procTable i).state ≠ .free → (k'.procTable i).ppid = (k.procTable i).ppid
  exitCode : ∀ i, (k.procTable i).state ≠ .free →
    (k'.procTable i).exitCode = (k.procTable i).exitCode

/-- What a step does to the tree. -/
inductive TreeStep (k k' : Kernel) : Obs → Prop
  | same {obs} (hobs : obs.Idle) (htree : SameTree k k') (hnext : k'.nextPid = k.nextPid) :
      TreeStep k k' obs
  | failed {p} (htree : SameTree k k') (hnext : k'.nextPid = int32 (k.nextPid + 1)) :
      TreeStep k k' (.forked p (-ENOMEM))
  | born {c} (hc : c ≠ 0) (hfree : (k.procTable c).state = .free)
      (hnext : k'.nextPid = int32 (k.nextPid + 1))
      (hother : ∀ i, i ≠ c → (k'.procTable i).state = (k.procTable i).state ∧
        (k'.procTable i).pid = (k.procTable i).pid ∧
        (k'.procTable i).ppid = (k.procTable i).ppid ∧
        (k'.procTable i).exitCode = (k.procTable i).exitCode)
      (hstate : (k'.procTable c).state = .run) (hpid : (k'.procTable c).pid = k.nextPid)
      (hppid : (k'.procTable c).ppid = (k.procTable k.processCurrent).pid) :
      TreeStep k k' (.forked (k.procTable k.processCurrent).pid k.nextPid)
  | died {code} (hpid0 : (k.procTable k.processCurrent).pid ≠ 0)
      (hnext : k'.nextPid = k.nextPid)
      (hstate : ∀ i, (k'.procTable i).state =
        if i = k.processCurrent then .zombie else (k.procTable i).state)
      (hpid : ∀ i, (k'.procTable i).pid = (k.procTable i).pid)
      (hppid : ∀ i, (k.procTable i).state ≠ .free → (k'.procTable i).ppid =
        if (k.procTable i).ppid = (k.procTable k.processCurrent).pid then 0
        else (k.procTable i).ppid)
      (hexit : ∀ i, (k'.procTable i).exitCode =
        if i = k.processCurrent then code else (k.procTable i).exitCode) :
      TreeStep k k' (.exited (k.procTable k.processCurrent).pid code)
  | reaped {self i} (hzombie : (k.procTable i).state = .zombie)
      (hparent : (k.procTable i).ppid = (k.procTable self).pid) (hself : i ≠ self)
      (hnext : k'.nextPid = k.nextPid)
      (hstate : ∀ j, (k'.procTable j).state = if j = i then .free else (k.procTable j).state)
      (hpid : ∀ j, (k'.procTable j).pid = (k.procTable j).pid)
      (hppid : ∀ j, (k'.procTable j).ppid = (k.procTable j).ppid)
      (hexit : ∀ j, (k'.procTable j).exitCode = (k.procTable j).exitCode) :
      TreeStep k k' (.reaped (k.procTable self).pid (k.procTable i).pid (k.procTable i).exitCode)

theorem Quiet.sameTree (h : Quiet k k') : SameTree k k' where
  state := h.state
  pid i _ := h.pid i
  ppid i _ := h.ppid i
  exitCode i _ := h.exitCode i

theorem Yielded.sameTree (h : Yielded k k') : SameTree k k' where
  state i := by rw [h.procTable]
  pid i _ := by rw [h.procTable]
  ppid i _ := by rw [h.procTable]
  exitCode i _ := by rw [h.procTable]

theorem Quiet.treeStep {obs : Obs} (h : Quiet k k') (hobs : obs.Idle) : TreeStep k k' obs :=
  .same hobs h.sameTree h.nextPid

theorem Yielded.treeStep {obs : Obs} (h : Yielded k k') (hobs : obs.Idle) : TreeStep k k' obs :=
  .same hobs h.sameTree h.nextPid

/-- A change inside a free entry. -/
theorem sameTree_of_free {c : Fin MAX_PROCS} (hc : (k.procTable c).state = .free)
    (hc' : (k'.procTable c).state = .free)
    (hother : ∀ i, i ≠ c → k'.procTable i = k.procTable i) : SameTree k k' := by
  have hne : ∀ i, (k.procTable i).state ≠ .free → k'.procTable i = k.procTable i := fun i hi ↦
    hother i fun h ↦ hi (h ▸ hc)
  refine ⟨fun i ↦ ?_, fun i hi ↦ by rw [hne i hi], fun i hi ↦ by rw [hne i hi],
    fun i hi ↦ by rw [hne i hi]⟩
  by_cases hi : i = c
  · rw [hi, hc, hc']
  · rw [hother i hi]

theorem processFork_treeStep {regs : Registers} {r : ℤ}
    (hf : k.processFork regs = some (r, k')) :
    TreeStep k k' (.forked (k.procTable k.processCurrent).pid r) := by
  obtain ⟨-, rfl, rfl⟩ | ⟨c, stack, heap, hslot, -, ⟨-, rfl, rfl⟩ | ⟨-, rfl, o, m, dir, -, -, rfl⟩ |
    ⟨-, rfl, dir, m, m', -, -, rfl⟩⟩ := processFork_cases hf
  · exact .same rfl (Quiet.refl k').sameTree rfl
  · obtain ⟨-, hfree⟩ := freeSlot_spec hslot
    refine .same rfl (sameTree_of_free hfree ?_ fun i hi ↦ ?_) rfl
    · rw [modifyProc_self]
      rfl
    · rw [modifyProc_of_ne _ _ _ _ hi]
  · obtain ⟨-, hfree⟩ := freeSlot_spec hslot
    refine .failed (sameTree_of_free hfree ?_ fun i hi ↦ ?_) rfl
    · rw [modifyProc_self]
      rfl
    · rw [modifyProc_of_ne _ _ _ _ hi]
      simp [withFresh, hi]
  · obtain ⟨hc, hfree⟩ := freeSlot_spec hslot
    have hne := freeSlot_ne_processCurrent hslot
    have hparent : (k.withFresh c stack heap).procTable k.processCurrent =
        k.procTable k.processCurrent := by simp [withFresh, hne]
    refine .born hc hfree (by simp) (fun i hi ↦ ?_) ?_ ?_ ?_
    · simp [withChild_procTable, hi]
    · simp [withChild_procTable, childEntry, forkedEntry, freshEntry]
    · simp [withChild_procTable, childEntry, forkedEntry, freshEntry]
    · simp [withChild_procTable, childEntry, forkedEntry, hparent]

theorem Exited.treeStep {code : ℤ} {m : Machine} (h : Exited k k' code m) :
    TreeStep k k' (.exited (k.procTable k.processCurrent).pid code) := by
  refine .died h.pid h.nextPid (fun i ↦ ?_) (fun i ↦ ?_) (fun i hi ↦ ?_) fun i ↦ ?_
  · by_cases hi : i = k.processCurrent <;> simp [h.procTable, withExited, exitedEntry, hi]
  · by_cases hi : i = k.processCurrent <;> simp [h.procTable, withExited, exitedEntry, hi]
  · rw [← orphaned_ppid _ _ hi, h.procTable]
    by_cases hcur : i = k.processCurrent <;> simp [withExited, exitedEntry, hcur]
  · by_cases hi : i = k.processCurrent <;> simp [h.procTable, withExited, exitedEntry, hi]

theorem waitSlot_treeStep_next {self i : Fin MAX_PROCS} {status n n' : ℕ}
    (h : k.waitSlot self status n i = some (.next n', k')) : k' = k := by
  obtain ⟨-, hk, -⟩ | ⟨-, -, ⟨-, hk, -⟩ | ⟨-, hw, -⟩⟩ := waitSlot_cases h
  · exact hk
  · exact hk
  · exact nomatch hw

theorem waitSlot_treeStep_reaped {self i : Fin MAX_PROCS} {status n : ℕ} {child : ℤ}
    (h : k.waitSlot self status n i = some (.reaped child, k')) :
    TreeStep k k' (.reaped (k.procTable self).pid child (k.procTable i).exitCode) := by
  obtain ⟨hw, -, -⟩ | ⟨hparent, hself, ⟨hw, -, -⟩ | ⟨hzombie, hw, m, -, rfl⟩⟩ := waitSlot_cases h
  · exact nomatch hw
  · exact nomatch hw
  · cases hw
    refine .reaped hzombie hparent hself rfl (fun j ↦ ?_) (fun j ↦ ?_) (fun j ↦ ?_) fun j ↦ ?_
    all_goals by_cases hj : j = i <;> simp [hj]

/-! ## Pids and parents -/

/-- After `n` creations: pids in use are apart and at most `n`, and the parent
of every process but 0 runs. -/
structure Family (k : Kernel) (n : ℕ) : Prop where
  nextPid : k.nextPid = int32 (n + 1)
  pids : ∀ i, i ≠ 0 → (k.procTable i).state ≠ .free →
    1 ≤ (k.procTable i).pid ∧ (k.procTable i).pid ≤ n
  distinct : ∀ i j, (k.procTable i).state ≠ .free → (k.procTable j).state ≠ .free →
    (k.procTable i).pid = (k.procTable j).pid → i = j
  parent : ∀ i, i ≠ 0 → (k.procTable i).state ≠ .free →
    ∃ j, (k.procTable j).state = .run ∧ (k.procTable j).pid = (k.procTable i).ppid

/-- The tree looks at entries in use only. -/
theorem Family.congr {n n' : ℕ} (h : k.Family n) (htree : SameTree k k') (hn : n ≤ n')
    (hnext : k'.nextPid = int32 (n' + 1)) : k'.Family n' := by
  have hfree : ∀ i, (k'.procTable i).state ≠ .free → (k.procTable i).state ≠ .free := fun i hi ↦ by
    rwa [htree.state] at hi
  refine ⟨hnext, fun i hi hs ↦ ?_, fun i j hi hj hpid ↦ ?_, fun i hi hs ↦ ?_⟩
  · rw [htree.pid i (hfree i hs)]
    have := h.pids i hi (hfree i hs)
    omega
  · rw [htree.pid i (hfree i hi), htree.pid j (hfree j hj)] at hpid
    exact h.distinct i j (hfree i hi) (hfree j hj) hpid
  · obtain ⟨j, hrun, hpid⟩ := h.parent i hi (hfree i hs)
    have hj : (k.procTable j).state ≠ .free := by rw [hrun]; decide
    exact ⟨j, (htree.state j).trans hrun,
      by rw [htree.pid j hj, htree.ppid i (hfree i hs), hpid]⟩

/-- A pid that is handed out is positive; the one after the last would not be,
and would still count as a creation. -/
theorem Family.nextPid_eq {n : ℕ} {p : ℤ} (h : k.Family n)
    (hn : n + (Obs.forked p k.nextPid).creates.toNat < 2 ^ 31) :
    k.nextPid = n + 1 ∧ (Obs.forked p k.nextPid).creates = true := by
  have hlt : n < 2 ^ 31 - 1 := by
    by_contra hge
    have hn31 : n = 2 ^ 31 - 1 := by omega
    have hneg : k.nextPid = -2 ^ 31 := by
      rw [h.nextPid, hn31]
      decide
    have hyes : (Obs.forked p (-2 ^ 31)).creates = true := by simp [Obs.creates, EAGAIN]
    rw [hneg, hn31, hyes] at hn
    exact absurd hn (by decide)
  have hpos : k.nextPid = n + 1 := by
    rw [h.nextPid]
    exact int32_of_lt (by omega) (by omega)
  refine ⟨hpos, ?_⟩
  simp only [Obs.creates, decide_eq_true_eq, hpos, EAGAIN]
  omega

/-- The entries in use were so before the current process died. -/
theorem used_of_died (hcur : (k.procTable k.processCurrent).state ≠ .free)
    (hstate : ∀ i, (k'.procTable i).state =
      if i = k.processCurrent then .zombie else (k.procTable i).state) {i : Fin MAX_PROCS}
    (hi : (k'.procTable i).state ≠ .free) : (k.procTable i).state ≠ .free := by
  rw [hstate] at hi
  split at hi
  · next heq => rwa [heq]
  · exact hi

/-- The entries in use are others than the one that was given back. -/
theorem used_of_reaped {c : Fin MAX_PROCS}
    (hstate : ∀ j, (k'.procTable j).state = if j = c then .free else (k.procTable j).state)
    {i : Fin MAX_PROCS} (hi : (k'.procTable i).state ≠ .free) :
    i ≠ c ∧ (k.procTable i).state ≠ .free := by
  rw [hstate] at hi
  split at hi
  · exact absurd rfl hi
  · next hne => exact ⟨hne, hi⟩

/-- The new process has the pid after the last. -/
theorem Family.born {n : ℕ} {c : Fin MAX_PROCS} (hs : k.Sched) (h : k.Family n)
    (hpos : k.nextPid = n + 1) (hfree : (k.procTable c).state = .free)
    (hnext : k'.nextPid = int32 (k.nextPid + 1))
    (hother : ∀ i, i ≠ c → (k'.procTable i).state = (k.procTable i).state ∧
      (k'.procTable i).pid = (k.procTable i).pid ∧
      (k'.procTable i).ppid = (k.procTable i).ppid ∧
      (k'.procTable i).exitCode = (k.procTable i).exitCode)
    (hpid : (k'.procTable c).pid = k.nextPid)
    (hppid : (k'.procTable c).ppid = (k.procTable k.processCurrent).pid) :
    k'.Family (n + 1) := by
  refine ⟨?_, fun i hi hst ↦ ?_, fun i j hi hj heq ↦ ?_, fun i hi hst ↦ ?_⟩
  · rw [hnext, h.nextPid, int32_add_one]
    push_cast
    rfl
  · by_cases hic : i = c
    · rw [hic, hpid, hpos]
      simp
    · obtain ⟨hold, hp, -, -⟩ := hother i hic
      rw [hold] at hst
      rw [hp]
      have := h.pids i hi hst
      simp
      omega
  · have hnew : ∀ i, i ≠ c → (k.procTable i).state ≠ .free →
        (k.procTable i).pid ≠ k.nextPid := by
      intro i hic hst
      by_cases hi0 : i = 0
      · rw [hi0, hs.zeroPid, hpos]
        omega
      · have := h.pids i hi0 hst
        omega
    by_cases hic : i = c <;> by_cases hjc : j = c
    · rw [hic, hjc]
    · obtain ⟨hst, hp, -, -⟩ := hother j hjc
      rw [hic, hpid, hp] at heq
      exact absurd heq.symm (hnew j hjc (hst ▸ hj))
    · obtain ⟨hst, hp, -, -⟩ := hother i hic
      rw [hjc, hpid, hp] at heq
      exact absurd heq (hnew i hic (hst ▸ hi))
    · obtain ⟨hsti, hpi, -, -⟩ := hother i hic
      obtain ⟨hstj, hpj, -, -⟩ := hother j hjc
      rw [hpi, hpj] at heq
      exact h.distinct i j (hsti ▸ hi) (hstj ▸ hj) heq
  · have hkept : ∀ j, (k.procTable j).state = .run → (k'.procTable j).state = .run ∧
        (k'.procTable j).pid = (k.procTable j).pid := by
      intro j hj
      have hjc : j ≠ c := fun heq ↦ nomatch (heq ▸ hfree).symm.trans hj
      obtain ⟨hst, hp, -, -⟩ := hother j hjc
      exact ⟨hst.trans hj, hp⟩
    by_cases hic : i = c
    · obtain ⟨hrun, hp⟩ := hkept _ hs.current_run
      exact ⟨_, hrun, by rw [hic, hppid, hp]⟩
    · obtain ⟨hold, -, hpp, -⟩ := hother i hic
      obtain ⟨j, hj, hjp⟩ := h.parent i hi (hold ▸ hst)
      obtain ⟨hrun, hp⟩ := hkept j hj
      exact ⟨j, hrun, by rw [hp, hpp, hjp]⟩

/-- The children of the process that dies go to process 0. -/
theorem Family.died {n : ℕ} (hs : k.Sched) (h : k.Family n)
    (hpid0 : (k.procTable k.processCurrent).pid ≠ 0) (hnext : k'.nextPid = k.nextPid)
    (hstate : ∀ i, (k'.procTable i).state =
      if i = k.processCurrent then .zombie else (k.procTable i).state)
    (hpid : ∀ i, (k'.procTable i).pid = (k.procTable i).pid)
    (hppid : ∀ i, (k.procTable i).state ≠ .free → (k'.procTable i).ppid =
      if (k.procTable i).ppid = (k.procTable k.processCurrent).pid then 0
      else (k.procTable i).ppid) :
    k'.Family n := by
  have hcur : (k.procTable k.processCurrent).state ≠ .free := by
    rw [hs.current_run]
    decide
  have hp0 : (0 : Fin MAX_PROCS) ≠ k.processCurrent := fun h0 ↦ hpid0 (h0 ▸ hs.zeroPid)
  refine ⟨hnext.trans h.nextPid, fun i hi hs ↦ ?_, fun i j hi hj heq ↦ ?_, fun i hi hst ↦ ?_⟩
  · rw [hpid]
    exact h.pids i hi (used_of_died hcur hstate hs)
  · rw [hpid, hpid] at heq
    exact h.distinct i j (used_of_died hcur hstate hi) (used_of_died hcur hstate hj) heq
  · rw [hppid i (used_of_died hcur hstate hst)]
    split
    · exact ⟨0, by rw [hstate, if_neg hp0, hs.zeroState], by rw [hpid, hs.zeroPid]⟩
    · next hne =>
        obtain ⟨j, hj, hjp⟩ := h.parent i hi (used_of_died hcur hstate hst)
        have hjcur : j ≠ k.processCurrent := by
          rintro rfl
          exact hne hjp.symm
        exact ⟨j, by rw [hstate, if_neg hjcur, hj], by rw [hpid, hjp]⟩

/-- The parent of a process runs, so the entry given back is no parent. -/
theorem Family.reaped {n : ℕ} {c : Fin MAX_PROCS} (h : k.Family n)
    (hzombie : (k.procTable c).state = .zombie) (hnext : k'.nextPid = k.nextPid)
    (hstate : ∀ j, (k'.procTable j).state = if j = c then .free else (k.procTable j).state)
    (hpid : ∀ j, (k'.procTable j).pid = (k.procTable j).pid)
    (hppid : ∀ j, (k'.procTable j).ppid = (k.procTable j).ppid) :
    k'.Family n := by
  refine ⟨hnext.trans h.nextPid, fun i hi hs ↦ ?_, fun i j hi hj heq ↦ ?_, fun i hi hst ↦ ?_⟩
  · rw [hpid]
    exact h.pids i hi (used_of_reaped hstate hs).2
  · rw [hpid, hpid] at heq
    exact h.distinct i j (used_of_reaped hstate hi).2 (used_of_reaped hstate hj).2 heq
  · obtain ⟨j, hj, hjp⟩ := h.parent i hi (used_of_reaped hstate hst).2
    have hjc : j ≠ c := by
      rintro rfl
      exact nomatch hj.symm.trans hzombie
    exact ⟨j, by rw [hstate, if_neg hjc, hj], by rw [hpid, hppid, hjp]⟩

theorem Family.step {n : ℕ} {obs : Obs} (hs : k.Sched) (h : k.Family n)
    (ht : TreeStep k k' obs) (hn : n + obs.creates.toNat < 2 ^ 31) :
    k'.Family (n + obs.creates.toNat) := by
  cases ht with
  | same hobs htree hnext =>
      have hno : obs.creates = false := by
        cases obs <;> simp [Obs.creates]
        exact hobs
      rw [hno]
      exact h.congr htree le_rfl (hnext.trans h.nextPid)
  | failed htree hnext =>
      have hyes : ∀ p, (Obs.forked p (-ENOMEM)).creates = true := fun _ ↦ by
        simp [Obs.creates, ENOMEM, EAGAIN]
      rw [hyes]
      refine h.congr htree (Nat.le_add_right _ _) ?_
      rw [hnext, h.nextPid, int32_add_one]
      push_cast
      rfl
  | born hc hfree hnext hother hstate hpid hppid =>
      obtain ⟨hpos, hyes⟩ := h.nextPid_eq hn
      rw [hyes]
      exact h.born hs hpos hfree hnext hother hpid hppid
  | died hpid0 hnext hstate hpid hppid hexit => exact h.died hs hpid0 hnext hstate hpid hppid
  | reaped hzombie hparent hself hnext hstate hpid hppid hexit =>
      exact h.reaped hzombie hnext hstate hpid hppid

/-! ## What has been reported -/

/-- The table against the reports `os` so far: a zombie's status is the one it
passed to exit, a pid exits once and is reaped once, by its parent. -/
structure History (k : Kernel) (os : List Obs) : Prop where
  zombie : ∀ i, (k.procTable i).state = .zombie →
    .exited (k.procTable i).pid (k.procTable i).exitCode ∈ os
  exited : ∀ p code : ℤ, .exited p code ∈ os → p ≠ 0 →
    p ≤ os.countP Obs.creates ∧ ∀ i, (k.procTable i).state = .run → (k.procTable i).pid ≠ p
  exitOnce : ∀ p : ℤ, p ≠ 0 → os.countP (Obs.exits p) ≤ 1
  reaped : ∀ q c status : ℤ, .reaped q c status ∈ os → c ≤ os.countP Obs.creates ∧
    .exited c status ∈ os ∧ c ≠ 0 ∧
    (∀ i, (k.procTable i).state ≠ .free → (k.procTable i).pid ≠ c) ∧
    ∃ p, .forked p c ∈ os ∧ (q = p ∨ q = 0 ∧ ∃ code, .exited p code ∈ os)
  reapOnce : ∀ c, os.countP (Obs.reaps c) ≤ 1
  lineage : ∀ i, i ≠ 0 → (k.procTable i).state ≠ .free →
    ∃ p, .forked p (k.procTable i).pid ∈ os ∧
      ((k.procTable i).ppid = p ∨ (k.procTable i).ppid = 0 ∧ ∃ code, .exited p code ∈ os)

theorem mem_of_mem_concat {os : List Obs} {o x : Obs} (h : o ∈ os ++ [x]) (hne : o ≠ x) :
    o ∈ os :=
  (List.mem_append.mp h).resolve_right fun heq ↦ hne (List.mem_singleton.mp heq)

/-- Who may reap a child stays so as the record grows. -/
theorem heir_concat {os : List Obs} {x : Obs} {q p : ℤ}
    (h : q = p ∨ q = 0 ∧ ∃ code, .exited p code ∈ os) :
    q = p ∨ q = 0 ∧ ∃ code, .exited p code ∈ os ++ [x] :=
  h.imp_right fun ⟨hzero, code, hcode⟩ ↦ ⟨hzero, code, List.mem_append_left _ hcode⟩

/-- A report is the first of its kind. -/
theorem countP_concat_le_one {os : List Obs} {x : Obs} {f : Obs → Bool} (h : os.countP f ≤ 1)
    (hnew : f x = true → os.countP f = 0) : (os ++ [x]).countP f ≤ 1 := by
  rw [List.countP_append, List.countP_singleton]
  split
  · next hx => rw [hnew hx]
  · exact h

/-- A report that neither ends nor reaps a process. -/
theorem History.congr {os : List Obs} {obs : Obs} (h : k.History os) (htree : SameTree k k')
    (hexit : ∀ p : ℤ, p ≠ 0 → obs.exits p = false) (hreap : ∀ c, obs.reaps c = false) :
    k'.History (os ++ [obs]) := by
  have hused : ∀ i, (k'.procTable i).state ≠ .free → (k.procTable i).state ≠ .free := fun i hi ↦ by
    rwa [htree.state] at hi
  have hexited : ∀ (p code : ℤ), p ≠ 0 → .exited p code ∈ os ++ [obs] → .exited p code ∈ os := by
    intro p code hp hmem
    rcases List.mem_append.mp hmem with hmem | hmem
    · exact hmem
    · have := hexit p hp
      rw [← List.mem_singleton.mp hmem] at this
      simp [Obs.exits] at this
  refine ⟨fun i hi ↦ ?_, fun p code hmem hp ↦ ?_, fun p hp ↦ ?_, fun q c st hmem ↦ ?_,
    fun c ↦ ?_, fun i hi hst ↦ ?_⟩
  · rw [htree.state] at hi
    have hi' : (k.procTable i).state ≠ .free := by rw [hi]; decide
    rw [htree.pid i hi', htree.exitCode i hi']
    exact List.mem_append_left _ (h.zombie i hi)
  · obtain ⟨hle, hrun⟩ := h.exited p code (hexited p code hp hmem) hp
    refine ⟨?_, fun i hi ↦ ?_⟩
    · rw [List.countP_append]
      push_cast
      omega
    · rw [htree.state] at hi
      rw [htree.pid i (by rw [hi]; decide)]
      exact hrun i hi
  · simpa [List.countP_append, hexit p hp] using h.exitOnce p hp
  · have hmem' : .reaped q c st ∈ os := by
      rcases List.mem_append.mp hmem with hmem | hmem
      · exact hmem
      · have := hreap c
        rw [← List.mem_singleton.mp hmem] at this
        simp [Obs.reaps] at this
    obtain ⟨hle, hex, hc, hgone, p, hfork, hq⟩ := h.reaped q c st hmem'
    refine ⟨?_, List.mem_append_left _ hex, hc, fun i hi ↦ ?_, p, List.mem_append_left _ hfork, ?_⟩
    · rw [List.countP_append]
      push_cast
      omega
    · rw [htree.pid i (hused i hi)]
      exact hgone i (hused i hi)
    · exact heir_concat hq
  · simpa [List.countP_append, hreap c] using h.reapOnce c
  · obtain ⟨p, hfork, hpp⟩ := h.lineage i hi (hused i hst)
    rw [htree.pid i (hused i hst), htree.ppid i (hused i hst)]
    exact ⟨p, List.mem_append_left _ hfork,
      heir_concat hpp⟩

/-- The new process has an entry in the record of forks. -/
theorem History.born {os : List Obs} {c : Fin MAX_PROCS} (h : k.History os)
    (hpos : k.nextPid = os.countP Obs.creates + 1)
    (hyes : (Obs.forked (k.procTable k.processCurrent).pid k.nextPid).creates = true)
    (hother : ∀ i, i ≠ c → (k'.procTable i).state = (k.procTable i).state ∧
      (k'.procTable i).pid = (k.procTable i).pid ∧
      (k'.procTable i).ppid = (k.procTable i).ppid ∧
      (k'.procTable i).exitCode = (k.procTable i).exitCode)
    (hstate : (k'.procTable c).state = .run) (hpid : (k'.procTable c).pid = k.nextPid)
    (hppid : (k'.procTable c).ppid = (k.procTable k.processCurrent).pid) :
    k'.History (os ++ [.forked (k.procTable k.processCurrent).pid k.nextPid]) := by
  have hold : ∀ i, i ≠ c → (k'.procTable i).state ≠ .free → (k.procTable i).state ≠ .free :=
    fun i hic hi ↦ by rwa [(hother i hic).1] at hi
  have hcount : (os ++ [Obs.forked (k.procTable k.processCurrent).pid k.nextPid]).countP
      Obs.creates = os.countP Obs.creates + 1 := by
    simp only [List.countP_append, List.countP_cons, List.countP_nil, hyes, if_true]
  refine ⟨fun i hi ↦ ?_, fun p code hmem hp ↦ ?_, fun p hp ↦ ?_, fun q d st hmem ↦ ?_,
    fun d ↦ ?_, fun i hi hst ↦ ?_⟩
  · have hic : i ≠ c := fun heq ↦ nomatch (heq ▸ hstate).symm.trans hi
    obtain ⟨hst, hp, -, hex⟩ := hother i hic
    rw [hp, hex]
    exact List.mem_append_left _ (h.zombie i (hst ▸ hi))
  · obtain ⟨hle, hrun⟩ := h.exited p code (mem_of_mem_concat hmem nofun) hp
    rw [hcount]
    refine ⟨by push_cast; omega, fun i hi ↦ ?_⟩
    by_cases hic : i = c
    · rw [hic, hpid, hpos]
      omega
    · obtain ⟨hst, hpi, -, -⟩ := hother i hic
      rw [hpi]
      exact hrun i (hst ▸ hi)
  · simpa [List.countP_append, Obs.exits] using h.exitOnce p hp
  · obtain ⟨hle, hex, hd, hgone, p, hfork, hq⟩ :=
      h.reaped q d st (mem_of_mem_concat hmem nofun)
    rw [hcount]
    refine ⟨by push_cast; omega, List.mem_append_left _ hex, hd, fun i hi ↦ ?_, p,
      List.mem_append_left _ hfork,
      heir_concat hq⟩
    by_cases hic : i = c
    · rw [hic, hpid, hpos]
      omega
    · rw [(hother i hic).2.1]
      exact hgone i (hold i hic hi)
  · simpa [List.countP_append, Obs.reaps] using h.reapOnce d
  · by_cases hic : i = c
    · rw [hic, hpid, hppid]
      exact ⟨_, List.mem_append_right _ (List.mem_singleton.mpr rfl), Or.inl rfl⟩
    · obtain ⟨p, hfork, hpp⟩ := h.lineage i hi (hold i hic hst)
      rw [(hother i hic).2.1, (hother i hic).2.2.1]
      exact ⟨p, List.mem_append_left _ hfork,
        heir_concat hpp⟩

/-- The status is in the record, and the pid was not there before. -/
theorem History.died {os : List Obs} {code : ℤ} (hs : k.Sched)
    (hf : k.Family (os.countP Obs.creates)) (h : k.History os)
    (hpid0 : (k.procTable k.processCurrent).pid ≠ 0)
    (hstate : ∀ i, (k'.procTable i).state =
      if i = k.processCurrent then .zombie else (k.procTable i).state)
    (hpid : ∀ i, (k'.procTable i).pid = (k.procTable i).pid)
    (hppid : ∀ i, (k.procTable i).state ≠ .free → (k'.procTable i).ppid =
      if (k.procTable i).ppid = (k.procTable k.processCurrent).pid then 0
      else (k.procTable i).ppid)
    (hexit : ∀ i, (k'.procTable i).exitCode =
      if i = k.processCurrent then code else (k.procTable i).exitCode) :
    k'.History (os ++ [.exited (k.procTable k.processCurrent).pid code]) := by
  have hp0 : k.processCurrent ≠ 0 := fun h0 ↦ hpid0 (h0 ▸ hs.zeroPid)
  have hcur : (k.procTable k.processCurrent).state ≠ .free := by
    rw [hs.current_run]
    decide
  have hnew : Obs.exited (k.procTable k.processCurrent).pid code ∈
      os ++ [Obs.exited (k.procTable k.processCurrent).pid code] :=
    List.mem_append_right _ (List.mem_singleton.mpr rfl)
  have hrun_old : ∀ i, (k'.procTable i).state = .run → i ≠ k.processCurrent ∧
      (k.procTable i).state = .run := by
    intro i hi
    rw [hstate] at hi
    split at hi
    · exact nomatch hi
    · next hne => exact ⟨hne, hi⟩
  have hcount : (os ++ [Obs.exited (k.procTable k.processCurrent).pid code]).countP
      Obs.creates = os.countP Obs.creates := by
    simp [List.countP_append, Obs.creates]
  refine ⟨fun i hi ↦ ?_, fun p code' hmem hp ↦ ?_, fun p hp ↦ ?_, fun q d st hmem ↦ ?_,
    fun d ↦ ?_, fun i hi hst ↦ ?_⟩
  · rw [hpid, hexit]
    rw [hstate] at hi
    by_cases hic : i = k.processCurrent
    · rw [if_pos hic, hic]
      exact hnew
    · rw [if_neg hic] at hi ⊢
      exact List.mem_append_left _ (h.zombie i hi)
  · rw [hcount]
    rcases List.mem_append.mp hmem with hmem | hmem
    · obtain ⟨hle, hrun⟩ := h.exited p code' hmem hp
      refine ⟨hle, fun i hi ↦ ?_⟩
      rw [hpid]
      exact hrun i (hrun_old i hi).2
    · have heq := List.mem_singleton.mp hmem
      rw [Obs.exited.injEq] at heq
      rw [heq.1]
      refine ⟨(hf.pids _ hp0 hcur).2, fun i hi hpi ↦ ?_⟩
      rw [hpid] at hpi
      obtain ⟨hne, hrun⟩ := hrun_old i hi
      exact hne (hf.distinct i _ (by rw [hrun]; decide) hcur hpi)
  · refine countP_concat_le_one (h.exitOnce p hp) fun hx ↦ List.countP_eq_zero.mpr fun o ho hex ↦ ?_
    cases o <;> simp [Obs.exits] at hex
    rename_i p' code'
    have heq : (k.procTable k.processCurrent).pid = p := by simpa [Obs.exits] using hx
    rw [hex] at ho
    exact (h.exited p code' ho hp).2 _ hs.current_run heq
  · obtain ⟨hle, hex, hd, hgone, p, hfork, hq⟩ :=
      h.reaped q d st (mem_of_mem_concat hmem nofun)
    rw [hcount]
    refine ⟨hle, List.mem_append_left _ hex, hd, fun i hi ↦ ?_, p,
      List.mem_append_left _ hfork,
      heir_concat hq⟩
    rw [hpid]
    exact hgone i (used_of_died hcur hstate hi)
  · simpa [List.countP_append, Obs.reaps] using h.reapOnce d
  · obtain ⟨p, hfork, hpp⟩ := h.lineage i hi (used_of_died hcur hstate hst)
    rw [hpid, hppid i (used_of_died hcur hstate hst)]
    refine ⟨p, List.mem_append_left _ hfork, ?_⟩
    obtain heq | ⟨h0, code', hcode⟩ := hpp
    · by_cases hpar : (k.procTable i).ppid = (k.procTable k.processCurrent).pid
      · rw [if_pos hpar]
        exact Or.inr ⟨rfl, code, by rw [← heq, hpar]; exact hnew⟩
      · rw [if_neg hpar]
        exact Or.inl heq
    · rw [h0, if_neg fun heq ↦ hpid0 heq.symm]
      exact Or.inr ⟨rfl, code', List.mem_append_left _ hcode⟩

/-- A zombie's pid is taken out of the table with its status. -/
theorem History.reap {os : List Obs} {self c : Fin MAX_PROCS} (hs : k.Sched)
    (hf : k.Family (os.countP Obs.creates)) (h : k.History os)
    (hzombie : (k.procTable c).state = .zombie)
    (hparent : (k.procTable c).ppid = (k.procTable self).pid)
    (hstate : ∀ j, (k'.procTable j).state = if j = c then .free else (k.procTable j).state)
    (hpid : ∀ j, (k'.procTable j).pid = (k.procTable j).pid)
    (hppid : ∀ j, (k'.procTable j).ppid = (k.procTable j).ppid)
    (hexit : ∀ j, (k'.procTable j).exitCode = (k.procTable j).exitCode) :
    k'.History (os ++ [.reaped (k.procTable self).pid (k.procTable c).pid
      (k.procTable c).exitCode]) := by
  have hc : (k.procTable c).state ≠ .free := by rw [hzombie]; decide
  have hc0 : c ≠ 0 := by
    rintro rfl
    exact nomatch hs.zeroState.symm.trans hzombie
  have hcount : (os ++ [Obs.reaped (k.procTable self).pid (k.procTable c).pid
      (k.procTable c).exitCode]).countP Obs.creates = os.countP Obs.creates := by
    simp [List.countP_append, Obs.creates]
  refine ⟨fun i hi ↦ ?_, fun p code hmem hp ↦ ?_, fun p hp ↦ ?_, fun q d st hmem ↦ ?_,
    fun d ↦ ?_, fun i hi hst ↦ ?_⟩
  · rw [hpid, hexit]
    rw [hstate] at hi
    split at hi
    · exact nomatch hi
    · exact List.mem_append_left _ (h.zombie i hi)
  · obtain ⟨hle, hrun⟩ := h.exited p code (mem_of_mem_concat hmem nofun) hp
    rw [hcount]
    refine ⟨hle, fun i hi ↦ ?_⟩
    rw [hpid]
    rw [hstate] at hi
    split at hi
    · exact nomatch hi
    · exact hrun i hi
  · simpa [List.countP_append, Obs.exits] using h.exitOnce p hp
  · rw [hcount]
    rcases List.mem_append.mp hmem with hmem | hmem
    · obtain ⟨hle, hex, hd, hgone, p, hfork, hq⟩ := h.reaped q d st hmem
      refine ⟨hle, List.mem_append_left _ hex, hd, fun i hi ↦ ?_, p,
        List.mem_append_left _ hfork,
        heir_concat hq⟩
      rw [hpid]
      exact hgone i (used_of_reaped hstate hi).2
    · have heq := List.mem_singleton.mp hmem
      rw [Obs.reaped.injEq] at heq
      obtain ⟨rfl, rfl, rfl⟩ := heq
      obtain ⟨hlow, hhigh⟩ := hf.pids c hc0 hc
      obtain ⟨p, hfork, hpp⟩ := h.lineage c hc0 hc
      rw [hparent] at hpp
      refine ⟨hhigh, List.mem_append_left _ (h.zombie c hzombie), by omega, fun i hi hpi ↦ ?_,
        p, List.mem_append_left _ hfork,
        heir_concat hpp⟩
      obtain ⟨hne, hold⟩ := used_of_reaped hstate hi
      rw [hpid] at hpi
      exact hne (hf.distinct i c hold hc hpi)
  · refine countP_concat_le_one (h.reapOnce d) fun hx ↦ List.countP_eq_zero.mpr fun o ho hre ↦ ?_
    cases o <;> simp [Obs.reaps] at hre
    rename_i q d' st
    have heq : (k.procTable c).pid = d := by simpa [Obs.reaps] using hx
    rw [hre] at ho
    exact (h.reaped q d st ho).2.2.2.1 c hc heq
  · obtain ⟨p, hfork, hpp⟩ := h.lineage i hi (used_of_reaped hstate hst).2
    rw [hpid, hppid]
    exact ⟨p, List.mem_append_left _ hfork,
      heir_concat hpp⟩

theorem History.step {os : List Obs} {obs : Obs} (hs : k.Sched)
    (hf : k.Family (os.countP Obs.creates)) (h : k.History os) (ht : TreeStep k k' obs)
    (hn : os.countP Obs.creates + obs.creates.toNat < 2 ^ 31) : k'.History (os ++ [obs]) := by
  cases ht with
  | same hobs htree hnext =>
      refine h.congr htree (fun p hp ↦ ?_) fun c ↦ ?_
      · cases obs <;> simp [Obs.exits]
        rintro rfl
        exact hp hobs
      · cases obs <;> simp [Obs.reaps]
        exact hobs.elim
  | failed htree hnext => exact h.congr htree (fun _ _ ↦ rfl) fun _ ↦ rfl
  | born hc hfree hnext hother hstate hpid hppid =>
      obtain ⟨hpos, hyes⟩ := hf.nextPid_eq hn
      exact h.born hpos hyes hother hstate hpid hppid
  | died hpid0 hnext hstate hpid hppid hexit => exact h.died hs hf hpid0 hstate hpid hppid hexit
  | reaped hzombie hparent hself hnext hstate hpid hppid hexit =>
      exact h.reap hs hf hzombie hparent hstate hpid hppid hexit

end Kernel

namespace System

variable {s s' : System} {op : Op} {obs : Obs}

theorem step_tree (h : s.kernel.Sched) (hstep : s.step op = some (s', obs)) :
    Kernel.TreeStep s.kernel s'.kernel obs := by
  cases step_case hstep with
  | forkNoSlot _ hk _ => exact Kernel.processFork_treeStep hk
  | fork _ hk _ => exact Kernel.processFork_treeStep hk
  | execError _ hk => exact (Kernel.sysExecve_quiet hk).treeStep trivial
  | exec _ hk => exact (Kernel.sysExecve_quiet hk).treeStep trivial
  | halt _ hk =>
      obtain ⟨hpid, -, rfl⟩ | ⟨-, ho, -⟩ := Kernel.processExit_cases h.zeroPid hk
      · exact (Kernel.quiet_tssSetStack _ _).treeStep hpid
      · exact nomatch ho
  | exit _ hk hy =>
      obtain ⟨m, hexit⟩ := Kernel.exit_spec h.zeroPid hk hy
      exact hexit.treeStep
  | waitFault _ _ => exact (Kernel.Quiet.refl _).treeStep trivial
  | wait _ _ => exact (Kernel.Quiet.refl _).treeStep trivial
  | scanNext _ _ hk =>
      have hsame := Kernel.waitSlot_treeStep_next hk
      subst hsame
      exact (Kernel.Quiet.refl _).treeStep trivial
  | reap _ _ hk => exact Kernel.waitSlot_treeStep_reaped hk
  | noChild _ _ => exact (Kernel.Quiet.refl _).treeStep trivial
  | block _ _ _ hy => exact (Kernel.yield_spec hy).treeStep trivial
  | tickUser _ hy => exact (Kernel.yield_spec hy).treeStep trivial
  | tickKernel _ hy => exact (Kernel.yield_spec hy).treeStep trivial
  | taskCreate hk =>
      obtain ⟨heap, m, regs, -, -, rfl⟩ := Kernel.taskCreate_cases hk
      refine .same trivial ⟨fun i ↦ ?_, fun i _ ↦ ?_, fun i _ ↦ ?_, fun i _ ↦ ?_⟩ ?_
      · simp [withKernel, setMode]
      · simp [withKernel, setMode]
      · simp [withKernel, setMode]
      · simp [withKernel, setMode]
      · simp [withKernel, setMode, Kernel.taskAdd]
  | sbrk _ hk => exact (Kernel.sysSbrk_quiet hk).treeStep trivial
  | openFile _ hk => exact (Kernel.sysOpen_quiet hk).treeStep trivial
  | closeFile _ => exact (Kernel.sysClose_quiet _ _).treeStep trivial
  | readFile _ hk => exact (Kernel.sysRead_quiet hk).treeStep trivial
  | store _ _ => exact (Kernel.quiet_withMachine _ _).treeStep trivial

end System

end EclipseOS
