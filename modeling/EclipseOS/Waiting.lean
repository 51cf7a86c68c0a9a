import EclipseOS.Turns

/-!
# Waiting for a turn

A task that waits for the processor has so many tasks before it in the ring.
Each `yield` takes one of them off; only a fork and `task_create` put a new one
there, and each of these takes a page of the kernel heap or a task object.
-/

namespace EclipseOS

open IntrusiveList

namespace Kernel

variable {k k' : Kernel} {c l : List TaskRef} {t : TaskRef}

/-- The tasks `l` have their turns before `t`. -/
structure Ahead (k : Kernel) (t : TaskRef) (l : List TaskRef) : Prop where
  links : Links k.next k.runningTask l t
  nodup : (k.runningTask :: l).Nodup
  ne : k.runningTask ≠ t
  notMem : t ∉ l

/-- The kernel stacks that the heap has room for. -/
def room (k : Kernel) : ℕ := k.heap.left / KSTACK_SIZE

theorem SchedRing.ahead (hc : k.SchedRing c) (ht : t ∈ c) (hne : k.runningTask ≠ t) :
    ∃ l, k.Ahead t l ∧ l.length + 1 = c.idxOf t := by
  obtain ⟨l, rfl⟩ := hc.exists_cons
  obtain ⟨l', hlinks, hnodup, hnotMem, hlen⟩ := hc.2.1.links_to ht hne
  exact ⟨l', ⟨hlinks, hnodup, hne, hnotMem⟩, hlen⟩

/-- The tasks on the way belong to the ring, and so does the waiting one. -/
theorem Ahead.scheduled (h : k.Ahead t l) (hs : k.Sched) : k.Scheduled t := by
  obtain ⟨c, hc⟩ := hs.ring
  have hrun : k.runningTask ∈ c := (hc.2.2 _).mpr hc.scheduled_running
  exact (hc.2.2 t).mp (hc.2.1.links_mem hrun h.links)

theorem Sched.links_scheduled (hs : k.Sched) {a : TaskRef} (ha : k.Scheduled a)
    (hl : Links k.next a l t) : ∀ r ∈ a :: l, k.Scheduled r := by
  obtain ⟨c, hc⟩ := hs.ring
  have hac : a ∈ c := (hc.2.2 a).mpr ha
  intro r hr
  obtain rfl | hr := List.mem_cons.mp hr
  · exact ha
  · obtain ⟨l₁, l₂, rfl⟩ := List.append_of_mem hr
    exact (hc.2.2 r).mp (hc.2.1.links_mem hac ((links_append r).mp hl).1)

theorem Ahead.members (h : k.Ahead t l) (hs : k.Sched) :
    ∀ r ∈ k.runningTask :: l, k.Scheduled r := by
  obtain ⟨c, hc⟩ := hs.ring
  exact hs.links_scheduled hc.scheduled_running h.links

theorem Ahead.keeps (h : k.Ahead t l) (hs : k.Sched) (hk : Keeps k k') : k'.Ahead t l where
  links := by
    rw [hk.running]
    exact h.links.congr fun r hr ↦ hk.next r (h.members hs r hr)
  nodup := hk.running ▸ h.nodup
  ne := hk.running ▸ h.ne
  notMem := h.notMem

/-- A new task is next in line. -/
theorem Ahead.splices (h : k.Ahead t l) (hs : k.Sched) {new : TaskRef} (hk : Splices new k k') :
    k'.Ahead t (new :: l) := by
  have hmem := h.members hs
  have hnew : new ∉ k.runningTask :: l := fun hin ↦ hk.fresh (hmem new hin)
  have hrun : k.runningTask ∉ l := (List.nodup_cons.mp h.nodup).1
  exact {
    links := by
      rw [hk.running]
      refine ⟨hk.first, ?_⟩
      have hlinks := h.links
      cases l with
      | nil => exact hk.second.trans hlinks
      | cons b l =>
          refine ⟨hk.second.trans hlinks.1, hlinks.2.congr fun r hr ↦ ?_⟩
          refine hk.next r (hmem r (List.mem_cons_of_mem _ hr)) ?_
          rintro rfl
          exact hrun hr
    nodup := by
      rw [hk.running]
      refine List.nodup_cons.mpr ⟨?_, List.nodup_cons.mpr ⟨?_, (List.nodup_cons.mp h.nodup).2⟩⟩
      · intro hin
        obtain heq | hin := List.mem_cons.mp hin
        · exact hnew (heq ▸ List.mem_cons_self ..)
        · exact hrun hin
      · exact fun hin ↦ hnew (List.mem_cons_of_mem _ hin)
    ne := hk.running ▸ h.ne
    notMem := by
      intro hin
      obtain rfl | hin := List.mem_cons.mp hin
      · exact hk.fresh (h.scheduled hs)
      · exact h.notMem hin }

/-- What an exit does to the links is behind the waiting task. -/
theorem Ahead.left (h : k.Ahead t l) (hk : Left k k') : k'.Ahead t l where
  links := by
    rw [hk.running]
    obtain heq | ⟨prev, hprev, heq⟩ := hk.links
    · rw [heq]
      exact h.links
    · have hnot : prev ∉ k.runningTask :: l :=
        h.links.notMem hprev h.ne (List.nodup_cons.mp h.nodup).1
      refine h.links.congr fun r hr ↦ ?_
      rw [heq, Function.update_of_ne]
      rintro rfl
      exact hnot hr
  nodup := hk.running ▸ h.nodup
  ne := hk.running ▸ h.ne
  notMem := h.notMem

/-- A yield to another task takes it off the list. -/
theorem Ahead.yield {cpu : TaskRegs} (h : k.Ahead t l) (hy : k.yield cpu = some k')
    (hne : k'.runningTask ≠ t) : ∃ l', l = k'.runningTask :: l' ∧ k'.Ahead t l' := by
  have hyield := yield_spec hy
  have hlinks := h.links
  have hnodup := h.nodup
  have hnotMem := h.notMem
  cases l with
  | nil =>
      have heq : some t = some k'.runningTask := hlinks.symm.trans hyield.running
      exact absurd (Option.some.inj heq).symm hne
  | cons b l =>
      obtain rfl := Option.some.inj (hlinks.1.symm.trans hyield.running)
      refine ⟨l, rfl, ?_, (List.nodup_cons.mp hnodup).2, hne, ?_⟩
      · rw [hyield.next]
        exact hlinks.2
      · exact fun hin ↦ hnotMem (List.mem_cons_of_mem _ hin)

/-- A task that joins takes a page of the heap or a task object. -/
theorem Splices.joins (hk : Splices t k k') (hr : k.heap.Ready) (hr' : k'.heap.Ready)
    (hleft : k'.heap.left ≤ k.heap.left) :
    k.createdCount + k'.room + 1 ≤ k'.createdCount + k.room := by
  have hroom : k'.room ≤ k.room := Nat.div_le_div_right hleft
  obtain ⟨c, -, -, hcount, hnext, -⟩ | ⟨-, hcount, -⟩ := hk.joined
  · have hstop := hr.stop
    have hstop' := hr'.stop
    have hpage : k'.heap.left + KSTACK_SIZE ≤ k.heap.left := by
      have hle := hr'.next
      simp only [Kheap.left]
      omega
    have hdiv : k'.room + 1 ≤ k.room := by
      rw [room, room, ← Nat.add_div_right _ (by decide)]
      exact Nat.div_le_div_right hpage
    omega
  · omega

end Kernel

namespace System

variable {s s' s₀ : System} {op : Op} {obs : Obs} {t : TaskRef} {y : ℕ}

/-- The run from `s₀` comes to `s` after `y` yields, and `t` has not run. -/
inductive Waits (t : TaskRef) (s₀ : System) : ℕ → System → Prop
  | start (hne : s₀.cur ≠ t) : Waits t s₀ 0 s₀
  | step {y : ℕ} {s s' : System} {op : Op} {obs : Obs} : Waits t s₀ y s →
      s.step op = some (s', obs) → s'.cur ≠ t → Waits t s₀ (y + (s.yields op).toNat) s'

theorem Waits.ne (h : Waits t s₀ y s) : s.cur ≠ t := by
  cases h with
  | start hne => exact hne
  | step _ _ hne => exact hne

theorem Waits.start_ne (h : Waits t s₀ y s) : s₀.cur ≠ t := by
  induction h with
  | start hne => exact hne
  | step _ _ _ ih => exact ih

/-- A step takes as many tasks off the list as it yields, and puts on no more than join. -/
theorem step_ahead {l : List TaskRef} (hs : s.kernel.Sched) (hr : s.kernel.heap.Ready)
    (h : s.kernel.Ahead t l) (hstep : s.step op = some (s', obs)) (hne : s'.cur ≠ t) :
    ∃ l', s'.kernel.Ahead t l' ∧
      l'.length + (s.yields op).toNat + s.kernel.createdCount + s'.kernel.room ≤
        l.length + s'.kernel.createdCount + s.kernel.room := by
  obtain ⟨hr', hleft⟩ := step_heap hs hr hstep
  have hleft' : s'.kernel.heap.left ≤ s.kernel.heap.left := le_trans (Nat.le_add_right _ _) hleft
  have hroom : s'.kernel.room ≤ s.kernel.room := Nat.div_le_div_right hleft'
  cases step_turn hs hr hstep with
  | keeps hyields hk _ =>
      refine ⟨l, h.keeps hs hk, ?_⟩
      rw [hyields, hk.createdCount]
      simpa using hroom
  | splices hyields hk _ =>
      refine ⟨_, h.splices hs hk, ?_⟩
      have hjoins := hk.joins hr hr' hleft'
      rw [hyields]
      simp only [List.length_cons, Bool.toNat_false]
      omega
  | @turns k hyields hk _ hy =>
      have hahead : k.Ahead t l ∧ k.createdCount = s.kernel.createdCount := by
        obtain rfl | hexit := hk
        · exact ⟨h, rfl⟩
        · exact ⟨h.left hexit, hexit.createdCount⟩
      obtain ⟨l', rfl, hahead'⟩ := hahead.1.yield hy hne
      refine ⟨l', hahead', ?_⟩
      have hcount : s'.kernel.createdCount = s.kernel.createdCount :=
        (Kernel.yield_spec hy).createdCount.trans hahead.2
      rw [hyields, hcount]
      simp only [List.length_cons, Bool.toNat_true]
      omega

theorem Waits.ahead {l : List TaskRef} (h : Waits t s₀ y s) (hs : s₀.kernel.Sched)
    (hr : s₀.kernel.heap.Ready) (hl : s₀.kernel.Ahead t l) :
    s.kernel.Sched ∧ s.kernel.heap.Ready ∧ ∃ l', s.kernel.Ahead t l' ∧
      l'.length + y + s₀.kernel.createdCount + s.kernel.room ≤
        l.length + s.kernel.createdCount + s₀.kernel.room := by
  induction h with
  | start => exact ⟨hs, hr, l, hl, by omega⟩
  | step _ hstep hne ih =>
      obtain ⟨hs₁, hr₁, l₁, hl₁, hle₁⟩ := ih
      obtain ⟨l₂, hl₂, hle₂⟩ := step_ahead hs₁ hr₁ hl₁ hstep hne
      exact ⟨step_sched hs₁ hstep, (step_heap hs₁ hr₁ hstep).1, l₂, hl₂, by omega⟩

end System

end EclipseOS
