import EclipseOS.Waiting

/-!
# Saved contexts

What `switch_task` saves for a task stays in place while other tasks run,
whatever they call, and is what it loads when the task is dispatched again.
-/

namespace EclipseOS

namespace System

variable {s s' s₀ s₁ s₂ s₃ s₄ : System} {op op₁ op₃ : Op} {obs obs₁ obs₃ : Obs} {t : TaskRef} {y : ℕ}
  {tr : List (Op × Obs)}

/-- No step of the running task touches what is saved of another. -/
theorem step_regs (hs : s.kernel.Sched) (hr : s.kernel.heap.Ready) (ht : s.kernel.Scheduled t)
    (hne : s.cur ≠ t) (hstep : s.step op = some (s', obs)) :
    (s'.kernel.task t).regs = (s.kernel.task t).regs := by
  cases step_turn hs hr hstep with
  | keeps _ hk _ => exact hk.regs t ht hne.symm
  | splices _ hk _ => exact hk.regs t ht
  | @turns k _ hk _ hy =>
      obtain rfl | hleft := hk
      · exact Kernel.yield_regs hy hne.symm
      · have hne' : t ≠ k.runningTask := by
          rw [hleft.running]
          exact hne.symm
        exact (Kernel.yield_regs hy hne').trans (hleft.regs t hne.symm)

/-- A waiting task keeps its place and its context. -/
theorem Waits.regs (h : Waits t s₀ y s) (hs : s₀.kernel.Sched) (hr : s₀.kernel.heap.Ready)
    (ht : s₀.kernel.Scheduled t) : s.kernel.Sched ∧ s.kernel.heap.Ready ∧ s.kernel.Scheduled t ∧
      (s.kernel.task t).regs = (s₀.kernel.task t).regs := by
  induction h with
  | start hne => exact ⟨hs, hr, ht, rfl⟩
  | step hwaits hstep hne ih =>
      obtain ⟨hs₁, hr₁, ht₁, hregs⟩ := ih
      obtain ⟨c, hc⟩ := hs₁.ring
      obtain ⟨l, hl, -⟩ := hc.ahead ((hc.2.2 _).mpr ht₁) hwaits.ne
      obtain ⟨l', hl', -⟩ := step_ahead hs₁ hr₁ hl hstep hne
      have hs₂ := step_sched hs₁ hstep
      exact ⟨hs₂, (step_heap hs₁ hr₁ hstep).1, hl'.scheduled hs₂,
        (step_regs hs₁ hr₁ ht₁ hwaits.ne hstep).trans hregs⟩

/-- The step that hands the processor over loads the context of the next task. -/
theorem step_dispatch (hs : s.kernel.Sched) (hr : s.kernel.heap.Ready)
    (hstep : s.step op = some (s', obs)) (hne : s'.cur ≠ s.cur) :
    s.context op = some (s.kernel.task s'.cur).regs ∧
      ((s.kernel.task s'.cur).regs.cr3 ≠ 0 →
        s'.kernel.machine.cr3 = (s.kernel.task s'.cur).regs.cr3) ∧
      (s'.kernel.Scheduled s.cur → (s'.kernel.task s.cur).regs =
        Kernel.saveContext op.cpu s.kernel.machine.cr3 (s.kernel.task s.cur).regs) := by
  cases step_turn hs hr hstep with
  | keeps _ hk _ => exact absurd hk.running hne
  | splices _ hk _ => exact absurd hk.running hne
  | @turns k _ hk hcontext hy =>
      have hload : ∀ {m : Machine} {cr3 : ℕ}, cr3 ≠ 0 → (Kernel.loadSpace m cr3).cr3 = cr3 := by
        intro m cr3 h0
        rw [Kernel.loadSpace, if_neg h0]
      obtain rfl | hleft := hk
      · obtain ⟨hctx, hsave, hmachine⟩ := Kernel.yield_context hy hne
        refine ⟨hcontext.trans hctx, fun h0 ↦ ?_, fun _ ↦ hsave⟩
        rw [hmachine]
        exact hload h0
      · have hne' : s'.kernel.runningTask ≠ k.runningTask := by
          rw [hleft.running]
          exact hne
        obtain ⟨hctx, -, hmachine⟩ := Kernel.yield_context hy hne'
        have hregs := hleft.regs _ hne
        refine ⟨hcontext.trans (hctx.trans (congrArg some hregs)), fun h0 ↦ ?_, fun hsched ↦ ?_⟩
        · rw [← hregs] at h0 ⊢
          rw [hmachine]
          exact hload h0
        · exact absurd (((Kernel.yield_spec hy).advanced.scheduled _).mp hsched) hleft.gone

/-- A task that stays in the ring is resumed with the context and in the address space
it was switched out with. -/
theorem context_kept {k : Kernel} {size brk : ℕ} (hheap : (boot k size brk).kernel.heap.Ready)
    (hrun : Run (boot k size brk) tr s₁) (hout : s₁.step op₁ = some (s₂, obs₁))
    (hstay : s₂.kernel.Scheduled s₁.cur) (hwaits : Waits s₁.cur s₂ y s₃)
    (hin : s₃.step op₃ = some (s₄, obs₃)) (hback : s₄.cur = s₁.cur) :
    s₃.context op₃ = some (Kernel.saveContext op₁.cpu s₁.kernel.machine.cr3
      (s₁.kernel.task s₁.cur).regs) ∧
      (s₁.kernel.machine.cr3 ≠ 0 → s₄.kernel.machine.cr3 = s₁.kernel.machine.cr3) := by
  obtain ⟨hs₁, hr₁, -⟩ := hrun.heap (boot_sched k size brk) hheap
  obtain ⟨-, -, hsaved⟩ := step_dispatch hs₁ hr₁ hout hwaits.start_ne
  obtain ⟨hs₃, hr₃, -, hregs⟩ :=
    hwaits.regs (step_sched hs₁ hout) (step_heap hs₁ hr₁ hout).1 hstay
  obtain ⟨hctx, hspace, -⟩ := step_dispatch hs₃ hr₃ hin (hback ▸ hwaits.ne.symm)
  rw [hback, hregs, hsaved hstay] at hctx hspace
  exact ⟨hctx, hspace⟩

/-- Process 0 after the turn of its child. -/
theorem context_kept_child : ∃ s₁ s₂ : System, s₁.cur = .main ∧ s₂.cur = .proc 1 ∧
    s₂.context (.tick .zero) = some (Kernel.saveContext .zero s₁.kernel.machine.cr3
      (s₁.kernel.task .main).regs) := by
  obtain ⟨o, s₁, s₂, s₃, hfork, htick₁, htick₂, hcur₁, hcur₂, hcur₃, -⟩ := Sample.pageless_turns
  have hwaits : Waits s₁.cur s₂ 0 s₂ := by
    apply Waits.start
    rw [hcur₁, hcur₂]
    exact TaskRef.noConfusion
  have hstay : s₂.kernel.Scheduled s₁.cur := by
    rw [hcur₁]
    trivial
  obtain ⟨hcontext, -⟩ := context_kept Sample.pageless_heap (Run.start.step hfork) htick₁ hstay hwaits
    htick₂ (hcur₃.trans hcur₁.symm)
  rw [hcur₁] at hcontext
  exact ⟨s₁, s₂, hcur₁, hcur₂, hcontext⟩

end System

end EclipseOS
