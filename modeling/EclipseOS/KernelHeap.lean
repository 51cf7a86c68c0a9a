import EclipseOS.Directory
import EclipseOS.Sample
import EclipseOS.ProcessTree

/-!
# The kernel heap

`kmalloc` only moves forward and nothing gives back.  Every process creation
takes a page for the kernel stack, so a run creates no more processes than the
heap has pages left.
-/

namespace EclipseOS

namespace Kheap

variable {h h' : Kheap} {stack : ℕ}

/-- The heap `kheap_initialize` sets up, used or not. -/
structure Ready (h : Kheap) : Prop where
  stop : h.heapEnd = KERNEL_HEAP_BASE + KERNEL_HEAP_SIZE
  start : KERNEL_HEAP_BASE ≤ h.heapNext
  next : h.heapNext ≤ h.heapEnd

/-- Bytes not yet handed out. -/
def left (h : Kheap) : ℕ := h.heapEnd - h.heapNext

/-- A page from the heap: the next aligned one, or none when that does not fit. -/
theorem kmallocAligned_cases (hr : h.Ready) :
    let next := (h.heapNext + 0xFFF) / 4096 * 4096
    (h.heapEnd < next + KSTACK_SIZE ∧
      h.kmallocAligned KSTACK_SIZE = (0, { h with heapNext := next })) ∨
    (next + KSTACK_SIZE ≤ h.heapEnd ∧
      h.kmallocAligned KSTACK_SIZE = (next, { h with heapNext := next + KSTACK_SIZE })) := by
  obtain ⟨hstop, hstart, hle⟩ := hr
  rw [hstop, KERNEL_HEAP_BASE, KERNEL_HEAP_SIZE] at hle
  have hmask : ((h.heapNext + 0xFFF) % 2 ^ 32) &&& PAGE_MASK =
      (h.heapNext + 0xFFF) / 4096 * 4096 := by
    rw [Nat.mod_eq_of_lt (by omega), PAGE_MASK, LittleEndian.and_page_mask (by omega)]
  have hround : ((KSTACK_SIZE + 7) % 2 ^ 32) &&& 0xFFFFFFF8 = KSTACK_SIZE := by decide
  have hwrap : ((h.heapNext + 0xFFF) / 4096 * 4096 + KSTACK_SIZE) % 2 ^ 32 =
      (h.heapNext + 0xFFF) / 4096 * 4096 + KSTACK_SIZE := by
    rw [KSTACK_SIZE]
    omega
  simp only [kmallocAligned, kmalloc, hmask, hround, hwrap]
  split
  · next hlt => exact Or.inl ⟨hlt, rfl⟩
  · next hlt => exact Or.inr ⟨not_lt.mp hlt, rfl⟩

theorem Ready.kmallocAligned (hr : h.Ready)
    (heq : h.kmallocAligned KSTACK_SIZE = (stack, h')) :
    h'.Ready ∧ h'.left + (if stack = 0 then 0 else KSTACK_SIZE) ≤ h.left := by
  have hstop := hr.stop
  have hstart := hr.start
  have hle := hr.next
  rw [KERNEL_HEAP_BASE] at hstart
  obtain ⟨hlt, hcase⟩ | ⟨hlt, hcase⟩ := kmallocAligned_cases hr <;>
    obtain ⟨rfl, rfl⟩ := Prod.mk.inj (heq.symm.trans hcase)
  · rw [KERNEL_HEAP_BASE, KERNEL_HEAP_SIZE] at hstop
    refine ⟨⟨hr.stop, ?_, ?_⟩, ?_⟩
    · change KERNEL_HEAP_BASE ≤ (h.heapNext + 0xFFF) / 4096 * 4096
      rw [KERNEL_HEAP_BASE]
      omega
    · change (h.heapNext + 0xFFF) / 4096 * 4096 ≤ h.heapEnd
      omega
    · simp only [left, if_true]
      omega
  · rw [KSTACK_SIZE] at hlt
    refine ⟨⟨hr.stop, ?_, ?_⟩, ?_⟩
    · change KERNEL_HEAP_BASE ≤ (h.heapNext + 0xFFF) / 4096 * 4096 + KSTACK_SIZE
      rw [KERNEL_HEAP_BASE]
      omega
    · change (h.heapNext + 0xFFF) / 4096 * 4096 + KSTACK_SIZE ≤ h.heapEnd
      rw [KSTACK_SIZE]
      omega
    · have hne : (h.heapNext + 0xFFF) / 4096 * 4096 ≠ 0 := by omega
      simp only [left, if_neg hne, KSTACK_SIZE]
      omega

end Kheap

namespace Kernel

variable {k k' : Kernel}

/-- What a call of `process_fork` takes from the heap. -/
theorem processFork_heap (hr : k.heap.Ready) {regs : Registers} {r p : ℤ}
    (h : k.processFork regs = some (r, k')) : k'.heap.Ready ∧
      k'.heap.left + (if (Obs.forked p r).creates then KSTACK_SIZE else 0) ≤ k.heap.left := by
  obtain ⟨-, rfl, rfl⟩ | ⟨c, stack, heap, -, hheap, ⟨hstack, rfl, rfl⟩ |
    ⟨hstack, rfl, o, m, dir, -, -, rfl⟩ | ⟨hstack, rfl, dir, m, m', -, -, rfl⟩⟩ :=
    processFork_cases h
  · exact ⟨hr, by simp [Obs.creates]⟩
  · obtain ⟨hready, hleft⟩ := hr.kmallocAligned hheap
    refine ⟨hready, ?_⟩
    simpa [Obs.creates, hstack] using hleft
  · obtain ⟨hready, hleft⟩ := hr.kmallocAligned hheap
    refine ⟨hready, ?_⟩
    rw [if_neg hstack] at hleft
    exact le_trans (Nat.add_le_add_left (by split <;> simp) _) hleft
  · obtain ⟨hready, hleft⟩ := hr.kmallocAligned hheap
    rw [withChild_heap]
    refine ⟨hready, ?_⟩
    rw [if_neg hstack] at hleft
    exact le_trans (Nat.add_le_add_left (by split <;> simp) _) hleft

/-- The stack is taken before the directory is asked for. -/
theorem processFork_noDirectory (regs : Registers) {c : Fin MAX_PROCS} {m : Machine}
    (hslot : k.freeSlot = some c) (hstack : (k.heap.kmallocAligned KSTACK_SIZE).1 ≠ 0)
    (hnew : k.machine.pagingNewDirectory = some (0, m)) :
    ∃ k', k.processFork regs = some (-ENOMEM, k') ∧
      k'.heap = (k.heap.kmallocAligned KSTACK_SIZE).2 := by
  obtain ⟨hnone, -⟩ | ⟨c', stack, heap, -, hheap, ⟨hzero, -⟩ | ⟨-, hcreate⟩⟩ :=
    processCreate_cases k
  · exact nomatch hslot.symm.trans hnone
  · rw [hheap] at hstack
    exact absurd hzero hstack
  · rw [hheap, processFork, hcreate]
    have hmachine : (k.withFresh c' stack heap).machine = k.machine := rfl
    simp only [forkInto, modifyProc_machine, hmachine, hnew, Option.bind_eq_bind, Option.bind_some,
      if_true]
    exact ⟨_, rfl, rfl⟩

/-- A call that returns an error leaves the heap alone if it got no further than
the process table, or found the heap used up to a page boundary. -/
theorem processFork_heap_iff (hr : k.heap.Ready) {regs : Registers} {r : ℤ}
    (h : k.processFork regs = some (r, k')) : k'.heap = k.heap ↔ k.freeSlot = none ∨
      (k.heap.heapEnd < k.heap.heapNext + KSTACK_SIZE ∧ k.heap.heapNext % 4096 = 0) := by
  have hstop := hr.stop
  have hle := hr.next
  rw [KERNEL_HEAP_BASE, KERNEL_HEAP_SIZE] at hstop
  obtain ⟨hslot, -, rfl⟩ | ⟨c, stack, heap, hslot, hheap, hcase⟩ := processFork_cases h
  · exact ⟨fun _ ↦ Or.inl hslot, fun _ ↦ rfl⟩
  · have hk : k'.heap = heap := by
      obtain ⟨-, -, rfl⟩ | ⟨-, -, o, m, dir, -, -, rfl⟩ | ⟨-, -, dir, m, m', -, -, rfl⟩ := hcase
      · rfl
      · rfl
      · rw [withChild_heap]
    rw [hk, hslot]
    have hnext : heap = k.heap ↔ heap.heapNext = k.heap.heapNext := by
      obtain ⟨-, hc⟩ | ⟨-, hc⟩ := Kheap.kmallocAligned_cases hr <;>
        obtain ⟨-, rfl⟩ := Prod.mk.inj (hheap.symm.trans hc) <;> cases k.heap <;> simp
    rw [hnext]
    obtain ⟨hlt, hc⟩ | ⟨hlt, hc⟩ := Kheap.kmallocAligned_cases hr <;>
      obtain ⟨-, rfl⟩ := Prod.mk.inj (hheap.symm.trans hc) <;>
      simp only [reduceCtorEq, false_or, KSTACK_SIZE] at hlt ⊢ <;> omega

end Kernel

namespace System

variable {s s' : System} {op : Op} {obs : Obs} {tr : List (Op × Obs)}

/-- Every step keeps the heap ready, and a creation takes a page of it. -/
theorem step_heap (hs : s.kernel.Sched) (hr : s.kernel.heap.Ready)
    (hstep : s.step op = some (s', obs)) : s'.kernel.heap.Ready ∧
      s'.kernel.heap.left + (if obs.creates then KSTACK_SIZE else 0) ≤ s.kernel.heap.left := by
  have hsame : ∀ {k' : Kernel} {o : Obs}, k'.heap = s.kernel.heap → o.creates = false →
      k'.heap.Ready ∧ k'.heap.left + (if o.creates then KSTACK_SIZE else 0) ≤
        s.kernel.heap.left := by
    intro k' o hheap ho
    rw [hheap, ho]
    exact ⟨hr, le_rfl⟩
  cases step_case hstep with
  | forkNoSlot _ hk _ => exact Kernel.processFork_heap hr hk
  | fork _ hk _ => exact Kernel.processFork_heap hr hk
  | execError _ hk => exact hsame (Kernel.sysExecve_quiet hk).heap rfl
  | exec _ hk => exact hsame (Kernel.sysExecve_quiet hk).heap rfl
  | halt _ hk =>
      obtain ⟨-, -, rfl⟩ | ⟨-, ho, -⟩ := Kernel.processExit_cases hs.zeroPid hk
      · exact hsame (Kernel.quiet_tssSetStack _ _).heap rfl
      · exact nomatch ho
  | exit _ hk hy =>
      obtain ⟨m, hexit⟩ := Kernel.exit_spec hs.zeroPid hk hy
      exact hsame hexit.heap rfl
  | waitFault _ _ => exact hsame rfl rfl
  | wait _ _ => exact hsame rfl rfl
  | scanNext _ _ hk =>
      have hkeep := Kernel.waitSlot_treeStep_next hk
      subst hkeep
      exact hsame rfl rfl
  | reap _ _ hk =>
      obtain ⟨hw, -⟩ | ⟨-, -, ⟨hw, -⟩ | ⟨-, -, m, -, rfl⟩⟩ := Kernel.waitSlot_cases hk
      · exact nomatch hw
      · exact nomatch hw
      · exact hsame rfl rfl
  | noChild _ _ => exact hsame rfl rfl
  | block _ _ _ hy => exact hsame (Kernel.yield_spec hy).heap rfl
  | tickUser _ hy => exact hsame (Kernel.yield_spec hy).heap rfl
  | tickKernel _ hy => exact hsame (Kernel.yield_spec hy).heap rfl
  | taskCreate hk =>
      obtain ⟨heap, m, regs, -, hheap, hk'⟩ := Kernel.taskCreate_cases hk
      obtain ⟨hready, hleft⟩ := hr.kmallocAligned (show _ = (_, heap) by rw [hheap])
      have heq : ∀ s' : System, s'.kernel.heap = heap → s'.kernel.heap.Ready ∧
          s'.kernel.heap.left + (if Obs.creates .quiet then KSTACK_SIZE else 0) ≤
            s.kernel.heap.left := by
        intro s' h
        rw [h]
        exact ⟨hready, le_trans (by simp [Obs.creates]) hleft⟩
      refine heq _ ?_
      simp [withKernel, setMode, hk', Kernel.taskAdd]
  | sbrk _ hk => exact hsame (Kernel.sysSbrk_quiet hk).heap rfl
  | openFile _ hk => exact hsame (Kernel.sysOpen_quiet hk).heap rfl
  | closeFile _ => exact hsame (Kernel.sysClose_quiet _ _).heap rfl
  | readFile _ hk => exact hsame (Kernel.sysRead_quiet hk).heap rfl
  | store _ _ => exact hsame rfl rfl

theorem Run.heap (hrun : Run s tr s') (hs : s.kernel.Sched) (hr : s.kernel.heap.Ready) :
    s'.kernel.Sched ∧ s'.kernel.heap.Ready ∧
      s'.kernel.heap.left + creations tr * KSTACK_SIZE ≤ s.kernel.heap.left := by
  induction hrun with
  | start => exact ⟨hs, hr, by simp [creations]⟩
  | @step tr s₁ s₂ op obs _ hstep ih =>
      obtain ⟨hs₁, hr₁, hleft⟩ := ih
      obtain ⟨hr₂, hleft₂⟩ := step_heap hs₁ hr₁ hstep
      refine ⟨step_sched hs₁ hstep, hr₂, ?_⟩
      have hcount : creations (tr ++ [(op, obs)]) = creations tr + if obs.creates then 1 else 0 := by
        rw [creations, creations, List.countP_append, List.countP_singleton]
      rw [hcount, Nat.add_mul]
      split at hleft₂ <;> simp_all <;> omega

end System

end EclipseOS
