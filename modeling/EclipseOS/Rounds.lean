import EclipseOS.ProcessLife

/-!
# Rounds of fork, exit and wait

Every round costs the kernel heap a page, so no kernel makes more than 256 of
them; and a fork that fails may have taken its page as well.
-/

namespace EclipseOS

namespace System

variable {s s' : System} {tr : List (Op × Obs)}

/-- Some process forks, the child exits, and the process reaps it; other steps
may come in between. -/
def IsRound (tr : List (Op × Obs)) : Prop :=
  ∃ p c code : ℤ, 0 < c ∧ .forked p c ∈ tr.map Prod.snd ∧ .exited c code ∈ tr.map Prod.snd ∧
    .reaped p c code ∈ tr.map Prod.snd

inductive Rounds (s : System) : ℕ → System → Prop
  | zero : Rounds s 0 s
  | succ {n : ℕ} {s₁ s₂ : System} {tr : List (Op × Obs)} :
      Rounds s n s₁ → Run s₁ tr s₂ → IsRound tr → Rounds s (n + 1) s₂

def ForkSucceeds (s : System) : Prop := ∃ regs r k', s.kernel.processFork regs = some (r, k') ∧ 0 < r

/-- After any number of rounds there is a state from which a fork succeeds again. -/
def Sustainable (s : System) : Prop := ∀ n, ∃ s', Rounds s n s' ∧ ForkSucceeds s'

/-- A round creates a process. -/
theorem IsRound.creations_pos (h : IsRound tr) : 0 < creations tr := by
  obtain ⟨p, c, -, hc, hfork, -, -⟩ := h
  obtain ⟨x, hx, hobs⟩ := List.mem_map.mp hfork
  rw [creations, List.countP_pos_iff]
  refine ⟨x, hx, ?_⟩
  rw [hobs, Obs.creates, EAGAIN]
  simp only [ne_eq, decide_eq_true_eq]
  omega

theorem Rounds.heap {n : ℕ} (h : Rounds s n s') (hs : s.kernel.Sched) (hr : s.kernel.heap.Ready) :
    s'.kernel.Sched ∧ s'.kernel.heap.Ready ∧
      s'.kernel.heap.left + n * KSTACK_SIZE ≤ s.kernel.heap.left := by
  induction h with
  | zero => exact ⟨hs, hr, by simp⟩
  | succ _ hrun hround ih =>
      obtain ⟨hs₁, hr₁, hleft⟩ := ih
      obtain ⟨hs₂, hr₂, hleft₂⟩ := hrun.heap hs₁ hr₁
      have hpage := Nat.le_mul_of_pos_left KSTACK_SIZE hround.creations_pos
      refine ⟨hs₂, hr₂, ?_⟩
      rw [Nat.add_mul, Nat.one_mul]
      omega

/-- The heap has 256 pages, so 257 rounds are never possible. -/
theorem not_sustainable (hs : s.kernel.Sched) (hr : s.kernel.heap.Ready) : ¬ Sustainable s := by
  intro h
  obtain ⟨s', hrounds, -⟩ := h 257
  obtain ⟨-, -, hleft⟩ := hrounds.heap hs hr
  have hstop := hr.stop
  have hstart := hr.start
  rw [KERNEL_HEAP_BASE] at hstart
  rw [KERNEL_HEAP_BASE, KERNEL_HEAP_SIZE] at hstop
  rw [KSTACK_SIZE, Kheap.left, Kheap.left] at hleft
  omega

/-- No reachable state sustains rounds of fork, exit and wait, and a fork that
fails keeps the heap only if it took nothing from it. -/
theorem fork_heap {k : Kernel} {size brk : ℕ} (hheap : (boot k size brk).kernel.heap.Ready)
    (hrun : Run (boot k size brk) tr s) :
    ¬ Sustainable s ∧ ∀ regs r k', s.kernel.processFork regs = some (r, k') → r < 0 →
      (k'.heap = s.kernel.heap ↔ s.kernel.freeSlot = none ∨
        (s.kernel.heap.heapEnd < s.kernel.heap.heapNext + KSTACK_SIZE ∧
          s.kernel.heap.heapNext % 4096 = 0)) := by
  obtain ⟨hs, hr, -⟩ := hrun.heap (boot_sched k size brk) hheap
  exact ⟨not_sustainable hs hr, fun regs r k' hfork _ ↦ Kernel.processFork_heap_iff hr hfork⟩

/-- After one round of the small kernel. -/
theorem fork_heap_sample : ∃ s, Run (boot Sample.pageless 0 0x401000) Sample.life s ∧
    IsRound Sample.life ∧ ¬ Sustainable s ∧
      ∀ regs r k', s.kernel.processFork regs = some (r, k') → r < 0 →
        (k'.heap = s.kernel.heap ↔ s.kernel.freeSlot = none ∨
          (s.kernel.heap.heapEnd < s.kernel.heap.heapNext + KSTACK_SIZE ∧
            s.kernel.heap.heapNext % 4096 = 0)) := by
  obtain ⟨s, hlife, -⟩ := Sample.pageless_life
  refine ⟨s, hlife, ⟨0, 1, 7, by decide, by decide, by decide, by decide⟩, ?_⟩
  exact fork_heap ⟨by decide +kernel, by decide +kernel, by decide +kernel⟩ hlife

/-- The small machine with a scratch table in frame 6 and no free frame. -/
def fullKernel : Kernel :=
  (Sample.kernel 0).withMachine ((Sample.machine 0).setWord 1 1022 (Sample.entry 6 3))

theorem full_scratch : (boot fullKernel 0 0x401000).kernel.machine.Scratch 6 :=
  ⟨⟨by decide +kernel, by decide +kernel, by decide +kernel⟩, by decide +kernel, by decide +kernel,
    by decide +kernel⟩

/-- Out of frames, the new process has its stack already. -/
theorem full_fork_takes_heap : ∃ regs r k',
    (boot fullKernel 0 0x401000).kernel.processFork regs = some (r, k') ∧ r < 0 ∧
      k'.heap.left + KSTACK_SIZE = (boot fullKernel 0 0x401000).kernel.heap.left := by
  set k := (boot fullKernel 0 0x401000).kernel with hk
  have hslot : k.freeSlot = some 1 := by decide +kernel
  have halloc : k.machine.pmmAllocFrame = (0 * PAGE_SIZE, k.machine.log (.alloc 0)) := by
    have hfind : (k.machine.firstFree k.machine.lastAlloc k.machine.totalFrames).or
        (k.machine.firstFree 0 k.machine.lastAlloc) = none := by decide +kernel
    simp [Machine.pmmAllocFrame, hfind]
  obtain ⟨q, hnew, -⟩ := Machine.pagingNewDirectory_scratch full_scratch halloc (by decide +kernel)
    (by norm_num) (by norm_num)
  obtain ⟨k', hfork, hheap⟩ := Kernel.processFork_noDirectory ⟨0, 0, 0, 0, 0, 0, 0, 0, 0, 0, 0, 0, 0,
    0, 0, 0⟩ hslot (by decide +kernel) (by simpa using hnew)
  exact ⟨_, _, k', hfork, by decide, by rw [hheap]; decide +kernel⟩

end System

end EclipseOS
