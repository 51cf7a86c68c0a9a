import EclipseOS.Copying
import EclipseOS.ForkCases
import EclipseOS.Lib.Loops

/-!
# A fork that succeeds

A process whose directory has no page to copy gets its child as soon as there
is a directory, an entry and a stack for it.
-/

namespace EclipseOS

namespace Machine

open Kernel

variable {m : Machine} {d t i F : ℕ}

/-- There is nothing to copy. -/
theorem copyPages_none (h : m.Recursive)
    (hnone : ∀ d < KERNEL_DIR_START, ∀ t < 1024, m.copied m.dir d t = false) :
    copyPages m = some ⟨m, [], false⟩ := by
  have hpage : ∀ d < KERNEL_DIR_START, m.pde m.dir d % 2 = 1 → ∀ t < 1024,
      copyPage d ⟨m, [], false⟩ t = some ⟨m, [], false⟩ := by
    intro d hd hp t ht
    have hload := h.load_pt (hd.trans (by decide)) ht hp
    have hno := hnone d hd t ht
    have hplain : m.pte m.dir d t &&& PAGE_PRESENT = 0 ∨ m.pte m.dir d t &&& PAGE_USER = 0 := by
      by_contra hcopied
      rw [not_or, PAGE_PRESENT, Nat.and_one_is_mod] at hcopied
      rw [copied_iff.mpr ⟨hp, by omega, hcopied.2⟩] at hno
      cases hno
    simp [copyPage, hload, hplain]
  have htable : ∀ d < KERNEL_DIR_START, copyTable ⟨m, [], false⟩ d = some ⟨m, [], false⟩ := by
    intro d hd
    have hload := h.load_pd (hd.trans (by decide))
    by_cases hp : m.pde m.dir d % 2 = 1
    · have hinner : (List.range 1024).foldlM (copyPage d) ⟨m, [], false⟩ =
          some ⟨m, [], false⟩ :=
        Loop.foldlM_range (f := fun _ ↦ (⟨m, [], false⟩ : CopyLoop)) (hpage d hd hp)
      simp [copyTable, hload, PAGE_PRESENT, hinner]
    · simp [copyTable, hload, PAGE_PRESENT, hp]
  rw [copyPages]
  exact Loop.foldlM_range (f := fun _ ↦ (⟨m, [], false⟩ : CopyLoop)) htable

/-- Words stored one behind the other in a page that is neither the loaded
directory nor its own table. -/
theorem storeWords_page (ws : List ℕ) (hd : d < 1024) (ht : t < 1024)
    (hF : m.frameAt d t = some F) (hdir : F ≠ m.dir) (htable : F ≠ m.pde m.dir d / 4096)
    (hi : i + ws.length ≤ 1024) :
    ∃ p, storeWords m (pageAddr d t + 4 * i) ws = some (m.setFrame F p) := by
  induction ws generalizing m i with
  | nil => exact ⟨m.mem F, by rw [setFrame_eq_self]; rfl⟩
  | cons w ws ih =>
      rw [List.length_cons] at hi
      have hpde : (m.setWord F i w).pde m.dir d = m.pde m.dir d := by
        rw [pde, setWord_mem_of_ne _ _ hdir.symm, pde]
      have hframe : (m.setWord F i w).frameAt d t = some F := by
        rw [frameAt_eq_some] at hF ⊢
        have hpte : (m.setWord F i w).pte m.dir d t = m.pte m.dir d t := by
          rw [pte, hpde, setWord_mem_of_ne _ _ htable.symm, pte]
        rw [show (m.setWord F i w).dir = m.dir from rfl, hpde, hpte]
        exact hF
      have htable' : F ≠ (m.setWord F i w).pde (m.setWord F i w).dir d / 4096 := by
        rw [show (m.setWord F i w).dir = m.dir from rfl, hpde]
        exact htable
      obtain ⟨p, hp⟩ := ih hframe hdir htable' (i := i + 1) (by omega)
      refine ⟨p, ?_⟩
      rw [storeWords, store32_page hd ht (by omega) hF, Option.bind_eq_bind, Option.bind_some,
        show pageAddr d t + 4 * i + 4 = pageAddr d t + 4 * (i + 1) by omega, hp, setWord,
        setFrame_setFrame]

end Machine

namespace Kernel

variable {k : Kernel} {c : Fin MAX_PROCS} {dir stack : ℕ} {heap : Kheap} {m m' : Machine}

/-- The child of a process without pages. -/
theorem processFork_builds (regs : Registers) (hslot : k.freeSlot = some c)
    (hheap : k.heap.kmallocAligned KSTACK_SIZE = (stack, heap)) (hstack : stack ≠ 0)
    (hnew : k.machine.pagingNewDirectory = some (dir, m)) (hdir : dir ≠ 0)
    (hcopy : copyPages m = some ⟨m, [], false⟩)
    (hcr3 : m.pagingCurrentDirectory = m.cr3)
    (hstore : storeWords m ((stack + KSTACK_SIZE) % 2 ^ 32 - REGISTERS_SIZE)
      { regs with eax := 0 }.words = some m') :
    k.processFork regs = some (k.nextPid, k.withChild k.processCurrent c dir stack heap m') := by
  have hinstall : installPages m dir [] = some m := by
    rw [installPages, hcr3]
    rfl
  have hspace : forkSpace k.machine = some (.built dir, m) := by
    simp [forkSpace, hnew, hdir, hcopy, hinstall]
  have hne : k.processCurrent ≠ c := freeSlot_ne_processCurrent hslot
  obtain ⟨r, k', hrun⟩ : ∃ r k', k.processFork regs = some (r, k') := by
    obtain ⟨hnone, -⟩ | ⟨c', stack', heap', hslot', hheap', ⟨hzero, -⟩ | ⟨-, hcreate⟩⟩ :=
      processCreate_cases k
    · cases hslot.symm.trans hnone
    · obtain ⟨rfl, -⟩ := Prod.mk.inj (hheap.symm.trans hheap')
      exact absurd hzero hstack
    · obtain rfl := Option.some.inj (hslot.symm.trans hslot')
      obtain ⟨rfl, rfl⟩ := Prod.mk.inj (hheap.symm.trans hheap')
      have hmachine : (k.withFresh c stack heap).machine = k.machine := rfl
      have hentry : (k.withFresh c stack heap).procTable c = k.freshEntry stack := by
        simp [withFresh]
      simp only [processFork, hcreate, forkInto, modifyProc_machine, hmachine, hnew,
        Option.bind_eq_bind, Option.bind_some, if_neg hdir, withMachine_machine, hcopy,
        Bool.false_eq_true, if_false, hinstall, shareFd_foldl _ _ hne]
      norm_num at hstore
      simp [modifyProc_modifyProc, hentry, freshEntry, hstore]
  obtain ⟨hnone, -⟩ | ⟨c', stack', heap', hslot', hheap', ⟨hzero, -⟩ |
    ⟨-, -, o, m₁, dir', hspace', hbuilt, -⟩ | ⟨-, rfl, dir', m₁, m₂, hspace', hstore', rfl⟩⟩ :=
    processFork_cases hrun
  · cases hslot.symm.trans hnone
  · obtain ⟨rfl, -⟩ := Prod.mk.inj (hheap.symm.trans hheap')
    exact absurd hzero hstack
  · obtain ⟨rfl, -⟩ := Prod.mk.inj (Option.some.inj (hspace.symm.trans hspace'))
    exact absurd rfl (hbuilt dir)
  · obtain rfl := Option.some.inj (hslot.symm.trans hslot')
    obtain ⟨rfl, rfl⟩ := Prod.mk.inj (hheap.symm.trans hheap')
    obtain ⟨heq, rfl⟩ := Prod.mk.inj (Option.some.inj (hspace.symm.trans hspace'))
    obtain rfl := SpaceOutcome.built.inj heq
    obtain rfl := Option.some.inj (hstore.symm.trans hstore')
    exact hrun

end Kernel

end EclipseOS
