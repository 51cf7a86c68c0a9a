import EclipseOS.Forking
import EclipseOS.PageMap
import EclipseOS.StaleMemory

/-!
# The first fork

Process 0 of the small machine without user pages gets a child.
-/

namespace EclipseOS

namespace Sample

open LittleEndian Machine

def registers : Registers := ⟨0, 0, 0, 0, 0, 0, 0, 0, 0, 0, 0, 0, 0, 0, 0, 0⟩

/-- The kernel before process 0 has a page. -/
def pageless : Kernel := .bss (userless 16) heap [file]

/-- The first page of the second kernel stack is in frame 17. -/
theorem userless_newDirectory : ∃ a m S, (userless 16).pagingNewDirectory = some (a * PAGE_SIZE, m) ∧
    a ≠ 0 ∧ a ≠ 1 ∧ m.cr3 = 4096 ∧ m.Ledger 1 {a, 1} S ∧ 17 ∈ S ∧ m.frameAt 768 1 = some 17 ∧
    m.pde m.dir 768 / 4096 = 4 ∧
    ∀ d < KERNEL_DIR_START, ∀ t < 1024, m.copied m.dir d t = false := by
  have hboot := Kernel.userless_booting
  have hled := hboot.ledger
  have hdir := hboot.dir_eq
  have hfree : (userless 16).free.card = 16 := by
    rw [← pmmFreeFrameCount_eq]
    decide +kernel
  obtain ⟨a₀, -, m, hnew, hcalls⟩ := hled.pagingNewDirectory_exists hboot.reset.zero (by omega)
    (by decide)
  obtain ⟨a, ha, S, haddr, hnewDir, hled', -⟩ := hled.pagingNewDirectory hnew hcalls
  rw [haddr] at hnew
  have hmdir : m.dir = 1 := hnewDir.dir.trans hdir
  have hused : ∀ f, (userless 16).frameTest f = true → a ≠ f := fun f hf ↦ Ledger.free_ne ha hf
  have ha1 : a ≠ 1 := hused 1 rfl
  have hpde : ∀ d, d ≠ 1022 → m.pde 1 d = if d = 1 then 0 else directory d := by
    intro d hd
    have hentry := hnewDir.entry d hd
    rw [hdir] at hentry
    rw [hentry, Kernel.userless_pde]
  have hscratch : m.pde 1 1022 % 2 = 1 := by
    have := hnewDir.scratch.present
    rwa [hmdir] at this
  have htable : m.pde 1 1022 / 4096 = S := by
    have := hnewDir.scratch.table
    rwa [hmdir] at this
  have hS : ∀ i, KernelEntry i → i ≠ 1022 → m.pde 1 i % 2 = 1 → m.pde 1 i / 4096 ≠ S := by
    intro i hi hne hp
    have hslots := hled'.slots i hi hne hp hscratch
    rwa [htable] at hslots
  have hmem : ∀ f, (userless 16).frameTest f = true → f ≠ S → f ≠ 1 →
      m.mem f = (userless 16).mem f := fun f hf hfS hf1 ↦
    hnewDir.mem f (hused f hf).symm hfS (by rwa [hdir])
  have h0 : m.pde 1 0 = 2 * 4096 + 3 := hpde 0 (by norm_num)
  have h768 : m.pde 1 768 = 4 * 4096 + 3 := hpde 768 (by norm_num)
  have hS2 := hS 0 (Or.inl rfl) (by norm_num) (by rw [h0])
  have hS4 := hS 768 (Or.inr (by norm_num)) (by norm_num) (by rw [h768])
  rw [h0, show (2 * 4096 + 3) / 4096 = 2 by norm_num] at hS2
  rw [h768, show (4 * 4096 + 3) / 4096 = 4 by norm_num] at hS4
  have hmem2 := hmem 2 rfl hS2 (by norm_num)
  have hmem4 := hmem 4 rfl hS4 (by norm_num)
  have hpte0 : ∀ t < 1024, m.pte 1 0 t = t * 4096 + 3 := by
    intro t ht
    have hword : (userless 16).mem 2 = ofWords fun t ↦ entry t 3 := rfl
    rw [Machine.pte, h0, show (2 * 4096 + 3) / 4096 = 2 by norm_num, hmem2, hword, word_ofWords]
    exact Nat.mod_eq_of_lt (by rw [entry, PAGE_SIZE]; omega)
  have hpte768 : m.pte 1 768 1 = 17 * 4096 + 3 := by
    have hword : (userless 16).mem 4 = ofWords heapTable := rfl
    rw [Machine.pte, h768, show (4 * 4096 + 3) / 4096 = 4 by norm_num, hmem4, hword, word_ofWords]
    rfl
  have h17 : (userless 16).frameTest 17 = true := rfl
  refine ⟨a, m, _, hnew, hused 0 hboot.reset.zero, ha1, ?_, hled', Or.inr ⟨h17, by norm_num⟩,
    ?_, ?_, fun d hd t ht ↦ ?_⟩
  · rw [hnewDir.cr3, hboot.cr3]
  · rw [frameAt_eq_some, hmdir, h768, hpte768]
    norm_num
  · rw [hmdir, h768]
  · rw [hmdir]
    by_contra hcopied
    obtain ⟨hp, -, huser⟩ := copied_iff.mp (Bool.eq_true_of_not_eq_false hcopied)
    by_cases hd0 : d = 0
    · subst hd0
      rw [hpte0 t ht, and_user_mod, Nat.mul_comm t, Nat.mul_add_mod] at huser
      exact huser rfl
    · have hd' : d < 768 := hd
      rw [hpde d (by omega), directory] at hp
      split_ifs at hp <;> omega

/-- Process 0 forks. -/
theorem userless_fork {k : Kernel} (hmachine : k.machine = userless 16)
    (hcurrent : k.processCurrent = 0) (hslot : k.freeSlot = some 1)
    (hstack : (k.heap.kmallocAligned KSTACK_SIZE).1 = 0xC0001000) : ∃ a m S,
    k.processFork registers = some (k.nextPid, k.withChild 0 1 (a * PAGE_SIZE) 0xC0001000
      (k.heap.kmallocAligned KSTACK_SIZE).2 m) ∧
      a ≠ 0 ∧ a ≠ 1 ∧ m.cr3 = 4096 ∧ m.Ledger 1 {a, 1} S := by
  obtain ⟨a, m, S, hnew, ha0, ha1, hcr3, hled, hS, hframe, htable, hnone⟩ := userless_newDirectory
  have hmdir : m.dir = 1 := by rw [Machine.dir, hcr3]
  have hheap : k.heap.kmallocAligned KSTACK_SIZE =
      (0xC0001000, (k.heap.kmallocAligned KSTACK_SIZE).2) := by rw [← hstack]
  have hdir : m.pagingCurrentDirectory = m.cr3 := by
    rw [pagingCurrentDirectory, hcr3]
    decide
  obtain ⟨p, hstore⟩ := storeWords_page { registers with eax := 0 }.words (m := m) (d := 768)
    (t := 1) (i := 1008) (by norm_num) (by norm_num) hframe (by rw [hmdir]; norm_num)
    (by rw [htable]; norm_num) (by decide)
  have haddr : (0xC0001000 + KSTACK_SIZE) % 2 ^ 32 - REGISTERS_SIZE = pageAddr 768 1 + 4 * 1008 := by
    decide
  rw [← haddr] at hstore
  have hrun := Kernel.processFork_builds registers hslot hheap (by norm_num)
    (by rw [hmachine]; exact hnew) (Nat.mul_ne_zero ha0 (by decide))
    (copyPages_none hled.recursive hnone) hdir hstore
  rw [hcurrent] at hrun
  exact ⟨a, _, S, hrun, ha0, ha1, hcr3, hled.setFrame (hled.kernel_plain hS) p⟩

end Sample

end EclipseOS
