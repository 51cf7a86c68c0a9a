import EclipseOS.LoaderSafety
import EclipseOS.StackPages

/-!
# Stale memory

`execve` and the growth of the heap, from two kernels that differ in the bytes
of free frames only.  The new program can tell the kernels apart through the
pages of its stack, and through nothing else.
-/

namespace EclipseOS

open LittleEndian

namespace Machine

variable {m n m' n' : Machine} {B d t : ℕ} {S L K V : Set ℕ} {mem : ℕ → Page}

/-- The machine with other bytes in its frames. -/
def withMem (m : Machine) (mem : ℕ → Page) : Machine := { m with mem := mem }

/-- What is not free is the same. -/
def KeepsUsed (m : Machine) (mem : ℕ → Page) : Prop := ∀ f, m.frameTest f = true → mem f = m.mem f

namespace KeepsUsed

theorem holds (hmem : m.KeepsUsed mem) (h : m.Ledger B L K) {o : Owner} {f : ℕ} :
    (m.withMem mem).Holds L o f ↔ m.Holds L o f := by
  apply Ledger.holds_congr
  · intro D hD d _ _
    exact congrArg (fun p ↦ word p d) (hmem D (h.dir_used hD).1)
  · intro D hD d h₁ h₂ hp
    exact hmem _ (h.used (.table D d) _ ⟨hD, h₁, h₂, hp, rfl⟩).1

theorem ledger (hmem : m.KeepsUsed mem) (h : m.Ledger B L K) : (m.withMem mem).Ledger B L K := by
  refine h.congr h.lastAlloc h.recursive.cr3 h.loaded (fun D hD d ↦ ?_) (fun D hD d h₁ h₂ hp ↦ ?_)
    fun f hf ↦ hf
  · exact congrArg (fun p ↦ word p d) (hmem D (h.dir_used hD).1)
  · exact hmem _ (h.used (.table D d) _ ⟨hD, h₁, h₂, hp, rfl⟩).1

theorem spared (hmem : m.KeepsUsed mem) (h : m.Ledger B L K) (hs : m.Spared L K) :
    (m.withMem mem).Spared L K where
  used := hs.used
  loose hne := by
    obtain ⟨hused, hK, hno⟩ := hs.loose hne
    exact ⟨hused, hK, fun o ho ↦ hno o ((hmem.holds h).mp ho)⟩

theorem alike (hmem : m.KeepsUsed mem) : Alike ∅ m (m.withMem mem) :=
  ⟨rfl, rfl, rfl, fun _ ↦ rfl, fun f hf _ o _ ↦ congrFun (hmem f hf) o⟩

end KeepsUsed

/-! ## The heap grows -/

theorem growPages_outOfMemory {s : SbrkLoop} (hs : s.outOfMemory = true) (l : List ℕ) :
    l.foldlM growPage s = some s := by
  induction l with
  | nil => rfl
  | cons v l ih =>
      have hstep : growPage s v = some s := by rw [growPage, if_pos hs]; rfl
      rw [List.foldlM_cons, hstep, Option.bind_eq_bind, Option.bind_some, ih]

/-- A page that is there is left alone. -/
theorem growPage_mapped (hm : m.Recursive) (hd : d < 1024) (ht : t < 1024) {F : ℕ}
    (hF : m.frameAt d t = some F) : growPage ⟨m, false⟩ (pageAddr d t) = some ⟨m, false⟩ := by
  have hphys := pagingVirtToPhys_page hm hd ht
  rw [hF, Option.elim_some] at hphys
  have hne : F * 4096 ≠ NOT_MAPPED := by rw [NOT_MAPPED]; omega
  simp [growPage, hphys, hne]

namespace Alike

theorem growPage (h : Alike S m n) (ha : Anchored S V m) (hd : d < 768) (ht : t < 1024) :
    ∃ m' n' b, Machine.growPage ⟨m, false⟩ (pageAddr d t) = some ⟨m', b⟩ ∧
      Machine.growPage ⟨n, false⟩ (pageAddr d t) = some ⟨n', b⟩ ∧ Alike S m' n' ∧ Anchored S V m' := by
  have hrec := h.recursive ha
  have hlow : ∀ {x : Machine}, Anchored S V x → ∃ F, x.frameAt 0 t = some F := by
    intro x hx
    exact ⟨_, frameAt_eq_some.mpr ⟨hx.low.1, hx.low.2.2.2.2.2 t ht, rfl⟩⟩
  by_cases hd0 : d = 0
  · subst hd0
    obtain ⟨F, hF⟩ := hlow ha
    obtain ⟨G, hG⟩ := hlow (h.anchored ha)
    exact ⟨m, n, false, growPage_mapped ha.recursive (by omega) ht hF,
      growPage_mapped hrec (by omega) ht hG, h, ha⟩
  have hleaf : n.frameAt d t = m.frameAt d t := h.leaf ha (by omega) ht
  cases hF : m.frameAt d t with
  | some F =>
      rw [hF] at hleaf
      exact ⟨m, n, false, growPage_mapped ha.recursive (by omega) ht hF,
        growPage_mapped hrec (by omega) ht hleaf, h, ha⟩
  | none =>
      rw [hF] at hleaf
      have hphys := pagingVirtToPhys_page ha.recursive (show d < 1024 by omega) ht
      have hphysn := pagingVirtToPhys_page hrec (show d < 1024 by omega) ht
      rw [hF, Option.elim_none] at hphys
      rw [hleaf, Option.elim_none] at hphysn
      obtain ⟨F, hfree, hm, hn⟩ | ⟨-, hm, hn⟩ := h.pmmAllocFrame ha.lastAlloc
      · obtain ⟨m', n', hm', hn', halike, hanch⟩ :=
          h.freshPage ha hfree ⟨d, t, by omega, hd, ht, rfl⟩
        have hF0 : F * PAGE_SIZE ≠ 0 := Nat.mul_ne_zero (Ledger.free_ne hfree ha.zero.1) (by decide)
        obtain ⟨m₁, hmap, hset⟩ := Option.bind_eq_some_iff.mp hm'
        obtain ⟨n₁, hmap', hset'⟩ := Option.bind_eq_some_iff.mp hn'
        exact ⟨m', n', false, by simp [Machine.growPage, hphys, hm, hF0, hmap, hset],
          by simp [Machine.growPage, hphysn, hn, hF0, hmap', hset'], halike, hanch⟩
      · exact ⟨_, _, true, by simp [Machine.growPage, hphys, hm]; rfl,
          by simp [Machine.growPage, hphysn, hn]; rfl, h.log _ _, ha.log _⟩

theorem growPages (h : Alike S m n) (ha : Anchored S V m) {l : List ℕ}
    (hl : ∀ v ∈ l, ∃ d t, d < 768 ∧ t < 1024 ∧ v = pageAddr d t) :
    ∃ m' n' b, l.foldlM Machine.growPage ⟨m, false⟩ = some ⟨m', b⟩ ∧
      l.foldlM Machine.growPage ⟨n, false⟩ = some ⟨n', b⟩ ∧ Alike S m' n' ∧ Anchored S V m' := by
  induction l generalizing m n with
  | nil => exact ⟨m, n, false, rfl, rfl, h, ha⟩
  | cons v l ih =>
      obtain ⟨d, t, hd, ht, rfl⟩ := hl v (by simp)
      obtain ⟨m₁, n₁, b, hm, hn, h₁, ha₁⟩ := h.growPage ha hd ht
      cases b with
      | false =>
          obtain ⟨m₂, n₂, b, hm₂, hn₂, h₂, ha₂⟩ := ih h₁ ha₁ fun v hv ↦ hl v (by simp [hv])
          refine ⟨m₂, n₂, b, ?_, ?_, h₂, ha₂⟩
          · rw [List.foldlM_cons, hm, Option.bind_eq_bind, Option.bind_some, hm₂]
          · rw [List.foldlM_cons, hn, Option.bind_eq_bind, Option.bind_some, hn₂]
      | true =>
          refine ⟨m₁, n₁, true, ?_, ?_, h₁, ha₁⟩
          · rw [List.foldlM_cons, hm, Option.bind_eq_bind, Option.bind_some, growPages_outOfMemory rfl]
          · rw [List.foldlM_cons, hn, Option.bind_eq_bind, Option.bind_some, growPages_outOfMemory rfl]

end Alike

/-! ## Enough frames -/

theorem Alike.refl (m : Machine) : Alike ∅ m m :=
  ⟨rfl, rfl, rfl, fun _ ↦ rfl, fun _ _ _ _ _ ↦ rfl⟩

/-- The image keeps off the kernel's own memory: no page is in the recursive window or
shows a frame in use that no process owns, and what is copied goes to pages that
are mapped by then. -/
structure KeepsOff (m : Machine) (L : Set ℕ) (data : Image) (base : ℕ) : Prop where
  window : ∀ v ∈ data.pages base data.ePhnum, v < 0xFFC00000
  frames : ∀ v ∈ data.pages base data.ePhnum, ∀ F o, m.translate v = some (F, o) →
    m.frameTest F = true → ∃ owner, m.Holds L owner F
  copies : ∀ i < data.ePhnum, data.pType i = PT_LOAD → ∀ k < data.pFilesz i,
    data.Owned base (i + 1) ((base + data.pVaddr i) % 2 ^ 32 + k)

/-- With two frames for every page, and four more, the image is loaded from the
kernel's own directory. -/
theorem Ledger.execSpace_exists {data : Image} {base size : ℕ} {ν : Bytes} (h : m.Ledger B L K)
    (hs : m.Spared L K) (hp : m.Paged) (hpacked : m.Packed) (hdir : m.dir = B)
    (hlow : ∀ t < 1024, m.frameAt 0 t ≠ none) (hcalls : Call.alloc 0 ∉ m.calls)
    (hbase : data.headerBase size = some base) (hoff : m.KeepsOff L data base)
    (hreloc : data.relocated base (m.outerView (data.pages base data.ePhnum)) (data.loaded base) = .ok ν)
    (hentry : (base + data.eEntry) % 2 ^ 32 ≠ 0)
    (hroom : 2 * (data.pages base data.ePhnum).length + 4 ≤ m.free.card) :
    ∃ dir entry brk m', Kernel.execSpace m data size (B * PAGE_SIZE) (m.dir * PAGE_SIZE) =
      some (.entered dir entry brk, m') := by
  obtain ⟨a, ha, m₁, hnew, -⟩ := h.pagingNewDirectory_exists hs.used (by omega) hcalls
  have haddr : a * PAGE_SIZE ≠ 0 := Nat.mul_ne_zero (Ledger.free_ne ha hs.used) (by decide)
  obtain ⟨a', ha', S₀, -, heq, hem, -⟩ := (Alike.refl m).pagingNewDirectory h h hs hs hnew haddr
  obtain rfl := Nat.eq_of_mul_eq_mul_right (by decide) heq
  have hb := hem.bare h hs hp ha hlow
  have hcard₁ : (m₁.pagingSwitchDirectory (a * PAGE_SIZE)).free.card =
      m.free.card - (1 + if m.pde B 1022 % 2 = 0 then 1 else 0) := hem.card
  have htwo : (1 + if m.pde B 1022 % 2 = 0 then 1 else 0) ≤ 2 := by split <;> omega
  have hneed := (m₁.pagingSwitchDirectory (a * PAGE_SIZE)).need_le (data.pages base data.ePhnum)
  have hU : ∀ f ∈ {f | (m₁.pagingSwitchDirectory (a * PAGE_SIZE)).frameTest f = true ∧ f ≠ 0},
      (m₁.pagingSwitchDirectory (a * PAGE_SIZE)).frameTest f = true ∧ f ≠ 0 := fun f hf ↦ hf
  rcases hb.ready.elfLoad hU hbase hoff.window hoff.copies with ⟨-, m₂, hlays, hload⟩ | ⟨hout, -⟩
  · obtain ⟨m₃, happly, -, hlays₃, -⟩ := hlays.applyRelocations
      (hlays.backs (hem.backs h ha _) fun x hx ↦ by
        obtain ⟨b, hb⟩ := Option.ne_none_iff_exists'.mp hx
        exact (outerView_eq_some hb).2.2.1) hreloc
    rw [happly, Option.map_some] at hload
    obtain ⟨hpacked₃, -⟩ := hem.loaded_idle hpacked hoff.window hload hlays₃.charges
    obtain ⟨S, m', -, hstack, -⟩ := (Alike.refl m₃).userStack
      (hlays₃.anchored (V := ∅) hb fun v hv ↦ absurd hv (Set.notMem_empty v)) hpacked₃
    exact ⟨_, _, _, m', Kernel.execSpace_entered.mpr ⟨m₁, m₃, m₃, hnew, haddr, hload, hentry,
      by rw [hdir, if_neg (not_not_intro rfl)], hstack⟩⟩
  · exact absurd (grants_of_need (by omega)) hout

end Machine

namespace Kernel

variable {k k' : Kernel} {S : Set ℕ} {B entry stack base : ℕ} {L K : Set ℕ} {path : List UInt8}
variable {prog : FsNode} {ν : Bytes} {V : Set ℕ} {pages : List ℕ}

/-- The calls of `sbrk` one after the other, whatever they answer. -/
def sbrkAll (k : Kernel) (incs : List (BitVec 32)) : Option Kernel :=
  incs.foldlM (fun k inc ↦ (k.sysSbrk inc).map Prod.snd) k

/-- The process sees the same bytes in both kernels, in user space and in `pages`,
however it grows its heap. -/
def SeesSame (pages : List ℕ) (k₁ k₂ : Kernel) : Prop :=
  ∀ incs : List (BitVec 32), (∀ inc ∈ incs, 0 < inc.toInt) →
    ∃ k₁' k₂', k₁.sbrkAll incs = some k₁' ∧ k₂.sbrkAll incs = some k₂' ∧
      k₁'.machine.view = k₂'.machine.view ∧
      ∀ v ∈ pages, ∀ o < 4096, k₁'.machine.load8 (v + o) = k₂'.machine.load8 (v + o)

/-- The break after a call that asks for more. -/
def wantedBrk (k : Kernel) (inc : BitVec 32) : ℕ :=
  ((k.procTable k.processCurrent).brk + inc.toNat) % 2 ^ 32

theorem sysSbrk_refused {inc : BitVec 32} (hinc : 0 < inc.toInt)
    (hlimit : k.wantedBrk inc < (k.procTable k.processCurrent).brk ∨
      USER_BRK_LIMIT < k.wantedBrk inc) : k.sysSbrk inc = some (-ENOMEM, k) := by
  rw [wantedBrk] at hlimit
  simp only [sysSbrk, if_neg hinc.ne', if_pos hinc, if_pos hlimit]
  rfl

theorem sysSbrk_grows {inc : BitVec 32} (hinc : 0 < inc.toInt)
    (hlimit : ¬ (k.wantedBrk inc < (k.procTable k.processCurrent).brk ∨
      USER_BRK_LIMIT < k.wantedBrk inc)) {s : Machine.SbrkLoop}
    (hs : (pagesBetween ((k.procTable k.processCurrent).brk &&& PAGE_MASK) (k.wantedBrk inc)).foldlM
      Machine.growPage ⟨k.machine, false⟩ = some s) :
    k.sysSbrk inc = some (if s.outOfMemory then (-ENOMEM, k.withMachine s.machine)
      else (int32 (k.procTable k.processCurrent).brk, (k.withMachine s.machine).modifyProc
        k.processCurrent fun q ↦ { q with brk := k.wantedBrk inc })) := by
  rw [wantedBrk] at hlimit hs ⊢
  simp only [sysSbrk, if_neg hinc.ne', if_pos hinc, if_neg hlimit, hs, Option.bind_eq_bind,
    Option.bind_some]
  cases s.outOfMemory <;> rfl

theorem growPages_mem {inc : BitVec 32} {v : ℕ}
    (hlimit : ¬ (k.wantedBrk inc < (k.procTable k.processCurrent).brk ∨
      USER_BRK_LIMIT < k.wantedBrk inc))
    (hv : v ∈ pagesBetween ((k.procTable k.processCurrent).brk &&& PAGE_MASK) (k.wantedBrk inc)) :
    ∃ d t, d < 768 ∧ t < 1024 ∧ v = pageAddr d t := by
  rw [not_or, not_lt, not_lt, USER_BRK_LIMIT] at hlimit
  obtain ⟨hle, hmax⟩ := hlimit
  simp only [pagesBetween, List.mem_map, List.mem_range] at hv
  rw [PAGE_MASK, and_page_mask (by omega)] at hv
  obtain ⟨j, hj, rfl⟩ := hv
  refine ⟨((k.procTable k.processCurrent).brk / 4096 * 4096 + 0x1000 * j) / 2 ^ 22,
    ((k.procTable k.processCurrent).brk / 4096 * 4096 + 0x1000 * j) / 2 ^ 12 % 1024, by omega,
    by omega, ?_⟩
  rw [pageAddr]
  omega

/-- A call that grows the heap does the same on both sides. -/
theorem sysSbrk_alike {n : Machine} (h : k.machine.Alike S n) (ha : k.machine.Anchored S V)
    {inc : BitVec 32} (hinc : 0 < inc.toInt) :
    ∃ r k' n', k.sysSbrk inc = some (r, k') ∧ (k.withMachine n).sysSbrk inc =
      some (r, k'.withMachine n') ∧ k'.machine.Alike S n' ∧ k'.machine.Anchored S V := by
  by_cases hlimit : k.wantedBrk inc < (k.procTable k.processCurrent).brk ∨
      USER_BRK_LIMIT < k.wantedBrk inc
  · exact ⟨-ENOMEM, k, n, sysSbrk_refused hinc hlimit,
      sysSbrk_refused (k := k.withMachine n) hinc hlimit, h, ha⟩
  · have hpages : ∀ v ∈ pagesBetween ((k.procTable k.processCurrent).brk &&& PAGE_MASK)
        (k.wantedBrk inc), ∃ d t, d < 768 ∧ t < 1024 ∧ v = pageAddr d t :=
      fun v hv ↦ growPages_mem hlimit hv
    obtain ⟨m', n', b, hm, hn, h', ha'⟩ := h.growPages ha hpages
    have hrun := sysSbrk_grows hinc hlimit hm
    have hrunn := sysSbrk_grows (k := k.withMachine n) hinc hlimit hn
    cases b with
    | true => exact ⟨_, _, n', hrun, hrunn, h', ha'⟩
    | false => exact ⟨_, _, n', hrun, hrunn, h', ha'⟩

theorem sbrkAll_alike {n : Machine} (h : k.machine.Alike S n) (ha : k.machine.Anchored S V)
    {incs : List (BitVec 32)} (hincs : ∀ inc ∈ incs, 0 < inc.toInt) :
    ∃ k' n', k.sbrkAll incs = some k' ∧ (k.withMachine n).sbrkAll incs =
      some (k'.withMachine n') ∧ k'.machine.Alike S n' ∧ k'.machine.Anchored S V := by
  induction incs generalizing k n with
  | nil => exact ⟨k, n, rfl, rfl, h, ha⟩
  | cons inc incs ih =>
      obtain ⟨r, k₁, n₁, hk, hn, h₁, ha₁⟩ := sysSbrk_alike h ha (hincs inc (by simp))
      obtain ⟨k₂, n₂, hk₂, hn₂, h₂, ha₂⟩ := ih h₁ ha₁ fun inc hinc ↦ hincs inc (by simp [hinc])
      refine ⟨k₂, n₂, ?_, ?_, h₂, ha₂⟩
      · rw [sbrkAll, List.foldlM_cons, hk]
        exact hk₂
      · rw [sbrkAll, List.foldlM_cons, hn]
        exact hn₂

/-! ## The new program -/

/-- The image is loaded and the stack is there: `process_execve` succeeds. -/
theorem processExecve_entered {dir brk : ℕ} {m : Machine}
    (hprog : (k.vfsFinddir path).bind (k.files[·]?) = some prog) (hsize : prog.length ≤ EXEC_BUF_SIZE)
    (hspace : execSpace k.machine (k.execImage prog) prog.length k.kernelDir
      (k.procTable k.processCurrent).pageDir = some (.entered dir entry brk, m)) :
    k.processExecve path =
      some (.user entry USER_STACK_TOP, k.withExec (k.execImage prog) dir brk m) := by
  obtain ⟨m₁, m₂, m₃, hnew, hzero, hload, hentry, hfree, hstack⟩ := execSpace_entered.mp hspace
  have himage : (fun i ↦ if i < initrdReadSize prog 0 prog.length then prog.data i
      else k.execBuf i) = k.execImage prog := rfl
  have hcur : ({ k with execBuf := k.execImage prog } : Kernel).processCurrent =
      k.processCurrent := rfl
  unfold processExecve
  simp only [hprog, if_neg (not_lt.mpr hsize), himage, hcur, hnew, Option.bind_eq_bind,
    Option.bind_some, if_neg hzero, hload, if_neg hentry]
  by_cases hdir : (k.procTable k.processCurrent).pageDir = k.kernelDir
  · rw [if_neg (not_not_intro hdir), Option.some.injEq] at hfree
    subst hfree
    simp [hdir, hstack, withExec, taskCurrent]
  · rw [if_pos hdir] at hfree
    simp [hdir, hfree, hstack, withExec, taskCurrent]

/-- The machine before is not looked at any more. -/
theorem withExec_withMachine (x n : Machine) {image : Image} {dir brk : ℕ} {m : Machine} :
    (k.withExec image dir brk m).withMachine n = (k.withMachine x).withExec image dir brk n := by
  have htss : ∀ (k : Kernel) e, (k.tssSetStack e).withMachine n = (k.withMachine n).tssSetStack e :=
    fun _ _ ↦ rfl
  have hcur : (k.withMachine x).processCurrent = k.processCurrent := rfl
  simp only [withExec, htss, modifyRegs_withMachine, modifyProc_withMachine, withMachine_withMachine,
    hcur, modifyProc_runningTask, withMachine_runningTask, modifyProc_self, modifyRegs_kernelStack,
    withMachine_procTable]
  rfl

/-- Whatever the free frames hold, `execve` does the same, and leaves memories that
differ in the frames of the stack only, as these frames differed before. -/
theorem processExecve_alike (hled : k.machine.Ledger B L K) (hs : k.machine.Spared L K)
    (hp : k.machine.Paged) (hpacked : k.machine.Packed) (hkernel : k.kernelDir = B * PAGE_SIZE)
    (hdir : (k.procTable k.processCurrent).pageDir = k.machine.cr3)
    (hlow : ∀ t < 1024, k.machine.frameAt 0 t ≠ none)
    (hprog : (k.vfsFinddir path).bind (k.files[·]?) = some prog)
    (hbase : (k.execImage prog).headerBase prog.length = some base)
    (hoff : k.machine.KeepsOff L (k.execImage prog) base)
    (hpages : pages = (k.execImage prog).pages base (k.execImage prog).ePhnum)
    (hreloc : (k.execImage prog).relocated base (k.machine.outerView pages)
      ((k.execImage prog).loaded base) = .ok ν)
    (hrun : k.processExecve path = some (.user entry stack, k')) :
    ∃ S : Finset ℕ, (S : Set ℕ) = k'.machine.stackFrames ∧
      (∀ f, f ∈ S ↔ f ∈ k.machine.framesForStack B pages) ∧
      ∀ mem, k.machine.KeepsUsed mem → ∃ n',
        (k.withMachine (k.machine.withMem mem)).processExecve path =
          some (.user entry stack, k'.withMachine n') ∧
        k'.machine.Alike S n' ∧ k'.machine.Anchored S {v | v ∈ pages} ∧
        ∀ f ∈ S, (∀ i < 4096, n'.mem f i = k'.machine.mem f i) ↔
          ∀ i < 4096, mem f i = k.machine.mem f i := by
  subst hpages
  rcases processExecve_cases hrun with ⟨hnone, -⟩ | ⟨prog', hprog', hcases⟩
  · rw [hprog] at hnone
    exact nomatch hnone
  rw [hprog, Option.some.injEq] at hprog'
  subst hprog'
  rcases hcases with ⟨-, hout, -⟩ | ⟨hsize, space, m', hspace, hout⟩
  · exact nomatch hout
  cases space with
  | failed e => exact nomatch hout.1
  | entered dir entry' brk =>
      obtain ⟨hout, rfl⟩ := hout
      obtain ⟨rfl, rfl⟩ := ExecOutcome.user.inj hout
      have hold : (k.procTable k.processCurrent).pageDir = k.machine.dir * PAGE_SIZE := by
        rw [hdir, hled.recursive.cr3, PAGE_SIZE]
      rw [hkernel, hold] at hspace
      have hmachine : (k.withExec (k.execImage prog) dir brk m').machine = m' := by simp [withExec]
      have hsame : k.machine.KeepsUsed k.machine.mem := fun _ _ ↦ rfl
      obtain ⟨S, n, -, -, -, hS, hnamed, -⟩ := hsame.alike.execSpace hled (hsame.ledger hled) hs
        (hsame.spared hled hs) hp hpacked hlow hbase hoff.window hoff.copies hreloc hspace
      refine ⟨S, by rw [hmachine, hS], hnamed, fun mem hmem ↦ ?_⟩
      obtain ⟨S', n', hrun', h', ha', hS', -, hfrom⟩ := hmem.alike.execSpace hled
        (hmem.ledger hled) hs (hmem.spared hled hs) hp hpacked hlow hbase hoff.window hoff.copies
        hreloc hspace
      obtain rfl : S = S' := Finset.coe_injective (hS.trans hS'.symm)
      rw [← hkernel, ← hold] at hrun'
      refine ⟨n', ?_, by rw [hmachine]; exact h', by rw [hmachine]; exact ha', fun f hf ↦ ?_⟩
      · rw [withExec_withMachine (k.machine.withMem mem)]
        exact processExecve_entered (k := k.withMachine (k.machine.withMem mem)) hprog hsize hrun'
      · rw [hmachine]
        exact hfrom f hf

theorem seesSame_iff {n : Machine} {S : Finset ℕ} (h : k.machine.Alike S n)
    (ha : k.machine.Anchored S {v | v ∈ pages}) (hS : (S : Set ℕ) = k.machine.stackFrames)
    (hpages : ∀ v ∈ pages, v % 4096 = 0 ∧ v < 0xFFC00000) :
    SeesSame pages k (k.withMachine n) ↔ ∀ f ∈ S, ∀ i < 4096, n.mem f i = k.machine.mem f i := by
  constructor
  · intro hsame f hf i hi
    obtain ⟨k₁, k₂, h₁, h₂, hview, -⟩ := hsame [] (by simp)
    obtain rfl := Option.some.inj h₁
    obtain rfl := Option.some.inj h₂
    obtain ⟨-, t, ht, hleaf⟩ : f ∈ k.machine.stackFrames := hS ▸ hf
    have hleafn := h.leaf ha (d := 704) (by norm_num) (show t < 1024 by omega)
    have hbyte := congrFun hview (pageAddr 704 t + i)
    rw [Machine.view_page (by norm_num) (by norm_num) (by omega) hi, hleaf] at hbyte
    rw [Machine.view_page (by norm_num) (by norm_num) (by omega) hi] at hbyte
    rw [show (k.withMachine n).machine = n from rfl, hleafn, hleaf] at hbyte
    exact (Option.some.inj hbyte).symm
  · intro hmem incs hincs
    have halike : k.machine.Alike ∅ n := ⟨h.cr3, h.totalFrames, h.lastAlloc, h.test, fun f hf _ ↦ by
      by_cases hfS : f ∈ S
      · exact hmem f hfS
      · exact h.mem f hf hfS⟩
    obtain ⟨k', n', hk, hn, h', ha'⟩ := sbrkAll_alike halike (ha.anti (Set.empty_subset _)) hincs
    refine ⟨k', k'.withMachine n', hk, hn, (h'.view_eq ha' fun d t F _ _ _ _ hF ↦ ?_).symm,
      fun v hv o ho ↦ ?_⟩
    · exact absurd hF (Set.notMem_empty F)
    · obtain ⟨hmod, hlt⟩ := hpages v hv
      obtain ⟨d, t, hd, ht, rfl⟩ := Machine.exists_page hmod hlt
      have hleaf : n'.frameAt d t = k'.machine.frameAt d t := h'.leaf ha' hd ht
      rw [show (k'.withMachine n').machine = n' from rfl, Machine.load8, Machine.load8,
        Machine.translate_page (by omega) ht ho, Machine.translate_page (by omega) ht ho, hleaf]
      cases hF : k'.machine.frameAt d t with
      | none => rfl
      | some F =>
          have hused := ha'.leaf d t F hd ht (Or.inr hv) hF
          exact congrArg some (h'.mem F hused (Set.notMem_empty F) o ho).symm

theorem userless_pde (d : ℕ) : (Sample.userless 16).pde 1 d = if d = 1 then 0 else
    Sample.directory d := by
  have hlt : (if d = 1 then 0 else Sample.directory d) < 2 ^ 32 := by
    rw [Sample.directory]
    split_ifs <;> decide
  have hmem : (Sample.userless 16).mem 1 =
      ofWords fun d ↦ if d = 1 then 0 else Sample.directory d :=
    Function.update_self 1 _ Sample.memory
  rw [Machine.pde, hmem, word_ofWords, Nat.mod_eq_of_lt hlt]

theorem userless_booting : (Sample.userless 16).Booting 1 2 where
  reset := ⟨by decide, rfl, rfl, rfl, by decide, by decide,
    by decide, by decide, by decide⟩
  cr3 := rfl
  self := by rw [userless_pde]; rfl
  identity := by rw [userless_pde]; rfl
  heap _ := by
    rw [userless_pde]
    exact ⟨rfl, by decide, by decide⟩
  others d h₀ h₁ h₂ _ := by
    rw [userless_pde, Sample.directory, if_neg h₀, if_neg h₁, if_neg h₂]
    split_ifs <;> rfl

theorem userless_packed : (Sample.userless 16).Packed := ⟨by decide, by decide⟩

/-- Without entry 1 the directory is that of the small machine. -/
theorem userless_present {d : ℕ} (hp : (Sample.userless 16).pde 1 d % 2 = 1) :
    (Sample.userless 16).pde 1 d = (Sample.machine 16).pde 1 d := by
  rw [Machine.sample_pde]
  rw [userless_pde] at hp ⊢
  split at hp
  · cases hp
  · next hd => rw [if_neg hd]

theorem userless_paged : (Sample.userless 16).Paged := by
  have hdir : (Sample.userless 16).dir = 1 := userless_booting.dir_eq
  obtain ⟨-, hdistinct, huser⟩ := Machine.paged_sample 16
  rw [Machine.sample_dir] at hdistinct huser
  refine ⟨userless_booting.recursive, fun d d' hd hd' hp hp' heq ↦ ?_, fun d t hd ht hc ↦ ?_⟩
  · rw [hdir] at hp hp' heq
    have hd₁ := userless_present hp
    have hd₂ := userless_present hp'
    rw [hd₁] at hp heq
    rw [hd₂] at hp' heq
    exact hdistinct d d' hd hd' hp hp' heq
  · rw [hdir, Machine.copied_iff] at hc
    obtain ⟨hp, hq, hu⟩ := hc
    have hpde := userless_present hp
    rw [hpde] at hp
    rw [hdir, hpde]
    -- no table is the directory, the one page that differs
    have hne : (Sample.machine 16).pde 1 d / 4096 ≠ 1 := by
      have hself := (Machine.paged_sample 16).table_ne_dir hd
      rw [Machine.sample_dir] at hself
      exact hself hp
    have hpte : (Sample.userless 16).pte 1 d t = (Sample.machine 16).pte 1 d t := by
      rw [Machine.pte, hpde, Machine.pte]
      exact congrArg (fun p ↦ word p t) (Function.update_of_ne hne _ _)
    rw [hpte] at hq hu
    exact huser d t hd ht (Machine.copied_iff.mpr ⟨hp, hq, hu⟩)

theorem userless_low (t : ℕ) (ht : t < 1024) : (Sample.userless 16).frameAt 0 t ≠ none := by
  have hdir : (Sample.userless 16).dir = 1 := userless_booting.dir_eq
  have hpde : (Sample.userless 16).pde 1 0 = 2 * 4096 + 3 := userless_booting.identity
  have hpte : (Sample.userless 16).pte 1 0 t = t * 4096 + 3 := by
    have hmem : (Sample.userless 16).mem 2 = ofWords fun t ↦ Sample.entry t 3 := rfl
    rw [Machine.pte, hpde, show (2 * 4096 + 3) / 4096 = 2 by norm_num, hmem, word_ofWords]
    exact Nat.mod_eq_of_lt (by rw [Sample.entry, PAGE_SIZE]; omega)
  have hF : (Sample.userless 16).frameAt 0 t = some t := by
    rw [Machine.frameAt_eq_some, hdir, hpde, hpte]
    omega
  rw [hF]
  exact Option.some_ne_none t

theorem firstProcess_image :
    (Sample.firstProcess 16).execImage ⟨[0x61], 88, Sample.program⟩ = Sample.program := by
  have hread : initrdReadSize ⟨[0x61], 88, Sample.program⟩ 0 88 = 88 := rfl
  funext i
  rw [execImage, hread]
  by_cases hi : i < 88
  · rw [if_pos hi]
  · rw [if_neg hi]
    apply Eq.symm
    apply List.getD_eq_default
    exact (not_lt.mp hi).trans' (by rfl)

theorem firstProcess_finds : ((Sample.firstProcess 16).vfsFinddir [0x61]).bind
    ((Sample.firstProcess 16).files[·]?) = some ⟨[0x61], 88, Sample.program⟩ := by
  have hfind : (Sample.firstProcess 16).vfsFinddir [0x61] = some 0 := by decide
  rw [hfind]
  rfl

theorem firstProcess_free : (Sample.userless 16).free.card = 16 := by
  rw [← Machine.pmmFreeFrameCount_eq]
  decide +kernel

theorem program_pages : Sample.program.pages 0 Sample.program.ePhnum = [0x400000] := rfl

/-- Nothing is mapped where the program is loaded. -/
theorem program_keepsOff : (Sample.userless 16).KeepsOff {1} Sample.program 0 where
  window v hv := by
    rw [program_pages, List.mem_singleton] at hv
    rw [hv]
    norm_num
  frames v hv F o hF := by
    rw [program_pages, List.mem_singleton] at hv
    rw [hv, show 0x400000 = pageAddr 1 0 + 0 by rfl,
      Machine.translate_page (by norm_num) (by norm_num) (by norm_num), Option.map_eq_some_iff] at hF
    obtain ⟨G, hG, -⟩ := hF
    have hp := (Machine.frameAt_eq_some.mp hG).1
    rw [userless_booting.dir_eq, userless_pde, if_pos rfl] at hp
    cases hp
  copies i hi hload k hk := (Machine.program_confined i hi hload).2 k hk

theorem firstProcess_runs : ∃ entry stack k', (Sample.firstProcess 16).processExecve [0x61] =
    some (.user entry stack, k') := by
  have hlen : (Sample.program.pages 0 Sample.program.ePhnum).length = 1 := rfl
  obtain ⟨dir, entry, brk, m', hspace⟩ := userless_booting.ledger.execSpace_exists
    userless_booting.spared userless_paged userless_packed userless_booting.dir_eq userless_low
    (by decide) (show Sample.program.headerBase 88 = some 0 by rfl) program_keepsOff
    (Machine.program_relocated _ _) (by decide) (by rw [hlen, firstProcess_free]; norm_num)
  rw [← firstProcess_image] at hspace
  exact ⟨entry, _, _, processExecve_entered (k := Sample.firstProcess 16) firstProcess_finds (by decide)
    hspace⟩

theorem firstProcess_machine : (Sample.firstProcess 16).machine = Sample.userless 16 := rfl

theorem firstProcess_ledger : ∃ K, (Sample.firstProcess 16).machine.Ledger 1 {1} K ∧
    (Sample.firstProcess 16).machine.Spared {1} K := by
  rw [firstProcess_machine]
  exact ⟨_, userless_booting.ledger, userless_booting.spared⟩

theorem firstProcess_dirs : (Sample.firstProcess 16).kernelDir = 1 * PAGE_SIZE ∧
    ((Sample.firstProcess 16).procTable (Sample.firstProcess 16).processCurrent).pageDir =
      (Sample.firstProcess 16).machine.cr3 := by decide

theorem firstProcess_program (κ : Bytes) :
    ((Sample.firstProcess 16).execImage ⟨[0x61], 88, Sample.program⟩).headerBase 88 = some 0 ∧
    (Sample.firstProcess 16).machine.KeepsOff {1}
      ((Sample.firstProcess 16).execImage ⟨[0x61], 88, Sample.program⟩) 0 ∧
    [0x400000] = ((Sample.firstProcess 16).execImage ⟨[0x61], 88, Sample.program⟩).pages 0
      ((Sample.firstProcess 16).execImage ⟨[0x61], 88, Sample.program⟩).ePhnum ∧
    ((Sample.firstProcess 16).execImage ⟨[0x61], 88, Sample.program⟩).relocated 0 κ
      (((Sample.firstProcess 16).execImage ⟨[0x61], 88, Sample.program⟩).loaded 0) =
      .ok (((Sample.firstProcess 16).execImage ⟨[0x61], 88, Sample.program⟩).loaded 0) := by
  rw [firstProcess_image, firstProcess_machine]
  exact ⟨by rfl, program_keepsOff, program_pages.symm, Machine.program_relocated _ _⟩

/-- Four frames go to the directory, the scratch table, the page of the program and
its table; the sixth is for the table of the stack. -/
theorem firstProcess_frames :
    (Sample.firstProcess 16).machine.framesForStack 1 [0x400000] = [1028, 1030, 1031, 1032] := by
  have hidle : (Sample.userless 16).idle = List.range' 1024 16 := by decide +kernel
  have hcost : (Sample.userless 16).imageFrames 1 [0x400000] = 4 := by
    rw [Machine.imageFrames, userless_pde]
    have hnew : (Sample.userless 16).newTables [0x400000] = {1} := by
      rw [Machine.newTables, show Machine.dirsOf [0x400000] = {1} by decide, Finset.filter_singleton,
        if_pos (Or.inl (by norm_num))]
    rw [hnew]
    decide
  have hlist : (Sample.userless 16).idleForStack 1 [0x400000] = List.range' 1028 12 := by
    rw [Machine.idleForStack_of_dir userless_booting.dir_eq, hidle, hcost]
    rfl
  rw [firstProcess_machine, Machine.framesForStack, hlist]
  decide

/-- A byte of a free frame is another. -/
theorem keepsUsed_update {m : Machine} {f : ℕ} (hf : m.frameTest f = false) (p : Page) :
    m.KeepsUsed (Function.update m.mem f p) := by
  intro g hg
  apply Function.update_of_ne
  rintro rfl
  rw [hf] at hg
  cases hg

end Kernel

end EclipseOS
