import Mathlib.Algebra.BigOperators.Group.Finset.Basic
import Mathlib.Algebra.BigOperators.Fin
import EclipseOS.Sample
import EclipseOS.Scheduler

/-!
# Reference counts of open files

`refs` counts the descriptors that point to an entry of the file table.  The
invariant `Files` says that every entry's count is that number, that entries
which do not run have no descriptors, and that a descriptor still names the
file it was opened on.
-/

namespace EclipseOS

/-- Releasing an entry fewer times than it has references only counts down. -/
theorem OpenFile.release_iterate (file : OpenFile) (n : ℕ) (h : (n : ℤ) < file.refcount) :
    OpenFile.release^[n] file = { file with refcount := file.refcount - n } := by
  induction n generalizing file with
  | zero => simp
  | succ n ih =>
      have hone : ¬ file.refcount - 1 ≤ 0 := by push_cast at h; omega
      have hstep : file.release = { file with refcount := file.refcount - 1 } := by
        simp only [release, if_neg hone]
      rw [Function.iterate_succ_apply, hstep, ih _ (by push_cast at h ⊢; omega)]
      congr 1
      push_cast
      omega

/-- The last reference clears the entry. -/
theorem OpenFile.release_iterate_last (file : OpenFile) (n : ℕ) (hn : 0 < n)
    (h : file.refcount = n) : OpenFile.release^[n] file = ⟨none, 0, 0⟩ := by
  obtain ⟨n, rfl⟩ : ∃ m, n = m + 1 := ⟨n - 1, by omega⟩
  rw [Function.iterate_succ_apply', release_iterate file n (by rw [h]; push_cast; omega)]
  have hlast : file.refcount - (n : ℤ) - 1 ≤ 0 := by rw [h]; push_cast; omega
  simp only [release, if_pos hlast]

namespace Kernel

variable {k k' : Kernel}

/-- Descriptors of one process that point to the entry `f`. -/
def procRefs (k : Kernel) (f : Fin MAX_OPEN_FILES) (p : Fin MAX_PROCS) : ℕ :=
  fdCount (k.procTable p).fds (List.finRange MAX_FDS) f

/-- Descriptors of the whole process table that point to the entry `f`. -/
def refs (k : Kernel) (f : Fin MAX_OPEN_FILES) : ℕ := ∑ p, k.procRefs f p

theorem fdCount_none (l : List (Fin MAX_FDS)) (f : Fin MAX_OPEN_FILES) :
    fdCount (fun _ ↦ none) l f = 0 := by
  simp [fdCount]

/-- Changing one descriptor. -/
theorem fdCount_update (fds : Fin MAX_FDS → Option (Fin MAX_OPEN_FILES)) (i : Fin MAX_FDS)
    (o : Option (Fin MAX_OPEN_FILES)) (f : Fin MAX_OPEN_FILES) (l : List (Fin MAX_FDS))
    (hl : l.Nodup) (hi : i ∈ l) :
    fdCount (Function.update fds i o) l f + (if fds i = some f then 1 else 0) =
      fdCount fds l f + (if o = some f then 1 else 0) := by
  have hrest : ∀ l : List (Fin MAX_FDS), i ∉ l →
      fdCount (Function.update fds i o) l f = fdCount fds l f := by
    intro l hil
    refine List.countP_congr fun j hj ↦ ?_
    have hji : j ≠ i := fun h ↦ hil (h ▸ hj)
    simp [hji]
  induction l with
  | nil => simp at hi
  | cons j l ih =>
      obtain ⟨hj, hl⟩ := List.nodup_cons.mp hl
      by_cases hji : j = i
      · subst hji
        have := hrest l hj
        simp only [fdCount] at this
        simp only [fdCount, List.countP_cons, this]
        simp
        omega
      · have hil : i ∈ l := by
          rcases List.mem_cons.mp hi with h | h
          · exact absurd h.symm hji
          · exact h
        have := ih hl hil
        simp only [fdCount] at this ⊢
        simp only [List.countP_cons, Function.update_of_ne hji]
        omega

theorem fdCount_pos {fds : Fin MAX_FDS → Option (Fin MAX_OPEN_FILES)} {i : Fin MAX_FDS}
    {f : Fin MAX_OPEN_FILES} (h : fds i = some f) : 0 < fdCount fds (List.finRange MAX_FDS) f :=
  List.countP_pos_iff.mpr ⟨i, List.mem_finRange i, by simp [h]⟩

/-- The count after the descriptors of one process have changed. -/
theorem refs_modify {p : Fin MAX_PROCS} (f : Fin MAX_OPEN_FILES)
    (h : ∀ q, q ≠ p → (k'.procTable q).fds = (k.procTable q).fds) :
    k'.refs f + k.procRefs f p = k.refs f + k'.procRefs f p := by
  have hrest : ∑ q ∈ Finset.univ.erase p, k'.procRefs f q =
      ∑ q ∈ Finset.univ.erase p, k.procRefs f q :=
    Finset.sum_congr rfl fun q hq ↦ by rw [procRefs, procRefs, h q (Finset.ne_of_mem_erase hq)]
  have hk := Finset.add_sum_erase Finset.univ (k.procRefs f) (Finset.mem_univ p)
  have hk' := Finset.add_sum_erase Finset.univ (k'.procRefs f) (Finset.mem_univ p)
  simp only [refs]
  omega

theorem refs_congr (f : Fin MAX_OPEN_FILES)
    (h : ∀ q, (k'.procTable q).fds = (k.procTable q).fds) : k'.refs f = k.refs f :=
  Finset.sum_congr rfl fun q _ ↦ by rw [procRefs, procRefs, h q]

theorem procRefs_le_refs (f : Fin MAX_OPEN_FILES) (p : Fin MAX_PROCS) :
    k.procRefs f p ≤ k.refs f :=
  Finset.single_le_sum (fun _ _ ↦ Nat.zero_le _) (Finset.mem_univ p)

/-! ## The invariant -/

/-- `opened` tells on which file each descriptor was opened. -/
structure Files (k : Kernel) (opened : Fin MAX_PROCS → Fin MAX_FDS → Option ℕ) : Prop where
  count : ∀ f, (k.fileTable f).refcount = k.refs f
  node : ∀ p i f, (k.procTable p).fds i = some f →
    (k.fileTable f).node = opened p i ∧ (opened p i).isSome
  idle : ∀ p, (k.procTable p).state ≠ .run → ∀ i, (k.procTable p).fds i = none

variable {opened opened' : Fin MAX_PROCS → Fin MAX_FDS → Option ℕ}

theorem Files.refs_pos (h : k.Files opened) {p : Fin MAX_PROCS} {i : Fin MAX_FDS}
    {f : Fin MAX_OPEN_FILES} (hfd : (k.procTable p).fds i = some f) :
    0 < (k.fileTable f).refcount := by
  rw [h.count]
  have := (fdCount_pos hfd).trans_le (k.procRefs_le_refs f p)
  exact_mod_cast this

/-- The invariant looks at the descriptors and at counts and nodes. -/
theorem Files.congr (h : k.Files opened)
    (hcount : ∀ f, (k'.fileTable f).refcount = (k.fileTable f).refcount)
    (hnode : ∀ f, (k'.fileTable f).node = (k.fileTable f).node)
    (hfds : ∀ p, (k'.procTable p).fds = (k.procTable p).fds)
    (hstate : ∀ p, (k'.procTable p).state ≠ .run → (k.procTable p).state ≠ .run) :
    k'.Files opened where
  count f := by rw [hcount, h.count, refs_congr f hfds]
  node p i f hfd := by
    rw [hfds] at hfd
    rw [hnode]
    exact h.node p i f hfd
  idle p hp i := by
    rw [hfds]
    exact h.idle p (hstate p hp) i

/-- An entry that is zeroed while it was idle. -/
theorem Files.zeroed (h : k.Files opened) {c : Fin MAX_PROCS}
    (hc : (k.procTable c).state = .free) (hfile : k'.fileTable = k.fileTable)
    (hproc : ∀ q, q ≠ c → k'.procTable q = k.procTable q)
    (hfds : (k'.procTable c).fds = fun _ ↦ none) : k'.Files opened := by
  have hnone : (k.procTable c).fds = fun _ ↦ none :=
    funext (h.idle c (by rw [hc]; decide))
  refine h.congr (fun f ↦ by rw [hfile]) (fun f ↦ by rw [hfile]) (fun q ↦ ?_) fun q hq ↦ ?_
  · by_cases hqc : q = c
    · rw [hqc, hfds, hnone]
    · rw [hproc q hqc]
  · by_cases hqc : q = c
    · rw [hqc, hc]
      decide
    · rwa [hproc q hqc] at hq

/-- An entry of the file table after `n` of its descriptors are gone. -/
theorem released_entry {f : Fin MAX_OPEN_FILES} {n : ℕ}
    (hcount : (k.fileTable f).refcount = k.refs f)
    (hfile : k'.fileTable f = OpenFile.release^[n] (k.fileTable f))
    (hn : k'.refs f + n = k.refs f) :
    (0 < k'.refs f → k'.fileTable f = { k.fileTable f with refcount := k'.refs f }) ∧
      (k'.fileTable f).refcount = k'.refs f := by
  by_cases hpos : 0 < k'.refs f
  · have hrel := OpenFile.release_iterate (k.fileTable f) n (by rw [hcount]; omega)
    have heq : k'.fileTable f = { k.fileTable f with refcount := k'.refs f } := by
      rw [hfile, hrel]
      congr 1
      rw [hcount]
      omega
    exact ⟨fun _ ↦ heq, by rw [heq]⟩
  · refine ⟨fun h ↦ absurd h hpos, ?_⟩
    have hzero : k'.refs f = 0 := by omega
    rcases Nat.eq_zero_or_pos n with hn0 | hn0
    · subst hn0
      rw [hfile, Function.iterate_zero_apply, hcount]
      omega
    · rw [hfile, OpenFile.release_iterate_last _ n hn0 (by rw [hcount]; omega), hzero]
      rfl

/-- Process `p` gives up some of its descriptors, each with its reference. -/
theorem Files.shrink (h : k.Files opened) {p : Fin MAX_PROCS}
    (hother : ∀ q, q ≠ p → (k'.procTable q).fds = (k.procTable q).fds)
    (hself : ∀ i, (k'.procTable p).fds i = none ∨
      (k'.procTable p).fds i = (k.procTable p).fds i ∧ opened' p i = opened p i)
    (hfile : ∀ f, ∃ n, k'.fileTable f = OpenFile.release^[n] (k.fileTable f) ∧
      k'.procRefs f p + n = k.procRefs f p)
    (hopened : ∀ q, q ≠ p → opened' q = opened q)
    (hstate : ∀ q, q ≠ p → (k'.procTable q).state ≠ .run → (k.procTable q).state ≠ .run)
    (hidle : (k'.procTable p).state ≠ .run → ∀ i, (k'.procTable p).fds i = none) :
    k'.Files opened' ∧ ∀ f, 0 < k'.refs f →
      k'.fileTable f = { k.fileTable f with refcount := k'.refs f } := by
  have hentry : ∀ f, (0 < k'.refs f →
      k'.fileTable f = { k.fileTable f with refcount := k'.refs f }) ∧
      (k'.fileTable f).refcount = k'.refs f := by
    intro f
    obtain ⟨n, hrel, hn⟩ := hfile f
    have := refs_modify f hother
    exact released_entry (h.count f) hrel (by omega)
  refine ⟨⟨fun f ↦ (hentry f).2, fun q i f hfd ↦ ?_, fun q hq i ↦ ?_⟩, fun f ↦ (hentry f).1⟩
  · have hpos : 0 < k'.refs f := (fdCount_pos hfd).trans_le (k'.procRefs_le_refs f q)
    rw [(hentry f).1 hpos]
    by_cases hqp : q = p
    · subst hqp
      rcases hself i with hnone | ⟨hsame, hop⟩
      · exact nomatch hnone.symm.trans hfd
      · rw [hop]
        exact h.node q i f (hsame ▸ hfd)
    · rw [hopened q hqp]
      exact h.node q i f (by rwa [hother q hqp] at hfd)
  · by_cases hqp : q = p
    · subst hqp
      exact hidle hq i
    · rw [hother q hqp]
      exact h.idle q (hstate q hqp hq) i

/-! ## The operations -/

/-- A new descriptor on an entry without references. -/
theorem Files.open (h : k.Files opened) (node : ℕ) {p : Fin MAX_PROCS} {fd : Fin MAX_FDS}
    {file : Fin MAX_OPEN_FILES} (hrun : (k.procTable p).state = .run)
    (hfd : (k.procTable p).fds fd = none) (hzero : (k.fileTable file).refcount = 0) :
    ((k.modifyFile file fun _ ↦ ⟨some node, 0, 1⟩).modifyProc p fun q ↦
      { q with fds := Function.update q.fds fd (some file) }).Files
      (Function.update opened p (Function.update (opened p) fd (some node))) := by
  set k' := (k.modifyFile file fun _ ↦ ⟨some node, 0, 1⟩).modifyProc p fun q ↦
    { q with fds := Function.update q.fds fd (some file) } with hk'
  have hrefs0 : k.refs file = 0 := by
    have := h.count file
    rw [hzero] at this
    exact_mod_cast this.symm
  have hother : ∀ q, q ≠ p → k'.procTable q = k.procTable q := fun q hq ↦ by simp [hk', hq]
  have hself : (k'.procTable p).fds = Function.update (k.procTable p).fds fd (some file) := by
    simp [hk']
  have hcount : ∀ f, k'.refs f = k.refs f + if file = f then 1 else 0 := by
    intro f
    have hrefs := refs_modify (k := k) (p := p) f fun q hq ↦
      congrArg Process.fds (hother q hq)
    have hupd := fdCount_update (k.procTable p).fds fd (some file) f _ (List.nodup_finRange _)
      (List.mem_finRange fd)
    rw [← hself, hfd] at hupd
    simp only [procRefs, Option.some.injEq, reduceCtorEq, if_false] at hrefs hupd
    omega
  have hfile : k'.fileTable file = ⟨some node, 0, 1⟩ := by simp [hk', modifyFile]
  have hfile' : ∀ f, f ≠ file → k'.fileTable f = k.fileTable f := fun f hf ↦ by
    simp [hk', modifyFile, hf]
  refine ⟨fun f ↦ ?_, fun q i f hqi ↦ ?_, fun q hq i ↦ ?_⟩
  · rw [hcount]
    by_cases hf : f = file
    · rw [hf, hfile, hrefs0, if_pos rfl]
      rfl
    · rw [hfile' f hf, h.count, if_neg fun heq ↦ hf heq.symm, add_zero]
  · by_cases hnew : q = p ∧ i = fd
    · obtain ⟨rfl, rfl⟩ := hnew
      rw [hself, Function.update_self, Option.some.injEq] at hqi
      subst hqi
      simp [hfile]
    · have hold : (k.procTable q).fds i = some f := by
        by_cases hqp : q = p
        · subst hqp
          rwa [hself, Function.update_of_ne fun hi ↦ hnew ⟨rfl, hi⟩] at hqi
        · rwa [hother q hqp] at hqi
      have hf : f ≠ file := by
        rintro rfl
        have := h.refs_pos hold
        omega
      have hop : Function.update opened p (Function.update (opened p) fd (some node)) q i =
          opened q i := by
        by_cases hqp : q = p
        · subst hqp
          rw [Function.update_self, Function.update_of_ne fun hi ↦ hnew ⟨rfl, hi⟩]
        · rw [Function.update_of_ne hqp]
      rw [hop, hfile' f hf]
      exact h.node q i f hold
  · by_cases hqp : q = p
    · subst hqp
      exact absurd (by simp [hk', hrun]) hq
    · rw [hother q hqp] at hq ⊢
      exact h.idle q hq i

/-- The child shares every descriptor of its parent. -/
theorem Files.fork (h : k.Files opened) {p c : Fin MAX_PROCS} (hne : p ≠ c)
    (hc : (k.procTable c).state = .free) (dir stack : ℕ) (heap : Kheap) (m : Machine) :
    (k.withChild p c dir stack heap m).Files
      (Function.update opened c fun i ↦
        if ((k.procTable p).fds i).isSome then opened p i else none) := by
  set k' := k.withChild p c dir stack heap m with hk'
  have hparent : (k.withFresh c stack heap).procTable p = k.procTable p := by
    simp [withFresh, hne]
  have hchild : (k'.procTable c).fds = (k.procTable p).fds := by
    simp [hk', withChild_procTable, childEntry, forkedEntry, hparent]
  have hother : ∀ q, q ≠ c → (k'.procTable q).fds = (k.procTable q).fds := by
    intro q hq
    simp [hk', withChild_procTable, hq]
  have hstate : ∀ q, q ≠ c → (k'.procTable q).state = (k.procTable q).state := by
    intro q hq
    simp [hk', withChild_procTable, hq]
  have hrun : (k'.procTable c).state = .run := by
    simp [hk', withChild_procTable, childEntry, forkedEntry, freshEntry]
  have hnone : (k.procTable c).fds = fun _ ↦ none :=
    funext (h.idle c (by rw [hc]; decide))
  have hfile : ∀ f, k'.fileTable f = { k.fileTable f with
      refcount := (k.fileTable f).refcount + k.procRefs f p } := by
    intro f
    rw [hk', withChild_fileTable, hparent]
    rfl
  refine ⟨fun f ↦ ?_, fun q i f hfd ↦ ?_, fun q hq i ↦ ?_⟩
  · have hrefs := refs_modify f hother
    have hold : k.procRefs f c = 0 := by rw [procRefs, hnone, fdCount_none]
    have hnew : k'.procRefs f c = k.procRefs f p := by rw [procRefs, hchild]; rfl
    rw [hfile, h.count]
    push_cast [show k'.refs f = k.refs f + k.procRefs f p by omega]
    rfl
  · rw [hfile]
    by_cases hqc : q = c
    · subst hqc
      rw [hchild] at hfd
      simpa [hfd] using h.node p i f hfd
    · rw [Function.update_of_ne hqc]
      exact h.node q i f (by rwa [hother q hqc] at hfd)
  · by_cases hqc : q = c
    · subst hqc
      exact absurd hrun hq
    · rw [hother q hqc]
      exact h.idle q (by rwa [hstate q hqc] at hq) i

theorem Files.close (h : k.Files opened) {p : Fin MAX_PROCS} {i : Fin MAX_FDS}
    {file : Fin MAX_OPEN_FILES} (hrun : (k.procTable p).state = .run)
    (hfd : (k.procTable p).fds i = some file)
    (hk' : k' = (k.modifyProc p fun q ↦
      { q with fds := Function.update q.fds i none }).modifyFile file OpenFile.release)
    (hop : ∀ j, j ≠ i → opened' p j = opened p j) (hop' : ∀ q, q ≠ p → opened' q = opened q) :
    k'.Files opened' ∧ ∀ f, 0 < k'.refs f →
      k'.fileTable f = { k.fileTable f with refcount := k'.refs f } := by
  have hself : (k'.procTable p).fds = Function.update (k.procTable p).fds i none := by
    simp [hk']
  refine h.shrink (fun q hq ↦ by simp [hk', hq]) (fun j ↦ ?_) (fun f ↦ ?_) hop'
    (fun q hq ↦ by simp [hk', hq]) fun hq ↦ absurd (by simp [hk', hrun]) hq
  · rw [hself]
    by_cases hj : j = i
    · exact Or.inl (by simp [hj])
    · exact Or.inr ⟨by simp [hj], hop j hj⟩
  · refine ⟨if file = f then 1 else 0, ?_, ?_⟩
    · by_cases hf : file = f
      · subst hf
        simp [hk', modifyFile]
      · have hf' : f ≠ file := fun heq ↦ hf heq.symm
        simp [hk', modifyFile, hf, hf']
    · have hupd := fdCount_update (k.procTable p).fds i none f _ (List.nodup_finRange _)
        (List.mem_finRange i)
      rw [← hself, hfd] at hupd
      simpa [procRefs] using hupd

theorem Files.exit (h : k.Files opened) {code : ℤ} {m : Machine} (hexit : Exited k k' code m)
    (hop : ∀ q, q ≠ k.processCurrent → opened' q = opened q) :
    k'.Files opened' ∧ ∀ f, 0 < k'.refs f →
      k'.fileTable f = { k.fileTable f with refcount := k'.refs f } := by
  have hother : ∀ q, q ≠ k.processCurrent → (k'.procTable q).fds = (k.procTable q).fds := by
    intro q hq
    simp [hexit.procTable, withExited, hq]
  have hself : (k'.procTable k.processCurrent).fds = fun _ ↦ none := by
    simp [hexit.procTable, withExited, exitedEntry]
  refine h.shrink hother (fun i ↦ Or.inl (by rw [hself])) (fun f ↦ ?_) hop (fun q hq ↦ ?_)
    fun _ i ↦ by rw [hself]
  · refine ⟨k.procRefs f k.processCurrent, ?_, ?_⟩
    · rw [hexit.fileTable]
      rfl
    · rw [procRefs, hself, fdCount_none]
      omega
  · simp [hexit.procTable, withExited, hq]

/-- Calls that change neither a descriptor nor the file table. -/
theorem Files.unchanged (h : k.Files opened) (hq : k.Quiet k') (hfile : k'.fileTable = k.fileTable)
    (hfds : ∀ p, (k'.procTable p).fds = (k.procTable p).fds) : k'.Files opened :=
  h.congr (fun f ↦ by rw [hfile]) (fun f ↦ by rw [hfile]) hfds fun p hp ↦ by rwa [hq.state] at hp

theorem Files.yield {cpu : TaskRegs} (h : k.Files opened) (hy : k.yield cpu = some k') : k'.Files opened := by
  have hspec := yield_spec hy
  refine h.congr (fun f ↦ by rw [hspec.fileTable]) (fun f ↦ by rw [hspec.fileTable])
    (fun p ↦ by rw [hspec.procTable]) fun p hp ↦ ?_
  rwa [hspec.procTable] at hp

theorem Files.execve {path : ℕ} {o : ExecOutcome} (h : k.Files opened) (hk : k.sysExecve path = some (o, k')) :
    k'.Files opened := by
  have hq := sysExecve_quiet hk
  obtain ⟨-, rfl⟩ | ⟨name, hk⟩ := sysExecve_cases hk
  · exact h
  obtain ⟨-, -, rfl⟩ | ⟨prog, -, ⟨-, -, rfl⟩ | ⟨-, space, m, -, hspace⟩⟩ :=
    processExecve_cases hk
  · exact h
  · exact h
  · cases space with
    | failed e =>
        obtain ⟨-, rfl⟩ := hspace
        exact Files.unchanged h hq rfl fun _ ↦ rfl
    | entered dir entry brk =>
        obtain ⟨-, rfl⟩ := hspace
        refine Files.unchanged h hq (by simp [withExec]) fun p ↦ ?_
        by_cases hp : p = k.processCurrent <;> simp [withExec, hp]

theorem Files.waitSlot {self i : Fin MAX_PROCS} {status n : ℕ} {w : WaitStep} (h : k.Files opened)
    (hk : k.waitSlot self status n i = some (w, k')) : k'.Files opened := by
  obtain ⟨-, rfl, -⟩ | ⟨-, -, ⟨-, rfl, -⟩ | ⟨hzombie, -, m, -, rfl⟩⟩ := waitSlot_cases hk
  · exact h
  · exact h
  · refine h.congr (fun _ ↦ rfl) (fun _ ↦ rfl) (fun p ↦ ?_) fun p hp ↦ ?_
    · by_cases hpi : p = i <;> simp [hpi]
    · by_cases hpi : p = i
      · rw [hpi, hzombie]
        decide
      · simpa [hpi] using hp

end Kernel

/-- The calls by which a process gives up descriptors. -/
def Op.Releases : Op → Prop
  | .closeFile _ => True
  | .exit _ _ => True
  | _ => False

namespace System

variable {s s' : System} {op : Op} {obs : Obs}

/-- Reference counts of the kernel, nodes against what was opened. -/
def Files (s : System) : Prop := s.kernel.Files s.opened

theorem Files.forkKernel {regs : Registers} {r : ℤ} {k : Kernel} {c : Fin MAX_PROCS}
    (h : s.Files) (hk : s.kernel.processFork regs = some (r, k))
    (hslot : s.kernel.freeSlot = some c) :
    ((s.trap.withKernel k).adoptChild s.kernel.processCurrent c).Files := by
  obtain ⟨hc, hfree⟩ := Kernel.freeSlot_spec hslot
  have hne := Kernel.freeSlot_ne_processCurrent hslot
  have hfail : k.Files s.opened → (∀ i, (k.procTable c).fds i = none) →
      ((s.trap.withKernel k).adoptChild s.kernel.processCurrent c).Files := by
    intro hfiles hnone
    refine ⟨hfiles.count, fun p i f hfd ↦ ?_, hfiles.idle⟩
    have hpc : p ≠ c := by
      rintro rfl
      exact nomatch (hnone i).symm.trans hfd
    simpa [adoptChild, withKernel, trap, hpc] using hfiles.node p i f hfd
  obtain ⟨hnone, -, rfl⟩ | ⟨c', stack, heap, hslot', -, ⟨-, -, rfl⟩ |
    ⟨-, -, o, m, dir, -, -, rfl⟩ | ⟨-, -, dir, m, m', -, -, rfl⟩⟩ := Kernel.processFork_cases hk
  · exact nomatch hnone.symm.trans hslot
  · obtain rfl : c = c' := Option.some.inj (hslot.symm.trans hslot')
    refine hfail (Kernel.Files.zeroed h hfree rfl (fun q hq ↦ ?_) ?_) fun i ↦ ?_
    · rw [Kernel.modifyProc_of_ne _ _ _ _ hq]
    · rw [Kernel.modifyProc_self]
      rfl
    · rw [Kernel.modifyProc_self]
      rfl
  · obtain rfl : c = c' := Option.some.inj (hslot.symm.trans hslot')
    refine hfail (Kernel.Files.zeroed h hfree rfl (fun q hq ↦ ?_) ?_) fun i ↦ ?_
    · rw [Kernel.modifyProc_of_ne _ _ _ _ hq]
      simp [Kernel.withFresh, hq]
    · rw [Kernel.modifyProc_self]
      rfl
    · rw [Kernel.modifyProc_self]
      rfl
  · obtain rfl : c = c' := Option.some.inj (hslot.symm.trans hslot')
    have hparent : ((s.kernel.withChild s.kernel.processCurrent c dir stack heap m').procTable c).fds
        = (s.kernel.procTable s.kernel.processCurrent).fds := by
      simp [Kernel.withChild_procTable, Kernel.childEntry, Kernel.forkedEntry, Kernel.withFresh, hne]
    have := Kernel.Files.fork h hne hfree dir stack heap m'
    simpa only [System.Files, adoptChild, withKernel, trap, hparent] using this

theorem Files.openKernel {path : ℕ} {r : ℤ} {k : Kernel} (h : s.Files)
    (hrun : (s.kernel.procTable s.kernel.processCurrent).state = .run)
    (hk : s.kernel.sysOpen path = some (r, k)) :
    ((s.trap.recordOpen s.kernel.processCurrent
      ((s.kernel.machine.readString path PATH_MAX).bind s.kernel.vfsFinddir) r).withKernel
      k).Files := by
  obtain ⟨hr, rfl⟩ | ⟨node, fd, file, hnode, rfl, hfd, hzero, rfl⟩ := Kernel.sysOpen_cases hk
  · have hsame : ∀ o : Option ℕ, ∀ p, (Function.update s.opened p fun i ↦
        if (i.val : ℤ) = r then o else s.opened p i) = s.opened := by
      intro o p
      have hne : ∀ i : Fin MAX_FDS, (i.val : ℤ) ≠ r := fun i ↦ by omega
      simp only [if_neg (hne _), Function.update_eq_self]
    simpa only [System.Files, recordOpen, withKernel, trap, hsame] using h
  · have hnew : (fun i : Fin MAX_FDS ↦ if (i.val : ℤ) = fd.val then some node
        else s.opened s.kernel.processCurrent i) =
        Function.update (s.opened s.kernel.processCurrent) fd (some node) := by
      funext i
      simp only [Function.update_apply, Nat.cast_inj, Fin.ext_iff]
    have := Kernel.Files.open h node hrun hfd hzero
    simpa only [System.Files, recordOpen, withKernel, trap, hnode, hnew] using this

/-- Closing a descriptor, with what becomes of the entries still in use. -/
theorem Files.closeKernel {fd : ℕ} (h : s.Files)
    (hrun : (s.kernel.procTable s.kernel.processCurrent).state = .run) :
    (s.stepClose fd).1.Files ∧ ∀ f, 0 < (s.stepClose fd).1.kernel.refs f →
      (s.stepClose fd).1.kernel.fileTable f =
        { s.kernel.fileTable f with refcount := (s.stepClose fd).1.kernel.refs f } := by
  obtain ⟨hget, hclose⟩ | ⟨i, file, rfl, hfd, hclose⟩ := s.kernel.sysClose_cases fd
  · have hnone : ∀ i : Fin MAX_FDS, i.val = fd →
        (s.kernel.procTable s.kernel.processCurrent).fds i = none := by
      rintro i rfl
      simpa [Kernel.getFd] using hget
    have hk : (s.stepClose fd).1.kernel = s.kernel := by simp [stepClose, hclose]
    rw [System.Files, hk]
    refine Kernel.Files.shrink (p := s.kernel.processCurrent) h (fun _ _ ↦ rfl) (fun i ↦ ?_)
      (fun f ↦ ⟨0, rfl, rfl⟩) (fun q hq ↦ by simp [stepClose, hq]) (fun _ _ hq ↦ hq)
      fun hq ↦ absurd hrun hq
    by_cases hi : i.val = fd
    · exact Or.inl (hnone i hi)
    · exact Or.inr ⟨rfl, by simp [stepClose, hi]⟩
  · refine Kernel.Files.close h hrun hfd (by simp [stepClose, hclose]) (fun j hj ↦ ?_)
      fun q hq ↦ by simp [stepClose, hq]
    have hne : j.val ≠ i.val := fun heq ↦ hj (Fin.ext heq)
    simp [stepClose, hne]

/-- What a step does to the entries that other processes refer to. -/
theorem step_files (hs : s.kernel.Sched) (h : s.Files) (hstep : s.step op = some (s', obs)) :
    s'.Files := by
  cases step_case hstep with
  | forkNoSlot _ hk hslot =>
      obtain ⟨-, -, rfl⟩ | ⟨c, _, _, hslot', -⟩ := Kernel.processFork_cases hk
      · exact h
      · exact nomatch hslot.symm.trans hslot'
  | fork _ hk hslot => exact Files.forkKernel h hk hslot
  | execError _ hk => exact Kernel.Files.execve h hk
  | exec _ hk => exact Kernel.Files.execve h hk
  | halt _ hk =>
      obtain ⟨-, -, rfl⟩ | ⟨-, ho, -⟩ := Kernel.processExit_cases hs.zeroPid hk
      · exact Kernel.Files.unchanged h (Kernel.quiet_tssSetStack _ _) rfl fun _ ↦ rfl
      · exact nomatch ho
  | exit _ hk hy =>
      obtain ⟨m, hexit⟩ := Kernel.exit_spec hs.zeroPid hk hy
      exact (Kernel.Files.exit h hexit fun q hq ↦ by simp [hq]).1
  | waitFault _ _ => exact h
  | wait _ _ => exact h
  | scanNext _ _ hk => exact Kernel.Files.waitSlot h hk
  | reap _ _ hk => exact Kernel.Files.waitSlot h hk
  | noChild _ _ => exact h
  | block _ _ _ hy => exact Kernel.Files.yield h hy
  | tickUser _ hy => exact Kernel.Files.yield h hy
  | tickKernel _ hy => exact Kernel.Files.yield h hy
  | taskCreate hk =>
      obtain ⟨heap, m, regs, -, -, rfl⟩ := Kernel.taskCreate_cases hk
      refine Kernel.Files.congr h (fun f ↦ ?_) (fun f ↦ ?_) (fun p ↦ ?_) fun p hp ↦ ?_
      · simp [Kernel.taskAdd, withKernel, setMode]
      · simp [Kernel.taskAdd, withKernel, setMode]
      · rw [withKernel, setMode, Kernel.taskAdd_taskless]
        simp
      · rw [withKernel, setMode, Kernel.taskAdd_taskless] at hp
        simpa using hp
  | sbrk _ hk =>
      have hq := Kernel.sysSbrk_quiet hk
      obtain ⟨m, b, rfl⟩ := Kernel.sysSbrk_cases hk
      refine Kernel.Files.unchanged h hq rfl fun p ↦ ?_
      by_cases hp : p = s.kernel.processCurrent <;> simp [withKernel, hp]
  | openFile _ hk => exact Files.openKernel h hs.current_run hk
  | closeFile _ => exact (Files.closeKernel h hs.current_run).1
  | readFile _ hk =>
      obtain rfl | ⟨file, got, m, -, rfl⟩ := Kernel.sysRead_cases hk
      · exact h
      · refine Kernel.Files.congr h (fun f ↦ ?_) (fun f ↦ ?_) (fun p ↦ rfl) fun p hp ↦ hp
        · by_cases hf : f = file <;> simp [withKernel, trap, Kernel.modifyFile, hf]
        · by_cases hf : f = file <;> simp [withKernel, trap, Kernel.modifyFile, hf]
  | store _ _ => exact Kernel.Files.unchanged h (Kernel.quiet_withMachine _ _) rfl fun _ ↦ rfl

theorem boot_files (k : Kernel) (size brk : ℕ) : (boot k size brk).Files := by
  have hnone : ∀ p, ((boot k size brk).kernel.procTable p).fds = fun _ ↦ none := by
    intro p
    by_cases hp : p = 0 <;> simp [boot, boot_kernel, hp, bootEntry, Process.zero]
  refine ⟨fun f ↦ ?_, fun p i f hfd ↦ ?_, fun p _ i ↦ by rw [hnone]⟩
  · have hrefs : (boot k size brk).kernel.refs f = 0 :=
      Finset.sum_eq_zero fun p _ ↦ by rw [Kernel.procRefs, hnone, Kernel.fdCount_none]
    rw [hrefs, boot, boot_kernel]
    rfl
  · cases (congrFun (hnone p) i).symm.trans hfd

/-- An entry that another process refers to survives a close and an exit. -/
theorem step_releases (hs : s.kernel.Sched) (h : s.Files) (hstep : s.step op = some (s', obs))
    (hop : op.Releases) {q : Fin MAX_PROCS} (hq : q ≠ s.kernel.processCurrent) :
    (s'.kernel.procTable q).fds = (s.kernel.procTable q).fds ∧
      ∀ f, 0 < s'.kernel.refs f →
        s'.kernel.fileTable f = { s.kernel.fileTable f with refcount := s'.kernel.refs f } := by
  cases step_case hstep with
  | halt _ hk =>
      obtain ⟨-, -, rfl⟩ | ⟨-, ho, -⟩ := Kernel.processExit_cases hs.zeroPid hk
      · refine ⟨rfl, fun f _ ↦ ?_⟩
        have hrefs : ((s.trap.withKernel (s.kernel.tssSetStack s.kernel.haltStackTop)).setMode
            s.cur .halted).kernel.refs f = s.kernel.refs f := rfl
        rw [hrefs, ← h.count f]
        rfl
      · exact nomatch ho
  | exit _ hk hy =>
      obtain ⟨m, hexit⟩ := Kernel.exit_spec hs.zeroPid hk hy
      have hopened : ∀ q, q ≠ s.kernel.processCurrent →
          Function.update s.opened s.kernel.processCurrent (fun _ ↦ none) q = s.opened q :=
        fun q hq ↦ Function.update_of_ne hq _ _
      refine ⟨?_, (Kernel.Files.exit h hexit hopened).2⟩
      simp [withKernel, setMode, hexit.procTable, Kernel.withExited, hq]
  | @closeFile fd _ =>
      refine ⟨?_, (Files.closeKernel h hs.current_run).2⟩
      obtain ⟨-, hclose⟩ | ⟨i, file, -, -, hclose⟩ := s.kernel.sysClose_cases fd
      · simp [stepClose, hclose]
      · simp [stepClose, hclose, hq]
  | _ => exact hop.elim

/-- In every reachable state an open file has as many references as there are
descriptors for it, a descriptor names the file it was opened on, a fresh entry
is one that no descriptor reaches, and a close or an exit leaves alone what
other processes refer to. -/
theorem open_files {k : Kernel} {size brk : ℕ} {tr : List (Op × Obs)}
    (hrun : Run (boot k size brk) tr s) :
    (∀ f, (s.kernel.fileTable f).refcount = s.kernel.refs f) ∧
      (∀ p i f, (s.kernel.procTable p).fds i = some f → 0 < (s.kernel.fileTable f).refcount ∧
        (s.kernel.fileTable f).node = s.opened p i ∧ (s.opened p i).isSome) ∧
      (∀ node f k', s.kernel.openFileAlloc node = (some f, k') →
        ∀ p i, (s.kernel.procTable p).fds i ≠ some f) ∧
      ∀ op obs s', s.step op = some (s', obs) → op.Releases →
        ∀ q, q ≠ s.kernel.processCurrent → ∀ i f, (s.kernel.procTable q).fds i = some f →
          (s'.kernel.procTable q).fds i = some f ∧
          (s'.kernel.fileTable f).node = (s.kernel.fileTable f).node ∧
          (s'.kernel.fileTable f).offset = (s.kernel.fileTable f).offset := by
  obtain ⟨hs, h⟩ : s.kernel.Sched ∧ s.Files :=
    hrun.invariant (P := fun s ↦ s.kernel.Sched ∧ s.Files)
      ⟨boot_sched k size brk, boot_files k size brk⟩
      fun _ _ _ _ h hstep ↦ ⟨step_sched h.1 hstep, step_files h.1 h.2 hstep⟩
  refine ⟨h.count, fun p i f hfd ↦ ⟨Kernel.Files.refs_pos h hfd, h.node p i f hfd⟩,
    fun node f k' halloc p i hfd ↦ ?_, fun op obs s' hstep hop q hq i f hfd ↦ ?_⟩
  · have hpos := Kernel.Files.refs_pos h hfd
    obtain ⟨-, hnone⟩ | ⟨g, hzero, hsome⟩ := s.kernel.openFileAlloc_cases node
    · exact nomatch hnone.symm.trans halloc
    · rw [hsome, Prod.mk.injEq, Option.some.injEq] at halloc
      rw [← halloc.1, hzero] at hpos
      exact lt_irrefl _ hpos
  · obtain ⟨hfds, hkept⟩ := step_releases hs h hstep hop hq
    rw [← hfds] at hfd
    have hf := hkept f ((Kernel.fdCount_pos hfd).trans_le (s'.kernel.procRefs_le_refs f q))
    exact ⟨hfd, by rw [hf], by rw [hf]⟩

/-- Process 0 opens a file twice, reads from it and closes one descriptor. -/
theorem open_files_sample : ∃ x, (Sample.boot 64).replay
      [.openFile 0x400000, .openFile 0x400000, .readFile 3 0x400010 4, .closeFile 4] = some x ∧
    (∀ f, (x.2.kernel.fileTable f).refcount = x.2.kernel.refs f) ∧
    ∀ p i f, (x.2.kernel.procTable p).fds i = some f → 0 < (x.2.kernel.fileTable f).refcount := by
  have h : ((Sample.boot 64).replay
      [.openFile 0x400000, .openFile 0x400000, .readFile 3 0x400010 4, .closeFile 4]).isSome := by
    decide +kernel
  obtain ⟨x, hx⟩ := Option.isSome_iff_exists.mp h
  obtain ⟨hcount, hnode, -, -⟩ := open_files (run_replay hx)
  exact ⟨x, hx, hcount, fun p i f hfd ↦ (hnode p i f hfd).1⟩

end System

end EclipseOS
