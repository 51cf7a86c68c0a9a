import EclipseOS.Initrd
import EclipseOS.Isolation
import EclipseOS.OpenFiles
import EclipseOS.UserPointers

/-!
# Reads through shared descriptors

The offset belongs to the entry of the file table, so whoever reads through a
descriptor for it moves the offset for all.  From `sys_open` on, until the last
descriptor is gone, the reads take the file from its start without a gap.
-/

namespace EclipseOS

variable {s s' s₀ : System} {op : Op} {obs : Obs} {f file : Fin MAX_OPEN_FILES} {bytes : List UInt8}

/-- Lengths are words. -/
def Op.LengthWord : Op → Prop
  | .readFile _ _ len => len < 2 ^ 32
  | _ => True

namespace Kernel

variable {k k' : Kernel} {fd buf len : ℕ} {r : ℤ} {n : FsNode}

/-- The file that an entry of the file table stands for. -/
def openNode (k : Kernel) (file : Fin MAX_OPEN_FILES) : Option FsNode :=
  (k.fileTable file).node.bind (k.files[·]?)

/-- What a read of `len` bytes through the entry copies. -/
def copied (k : Kernel) (file : Fin MAX_OPEN_FILES) (len : ℕ) : List UInt8 :=
  (k.openNode file).elim [] fun n ↦ initrdRead n (k.fileTable file).offset len

end Kernel

/-- Bytes stored one after the other. -/
def Machine.storeBytes (m : Machine) (dst : ℕ) : List UInt8 → Option Machine
  | [] => some m
  | b :: bytes => do
      let m ← m.store8 dst b
      storeBytes m (dst + 1) bytes

theorem Machine.memcpyFrom_eq (m : Machine) (dst : ℕ) (src : ℕ → UInt8) (off n : ℕ) :
    m.memcpyFrom dst src off n =
      m.storeBytes dst ((List.range n).map fun i ↦ src ((off + i) % 2 ^ 32)) := by
  induction n generalizing m dst off with
  | zero => rfl
  | succ n ih =>
      rw [memcpyFrom, List.range_succ_eq_map, List.map_cons, List.map_map, storeBytes, Nat.add_zero]
      refine congrArg _ (funext fun m ↦ ?_)
      rw [ih]
      refine congrArg _ (List.map_congr_left fun i _ ↦ ?_)
      rw [Function.comp_apply, Nat.add_assoc, Nat.add_comm 1 i]

namespace Kernel

variable {k k' : Kernel} {fd buf len : ℕ} {r : ℤ} {n : FsNode}

/-- The length that `initrd_read` copies, when nothing wraps. -/
theorem initrdReadSize_eq (hwrap : (k.fileTable file).offset + len < 2 ^ 32) :
    initrdReadSize n (k.fileTable file).offset len = min len (n.length - (k.fileTable file).offset) := by
  rw [initrdReadSize, Nat.mod_eq_of_lt hwrap]
  split
  · omega
  · split <;> omega

theorem userRangeOk_bounds {m : Machine} {a : ℕ} (h : m.userRangeOk a len = some true)
    (hlen : len < 2 ^ 32) (hpos : 0 < len) : a + len ≤ USER_LIMIT := by
  rw [Machine.userRangeOk, if_neg (by omega)] at h
  dsimp only at h
  split at h
  · cases h
  · next hno =>
    rw [not_or, not_or] at hno
    rw [USER_LIMIT] at hno ⊢
    omega

/-- A read through an entry on a small file: what it answers, where it puts the
bytes, and how the offset moves. -/
theorem sysRead_spec (h : k.sysRead fd buf len = some (r, k')) (hfd : k.getFd fd = some file)
    (hn : k.openNode file = some n) (hsmall : n.length < 2 ^ 30) (hlen : len < 2 ^ 32)
    (hoff : (k.fileTable file).offset ≤ n.length) :
    (r < 0 ∧ k' = k) ∨
      (r = (k.copied file len).length ∧
        k.machine.storeBytes buf (k.copied file len) = some k'.machine ∧
        k' = (k.withMachine k'.machine).modifyFile file (fun f ↦
          { f with offset := (f.offset + (k.copied file len).length) % 2 ^ 32 }) ∧
        (k.copied file len).length = min len (n.length - (k.fileTable file).offset)) := by
  rw [sysRead, hfd] at h
  simp only [Option.bind_eq_bind, Option.bind_eq_some_iff] at h
  obtain ⟨ok, hok, h⟩ := h
  cases ok with
  | false =>
      simp at h
      exact Or.inl ⟨by rw [← h.1]; decide, h.2.symm⟩
  | true =>
      rw [show (k.fileTable file).node.bind (k.files[·]?) = some n from hn] at h
      simp only [Bool.not_true, Bool.false_eq_true, if_false, Option.bind_eq_some_iff] at h
      obtain ⟨m, hm, h⟩ := h
      have hwrap : (k.fileTable file).offset + len < 2 ^ 32 := by
        rcases Nat.eq_zero_or_pos len with hzero | hpos
        · omega
        · have hle := userRangeOk_bounds hok hlen hpos
          rw [USER_LIMIT] at hle
          omega
      have hsize := initrdReadSize_eq (n := n) hwrap
      have hcopied : k.copied file len = initrdRead n (k.fileTable file).offset len := by
        rw [copied, hn, Option.elim_some]
      have hlength : (k.copied file len).length = initrdReadSize n (k.fileTable file).offset len := by
        rw [hcopied, initrdRead, List.length_map, List.length_range]
      have hbytes : ((List.range (initrdReadSize n (k.fileTable file).offset len)).map fun i ↦
          n.data (((k.fileTable file).offset + i) % 2 ^ 32)) = k.copied file len := by
        rw [hcopied, initrdRead]
        refine List.map_congr_left fun i hi ↦ ?_
        rw [List.mem_range] at hi
        rw [Nat.mod_eq_of_lt (by omega)]
      rw [Machine.memcpyFrom_eq, hbytes] at hm
      simp only [Option.pure_def, Option.some.injEq, Prod.mk.injEq] at h
      obtain ⟨hr, rfl⟩ := h
      refine Or.inr ⟨?_, hm, ?_, by rw [hlength, hsize]⟩
      · rw [← hr, hlength]
        exact int32_of_lt (by omega) (by omega)
      · rw [hlength]
        rfl

/-- A name that is found is the name of a file. -/
theorem vfsFinddir_valid {name : List UInt8} {node : ℕ} (h : k.vfsFinddir name = some node) :
    ∃ n, k.files[node]? = some n := by
  obtain ⟨hlt, -, -⟩ := List.findIdx?_eq_some_iff_getElem.mp h
  exact ⟨_, List.getElem?_eq_getElem hlt⟩

theorem taskRemove_files {t : TaskRef} (h : k.taskRemove t = some k') : k'.files = k.files := by
  obtain rfl | ⟨prev, n, rfl⟩ := taskRemove_cases h
  · rfl
  · rw [setNext, setTask_files]

theorem sysExecve_same {path : ℕ} {o : ExecOutcome} (h : k.sysExecve path = some (o, k')) :
    k'.files = k.files ∧ k'.fileTable = k.fileTable := by
  obtain ⟨-, rfl⟩ | ⟨name, h⟩ := sysExecve_cases h
  · exact ⟨rfl, rfl⟩
  obtain ⟨-, -, rfl⟩ | ⟨prog, -, ⟨-, -, rfl⟩ | ⟨-, space, m, -, hspace⟩⟩ := processExecve_cases h
  · exact ⟨rfl, rfl⟩
  · exact ⟨rfl, rfl⟩
  · cases space with
    | failed e =>
        obtain ⟨-, rfl⟩ := hspace
        exact ⟨rfl, rfl⟩
    | entered dir entry brk =>
        obtain ⟨-, rfl⟩ := hspace
        simp [withExec]

end Kernel

namespace System

/-- The initrd does not change. -/
theorem step_initrd (hs : s.kernel.Sched) (hstep : s.step op = some (s', obs)) :
    s'.kernel.files = s.kernel.files := by
  cases step_case hstep with
  | forkNoSlot _ hk hslot =>
      obtain ⟨-, -, rfl⟩ | ⟨c, _, _, hslot', -⟩ := Kernel.processFork_cases hk
      · rfl
      · cases hslot.symm.trans hslot'
  | fork _ hk _ =>
      obtain ⟨-, -, rfl⟩ | ⟨c, stack, heap, -, -, ⟨-, -, rfl⟩ | ⟨-, -, o, m, dir, -, -, rfl⟩ |
        ⟨-, -, dir, m, m', -, -, rfl⟩⟩ := Kernel.processFork_cases hk
      · rfl
      · rfl
      · rfl
      · simp [adoptChild, withKernel]
  | execError _ hk => exact (Kernel.sysExecve_same hk).1
  | exec _ hk => exact (Kernel.sysExecve_same hk).1
  | halt _ hk =>
      obtain ⟨-, -, rfl⟩ | ⟨-, ho, -⟩ := Kernel.processExit_cases hs.zeroPid hk
      · rfl
      · cases ho
  | exit _ hk hy =>
      obtain ⟨-, ho, -⟩ | ⟨-, -, m, -, hremove⟩ := Kernel.processExit_cases hs.zeroPid hk
      · cases ho
      · have hfiles := Kernel.taskRemove_files hremove
        exact (Kernel.yield_spec hy).files.trans hfiles
  | waitFault _ _ => rfl
  | wait _ _ => rfl
  | scanNext _ _ hk =>
      obtain ⟨-, rfl, -⟩ | ⟨-, -, ⟨-, rfl, -⟩ | ⟨-, -, m, -, rfl⟩⟩ := Kernel.waitSlot_cases hk <;> rfl
  | reap _ _ hk =>
      obtain ⟨-, rfl, -⟩ | ⟨-, -, ⟨-, rfl, -⟩ | ⟨-, -, m, -, rfl⟩⟩ := Kernel.waitSlot_cases hk <;> rfl
  | noChild _ _ => rfl
  | block _ _ _ hy => exact (Kernel.yield_spec hy).files
  | tickUser _ hy => exact (Kernel.yield_spec hy).files
  | tickKernel _ hy => exact (Kernel.yield_spec hy).files
  | taskCreate hk =>
      obtain ⟨heap, m, regs, -, -, rfl⟩ := Kernel.taskCreate_cases hk
      simp [Kernel.taskAdd, withKernel, setMode, Kernel.setNext]
  | sbrk _ hk =>
      obtain ⟨m, b, rfl⟩ := Kernel.sysSbrk_cases hk
      rfl
  | openFile _ hk =>
      obtain ⟨-, rfl⟩ | ⟨node, fd, file, -, -, -, -, rfl⟩ := Kernel.sysOpen_cases hk <;> rfl
  | @closeFile fd _ =>
      obtain ⟨-, hclose⟩ | ⟨i, file, -, -, hclose⟩ := s.kernel.sysClose_cases fd <;>
        simp [stepClose, hclose]
  | readFile _ hk =>
      obtain rfl | ⟨file, got, m, -, rfl⟩ := Kernel.sysRead_cases hk <;> rfl
  | store _ _ => rfl

/-- A read through a descriptor for the entry `f`. -/
def ReadsThrough (s : System) (f : Fin MAX_OPEN_FILES) : Op → Prop
  | .readFile fd _ _ => s.kernel.getFd fd = some f
  | _ => False

/-- An entry that stays open is as it was, unless it is read through. -/
theorem step_entry (hs : s.kernel.Sched) (h : s.Files) (hstep : s.step op = some (s', obs))
    (hpos : 0 < s.kernel.refs f) (hpos' : 0 < s'.kernel.refs f) (hread : ¬ s.ReadsThrough f op) :
    (s'.kernel.fileTable f).node = (s.kernel.fileTable f).node ∧
      (s'.kernel.fileTable f).offset = (s.kernel.fileTable f).offset := by
  have hsame : s'.kernel.fileTable = s.kernel.fileTable →
      (s'.kernel.fileTable f).node = (s.kernel.fileTable f).node ∧
        (s'.kernel.fileTable f).offset = (s.kernel.fileTable f).offset := by
    intro heq
    rw [heq]
    exact ⟨rfl, rfl⟩
  cases step_case hstep with
  | forkNoSlot _ hk hslot =>
      obtain ⟨-, -, rfl⟩ | ⟨c, _, _, hslot', -⟩ := Kernel.processFork_cases hk
      · exact hsame rfl
      · cases hslot.symm.trans hslot'
  | fork _ hk _ =>
      obtain ⟨-, -, rfl⟩ | ⟨c, stack, heap, -, -, ⟨-, -, rfl⟩ | ⟨-, -, o, m, dir, -, -, rfl⟩ |
        ⟨-, -, dir, m, m', -, -, rfl⟩⟩ := Kernel.processFork_cases hk
      · exact hsame rfl
      · exact hsame rfl
      · exact hsame rfl
      · have hentry : ((s.kernel.withChild s.kernel.processCurrent c dir stack heap m').fileTable f).node =
            (s.kernel.fileTable f).node ∧
            ((s.kernel.withChild s.kernel.processCurrent c dir stack heap m').fileTable f).offset =
            (s.kernel.fileTable f).offset := by
          rw [Kernel.withChild_fileTable]
          exact ⟨rfl, rfl⟩
        exact hentry
  | execError _ hk => exact hsame (Kernel.sysExecve_same hk).2
  | exec _ hk => exact hsame (Kernel.sysExecve_same hk).2
  | halt _ hk =>
      obtain ⟨-, -, rfl⟩ | ⟨-, ho, -⟩ := Kernel.processExit_cases hs.zeroPid hk
      · exact hsame rfl
      · exact nomatch ho
  | exit _ hk hy =>
      obtain ⟨m, hexit⟩ := Kernel.exit_spec hs.zeroPid hk hy
      have hopened : ∀ q, q ≠ s.kernel.processCurrent →
          Function.update s.opened s.kernel.processCurrent (fun _ ↦ none) q = s.opened q :=
        fun q hq ↦ Function.update_of_ne hq _ _
      have hkept := (Kernel.Files.exit h hexit hopened).2 f hpos'
      have hentry := congrArg (fun e : OpenFile ↦ (e.node, e.offset)) hkept
      exact Prod.mk.inj hentry
  | waitFault _ _ => exact hsame rfl
  | wait _ _ => exact hsame rfl
  | scanNext _ _ hk =>
      obtain ⟨-, rfl, -⟩ | ⟨-, -, ⟨-, rfl, -⟩ | ⟨-, -, m, -, rfl⟩⟩ := Kernel.waitSlot_cases hk <;>
        exact hsame rfl
  | reap _ _ hk =>
      obtain ⟨-, rfl, -⟩ | ⟨-, -, ⟨-, rfl, -⟩ | ⟨-, -, m, -, rfl⟩⟩ := Kernel.waitSlot_cases hk <;>
        exact hsame rfl
  | noChild _ _ => exact hsame rfl
  | block _ _ _ hy => exact hsame (Kernel.yield_spec hy).fileTable
  | tickUser _ hy => exact hsame (Kernel.yield_spec hy).fileTable
  | tickKernel _ hy => exact hsame (Kernel.yield_spec hy).fileTable
  | taskCreate hk =>
      obtain ⟨heap, m, regs, -, -, rfl⟩ := Kernel.taskCreate_cases hk
      exact hsame (by simp [Kernel.taskAdd, withKernel, setMode, Kernel.setNext])
  | sbrk _ hk =>
      obtain ⟨m, b, rfl⟩ := Kernel.sysSbrk_cases hk
      exact hsame rfl
  | openFile _ hk =>
      obtain ⟨-, rfl⟩ | ⟨node, fd, file, -, -, -, hzero, rfl⟩ := Kernel.sysOpen_cases hk
      · exact hsame rfl
      · have hne : f ≠ file := by
          rintro rfl
          rw [h.count f] at hzero
          omega
        simp [recordOpen, withKernel, Kernel.modifyFile, hne]
  | closeFile _ =>
      have hkept := (Files.closeKernel h hs.current_run).2 f hpos'
      have hentry := congrArg (fun e : OpenFile ↦ (e.node, e.offset)) hkept
      exact Prod.mk.inj hentry
  | readFile _ hk =>
      obtain rfl | ⟨file, got, m, hfd, rfl⟩ := Kernel.sysRead_cases hk
      · exact hsame rfl
      · have hne : f ≠ file := by
          rintro rfl
          exact hread hfd
        simp [withKernel, trap, Kernel.modifyFile, hne]
  | store _ _ => exact hsame rfl

/-! ## From an open to the last close -/

/-- The bytes that a step returns from the entry `f`. -/
def chunk (s : System) (f : Fin MAX_OPEN_FILES) : Op → Obs → List UInt8
  | .readFile fd _ len, .returned r =>
      if s.kernel.getFd fd = some f ∧ 0 ≤ r then s.kernel.copied f len else []
  | _, _ => []

theorem chunk_of_not_reads (hread : ¬ s.ReadsThrough f op) : s.chunk f op obs = [] := by
  cases op with
  | readFile fd buf len =>
      cases obs with
      | returned r => exact if_neg fun h ↦ hread h.1
      | _ => rfl
  | _ => rfl

/-- A run from an open of entry `f` on, as long as there are descriptors for it,
with the bytes that the reads through it return. -/
inductive Session (s₀ : System) (f : Fin MAX_OPEN_FILES) : System → List UInt8 → Prop
  | opened {tr : List (Op × Obs)} {s s' : System} {path : ℕ} {fd : Fin MAX_FDS} (hrun : Run s₀ tr s)
      (hstep : s.step (.openFile path) = some (s', .returned fd.val))
      (hfd : (s'.kernel.procTable s.kernel.processCurrent).fds fd = some f) : Session s₀ f s' []
  | step {s s' : System} {bytes : List UInt8} {op : Op} {obs : Obs} (h : Session s₀ f s bytes)
      (hword : op.LengthWord) (hstep : s.step op = some (s', obs)) (hopen : 0 < s'.kernel.refs f) :
      Session s₀ f s' (bytes ++ s.chunk f op obs)

/-- The start of the file, as far as the offset. -/
structure Position (s : System) (f : Fin MAX_OPEN_FILES) (n : FsNode) (bytes : List UInt8) : Prop where
  bounded : (s.kernel.fileTable f).offset ≤ n.length
  taken : bytes = (List.range (s.kernel.fileTable f).offset).map n.data

/-- An open gives an entry at the start of a file. -/
theorem step_open {path : ℕ} {r : ℤ} (hstep : s.step (.openFile path) = some (s', .returned r))
    (hr : 0 ≤ r) : ∃ (fd : Fin MAX_FDS) (g : Fin MAX_OPEN_FILES) (node : ℕ) (n : FsNode), r = fd.val ∧
      (s.kernel.fileTable g).refcount = 0 ∧ s.kernel.files[node]? = some n ∧
      (s'.kernel.procTable s.kernel.processCurrent).fds fd = some g ∧
      s'.kernel.files = s.kernel.files ∧ s'.kernel.fileTable g = ⟨some node, 0, 1⟩ := by
  cases step_case hstep with
  | openFile _ hk =>
      obtain ⟨hneg, -⟩ | ⟨node, fd, g, hnode, hfd, -, hzero, rfl⟩ := Kernel.sysOpen_cases hk
      · omega
      · obtain ⟨name, -, hfind⟩ := Option.bind_eq_some_iff.mp hnode
        obtain ⟨n, hn⟩ := Kernel.vfsFinddir_valid hfind
        refine ⟨fd, g, node, n, hfd, hzero, hn, ?_, rfl, ?_⟩
        · simp [recordOpen, withKernel]
        · simp [recordOpen, withKernel, Kernel.modifyFile]

/-- A step keeps the position, and returns what it passes over. -/
theorem Position.step {n : FsNode} (hs : s.kernel.Sched) (h : s.Files) (hword : op.LengthWord)
    (hstep : s.step op = some (s', obs)) (hpos : 0 < s.kernel.refs f) (hpos' : 0 < s'.kernel.refs f)
    (hn : s.kernel.openNode f = some n) : s'.kernel.openNode f = some n ∧
      (n.length < 2 ^ 30 → s.Position f n bytes → s'.Position f n (bytes ++ s.chunk f op obs)) := by
  have hfiles := step_initrd hs hstep
  by_cases hread : s.ReadsThrough f op
  · cases op with
    | readFile fd buf len =>
        cases step_case hstep with
        | @readFile _ _ _ r k _ hk =>
            have hnode : (k.fileTable f).node = (s.kernel.fileTable f).node := by
              obtain rfl | ⟨file, got, m, -, rfl⟩ := Kernel.sysRead_cases hk
              · rfl
              · by_cases hfile : f = file <;> simp [Kernel.modifyFile, hfile]
            refine ⟨?_, fun hsmall hposition ↦ ?_⟩
            · rw [← hn, Kernel.openNode, Kernel.openNode, hfiles]
              exact congrArg (fun o : Option ℕ ↦ o.bind (s.kernel.files[·]?)) hnode
            · obtain ⟨hbounded, htaken⟩ := hposition
              obtain ⟨hneg, rfl⟩ | ⟨hr, -, hk', hlen⟩ :=
                Kernel.sysRead_spec hk hread hn hsmall hword hbounded
              · rw [chunk, if_neg (by omega), List.append_nil]
                exact ⟨hbounded, htaken⟩
              · have hchunk : s.chunk f (.readFile fd buf len) (.returned r) = s.kernel.copied f len :=
                  if_pos ⟨hread, by omega⟩
                have hoffset : (k.fileTable f).offset =
                    (s.kernel.fileTable f).offset + (s.kernel.copied f len).length := by
                  rw [hk', Kernel.modifyFile]
                  simp only [Function.update_self, Kernel.withMachine_fileTable]
                  omega
                refine ⟨?_, ?_⟩
                · show (k.fileTable f).offset ≤ n.length
                  omega
                · show _ = (List.range (k.fileTable f).offset).map n.data
                  rw [hchunk, htaken, hoffset, List.range_add, List.map_append]
                  apply congrArg
                  rw [hlen, Kernel.copied, hn, Option.elim_some, initrdRead, List.map_map]
                  have hsize : Kernel.initrdReadSize n (s.kernel.fileTable f).offset len =
                      min len (n.length - (s.kernel.fileTable f).offset) := by
                    rw [← hlen, Kernel.copied, hn, Option.elim_some, initrdRead, List.length_map,
                      List.length_range]
                  rw [hsize]
                  rfl
    | _ => exact hread.elim
  · obtain ⟨hnode, hoffset⟩ := step_entry hs h hstep hpos hpos' hread
    rw [chunk_of_not_reads hread, List.append_nil, Kernel.openNode, hnode, hfiles]
    refine ⟨hn, fun _ hposition ↦ ⟨?_, ?_⟩⟩
    · rw [hoffset]
      exact hposition.bounded
    · rw [hoffset]
      exact hposition.taken

theorem Session.position {k : Kernel} {size brk : ℕ} (hsession : Session (boot k size brk) f s bytes) :
    s.kernel.Sched ∧ s.Files ∧ 0 < s.kernel.refs f ∧ ∃ n, s.kernel.openNode f = some n ∧
      (n.length < 2 ^ 30 → s.Position f n bytes) := by
  have hreach : ∀ {tr : List (Op × Obs)} {s : System}, Run (boot k size brk) tr s →
      s.kernel.Sched ∧ s.Files := fun hrun ↦
    hrun.invariant (P := fun s ↦ s.kernel.Sched ∧ s.Files)
      ⟨boot_sched k size brk, boot_files k size brk⟩
      fun _ _ _ _ h hstep ↦ ⟨step_sched h.1 hstep, step_files h.1 h.2 hstep⟩
  induction hsession with
  | @opened tr s s' path fd hrun hstep hfd =>
      obtain ⟨hs, h⟩ := hreach hrun
      have hs' := step_sched hs hstep
      have h' := step_files hs h hstep
      obtain ⟨fd', g, node, n, hval, -, hn, hfd', hfiles, hentry⟩ := step_open hstep (by omega)
      obtain rfl : fd = fd' := Fin.ext (by omega)
      obtain rfl := Option.some.inj (hfd.symm.trans hfd')
      have hpos := Kernel.Files.refs_pos h' hfd
      rw [h'.count f] at hpos
      refine ⟨hs', h', by omega, n, ?_, fun _ ↦ ⟨?_, ?_⟩⟩
      · rw [Kernel.openNode, hentry, hfiles]
        exact hn
      · rw [hentry]
        exact Nat.zero_le _
      · rw [hentry]
        rfl
  | step h hword hstep hopen ih =>
      obtain ⟨hs, hfiles, hpos, n, hn, hposition⟩ := ih
      obtain ⟨hn', hposition'⟩ :=
        Position.step hs hfiles hword hstep hpos hopen hn
      exact ⟨step_sched hs hstep, step_files hs hfiles hstep, hopen, n, hn',
        fun hsmall ↦ hposition' hsmall (hposition hsmall)⟩

/-- Through whichever descriptors it is read, a file is handed out from its
start, in order and up to its end. -/
theorem sequential_reads {k : Kernel} {size brk : ℕ}
    (hsession : Session (boot k size brk) f s bytes) :
    ∃ n, s.kernel.openNode f = some n ∧ (n.length < 2 ^ 30 →
      bytes <+: (List.range n.length).map n.data ∧
      (∀ fd buf len r k', len < 2 ^ 32 → s.kernel.getFd fd = some f →
        s.kernel.sysRead fd buf len = some (r, k') →
          (r < 0 → k' = s.kernel) ∧
          (0 ≤ r → r = (s.kernel.copied f len).length ∧
            s.kernel.machine.storeBytes buf (s.kernel.copied f len) = some k'.machine) ∧
          (r = 0 → 0 < len → bytes = (List.range n.length).map n.data))) ∧
      ∀ path r s', s.step (.openFile path) = some (s', .returned r) → 0 ≤ r →
        ∃ (fd : Fin MAX_FDS) (g : Fin MAX_OPEN_FILES), r = fd.val ∧ g ≠ f ∧
          (s'.kernel.procTable s.kernel.processCurrent).fds fd = some g ∧
          (s'.kernel.fileTable g).offset = 0 := by
  obtain ⟨hs, h, hpos, n, hn, hposition⟩ := hsession.position
  refine ⟨n, hn, fun hsmall ↦ ?_, fun path r s' hstep hr ↦ ?_⟩
  · obtain ⟨hbounded, htaken⟩ := hposition hsmall
    refine ⟨?_, fun fd buf len r k' hlen hfd hread ↦ ?_⟩
    · rw [htaken]
      apply List.IsPrefix.map
      rw [← Nat.add_sub_cancel' hbounded, List.range_add]
      exact List.prefix_append _ _
    · obtain ⟨hneg, rfl⟩ | ⟨hr, hstore, -, hcopied⟩ :=
        Kernel.sysRead_spec hread hfd hn hsmall hlen hbounded
      · exact ⟨fun _ ↦ rfl, fun hr ↦ absurd hr (by omega), fun hr ↦ absurd hr (by omega)⟩
      · refine ⟨fun hneg ↦ absurd hneg (by omega), fun _ ↦ ⟨hr, hstore⟩, fun hzero hlenpos ↦ ?_⟩
        rw [htaken, show (s.kernel.fileTable f).offset = n.length by omega]
  · obtain ⟨fd, g, node, m, hval, hzero, -, hfd, -, hentry⟩ := step_open hstep hr
    refine ⟨fd, g, hval, ?_, hfd, by rw [hentry]⟩
    rintro rfl
    rw [h.count g] at hzero
    omega

/-! ## Two processes read one file -/

theorem moved_offset (m : Machine) (len : ℕ) :
    ((s.trap.withKernel ((s.kernel.withMachine m).modifyFile f fun e ↦
      { e with offset := (e.offset + len) % 2 ^ 32 })).kernel.fileTable f).offset =
      ((s.kernel.fileTable f).offset + len) % 2 ^ 32 := by
  simp [withKernel, Kernel.modifyFile, Kernel.withMachine]

/-- A session goes on as long as some descriptor is for the entry. -/
theorem Session.goes_on {k : Kernel} {size brk : ℕ} {n : FsNode} {p : Fin MAX_PROCS} {i : Fin MAX_FDS}
    (hsession : Session (boot k size brk) f s bytes) (hn : s.kernel.openNode f = some n)
    (hword : op.LengthWord) (hstep : s.step op = some (s', obs))
    (hfd : (s'.kernel.procTable p).fds i = some f) :
    Session (boot k size brk) f s' (bytes ++ s.chunk f op obs) ∧ s'.kernel.openNode f = some n := by
  obtain ⟨hs, hfiles, hpos, -⟩ := hsession.position
  have hfiles' := step_files hs hfiles hstep
  have hpos' := Kernel.Files.refs_pos hfiles' hfd
  rw [hfiles'.count f] at hpos'
  obtain ⟨hn', -⟩ : s'.kernel.openNode f = some n ∧ (n.length < 2 ^ 30 →
      s.Position f n bytes → s'.Position f n (bytes ++ s.chunk f op obs)) :=
    Position.step hs hfiles hword hstep hpos (by omega) hn
  exact ⟨hsession.step hword hstep (by omega), hn'⟩

/-- The offset counts the bytes that were returned. -/
theorem Session.offset {k : Kernel} {size brk : ℕ} {n : FsNode}
    (hsession : Session (boot k size brk) f s bytes) (hn : s.kernel.openNode f = some n)
    (hsmall : n.length < 2 ^ 30) : (s.kernel.fileTable f).offset = bytes.length := by
  obtain ⟨-, -, -, n', hn', hposition⟩ := hsession.position
  obtain rfl := Option.some.inj (hn.symm.trans hn')
  rw [(hposition hsmall).taken, List.length_map, List.length_range]

/-- A read into a page of the user changes bytes of the page, and moves the offset. -/
theorem readFile_served {n : FsNode} {B : ℕ} {L K : Set ℕ} (fd buf len : ℕ)
    (hmode : s.mode s.cur = .user) (h : s.kernel.machine.Ledger B L K) (hbuf : 2 ^ 22 ≤ buf)
    (hrange : s.kernel.machine.UserRange buf len) (hlen : len < 2 ^ 30)
    (hfd : s.kernel.getFd fd = some f) (hn : s.kernel.openNode f = some n)
    (hsize : (s.kernel.fileTable f).offset + len ≤ n.length) (hsmall : n.length < 2 ^ 30) :
    ∃ m, s.kernel.machine.Pokes L m ∧ s.step (.readFile fd buf len) =
      some (s.trap.withKernel ((s.kernel.withMachine m).modifyFile f fun e ↦
        { e with offset := (e.offset + len) % 2 ^ 32 }), .returned len) := by
  have hlimit := hrange.1
  rw [USER_LIMIT] at hlimit
  obtain ⟨ok, hok, hiff⟩ := Machine.userRangeOk_spec h.recursive
    (show buf < 2 ^ 32 by omega) (show len < 2 ^ 32 by omega)
  obtain rfl := hiff.mpr (Or.inr hrange)
  have hgot : Kernel.initrdReadSize n (s.kernel.fileTable f).offset len = len := by
    rw [Kernel.initrdReadSize_eq (by omega)]
    omega
  have hdef : LittleEndian.Defined s.kernel.machine.view buf len := by
    intro i hi
    obtain ⟨b, hb⟩ := Machine.load8_of_userAccessible (by omega)
      (hrange.2 (buf + i) (by omega) (by omega))
    rw [Machine.view, if_pos ⟨by omega, by omega⟩, hb]
    exact Option.some_ne_none b
  obtain ⟨m, hm, hpokes, -⟩ := Machine.memcpyFrom_view h hdef n.data (s.kernel.fileTable f).offset
  refine ⟨m, hpokes, ?_⟩
  have hread : s.kernel.sysRead fd buf len = some ((len : ℤ), (s.kernel.withMachine m).modifyFile f
      fun e ↦ { e with offset := (e.offset + len) % 2 ^ 32 }) := by
    rw [Kernel.openNode] at hn
    rw [Kernel.sysRead, hfd]
    simp only [hok, hn, hgot, hm, Option.bind_eq_bind, Option.bind_some, Bool.not_true,
      Bool.false_eq_true, if_false]
    rw [Kernel.int32_of_lt (by omega) (by omega)]
    rfl
  simp only [step, hmode, if_true, hread, Option.bind_eq_bind, Option.bind_some]
  rfl

theorem userRange_page {m : Machine} {len : ℕ} (h : m.UserMapped m.dir 1 0) (hlen : len ≤ 4096) :
    m.UserRange 0x400000 len := by
  refine ⟨by rw [USER_LIMIT]; omega, fun x h₁ h₂ ↦ ?_⟩
  obtain ⟨o, rfl⟩ := Nat.exists_eq_add_of_le h₁
  exact (Machine.userAccessible_page (d := 1) (t := 0) (by norm_num) (by norm_num)
    (show o < 4096 by omega)).mpr h

/-- A store through one directory leaves the tables of every directory. -/
theorem userMapped_of_pokes {m m' : Machine} {B D d t : ℕ} {L K : Set ℕ} (h : m.Pokes L m')
    (hled : m.Ledger B L K) (hD : D ∈ L) (h₁ : 1 ≤ d) (h₂ : d < 768) (hmap : m.UserMapped D d t) :
    m'.UserMapped D d t := by
  obtain ⟨hdirs, htables⟩ := h.plain hled
  have hpde : m'.pde D d = m.pde D d := congrArg (fun p ↦ LittleEndian.word p d) (hdirs D hD)
  have hpte : m'.pte D d t = m.pte D d t := by
    rw [Machine.pte, hpde, htables D hD d h₁ h₂ hmap.1, Machine.pte]
  rw [Machine.UserMapped, hpde, hpte]
  exact hmap

end System

namespace Sample

open EclipseOS.System EclipseOS.Kernel Machine

/-- Process 0 has opened its file. -/
structure Opened (s : System) : Prop where
  session : Session (boot 64) 0 s []
  machine : s.kernel.machine = machine 64
  heap : s.kernel.heap = (boot 64).kernel.heap
  slot : s.kernel.freeSlot = some 1
  pid : s.kernel.nextPid = 1
  running : s.kernel.runningTask = .main
  next : s.kernel.next .main = some .main
  mode : s.mode .main = .user
  fds : (s.kernel.procTable 0).fds 3 = some 0
  node : s.kernel.openNode 0 = some Sample.file

theorem boot_opened : ∃ s, Opened s := by
  have hopen : ((boot 64).step (.openFile 0x400000)).map (fun x ↦
      (x.2, (x.1.kernel.procTable 0).fds 3, x.1.kernel.freeSlot, x.1.kernel.nextPid)) =
      some (.returned 3, some 0, some 1, 1) := by decide +kernel
  have htasks : ((boot 64).step (.openFile 0x400000)).map (fun x ↦
      (x.1.kernel.runningTask, x.1.kernel.next .main)) = some (.main, some .main) := by
    decide +kernel
  obtain ⟨⟨s, o⟩, hstep, heq⟩ := Option.map_eq_some_iff.mp hopen
  rw [hstep, Option.map_some, Option.some.injEq] at htasks
  simp only [Prod.mk.injEq] at heq htasks
  obtain ⟨rfl, hfds, hslot, hpid⟩ := heq
  obtain ⟨hrunning, hnext⟩ := htasks
  have hcurrent : (boot 64).kernel.processCurrent = 0 := by decide
  obtain ⟨fd, g, node, n, hfd, -, hn, hentry, -, htable⟩ := step_open hstep (by norm_num)
  obtain rfl : fd = 3 := Fin.ext (by
    rw [show ((3 : Fin MAX_FDS) : ℕ) = 3 from rfl]
    omega)
  have hopened := hentry
  rw [hcurrent, hfds, Option.some.injEq] at hentry
  subst hentry
  have hfile : n = Sample.file := by
    have hfiles : (boot 64).kernel.files = [Sample.file] := rfl
    rw [hfiles, List.getElem?_singleton] at hn
    split at hn
    · exact (Option.some.inj hn).symm
    · exact nomatch hn
  subst hfile
  cases step_case hstep with
  | openFile _ hk =>
      obtain ⟨hneg, -⟩ | ⟨node', fd', g', -, -, -, -, rfl⟩ := sysOpen_cases hk
      · omega
      · exact ⟨_, .opened .start hstep hopened, rfl, rfl, hslot, hpid, hrunning, hnext, rfl, hfds,
          by rw [openNode, htable]; exact hn⟩

/-- Page `0x400000` is open to the user in both spaces of a fork. -/
theorem ForkedFrom.page {k k' : Kernel} {c : Fin MAX_PROCS} {a : ℕ}
    (h : ForkedFrom k k' registers c a) (hmachine : k.machine = machine 64) :
    k'.machine.UserMapped 1 1 0 ∧ k'.machine.UserMapped a 1 0 := by
  have haddr : 0x400000 = pageAddr 1 0 + 0 := rfl
  have hcan : k.machine.CanWrite k.machine.dir 0x400000 := by
    rw [hmachine, sample_dir, haddr, canWrite_page (by norm_num) (by norm_num) (by norm_num)]
    rw [WritableIn, user_pde le_rfl (by norm_num), user_pte, if_pos rfl, if_pos rfl]
    decide
  have hpage : ∀ side, k'.machine.UserMapped (dirOf 1 a side) 1 0 := by
    intro side
    have hwrites := (h.writes [⟨side, 0x400000, 0⟩]).mpr (by simpa using hcan)
    have hdir : k.machine.dir = 1 := by rw [hmachine, sample_dir]
    rw [userWrites, List.foldlM_cons, hdir] at hwrites
    have hstore : k'.machine.userStore (dirOf 1 a side) 0x400000 0 ≠ none := by
      intro hnone
      rw [hnone] at hwrites
      exact Bool.noConfusion hwrites
    rw [Machine.userStore] at hstore
    have hallowed : k'.machine.CanWrite (dirOf 1 a side) 0x400000 := by
      by_contra hno
      exact hstore (if_neg hno)
    rw [haddr, canWrite_page (by norm_num) (by norm_num) (by norm_num)] at hallowed
    exact hallowed.userMapped
  exact ⟨hpage .parent, hpage .child⟩

/-- The child of process 0 runs, and shares the file. -/
structure Sharing (s : System) (a S : ℕ) : Prop where
  session : Session (boot 64) 0 s []
  running : s.kernel.runningTask = .proc 1
  state : (s.kernel.procTable 1).state = .run
  mode : s.mode (.proc 1) = .user
  mode_main : s.mode .main = .user
  next : s.kernel.next (.proc 1) = some .main
  fds : ∀ i, i = 0 ∨ i = 1 → (s.kernel.procTable i).fds 3 = some 0
  node : s.kernel.openNode 0 = some Sample.file
  ledger : s.kernel.machine.Ledger 1 (insert a {1}) (insert S kernelFrames)
  dir : s.kernel.machine.dir = a
  pages : ∀ D, D = 1 ∨ D = a → s.kernel.machine.UserMapped D 1 0
  cr3 : (s.kernel.task .main).regs.cr3 = 4096

theorem Opened.sharing {s : System} (h : Opened s) : ∃ s' a S, Sharing s' a S := by
  have hmachine : s.kernel.machine = (boot 64).kernel.machine := h.machine
  have hself : s.kernel.processCurrent = 0 := processCurrent_main h.running
  obtain ⟨k', c, a, S, hfork, hslot, -, -, hled, hfrom⟩ := process_fork_copies (k := s.kernel)
    (by rw [h.machine]; exact machine_ledger 64) (by rw [h.machine]; exact machine_forkable)
    (by rw [h.heap]; exact boot_ready) (by rw [hmachine]; exact boot_mapped)
    (by rw [h.slot]; exact Option.some_ne_none 1) (by rw [h.heap]; decide +kernel)
    (by rw [hmachine]; exact boot_few) (by rw [hmachine]; exact boot_room)
    (by rw [hmachine]; decide) (by rw [h.pid]; norm_num) registers
  obtain rfl := Option.some.inj (h.slot.symm.trans hslot)
  have hpages := ForkedFrom.page hfrom h.machine
  have hstep : s.step (.fork registers) = some ((s.trap.withKernel k').adoptChild
      s.kernel.processCurrent 1, .forked s.pid s.kernel.nextPid) := by
    have hmode : s.mode s.cur = .user := by rw [cur, h.running, h.mode]
    simp only [System.step, hmode, if_true, stepFork, hfork, hslot]
    rfl
  set s₂ := (s.trap.withKernel k').adoptChild s.kernel.processCurrent 1 with hs₂
  obtain ⟨-, hr, -⟩ | ⟨c, stack, heap, hslot', -, ⟨-, hr, -⟩ | ⟨-, hr, -⟩ |
    ⟨-, -, dir, m, m', -, -, hk'⟩⟩ := processFork_cases hfork
  · rw [h.pid] at hr
    exact absurd hr (by decide)
  · rw [h.pid] at hr
    exact absurd hr (by decide)
  · rw [h.pid] at hr
    exact absurd hr (by decide)
  obtain rfl := Option.some.inj (h.slot.symm.trans hslot')
  rw [hself] at hk'
  have hrun₂ : k'.runningTask = .main := by rw [hk', withChild_runningTask, h.running]
  have hlinks : k'.next .main = some (.proc 1) ∧ k'.next (.proc 1) = some .main := by
    have hmain := h.next
    simp only [Kernel.next, Kernel.task] at hmain
    rw [hk', withChild, withForked, taskAdd_next]
    exact ⟨by simp [withFresh, h.running], by simp [withFresh, h.running, Kernel.next, Kernel.task, hmain]⟩
  have hentries : (k'.procTable 1).state = .run ∧ (k'.procTable 1).fds = (s.kernel.procTable 0).fds ∧
      (k'.procTable 0).fds = (s.kernel.procTable 0).fds := by
    rw [hk', withChild_procTable, withChild_procTable]
    refine ⟨?_, ?_, ?_⟩ <;> simp [childEntry, forkedEntry, freshEntry, withFresh]
  obtain ⟨hsession₂, hn₂⟩ := h.session.goes_on (p := 0) (i := 3) h.node
    (by exact trivial) hstep (by rw [hs₂]; exact (congrFun hentries.2.2 3).trans h.fds)
  have hrun : s₂.kernel.runningTask = .main := hrun₂
  have hmode₂ : s₂.mode .main = .user ∧ s₂.mode (.proc 1) = .user := by
    rw [hs₂]
    exact ⟨h.mode, by simp [adoptChild]⟩
  obtain ⟨s₃, htick, hcur₃, hmode₃, hyield⟩ := tick_user hsession₂.position.1 (t := .proc 1)
    (by rw [cur, hrun, hmode₂.1]) (by rw [cur, hrun]; exact hlinks.1) .zero
  have hy := yield_spec hyield
  have hrun₃ : s₃.kernel.runningTask = .proc 1 := hcur₃
  obtain ⟨-, hsaved, hloaded⟩ := yield_context hyield (by rw [hrun, hrun₃]; exact TaskRef.noConfusion)
  have hfds : ∀ i, i = 0 ∨ i = 1 → (s₃.kernel.procTable i).fds 3 = some 0 := by
    rintro i (rfl | rfl)
    · rw [hy.procTable]
      exact (congrFun hentries.2.2 3).trans h.fds
    · rw [hy.procTable]
      exact (congrFun hentries.2.1 3).trans h.fds
  obtain ⟨hsession₃, hn₃⟩ := hsession₂.goes_on hn₂ (by exact trivial) htick
    (hfds 0 (Or.inl rfl))
  have ha : a ≠ 0 := Ledger.free_ne hfrom.fresh (by rw [h.machine]; exact machine_forkable.zero)
  have hmachine₃ : s₃.kernel.machine = k'.machine.pagingSwitchDirectory (a * PAGE_SIZE) := by
    have hregs : (s₂.kernel.task (.proc 1)).regs.cr3 = a * PAGE_SIZE :=
      congrArg TaskRegs.cr3 hfrom.context
    rw [hloaded, hrun₃, hregs, loadSpace, if_neg (Nat.mul_ne_zero ha (by decide))]
    rfl
  refine ⟨s₃, a, S, hsession₃, hrun₃, ?_, ?_, ?_, ?_, hfds, hn₃, ?_, ?_, ?_, ?_⟩
  · rw [hy.procTable]
    exact hentries.1
  · rw [hmode₃, hmode₂.2]
  · rw [hmode₃, hmode₂.1]
  · rw [hy.next]
    exact hlinks.2
  · rw [hmachine₃]
    exact hled.switch (Set.mem_insert a {1})
  · rw [hmachine₃, switch_dir]
  · rw [hmachine₃]
    rintro D (rfl | rfl)
    · exact hpages.1
    · exact hpages.2
  · rw [hrun] at hsaved
    rw [hsaved]
    have hcr3 : k'.machine.cr3 = 4096 := by rw [hfrom.loaded, h.machine]; rfl
    exact hcr3

/-- The child reads four bytes, and process 0 has the next turn. -/
theorem Sharing.child_reads {s : System} {a S : ℕ} (h : Sharing s a S) : ∃ s' bytes,
    Session (boot 64) 0 s' bytes ∧ bytes.length = 4 ∧ s'.kernel.openNode 0 = some Sample.file ∧
    s'.kernel.runningTask = .main ∧ s'.mode .main = .user ∧ (s'.kernel.procTable 1).state = .run ∧
    (∀ i, i = 0 ∨ i = 1 → (s'.kernel.procTable i).fds 3 = some 0) ∧
    s'.kernel.machine.Ledger 1 (insert a {1}) (insert S kernelFrames) ∧
    s'.kernel.machine.UserMapped s'.kernel.machine.dir 1 0 := by
  have hself : s.kernel.processCurrent = 1 :=
    processCurrent_proc h.running (by rw [h.state]; exact ProcState.noConfusion)
  have hsmall : Sample.file.length < 2 ^ 30 := by decide
  have hone : 1 ∈ insert a ({1} : Set ℕ) := Set.mem_insert_of_mem a rfl
  obtain ⟨m, hpokes, hread⟩ := readFile_served 3 0x400000 4
    (by rw [cur, h.running, h.mode]) h.ledger (by norm_num)
    (userRange_page (h.pages _ (Or.inr h.dir)) (by norm_num)) (by norm_num)
    (by rw [getFd, dif_pos (by decide), hself]; exact h.fds 1 (Or.inr rfl)) h.node
    (by rw [h.session.offset h.node hsmall]; decide) hsmall
  obtain ⟨hsession₂, hn₂⟩ := h.session.goes_on (p := 0) (i := 3) h.node
    (by exact (by norm_num : 4 < 2 ^ 32)) hread (h.fds 0 (Or.inl rfl))
  set s₂ := s.trap.withKernel ((s.kernel.withMachine m).modifyFile 0 fun e ↦
    { e with offset := (e.offset + 4) % 2 ^ 32 }) with hs₂
  have hrun₂ : s₂.kernel.runningTask = .proc 1 := h.running
  obtain ⟨s₃, htick, hrun₃, hmode₃, hyield⟩ := tick_user hsession₂.position.1 (t := .main)
    (by rw [cur, hrun₂]; exact h.mode) (by rw [cur, hrun₂]; exact h.next) .zero
  rw [cur] at hrun₃
  have hy := yield_spec hyield
  obtain ⟨-, -, hloaded⟩ := yield_context hyield
    (by rw [hrun₂, hrun₃]; exact TaskRef.noConfusion)
  have hfds : ∀ i, i = 0 ∨ i = 1 → (s₃.kernel.procTable i).fds 3 = some 0 := fun i hi ↦ by
    rw [hy.procTable]
    exact h.fds i hi
  obtain ⟨hsession₃, hn₃⟩ := hsession₂.goes_on hn₂ (by exact trivial) htick (hfds 0 (Or.inl rfl))
  have hmachine : s₃.kernel.machine = m.pagingSwitchDirectory (1 * PAGE_SIZE) := by
    have hregs : (s₂.kernel.task .main).regs.cr3 = 4096 := h.cr3
    rw [hloaded, hrun₃, hregs]
    rfl
  refine ⟨s₃, _, hsession₃, ?_, hn₃, hrun₃, ?_, ?_, hfds, ?_, ?_⟩
  · rw [← hsession₃.offset hn₃ hsmall, hy.fileTable, hs₂, moved_offset,
      h.session.offset h.node hsmall]
    rfl
  · rw [hmode₃]
    exact h.mode_main
  · rw [hy.procTable]
    exact h.state
  · rw [hmachine]
    exact (hpokes.ledger h.ledger).switch hone
  · have hmapped : m.UserMapped 1 1 0 :=
      userMapped_of_pokes hpokes h.ledger hone le_rfl (by norm_num) (h.pages 1 (Or.inl rfl))
    rw [hmachine, switch_dir]
    exact hmapped

end Sample

namespace System

/-- The child reads four bytes of the file, and process 0 the next four. -/
theorem sequential_reads_sample : ∃ s bytes n, Session (Sample.boot 64) 0 s bytes ∧
    (s.kernel.procTable 1).state = .run ∧ (s.kernel.procTable 1).fds 3 = some 0 ∧
    (s.kernel.procTable 0).fds 3 = some 0 ∧ s.kernel.openNode 0 = some n ∧ bytes.length = 8 ∧
    bytes <+: (List.range n.length).map n.data := by
  obtain ⟨s₁, hopened⟩ := Sample.boot_opened
  obtain ⟨s₂, a, S, hsharing⟩ := hopened.sharing
  obtain ⟨s, bytes, hsession, hlength, hn, hrunning, hmode, hstate, hfds, hled, hmapped⟩ :=
    hsharing.child_reads
  have hsmall : Sample.file.length < 2 ^ 30 := by decide
  have hself : s.kernel.processCurrent = 0 := Kernel.processCurrent_main hrunning
  have hoff : (s.kernel.fileTable 0).offset = 4 := by rw [hsession.offset hn hsmall, hlength]
  obtain ⟨m, -, hread⟩ := readFile_served 3 0x400000 4 (by rw [cur, hrunning, hmode]) hled
    (by norm_num) (userRange_page hmapped (by norm_num)) (by norm_num)
    (by rw [Kernel.getFd, dif_pos (by decide), hself]; exact hfds 0 (Or.inl rfl)) hn
    (by rw [hoff]; decide) hsmall
  obtain ⟨hsession', hn'⟩ := hsession.goes_on (p := 0) (i := 3) hn
    (by exact (by norm_num : 4 < 2 ^ 32)) hread (hfds 0 (Or.inl rfl))
  obtain ⟨n, hn'', hreads, -⟩ := sequential_reads hsession'
  obtain rfl := Option.some.inj (hn'.symm.trans hn'')
  refine ⟨_, _, _, hsession', hstate, hfds 1 (Or.inr rfl), hfds 0 (Or.inl rfl), hn', ?_,
    (hreads hsmall).1⟩
  rw [← hsession'.offset hn' hsmall, moved_offset, hoff]
  rfl

end System

end EclipseOS
