import EclipseOS.Sample

/-!
# Results of system calls

A handler returns an error or a value in one 32-bit word, and the wrappers of the
C library tell them apart by the sign of the word.
-/

namespace EclipseOS

/-- What a handler means by what it returns. -/
inductive Answer
  | error (e : ℤ)
  | value (n : ℕ)
  deriving DecidableEq

/-- `-e`, or the value as an `int`. -/
def Answer.ret : Answer → ℤ
  | error e => -e
  | value n => Kernel.int32 n

namespace Machine

/-- The bytes that `sys_write` prints. -/
def loadBytes (m : Machine) (p : ℕ) : ℕ → Option (List UInt8)
  | 0 => some []
  | n + 1 => do
      let b ← m.load8 p
      return b :: (← loadBytes m ((p + 1) % 2 ^ 32) n)

end Machine

namespace Kernel

variable (k : Kernel)

/-! ## The handlers -/

/-- `sys_sbrk`. -/
def sbrkAnswer (increment : BitVec 32) : Option (Answer × Kernel) :=
  let inc := increment.toInt
  let p := k.processCurrent
  let old := (k.procTable p).brk
  let want := (old + increment.toNat) % 2 ^ 32
  let setBrk := fun k : Kernel ↦ k.modifyProc p fun q ↦ { q with brk := want }
  if inc = 0 then some (.value old, k)
  else if 0 < inc then do
    if want < old ∨ USER_BRK_LIMIT < want then return (.error ENOMEM, k)
    let s ← (pagesBetween (old &&& PAGE_MASK) want).foldlM Machine.growPage ⟨k.machine, false⟩
    if s.outOfMemory then return (.error ENOMEM, k.withMachine s.machine)
    return (.value old, setBrk (k.withMachine s.machine))
  else do
    if old < want then return (.error EINVAL, k)
    let firstDead := (want + 0xFFF) % 2 ^ 32 &&& PAGE_MASK
    if firstDead < old ∧ PAGE_MASK < old then none
    let m ← (pagesBetween firstDead old).foldlM Machine.shrinkPage k.machine
    return (.value old, setBrk (k.withMachine m))

/-- `sys_read`. -/
def readAnswer (fd buf len : ℕ) : Option (Answer × Kernel) :=
  match k.getFd fd with
  | none => some (.error EBADF, k)
  | some file => do
      if !(← k.machine.userRangeOk buf len) then return (.error EFAULT, k)
      let f := k.fileTable file
      match f.node.bind (k.files[·]?) with
      | none => return (.value 0, k)
      | some node =>
          let got := initrdReadSize node f.offset len
          let m ← k.machine.memcpyFrom buf node.data f.offset got
          return (.value got, (k.withMachine m).modifyFile file fun f ↦
            { f with offset := (f.offset + got) % 2 ^ 32 })

/-- `sys_write`, with the bytes that it prints. -/
def writeAnswer (fd buf len : ℕ) : Option (Answer × List UInt8) := do
  if fd ≠ 1 ∧ fd ≠ 2 then return (.error EBADF, [])
  if !(← k.machine.userRangeOk buf len) then return (.error EFAULT, [])
  let bytes ← k.machine.loadBytes buf len
  return (.value len, bytes)

def sysWrite (fd buf len : ℕ) : Option (ℤ × List UInt8) :=
  (k.writeAnswer fd buf len).map fun p ↦ (p.1.ret, p.2)

/-- The handler returns the word of its answer. -/
theorem sysSbrk_eq (increment : BitVec 32) :
    k.sysSbrk increment = (k.sbrkAnswer increment).map fun p ↦ (p.1.ret, p.2) := by
  rw [sysSbrk, sbrkAnswer]
  dsimp only
  split_ifs
  · rfl
  · rfl
  · cases (pagesBetween _ _).foldlM Machine.growPage _ with
    | none => rfl
    | some s =>
        simp only [Option.bind_eq_bind, Option.bind_some]
        split_ifs
        all_goals rfl
  · rfl
  · rfl
  · cases (pagesBetween _ _).foldlM Machine.shrinkPage _ with
    | none => rfl
    | some m => rfl

theorem sysRead_eq (fd buf len : ℕ) :
    k.sysRead fd buf len = (k.readAnswer fd buf len).map fun p ↦ (p.1.ret, p.2) := by
  rw [sysRead, readAnswer]
  cases k.getFd fd with
  | none => rfl
  | some file =>
      dsimp only
      cases k.machine.userRangeOk buf len with
      | none => rfl
      | some ok =>
          cases ok with
          | false => rfl
          | true =>
              simp only [Option.bind_eq_bind, Option.bind_some]
              cases (k.fileTable file).node.bind (k.files[·]?) with
              | none => rfl
              | some node =>
                  dsimp only
                  cases k.machine.memcpyFrom buf node.data (k.fileTable file).offset
                    (initrdReadSize node (k.fileTable file).offset len) with
                  | none => rfl
                  | some m => rfl

/-- What the three handlers return as errors. -/
def errors : List ℤ := [EBADF, EFAULT, ENOMEM, EINVAL]

variable {k : Kernel} {k' : Kernel} {a : Answer} {increment : BitVec 32} {fd buf len : ℕ}

theorem sbrkAnswer_cases (h : k.sbrkAnswer increment = some (a, k')) :
    (∃ e ∈ errors, a = .error e) ∨ a = .value (k.procTable k.processCurrent).brk := by
  have herror {e : ℤ} (he : e ∈ errors) : (∃ e' ∈ errors, Answer.error e = .error e') ∨
      Answer.error e = .value (k.procTable k.processCurrent).brk := Or.inl ⟨e, he, rfl⟩
  simp only [sbrkAnswer] at h
  split_ifs at h
  · cases h
    exact Or.inr rfl
  · cases h
    exact herror (by simp [errors])
  · obtain ⟨s, -, h⟩ := Option.bind_eq_some_iff.mp h
    split_ifs at h
    · cases h
      exact herror (by simp [errors])
    · cases h
      exact Or.inr rfl
  · cases h
    exact herror (by simp [errors])
  · exact nomatch h
  · obtain ⟨m, -, h⟩ := Option.bind_eq_some_iff.mp h
    cases h
    exact Or.inr rfl

theorem readAnswer_cases (h : k.readAnswer fd buf len = some (a, k')) :
    (∃ e ∈ errors, a = .error e) ∨ ∃ file, k.getFd fd = some file ∧
      a = .value (match (k.fileTable file).node.bind (k.files[·]?) with
        | none => 0
        | some node => initrdReadSize node (k.fileTable file).offset len) := by
  unfold readAnswer at h
  cases hfd : k.getFd fd with
  | none =>
      rw [hfd] at h
      cases h
      exact Or.inl ⟨_, by simp [errors], rfl⟩
  | some file =>
      rw [hfd] at h
      obtain ⟨ok, -, h⟩ := Option.bind_eq_some_iff.mp h
      split_ifs at h
      · cases h
        exact Or.inl ⟨_, by simp [errors], rfl⟩
      · refine Or.inr ⟨file, rfl, ?_⟩
        dsimp only at h
        cases hnode : (k.fileTable file).node.bind (k.files[·]?) with
        | none =>
            rw [hnode] at h
            cases h
            rfl
        | some node =>
            rw [hnode] at h
            obtain ⟨m, -, h⟩ := Option.bind_eq_some_iff.mp h
            cases h
            rfl

theorem writeAnswer_cases {bytes : List UInt8} (h : k.writeAnswer fd buf len = some (a, bytes)) :
    (∃ e ∈ errors, a = .error e) ∨ a = .value len := by
  unfold writeAnswer at h
  split_ifs at h
  · cases h
    exact Or.inl ⟨_, by simp [errors], rfl⟩
  · obtain ⟨ok, -, h⟩ := Option.bind_eq_some_iff.mp h
    split_ifs at h
    · cases h
      exact Or.inl ⟨_, by simp [errors], rfl⟩
    · obtain ⟨m, -, h⟩ := Option.bind_eq_some_iff.mp h
      cases h
      exact Or.inr rfl

end Kernel

/-! ## The wrappers -/

namespace Libc

/-- `if (ret < 0) { errno = -ret; return -1; } return ret;`, with what `errno` is set to. -/
def checked (ret : ℤ) : ℤ × Option ℤ :=
  if ret < 0 then (-1, some (Kernel.int32 (-ret))) else (ret, none)

/-- The pointer that is returned, as an `int`. -/
def sbrk (k : Kernel) (increment : BitVec 32) : Option ((ℤ × Option ℤ) × Kernel) :=
  (k.sysSbrk increment).map fun p ↦ (checked p.1, p.2)

def read (k : Kernel) (fd buf count : BitVec 32) : Option ((ℤ × Option ℤ) × Kernel) :=
  (k.sysRead fd.toNat buf.toNat count.toNat).map fun p ↦ (checked p.1, p.2)

def write (k : Kernel) (fd buf count : BitVec 32) : Option ((ℤ × Option ℤ) × List UInt8) :=
  (k.sysWrite fd.toNat buf.toNat count.toNat).map fun p ↦ (checked p.1, p.2)

inductive Wrapper
  | sbrk (increment : BitVec 32)
  | read (fd buf count : BitVec 32)
  | write (fd buf count : BitVec 32)

namespace Wrapper

variable (k : Kernel)

/-- What the handler means, if the call returns. -/
def answer : Wrapper → Option Answer
  | sbrk increment => (k.sbrkAnswer increment).map Prod.fst
  | read fd buf count => (k.readAnswer fd.toNat buf.toNat count.toNat).map Prod.fst
  | write fd buf count => (k.writeAnswer fd.toNat buf.toNat count.toNat).map Prod.fst

/-- What the program sees. -/
def result : Wrapper → Option (ℤ × Option ℤ)
  | sbrk increment => (Libc.sbrk k increment).map Prod.fst
  | read fd buf count => (Libc.read k fd buf count).map Prod.fst
  | write fd buf count => (Libc.write k fd buf count).map Prod.fst

/-- The old break, or the number of bytes to be transferred. -/
def amount : Wrapper → ℕ
  | sbrk _ => (k.procTable k.processCurrent).brk
  | read fd _ count =>
      match k.getFd fd.toNat with
      | none => 0
      | some file => match (k.fileTable file).node.bind (k.files[·]?) with
        | none => 0
        | some node => Kernel.initrdReadSize node (k.fileTable file).offset count.toNat
  | write _ _ count => count.toNat

end Wrapper

/-- An error shows as -1 with its number, a value as itself. -/
def Tells (r : ℤ × Option ℤ) : Answer → Prop
  | .error e => r = (-1, some e)
  | .value n => r = ((n : ℤ), none)

variable {k : Kernel} {c : Wrapper} {a : Answer} {e : ℤ} {n : ℕ}

theorem result_eq (k : Kernel) (c : Wrapper) :
    c.result k = (c.answer k).map fun a ↦ checked a.ret := by
  cases c with
  | sbrk increment =>
      rw [Wrapper.result, Wrapper.answer, sbrk, Kernel.sysSbrk_eq]
      simp only [Option.map_map]
      rfl
  | read fd buf count =>
      rw [Wrapper.result, Wrapper.answer, read, Kernel.sysRead_eq]
      simp only [Option.map_map]
      rfl
  | write fd buf count =>
      rw [Wrapper.result, Wrapper.answer, write, Kernel.sysWrite]
      simp only [Option.map_map]
      rfl

/-- The errors are small numbers, and a value is the amount. -/
theorem answer_cases (h : c.answer k = some a) :
    (∃ e, a = .error e ∧ 0 < e ∧ e < 2 ^ 31) ∨ a = .value (c.amount k) := by
  have hsmall : ∀ e ∈ Kernel.errors, 0 < e ∧ e < 2 ^ 31 := by decide
  have hcases : (∃ e ∈ Kernel.errors, a = .error e) ∨ a = .value (c.amount k) := by
    cases c with
    | sbrk increment =>
        obtain ⟨⟨a', k'⟩, hrun, rfl⟩ := Option.map_eq_some_iff.mp h
        exact Kernel.sbrkAnswer_cases hrun
    | read fd buf count =>
        obtain ⟨⟨a', k'⟩, hrun, rfl⟩ := Option.map_eq_some_iff.mp h
        rw [Wrapper.amount]
        rcases Kernel.readAnswer_cases hrun with herror | ⟨file, hfd, hvalue⟩
        · exact .inl herror
        · rw [hfd]
          exact .inr hvalue
    | write fd buf count =>
        obtain ⟨⟨a', bytes⟩, hrun, rfl⟩ := Option.map_eq_some_iff.mp h
        exact Kernel.writeAnswer_cases hrun
  rcases hcases with ⟨e, he, rfl⟩ | hvalue
  · exact .inl ⟨e, rfl, hsmall e he⟩
  · exact .inr hvalue

theorem tells_error (hpos : 0 < e) (hlt : e < 2 ^ 31) : Tells (checked (Answer.error e).ret) (.error e) := by
  have hret : (Answer.error e).ret = -e := rfl
  rw [Tells, hret, checked, if_pos (by omega), neg_neg, Kernel.int32_of_lt hpos.le hlt]

/-- A value comes through when the sign of its word is clear. -/
theorem tells_value_iff (n : ℕ) : Tells (checked (Answer.value n).ret) (.value n) ↔ n < 2 ^ 31 := by
  have hret : (Answer.value n).ret = Kernel.int32 n := rfl
  rw [Tells, hret, checked]
  constructor
  · intro h
    split_ifs at h
    · exact nomatch (Prod.mk.inj h).2
    · have hn : Kernel.int32 n = n := (Prod.mk.inj h).1
      have hlt : Kernel.int32 n < 2 ^ 31 := by
        refine lt_of_lt_of_le (Int.bmod_lt (by norm_num)) ?_
        norm_num
      omega
  · intro h
    rw [Kernel.int32_of_lt (by omega) (by omega), if_neg (by omega)]

/-- A call that returns tells what the handler means just when that is an error, or an
old break or number of bytes below 2 GiB. -/
theorem wrapper_tells_iff (k : Kernel) (c : Wrapper) (h : c.answer k = some a) :
    ∃ r, c.result k = some r ∧ (Tells r a ↔ (∃ e, a = .error e) ∨ c.amount k < 2 ^ 31) := by
  refine ⟨checked a.ret, by rw [result_eq, h, Option.map_some], ?_⟩
  rcases answer_cases h with ⟨e, rfl, hpos, hlt⟩ | rfl
  · exact iff_of_true (tells_error hpos hlt) (Or.inl ⟨e, rfl⟩)
  · rw [tells_value_iff]
    refine ⟨Or.inr, ?_⟩
    rintro (⟨e, he⟩ | h)
    · exact absurd he Answer.noConfusion
    · exact h

/-- `sbrk(0)` with a break of 4 MiB and a page. -/
theorem wrapper_tells_low_break :
    Wrapper.answer ((Sample.kernel 4).modifyProc 0 fun p ↦ { p with brk := 0x401000 }) (.sbrk 0) =
        some (.value 0x401000) ∧
      ∃ r, Wrapper.result ((Sample.kernel 4).modifyProc 0 fun p ↦ { p with brk := 0x401000 })
        (.sbrk 0) = some r ∧ Tells r (.value 0x401000) := by
  have hanswer : Wrapper.answer ((Sample.kernel 4).modifyProc 0 fun p ↦ { p with brk := 0x401000 })
      (.sbrk 0) = some (.value 0x401000) := rfl
  refine ⟨hanswer, ?_⟩
  obtain ⟨r, hr, hiff⟩ := wrapper_tells_iff _ _ hanswer
  exact ⟨r, hr, hiff.mpr (Or.inr (by decide))⟩

/-- `sbrk(0)` with a break of 2 GiB fails. -/
theorem wrapper_high_break :
    Wrapper.answer ((Sample.kernel 4).modifyProc 0 fun p ↦ { p with brk := 0x80000000 }) (.sbrk 0) =
        some (.value 0x80000000) ∧
      Wrapper.result ((Sample.kernel 4).modifyProc 0 fun p ↦ { p with brk := 0x80000000 }) (.sbrk 0) =
        some (-1, some (-2 ^ 31)) ∧
      ¬ Tells (-1, some (-2 ^ 31)) (.value 0x80000000) := by
  have hanswer : Wrapper.answer ((Sample.kernel 4).modifyProc 0 fun p ↦ { p with brk := 0x80000000 })
      (.sbrk 0) = some (.value 0x80000000) := rfl
  refine ⟨hanswer, ?_, fun h ↦ ?_⟩
  · rw [result_eq, hanswer]
    exact congrArg some (by decide)
  · exact nomatch (Prod.mk.inj h).2

end Libc

end EclipseOS
