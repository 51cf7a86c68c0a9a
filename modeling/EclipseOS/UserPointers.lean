import EclipseOS.Sbrk
import EclipseOS.SystemResults
import EclipseOS.UserPage

/-!
# User pointers

`user_range_ok` and `user_string_ok` accept exactly the ranges and strings that
user code could read itself, and they come back for every argument.  A system
call that passes them touches no other byte.
-/

namespace EclipseOS

open LittleEndian

namespace Machine

variable {m : Machine} {a addr len s n B : ℕ} {L K : Set ℕ}

/-- Every byte of the range lies below the kernel, in a page of the user. -/
def UserRange (m : Machine) (addr len : ℕ) : Prop :=
  addr + len ≤ USER_LIMIT ∧ ∀ a, addr ≤ a → a < addr + len → m.userAccessible a = true

/-- A string with its terminator, of at most `n` bytes, in pages of the user. -/
def UserString (m : Machine) (s n : ℕ) : Prop :=
  ∃ i < n, m.UserRange s (i + 1) ∧ m.load8 (s + i) = some 0

theorem UserRange.mono {len' : ℕ} (h : m.UserRange addr len) (hle : len' ≤ len) :
    m.UserRange addr len' :=
  ⟨by have := h.1; omega, fun a h₁ h₂ ↦ h.2 a h₁ (by omega)⟩

theorem userRange_succ : m.UserRange addr (len + 1) ↔
    m.UserRange addr 1 ∧ (0 < len → m.UserRange (addr + 1) len) := by
  constructor
  · intro h
    have hlimit := h.1
    exact ⟨h.mono (by omega),
      fun _ ↦ ⟨by omega, fun a h₁ h₂ ↦ h.2 a (by omega) (by omega)⟩⟩
  · rintro ⟨⟨hlimit, hfirst⟩, hrest⟩
    rcases Nat.eq_zero_or_pos len with rfl | hpos
    · exact ⟨hlimit, hfirst⟩
    · obtain ⟨hlimit', hrest⟩ := hrest hpos
      refine ⟨by omega, fun a h₁ h₂ ↦ ?_⟩
      obtain rfl | hlt := Nat.eq_or_lt_of_le h₁
      · exact hfirst addr le_rfl (by omega)
      · exact hrest a hlt (by omega)

/-! ## Single pages -/

/-- The bytes of a page are accessible together. -/
theorem userAccessible_congr {b : ℕ} (h : a / 4096 = b / 4096) :
    m.userAccessible a = m.userAccessible b := by
  have hd : a >>> 22 = b >>> 22 := by
    simp only [Nat.shiftRight_eq_div_pow]
    omega
  have ht : a >>> 12 = b >>> 12 := by
    simp only [Nat.shiftRight_eq_div_pow]
    omega
  rw [userAccessible, userAccessible, hd, ht]

/-- `paging_is_user` reads the entries that the processor goes by. -/
theorem pagingIsUser_eq (h : m.Recursive) (ha : a < 2 ^ 32) :
    m.pagingIsUser a = some (m.userAccessible a) := by
  obtain ⟨d, t, o, hd, ht, ho, rfl⟩ := exists_pageAddr ha
  rw [pagingIsUser_addr h hd ht ho]
  refine congrArg some (Bool.eq_iff_iff.mpr ?_)
  rw [userAccessible_page hd ht ho, decide_eq_true_eq]

/-- An accessible byte can be read. -/
theorem load8_of_userAccessible (ha : a < 2 ^ 32) (h : m.userAccessible a = true) :
    ∃ b, m.load8 a = some b := by
  obtain ⟨d, t, o, hd, ht, ho, rfl⟩ := exists_pageAddr ha
  have hmapped := (userAccessible_page hd ht ho).mp h
  obtain ⟨F, hF⟩ := Option.ne_none_iff_exists'.mp hmapped.leaf
  exact ⟨_, load8_page hd ht ho hF⟩

theorem allUser_eq (h : m.Recursive) {l : List ℕ} (hl : ∀ a ∈ l, a < 2 ^ 32) :
    m.allUser l = some (l.all m.userAccessible) := by
  induction l with
  | nil => rfl
  | cons a l ih =>
      obtain ⟨ha, hl⟩ := List.forall_mem_cons.mp hl
      rw [allUser, pagingIsUser_eq h ha, Option.bind_eq_bind, Option.bind_some, List.all_cons]
      cases m.userAccessible a with
      | false => rfl
      | true => exact ih hl

/-! ## Ranges and strings -/

theorem userRangeOk_spec (h : m.Recursive) (haddr : addr < 2 ^ 32) (hlen : len < 2 ^ 32) :
    ∃ b, m.userRangeOk addr len = some b ∧ (b = true ↔ len = 0 ∨ m.UserRange addr len) := by
  rw [userRangeOk]
  split
  · next hzero => exact ⟨true, rfl, by simp [hzero]⟩
  · next hpos =>
      dsimp only
      have hmask : addr &&& PAGE_MASK = addr / 4096 * 4096 := by
        rw [PAGE_MASK, and_page_mask haddr]
      split
      · next hbad =>
          refine ⟨false, rfl, ⟨(fun hfalse ↦ absurd hfalse Bool.false_ne_true), ?_⟩⟩
          rintro (hzero | ⟨hlimit, -⟩)
          · exact absurd hzero hpos
          · rw [USER_LIMIT] at hlimit hbad
            omega
      · next hok =>
          rw [not_or, not_or, USER_LIMIT] at hok
          have hstop : (addr + len) % 2 ^ 32 = addr + len := by omega
          rw [hstop] at hok ⊢
          have hstart : addr / 4096 * 4096 % 4096 = 0 := Nat.mul_mod_left _ _
          have hpages : ∀ a ∈ pagesBetween (addr &&& PAGE_MASK) (addr + len), a < 2 ^ 32 := by
            intro a ha
            rw [hmask, mem_pagesBetween hstart] at ha
            omega
          refine ⟨_, allUser_eq h hpages, ?_⟩
          rw [List.all_eq_true]
          constructor
          · intro hall
            refine Or.inr ⟨by rw [USER_LIMIT]; omega, fun a h₁ h₂ ↦ ?_⟩
            rw [userAccessible_congr (show a / 4096 = a / 4096 * 4096 / 4096 by omega)]
            apply hall
            rw [hmask, mem_pagesBetween hstart]
            omega
          · rintro (hzero | ⟨-, hall⟩) a ha
            · exact absurd hzero hpos
            · rw [hmask, mem_pagesBetween hstart] at ha
              rw [userAccessible_congr (b := max a addr) (by omega)]
              exact hall _ (by omega) (by omega)

theorem userStringOk_spec (h : m.Recursive) (hs : s < 2 ^ 32) (n : ℕ) :
    ∃ b, m.userStringOk s n = some b ∧ (b = true ↔ m.UserString s n) := by
  induction n generalizing s with
  | zero => exact ⟨false, rfl, by simp [UserString]⟩
  | succ n ih =>
      obtain ⟨ok, hok, hiff⟩ := userRangeOk_spec h hs (show 1 < 2 ^ 32 by norm_num)
      rw [userStringOk, hok, Option.bind_eq_bind, Option.bind_some]
      cases ok with
      | false =>
          refine ⟨false, rfl, ⟨(fun hfalse ↦ absurd hfalse Bool.false_ne_true), ?_⟩⟩
          rintro ⟨i, -, hrange, -⟩
          exact hiff.mpr (Or.inr (hrange.mono (by omega)))
      | true =>
          have hfirst : m.UserRange s 1 := (hiff.mp rfl).resolve_left one_ne_zero
          obtain ⟨b, hb⟩ := load8_of_userAccessible hs (hfirst.2 s le_rfl (by omega))
          have hlimit := hfirst.1
          rw [USER_LIMIT] at hlimit
          have hnext : (s + 1) % 2 ^ 32 = s + 1 := by omega
          simp only [if_true, hb, Option.bind_eq_bind, Option.bind_some, hnext]
          by_cases hb0 : b = 0
          · refine ⟨true, by rw [if_pos hb0]; rfl, ⟨fun _ ↦ ⟨0, by omega, hfirst, ?_⟩, fun _ ↦ rfl⟩⟩
            rw [Nat.add_zero, hb, hb0]
          · obtain ⟨ok, hok, hiff⟩ := ih (s := s + 1) (by omega)
            refine ⟨ok, by rw [if_neg hb0, hok], hiff.trans ⟨?_, ?_⟩⟩
            · rintro ⟨i, hi, hrange, hload⟩
              refine ⟨i + 1, by omega, userRange_succ.mpr ⟨hfirst, fun _ ↦ hrange⟩, ?_⟩
              rw [← hload]
              congr 1
              omega
            · rintro ⟨i, hi, hrange, hload⟩
              cases i with
              | zero =>
                  rw [Nat.add_zero, hb] at hload
                  exact absurd (Option.some.inj hload) hb0
              | succ i =>
                  refine ⟨i, by omega, (userRange_succ.mp hrange).2 (by omega), ?_⟩
                  rw [← hload]
                  congr 1
                  omega

/-- The string that was checked is the one that is read. -/
theorem readString_spec (hs : s < 2 ^ 32) (h : m.UserString s n) :
    ∃ l, m.readString s n = some l ∧ l.length < n ∧ m.UserRange s (l.length + 1) ∧
      (∀ i (hi : i < l.length), m.load8 (s + i) = some l[i]) ∧ 0 ∉ l ∧
      m.load8 (s + l.length) = some 0 := by
  induction n generalizing s with
  | zero =>
      obtain ⟨i, hi, -⟩ := h
      omega
  | succ n ih =>
      obtain ⟨i, hi, hrange, hload⟩ := h
      have hfirst : m.UserRange s 1 := hrange.mono (by omega)
      obtain ⟨b, hb⟩ := load8_of_userAccessible hs (hfirst.2 s le_rfl (by omega))
      have hlimit := hfirst.1
      rw [USER_LIMIT] at hlimit
      have hnext : (s + 1) % 2 ^ 32 = s + 1 := by omega
      rw [readString, hb, Option.bind_eq_bind, Option.bind_some, hnext]
      by_cases hb0 : b = 0
      · subst hb0
        exact ⟨[], rfl, by simp, hfirst, by simp, by simp, hb⟩
      · cases i with
        | zero =>
            rw [Nat.add_zero, hb] at hload
            exact absurd (Option.some.inj hload) hb0
        | succ i =>
            obtain ⟨l, hl, hlen, hrange', hbytes, hzero, hend⟩ := ih (s := s + 1) (by omega)
              ⟨i, by omega, (userRange_succ.mp hrange).2 (by omega), by rw [← hload]; congr 1; omega⟩
            refine ⟨b :: l, by rw [if_neg hb0, hl]; rfl, by simpa using hlen,
              userRange_succ.mpr ⟨hfirst, fun _ ↦ hrange'⟩, fun j hj ↦ ?_, ?_, ?_⟩
            · cases j with
              | zero => exact hb
              | succ j =>
                  rw [show s + (j + 1) = s + 1 + j by omega]
                  exact hbytes j (by simpa using hj)
            · simp [hzero, Ne.symm hb0]
            · rw [List.length_cons, show s + (l.length + 1) = s + 1 + l.length by omega]
              exact hend

/-- The bytes that `sys_write` prints are those of the range. -/
theorem loadBytes_spec (h : m.UserRange addr len) :
    ∃ l, m.loadBytes addr len = some l ∧ l.length = len ∧
      ∀ i (hi : i < l.length), m.load8 (addr + i) = some l[i] := by
  induction len generalizing addr with
  | zero => exact ⟨[], rfl, rfl, fun i hi ↦ absurd hi (Nat.not_lt_zero i)⟩
  | succ len ih =>
      obtain ⟨⟨hlimit, hfirst⟩, hrest⟩ := userRange_succ.mp h
      rw [USER_LIMIT] at hlimit
      obtain ⟨b, hb⟩ := load8_of_userAccessible (by omega) (hfirst addr le_rfl (by omega))
      have hnext : (addr + 1) % 2 ^ 32 = addr + 1 := by omega
      have htail : ∃ l, m.loadBytes (addr + 1) len = some l ∧ l.length = len ∧
          ∀ i (hi : i < l.length), m.load8 (addr + 1 + i) = some l[i] := by
        rcases Nat.eq_zero_or_pos len with rfl | hpos
        · exact ⟨[], rfl, rfl, fun i hi ↦ absurd hi (Nat.not_lt_zero i)⟩
        · exact ih (hrest hpos)
      obtain ⟨l, hl, hlength, hbytes⟩ := htail
      refine ⟨b :: l, ?_, by rw [List.length_cons, hlength], fun i hi ↦ ?_⟩
      · rw [loadBytes, hb, Option.bind_eq_bind, Option.bind_some, hnext, hl]
        rfl
      · cases i with
        | zero => exact hb
        | succ i =>
            rw [show addr + (i + 1) = addr + 1 + i by omega]
            exact hbytes i (by simpa using hi)

/-- Both checks come back, and accept what user code could read. -/
theorem user_checks_exact (h : m.Recursive) (hs : s < 2 ^ 32) (hlen : len < 2 ^ 32) :
    (∃ b, m.userRangeOk s len = some b ∧ (b = true ↔ len = 0 ∨ m.UserRange s len)) ∧
    ∃ b, m.userStringOk s n = some b ∧ (b = true ↔ m.UserString s n) ∧
      (b = true → ∃ l, m.readString s n = some l ∧ l.length < n ∧
        (∀ i (hi : i < l.length), m.load8 (s + i) = some l[i]) ∧ 0 ∉ l ∧
        m.load8 (s + l.length) = some 0) := by
  refine ⟨userRangeOk_spec h hs hlen, ?_⟩
  obtain ⟨b, hb, hiff⟩ := userStringOk_spec h hs n
  refine ⟨b, hb, hiff, fun htrue ↦ ?_⟩
  obtain ⟨l, hl, hlength, -, hbytes, hzero, hend⟩ := readString_spec hs (hiff.mp htrue)
  exact ⟨l, hl, hlength, hbytes, hzero, hend⟩

/-- The page of the small machine is accepted whole, and so is the string in it. -/
theorem user_checks_page :
    (Sample.machine 16).userRangeOk 0x400000 4096 = some true ∧
    (Sample.machine 16).UserRange 0x400000 4096 ∧
    (Sample.machine 16).userRangeOk 0x400000 4097 = some false ∧
    ¬ (Sample.machine 16).UserRange 0x400000 4097 ∧
    (Sample.machine 16).userStringOk 0x400000 PATH_MAX = some true ∧
    (Sample.machine 16).UserString 0x400000 PATH_MAX ∧
    ∃ l, (Sample.machine 16).readString 0x400000 PATH_MAX = some l ∧ l.length < PATH_MAX ∧
      (∀ i (hi : i < l.length), (Sample.machine 16).load8 (0x400000 + i) = some l[i]) ∧ 0 ∉ l ∧
      (Sample.machine 16).load8 (0x400000 + l.length) = some 0 := by
  have hrange : (Sample.machine 16).userRangeOk 0x400000 4096 = some true := by decide +kernel
  have hpast : (Sample.machine 16).userRangeOk 0x400000 4097 = some false := by decide +kernel
  have hstring : (Sample.machine 16).userStringOk 0x400000 PATH_MAX = some true := by decide +kernel
  have hpage : 0x400000 < 2 ^ 32 := by norm_num
  obtain ⟨⟨b, hb, hiff⟩, c, hc, hiff', hread⟩ := user_checks_exact (n := PATH_MAX)
    (Sample.machine_recursive 16) hpage (show 4096 < 2 ^ 32 by norm_num)
  obtain ⟨⟨b', hb', hno⟩, -⟩ := user_checks_exact (n := PATH_MAX)
    (Sample.machine_recursive 16) hpage (show 4097 < 2 ^ 32 by norm_num)
  obtain rfl := Option.some.inj (hb.symm.trans hrange)
  obtain rfl := Option.some.inj (hb'.symm.trans hpast)
  obtain rfl := Option.some.inj (hc.symm.trans hstring)
  exact ⟨hrange, (hiff.mp rfl).resolve_left (by norm_num), hpast,
    fun h ↦ Bool.false_ne_true (hno.mpr (Or.inr h)), hstring, hiff'.mp rfl, hread rfl⟩

/-! ## Writing through a checked range -/

/-- Where entry 0 is of the kernel, the pages of the user are those of entries 1 to 767. -/
theorem userAddr_of_userAccessible (hlow : m.pde m.dir 0 &&& PAGE_USER = 0) (ha : a < USER_LIMIT)
    (h : m.userAccessible a = true) : UserAddr a := by
  rw [USER_LIMIT] at ha
  refine ⟨?_, by omega⟩
  by_contra hlt
  obtain ⟨d, t, o, hd, ht, ho, rfl⟩ := exists_pageAddr (show a < 2 ^ 32 by omega)
  obtain rfl : d = 0 := by
    rw [pageAddr] at hlt
    omega
  exact ((userAccessible_page hd ht ho).mp h).2.1 hlow

theorem UserRange.defined (hlow : m.pde m.dir 0 &&& PAGE_USER = 0) (h : m.UserRange addr len) :
    Defined m.view addr len := by
  intro i hi
  have hlimit := h.1
  have haccess := h.2 (addr + i) (by omega) (by omega)
  obtain ⟨b, hb⟩ := load8_of_userAccessible (by rw [USER_LIMIT] at hlimit; omega) haccess
  rw [view, if_pos (userAddr_of_userAccessible hlow (by omega) haccess), hb]
  exact Option.some_ne_none b

/-- A byte of physical memory that the copy changes lies behind the range. -/
theorem memcpyFrom_touches {src : ℕ → UInt8} {off : ℕ} {m' : Machine} (h : m.Ledger B L K)
    (hdef : Defined m.view addr len) (hrun : m.memcpyFrom addr src off len = some m') {f o : ℕ}
    (hchange : m'.mem f o ≠ m.mem f o) :
    ∃ a, addr ≤ a ∧ a < addr + len ∧ m.translate a = some (f, o) := by
  induction len generalizing m addr off with
  | zero =>
      cases hrun
      exact absurd rfl hchange
  | succ len ih =>
      obtain ⟨hfirst, hrest⟩ := hdef.succ
      obtain ⟨m₁, hstore, hpokes, hview⟩ := store8_view h hfirst (src (off % 2 ^ 32))
      rw [memcpyFrom, hstore, Option.bind_eq_bind, Option.bind_some] at hrun
      by_cases hlater : m'.mem f o = m₁.mem f o
      · obtain ⟨p, hp, rfl⟩ := Option.map_eq_some_iff.mp hstore
        refine ⟨addr, le_rfl, by omega, ?_⟩
        rw [hp]
        by_contra hne
        rw [hlater, poke] at hchange
        refine hchange ?_
        by_cases hf : f = p.1
        · subst hf
          have ho : o ≠ p.2 := by
            rintro rfl
            exact hne rfl
          dsimp only
          rw [Function.update_self, Function.update_of_ne ho]
        · dsimp only
          rw [Function.update_of_ne hf]
      · have hdef' : Defined m₁.view (addr + 1) len := by
          rw [hview]
          exact hrest.update
        obtain ⟨a, hlo, hhi, ha⟩ := ih (hpokes.ledger h) hdef' hrun hlater
        have hin : m.view a ≠ none := by
          have := hrest (a - (addr + 1)) (by omega)
          rwa [Nat.add_sub_cancel' hlo] at this
        exact ⟨a, by omega, by omega, by rw [← hpokes.translate h (userAddr_of_view hin), ha]⟩

end Machine

namespace Kernel

variable {k k' : Kernel} {fd buf len path n B : ℕ} {L K : Set ℕ} {r : ℤ}

theorem initrdReadSize_le (n : FsNode) (offset : ℕ) {size : ℕ} (hsize : size < 2 ^ 32) :
    initrdReadSize n offset size ≤ size := by
  rw [initrdReadSize]
  split
  · exact Nat.zero_le _
  · split
    · next hlt hpast =>
        rcases Nat.lt_or_ge (offset + size) (2 ^ 32) with hsum | hsum
        · rw [Nat.mod_eq_of_lt hsum] at hpast
          omega
        · omega
    · exact le_rfl

/-! ## The handlers -/

/-- What `sys_write` may answer and print. -/
inductive Writes (k : Kernel) (fd buf len : ℕ) : ℤ → List UInt8 → Prop
  | badFd (hfd : fd ≠ 1 ∧ fd ≠ 2) : Writes k fd buf len (-EBADF) []
  | fault (hfd : fd = 1 ∨ fd = 2) (hlen : len ≠ 0) (hrange : ¬ k.machine.UserRange buf len) :
      Writes k fd buf len (-EFAULT) []
  | written (hfd : fd = 1 ∨ fd = 2) (hrange : len = 0 ∨ k.machine.UserRange buf len)
      {bytes : List UInt8} (hlength : bytes.length = len)
      (hbytes : ∀ i (hi : i < bytes.length), k.machine.load8 (buf + i) = some bytes[i]) :
      Writes k fd buf len (int32 len) bytes

/-- What `sys_read` may answer, and what it may have changed. -/
inductive Reads (k : Kernel) (fd buf len : ℕ) : ℤ → Kernel → Prop
  | badFd (hfd : k.getFd fd = none) : Reads k fd buf len (-EBADF) k
  | fault {file : Fin MAX_OPEN_FILES} (hfd : k.getFd fd = some file) (hlen : len ≠ 0)
      (hrange : ¬ k.machine.UserRange buf len) : Reads k fd buf len (-EFAULT) k
  | noNode {file : Fin MAX_OPEN_FILES} (hfd : k.getFd fd = some file)
      (hrange : len = 0 ∨ k.machine.UserRange buf len)
      (hnode : (k.fileTable file).node.bind (k.files[·]?) = none) : Reads k fd buf len 0 k
  | read {file : Fin MAX_OPEN_FILES} {node : FsNode} {got : ℕ} {m : Machine}
      (hfd : k.getFd fd = some file) (hrange : len = 0 ∨ k.machine.UserRange buf len)
      (hnode : (k.fileTable file).node.bind (k.files[·]?) = some node)
      (hgot : got = initrdReadSize node (k.fileTable file).offset len) (hle : got ≤ len)
      (hview : m.view = fill k.machine.view buf got fun i ↦
        node.data (((k.fileTable file).offset + i) % 2 ^ 32))
      (hmem : ∀ f o, m.mem f o ≠ k.machine.mem f o → ∃ a, buf ≤ a ∧ a < buf + got ∧
        k.machine.userAccessible a = true ∧ k.machine.translate a = some (f, o)) :
      Reads k fd buf len (int32 got) ((k.withMachine m).modifyFile file fun f ↦
        { f with offset := (f.offset + got) % 2 ^ 32 })

/-- A descriptor that `sys_open` may hand out. -/
def FreeFd (k : Kernel) (fd : Fin MAX_FDS) : Prop :=
  3 ≤ fd.val ∧ (k.procTable k.processCurrent).fds fd = none

/-- What `sys_open` may answer, and what it may have changed. -/
inductive Opens (k : Kernel) (path : ℕ) : ℤ → Kernel → Prop
  | fault (hstring : ¬ k.machine.UserString path PATH_MAX) : Opens k path (-EFAULT) k
  | missing (hstring : k.machine.UserString path PATH_MAX) {name : List UInt8}
      (hname : k.machine.readString path PATH_MAX = some name)
      (hnode : k.vfsFinddir name = none) : Opens k path (-ENOENT) k
  | full (hstring : k.machine.UserString path PATH_MAX) {name : List UInt8} {node : ℕ}
      (hname : k.machine.readString path PATH_MAX = some name)
      (hnode : k.vfsFinddir name = some node) (hfull : ∀ fd, ¬ k.FreeFd fd) :
      Opens k path (-EMFILE) k
  | tableFull (hstring : k.machine.UserString path PATH_MAX) {name : List UInt8} {node : ℕ}
      (hname : k.machine.readString path PATH_MAX = some name)
      (hnode : k.vfsFinddir name = some node) {fd : Fin MAX_FDS} (hfree : k.FreeFd fd)
      (hfull : ∀ f, (k.fileTable f).refcount ≠ 0) : Opens k path (-ENFILE) k
  | opened (hstring : k.machine.UserString path PATH_MAX) {name : List UInt8} {node : ℕ}
      (hname : k.machine.readString path PATH_MAX = some name)
      (hnode : k.vfsFinddir name = some node) {fd : Fin MAX_FDS} (hfree : k.FreeFd fd)
      (hleast : ∀ j < fd, ¬ k.FreeFd j) {file : Fin MAX_OPEN_FILES}
      (hzero : (k.fileTable file).refcount = 0) :
      Opens k path fd.val ((k.modifyFile file fun _ ↦ ⟨some node, 0, 1⟩).modifyProc
        k.processCurrent fun q ↦ { q with fds := Function.update q.fds fd (some file) })

theorem sysWrite_spec (h : k.machine.Recursive) (hbuf : buf < 2 ^ 32) (hlen : len < 2 ^ 32) :
    ∃ r bytes, k.sysWrite fd buf len = some (r, bytes) ∧ Writes k fd buf len r bytes := by
  rw [sysWrite, writeAnswer]
  by_cases hfd : fd ≠ 1 ∧ fd ≠ 2
  · rw [if_pos hfd]
    exact ⟨_, _, rfl, .badFd hfd⟩
  · have hfd' : fd = 1 ∨ fd = 2 := by omega
    obtain ⟨ok, hok, hiff⟩ := Machine.userRangeOk_spec h hbuf hlen
    rw [if_neg hfd, hok]
    cases ok with
    | false =>
        have hno : ¬ (len = 0 ∨ k.machine.UserRange buf len) := fun hyes ↦
          Bool.false_ne_true (hiff.mpr hyes)
        rw [not_or] at hno
        exact ⟨_, _, rfl, .fault hfd' hno.1 hno.2⟩
    | true =>
        have hrange := hiff.mp rfl
        have hbytes : ∃ l, k.machine.loadBytes buf len = some l ∧ l.length = len ∧
            ∀ i (hi : i < l.length), k.machine.load8 (buf + i) = some l[i] := by
          rcases hrange with rfl | hrange
          · exact ⟨[], rfl, rfl, fun i hi ↦ absurd hi (Nat.not_lt_zero i)⟩
          · exact Machine.loadBytes_spec hrange
        obtain ⟨l, hl, hlength, hload⟩ := hbytes
        refine ⟨int32 len, l, ?_, .written hfd' hrange hlength hload⟩
        simp only [Bool.not_true, Bool.false_eq_true, if_false, Option.bind_eq_bind,
          Option.bind_some, hl]
        rfl

/-- A read comes back for every buffer, and changes only bytes that the user could
write itself, in the range that was checked. -/
theorem sysRead_contained (h : k.machine.Ledger B L K)
    (hlow : k.machine.pde k.machine.dir 0 &&& PAGE_USER = 0) (hbuf : buf < 2 ^ 32)
    (hlen : len < 2 ^ 32) :
    ∃ r k', k.sysRead fd buf len = some (r, k') ∧ Reads k fd buf len r k' := by
  rw [sysRead]
  cases hfd : k.getFd fd with
  | none => exact ⟨_, _, rfl, .badFd hfd⟩
  | some file =>
      obtain ⟨ok, hok, hiff⟩ := Machine.userRangeOk_spec h.recursive hbuf hlen
      rw [hok]
      cases ok with
      | false =>
          have hno : ¬ (len = 0 ∨ k.machine.UserRange buf len) := fun hyes ↦
            Bool.false_ne_true (hiff.mpr hyes)
          rw [not_or] at hno
          exact ⟨_, _, rfl, .fault hfd hno.1 hno.2⟩
      | true =>
          have hrange := hiff.mp rfl
          simp only [Bool.not_true, Bool.false_eq_true, if_false, Option.bind_eq_bind,
            Option.bind_some]
          cases hnode : (k.fileTable file).node.bind (k.files[·]?) with
          | none => exact ⟨_, _, rfl, .noNode hfd hrange hnode⟩
          | some node =>
              have hle := initrdReadSize_le node (k.fileTable file).offset hlen
              dsimp only
              generalize hgot : initrdReadSize node (k.fileTable file).offset len = got at hle ⊢
              have hinside : got = 0 ∨ k.machine.UserRange buf got := by
                rcases hrange with rfl | hrange
                · exact Or.inl (by omega)
                · exact Or.inr (hrange.mono hle)
              have hdef : Defined k.machine.view buf got := by
                rcases hinside with rfl | hinside
                · exact fun i hi ↦ absurd hi (Nat.not_lt_zero i)
                · exact hinside.defined hlow
              obtain ⟨m, hm, -, hview⟩ := Machine.memcpyFrom_view h hdef node.data
                (k.fileTable file).offset
              refine ⟨int32 got, _, by rw [hm]; rfl,
                .read hfd hrange hnode hgot.symm hle hview fun f o hchange ↦ ?_⟩
              obtain ⟨a, hlo, hhi, ha⟩ := Machine.memcpyFrom_touches h hdef hm hchange
              rcases hinside with rfl | hinside
              · omega
              · exact ⟨a, hlo, hhi, hinside.2 a hlo hhi, ha⟩

/-- The search loop stops at the first slot. -/
theorem find?_finRange {p : Fin n → Bool} {i : Fin n} (h : (List.finRange n).find? p = some i) :
    p i = true ∧ ∀ j < i, p j = false := by
  obtain ⟨hp, q, hq, hqi, hbefore⟩ := List.find?_eq_some_iff_getElem.mp h
  refine ⟨hp, fun j hj ↦ ?_⟩
  rw [List.getElem_finRange] at hqi
  have hjq : j.val < q := by
    rw [← hqi] at hj
    exact hj
  simpa using hbefore j.val hjq

/-- `sys_open` comes back for every pointer: it looks up the string that it checked,
and hands out the lowest descriptor. -/
theorem sysOpen_exact (h : k.machine.Recursive) (hpath : path < 2 ^ 32) :
    ∃ r k', k.sysOpen path = some (r, k') ∧ Opens k path r k' := by
  obtain ⟨ok, hok, hiff⟩ := Machine.userStringOk_spec h hpath PATH_MAX
  rw [sysOpen, hok]
  cases ok with
  | false => exact ⟨_, _, rfl, .fault fun hyes ↦ Bool.false_ne_true (hiff.mpr hyes)⟩
  | true =>
      have hstring := hiff.mp rfl
      obtain ⟨name, hname, -⟩ := Machine.readString_spec hpath hstring
      simp only [Bool.not_true, Bool.false_eq_true, if_false, Option.bind_eq_bind,
        Option.bind_some, hname]
      cases hnode : k.vfsFinddir name with
      | none => exact ⟨_, _, rfl, .missing hstring hname hnode⟩
      | some node =>
          dsimp only
          cases hfd : (List.finRange MAX_FDS).find? fun i ↦
              3 ≤ i.val ∧ (k.procTable k.processCurrent).fds i = none with
          | none =>
              rw [List.find?_eq_none] at hfd
              refine ⟨_, _, rfl, .full hstring hname hnode fun fd hfree ↦ ?_⟩
              exact hfd fd (List.mem_finRange fd) (by simpa [FreeFd] using hfree)
          | some fd =>
              obtain ⟨hfound, hbefore⟩ := find?_finRange hfd
              have hfree : k.FreeFd fd := by simpa [FreeFd] using hfound
              have hleast : ∀ j < fd, ¬ k.FreeFd j := by
                intro j hj
                simpa [FreeFd] using hbefore j hj
              obtain ⟨hfull, halloc⟩ | ⟨file, hzero, halloc⟩ := k.openFileAlloc_cases node
              · rw [halloc]
                exact ⟨_, _, rfl, .tableFull hstring hname hnode hfree hfull⟩
              · rw [halloc]
                exact ⟨_, _, rfl, .opened hstring hname hnode hfree hleast hzero⟩

/-- The string in the page of process 0 is the name of the one file. -/
theorem sysOpen_exact_user : ∃ k', (Sample.kernel 16).sysOpen 0x400000 = some (3, k') ∧
    Opens (Sample.kernel 16) 0x400000 3 k' := by
  have hopen : ((Sample.kernel 16).sysOpen 0x400000).map Prod.fst = some 3 := by decide +kernel
  obtain ⟨r, k', hrun, hopens⟩ := sysOpen_exact (k := Sample.kernel 16)
    (Sample.machine_recursive 16) (show 0x400000 < 2 ^ 32 by norm_num)
  rw [hrun] at hopen
  obtain rfl : r = 3 := Option.some.inj hopen
  exact ⟨k', hrun, hopens⟩

/-- Four bytes of the file go to the second half of that page. -/
theorem sysRead_contained_user : ∃ k k', (Sample.kernel 16).sysOpen 0x400000 = some (3, k) ∧
    k.sysRead 3 0x400800 4 = some (4, k') ∧ Reads k 3 0x400800 4 4 k' ∧
    k'.machine.load8 0x400803 = some 3 := by
  have hread : ((Sample.kernel 16).sysOpen 0x400000).bind (fun x ↦
      (x.2.sysRead 3 0x400800 4).map fun y ↦ (x.1, y.1, y.2.machine.load8 0x400803)) =
      some (3, 4, some 3) := by decide +kernel
  obtain ⟨⟨q, k⟩, hopen, heq⟩ := Option.bind_eq_some_iff.mp hread
  obtain ⟨⟨r, k'⟩, hrun, heq⟩ := Option.map_eq_some_iff.mp heq
  simp only [Prod.mk.injEq] at heq
  obtain ⟨rfl, rfl, hbyte⟩ := heq
  have hmachine : k.machine = Sample.machine 16 := by
    obtain ⟨-, rfl⟩ | ⟨node, fd, file, -, -, -, -, rfl⟩ := sysOpen_cases hopen <;> rfl
  obtain ⟨r, k'', hrun', hreads⟩ := sysRead_contained (k := k) (hmachine ▸ Sample.machine_ledger 16)
    (by rw [hmachine, Machine.sample_dir, Machine.sample_pde]; rfl)
    (show 0x400800 < 2 ^ 32 by norm_num) (show 4 < 2 ^ 32 by norm_num)
  obtain ⟨rfl, rfl⟩ := Prod.mk.inj (Option.some.inj (hrun'.symm.trans hrun))
  exact ⟨k, _, hopen, hrun, hreads, hbyte⟩

end Kernel

end EclipseOS
