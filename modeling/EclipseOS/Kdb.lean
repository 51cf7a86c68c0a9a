import EclipseOS.Libc.Rendering
import EclipseOS.Libc.Strings

/-!
# The line editor of the debugger

`kdb_readline` collects a line of at most 79 characters in a buffer of 80, and
keeps the last 16 lines in a ring of rows of the same size.  Every access to the
buffer, the ring and its rows is checked here.
-/

namespace EclipseOS

open Libc

def kdbKeys (sc : UInt8) : UInt8 :=
  [0, 27, 49, 50, 51, 52, 53, 54, 55, 56, 57, 48, 45, 61, 8,
    9, 113, 119, 101, 114, 116, 121, 117, 105, 111, 112, 91, 93, 10,
    0, 97, 115, 100, 102, 103, 104, 106, 107, 108, 59, 39, 96,
    0, 92, 122, 120, 99, 118, 98, 110, 109, 44, 46, 47, 0, 42, 0, 32].getD sc.toNat 0

def KDB_KEY_UP : ℕ := 0x100
def KDB_KEY_DOWN : ℕ := 0x101
def KDB_KEY_LEFT : ℕ := 0x102
def KDB_KEY_RIGHT : ℕ := 0x103

def HIST_SIZE : ℕ := 16

/-- The size of a row of the history, and of the buffer for a line. -/
def LINE_SIZE : ℕ := 80

/-- `kdb_getchar` over the scancodes that it polls: the key and the scancodes after it. -/
def kdbGetchar : Bool → List UInt8 → Option (ℕ × List UInt8)
  | _, [] => none
  | ext, sc :: rest =>
      if sc = 0xE0 then kdbGetchar true rest
      else if sc &&& 0x80 ≠ 0 then kdbGetchar false rest
      else if ext then
        if sc = 0x48 then some (KDB_KEY_UP, rest)
        else if sc = 0x50 then some (KDB_KEY_DOWN, rest)
        else if sc = 0x4B then some (KDB_KEY_LEFT, rest)
        else if sc = 0x4D then some (KDB_KEY_RIGHT, rest)
        else kdbGetchar false rest
      else if kdbKeys sc ≠ 0 then some ((kdbKeys sc).toNat, rest)
      else kdbGetchar false rest

/-- A call of `printf`. -/
structure Printing where
  format : CString
  args : List Arg

namespace Printing

def backspace : Printing := { format := ⟨[8], by decide⟩, args := [] }

def newline : Printing := { format := ⟨[10], by decide⟩, args := [] }

def char (c : ℕ) : Printing := { format := ⟨[0x25, 0x63], by decide⟩, args := [.word (BitVec.ofNat 32 c)] }

def string (s : CString) : Printing := { format := ⟨[0x25, 0x73], by decide⟩, args := [.str s] }

end Printing

structure KdbHistory where
  hist : ℕ → CharArray
  histCount : ℕ
  histNext : ℕ

namespace KdbHistory

def initial : KdbHistory := { hist := fun _ _ ↦ 0, histCount := 0, histNext := 0 }

/-- The row of a line; 0 is the most recent. -/
def histGet (h : KdbHistory) (pos : ℤ) : Option ℕ :=
  let idx := ((h.histNext : ℤ) - 1 - pos + HIST_SIZE * 2).tmod HIST_SIZE
  if 0 ≤ idx ∧ idx < HIST_SIZE then some idx.toNat else none

/-- Put a line into the next row. -/
def histStore (h : KdbHistory) (line : CharArray) : Option KdbHistory :=
  if h.histNext < HIST_SIZE then
    (strncpy LINE_SIZE (h.hist h.histNext) line 79).map fun row ↦
      { hist := Function.update h.hist h.histNext (Function.update row 79 0)
        histNext := (h.histNext + 1) % HIST_SIZE
        histCount := if h.histCount < HIST_SIZE then h.histCount + 1 else h.histCount }
  else none

def histAdd (h : KdbHistory) (line : CharArray) : Option KdbHistory :=
  if line 0 = 0 then some h
  else if h.histCount = 0 then h.histStore line
  else do
    let idx ← h.histGet 0
    let r ← strcmp LINE_SIZE (h.hist idx) line
    if r = 0 then return h else h.histStore line

end KdbHistory

/-- The variables of `kdb_readline`. -/
structure LineEditor where
  buf : CharArray
  i : ℕ
  hpos : ℤ

namespace LineEditor

def start (buf : CharArray) : LineEditor := { buf, i := 0, hpos := -1 }

def store (e : LineEditor) (c : UInt8) : Option CharArray :=
  if e.i < LINE_SIZE then some (Function.update e.buf e.i c) else none

/-- The history position after an arrow key, if it moves. -/
def moved (e : LineEditor) (h : KdbHistory) (c : ℕ) : Option ℤ :=
  if c = KDB_KEY_UP then
    if e.hpos ≥ (h.histCount : ℤ) - 1 then none else some (e.hpos + 1)
  else if e.hpos < 0 then none
  else some (e.hpos - 1)

/-- Replace the line by one of the history, or by the empty line. -/
def recallLine (e : LineEditor) (h : KdbHistory) (hpos : ℤ) : Option (LineEditor × List Printing) :=
  let erased := List.replicate e.i Printing.backspace
  if 0 ≤ hpos then do
    let idx ← h.histGet hpos
    let buf ← strcpy LINE_SIZE e.buf (h.hist idx)
    let i ← strlen LINE_SIZE (h.hist idx)
    let text ← toCString LINE_SIZE (h.hist idx)
    return ({ buf, i, hpos }, erased ++ [.string text])
  else some ({ e with i := 0, hpos }, erased)

/-- A turn of the loop for any key but a newline, with `max` as `sizeof(line)`. -/
def key (e : LineEditor) (h : KdbHistory) (c : ℕ) : Option (LineEditor × List Printing) :=
  if c = 8 then
    if e.i ≠ 0 then some ({ e with i := e.i - 1 }, [.backspace]) else some (e, [])
  else if c = KDB_KEY_UP ∨ c = KDB_KEY_DOWN then
    if h.histCount = 0 then some (e, [])
    else match e.moved h c with
      | none => some (e, [])
      | some hpos => e.recallLine h hpos
  else if c < 128 ∧ e.i < LINE_SIZE - 1 then
    (e.store (UInt8.ofNat c)).map fun buf ↦ ({ e with buf, i := e.i + 1 }, [.char c])
  else some (e, [])

end LineEditor

/-- A key, and what is in the buffer when `kdb_readline` is called again after it. -/
structure KdbKey where
  code : ℕ
  next : CharArray
  code_pos : 0 < code

/-- One call of `kdb_readline` after another. -/
structure KdbSession where
  history : KdbHistory
  editor : LineEditor
  /-- The buffers as they were returned. -/
  returned : List CharArray

namespace KdbSession

def initial (buf : CharArray) : KdbSession :=
  { history := .initial, editor := .start buf, returned := [] }

def step (s : KdbSession) (k : KdbKey) : Option (KdbSession × List Printing) :=
  if k.code = 10 then do
    let buf ← s.editor.store 0
    let history ← s.history.histAdd buf
    return ({ history, editor := .start k.next, returned := s.returned ++ [buf] }, [.newline])
  else (s.editor.key s.history k.code).map fun (editor, printed) ↦ ({ s with editor }, printed)

def run (s : KdbSession) (keys : List KdbKey) : Option KdbSession :=
  keys.foldlM (fun s k ↦ (s.step k).map Prod.fst) s

end KdbSession

/-! ## What it is for -/

/-- The editor of reference: the lines recorded so far, the most recent first, the current
line and how far back in the history it is. -/
structure Reference where
  recorded : List (List UInt8)
  line : List UInt8
  back : ℕ
  returned : List (List UInt8)

namespace Reference

def initial : Reference := { recorded := [], line := [], back := 0, returned := [] }

/-- Empty lines and repetitions of the most recent one are dropped. -/
def record (recorded : List (List UInt8)) (line : List UInt8) : List (List UInt8) :=
  if line = [] ∨ recorded.head? = some line then recorded else line :: recorded

/-- The line `back` steps back; the empty one is below the newest. -/
def select (recorded : List (List UInt8)) (back : ℕ) : List UInt8 :=
  if back = 0 then [] else (recorded[back - 1]?).getD []

def step (r : Reference) (c : ℕ) : Reference :=
  if c = 10 then
    { recorded := record r.recorded r.line, line := [], back := 0, returned := r.returned ++ [r.line] }
  else if c = 8 then { r with line := r.line.dropLast }
  else if c = KDB_KEY_UP then
    if r.back < min HIST_SIZE r.recorded.length then
      { r with line := select r.recorded (r.back + 1), back := r.back + 1 }
    else r
  else if c = KDB_KEY_DOWN then
    if 0 < r.back then { r with line := select r.recorded (r.back - 1), back := r.back - 1 } else r
  else if c < 128 ∧ r.line.length < 79 then { r with line := r.line ++ [UInt8.ofNat c] }
  else r

def run (r : Reference) (keys : List KdbKey) : Reference := keys.foldl (fun r k ↦ r.step k.code) r

theorem step_kept (r : Reference) {c : ℕ} (hc : c ≠ 10) :
    (r.step c).recorded = r.recorded ∧ (r.step c).returned = r.returned := by
  rw [step, if_neg hc]
  split_ifs
  all_goals exact ⟨rfl, rfl⟩

/-- What a key puts on the screen: a line that is replaced is erased first. -/
def echo (r : Reference) (c : ℕ) : List UInt8 :=
  if c = 10 then [10]
  else if c = 8 then if r.line = [] then [] else [8]
  else if c = KDB_KEY_UP ∨ c = KDB_KEY_DOWN then
    if (r.step c).back = r.back then []
    else List.replicate r.line.length 8 ++ (r.step c).line
  else if c < 128 ∧ r.line.length < 79 then [UInt8.ofNat c]
  else []

end Reference

variable {h h' : KdbHistory} {e : LineEditor} {r : Reference} {recorded : List (List UInt8)}
  {line : List UInt8} {buf : CharArray}

/-- A string that fits into the array with its terminator. -/
structure IsLine (a : CharArray) (line : List UInt8) : Prop extends IsString a line where
  fits : line.length < LINE_SIZE

/-- Calls of `printf` in order, and all that they print. -/
inductive Echoes : List Printing → List UInt8 → Prop
  | nil : Echoes [] []
  | cons {p : Printing} {rest : List Printing} {text text' : List UInt8}
      (h : Renders p.format.bytes p.args text) (hshort : text.length ≤ INT_MAX)
      (hrest : Echoes rest text') : Echoes (p :: rest) (text ++ text')

namespace Echoes

theorem single {p : Printing} {text : List UInt8} (h : Renders p.format.bytes p.args text)
    (hshort : text.length ≤ INT_MAX) : Echoes [p] text := by
  have hcons := Echoes.cons h hshort .nil
  rwa [List.append_nil] at hcons

theorem newline : Echoes [.newline] [10] :=
  single (Renders.plain (by decide) (.done [])) (by decide)

theorem backspace : Echoes [.backspace] [8] :=
  single (Renders.plain (by decide) (.done [])) (by decide)

/-- No flags and no width. -/
def noOptions : Options :=
  { flags := [], width := [], flags_flag := by simp, width_digit := by simp, width_first := by simp,
    width_short := Nat.zero_le 9 }

theorem char {c : ℕ} (hc : c < 128) : Echoes [.char c] [UInt8.ofNat c] := by
  have hword : (BitVec.ofNat 32 c).toNat = c := by
    rw [BitVec.toNat_ofNat, Nat.mod_eq_of_lt (by omega)]
  have hconv := Conversion.c (BitVec.ofNat 32 c)
  rw [hword] at hconv
  exact single (p := .char c) (.conversion noOptions hconv (.done []))
    (Nat.one_le_two_pow.trans (by decide : 2 ^ 0 ≤ INT_MAX))

theorem string {s : CString} (hs : s.bytes.length < LINE_SIZE) : Echoes [.string s] s.bytes := by
  have hrenders := Renders.conversion noOptions (.s s) (.done [])
  rw [List.append_nil] at hrenders
  exact single (p := .string s) hrenders (Nat.le_of_lt (Nat.lt_trans hs (by decide)))

theorem append {printed printed' : List Printing} {text text' : List UInt8}
    (h : Echoes printed text) (h' : Echoes printed' text') :
    Echoes (printed ++ printed') (text ++ text') := by
  induction h with
  | nil => exact h'
  | cons hr hshort hrest ih =>
      rw [List.cons_append, List.append_assoc]
      exact .cons hr hshort ih

theorem backspaces (n : ℕ) : Echoes (List.replicate n .backspace) (List.replicate n 8) := by
  induction n with
  | zero => exact .nil
  | succ n ih => exact backspace.append ih

end Echoes

namespace KdbHistory

/-- The rows are the most recent lines that are recorded. -/
structure Records (h : KdbHistory) (recorded : List (List UInt8)) : Prop where
  next : h.histNext < HIST_SIZE
  count : h.histCount = min HIST_SIZE recorded.length
  rows : ∀ k < h.histCount, ∀ line ∈ recorded[k]?,
    IsLine (h.hist ((h.histNext + 15 - k) % HIST_SIZE)) line

theorem records_initial : initial.Records [] :=
  { next := by decide, count := rfl, rows := fun _ hk ↦ absurd hk (Nat.not_lt_zero _) }

theorem histGet_eq (hnext : h.histNext < HIST_SIZE) {k : ℕ} (hk : k < HIST_SIZE) :
    h.histGet k = some ((h.histNext + 15 - k) % HIST_SIZE) := by
  simp only [HIST_SIZE] at hnext hk ⊢
  have hidx : ((h.histNext : ℤ) - 1 - k + (16 : ℕ) * 2).tmod (16 : ℕ) =
      ((h.histNext + 15 - k) % 16 : ℕ) := by
    rw [Int.tmod_eq_emod_of_nonneg (by omega)]
    omega
  simp only [histGet, HIST_SIZE, hidx]
  rw [if_pos (by omega)]
  rfl

theorem Records.count_le (hr : h.Records recorded) : h.histCount ≤ HIST_SIZE := by
  rw [hr.count]
  exact Nat.min_le_left ..

/-- Of each line that is kept, the row. -/
theorem Records.get (hr : h.Records recorded) {k : ℕ} (hk : k < h.histCount) :
    ∃ idx line, h.histGet k = some idx ∧ recorded[k]? = some line ∧ IsLine (h.hist idx) line := by
  have hcount := hr.count
  have hlt : k < recorded.length := by omega
  have hline : recorded[k]? = some recorded[k] := List.getElem?_eq_getElem hlt
  exact ⟨_, _, histGet_eq hr.next (hk.trans_le hr.count_le), hline, hr.rows k hk _ hline⟩

theorem Records.store (hr : h.Records recorded) (hline : IsLine buf line) :
    ∃ h', h.histStore buf = some h' ∧ h'.Records (line :: recorded) := by
  have hfits := hline.fits
  have hnext := hr.next
  simp only [LINE_SIZE] at hfits
  obtain ⟨row, hrow, hstring⟩ := strncpy_eq hline.toIsString
    (by omega : line.length ≤ 79) (by decide : 79 ≤ LINE_SIZE) (h.hist h.histNext)
  refine ⟨_, by rw [histStore, if_pos hr.next, hrow]; rfl, ?_⟩
  refine { next := Nat.mod_lt _ (by decide), count := ?_, rows := fun k hk l hl ↦ ?_ }
  · simp only [hr.count, List.length_cons, HIST_SIZE]
    split_ifs
    all_goals omega
  · have hkept : k ≤ h.histCount ∧ k < HIST_SIZE := by
      have := hr.count_le
      dsimp only at hk
      split_ifs at hk
      all_goals omega
    cases k with
    | zero =>
        obtain rfl : line = l := by simpa using hl
        have hslot : ((h.histNext + 1) % HIST_SIZE + 15 - 0) % HIST_SIZE = h.histNext := by
          simp only [HIST_SIZE] at hnext ⊢
          omega
        simp only [hslot, Function.update_self]
        exact ⟨hstring, hline.fits⟩
    | succ k =>
        have hslot : ((h.histNext + 1) % HIST_SIZE + 15 - (k + 1)) % HIST_SIZE =
            (h.histNext + 15 - k) % HIST_SIZE := by
          simp only [HIST_SIZE] at hnext hkept ⊢
          omega
        have hne : (h.histNext + 15 - k) % HIST_SIZE ≠ h.histNext := by
          simp only [HIST_SIZE] at hnext hkept ⊢
          omega
        rw [List.getElem?_cons_succ] at hl
        simp only [hslot, Function.update_of_ne hne]
        exact hr.rows k (by omega) l hl

theorem Records.add (hr : h.Records recorded) (hline : IsLine buf line) :
    ∃ h', h.histAdd buf = some h' ∧ h'.Records (Reference.record recorded line) := by
  have hempty : buf 0 = 0 ↔ line = [] := by
    rw [hline.zero_iff (Nat.zero_le _), eq_comm, List.length_eq_zero_iff]
  rw [histAdd, Reference.record]
  by_cases hnil : line = []
  · rw [if_pos (hempty.mpr hnil), if_pos (Or.inl hnil)]
    exact ⟨h, rfl, hr⟩
  rw [if_neg (hempty.not.mpr hnil)]
  by_cases hzero : h.histCount = 0
  · have hnone : recorded = [] := by
      rw [hr.count] at hzero
      simp only [HIST_SIZE] at hzero
      exact List.length_eq_zero_iff.mp (by omega)
    rw [if_pos hzero, if_neg (by simp [hnil, hnone])]
    exact hr.store hline
  rw [if_neg hzero]
  obtain ⟨idx, last, hget, hlast, hrow⟩ := hr.get (Nat.pos_of_ne_zero hzero)
  obtain ⟨c, hcmp, hiff⟩ := strcmp_eq hrow.toIsString hline.toIsString hrow.fits hline.fits
  have hhead : recorded.head? = some last := by rw [List.head?_eq_getElem?, hlast]
  have hfirst : h.histGet 0 = some idx := hget
  simp only [hfirst, hcmp, hhead, Option.bind_eq_bind, Option.bind_some]
  by_cases hsame : last = line
  · rw [if_pos (hiff.mpr hsame), if_pos (Or.inr (congrArg some hsame))]
    exact ⟨h, rfl, hr⟩
  · rw [if_neg (hiff.not.mpr hsame), if_neg (by simp [hnil, hsame])]
    exact hr.store hline

end KdbHistory

namespace LineEditor

/-- The buffer begins with the line, and the position in the history is the same. -/
structure Edits (e : LineEditor) (h : KdbHistory) (r : Reference) : Prop where
  length : e.i = r.line.length
  short : r.line.length ≤ 79
  begins : Begins e.buf r.line
  nonzero : 0 ∉ r.line
  hpos : e.hpos = (r.back : ℤ) - 1
  back : r.back ≤ h.histCount

theorem Edits.store (hed : e.Edits h r) (c : UInt8) :
    e.store c = some (Function.update e.buf r.line.length c) := by
  have hshort := hed.short
  rw [← hed.length] at hshort ⊢
  rw [LineEditor.store, if_pos (by simp only [LINE_SIZE]; omega)]

/-- The line as it is returned. -/
theorem Edits.finish (hed : e.Edits h r) :
    ∃ buf, e.store 0 = some buf ∧ IsLine buf r.line := by
  have hshort := hed.short
  refine ⟨_, hed.store 0, hed.begins.terminate hed.nonzero, ?_⟩
  simp only [LINE_SIZE]
  omega

theorem Edits.moved (hed : e.Edits h r) :
    e.moved h KDB_KEY_UP = (if r.back < h.histCount then some (r.back : ℤ) else none) ∧
      e.moved h KDB_KEY_DOWN = if 0 < r.back then some ((r.back : ℤ) - 2) else none := by
  have hhpos := hed.hpos
  refine ⟨?_, ?_⟩
  · rw [LineEditor.moved, if_pos rfl]
    split_ifs
    · omega
    · rfl
    · congr 1
      omega
    · omega
  · rw [LineEditor.moved, if_neg (by decide)]
    split_ifs
    · omega
    · rfl
    · congr 1
      omega
    · omega

/-- What is selected takes the place of the line. -/
theorem Edits.recallLine (hed : e.Edits h r) (hr : h.Records r.recorded) {back : ℕ}
    (hback : back ≤ h.histCount) :
    ∃ e' printed, e.recallLine h ((back : ℤ) - 1) = some (e', printed) ∧
      e'.Edits h { r with line := Reference.select r.recorded back, back } ∧
      Echoes printed (List.replicate r.line.length 8 ++ Reference.select r.recorded back) := by
  rw [LineEditor.recallLine]
  cases back with
  | zero =>
      refine ⟨{ e with i := 0, hpos := -1 }, _, if_neg (by simp), ?_, ?_⟩
      · exact
          { length := rfl
            short := Nat.zero_le _
            begins := fun j hj ↦ absurd hj (Nat.not_lt_zero _)
            nonzero := List.not_mem_nil
            hpos := rfl
            back := Nat.zero_le _ }
      · have hselect : Reference.select r.recorded 0 = [] := rfl
        rw [hed.length, hselect, List.append_nil]
        exact Echoes.backspaces _
  | succ k =>
      obtain ⟨idx, line, hget, hline, hrow⟩ := hr.get (k := k) hback
      have hfits := hrow.fits
      obtain ⟨d, hcopy, hstring⟩ := strcpy_eq hrow.toIsString hrow.fits e.buf
      have hpos : ((k + 1 : ℕ) : ℤ) - 1 = k := by omega
      have hselect : Reference.select r.recorded (k + 1) = line := by
        rw [Reference.select, if_neg (Nat.succ_ne_zero k), Nat.add_sub_cancel, hline,
          Option.getD_some]
      refine ⟨{ buf := d, i := line.length, hpos := k },
        List.replicate e.i .backspace ++ [.string ⟨line, hrow.nonzero⟩], ?_, ?_, ?_⟩
      · rw [hpos, if_pos (Int.natCast_nonneg k)]
        simp only [hget, hcopy, strlen_eq hrow.toIsString hrow.fits,
          toCString_eq hrow.toIsString hrow.fits, Option.bind_eq_bind, Option.bind_some,
          Option.pure_def]
      · rw [hselect]
        exact
          { length := rfl
            short := Nat.le_of_lt_succ hfits
            begins := hstring.begins
            nonzero := hstring.nonzero
            hpos := hpos.symm
            back := hback }
      · rw [hselect, hed.length]
        exact (Echoes.backspaces _).append (Echoes.string hfits)

theorem Edits.arrow (hed : e.Edits h r) (hr : h.Records r.recorded) {c : ℕ}
    (hc : c = KDB_KEY_UP ∨ c = KDB_KEY_DOWN) :
    ∃ e' printed, e.key h c = some (e', printed) ∧ e'.Edits h (r.step c) ∧
      Echoes printed (r.echo c) := by
  obtain ⟨hup, hdown⟩ := hed.moved
  have hback := hed.back
  have hkey : e.key h c = if h.histCount = 0 then some (e, [])
      else match e.moved h c with
        | none => some (e, [])
        | some hpos => e.recallLine h hpos := by
    rcases hc with rfl | rfl <;> rfl
  -- a key that does not move leaves everything as it is
  have hstay : r.step c = r → (h.histCount = 0 ∨ e.moved h c = none) →
      ∃ e' printed, e.key h c = some (e', printed) ∧ e'.Edits h (r.step c) ∧
        Echoes printed (r.echo c) := by
    intro hsame hnone
    have hecho : r.echo c = [] := by
      rw [Reference.echo, if_neg (by rcases hc with rfl | rfl <;> decide),
        if_neg (by rcases hc with rfl | rfl <;> decide), if_pos hc, hsame, if_pos rfl]
    refine ⟨e, [], ?_, ?_, ?_⟩
    · rw [hkey]
      split_ifs with hzero
      · rfl
      · rw [hnone.resolve_left hzero]
    · rw [hsame]
      exact hed
    · rw [hecho]
      exact .nil
  have hmove : ∀ back ≤ h.histCount, back ≠ r.back → h.histCount ≠ 0 →
      e.moved h c = some ((back : ℤ) - 1) →
      r.step c = { r with line := Reference.select r.recorded back, back } →
      ∃ e' printed, e.key h c = some (e', printed) ∧ e'.Edits h (r.step c) ∧
        Echoes printed (r.echo c) := by
    intro back hle hne hzero hmoved hstep
    obtain ⟨e', printed, hrecall, hed', hechoes⟩ := hed.recallLine hr hle
    refine ⟨e', printed, ?_, ?_, ?_⟩
    · rw [hkey, if_neg hzero, hmoved]
      exact hrecall
    · rw [hstep]
      exact hed'
    · rw [Reference.echo, if_neg (by rcases hc with rfl | rfl <;> decide),
        if_neg (by rcases hc with rfl | rfl <;> decide), if_pos hc, hstep, if_neg hne]
      exact hechoes
  rcases hc with rfl | rfl
  · have hstep : r.step KDB_KEY_UP = if r.back < min HIST_SIZE r.recorded.length then
        { r with line := Reference.select r.recorded (r.back + 1), back := r.back + 1 } else r := rfl
    rw [← hr.count] at hstep
    by_cases hlt : r.back < h.histCount
    · rw [if_pos hlt] at hstep hup
      exact hmove (r.back + 1) hlt (Nat.succ_ne_self _) (by omega) (by rw [hup]; congr 1; omega) hstep
    · rw [if_neg hlt] at hstep hup
      exact hstay hstep (.inr hup)
  · have hstep : r.step KDB_KEY_DOWN = if 0 < r.back then
        { r with line := Reference.select r.recorded (r.back - 1), back := r.back - 1 } else r := rfl
    by_cases hlt : 0 < r.back
    · rw [if_pos hlt] at hstep hdown
      exact hmove (r.back - 1) (by omega) (by omega) (by omega) (by rw [hdown]; congr 1; omega) hstep
    · rw [if_neg hlt] at hstep hdown
      exact hstay hstep (.inr hdown)

theorem Edits.erase (hed : e.Edits h r) :
    ∃ e' printed, e.key h 8 = some (e', printed) ∧ e'.Edits h (r.step 8) ∧
      Echoes printed (r.echo 8) := by
  have hlength := hed.length
  have hshort := hed.short
  have hkey : e.key h 8 = if e.i ≠ 0 then some ({ e with i := e.i - 1 }, [.backspace])
      else some (e, []) := rfl
  have hstep : r.step 8 = { r with line := r.line.dropLast } := rfl
  have hecho : r.echo 8 = if r.line = [] then [] else [8] := rfl
  have htake : r.line.dropLast = r.line.take (r.line.length - 1) := List.dropLast_eq_take
  rw [hkey, hstep, hecho]
  by_cases hnil : r.line = []
  · have hzero : e.i = 0 := by rw [hlength, hnil, List.length_nil]
    have hsame : r.line.dropLast = r.line := by rw [hnil, List.dropLast_nil]
    refine ⟨e, [], if_neg (not_not_intro hzero), ?_, ?_⟩
    · rw [hsame]
      exact hed
    · rw [if_pos hnil]
      exact .nil
  · have hpos := List.length_pos_iff.mpr hnil
    refine ⟨{ e with i := e.i - 1 }, [.backspace], if_pos (by omega), ?_, ?_⟩
    · refine { hed with length := ?_, short := ?_, begins := ?_, nonzero := ?_ }
      · rw [List.length_dropLast, hlength]
      · rw [List.length_dropLast]
        omega
      · rw [htake]
        exact hed.begins.take _
      · exact fun hmem ↦ hed.nonzero (List.mem_of_mem_dropLast hmem)
    · rw [if_neg hnil]
      exact Echoes.backspace

theorem Edits.type (hed : e.Edits h r) {c : ℕ} (hc : 0 < c) (hline : c ≠ 10) (hback : c ≠ 8)
    (harrow : ¬ (c = KDB_KEY_UP ∨ c = KDB_KEY_DOWN)) :
    ∃ e' printed, e.key h c = some (e', printed) ∧ e'.Edits h (r.step c) ∧
      Echoes printed (r.echo c) := by
  obtain ⟨hup, hdown⟩ := not_or.mp harrow
  have hlength := hed.length
  rw [LineEditor.key, if_neg hback, if_neg harrow, Reference.step, if_neg hline, if_neg hback,
    if_neg hup, if_neg hdown, Reference.echo, if_neg hline, if_neg hback, if_neg harrow]
  have hiff : c < 128 ∧ e.i < LINE_SIZE - 1 ↔ c < 128 ∧ r.line.length < 79 := by
    rw [hlength]
    rfl
  by_cases hfits : c < 128 ∧ r.line.length < 79
  · rw [if_pos (hiff.mpr hfits), if_pos hfits, if_pos hfits, hed.store]
    refine ⟨_, _, rfl, ?_, Echoes.char hfits.1⟩
    refine { hed with length := ?_, short := ?_, begins := hed.begins.append _, nonzero := ?_ }
    · rw [List.length_append, List.length_singleton, hlength]
    · rw [List.length_append, List.length_singleton]
      omega
    · have hnz : (0 : UInt8) ≠ UInt8.ofNat c := by
        intro heq
        have hzero : (0 : ℕ) = c % 2 ^ 8 := by simpa using congrArg UInt8.toNat heq
        omega
      simp [hed.nonzero, hnz]
  · rw [if_neg (hiff.not.mpr hfits), if_neg hfits, if_neg hfits]
    exact ⟨e, [], rfl, hed, .nil⟩

/-- One key, other than a newline. -/
theorem Edits.key (hed : e.Edits h r) (hr : h.Records r.recorded) {c : ℕ} (hc : 0 < c)
    (hline : c ≠ 10) :
    ∃ e' printed, e.key h c = some (e', printed) ∧ e'.Edits h (r.step c) ∧
      Echoes printed (r.echo c) := by
  by_cases harrow : c = KDB_KEY_UP ∨ c = KDB_KEY_DOWN
  · exact hed.arrow hr harrow
  by_cases hback : c = 8
  · subst hback
    exact hed.erase
  · exact hed.type hc hline hback harrow

end LineEditor

namespace KdbSession

/-- The session is where the editor of reference is. -/
structure Follows (s : KdbSession) (r : Reference) : Prop where
  history : s.history.Records r.recorded
  editor : s.editor.Edits s.history r
  returned : List.Forall₂ IsLine s.returned r.returned

/-- A new line is empty and not from the history. -/
theorem edits_start (buf : CharArray) (h : KdbHistory) (hline : r.line = []) (hback : r.back = 0) :
    (LineEditor.start buf).Edits h r :=
  { length := by rw [hline]; rfl
    short := by rw [hline]; exact Nat.zero_le _
    begins := by rw [hline]; exact fun _ hj ↦ absurd hj (Nat.not_lt_zero _)
    nonzero := by rw [hline]; exact List.not_mem_nil
    hpos := by rw [hback]; rfl
    back := by rw [hback]; exact Nat.zero_le _ }

theorem follows_initial (buf : CharArray) : (initial buf).Follows .initial :=
  { history := KdbHistory.records_initial
    editor := edits_start buf _ rfl rfl
    returned := .nil }

theorem Follows.step {s : KdbSession} (hs : s.Follows r) (k : KdbKey) :
    ∃ s' printed, s.step k = some (s', printed) ∧ s'.Follows (r.step k.code) ∧
      Echoes printed (r.echo k.code) := by
  rw [KdbSession.step]
  by_cases hline : k.code = 10
  · obtain ⟨buf, hstore, hbuf⟩ := hs.editor.finish
    obtain ⟨history, hadd, hrecords⟩ := hs.history.add hbuf
    refine ⟨{ history, editor := .start k.next, returned := s.returned ++ [buf] }, [.newline],
      ?_, ?_, ?_⟩
    · rw [if_pos hline, hstore, Option.bind_eq_bind, Option.bind_some, hadd]
      rfl
    · rw [hline]
      exact
        { history := hrecords
          editor := edits_start k.next _ rfl rfl
          returned := List.rel_append hs.returned (.cons hbuf .nil) }
    · rw [hline]
      exact Echoes.newline
  · obtain ⟨editor, printed, hkey, hedits, hechoes⟩ := hs.editor.key hs.history k.code_pos hline
    obtain ⟨hrecorded, hreturned⟩ := r.step_kept hline
    refine ⟨{ s with editor }, printed, ?_, ?_, hechoes⟩
    · rw [if_neg hline, hkey]
      rfl
    · refine { history := ?_, editor := hedits, returned := ?_ }
      · rw [hrecorded]
        exact hs.history
      · rw [hreturned]
        exact hs.returned

theorem Follows.run {s : KdbSession} (hs : s.Follows r) (keys : List KdbKey) :
    ∃ s', s.run keys = some s' ∧ s'.Follows (r.run keys) := by
  induction keys generalizing s r with
  | nil => exact ⟨s, rfl, hs⟩
  | cons k keys ih =>
      obtain ⟨s', printed, hstep, hs', -⟩ := hs.step k
      obtain ⟨s'', hrun, hs''⟩ := ih hs'
      refine ⟨s'', ?_, hs''⟩
      rw [run, List.foldlM_cons, hstep]
      exact hrun

/-- Whatever keys come, no access leaves an array, and the lines returned, the line in the
buffer and the history are those of the editor of reference. -/
theorem kdb_session (buf : CharArray) (keys : List KdbKey) :
    ∃ s, (initial buf).run keys = some s ∧
      List.Forall₂ IsLine s.returned (Reference.initial.run keys).returned ∧
      s.editor.i = (Reference.initial.run keys).line.length ∧
      (Reference.initial.run keys).line.length ≤ 79 ∧
      Begins s.editor.buf (Reference.initial.run keys).line ∧
      s.history.histCount = min HIST_SIZE (Reference.initial.run keys).recorded.length ∧
      ∀ k < s.history.histCount, ∃ idx line, s.history.histGet k = some idx ∧
        (Reference.initial.run keys).recorded[k]? = some line ∧ IsLine (s.history.hist idx) line := by
  obtain ⟨s, hrun, hs⟩ := (follows_initial buf).run keys
  exact ⟨s, hrun, hs.returned, hs.editor.length, hs.editor.short, hs.editor.begins,
    hs.history.count, fun k hk ↦ hs.history.get hk⟩

end KdbSession

end EclipseOS
