import Mathlib.Algebra.Group.Nat.Defs
import EclipseOS.Lib.Loops

/-!
# The terminal

The VGA text buffer has 25 rows of 80 cells.  Every access to it is checked
against its size here, so that a call has no result when it leaves the buffer.
The copy of every character to the serial port is left out.
-/

namespace EclipseOS

def vgaWidth : ℕ := 80

def vgaHeight : ℕ := 25

def vgaEntry (uc color : UInt8) : UInt16 := uc.toUInt16 ||| color.toUInt16 <<< 8

def vgaEntryColor (fg bg : UInt8) : UInt8 := fg ||| bg <<< 4

def vgaColorBlack : UInt8 := 0

def vgaColorLightGrey : UInt8 := 7

structure Terminal where
  terminalRow : ℕ
  terminalColumn : ℕ
  terminalColor : UInt8
  terminalBuffer : ℕ → UInt16
  terminalAnchor : ℕ
  /-- The position in the two cursor registers of the CRT controller. -/
  cursor : ℕ

namespace Terminal

def load (t : Terminal) (i : ℕ) : Option UInt16 :=
  if i < vgaHeight * vgaWidth then some (t.terminalBuffer i) else none

def store (t : Terminal) (i : ℕ) (entry : UInt16) : Option Terminal :=
  if i < vgaHeight * vgaWidth then
    some { t with terminalBuffer := Function.update t.terminalBuffer i entry }
  else none

def terminalUpdateCursor (t : Terminal) : Terminal :=
  { t with cursor := (t.terminalRow * vgaWidth + t.terminalColumn) % 2 ^ 16 }

def terminalSetAnchor (t : Terminal) : Terminal := { t with terminalAnchor := t.terminalRow }

def clearRow (t : Terminal) (y : ℕ) : Option Terminal :=
  (List.range vgaWidth).foldlM (fun t x ↦
    t.store (y * vgaWidth + x) (vgaEntry 32 t.terminalColor)) t

/-- The two loops that write spaces to all rows from `first` on. -/
def clearRows (t : Terminal) (first : ℕ) : Option Terminal :=
  (List.range' first (vgaHeight - first)).foldlM clearRow t

def terminalClearToAnchor (t : Terminal) : Option Terminal := do
  let t ← t.clearRows t.terminalAnchor
  return terminalUpdateCursor { t with terminalRow := t.terminalAnchor, terminalColumn := 0 }

def terminalClear (t : Terminal) : Option Terminal := do
  let t ← t.clearRows 0
  return terminalUpdateCursor { t with terminalRow := 0, terminalColumn := 0 }

def terminalInitialize (t : Terminal) : Option Terminal := do
  let t := { t with
    terminalRow := 0, terminalColumn := 0
    terminalColor := vgaEntryColor vgaColorLightGrey vgaColorBlack }
  let t ← t.clearRows 0
  return t.terminalUpdateCursor

def terminalPutentryat (t : Terminal) (c color : UInt8) (x y : ℕ) : Option Terminal :=
  t.store (y * vgaWidth + x) (vgaEntry c color)

/-- Row `x` takes the content of row `x + 1`. -/
def slideRow (t : Terminal) (x : ℕ) : Option Terminal :=
  (List.range vgaWidth).foldlM (fun t y ↦ do
    let entry ← t.load ((x + 1) * vgaWidth + y)
    t.store (x * vgaWidth + y) entry) t

def terminalScroll (t : Terminal) : Option Terminal := do
  let t ← (List.range (vgaHeight - 1)).foldlM slideRow t
  let t ← t.clearRow (vgaHeight - 1)
  return if 0 < t.terminalAnchor then { t with terminalAnchor := t.terminalAnchor - 1 } else t

/-- `++terminal_row`, which scrolls when the screen is full. -/
def nextRow (t : Terminal) : Option Terminal :=
  let t := { t with terminalRow := t.terminalRow + 1 }
  if t.terminalRow = vgaHeight then do
    let t ← t.terminalScroll
    return { t with terminalRow := vgaHeight - 1 }
  else some t

def newline (t : Terminal) : Option Terminal := do
  let t ← nextRow { t with terminalColumn := 0 }
  return t.terminalUpdateCursor

/-- A space at the cursor, which stays. -/
def erase (t : Terminal) : Option Terminal := do
  let t ← t.terminalPutentryat 32 t.terminalColor t.terminalColumn t.terminalRow
  return t.terminalUpdateCursor

def backspace (t : Terminal) : Option Terminal :=
  if 0 < t.terminalColumn then
    erase { t with terminalColumn := t.terminalColumn - 1 }
  else if 0 < t.terminalRow then
    erase { t with terminalRow := t.terminalRow - 1, terminalColumn := vgaWidth - 1 }
  else some t

/-- `++terminal_column`, which goes to the next row at the end of one. -/
def nextColumn (t : Terminal) : Option Terminal :=
  let t := { t with terminalColumn := t.terminalColumn + 1 }
  if t.terminalColumn = vgaWidth then nextRow { t with terminalColumn := 0 } else some t

def glyph (t : Terminal) (uc : UInt8) : Option Terminal := do
  let t ← t.terminalPutentryat uc t.terminalColor t.terminalColumn t.terminalRow
  let t ← t.nextColumn
  return t.terminalUpdateCursor

/-- A tab is four calls with a space, which is a glyph. -/
def terminalPutchar (t : Terminal) (c : UInt8) : Option Terminal :=
  if c = 10 then t.newline
  else if c = 8 then t.backspace
  else if c = 9 then (List.replicate 4 32).foldlM glyph t
  else t.glyph c

variable {t : Terminal} {b : ℕ → UInt16} {i lo hi first n : ℕ} {entry : UInt16}

/-- The cells `lo` to `hi - 1` hold `entry`. -/
def filled (b : ℕ → UInt16) (lo hi : ℕ) (entry : UInt16) : ℕ → UInt16 :=
  fun i ↦ if lo ≤ i ∧ i < hi then entry else b i

/-- The first `n` cells have taken what was one row further. -/
def slid (b : ℕ → UInt16) (n : ℕ) : ℕ → UInt16 :=
  fun i ↦ if i < n then b (i + vgaWidth) else b i

theorem load_of_lt (hi : i < vgaHeight * vgaWidth) : t.load i = some (t.terminalBuffer i) :=
  if_pos hi

theorem store_of_lt (hi : i < vgaHeight * vgaWidth) :
    t.store i entry = some { t with terminalBuffer := Function.update t.terminalBuffer i entry } :=
  if_pos hi

theorem filled_self : filled b lo lo entry = b := by
  funext i
  exact if_neg (by omega)

theorem filled_succ (h : lo ≤ hi) :
    Function.update (filled b lo hi entry) hi entry = filled b lo (hi + 1) entry := by
  funext i
  simp only [Function.update_apply, filled]
  grind

theorem slid_succ (b : ℕ → UInt16) (n : ℕ) :
    Function.update (slid b n) n (b (n + vgaWidth)) = slid b (n + 1) := by
  funext i
  simp only [Function.update_apply, slid]
  grind

/-- The terminal with another buffer. -/
def withBuffer (t : Terminal) (b : ℕ → UInt16) : Terminal := { t with terminalBuffer := b }

theorem withBuffer_self : t.withBuffer t.terminalBuffer = t := rfl

theorem store_filled (hlo : lo ≤ hi) (hhi : hi < vgaHeight * vgaWidth) :
    (t.withBuffer (filled b lo hi entry)).store hi entry =
      some (t.withBuffer (filled b lo (hi + 1) entry)) := by
  rw [store_of_lt hhi, ← filled_succ hlo]
  rfl

/-- One row of spaces. -/
theorem clearRow_eq (h : first ≤ n) (hn : n < vgaHeight) :
    (t.withBuffer (filled b (first * vgaWidth) (n * vgaWidth)
      (vgaEntry 32 t.terminalColor))).clearRow n =
    some (t.withBuffer
      (filled b (first * vgaWidth) ((n + 1) * vgaWidth) (vgaEntry 32 t.terminalColor))) := by
  have hfirst : first * vgaWidth ≤ n * vgaWidth := Nat.mul_le_mul_right vgaWidth h
  rw [Nat.add_one_mul]
  refine Loop.foldlM_range (n := vgaWidth) (f := fun x ↦ t.withBuffer
    (filled b (first * vgaWidth) (n * vgaWidth + x) (vgaEntry 32 t.terminalColor))) ?_
  intro x hx
  apply store_filled
  · omega
  · simp only [vgaHeight, vgaWidth] at hn hx ⊢
    omega

theorem clearRows_eq (h : first ≤ vgaHeight) :
    t.clearRows first = some (t.withBuffer
      (filled t.terminalBuffer (first * vgaWidth) (vgaHeight * vgaWidth)
        (vgaEntry 32 t.terminalColor))) := by
  let rows : ℕ → Terminal := fun y ↦
    t.withBuffer (filled t.terminalBuffer (first * vgaWidth) (y * vgaWidth) (vgaEntry 32 t.terminalColor))
  have hrow : ∀ y, first ≤ y → y < first + (vgaHeight - first) →
      clearRow (rows y) y = some (rows (y + 1)) := fun y hle hlt ↦ clearRow_eq hle (by omega)
  have hloop := Loop.foldlM_range' hrow
  dsimp only [rows] at hloop
  rw [Nat.add_sub_cancel' h, filled_self] at hloop
  exact hloop

/-- What a scroll does to the buffer. -/
def scrolled (b : ℕ → UInt16) (blank : UInt16) : ℕ → UInt16 :=
  filled (slid b ((vgaHeight - 1) * vgaWidth)) ((vgaHeight - 1) * vgaWidth)
    (vgaHeight * vgaWidth) blank

theorem store_slid (h : n + vgaWidth < vgaHeight * vgaWidth) :
    ((t.withBuffer (slid b n)).load (n + vgaWidth)).bind
      ((t.withBuffer (slid b n)).store n) = some (t.withBuffer (slid b (n + 1))) := by
  have hread : slid b n (n + vgaWidth) = b (n + vgaWidth) := if_neg (by omega)
  rw [load_of_lt h, Option.bind_some, store_of_lt (by omega), ← slid_succ, ← hread]
  rfl

theorem slideRow_eq (hn : n < vgaHeight - 1) :
    (t.withBuffer (slid b (n * vgaWidth))).slideRow n =
      some (t.withBuffer (slid b ((n + 1) * vgaWidth))) := by
  have hnext : ∀ y, (n + 1) * vgaWidth + y = n * vgaWidth + y + vgaWidth := by
    intro y
    rw [Nat.add_one_mul, Nat.add_right_comm]
  rw [Nat.add_one_mul]
  refine Loop.foldlM_range (n := vgaWidth)
    (f := fun y ↦ t.withBuffer (slid b (n * vgaWidth + y))) ?_
  intro y hy
  rw [hnext]
  apply store_slid
  simp only [vgaHeight, vgaWidth] at hn hy ⊢
  omega

theorem terminalScroll_eq :
    t.terminalScroll = some { t with
      terminalBuffer := scrolled t.terminalBuffer (vgaEntry 32 t.terminalColor)
      terminalAnchor := t.terminalAnchor - 1 } := by
  let rows : ℕ → Terminal := fun x ↦ t.withBuffer (slid t.terminalBuffer (x * vgaWidth))
  have hrow : ∀ x < vgaHeight - 1, slideRow (rows x) x = some (rows (x + 1)) :=
    fun x hx ↦ slideRow_eq hx
  have hrows := Loop.foldlM_range hrow
  dsimp only [rows] at hrows
  have hstart : slid t.terminalBuffer (0 * vgaWidth) = t.terminalBuffer := by
    funext i
    simp [slid]
  have hlast := clearRow_eq (t := t) (b := slid t.terminalBuffer ((vgaHeight - 1) * vgaWidth))
    (Nat.le_refl (vgaHeight - 1)) (by decide)
  rw [hstart, withBuffer_self] at hrows
  rw [filled_self] at hlast
  have hbuffer : filled (slid t.terminalBuffer ((vgaHeight - 1) * vgaWidth))
      ((vgaHeight - 1) * vgaWidth) ((vgaHeight - 1 + 1) * vgaWidth) (vgaEntry 32 t.terminalColor) =
      scrolled t.terminalBuffer (vgaEntry 32 t.terminalColor) := rfl
  rw [hbuffer] at hlast
  rw [terminalScroll, hrows, Option.bind_eq_bind, Option.bind_some, hlast,
    Option.bind_some]
  by_cases ha : 0 < t.terminalAnchor
  · simp [ha, withBuffer]
  · simp [Nat.eq_zero_of_not_pos ha, withBuffer]

end Terminal

end EclipseOS
