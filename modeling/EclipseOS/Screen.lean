import EclipseOS.Terminal

/-!
# The screen as a window

The terminal shows 25 rows of a grid that grows downwards without end.  The
window slides down by one row when the cursor would leave it, and what is above
the window is no longer reached.
-/

namespace EclipseOS

/-- The colour that `terminal_initialize` sets. -/
def screenColor : UInt8 := vgaEntryColor vgaColorLightGrey vgaColorBlack

structure Screen where
  cell : ℕ → ℕ → UInt16
  /-- The first row of the window. -/
  top : ℕ
  row : ℕ
  column : ℕ
  /-- The row of the last call that set the anchor. -/
  anchor : ℕ

inductive TerminalCall
  | putchar (c : UInt8)
  | setAnchor
  | clearToAnchor
  | clear

namespace Screen

def blank : UInt16 := vgaEntry 32 screenColor

def initial : Screen := { cell := fun _ _ ↦ blank, top := 0, row := 0, column := 0, anchor := 0 }

def write (s : Screen) (y x : ℕ) (entry : UInt16) : Screen :=
  { s with cell := fun y' x' ↦ if y' = y ∧ x' = x then entry else s.cell y' x' }

/-- The cursor goes to the next row, and the window follows it. -/
def nextRow (s : Screen) : Screen :=
  { s with
    row := s.row + 1
    column := 0
    top := if s.row + 1 = s.top + vgaHeight then s.top + 1 else s.top }

def nextColumn (s : Screen) : Screen :=
  if s.column + 1 = vgaWidth then s.nextRow else { s with column := s.column + 1 }

def glyph (s : Screen) (uc : UInt8) : Screen :=
  (s.write s.row s.column (vgaEntry uc screenColor)).nextColumn

/-- The cursor goes to a cell and the cell is erased. -/
def eraseAt (s : Screen) (y x : ℕ) : Screen := { s.write y x blank with row := y, column := x }

/-- Nothing happens at the top left of the window. -/
def backspace (s : Screen) : Screen :=
  if 0 < s.column then s.eraseAt s.row (s.column - 1)
  else if s.top < s.row then s.eraseAt (s.row - 1) (vgaWidth - 1)
  else s

def putchar (s : Screen) (c : UInt8) : Screen :=
  if c = 10 then s.nextRow
  else if c = 8 then s.backspace
  else if c = 9 then (((s.glyph 32).glyph 32).glyph 32).glyph 32
  else s.glyph c

/-- All rows from `first` on are blank. -/
def clearFrom (s : Screen) (first : ℕ) : Screen :=
  { s with
    cell := fun y x ↦ if first ≤ y then blank else s.cell y x
    row := first
    column := 0 }

def call (s : Screen) : TerminalCall → Screen
  | .putchar c => s.putchar c
  | .setAnchor => { s with anchor := s.row }
  | .clearToAnchor => s.clearFrom (max s.anchor s.top)
  | .clear => s.clearFrom s.top

def run (s : Screen) (calls : List TerminalCall) : Screen := calls.foldl call s

end Screen

namespace Terminal

def call (t : Terminal) : TerminalCall → Option Terminal
  | .putchar c => t.terminalPutchar c
  | .setAnchor => some t.terminalSetAnchor
  | .clearToAnchor => t.terminalClearToAnchor
  | .clear => t.terminalClear

def run (t : Terminal) (calls : List TerminalCall) : Option Terminal := calls.foldlM call t

/-- Before `terminal_initialize`: static variables are zero and the video memory has
any content. -/
def atBoot (memory : ℕ → UInt16) (cursor : ℕ) : Terminal :=
  { terminalRow := 0, terminalColumn := 0, terminalColor := 0, terminalBuffer := memory,
    terminalAnchor := 0, cursor }

variable {t t' : Terminal} {s : Screen}

/-- The terminal shows the window of the screen. -/
structure Shows (t : Terminal) (s : Screen) : Prop where
  color : t.terminalColor = screenColor
  row : s.row = s.top + t.terminalRow
  row_lt : t.terminalRow < vgaHeight
  column : t.terminalColumn = s.column
  column_lt : s.column < vgaWidth
  window : ∀ y < vgaHeight, ∀ x < vgaWidth,
    t.terminalBuffer (y * vgaWidth + x) = s.cell (s.top + y) x
  anchor : s.top + t.terminalAnchor = max s.anchor s.top
  anchor_lt : t.terminalAnchor < vgaHeight
  below : ∀ y x, s.top + vgaHeight ≤ y → s.cell y x = Screen.blank

/-- Cells are numbered row by row. -/
theorem cell_inj {y x y' x' : ℕ} (hx : x < vgaWidth) (hx' : x' < vgaWidth) :
    y * vgaWidth + x = y' * vgaWidth + x' ↔ y = y' ∧ x = x' := by
  simp only [vgaWidth] at hx hx' ⊢
  omega

theorem cell_lt {y x : ℕ} (hy : y < vgaHeight) (hx : x < vgaWidth) :
    y * vgaWidth + x < vgaHeight * vgaWidth := by
  simp only [vgaHeight, vgaWidth] at hy hx ⊢
  omega

theorem Shows.write {y x : ℕ} (h : Shows t s) (uc : UInt8) (hy : y < vgaHeight)
    (hx : x < vgaWidth) :
    ∃ t', t.terminalPutentryat uc t.terminalColor x y = some t' ∧
      Shows t' (s.write (s.top + y) x (vgaEntry uc screenColor)) ∧
      t' = t.withBuffer t'.terminalBuffer := by
  refine ⟨t.withBuffer (Function.update t.terminalBuffer (y * vgaWidth + x)
    (vgaEntry uc t.terminalColor)), store_of_lt (cell_lt hy hx), ?_, rfl⟩
  refine { h with window := fun y' hy' x' hx' ↦ ?_, below := fun y' x' (hy' : _ ≤ y') ↦ ?_ }
  · simp only [Screen.write, withBuffer, h.color, Function.update_apply, cell_inj hx' hx,
      Nat.add_right_inj, h.window y' hy' x' hx']
  · have hne : y' ≠ s.top + y := by
      simp only [Screen.write] at hy'
      omega
    simp only [Screen.write, hne, false_and, if_false]
    exact h.below y' x' hy'

/-- The window after a scroll. -/
theorem scrolled_window (h : ∀ y < vgaHeight, ∀ x < vgaWidth,
      t.terminalBuffer (y * vgaWidth + x) = s.cell (s.top + y) x)
    (hbelow : ∀ y x, s.top + vgaHeight ≤ y → s.cell y x = Screen.blank) :
    ∀ y < vgaHeight, ∀ x < vgaWidth,
      scrolled t.terminalBuffer Screen.blank (y * vgaWidth + x) = s.cell (s.top + 1 + y) x := by
  intro y hy x hx
  have hlt := cell_lt hy hx
  by_cases hlast : y = vgaHeight - 1
  · have hin : (vgaHeight - 1) * vgaWidth ≤ y * vgaWidth + x := by
      rw [hlast]
      exact Nat.le_add_right _ _
    rw [scrolled, filled, if_pos ⟨hin, hlt⟩, hbelow]
    simp only [vgaHeight] at hlast ⊢
    omega
  · have hout : y * vgaWidth + x < (vgaHeight - 1) * vgaWidth := by
      simp only [vgaHeight, vgaWidth] at hlast hy hx ⊢
      omega
    have hnext : y * vgaWidth + x + vgaWidth = (y + 1) * vgaWidth + x := by
      rw [Nat.add_one_mul, Nat.add_right_comm]
    rw [scrolled, filled, if_neg (by omega), slid, if_pos hout, hnext,
      h (y + 1) (by simp only [vgaHeight] at hlast hy ⊢; omega) x hx]
    congr 1
    omega

theorem Shows.nextRow (h : Shows t s) :
    ∃ t', Terminal.nextRow { t with terminalColumn := 0 } = some t' ∧ Shows t' s.nextRow := by
  have hrow := h.row
  have hlt := h.row_lt
  have hanchor := h.anchor
  have hanchor' := h.anchor_lt
  by_cases hfull : t.terminalRow + 1 = vgaHeight
  · have hslide : s.row + 1 = s.top + vgaHeight := by omega
    refine ⟨{ t with
      terminalRow := vgaHeight - 1, terminalColumn := 0
      terminalBuffer := scrolled t.terminalBuffer (vgaEntry 32 t.terminalColor)
      terminalAnchor := t.terminalAnchor - 1 }, ?_, ?_⟩
    · rw [Terminal.nextRow]
      simp only [hfull, if_true, terminalScroll_eq, Option.bind_eq_bind, Option.bind_some,
        Option.pure_def]
    · have hwindow := scrolled_window h.window h.below
      rw [Screen.blank, ← h.color] at hwindow
      refine
        { color := h.color
          row := ?_
          row_lt := Nat.lt_succ_self (vgaHeight - 1)
          column := rfl
          column_lt := Nat.succ_pos (vgaWidth - 1)
          window := ?_
          anchor := ?_
          anchor_lt := Nat.lt_of_le_of_lt (Nat.sub_le _ _) h.anchor_lt
          below := ?_ }
      · have htop : s.nextRow.top = s.top + 1 := if_pos hslide
        rw [htop]
        simp only [Screen.nextRow, vgaHeight] at hslide ⊢
        omega
      · simp only [Screen.nextRow, if_pos hslide]
        exact hwindow
      · simp only [Screen.nextRow, if_pos hslide]
        omega
      · intro y x hy
        simp only [Screen.nextRow, if_pos hslide] at hy ⊢
        exact h.below y x (by omega)
  · have hstay : s.row + 1 ≠ s.top + vgaHeight := by omega
    refine ⟨{ t with terminalRow := t.terminalRow + 1, terminalColumn := 0 }, if_neg hfull, ?_⟩
    refine
      { h with
        row := ?_
        row_lt := Nat.lt_of_le_of_ne hlt hfull
        column := rfl
        column_lt := Nat.succ_pos (vgaWidth - 1)
        window := ?_
        anchor := ?_
        below := ?_ }
    · simp only [Screen.nextRow, if_neg hstay]
      omega
    · simpa only [Screen.nextRow, if_neg hstay] using h.window
    · simpa only [Screen.nextRow, if_neg hstay] using h.anchor
    · simpa only [Screen.nextRow, if_neg hstay] using h.below

/-- The hardware cursor is where the next character goes. -/
def CursorShown (t : Terminal) : Prop := t.cursor = t.terminalRow * vgaWidth + t.terminalColumn

/-- The terminal after a call, and what is known of it. -/
def Simulates (result : Option Terminal) (s : Screen) : Prop :=
  ∃ t, result = some t ∧ t.Shows s ∧ t.CursorShown

theorem Shows.updateCursor (h : Shows t s) :
    t.terminalUpdateCursor.Shows s ∧ t.terminalUpdateCursor.CursorShown := by
  refine ⟨{ h with }, ?_⟩
  have hlt := cell_lt h.row_lt h.column_lt
  rw [← h.column] at hlt
  have hsmall : vgaHeight * vgaWidth < 2 ^ 16 := by decide
  exact Nat.mod_eq_of_lt (Nat.lt_trans hlt hsmall)

theorem Shows.newline (h : Shows t s) : Simulates t.newline s.nextRow := by
  obtain ⟨t', hrun, hshows⟩ := h.nextRow
  refine ⟨t'.terminalUpdateCursor, ?_, hshows.updateCursor⟩
  rw [Terminal.newline, hrun]
  rfl

/-- The cursor may go to any cell of the window. -/
theorem Shows.moveTo {y x : ℕ} (h : Shows t s) (hy : y < vgaHeight) (hx : x < vgaWidth) :
    Shows { t with terminalRow := y, terminalColumn := x }
      { s with row := s.top + y, column := x } :=
  { h with row := rfl, row_lt := hy, column := rfl, column_lt := hx }

theorem Shows.nextColumn (h : Shows t s) :
    ∃ t', t.nextColumn = some t' ∧ t'.Shows s.nextColumn := by
  rw [Terminal.nextColumn, Screen.nextColumn, ← h.column]
  by_cases hwrap : t.terminalColumn + 1 = vgaWidth
  · obtain ⟨t', hrun, hshows⟩ := h.nextRow
    refine ⟨t', ?_, ?_⟩
    · rw [← hrun]
      exact if_pos hwrap
    · rw [if_pos hwrap]
      exact hshows
  · have hlt := h.column_lt
    rw [← h.column] at hlt
    have hmove := h.moveTo h.row_lt (Nat.lt_of_le_of_ne hlt hwrap)
    rw [← h.row] at hmove
    exact ⟨{ t with terminalColumn := t.terminalColumn + 1 }, if_neg hwrap, by rwa [if_neg hwrap]⟩

theorem Shows.glyph (h : Shows t s) (uc : UInt8) : Simulates (t.glyph uc) (s.glyph uc) := by
  obtain ⟨t', hput, hshows, -⟩ := h.write uc h.row_lt h.column_lt
  rw [← h.row, ← h.column] at hshows
  rw [← h.column] at hput
  obtain ⟨t'', hrun, hshows'⟩ := hshows.nextColumn
  refine ⟨t''.terminalUpdateCursor, ?_, ?_⟩
  · rw [Terminal.glyph, hput, Option.bind_eq_bind, Option.bind_some, hrun]
    rfl
  · rw [Screen.glyph, ← h.column]
    exact hshows'.updateCursor

theorem Shows.eraseAt {y x : ℕ} (h : Shows t s) (hy : y < vgaHeight) (hx : x < vgaWidth) :
    Simulates (erase { t with terminalRow := y, terminalColumn := x })
      (s.eraseAt (s.top + y) x) := by
  obtain ⟨t', hput, hshows, -⟩ := (h.moveTo hy hx).write 32 hy hx
  refine ⟨t'.terminalUpdateCursor, ?_, hshows.updateCursor⟩
  rw [erase, hput]
  rfl

/-- One cell back, to the end of the row above from column 0. -/
theorem Shows.backspace (h : Shows t s) (hc : t.CursorShown) :
    Simulates t.backspace s.backspace := by
  have hrow := h.row
  have hrow_lt := h.row_lt
  have hcolumn := h.column
  have hcolumn_lt := h.column_lt
  by_cases hpos : 0 < t.terminalColumn
  · have herase := h.eraseAt h.row_lt (x := t.terminalColumn - 1) (by omega)
    rw [Terminal.backspace, if_pos hpos, Screen.backspace, if_pos (hcolumn ▸ hpos), hrow, ← hcolumn]
    exact herase
  by_cases hdown : 0 < t.terminalRow
  · have herase := h.eraseAt (y := t.terminalRow - 1) (x := vgaWidth - 1) (by omega) (by decide)
    have habove : s.row - 1 = s.top + (t.terminalRow - 1) := by omega
    rw [Terminal.backspace, if_neg hpos, if_pos hdown, Screen.backspace,
      if_neg (by omega), if_pos (by omega), habove]
    exact herase
  · rw [Terminal.backspace, if_neg hpos, if_neg hdown, Screen.backspace, if_neg (by omega),
      if_neg (by omega)]
    exact ⟨t, rfl, h, hc⟩

theorem Shows.putchar (h : Shows t s) (hc : t.CursorShown) (c : UInt8) :
    Simulates (t.terminalPutchar c) (s.putchar c) := by
  rw [terminalPutchar, Screen.putchar]
  split
  · exact h.newline
  split
  · exact h.backspace hc
  split
  · obtain ⟨t₁, hrun₁, h₁, -⟩ := h.glyph 32
    obtain ⟨t₂, hrun₂, h₂, -⟩ := h₁.glyph 32
    obtain ⟨t₃, hrun₃, h₃, -⟩ := h₂.glyph 32
    obtain ⟨t₄, hrun₄, h₄, hc₄⟩ := h₃.glyph 32
    refine ⟨t₄, ?_, h₄, hc₄⟩
    simp [List.replicate, hrun₁, hrun₂, hrun₃, hrun₄]
  · exact h.glyph c

/-- The terminal after `clearRows`, with the cursor at the start of the first row. -/
def cleared (t : Terminal) (first : ℕ) : Terminal :=
  terminalUpdateCursor
    { t.withBuffer (filled t.terminalBuffer (first * vgaWidth) (vgaHeight * vgaWidth)
        (vgaEntry 32 t.terminalColor)) with
      terminalRow := first, terminalColumn := 0 }

theorem Shows.clearFrom {first : ℕ} (h : Shows t s) (hfirst : first < vgaHeight) :
    (t.cleared first).Shows (s.clearFrom (s.top + first)) ∧ (t.cleared first).CursorShown := by
  apply Shows.updateCursor
  refine
    { h with
      row := rfl
      row_lt := hfirst
      column := rfl
      column_lt := Nat.succ_pos (vgaWidth - 1)
      window := fun y hy x hx ↦ ?_
      below := fun y x hy ↦ ?_ }
  · have hlt := cell_lt hy hx
    have hiff : first * vgaWidth ≤ y * vgaWidth + x ↔ s.top + first ≤ s.top + y := by
      simp only [vgaWidth] at hx ⊢
      omega
    simp only [withBuffer, filled, hlt, and_true, hiff, Screen.clearFrom, h.color, Screen.blank,
      h.window y hy x hx]
  · simp only [Screen.clearFrom] at hy ⊢
    rw [if_pos (by omega)]

theorem Shows.call (h : Shows t s) (hc : t.CursorShown) (c : TerminalCall) :
    Simulates (t.call c) (s.call c) := by
  have hanchor := h.anchor
  cases c with
  | putchar c => exact h.putchar hc c
  | setAnchor =>
      refine ⟨t.terminalSetAnchor, rfl, ?_, hc⟩
      refine { h with anchor := ?_, anchor_lt := h.row_lt }
      have hrow := h.row
      simp only [terminalSetAnchor, Screen.call]
      omega
  | clearToAnchor =>
      refine ⟨t.cleared t.terminalAnchor, ?_, ?_⟩
      · rw [Terminal.call, terminalClearToAnchor, clearRows_eq (Nat.le_of_lt h.anchor_lt)]
        rfl
      · rw [Screen.call, ← hanchor]
        exact h.clearFrom h.anchor_lt
  | clear =>
      refine ⟨t.cleared 0, ?_, h.clearFrom (Nat.succ_pos (vgaHeight - 1))⟩
      rw [Terminal.call, terminalClear, clearRows_eq (Nat.zero_le vgaHeight)]
      rfl

theorem Shows.run (h : Shows t s) (hc : t.CursorShown) (calls : List TerminalCall) :
    Simulates (t.run calls) (s.run calls) := by
  induction calls generalizing t s with
  | nil => exact ⟨t, rfl, h, hc⟩
  | cons c calls ih =>
      obtain ⟨t', hcall, hshows, hc'⟩ := h.call hc c
      obtain ⟨t'', hrun, hfinal⟩ := ih hshows hc'
      exact ⟨t'', by rw [Terminal.run, List.foldlM_cons, hcall]; exact hrun, hfinal⟩

theorem initialize_shows (memory : ℕ → UInt16) (cursor : ℕ) :
    Simulates (atBoot memory cursor).terminalInitialize Screen.initial := by
  refine ⟨cleared { atBoot memory cursor with terminalColor := screenColor } 0, ?_, ?_⟩
  · rw [terminalInitialize, clearRows_eq (Nat.zero_le vgaHeight)]
    rfl
  · apply Shows.updateCursor
    refine
      { color := rfl
        row := rfl
        row_lt := Nat.succ_pos (vgaHeight - 1)
        column := rfl
        column_lt := Nat.succ_pos (vgaWidth - 1)
        window := fun y hy x hx ↦ ?_
        anchor := rfl
        anchor_lt := Nat.succ_pos (vgaHeight - 1)
        below := fun y x _ ↦ rfl }
    rw [Nat.zero_mul]
    exact if_pos ⟨Nat.zero_le _, cell_lt hy hx⟩

/-- From `terminal_initialize` on, no call leaves the buffer, and the buffer is the window
of the screen with its anchor. -/
theorem terminal_shows (memory : ℕ → UInt16) (cursor : ℕ) (calls : List TerminalCall) :
    ∃ t, ((atBoot memory cursor).terminalInitialize.bind fun t ↦ t.run calls) = some t ∧
      t.terminalRow < vgaHeight ∧ t.terminalColumn < vgaWidth ∧
      t.Shows (Screen.initial.run calls) ∧ t.CursorShown := by
  obtain ⟨t₀, hinit, h₀, hc₀⟩ := initialize_shows memory cursor
  obtain ⟨t, hrun, h, hc⟩ := h₀.run hc₀ calls
  refine ⟨t, by rw [hinit, Option.bind_some, hrun], h.row_lt, ?_, h, hc⟩
  rw [h.column]
  exact h.column_lt

end Terminal

end EclipseOS
