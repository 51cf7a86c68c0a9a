import EclipseOS.Screen

/-!
# Text on the screen

Cells are numbered row by row.  As long as the screen does not scroll, a text is
a run of cells and the cursor is the cell after it.
-/

namespace EclipseOS

namespace Terminal

variable {t t' : Terminal} {p : ℕ} {text : List UInt8}

/-- The number of the cell under the cursor. -/
def position (t : Terminal) : ℕ := t.terminalRow * vgaWidth + t.terminalColumn

structure InWindow (t : Terminal) : Prop where
  row : t.terminalRow < vgaHeight
  column : t.terminalColumn < vgaWidth
  color : t.terminalColor = screenColor

theorem InWindow.position_lt (h : t.InWindow) : t.position < vgaHeight * vgaWidth :=
  cell_lt h.row h.column

/-- From cell `p` on the screen shows a text and then blanks, and the cursor is after the
text. -/
structure ShowsText (t : Terminal) (p : ℕ) (text : List UInt8) : Prop extends InWindow t where
  cursor : t.position = p + text.length
  cells : ∀ j, p + j < vgaHeight * vgaWidth →
    t.terminalBuffer (p + j) = vgaEntry (text[j]?.getD 32) screenColor

/-- The next column, on a screen that may scroll. -/
theorem InWindow.nextColumn (h : t.InWindow) :
    ∃ t', t.nextColumn = some t' ∧ t'.InWindow ∧
      t'.terminalColumn = (t.terminalColumn + 1) % vgaWidth ∧
      (t.position + 1 < vgaHeight * vgaWidth →
        t'.position = t.position + 1 ∧ t'.terminalBuffer = t.terminalBuffer) := by
  have hrow := h.row
  have hcolumn := h.column
  rw [Terminal.nextColumn]
  by_cases hwrap : t.terminalColumn + 1 = vgaWidth
  · have hzero : (t.terminalColumn + 1) % vgaWidth = 0 := by rw [hwrap, Nat.mod_self]
    have hnext : t.position + 1 = (t.terminalRow + 1) * vgaWidth := by
      rw [position, Nat.add_assoc, hwrap, Nat.add_one_mul]
    by_cases hfull : t.terminalRow + 1 = vgaHeight
    · refine ⟨{ t with
        terminalRow := vgaHeight - 1, terminalColumn := 0
        terminalBuffer := scrolled t.terminalBuffer (vgaEntry 32 t.terminalColor)
        terminalAnchor := t.terminalAnchor - 1 }, ?_, ?_, hzero.symm, ?_⟩
      · simp only [hwrap, if_true, Terminal.nextRow, hfull, terminalScroll_eq, Option.bind_eq_bind,
          Option.bind_some, Option.pure_def]
      · exact ⟨Nat.lt_succ_self (vgaHeight - 1), Nat.succ_pos (vgaWidth - 1), h.color⟩
      · intro hfits
        rw [hnext, hfull] at hfits
        exact absurd hfits (Nat.lt_irrefl _)
    · refine ⟨{ t with terminalRow := t.terminalRow + 1, terminalColumn := 0 }, ?_, ?_, hzero.symm, ?_⟩
      · simp only [hwrap, if_true, Terminal.nextRow, hfull, if_false]
      · exact ⟨Nat.lt_of_le_of_ne hrow hfull, Nat.succ_pos (vgaWidth - 1), h.color⟩
      · exact fun _ ↦ ⟨hnext.symm, rfl⟩
  · have hlt : t.terminalColumn + 1 < vgaWidth := Nat.lt_of_le_of_ne hcolumn hwrap
    refine ⟨{ t with terminalColumn := t.terminalColumn + 1 }, if_neg hwrap, ⟨hrow, hlt, h.color⟩,
      (Nat.mod_eq_of_lt hlt).symm, fun _ ↦ ⟨rfl, rfl⟩⟩

theorem InWindow.glyph (h : t.InWindow) (uc : UInt8) :
    ∃ t', t.glyph uc = some t' ∧ t'.InWindow ∧
      t'.terminalColumn = (t.terminalColumn + 1) % vgaWidth ∧
      (t.position + 1 < vgaHeight * vgaWidth → t'.position = t.position + 1 ∧
        t'.terminalBuffer =
          Function.update t.terminalBuffer t.position (vgaEntry uc screenColor)) := by
  have hput : t.terminalPutentryat uc t.terminalColor t.terminalColumn t.terminalRow =
      some (t.withBuffer (Function.update t.terminalBuffer t.position (vgaEntry uc t.terminalColor))) :=
    store_of_lt h.position_lt
  obtain ⟨t', hrun, hin, hcolumn, hstay⟩ := InWindow.nextColumn
    (t := t.withBuffer (Function.update t.terminalBuffer t.position (vgaEntry uc t.terminalColor)))
    ⟨h.row, h.column, h.color⟩
  refine ⟨t'.terminalUpdateCursor, ?_, ⟨hin.row, hin.column, hin.color⟩, hcolumn, ?_⟩
  · rw [Terminal.glyph, hput, Option.bind_eq_bind, Option.bind_some, hrun]
    rfl
  · rw [← h.color]
    exact hstay

theorem ShowsText.glyph (h : t.ShowsText p text) (uc : UInt8)
    (hfits : p + text.length + 1 < vgaHeight * vgaWidth) :
    ∃ t', t.glyph uc = some t' ∧ t'.ShowsText p (text ++ [uc]) := by
  obtain ⟨t', hrun, hin, -, hstay⟩ := h.toInWindow.glyph uc
  have hcursor := h.cursor
  obtain ⟨hposition, hbuffer⟩ := hstay (by omega)
  refine ⟨t', hrun, hin, ?_, fun j hj ↦ ?_⟩
  · rw [hposition, hcursor, List.length_append, List.length_singleton, Nat.add_assoc]
  · rw [hbuffer, hcursor, Function.update_apply]
    by_cases hlast : j = text.length
    · rw [if_pos (by omega), hlast, List.getElem?_concat_length, Option.getD_some]
    · rw [if_neg (by omega), h.cells j hj]
      obtain hlt | hgt : j < text.length ∨ text.length < j := by omega
      · rw [List.getElem?_append_left hlt]
      · rw [List.getElem?_eq_none (by omega),
          List.getElem?_eq_none (by rw [List.length_append, List.length_singleton]; omega)]

/-- The last character is erased. -/
theorem ShowsText.backspace (h : t.ShowsText p text) (hne : text ≠ []) :
    ∃ t', t.backspace = some t' ∧ t'.ShowsText p text.dropLast := by
  have hpos := List.length_pos_iff.mpr hne
  have hcursor := h.cursor
  have hrow := h.row
  have hcolumn := h.column
  -- the cursor goes to the cell before it
  have hback : ∃ y x, y < vgaHeight ∧ x < vgaWidth ∧ y * vgaWidth + x + 1 = t.position ∧
      t.backspace = erase { t with terminalRow := y, terminalColumn := x } := by
    by_cases hleft : 0 < t.terminalColumn
    · refine ⟨t.terminalRow, t.terminalColumn - 1, hrow, by omega, ?_, ?_⟩
      · rw [position]
        omega
      · rw [Terminal.backspace, if_pos hleft]
    · have hup : 0 < t.terminalRow := by
        by_contra hzero
        rw [position, Nat.eq_zero_of_not_pos hleft, Nat.eq_zero_of_not_pos hzero] at hcursor
        omega
      refine ⟨t.terminalRow - 1, vgaWidth - 1, by omega, Nat.lt_succ_self (vgaWidth - 1), ?_, ?_⟩
      · simp only [position, vgaWidth] at hcolumn hleft ⊢
        omega
      · rw [Terminal.backspace, if_neg hleft, if_pos hup]
  obtain ⟨y, x, hy, hx, hcell, hrun⟩ := hback
  refine ⟨terminalUpdateCursor
    (withBuffer { t with terminalRow := y, terminalColumn := x }
      (Function.update t.terminalBuffer (y * vgaWidth + x) (vgaEntry 32 t.terminalColor))),
    ?_, ⟨hy, hx, h.color⟩, ?_, fun j hj ↦ ?_⟩
  · rw [hrun, erase, terminalPutentryat, store_of_lt (cell_lt hy hx)]
    rfl
  · have hgoal : y * vgaWidth + x = p + text.dropLast.length := by
      rw [List.length_dropLast]
      omega
    exact hgoal
  · have hbuffer : (terminalUpdateCursor
        (withBuffer { t with terminalRow := y, terminalColumn := x }
          (Function.update t.terminalBuffer (y * vgaWidth + x)
            (vgaEntry 32 t.terminalColor)))).terminalBuffer =
        Function.update t.terminalBuffer (y * vgaWidth + x) (vgaEntry 32 t.terminalColor) := rfl
    rw [hbuffer, Function.update_apply, List.getElem?_dropLast]
    by_cases hlast : j = text.length - 1
    · rw [if_pos (by omega), if_neg (by omega), Option.getD_none, h.color]
    · rw [if_neg (by omega), h.cells j hj]
      obtain hlt | hgt : j < text.length - 1 ∨ text.length ≤ j := by omega
      · rw [if_pos hlt]
      · rw [if_neg (by omega), List.getElem?_eq_none (by omega)]

/-- The cells of a character. -/
def cellsOf (c : UInt8) : List UInt8 := if c = 9 then [32, 32, 32, 32] else [c]

def expand (line : List UInt8) : List UInt8 := line.flatMap cellsOf

/-- A character that is neither a backspace nor a newline. -/
def Visible (c : UInt8) : Prop := c ≠ 8 ∧ c ≠ 10

theorem length_cellsOf (c : UInt8) : (cellsOf c).length = if c = 9 then 4 else 1 := by
  rw [cellsOf]
  split <;> rfl

theorem ShowsText.putchar {c : UInt8} (h : t.ShowsText p text) (hc : Visible c)
    (hfits : p + text.length + (cellsOf c).length < vgaHeight * vgaWidth) :
    ∃ t', t.terminalPutchar c = some t' ∧ t'.ShowsText p (text ++ cellsOf c) := by
  rw [terminalPutchar, if_neg hc.2, if_neg hc.1, cellsOf]
  rw [length_cellsOf] at hfits
  split_ifs at hfits ⊢
  · obtain ⟨t₁, hrun₁, h₁⟩ := h.glyph 32 (by omega)
    obtain ⟨t₂, hrun₂, h₂⟩ := h₁.glyph 32 (by rw [List.length_append, List.length_singleton]; omega)
    obtain ⟨t₃, hrun₃, h₃⟩ := h₂.glyph 32 (by simp only [List.length_append, List.length_singleton]; omega)
    obtain ⟨t₄, hrun₄, h₄⟩ := h₃.glyph 32 (by simp only [List.length_append, List.length_singleton]; omega)
    refine ⟨t₄, by simp [List.replicate, hrun₁, hrun₂, hrun₃, hrun₄], ?_⟩
    simpa using h₄
  · exact h.glyph c hfits

theorem InWindow.putchar {c : UInt8} (h : t.InWindow) (hc : Visible c) :
    ∃ t', t.terminalPutchar c = some t' ∧ t'.InWindow ∧
      t'.terminalColumn = (t.terminalColumn + (cellsOf c).length) % vgaWidth := by
  rw [terminalPutchar, if_neg hc.2, if_neg hc.1, length_cellsOf]
  split_ifs
  · obtain ⟨t₁, hrun₁, h₁, hc₁, -⟩ := h.glyph 32
    obtain ⟨t₂, hrun₂, h₂, hc₂, -⟩ := h₁.glyph 32
    obtain ⟨t₃, hrun₃, h₃, hc₃, -⟩ := h₂.glyph 32
    obtain ⟨t₄, hrun₄, h₄, hc₄, -⟩ := h₃.glyph 32
    refine ⟨t₄, by simp [List.replicate, hrun₁, hrun₂, hrun₃, hrun₄], h₄, ?_⟩
    rw [hc₄, hc₃, hc₂, hc₁]
    simp only [vgaWidth]
    omega
  · obtain ⟨t', hrun, h', hc', -⟩ := h.glyph c
    exact ⟨t', hrun, h', hc'⟩

/-- `terminal_write`. -/
def terminalWrite (t : Terminal) (data : List UInt8) : Option Terminal :=
  data.foldlM terminalPutchar t

theorem terminalWrite_cons {c : UInt8} {data : List UInt8} (h : t.terminalPutchar c = some t') :
    t.terminalWrite (c :: data) = t'.terminalWrite data := by
  rw [terminalWrite, List.foldlM_cons, h]
  rfl

theorem terminalWrite_append {data data' : List UInt8} (h : t.terminalWrite data = some t') :
    t.terminalWrite (data ++ data') = t'.terminalWrite data' := by
  rw [terminalWrite, List.foldlM_append]
  rw [terminalWrite] at h
  rw [h]
  rfl

theorem ShowsText.write {line : List UInt8} (h : t.ShowsText p text) (hline : ∀ c ∈ line, Visible c)
    (hfits : p + text.length + (expand line).length < vgaHeight * vgaWidth) :
    ∃ t', t.terminalWrite line = some t' ∧ t'.ShowsText p (text ++ expand line) := by
  induction line generalizing t text with
  | nil => exact ⟨t, rfl, by rwa [expand, List.flatMap_nil, List.append_nil]⟩
  | cons c line ih =>
      obtain ⟨hc, hrest⟩ := List.forall_mem_cons.mp hline
      have hcons : expand (c :: line) = cellsOf c ++ expand line := List.flatMap_cons
      rw [hcons, List.length_append] at hfits
      obtain ⟨t₁, hput, h₁⟩ := h.putchar hc (by omega)
      obtain ⟨t', hwrite, h'⟩ := ih h₁ hrest (by rw [List.length_append]; omega)
      refine ⟨t', (terminalWrite_cons hput).trans hwrite, ?_⟩
      rwa [hcons, ← List.append_assoc]

theorem InWindow.write {line : List UInt8} (h : t.InWindow) (hline : ∀ c ∈ line, Visible c) :
    ∃ t', t.terminalWrite line = some t' ∧ t'.InWindow ∧
      t'.terminalColumn = (t.terminalColumn + (expand line).length) % vgaWidth := by
  induction line generalizing t with
  | nil => exact ⟨t, rfl, h, (Nat.mod_eq_of_lt h.column).symm⟩
  | cons c line ih =>
      obtain ⟨hc, hrest⟩ := List.forall_mem_cons.mp hline
      have hcons : expand (c :: line) = cellsOf c ++ expand line := List.flatMap_cons
      obtain ⟨t₁, hput, h₁, hcolumn₁⟩ := h.putchar hc
      obtain ⟨t', hwrite, h', hcolumn⟩ := ih h₁ hrest
      refine ⟨t', (terminalWrite_cons hput).trans hwrite, h', ?_⟩
      rw [hcolumn, hcolumn₁, hcons, List.length_append, Nat.mod_add_mod, Nat.add_assoc]

theorem ShowsText.backspaces (h : t.ShowsText p text) {n : ℕ} (hn : n ≤ text.length) :
    ∃ t', t.terminalWrite (List.replicate n 8) = some t' ∧
      t'.ShowsText p (text.take (text.length - n)) := by
  induction n generalizing t text with
  | zero => exact ⟨t, rfl, by rwa [Nat.sub_zero, List.take_length]⟩
  | succ n ih =>
      obtain ⟨t₁, hback, h₁⟩ := h.backspace (List.length_pos_iff.mp (by omega))
      obtain ⟨t', hwrite, h'⟩ := ih h₁ (by rw [List.length_dropLast]; omega)
      refine ⟨t', (terminalWrite_cons (c := 8) hback).trans hwrite, ?_⟩
      have htake : text.dropLast.take (text.dropLast.length - n) =
          text.take (text.length - (n + 1)) := by
        rw [List.dropLast_eq_take, List.take_take, List.length_take]
        congr 1
        omega
      rwa [htake] at h'

end Terminal

namespace Screen

variable {s : Screen}

/-- Nothing has been left from the cursor on. -/
def BlankAhead (s : Screen) : Prop :=
  ∀ y x, x < vgaWidth → s.row < y ∨ s.row = y ∧ s.column ≤ x → s.cell y x = blank

theorem BlankAhead.nextRow (h : s.BlankAhead) : s.nextRow.BlankAhead := by
  intro y x hx hafter
  simp only [Screen.nextRow] at hafter ⊢
  exact h y x hx (by omega)

theorem BlankAhead.glyph (h : s.BlankAhead) (uc : UInt8) : (s.glyph uc).BlankAhead := by
  have hwrite : ∀ y x, x < vgaWidth → s.row < y ∨ s.row = y ∧ s.column + 1 ≤ x →
      (s.write s.row s.column (vgaEntry uc screenColor)).cell y x = blank := by
    intro y x hx hafter
    have hne : ¬ (y = s.row ∧ x = s.column) := by omega
    simp only [write, if_neg hne]
    exact h y x hx (by omega)
  rw [Screen.glyph, nextColumn]
  split_ifs
  · intro y x hx hafter
    simp only [Screen.nextRow] at hafter ⊢
    exact hwrite y x hx (by simp only [write] at hafter; omega)
  · exact hwrite

theorem BlankAhead.eraseAt (h : s.BlankAhead) {y x : ℕ}
    (hnext : ∀ y' x', x' < vgaWidth → y < y' ∨ y = y' ∧ x < x' → s.row < y' ∨ s.row = y' ∧ s.column ≤ x') :
    (s.eraseAt y x).BlankAhead := by
  intro y' x' hx' hafter
  simp only [Screen.eraseAt, write] at hafter ⊢
  split_ifs with hcell
  · rfl
  · exact h y' x' hx' (hnext y' x' hx' (by omega))

theorem BlankAhead.backspace (h : s.BlankAhead) : s.backspace.BlankAhead := by
  rw [Screen.backspace]
  split_ifs
  · exact h.eraseAt fun y' x' _ hafter ↦ by omega
  · refine h.eraseAt fun y' x' hx' hafter ↦ ?_
    simp only [vgaWidth] at hx' hafter
    omega
  · exact h

theorem BlankAhead.call (h : s.BlankAhead) (c : TerminalCall) : (s.call c).BlankAhead := by
  have hclear : ∀ first, (s.clearFrom first).BlankAhead := by
    intro first y x _ hafter
    simp only [clearFrom] at hafter ⊢
    exact if_pos (by omega)
  cases c with
  | putchar c =>
      rw [Screen.call, putchar]
      split_ifs
      · exact h.nextRow
      · exact h.backspace
      · exact (((h.glyph 32).glyph 32).glyph 32).glyph 32
      · exact h.glyph c
  | setAnchor => exact h
  | clearToAnchor => exact hclear _
  | clear => exact hclear _

theorem blankAhead_run (calls : List TerminalCall) : (initial.run calls).BlankAhead := by
  have hall : ∀ (calls : List TerminalCall) (s : Screen), s.BlankAhead → (s.run calls).BlankAhead := by
    intro calls
    induction calls with
    | nil => exact fun _ h ↦ h
    | cons c calls ih => exact fun s h ↦ ih (s.call c) (h.call c)
  exact hall calls initial fun _ _ _ _ ↦ rfl

end Screen

namespace Terminal

/-- A reachable terminal, at whose cursor a text may begin. -/
structure Reached (t : Terminal) : Prop where
  reached : ∃ memory cursor calls,
    ((atBoot memory cursor).terminalInitialize.bind fun t ↦ t.run calls) = some t

theorem Reached.showsText {t : Terminal} (h : t.Reached) : t.ShowsText t.position [] := by
  obtain ⟨memory, cursor, calls, hrun⟩ := h.reached
  obtain ⟨t₀, hinit, h₀, hc₀⟩ := initialize_shows memory cursor
  obtain ⟨t', hrun', hshows, -⟩ := h₀.run hc₀ calls
  rw [hinit, Option.bind_some, hrun'] at hrun
  obtain rfl : t = t' := (Option.some.inj hrun).symm
  have hblank := Screen.blankAhead_run calls
  have hrow := hshows.row
  have hcolumn := hshows.column
  refine ⟨⟨hshows.row_lt, ?_, hshows.color⟩, rfl, fun j hj ↦ ?_⟩
  · rw [hcolumn]
    exact hshows.column_lt
  · -- the cell as a row and a column of the window
    obtain ⟨y, x, hx, hcell⟩ : ∃ y x, x < vgaWidth ∧ t.position + j = y * vgaWidth + x :=
      ⟨(t.position + j) / vgaWidth, (t.position + j) % vgaWidth,
        Nat.mod_lt _ (Nat.succ_pos (vgaWidth - 1)), (Nat.div_add_mod' _ _).symm⟩
    have hafter : t.terminalRow < y ∨ t.terminalRow = y ∧ t.terminalColumn ≤ x := by
      have hlt := hshows.column_lt
      rw [← hcolumn] at hlt
      simp only [position, vgaWidth] at hcell hx hlt
      omega
    have hy : y < vgaHeight := by
      simp only [vgaHeight, vgaWidth] at hcell hj ⊢
      omega
    rw [hcell, hshows.window y hy x hx, hblank _ x hx (by omega)]
    rfl

end Terminal

end EclipseOS
