import EclipseOS.Display
import EclipseOS.Kdb

/-!
# The line on the screen

What `kdb_readline` prints for each key keeps the line in its buffer on the
screen, unless a tab is erased: it takes four cells and one backspace.
-/

namespace EclipseOS

open Libc

/-- `emit_stdout` of the kernel.  `putchar` goes to the terminal and never fails. -/
def emitTerminal (c : UInt8) (t : Option Terminal) : Bool × Option Terminal :=
  (true, t.bind fun t ↦ t.terminalPutchar c)

namespace Printing

def printf (t : Terminal) (p : Printing) : Option Terminal :=
  (vprintfGen emitTerminal p.format p.args (some t)).bind Prod.snd

theorem emitted_terminal (text : List UInt8) (t : Option Terminal) :
    emitted emitTerminal text t = t.bind fun t ↦ t.terminalWrite text := by
  induction text generalizing t with
  | nil => cases t <;> rfl
  | cons c text ih =>
      have hcons : emitted emitTerminal (c :: text) t =
          emitted emitTerminal text (t.bind fun t ↦ t.terminalPutchar c) := rfl
      rw [hcons, ih, Option.bind_assoc]
      rfl

theorem printf_eq {p : Printing} {text : List UInt8} (h : Renders p.format.bytes p.args text)
    (hshort : text.length ≤ INT_MAX) (t : Terminal) : printf t p = t.terminalWrite text := by
  obtain ⟨r, hrun, hprinted⟩ := vprintfGen_printed p.format h emitTerminal (some t)
  have haccepts : Accepts emitTerminal fun _ ↦ True := fun _ _ _ ↦ ⟨rfl, trivial⟩
  rw [printf, hrun, Option.bind_some]
  cases hprinted with
  | shown hfits hprint =>
      have hemitted := (print_accepts haccepts text (s := some t) trivial).1
      rw [hprint, emitted_terminal] at hemitted
      exact congrArg Prod.snd hemitted
  | refused _ _ hb => exact absurd (congrArg Prod.fst hb) (by simp [emitTerminal])
  | overflow hover => omega

def printAll (t : Terminal) (printed : List Printing) : Option Terminal := printed.foldlM printf t

theorem printAll_eq {printed : List Printing} {text : List UInt8} (h : Echoes printed text)
    {t t' : Terminal} (hwrite : t.terminalWrite text = some t') : printAll t printed = some t' := by
  induction h generalizing t with
  | nil => exact hwrite
  | @cons p rest text text' hr hshort hrest ih =>
      have hfirst : ∃ t₁, t.terminalWrite text = some t₁ ∧ t₁.terminalWrite text' = some t' := by
        rw [Terminal.terminalWrite, List.foldlM_append] at hwrite
        exact Option.bind_eq_some_iff.mp hwrite
      obtain ⟨t₁, ht₁, hwrite'⟩ := hfirst
      rw [printAll, List.foldlM_cons, printf_eq hr hshort, ht₁]
      exact ih hwrite'

end Printing

/-- The current line, `buf[0..i)`. -/
def LineEditor.line (e : LineEditor) : List UInt8 := (List.range e.i).map e.buf

structure KdbConsole where
  session : KdbSession
  terminal : Terminal

namespace KdbConsole

def step (c : KdbConsole) (k : KdbKey) : Option KdbConsole := do
  let (session, printed) ← c.session.step k
  let terminal ← Printing.printAll c.terminal printed
  return { session, terminal }

def run (c : KdbConsole) (keys : List KdbKey) : Option KdbConsole := keys.foldlM step c

/-- From cell `p` on the screen shows the line and no more, and the cursor is after it. -/
def Displays (c : KdbConsole) (p : ℕ) : Prop :=
  c.terminal.ShowsText p (Terminal.expand c.session.editor.line)

/-- `kdb_readline` is called, after other lines and with any terminal that can be reached. -/
structure AtPrompt (c : KdbConsole) : Prop where
  session : ∃ buf earlier s next, (KdbSession.initial buf).run earlier = some s ∧
    c.session = { s with editor := .start next }
  terminal : c.terminal.Reached

end KdbConsole

/-- The key erases a tab: as the last character, or with the line that a line of the history
takes the place of. -/
def KdbSession.ErasesTab (s : KdbSession) (c : ℕ) : Prop :=
  c = 8 ∧ s.editor.line.getLast? = some 9 ∨
    (c = KDB_KEY_UP ∨ c = KDB_KEY_DOWN) ∧ s.history.histCount ≠ 0 ∧
      (s.editor.moved s.history c).isSome ∧ 9 ∈ s.editor.line

instance (s : KdbSession) (c : ℕ) : Decidable (s.ErasesTab c) := inferInstanceAs (Decidable (_ ∨ _))

namespace Reference

variable {r : Reference} {c : ℕ}

def ErasesTab (r : Reference) (c : ℕ) : Prop :=
  c = 8 ∧ r.line.getLast? = some 9 ∨
    (c = KDB_KEY_UP ∨ c = KDB_KEY_DOWN) ∧ (r.step c).back ≠ r.back ∧ 9 ∈ r.line

/-- Lines are made of characters that the terminal shows. -/
structure Shown (r : Reference) : Prop where
  line : ∀ b ∈ r.line, Terminal.Visible b
  recorded : ∀ line ∈ r.recorded, ∀ b ∈ line, Terminal.Visible b

theorem Shown.select (h : r.Shown) (back : ℕ) : ∀ b ∈ select r.recorded back, Terminal.Visible b := by
  rw [Reference.select]
  split_ifs
  · exact fun b hb ↦ absurd hb List.not_mem_nil
  · cases hline : r.recorded[back - 1]? with
    | none => exact fun b hb ↦ absurd hb List.not_mem_nil
    | some line => exact h.recorded line (List.mem_of_getElem? hline)

theorem Shown.step (h : r.Shown) (c : ℕ) : (r.step c).Shown := by
  rw [Reference.step]
  split_ifs with hline hback hup hmove hdown hmove hchar
  · refine ⟨fun b hb ↦ absurd hb List.not_mem_nil, ?_⟩
    dsimp only
    rw [record]
    split_ifs
    · exact h.recorded
    · exact List.forall_mem_cons.mpr ⟨h.line, h.recorded⟩
  · exact ⟨fun b hb ↦ h.line b (List.mem_of_mem_dropLast hb), h.recorded⟩
  · exact ⟨fun b hb ↦ h.select (r.back + 1) b hb, h.recorded⟩
  · exact h
  · exact ⟨fun b hb ↦ h.select (r.back - 1) b hb, h.recorded⟩
  · exact h
  · refine ⟨fun b hb ↦ ?_, h.recorded⟩
    rcases List.mem_append.mp hb with hb | hb
    · exact h.line b hb
    · obtain rfl := List.mem_singleton.mp hb
      have hcode : (UInt8.ofNat c).toNat = c := by
        rw [UInt8.toNat_ofNat', Nat.mod_eq_of_lt (by omega)]
      refine ⟨fun heq ↦ hback ?_, fun heq ↦ hline ?_⟩
      · rw [← hcode, heq]
        rfl
      · rw [← hcode, heq]
        rfl
  · exact h

theorem Shown.run (h : r.Shown) (keys : List KdbKey) : (r.run keys).Shown := by
  induction keys generalizing r with
  | nil => exact h
  | cons k keys ih => exact ih (h.step k.code)

end Reference

namespace Terminal

theorem expand_append (line line' : List UInt8) :
    expand (line ++ line') = expand line ++ expand line' := List.flatMap_append

/-- Three more cells for every tab. -/
theorem length_expand (line : List UInt8) :
    (expand line).length = line.length + 3 * line.count 9 := by
  induction line with
  | nil => rfl
  | cons c line ih =>
      have hcons : expand (c :: line) = cellsOf c ++ expand line := List.flatMap_cons
      rw [hcons, List.length_append, length_cellsOf, ih, List.length_cons, List.count_cons]
      by_cases hc : c = 9
      · simp only [hc, if_true, beq_self_eq_true]
        omega
      · simp only [hc, if_false, beq_iff_eq]
        omega

variable {t : Terminal} {p : ℕ} {line line' : List UInt8}

/-- Two texts from one cell with the cursor in one place are equally long. -/
theorem ShowsText.length_eq {text text' : List UInt8} (h : t.ShowsText p text)
    (h' : t.ShowsText p text') : text.length = text'.length := by
  have hcursor := h.cursor
  have hcursor' := h'.cursor
  omega

/-- One backspace erases the last character, unless it is a tab. -/
theorem ShowsText.erase (h : t.ShowsText p (expand line)) (hne : line ≠ []) :
    ∃ t', t.terminalWrite [8] = some t' ∧
      (t'.ShowsText p (expand line.dropLast) ↔ line.getLast? ≠ some 9) := by
  obtain ⟨pre, c, rfl⟩ : ∃ pre c, line = pre ++ [c] :=
    ⟨line.dropLast, line.getLast hne, (List.dropLast_append_getLast hne).symm⟩
  have hexpand : expand (pre ++ [c]) = expand pre ++ cellsOf c := by
    rw [expand_append]
    simp [expand]
  have hsome : expand (pre ++ [c]) ≠ [] := by
    rw [hexpand, cellsOf]
    split_ifs
    all_goals simp
  obtain ⟨t', hback, h'⟩ := h.backspace hsome
  have hwrite : t.terminalWrite [8] = some t' := terminalWrite_cons (c := 8) hback
  refine ⟨t', hwrite, ?_⟩
  rw [List.dropLast_concat, List.getLast?_concat, hexpand] at *
  by_cases hc : c = 9
  · have hlonger : ((expand pre ++ cellsOf c).dropLast).length ≠ (expand pre).length := by
      rw [List.length_dropLast, List.length_append, length_cellsOf, if_pos hc]
      omega
    simp only [hc, ne_eq, not_true_eq_false, iff_false]
    exact fun hshows ↦ hlonger (h'.length_eq hshows)
  · have hsame : (expand pre ++ cellsOf c).dropLast = expand pre := by
      rw [cellsOf, if_neg hc, List.dropLast_concat]
    rw [hsame] at h'
    simp [hc, h']

/-- Erasing a line and writing another shows that one, unless the first has a tab. -/
theorem ShowsText.replace (h : t.ShowsText p (expand line)) (hshort : line.length ≤ 79)
    (hline' : ∀ b ∈ line', Visible b)
    (hfits : p + (expand line').length < vgaHeight * vgaWidth) :
    ∃ t', t.terminalWrite (List.replicate line.length 8 ++ line') = some t' ∧
      (t'.ShowsText p (expand line') ↔ 9 ∉ line) := by
  have hlength := length_expand line
  obtain ⟨t₁, herase, h₁⟩ := h.backspaces (n := line.length) (by omega)
  by_cases htab : 9 ∈ line
  · -- some cells are left, and what is written is in another column
    obtain ⟨t', hwrite, h', hcolumn⟩ := h₁.toInWindow.write hline'
    refine ⟨t', (terminalWrite_append herase).trans hwrite, ?_⟩
    simp only [htab, not_true_eq_false, iff_false]
    intro hshows
    have hcursor := hshows.cursor
    have hcursor₁ := h₁.cursor
    have hcount : 0 < line.count 9 := List.count_pos_iff.mpr htab
    have hle : line.count 9 ≤ line.length := List.count_le_length
    rw [List.length_take] at hcursor₁
    simp only [position, vgaWidth] at hcursor hcursor₁ hcolumn
    omega
  · have hcount : line.count 9 = 0 := List.count_eq_zero.mpr htab
    have hnil : (expand line).take ((expand line).length - line.length) = [] := by
      rw [hlength, hcount]
      simp
    rw [hnil] at h₁
    obtain ⟨t', hwrite, h'⟩ := h₁.write hline' (by simpa using hfits)
    refine ⟨t', (terminalWrite_append herase).trans hwrite, ?_⟩
    rw [List.nil_append] at h'
    simp [htab, h']

end Terminal

namespace LineEditor

variable {e : LineEditor} {h : KdbHistory} {r : Reference}

theorem Edits.line_eq (hed : e.Edits h r) : e.line = r.line := by
  rw [line, hed.length]
  apply List.ext_getElem?
  intro j
  by_cases hj : j < r.line.length
  · rw [List.getElem?_map, List.getElem?_range hj, hed.begins j hj, Option.map_some]
  · rw [List.getElem?_eq_none (by simpa using hj), List.getElem?_eq_none (by omega)]

end LineEditor

namespace Reference

variable {r : Reference} {c p : ℕ} {t : Terminal}

/-- An arrow that does not move leaves the line. -/
theorem step_stay (hc : c = KDB_KEY_UP ∨ c = KDB_KEY_DOWN) (hback : (r.step c).back = r.back) :
    r.step c = r := by
  rcases hc with rfl | rfl
  · have hstep : r.step KDB_KEY_UP = if r.back < min HIST_SIZE r.recorded.length then
        { r with line := select r.recorded (r.back + 1), back := r.back + 1 } else r := rfl
    rw [hstep] at hback ⊢
    split_ifs at hback ⊢
    · exact absurd hback (Nat.succ_ne_self _)
    · rfl
  · have hstep : r.step KDB_KEY_DOWN = if 0 < r.back then
        { r with line := select r.recorded (r.back - 1), back := r.back - 1 } else r := rfl
    rw [hstep] at hback ⊢
    split_ifs at hback ⊢ with hpos
    · exact absurd hback (by dsimp only; omega)
    · rfl

/-- What a key prints keeps the line on the screen, unless it erases a tab. -/
theorem echo_shows (hr : r.Shown) (hshort : r.line.length ≤ 79)
    (hshows : t.ShowsText p (Terminal.expand r.line)) (hline : c ≠ 10)
    (hfits : p + (Terminal.expand (r.step c).line).length < vgaHeight * vgaWidth) :
    ∃ t', t.terminalWrite (r.echo c) = some t' ∧
      (t'.ShowsText p (Terminal.expand (r.step c).line) ↔ ¬ r.ErasesTab c) := by
  have hnext := (hr.step c).line
  by_cases hback : c = 8
  · subst hback
    have hecho : r.echo 8 = if r.line = [] then [] else [8] := rfl
    have hstep : (r.step 8).line = r.line.dropLast := rfl
    have hiff : r.ErasesTab 8 ↔ r.line.getLast? = some 9 := by
      simp [ErasesTab, KDB_KEY_UP, KDB_KEY_DOWN]
    rw [hecho, hstep, hiff]
    by_cases hnil : r.line = []
    · rw [hnil] at hshows ⊢
      exact ⟨t, rfl, by simpa using hshows⟩
    · rw [if_neg hnil]
      exact hshows.erase hnil
  by_cases harrow : c = KDB_KEY_UP ∨ c = KDB_KEY_DOWN
  · have hiff : r.ErasesTab c ↔ (r.step c).back ≠ r.back ∧ 9 ∈ r.line := by
      simp [ErasesTab, hback, harrow]
    rw [echo, if_neg hline, if_neg hback, if_pos harrow, hiff]
    by_cases hstay : (r.step c).back = r.back
    · rw [if_pos hstay, step_stay harrow hstay]
      exact ⟨t, rfl, by simpa using hshows⟩
    · rw [if_neg hstay]
      simpa [hstay] using hshows.replace hshort hnext hfits
  · obtain ⟨hup, hdown⟩ := not_or.mp harrow
    have hiff : ¬ r.ErasesTab c := by simp [ErasesTab, hback, harrow]
    have hstep : (r.step c).line =
        if c < 128 ∧ r.line.length < 79 then r.line ++ [UInt8.ofNat c] else r.line := by
      rw [step, if_neg hline, if_neg hback, if_neg hup, if_neg hdown]
      split_ifs
      all_goals rfl
    rw [echo, if_neg hline, if_neg hback, if_neg harrow]
    rw [hstep] at hfits hnext ⊢
    split_ifs at hfits hnext ⊢
    · rw [Terminal.expand_append, List.length_append, ← Nat.add_assoc] at hfits
      have hvisible : ∀ b ∈ [UInt8.ofNat c], Terminal.Visible b :=
        fun b hb ↦ hnext b (List.mem_append_right _ hb)
      obtain ⟨t', hwrite, h'⟩ := hshows.write hvisible hfits
      rw [← Terminal.expand_append] at h'
      exact ⟨t', hwrite, iff_of_true h' hiff⟩
    · exact ⟨t, rfl, iff_of_true hshows hiff⟩

end Reference

namespace KdbConsole

variable {c : KdbConsole} {r : Reference} {p : ℕ}

theorem erasesTab_iff {s : KdbSession} (hs : s.Follows r) (code : ℕ) :
    s.ErasesTab code ↔ r.ErasesTab code := by
  obtain ⟨hup, hdown⟩ := hs.editor.moved
  have hback := hs.editor.back
  have hcount := hs.history.count
  have hmoves : code = KDB_KEY_UP ∨ code = KDB_KEY_DOWN →
      (s.history.histCount ≠ 0 ∧ (s.editor.moved s.history code).isSome ↔
        (r.step code).back ≠ r.back) := by
    rintro (rfl | rfl)
    · have hstep : r.step KDB_KEY_UP = if r.back < min HIST_SIZE r.recorded.length then
          { r with line := Reference.select r.recorded (r.back + 1), back := r.back + 1 }
          else r := rfl
      rw [hstep, hup, ← hcount]
      split_ifs
      · simp
        omega
      · simp
    · have hstep : r.step KDB_KEY_DOWN = if 0 < r.back then
          { r with line := Reference.select r.recorded (r.back - 1), back := r.back - 1 }
          else r := rfl
      rw [hstep, hdown]
      split_ifs
      · simp
        omega
      · simp
  rw [KdbSession.ErasesTab, Reference.ErasesTab, hs.editor.line_eq]
  refine or_congr Iff.rfl (and_congr_right fun harrow ↦ ?_)
  rw [← and_assoc, hmoves harrow]

theorem step_shows (hs : c.session.Follows r) (hr : r.Shown)
    (hshows : c.terminal.ShowsText p (Terminal.expand r.line)) {k : KdbKey} (hline : k.code ≠ 10)
    (hfits : p + (Terminal.expand (r.step k.code).line).length < vgaHeight * vgaWidth) :
    ∃ c', c.step k = some c' ∧ c'.session.Follows (r.step k.code) ∧
      (c'.Displays p ↔ ¬ c.session.ErasesTab k.code) := by
  obtain ⟨session, printed, hstep, hs', hechoes⟩ := hs.step k
  obtain ⟨terminal, hwrite, hiff⟩ := Reference.echo_shows hr hs.editor.short hshows hline hfits
  refine ⟨⟨session, terminal⟩, ?_, hs', ?_⟩
  · rw [step, hstep, Option.bind_eq_bind, Option.bind_some]
    dsimp only
    rw [Printing.printAll_eq hechoes hwrite]
    rfl
  · rw [erasesTab_iff hs, Displays, hs'.editor.line_eq]
    exact hiff

/-- The session goes on without the terminal. -/
theorem session_step {c c' : KdbConsole} {k : KdbKey} (h : c.step k = some c') (rest : List KdbKey) :
    c.session.run (k :: rest) = c'.session.run rest := by
  rw [step] at h
  obtain ⟨⟨session, printed⟩, hstep, h⟩ := Option.bind_eq_some_iff.mp h
  obtain ⟨terminal, -, h⟩ := Option.bind_eq_some_iff.mp h
  obtain rfl := Option.some.inj h
  rw [KdbSession.run, List.foldlM_cons, hstep]
  rfl

/-- The line fits on the screen after every key. -/
def Fits (c : KdbConsole) (p : ℕ) (keys : List KdbKey) : Prop :=
  ∀ pre, pre <+: keys → ∀ s, c.session.run pre = some s →
    p + (Terminal.expand s.editor.line).length < vgaHeight * vgaWidth

theorem run_shows (hs : c.session.Follows r) (hr : r.Shown) (hshows : c.Displays p)
    {keys : List KdbKey} (hline : ∀ k ∈ keys, k.code ≠ 10) (hfits : c.Fits p keys) :
    (∀ pre, pre <+: keys → ∃ c', c.run pre = some c' ∧ c'.Displays p) ↔
      ∀ pre k, pre ++ [k] <+: keys → ∀ s, c.session.run pre = some s → ¬ s.ErasesTab k.code := by
  induction keys generalizing c r with
  | nil =>
      refine iff_of_true (fun pre hpre ↦ ?_) fun pre k hpre ↦ ?_
      · rw [List.prefix_nil.mp hpre]
        exact ⟨c, rfl, hshows⟩
      · exact absurd (List.prefix_nil.mp hpre) (by simp)
  | cons k keys ih =>
      obtain ⟨hk, hrest⟩ := List.forall_mem_cons.mp hline
      obtain ⟨s', _, hsession, hs', -⟩ := hs.step k
      have hone : c.session.run [k] = some s' := by
        rw [KdbSession.run, List.foldlM_cons, hsession]
        rfl
      have hfit := hfits [k] ((List.prefix_cons_inj k).mpr List.nil_prefix) s' hone
      rw [hs'.editor.line_eq] at hfit
      have hshows' := hshows
      rw [Displays, hs.editor.line_eq] at hshows'
      obtain ⟨c', hstep, hfollows, hiff⟩ := step_shows hs hr hshows' hk hfit
      have hrun : ∀ pre, c.run (k :: pre) = c'.run pre := by
        intro pre
        rw [run, List.foldlM_cons, hstep]
        rfl
      by_cases htab : c.session.ErasesTab k.code
      · refine iff_of_false (fun h ↦ ?_) fun h ↦ ?_
        · obtain ⟨c'', hc'', hdisplays⟩ := h [k] ((List.prefix_cons_inj k).mpr List.nil_prefix)
          obtain rfl : c' = c'' := Option.some.inj ((hrun []).symm.trans hc'')
          exact hiff.mp hdisplays htab
        · exact h [] k ((List.prefix_cons_inj k).mpr List.nil_prefix) c.session rfl htab
      · have hfits' : c'.Fits p keys := by
          intro pre hpre s hs
          exact hfits (k :: pre) ((List.prefix_cons_inj k).mpr hpre) s ((session_step hstep pre).trans hs)
        have hih := ih hfollows (hr.step k.code) (hiff.mpr htab) hrest hfits'
        constructor
        · intro h pre k' hpre s hrun'
          cases pre with
          | nil =>
              obtain rfl : c.session = s := Option.some.inj hrun'
              obtain rfl : k' = k := (List.cons_prefix_cons.mp hpre).1
              exact htab
          | cons k'' pre =>
              obtain ⟨rfl, hrest⟩ := List.cons_prefix_cons.mp hpre
              rw [session_step hstep] at hrun'
              refine hih.mp (fun pre' hpre' ↦ ?_) pre k' hrest s hrun'
              obtain ⟨c'', hc'', hdisplays⟩ := h (k'' :: pre') ((List.prefix_cons_inj k'').mpr hpre')
              exact ⟨c'', (hrun pre').symm.trans hc'', hdisplays⟩
        · intro h pre hpre
          cases pre with
          | nil => exact ⟨c, rfl, hshows⟩
          | cons k'' pre =>
              obtain ⟨rfl, hrest⟩ := List.cons_prefix_cons.mp hpre
              rw [hrun]
              refine hih.mpr (fun pre' k' hpre' s hrun' ↦ ?_) pre hrest
              exact h (k'' :: pre') k' ((List.prefix_cons_inj k'').mpr hpre') s
                ((session_step hstep pre').trans hrun')

/-- At the prompt the line is empty. -/
theorem AtPrompt.start (hc : c.AtPrompt) :
    (∃ r, c.session.Follows r ∧ r.Shown) ∧ c.Displays c.terminal.position := by
  obtain ⟨buf, earlier, s, next, hrun, hsession⟩ := hc.session
  obtain ⟨s', hrun', hs⟩ := (KdbSession.follows_initial buf).run earlier
  obtain rfl : s = s' := Option.some.inj (hrun.symm.trans hrun')
  have hshown : Reference.initial.Shown :=
    ⟨fun _ hb ↦ absurd hb List.not_mem_nil, fun _ hl ↦ absurd hl List.not_mem_nil⟩
  have hr := hshown.run earlier
  refine ⟨⟨{ Reference.initial.run earlier with line := [], back := 0 }, ?_,
    fun _ hb ↦ absurd hb List.not_mem_nil, hr.recorded⟩, ?_⟩
  · rw [hsession]
    exact
      { history := hs.history
        editor := KdbSession.edits_start next _ rfl rfl
        returned := hs.returned }
  · rw [Displays, hsession]
    exact hc.terminal.showsText

/-- While the line fits on the screen, it is displayed after every key exactly when no key
erases a tab. -/
theorem kdb_shows_line_iff (hc : c.AtPrompt) {keys : List KdbKey}
    (hline : ∀ k ∈ keys, k.code ≠ 10) (hfits : c.Fits c.terminal.position keys) :
    (∀ pre, pre <+: keys → ∃ c', c.run pre = some c' ∧ c'.Displays c.terminal.position) ↔
      ∀ pre k, pre ++ [k] <+: keys → ∀ s, c.session.run pre = some s → ¬ s.ErasesTab k.code := by
  obtain ⟨⟨r, hs, hr⟩, hshows⟩ := hc.start
  exact run_shows hs hr hshows hline hfits

def promptCalls : List TerminalCall := [107, 100, 98, 62, 32].map .putchar

/-- The prompt at the top of the screen, before any line. -/
theorem exists_prompt : ∃ c : KdbConsole, c.AtPrompt ∧ c.terminal.position = 5 ∧
    c.session = KdbSession.initial fun _ ↦ 0 := by
  have hprompt : (Screen.initial.run promptCalls).row = 0 ∧
      (Screen.initial.run promptCalls).column = 5 ∧ (Screen.initial.run promptCalls).top = 0 := by
    decide
  obtain ⟨t₀, hinit, h₀, hc₀⟩ := Terminal.initialize_shows (fun _ ↦ 0) 0
  obtain ⟨t, hrun, hshows, -⟩ := h₀.run hc₀ promptCalls
  refine ⟨⟨.initial fun _ ↦ 0, t⟩, ⟨?_, ⟨fun _ ↦ 0, 0, promptCalls, ?_⟩⟩, ?_, rfl⟩
  · exact ⟨fun _ ↦ 0, [], .initial fun _ ↦ 0, fun _ ↦ 0, rfl, rfl⟩
  · rw [hinit, Option.bind_some]
    exact hrun
  · have hrow := hshows.row
    rw [hprompt.1, hprompt.2.2] at hrow
    have hzero : t.terminalRow = 0 := by omega
    have hcell : t.position = t.terminalRow * vgaWidth + t.terminalColumn := rfl
    dsimp only
    rw [hcell, hzero, hshows.column, hprompt.2.1]
    rfl

theorem prefix_pair {α : Type} {pre : List α} {a b : α} (h : pre <+: [a, b]) :
    pre = [] ∨ pre = [a] ∨ pre = [a, b] := by
  cases pre with
  | nil => exact .inl rfl
  | cons x pre =>
      obtain ⟨rfl, htail⟩ := List.cons_prefix_cons.mp h
      cases pre with
      | nil => exact .inr (.inl rfl)
      | cons y pre =>
          obtain ⟨rfl, hnil⟩ := List.cons_prefix_cons.mp htail
          rw [List.prefix_nil.mp hnil]
          exact .inr (.inr rfl)

theorem fits_pair {c : KdbConsole} {p : ℕ} {k k' : KdbKey}
    (h : ∀ pre ∈ [[], [k], [k, k']], ∀ s ∈ c.session.run pre,
      p + (Terminal.expand s.editor.line).length < vgaHeight * vgaWidth) : c.Fits p [k, k'] := by
  intro pre hpre s hs
  refine h pre ?_ s hs
  simpa using prefix_pair hpre

theorem keeps_pair {c : KdbConsole} {k k' : KdbKey}
    (h : ∀ q ∈ [([], k), ([k], k')], ∀ s ∈ c.session.run q.1, ¬ s.ErasesTab q.2.code) :
    ∀ pre k'', pre ++ [k''] <+: [k, k'] → ∀ s, c.session.run pre = some s →
      ¬ s.ErasesTab k''.code := by
  intro pre k'' hpre s hs
  refine h (pre, k'') ?_ s hs
  rcases prefix_pair hpre with heq | heq | heq
  · simp at heq
  · obtain ⟨rfl, hlast⟩ := List.append_inj' (show pre ++ [k''] = [] ++ [k] from heq) rfl
    simp_all
  · obtain ⟨rfl, hlast⟩ := List.append_inj' (show pre ++ [k''] = [k] ++ [k'] from heq) rfl
    simp_all

/-- A character and a backspace. -/
theorem kdb_shows_line_erased : ∃ c : KdbConsole, c.AtPrompt ∧
    ∀ pre, pre <+: ([⟨97, fun _ ↦ 0, by decide⟩, ⟨8, fun _ ↦ 0, by decide⟩] : List KdbKey) →
      ∃ c', c.run pre = some c' ∧ c'.Displays c.terminal.position := by
  obtain ⟨c, hc, hposition, hsession⟩ := exists_prompt
  refine ⟨c, hc, (kdb_shows_line_iff hc (by simp) (fits_pair ?_)).mpr (keeps_pair ?_)⟩
  · rw [hposition, hsession]
    decide
  · rw [hsession]
    decide

/-- A tab and a backspace: the cursor is three cells after the prompt. -/
theorem kdb_tab_left : ¬ ∀ (c : KdbConsole) (keys : List KdbKey), c.AtPrompt →
    (∀ k ∈ keys, k.code ≠ 10) → c.Fits c.terminal.position keys →
    ∀ pre, pre <+: keys → ∃ c', c.run pre = some c' ∧ c'.Displays c.terminal.position := by
  intro h
  obtain ⟨c, hc, hposition, hsession⟩ := exists_prompt
  have hfits : c.Fits c.terminal.position [⟨9, fun _ ↦ 0, by decide⟩, ⟨8, fun _ ↦ 0, by decide⟩] := by
    apply fits_pair
    rw [hposition, hsession]
    decide
  have hkeys := h c _ hc (by simp) hfits
  obtain ⟨⟨r, hs, hr⟩, hshows⟩ := hc.start
  have hkept := (run_shows hs hr hshows (by simp) hfits).mp hkeys
  rw [hsession] at hkept
  refine hkept [⟨9, fun _ ↦ 0, by decide⟩] ⟨8, fun _ ↦ 0, by decide⟩ List.prefix_rfl _ rfl (.inl ⟨rfl, ?_⟩)
  decide

end KdbConsole

end EclipseOS
