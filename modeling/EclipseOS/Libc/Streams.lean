import EclipseOS.Libc.StandardOutput

/-!
# One stream

`fputc`, `fputs`, `fwrite`, `fprintf` and `fflush` on one `FILE`.  What the
stream has written and what waits in its buffer are together what the calls
have put into it; which is all that they were given, unless a character is
taken for `EOF` or a string is too long to be counted.
-/

namespace EclipseOS

namespace Libc

/-- A string in memory, with a length that `strlen` can return. -/
structure StoredString extends CString where
  fits : bytes.length < 2 ^ 32

/-- The string as items of size 1. -/
def Items.ofString (s : StoredString) : Items where
  bytes := s.bytes
  size := 1
  nmemb := s.bytes.length
  length_eq := (Nat.one_mul _).symm
  fits := s.fits

/-- `"%s"` -/
def stringFormat : CString := ⟨[PERCENT, 0x73], by decide⟩

/-- Calls on one stream. -/
inductive StreamCall
  | fputc (c : BitVec 32)
  | fputs (s : CString)
  | fwrite (p : Items)
  | fprintf (s : CString)
  | fflush

namespace StreamCall

def run (f : Stream) (h : Host) : StreamCall → Option Host
  | fputc c => some (h.fputc c.toInt f).2
  | fputs s => some (h.fputs f s.bytes).2
  | fwrite p => some (h.fwrite p f).2
  | fprintf s => (h.fprintf f stringFormat [.str s]).map Prod.snd
  | fflush => some (h.fflush f).2

/-- The bytes that are passed. -/
def bytes : StreamCall → List UInt8
  | fputc c => [Host.byteOf c.toInt]
  | fputs s => s.bytes
  | fwrite p => p.bytes
  | fprintf s => s.bytes
  | fflush => []

/-- The bytes that the call gets to. -/
def reached : StreamCall → List UInt8
  | fputs s => taken s.bytes
  | fprintf s => if s.bytes.length ≤ INT_MAX then s.bytes else []
  | c => c.bytes

/-- A string of `fputs` does not go on after a byte `0xFF`, one of `fprintf` has
a length that is an `int`. -/
def Complete : StreamCall → Prop
  | fputs s => 0xFF ∉ s.bytes.dropLast
  | fprintf s => s.bytes.length ≤ INT_MAX
  | _ => True

theorem reached_isPrefix (c : StreamCall) : c.reached <+: c.bytes := by
  cases c with
  | fputs s => exact taken_isPrefix s.bytes
  | fprintf s =>
      rw [reached, bytes]
      split
      · exact List.prefix_rfl
      · exact List.nil_prefix
  | fputc c => exact List.prefix_rfl
  | fwrite p => exact List.prefix_rfl
  | fflush => exact List.prefix_rfl

theorem reached_eq_iff (c : StreamCall) : c.reached = c.bytes ↔ c.Complete := by
  cases c with
  | fputs s => exact taken_eq_iff s.bytes
  | fprintf s =>
      rw [reached, bytes, Complete]
      split
      · next hfits => exact iff_of_true rfl hfits
      · next hlong =>
        refine iff_of_false (fun hnil ↦ hlong ?_) hlong
        rw [← hnil]
        exact Nat.zero_le _
  | fputc c => exact iff_of_true rfl trivial
  | fwrite p => exact iff_of_true rfl trivial
  | fflush => exact iff_of_true rfl trivial

end StreamCall

namespace Host

/-- What a stream has written, and what is in its buffer. -/
def sent (h : Host) (f : Stream) : List UInt8 := h.out (h.file f).fd ++ (h.file f).buf

def runCalls (h : Host) (f : Stream) (calls : List StreamCall) : Option Host :=
  calls.foldlM (StreamCall.run f) h

/-- The three ways to put out a string report success and do the same. -/
def OneMeaning (h : Host) (f : Stream) (s : StoredString) : Prop :=
  ∃ h' n, h.fputs f s.bytes = (0, h') ∧ h.fwrite (.ofString s) f = (s.bytes.length, h') ∧
    h.fprintf f stringFormat [.str s.toCString] = some (some n, h')

/-- States in the runs of a program: any calls on any streams, with any writes refused. -/
inductive Reached (refuse : ℕ → Bool) : Host → Prop
  | start : Reached refuse (Host.start refuse)
  | call {h h' : Host} {f : Stream} {c : StreamCall} :
      Reached refuse h → c.run f h = some h' → Reached refuse h'
  | output {h h' : Host} {c : OutputCall} :
      Reached refuse h → c.run h = some h' → Reached refuse h'

/-- A stream that takes bytes, and no write of which is refused from now on. -/
structure Ready (h : Host) (f : Stream) : Prop where
  writable : (h.file f).writable = true
  room : (h.file f).buf.length < FILE_BUFSIZ
  reliable : ∀ n, h.writes ≤ n → h.refuse n = false

variable {h h' : Host} {f g : Stream} {refuse : ℕ → Bool}

/-! ## While no write fails -/

/-- A stream writes its buffer to its descriptor. -/
theorem fflush_sent (hreliable : ∀ n, h.writes ≤ n → h.refuse n = false) :
    (h.fflush f).1 = 0 ∧ (h.fflush f).2.file f = { h.file f with buf := [] } ∧
      (h.fflush f).2.sent f = h.sent f ∧
      ∀ n, (h.fflush f).2.writes ≤ n → (h.fflush f).2.refuse n = false := by
  rw [fflush]
  split
  · next hempty =>
    refine ⟨rfl, ?_, rfl, hreliable⟩
    cases hfile : h.file f with
    | mk fd writable lineBuffered error buf =>
        rw [hfile] at hempty
        rw [show buf = [] from hempty]
  · have haccept : h.write (h.file f).fd (h.file f).buf =
        (((h.file f).buf.length : ℤ), ({ h with
          out := Function.update h.out (h.file f).fd (h.out (h.file f).fd ++ (h.file f).buf)
          writes := h.writes + 1 } : Host)) := by
      rw [Host.write, if_neg (by rw [hreliable h.writes le_rfl]; exact Bool.noConfusion)]
    rw [haccept]
    dsimp only
    rw [if_neg (by omega)]
    refine ⟨rfl, ?_, ?_, fun n hn ↦ hreliable n (Nat.le_of_succ_le hn)⟩
    · simp [modify]
    · simp [sent, modify]

/-- A byte goes behind the ones before it. -/
theorem Ready.fputc (hr : h.Ready f) (c : ℤ) : (h.fputc c f).1 = c ∧ (h.fputc c f).2.Ready f ∧
    (h.fputc c f).2.sent f = h.sent f ++ [byteOf c] := by
  set h₁ := h.modify f fun x ↦ { x with buf := x.buf ++ [byteOf c] } with hh₁
  have hfile : h₁.file f = { h.file f with buf := (h.file f).buf ++ [byteOf c] } := by
    simp [hh₁, modify]
  have hsent : h₁.sent f = h.sent f ++ [byteOf c] := by
    rw [sent, hfile, sent, List.append_assoc]
    rfl
  have hwritable : (h₁.file f).writable = true := by
    rw [hfile]
    exact hr.writable
  rw [Host.fputc, if_neg (by rw [hr.writable]; exact Bool.noConfusion)]
  dsimp only
  rw [← hh₁]
  split
  · obtain ⟨hzero, hflushed, hkept, hreliable⟩ := fflush_sent (h := h₁) (f := f) hr.reliable
    rw [hzero, if_neg (by decide)]
    refine ⟨rfl, ⟨?_, ?_, hreliable⟩, hkept.trans hsent⟩
    · rw [hflushed]
      exact hwritable
    · rw [hflushed]
      exact Nat.zero_lt_succ 255
  · next hstays =>
    refine ⟨rfl, ⟨hwritable, ?_, hr.reliable⟩, hsent⟩
    have hroom := hr.room
    have hfull : (h₁.file f).buf.length ≠ FILE_BUFSIZ := fun hfull ↦ hstays (Or.inl hfull)
    rw [hfile, List.length_append, List.length_singleton] at hfull ⊢
    omega

/-- A character is the same byte, whether it is signed or not. -/
theorem fputc_signedChar (h : Host) (f : Stream) (b : UInt8) :
    (h.fputc (signedChar b) f).2 = (h.fputc b.toNat f).2 := by
  simp only [Host.fputc, byteOf_signedChar, byteOf_toNat, signedChar_eq_newline, toNat_eq_newline]
  split
  · rfl
  · split
    · split <;> rfl
    · rfl

theorem Ready.emitFile (hr : h.Ready f) (b : UInt8) : (emitFile f b h).1 = true ∧
    (emitFile f b h).2.Ready f ∧ (emitFile f b h).2.sent f = h.sent f ++ [b] := by
  obtain ⟨hc, hready, hsent⟩ := hr.fputc b.toNat
  rw [byteOf_toNat] at hsent
  refine ⟨decide_eq_true (?_ : (h.fputc b.toNat f).1 ≠ EOF), hready, hsent⟩
  rw [hc, EOF]
  omega

theorem ready_accepts (f : Stream) : Accepts (Host.emitFile f) fun h ↦ h.Ready f :=
  fun b _ hr ↦ ⟨(hr.emitFile b).1, (hr.emitFile b).2.1⟩

/-- Bytes one after the other. -/
theorem Ready.emitted (hr : h.Ready f) (bytes : List UInt8) :
    (emitted (Host.emitFile f) bytes h).Ready f ∧
      (emitted (Host.emitFile f) bytes h).sent f = h.sent f ++ bytes := by
  induction bytes generalizing h with
  | nil => exact ⟨hr, (List.append_nil _).symm⟩
  | cons b bytes ih =>
      obtain ⟨-, hready, hsent⟩ := hr.emitFile b
      obtain ⟨hready', hsent'⟩ := ih hready
      refine ⟨hready', ?_⟩
      rw [hsent, List.append_assoc] at hsent'
      exact hsent'

/-! ## The three ways -/

/-- `fputs` stops behind a character that is `EOF`, and takes it for a failure. -/
theorem Ready.fputs (hr : h.Ready f) (s : List UInt8) :
    h.fputs f s = (if 0xFF ∈ s then EOF else 0, Libc.emitted (Host.emitFile f) (taken s) h) := by
  induction s generalizing h with
  | nil => rfl
  | cons b s ih =>
      obtain ⟨hc, -, -⟩ := hr.fputc (signedChar b)
      have hnext : (h.fputc (signedChar b) f).2 = (Host.emitFile f b h).2 := fputc_signedChar h f b
      rw [Host.fputs, taken]
      generalize h.fputc (signedChar b) f = r at hc hnext
      obtain ⟨c, h₁⟩ := r
      dsimp only at hc hnext ⊢
      rw [hc, hnext]
      by_cases hend : b = 0xFF
      · rw [if_pos ((signedChar_eq_eof b).mpr hend), if_pos hend, if_pos (by simp [hend])]
        rfl
      · have hmem : 0xFF ∈ b :: s ↔ 0xFF ∈ s := by simp [Ne.symm hend]
        rw [if_neg fun heof ↦ hend ((signedChar_eq_eof b).mp heof), if_neg hend,
          ih (hr.emitFile b).2.1]
        simp only [hmem]
        rfl

theorem Ready.fwriteLoop (hr : h.Ready f) (size nmemb i : ℕ) (bytes : List UInt8) :
    fwriteLoop f size nmemb i bytes h = (nmemb, Libc.emitted (Host.emitFile f) bytes h) := by
  induction bytes generalizing h i with
  | nil => rfl
  | cons b bytes ih =>
      obtain ⟨htrue, hready, -⟩ := hr.emitFile b
      have hc : (h.fputc b.toNat f).1 ≠ EOF := of_decide_eq_true htrue
      have hrest := ih hready (i + 1)
      rw [Host.fwriteLoop]
      dsimp only
      rw [if_neg hc]
      exact hrest

theorem Ready.fwrite (hr : h.Ready f) (p : Items) : h.fwrite p f =
    (if p.size = 0 then 0 else p.nmemb, Libc.emitted (Host.emitFile f) p.bytes h) := by
  rw [Host.fwrite]
  have hlength := p.length_eq
  by_cases hnone : p.size = 0 ∨ p.nmemb = 0
  · have hnil : p.bytes = [] := by
      rw [← List.length_eq_zero_iff, hlength]
      exact Nat.mul_eq_zero.mpr hnone
    have hzero : (if p.size = 0 then 0 else p.nmemb) = 0 := by
      rcases hnone with hsize | hnmemb
      · exact if_pos hsize
      · rw [hnmemb, ite_self]
    rw [if_pos hnone, hnil, hzero]
    rfl
  · rw [if_neg hnone, if_neg fun hsize ↦ hnone (Or.inl hsize)]
    exact hr.fwriteLoop p.size p.nmemb 0 p.bytes

/-- `"%s"` is one piece. -/
theorem vprintfGen_string {σ : Type} (emit : UInt8 → σ → Bool × σ) (s : CString) (st : σ) :
    vprintfGen emit stringFormat [.str s] st = some (putPieces emit [s.bytes] 0 st) := by
  have hturn : turn [PERCENT, 0x73] [.str s] = some ([s.bytes], [], []) := by
    rw [turn, show literal [PERCENT, 0x73] = none by decide]
    rfl
  rw [vprintfGen, stringFormat, vprintfLoop, if_neg (List.cons_ne_nil _ _), hturn, Option.bind_some]
  dsimp only
  cases hput : putPieces emit [s.bytes] 0 st with
  | mk r st' =>
      cases r with
      | none => rfl
      | some written => rfl

theorem Ready.fprintf (hr : h.Ready f) (s : CString) :
    h.fprintf f stringFormat [.str s] = some (if s.bytes.length ≤ INT_MAX then
      (some s.bytes.length, Libc.emitted (Host.emitFile f) s.bytes h) else (none, h)) := by
  rw [Host.fprintf, vprintfGen_string, putPieces, Nat.sub_zero]
  by_cases hfits : s.bytes.length ≤ INT_MAX
  · obtain ⟨hprint, -⟩ := print_accepts (ready_accepts f) s.bytes hr
    rw [if_neg (Nat.not_lt.mpr hfits), if_pos hfits, hprint]
    dsimp only
    rw [putPieces, Nat.zero_add]
  · rw [if_pos (Nat.lt_of_not_le hfits), if_neg hfits]

/-- Each call puts in the bytes it gets to. -/
theorem Ready.run (hr : h.Ready f) (c : StreamCall) : ∃ h', c.run f h = some h' ∧ h'.Ready f ∧
    h'.sent f = h.sent f ++ c.reached := by
  cases c with
  | fputc c =>
      obtain ⟨-, hready, hsent⟩ := hr.fputc c.toInt
      exact ⟨_, rfl, hready, hsent⟩
  | fputs s =>
      refine ⟨_, rfl, ?_⟩
      rw [hr.fputs]
      exact hr.emitted (taken s.bytes)
  | fwrite p =>
      refine ⟨_, rfl, ?_⟩
      rw [hr.fwrite]
      exact hr.emitted p.bytes
  | fprintf s =>
      rw [StreamCall.run, hr.fprintf, StreamCall.reached]
      refine ⟨_, rfl, ?_⟩
      split
      · exact hr.emitted s.bytes
      · exact ⟨hr, (List.append_nil _).symm⟩
  | fflush =>
      obtain ⟨-, hfile, hsent, hreliable⟩ := fflush_sent (f := f) hr.reliable
      refine ⟨_, rfl, ⟨?_, ?_, hreliable⟩, hsent.trans (List.append_nil _).symm⟩
      · rw [hfile]
        exact hr.writable
      · rw [hfile]
        exact Nat.zero_lt_succ 255

theorem Ready.runCalls (hr : h.Ready f) (calls : List StreamCall) :
    ∃ h', h.runCalls f calls = some h' ∧ h'.Ready f ∧
      h'.sent f = h.sent f ++ calls.flatMap StreamCall.reached := by
  induction calls generalizing h with
  | nil => exact ⟨h, rfl, hr, (List.append_nil _).symm⟩
  | cons c calls ih =>
      obtain ⟨h₁, hc, hr₁, hsent₁⟩ := hr.run c
      obtain ⟨h', hrest, hr', hsent'⟩ := ih hr₁
      refine ⟨h', ?_, hr', ?_⟩
      · rw [Host.runCalls, List.foldlM_cons, hc]
        exact hrest
      · rw [hsent', hsent₁, List.flatMap_cons, List.append_assoc]

/-! ## Every state of a program -/

/-- No buffer is full. -/
def Roomy (h : Host) : Prop := ∀ f, (h.file f).buf.length < FILE_BUFSIZ

theorem write_file (h : Host) (fd : ℕ) (bytes : List UInt8) : (h.write fd bytes).2.file = h.file := by
  rw [Host.write]
  split <;> rfl

/-- A flush empties a buffer, whether it fails or not. -/
theorem fflush_buf (h : Host) (f g : Stream) :
    ((h.fflush f).2.file g).buf = if g = f then [] else (h.file g).buf := by
  rw [Host.fflush]
  split
  · next hempty =>
    split
    · next heq => rw [heq, hempty]
    · rfl
  · have hfile := write_file h (h.file f).fd (h.file f).buf
    generalize h.write (h.file f).fd (h.file f).buf = r at hfile
    obtain ⟨n, h₁⟩ := r
    dsimp only at hfile ⊢
    by_cases hg : g = f
    · subst hg
      split <;> simp [modify]
    · split <;> simp [modify, hg, hfile]

theorem Roomy.fflush (hr : h.Roomy) (f : Stream) : (h.fflush f).2.Roomy := by
  intro g
  rw [fflush_buf]
  split
  · exact Nat.zero_lt_succ 255
  · exact hr g

theorem Roomy.fputc (hr : h.Roomy) (c : ℤ) (f : Stream) : (h.fputc c f).2.Roomy := by
  rw [Host.fputc]
  split
  · exact hr
  set h₁ := h.modify f fun x ↦ { x with buf := x.buf ++ [byteOf c] } with hh₁
  have hother : ∀ g, g ≠ f → h₁.file g = h.file g := by
    intro g hg
    simp [hh₁, modify, hg]
  have hfile : (h₁.file f).buf.length = (h.file f).buf.length + 1 := by
    simp [hh₁, modify]
  have hflush : (h₁.fflush f).2.Roomy := by
    intro g
    rw [fflush_buf]
    split
    · exact Nat.zero_lt_succ 255
    · next hg =>
      rw [hother g hg]
      exact hr g
  dsimp only
  split
  · split <;> exact hflush
  · next hstays =>
    intro g
    by_cases hg : g = f
    · subst hg
      have hroom := hr g
      have hfull : (h₁.file g).buf.length ≠ FILE_BUFSIZ := fun hfull ↦ hstays (Or.inl hfull)
      change (h₁.file g).buf.length < FILE_BUFSIZ
      omega
    · rw [hother g hg]
      exact hr g

theorem Roomy.fputs (hr : h.Roomy) (f : Stream) (s : List UInt8) : (h.fputs f s).2.Roomy := by
  induction s generalizing h with
  | nil => exact hr
  | cons b s ih =>
      have hput := hr.fputc (signedChar b) f
      rw [Host.fputs]
      dsimp only
      split
      · exact hput
      · exact ih hput

theorem Roomy.fwrite (hr : h.Roomy) (p : Items) (f : Stream) : (h.fwrite p f).2.Roomy := by
  have hloop : ∀ (bytes : List UInt8) (i : ℕ) {h : Host}, h.Roomy →
      (Host.fwriteLoop f p.size p.nmemb i bytes h).2.Roomy := by
    intro bytes
    induction bytes with
    | nil => exact fun _ _ hr ↦ hr
    | cons b bytes ih =>
        intro i h hr
        have hput := hr.fputc b.toNat f
        rw [Host.fwriteLoop]
        dsimp only
        split
        · exact hput
        · exact ih (i + 1) hput
  rw [Host.fwrite]
  split
  · exact hr
  · exact hloop p.bytes 0 hr

theorem Roomy.write (hr : h.Roomy) (fd : ℕ) (bytes : List UInt8) : (h.write fd bytes).2.Roomy := by
  intro g
  rw [write_file]
  exact hr g

theorem Roomy.putchar (hr : h.Roomy) (ic : ℤ) : (h.putchar ic).2.Roomy := by
  have hw := hr.write 1 [byteOf ic]
  rw [Host.putchar]
  dsimp only
  split
  · exact hw.fputc _ _
  · exact hw

theorem Roomy.puts (hr : h.Roomy) (s : CString) : (h.puts s).2.Roomy := by
  have hw := hr.write 1 s.bytes
  rw [Host.puts]
  dsimp only
  split
  · exact hw
  · have hw' := hw.write 1 [NEWLINE]
    split <;> exact hw'

end Host

/-- What an emit function keeps, formatted output keeps. -/
theorem vprintfGen_keeps {σ : Type} {emit : UInt8 → σ → Bool × σ} {P : σ → Prop}
    (hemit : ∀ b s, P s → P (emit b s).2) {format : CString} {args : List Arg} {s : σ} (hs : P s)
    {r : Option ℕ × σ} (h : vprintfGen emit format args s = some r) : P r.2 := by
  have hprint : ∀ (bytes : List UInt8) (s : σ), P s → P (print emit bytes s).2 := by
    intro bytes
    induction bytes with
    | nil => exact fun _ hs ↦ hs
    | cons b bytes ih =>
        intro s hs
        have hb := hemit b s hs
        rw [print]
        split
        · next heq =>
          rw [heq] at hb
          exact ih _ hb
        · next heq =>
          rw [heq] at hb
          exact hb
  have hpieces : ∀ (pieces : List (List UInt8)) (written : ℕ) (s : σ), P s →
      P (putPieces emit pieces written s).2 := by
    intro pieces
    induction pieces with
    | nil => exact fun _ _ hs ↦ hs
    | cons piece pieces ih =>
        intro written s hs
        have hpiece := hprint piece s hs
        rw [putPieces]
        split
        · exact hs
        · split
          · next heq =>
            rw [heq] at hpiece
            exact ih _ _ hpiece
          · next heq =>
            rw [heq] at hpiece
            exact hpiece
  have hloop : ∀ (fuel : ℕ) (format : List UInt8) (args : List Arg) (written : ℕ) (s : σ), P s →
      ∀ r, vprintfLoop emit fuel format args written s = some r → P r.2 := by
    intro fuel
    induction fuel with
    | zero =>
        intro format args written s hs r h
        cases h
    | succ fuel ih =>
        intro format args written s hs r h
        rw [vprintfLoop] at h
        split at h
        · rw [← Option.some.inj h]
          exact hs
        · obtain ⟨⟨pieces, rest, args'⟩, -, h⟩ := Option.bind_eq_some_iff.mp h
          have hput := hpieces pieces written s hs
          dsimp only at h
          split at h
          · next heq =>
            rw [heq] at hput
            rw [← Option.some.inj h]
            exact hput
          · next heq =>
            rw [heq] at hput
            exact ih _ _ _ _ hput r h
  exact hloop _ _ _ _ s hs r h

namespace Host

variable {h h' : Host} {f : Stream} {refuse : ℕ → Bool}

theorem Roomy.run (hr : h.Roomy) {c : StreamCall} (hc : c.run f h = some h') : h'.Roomy := by
  cases c with
  | fputc c =>
      obtain rfl := Option.some.inj hc
      exact hr.fputc _ f
  | fputs s =>
      obtain rfl := Option.some.inj hc
      exact hr.fputs f s.bytes
  | fwrite p =>
      obtain rfl := Option.some.inj hc
      exact hr.fwrite p f
  | fprintf s =>
      obtain ⟨r, hrun, rfl⟩ := Option.map_eq_some_iff.mp hc
      exact vprintfGen_keeps (P := Roomy) (fun b _ hr ↦ hr.fputc b.toNat f) hr hrun
  | fflush =>
      obtain rfl := Option.some.inj hc
      exact hr.fflush f

theorem Roomy.output (hr : h.Roomy) {c : OutputCall} (hc : c.run h = some h') : h'.Roomy := by
  have hstdout : ∀ t : Formatted, ∀ r, h.printf t.format t.args = some r → r.2.Roomy :=
    fun t r hrun ↦ vprintfGen_keeps (P := Roomy) (fun b _ hr ↦ hr.putchar b.toNat) hr hrun
  cases c with
  | printf t =>
      obtain ⟨r, hrun, rfl⟩ := Option.map_eq_some_iff.mp hc
      exact hstdout t r hrun
  | vprintf t =>
      obtain ⟨r, hrun, rfl⟩ := Option.map_eq_some_iff.mp hc
      exact hstdout t r hrun
  | puts s =>
      obtain rfl := Option.some.inj hc
      exact hr.puts s
  | putchar ic =>
      obtain rfl := Option.some.inj hc
      exact hr.putchar ic
  | fputc c =>
      obtain rfl := Option.some.inj hc
      exact hr.fputc c .stdout
  | fputs s =>
      obtain rfl := Option.some.inj hc
      exact hr.fputs .stdout s.bytes
  | fwrite p =>
      obtain rfl := Option.some.inj hc
      exact hr.fwrite p .stdout
  | fprintf t =>
      obtain ⟨r, hrun, rfl⟩ := Option.map_eq_some_iff.mp hc
      exact vprintfGen_keeps (P := Roomy) (fun b _ hr ↦ hr.fputc b.toNat .stdout) hr hrun

theorem Reached.roomy (h : Reached refuse h') : h'.Roomy := by
  induction h with
  | start =>
      intro f
      cases f <;> exact Nat.zero_lt_succ 255
  | call _ hc ih => exact ih.run hc
  | output _ hc ih => exact ih.output hc

end Host

/-- From any state of a program the buffer of a stream has room after every call,
and what the stream has written with what it holds is what it was given exactly
when every call is complete.  The three ways to put out a string agree exactly
when no character of it is taken for `EOF` and its length is an `int`. -/
theorem stream_one_meaning_iff {refuse : ℕ → Bool} {h : Host} (hreach : h.Reached refuse)
    {f : Stream} (hwritable : (h.file f).writable = true)
    (hreliable : ∀ n, h.writes ≤ n → h.refuse n = false) (calls : List StreamCall)
    (s : StoredString) :
    (∃ h', h.runCalls f calls = some h' ∧ (h'.file f).buf.length < FILE_BUFSIZ ∧
      (h'.sent f = h.sent f ++ calls.flatMap StreamCall.bytes ↔ ∀ c ∈ calls, c.Complete)) ∧
    (h.OneMeaning f s ↔ 0xFF ∉ s.bytes ∧ s.bytes.length ≤ INT_MAX) := by
  have hr : h.Ready f := ⟨hwritable, hreach.roomy f, hreliable⟩
  refine ⟨?_, ?_⟩
  · obtain ⟨h', hrun, hr', hsent⟩ := hr.runCalls calls
    refine ⟨h', hrun, hr'.room, ?_⟩
    rw [hsent, List.append_cancel_left_eq]
    constructor
    · intro heq c hc
      refine (StreamCall.reached_eq_iff c).mp ?_
      exact flatMap_isPrefix (fun c _ ↦ c.reached_isPrefix) (by rw [heq]) c hc
    · intro hall
      rw [List.flatMap_def, List.flatMap_def]
      exact congrArg List.flatten (List.map_congr_left fun c hc ↦ c.reached_eq_iff.mpr (hall c hc))
  · rw [Host.OneMeaning, hr.fputs, hr.fwrite, hr.fprintf]
    constructor
    · rintro ⟨h', n, hputs, -, hprintf⟩
      refine ⟨fun hmem ↦ ?_, ?_⟩
      · rw [if_pos hmem] at hputs
        exact absurd (congrArg Prod.fst hputs) (by decide : EOF ≠ 0)
      · by_contra hlong
        rw [if_neg hlong] at hprintf
        exact nomatch congrArg Prod.fst (Option.some.inj hprintf)
    · rintro ⟨hmem, hfits⟩
      have htaken : taken s.bytes = s.bytes :=
        (taken_eq_iff s.bytes).mpr fun hin ↦ hmem ((List.dropLast_sublist _).subset hin)
      refine ⟨_, s.bytes.length, ?_, rfl, ?_⟩
      · rw [if_neg hmem, htaken]
        rfl
      · rw [if_pos hfits]
        rfl

/-- A character, a flush and a string on the standard output. -/
theorem stream_one_meaning_ab : ∃ h', (Host.start fun _ ↦ false).runCalls .stdout
    [.fputc 0x61, .fflush, .fputs ⟨[0x61, 0x62], by decide⟩] = some h' ∧
      h'.sent .stdout = [0x61, 0x61, 0x62] := by
  obtain ⟨⟨h', hrun, -, hiff⟩, -⟩ := stream_one_meaning_iff
    (show Host.Reached (fun _ ↦ false) (Host.start fun _ ↦ false) from .start) (f := .stdout) rfl
    (fun _ _ ↦ rfl)
    [.fputc 0x61, .fflush, .fputs ⟨[0x61, 0x62], by decide⟩] ⟨⟨[0x61], by decide⟩, by decide⟩
  refine ⟨h', hrun, hiff.mpr ?_⟩
  simp [StreamCall.Complete]

/-- The character behind a byte `0xFF` is lost. -/
theorem fputs_loses : ¬ ∀ (refuse : ℕ → Bool) (h : Host) (f : Stream), h.Reached refuse →
    (h.file f).writable = true → (∀ n, h.writes ≤ n → h.refuse n = false) →
    ∀ (calls : List StreamCall) (h' : Host), h.runCalls f calls = some h' →
      h'.sent f = h.sent f ++ calls.flatMap StreamCall.bytes := by
  intro hall
  have hsent := hall (fun _ ↦ false) _ .stdout .start rfl (fun _ _ ↦ rfl)
    [.fputs ⟨[0xFF, 0x61], by decide⟩] _ rfl
  revert hsent
  decide

end Libc

end EclipseOS
