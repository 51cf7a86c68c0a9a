import EclipseOS.Libc.Stdio

/-!
# The order of the standard output

A byte that `printf`, `puts` or `putchar` writes goes ahead of those that wait
in the buffer of `stdout`.  `Pending` is the line buffer with such direct bytes;
the calls of the library are runs of it.
-/

namespace EclipseOS

namespace Libc

/-- A byte on its way to the standard output: written at once, or put into the
buffer, which a newline empties. -/
inductive Event
  | direct (b : UInt8)
  | buffered (b : UInt8) (newline : Bool)

/-- What was written and what is in the buffer. -/
structure Pending where
  out : List UInt8
  buf : List UInt8

namespace Event

def byte : Event → UInt8
  | direct b => b
  | buffered b _ => b

def directByte : Event → Option UInt8
  | direct b => some b
  | buffered _ _ => none

def bufferedByte : Event → Option UInt8
  | direct _ => none
  | buffered b _ => some b

end Event

namespace Pending

def feed (p : Pending) : Event → Pending
  | .direct b => ⟨p.out ++ [b], p.buf⟩
  | .buffered b newline =>
      if (p.buf ++ [b]).length = FILE_BUFSIZ ∨ newline then ⟨p.out ++ (p.buf ++ [b]), []⟩
      else ⟨p.out, p.buf ++ [b]⟩

/-- Everything in the order in which it arrives, with the buffer emptied at the end. -/
def delivered (p : Pending) : List UInt8 := p.out ++ p.buf

end Pending

/-! ## Epochs -/

/-- Direct bytes, then buffered ones. -/
def settle (epoch : List Event) : List UInt8 :=
  epoch.filterMap Event.directByte ++ epoch.filterMap Event.bufferedByte

/-- The events cut where the buffer is emptied.  `epoch` are those since the last
time. -/
def epochs (epoch : List Event) : List Event → List (List Event)
  | [] => [epoch]
  | .direct b :: es => epochs (epoch ++ [.direct b]) es
  | .buffered b newline :: es =>
      let epoch' := epoch ++ [.buffered b newline]
      if (epoch'.filterMap Event.bufferedByte).length = FILE_BUFSIZ ∨ newline then
        epoch' :: epochs [] es
      else epochs epoch' es

theorem settle_append_direct (epoch : List Event) (b : UInt8) :
    (epoch ++ [Event.direct b]).filterMap Event.directByte =
        epoch.filterMap Event.directByte ++ [b] ∧
      (epoch ++ [Event.direct b]).filterMap Event.bufferedByte =
        epoch.filterMap Event.bufferedByte := by
  simp [Event.directByte, Event.bufferedByte]

theorem settle_append_buffered (epoch : List Event) (b : UInt8) (newline : Bool) :
    (epoch ++ [Event.buffered b newline]).filterMap Event.directByte =
        epoch.filterMap Event.directByte ∧
      (epoch ++ [Event.buffered b newline]).filterMap Event.bufferedByte =
        epoch.filterMap Event.bufferedByte ++ [b] := by
  simp [Event.directByte, Event.bufferedByte]

/-- The line buffer delivers the epochs one after the other, each settled. -/
theorem delivered_epochs (es epoch : List Event) (out : List UInt8) :
    (es.foldl Pending.feed ⟨out ++ epoch.filterMap Event.directByte,
      epoch.filterMap Event.bufferedByte⟩).delivered = out ++ (epochs epoch es).flatMap settle := by
  induction es generalizing epoch out with
  | nil => simp [epochs, settle, Pending.delivered]
  | cons e es ih =>
      cases e with
      | direct b =>
          obtain ⟨hdirect, hbuffered⟩ := settle_append_direct epoch b
          have hrest := ih (epoch ++ [Event.direct b]) out
          rw [hdirect, hbuffered, ← List.append_assoc] at hrest
          exact hrest
      | buffered b newline =>
          obtain ⟨hdirect, hbuffered⟩ := settle_append_buffered epoch b newline
          rw [List.foldl_cons, Pending.feed, epochs]
          dsimp only
          rw [hbuffered]
          split
          · have hrest := ih [] (out ++ settle (epoch ++ [Event.buffered b newline]))
            rw [settle, hdirect, hbuffered] at hrest
            simp only [List.filterMap_nil, List.append_nil] at hrest
            rw [List.flatMap_cons, settle, hdirect, hbuffered, ← List.append_assoc out, ← hrest]
            simp only [List.append_assoc]
          · have hrest := ih (epoch ++ [Event.buffered b newline]) out
            rw [hdirect, hbuffered] at hrest
            exact hrest

theorem flatten_epochs (es epoch : List Event) : (epochs epoch es).flatten = epoch ++ es := by
  induction es generalizing epoch with
  | nil => simp [epochs]
  | cons e es ih =>
      cases e with
      | direct b => rw [epochs, ih, List.append_assoc, List.singleton_append]
      | buffered b newline =>
          rw [epochs]
          split
          · rw [List.flatten_cons, ih, List.nil_append, List.append_assoc, List.singleton_append]
          · rw [ih, List.append_assoc, List.singleton_append]

theorem settle_length (epoch : List Event) : (settle epoch).length = epoch.length := by
  induction epoch with
  | nil => rfl
  | cons e epoch ih =>
      rw [settle, List.length_append] at ih
      cases e with
      | direct b =>
          simp only [settle, List.filterMap_cons, Event.directByte, Event.bufferedByte,
            List.length_append, List.length_cons]
          omega
      | buffered b newline =>
          simp only [settle, List.filterMap_cons, Event.directByte, Event.bufferedByte,
            List.length_append, List.length_cons]
          omega

/-- Pieces of the same lengths. -/
theorem flatMap_eq_iff {α β : Type} {f g : α → List β} {l : List α}
    (h : ∀ x ∈ l, (f x).length = (g x).length) : l.flatMap f = l.flatMap g ↔ ∀ x ∈ l, f x = g x := by
  induction l with
  | nil => simp
  | cons x l ih =>
      have hrest := ih fun y hy ↦ h y (List.mem_cons_of_mem x hy)
      rw [List.flatMap_cons, List.flatMap_cons]
      constructor
      · intro heq y hy
        obtain ⟨hx, hl⟩ := List.append_inj heq (h x List.mem_cons_self)
        rcases List.mem_cons.mp hy with rfl | hy
        · exact hx
        · exact hrest.mp hl y hy
      · intro hall
        rw [hall x List.mem_cons_self, hrest.mpr fun y hy ↦ hall y (List.mem_cons_of_mem x hy)]

/-- Initial parts that make up the whole are whole. -/
theorem flatMap_isPrefix {α β : Type} {f g : α → List β} {l : List α}
    (h : ∀ x ∈ l, f x <+: g x) (hlen : (l.flatMap g).length ≤ (l.flatMap f).length) :
    ∀ x ∈ l, f x = g x := by
  have hle : ∀ l : List α, (∀ x ∈ l, f x <+: g x) →
      (l.flatMap f).length ≤ (l.flatMap g).length := by
    intro l h
    induction l with
    | nil => exact Nat.le_refl 0
    | cons x l ih =>
        have hx := (h x List.mem_cons_self).length_le
        have hl := ih fun y hy ↦ h y (List.mem_cons_of_mem x hy)
        rw [List.flatMap_cons, List.flatMap_cons, List.length_append, List.length_append]
        omega
  induction l with
  | nil => exact fun x hx ↦ nomatch hx
  | cons x l ih =>
      have hx := (h x List.mem_cons_self).length_le
      have hl := hle l fun y hy ↦ h y (List.mem_cons_of_mem x hy)
      rw [List.flatMap_cons, List.flatMap_cons, List.length_append, List.length_append] at hlen
      intro y hy
      rcases List.mem_cons.mp hy with rfl | hy
      · exact (h y List.mem_cons_self).eq_of_length (by omega)
      · exact ih (fun z hz ↦ h z (List.mem_cons_of_mem x hz)) (by omega) y hy

/-- The buffer delivers events in order just when every epoch does. -/
theorem delivered_in_order_iff (es : List Event) :
    (es.foldl Pending.feed ⟨[], []⟩).delivered = es.map Event.byte ↔
      ∀ epoch ∈ epochs [] es, settle epoch = epoch.map Event.byte := by
  have hdelivered := delivered_epochs es [] []
  simp only [List.filterMap_nil, List.append_nil, List.nil_append] at hdelivered
  have hbytes : es.map Event.byte = (epochs [] es).flatMap fun epoch ↦ epoch.map Event.byte := by
    rw [List.flatMap_def, ← List.map_flatten, flatten_epochs, List.nil_append]
  rw [hdelivered, hbytes]
  apply flatMap_eq_iff
  intro epoch _
  rw [settle_length, List.length_map]

theorem delivered_length (es : List Event) (p : Pending) :
    (es.foldl Pending.feed p).delivered.length = p.delivered.length + es.length := by
  induction es generalizing p with
  | nil => rfl
  | cons e es ih =>
      rw [List.foldl_cons, ih, List.length_cons]
      have hone : (p.feed e).delivered.length = p.delivered.length + 1 := by
        cases e with
        | direct b =>
            simp only [Pending.feed, Pending.delivered, List.length_append, List.length_singleton]
            omega
        | buffered b newline =>
            rw [Pending.feed]
            split <;>
              simp only [Pending.delivered, List.length_append, List.length_singleton,
                List.length_nil] <;>
              omega
      omega

/-! ## The calls -/

def taken : List UInt8 → List UInt8
  | [] => []
  | b :: s => if b = 0xFF then [b] else b :: taken s

namespace OutputCall

def events : OutputCall → List Event
  | printf f => f.text.map .direct
  | vprintf f => f.text.map .direct
  | puts s => (s.bytes ++ [NEWLINE]).map .direct
  | putchar ic => [.direct (Host.byteOf ic)]
  | fputc c => [.buffered (Host.byteOf c) (c = 0x0A)]
  | fputs s => (taken s.bytes).map fun b ↦ .buffered b (b = NEWLINE)
  | fwrite p => p.bytes.map fun b ↦ .buffered b (b = NEWLINE)
  | fprintf f => f.text.map fun b ↦ .buffered b (b = NEWLINE)

end OutputCall

namespace Host

variable {h : Host} {p : Pending}

/-- What the program has written and has still to write, when no write fails. -/
structure Shows (h : Host) (p : Pending) : Prop where
  reliable : ∀ n, h.refuse n = false
  out : h.out 1 = p.out
  buf : (h.file .stdout).buf = p.buf
  fd : (h.file .stdout).fd = 1
  writable : (h.file .stdout).writable = true
  lineBuffered : (h.file .stdout).lineBuffered = true
  stderr : (h.file .stderr).buf = []

theorem Shows.write (hs : h.Shows p) (bytes : List UInt8) : (h.write 1 bytes).1 = bytes.length ∧
    (h.write 1 bytes).2.Shows ⟨p.out ++ bytes, p.buf⟩ := by
  rw [Host.write, if_neg (by rw [hs.reliable]; decide)]
  refine ⟨rfl, hs.reliable, ?_, hs.buf, hs.fd, hs.writable, hs.lineBuffered, hs.stderr⟩
  dsimp only
  rw [Function.update_self, hs.out]

theorem Shows.fflush (hs : h.Shows p) : (h.fflush .stdout).1 = 0 ∧
    (h.fflush .stdout).2.Shows ⟨p.out ++ p.buf, []⟩ := by
  rw [Host.fflush]
  split
  · next hempty =>
    rw [hs.buf] at hempty
    refine ⟨rfl, hs.reliable, ?_, ?_, hs.fd, hs.writable, hs.lineBuffered, hs.stderr⟩
    · rw [hempty, List.append_nil, hs.out]
    · rw [hs.buf, hempty]
  · obtain ⟨hn, hw⟩ := hs.write p.buf
    rw [hs.fd, hs.buf]
    generalize h.write 1 p.buf = r at hn hw
    obtain ⟨n, h'⟩ := r
    dsimp only at hn hw ⊢
    rw [if_neg (by omega)]
    refine ⟨rfl, hw.reliable, hw.out, ?_, ?_, ?_, ?_, ?_⟩
    · simp [modify]
    · simpa [modify] using hw.fd
    · simpa [modify] using hw.writable
    · simpa [modify] using hw.lineBuffered
    · simpa [modify] using hw.stderr

theorem Shows.fputc (hs : h.Shows p) (c : ℤ) : (h.fputc c .stdout).1 = c ∧
    (h.fputc c .stdout).2.Shows (p.feed (.buffered (byteOf c) (c = 0x0A))) := by
  have hput : (h.modify .stdout fun x ↦ { x with buf := x.buf ++ [byteOf c] }).Shows
      ⟨p.out, p.buf ++ [byteOf c]⟩ := by
    refine ⟨hs.reliable, hs.out, ?_, ?_, ?_, ?_, ?_⟩
    · simp [modify, hs.buf]
    · simpa [modify] using hs.fd
    · simpa [modify] using hs.writable
    · simpa [modify] using hs.lineBuffered
    · simpa [modify] using hs.stderr
  rw [Host.fputc, if_neg (by rw [hs.writable]; decide)]
  dsimp only
  rw [hput.buf, hput.lineBuffered, Pending.feed]
  simp only [Bool.true_eq_false, false_or, decide_eq_true_eq]
  split
  · obtain ⟨hr, hf⟩ := hput.fflush
    rw [hr, if_neg (by decide)]
    exact ⟨rfl, hf⟩
  · exact ⟨rfl, hput⟩

theorem byteOf_toNat (b : UInt8) : byteOf b.toNat = b := by
  have hlt := b.toNat_lt
  rw [byteOf, show ((b.toNat : ℤ) % 256).toNat = b.toNat by omega, UInt8.ofNat_toNat]

theorem byteOf_signedChar (b : UInt8) : byteOf (signedChar b) = b := by
  have hlt := b.toNat_lt
  rw [byteOf, signedChar]
  split
  · rw [show ((b.toNat : ℤ) % 256).toNat = b.toNat by omega, UInt8.ofNat_toNat]
  · rw [show ((b.toNat - 256 : ℤ) % 256).toNat = b.toNat by omega, UInt8.ofNat_toNat]

theorem Shows.putchar (hs : h.Shows p) (ic : ℤ) : (h.putchar ic).1 = ic ∧
    (h.putchar ic).2.Shows (p.feed (.direct (byteOf ic))) := by
  obtain ⟨hn, hw⟩ := hs.write [byteOf ic]
  rw [Host.putchar]
  generalize h.write 1 [byteOf ic] = r at hn hw
  obtain ⟨n, h'⟩ := r
  dsimp only at hn hw ⊢
  rw [if_neg (by simpa using hn)]
  exact ⟨rfl, hw⟩

/-- Direct bytes leave the buffer as it is. -/
theorem feed_direct (bytes : List UInt8) (p : Pending) :
    (bytes.map Event.direct).foldl Pending.feed p = ⟨p.out ++ bytes, p.buf⟩ := by
  induction bytes generalizing p with
  | nil => simp
  | cons b bytes ih => rw [List.map_cons, List.foldl_cons, ih, Pending.feed, List.append_assoc,
      List.singleton_append]

theorem Shows.puts (hs : h.Shows p) (s : CString) :
    (h.puts s).2.Shows (((s.bytes ++ [NEWLINE]).map Event.direct).foldl Pending.feed p) := by
  obtain ⟨hn, hw⟩ := hs.write s.bytes
  rw [feed_direct, Host.puts]
  generalize h.write 1 s.bytes = r at hn hw
  obtain ⟨n, h'⟩ := r
  dsimp only at hn hw ⊢
  rw [if_neg (by simpa using hn)]
  obtain ⟨hn', hw'⟩ := hw.write [NEWLINE]
  generalize h'.write 1 [NEWLINE] = r' at hn' hw'
  obtain ⟨n', h''⟩ := r'
  dsimp only at hn' hw' ⊢
  rw [if_neg (by simpa using hn')]
  rw [List.append_assoc] at hw'
  exact hw'

theorem signedChar_eq_newline (b : UInt8) : signedChar b = 0x0A ↔ b = NEWLINE := by
  have hlt := b.toNat_lt
  have hnewline : b = NEWLINE ↔ b.toNat = 10 := UInt8.toNat_inj.symm
  have hsmall : b < 0x80 ↔ b.toNat < 128 := UInt8.lt_iff_toNat_lt
  rw [signedChar, hnewline]
  simp only [hsmall]
  split <;> omega

theorem signedChar_eq_eof (b : UInt8) : signedChar b = EOF ↔ b = 0xFF := by
  have hlt := b.toNat_lt
  have hlast : b = 0xFF ↔ b.toNat = 255 := UInt8.toNat_inj.symm
  have hsmall : b < 0x80 ↔ b.toNat < 128 := UInt8.lt_iff_toNat_lt
  rw [signedChar, hlast, EOF]
  simp only [hsmall]
  split <;> omega

theorem toNat_eq_newline (b : UInt8) : (b.toNat : ℤ) = 0x0A ↔ b = NEWLINE := by
  have hnewline : b = NEWLINE ↔ b.toNat = 10 := UInt8.toNat_inj.symm
  rw [hnewline]
  omega

theorem Shows.fputc_char (hs : h.Shows p) (b : UInt8) :
    (h.fputc (signedChar b) .stdout).1 = signedChar b ∧
      (h.fputc (signedChar b) .stdout).2.Shows (p.feed (.buffered b (b = NEWLINE))) := by
  have hput := hs.fputc (signedChar b)
  simpa only [byteOf_signedChar, signedChar_eq_newline] using hput

theorem Shows.fputc_byte (hs : h.Shows p) (b : UInt8) : (h.fputc b.toNat .stdout).1 ≠ EOF ∧
    (h.fputc b.toNat .stdout).2.Shows (p.feed (.buffered b (b = NEWLINE))) := by
  obtain ⟨hr, hput⟩ := hs.fputc b.toNat
  refine ⟨?_, ?_⟩
  · rw [hr, EOF]
    omega
  · simpa only [byteOf_toNat, toNat_eq_newline] using hput

/-- `fputs` stops after a byte that is `EOF` as a `char`. -/
theorem Shows.fputs (hs : h.Shows p) (s : List UInt8) : (fputs .stdout s h).2.Shows
    (((taken s).map fun b ↦ Event.buffered b (b = NEWLINE)).foldl Pending.feed p) := by
  induction s generalizing h p with
  | nil => exact hs
  | cons b s ih =>
      obtain ⟨hr, hput⟩ := hs.fputc_char b
      rw [Host.fputs, taken]
      generalize h.fputc (signedChar b) .stdout = r at hr hput
      obtain ⟨c, h'⟩ := r
      dsimp only at hr hput ⊢
      rw [hr]
      by_cases hend : b = 0xFF
      · rw [if_pos hend, if_pos ((signedChar_eq_eof b).mpr hend)]
        exact hput
      · rw [if_neg hend, if_neg fun heof ↦ hend ((signedChar_eq_eof b).mp heof)]
        exact ih hput

theorem Shows.fwriteLoop (hs : h.Shows p) (size nmemb i : ℕ) (bytes : List UInt8) :
    (fwriteLoop .stdout size nmemb i bytes h).2.Shows
      ((bytes.map fun b ↦ Event.buffered b (b = NEWLINE)).foldl Pending.feed p) := by
  induction bytes generalizing h p i with
  | nil => exact hs
  | cons b bytes ih =>
      obtain ⟨hr, hput⟩ := hs.fputc_byte b
      rw [Host.fwriteLoop]
      generalize h.fputc b.toNat .stdout = r at hr hput
      obtain ⟨c, h'⟩ := r
      dsimp only at hr hput ⊢
      rw [if_neg hr]
      exact ih hput (i + 1)

theorem Shows.fwrite (hs : h.Shows p) (items : Items) : (h.fwrite items .stdout).2.Shows
    ((items.bytes.map fun b ↦ Event.buffered b (b = NEWLINE)).foldl Pending.feed p) := by
  rw [Host.fwrite]
  split
  · next hnone =>
    have hlength := items.length_eq
    rw [Nat.mul_eq_zero.mpr hnone, List.length_eq_zero_iff] at hlength
    rw [hlength]
    exact hs
  · exact hs.fwriteLoop items.size items.nmemb 0 items.bytes

/-- The calls of an emit function are the events that it makes of each byte. -/
theorem shows_emitted {emit : UInt8 → Host → Bool × Host} {event : UInt8 → Event}
    (hemit : ∀ b h p, h.Shows p → (emit b h).2.Shows (p.feed (event b))) (text : List UInt8)
    (hs : h.Shows p) : (emitted emit text h).Shows ((text.map event).foldl Pending.feed p) := by
  induction text generalizing h p with
  | nil => exact hs
  | cons b text ih => exact ih (hemit b h p hs)

theorem Shows.emitStdout (hs : h.Shows p) (b : UInt8) :
    (emitStdout b h).1 = true ∧ (emitStdout b h).2.Shows (p.feed (.direct b)) := by
  obtain ⟨hr, hput⟩ := hs.putchar b.toNat
  rw [byteOf_toNat] at hput
  refine ⟨decide_eq_true (?_ : (h.putchar b.toNat).1 ≠ EOF), hput⟩
  rw [hr, EOF]
  omega

theorem Shows.emitFile (hs : h.Shows p) (b : UInt8) : (emitFile .stdout b h).1 = true ∧
    (emitFile .stdout b h).2.Shows (p.feed (.buffered b (b = NEWLINE))) := by
  obtain ⟨hr, hput⟩ := hs.fputc_byte b
  exact ⟨decide_eq_true hr, hput⟩

theorem Shows.printf (hs : h.Shows p) (f : Formatted) :
    ∃ h', (h.printf f.format f.args).map Prod.snd = some h' ∧
      h'.Shows ((f.text.map .direct).foldl Pending.feed p) := by
  have haccepts : Accepts Host.emitStdout fun h ↦ ∃ p, h.Shows p := by
    rintro b h ⟨p, hs⟩
    exact ⟨(hs.emitStdout b).1, _, (hs.emitStdout b).2⟩
  refine ⟨emitted Host.emitStdout f.text h, ?_, ?_⟩
  · rw [Host.printf, vprintfGen_accepts f haccepts ⟨p, hs⟩]
    rfl
  · exact shows_emitted (fun b h p hs ↦ (hs.emitStdout b).2) f.text hs

theorem Shows.fprintf (hs : h.Shows p) (f : Formatted) :
    ∃ h', (h.fprintf .stdout f.format f.args).map Prod.snd = some h' ∧
      h'.Shows ((f.text.map fun b ↦ Event.buffered b (b = NEWLINE)).foldl Pending.feed p) := by
  have haccepts : Accepts (Host.emitFile .stdout) fun h ↦ ∃ p, h.Shows p := by
    rintro b h ⟨p, hs⟩
    exact ⟨(hs.emitFile b).1, _, (hs.emitFile b).2⟩
  refine ⟨emitted (Host.emitFile .stdout) f.text h, ?_, ?_⟩
  · rw [Host.fprintf, vprintfGen_accepts f haccepts ⟨p, hs⟩]
    rfl
  · exact shows_emitted (fun b h p hs ↦ (hs.emitFile b).2) f.text hs

/-- Each call is its events. -/
theorem Shows.run (hs : h.Shows p) (c : OutputCall) :
    ∃ h', c.run h = some h' ∧ h'.Shows (c.events.foldl Pending.feed p) := by
  cases c with
  | printf f => exact hs.printf f
  | vprintf f => exact hs.printf f
  | puts s => exact ⟨_, rfl, hs.puts s⟩
  | putchar ic => exact ⟨_, rfl, (hs.putchar ic).2⟩
  | fputc c => exact ⟨_, rfl, (hs.fputc c).2⟩
  | fputs s => exact ⟨_, rfl, hs.fputs s.bytes⟩
  | fwrite items => exact ⟨_, rfl, hs.fwrite items⟩
  | fprintf f => exact hs.fprintf f

def runAll (h : Host) (calls : List OutputCall) : Option Host := calls.foldlM OutputCall.run h

theorem Shows.runAll (hs : h.Shows p) (calls : List OutputCall) :
    ∃ h', h.runAll calls = some h' ∧
      h'.Shows ((calls.flatMap OutputCall.events).foldl Pending.feed p) := by
  induction calls generalizing h p with
  | nil => exact ⟨h, rfl, hs⟩
  | cons c calls ih =>
      obtain ⟨h', hc, hs'⟩ := hs.run c
      obtain ⟨h'', hrest, hs''⟩ := ih hs'
      refine ⟨h'', ?_, ?_⟩
      · rw [Host.runAll, List.foldlM_cons, hc]
        exact hrest
      · rw [List.flatMap_cons, List.foldl_append]
        exact hs''

theorem Shows.exit (hs : h.Shows p) : h.exit.out 1 = p.delivered := by
  obtain ⟨-, hflush⟩ := hs.fflush
  rw [Host.exit, Host.fflush.eq_def _ .stderr, if_pos hflush.stderr]
  exact hflush.out

theorem start_shows {refuse : ℕ → Bool} (reliable : ∀ n, refuse n = false) :
    (start refuse).Shows ⟨[], []⟩ :=
  ⟨reliable, rfl, rfl, rfl, rfl, rfl, rfl⟩

end Host

/-! ## Order -/

theorem taken_isPrefix (s : List UInt8) : taken s <+: s := by
  induction s with
  | nil => exact List.prefix_rfl
  | cons b s ih =>
      rw [taken]
      split
      · exact ⟨s, rfl⟩
      · exact (List.prefix_cons_inj b).mpr ih

theorem taken_eq_iff (s : List UInt8) : taken s = s ↔ 0xFF ∉ s.dropLast := by
  induction s with
  | nil => simp [taken]
  | cons b s ih =>
      cases s with
      | nil => simp [taken]
      | cons b' s =>
          rw [taken, List.dropLast_cons_cons, List.mem_cons, not_or, ← ih]
          split
          · next hend => simp [hend]
          · next hgo => simp [Ne.symm hgo]

namespace OutputCall

/-- No call of `fputs` has to go on after a byte `0xFF`. -/
def Whole (calls : List OutputCall) : Prop := ∀ s, fputs s ∈ calls → 0xFF ∉ s.bytes.dropLast

/-- The bytes that a call gets to. -/
theorem events_byte (c : OutputCall) : (∃ s, c = fputs s ∧ c.events.map Event.byte = taken s.bytes) ∨
    (∀ s, c ≠ fputs s) ∧ c.events.map Event.byte = c.bytes := by
  have hdirect : Event.byte ∘ Event.direct = id := rfl
  have hbuffered : (Event.byte ∘ fun b ↦ Event.buffered b (b = NEWLINE)) = id := rfl
  cases c with
  | fputs s => exact .inl ⟨s, rfl, by rw [events, List.map_map, hbuffered, List.map_id]⟩
  | printf f =>
      refine .inr ⟨fun _ ↦ OutputCall.noConfusion, ?_⟩
      rw [events, bytes, List.map_map, hdirect, List.map_id]
  | vprintf f =>
      refine .inr ⟨fun _ ↦ OutputCall.noConfusion, ?_⟩
      rw [events, bytes, List.map_map, hdirect, List.map_id]
  | puts s =>
      refine .inr ⟨fun _ ↦ OutputCall.noConfusion, ?_⟩
      rw [events, bytes, List.map_map, hdirect, List.map_id]
  | putchar ic => exact .inr ⟨fun _ ↦ OutputCall.noConfusion, rfl⟩
  | fputc c => exact .inr ⟨fun _ ↦ OutputCall.noConfusion, rfl⟩
  | fwrite p =>
      refine .inr ⟨fun _ ↦ OutputCall.noConfusion, ?_⟩
      rw [events, bytes, List.map_map, hbuffered, List.map_id]
  | fprintf f =>
      refine .inr ⟨fun _ ↦ OutputCall.noConfusion, ?_⟩
      rw [events, bytes, List.map_map, hbuffered, List.map_id]

theorem events_isPrefix (c : OutputCall) : c.events.map Event.byte <+: c.bytes := by
  rcases events_byte c with ⟨s, rfl, hbyte⟩ | ⟨-, hbyte⟩
  · rw [hbyte]
    exact taken_isPrefix s.bytes
  · exact hbyte ▸ List.prefix_rfl

theorem events_eq_iff (c : OutputCall) : c.events.map Event.byte = c.bytes ↔
    ∀ s, c = fputs s → 0xFF ∉ s.bytes.dropLast := by
  rcases events_byte c with ⟨s, rfl, hbyte⟩ | ⟨hother, hbyte⟩
  · rw [hbyte]
    refine (taken_eq_iff s.bytes).trans ⟨?_, fun h ↦ h s rfl⟩
    rintro hwhole s' ⟨rfl⟩
    exact hwhole
  · exact ⟨fun _ s heq ↦ absurd heq (hother s), fun _ ↦ hbyte⟩

/-- Calls whose events are as many as their bytes have all of them. -/
theorem whole_of_length {calls : List OutputCall}
    (h : (calls.flatMap bytes).length ≤ (calls.flatMap events).length) :
    ∀ c ∈ calls, c.events.map Event.byte = c.bytes := by
  refine flatMap_isPrefix (f := fun c : OutputCall ↦ c.events.map Event.byte)
    (fun c _ ↦ events_isPrefix c) ?_
  rwa [← List.map_flatMap, List.length_map]

theorem bytes_eq_of_whole {calls : List OutputCall} (h : Whole calls) :
    calls.flatMap bytes = (calls.flatMap events).map Event.byte := by
  rw [List.map_flatMap, List.flatMap_def, List.flatMap_def]
  refine congrArg List.flatten (List.map_congr_left fun c hc ↦ ?_)
  exact ((events_eq_iff c).mpr fun s heq ↦ h s (heq ▸ hc)).symm

end OutputCall

/-- Without a failing write, the standard output is in program order just when no
string of `fputs` goes on after a byte `0xFF` and, between two times at which the
buffer is emptied, the direct bytes before the buffered ones are the bytes as they
came. -/
theorem stdout_in_order_iff (refuse : ℕ → Bool) (reliable : ∀ n, refuse n = false)
    (calls : List OutputCall) : ∃ h, (Host.start refuse).runAll calls = some h ∧
      (h.exit.out 1 = calls.flatMap OutputCall.bytes ↔ OutputCall.Whole calls ∧
        ∀ epoch ∈ epochs [] (calls.flatMap OutputCall.events),
          settle epoch = epoch.map Event.byte) := by
  obtain ⟨h, hrun, hs⟩ := (Host.start_shows reliable).runAll calls
  refine ⟨h, hrun, ?_⟩
  rw [hs.exit, ← delivered_in_order_iff]
  constructor
  · intro hdelivered
    have hlength := delivered_length (calls.flatMap OutputCall.events) ⟨[], []⟩
    rw [hdelivered, Pending.delivered, List.append_nil, List.length_nil, Nat.zero_add] at hlength
    have hall := OutputCall.whole_of_length (Nat.le_of_eq hlength)
    have hwhole : OutputCall.Whole calls :=
      fun s hmem ↦ (OutputCall.events_eq_iff _).mp (hall _ hmem) s rfl
    exact ⟨hwhole, hdelivered.trans (OutputCall.bytes_eq_of_whole hwhole)⟩
  · rintro ⟨hwhole, hdelivered⟩
    rw [hdelivered, OutputCall.bytes_eq_of_whole hwhole]

/-- The line of a buffered byte and a newline comes before a direct byte. -/
theorem stdout_in_order_line : ∃ h, (Host.start fun _ ↦ false).runAll
    [.fputc 0x61, .fputc 0x0A, .putchar 0x62] = some h ∧ h.exit.out 1 = [0x61, 0x0A, 0x62] := by
  obtain ⟨h, hrun, hiff⟩ := stdout_in_order_iff (fun _ ↦ false) (fun _ ↦ rfl)
    [.fputc 0x61, .fputc 0x0A, .putchar 0x62]
  refine ⟨h, hrun, hiff.mpr ⟨?_, ?_⟩⟩
  · intro s hs
    simp at hs
  · decide

/-- A direct byte overtakes a buffered one. -/
theorem stdout_overtaken : ¬ ∀ refuse : ℕ → Bool, (∀ n, refuse n = false) →
    ∀ (calls : List OutputCall) (h : Host), (Host.start refuse).runAll calls = some h →
      h.exit.out 1 = calls.flatMap OutputCall.bytes := by
  intro h
  have horder := h (fun _ ↦ false) (fun _ ↦ rfl) [.fputc 0x61, .putchar 0x62] _ rfl
  revert horder
  decide

end Libc

end EclipseOS
