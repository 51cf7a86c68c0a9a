import EclipseOS.Keyboard
import Mathlib.Data.Finset.Basic

/-!
# The modifier keys

The interrupt handler keeps one flag for each kind of modifier.  Two physical
keys share a flag, so the flag follows the keys as long as none of the two is
released while the other is held.
-/

namespace EclipseOS

/-- What the handler does besides changing its own state. -/
inductive KeyboardEffect
  | setLeds (capsLock : Bool)
  | kdbEnter
deriving DecidableEq

def scancodeAscii (sc : UInt8) : UInt8 :=
  [0, 27, 49, 50, 51, 52, 53, 54, 55, 56, 57, 48, 45, 61, 8,
    9, 113, 119, 101, 114, 116, 121, 117, 105, 111, 112, 91, 93, 10,
    0, 97, 115, 100, 102, 103, 104, 106, 107, 108, 59, 39, 96,
    0, 92, 122, 120, 99, 118, 98, 110, 109, 44, 46, 47, 0,
    42, 0, 32].getD sc.toNat 0

def scancodeShifted (sc : UInt8) : UInt8 :=
  [0, 27, 33, 64, 35, 36, 37, 94, 38, 42, 40, 41, 95, 43, 8,
    9, 81, 87, 69, 82, 84, 89, 85, 73, 79, 80, 123, 125, 10,
    0, 65, 83, 68, 70, 71, 72, 74, 75, 76, 58, 34, 126,
    0, 124, 90, 88, 67, 86, 66, 78, 77, 60, 62, 63, 0,
    42, 0, 32].getD sc.toNat 0

namespace Keyboard

/-- The character of a scancode under Shift and Caps Lock. -/
def translate (k : Keyboard) (sc : UInt8) : UInt8 :=
  let c := if k.shiftDown then scancodeShifted sc else scancodeAscii sc
  if k.capsLock ∧ 97 ≤ c ∧ c ≤ 122 then c - 32
  else if k.capsLock ∧ k.shiftDown ∧ 65 ≤ c ∧ c ≤ 90 then c + 32
  else c

/-- The scancode after a prefix.  Arrows, Home, End and Delete are ignored. -/
def extendedKey (sc : UInt8) (k : Keyboard) : Keyboard :=
  let k := { k with extended := false }
  if sc &&& 0x80 ≠ 0 then
    let k := if sc = 0x9D then { k with ctrlDown := false } else k
    if sc = 0xB8 then { k with altDown := false } else k
  else if sc = 0x1D then { k with ctrlDown := true }
  else if sc = 0x38 then { k with altDown := true }
  else k

def keyRelease (sc : UInt8) (k : Keyboard) : Keyboard :=
  let released := sc &&& 0x7F
  let k := if released = 0x2A ∨ released = 0x36 then { k with shiftDown := false } else k
  let k := if released = 0x1D then { k with ctrlDown := false } else k
  if released = 0x38 then { k with altDown := false } else k

def keyPress (sc : UInt8) (k : Keyboard) : Keyboard × Option KeyboardEffect :=
  if sc = 0x2A ∨ sc = 0x36 then ({ k with shiftDown := true }, none)
  else if sc = 0x1D then ({ k with ctrlDown := true }, none)
  else if sc = 0x38 then ({ k with altDown := true }, none)
  else if sc = 0x3A then
    ({ k with capsLock := !k.capsLock }, some (.setLeds !k.capsLock))
  else
    let c := k.translate sc
    if k.ctrlDown ∧ sc = 0x20 then
      ({ k with ctrlDown := false, shiftDown := false, altDown := false }, some .kdbEnter)
    else if c ≠ 0 then (k.kbdPush c, none)
    else (k, none)

def keyboardCallback (sc : UInt8) (k : Keyboard) : Keyboard × Option KeyboardEffect :=
  if sc = 0xFA ∨ sc = 0xFE then (k, none)
  else if sc = 0xE0 then ({ k with extended := true }, none)
  else if k.extended then (k.extendedKey sc, none)
  else if sc &&& 0x80 ≠ 0 then (k.keyRelease sc, none)
  else k.keyPress sc

/-- One interrupt for each byte, and whether the debugger was entered. -/
def feed (k : Keyboard) : List UInt8 → Keyboard × Bool
  | [] => (k, false)
  | sc :: rest =>
      let (k', effect) := k.keyboardCallback sc
      let (k'', entered) := k'.feed rest
      (k'', entered || effect = some .kdbEnter)

end Keyboard

/-- A key by its scancode, with the `E0` prefix or without. -/
structure Key where
  extended : Bool
  code : UInt8
deriving DecidableEq

namespace Key

/-- Neither of the scancodes of a key is a prefix, nor a reply if a prefix is before it. -/
structure Valid (key : Key) : Prop where
  small : key.code < 0x80
  noPrefix : key.code ≠ 0x60
  noReply : key.extended = true → key.code ≠ 0x7A ∧ key.code ≠ 0x7E

end Key

inductive KeyEvent
  /-- A press, or a typematic repeat of one. -/
  | press (key : Key)
  | release (key : Key)
deriving DecidableEq

namespace KeyEvent

def key : KeyEvent → Key
  | press key => key
  | release key => key

def scancode : KeyEvent → UInt8
  | press key => key.code
  | release key => key.code ||| 0x80

def bytes (e : KeyEvent) : List UInt8 :=
  if e.key.extended then [0xE0, e.scancode] else [e.scancode]

/-- The keys held after an event. -/
def apply (held : Finset Key) : KeyEvent → Finset Key
  | press key => insert key held
  | release key => held.erase key

end KeyEvent

/-- Bytes with replies of the controller anywhere between them. -/
inductive WithReplies : List UInt8 → List UInt8 → Prop
  | nil : WithReplies [] []
  | byte (sc : UInt8) {bytes stream : List UInt8} (h : WithReplies bytes stream) :
      WithReplies (sc :: bytes) (sc :: stream)
  | reply (sc : UInt8) {bytes stream : List UInt8} (hsc : sc = 0xFA ∨ sc = 0xFE)
      (h : WithReplies bytes stream) : WithReplies bytes (sc :: stream)

/-- A key event as the handler meets it. -/
structure KeyInput where
  event : KeyEvent
  stream : List UInt8
  /-- What the debugger reads by itself, if the event enters it, until it returns. -/
  debugged : List KeyEvent
  valid : event.key.Valid
  replies : WithReplies event.bytes stream

/-- The handler's state and the keys that are held. -/
structure Typing where
  keyboard : Keyboard
  held : Finset Key

namespace Typing

def initial : Typing := { keyboard := Keyboard.initial, held := ∅ }

def step (t : Typing) (input : KeyInput) : Typing :=
  let (keyboard, entered) := t.keyboard.feed input.stream
  let held := input.event.apply t.held
  { keyboard, held := if entered then input.debugged.foldl KeyEvent.apply held else held }

def run (t : Typing) (inputs : List KeyInput) : Typing := inputs.foldl step t

end Typing

inductive Modifier
  | shift
  | ctrl
  | alt
deriving DecidableEq

namespace Modifier

/-- The two keys of a modifier. -/
def keys : Modifier → Finset Key
  | shift => {⟨false, 0x2A⟩, ⟨false, 0x36⟩}
  | ctrl => {⟨false, 0x1D⟩, ⟨true, 0x1D⟩}
  | alt => {⟨false, 0x38⟩, ⟨true, 0x38⟩}

def flag (k : Keyboard) : Modifier → Bool
  | shift => k.shiftDown
  | ctrl => k.ctrlDown
  | alt => k.altDown

/-- At least one of the two keys is held. -/
def Held (held : Finset Key) (m : Modifier) : Prop := ∃ key ∈ m.keys, key ∈ held

instance (held : Finset Key) (m : Modifier) : Decidable (m.Held held) :=
  inferInstanceAs (Decidable (∃ key ∈ m.keys, key ∈ held))

end Modifier

namespace Typing

/-- The flags are those of the keys that are held. -/
def Tracks (t : Typing) : Prop := ∀ m : Modifier, m.flag t.keyboard = true ↔ m.Held t.held

end Typing

namespace Keyboard

variable {k : Keyboard} {c : UInt8}

theorem feed_reply {sc : UInt8} (hsc : sc = 0xFA ∨ sc = 0xFE) (rest : List UInt8) :
    k.feed (sc :: rest) = k.feed rest := by
  simp [feed, keyboardCallback, hsc]

theorem feed_withReplies {bytes stream : List UInt8} (h : WithReplies bytes stream) :
    k.feed stream = k.feed bytes := by
  induction h generalizing k with
  | nil => rfl
  | byte sc h ih => simp only [feed, ih]
  | reply sc hsc h ih => rw [feed_reply hsc, ih]

/-- The scancode of a press. -/
theorem press_byte (hc : c < 0x80) : c ≠ 0xFA ∧ c ≠ 0xFE ∧ c ≠ 0xE0 ∧ c &&& 0x80 = 0 := by
  have hall : ∀ n < 128, UInt8.ofNat n ≠ 0xFA ∧ UInt8.ofNat n ≠ 0xFE ∧ UInt8.ofNat n ≠ 0xE0 ∧
      UInt8.ofNat n &&& 0x80 = 0 := by decide
  simpa using hall c.toNat hc

/-- The scancode of a release. -/
theorem release_byte (hc : c < 0x80) :
    (c ||| 0x80) &&& 0x80 ≠ 0 ∧ (c ||| 0x80) &&& 0x7F = c ∧ (c ||| 0x80 = 0xE0 ↔ c = 0x60) ∧
      (c ||| 0x80 = 0xFA ↔ c = 0x7A) ∧ (c ||| 0x80 = 0xFE ↔ c = 0x7E) ∧
      (c ||| 0x80 = 0x9D ↔ c = 0x1D) ∧ (c ||| 0x80 = 0xB8 ↔ c = 0x38) := by
  have hall : ∀ n < 128,
      (UInt8.ofNat n ||| 0x80) &&& 0x80 ≠ 0 ∧ (UInt8.ofNat n ||| 0x80) &&& 0x7F = UInt8.ofNat n ∧
      (UInt8.ofNat n ||| 0x80 = 0xE0 ↔ UInt8.ofNat n = 0x60) ∧
      (UInt8.ofNat n ||| 0x80 = 0xFA ↔ UInt8.ofNat n = 0x7A) ∧
      (UInt8.ofNat n ||| 0x80 = 0xFE ↔ UInt8.ofNat n = 0x7E) ∧
      (UInt8.ofNat n ||| 0x80 = 0x9D ↔ UInt8.ofNat n = 0x1D) ∧
      (UInt8.ofNat n ||| 0x80 = 0xB8 ↔ UInt8.ofNat n = 0x38) := by decide
  simpa using hall c.toNat hc

@[simp] theorem kbdPush_extended : (k.kbdPush c).extended = k.extended := by
  rw [kbdPush]
  split <;> rfl

@[simp] theorem flag_kbdPush (m : Modifier) : m.flag (k.kbdPush c) = m.flag k := by
  rw [kbdPush]
  split <;> cases m <;> rfl

/-- A press is of a modifier, of Caps Lock, of Ctrl+D or of a character. -/
theorem keyPress_cases (k : Keyboard) (sc : UInt8) :
    ((sc = 0x2A ∨ sc = 0x36) ∧ k.keyPress sc = ({ k with shiftDown := true }, none)) ∨
    (sc = 0x1D ∧ k.keyPress sc = ({ k with ctrlDown := true }, none)) ∨
    (sc = 0x38 ∧ k.keyPress sc = ({ k with altDown := true }, none)) ∨
    (sc = 0x3A ∧
      k.keyPress sc = ({ k with capsLock := !k.capsLock }, some (.setLeds !k.capsLock))) ∨
    (k.ctrlDown = true ∧ sc = 0x20 ∧ k.keyPress sc =
      ({ k with ctrlDown := false, shiftDown := false, altDown := false }, some .kdbEnter)) ∨
    (¬ (k.ctrlDown = true ∧ sc = 0x20) ∧ sc ≠ 0x2A ∧ sc ≠ 0x36 ∧ sc ≠ 0x1D ∧ sc ≠ 0x38 ∧
      ∃ k', (k' = k ∨ ∃ c ≠ 0, k' = k.kbdPush c) ∧ k.keyPress sc = (k', none)) := by
  by_cases hshift : sc = 0x2A ∨ sc = 0x36
  · exact .inl ⟨hshift, by simp [keyPress, hshift]⟩
  have hne := not_or.mp hshift
  by_cases hctrl : sc = 0x1D
  · exact .inr (.inl ⟨hctrl, by simp [keyPress, hctrl]⟩)
  by_cases halt : sc = 0x38
  · exact .inr (.inr (.inl ⟨halt, by simp [keyPress, halt]⟩))
  by_cases hcaps : sc = 0x3A
  · exact .inr (.inr (.inr (.inl ⟨hcaps, by simp [keyPress, hcaps]⟩)))
  by_cases hdebug : k.ctrlDown = true ∧ sc = 0x20
  · exact .inr (.inr (.inr (.inr (.inl ⟨hdebug.1, hdebug.2, by simp [keyPress, hdebug]⟩))))
  refine .inr (.inr (.inr (.inr (.inr ⟨hdebug, hne.1, hne.2, hctrl, halt, ?_⟩))))
  by_cases hchar : k.translate sc = 0
  · refine ⟨k, .inl rfl, ?_⟩
    simp only [keyPress, hshift, hctrl, halt, hcaps, hdebug, hchar, if_false, ne_eq,
      not_true_eq_false]
  · refine ⟨k.kbdPush (k.translate sc), .inr ⟨k.translate sc, hchar, rfl⟩, ?_⟩
    simp only [keyPress, hshift, hctrl, halt, hcaps, hdebug, hchar, if_false, ne_eq,
      not_false_eq_true, if_true]

/-- The debugger is entered by Ctrl+D only. -/
theorem keyPress_entered (sc : UInt8) :
    (k.keyPress sc).2 = some .kdbEnter ↔ k.ctrlDown = true ∧ sc = 0x20 := by
  obtain ⟨hsc | hsc, heq⟩ | ⟨hsc, heq⟩ | ⟨hsc, heq⟩ | ⟨hsc, heq⟩ | ⟨hctrl, hsc, heq⟩ |
    ⟨hnot, -, -, -, -, k', -, heq⟩ := k.keyPress_cases sc
  all_goals rw [heq]
  · simp [hsc]
  · simp [hsc]
  · simp [hsc]
  · simp [hsc]
  · simp [hsc]
  · simp [hsc, hctrl]
  · simpa using hnot

theorem keyPress_extended (sc : UInt8) : (k.keyPress sc).1.extended = k.extended := by
  obtain ⟨-, heq⟩ | ⟨-, heq⟩ | ⟨-, heq⟩ | ⟨-, heq⟩ | ⟨-, -, heq⟩ |
    ⟨-, -, -, -, -, k', rfl | ⟨c, -, rfl⟩, heq⟩ := k.keyPress_cases sc
  all_goals rw [heq]
  simp

/-- A press sets the flag of its modifier, unless it enters the debugger. -/
theorem flag_keyPress (sc : UInt8) (m : Modifier) :
    m.flag (k.keyPress sc).1 =
      if (k.keyPress sc).2 = some .kdbEnter then false
      else m.flag k || decide ((⟨false, sc⟩ : Key) ∈ m.keys) := by
  obtain ⟨hsc | hsc, heq⟩ | ⟨hsc, heq⟩ | ⟨hsc, heq⟩ | ⟨hsc, heq⟩ | ⟨-, -, heq⟩ |
    ⟨-, hl, hr, hctrl, halt, k', hk, heq⟩ := k.keyPress_cases sc
  all_goals rw [heq]
  · cases m <;> simp [hsc, Modifier.flag, Modifier.keys]
  · cases m <;> simp [hsc, Modifier.flag, Modifier.keys]
  · cases m <;> simp [hsc, Modifier.flag, Modifier.keys]
  · cases m <;> simp [hsc, Modifier.flag, Modifier.keys]
  · cases m <;> simp [hsc, Modifier.flag, Modifier.keys]
  · cases m <;> simp [Modifier.flag]
  · have hflag : m.flag k' = m.flag k := by
      obtain rfl | ⟨c, -, rfl⟩ := hk
      · rfl
      · exact flag_kbdPush m
    have hother : (⟨false, sc⟩ : Key) ∉ m.keys := by
      cases m <;> simp [Modifier.keys, hl, hr, hctrl, halt]
    simp [hflag, hother]

/-- A release clears the flag of its modifier. -/
theorem flag_keyRelease (hc : c < 0x80) (m : Modifier) :
    m.flag (k.keyRelease (c ||| 0x80)) = (m.flag k && decide ((⟨false, c⟩ : Key) ∉ m.keys)) := by
  have hcode := (release_byte hc).2.1
  rw [keyRelease, hcode]
  cases m
  · by_cases hsc : c = 0x2A ∨ c = 0x36
    · rcases hsc with rfl | rfl <;> simp [Modifier.flag, Modifier.keys]
    · by_cases hctrl : c = 0x1D <;> by_cases halt : c = 0x38 <;>
        simp_all [Modifier.flag, Modifier.keys]
  · by_cases hsc : c = 0x1D
    · simp [hsc, Modifier.flag, Modifier.keys]
    · by_cases hshift : c = 0x2A ∨ c = 0x36 <;> by_cases halt : c = 0x38 <;>
        simp_all [Modifier.flag, Modifier.keys]
  · by_cases hsc : c = 0x38
    · simp [hsc, Modifier.flag, Modifier.keys]
    · by_cases hshift : c = 0x2A ∨ c = 0x36 <;> by_cases hctrl : c = 0x1D <;>
        simp_all [Modifier.flag, Modifier.keys]

theorem flag_extendedKey_press (hc : c < 0x80) (m : Modifier) :
    m.flag (k.extendedKey c) = (m.flag k || decide ((⟨true, c⟩ : Key) ∈ m.keys)) := by
  obtain ⟨-, -, -, hlow⟩ := press_byte hc
  simp only [extendedKey, hlow]
  by_cases hctrl : c = 0x1D
  · cases m <;> simp [hctrl, Modifier.flag, Modifier.keys]
  by_cases halt : c = 0x38
  · cases m <;> simp [halt, Modifier.flag, Modifier.keys]
  · cases m <;> simp [hctrl, halt, Modifier.flag, Modifier.keys]

theorem flag_extendedKey_release (hc : c < 0x80) (m : Modifier) :
    m.flag (k.extendedKey (c ||| 0x80)) =
      (m.flag k && decide ((⟨true, c⟩ : Key) ∉ m.keys)) := by
  obtain ⟨hhigh, -, -, -, -, hctrl', halt'⟩ := release_byte hc
  simp only [extendedKey, if_pos hhigh, hctrl', halt']
  by_cases hctrl : c = 0x1D
  · cases m <;> simp [hctrl, Modifier.flag, Modifier.keys]
  by_cases halt : c = 0x38
  · cases m <;> simp [halt, Modifier.flag, Modifier.keys]
  · cases m <;> simp [hctrl, halt, Modifier.flag, Modifier.keys]

@[simp] theorem extendedKey_extended (sc : UInt8) : (k.extendedKey sc).extended = false := by
  rw [extendedKey]
  split_ifs <;> rfl

@[simp] theorem keyRelease_extended (sc : UInt8) : (k.keyRelease sc).extended = k.extended := by
  rw [keyRelease]
  split_ifs <;> rfl

/-- What the bytes of one key event do to the flags. -/
structure Handles (k k' : Keyboard) (e : KeyEvent) (entered : Bool) : Prop where
  extended : k'.extended = false
  entered_iff : entered = true ↔ k.ctrlDown = true ∧ e = .press ⟨false, 0x20⟩
  cleared : entered = true → ∀ m : Modifier, m.flag k' = false
  press : ∀ key, e = .press key → entered = false →
    ∀ m : Modifier, m.flag k' = (m.flag k || decide (key ∈ m.keys))
  release : ∀ key, e = .release key →
    ∀ m : Modifier, m.flag k' = (m.flag k && decide (key ∉ m.keys))

theorem feed_prefix {sc : UInt8} (hFA : sc ≠ 0xFA) (hFE : sc ≠ 0xFE) (hE0 : sc ≠ 0xE0) :
    k.feed [0xE0, sc] = (k.extendedKey sc, false) := by
  simp [feed, keyboardCallback, hFA, hFE, hE0, extendedKey]

theorem feed_singleton (sc : UInt8) :
    k.feed [sc] = ((k.keyboardCallback sc).1, decide ((k.keyboardCallback sc).2 = some .kdbEnter)) := by
  simp [feed]

theorem callback_press (hc : c < 0x80) (hext : k.extended = false) :
    k.keyboardCallback c = k.keyPress c := by
  obtain ⟨hFA, hFE, hE0, hlow⟩ := press_byte hc
  simp [keyboardCallback, hFA, hFE, hE0, hlow, hext]

/-- The release of a plain key may look like a reply; it is then of no modifier. -/
theorem callback_release (hc : c < 0x80) (hE0 : c ≠ 0x60) (hext : k.extended = false) :
    (k.keyboardCallback (c ||| 0x80)).2 = none ∧
      (k.keyboardCallback (c ||| 0x80)).1.extended = false ∧
      ∀ m : Modifier, m.flag (k.keyboardCallback (c ||| 0x80)).1 =
        (m.flag k && decide ((⟨false, c⟩ : Key) ∉ m.keys)) := by
  obtain ⟨hhigh, -, hE0', hFA', hFE', -, -⟩ := release_byte hc
  by_cases hreply : c = 0x7A ∨ c = 0x7E
  · have hcall : k.keyboardCallback (c ||| 0x80) = (k, none) := by
      simp only [keyboardCallback, hFA', hFE', hreply, if_true]
    rw [hcall]
    refine ⟨rfl, hext, fun m ↦ ?_⟩
    rcases hreply with rfl | rfl <;> cases m <;> simp [Modifier.keys]
  · have hcall : k.keyboardCallback (c ||| 0x80) = (k.keyRelease (c ||| 0x80), none) := by
      simp only [keyboardCallback, hFA', hFE', hE0', hreply, hE0, hext, if_false,
        Bool.false_eq_true, if_pos hhigh]
    rw [hcall]
    exact ⟨rfl, by simpa using hext, flag_keyRelease hc⟩

theorem handles_press {key : Key} (hv : key.Valid) (hext : k.extended = false) :
    k.Handles (k.feed (KeyEvent.press key).bytes).1 (.press key)
      (k.feed (KeyEvent.press key).bytes).2 := by
  obtain ⟨extended, c⟩ := key
  cases extended with
  | false =>
      have hfeed : k.feed (KeyEvent.press ⟨false, c⟩).bytes =
          ((k.keyPress c).1, decide ((k.keyPress c).2 = some .kdbEnter)) := by
        simp [KeyEvent.bytes, KeyEvent.key, KeyEvent.scancode, feed_singleton,
          callback_press hv.small hext]
      rw [hfeed]
      refine ⟨by simpa [keyPress_extended] using hext, ?_, fun hentered m ↦ ?_, ?_, ?_⟩
      · simp [keyPress_entered]
      · rw [flag_keyPress, if_pos (of_decide_eq_true hentered)]
      · rintro _ ⟨⟩ hentered m
        rw [flag_keyPress, if_neg (of_decide_eq_false hentered)]
      · rintro _ ⟨⟩
  | true =>
      obtain ⟨hFA, hFE, hE0, -⟩ := press_byte hv.small
      have hfeed : k.feed (KeyEvent.press ⟨true, c⟩).bytes = (k.extendedKey c, false) :=
        feed_prefix hFA hFE hE0
      rw [hfeed]
      refine ⟨by simp, by simp, by simp, ?_, ?_⟩
      · rintro _ ⟨⟩ -
        exact flag_extendedKey_press hv.small
      · rintro _ ⟨⟩

theorem handles_release {key : Key} (hv : key.Valid) (hext : k.extended = false) :
    k.Handles (k.feed (KeyEvent.release key).bytes).1 (.release key)
      (k.feed (KeyEvent.release key).bytes).2 := by
  obtain ⟨extended, c⟩ := key
  cases extended with
  | false =>
      have hfeed : k.feed (KeyEvent.release ⟨false, c⟩).bytes =
          ((k.keyboardCallback (c ||| 0x80)).1, false) := by
        simp [KeyEvent.bytes, KeyEvent.key, KeyEvent.scancode, feed_singleton,
          (callback_release hv.small hv.noPrefix hext).1]
      obtain ⟨-, hext', hflag⟩ := callback_release hv.small hv.noPrefix hext
      rw [hfeed]
      refine ⟨hext', by simp, by simp, ?_, ?_⟩
      · rintro _ ⟨⟩
      · rintro _ ⟨⟩
        exact hflag
  | true =>
      obtain ⟨-, -, hE0', hFA', hFE', -, -⟩ := release_byte hv.small
      obtain ⟨hFA, hFE⟩ := hv.noReply rfl
      have hfeed : k.feed (KeyEvent.release ⟨true, c⟩).bytes =
          (k.extendedKey (c ||| 0x80), false) :=
        feed_prefix (mt hFA'.mp hFA) (mt hFE'.mp hFE) (mt hE0'.mp hv.noPrefix)
      rw [hfeed]
      refine ⟨by simp, by simp, by simp, ?_, ?_⟩
      · rintro _ ⟨⟩
      · rintro _ ⟨⟩
        exact flag_extendedKey_release hv.small

theorem handles {e : KeyEvent} (hv : e.key.Valid) (hext : k.extended = false) :
    k.Handles (k.feed e.bytes).1 e (k.feed e.bytes).2 := by
  cases e with
  | press key => exact handles_press hv hext
  | release key => exact handles_release hv hext

end Keyboard

namespace Typing

variable {t : Typing} {input : KeyInput}

/-- No key of a modifier is released while the other is held, and none is held when
the debugger returns. -/
def Clean (t : Typing) (input : KeyInput) : Prop :=
  (∀ key, input.event = .release key → ∀ m : Modifier, key ∈ m.keys →
    ∀ twin ∈ m.keys, twin ≠ key → twin ∉ t.held) ∧
  (input.event = .press ⟨false, 0x20⟩ → Modifier.ctrl.Held t.held → ∀ m : Modifier,
    ¬ m.Held (input.debugged.foldl KeyEvent.apply (input.event.apply t.held)))

theorem handles_step (input : KeyInput) (hext : t.keyboard.extended = false) :
    t.keyboard.Handles (t.step input).keyboard input.event (t.keyboard.feed input.stream).2 := by
  have hfeed : t.keyboard.feed input.stream = t.keyboard.feed input.event.bytes :=
    Keyboard.feed_withReplies input.replies
  rw [step, hfeed]
  exact Keyboard.handles input.valid hext

theorem held_insert {held : Finset Key} {key : Key} {m : Modifier} :
    m.Held (insert key held) ↔ m.Held held ∨ key ∈ m.keys := by
  simp only [Modifier.Held, Finset.mem_insert]
  constructor
  · rintro ⟨j, hj, rfl | hheld⟩
    · exact .inr hj
    · exact .inl ⟨j, hj, hheld⟩
  · rintro (⟨j, hj, hheld⟩ | hkey)
    · exact ⟨j, hj, .inr hheld⟩
    · exact ⟨key, hkey, .inl rfl⟩

/-- Letting go of a key lets go of its modifiers exactly when no twin is held. -/
theorem held_erase {held : Finset Key} {key : Key} :
    (∀ m : Modifier, m.Held held ∧ key ∉ m.keys ↔ m.Held (held.erase key)) ↔
      ∀ m : Modifier, key ∈ m.keys → ∀ twin ∈ m.keys, twin ≠ key → twin ∉ held := by
  simp only [Modifier.Held, Finset.mem_erase]
  constructor
  · intro h m hkey twin htwin hne hheld
    exact ((h m).mpr ⟨twin, htwin, hne, hheld⟩).2 hkey
  · intro h m
    constructor
    · rintro ⟨⟨j, hj, hheld⟩, hkey⟩
      refine ⟨j, hj, ?_, hheld⟩
      rintro rfl
      exact hkey hj
    · rintro ⟨j, hj, hne, hheld⟩
      exact ⟨⟨j, hj, hheld⟩, fun hkey ↦ h m hkey j hj hne hheld⟩

theorem tracks_step_iff (hext : t.keyboard.extended = false) (ht : t.Tracks) :
    (t.step input).Tracks ↔ t.Clean input := by
  have hh := handles_step input hext
  have hheld : (t.step input).held =
      if (t.keyboard.feed input.stream).2 = true then
        input.debugged.foldl KeyEvent.apply (input.event.apply t.held)
      else input.event.apply t.held := rfl
  have hctrl : t.keyboard.ctrlDown = true ↔ Modifier.ctrl.Held t.held := ht .ctrl
  rw [Clean, Tracks, hheld]
  cases he : input.event with
  | release key =>
      have hquiet : (t.keyboard.feed input.stream).2 = false := by
        rw [← Bool.not_eq_true, hh.entered_iff, he]
        simp
      simp only [hquiet, Bool.false_eq_true, if_false, hh.release key he, KeyEvent.apply,
        Bool.and_eq_true, ht _, decide_eq_true_eq, held_erase]
      simp
  | press key =>
      have hentered : (t.keyboard.feed input.stream).2 = true ↔
          Modifier.ctrl.Held t.held ∧ key = ⟨false, 0x20⟩ := by
        rw [hh.entered_iff, hctrl, he, KeyEvent.press.injEq]
      by_cases hdebug : (t.keyboard.feed input.stream).2 = true
      · obtain ⟨hc, rfl⟩ := hentered.mp hdebug
        simp [hdebug, hh.cleared hdebug, hc]
      · have hnot := hentered.not.mp hdebug
        have hplain : ∀ m : Modifier, m.flag (t.step input).keyboard = true ↔
            m.Held (insert key t.held) := by
          intro m
          rw [hh.press key he (by simpa using hdebug), held_insert, Bool.or_eq_true, ht m,
            decide_eq_true_iff]
        simp only [if_neg hdebug, KeyEvent.apply, hplain]
        simp only [reduceCtorEq, false_implies, implies_true, true_and, KeyEvent.press.injEq,
          true_iff]
        exact fun hkey hc ↦ absurd ⟨hc, hkey⟩ hnot

theorem extended_run (inputs : List KeyInput) :
    (initial.run inputs).keyboard.extended = false := by
  induction inputs using List.reverseRecOn with
  | nil => rfl
  | append_singleton pre input ih =>
      rw [run, List.foldl_append]
      exact (handles_step _ ih).extended

theorem tracks_initial : initial.Tracks := by
  intro m
  cases m <;> simp [initial, Keyboard.initial, Modifier.flag, Modifier.Held]

/-- The flags are right after every key event exactly when no key of a modifier is
released while its twin is held and no modifier is held when the debugger returns. -/
theorem modifiers_track_iff (inputs : List KeyInput) :
    (∀ pre, pre <+: inputs → (initial.run pre).Tracks) ↔
      ∀ pre input, pre ++ [input] <+: inputs → (initial.run pre).Clean input := by
  have hlast : ∀ pre input, initial.run (pre ++ [input]) = (initial.run pre).step input := by
    intro pre input
    rw [run, List.foldl_append]
    rfl
  constructor
  · intro h pre input hpre
    have hnext := h _ hpre
    rw [hlast] at hnext
    have hbefore := h pre ((List.prefix_append pre [input]).trans hpre)
    exact (tracks_step_iff (extended_run pre) hbefore).mp hnext
  · intro h pre
    induction pre using List.reverseRecOn with
    | nil => exact fun _ ↦ tracks_initial
    | append_singleton pre input ih =>
        intro hpre
        have hbefore := ih ((List.prefix_append pre [input]).trans hpre)
        rw [hlast]
        exact (tracks_step_iff (extended_run pre) hbefore).mpr (h pre input hpre)

/-- A plain key event without replies. -/
def plain (e : KeyEvent) (hv : e.key.Valid) (hplain : e.key.extended = false) : KeyInput :=
  { event := e
    stream := [e.scancode]
    debugged := []
    valid := hv
    replies := by
      rw [KeyEvent.bytes, hplain]
      exact .byte _ .nil }

/-- Both Shift keys are pressed and the left one is released. -/
def twoShifts : List KeyInput :=
  [plain (.press ⟨false, 0x2A⟩) ⟨by decide, by decide, by decide⟩ rfl,
    plain (.press ⟨false, 0x36⟩) ⟨by decide, by decide, by decide⟩ rfl,
    plain (.release ⟨false, 0x2A⟩) ⟨by decide, by decide, by decide⟩ rfl]

/-- The right Shift is held but the flag is not set. -/
theorem twoShifts_lost :
    (initial.run twoShifts).keyboard.shiftDown = false ∧
      Modifier.shift.Held (initial.run twoShifts).held ∧
      ¬ ∀ pre, pre <+: twoShifts → (initial.run pre).Tracks := by
  have hlost : (initial.run twoShifts).keyboard.shiftDown = false := by decide
  have hheld : Modifier.shift.Held (initial.run twoShifts).held := by decide
  refine ⟨hlost, hheld, fun h ↦ ?_⟩
  have hflag := (h twoShifts List.prefix_rfl .shift).mpr hheld
  rw [Modifier.flag, hlost] at hflag
  cases hflag

end Typing

end EclipseOS
