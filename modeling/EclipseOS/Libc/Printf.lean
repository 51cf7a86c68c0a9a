import Mathlib.Algebra.Group.Nat.Defs
import Mathlib.Data.List.Basic
import Mathlib.Tactic.Common

/-!
# Formatted output

`__vprintf_gen` of the C library, over an emit function that may refuse a byte.
Strings are the bytes before their terminator.  Flags and width of a directive
are read and not used.
-/

namespace EclipseOS

namespace Libc

structure CString where
  bytes : List UInt8
  terminated : 0 ∉ bytes

/-- An argument of a variadic call: a word, or a pointer to a string. -/
inductive Arg
  | word (w : BitVec 32)
  | str (s : CString)

def INT_MAX : ℕ := 2 ^ 31 - 1
def PERCENT : UInt8 := 0x25
def NEWLINE : UInt8 := 0x0A

variable {σ : Type}

/-- `print`: byte after byte, until one is refused. -/
def print (emit : UInt8 → σ → Bool × σ) : List UInt8 → σ → Bool × σ
  | [], s => (true, s)
  | b :: bytes, s => match emit b s with
    | (true, s) => print emit bytes s
    | (false, s) => (false, s)

def digit (uppercase : Bool) (d : ℕ) : UInt8 :=
  UInt8.ofNat (if d < 10 then 0x30 + d else if uppercase then 0x41 + (d - 10) else 0x61 + (d - 10))

/-- The digits in the order in which they are generated, into a buffer of the
given size. -/
def digits (base : ℕ) (uppercase : Bool) : ℕ → ℕ → List UInt8
  | 0, _ => []
  | size + 1, value =>
      if value = 0 then []
      else digit uppercase (value % base) :: digits base uppercase size (value / base)

/-- What `print_number` prints. -/
def numberText (value base : ℕ) (uppercase negative : Bool) : List UInt8 :=
  let buf := if value = 0 then [0x30] else digits base uppercase 32 value
  (if negative then buf ++ [0x2D] else buf).reverse

def isFlag (b : UInt8) : Bool := b ∈ ([0x2D, 0x2B, 0x20, 0x23, 0x30] : List UInt8)
def isDigit (b : UInt8) : Bool := 0x30 ≤ b && b ≤ 0x39

/-- The letters `c`, `s`, `d`, `i`, `u`, `x`, `X`, `o` and `p`. -/
def isConversion (b : UInt8) : Bool :=
  b ∈ ([0x63, 0x73, 0x64, 0x69, 0x75, 0x78, 0x58, 0x6F, 0x70] : List UInt8)

/-- What a conversion prints, in the pieces that are checked one by one, and the
arguments after it.  An argument of the wrong type is undefined. -/
def convert (letter : UInt8) : List Arg → Option (List (List UInt8) × List Arg)
  | .word w :: args =>
      if letter = 0x63 then some ([[UInt8.ofNat w.toNat]], args)
      else if letter = 0x64 ∨ letter = 0x69 then
        some ([numberText w.toInt.natAbs 10 false (w.toInt < 0)], args)
      else if letter = 0x75 then some ([numberText w.toNat 10 false false], args)
      else if letter = 0x78 ∨ letter = 0x58 then
        some ([numberText w.toNat 16 (letter == 0x58) false], args)
      else if letter = 0x6F then some ([numberText w.toNat 8 false false], args)
      else if letter = 0x70 then some ([[0x30, 0x78], numberText w.toNat 16 false false], args)
      else none
  | .str s :: args => if letter = 0x73 then some ([s.bytes], args) else none
  | [] => none

/-- The pieces of one directive or of a literal.  The count stays in an `int`;
`none` is the return value -1. -/
def putPieces (emit : UInt8 → σ → Bool × σ) : List (List UInt8) → ℕ → σ → Option ℕ × σ
  | [], written, s => (some written, s)
  | piece :: pieces, written, s =>
      if INT_MAX - written < piece.length then (none, s)
      else match print emit piece s with
        | (true, s) => putPieces emit pieces (written + piece.length) s
        | (false, s) => (none, s)

/-- The start of the format up to the next directive, and what follows.  After
`%%` the literal begins with the second percent sign. -/
def literal : List UInt8 → Option (List UInt8 × List UInt8)
  | [] => none
  | c :: rest =>
      if c ≠ PERCENT then some (c :: rest.takeWhile (· ≠ PERCENT), rest.dropWhile (· ≠ PERCENT))
      else match rest with
        | [] => none
        | d :: rest =>
            if d = PERCENT then some (d :: rest.takeWhile (· ≠ PERCENT), rest.dropWhile (· ≠ PERCENT))
            else none

/-- One turn of the loop: the pieces, the rest of the format and the arguments
after it.  A directive that is not known prints the whole rest. -/
def turn (format : List UInt8) (args : List Arg) :
    Option (List (List UInt8) × List UInt8 × List Arg) :=
  match literal format with
  | some (text, rest) => some ([text], rest, args)
  | none =>
      match (format.tail.dropWhile isFlag).dropWhile isDigit with
      | [] => some ([format], [], args)
      | letter :: rest =>
          if isConversion letter then (convert letter args).map fun p ↦ (p.1, rest, p.2)
          else some ([format], [], args)

/-- The loop of `__vprintf_gen`, with what it returns.  Every turn takes at least
one byte of the format.  `none` stands for an argument that is not there or has
the wrong type. -/
def vprintfLoop (emit : UInt8 → σ → Bool × σ) :
    ℕ → List UInt8 → List Arg → ℕ → σ → Option (Option ℕ × σ)
  | 0, _, _, _, _ => none
  | fuel + 1, format, args, written, s =>
      if format = [] then some (some written, s)
      else (turn format args).bind fun (pieces, format, args) ↦
        match putPieces emit pieces written s with
        | (none, s) => some (none, s)
        | (some written, s) => vprintfLoop emit fuel format args written s

def vprintfGen (emit : UInt8 → σ → Bool × σ) (format : CString) (args : List Arg) (s : σ) :
    Option (Option ℕ × σ) :=
  vprintfLoop emit (format.bytes.length + 1) format.bytes args 0 s

/-! ## What is emitted -/

/-- The text as a list, of all bytes that are emitted when none is refused. -/
def collect (b : UInt8) (text : List UInt8) : Bool × List UInt8 := (true, text ++ [b])

/-- A format with arguments that match it. -/
structure Formatted where
  format : CString
  args : List Arg
  matching : (vprintfGen collect format args []).isSome

/-- The text and the return value. -/
def Formatted.result (f : Formatted) : Option ℕ × List UInt8 :=
  (vprintfGen collect f.format f.args []).get f.matching

def Formatted.text (f : Formatted) : List UInt8 := f.result.2

/-- From the states of a set, an emit function refuses nothing and stays in it. -/
def Accepts (emit : UInt8 → σ → Bool × σ) (P : σ → Prop) : Prop :=
  ∀ b s, P s → (emit b s).1 = true ∧ P (emit b s).2

/-- The state after a text. -/
def emitted (emit : UInt8 → σ → Bool × σ) (text : List UInt8) (s : σ) : σ :=
  text.foldl (fun s b ↦ (emit b s).2) s

theorem emitted_append (emit : UInt8 → σ → Bool × σ) (text text' : List UInt8) (s : σ) :
    emitted emit (text ++ text') s = emitted emit text' (emitted emit text s) :=
  List.foldl_append

theorem print_accepts {emit : UInt8 → σ → Bool × σ} {P : σ → Prop} (h : Accepts emit P)
    (bytes : List UInt8) {s : σ} (hs : P s) :
    print emit bytes s = (true, emitted emit bytes s) ∧ P (emitted emit bytes s) := by
  induction bytes generalizing s with
  | nil => exact ⟨rfl, hs⟩
  | cons b bytes ih =>
      obtain ⟨htrue, hP⟩ := h b s hs
      obtain ⟨hprint, hP'⟩ := ih hP
      refine ⟨?_, hP'⟩
      rw [print, show emit b s = (true, (emit b s).2) from Prod.ext htrue rfl]
      exact hprint

/-- The pieces that fit are the same whatever is done with their bytes. -/
theorem putPieces_accepts (pieces : List (List UInt8)) (written : ℕ) :
    ∃ (r : Option ℕ) (text : List UInt8), ∀ (σ : Type) (emit : UInt8 → σ → Bool × σ) (P : σ → Prop)
      (s : σ), Accepts emit P → P s →
        putPieces emit pieces written s = (r, emitted emit text s) ∧ P (emitted emit text s) := by
  induction pieces generalizing written with
  | nil => exact ⟨some written, [], fun _ _ _ _ _ hs ↦ ⟨rfl, hs⟩⟩
  | cons piece pieces ih =>
      by_cases hfit : INT_MAX - written < piece.length
      · refine ⟨none, [], fun _ _ _ _ _ hs ↦ ⟨?_, hs⟩⟩
        rw [putPieces, if_pos hfit]
        rfl
      · obtain ⟨r, text, hrest⟩ := ih (written + piece.length)
        refine ⟨r, piece ++ text, fun σ emit P s h hs ↦ ?_⟩
        obtain ⟨hprint, hP⟩ := print_accepts h piece hs
        rw [putPieces, if_neg hfit, hprint, emitted_append]
        exact hrest σ emit P _ h hP

/-- So are the turns of the loop. -/
theorem vprintfLoop_accepts (fuel : ℕ) (format : List UInt8) (args : List Arg) (written : ℕ) :
    ∃ result : Option (Option ℕ × List UInt8), ∀ (σ : Type) (emit : UInt8 → σ → Bool × σ)
      (P : σ → Prop) (s : σ), Accepts emit P → P s →
        vprintfLoop emit fuel format args written s =
          result.map (fun p ↦ (p.1, emitted emit p.2 s)) ∧ ∀ p ∈ result, P (emitted emit p.2 s) := by
  induction fuel generalizing format args written with
  | zero => exact ⟨none, fun _ _ _ _ _ _ ↦ ⟨rfl, fun p hp ↦ nomatch hp⟩⟩
  | succ fuel ih =>
      by_cases hend : format = []
      · refine ⟨some (some written, []), fun _ _ _ _ _ hs ↦ ⟨?_, ?_⟩⟩
        · rw [vprintfLoop, if_pos hend]
          rfl
        · rintro p ⟨rfl⟩
          exact hs
      · cases hturn : turn format args with
        | none =>
            refine ⟨none, fun _ _ _ _ _ _ ↦ ⟨?_, fun p hp ↦ nomatch hp⟩⟩
            rw [vprintfLoop, if_neg hend, hturn]
            rfl
        | some p =>
            obtain ⟨pieces, format', args'⟩ := p
            obtain ⟨r, text, hput⟩ := putPieces_accepts pieces written
            cases r with
            | none =>
                refine ⟨some (none, text), fun σ emit P s h hs ↦ ?_⟩
                obtain ⟨hpieces, hP⟩ := hput σ emit P s h hs
                refine ⟨?_, ?_⟩
                · rw [vprintfLoop, if_neg hend, hturn, Option.bind_some]
                  dsimp only
                  rw [hpieces]
                  rfl
                · rintro p ⟨rfl⟩
                  exact hP
            | some written' =>
                obtain ⟨result, hloop⟩ := ih format' args' written'
                refine ⟨result.map fun p ↦ (p.1, text ++ p.2), fun σ emit P s h hs ↦ ?_⟩
                obtain ⟨hpieces, hP⟩ := hput σ emit P s h hs
                obtain ⟨hrest, hP'⟩ := hloop σ emit P _ h hP
                refine ⟨?_, ?_⟩
                · rw [vprintfLoop, if_neg hend, hturn, Option.bind_some]
                  dsimp only
                  rw [hpieces]
                  dsimp only
                  rw [hrest, Option.map_map]
                  refine congrArg (fun g ↦ Option.map g result) (funext fun p ↦ ?_)
                  rw [Function.comp_apply, emitted_append]
                · intro p hp
                  obtain ⟨q, hq, rfl⟩ := Option.map_eq_some_iff.mp hp
                  rw [emitted_append]
                  exact hP' q hq

theorem emitted_collect (text l : List UInt8) : emitted collect text l = l ++ text := by
  induction text generalizing l with
  | nil => exact (List.append_nil l).symm
  | cons b text ih =>
      have hcons := ih (l ++ [b])
      rwa [List.append_assoc, List.singleton_append] at hcons

/-- Where no byte is refused, the text is emitted. -/
theorem vprintfGen_accepts (t : Formatted) {emit : UInt8 → σ → Bool × σ} {P : σ → Prop} {s : σ}
    (h : Accepts emit P) (hs : P s) :
    vprintfGen emit t.format t.args s = some (t.result.1, emitted emit t.text s) := by
  obtain ⟨result, hloop⟩ :=
    vprintfLoop_accepts (t.format.bytes.length + 1) t.format.bytes t.args 0
  obtain ⟨hcollect, -⟩ := hloop _ collect (fun _ ↦ True) [] (fun _ _ _ ↦ ⟨rfl, trivial⟩) trivial
  obtain ⟨hemit, -⟩ := hloop _ emit P s h hs
  have hresult : some t.result = result := by
    rw [Formatted.result, Option.some_get, vprintfGen, hcollect]
    simp only [emitted_collect, List.nil_append, Option.map_id']
  rw [vprintfGen, hemit, ← hresult]
  rfl

end Libc

end EclipseOS
