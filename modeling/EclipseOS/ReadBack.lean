import EclipseOS.Libc.Rendering
import EclipseOS.Libc.SubjectSequence
import Mathlib.Data.List.TakeWhile

/-!
# Numbers that are printed and read

What `printf` writes for a word, `strtol` and the debugger's `parse_hex` read as
the same word.
-/

namespace EclipseOS

open Libc

/-! ## The debugger -/

def hexValue (b : UInt8) : Option ℕ :=
  if 0x30 ≤ b ∧ b ≤ 0x39 then some (b.toNat - 0x30)
  else if 0x61 ≤ b ∧ b ≤ 0x66 then some (b.toNat - 0x61 + 10)
  else if 0x41 ≤ b ∧ b ≤ 0x46 then some (b.toNat - 0x41 + 10)
  else none

/-- The value is shifted before the digit is looked at. -/
def parseHexLoop : List UInt8 → BitVec 32 → BitVec 32
  | [], v => v
  | b :: s, v => match hexValue b with
    | some d => parseHexLoop s (v <<< 4 ||| BitVec.ofNat 32 d)
    | none => v <<< 4

def parseHex (s : CString) : BitVec 32 :=
  parseHexLoop (if hexMark s.bytes then s.bytes.drop 2 else s.bytes) 0

namespace ReadBack

variable {base n d : ℕ} {uppercase : Bool} {ds : List ℕ}

/-! ## Digits -/

/-- A digit that is printed is read as the same, and is no white space, sign or end. -/
theorem digit_read (uppercase : Bool) :
    ∀ d < 36, digitValue (digit uppercase d) = some d ∧ isSpace (digit uppercase d) = false ∧
      digit uppercase d ≠ 0x2D ∧ digit uppercase d ≠ 0x2B ∧ digit uppercase d ≠ 0 := by
  cases uppercase
  all_goals decide

theorem hexDigit_read (uppercase : Bool) :
    ∀ d < 16, hexValue (digit uppercase d) = some d ∧ digit uppercase d ≠ 0x78 ∧
      digit uppercase d ≠ 0x58 := by
  cases uppercase
  all_goals decide

theorem run_map_digit (hbase : base ≤ 36) (hds : ∀ d ∈ ds, d < base) :
    run base (ds.map (digit uppercase)) = ds := by
  induction ds with
  | nil => rfl
  | cons d ds ih =>
      obtain ⟨hd, hrest⟩ := List.forall_mem_cons.mp hds
      have hvalue := (digit_read uppercase d (hd.trans_le hbase)).1
      rw [List.map_cons, run_cons_of_pos hvalue hd, ih hrest]

theorem dropWhile_map_digit (hbase : base ≤ 36) (hds : ∀ d ∈ ds, d < base) :
    (ds.map (digit uppercase)).dropWhile (digitIn base) = [] := by
  apply List.dropWhile_eq_nil_iff.mpr
  intro b hb
  obtain ⟨d, hd, rfl⟩ := List.mem_map.mp hb
  exact digitIn_iff.mpr ⟨d, (digit_read uppercase d ((hds d hd).trans_le hbase)).1, hds d hd⟩

theorem hexMark_map_digit (hds : ∀ d ∈ ds, d < 16) : hexMark (ds.map (digit uppercase)) = false := by
  match ds with
  | [] => rfl
  | [d] => rfl
  | c :: d :: ds =>
      obtain ⟨-, hx, hX⟩ := hexDigit_read uppercase d (hds d (by simp))
      exact decide_eq_false fun h ↦ h.2.elim hx hX

/-- The bits of a digit go below those of the shifted value. -/
theorem shift_or_digit (n : ℕ) (hd : d < 16) :
    BitVec.ofNat 32 n <<< 4 ||| BitVec.ofNat 32 d = BitVec.ofNat 32 (n * 16 + d) := by
  have hand : BitVec.ofNat 32 n <<< 4 &&& BitVec.ofNat 32 d = 0#32 := by
    apply BitVec.eq_of_getLsbD_eq
    intro i hi
    have hbit : i ≥ 4 → d.testBit i = false := fun h4 ↦
      Nat.testBit_lt_two_pow (hd.trans_le (Nat.pow_le_pow_right (n := 2) (by omega) h4))
    by_cases h4 : i < 4
    · simp [h4]
    · have hhigh : (BitVec.ofNat 32 d).getLsbD i = false := by
        rw [BitVec.getLsbD_ofNat, hbit (by omega), Bool.and_false]
      rw [BitVec.getLsbD_and, hhigh, Bool.and_false]
      exact BitVec.getLsbD_zero.symm
  rw [← BitVec.add_eq_or_of_and_eq_zero _ _ hand, BitVec.ofNat_add, BitVec.ofNat_mul,
    BitVec.shiftLeft_eq_mul_twoPow]
  rfl

theorem hexValue_lt {b : UInt8} (hb : hexValue b = some d) : d < 16 := by
  rw [hexValue] at hb
  simp only [UInt8.le_iff_toNat_le, UInt8.reduceToNat] at hb
  split_ifs at hb
  all_goals
    cases hb
    omega

theorem parseHexLoop_map_digit (hds : ∀ d ∈ ds, d < 16) (n : ℕ) :
    parseHexLoop (ds.map (digit uppercase)) (BitVec.ofNat 32 n) =
      BitVec.ofNat 32 (Numerals.readOn 16 n ds) := by
  induction ds generalizing n with
  | nil => rfl
  | cons d ds ih =>
      obtain ⟨hd, hrest⟩ := List.forall_mem_cons.mp hds
      rw [List.map_cons, parseHexLoop, (hexDigit_read uppercase d hd).1]
      dsimp only
      rw [shift_or_digit n hd, ih hrest, Numerals.readOn_cons]

/-! ## Other text after the digits -/

def isHex (b : UInt8) : Bool := (hexValue b).isSome

/-- The values of the hexadecimal digits at the start of a string. -/
def hexRun (s : List UInt8) : List ℕ := (s.takeWhile isHex).filterMap hexValue

/-- The loop has shifted once more when it meets a character that is no digit. -/
theorem parseHexLoop_eq (s : List UInt8) (n : ℕ) : parseHexLoop s (BitVec.ofNat 32 n) =
    if s.dropWhile isHex = [] then BitVec.ofNat 32 (Numerals.readOn 16 n (hexRun s))
    else BitVec.ofNat 32 (Numerals.readOn 16 n (hexRun s)) <<< 4 := by
  induction s generalizing n with
  | nil => rfl
  | cons b s ih =>
      cases hb : hexValue b with
      | none =>
          have hno : ¬ isHex b = true := by rw [isHex, hb]; decide
          rw [parseHexLoop, hb, List.dropWhile_cons_of_neg hno, if_neg (List.cons_ne_nil _ _), hexRun,
            List.takeWhile_cons_of_neg hno]
          rfl
      | some d =>
          have hyes : isHex b = true := by rw [isHex, hb]; rfl
          have hrun : hexRun (b :: s) = d :: hexRun s := by
            rw [hexRun, List.takeWhile_cons_of_pos hyes, List.filterMap_cons_some hb, hexRun]
          rw [parseHexLoop, hb]
          dsimp only
          rw [shift_or_digit n (hexValue_lt hb), ih, List.dropWhile_cons_of_pos hyes, hrun,
            Numerals.readOn_cons]

theorem shift_eq_self_iff (n : ℕ) :
    BitVec.ofNat 32 n <<< 4 = BitVec.ofNat 32 n ↔ n % 2 ^ 32 = 0 := by
  have hshift : (BitVec.ofNat 32 n <<< 4).toNat = n % 2 ^ 32 * 16 % 2 ^ 32 := by
    rw [BitVec.toNat_shiftLeft, BitVec.toNat_ofNat, Nat.shiftLeft_eq]
  rw [← BitVec.toNat_inj, hshift, BitVec.toNat_ofNat]
  omega

/-! ## Numerals -/

/-- The digits of a number, a zero for zero. -/
def written (base n : ℕ) : List ℕ := if n = 0 then [0] else (Nat.digits base n).reverse

theorem numeral_eq (base : ℕ) (uppercase : Bool) (n : ℕ) :
    numeral base uppercase n = (written base n).map (digit uppercase) := by
  rw [numeral, written]
  split_ifs
  · cases uppercase
    all_goals rfl
  · rfl

theorem written_lt (hbase : 1 < base) : ∀ d ∈ written base n, d < base := by
  intro d hd
  rw [written] at hd
  split_ifs at hd
  · rw [List.mem_singleton.mp hd]
    omega
  · exact Nat.digits_lt_base hbase (List.mem_reverse.mp hd)

theorem readOn_written (base n : ℕ) : Numerals.readOn base 0 (written base n) = n := by
  rw [written]
  split_ifs with hzero
  · rw [hzero, Numerals.readOn_cons, Nat.zero_mul]
    rfl
  · exact Numerals.readOn_digits base n

theorem written_ne_nil : written base n ≠ [] := by
  rw [written]
  split_ifs with hzero
  · exact List.cons_ne_nil _ _
  · exact List.reverse_ne_nil_iff.mpr (Nat.digits_ne_nil_iff_ne_zero.mpr hzero)

theorem written_length (hbase : 1 < base) (hn : n < 2 ^ 32) : (written base n).length ≤ 32 := by
  rw [written]
  split_ifs
  · exact Nat.le_add_left 1 31
  · rw [List.length_reverse]
    exact (Nat.digits_length_le_iff hbase n).mpr (hn.trans_le (Nat.pow_le_pow_left hbase 32))

/-- The text of a word: a sign and a numeral. -/
def signText (negative : Bool) (base : ℕ) (uppercase : Bool) (n : ℕ) : List UInt8 :=
  (if negative then [0x2D] else []) ++ numeral base uppercase n

/-- What `strtol` makes of the text. -/
theorem subject_signText {text : CString} {negative : Bool} (hbase : base = 8 ∨ base = 10 ∨ base = 16)
    (htext : text.bytes = signText negative base uppercase n) :
    ¬ BarePrefix text base ∧ (subject text base).value = (if negative then -(n : ℤ) else n) ∧
      (subject text base).stop text = [] := by
  have hds : ∀ d ∈ written base n, d < base := written_lt (by omega)
  have hne : written base n ≠ [] := written_ne_nil
  have hvalue : Numerals.readOn base 0 (written base n) = n := readOn_written base n
  rw [signText, numeral_eq] at htext
  generalize written base n = ds at hds hne hvalue htext
  obtain ⟨d, ds, rfl⟩ := List.exists_cons_of_ne_nil hne
  obtain ⟨-, hspace, hminus, hplus, -⟩ := digit_read uppercase d (by
    have := hds d List.mem_cons_self
    omega)
  have hskip : text.bytes.dropWhile isSpace = text.bytes := by
    rw [htext]
    cases negative with
    | true => rfl
    | false => exact List.dropWhile_cons_of_neg (Bool.eq_false_iff.mp hspace)
  have hunsigned : unsigned text = (d :: ds).map (digit uppercase) := by
    rw [unsigned, hskip, htext]
    cases negative with
    | true => rfl
    | false =>
        rw [if_neg Bool.false_ne_true, List.nil_append, List.map_cons, signOf, if_neg hminus,
          if_neg hplus]
  have hnegative : (subject text base).negative = negative := by
    rw [subject, hskip, htext]
    cases negative with
    | true => rfl
    | false => exact decide_eq_false fun h ↦ hminus (Option.some.inj h)
  have hmark : ¬ ((base = 0 ∨ base = 16) ∧ hexMark (unsigned text) = true) := by
    rintro ⟨hsixteen, hmark⟩
    rw [hunsigned, hexMark_map_digit fun d hd ↦ (hds d hd).trans_le (by omega)] at hmark
    exact Bool.false_ne_true hmark
  have hstart : subjectBase base (unsigned text) = (base, unsigned text) := by
    rw [subjectBase, if_neg fun h ↦ hmark ⟨h.1, h.2.1⟩, if_neg (by omega)]
  have hdigits : (subject text base).digits = d :: ds := by
    rw [subject, hstart, hunsigned]
    exact run_map_digit (by omega) hds
  refine ⟨fun h ↦ hmark ⟨h.1, h.2.1⟩, ?_, ?_⟩
  · have hmag : (subject text base).magnitude = n := by
      rw [Subject.magnitude, hdigits, subject, hstart]
      exact hvalue
    rw [Subject.value, hnegative, hmag]
  · rw [Subject.stop, hdigits, if_neg (List.cons_ne_nil _ _), subject, hstart, hunsigned]
    exact dropWhile_map_digit (by omega) hds

/-- The debugger reads the digits, with or without a prefix. -/
theorem parseHex_numeral {text : CString}
    (htext : text.bytes = numeral 16 uppercase n ∨
      text.bytes = [0x30, 0x78] ++ numeral 16 uppercase n) :
    parseHex text = BitVec.ofNat 32 n := by
  have hds : ∀ d ∈ written 16 n, d < 16 := written_lt (by omega)
  have hloop : parseHexLoop ((written 16 n).map (digit uppercase)) (BitVec.ofNat 32 0) = _ :=
    parseHexLoop_map_digit hds 0
  rw [readOn_written, ← numeral_eq] at hloop
  have hstart : (if hexMark text.bytes then text.bytes.drop 2 else text.bytes) =
      numeral 16 uppercase n := by
    rcases htext with htext | htext
    · have hmark : ¬ hexMark text.bytes = true := by
        rw [htext, numeral_eq, hexMark_map_digit hds]
        exact Bool.false_ne_true
      rw [if_neg hmark, htext]
    · rw [htext]
      rfl
  rw [parseHex, hstart]
  exact hloop

/-! ## Round trips -/

/-- The text that `printf` writes for one directive and a word. -/
def Prints (letter : UInt8) (w : BitVec 32) (text : CString) : Prop :=
  ∃ h, vprintfGen collect ⟨[PERCENT, letter], h⟩ [.word w] [] =
    some (some text.bytes.length, text.bytes)

theorem print_collect (text l : List UInt8) : print collect text l = (true, l ++ text) := by
  have haccepts : Accepts collect fun _ ↦ True := fun _ _ _ ↦ ⟨rfl, trivial⟩
  rw [(print_accepts haccepts text trivial).1, emitted_collect]

theorem prints_of_conversion {letter : UInt8} {w : BitVec 32} {text : CString}
    (h : Conversion letter (.word w) text.bytes) (hlen : text.bytes.length ≤ INT_MAX) :
    Prints letter w text := by
  have hterminated : (0 : UInt8) ∉ [PERCENT, letter] := by
    intro hzero
    rcases List.mem_cons.mp hzero with hzero | hzero
    · exact absurd hzero (by decide)
    · have hletter := (h.letter).1
      rw [← List.mem_singleton.mp hzero] at hletter
      exact absurd hletter (by decide)
  have hrenders := Renders.conversion ⟨[], [], by simp, by simp, by simp, by simp⟩ h (.done [])
  rw [List.append_nil] at hrenders
  obtain ⟨r, hrun, hprinted⟩ :=
    vprintfGen_printed ⟨[PERCENT, letter], hterminated⟩ hrenders collect []
  refine ⟨hterminated, hrun.trans (congrArg some ?_)⟩
  cases hprinted with
  | shown hfits hprint =>
      rw [print_collect, List.nil_append] at hprint
      obtain ⟨-, rfl⟩ := Prod.mk.inj hprint
      rw [Nat.zero_add]
  | refused htext hsent hb => exact absurd (congrArg Prod.fst hb) Bool.noConfusion
  | overflow hover htext hsent => omega

/-- The text is a string, and short. -/
theorem exists_signText (negative : Bool) (hbase : base = 8 ∨ base = 10 ∨ base = 16) (uppercase : Bool)
    (hn : n < 2 ^ 32) :
    ∃ text : CString, text.bytes = signText negative base uppercase n ∧ text.bytes.length ≤ 33 := by
  have hterminated : 0 ∉ signText negative base uppercase n := by
    intro hzero
    rw [signText, numeral_eq] at hzero
    rcases List.mem_append.mp hzero with hsign | hdigits
    · split_ifs at hsign
      · exact absurd hsign (by decide)
      · exact absurd hsign List.not_mem_nil
    · obtain ⟨d, hd, hd0⟩ := List.mem_map.mp hdigits
      have hlt : d < base := written_lt (by omega) d hd
      exact (digit_read uppercase d (by omega)).2.2.2.2 hd0
  refine ⟨⟨_, hterminated⟩, rfl, ?_⟩
  have hlen : (written base n).length ≤ 32 := written_length (by omega) hn
  dsimp only
  rw [signText, numeral_eq, List.length_append, List.length_map]
  split_ifs
  · rw [List.length_singleton]
    omega
  · rw [List.length_nil]
    omega

/-- An unsigned word through `strtol`. -/
theorem unsigned_reads_back {letter : UInt8} (w : BitVec 32) (hbase : base = 8 ∨ base = 10 ∨ base = 16)
    (hconv : Conversion letter (.word w) (numeral base uppercase w.toNat)) :
    ∃ text : CString, text.bytes = numeral base uppercase w.toNat ∧ Prints letter w text ∧
      (strtol text base).1.bits = w ∧ (strtol text base).2 = [] := by
  obtain ⟨text, htext, hlen⟩ := exists_signText false hbase uppercase w.isLt
  obtain ⟨hbare, hvalue, hstop⟩ := subject_signText hbase htext
  have hbytes : text.bytes = numeral base uppercase w.toNat := htext
  refine ⟨text, hbytes, prints_of_conversion (hbytes ▸ hconv) (hlen.trans (by decide)), ?_, ?_⟩
  · rw [strtol_bits hbare, hvalue, if_neg Bool.false_ne_true, BitVec.ofInt_natCast,
      BitVec.ofNat_toNat, BitVec.setWidth_eq]
  · rw [strtol_eq hbare]
    exact hstop

end ReadBack

open ReadBack

/-- What is printed for a word is read as the word, up to the end of the text: `%d` in
base 10, `%x` and `%X` in base 16 and by the debugger, `%o` in base 8, `%p` by the
debugger. -/
theorem printed_reads_back (w : BitVec 32) :
    (∃ text, Prints 0x64 w text ∧ (strtol text 10).1.bits = w ∧ (strtol text 10).2 = []) ∧
    (∀ letter ∈ ([0x78, 0x58] : List UInt8), ∃ text, Prints letter w text ∧
      (strtol text 16).1.bits = w ∧ (strtol text 16).2 = [] ∧ parseHex text = w) ∧
    (∃ text, Prints 0x6F w text ∧ (strtol text 8).1.bits = w ∧ (strtol text 8).2 = []) ∧
    (∃ text, Prints 0x70 w text ∧ parseHex text = w) := by
  have hword : BitVec.ofNat 32 w.toNat = w := by rw [BitVec.ofNat_toNat, BitVec.setWidth_eq]
  refine ⟨?_, ?_, ?_, ?_⟩
  · have habs : w.toInt.natAbs < 2 ^ 32 := by
      have := w.toInt_lt
      have := w.le_toInt
      omega
    have hbase : 10 = 8 ∨ 10 = 10 ∨ 10 = 16 := by omega
    obtain ⟨text, htext, hlen⟩ := exists_signText (w.toInt < 0) hbase false habs
    obtain ⟨hbare, hvalue, hstop⟩ := subject_signText (by omega) htext
    have hbytes : text.bytes = signed w := by
      rw [htext, signText, signed]
      simp only [decide_eq_true_eq]
    have hint : (subject text 10).value = w.toInt := by
      rw [hvalue]
      simp only [decide_eq_true_eq]
      split_ifs
      all_goals omega
    have hten : strtol text 10 = strtol text (10 : ℕ) := rfl
    refine ⟨text, prints_of_conversion (hbytes ▸ .d w) (hlen.trans (by decide)), ?_, ?_⟩
    · rw [hten, strtol_bits hbare, hint, BitVec.ofInt_toInt]
    · rw [hten, strtol_eq hbare]
      exact hstop
  · intro letter hletter
    obtain ⟨uppercase, hconv⟩ : ∃ uppercase,
        Conversion letter (.word w) (numeral 16 uppercase w.toNat) := by
      rcases List.mem_cons.mp hletter with rfl | hletter
      · exact ⟨false, .x w⟩
      · rw [List.mem_singleton.mp hletter]
        exact ⟨true, .X w⟩
    obtain ⟨text, hbytes, hprints, hvalue, hstop⟩ := unsigned_reads_back w (by omega) hconv
    exact ⟨text, hprints, hvalue, hstop, (parseHex_numeral (Or.inl hbytes)).trans hword⟩
  · obtain ⟨text, -, hprints, hvalue, hstop⟩ := unsigned_reads_back w (by omega) (.o w)
    exact ⟨text, hprints, hvalue, hstop⟩
  · have hbase : 16 = 8 ∨ 16 = 10 ∨ 16 = 16 := by omega
    obtain ⟨digits, hdigits, hlen⟩ := exists_signText false hbase false w.isLt
    have hbytes : digits.bytes = numeral 16 false w.toNat := hdigits
    have hterminated : 0 ∉ ([0x30, 0x78] ++ numeral 16 false w.toNat) := by
      rw [← hbytes]
      exact fun h ↦ (List.mem_append.mp h).elim (by decide) digits.terminated
    refine ⟨⟨_, hterminated⟩, prints_of_conversion (.p w) ?_, ?_⟩
    · dsimp only
      rw [← hbytes, List.length_append]
      exact (Nat.add_le_add_left hlen _).trans (by decide)
    · exact (parseHex_numeral (Or.inr rfl)).trans hword

/-- The string after the optional mark. -/
def hexStart (s : CString) : List UInt8 := if hexMark s.bytes then s.bytes.drop 2 else s.bytes

/-- The value of the hexadecimal digits that a string starts with. -/
def hexPrefixValue (s : CString) : ℕ := Numerals.readOn 16 0 (hexRun (hexStart s))

/-- `parse_hex` reads them when nothing follows, and where their word is zero. -/
theorem parseHex_eq_iff (s : CString) : parseHex s = BitVec.ofNat 32 (hexPrefixValue s) ↔
    (hexStart s).dropWhile isHex = [] ∨ hexPrefixValue s % 2 ^ 32 = 0 := by
  have hloop := parseHexLoop_eq (hexStart s) 0
  have hparse : parseHex s = parseHexLoop (hexStart s) (BitVec.ofNat 32 0) := rfl
  rw [hparse, hloop, ← hexPrefixValue]
  split
  · next hrest => exact iff_of_true rfl (.inl hrest)
  · next hrest => rw [shift_eq_self_iff, or_iff_right hrest]

/-- `10` and a blank are read as 0x100. -/
theorem parseHex_blank : parseHex ⟨[0x31, 0x30, 0x20], by decide⟩ = 0x100 ∧
    parseHex ⟨[0x31, 0x30, 0x20], by decide⟩ ≠
      BitVec.ofNat 32 (hexPrefixValue ⟨[0x31, 0x30, 0x20], by decide⟩) := by
  decide

end EclipseOS
