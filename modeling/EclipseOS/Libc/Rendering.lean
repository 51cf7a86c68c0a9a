import EclipseOS.Lib.Numerals
import EclipseOS.Libc.Printf

/-!
# What a format means

The rendering of a format with arguments, directive by directive, and that
`__vprintf_gen` emits it and counts it.
-/

namespace EclipseOS

namespace Libc

/-! ## Numbers -/

/-- The digits of a number, the first of which is not zero. -/
def numeral (base : ℕ) (uppercase : Bool) (n : ℕ) : List UInt8 :=
  if n = 0 then [0x30] else (Nat.digits base n).reverse.map (digit uppercase)

def signed (w : BitVec 32) : List UInt8 :=
  (if w.toInt < 0 then [0x2D] else []) ++ numeral 10 false w.toInt.natAbs

/-- The buffer takes as many digits as the number has. -/
theorem digits_eq {base : ℕ} (hbase : 1 < base) (uppercase : Bool) {size value : ℕ}
    (h : value < base ^ size) :
    digits base uppercase size value = (Nat.digits base value).map (digit uppercase) := by
  induction size generalizing value with
  | zero =>
      have hzero : value = 0 := Nat.lt_one_iff.mp h
      rw [hzero, Nat.digits_zero]
      rfl
  | succ size ih =>
      rw [digits]
      by_cases hzero : value = 0
      · rw [if_pos hzero, hzero, Nat.digits_zero]
        rfl
      · have hdiv : value / base < base ^ size := by
          apply Nat.div_lt_of_lt_mul
          rwa [Nat.pow_succ'] at h
        rw [if_neg hzero, ih hdiv, Nat.digits_def' hbase (Nat.pos_of_ne_zero hzero)]
        rfl

theorem numberText_eq {base : ℕ} (hbase : 1 < base) (uppercase negative : Bool) {value : ℕ}
    (h : value < 2 ^ 32) :
    numberText value base uppercase negative =
      (if negative then [0x2D] else []) ++ numeral base uppercase value := by
  have hfits : value < base ^ 32 := h.trans_le (Nat.pow_le_pow_left hbase 32)
  rw [numberText, numeral, digits_eq hbase uppercase hfits, List.map_reverse]
  split_ifs
  all_goals simp

/-! ## The meaning of a format -/

/-- The text of a conversion. -/
inductive Conversion : UInt8 → Arg → List UInt8 → Prop
  | c (w : BitVec 32) : Conversion 0x63 (.word w) [UInt8.ofNat w.toNat]
  | s (str : CString) : Conversion 0x73 (.str str) str.bytes
  | d (w : BitVec 32) : Conversion 0x64 (.word w) (signed w)
  | i (w : BitVec 32) : Conversion 0x69 (.word w) (signed w)
  | u (w : BitVec 32) : Conversion 0x75 (.word w) (numeral 10 false w.toNat)
  | x (w : BitVec 32) : Conversion 0x78 (.word w) (numeral 16 false w.toNat)
  | X (w : BitVec 32) : Conversion 0x58 (.word w) (numeral 16 true w.toNat)
  | o (w : BitVec 32) : Conversion 0x6F (.word w) (numeral 8 false w.toNat)
  | p (w : BitVec 32) : Conversion 0x70 (.word w) ([0x30, 0x78] ++ numeral 16 false w.toNat)

/-- Flags and a width of at most nine digits. -/
structure Options where
  flags : List UInt8
  width : List UInt8
  flags_flag : ∀ b ∈ flags, isFlag b = true
  width_digit : ∀ b ∈ width, isDigit b = true
  width_first : ∀ b ∈ width.head?, isFlag b = false
  width_short : width.length ≤ 9

namespace Options

def bytes (o : Options) : List UInt8 := o.flags ++ o.width

/-- The options end here. -/
def Ends (o : Options) (rest : List UInt8) : Prop :=
  ∀ b ∈ rest.head?, isDigit b = false ∧ (o.width = [] → isFlag b = false)

end Options

/-- Of a format with arguments, the text.  A directive that is not known, or that
the format does not end, stands for itself and all that follows. -/
inductive Renders : List UInt8 → List Arg → List UInt8 → Prop
  | done (args : List Arg) : Renders [] args []
  | plain {c : UInt8} {rest : List UInt8} {args : List Arg} {text : List UInt8} (hc : c ≠ PERCENT)
      (h : Renders rest args text) : Renders (c :: rest) args (c :: text)
  | percent {rest : List UInt8} {args : List Arg} {text : List UInt8} (h : Renders rest args text) :
      Renders (PERCENT :: PERCENT :: rest) args (PERCENT :: text)
  | conversion (o : Options) {letter : UInt8} {rest : List UInt8} {arg : Arg} {args : List Arg}
      {shown text : List UInt8} (hshown : Conversion letter arg shown) (h : Renders rest args text) :
      Renders (PERCENT :: (o.bytes ++ letter :: rest)) (arg :: args) (shown ++ text)
  | unknown (o : Options) {rest : List UInt8} (args : List Arg) (hends : o.Ends rest)
      (hpercent : ∀ b ∈ (o.bytes ++ rest).head?, b ≠ PERCENT)
      (hletter : ∀ b ∈ rest.head?, isConversion b = false) :
      Renders (PERCENT :: (o.bytes ++ rest)) args (PERCENT :: (o.bytes ++ rest))

/-! ## What is emitted -/

variable {σ : Type} {emit : UInt8 → σ → Bool × σ} {text text' sent rest : List UInt8} {s s' : σ}
  {written : ℕ}

/-- The outcome of emitting a text after a number of characters: all of it and the
count, or -1 after a part of it, because a character is refused or because there are
more than `INT_MAX`. -/
inductive Printed (emit : UInt8 → σ → Bool × σ) (written : ℕ) (text : List UInt8) (s : σ) :
    Option ℕ × σ → Prop
  | shown {s' : σ} (hfits : written + text.length ≤ INT_MAX)
      (h : print emit text s = (true, s')) : Printed emit written text s (some (written + text.length), s')
  | refused {sent rest : List UInt8} {b : UInt8} {s₁ s' : σ} (htext : text = sent ++ b :: rest)
      (hsent : print emit sent s = (true, s₁)) (hb : emit b s₁ = (false, s')) :
      Printed emit written text s (none, s')
  | overflow {sent rest : List UInt8} {s' : σ} (hover : INT_MAX < written + text.length)
      (htext : text = sent ++ rest) (hsent : print emit sent s = (true, s')) :
      Printed emit written text s (none, s')

theorem print_append (h : print emit text s = (true, s')) (text' : List UInt8) :
    print emit (text ++ text') s = print emit text' s' := by
  induction text generalizing s with
  | nil =>
      obtain ⟨-, rfl⟩ := Prod.ext_iff.mp h
      rfl
  | cons b text ih =>
      rw [List.cons_append, print]
      rw [print] at h
      split at h
      · exact ih h
      · exact absurd (congrArg Prod.fst h) Bool.noConfusion

/-- A text is emitted up to the first character that is refused. -/
theorem print_cases (emit : UInt8 → σ → Bool × σ) (text : List UInt8) (s : σ) :
    (∃ s', print emit text s = (true, s')) ∨
      ∃ sent b rest s₁ s', text = sent ++ b :: rest ∧ print emit sent s = (true, s₁) ∧
        emit b s₁ = (false, s') ∧ print emit text s = (false, s') := by
  induction text generalizing s with
  | nil => exact Or.inl ⟨s, rfl⟩
  | cons b text ih =>
      rcases hb : emit b s with ⟨ok, s₁⟩
      cases ok with
      | false =>
          refine Or.inr ⟨[], b, text, s, s₁, rfl, rfl, hb, ?_⟩
          rw [print, hb]
      | true =>
          have hcons (l : List UInt8) : print emit (b :: l) s = print emit l s₁ := by rw [print, hb]
          rcases ih s₁ with ⟨s', h⟩ | ⟨sent, c, rest, s₂, s', rfl, hsent, hc, h⟩
          · exact Or.inl ⟨s', (hcons _).trans h⟩
          · exact Or.inr ⟨b :: sent, c, rest, s₂, s', rfl, (hcons _).trans hsent, hc,
              (hcons _).trans h⟩

/-- One text after another. -/
theorem Printed.append {n : ℕ} {r : Option ℕ × σ} (h : Printed emit written text s (some n, s'))
    (h' : Printed emit n text' s' r) : Printed emit written (text ++ text') s r := by
  cases h with
  | shown hfits h =>
      cases h' with
      | shown hfits' hprint =>
          rw [Nat.add_assoc, ← List.length_append] at hfits' ⊢
          exact .shown hfits' ((print_append h _).trans hprint)
      | refused htext hsent hb =>
          subst htext
          exact .refused (List.append_assoc _ _ _).symm ((print_append h _).trans hsent) hb
      | overflow hover htext hsent =>
          rw [Nat.add_assoc, ← List.length_append] at hover
          subst htext
          exact .overflow hover (List.append_assoc _ _ _).symm ((print_append h _).trans hsent)

/-- After -1 nothing more is emitted. -/
theorem Printed.stopped (h : Printed emit written text s (none, s')) (text' : List UInt8) :
    Printed emit written (text ++ text') s (none, s') := by
  cases h with
  | refused htext hsent hb =>
      subst htext
      exact .refused (List.append_assoc _ _ _) hsent hb
  | overflow hover htext hsent =>
      subst htext
      refine .overflow ?_ (List.append_assoc _ _ _) hsent
      rw [List.length_append]
      omega

theorem putPieces_printed (pieces : List (List UInt8)) (hwritten : written ≤ INT_MAX) (s : σ) :
    Printed emit written pieces.flatten s (putPieces emit pieces written s) := by
  induction pieces generalizing written s with
  | nil => exact .shown hwritten rfl
  | cons piece pieces ih =>
      rw [List.flatten_cons, putPieces]
      by_cases hover : INT_MAX - written < piece.length
      · rw [if_pos hover]
        refine .overflow ?_ (List.nil_append _).symm rfl
        rw [List.length_append]
        omega
      · have hfits : written + piece.length ≤ INT_MAX := by omega
        rw [if_neg hover]
        rcases print_cases emit piece s with ⟨s', h⟩ | ⟨sent, b, rest, s₁, s', rfl, hsent, hb, h⟩
        · rw [h]
          exact (Printed.shown hfits h).append (ih hfits s')
        · rw [h]
          exact (Printed.refused rfl hsent hb).stopped _

/-! ## One turn -/

/-- Literal text stands for itself. -/
theorem Renders.split {l rest text : List UInt8} {args : List Arg} (hl : ∀ c ∈ l, c ≠ PERCENT)
    (h : Renders (l ++ rest) args text) : ∃ text', text = l ++ text' ∧ Renders rest args text' := by
  induction l generalizing text with
  | nil => exact ⟨text, rfl, h⟩
  | cons c l ih =>
      have hc : c ≠ PERCENT := hl c List.mem_cons_self
      rw [List.cons_append] at h
      generalize hformat : l ++ rest = format at h
      cases h with
      | plain _ h =>
          subst hformat
          obtain ⟨text', rfl, h'⟩ := ih (fun c hc ↦ hl c (List.mem_cons_of_mem _ hc)) h
          exact ⟨text', rfl, h'⟩
      | percent => exact absurd rfl hc
      | conversion => exact absurd rfl hc
      | unknown => exact absurd rfl hc

/-- A run of literal text. -/
theorem Renders.literal {rest text : List UInt8} {args : List Arg} (h : Renders rest args text) :
    ∃ text', text = rest.takeWhile (· ≠ PERCENT) ++ text' ∧
      Renders (rest.dropWhile (· ≠ PERCENT)) args text' := by
  rw [← List.takeWhile_append_dropWhile (p := (· ≠ PERCENT)) (l := rest)] at h
  refine h.split fun c hc ↦ ?_
  have hall := List.all_takeWhile (p := (· ≠ PERCENT)) (l := rest)
  simpa using List.all_eq_true.mp hall c hc

theorem Options.scan {o : Options} {rest : List UInt8} (h : o.Ends rest) :
    ((o.bytes ++ rest).dropWhile isFlag).dropWhile isDigit = rest := by
  have hflags : (o.bytes ++ rest).dropWhile isFlag = o.width ++ rest := by
    rw [bytes, List.append_assoc, List.dropWhile_append_of_pos o.flags_flag]
    cases hwidth : o.width with
    | nil =>
        rw [List.nil_append]
        cases rest with
        | nil => rfl
        | cons b rest =>
            have hb := (h b rfl).2 hwidth
            exact List.dropWhile_cons_of_neg (Bool.eq_false_iff.mp hb)
    | cons b width =>
        have hb := o.width_first b (by rw [hwidth]; rfl)
        exact List.dropWhile_cons_of_neg (Bool.eq_false_iff.mp hb)
  rw [hflags, List.dropWhile_append_of_pos o.width_digit]
  cases rest with
  | nil => rfl
  | cons b rest => exact List.dropWhile_cons_of_neg (Bool.eq_false_iff.mp (h b rfl).1)

/-- A directive is no literal. -/
theorem literal_directive {rest : List UInt8} (h : ∀ b ∈ rest.head?, b ≠ PERCENT) :
    literal (PERCENT :: rest) = none := by
  cases rest with
  | nil => rfl
  | cons b rest => exact if_neg (h b rfl)

theorem Conversion.convert {letter : UInt8} {arg : Arg} {shown : List UInt8}
    (h : Conversion letter arg shown) (args : List Arg) :
    ∃ pieces, convert letter (arg :: args) = some (pieces, args) ∧ pieces.flatten = shown := by
  cases h with
  | s str => exact ⟨_, rfl, List.append_nil _⟩
  | c w => exact ⟨_, rfl, rfl⟩
  | d w | i w =>
      refine ⟨_, rfl, ?_⟩
      have habs : w.toInt.natAbs < 2 ^ 32 := by
        have := w.toInt_lt
        have := w.le_toInt
        omega
      rw [List.flatten_cons, List.flatten_nil, List.append_nil, numberText_eq (by omega) _ _ habs,
        signed]
      simp only [decide_eq_true_eq]
  | u w | x w | X w | o w =>
      refine ⟨_, rfl, ?_⟩
      rw [List.flatten_cons, List.flatten_nil, List.append_nil, numberText_eq (by omega) _ _ w.isLt]
      rfl
  | p w =>
      refine ⟨_, rfl, ?_⟩
      rw [List.flatten_cons, List.flatten_cons, List.flatten_nil, List.append_nil,
        numberText_eq (by omega) _ _ w.isLt]
      rfl

/-- A letter that converts is no flag, no digit and no percent sign. -/
theorem Conversion.letter {letter : UInt8} {arg : Arg} {shown : List UInt8}
    (h : Conversion letter arg shown) :
    isConversion letter = true ∧ isDigit letter = false ∧ isFlag letter = false ∧ letter ≠ PERCENT := by
  cases h
  all_goals decide

theorem Options.ne_percent (o : Options) {b : UInt8} (hb : b ∈ o.bytes) : b ≠ PERCENT := by
  rintro rfl
  rcases List.mem_append.mp hb with hflag | hdigit
  · exact absurd (o.flags_flag _ hflag) (by decide)
  · exact absurd (o.width_digit _ hdigit) (by decide)

/-- A turn emits the start of the text and leaves the rest of the format. -/
theorem turn_renders {format text : List UInt8} {args : List Arg} (h : Renders format args text)
    (hne : format ≠ []) :
    ∃ pieces rest args' text', turn format args = some (pieces, rest, args') ∧
      text = pieces.flatten ++ text' ∧ Renders rest args' text' ∧ rest.length < format.length := by
  have hshort (l : List UInt8) : (l.dropWhile (· ≠ PERCENT)).length < l.length + 1 :=
    Nat.lt_succ_of_le (List.dropWhile_suffix _).length_le
  cases h with
  | done => exact absurd rfl hne
  | @plain c rest args text hc h =>
      obtain ⟨text', rfl, h'⟩ := h.literal
      refine ⟨[c :: rest.takeWhile (· ≠ PERCENT)], _, _, text', ?_, ?_, h', hshort rest⟩
      · have hliteral : literal (c :: rest) = some (c :: rest.takeWhile (· ≠ PERCENT),
            rest.dropWhile (· ≠ PERCENT)) := if_pos hc
        rw [turn, hliteral]
      · rw [List.flatten_cons, List.flatten_nil, List.append_nil]
        rfl
  | @percent rest args text h =>
      obtain ⟨text', rfl, h'⟩ := h.literal
      refine ⟨[PERCENT :: rest.takeWhile (· ≠ PERCENT)], _, _, text', ?_, ?_, h',
        (hshort rest).trans (Nat.lt_succ_self _)⟩
      · have hliteral : literal (PERCENT :: PERCENT :: rest) =
            some (PERCENT :: rest.takeWhile (· ≠ PERCENT), rest.dropWhile (· ≠ PERCENT)) := rfl
        rw [turn, hliteral]
      · rw [List.flatten_cons, List.flatten_nil, List.append_nil]
        rfl
  | @conversion o letter rest arg args shown text hshown h =>
      obtain ⟨hconv, hdigit, hflag, hpercent⟩ := hshown.letter
      obtain ⟨pieces, hpieces, hflat⟩ := hshown.convert args
      have hends : o.Ends (letter :: rest) := by
        rintro b ⟨rfl⟩
        exact ⟨hdigit, fun _ ↦ hflag⟩
      have hhead : ∀ b ∈ (o.bytes ++ letter :: rest).head?, b ≠ PERCENT := by
        intro b hb
        cases hbytes : o.bytes with
        | nil =>
            rw [hbytes] at hb
            obtain rfl : letter = b := Option.some.inj hb
            exact hpercent
        | cons c l =>
            rw [hbytes] at hb
            obtain rfl : c = b := Option.some.inj hb
            exact o.ne_percent (hbytes ▸ List.mem_cons_self)
      refine ⟨pieces, rest, args, text, ?_, ?_, h, ?_⟩
      · rw [turn, literal_directive hhead]
        dsimp only [List.tail_cons]
        rw [Options.scan hends]
        dsimp only
        rw [if_pos hconv, hpieces]
        rfl
      · rw [hflat]
      · rw [List.length_cons, List.length_append, List.length_cons]
        omega
  | @unknown o rest args hends hpercent hletter =>
      refine ⟨[PERCENT :: (o.bytes ++ rest)], [], args, [], ?_, ?_, .done args, Nat.succ_pos _⟩
      · rw [turn, literal_directive hpercent]
        dsimp only [List.tail_cons]
        rw [Options.scan hends]
        cases rest with
        | nil => rfl
        | cons letter rest =>
            dsimp only
            rw [if_neg (Bool.eq_false_iff.mp (hletter letter rfl))]
      · rw [List.append_nil, List.flatten_cons, List.flatten_nil, List.append_nil]

/-- All turns. -/
theorem vprintfLoop_printed {fuel : ℕ} {format text : List UInt8} {args : List Arg}
    (h : Renders format args text) (hfuel : format.length < fuel) (hwritten : written ≤ INT_MAX)
    (s : σ) :
    ∃ r, vprintfLoop emit fuel format args written s = some r ∧ Printed emit written text s r := by
  induction fuel generalizing format args text written s with
  | zero => omega
  | succ fuel ih =>
      by_cases hend : format = []
      · subst hend
        cases h
        refine ⟨(some written, s), ?_, .shown hwritten rfl⟩
        rw [vprintfLoop, if_pos rfl]
      · obtain ⟨pieces, rest, args', text', hturn, rfl, hrest, hlen⟩ := turn_renders h hend
        have hpieces : Printed emit written _ s _ := putPieces_printed pieces hwritten s
        rw [vprintfLoop, if_neg hend, hturn, Option.bind_some]
        dsimp only
        rcases hput : putPieces emit pieces written s with ⟨result, s'⟩
        rw [hput] at hpieces
        cases result with
        | none => exact ⟨(none, s'), rfl, hpieces.stopped text'⟩
        | some n =>
            have hn : n ≤ INT_MAX := by
              cases hpieces
              assumption
            obtain ⟨r, hloop, hr⟩ := ih hrest (by omega) hn s'
            exact ⟨r, hloop, hpieces.append hr⟩

/-! ## The function -/

theorem vprintfGen_printed (format : CString) {args : List Arg} {text : List UInt8}
    (h : Renders format.bytes args text) (emit : UInt8 → σ → Bool × σ) (s : σ) :
    ∃ r, vprintfGen emit format args s = some r ∧ Printed emit 0 text s r :=
  vprintfLoop_printed h (Nat.lt_succ_self _) (Nat.zero_le _) s

/-- `__vprintf_gen` emits the text of the format and counts it; -1 is for a text that
is longer than `INT_MAX` or of which a character is refused, and then a part of
the text was emitted. -/
theorem vprintfGen_renders (format : CString) {args : List Arg} {text : List UInt8}
    (h : Renders format.bytes args text) (emit : UInt8 → σ → Bool × σ) (s : σ) :
    ∃ r s', vprintfGen emit format args s = some (r, s') ∧
      (∀ n, r = some n → n = text.length ∧ n ≤ INT_MAX ∧ print emit text s = (true, s')) ∧
      (INT_MAX < text.length ∨ (print emit text s).1 = false → r = none) ∧
      (r = none → ∃ sent rest s₁, text = sent ++ rest ∧ print emit sent s = (true, s₁) ∧
        ((INT_MAX < text.length ∧ s' = s₁) ∨ ∃ b rest', rest = b :: rest' ∧ emit b s₁ = (false, s'))) := by
  obtain ⟨⟨r, s'⟩, hloop, hprinted⟩ := vprintfGen_printed format h emit s
  refine ⟨r, s', hloop, ?_⟩
  cases hprinted with
  | shown hfits hprint =>
      rw [Nat.zero_add] at hfits
      refine ⟨fun n hn ↦ ?_, fun hno ↦ ?_, fun hno ↦ nomatch hno⟩
      · rw [← Option.some.inj hn, Nat.zero_add]
        exact ⟨rfl, hfits, hprint⟩
      · rcases hno with hlong | hfalse
        · omega
        · rw [hprint] at hfalse
          exact absurd hfalse Bool.noConfusion
  | refused htext hsent hb =>
      exact ⟨fun n hn ↦ (nomatch hn), fun _ ↦ rfl,
        fun _ ↦ ⟨_, _, _, htext, hsent, Or.inr ⟨_, _, rfl, hb⟩⟩⟩
  | overflow hover htext hsent =>
      rw [Nat.zero_add] at hover
      exact ⟨fun n hn ↦ (nomatch hn), fun _ ↦ rfl,
        fun _ ↦ ⟨_, _, _, htext, hsent, Or.inl ⟨hover, rfl⟩⟩⟩

/-- `%-5d%%%k!` with -40. -/
theorem vprintfGen_renders_unknown :
    ∃ r s', vprintfGen collect ⟨[0x25, 0x2D, 0x35, 0x64, 0x25, 0x25, 0x25, 0x6B, 0x21], by decide⟩
        [.word (-40)] [] = some (r, s') ∧
      r = some 7 ∧ s' = [0x2D, 0x34, 0x30, 0x25, 0x25, 0x6B, 0x21] := by
  have hunknown : Renders [0x25, 0x6B, 0x21] [] [0x25, 0x6B, 0x21] :=
    @Renders.unknown ⟨[], [], nofun, nofun, nofun, by decide⟩ [0x6B, 0x21] []
      (by rintro b ⟨rfl⟩; decide) (by rintro b ⟨rfl⟩; decide) (by rintro b ⟨rfl⟩; decide)
  have hsigned : signed (-40) = [0x2D, 0x34, 0x30] := by decide
  have hdirective := Renders.conversion
    ⟨[0x2D], [0x35], List.forall_mem_singleton.mpr (by decide),
      List.forall_mem_singleton.mpr (by decide), by rintro b ⟨rfl⟩; decide, by decide⟩
    (.d (-40)) (.percent hunknown)
  rw [hsigned] at hdirective
  obtain ⟨r, s', h, hsome, -, hnone⟩ := vprintfGen_renders
    ⟨[0x25, 0x2D, 0x35, 0x64, 0x25, 0x25, 0x25, 0x6B, 0x21], by decide⟩ hdirective collect []
  refine ⟨r, s', h, ?_⟩
  cases r with
  | none =>
      obtain ⟨sent, rest, s₁, -, -, ⟨hlong, -⟩ | ⟨b, rest', -, hb⟩⟩ := hnone rfl
      · exact absurd hlong (by decide)
      · exact absurd (congrArg Prod.fst hb) Bool.noConfusion
  | some n =>
      obtain ⟨hn, -, hprint⟩ := hsome n rfl
      exact ⟨congrArg some hn, (congrArg Prod.snd hprint).symm⟩

end Libc

end EclipseOS
