import EclipseOS.Libc.Strtol

/-!
# The subject sequence

What `strtol` is to accept: white space, a sign, a prefix `0x` with a hexadecimal
digit after it, and the longest run of digits; its value is clamped to a `long`.
The code does so for numbers that fit, and when no prefix stands alone.
-/

namespace EclipseOS

namespace Libc

structure Subject where
  negative : Bool
  base : ℕ
  digits : List ℕ
  rest : List UInt8
deriving DecidableEq

namespace Subject

def magnitude (x : Subject) : ℕ := Numerals.readOn x.base 0 x.digits

def value (x : Subject) : ℤ := if x.negative then -x.magnitude else x.magnitude

def clamped (x : Subject) : ℤ := max LONG_MIN (min LONG_MAX x.value)

/-- Without a digit nothing is consumed. -/
def stop (x : Subject) (nptr : CString) : List UInt8 := if x.digits = [] then nptr.bytes else x.rest

end Subject

/-- A hexadecimal digit follows the prefix. -/
def hexFollows (s : List UInt8) : Bool := (s.drop 2).head?.any (digitIn 16)

/-- The base and where the digits start, for a prefix with a digit after it. -/
def subjectBase (base : ℕ) (s : List UInt8) : ℕ × List UInt8 :=
  if (base = 0 ∨ base = 16) ∧ hexMark s ∧ hexFollows s then (16, s.drop 2)
  else if base = 0 then (if s.head? = some 0x30 then 8 else 10, s)
  else (base, s)

/-- What follows the white space and the sign. -/
def unsigned (nptr : CString) : List UInt8 := (signOf (nptr.bytes.dropWhile isSpace)).2

def subject (nptr : CString) (base : ℕ) : Subject :=
  let start := subjectBase base (unsigned nptr)
  ⟨(nptr.bytes.dropWhile isSpace).head? = some 0x2D, start.1, run start.1 start.2,
    start.2.dropWhile (digitIn start.1)⟩

/-- The value, the end and the arithmetic are as they are to be. -/
structure Conforms (nptr : CString) (base : ℕ) : Prop where
  value : (strtol nptr base).1.bits.toInt = (subject nptr base).clamped
  stop : (strtol nptr base).2 = (subject nptr base).stop nptr
  inRange : (strtol nptr base).1.inRange = true

/-- A prefix `0x` with no hexadecimal digit after it. -/
def BarePrefix (nptr : CString) (base : ℕ) : Prop :=
  (base = 0 ∨ base = 16) ∧ hexMark (unsigned nptr) ∧ ¬ hexFollows (unsigned nptr)

instance (nptr : CString) (base : ℕ) : Decidable (BarePrefix nptr base) :=
  inferInstanceAs (Decidable (_ ∧ _ ∧ _))

/-! ## The scan -/

theorem signOf_fst (s : List UInt8) : (signOf s).1 = if s.head? = some 0x2D then -1 else 1 := by
  cases s with
  | nil => rfl
  | cons b s =>
      have hhead : (b :: s).head? = some 0x2D ↔ b = 0x2D := Option.some_inj
      rw [signOf]
      by_cases hminus : b = 0x2D
      · rw [if_pos hminus, if_pos (hhead.mpr hminus)]
      · rw [if_neg hminus, if_neg (hhead.not.mpr hminus)]
        split_ifs
        all_goals rfl

theorem signOf_length (s : List UInt8) : (signOf s).2.length ≤ s.length := by
  cases s with
  | nil => exact le_rfl
  | cons b s =>
      rw [signOf]
      split_ifs
      · exact Nat.le_succ _
      · exact Nat.le_succ _
      · exact le_rfl

theorem unsigned_length (nptr : CString) : (unsigned nptr).length ≤ nptr.bytes.length :=
  (signOf_length _).trans (List.dropWhile_suffix _).length_le

theorem subjectBase_range {base : ℕ} (hbase : base = 0 ∨ 2 ≤ base ∧ base ≤ 36) (s : List UInt8) :
    0 < (subjectBase base s).1 ∧ (subjectBase base s).1 ≤ 36 := by
  rw [subjectBase]
  split_ifs
  all_goals
    dsimp only
    omega

/-- Where no prefix stands alone, the base is the one it is to be. -/
theorem baseOf_eq {nptr : CString} {base : ℕ} (h : ¬ BarePrefix nptr base) :
    baseOf base (unsigned nptr) =
      (((subjectBase base (unsigned nptr)).1 : ℤ), (subjectBase base (unsigned nptr)).2) := by
  have hsixteen : (base : ℤ) = 16 ↔ base = 16 := by omega
  rw [baseOf, subjectBase]
  simp only [Nat.cast_eq_zero, hsixteen]
  by_cases hmark : (base = 0 ∨ base = 16) ∧ hexMark (unsigned nptr) = true
  · have hfollows : hexFollows (unsigned nptr) = true := by
      by_contra hno
      exact h ⟨hmark.1, hmark.2, hno⟩
    rw [if_pos hmark, if_pos ⟨hmark.1, hmark.2, hfollows⟩]
    rfl
  · have hno : ¬ ((base = 0 ∨ base = 16) ∧ hexMark (unsigned nptr) = true ∧
        hexFollows (unsigned nptr) = true) := fun hp ↦ hmark ⟨hp.1, hp.2.1⟩
    rw [if_neg hmark, if_neg hno]
    split_ifs
    all_goals rfl

/-- The sign and the digits, without a prefix that stands alone. -/
theorem strtol_eq {nptr : CString} {base : ℕ} (h : ¬ BarePrefix nptr base) :
    strtol nptr base =
      (Long.ofInt (if (subject nptr base).negative then -1 else 1) *
        Long.readOn (subject nptr base).base (Long.ofInt 0) (subject nptr base).digits,
      (subject nptr base).stop nptr) := by
  have hsign : (signOf (nptr.bytes.dropWhile isSpace)).1 =
      if (subject nptr base).negative then -1 else 1 := by
    rw [signOf_fst, subject]
    simp only [decide_eq_true_eq]
  have hscan : strtol nptr base =
      (Long.ofInt (signOf (nptr.bytes.dropWhile isSpace)).1 *
        (strtolLoop (baseOf base (unsigned nptr)).1 (baseOf base (unsigned nptr)).2 (Long.ofInt 0)).1,
      if (strtolLoop (baseOf base (unsigned nptr)).1 (baseOf base (unsigned nptr)).2
          (Long.ofInt 0)).2 = (baseOf base (unsigned nptr)).2 then nptr.bytes
        else (strtolLoop (baseOf base (unsigned nptr)).1 (baseOf base (unsigned nptr)).2
          (Long.ofInt 0)).2) := rfl
  rw [hscan, baseOf_eq h, strtolLoop_eq, hsign, Subject.stop]
  refine congrArg (Prod.mk _) ?_
  by_cases hrun : (subject nptr base).digits = []
  · rw [if_pos hrun, if_pos (run_eq_nil.mp hrun)]
  · rw [if_neg hrun, if_neg (run_eq_nil.not.mp hrun)]
    rfl

/-- A prefix that stands alone is left, where a zero is to be read. -/
theorem strtol_stop_of_barePrefix {nptr : CString} {base : ℕ} (h : BarePrefix nptr base) :
    (strtol nptr base).2 = nptr.bytes ∧ (subject nptr base).stop nptr ≠ nptr.bytes := by
  obtain ⟨hbase, hmark, hno⟩ := h
  obtain ⟨b, c, s, hs, rfl, hc⟩ : ∃ b c s, unsigned nptr = b :: c :: s ∧ b = 0x30 ∧
      (c = 0x78 ∨ c = 0x58) := by
    match hs : unsigned nptr, hmark with
    | b :: c :: s, hmark => exact ⟨b, c, s, rfl, of_decide_eq_true hmark⟩
  have hcode : baseOf base (unsigned nptr) = (16, s) := by
    rw [baseOf, if_pos ⟨by omega, hmark⟩, hs]
    rfl
  have hspec : ∃ n, subjectBase base (unsigned nptr) = (n, 0x30 :: c :: s) ∧ (n = 8 ∨ n = 16) := by
    rw [subjectBase, if_neg fun hp ↦ hno hp.2.2, hs]
    rcases hbase with rfl | rfl
    · exact ⟨8, rfl, Or.inl rfl⟩
    · exact ⟨16, rfl, Or.inr rfl⟩
  constructor
  · have hstuck : s.dropWhile (digitIn 16) = s := by
      rw [hexFollows, hs] at hno
      cases s with
      | nil => rfl
      | cons d s => exact List.dropWhile_cons_of_neg hno
    have hloop := strtolLoop_eq 16 s (Long.ofInt 0)
    rw [hstuck] at hloop
    have hend : (strtol nptr base).2 =
        if (strtolLoop (baseOf base (unsigned nptr)).1 (baseOf base (unsigned nptr)).2
          (Long.ofInt 0)).2 = (baseOf base (unsigned nptr)).2 then nptr.bytes
        else (strtolLoop (baseOf base (unsigned nptr)).1 (baseOf base (unsigned nptr)).2
          (Long.ofInt 0)).2 := rfl
    rw [hend, hcode]
    exact if_pos (congrArg Prod.snd hloop)
  · obtain ⟨n, hn, hn'⟩ := hspec
    have hzero : digitIn n 0x30 = true := digitIn_iff.mpr ⟨0, by decide, by omega⟩
    have hx : ¬ digitIn n c = true := by
      rcases hc with rfl | rfl
      all_goals
        rcases hn' with rfl | rfl
        all_goals decide
    have hdigits : (subject nptr base).digits = [0] := by
      rw [subject, hn]
      dsimp only
      rw [run_cons_of_pos (d := 0) (by decide) (by omega), run_cons_of_neg hx]
    have hrest : (subject nptr base).rest = c :: s := by
      rw [subject, hn]
      dsimp only
      rw [List.dropWhile_cons_of_pos hzero, List.dropWhile_cons_of_neg hx]
    rw [Subject.stop, hdigits, if_neg (List.cons_ne_nil _ _), hrest]
    intro heq
    have hlen := unsigned_length nptr
    rw [hs, ← heq, List.length_cons] at hlen
    omega

/-! ## The code and the grammar -/

theorem Subject.magnitude_le_clamped {x : Subject} (h : (x.magnitude : ℤ) ≤ LONG_MAX) :
    x.clamped = x.value := by
  rw [clamped, value]
  rw [LONG_MAX] at h
  rw [LONG_MAX, LONG_MIN]
  split_ifs
  all_goals omega

/-- `strtol` accepts its grammar exactly where no prefix stands alone and the
digits are those of a `long`. -/
theorem strtol_conforms_iff (nptr : CString) {base : ℕ} (hbase : base = 0 ∨ 2 ≤ base ∧ base ≤ 36) :
    Conforms nptr base ↔
      ¬ BarePrefix nptr base ∧ ((subject nptr base).magnitude : ℤ) ≤ LONG_MAX := by
  have hrange := subjectBase_range hbase (unsigned nptr)
  have hfits : Long.fits (subject nptr base).base = true := by
    apply Long.fits_natCast.mpr
    have hle : (subject nptr base).base ≤ 36 := hrange.2
    rw [LONG_MAX]
    omega
  have hpos : 0 < (subject nptr base).base := hrange.1
  have hdigits : ∀ d ∈ (subject nptr base).digits, d < (subject nptr base).base := run_lt
  obtain ⟨hexact, hbound⟩ := Long.readOn_ofInt (n := 0) hpos hfits hdigits (by decide)
  constructor
  · intro h
    have hbare : ¬ BarePrefix nptr base := fun hbare ↦
      (strtol_stop_of_barePrefix hbare).2 (h.stop.symm.trans (strtol_stop_of_barePrefix hbare).1)
    refine ⟨hbare, Long.fits_natCast.mp (hbound ?_)⟩
    have hall := h.inRange
    rw [strtol_eq hbare] at hall
    exact (Long.inRange_op hall).2
  · rintro ⟨hbare, hmag⟩
    have hvalue : Long.fits (subject nptr base).value = true := by
      apply Long.fits_iff.mpr
      rw [Subject.value]
      rw [LONG_MAX] at hmag
      rw [LONG_MIN, LONG_MAX]
      split_ifs
      all_goals omega
    have hresult : (strtol nptr base).1 = Long.ofInt (subject nptr base).value := by
      have hdigits : Long.readOn (subject nptr base).base (Long.ofInt 0) (subject nptr base).digits =
          Long.ofInt (subject nptr base).magnitude := hexact (Long.fits_natCast.mpr hmag)
      rw [strtol_eq hbare]
      dsimp only
      rw [hdigits, Subject.value]
      split_ifs
      · rw [Long.mul_ofInt (by decide) (Long.fits_natCast.mpr hmag), neg_one_mul]
      · rw [Long.mul_ofInt (by decide) (Long.fits_natCast.mpr hmag), one_mul]
    refine ⟨?_, ?_, ?_⟩
    · rw [hresult, Long.ofInt_bits, Long.toInt_ofInt hvalue, Subject.magnitude_le_clamped hmag]
    · rw [strtol_eq hbare]
    · rw [hresult]
      exact hvalue

/-- `-0x7fFG` is read up to the `G`. -/
theorem strtol_conforms_hex :
    Conforms ⟨[0x2D, 0x30, 0x78, 0x37, 0x66, 0x46, 0x47], by decide⟩ 0 ∧
      (subject ⟨[0x2D, 0x30, 0x78, 0x37, 0x66, 0x46, 0x47], by decide⟩ 0).value = -0x7FF := by
  refine ⟨?_, by decide⟩
  apply (strtol_conforms_iff _ (Or.inl rfl)).mpr
  exact ⟨by decide, by decide⟩

/-- `4294967296` in base 10 gives 0 where `LONG_MAX` is to be given, and of `0x` in
base 16 nothing is consumed where the zero is to be. -/
theorem strtol_wraps :
    (strtol ⟨[0x34, 0x32, 0x39, 0x34, 0x39, 0x36, 0x37, 0x32, 0x39, 0x36], by decide⟩ 10).1 =
        ⟨0, false⟩ ∧
      (subject ⟨[0x34, 0x32, 0x39, 0x34, 0x39, 0x36, 0x37, 0x32, 0x39, 0x36], by decide⟩ 10).clamped =
        LONG_MAX ∧
      ¬ Conforms ⟨[0x34, 0x32, 0x39, 0x34, 0x39, 0x36, 0x37, 0x32, 0x39, 0x36], by decide⟩ 10 ∧
      (strtol ⟨[0x30, 0x78], by decide⟩ 16).2 = [0x30, 0x78] ∧
      (subject ⟨[0x30, 0x78], by decide⟩ 16).stop ⟨[0x30, 0x78], by decide⟩ = [0x78] ∧
      ¬ Conforms ⟨[0x30, 0x78], by decide⟩ 16 := by
  refine ⟨by decide +kernel, by decide +kernel, fun h ↦ ?_, by decide, by decide, fun h ↦ ?_⟩
  · exact absurd h.inRange (by decide +kernel)
  · exact absurd h.stop (by decide)

/-! ## The two scanners -/

/-- In words that wrap, `strtol` gives the value. -/
theorem strtol_bits {nptr : CString} {base : ℕ} (h : ¬ BarePrefix nptr base) :
    (strtol nptr base).1.bits = BitVec.ofInt 32 (subject nptr base).value := by
  have hdigits := Long.readOn_bits (subject nptr base).base (subject nptr base).digits
    (v := Long.ofInt 0) (n := 0) rfl
  rw [strtol_eq h, Subject.value]
  dsimp only
  rw [Long.mul_bits, hdigits, Long.ofInt_bits, ← BitVec.ofInt_natCast, ← BitVec.ofInt_mul]
  refine congrArg (BitVec.ofInt 32) ?_
  split_ifs
  · exact neg_one_mul _
  · exact one_mul _

theorem subject_ten (nptr : CString) :
    ¬ BarePrefix nptr 10 ∧ (subject nptr 10).base = 10 ∧
      (subject nptr 10).digits = run 10 (unsigned nptr) := by
  have hplain : subjectBase 10 (unsigned nptr) = (10, unsigned nptr) := by
    rw [subjectBase, if_neg fun hp ↦ absurd hp.1 (by omega), if_neg (by omega)]
  refine ⟨fun hp ↦ absurd hp.1 (by omega), ?_, ?_⟩
  · rw [subject, hplain]
  · rw [subject, hplain]

/-- Behind the blanks that `atoi` skips there is other white space. -/
def otherSpace (s : CString) : Bool := (s.bytes.dropWhile isBlank).head?.any isSpace

theorem isSpace_of_isBlank {b : UInt8} (h : isBlank b = true) : isSpace b = true := by
  rw [isBlank, decide_eq_true_eq] at h
  rw [isSpace, decide_eq_true_eq]
  simp only [List.mem_cons, List.not_mem_nil, or_false] at h ⊢
  tauto

theorem dropWhile_isSpace (s : List UInt8) :
    s.dropWhile isSpace = (s.dropWhile isBlank).dropWhile isSpace := by
  induction s with
  | nil => rfl
  | cons b s ih =>
      by_cases hblank : isBlank b = true
      · rw [List.dropWhile_cons_of_pos (isSpace_of_isBlank hblank), ih,
          List.dropWhile_cons_of_pos hblank]
      · rw [List.dropWhile_cons_of_neg hblank]

/-- White space is no sign and no digit. -/
theorem signOf_of_isSpace {b : UInt8} (s : List UInt8) (hb : isSpace b = true) :
    signOf (b :: s) = (1, b :: s) ∧ run 10 (b :: s) = [] := by
  have hmem : b ∈ ([0x20, 0x09, 0x0A, 0x0B, 0x0C, 0x0D] : List UInt8) := of_decide_eq_true hb
  have hnot : b ≠ 0x2D ∧ b ≠ 0x2B ∧ ¬ digitIn 10 b = true := by
    simp only [List.mem_cons, List.not_mem_nil, or_false] at hmem
    rcases hmem with rfl | rfl | rfl | rfl | rfl | rfl <;> exact ⟨by decide, by decide, by decide⟩
  obtain ⟨hminus, hplus, hdigit⟩ := hnot
  exact ⟨by rw [signOf, if_neg hminus, if_neg hplus], run_cons_of_neg hdigit⟩

/-- Of the strings whose value fits an `int`, the two scanners agree on those
that have no white space other than blanks, tabs and newlines before the number, and
where the number is zero. -/
theorem atoi_eq_strtol_iff (s : CString) (hlo : LONG_MIN ≤ (subject s 10).value)
    (hhi : (subject s 10).value ≤ LONG_MAX) :
    (atoi s).bits = (strtol s 10).1.bits ↔
      otherSpace s = false ∨ ∀ d ∈ (subject s 10).digits, d = 0 := by
  obtain ⟨hbare, hbase, hdigits⟩ := subject_ten s
  have hten : strtol s 10 = strtol s (10 : ℕ) := rfl
  have hatoi : atoi s = Long.ofInt (signOf (s.bytes.dropWhile isBlank)).1 *
      Long.readOn 10 (Long.ofInt 0) (run 10 (signOf (s.bytes.dropWhile isBlank)).2) := by
    rw [← atoiLoop_eq]
    rfl
  by_cases hother : otherSpace s = true
  · have hzero : (atoi s).bits = 0 := by
      rw [otherSpace] at hother
      cases hs : s.bytes.dropWhile isBlank with
      | nil =>
          rw [hs] at hother
          exact absurd hother Bool.false_ne_true
      | cons b t =>
          rw [hs] at hother
          obtain ⟨hsign, hrun⟩ := signOf_of_isSpace t hother
          rw [hatoi, hs, hsign, hrun]
          rfl
    have hvalue : (subject s 10).value = 0 ↔ (subject s 10).magnitude = 0 := by
      rw [Subject.value]
      split_ifs
      all_goals omega
    have hmag : (subject s 10).magnitude = 0 ↔ ∀ d ∈ (subject s 10).digits, d = 0 :=
      Numerals.readOn_eq_zero (by omega)
    rw [hzero, hten, strtol_bits hbare, hother, ← hmag, ← hvalue]
    constructor
    · intro h
      have hint := congrArg BitVec.toInt h
      rw [Long.toInt_ofInt (Long.fits_iff.mpr ⟨hlo, hhi⟩)] at hint
      exact Or.inr hint.symm
    · rintro (h | h)
      · exact absurd h Bool.noConfusion
      · rw [h]
        rfl
  · have hsame : s.bytes.dropWhile isSpace = s.bytes.dropWhile isBlank := by
      rw [dropWhile_isSpace]
      cases hs : s.bytes.dropWhile isBlank with
      | nil => rfl
      | cons b t =>
          rw [otherSpace, hs] at hother
          exact List.dropWhile_cons_of_neg hother
    refine iff_of_true ?_ (Or.inl (Bool.eq_false_iff.mpr hother))
    rw [hatoi, ← hsame, hten, strtol_eq hbare, hbase, hdigits, signOf_fst, unsigned, subject]
    simp only [decide_eq_true_eq]

/-- Both read `-56` after a blank. -/
theorem atoi_eq_strtol_negative :
    (subject ⟨[0x20, 0x2D, 0x35, 0x36], by decide⟩ 10).value = -56 ∧
      (atoi ⟨[0x20, 0x2D, 0x35, 0x36], by decide⟩).bits =
        (strtol ⟨[0x20, 0x2D, 0x35, 0x36], by decide⟩ 10).1.bits := by
  refine ⟨by decide, ?_⟩
  apply (atoi_eq_strtol_iff _ (by decide) (by decide)).mpr
  exact Or.inl (by decide)

/-- After a vertical tab, `atoi` reads 0 and `strtol` reads 5. -/
theorem atoi_ne_strtol_verticalTab :
    (atoi ⟨[0x0B, 0x35], by decide⟩).bits = 0 ∧
      (strtol ⟨[0x0B, 0x35], by decide⟩ 10).1.bits = 5 ∧
      (subject ⟨[0x0B, 0x35], by decide⟩ 10).value = 5 := by decide

end Libc

end EclipseOS
