import EclipseOS.Lib.Numerals
import EclipseOS.Libc.Printf

/-!
# Numbers from strings

`strtol` and `atoi` of the C library.  An `int` and a `long` have 32 bits.  The
place where a scan stands is what is left of the string.
-/

namespace EclipseOS

namespace Libc

def LONG_MAX : ℤ := 2 ^ 31 - 1
def LONG_MIN : ℤ := -2 ^ 31

/-- A `long` as the machine computes it, and whether every operation on the way
to it stayed in the range of the type. -/
structure Long where
  bits : BitVec 32
  inRange : Bool
deriving DecidableEq

namespace Long

def fits (z : ℤ) : Bool := LONG_MIN ≤ z ∧ z ≤ LONG_MAX

def ofInt (z : ℤ) : Long := ⟨BitVec.ofInt 32 z, fits z⟩

/-- The result is taken modulo the word. -/
def op (f : ℤ → ℤ → ℤ) (v w : Long) : Long :=
  ⟨BitVec.ofInt 32 (f v.bits.toInt w.bits.toInt),
    v.inRange && w.inRange && fits (f v.bits.toInt w.bits.toInt)⟩

instance : Add Long := ⟨op (· + ·)⟩
instance : Mul Long := ⟨op (· * ·)⟩

end Long

/-- The white space that `strtol` skips. -/
def isSpace (b : UInt8) : Bool := b ∈ ([0x20, 0x09, 0x0A, 0x0B, 0x0C, 0x0D] : List UInt8)

/-- The white space that `atoi` skips. -/
def isBlank (b : UInt8) : Bool := b ∈ ([0x20, 0x09, 0x0A] : List UInt8)

/-- The sign, and what follows it. -/
def signOf : List UInt8 → ℤ × List UInt8
  | [] => (1, [])
  | b :: s => if b = 0x2D then (-1, s) else if b = 0x2B then (1, s) else (1, b :: s)

/-- `0x` or `0X`. -/
def hexMark : List UInt8 → Bool
  | b :: c :: _ => b = 0x30 ∧ (c = 0x78 ∨ c = 0x58)
  | _ => false

/-- The base, found out when it is 0, and the start of the digits. -/
def baseOf (base : ℤ) (s : List UInt8) : ℤ × List UInt8 :=
  if (base = 0 ∨ base = 16) ∧ hexMark s then (16, s.drop 2)
  else if base = 0 then (if s.head? = some 0x30 then 8 else 10, s)
  else (base, s)

def digitValue (b : UInt8) : Option ℕ :=
  if 0x30 ≤ b ∧ b ≤ 0x39 then some (b.toNat - 0x30)
  else if 0x61 ≤ b ∧ b ≤ 0x7A then some (b.toNat - 0x61 + 10)
  else if 0x41 ≤ b ∧ b ≤ 0x5A then some (b.toNat - 0x41 + 10)
  else none

def strtolLoop (base : ℤ) : List UInt8 → Long → Long × List UInt8
  | [], v => (v, [])
  | b :: s, v => match digitValue b with
    | none => (v, b :: s)
    | some d => if base ≤ d then (v, b :: s)
        else strtolLoop base s (v * Long.ofInt base + Long.ofInt d)

/-- The value and `*endptr`. -/
def strtol (nptr : CString) (base : ℤ) : Long × List UInt8 :=
  let (sign, s) := signOf (nptr.bytes.dropWhile isSpace)
  let (base, start) := baseOf base s
  let (v, s) := strtolLoop base start (Long.ofInt 0)
  (Long.ofInt sign * v, if s = start then nptr.bytes else s)

def atoiLoop : List UInt8 → Long → Long
  | [], v => v
  | b :: s, v =>
      if isDigit b then atoiLoop s (v * Long.ofInt 10 + Long.ofInt (b.toNat - 0x30)) else v

def atoi (s : CString) : Long :=
  let (sign, s) := signOf (s.bytes.dropWhile isBlank)
  Long.ofInt sign * atoiLoop s (Long.ofInt 0)

/-! ## Words -/

namespace Long

theorem op_bits (f : ℤ → ℤ → ℤ) (v w : Long) :
    (op f v w).bits = BitVec.ofInt 32 (f v.bits.toInt w.bits.toInt) := rfl

@[simp] theorem add_bits (v w : Long) : (v + w).bits = v.bits + w.bits := by
  rw [show v + w = op (· + ·) v w from rfl, op_bits, BitVec.ofInt_add, BitVec.ofInt_toInt,
    BitVec.ofInt_toInt]

@[simp] theorem mul_bits (v w : Long) : (v * w).bits = v.bits * w.bits := by
  rw [show v * w = op (· * ·) v w from rfl, op_bits, BitVec.ofInt_mul, BitVec.ofInt_toInt,
    BitVec.ofInt_toInt]

@[simp] theorem ofInt_bits (z : ℤ) : (ofInt z).bits = BitVec.ofInt 32 z := rfl

theorem fits_iff {z : ℤ} : fits z = true ↔ LONG_MIN ≤ z ∧ z ≤ LONG_MAX := decide_eq_true_iff

/-- A value of the type is its own residue. -/
theorem toInt_ofInt {z : ℤ} (h : fits z = true) : (BitVec.ofInt 32 z).toInt = z := by
  obtain ⟨hlo, hhi⟩ := fits_iff.mp h
  rw [LONG_MIN] at hlo
  rw [LONG_MAX] at hhi
  apply BitVec.toInt_ofInt_eq_self
  all_goals omega

theorem op_ofInt (f : ℤ → ℤ → ℤ) {y z : ℤ} (hy : fits y = true) (hz : fits z = true) :
    op f (ofInt y) (ofInt z) = ofInt (f y z) := by
  rw [op, ofInt_bits, ofInt_bits, toInt_ofInt hy, toInt_ofInt hz, show (ofInt y).inRange = true from hy,
    show (ofInt z).inRange = true from hz]
  rfl

theorem add_ofInt {y z : ℤ} (hy : fits y = true) (hz : fits z = true) :
    ofInt y + ofInt z = ofInt (y + z) := op_ofInt (· + ·) hy hz

theorem mul_ofInt {y z : ℤ} (hy : fits y = true) (hz : fits z = true) :
    ofInt y * ofInt z = ofInt (y * z) := op_ofInt (· * ·) hy hz

/-- An operation that left the range does not come back. -/
theorem inRange_op {f : ℤ → ℤ → ℤ} {v w : Long} (h : (op f v w).inRange = true) :
    v.inRange = true ∧ w.inRange = true := by
  have hand : (v.inRange && w.inRange && fits (f v.bits.toInt w.bits.toInt)) = true := h
  simp only [Bool.and_eq_true] at hand
  exact hand.1

/-! ### Digit after digit -/

/-- The value after more digits, as the machine computes it. -/
def readOn (base : ℕ) (v : Long) (ds : List ℕ) : Long :=
  ds.foldl (fun v d ↦ v * ofInt base + ofInt d) v

theorem readOn_bits (base : ℕ) (ds : List ℕ) {v : Long} {n : ℕ} (hv : v.bits = BitVec.ofNat 32 n) :
    (readOn base v ds).bits = BitVec.ofNat 32 (Numerals.readOn base n ds) := by
  induction ds generalizing v n with
  | nil => exact hv
  | cons d ds ih =>
      apply ih
      rw [add_bits, mul_bits, hv, ofInt_bits, ofInt_bits, BitVec.ofInt_natCast, BitVec.ofInt_natCast,
        BitVec.ofNat_add, BitVec.ofNat_mul]

theorem inRange_readOn {base : ℕ} {ds : List ℕ} {v : Long} (h : (readOn base v ds).inRange = true) :
    v.inRange = true := by
  induction ds generalizing v with
  | nil => exact h
  | cons d ds ih =>
      have hsum : (v * ofInt base + ofInt d).inRange = true := ih h
      exact (inRange_op (inRange_op hsum).1).1

theorem fits_natCast {n : ℕ} : fits n = true ↔ (n : ℤ) ≤ LONG_MAX := by
  rw [fits_iff]
  constructor
  · exact And.right
  · intro h
    refine ⟨?_, h⟩
    rw [LONG_MIN]
    omega

/-- Nothing overflows exactly when the value fits. -/
theorem readOn_ofInt {base n : ℕ} {ds : List ℕ} (hbase : 0 < base) (hfits : fits base = true)
    (hds : ∀ d ∈ ds, d < base) (hn : fits n = true) :
    (fits (Numerals.readOn base n ds) = true →
      readOn base (ofInt n) ds = ofInt (Numerals.readOn base n ds)) ∧
    ((readOn base (ofInt n) ds).inRange = true → fits (Numerals.readOn base n ds) = true) := by
  induction ds generalizing n with
  | nil => exact ⟨fun _ ↦ rfl, fun _ ↦ hn⟩
  | cons d ds ih =>
      have hd : fits d = true := by
        apply fits_natCast.mpr
        have hlt : d < base := hds d List.mem_cons_self
        have hle := fits_natCast.mp hfits
        omega
      have hstep : fits (n * base + d : ℕ) = true →
          ofInt n * ofInt base + ofInt d = ofInt (n * base + d : ℕ) := by
        intro h
        have hmul : fits (n * base : ℕ) = true := by
          apply fits_natCast.mpr
          have hle := fits_natCast.mp h
          omega
        rw [Nat.cast_mul] at hmul
        rw [mul_ofInt hn hfits, add_ofInt hmul hd]
        push_cast
        rfl
      have hrest (h : fits (n * base + d : ℕ) = true) :=
        ih (n := n * base + d) (fun d hd ↦ hds d (List.mem_cons_of_mem _ hd)) h
      rw [Numerals.readOn_cons]
      constructor
      · intro h
        have hnext : fits (n * base + d : ℕ) = true := by
          apply fits_natCast.mpr
          have hgrow : n * base + d ≤ Numerals.readOn base (n * base + d) ds := Numerals.le_readOn hbase
          have hle := fits_natCast.mp h
          omega
        rw [← (hrest hnext).1 h, ← hstep hnext]
        rfl
      · intro h
        have hsum : (ofInt n * ofInt base + ofInt d).inRange = true := inRange_readOn h
        have hnext : fits (n * base + d : ℕ) = true := by
          have hmul : fits (n * base : ℤ) = true := by
            have hprod := (inRange_op hsum).1
            rwa [mul_ofInt hn hfits] at hprod
          rw [mul_ofInt hn hfits, add_ofInt hmul hd] at hsum
          push_cast
          exact hsum
        apply (hrest hnext).2
        rw [← hstep hnext]
        exact h

end Long

/-! ## The loops -/

/-- A digit of the base. -/
def digitIn (base : ℕ) (b : UInt8) : Bool := (digitValue b).any (· < base)

/-- The values of the digits at the start of a string. -/
def run (base : ℕ) (s : List UInt8) : List ℕ := (s.takeWhile (digitIn base)).filterMap digitValue

theorem digitIn_iff {base : ℕ} {b : UInt8} :
    digitIn base b = true ↔ ∃ d, digitValue b = some d ∧ d < base := by
  rw [digitIn, Option.any_eq_true]
  constructor
  all_goals
    rintro ⟨d, hd, hlt⟩
    exact ⟨d, hd, by simpa using hlt⟩

theorem run_cons_of_pos {base d : ℕ} {b : UInt8} {s : List UInt8} (hb : digitValue b = some d)
    (hd : d < base) : run base (b :: s) = d :: run base s := by
  rw [run, List.takeWhile_cons_of_pos (digitIn_iff.mpr ⟨d, hb, hd⟩), List.filterMap_cons_some hb]
  rfl

theorem run_cons_of_neg {base : ℕ} {b : UInt8} {s : List UInt8} (hb : ¬ digitIn base b = true) :
    run base (b :: s) = [] := by
  rw [run, List.takeWhile_cons_of_neg hb]
  rfl

theorem run_lt {base : ℕ} {s : List UInt8} : ∀ d ∈ run base s, d < base := by
  induction s with
  | nil => exact fun d hd ↦ nomatch hd
  | cons b s ih =>
      by_cases hin : digitIn base b = true
      · obtain ⟨e, hb, he⟩ := digitIn_iff.mp hin
        rw [run_cons_of_pos hb he]
        exact List.forall_mem_cons.mpr ⟨he, ih⟩
      · rw [run_cons_of_neg hin]
        exact fun d hd ↦ nomatch hd

/-- No digit was read where the scan did not move. -/
theorem run_eq_nil {base : ℕ} {s : List UInt8} : run base s = [] ↔ s.dropWhile (digitIn base) = s := by
  cases s with
  | nil => exact ⟨fun _ ↦ rfl, fun _ ↦ rfl⟩
  | cons b s =>
      by_cases hin : digitIn base b = true
      · obtain ⟨d, hb, hd⟩ := digitIn_iff.mp hin
        have hlen := (List.dropWhile_suffix (digitIn base) (l := s)).length_le
        rw [run_cons_of_pos hb hd, List.dropWhile_cons_of_pos hin]
        refine ⟨fun h ↦ absurd h (List.cons_ne_nil _ _), fun h ↦ ?_⟩
        have hcons := congrArg List.length h
        rw [List.length_cons] at hcons
        omega
      · rw [run_cons_of_neg hin, List.dropWhile_cons_of_neg hin]
        exact ⟨fun _ ↦ rfl, fun _ ↦ rfl⟩

theorem strtolLoop_eq (base : ℕ) (s : List UInt8) (v : Long) :
    strtolLoop base s v = (Long.readOn base v (run base s), s.dropWhile (digitIn base)) := by
  induction s generalizing v with
  | nil => rfl
  | cons b s ih =>
      by_cases hin : digitIn base b = true
      · obtain ⟨d, hb, hd⟩ := digitIn_iff.mp hin
        have hloop : strtolLoop base (b :: s) v =
            strtolLoop base s (v * Long.ofInt base + Long.ofInt d) := by
          rw [strtolLoop, hb]
          exact if_neg (by omega)
        rw [hloop, ih, run_cons_of_pos hb hd, List.dropWhile_cons_of_pos hin]
        rfl
      · have hloop : strtolLoop base (b :: s) v = (v, b :: s) := by
          rw [strtolLoop]
          cases hb : digitValue b with
          | none => rfl
          | some d =>
              have hge : ¬ d < base := fun hd ↦ hin (digitIn_iff.mpr ⟨d, hb, hd⟩)
              exact if_pos (by omega)
        rw [hloop, run_cons_of_neg hin, List.dropWhile_cons_of_neg hin]
        rfl

/-- The digits of `atoi` are those of base 10. -/
theorem isDigit_iff (b : UInt8) : isDigit b = digitIn 10 b := by
  rw [isDigit, digitIn, digitValue]
  by_cases hdec : 0x30 ≤ b ∧ b ≤ 0x39
  · have hlo := UInt8.le_iff_toNat_le.mp hdec.1
    have hhi := UInt8.le_iff_toNat_le.mp hdec.2
    rw [if_pos hdec, decide_eq_true hdec.1, decide_eq_true hdec.2]
    refine (decide_eq_true ?_).symm
    have : (0x39 : UInt8).toNat = 57 := rfl
    have : (0x30 : UInt8).toNat = 48 := rfl
    omega
  · rw [if_neg hdec, ← Bool.decide_and, decide_eq_false hdec]
    split_ifs
    · rw [Option.any_some]
      exact (decide_eq_false (by omega)).symm
    · rw [Option.any_some]
      exact (decide_eq_false (by omega)).symm
    · rfl

theorem atoiLoop_eq (s : List UInt8) (v : Long) : atoiLoop s v = Long.readOn 10 v (run 10 s) := by
  induction s generalizing v with
  | nil => rfl
  | cons b s ih =>
      by_cases hin : digitIn 10 b = true
      · obtain ⟨d, hb, hd⟩ := digitIn_iff.mp hin
        have hdigit : isDigit b = true := (isDigit_iff b).trans hin
        have hvalue : (b.toNat : ℤ) - 0x30 = d := by
          have hrange : 0x30 ≤ b ∧ b ≤ 0x39 := by simpa [isDigit] using hdigit
          have hlo : 48 ≤ b.toNat := UInt8.le_iff_toNat_le.mp hrange.1
          rw [digitValue, if_pos hrange] at hb
          have := Option.some.inj hb
          omega
        rw [atoiLoop, if_pos hdigit, ih, run_cons_of_pos hb hd, hvalue]
        rfl
      · have hdigit : ¬ isDigit b = true := by rwa [isDigit_iff]
        rw [atoiLoop, if_neg hdigit, run_cons_of_neg hin]
        rfl

end Libc

end EclipseOS
