import EclipseOS.Libc.Printf
import Mathlib.Data.List.TakeWhile
import Mathlib.Logic.Function.Basic

/-!
# Strings in arrays

The string functions over arrays of characters with a size.  They have no result
when they read or write past the end of an array.
-/

namespace EclipseOS

namespace Libc

abbrev CharArray : Type := ℕ → UInt8

/-- From index `i` on; `n` characters of the array are left. -/
def strlenFrom (a : CharArray) : ℕ → ℕ → Option ℕ
  | 0, _ => none
  | n + 1, i => if a i = 0 then some i else strlenFrom a n (i + 1)

def strlen (size : ℕ) (a : CharArray) : Option ℕ := strlenFrom a size 0

def strcpyFrom (src : CharArray) : ℕ → ℕ → CharArray → Option CharArray
  | 0, _, _ => none
  | n + 1, i, dest =>
      let dest := Function.update dest i (src i)
      if src i = 0 then some dest else strcpyFrom src n (i + 1) dest

/-- Between two arrays of one size. -/
def strcpy (size : ℕ) (dest src : CharArray) : Option CharArray := strcpyFrom src size 0 dest

def padFrom : ℕ → ℕ → CharArray → CharArray
  | 0, _, dest => dest
  | n + 1, i, dest => padFrom n (i + 1) (Function.update dest i 0)

def strncpyFrom (src : CharArray) : ℕ → ℕ → CharArray → CharArray
  | 0, _, dest => dest
  | n + 1, i, dest =>
      if src i = 0 then padFrom (n + 1) i dest
      else strncpyFrom src n (i + 1) (Function.update dest i (src i))

def strncpy (size : ℕ) (dest src : CharArray) (n : ℕ) : Option CharArray :=
  if n ≤ size then some (strncpyFrom src n 0 dest) else none

def strcmpFrom (a b : CharArray) : ℕ → ℕ → Option ℤ
  | 0, _ => none
  | n + 1, i =>
      if a i ≠ 0 ∧ a i = b i then strcmpFrom a b n (i + 1)
      else some (((a i).toNat : ℤ) - (b i).toNat)

def strcmp (size : ℕ) (a b : CharArray) : Option ℤ := strcmpFrom a b size 0

/-- The string in an array, where there is one. -/
def toCString (size : ℕ) (a : CharArray) : Option CString :=
  (strlen size a).map fun _ ↦
    { bytes := ((List.range size).map a).takeWhile (· ≠ 0)
      terminated := fun h ↦ by simpa using List.mem_takeWhile_imp h }

variable {size n i : ℕ} {a b d src dest : CharArray} {l l' : List UInt8}

/-- The array begins with the characters of `l`. -/
def Begins (a : CharArray) (l : List UInt8) : Prop := ∀ j < l.length, l[j]? = some (a j)

/-- The string of the array is `l`. -/
structure IsString (a : CharArray) (l : List UInt8) : Prop where
  begins : Begins a l
  ends : a l.length = 0
  nonzero : 0 ∉ l

theorem Begins.ne_zero (h : Begins a l) (hl : 0 ∉ l) (hi : i < l.length) : a i ≠ 0 := by
  intro hzero
  have hmem := List.mem_of_getElem? (h i hi)
  rw [hzero] at hmem
  exact hl hmem

theorem Begins.take (h : Begins a l) (n : ℕ) : Begins a (l.take n) := by
  intro j hj
  rw [List.length_take] at hj
  rw [List.getElem?_take_of_lt (by omega)]
  exact h j (by omega)

theorem Begins.append (h : Begins a l) (c : UInt8) :
    Begins (Function.update a l.length c) (l ++ [c]) := by
  intro j hj
  rw [List.length_append, List.length_singleton] at hj
  obtain hlt | rfl : j < l.length ∨ j = l.length := by omega
  · rw [List.getElem?_append_left hlt, Function.update_of_ne (by omega), h j hlt]
  · rw [List.getElem?_concat_length, Function.update_self]

theorem Begins.terminate (h : Begins a l) (hl : 0 ∉ l) :
    IsString (Function.update a l.length 0) l := by
  refine ⟨fun j hj ↦ ?_, Function.update_self .., hl⟩
  rw [Function.update_of_ne (by omega), h j hj]

theorem IsString.zero_iff (h : IsString a l) (hi : i ≤ l.length) : a i = 0 ↔ i = l.length := by
  constructor
  · intro hzero
    by_contra hne
    exact h.begins.ne_zero h.nonzero (Nat.lt_of_le_of_ne hi hne) hzero
  · rintro rfl
    exact h.ends

theorem strlen_eq (h : IsString a l) (hsize : l.length < size) : strlen size a = some l.length := by
  have hfrom : ∀ n i, i ≤ l.length → l.length < i + n → strlenFrom a n i = some l.length := by
    intro n
    induction n with
    | zero =>
        intro i hi hn
        omega
    | succ n ih =>
        intro i hi hn
        rw [strlenFrom]
        by_cases hzero : a i = 0
        · rw [if_pos hzero, (h.zero_iff hi).mp hzero]
        · have hne := (h.zero_iff hi).not.mp hzero
          rw [if_neg hzero, ih (i + 1) (by omega) (by omega)]
  exact hfrom size 0 (Nat.zero_le _) (by omega)

/-- The copy of a string that fits is the string. -/
theorem strcpy_eq (h : IsString src l) (hsize : l.length < size) (dest : CharArray) :
    ∃ d, strcpy size dest src = some d ∧ IsString d l := by
  have hfrom : ∀ n i dest, i ≤ l.length → l.length < i + n → Begins dest (l.take i) →
      ∃ d, strcpyFrom src n i dest = some d ∧ IsString d l := by
    intro n
    induction n with
    | zero =>
        intro i dest hi hn
        omega
    | succ n ih =>
        intro i dest hi hn hbegins
        have hlength : (l.take i).length = i := by rw [List.length_take, Nat.min_eq_left hi]
        rw [strcpyFrom]
        by_cases hzero : src i = 0
        · have hlast := (h.zero_iff hi).mp hzero
          rw [hlast, List.take_length] at hbegins
          refine ⟨_, if_pos hzero, ?_⟩
          rw [hzero, hlast]
          exact hbegins.terminate h.nonzero
        · have hlt : i < l.length := Nat.lt_of_le_of_ne hi ((h.zero_iff hi).not.mp hzero)
          have hnext := hbegins.append (src i)
          have hsucc : l.take i ++ [src i] = l.take (i + 1) := by
            rw [List.take_add_one, h.begins i hlt, Option.toList_some]
          rw [hlength, hsucc] at hnext
          obtain ⟨d, hd, hstring⟩ := ih (i + 1) _ hlt (by omega) hnext
          exact ⟨d, (if_neg hzero).trans hd, hstring⟩
  exact hfrom size 0 dest (Nat.zero_le _) (by omega) fun j hj ↦ absurd hj (by simp)

/-- What is left of `n` characters after a string is filled with zeros. -/
theorem padFrom_apply (n i : ℕ) (dest : CharArray) (j : ℕ) :
    padFrom n i dest j = if i ≤ j ∧ j < i + n then 0 else dest j := by
  induction n generalizing i dest with
  | zero => rw [padFrom, if_neg (by omega)]
  | succ n ih =>
      rw [padFrom, ih]
      by_cases hij : j = i
      · rw [if_neg (by omega), if_pos (by omega), hij, Function.update_self]
      · rw [Function.update_of_ne hij]
        split_ifs
        all_goals first | rfl | omega

theorem strncpyFrom_begins (h : IsString src l) (hi : i ≤ l.length) (hn : l.length ≤ i + n)
    (hbegins : Begins dest (l.take i)) : Begins (strncpyFrom src n i dest) l := by
  induction n generalizing i dest with
  | zero =>
      obtain rfl : i = l.length := by omega
      rwa [List.take_length] at hbegins
  | succ n ih =>
      have hlength : (l.take i).length = i := by rw [List.length_take, Nat.min_eq_left hi]
      rw [strncpyFrom]
      by_cases hzero : src i = 0
      · obtain rfl := (h.zero_iff hi).mp hzero
        rw [List.take_length] at hbegins
        intro j hj
        rw [if_pos hzero, padFrom_apply, if_neg (by omega), hbegins j hj]
      · have hlt : i < l.length := Nat.lt_of_le_of_ne hi ((h.zero_iff hi).not.mp hzero)
        have hnext := hbegins.append (src i)
        have hsucc : l.take i ++ [src i] = l.take (i + 1) := by
          rw [List.take_add_one, h.begins i hlt, Option.toList_some]
        rw [hlength, hsucc] at hnext
        rw [if_neg hzero]
        exact ih hlt (by omega) hnext

/-- The first character after the string is a zero, if it is one of the `n`. -/
theorem strncpyFrom_end (h : IsString src l) (hi : i ≤ l.length) (hn : l.length < i + n) :
    strncpyFrom src n i dest l.length = 0 := by
  induction n generalizing i dest with
  | zero => omega
  | succ n ih =>
      rw [strncpyFrom]
      by_cases hzero : src i = 0
      · rw [if_pos hzero, padFrom_apply, if_pos ⟨hi, hn⟩]
      · have hlt : i < l.length := Nat.lt_of_le_of_ne hi ((h.zero_iff hi).not.mp hzero)
        rw [if_neg hzero, ih hlt (by omega)]

/-- A string of at most `n` characters, with a zero put after them. -/
theorem strncpy_eq (h : IsString src l) (hl : l.length ≤ n) (hsize : n ≤ size) (dest : CharArray) :
    ∃ d, strncpy size dest src n = some d ∧ IsString (Function.update d n 0) l := by
  have hbegins : Begins (strncpyFrom src n 0 dest) l :=
    strncpyFrom_begins h (Nat.zero_le _) (by omega) fun j hj ↦ absurd hj (by simp)
  refine ⟨_, if_pos hsize, fun j hj ↦ ?_, ?_, h.nonzero⟩
  · rw [Function.update_of_ne (by omega), hbegins j hj]
  · obtain hlt | rfl : l.length < n ∨ l.length = n := by omega
    · rw [Function.update_of_ne (by omega), strncpyFrom_end h (Nat.zero_le _) (by omega)]
    · exact Function.update_self ..

/-- Two strings compare equal exactly when they are the same. -/
theorem strcmp_eq (h : IsString a l) (h' : IsString b l') (hsize : l.length < size)
    (hsize' : l'.length < size) : ∃ r, strcmp size a b = some r ∧ (r = 0 ↔ l = l') := by
  have hfrom : ∀ n i, i ≤ l.length → i ≤ l'.length → l.length < i + n → l.take i = l'.take i →
      ∃ r, strcmpFrom a b n i = some r ∧ (r = 0 ↔ l = l') := by
    intro n
    induction n with
    | zero =>
        intro i hi _ hn
        omega
    | succ n ih =>
        intro i hi hi' hn htake
        rw [strcmpFrom]
        by_cases hgo : a i ≠ 0 ∧ a i = b i
        · have hlt : i < l.length := Nat.lt_of_le_of_ne hi ((h.zero_iff hi).not.mp hgo.1)
          have hlt' : i < l'.length :=
            Nat.lt_of_le_of_ne hi' ((h'.zero_iff hi').not.mp (hgo.2 ▸ hgo.1))
          have hnext : l.take (i + 1) = l'.take (i + 1) := by
            rw [List.take_add_one, List.take_add_one, h.begins i hlt, h'.begins i hlt', htake, hgo.2]
          rw [if_pos hgo]
          exact ih (i + 1) hlt hlt' (by omega) hnext
        · refine ⟨_, if_neg hgo, ?_⟩
          have hequal : ((a i).toNat : ℤ) - (b i).toNat = 0 ↔ a i = b i := by
            rw [← UInt8.toNat_inj]
            omega
          rw [hequal]
          constructor
          · intro heq
            have hzero : a i = 0 := by
              by_contra hne
              exact hgo ⟨hne, heq⟩
            rw [← List.take_length (l := l), ← List.take_length (l := l'),
              ← (h.zero_iff hi).mp hzero, ← (h'.zero_iff hi').mp (heq ▸ hzero), htake]
          · rintro rfl
            obtain hlt | rfl : i < l.length ∨ i = l.length := by omega
            · exact Option.some.inj ((h.begins i hlt).symm.trans (h'.begins i hlt))
            · rw [h.ends, h'.ends]
  exact hfrom size 0 (Nat.zero_le _) (Nat.zero_le _) (by omega) rfl

/-- What is read of an array that holds a string. -/
theorem toCString_eq (h : IsString a l) (hsize : l.length < size) :
    toCString size a = some { bytes := l, terminated := h.nonzero } := by
  have hbytes : ((List.range size).map a).takeWhile (· ≠ 0) = l := by
    obtain ⟨n, rfl⟩ : ∃ n, size = l.length + (n + 1) := ⟨size - l.length - 1, by omega⟩
    have hl : (List.range l.length).map a = l := by
      apply List.ext_getElem?
      intro j
      by_cases hj : j < l.length
      · rw [List.getElem?_map, List.getElem?_range hj, h.begins j hj, Option.map_some]
      · rw [List.getElem?_eq_none (by simpa using hj), List.getElem?_eq_none (by omega)]
    rw [List.range_add, List.map_append, hl, List.takeWhile_append_of_pos]
    · simp [List.range_succ_eq_map, h.ends]
    · intro c hc
      simpa using fun hzero : c = 0 ↦ h.nonzero (hzero ▸ hc)
  rw [toCString, strlen_eq h hsize]
  simp only [Option.map_some, hbytes]

end Libc

end EclipseOS
