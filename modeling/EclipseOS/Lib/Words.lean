import Mathlib.Logic.Function.Basic
import Mathlib.Tactic

/-!
# Little-endian words in byte pages

A page is a function from offsets to bytes.  Words of 32 bits are four
consecutive bytes, least significant first, and are handled as natural
numbers; `putWord` stores a natural number modulo `2 ^ 32`.  The second half
of the module collects the bit-mask facts that page-aligned words with flag
bits need.
-/

namespace LittleEndian

abbrev Page := ℕ → UInt8

/-- Byte `k` of the word `w`. -/
def byteOf (w k : ℕ) : UInt8 := UInt8.ofNat (w / 2 ^ (8 * k))

def joinBytes (b₀ b₁ b₂ b₃ : UInt8) : ℕ :=
  b₀.toNat + 2 ^ 8 * b₁.toNat + 2 ^ 16 * b₂.toNat + 2 ^ 24 * b₃.toNat

/-- The aligned word number `i` of a page. -/
def word (p : Page) (i : ℕ) : ℕ :=
  joinBytes (p (4 * i)) (p (4 * i + 1)) (p (4 * i + 2)) (p (4 * i + 3))

def putWord (p : Page) (i w : ℕ) : Page :=
  fun o ↦ if o / 4 = i then byteOf w (o % 4) else p o

theorem toNat_byteOf (w k : ℕ) : (byteOf w k).toNat = w / 2 ^ (8 * k) % 256 := by
  simp [byteOf]

theorem joinBytes_lt (b₀ b₁ b₂ b₃ : UInt8) : joinBytes b₀ b₁ b₂ b₃ < 2 ^ 32 := by
  have h₀ := b₀.toNat_lt
  have h₁ := b₁.toNat_lt
  have h₂ := b₂.toNat_lt
  have h₃ := b₃.toNat_lt
  unfold joinBytes
  omega

theorem joinBytes_byteOf (w : ℕ) :
    joinBytes (byteOf w 0) (byteOf w 1) (byteOf w 2) (byteOf w 3) = w % 2 ^ 32 := by
  simp only [joinBytes, toNat_byteOf]
  omega

theorem word_lt (p : Page) (i : ℕ) : word p i < 2 ^ 32 := joinBytes_lt _ _ _ _

theorem word_putWord_self (p : Page) (i w : ℕ) : word (putWord p i w) i = w % 2 ^ 32 := by
  have h₁ : (4 * i + 1) / 4 = i := by omega
  have h₂ : (4 * i + 2) / 4 = i := by omega
  have h₃ : (4 * i + 3) / 4 = i := by omega
  have g₁ : (4 * i + 1) % 4 = 1 := by omega
  have g₂ : (4 * i + 2) % 4 = 2 := by omega
  have g₃ : (4 * i + 3) % 4 = 3 := by omega
  simp [word, putWord, h₁, h₂, h₃, g₁, g₂, g₃, joinBytes_byteOf]

theorem word_putWord_of_ne (p : Page) {i j : ℕ} (w : ℕ) (h : j ≠ i) :
    word (putWord p i w) j = word p j := by
  have h₀ : 4 * j / 4 ≠ i := by omega
  have h₁ : (4 * j + 1) / 4 ≠ i := by omega
  have h₂ : (4 * j + 2) / 4 ≠ i := by omega
  have h₃ : (4 * j + 3) / 4 ≠ i := by omega
  simp [word, putWord, h, h₁, h₂, h₃]

theorem byteOf_joinBytes (b₀ b₁ b₂ b₃ : UInt8) :
    byteOf (joinBytes b₀ b₁ b₂ b₃) 0 = b₀ ∧ byteOf (joinBytes b₀ b₁ b₂ b₃) 1 = b₁ ∧
      byteOf (joinBytes b₀ b₁ b₂ b₃) 2 = b₂ ∧ byteOf (joinBytes b₀ b₁ b₂ b₃) 3 = b₃ := by
  have h₀ := b₀.toNat_lt
  have h₁ := b₁.toNat_lt
  have h₂ := b₂.toNat_lt
  have h₃ := b₃.toNat_lt
  refine ⟨?_, ?_, ?_, ?_⟩ <;> refine UInt8.toNat_inj.mp ?_ <;>
    simp only [toNat_byteOf, joinBytes] <;> omega

/-- Storing the word that is already there changes nothing. -/
theorem putWord_word (p : Page) (i : ℕ) : putWord p i (word p i) = p := by
  funext o
  by_cases h : o / 4 = i
  · obtain ⟨h₀, h₁, h₂, h₃⟩ :=
      byteOf_joinBytes (p (4 * i)) (p (4 * i + 1)) (p (4 * i + 2)) (p (4 * i + 3))
    simp only [putWord, h, if_true, word]
    obtain hr | hr | hr | hr : o % 4 = 0 ∨ o % 4 = 1 ∨ o % 4 = 2 ∨ o % 4 = 3 := by omega
    · rw [hr, h₀, show 4 * i = o by omega]
    · rw [hr, h₁, show 4 * i + 1 = o by omega]
    · rw [hr, h₂, show 4 * i + 2 = o by omega]
    · rw [hr, h₃, show 4 * i + 3 = o by omega]
  · simp [putWord, h]

/-- A page is its words. -/
theorem eq_of_word_eq {p q : Page} {o : ℕ} (h : word p (o / 4) = word q (o / 4)) : p o = q o := by
  have hp := congrFun (putWord_word p (o / 4)) o
  have hq := congrFun (putWord_word q (o / 4)) o
  rw [← hp, ← hq, h]
  simp [putWord]

/-- The page with the given words. -/
def ofWords (w : ℕ → ℕ) : Page := fun o ↦ byteOf (w (o / 4)) (o % 4)

theorem word_ofWords (w : ℕ → ℕ) (i : ℕ) : word (ofWords w) i = w i % 2 ^ 32 := by
  have h₁ : (4 * i + 1) / 4 = i := by omega
  have h₂ : (4 * i + 2) / 4 = i := by omega
  have h₃ : (4 * i + 3) / 4 = i := by omega
  have g₁ : (4 * i + 1) % 4 = 1 := by omega
  have g₂ : (4 * i + 2) % 4 = 2 := by omega
  have g₃ : (4 * i + 3) % 4 = 3 := by omega
  simp [word, ofWords, h₁, h₂, h₃, g₁, g₂, g₃, joinBytes_byteOf]

/-- Two pages with the same bytes at the four offsets of a word hold the same word. -/
theorem word_congr {p q : Page} {i : ℕ} (h : ∀ o, o / 4 = i → p o = q o) :
    word p i = word q i := by
  simp only [word]
  rw [h (4 * i) (by omega), h (4 * i + 1) (by omega), h (4 * i + 2) (by omega),
    h (4 * i + 3) (by omega)]

theorem putWord_apply_of_ne (p : Page) {i o : ℕ} (w : ℕ) (h : o / 4 ≠ i) :
    putWord p i w o = p o := by
  simp [putWord, h]

/-- Storing the four bytes of a word one by one is storing the word. -/
theorem update_bytes_eq_putWord (p : Page) (i w : ℕ) :
    Function.update (Function.update (Function.update (Function.update p
      (4 * i) (byteOf w 0)) (4 * i + 1) (byteOf w 1)) (4 * i + 2) (byteOf w 2))
      (4 * i + 3) (byteOf w 3) = putWord p i w := by
  funext o
  simp only [Function.update_apply, putWord]
  by_cases h : o / 4 = i
  · obtain h₀ | h₀ | h₀ | h₀ : o = 4 * i ∨ o = 4 * i + 1 ∨ o = 4 * i + 2 ∨ o = 4 * i + 3 := by
      omega
    all_goals subst h₀; simp
    all_goals intro h'; omega
  · have h₀ : o ≠ 4 * i := by omega
    have h₁ : o ≠ 4 * i + 1 := by omega
    have h₂ : o ≠ 4 * i + 2 := by omega
    have h₃ : o ≠ 4 * i + 3 := by omega
    simp [h, h₀, h₁, h₂, h₃]

/-! ## Masks on page-aligned words -/

theorem and_offset_mask (x : ℕ) : x &&& 0xFFF = x % 4096 :=
  Nat.and_two_pow_sub_one_eq_mod x 12

theorem and_index_mask (x : ℕ) : x &&& 0x3FF = x % 1024 :=
  Nat.and_two_pow_sub_one_eq_mod x 10

theorem and_one_eq (x : ℕ) : x &&& 1 = x % 2 := Nat.and_one_is_mod x

/-- A mask that clears the low `k` bits of a word. -/
theorem and_high_mask {x k : ℕ} (hx : x < 2 ^ 32) (hk : k ≤ 32) :
    x &&& (2 ^ (32 - k) - 1) * 2 ^ k = x / 2 ^ k * 2 ^ k := by
  apply Nat.eq_of_testBit_eq
  intro i
  rw [Nat.testBit_and, Nat.testBit_mul_two_pow, Nat.testBit_mul_two_pow,
    Nat.testBit_two_pow_sub_one, Nat.testBit_div_two_pow]
  by_cases hi : k ≤ i
  · have hsub : i - k + k = i := by omega
    by_cases h32 : i < 32
    · have hlow : i - k < 32 - k := by omega
      simp [hi, hsub, hlow]
    · have hbit : x.testBit i = false :=
        Nat.testBit_lt_two_pow (hx.trans_le (Nat.pow_le_pow_right (by norm_num) (by omega)))
      simp [hsub, hbit]
  · simp [hi]

theorem and_page_mask {x : ℕ} (hx : x < 2 ^ 32) : x &&& 0xFFFFF000 = x / 4096 * 4096 :=
  and_high_mask hx (by norm_num : 12 ≤ 32)

theorem and_eight_mask {x : ℕ} (hx : x < 2 ^ 32) : x &&& 0xFFFFFFF8 = x / 8 * 8 :=
  and_high_mask hx (by norm_num : 3 ≤ 32)

/-- A frame number with low flag bits. -/
theorem frame_or_flags (f : ℕ) {fl : ℕ} (h : fl < 4096) : f * 4096 ||| fl = f * 4096 + fl := by
  have := Nat.two_pow_add_eq_or_of_lt (i := 12) (b := fl) (by simpa using h) f
  rw [show f * 4096 = 2 ^ 12 * f by ring, this]

theorem or_lt_page {a b : ℕ} (ha : a < 4096) (hb : b < 4096) : a ||| b < 4096 :=
  Nat.or_lt_two_pow (n := 12) ha hb

end LittleEndian
