import Mathlib.Algebra.Group.Nat.Defs
import Mathlib.Tactic.Common

/-!
# Copying between ranges that overlap

`memmove` copies upwards when the destination is below the source, and downwards
otherwise, so that no byte of the source is overwritten before it is read.
-/

namespace EclipseOS

namespace Libc

/-- The address space: every pointer names a byte. -/
abbrev Memory : Type := BitVec 32 → UInt8

variable {mem : Memory} {dst src size a : BitVec 32} {n i : ℕ}

/-- `dst[i] = src[i]`. -/
def copyByte (dst src : BitVec 32) (i : ℕ) (mem : Memory) : Memory :=
  Function.update mem (dst + BitVec.ofNat 32 i) (mem (src + BitVec.ofNat 32 i))

/-- Bytes `0` to `n - 1` in this order. -/
def copyUp (dst src : BitVec 32) : ℕ → Memory → Memory
  | 0, mem => mem
  | n + 1, mem => copyByte dst src n (copyUp dst src n mem)

/-- Bytes `n - 1` to `0` in this order. -/
def copyDown (dst src : BitVec 32) : ℕ → Memory → Memory
  | 0, mem => mem
  | n + 1, mem => copyDown dst src n (copyByte dst src n mem)

/-- The pointer that is returned, and the memory afterwards. -/
def memmove (mem : Memory) (dst src size : BitVec 32) : BitVec 32 × Memory :=
  if dst < src then (dst, copyUp dst src size.toNat mem)
  else (dst, copyDown dst src size.toNat mem)

/-- Bytes `lo` to `hi - 1` of the range at `dst` are those that were at `src`. -/
structure Carried (dst src : BitVec 32) (lo hi : ℕ) (mem mem' : Memory) : Prop where
  copied : ∀ i, lo ≤ i → i < hi →
    mem' (dst + BitVec.ofNat 32 i) = mem (src + BitVec.ofNat 32 i)
  kept : ∀ a, (∀ i, lo ≤ i → i < hi → a ≠ dst + BitVec.ofNat 32 i) → mem' a = mem a

theorem toNat_add_ofNat (p : BitVec 32) (h : p.toNat + i < 2 ^ 32) :
    (p + BitVec.ofNat 32 i).toNat = p.toNat + i := by
  rw [BitVec.toNat_add, BitVec.toNat_ofNat, Nat.add_mod_mod, Nat.mod_eq_of_lt h]

/-- Addresses of two ranges that do not wrap around. -/
theorem add_ofNat_inj {p q : BitVec 32} {j : ℕ} (hp : p.toNat + i < 2 ^ 32) (hq : q.toNat + j < 2 ^ 32) :
    p + BitVec.ofNat 32 i = q + BitVec.ofNat 32 j ↔ p.toNat + i = q.toNat + j := by
  rw [← BitVec.toNat_inj, toNat_add_ofNat p hp, toNat_add_ofNat q hq]

/-- The source above the bytes that were copied is as it was. -/
theorem Carried.succ {mem' : Memory} (h : Carried dst src 0 n mem mem') (hlt : dst < src)
    (hdst : dst.toNat + (n + 1) ≤ 2 ^ 32) (hsrc : src.toNat + (n + 1) ≤ 2 ^ 32) :
    Carried dst src 0 (n + 1) mem (copyByte dst src n mem') := by
  have hbelow : dst.toNat < src.toNat := hlt
  have hunread : mem' (src + BitVec.ofNat 32 n) = mem (src + BitVec.ofNat 32 n) := by
    refine h.kept _ fun i _ hi heq ↦ ?_
    rw [add_ofNat_inj (by omega) (by omega)] at heq
    omega
  refine ⟨fun i hlo hi ↦ ?_, fun a ha ↦ ?_⟩
  · rw [copyByte, Function.update_apply]
    by_cases hin : i = n
    · rw [hin, if_pos rfl, hunread]
    · have hne : dst + BitVec.ofNat 32 i ≠ dst + BitVec.ofNat 32 n := by
        rw [Ne, add_ofNat_inj (by omega) (by omega)]
        omega
      rw [if_neg hne]
      exact h.copied i hlo (by omega)
  · rw [copyByte, Function.update_of_ne (ha n (Nat.zero_le n) (Nat.lt_succ_self n))]
    exact h.kept a fun i hlo hi ↦ ha i hlo (by omega)

theorem carried_copyUp (hlt : dst < src) (hdst : dst.toNat + n ≤ 2 ^ 32) (hsrc : src.toNat + n ≤ 2 ^ 32) :
    Carried dst src 0 n mem (copyUp dst src n mem) := by
  induction n with
  | zero => exact ⟨fun i _ hi ↦ absurd hi (Nat.not_lt_zero i), fun _ _ ↦ rfl⟩
  | succ n ih => exact (ih (by omega) (by omega)).succ hlt hdst hsrc

/-- Downwards, the byte that is copied first is above the source of all others. -/
theorem carried_copyDown (hle : src ≤ dst) (hdst : dst.toNat + n ≤ 2 ^ 32)
    (hsrc : src.toNat + n ≤ 2 ^ 32) : Carried dst src 0 n mem (copyDown dst src n mem) := by
  have hbelow : src.toNat ≤ dst.toNat := hle
  induction n generalizing mem with
  | zero => exact ⟨fun i _ hi ↦ absurd hi (Nat.not_lt_zero i), fun _ _ ↦ rfl⟩
  | succ n ih =>
      have hrest : Carried dst src 0 n (copyByte dst src n mem) (copyDown dst src (n + 1) mem) :=
        ih (by omega) (by omega)
      have hlast : copyByte dst src n mem (dst + BitVec.ofNat 32 n) = mem (src + BitVec.ofNat 32 n) := by
        rw [copyByte, Function.update_self]
      refine ⟨fun i hlo hi ↦ ?_, fun a ha ↦ ?_⟩
      · by_cases hin : i = n
        · rw [hin, hrest.kept, hlast]
          intro j _ hj heq
          rw [add_ofNat_inj (by omega) (by omega)] at heq
          omega
        · have hne : src + BitVec.ofNat 32 i ≠ dst + BitVec.ofNat 32 n := by
            rw [Ne, add_ofNat_inj (by omega) (by omega)]
            omega
          rw [hrest.copied i hlo (by omega), copyByte, Function.update_of_ne hne]
      · rw [hrest.kept a fun i hlo hi ↦ ha i hlo (by omega), copyByte,
          Function.update_of_ne (ha n (Nat.zero_le n) (Nat.lt_succ_self n))]

/-- The range at `dst` holds what was at `src`, and nothing else changes, however the
ranges overlap. -/
theorem memmove_moves (mem : Memory) (hdst : dst.toNat + size.toNat ≤ 2 ^ 32)
    (hsrc : src.toNat + size.toNat ≤ 2 ^ 32) :
    (memmove mem dst src size).1 = dst ∧
      (∀ i < size.toNat, (memmove mem dst src size).2 (dst + BitVec.ofNat 32 i) =
        mem (src + BitVec.ofNat 32 i)) ∧
      ∀ a, ¬ (dst.toNat ≤ a.toNat ∧ a.toNat < dst.toNat + size.toNat) →
        (memmove mem dst src size).2 a = mem a := by
  have hcarried : Carried dst src 0 size.toNat mem (memmove mem dst src size).2 := by
    rw [memmove]
    split
    · next hlt => exact carried_copyUp hlt hdst hsrc
    · next hge => exact carried_copyDown (BitVec.not_lt.mp hge) hdst hsrc
  refine ⟨?_, fun i hi ↦ hcarried.copied i (Nat.zero_le i) hi, fun a ha ↦ hcarried.kept a ?_⟩
  · rw [memmove]
    split <;> rfl
  · rintro i - hi rfl
    rw [toNat_add_ofNat dst (by omega)] at ha
    omega

/-- Every byte is the low byte of its address. -/
def addresses : Memory := fun a ↦ UInt8.ofNat a.toNat

/-- Three bytes are moved up by one, to the end of the address space. -/
theorem memmove_moves_end :
    (memmove addresses 0xFFFFFFFD 0xFFFFFFFC 3).1 = 0xFFFFFFFD ∧
      (∀ i < (3 : BitVec 32).toNat, (memmove addresses 0xFFFFFFFD 0xFFFFFFFC 3).2
        (0xFFFFFFFD + BitVec.ofNat 32 i) = addresses (0xFFFFFFFC + BitVec.ofNat 32 i)) ∧
      ∀ a : BitVec 32, ¬ ((0xFFFFFFFD : BitVec 32).toNat ≤ a.toNat ∧
        a.toNat < (0xFFFFFFFD : BitVec 32).toNat + (3 : BitVec 32).toNat) →
        (memmove addresses 0xFFFFFFFD 0xFFFFFFFC 3).2 a = addresses a :=
  memmove_moves addresses (by decide) (by decide)

end Libc

end EclipseOS
