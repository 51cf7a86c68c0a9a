import EclipseOS.Traps
import EclipseOS.Isolation

/-!
# The first run of a child

`process_fork` copies the trap frame of the parent onto the kernel stack of the
child, and `switch_task` enters `fork_trampoline` on it.  The processor then
sees the words that the stores of `process_fork` have put there.
-/

namespace EclipseOS

open LittleEndian Processor WordStack

/-- `μ` has the `n` bytes at `a` that the machine maps there. -/
def Machine.Seen (m : Machine) (μ : Memory) (a n : ℕ) : Prop :=
  ∀ i < n, ∀ b, m.load8 (a + i) = some b → μ (BitVec.ofNat 32 (a + i)) = b.toBitVec

theorem ofNat_joinBytes (b₀ b₁ b₂ b₃ : UInt8) : BitVec.ofNat 32 (joinBytes b₀ b₁ b₂ b₃) =
    b₃.toBitVec ++ b₂.toBitVec ++ b₁.toBitVec ++ b₀.toBitVec := by
  apply BitVec.eq_of_toNat_eq
  have h₀ := b₀.toNat_lt
  have h₁ := b₁.toNat_lt
  have h₂ := b₂.toNat_lt
  have hlt := joinBytes_lt b₀ b₁ b₂ b₃
  simp only [BitVec.toNat_append, BitVec.toNat_ofNat, UInt8.toNat_toBitVec]
  rw [Nat.mod_eq_of_lt hlt, ← Nat.shiftLeft_add_eq_or_of_lt h₂, ← Nat.shiftLeft_add_eq_or_of_lt h₁,
    ← Nat.shiftLeft_add_eq_or_of_lt h₀, joinBytes]
  simp only [Nat.shiftLeft_eq]
  ring

namespace Machine

variable {m : Machine} {μ : Memory} {a n w : ℕ}

theorem Seen.read (h : m.Seen μ a n) {i : ℕ} (hi : i + 4 ≤ n) (hload : m.load32 (a + i) = some w) :
    μ.read (BitVec.ofNat 32 (a + i)) = BitVec.ofNat 32 w := by
  simp only [load32, Option.bind_eq_bind, Option.bind_eq_some_iff, Option.some.injEq,
    Option.pure_def] at hload
  obtain ⟨b₀, hb₀, b₁, hb₁, b₂, hb₂, b₃, hb₃, rfl⟩ := hload
  have hadd : ∀ j, BitVec.ofNat 32 (a + i) + BitVec.ofNat 32 j = BitVec.ofNat 32 (a + i + j) :=
    fun j ↦ (BitVec.ofNat_add ..).symm
  rw [ofNat_joinBytes, ← h i (by omega) b₀ hb₀, ← h (i + 1) (by omega) b₁ hb₁,
    ← h (i + 2) (by omega) b₂ hb₂, ← h (i + 3) (by omega) b₃ hb₃]
  rw [Memory.read, show (1 : Word) = BitVec.ofNat 32 1 from rfl,
    show (2 : Word) = BitVec.ofNat 32 2 from rfl, show (3 : Word) = BitVec.ofNat 32 3 from rfl,
    hadd, hadd, hadd]
  rfl

end Machine

namespace Kernel

open Asm

variable {k k' : Kernel} {B : ℕ} {L K : Set ℕ} {r : ℤ}

/-- The frame of the child is on its kernel stack. -/
theorem ForkedFrom.holds {regs : Registers} {s : Fin MAX_PROCS} {a : ℕ} {cpu : Cpu}
    (hf : ForkedFrom k k' regs s a)
    (hesp : cpu.esp = BitVec.ofNat 32 (k'.procTable s).task.regs.esp)
    (hmem : k'.machine.Seen cpu.mem (k'.procTable s).task.regs.esp REGISTERS_SIZE) :
    cpu.Holds ({ regs with eax := 0 }.frame ++ []) := by
  rw [List.append_nil, Cpu.Holds, hesp]
  apply Memory.at_of_read
  intro i hi
  have hi' : i < 16 := by simpa [Registers.frame, Registers.words] using hi
  rw [← BitVec.ofNat_add, hmem.read (by rw [REGISTERS_SIZE]; omega) (hf.frame i hi')]
  simp only [Registers.frame, List.getElem_map]
  apply BitVec.eq_of_toNat_eq
  rw [BitVec.toNat_ofNat, BitVec.toNat_ofNat, Nat.mod_mod]
  rfl

end Kernel

namespace Sample

open Kernel Asm

end Sample

end EclipseOS
