import EclipseOS.Lib.Processor

/-!
# Descriptors

What the processor reads out of the eight bytes of an interrupt gate and of a
segment descriptor.
-/

namespace Processor

open WordStack

abbrev Descriptor := BitVec 64

/-- A gate in the interrupt table.  `dpl` is the level from which an `int` may name it. -/
structure Gate where
  offset : Word
  selector : BitVec 16
  kind : BitVec 4
  system : Bool
  dpl : BitVec 2
  present : Bool
  deriving DecidableEq

/-- `limit` counts pages when `granular`. -/
structure Segment where
  base : Word
  limit : BitVec 20
  kind : BitVec 4
  system : Bool
  dpl : BitVec 2
  present : Bool
  long : Bool
  wide : Bool
  granular : Bool
  deriving DecidableEq

/-- The kind of a 32-bit interrupt gate, through which interrupts are off. -/
def INTERRUPT_GATE : BitVec 4 := 0xE

/-- The kind of a 32-bit trap gate, which leaves `IF` as it is. -/
def TRAP_GATE : BitVec 4 := 0xF

namespace Descriptor

variable (d : Descriptor)

def gate : Gate where
  offset := d.extractLsb' 48 16 ++ d.extractLsb' 0 16
  selector := d.extractLsb' 16 16
  kind := d.extractLsb' 40 4
  system := !d.getLsbD 44
  dpl := d.extractLsb' 45 2
  present := d.getLsbD 47

def segment : Segment where
  base := d.extractLsb' 56 8 ++ d.extractLsb' 16 24
  limit := d.extractLsb' 48 4 ++ d.extractLsb' 0 16
  kind := d.extractLsb' 40 4
  system := !d.getLsbD 44
  dpl := d.extractLsb' 45 2
  present := d.getLsbD 47
  long := d.getLsbD 53
  wide := d.getLsbD 54
  granular := d.getLsbD 55

end Descriptor

/-- The gates that an `int` may name at the level `cpl`. -/
def Gate.Open (g : Gate) (cpl : ℕ) : Prop := g.present = true ∧ cpl ≤ g.dpl.toNat

namespace Cpu

/-- An interrupt that finds the gate `g`; `none` is a fault, or a gate of 16 bits
or of a task, which are not part of this. -/
def interrupt (c : Cpu) (g : Gate) (ss0 : BitVec 16) (esp0 : Word) (err : Option Word) :
    Option Cpu :=
  let c' := c.enter g.offset g.selector ss0 esp0 err
  if !(g.present && g.system) then none
  else if g.kind = INTERRUPT_GATE then some c'
  else if g.kind = TRAP_GATE then some { c' with eflags := c'.eflags ||| (c.eflags &&& IF_MASK) }
  else none

theorem cpl_lt (c : Cpu) : c.cpl < 4 := Nat.mod_lt _ (by norm_num)

end Cpu

/-- All of the address space, in pages. -/
def Segment.flat (kind : BitVec 4) (dpl : BitVec 2) : Segment where
  base := 0
  limit := 0xFFFFF
  kind := kind
  system := false
  dpl := dpl
  present := true
  long := false
  wide := true
  granular := true

/-- The entry that a selector names. -/
def entryOf (s : BitVec 16) : ℕ := s.toNat / 8

end Processor
