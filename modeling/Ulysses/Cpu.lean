import Mathlib.Data.Nat.Bits

/-!
# The CPU interface

The part of `cpu.hpp` the other modules use: the interrupt flag and the
functions that read, set and restore it. `disable_interrupts` answers `1` when
interrupts were off already, `enable_interrupts` answers `0` when they were on
already, and `restore_interrupts` takes such an answer back.
-/

namespace Ulysses

/-- The interrupt flag (`eIF` of the flags register). -/
structure Cpu where
  interrupts : Bool
  deriving DecidableEq, Repr

namespace Cpu

def interruptsEnabledP (c : Cpu) : Bool := c.interrupts

def enableInterrupts (c : Cpu) : Nat × Cpu :=
  if c.interruptsEnabledP then (0, c) else (1, { c with interrupts := true })

def disableInterrupts (c : Cpu) : Nat × Cpu :=
  if !c.interruptsEnabledP then (1, c) else (0, { c with interrupts := false })

@[simp] theorem enableInterrupts_interrupts (c : Cpu) :
    c.enableInterrupts.2.interrupts = true := by
  unfold enableInterrupts interruptsEnabledP
  cases h : c.interrupts <;> simp [h]

@[simp] theorem disableInterrupts_interrupts (c : Cpu) :
    c.disableInterrupts.2.interrupts = false := by
  unfold disableInterrupts interruptsEnabledP
  cases h : c.interrupts <;> simp [h]

end Cpu

end Ulysses
