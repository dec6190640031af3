import Ulysses.Block.Ata

/-!
# The task file of a drive

The port writes of `Disk::fulfill` of `ata.cpp`, and the command that a controller reads
from its registers when the command byte arrives. `select` names the drive in the device
register and `request_lba` writes that register again, with the upper bits of the sector
and without the drive: every command goes to unit 0 (`command_received`).

The disk's status is always good, as in `AtaDriver`.
-/

namespace Ulysses

open Lib

/-- A byte written to an io port. -/
structure PortWrite where
  port : Nat
  value : Nat
deriving DecidableEq

/-- The port at an offset; ports are 16 bits wide. -/
def portAt (port offset : Nat) : Nat := (port + offset) % 65536

/-- `IOPort::outb`. -/
def outb (port value offset : Nat) : PortWrite := ⟨portAt port offset, value % 256⟩

theorem portAt_ne {port i j : Nat} (hi : i < 65536) (hj : j < 65536) (hne : i ≠ j) :
    portAt port i ≠ portAt port j := by
  unfold portAt
  omega

namespace Ata

def regSeccount0 : Nat := 2
def regLba0 : Nat := 3
def regLba1 : Nat := 4
def regLba2 : Nat := 5
def regHddevsel : Nat := 6
def regCommand : Nat := 7

def cmdReadPio : Nat := 0x20

def ctrlEnableIrq : Nat := 0

/-- The fields of `ata::Disk` that address the drive. -/
structure Disk where
  io : Nat
  control : Nat
  select : Nat

namespace Disk

def make (port unit : Nat) : Disk where
  io := port
  control := portAt port 0x206
  select := (0xA0 ||| unit <<< 4) % 256

def selectDrive (d : Disk) : List PortWrite := [outb d.io d.select regHddevsel]

def enableIrq (d : Disk) : List PortWrite := [outb d.control ctrlEnableIrq 0]

/-- `request_lba`, whose count is a `u8`. -/
def requestLba (block count : Nat) (d : Disk) : Option (List PortWrite) :=
  if 0 < count % 256 then
    some
      [outb d.control 0x08 0,
        outb d.io count regSeccount0,
        outb d.io ((block >>> 0) &&& 0xff) regLba0,
        outb d.io ((block >>> 8) &&& 0xff) regLba1,
        outb d.io ((block >>> 16) &&& 0xff) regLba2,
        outb d.io (((block >>> 24) &&& 0xff) ||| 0x40) regHddevsel,
        outb d.io cmdReadPio regCommand]
  else none

/-- The port writes of `fulfill` for a first sector and a count. -/
def command (block count : Nat) (d : Disk) : Option (List PortWrite) :=
  (d.requestLba block count).map fun ws => d.selectDrive ++ d.enableIrq ++ ws

def fulfill (range : RegionRange) (d : Disk) : Option (List PortWrite) :=
  d.command range.sector range.numSectors

end Disk

/-! ## What the controller reads -/

/-- A read command as the drives understand it. -/
structure Command where
  unit : Nat
  lbaMode : Bool
  lba : Nat
  count : Nat
deriving DecidableEq

/-- The sectors that the drive delivers. -/
def Command.sectors (c : Command) : List Nat := List.range' c.lba c.count

/-- The task file decoded: bit 4 of the device register is the drive and bit 6 the
addressing mode, the low half has bits 24 to 27 of the address. A count of 0 is 256. -/
def decode (port : Nat) (regs : Nat → Nat) : Command where
  unit := regs (portAt port regHddevsel) / 16 % 2
  lbaMode := (regs (portAt port regHddevsel)).testBit 6
  lba := regs (portAt port regLba0) + 256 * regs (portAt port regLba1)
    + 65536 * regs (portAt port regLba2) + 16777216 * (regs (portAt port regHddevsel) % 16)
  count := if regs (portAt port regSeccount0) = 0 then 256 else regs (portAt port regSeccount0)

/-- The command that arrives with the first write to the command register. -/
def received (port : Nat) : (Nat → Nat) → List PortWrite → Option Command
  | _, [] => none
  | regs, w :: ws =>
    if w.port = portAt port regCommand then some (decode port regs)
    else received port (Function.update regs w.port w.value) ws

theorem received_outb {port value offset : Nat} (regs : Nat → Nat) (ws : List PortWrite)
    (hlt : offset < 65536) (hne : offset ≠ regCommand) :
    received port regs (outb port value offset :: ws) =
      received port (Function.update regs (portAt port offset) (value % 256)) ws :=
  if_neg (portAt_ne hlt (by decide) hne)

/-- Writes to the other registers load them, and the command is read from what they hold. -/
theorem received_writes (port value : Nat) (ws : List (Nat × Nat)) (regs : Nat → Nat)
    (hws : ∀ w ∈ ws, w.1 < 65536 ∧ w.1 ≠ regCommand) :
    received port regs (ws.map (fun w => outb port w.2 w.1) ++ [outb port value regCommand]) =
      some (decode port
        (ws.foldl (fun regs w => Function.update regs (portAt port w.1) (w.2 % 256)) regs)) := by
  induction ws generalizing regs with
  | nil => exact if_pos rfl
  | cons w ws ih =>
    obtain ⟨hw, hws⟩ := List.forall_mem_cons.1 hws
    rw [List.map_cons, List.cons_append, received_outb _ _ hw.1 hw.2]
    exact ih _ hws

theorem outb_control (port value : Nat) :
    outb (portAt port 0x206) value 0 = outb port value 0x206 := by
  unfold outb portAt
  rw [Nat.add_zero, Nat.mod_mod]

theorem shiftRight_and_byte (block k : Nat) :
    (block >>> k &&& 0xff) % 256 = block / 2 ^ k % 256 := by
  rw [Nat.shiftRight_eq_div_pow, show (0xff : Nat) = 2 ^ 8 - 1 by norm_num,
    Nat.and_two_pow_sub_one_eq_mod]
  exact Nat.mod_mod _ _

theorem device_register : ∀ high < 16, (high &&& 0xff ||| 0x40) % 256 / 16 % 2 = 0 ∧
    ((high &&& 0xff ||| 0x40) % 256).testBit 6 = true ∧
    (high &&& 0xff ||| 0x40) % 256 % 16 = high := by
  decide

/-- The registers when the command byte of `fulfill` arrives. -/
def loaded (port select block count : Nat) (regs : Nat → Nat) : Nat → Nat :=
  [(regHddevsel, select % 256), (0x206, ctrlEnableIrq % 256), (0x206, 0x08 % 256),
    (regSeccount0, count % 256), (regLba0, (block >>> 0 &&& 0xff) % 256),
    (regLba1, (block >>> 8 &&& 0xff) % 256), (regLba2, (block >>> 16 &&& 0xff) % 256),
    (regHddevsel, (block >>> 24 &&& 0xff ||| 0x40) % 256)].foldl
    (fun regs w => Function.update regs (portAt port w.1) w.2) regs

theorem command_loaded {count : Nat} (port unit block : Nat) (regs : Nat → Nat)
    (hcount : 0 < count % 256) :
    ((Disk.make port unit).command block count).bind (received port regs) =
      some (decode port (loaded port (Disk.make port unit).select block count regs)) := by
  unfold Disk.command Disk.requestLba
  rw [if_pos hcount, Option.map_some, Option.bind_some]
  simp only [Disk.selectDrive, Disk.enableIrq, Disk.make, outb_control, List.cons_append,
    List.nil_append]
  refine received_writes port cmdReadPio [(regHddevsel, _), (0x206, ctrlEnableIrq), (0x206, 0x08),
    (regSeccount0, count), (regLba0, _), (regLba1, _), (regLba2, _), (regHddevsel, _)] regs ?_
  simp [regHddevsel, regSeccount0, regLba0, regLba1, regLba2, regCommand]

section

variable (port select block count : Nat) (regs : Nat → Nat)

theorem update_portAt {i j : Nat} (hi : i < 65536) (hj : j < 65536) (value : Nat) :
    Function.update regs (portAt port i) value (portAt port j) =
      if i = j then value else regs (portAt port j) := by
  by_cases hij : i = j
  · rw [if_pos hij, hij, Function.update_self]
  · rw [if_neg hij, Function.update_of_ne (portAt_ne hj hi (Ne.symm hij))]

theorem loaded_registers :
    loaded port select block count regs (portAt port regSeccount0) = count % 256 ∧
    loaded port select block count regs (portAt port regLba0) = (block >>> 0 &&& 0xff) % 256 ∧
    loaded port select block count regs (portAt port regLba1) = (block >>> 8 &&& 0xff) % 256 ∧
    loaded port select block count regs (portAt port regLba2) = (block >>> 16 &&& 0xff) % 256 ∧
    loaded port select block count regs (portAt port regHddevsel) =
      (block >>> 24 &&& 0xff ||| 0x40) % 256 := by
  refine ⟨?_, ?_, ?_, ?_, ?_⟩ <;>
    simp [loaded, update_portAt, regSeccount0, regLba0, regLba1, regLba2, regHddevsel]

end

/-- The command that a drive of either unit gives is one for unit 0. -/
theorem command_received {block count : Nat} (port unit : Nat) (regs : Nat → Nat)
    (hblock : block < 2 ^ 28) (hpos : 0 < count) (hcount : count < 256) :
    ((Disk.make port unit).command block count).bind (received port regs) =
      some ⟨0, true, block, count⟩ := by
  have hmod : count % 256 = count := Nat.mod_eq_of_lt hcount
  obtain ⟨hsec, h0, h1, h2, hdev⟩ :=
    loaded_registers port (Disk.make port unit).select block count regs
  have hhigh : block >>> 24 = block / 2 ^ 24 := Nat.shiftRight_eq_div_pow block 24
  obtain ⟨hunit, hmode, hlow⟩ := device_register (block >>> 24) (by omega)
  rw [command_loaded port unit block regs (by omega)]
  simp only [decode, hsec, h0, h1, h2, hdev, hunit, hmode, hlow, hmod, if_neg hpos.ne',
    shiftRight_and_byte]
  rw [Option.some.injEq, Command.mk.injEq]
  refine ⟨rfl, rfl, ?_, rfl⟩
  rw [hhigh]
  omega

/-- **Addressing**: the command of `fulfill` goes to its own drive, in LBA mode and for the
sectors asked for, exactly when the drive is unit 0. -/
theorem command_addresses_iff {unit block count : Nat} (port : Nat) (regs : Nat → Nat)
    (hblock : block < 2 ^ 28) (hpos : 1 ≤ count) (hcount : count ≤ 255) :
    ((Disk.make port unit).command block count).bind (received port regs) =
      some ⟨unit, true, block, count⟩ ↔ unit = 0 := by
  rw [command_received port unit regs hblock hpos (by omega), Option.some.injEq, Command.mk.injEq]
  constructor
  · rintro ⟨h, -⟩
    exact h.symm
  · intro h
    exact ⟨h.symm, rfl, rfl, rfl⟩

theorem command_addresses_first_drive :
    ((Disk.make 0x1f0 0).command 0x0abcdef 2).bind (received 0x1f0 fun _ => 0) =
      some ⟨0, true, 0x0abcdef, 2⟩ :=
  (command_addresses_iff 0x1f0 _ (by norm_num) (by norm_num) (by norm_num)).2 rfl

/-- A read from the second drive of the first port is one from the first drive. -/
theorem second_drive_command :
    ((Disk.make 0x1f0 1).command 2 2).bind (received 0x1f0 fun _ => 0) = some ⟨0, true, 2, 2⟩ ∧
    ((Disk.make 0x1f0 1).command 2 2).bind (received 0x1f0 fun _ => 0) ≠ some ⟨1, true, 2, 2⟩ := by
  decide +kernel

/-- The sectors that `AtaDriver` takes the disk to deliver are those of the command. -/
theorem requestLba_sectors {α : Type} {s s' : AtaDriver α} {block count : Nat} (port unit : Nat)
    (regs : Nat → Nat) (hblock : block < 2 ^ 28) (hs : s.requestLba block count = some s') :
    ∃ c, ((Disk.make port unit).command block (count % 256)).bind (received port regs) = some c ∧
      s'.pending = s.pending ++ c.sectors := by
  obtain ⟨hpos, hs⟩ := Option.ite_none_right_eq_some.1 hs
  obtain rfl := Option.some.inj hs
  exact ⟨_, command_received port unit regs hblock hpos (Nat.mod_lt _ (by norm_num)), rfl⟩

end Ata

end Ulysses
