import Ulysses.Lib.Loop
import Ulysses.Block.Request

/-!
# Partitions

`Device::detect_partitions` and `SubDevice` of `block.cpp`. A partition keeps its first
sector and passes a buffer on to its parent as it is, so that the parent reads the sectors
of the same number from its own start (`fulfill_pending`).
-/

namespace Ulysses

open Lib Bytes

/-- The fields of `DosPartionEntry` that are read. -/
structure DosPartitionEntry where
  type : Nat
  lba : Nat
  sectors : Nat

def DosPartitionEntry.ofBytes (buf : Bytes) (a : Nat) : DosPartitionEntry where
  type := (buf (a + 4)).toNat
  lba := buf.read32 (a + 8)
  sectors := buf.read32 (a + 12)

/-- The `i`-th entry of the table in a boot sector. -/
def DosPartitionEntry.nth (buf : Bytes) (i : Nat) : DosPartitionEntry := ofBytes buf (446 + 16 * i)

/-- `block::SubDevice`, apart from its parent. -/
structure SubDevice where
  name : List UInt8
  offset : Nat
  size : Nat
deriving DecidableEq

namespace SubDevice

/-- The `i`-th turn of the loop of `detect_partitions`; a name has at most 8 characters. -/
def detect (name : List UInt8) (buf : Bytes) (devices : List SubDevice) (i : Nat) :
    Option (List SubDevice) :=
  let entry := DosPartitionEntry.nth buf i
  if entry.type = 0 then some devices
  else if name.length + 1 ≤ 8 then
    some (devices ++ [⟨name ++ [UInt8.ofNat (48 + i)], entry.lba, entry.sectors⟩])
  else none

/-- `detect_partitions`: the devices it adds. -/
def detectPartitions (name : List UInt8) (buf : Bytes) : Option (List SubDevice) :=
  if buf 510 = 0x55 ∧ buf 511 = 0xAA then (List.range 4).foldlM (detect name buf) []
  else some []

/-- The first region of a disk with the sectors `image`. -/
def bootRegion (image : Nat → Nat → UInt8) : Bytes := fun j => image (j / 512) (j % 512)

variable {α : Type}

/-- `SubDevice::fulfill`, with the driver of the parent. -/
def fulfill (_dev : SubDevice) (b : Nat) (parent : AtaDriver α) : Option (AtaDriver α) :=
  parent.fulfill b

/-- The device was made from an entry in use. -/
def OfEntry (buf : Bytes) (dev : SubDevice) : Prop :=
  ∃ i < 4, (DosPartitionEntry.nth buf i).type ≠ 0 ∧
    dev.offset = (DosPartitionEntry.nth buf i).lba ∧
    dev.size = (DosPartitionEntry.nth buf i).sectors

theorem detect_ofEntry {name : List UInt8} {buf : Bytes} {devices devices' : List SubDevice}
    {i : Nat} (hi : i < 4) (h : ∀ dev ∈ devices, dev.OfEntry buf)
    (hs : detect name buf devices i = some devices') : ∀ dev ∈ devices', dev.OfEntry buf := by
  simp only [detect] at hs
  by_cases hused : (DosPartitionEntry.nth buf i).type = 0
  · rw [if_pos hused] at hs
    exact Option.some.inj hs ▸ h
  · rw [if_neg hused] at hs
    obtain ⟨-, hs⟩ := Option.ite_none_right_eq_some.1 hs
    obtain rfl := Option.some.inj hs
    intro dev hdev
    rcases List.mem_append.1 hdev with hold | hnew
    · exact h dev hold
    · obtain rfl := List.mem_singleton.1 hnew
      exact ⟨i, hi, hused, rfl, rfl⟩

/-- Each device that is found was made from an entry in use. -/
theorem detectPartitions_ofEntry {name : List UInt8} {buf : Bytes} {devices : List SubDevice}
    (h : detectPartitions name buf = some devices) : ∀ dev ∈ devices, dev.OfEntry buf := by
  unfold detectPartitions at h
  by_cases hsig : buf 510 = 0x55 ∧ buf 511 = 0xAA
  · rw [if_pos hsig] at h
    exact foldlM_invariant (List.range 4)
      (fun _ _ _ hi hdevs hs => detect_ofEntry (List.mem_range.1 hi) hdevs hs) (by simp) h
  · rw [if_neg hsig] at h
    obtain rfl := Option.some.inj h
    simp

theorem fulfill_pending {b r : Nat} {parent : AtaDriver α} (dev : SubDevice)
    (hb : parent.buffers b = DiskBuffer.made α ⟨r, 1⟩) (hr : 2 * r < 4294967296) :
    ∃ parent', dev.fulfill b parent = some parent' ∧
      parent'.pending = parent.pending ++ [2 * r, 2 * r + 1] := by
  have hrange : (parent.buffers b).range = ⟨r, 1⟩ := by
    rw [hb]
    rfl
  have hsector : RegionRange.sector ⟨r, 1⟩ = 2 * r := by
    show mul32 r 2 = 2 * r
    rw [mul32_eq (by omega), Nat.mul_comm]
  obtain ⟨parent', hs⟩ : ∃ parent', parent.fulfill b = some parent' := by
    unfold AtaDriver.fulfill
    rw [hrange]
    exact ⟨_, rfl⟩
  obtain ⟨-, -, -, -, -, hpend⟩ := AtaDriver.fulfill_spec hs
  refine ⟨parent', hs, ?_⟩
  rw [hpend, hrange, hsector]
  rfl

/-- Filling the buffer reads the sectors of region `r` of the partition. -/
def OwnSectors (dev : SubDevice) (r b : Nat) (parent : AtaDriver α) : Prop :=
  ∃ parent' sectors, dev.fulfill b parent = some parent' ∧
    parent'.pending = parent.pending ++ sectors ∧
    sectors = [dev.offset + 2 * r, dev.offset + 2 * r + 1] ∧
    ∀ sector ∈ sectors, dev.offset ≤ sector ∧ sector < dev.offset + dev.size

/-- **Partitions**: a partition reads its own sectors exactly when it starts with the
disk. -/
theorem fulfill_own_sectors_iff {name : List UInt8} {image : Nat → Nat → UInt8}
    {devices : List SubDevice} {dev : SubDevice} {r b : Nat} {parent : AtaDriver α}
    (hfound : detectPartitions name (bootRegion image) = some devices) (hdev : dev ∈ devices)
    (hr : 2 * r + 1 < dev.size) (hb : parent.buffers b = DiskBuffer.made α ⟨r, 1⟩) :
    dev.OwnSectors r b parent ↔ dev.offset = 0 := by
  have hsize : dev.size < 4294967296 := by
    obtain ⟨i, -, -, -, hsize⟩ := detectPartitions_ofEntry hfound dev hdev
    rw [hsize]
    exact read32_lt _ _
  obtain ⟨parent', hs, hpend⟩ := fulfill_pending dev hb (by omega)
  constructor
  · rintro ⟨parent'', sectors, hs', hpend', rfl, -⟩
    obtain rfl := Option.some.inj (hs.symm.trans hs')
    rw [hpend, List.append_cancel_left_eq, List.cons.injEq] at hpend'
    omega
  · intro hzero
    refine ⟨parent', [2 * r, 2 * r + 1], hs, hpend, ?_, ?_⟩
    · rw [hzero, Nat.zero_add]
    · intro sector hsector
      rw [hzero]
      rcases List.mem_pair.1 hsector with rfl | rfl
      · omega
      · omega

/-- A disk with one partition in the first entry. -/
def partitioned (lba sectors : UInt8) (sector byte : Nat) : UInt8 :=
  if sector ≠ 0 then 0
  else if byte = 510 then 0x55
  else if byte = 511 then 0xAA
  else if byte = 450 then 0x83
  else if byte = 454 then lba
  else if byte = 458 then sectors
  else 0

theorem detectPartitions_partitioned :
    detectPartitions [97, 100, 97] (bootRegion (partitioned 63 200)) =
      some [⟨[97, 100, 97, 48], 63, 200⟩] ∧
    detectPartitions [97, 100, 97] (bootRegion (partitioned 0 200)) =
      some [⟨[97, 100, 97, 48], 0, 200⟩] := by
  decide +kernel

theorem fulfill_own_sectors_first :
    (⟨[97, 100, 97, 48], 0, 200⟩ : SubDevice).OwnSectors 5 5 (AtaDriver.requesting 1) :=
  (fulfill_own_sectors_iff detectPartitions_partitioned.2 (List.mem_singleton_self _)
    (by norm_num) rfl).2 rfl

/-- The first region of a partition at sector 63 is read from the boot sector on. -/
theorem partition_reads_boot_sector :
    ∃ dev, detectPartitions [97, 100, 97] (bootRegion (partitioned 63 200)) = some [dev] ∧
      dev.offset = 63 ∧ dev.size = 200 ∧
      (dev.fulfill 0 (AtaDriver.requesting 1)).map (·.pending) = some [0, 1] ∧
      ¬dev.OwnSectors 0 0 (AtaDriver.requesting 1) := by
  have hpend : ((⟨[97, 100, 97, 48], 63, 200⟩ : SubDevice).fulfill 0
      (AtaDriver.requesting 1)).map (·.pending) = some [0, 1] := by
    decide +kernel
  refine ⟨_, detectPartitions_partitioned.1, rfl, rfl, hpend, ?_⟩
  rintro ⟨parent', sectors, hs, hadd, rfl, -⟩
  rw [hs, Option.map_some, hadd] at hpend
  exact absurd hpend (by decide)

end SubDevice

end Ulysses
