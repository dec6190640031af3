import Ulysses.Lib.Bytes
import Ulysses.HashTable.Sound
import Ulysses.Block.Region

/-!
# Block devices and their buffers

`Device::request` of `block.cpp`: the buffer of a range is made once and kept in a hash
table of the device. A buffer that was waited for holds the bytes of its range.

A pointer to a buffer is its number in the order in which the buffers were made.
-/

namespace Ulysses

open Lib

/-- The contents of a device, with what lies in memory behind the buffer of a range. -/
structure Disk where
  image : Nat → UInt8
  behind : RegionRange → Nat → UInt8

/-- What is found at `data()` of a full buffer for the range. -/
def Disk.data (disk : Disk) (range : RegionRange) : Bytes := fun j =>
  if j < range.numBytes then disk.image (range.start * 1024 + j) else disk.behind range j

/-- `RegionCacheOperations`. -/
def regionCacheOps : HashOps RegionRange where
  computeHash key := mixHash (UInt32.ofNat (key.start ^^^ key.size))
  compareKeys a b := decide (a.start = b.start) && decide (a.size = b.size)

theorem regionCacheOps_compareKeys {a b : RegionRange}
    (h : regionCacheOps.compareKeys a b = true) : a = b := by
  obtain ⟨start, size⟩ := a
  obtain ⟨start', size'⟩ := b
  simp only [regionCacheOps, Bool.and_eq_true, decide_eq_true_eq] at h
  rw [h.1, h.2]

/-- `block::Buffer`; `size_` is 16 bits wide. -/
structure RegionBuffer where
  size : Nat
  range : RegionRange

/-- `Buffer::for_size`. -/
def RegionBuffer.forSize (numBytes : Nat) : RegionBuffer where
  size := numBytes % 65536
  range := ⟨0, 0⟩

def RegionBuffer.setRange (range : RegionRange) (buffer : RegionBuffer) : RegionBuffer :=
  { buffer with range }

/-- `block::Device`, with the buffers made so far. -/
structure BlockDevice where
  cache : HashTable RegionRange Nat := .empty
  buffers : List RegionBuffer := []

namespace BlockDevice

def request (range : RegionRange) (d : BlockDevice) : Nat × BlockDevice :=
  match d.cache.fetch regionCacheOps range with
  | some buffer => (buffer, d)
  | none =>
    (d.buffers.length,
      { cache := d.cache.store regionCacheOps range d.buffers.length
        buffers := d.buffers ++ [(RegionBuffer.forSize range.numBytes).setRange range] })

/-- The range of the buffer, if there is one at the pointer. -/
def rangeOf (d : BlockDevice) (buffer : Nat) : Option RegionRange :=
  d.buffers[buffer]?.map (·.range)

/-- The cache has each buffer under its range. -/
def Keyed (d : BlockDevice) : Prop :=
  d.cache.Every fun range buffer => d.rangeOf buffer = some range

theorem keyed_init : ({} : BlockDevice).Keyed := HashTable.every_empty

/-- A request returns a buffer of its range, and the buffers that are there keep theirs. -/
theorem Keyed.request {d : BlockDevice} (h : d.Keyed) (range : RegionRange) :
    (d.request range).2.rangeOf (d.request range).1 = some range ∧ (d.request range).2.Keyed ∧
      ∀ buffer r, d.rangeOf buffer = some r → (d.request range).2.rangeOf buffer = some r := by
  unfold BlockDevice.request
  cases hf : d.cache.fetch regionCacheOps range with
  | some buffer =>
    obtain ⟨r, hr, hrange⟩ := HashTable.Every.fetch h hf
    obtain rfl := regionCacheOps_compareKeys hr
    exact ⟨hrange, h, fun _ _ hb => hb⟩
  | none =>
    have hold : ∀ (cache : HashTable RegionRange Nat) (b : RegionBuffer) (buffer : Nat)
        (r : RegionRange), d.rangeOf buffer = some r →
        BlockDevice.rangeOf ⟨cache, d.buffers ++ [b]⟩ buffer = some r := by
      intro cache b buffer r hb
      obtain ⟨x, hx, rfl⟩ := Option.map_eq_some_iff.1 hb
      have hlt : buffer < d.buffers.length := (List.getElem?_eq_some_iff.1 hx).1
      rw [rangeOf, List.getElem?_append_left hlt, hx]
      rfl
    have hnew : ∀ cache : HashTable RegionRange Nat, BlockDevice.rangeOf
        ⟨cache, d.buffers ++ [(RegionBuffer.forSize range.numBytes).setRange range]⟩
        d.buffers.length = some range := by
      intro cache
      rw [rangeOf, List.getElem?_append_right (Nat.le_refl _), Nat.sub_self]
      rfl
    refine ⟨hnew _, HashTable.Every.store (h.mono fun r buffer => hold _ _ buffer r)
      (fun r hr => ?_) (hnew _), fun buffer r => hold _ _ buffer r⟩
    rw [regionCacheOps_compareKeys hr]
    exact hnew _

end BlockDevice

end Ulysses
