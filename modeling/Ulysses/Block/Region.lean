import Ulysses.Lib.Word

/-!
# Regions of a block device

`RegionRange` of `block_region.hpp`: a range of 1024-byte regions, two sectors each.
-/

namespace Ulysses

open Lib

structure RegionRange where
  start : Nat
  size : Nat
deriving DecidableEq

namespace RegionRange

def sector (r : RegionRange) : Nat := mul32 r.start 2

def numSectors (r : RegionRange) : Nat := mul32 r.size 2

def numBytes (r : RegionRange) : Nat := mul32 r.size 1024

theorem numBytes_lt (r : RegionRange) : r.numBytes < 4294967296 := Nat.mod_lt _ (by norm_num)

theorem numBytes_mod (r : RegionRange) : r.numBytes % 512 = 0 := by
  unfold numBytes mul32
  omega

/-- The low byte of the number of sectors is that of the sectors the bytes take. -/
theorem numSectors_mod (r : RegionRange) : r.numSectors % 256 = r.numBytes / 512 % 256 := by
  unfold numSectors numBytes mul32
  omega

end RegionRange

end Ulysses
