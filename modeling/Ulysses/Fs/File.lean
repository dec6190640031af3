import Ulysses.Lib.Word

/-!
# Open files

`fs::File` of `fs.cpp`, without its node: a position that moves with the results of the
node's operations.
-/

namespace Ulysses.Fs

open Lib

/-- `fs::File`. -/
structure File where
  offset : Nat
  deriving DecidableEq

namespace File

/-- The constructor. -/
def make : File := ⟨0⟩

/-- The end of `read` and `write`. The node returned `count`, a `u32`, which becomes an
`s32`. -/
def moved (count : Nat) (f : File) : Int × File :=
  if s32 count < 0 then (s32 count, f)
  else (s32 count, { f with offset := add32 f.offset count })

/-- The position after `get_entries`, whose node returned `entries`. -/
def listed (entries : Int) (f : File) : File :=
  { f with offset := ((f.offset + entries) % 4294967296).toNat }

theorem moved_of_lt {count : Nat} {f : File} (hcount : count < 2147483648)
    (hsum : f.offset + count < 4294967296) :
    f.moved count = ((count : Int), ⟨f.offset + count⟩) := by
  unfold moved
  rw [s32_eq (by omega) (by omega), if_neg (by omega), add32_eq hsum]

end File

end Ulysses.Fs
