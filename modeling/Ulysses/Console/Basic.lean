import Ulysses.Lib.Word

/-!
# The console device

`inject_bytes` and `read_bytes` of `character/console.cpp`, over the `Buffer` and
`Region` of `buffer.cpp`. The raw buffer collects what is injected; the read region
is the part of it that readers may have. The echo on the screen is not modelled.
-/

namespace Ulysses

open Lib

/-- `Buffer`; `used_` is the number of its bytes. -/
structure CharBuffer where
  size : Nat
  bytes : List UInt8
  fits : bytes.length ≤ size

/-- `Region`, with both pointers counted from the start of the raw buffer. -/
structure Region where
  start : Nat
  stop : Nat
deriving DecidableEq

namespace Region

def empty : Region := ⟨0, 0⟩

def emptyP (r : Region) : Bool := r.stop ≤ r.start

/-- `drain_into` takes `size` as an `int`; a negative count makes `memcpy` run over
more than 2 GiB. -/
def drainInto (data : List UInt8) (size : Nat) (r : Region) : Option (List UInt8 × Region) :=
  let count := min ((r.stop : Int) - r.start) (s32 size)
  if count < 0 then none
  else some ((data.drop r.start).take count.toNat, { r with start := r.start + count.toNat })

theorem drainInto_spec {data bytes : List UInt8} {size : Nat} {r r' : Region}
    (h : r.drainInto data size = some (bytes, r')) :
    ∃ n : Nat, ((r.start + n : Nat) : Int) ≤ r.stop ∧ bytes = (data.drop r.start).take n ∧
      r' = { r with start := r.start + n } := by
  unfold drainInto at h
  generalize s32 size = limit at h
  obtain ⟨hcount, h⟩ := Option.ite_none_left_eq_some.1 h
  obtain ⟨rfl, rfl⟩ := Prod.mk.inj (Option.some.inj h)
  refine ⟨_, ?_, rfl, rfl⟩
  omega

end Region

namespace CharBuffer

/-- `allocate` of an unused buffer. -/
def allocate (size : Nat) : CharBuffer := ⟨size, [], Nat.zero_le _⟩

/-- `copy` of the used bytes `src` of another buffer into this one. -/
def copy (src : List UInt8) (b : CharBuffer) : Option CharBuffer :=
  if h : b.bytes.length + src.length ≤ b.size then
    some ⟨b.size, b.bytes ++ src, by simpa using h⟩
  else none

theorem copy_bytes {src : List UInt8} {b b' : CharBuffer} (h : b.copy src = some b') :
    b'.bytes = b.bytes ++ src := by
  unfold copy at h
  split at h
  · exact Option.some.inj h ▸ rfl
  · cases h

def newline : UInt8 := 10

def findNewline (b : CharBuffer) : Option Region :=
  (b.bytes.findIdx? (· = newline)).map fun pos => ⟨0, pos + 1⟩

def allOf (b : CharBuffer) : Region := ⟨0, b.bytes.length⟩

end CharBuffer

/-- `ConsoleDevice` with the mode of its `tty_`. -/
structure ConsoleDevice where
  canonical : Bool
  rawBuffer : CharBuffer
  readRegion : Region

namespace ConsoleDevice

/-- A new device after `open`. -/
def opened : ConsoleDevice := ⟨true, .allocate 4096, .empty⟩

/-- `inject_bytes`, and whether it calls `wake`. `none` is the `ASSERT`. -/
def injectBytes (bytes : List UInt8) (d : ConsoleDevice) : Option (ConsoleDevice × Bool) :=
  (d.rawBuffer.copy bytes).map fun raw =>
    if d.canonical then
      match raw.findNewline with
      | some region => ({ d with rawBuffer := raw, readRegion := region }, true)
      | none => ({ d with rawBuffer := raw }, false)
    else ({ d with rawBuffer := raw, readRegion := raw.allOf }, true)

/-- The end of `read_bytes`, when the region is not empty. -/
def drain (size : Nat) (d : ConsoleDevice) : Option (List UInt8 × ConsoleDevice) :=
  (d.readRegion.drainInto d.rawBuffer.bytes size).map fun (bytes, region) =>
    (bytes, { d with readRegion := region })

end ConsoleDevice

end Ulysses
