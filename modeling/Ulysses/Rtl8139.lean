import Mathlib.Data.List.Induction
import Ulysses.Lib.Word

/-!
# The network card

`transmit`, `last_tx_status` and `receive` of `rtl8139.cpp`. The card has four transmit
descriptors. `transmit` wraps `tx_desc` one too late, so the fifth frame goes to a descriptor
that does not exist (`ring_iff`). `cur_rx` counts the bytes received and is reduced only
where it is read; once it is negative, so is the remainder (`offset_iff`).
-/

namespace Ulysses

open Lib

structure TxBuffer where
  virt : Nat
  phys : Nat
deriving DecidableEq

/-- What the driver does to memory and to the registers of the card, by their offset. -/
inductive CardOutput
  | copy (dest src : Nat) (size : Int)
  | outl (register value : Nat)
  | outw (register value : Nat)
  | handoff (offset : Int) (size : Nat)
deriving DecidableEq

/-- `RTL8139`, with the outputs so far and the places they come from: the descriptor of each
`transmit` and the offset of each frame. -/
structure Rtl8139 where
  curRx : Int
  txBuffers : Fin 4 → TxBuffer
  txDesc : Nat
  mac : Fin 6 → UInt8
  outputs : List CardOutput
  descriptors : List Nat
  offsets : List Int

namespace Rtl8139

def txStatus0 : Nat := 0x10
def txAddr0 : Nat := 0x20
def rxBufPtr : Nat := 0x38

def defaultRxBufLen : Int := 8192 * 4

/-- `RxErrors`. -/
def rxErrors : UInt32 := 0x3e

/-- After `init`. -/
def init (txBuffers : Fin 4 → TxBuffer) (mac : Fin 6 → UInt8) : Rtl8139 :=
  ⟨0, txBuffers, 0, mac, [], [], []⟩

/-- `tx_buffers[entry]`. Behind the four buffers lie `tx_desc` and the first bytes of `mac`. -/
def txBuffer (entry : Nat) (r : Rtl8139) : TxBuffer :=
  if h : entry < 4 then r.txBuffers ⟨entry, h⟩
  else ⟨r.txDesc, (r.mac 0).toNat + 256 * (r.mac 1).toNat + 65536 * (r.mac 2).toNat +
    16777216 * (r.mac 3).toNat⟩

def transmit (r : Rtl8139) (frame : Nat × Int) : Rtl8139 :=
  let entry := r.txDesc
  { r with
    outputs := r.outputs ++
      [.copy (r.txBuffer entry).virt frame.1 frame.2,
        .outl (txAddr0 + entry * 4) (r.txBuffer entry).phys,
        .outl (txStatus0 + entry * 4) (frame.2 % 8192).toNat]
    descriptors := r.descriptors ++ [entry]
    txDesc := if entry + 1 > 4 then 0 else entry + 1 }

/-- The register that `last_tx_status` reads. -/
def lastTxStatus (r : Rtl8139) : Nat :=
  let entry := if r.txDesc = 0 then 3 else r.txDesc - 1
  txStatus0 + entry * 4

/-- `offset` at the head of the loop of `receive`. -/
def offset (r : Rtl8139) : Int := r.curRx.tmod defaultRxBufLen

/-- A turn of the loop of `receive`, with the status word of the frame. -/
def receiveFrame (r : Rtl8139) (rxStatus : UInt32) : Rtl8139 :=
  let offset := r.offset
  let rxSize := (rxStatus >>> 16).toNat
  let handed := if rxStatus &&& rxErrors ≠ 0 then [] else [.handoff (offset + 4) rxSize]
  let curRx := s32 (r.curRx + rxSize + 4 + 3) / 4 * 4
  { r with
    curRx
    outputs := r.outputs ++ handed ++ [.outw rxBufPtr ((curRx - 16) % 65536).toNat]
    offsets := r.offsets ++ [offset] }

/-! ## The transmit descriptors -/

/-- The descriptors are used in turn, `tx_desc` is one of them, and the status read is that
of the last one used. -/
structure Ring (r : Rtl8139) : Prop where
  desc : r.txDesc < 4
  cyclic : r.descriptors = (List.range r.descriptors.length).map (· % 4)
  status : ∀ entry, r.descriptors.getLast? = some entry → r.lastTxStatus = txStatus0 + entry * 4

section

variable (txBuffers : Fin 4 → TxBuffer) (mac : Fin 6 → UInt8)

/-- The driver counts five descriptors. -/
theorem transmit_run (frames : List (Nat × Int)) :
    (frames.foldl transmit (init txBuffers mac)).txDesc = frames.length % 5 ∧
      (frames.foldl transmit (init txBuffers mac)).descriptors =
        (List.range frames.length).map (· % 5) := by
  induction frames using List.reverseRecOn with
  | nil => exact ⟨rfl, rfl⟩
  | append_singleton frames frame ih =>
    rw [List.foldl_append, List.length_append, List.length_singleton, List.range_succ,
      List.map_append]
    generalize frames.foldl transmit (init txBuffers mac) = r at ih
    refine ⟨?_, ?_⟩
    · show (if r.txDesc + 1 > 4 then 0 else r.txDesc + 1) = _
      rw [ih.1]
      split <;> omega
    · show r.descriptors ++ [r.txDesc] = _
      rw [ih.1, ih.2]
      rfl

theorem ring_of_le {frames : List (Nat × Int)} (h : frames.length ≤ 3) :
    Ring (frames.foldl transmit (init txBuffers mac)) := by
  obtain ⟨hdesc, hused⟩ := transmit_run txBuffers mac frames
  generalize frames.foldl transmit (init txBuffers mac) = r at hdesc hused
  have hlen : r.descriptors.length = frames.length := by
    rw [hused, List.length_map, List.length_range]
  refine ⟨by omega, ?_, fun entry hentry => ?_⟩
  · rw [hlen, hused]
    refine List.map_congr_left fun i hi => ?_
    rw [List.mem_range] at hi
    omega
  · rw [hused, List.getLast?_map, List.getLast?_range] at hentry
    split at hentry
    next => cases hentry
    next hpos =>
      obtain rfl := Option.some.inj hentry
      show txStatus0 + (if r.txDesc = 0 then 3 else r.txDesc - 1) * 4 =
        txStatus0 + (frames.length - 1) % 5 * 4
      rw [if_neg (by omega)]
      omega

/-- The descriptors stay in order just for three frames. -/
theorem ring_iff (frames : List (Nat × Int)) :
    (∀ sent, sent <+: frames → Ring (sent.foldl transmit (init txBuffers mac))) ↔
      frames.length ≤ 3 := by
  constructor
  · intro h
    by_contra hlong
    have hdesc := (h (frames.take 4) (List.take_prefix 4 frames)).desc
    rw [(transmit_run txBuffers mac _).1, List.length_take] at hdesc
    omega
  · intro h sent hsent
    exact ring_of_le txBuffers mac (hsent.length_le.trans h)

end

/-- After four frames `tx_desc` is 4, and the next frame goes to descriptor 4. -/
theorem fifth_descriptor :
    let r := [(0, 60), (0, 60), (0, 60), (0, 60), (0, 60)].foldl transmit
      (init (fun i => ⟨4096 * i, 4096 * i⟩) fun _ => 0x52)
    r.descriptors = [0, 1, 2, 3, 4] ∧
      ([(0, 60), (0, 60), (0, 60), (0, 60)].foldl transmit
        (init (fun i => ⟨4096 * i, 4096 * i⟩) fun _ => 0x52)).txDesc = 4 ∧
      r.outputs.getLast? = some (.outl 0x20 60) ∧ r.outputs[12]? = some (.copy 4 0 60) := by
  decide

/-! ## The place in the receive buffer -/

section

variable (txBuffers : Fin 4 → TxBuffer) (mac : Fin 6 → UInt8)

/-- What a frame takes in the buffer: its size and the status word, rounded up to words. -/
def taken (rxStatus : UInt32) : Nat := ((rxStatus >>> 16).toNat + 4 + 3) / 4 * 4

def received (frames : List UInt32) : Nat := (frames.map taken).sum

/-- Rounding to words and reducing to an `int` may change places. -/
theorem s32_round {x y : Int} (h : y = x / 4 * 4) : s32 x / 4 * 4 = s32 y := by
  have hx := s32_range x
  have hy := s32_range y
  have hxmod := s32_emod x
  have hymod := s32_emod y
  omega

theorem curRx_run (frames : List UInt32) :
    (frames.foldl receiveFrame (init txBuffers mac)).curRx = s32 (received frames) ∧
      4 ∣ received frames := by
  induction frames using List.reverseRecOn with
  | nil => exact ⟨rfl, Nat.dvd_zero 4⟩
  | append_singleton frames frame ih =>
    have hreceived : received (frames ++ [frame]) = received frames + taken frame := by
      unfold received
      rw [List.map_append, List.sum_append]
      rfl
    have htaken : taken frame = ((frame >>> 16).toNat + 4 + 3) / 4 * 4 := rfl
    rw [List.foldl_append, hreceived]
    refine ⟨?_, by omega⟩
    show s32 ((frames.foldl receiveFrame (init txBuffers mac)).curRx + (frame >>> 16).toNat + 4 + 3)
      / 4 * 4 = _
    rw [ih.1, Int.add_assoc, Int.add_assoc, s32_s32_add]
    exact s32_round (by omega)

/-- The offset of the next frame is right. -/
structure Placed (r : Rtl8139) (frames : List UInt32) : Prop where
  lo : 0 ≤ r.offset
  hi : r.offset < defaultRxBufLen
  word : 4 ∣ r.offset
  sum : r.offset = received frames % defaultRxBufLen

theorem placed_iff {r : Rtl8139} {frames : List UInt32} (h : 4 ∣ received frames) :
    Placed r frames ↔ r.offset = (received frames : Int) % 32768 := by
  have hlen : defaultRxBufLen = 32768 := rfl
  refine ⟨fun hplaced => hplaced.sum, fun hsum => ⟨?_, ?_, ?_, hsum⟩⟩
  · omega
  · rw [hlen]
    omega
  · rw [hsum]
    omega

/-- After any frames the offset is right just when `cur_rx` has not become negative, or the
frames end at the end of the buffer. -/
theorem offset_iff (frames : List UInt32) :
    Placed (frames.foldl receiveFrame (init txBuffers mac)) frames ↔
      received frames % 4294967296 < 2147483648 ∨ 32768 ∣ received frames := by
  obtain ⟨hcur, hfour⟩ := curRx_run txBuffers mac frames
  have hoffset : (frames.foldl receiveFrame (init txBuffers mac)).offset =
      (s32 (received frames)).tmod 32768 := congrArg (Int.tmod · 32768) hcur
  have hrange := s32_range (received frames)
  have hmod := s32_emod (received frames)
  rw [placed_iff hfour, hoffset]
  generalize received frames = n at hrange hmod
  generalize s32 n = cur at hrange hmod
  rcases Int.lt_or_le cur 0 with hneg | hnonneg
  · -- the remainder has the sign of `cur_rx`
    obtain ⟨m, rfl⟩ : ∃ m, cur = -m := ⟨-cur, (Int.neg_neg cur).symm⟩
    rw [Int.neg_tmod, Int.tmod_eq_emod_of_nonneg (by omega)]
    omega
  · rw [Int.tmod_eq_emod_of_nonneg hnonneg]
    omega

end

/-- After 32767 of the largest frames the next one is looked for before the buffer. -/
theorem offset_negative :
    ((List.replicate 32767 0xFFFF0001).foldl receiveFrame
        (init (fun i => ⟨4096 * i, 4096 * i⟩) fun _ => 0x52)).offset = -4 ∧
      ¬Placed
        ((List.replicate 32767 0xFFFF0001).foldl receiveFrame
          (init (fun i => ⟨4096 * i, 4096 * i⟩) fun _ => 0x52))
        (List.replicate 32767 0xFFFF0001) := by
  have hreceived : received (List.replicate 32767 0xFFFF0001) = 2147549180 := by
    unfold received
    rw [List.map_replicate, List.sum_replicate_nat]
    decide
  have hcur := (curRx_run (fun i => ⟨4096 * i, 4096 * i⟩) (fun _ => 0x52)
    (List.replicate 32767 0xFFFF0001)).1
  have hoffset : ((List.replicate 32767 0xFFFF0001).foldl receiveFrame
      (init (fun i => ⟨4096 * i, 4096 * i⟩) fun _ => 0x52)).offset = -4 := by
    unfold offset
    rw [hcur, hreceived]
    decide
  refine ⟨hoffset, fun h => ?_⟩
  have hlo := h.lo
  rw [hoffset] at hlo
  exact absurd hlo (by decide)

end Rtl8139

end Ulysses
