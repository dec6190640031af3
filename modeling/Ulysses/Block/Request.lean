import Ulysses.Block.Ata
import Ulysses.Block.Device

/-!
# Sizes of requests

The buffer that `Device::request` makes for a range, on its way through `Disk::fulfill` and
the interrupts. A buffer keeps its size in 16 bits and `request_lba` takes a count of 8 bits;
a range is never split. Up to 63 regions pass both and the whole range arrives
(`Exact.completed`, `requests_in_turn`), from 64 on the buffer is too small for its own range.
-/

namespace Ulysses

open Lib

/-- The buffer that `request` makes for a range, before it is filled. -/
def DiskBuffer.made (α : Type) (range : RegionRange) : DiskBuffer α where
  range
  byteSize := ((RegionBuffer.forSize range.numBytes).setRange range).size
  full := false
  data _ := none

/-- The `count` that `request_lba` gets from `fulfill`. -/
def RegionRange.sectorCount (range : RegionRange) : Nat := range.numSectors % 256

namespace AtaDriver

variable {α : Type}

/-- The sizes of the range are those of its buffer and its command, and the ASSERTs of
`request_lba` and `handle` hold. -/
structure Exact (buffer : DiskBuffer α) : Prop where
  count : buffer.range.sectorCount = buffer.range.numSectors
  byteSize : buffer.byteSize = buffer.range.numBytes
  asked : 0 < buffer.range.sectorCount
  room : buffer.range.numBytes ≤ buffer.byteSize

/-- `fulfill` and the interrupts that follow it bring the whole range. -/
def Transferred (image : Nat → Nat → α) (s : AtaDriver α) (b : Nat) : Prop :=
  ∃ n s', (Event.fulfill b :: List.replicate n Event.interrupt).foldlM (step image) s = some s' ∧
    (s'.buffers b).full = true ∧ Filled image (s'.buffers b)

variable {image : Nat → Nat → α} {s s' : AtaDriver α} {b : Nat}

/-! ## The interrupts of one command -/

theorem handle_isSome (image : Nat → Nat → α) (sector : Nat) (hslot : s.requestBuffer = some b)
    (hroom : (s.buffers b).range.numBytes ≤ (s.buffers b).byteSize) :
    ∃ s', s.handle image sector = some s' := by
  unfold handle
  simp only [hslot]
  by_cases hread : s.readBytes ≥ (s.buffers b).range.numBytes
  · rw [if_pos hread]
    exact ⟨_, rfl⟩
  · rw [if_neg hread, if_neg (Nat.not_lt.2 hroom)]
    exact ⟨_, rfl⟩

/-- The ASSERT of `handle`: a buffer that receives a sector has room for its range. -/
theorem handle_room {sector : Nat} (hs : s.handle image sector = some s')
    (hslot : s.requestBuffer = some b) (hread : s.readBytes < (s.buffers b).range.numBytes) :
    (s.buffers b).range.numBytes ≤ (s.buffers b).byteSize := by
  unfold handle at hs
  simp only [hslot] at hs
  rw [if_neg (Nat.not_le.2 hread)] at hs
  exact Nat.not_lt.1 (Option.ite_none_left_eq_some.1 hs).1

theorem Transfer.interrupt {n k : Nat} (h : Transfer image s b n)
    (hslot : s.requestBuffer = some b)
    (hroom : (s.buffers b).range.numBytes ≤ (s.buffers b).byteSize)
    (hpend : s.pending = List.range' ((s.buffers b).range.sector + n) (k + 1)) :
    ∃ s' full, s.step image .interrupt = some s' ∧ Received image s s' b n k full ∧
      (s'.buffers b).byteSize = (s.buffers b).byteSize := by
  rw [List.range'_succ] at hpend
  obtain ⟨s', hs⟩ := handle_isSome image ((s.buffers b).range.sector + n)
    (s := { s with pending := List.range' ((s.buffers b).range.sector + n + 1) k }) hslot hroom
  obtain ⟨m, full, hr⟩ := h.received hslot hpend hs
  have hread : s.readBytes < (s.buffers b).range.numBytes := by
    have hm := hr.left
    rw [h.readBytes]
    omega
  obtain ⟨_, -, -, hbuf, -, -, hpe, -⟩ := handle_spec hs hslot hread
  have hm : m = k := by
    have hlen := congrArg List.length (hr.pending.symm.trans hpe)
    simpa using hlen
  refine ⟨s', full, ?_, hm ▸ hr, ?_⟩
  · simp only [step, hpend]
    exact hs
  · rw [hbuf, Function.update_self]
    rfl

/-- The request for `b` has been answered, and nothing else has changed. -/
structure Completed (image : Nat → Nat → α) (s s' : AtaDriver α) (b : Nat) : Prop where
  slot : s'.requestBuffer = none
  pending : s'.pending = []
  full : (s'.buffers b).full = true
  filled : Filled image (s'.buffers b)
  range : (s'.buffers b).range = (s.buffers b).range
  other : ∀ b', b' ≠ b → s'.buffers b' = s.buffers b'
  requested : s'.requested = s.requested

/-- With all sectors of the range to come, the interrupts fill the buffer. -/
theorem Transfer.completes {n k : Nat} (h : Transfer image s b n)
    (hslot : s.requestBuffer = some b)
    (hroom : (s.buffers b).range.numBytes ≤ (s.buffers b).byteSize)
    (hleft : n + (k + 1) = (s.buffers b).range.numBytes / 512)
    (hpend : s.pending = List.range' ((s.buffers b).range.sector + n) (k + 1)) :
    ∃ s', (List.replicate (k + 1) Event.interrupt).foldlM (step image) s = some s' ∧
      Completed image s s' b := by
  have hbytes := (s.buffers b).range.numBytes_mod
  induction k generalizing s n with
  | zero =>
    obtain ⟨s₁, full, hs, hr, -⟩ := h.interrupt hslot hroom hpend
    have hfull : full = true := hr.done.2 (by omega)
    refine ⟨s₁, ?_, ?_, hr.pending, hr.full_eq.trans hfull, fun i hi => hr.data i ?_, hr.range,
      hr.other, hr.requested⟩
    · rw [List.replicate_one, List.foldlM_cons, hs]
      rfl
    · rw [hr.slot, hfull]
      rfl
    · rw [hr.range] at hi
      omega
  | succ k ih =>
    obtain ⟨s₁, full, hs, hr, hsize⟩ := h.interrupt hslot hroom hpend
    have hmore : full = false := by
      rw [← Bool.not_eq_true, hr.done]
      omega
    have hslot₁ : s₁.requestBuffer = some b := by
      rw [hr.slot, hmore]
      rfl
    have h₁ : Transfer image s₁ b (n + 1) :=
      ⟨hr.requested ▸ h.requested, hr.full_eq.trans hmore, hr.readBytes, hr.bytesPerRead,
        ⟨k + 1, by rw [hr.range]; exact hr.left, by rw [hr.pending, hr.range]⟩, hr.data⟩
    rw [← hr.range] at hleft hbytes hroom
    rw [← hsize] at hroom
    have hpend₁ : s₁.pending = List.range' ((s₁.buffers b).range.sector + (n + 1)) (k + 1) := by
      rw [hr.pending, hr.range]
    obtain ⟨s', hrun, hdone⟩ := ih h₁ hslot₁ hroom (by omega) hpend₁ hbytes
    refine ⟨s', ?_, hdone.slot, hdone.pending, hdone.full, hdone.filled,
      hdone.range.trans hr.range, fun b' hb' => (hdone.other b' hb').trans (hr.other b' hb'),
      hdone.requested.trans hr.requested⟩
    rw [List.replicate_succ, List.foldlM_cons, hs]
    exact hrun

theorem fulfill_transfer (image : Nat → Nat → α) (hidle : s.pending = []) (hnew : b ∉ s.requested)
    (hfull : (s.buffers b).full = false) (hasked : 0 < (s.buffers b).range.sectorCount) :
    ∃ s', s.step image (.fulfill b) = some s' ∧ Transfer image s' b 0 ∧
      s'.requestBuffer = some b ∧ s'.buffers = s.buffers ∧ s'.requested = b :: s.requested ∧
      s'.pending = List.range' (s.buffers b).range.sector (s.buffers b).range.sectorCount := by
  obtain ⟨s', hs⟩ : ∃ s', s.fulfill b = some s' := ⟨_, if_pos hasked⟩
  obtain ⟨hslot, hread, hper, hbuf, hreq, hpend⟩ := fulfill_spec hs
  rw [hidle, List.nil_append] at hpend
  refine ⟨s', ?_, ?_, hslot, hbuf, hreq, hpend⟩
  · rw [step, if_neg hnew, hs]
  · refine ⟨by simp [hreq], by rw [hbuf]; exact hfull, hread, hper, ?_, by simp⟩
    rw [hbuf, hpend]
    refine ⟨_, ?_, rfl⟩
    rw [Nat.zero_add, RegionRange.numSectors_mod]
    exact Nat.mod_le _ _

/-- A request and the interrupts of its sectors. -/
def request (range : RegionRange) (b : Nat) : List Event :=
  .fulfill b :: List.replicate range.sectorCount .interrupt

theorem Exact.completed (image : Nat → Nat → α) (hexact : Exact (s.buffers b))
    (hidle : s.pending = []) (hnew : b ∉ s.requested) (hfull : (s.buffers b).full = false) :
    ∃ s', (request (s.buffers b).range b).foldlM (step image) s = some s' ∧
      Completed image { s with requested := b :: s.requested } s' b := by
  obtain ⟨s₁, hs, ht, hslot, hbuf, hreq, hpend⟩ :=
    fulfill_transfer image hidle hnew hfull hexact.asked
  have hsectors : (s.buffers b).range.sectorCount = (s.buffers b).range.numBytes / 512 := by
    have hcount := hexact.count
    unfold RegionRange.sectorCount RegionRange.numSectors RegionRange.numBytes mul32 at *
    omega
  obtain ⟨k, hk⟩ := Nat.exists_eq_succ_of_ne_zero hexact.asked.ne'
  rw [hk] at hpend hsectors
  rw [← hbuf] at hpend hsectors
  obtain ⟨s', hrun, hdone⟩ := ht.completes hslot (by rw [hbuf]; exact hexact.room) (by omega) hpend
  refine ⟨s', ?_, hdone.slot, hdone.pending, hdone.full, hdone.filled, ?_, ?_, ?_⟩
  · rw [request, hk, List.foldlM_cons, hs]
    exact hrun
  · exact hdone.range.trans (by rw [hbuf])
  · exact fun b' hb' => (hdone.other b' hb').trans (by rw [hbuf])
  · exact hdone.requested.trans hreq

/-- The first interrupt for a buffer that is too small fails, so none is filled. -/
theorem Transferred.room (h : s.Idle) (ht : Transferred image s b) :
    (s.buffers b).range.numBytes ≤ (s.buffers b).byteSize := by
  obtain ⟨n, s', hrun, hfull, -⟩ := ht
  rw [List.foldlM_cons] at hrun
  obtain ⟨s₁, hs, hrun⟩ := Option.bind_eq_some_iff.1 hrun
  obtain ⟨-, hs⟩ := Option.ite_none_left_eq_some.1 hs
  have hasked : 0 < (s.buffers b).range.sectorCount := (Option.ite_none_right_eq_some.1 hs).1
  obtain ⟨hslot, hread, -, hbuf, -, hpend⟩ := fulfill_spec hs
  rw [h.pending, List.nil_append] at hpend
  cases n with
  | zero =>
    obtain rfl := Option.some.inj hrun
    rw [hbuf, h.full b] at hfull
    cases hfull
  | succ n =>
    obtain ⟨k, hk⟩ := Nat.exists_eq_succ_of_ne_zero hasked.ne'
    change s₁.pending = List.range' _ (s.buffers b).range.sectorCount at hpend
    rw [hk, List.range'_succ] at hpend
    rw [List.replicate_succ, List.foldlM_cons] at hrun
    obtain ⟨s₂, hs₂, -⟩ := Option.bind_eq_some_iff.1 hrun
    simp only [step, hpend] at hs₂
    rw [← hbuf]
    by_contra hsmall
    have hroom := handle_room hs₂ hslot (by simp only [hread]; omega)
    exact hsmall hroom

section

variable {range : RegionRange} (hpos : 1 ≤ range.size) (hlt : range.size < 2 ^ 20)

include hlt in
theorem numBytes_of_lt : range.numBytes = range.size * 1024 := mul32_eq (by omega)

include hpos hlt in
/-- A buffer that `request` makes has room for its range up to 63 regions. -/
theorem made_room_iff :
    range.numBytes ≤ (DiskBuffer.made α range).byteSize ↔ range.size < 64 := by
  show range.numBytes ≤ range.numBytes % 65536 ↔ _
  rw [numBytes_of_lt hlt]
  omega

include hpos hlt in
theorem made_exact_iff : Exact (DiskBuffer.made α range) ↔ range.size < 64 := by
  constructor
  · intro h
    exact (made_room_iff hpos hlt).1 h.room
  · intro h
    have hroom := (made_room_iff (α := α) hpos hlt).2 h
    have hsectors : range.numSectors = range.size * 2 := mul32_eq (by omega)
    have hcount : range.sectorCount = range.numSectors := by
      rw [RegionRange.sectorCount, hsectors]
      omega
    have hsize : (DiskBuffer.made α range).byteSize ≤ range.numBytes := Nat.mod_le _ _
    have hasked : 0 < range.sectorCount := by omega
    exact ⟨hcount, Nat.le_antisymm hsize hroom, hasked, hroom⟩

end

/-- **Request sizes**: the sizes of a range survive the narrow fields, or the range is
brought in some other way, exactly when it has less than 64 regions. -/
theorem request_sizes_iff {range : RegionRange} (h : s.Idle)
    (hb : s.buffers b = DiskBuffer.made α range) (hpos : 1 ≤ range.size)
    (hlt : range.size < 2 ^ 20) :
    Exact (s.buffers b) ∨ Transferred image s b ↔ range.size < 64 := by
  constructor
  · rintro (hexact | ht)
    · rw [hb] at hexact
      exact (made_exact_iff hpos hlt).1 hexact
    · have hroom := ht.room h
      rw [hb] at hroom
      exact (made_room_iff hpos hlt).1 hroom
  · intro hsize
    rw [hb]
    exact .inl ((made_exact_iff hpos hlt).2 hsize)

/-- An idle driver whose buffers are made for ranges of the same size. -/
def requesting (size : Nat) : AtaDriver (Nat × Nat) where
  requestBuffer := none
  readBytes := 0
  bytesPerRead := 0
  buffers b := DiskBuffer.made (Nat × Nat) ⟨b, size⟩
  pending := []
  requested := []

theorem idle_requesting (size : Nat) : (requesting size).Idle := ⟨rfl, rfl, rfl, fun _ => rfl⟩

theorem request_sizes_63 :
    Exact ((requesting 63).buffers 5) ∨ Transferred Prod.mk (requesting 63) 5 :=
  (request_sizes_iff (idle_requesting 63) rfl (by norm_num) (by norm_num)).2 (by norm_num)

/-- A buffer for 64 regions has the size 0, and the first interrupt fails. -/
theorem request_64_fails :
    ((requesting 64).buffers 0).byteSize = 0 ∧ ((requesting 64).buffers 0).range.numBytes = 65536 ∧
    ¬(Exact ((requesting 64).buffers 0) ∨ Transferred Prod.mk (requesting 64) 0) := by
  refine ⟨rfl, rfl, ?_⟩
  rintro (hexact | ht)
  · exact absurd hexact.room (by decide)
  · exact absurd (ht.room (idle_requesting 64)) (by decide)

/-- **Requests made in turn are all answered.** For every list of distinct buffers that `request`
has made for up to 63 regions each: when every one is passed to `fulfill` after the interrupts of
the one before it, no ASSERT fails, all of them are full and hold the sectors of their own range,
the other buffers are as they were, and the slot is free again. -/
theorem requests_in_turn {s : AtaDriver α} (h : s.Idle) (bs : List Nat) (hnodup : bs.Nodup)
    (ranges : Nat → RegionRange) (hsize : ∀ b ∈ bs, 1 ≤ (ranges b).size ∧ (ranges b).size < 64)
    (hmade : ∀ b ∈ bs, s.buffers b = DiskBuffer.made α (ranges b)) (image : Nat → Nat → α) :
    ∃ s', (bs.flatMap fun b => request (ranges b) b).foldlM (step image) s = some s' ∧
      s'.requestBuffer = none ∧ s'.pending = [] ∧
      (∀ b ∈ bs, (s'.buffers b).full = true ∧ (s'.buffers b).range = ranges b ∧
        Filled image (s'.buffers b)) ∧
      ∀ b, b ∉ bs → s'.buffers b = s.buffers b := by
  have hidle := h.pending
  have hslot := h.requestBuffer
  have hnew : ∀ b ∈ bs, b ∉ s.requested := fun b _ => by simp [h.requested]
  clear h
  induction bs generalizing s with
  | nil => exact ⟨s, rfl, hslot, hidle, by simp, fun _ _ => rfl⟩
  | cons b bs ih =>
    obtain ⟨hb, hbs⟩ := List.nodup_cons.1 hnodup
    have hne : ∀ b' ∈ bs, b' ≠ b := fun b' hb' heq => hb (heq ▸ hb')
    obtain ⟨hpos, hlt⟩ := hsize b List.mem_cons_self
    have hbuf := hmade b List.mem_cons_self
    have hexact : Exact (s.buffers b) := hbuf ▸ (made_exact_iff hpos (by omega)).2 hlt
    obtain ⟨s₁, hrun₁, hdone⟩ := hexact.completed image hidle (hnew b List.mem_cons_self)
      (by rw [hbuf]; rfl)
    obtain ⟨s', hrun, hslot', hpend', hall, hother⟩ := ih hbs
      (fun b' hb' => hsize b' (List.mem_cons_of_mem b hb'))
      (fun b' hb' => (hdone.other b' (hne b' hb')).trans (hmade b' (List.mem_cons_of_mem b hb')))
      hdone.pending hdone.slot fun b' hb' => by
        rw [hdone.requested, List.mem_cons, not_or]
        exact ⟨hne b' hb', hnew b' (List.mem_cons_of_mem b hb')⟩
    have hrange : (s.buffers b).range = ranges b := by rw [hbuf]; rfl
    refine ⟨s', ?_, hslot', hpend', ?_, fun b' hb' => ?_⟩
    · rw [List.flatMap_cons, List.foldlM_append, ← hrange, hrun₁]
      exact hrun
    · intro b' hb'
      rcases List.mem_cons.1 hb' with rfl | hb'
      · rw [hother b' hb]
        exact ⟨hdone.full, hdone.range.trans hrange, hdone.filled⟩
      · exact hall b' hb'
    · rw [List.mem_cons, not_or] at hb'
      exact (hother b' hb'.2).trans (hdone.other b' hb'.1)

theorem requests_in_turn_two : ∃ s',
    ([4, 9].flatMap fun b => request ⟨b, 63⟩ b).foldlM (step Prod.mk) (requesting 63) = some s' ∧
      (s'.buffers 9).full = true := by
  obtain ⟨s', hrun, -, -, hall, -⟩ := requests_in_turn (idle_requesting 63) [4, 9]
    (by decide) (fun b => ⟨b, 63⟩) (fun _ _ => by simp) (fun _ _ => rfl) Prod.mk
  exact ⟨s', hrun, (hall 9 (by decide)).1⟩

end AtaDriver

end Ulysses
