import Mathlib.Logic.Function.Basic
import Ulysses.Lib.Reach
import Ulysses.Block.Region

/-!
# The ATA driver

`Disk::fulfill` and `ATAInterrupt` of `ata.cpp`. The disk answers read commands in the
order in which they were given, with one interrupt for each sector; its status is
always good. Sectors hold values of any type, so that a byte also says where it comes
from.

The driver has one slot for a request. A request that comes before the last one is
complete takes the slot, and the sectors of the first command land in the second
buffer (`second_request_mixes`). Requests made one at a time are all answered
(`requests_answered`).
-/

namespace Ulysses

open Lib

/-- The part of a `block::Buffer` that the driver uses; `data` is filled as far as it
has a value. -/
structure DiskBuffer (α : Type) where
  range : RegionRange
  byteSize : Nat
  full : Bool
  data : Nat → Option α

/-- `ATAInterrupt`, with the buffers, the sectors that the disk has still to deliver and
the buffers passed to `fulfill`. -/
structure AtaDriver (α : Type) where
  requestBuffer : Option Nat
  readBytes : Nat
  bytesPerRead : Nat
  buffers : Nat → DiskBuffer α
  pending : List Nat
  requested : List Nat

namespace AtaDriver

variable {α : Type}

/-- `add_request`. -/
def addRequest (b : Nat) (s : AtaDriver α) : AtaDriver α :=
  { s with
    requestBuffer := some b
    readBytes := 0
    bytesPerRead := 512
    requested := b :: s.requested }

/-- `request_lba`, whose count is a `u8`. -/
def requestLba (block count : Nat) (s : AtaDriver α) : Option (AtaDriver α) :=
  if 0 < count % 256 then
    some { s with pending := s.pending ++ List.range' block (count % 256) }
  else none

def fulfill (b : Nat) (s : AtaDriver α) : Option (AtaDriver α) :=
  let range := (s.buffers b).range
  (s.addRequest b).requestLba range.sector range.numSectors

section

variable (image : Nat → Nat → α)

/-- `read_pio` of `count` bytes of the sector that is ready. -/
def readPio (sector at_ count : Nat) (data : Nat → Option α) : Nat → Option α := fun i =>
  if at_ ≤ i ∧ i < at_ + count then some (image sector (i - at_)) else data i

/-- The buffer after `read_pio` and, at the end, `set_full`. -/
def receive (sector at_ count : Nat) (full : Bool) (buffer : DiskBuffer α) : DiskBuffer α :=
  { buffer with
    data := readPio image sector at_ count buffer.data
    full := buffer.full || full }

/-- `ATAInterrupt::handle`, when `sector` is ready. -/
def handle (sector : Nat) (s : AtaDriver α) : Option (AtaDriver α) :=
  match s.requestBuffer with
  | none => some s
  | some b =>
    let buffer := s.buffers b
    let numBytes := buffer.range.numBytes
    if s.readBytes ≥ numBytes then some s
    else if buffer.byteSize < numBytes then none
    else
      let readBytes := add32 s.readBytes s.bytesPerRead
      let full := decide (readBytes ≥ numBytes)
      some { s with
        readBytes
        buffers := Function.update s.buffers b
          (receive image sector s.readBytes s.bytesPerRead full buffer)
        requestBuffer := if full then none else some b }

inductive Event
  | fulfill (b : Nat)
  | interrupt

/-- Distinct buffers are requested, and the disk interrupts as long as it has sectors
to deliver. -/
def step (s : AtaDriver α) : Event → Option (AtaDriver α)
  | .fulfill b => if b ∈ s.requested then none else s.fulfill b
  | .interrupt =>
    match s.pending with
    | [] => none
    | sector :: pending => ({ s with pending } : AtaDriver α).handle image sector

/-- No request was made, and no buffer is full. -/
structure Idle (s : AtaDriver α) : Prop where
  requestBuffer : s.requestBuffer = none
  pending : s.pending = []
  requested : s.requested = []
  full : ∀ b, (s.buffers b).full = false

/-- All bytes of the buffer are those of its own range. -/
def Filled (buffer : DiskBuffer α) : Prop :=
  ∀ i < buffer.range.numBytes,
    buffer.data i = some (image (buffer.range.sector + i / 512) (i % 512))

/-- A full buffer has its own bytes, and the driver knows of every other one that was
requested. -/
structure Kept (s : AtaDriver α) : Prop where
  filled : ∀ b, (s.buffers b).full = true → Filled image (s.buffers b)
  outstanding : ∀ b ∈ s.requested, (s.buffers b).full = false → s.requestBuffer = some b

/-- A request finds the slot free. -/
def SlotFree (s : AtaDriver α) : Event → Prop
  | .fulfill _ => s.requestBuffer = none
  | .interrupt => True

instance (s : AtaDriver α) : (e : Event) → Decidable (s.SlotFree e)
  | .fulfill _ => inferInstanceAs (Decidable (_ = _))
  | .interrupt => .isTrue trivial

def Step (s s' : AtaDriver α) : Prop := ∃ e, s.step image e = some s'

/-- One step of a run in which requests are made one at a time. -/
def SingleStep (s s' : AtaDriver α) : Prop := ∃ e, s.SlotFree e ∧ s.step image e = some s'

/-- `n` sectors of the buffer in the slot have arrived and the others of the command are
to come. -/
structure Transfer (s : AtaDriver α) (b n : Nat) : Prop where
  requested : b ∈ s.requested
  unfinished : (s.buffers b).full = false
  readBytes : s.readBytes = 512 * n
  bytesPerRead : s.bytesPerRead = 512
  pending : ∃ m, n + m ≤ (s.buffers b).range.numBytes / 512 ∧
    s.pending = List.range' ((s.buffers b).range.sector + n) m
  arrived : ∀ i < 512 * n, (s.buffers b).data i =
    some (image ((s.buffers b).range.sector + i / 512) (i % 512))

structure Inv (s : AtaDriver α) : Prop extends Kept image s where
  idle : s.requestBuffer = none → s.pending = []
  busy : ∀ b, s.requestBuffer = some b → ∃ n, Transfer image s b n
  unrequested : ∀ b, b ∉ s.requested → (s.buffers b).full = false

end

section

variable {image : Nat → Nat → α} {s s' : AtaDriver α}

theorem Idle.inv (h : s.Idle) : s.Inv image where
  filled b hb := absurd hb (by simp [h.full b])
  outstanding b hb := absurd hb (by simp [h.requested])
  idle _ := h.pending
  busy b hb := absurd hb (by simp [h.requestBuffer])
  unrequested b _ := h.full b

theorem fulfill_spec {b : Nat} (hs : s.fulfill b = some s') :
    s'.requestBuffer = some b ∧ s'.readBytes = 0 ∧ s'.bytesPerRead = 512 ∧
      s'.buffers = s.buffers ∧ s'.requested = b :: s.requested ∧
      s'.pending = s.pending ++ List.range' (s.buffers b).range.sector
        ((s.buffers b).range.numSectors % 256) := by
  obtain ⟨-, hs⟩ := Option.ite_none_right_eq_some.1 hs
  obtain rfl := Option.some.inj hs
  exact ⟨rfl, rfl, rfl, rfl, rfl, rfl⟩

theorem Inv.fulfill (h : s.Inv image) {b : Nat} (hnew : b ∉ s.requested)
    (hfree : s.requestBuffer = none) (hs : s.fulfill b = some s') : s'.Inv image := by
  obtain ⟨hslot, hread, hper, hbuf, hreq, hpend⟩ := fulfill_spec hs
  refine ⟨⟨hbuf ▸ h.filled, ?_⟩, ?_, ?_, ?_⟩
  · intro b' hb' hfull
    rw [hreq] at hb'
    rw [hbuf] at hfull
    rcases List.mem_cons.1 hb' with rfl | hb'
    · exact hslot
    · have := h.outstanding b' hb' hfull
      rw [hfree] at this
      cases this
  · intro hnone
    rw [hslot] at hnone
    cases hnone
  · intro b' hb'
    rw [hslot] at hb'
    obtain rfl := Option.some.inj hb'
    refine ⟨0, by simp [hreq], by rw [hbuf]; exact h.unrequested _ hnew, hread, hper, ?_, by simp⟩
    refine ⟨(s.buffers b).range.numSectors % 256, ?_, ?_⟩
    · rw [hbuf, RegionRange.numSectors_mod, Nat.zero_add]
      exact Nat.mod_le _ _
    · rw [hpend, hbuf, h.idle hfree, List.nil_append, Nat.add_zero]
  · intro b' hb'
    rw [hreq, List.mem_cons, not_or] at hb'
    rw [hbuf]
    exact h.unrequested b' hb'.2

theorem handle_spec {sector b : Nat} (hs : s.handle image sector = some s')
    (hslot : s.requestBuffer = some b) (hread : s.readBytes < (s.buffers b).range.numBytes) :
    ∃ full : Bool,
      (full = true ↔ (s.buffers b).range.numBytes ≤ add32 s.readBytes s.bytesPerRead) ∧
      s'.requestBuffer = (if full then none else some b) ∧
      s'.buffers = Function.update s.buffers b
        (receive image sector s.readBytes s.bytesPerRead full (s.buffers b)) ∧
      s'.readBytes = add32 s.readBytes s.bytesPerRead ∧ s'.bytesPerRead = s.bytesPerRead ∧
      s'.pending = s.pending ∧ s'.requested = s.requested := by
  unfold handle at hs
  simp only [hslot] at hs
  rw [if_neg (Nat.not_le.2 hread)] at hs
  obtain ⟨-, hs⟩ := Option.ite_none_left_eq_some.1 hs
  obtain rfl := Option.some.inj hs
  exact ⟨_, decide_eq_true_iff, rfl, rfl, rfl, rfl, rfl, rfl⟩

theorem Transfer.arrive {b n : Nat} (h : Transfer image s b n) (i : Nat) (hi : i < 512 * (n + 1)) :
    readPio image ((s.buffers b).range.sector + n) s.readBytes s.bytesPerRead
      (s.buffers b).data i = some (image ((s.buffers b).range.sector + i / 512) (i % 512)) := by
  unfold readPio
  rw [h.readBytes, h.bytesPerRead]
  by_cases hnew : 512 * n ≤ i
  · have hdiv : i / 512 = n := by omega
    have hmod : i - 512 * n = i % 512 := by omega
    rw [if_pos ⟨hnew, by omega⟩, hdiv, hmod]
  · rw [if_neg (fun hc => hnew hc.1)]
    exact h.arrived i (by omega)

theorem Transfer.next {b n sector : Nat} {pending : List Nat} (h : Transfer image s b n)
    (hpend : s.pending = sector :: pending) :
    sector = (s.buffers b).range.sector + n ∧
      ∃ m, n + 1 + m ≤ (s.buffers b).range.numBytes / 512 ∧
        pending = List.range' ((s.buffers b).range.sector + (n + 1)) m := by
  obtain ⟨m, hm, hrange⟩ := h.pending
  cases m with
  | zero =>
    rw [hrange] at hpend
    cases hpend
  | succ m =>
    rw [hrange, List.range'_succ, List.cons.injEq] at hpend
    exact ⟨hpend.1.symm, m, by omega, hpend.2.symm⟩

/-- What an interrupt makes of a transfer: one more sector has arrived, and `m` are left. -/
structure Received (image : Nat → Nat → α) (s s' : AtaDriver α) (b n m : Nat) (full : Bool) :
    Prop where
  done : full = true ↔ (s.buffers b).range.numBytes ≤ 512 * (n + 1)
  left : n + 1 + m ≤ (s.buffers b).range.numBytes / 512
  slot : s'.requestBuffer = if full then none else some b
  range : (s'.buffers b).range = (s.buffers b).range
  full_eq : (s'.buffers b).full = full
  data : ∀ i < 512 * (n + 1), (s'.buffers b).data i =
    some (image ((s'.buffers b).range.sector + i / 512) (i % 512))
  other : ∀ b', b' ≠ b → s'.buffers b' = s.buffers b'
  readBytes : s'.readBytes = 512 * (n + 1)
  bytesPerRead : s'.bytesPerRead = 512
  pending : s'.pending = List.range' ((s.buffers b).range.sector + (n + 1)) m
  requested : s'.requested = s.requested

theorem Transfer.received {b n sector : Nat} {pending : List Nat} (ht : Transfer image s b n)
    (hslot : s.requestBuffer = some b) (hpend : s.pending = sector :: pending)
    (hs : ({ s with pending } : AtaDriver α).handle image sector = some s') :
    ∃ m full, Received image s s' b n m full := by
  obtain ⟨rfl, m, hm, rfl⟩ := ht.next hpend
  have hbytes := (s.buffers b).range.numBytes_mod
  have hbound := (s.buffers b).range.numBytes_lt
  have hnext : add32 s.readBytes s.bytesPerRead = 512 * (n + 1) := by
    rw [ht.readBytes, ht.bytesPerRead, add32_eq (by omega)]
    omega
  obtain ⟨full, hfull, hslot', hbuf, hread, hper, hpe, hreq⟩ :=
    handle_spec hs hslot (by simp only [ht.readBytes]; omega)
  simp only [hnext] at hfull
  have hrange : (s'.buffers b).range = (s.buffers b).range := by
    rw [hbuf, Function.update_self]
    rfl
  refine ⟨m, full, hfull, hm, hslot', hrange, ?_, ?_, fun b' hb' => ?_, hread.trans hnext,
    hper.trans ht.bytesPerRead, hpe, hreq⟩
  · rw [hbuf, Function.update_self, receive, ht.unfinished, Bool.false_or]
  · rw [hrange, hbuf, Function.update_self]
    exact ht.arrive
  · rw [hbuf, Function.update_of_ne hb']

theorem Inv.interrupt (h : s.Inv image) {sector : Nat} {pending : List Nat}
    (hpend : s.pending = sector :: pending)
    (hs : ({ s with pending } : AtaDriver α).handle image sector = some s') : s'.Inv image := by
  cases hslot : s.requestBuffer with
  | none =>
    rw [h.idle hslot] at hpend
    cases hpend
  | some b =>
    obtain ⟨n, ht⟩ := h.busy b hslot
    obtain ⟨m, full, hr⟩ := ht.received hslot hpend hs
    refine ⟨⟨?_, ?_⟩, ?_, ?_, ?_⟩
    · intro b' hb'
      by_cases heq : b' = b
      · subst heq
        intro i hi
        rw [hr.range] at hi
        exact hr.data i (Nat.lt_of_lt_of_le hi (hr.done.1 (hr.full_eq.symm.trans hb')))
      · rw [hr.other b' heq] at hb' ⊢
        exact h.filled b' hb'
    · intro b' hmem hb'
      rw [hr.requested] at hmem
      by_cases heq : b' = b
      · subst heq
        rw [hr.slot, ← hr.full_eq, hb']
        rfl
      · rw [hr.other b' heq] at hb'
        have := h.outstanding b' hmem hb'
        rw [hslot] at this
        exact absurd (Option.some.inj this).symm heq
    · intro hnone
      rw [hr.slot] at hnone
      have hdone : full = true := by
        by_contra hne
        rw [if_neg hne] at hnone
        cases hnone
      have hzero : m = 0 := by
        have := hr.done.1 hdone
        have := hr.left
        omega
      rw [hr.pending, hzero]
      rfl
    · intro b' hb'
      rw [hr.slot] at hb'
      obtain ⟨hmore, hb'⟩ := Option.ite_none_left_eq_some.1 hb'
      obtain rfl := Option.some.inj hb'
      rw [Bool.not_eq_true] at hmore
      refine ⟨n + 1, hr.requested ▸ ht.requested, hr.full_eq.trans hmore, hr.readBytes,
        hr.bytesPerRead, ⟨m, ?_, ?_⟩, hr.data⟩
      · rw [hr.range]
        exact hr.left
      · rw [hr.pending, hr.range]
    · intro b' hb'
      rw [hr.requested] at hb'
      have heq : b' ≠ b := by
        rintro rfl
        exact hb' ht.requested
      rw [hr.other b' heq]
      exact h.unrequested b' hb'

theorem Inv.step (h : s.Inv image) {e : Event} (hok : s.SlotFree e)
    (hs : s.step image e = some s') : s'.Inv image := by
  cases e with
  | fulfill b =>
    obtain ⟨hnew, hs⟩ := Option.ite_none_left_eq_some.1 hs
    exact h.fulfill hnew hok hs
  | interrupt =>
    simp only [AtaDriver.step] at hs
    split at hs
    · cases hs
    · next sector pending hpend => exact h.interrupt hpend hs

/-- A request that finds the slot taken makes the driver forget a buffer. -/
theorem Inv.forgets (h : s.Inv image) {b b' : Nat} (hslot : s.requestBuffer = some b')
    (hs : s.step image (.fulfill b) = some s') : ¬s'.Kept image := by
  intro hkept
  obtain ⟨n, ht⟩ := h.busy b' hslot
  obtain ⟨hnew, hs⟩ := Option.ite_none_left_eq_some.1 hs
  obtain ⟨hslot', -, -, hbuf, hreq, -⟩ := fulfill_spec hs
  have hmem : b' ∈ s'.requested := by
    rw [hreq]
    exact List.mem_cons_of_mem b ht.requested
  have hrec := hkept.outstanding b' hmem (by rw [hbuf]; exact ht.unfinished)
  rw [hslot'] at hrec
  exact hnew (Option.some.inj hrec ▸ ht.requested)

end

/-- As long as every request finds the slot free, no request is lost or mixed, and one
that does not is where a buffer is forgotten. -/
theorem requests_answered {image : Nat → Nat → α} {s : AtaDriver α}
    (h : Reach Idle (SingleStep image) s) :
    s.Kept image ∧ ∀ b s', s.step image (.fulfill b) = some s' →
      (s'.Kept image ↔ s.requestBuffer = none) := by
  have hinv := h.invariant (I := Inv image) (fun _ hidle => hidle.inv)
    fun _ _ hinv ⟨_, hok, hs⟩ => hinv.step hok hs
  refine ⟨hinv.toKept, fun b s' hs => ⟨fun hkept => ?_, fun hfree => ?_⟩⟩
  · by_contra hne
    obtain ⟨b', hslot⟩ := Option.ne_none_iff_exists'.1 hne
    exact hinv.forgets hslot hs hkept
  · exact (hinv.step (e := .fulfill b) hfree hs).toKept

/-- Buffers for single regions, before any request; each byte tells its sector. -/
def unused : AtaDriver (Nat × Nat) where
  requestBuffer := none
  readBytes := 0
  bytesPerRead := 0
  buffers b := ⟨⟨b, 1⟩, 1024, false, fun _ => none⟩
  pending := []
  requested := []

theorem idle_unused : unused.Idle := ⟨rfl, rfl, rfl, fun _ => rfl⟩

/-- A run from there in which every request finds the slot free. -/
def runSingle (es : List Event) : Option (AtaDriver (Nat × Nat)) :=
  es.foldlM (fun s e => if s.SlotFree e then s.step Prod.mk e else none) unused

theorem requests_answered_two :
    ∃ s, runSingle [.fulfill 4, .interrupt, .interrupt, .fulfill 7, .interrupt] = some s ∧
      (s.buffers 4).full = true ∧ s.requestBuffer = some 7 ∧ s.Kept Prod.mk := by
  have hrun : (runSingle [.fulfill 4, .interrupt, .interrupt, .fulfill 7, .interrupt]).map
      (fun s => ((s.buffers 4).full, s.requestBuffer)) = some (true, some 7) := by
    decide +kernel
  obtain ⟨s, hs, heq⟩ := Option.map_eq_some_iff.1 hrun
  obtain ⟨hfull, hslot⟩ := Prod.mk.inj heq
  exact ⟨s, hs, hfull, hslot, (requests_answered (Reach.foldlM
    (fun _ e _ hx => ⟨e, Option.ite_none_right_eq_some.1 hx⟩) (.init idle_unused) hs)).1⟩

/-- A run from there. -/
def runAny (es : List Event) : Option (AtaDriver (Nat × Nat)) := es.foldlM (step Prod.mk) unused

/-- The sectors of the first request complete the second one, and the first one is
forgotten. -/
theorem second_request_mixes :
    ∃ s : AtaDriver (Nat × Nat), Reach Idle (Step Prod.mk) s ∧
      ((s.buffers 7).full = true ∧ ¬Filled Prod.mk (s.buffers 7)) ∧
      4 ∈ s.requested ∧ (s.buffers 4).full = false ∧ s.requestBuffer ≠ some 4 := by
  have hrun : (runAny [.fulfill 4, .fulfill 7, .interrupt, .interrupt]).map (fun s =>
      ((s.buffers 7).full, (s.buffers 7).range, (s.buffers 7).data 0)) =
      some (true, ⟨7, 1⟩, some (8, 0)) := by
    decide +kernel
  have hlost : (runAny [.fulfill 4, .fulfill 7, .interrupt, .interrupt]).map (fun s =>
      (s.requested, (s.buffers 4).full, s.requestBuffer)) = some ([7, 4], false, none) := by
    decide +kernel
  obtain ⟨s, hs, heq⟩ := Option.map_eq_some_iff.1 hrun
  rw [hs, Option.map_some] at hlost
  simp only [Prod.mk.injEq] at heq
  simp only [Option.some.injEq, Prod.mk.injEq] at hlost
  obtain ⟨h7, hrange, hdata⟩ := heq
  obtain ⟨hreq, h4, hslot⟩ := hlost
  refine ⟨s, Reach.foldlM (fun _ e _ hx => ⟨e, hx⟩) (.init idle_unused) hs, ⟨h7, fun hfilled => ?_⟩,
    by simp [hreq], h4, by simp [hslot]⟩
  have h0 := hfilled 0 (by rw [hrange]; decide)
  rw [hdata, hrange] at h0
  simp [RegionRange.sector, mul32] at h0

end AtaDriver

end Ulysses
