import Ulysses.Process

/-!
# Filling a page on demand

`fulfill` writes to a page by calls of `memset` and of the node's `read`, a different
sequence of them on each of its two branches (`fillSteps`). Each call stays on the page
and inside the part of the file that is mapped, and together they leave the bytes of the
mapping there (`fulfill_fills_page`).
-/

namespace Ulysses

open Lib

/-- A call by which `fulfill` writes to memory. -/
inductive FillStep
  | zero (address size : Nat)
  | read (offset size buffer : Nat)
deriving DecidableEq

namespace FillStep

/-- What the call does; `none` is a call through a null node. -/
def run (node : Option Fs.Node) (mem : Bytes) : FillStep → Option Bytes
  | .zero address size => some (mem.fill address size fun _ => 0)
  | .read offset size buffer => node.map fun n => n.read offset size buffer mem

/-- The call writes between `lo` and `hi` only. -/
def WritesIn (lo hi : Nat) : FillStep → Prop
  | .zero address size => lo ≤ address ∧ address + size ≤ hi
  | .read _ size buffer => lo ≤ buffer ∧ buffer + size ≤ hi

/-- The call reads bytes `lo` to `hi` of the file only. -/
def ReadsIn (lo hi : Nat) : FillStep → Prop
  | .zero _ _ => True
  | .read offset size _ => lo ≤ offset ∧ offset + size ≤ hi

end FillStep

namespace MemoryMapping

/-- The calls for the first page of a mapping that starts inside a page. -/
def firstSteps (pageAddress : Nat) (m : MemoryMapping) : List FillStep :=
  let targetSize := sub32 (add32 pageAddress pageSize) m.address
  let readSize := min targetSize m.fileSize
  .zero pageAddress (sub32 m.address pageAddress) :: .read m.offset readSize m.address ::
    if readSize < targetSize then [.zero (add32 m.address readSize) (sub32 targetSize readSize)]
    else []

/-- The calls for a page that begins inside the mapping. -/
def restSteps (pageAddress : Nat) (m : MemoryMapping) : List FillStep :=
  let requestOffset := sub32 pageAddress m.address
  let targetSize :=
    if requestOffset > m.fileSize then 0 else min (sub32 m.fileSize requestOffset) pageSize
  let zeroFillSize := sub32 pageSize targetSize
  (if targetSize > 0 then [.read (add32 m.offset requestOffset) targetSize pageAddress] else []) ++
    if zeroFillSize > 0 then [.zero (add32 pageAddress targetSize) zeroFillSize] else []

def fillSteps (request : Nat) (m : MemoryMapping) : List FillStep :=
  let pageAddress := request &&& 0xFFFFF000
  if pageAddress < m.address then m.firstSteps pageAddress else m.restSteps pageAddress

/-! ## The calls are those of `fulfill` -/

theorem fulfillFirst_eq_steps (m : MemoryMapping) (pageAddress : Nat) (mem : Bytes) :
    m.fulfillFirst pageAddress mem =
      (m.firstSteps pageAddress).foldlM (FillStep.run m.node) mem := by
  unfold fulfillFirst firstSteps
  cases m.node with
  | none => rfl
  | some n =>
    simp only
    split <;> rfl

theorem fulfillRest_eq_steps (m : MemoryMapping) (pageAddress : Nat) (mem : Bytes) :
    m.fulfillRest pageAddress mem = (m.restSteps pageAddress).foldlM (FillStep.run m.node) mem := by
  unfold fulfillRest restSteps
  simp only
  generalize (if sub32 pageAddress m.address > m.fileSize then 0 else _) = size
  rw [List.foldlM_append]
  by_cases hsize : size > 0
  · rw [if_pos hsize, if_pos hsize]
    cases m.node with
    | none => rfl
    | some n =>
      by_cases hzero : sub32 pageSize size > 0
      · simp [FillStep.run, hzero]
      · simp [FillStep.run, hzero]
  · rw [if_neg hsize, if_neg hsize]
    by_cases hzero : sub32 pageSize size > 0
    · simp [FillStep.run, hzero]
    · simp [hzero]

/-- `fulfill` allocates the page and makes the calls in order. -/
theorem fulfill_eq_steps (m : MemoryMapping) (request : Nat) (s : Space) :
    m.fulfill request s = ((m.fillSteps request).foldlM (FillStep.run m.node) s.mem).map
      fun mem => { s.allocateUser (request &&& 0xFFFFF000) m.writableP with mem } := by
  unfold fulfill fillSteps
  simp only [Space.allocateUser_mem]
  split
  · rw [fulfillFirst_eq_steps]
  · rw [fulfillRest_eq_steps]

/-! ## Where the calls read and write -/

section

variable {m : MemoryMapping} {pageAddress : Nat} {step : FillStep}

theorem firstSteps_in (hlt : pageAddress < m.address) (hin : m.address < pageAddress + pageSize)
    (hwrap : pageAddress + pageSize < 4294967296) (hstep : step ∈ m.firstSteps pageAddress) :
    step.ReadsIn m.offset (m.offset + m.fileSize) ∧
      step.WritesIn pageAddress (pageAddress + pageSize) := by
  unfold pageSize at *
  unfold firstSteps at hstep
  unfold pageSize at hstep
  rw [add32_eq hwrap, sub32_eq (by omega) (by omega), sub32_eq (by omega) (by omega)] at hstep
  simp only at hstep
  generalize hread : min (pageAddress + 4096 - m.address) m.fileSize = readSize at hstep
  rw [add32_eq (by omega), sub32_eq (by omega) (by omega), List.mem_cons, List.mem_cons] at hstep
  rcases hstep with rfl | rfl | hstep
  · exact ⟨trivial, by omega, by omega⟩
  · exact ⟨⟨by omega, by omega⟩, by omega, by omega⟩
  · split at hstep
    · obtain rfl := List.mem_singleton.1 hstep
      exact ⟨trivial, by omega, by omega⟩
    · cases hstep

theorem restSteps_in (hge : m.address ≤ pageAddress)
    (hwrap : pageAddress + pageSize < 4294967296) (hsize : m.fileSize < 4294967296)
    (hfile : m.offset + m.fileSize ≤ 4294967296) (hstep : step ∈ m.restSteps pageAddress) :
    step.ReadsIn m.offset (m.offset + m.fileSize) ∧
      step.WritesIn pageAddress (pageAddress + pageSize) := by
  unfold pageSize at *
  unfold restSteps at hstep
  unfold pageSize at hstep
  rw [sub32_eq hge (by omega)] at hstep
  -- the part of the page that comes from the file, and what is left of the file there
  obtain ⟨size, heq, hle, hend⟩ : ∃ size, (if pageAddress - m.address > m.fileSize then 0
      else min (sub32 m.fileSize (pageAddress - m.address)) 4096) = size ∧ size ≤ 4096 ∧
      (0 < size → pageAddress - m.address + size ≤ m.fileSize) := by
    refine ⟨_, rfl, ?_, ?_⟩
    · split <;> omega
    · split
      · omega
      · rw [sub32_eq (by omega) (by omega)]
        omega
  simp only [heq] at hstep
  rw [sub32_eq hle (by omega), add32_eq (show pageAddress + size < 4294967296 by omega)] at hstep
  rcases List.mem_append.1 hstep with hstep | hstep
  · split at hstep
    · next hpos =>
      obtain rfl := List.mem_singleton.1 hstep
      have hend := hend hpos
      rw [add32_eq (by omega)]
      exact ⟨⟨by omega, by omega⟩, by omega, by omega⟩
    · cases hstep
  · split at hstep
    · obtain rfl := List.mem_singleton.1 hstep
      exact ⟨trivial, by omega, by omega⟩
    · cases hstep

end

/-- The pages of a mapping end below the last page of the address space, so none of them
wraps. -/
theorem page_of_containsP {address memSize offset size flags request : Nat}
    {node : Option Fs.Node} (haddr : address < 4294967296)
    (hin : (make address memSize node offset size flags).containsP request = true) :
    request / pageSize * pageSize + pageSize < 4294967296 ∧
      address < request / pageSize * pageSize + pageSize := by
  obtain ⟨hlo, hhi⟩ := Bool.and_eq_true_iff.1 hin
  have hlo : request ≥ address &&& 0xFFFFF000 := of_decide_eq_true hlo
  have hhi : request < alignUp (add32 address memSize) pageSize := of_decide_eq_true hhi
  rw [and_pageMask haddr] at hlo
  unfold alignUp at hhi
  have hlt := add32_lt (add32 address memSize) (pageSize - 1)
  generalize add32 (add32 address memSize) (pageSize - 1) = fin at hhi hlt
  unfold pageSize at *
  omega

/-- After `fulfill` every byte of the page is the byte of the file that the mapping has
there, or zero outside its file part; nothing outside the page changed, and no byte of the
file outside the mapped part was read. -/
theorem fulfill_fills_page {address memSize offset size flags request : Nat} {node : Fs.Node}
    (haddr : address < 4294967296) (hsize : size < 4294967296)
    (hfile : offset + size ≤ 4294967296)
    (hin : (make address memSize (some node) offset size flags).containsP request = true)
    (s : Space) :
    ∃ s', (make address memSize (some node) offset size flags).fulfill request s = some s' ∧
      (∀ a, a / pageSize = request / pageSize → s'.mem a =
        if address ≤ a ∧ a < address + size then node.bytes (offset + (a - address)) else 0) ∧
      (∀ a, a / pageSize ≠ request / pageSize → s'.mem a = s.mem a) ∧
      ((make address memSize (some node) offset size flags).fillSteps request).foldlM
        (FillStep.run (some node)) s.mem = some s'.mem ∧
      ∀ step ∈ (make address memSize (some node) offset size flags).fillSteps request,
        step.ReadsIn offset (offset + size) ∧
          step.WritesIn (request / pageSize * pageSize)
            (request / pageSize * pageSize + pageSize) := by
  obtain ⟨hwrap, hpage⟩ := page_of_containsP haddr hin
  have hmask : request &&& 0xFFFFF000 = request / pageSize * pageSize := by
    unfold pageSize at *
    exact and_pageMask (by omega)
  generalize hm : make address memSize (some node) offset size flags = m at hin ⊢
  have hnode : m.node = some node := hm ▸ rfl
  obtain ⟨rfl, rfl, rfl⟩ : m.address = address ∧ m.offset = offset ∧ m.fileSize = size := by
    rw [← hm]
    exact ⟨rfl, rfl, rfl⟩
  obtain ⟨s', hfulfill, hfilled, -⟩ := fulfill_spec hnode hwrap hpage hsize s
  refine ⟨s', hfulfill, fun a ha => ?_, fun a ha => hfilled.off a ?_, ?_, fun step hstep => ?_⟩
  · rw [hfilled.page a (by unfold pageSize at *; omega) (by unfold pageSize at *; omega),
      byteAt_some hnode]
    split
    · next h => rw [fileOffset_eq h.1 h.2 hfile]
    · rfl
  · unfold pageSize at *
    omega
  · rw [fulfill_eq_steps, Option.map_eq_some_iff, hnode] at hfulfill
    obtain ⟨mem, hrun, rfl⟩ := hfulfill
    exact hrun
  · unfold fillSteps at hstep
    simp only [hmask] at hstep
    split at hstep
    · next hlt => exact firstSteps_in hlt hpage hwrap hstep
    · next hge => exact restSteps_in (Nat.le_of_not_lt hge) hwrap hsize hfile hstep

/-- A file whose bytes count up, mapped from its byte 16 on at the middle of a page. -/
theorem fulfill_fills_page_first :
    ∃ s', (make 0x1800 0x1000 (some ⟨UInt8.ofNat, 0x2000⟩) 16 0x900 eAll).fulfill 0x1900
        ⟨fun _ => false, fun _ => false, fun _ => 0xFF⟩ = some s' ∧
      s'.mem 0x17FF = 0 ∧ s'.mem 0x1801 = 17 ∧ s'.mem 0x2000 = 0xFF := by
  obtain ⟨s', hfulfill, hpage, hoff, -⟩ := @fulfill_fills_page 0x1800 0x1000 16 0x900 eAll 0x1900
    ⟨UInt8.ofNat, 0x2000⟩ (by decide) (by decide) (by decide) (by decide)
    ⟨fun _ => false, fun _ => false, fun _ => 0xFF⟩
  refine ⟨s', hfulfill, ?_, ?_, hoff 0x2000 (by decide)⟩
  · rw [hpage 0x17FF (by decide), if_neg (by decide)]
  · rw [hpage 0x1801 (by decide), if_pos (by decide)]
    decide

end MemoryMapping

end Ulysses
