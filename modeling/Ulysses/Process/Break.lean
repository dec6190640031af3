import Ulysses.Lib.Reach
import Ulysses.Process

/-!
# The program break

`change_heap` and `set_brk` of `process.cpp`, which the calls `sbrk` and `brk` reach. The
break is the end of the mapping `break_mapping_` points to; a process that has no such
mapping yet gets one at `cDefaultBreakStart`.

The break never decreases, and the memory below it belongs to the mapping. `change_heap`
returns the break before the call. `set_brk` returns the break after the call only if it
moved it there: it answers a query with `cDefaultBreakStart` wherever the break is, and a
request to reduce the break with the address that was asked for (`brk_calls`).
-/

namespace Ulysses

open Lib

namespace MemoryMapping

def endAddress (m : MemoryMapping) : Nat := add32 m.address m.memSize

def enlargeMemSize (amount : Nat) (m : MemoryMapping) : MemoryMapping :=
  { m with
    memSize := add32 m.memSize amount
    pageEnd := alignUp (add32 m.address (add32 m.memSize amount)) pageSize }

end MemoryMapping

namespace Process

def defaultBreakStart : Nat := 0x2000000

/-- The mapping that `break_mapping_` points to. -/
def brk (p : Process) : Option MemoryMapping := p.breakMapping.bind fun i => p.mmaps[i]?

/-- Append a mapping for the break. -/
def placeBrk (addr bytes : Nat) (p : Process) : Process :=
  { p with
    mmaps := p.mmaps ++ [.make addr bytes none 0 0 MemoryMapping.eAll]
    breakMapping := some p.mmaps.length }

/-- `break_mapping_->enlarge_mem_size(amount)`. -/
def growBrk (amount : Nat) (p : Process) : Process :=
  match p.breakMapping with
  | some i => { p with mmaps := p.mmaps.modify i fun m => m.enlargeMemSize amount }
  | none => p

def changeHeap (bytes : Int) (p : Process) : Nat × Process :=
  match p.brk with
  | none => (0x2000000, p.placeBrk 0x2000000 (u32 bytes))
  | some m => (m.endAddress, p.growBrk (u32 bytes))

def setBrk (target : Nat) (p : Process) : Nat × Process :=
  match p.brk with
  | none =>
    if target = 0 then (defaultBreakStart, p.placeBrk defaultBreakStart 0)
    else if target < defaultBreakStart then (target, p)
    else (target, p.placeBrk defaultBreakStart (sub32 target defaultBreakStart))
  | some m =>
    if target = 0 then (defaultBreakStart, p)
    else if target < m.endAddress then (target, p)
    else (target, p.growBrk (sub32 target m.endAddress))

/-- The calls that move the break. -/
inductive BreakCall
  | setBrk (target : Nat)
  | changeHeap (bytes : Int)

def apply (p : Process) : BreakCall → Nat × Process
  | .setBrk target => p.setBrk target
  | .changeHeap bytes => p.changeHeap bytes

/-! ## What the calls are to do -/

/-- The break in force; before there is a mapping for it, the place where one would go. -/
def programBreak (p : Process) : Nat := p.brk.elim defaultBreakStart MemoryMapping.endAddress

/-- What a call is to return: `set_brk` the break after it, `change_heap` the one before. -/
def ReturnsBreak (c : BreakCall) (p : Process) : Prop :=
  match c with
  | .setBrk _ => (p.apply c).2.brk.map MemoryMapping.endAddress = some (p.apply c).1
  | .changeHeap _ => (p.apply c).1 = p.programBreak

/-- The break after the call is no lower, and the memory up to it is in the mapping. -/
structure BreakKept (c : BreakCall) (p : Process) : Prop where
  returns : ReturnsBreak c p
  mono : p.programBreak ≤ (p.apply c).2.programBreak
  contained : ∀ m, (p.apply c).2.brk = some m →
    ∀ a, m.address ≤ a → a < m.endAddress → m.containsP a = true

/-- The arguments are numbers of their types, none negative, and the end of the mapping can
be rounded up to a page. -/
def NoWrap (c : BreakCall) (p : Process) : Prop :=
  match c with
  | .setBrk target => target + 4095 < 4294967296
  | .changeHeap bytes => 0 ≤ bytes ∧ p.programBreak + bytes + 4095 < 4294967296

/-- The call is one that `set_brk` answers with the break: a query while the break is at its
default start, or a request that does not reduce it. -/
def Granted (c : BreakCall) (p : Process) : Prop :=
  match c with
  | .setBrk target =>
    if target = 0 then p.programBreak = defaultBreakStart else p.programBreak ≤ target
  | .changeHeap _ => True

instance : (c : BreakCall) → (p : Process) → Decidable (ReturnsBreak c p)
  | .setBrk _, _ => inferInstanceAs (Decidable (_ = _))
  | .changeHeap _, _ => inferInstanceAs (Decidable (_ = _))

instance : (c : BreakCall) → (p : Process) → Decidable (NoWrap c p)
  | .setBrk _, _ => inferInstanceAs (Decidable (_ < _))
  | .changeHeap _, _ => inferInstanceAs (Decidable (_ ∧ _))

instance : (c : BreakCall) → (p : Process) → Decidable (Granted c p)
  | .setBrk target, p => inferInstanceAs (Decidable
      (if target = 0 then p.programBreak = defaultBreakStart else p.programBreak ≤ target))
  | .changeHeap _, _ => .isTrue trivial

/-- No break yet, or one that `position_brk` has placed. -/
def BreakStart (p : Process) : Prop :=
  p.breakMapping = none ∨ ∃ q fin, fin + 4095 < 4294967296 ∧ p = positionBrk fin q

/-! ## The mapping of the break -/

/-- A mapping that ends where its fields say. -/
structure BreakMapping (m : MemoryMapping) : Prop where
  fits : m.address + m.memSize + 4095 < 4294967296
  start : m.pageStart = m.address &&& 0xFFFFF000
  fin : m.pageEnd = alignUp (add32 m.address m.memSize) pageSize

/-- The pointer is null or leads to such a mapping. -/
def BreakOk (p : Process) : Prop :=
  p.breakMapping = none ∨
    ∃ i m, p.breakMapping = some i ∧ p.mmaps[i]? = some m ∧ BreakMapping m

theorem BreakMapping.endAddress_eq {m : MemoryMapping} (h : BreakMapping m) :
    m.endAddress = m.address + m.memSize :=
  add32_eq (by have := h.fits; omega)

theorem BreakMapping.contains {m : MemoryMapping} (h : BreakMapping m) {a : Nat}
    (hlo : m.address ≤ a) (hhi : a < m.endAddress) : m.containsP a = true := by
  have hfits := h.fits
  rw [h.endAddress_eq] at hhi
  have hstart : m.pageStart ≤ a := by
    rw [h.start, and_pageMask (by omega)]
    omega
  have hend : a < m.pageEnd := by
    rw [h.fin, alignUp, add32_eq (show m.address + m.memSize < 4294967296 by omega)]
    unfold pageSize
    rw [add32_eq (by omega)]
    omega
  exact Bool.and_eq_true_iff.2 ⟨decide_eq_true hstart, decide_eq_true hend⟩

theorem BreakMapping.enlarge {m : MemoryMapping} (h : BreakMapping m) {amount : Nat}
    (hfits : m.endAddress + amount + 4095 < 4294967296) :
    BreakMapping (m.enlargeMemSize amount) ∧
      (m.enlargeMemSize amount).endAddress = m.endAddress + amount := by
  have hend := h.endAddress_eq
  have hsize : add32 m.memSize amount = m.memSize + amount := add32_eq (by omega)
  have hm : BreakMapping (m.enlargeMemSize amount) := by
    refine ⟨?_, h.start, rfl⟩
    show m.address + add32 m.memSize amount + 4095 < 4294967296
    omega
  refine ⟨hm, ?_⟩
  rw [hm.endAddress_eq]
  show m.address + add32 m.memSize amount = _
  omega

/-! ## The two ways the break changes -/

section

variable {p : Process}

/-- The break is at `fin` now. -/
def BreakAt (fin : Nat) (p : Process) : Prop :=
  p.BreakOk ∧ ∃ m, p.brk = some m ∧ m.endAddress = fin

theorem breakAt_placeBrk {addr bytes : Nat} (h : addr + bytes + 4095 < 4294967296) (p : Process) :
    (p.placeBrk addr bytes).BreakAt (addr + bytes) := by
  have hm : BreakMapping (.make addr bytes none 0 0 MemoryMapping.eAll) := ⟨h, rfl, rfl⟩
  refine ⟨.inr ⟨p.mmaps.length, _, rfl, ?_, hm⟩, _, ?_, hm.endAddress_eq⟩
  · simp [placeBrk]
  · simp [brk, placeBrk]

theorem breakOk_of_breakStart (h : p.BreakStart) : p.BreakOk := by
  rcases h with h | ⟨q, fin, hfin, rfl⟩
  · exact .inl h
  · exact (breakAt_placeBrk (show fin + 0 + 4095 < 4294967296 by omega) q).1

theorem breakAt_growBrk (h : p.BreakOk) {m : MemoryMapping} (hbrk : p.brk = some m) {amount : Nat}
    (hfits : m.endAddress + amount + 4095 < 4294967296) :
    (p.growBrk amount).BreakAt (m.endAddress + amount) := by
  rcases h with h | ⟨i, m', hi, hm', hok⟩
  · simp [brk, h] at hbrk
  obtain rfl : m' = m := by simpa [brk, hi, hm'] using hbrk
  obtain ⟨hok', hend⟩ := hok.enlarge hfits
  have hpointer : (p.growBrk amount).breakMapping = some i := by simp [growBrk, hi]
  have hget : (p.growBrk amount).mmaps[i]? = some (m'.enlargeMemSize amount) := by
    simp [growBrk, hi, hm']
  refine ⟨.inr ⟨i, _, hpointer, hget, hok'⟩, _, ?_, hend⟩
  rw [brk, hpointer, Option.bind_some, hget]

theorem BreakOk.cases (h : p.BreakOk) :
    (p.brk = none ∧ p.programBreak = defaultBreakStart) ∨
      ∃ m, p.brk = some m ∧ p.programBreak = m.endAddress ∧ BreakMapping m := by
  rcases h with h | ⟨i, m, hi, hm, hok⟩
  · have hbrk : p.brk = none := by simp [brk, h]
    exact .inl ⟨hbrk, by rw [programBreak, hbrk]; rfl⟩
  · have hbrk : p.brk = some m := by simp [brk, hi, hm]
    exact .inr ⟨m, hbrk, by rw [programBreak, hbrk]; rfl, hok⟩

theorem BreakAt.programBreak_eq {fin : Nat} (h : p.BreakAt fin) : p.programBreak = fin := by
  obtain ⟨-, m, hbrk, rfl⟩ := h
  rw [programBreak, hbrk]
  rfl

theorem changeHeap_spec (h : p.BreakOk) {bytes : Int} (hc : NoWrap (.changeHeap bytes) p) :
    (p.changeHeap bytes).1 = p.programBreak ∧
      (p.changeHeap bytes).2.BreakAt (p.programBreak + bytes.toNat) := by
  obtain ⟨hpos, hfits⟩ := hc
  have hbytes : u32 bytes = bytes.toNat := by
    unfold u32
    omega
  unfold changeHeap
  rw [hbytes]
  obtain ⟨hbrk, hval⟩ | ⟨m, hbrk, hval, -⟩ := h.cases
  · rw [hbrk, hval]
    rw [hval, defaultBreakStart] at hfits
    exact ⟨rfl, breakAt_placeBrk (show 0x2000000 + bytes.toNat + 4095 < 4294967296 by omega) p⟩
  · rw [hbrk, hval]
    rw [hval] at hfits
    exact ⟨rfl, breakAt_growBrk h hbrk (by omega)⟩

/-- A call that is granted puts the break where it returns. -/
theorem setBrk_of_granted (h : p.BreakOk) {target : Nat} (hc : NoWrap (.setBrk target) p)
    (hg : Granted (.setBrk target) p) :
    p.programBreak ≤ (p.setBrk target).1 ∧ (p.setBrk target).2.BreakAt (p.setBrk target).1 := by
  have hfits : target + 4095 < 4294967296 := hc
  unfold Granted at hg
  unfold setBrk
  obtain ⟨hbrk, hval⟩ | ⟨m, hbrk, hval, -⟩ := h.cases
  · rw [hval] at hg ⊢
    simp only [hbrk]
    split
    · exact ⟨Nat.le_refl _, breakAt_placeBrk (by decide) p⟩
    · next hne =>
      have hle : defaultBreakStart ≤ target := by simpa [hne] using hg
      have hsub := sub32_eq hle (by omega)
      rw [if_neg (Nat.not_lt.2 hle), hsub]
      have hat := breakAt_placeBrk
        (show defaultBreakStart + (target - defaultBreakStart) + 4095 < 4294967296 by omega) p
      rw [Nat.add_sub_cancel' hle] at hat
      exact ⟨hle, hat⟩
  · rw [hval] at hg ⊢
    simp only [hbrk]
    split
    · next hzero =>
      have heq : m.endAddress = defaultBreakStart := by simpa [hzero] using hg
      exact ⟨heq.le, h, m, hbrk, heq⟩
    · next hne =>
      have hle : m.endAddress ≤ target := by simpa [hne] using hg
      have hsub := sub32_eq hle (by omega)
      rw [if_neg (Nat.not_lt.2 hle), hsub]
      have hat := breakAt_growBrk h hbrk
        (show m.endAddress + (target - m.endAddress) + 4095 < 4294967296 by omega)
      rw [Nat.add_sub_cancel' hle] at hat
      exact ⟨hle, hat⟩

/-- Any other call changes nothing, and returns something else than the break. -/
theorem setBrk_of_not_granted (h : p.BreakOk) {target : Nat}
    (hg : ¬Granted (.setBrk target) p) :
    (p.setBrk target).2 = p ∧
      p.brk.map MemoryMapping.endAddress ≠ some (p.setBrk target).1 := by
  unfold Granted at hg
  unfold setBrk
  obtain ⟨hbrk, hval⟩ | ⟨m, hbrk, hval, -⟩ := h.cases
  · rw [hval] at hg
    simp only [hbrk]
    split
    · next hzero => simp [hzero] at hg
    · next hne =>
      have hlt : target < defaultBreakStart := by simpa [hne] using hg
      rw [if_pos hlt]
      exact ⟨rfl, by simp⟩
  · rw [hval] at hg
    simp only [hbrk]
    split
    · next hzero => exact ⟨rfl, by simpa [hzero] using hg⟩
    · next hne =>
      have hlt : target < m.endAddress := by simpa [hne] using hg
      rw [if_pos hlt]
      exact ⟨rfl, by simpa using hlt.ne'⟩

end

/-! ## Sequences of calls -/

section

variable {p : Process}

theorem BreakOk.contained (h : p.BreakOk) {m : MemoryMapping} (hbrk : p.brk = some m) {a : Nat}
    (hlo : m.address ≤ a) (hhi : a < m.endAddress) : m.containsP a = true := by
  obtain ⟨hnone, -⟩ | ⟨m', hm', -, hok⟩ := h.cases
  · rw [hnone] at hbrk
    cases hbrk
  · obtain rfl : m' = m := Option.some.inj (hm'.symm.trans hbrk)
    exact hok.contains hlo hhi

theorem BreakOk.apply (h : p.BreakOk) {c : BreakCall} (hc : NoWrap c p) :
    (p.apply c).2.BreakOk ∧ p.programBreak ≤ (p.apply c).2.programBreak := by
  cases c with
  | changeHeap bytes =>
    obtain ⟨-, hat⟩ := changeHeap_spec h hc
    exact ⟨hat.1, hat.programBreak_eq ▸ Nat.le_add_right _ _⟩
  | setBrk target =>
    by_cases hg : Granted (.setBrk target) p
    · obtain ⟨hle, hat⟩ := setBrk_of_granted h hc hg
      exact ⟨hat.1, hat.programBreak_eq ▸ hle⟩
    · have hsame : (p.apply (.setBrk target)).2 = p := (setBrk_of_not_granted h hg).1
      rw [hsame]
      exact ⟨h, Nat.le_refl _⟩

theorem returnsBreak_iff (h : p.BreakOk) {c : BreakCall} (hc : NoWrap c p) :
    ReturnsBreak c p ↔ Granted c p := by
  cases c with
  | changeHeap bytes => exact iff_of_true (changeHeap_spec h hc).1 trivial
  | setBrk target =>
    by_cases hg : Granted (.setBrk target) p
    · obtain ⟨-, -, m, hbrk, hend⟩ := setBrk_of_granted h hc hg
      refine iff_of_true ?_ hg
      show (p.setBrk target).2.brk.map _ = some (p.setBrk target).1
      rw [hbrk, Option.map_some, hend]
    · obtain ⟨hsame, hne⟩ := setBrk_of_not_granted h hg
      refine iff_of_false ?_ hg
      show ¬(p.setBrk target).2.brk.map _ = some (p.setBrk target).1
      rwa [hsame]

/-- A call does what it is to do exactly if it is granted. -/
theorem breakKept_iff (h : p.BreakOk) {c : BreakCall} (hc : NoWrap c p) :
    BreakKept c p ↔ Granted c p := by
  obtain ⟨hok, hle⟩ := h.apply hc
  rw [← returnsBreak_iff h hc]
  exact ⟨fun hk => hk.returns, fun hr => ⟨hr, hle, fun _ hm _ => hok.contained hm⟩⟩

/-- In every sequence of calls, `set_brk` returns the break after the call, `change_heap`
the one before, the break does not decrease and the memory below it is mapped, if and only
if every `set_brk` is granted. -/
theorem brk_calls (hp : p.BreakStart) {calls : List BreakCall}
    (hcalls : Along (fun p c => (p.apply c).2) NoWrap calls p) :
    Along (fun p c => (p.apply c).2) BreakKept calls p ↔
      Along (fun p c => (p.apply c).2) Granted calls p :=
  Along.congr (I := BreakOk) (fun _ _ h hc _ => (h.apply hc).1)
    (fun _ _ h hc => breakKept_iff h hc) (breakOk_of_breakStart hp) hcalls

end

/-- A process with nothing mapped. -/
def unmapped : Process := make ⟨fun _ => false, fun _ => false, fun _ => 0⟩

/-- A query and two requests that move the break up. -/
theorem brk_calls_growing :
    Along (fun p c => (p.apply c).2) BreakKept
      [.setBrk 0, .changeHeap 100, .setBrk 0x2001000, .changeHeap 0] unmapped :=
  (brk_calls (p := unmapped) (.inl rfl) (show Along (fun p c => (p.apply c).2) NoWrap
    [.setBrk 0, .changeHeap 100, .setBrk 0x2001000, .changeHeap 0] unmapped from
      ⟨by decide, by decide, by decide, by decide, trivial⟩)).2
    ⟨by decide, by decide, by decide, by decide, trivial⟩

/-- A break that was placed behind a program: the query is answered with the default start,
and a request to reduce the break with the address it asked for. -/
theorem brk_query_misses_break :
    ((unmapped.positionBrk 0x8050000).setBrk 0).1 = 0x2000000 ∧
      ((unmapped.positionBrk 0x8050000).setBrk 0x8040000).1 = 0x8040000 ∧
      ((unmapped.positionBrk 0x8050000).setBrk 0).2.programBreak = 0x8050000 ∧
      ((unmapped.positionBrk 0x8050000).setBrk 0x8040000).2.programBreak = 0x8050000 ∧
      ¬BreakKept (.setBrk 0) (unmapped.positionBrk 0x8050000) ∧
      ¬BreakKept (.setBrk 0x8040000) (unmapped.positionBrk 0x8050000) := by
  refine ⟨by decide, by decide, by decide, by decide, fun h => ?_, fun h => ?_⟩
  · exact absurd h.returns (by decide)
  · exact absurd h.returns (by decide)

end Process

end Ulysses
