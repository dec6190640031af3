import Mathlib.Data.List.DropRight
import Ulysses.Lib.Reach
import Ulysses.Console.Basic

/-!
# Console input as a stream

Readers should get what is injected, line by line. The raw buffer only grows, and
`find_newline` looks for the first newline from its start: each injection after the
first newline gives readers the first line once more, and no other line ever becomes
readable (`first_line_again`). A session of one line that is read when all of it is
there is a stream (`first_line_streamed`).
-/

namespace Ulysses

open Lib

/-- The bytes up to the last newline. -/
def completeLines (bytes : List UInt8) : List UInt8 :=
  bytes.rdropWhile (· ≠ CharBuffer.newline)

theorem completeLines_eq_nil {bytes : List UInt8} (h : CharBuffer.newline ∉ bytes) :
    completeLines bytes = [] := by
  rw [completeLines, List.rdropWhile_eq_nil_iff]
  intro x hx
  have hne : x ≠ CharBuffer.newline := fun heq => h (heq ▸ hx)
  simpa using hne

theorem completeLines_append {xs ys : List UInt8} (h : CharBuffer.newline ∉ ys) :
    completeLines (xs ++ CharBuffer.newline :: ys) = xs ++ [CharBuffer.newline] := by
  induction ys using List.reverseRecOn with
  | nil => exact List.rdropWhile_concat_neg _ _ _ (by simp)
  | append_singleton ys y ih =>
    have hy : y ≠ CharBuffer.newline := fun heq => h (by simp [heq])
    have hys : CharBuffer.newline ∉ ys := fun hmem => h (List.mem_append_left _ hmem)
    rw [← ih hys, completeLines, ← List.cons_append, ← List.append_assoc]
    exact List.rdropWhile_concat_pos _ _ _ (by simpa using hy)

theorem CharBuffer.findNewline_append {b : CharBuffer} {xs ys : List UInt8}
    (hb : b.bytes = xs ++ newline :: ys) (hxs : newline ∉ xs) :
    b.findNewline = some ⟨0, xs.length + 1⟩ := by
  have hnone : xs.findIdx? (· = newline) = none := by
    rw [List.findIdx?_eq_none_iff]
    intro x hx
    have hne : x ≠ newline := fun heq => hxs (heq ▸ hx)
    simpa using hne
  rw [findNewline, hb, List.findIdx?_append, hnone]
  simp [List.findIdx?_cons]

theorem CharBuffer.findNewline_eq_none {b : CharBuffer} (h : newline ∉ b.bytes) :
    b.findNewline = none := by
  rw [findNewline, Option.map_eq_none_iff, List.findIdx?_eq_none_iff]
  intro x hx
  have hne : x ≠ newline := fun heq => h (heq ▸ hx)
  simpa using hne

/-- A device with everything injected into it and everything its readers got. -/
structure ConsoleSession where
  device : ConsoleDevice
  injected : List UInt8
  delivered : List UInt8

namespace ConsoleSession

inductive Event
  | inject (bytes : List UInt8)
  | read (size : Nat)

/-- A `read_bytes` returns when there is something to read. -/
def step (s : ConsoleSession) : Event → Option ConsoleSession
  | .inject bytes =>
    (s.device.injectBytes bytes).map fun r =>
      { s with device := r.1, injected := s.injected ++ bytes }
  | .read size =>
    if s.device.readRegion.emptyP then none
    else (s.device.drain size).map fun r =>
      { s with device := r.2, delivered := s.delivered ++ r.1 }

def start : ConsoleSession := ⟨.opened, [], []⟩

/-- The readers have got a prefix of the complete lines, and all of them when a reader
would have to wait. -/
structure Streamed (s : ConsoleSession) : Prop where
  prefix_injected : s.delivered <+: s.injected
  lines : s.delivered.length ≤ (completeLines s.injected).length
  all : s.device.readRegion.emptyP = true → s.delivered = completeLines s.injected

/-- Bytes are injected before the first one is read only, with one newline at most in
all of them. -/
def FirstLine (s : ConsoleSession) : Event → Prop
  | .inject bytes => s.delivered = [] ∧ (s.injected ++ bytes).count CharBuffer.newline ≤ 1
  | .read _ => True

instance (s : ConsoleSession) : (e : Event) → Decidable (s.FirstLine e)
  | .inject _ => inferInstanceAs (Decidable (_ ∧ _))
  | .read _ => .isTrue trivial

def Step (s s' : ConsoleSession) : Prop := ∃ e, s.step e = some s'

/-- One step of a run of the first line. -/
def FirstLineStep (s s' : ConsoleSession) : Prop := ∃ e, s.FirstLine e ∧ s.step e = some s'

/-- There is no newline yet, or the region is what is left of the one line. -/
structure Inv (s : ConsoleSession) : Prop where
  canonical : s.device.canonical = true
  raw : s.device.rawBuffer.bytes = s.injected
  line : (CharBuffer.newline ∉ s.injected ∧ s.device.readRegion = .empty ∧ s.delivered = []) ∨
    ∃ xs ys, s.injected = xs ++ CharBuffer.newline :: ys ∧ CharBuffer.newline ∉ ys ∧
      s.device.readRegion.stop = xs.length + 1 ∧
      s.device.readRegion.start ≤ s.device.readRegion.stop ∧
      s.delivered = s.injected.take s.device.readRegion.start

section

variable {s s' : ConsoleSession}

theorem Inv.streamed (h : s.Inv) : s.Streamed := by
  obtain ⟨hnone, hregion, hdel⟩ | ⟨xs, ys, hinj, hys, hstop, hle, hdel⟩ := h.line
  · rw [← completeLines_eq_nil hnone] at hdel
    exact ⟨by simp [hdel, completeLines_eq_nil hnone], by rw [hdel], fun _ => hdel⟩
  · have hlines : completeLines s.injected = s.injected.take s.device.readRegion.stop := by
      have hlen : xs.length + 1 = (xs ++ [CharBuffer.newline]).length := by simp
      have hsplit : xs ++ CharBuffer.newline :: ys = xs ++ [CharBuffer.newline] ++ ys := by simp
      rw [hinj, completeLines_append hys, hstop, hlen, hsplit, List.take_left]
    refine ⟨hdel ▸ List.take_prefix _ _, ?_, fun hempty => ?_⟩
    · rw [hdel, hlines, List.length_take, List.length_take]
      omega
    · have heq : s.device.readRegion.start = s.device.readRegion.stop :=
        Nat.le_antisymm hle (by simpa [Region.emptyP] using hempty)
      rw [hdel, hlines, heq]

theorem Inv.inject (h : s.Inv) {bytes : List UInt8} (hdel : s.delivered = [])
    (hcount : (s.injected ++ bytes).count CharBuffer.newline ≤ 1)
    (hs : s.step (.inject bytes) = some s') : s'.Inv := by
  obtain ⟨⟨d, woke⟩, hinject, rfl⟩ := Option.map_eq_some_iff.1 hs
  obtain ⟨raw, hcopy, hr⟩ := Option.map_eq_some_iff.1 hinject
  have hraw : raw.bytes = s.injected ++ bytes := by
    rw [CharBuffer.copy_bytes hcopy, h.raw]
  rw [if_pos h.canonical] at hr
  by_cases hmem : CharBuffer.newline ∈ s.injected ++ bytes
  · obtain ⟨xs, ys, hsplit, hxs⟩ := List.eq_append_cons_of_mem hmem
    have hys : CharBuffer.newline ∉ ys := by
      rw [hsplit, List.count_append, List.count_cons_self] at hcount
      rw [← List.count_eq_zero]
      omega
    rw [CharBuffer.findNewline_append (hraw.trans hsplit) hxs] at hr
    obtain ⟨rfl, rfl⟩ := Prod.mk.inj hr
    exact ⟨h.canonical, hraw, .inr ⟨xs, ys, hsplit, hys, rfl, Nat.zero_le _, hdel⟩⟩
  · have hnone : raw.findNewline = none := CharBuffer.findNewline_eq_none (hraw ▸ hmem)
    rw [hnone] at hr
    obtain ⟨rfl, rfl⟩ := Prod.mk.inj hr
    refine ⟨h.canonical, hraw, .inl ⟨hmem, ?_, hdel⟩⟩
    obtain ⟨-, hregion, -⟩ | ⟨xs, ys, hinj, -⟩ := h.line
    · exact hregion
    · exact absurd (by simp [hinj]) hmem

theorem Inv.read (h : s.Inv) {size : Nat} (hs : s.step (.read size) = some s') : s'.Inv := by
  simp only [step] at hs
  split at hs
  · cases hs
  next hempty =>
  obtain ⟨⟨bytes, d⟩, hdrain, rfl⟩ := Option.map_eq_some_iff.1 hs
  obtain ⟨⟨bytes', region⟩, hregion, hr⟩ := Option.map_eq_some_iff.1 hdrain
  obtain ⟨rfl, rfl⟩ := Prod.mk.inj hr
  obtain ⟨n, hn, rfl, rfl⟩ := Region.drainInto_spec hregion
  refine ⟨h.canonical, h.raw, .inr ?_⟩
  obtain ⟨-, hregion, -⟩ | ⟨xs, ys, hinj, hys, hstop, hle, hdel⟩ := h.line
  · rw [hregion] at hempty
    exact absurd rfl hempty
  · refine ⟨xs, ys, hinj, hys, hstop, ?_, ?_⟩
    · exact Int.ofNat_le.1 hn
    · simp only [hdel, h.raw, List.take_add]

end

/-- A session in which one line is injected before the first byte is read is a
stream in all its states. -/
theorem first_line_streamed {s : ConsoleSession} (h : Reach (· = start) FirstLineStep s) :
    s.Streamed := by
  refine Inv.streamed (h.invariant (I := Inv) ?_ ?_)
  · rintro _ rfl
    exact ⟨rfl, rfl, .inl ⟨List.not_mem_nil, rfl, rfl⟩⟩
  · rintro s s' hinv ⟨e, hok, hs⟩
    cases e with
    | inject bytes => exact hinv.inject hok.1 hok.2 hs
    | read size => exact hinv.read hs

/-- A run from the start in which every step meets `FirstLine`. -/
def runFirstLine (es : List Event) : Option ConsoleSession :=
  es.foldlM (fun s e => if s.FirstLine e then s.step e else none) start

/-- A line that comes in two parts and is read in two parts. -/
theorem first_line_streamed_parts :
    ∃ s, runFirstLine [.inject [104], .inject [105, 10, 33], .read 2, .read 7] = some s ∧
      s.delivered = [104, 105, 10] ∧ s.Streamed := by
  have hrun : (runFirstLine [.inject [104], .inject [105, 10, 33], .read 2, .read 7]).map
      ConsoleSession.delivered = some [104, 105, 10] := by
    decide +kernel
  obtain ⟨s, hs, hdel⟩ := Option.map_eq_some_iff.1 hrun
  exact ⟨s, hs, hdel, first_line_streamed (Reach.foldlM
    (fun _ e _ hx => ⟨e, Option.ite_none_right_eq_some.1 hx⟩) (.init rfl) hs)⟩

/-- The second line is never read; the first one comes again. -/
theorem first_line_again : ∃ s, Reach (· = start) Step s ∧ ¬s.Streamed := by
  have hrun : ([Event.inject [97, 10], .read 2, .inject [98, 10], .read 2].foldlM step start).map
      (fun s => (s.injected, s.delivered)) = some ([97, 10, 98, 10], [97, 10, 97, 10]) := by
    decide +kernel
  obtain ⟨s, hs, heq⟩ := Option.map_eq_some_iff.1 hrun
  obtain ⟨hinj, hdel⟩ := Prod.mk.inj heq
  refine ⟨s, Reach.foldlM (fun _ e _ hx => ⟨e, hx⟩) (.init rfl) hs, fun hst => ?_⟩
  have hprefix := hst.prefix_injected
  rw [hinj, hdel] at hprefix
  exact absurd hprefix (by decide)

end ConsoleSession

end Ulysses
