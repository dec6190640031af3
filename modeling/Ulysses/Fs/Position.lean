import Ulysses.Fs.File

/-!
# The position of an open file

`File::read`, `write`, `seek` and `get_entries` of `fs.cpp` over a node of any kind. The
node answers a call with whatever count or error it likes, and the file moves.

The position a caller reckons with starts at 0, is set by `seek`, and moves on by every
result that is not an error. `read` and `write` leave the file where it is when the node
returns an error. `get_entries` adds the error to the position.
-/

namespace Ulysses.Fs

open Lib

/-! ## Nodes -/

/-- The virtual functions of `fs::Node` that a file calls, on whatever state `σ` they read
and change. `get_entries` returns an `int`, the other two a `u32`. -/
structure NodeCalls (σ : Type*) where
  read : (offset size buffer : Nat) → σ → Nat × σ
  write : (offset size buffer : Nat) → σ → Nat × σ
  getEntries : (offset : Int) → (dp : Nat) → (count : Int) → σ → Int × σ
  length : σ → Nat
  getEntries_int : ∀ offset dp count s,
    -2147483648 ≤ (getEntries offset dp count s).1 ∧ (getEntries offset dp count s).1 < 2147483648

/-- The functions of `fs::Node` itself, which a node has that does not override them. -/
def NodeCalls.base : NodeCalls Unit where
  read _ _ _ s := (0, s)
  write _ _ _ s := (0, s)
  getEntries _ _ _ s := (-1, s)
  length _ := 0
  getEntries_int _ _ _ _ := ⟨by simp only; omega, by simp only; omega⟩

/-! ## Files over a node -/

namespace File

/-- `File::seek` over a node of the given length. -/
def seek (length : Nat) (pos whence : Int) (f : File) : File :=
  if whence = 1 then { f with offset := u32 (s32 f.offset + pos) }
  else if whence = 2 then { f with offset := u32 (s32 length + pos) }
  else { f with offset := u32 pos }

end File

/-- The calls on a file. -/
inductive FileCall
  | read (buffer size : Nat)
  | write (buffer size : Nat)
  | getEntries (dp : Nat) (count : Int)
  | seek (pos whence : Int)

/-- What a caller has seen of a call: its result, and for `seek` its arguments and the
length of the node. -/
inductive FileEvent
  | read (result : Int)
  | write (result : Int)
  | listed (result : Int)
  | sought (length : Nat) (pos whence : Int)

/-- An open file, its node, and the calls so far with the latest first. -/
structure OpenFile (σ : Type*) where
  file : File
  node : σ
  events : List FileEvent

namespace OpenFile

variable {σ : Type*}

/-- A file that was just opened. -/
def opened (node : σ) : OpenFile σ := ⟨File.make, node, []⟩

/-- The caller has got the result of a call. -/
def returned (event : Int → FileEvent) (m : Int × File) (node : σ) (x : OpenFile σ) : OpenFile σ :=
  ⟨m.2, node, event m.1 :: x.events⟩

def step (calls : NodeCalls σ) : FileCall → OpenFile σ → OpenFile σ
  | .read buffer size, x =>
    let r := calls.read x.file.offset size buffer x.node
    x.returned .read (x.file.moved r.1) r.2
  | .write buffer size, x =>
    let r := calls.write x.file.offset size buffer x.node
    x.returned .write (x.file.moved r.1) r.2
  | .getEntries dp count, x =>
    let r := calls.getEntries (s32 x.file.offset) dp count x.node
    x.returned .listed (r.1, x.file.listed r.1) r.2
  | .seek pos whence, x =>
    ⟨x.file.seek (calls.length x.node) pos whence, x.node,
      .sought (calls.length x.node) pos whence :: x.events⟩

/-! ## The position a caller reckons with -/

/-- The result of a call; `seek` has none. -/
def result : FileEvent → Option Int
  | .read r => some r
  | .write r => some r
  | .listed r => some r
  | .sought _ _ _ => none

/-- The position that the latest `seek` set, plus the results since that are not errors. -/
def position : List FileEvent → Int
  | [] => 0
  | .sought length pos whence :: events =>
    if whence = 1 then position events + pos
    else if whence = 2 then length + pos
    else pos
  | .read r :: events | .write r :: events | .listed r :: events =>
    if r < 0 then position events else position events + r

/-- The position of the file is the one a caller reckons with, modulo `2 ^ 32`. -/
def AtPosition (x : OpenFile σ) : Prop := (x.file.offset : Int) = position x.events % 4294967296

instance (x : OpenFile σ) : Decidable (AtPosition x) := inferInstanceAs (Decidable (_ = _))

/-- `y` is where the caller of a call in `x` expects the file, and where it was if the call
failed. -/
def Follows (x y : OpenFile σ) : Prop :=
  AtPosition y ∧ ∀ e r, y.events.head? = some e → result e = some r → r < 0 →
    y.file.offset = x.file.offset

/-- A call leaves the file where its caller expects it. -/
def Exact (calls : NodeCalls σ) (c : FileCall) (x : OpenFile σ) : Prop :=
  Follows x (x.step calls c)

/-- The call is not a `get_entries` that fails. -/
def ListsOk (calls : NodeCalls σ) : FileCall → OpenFile σ → Prop
  | .getEntries dp count, x => 0 ≤ (calls.getEntries (s32 x.file.offset) dp count x.node).1
  | _, _ => True

/-- `P` holds of every call of a sequence, in the state it is made in. -/
def Along (calls : NodeCalls σ) (P : FileCall → OpenFile σ → Prop) :
    List FileCall → OpenFile σ → Prop
  | [], _ => True
  | c :: cs, x => P c x ∧ Along calls P cs (x.step calls c)

/-! ## Calls -/

theorem moved_offset {f : File} {p : Int} (h : (f.offset : Int) = p % 4294967296) (count : Nat) :
    ((f.moved count).2.offset : Int) =
        (if (f.moved count).1 < 0 then p else p + (f.moved count).1) % 4294967296 ∧
      ((f.moved count).1 < 0 → (f.moved count).2.offset = f.offset) := by
  unfold File.moved
  by_cases hneg : s32 count < 0
  · simp only [hneg, if_true]
    exact ⟨h, fun _ => trivial⟩
  · have hmod := s32_emod count
    simp only [hneg, if_false, false_implies, and_true]
    unfold add32
    omega

theorem seek_offset {f : File} {p : Int} (h : (f.offset : Int) = p % 4294967296) (length : Nat)
    (pos whence : Int) :
    ((f.seek length pos whence).offset : Int) =
      (if whence = 1 then p + pos else if whence = 2 then length + pos else pos) % 4294967296 := by
  unfold File.seek
  split
  · rw [u32_cast, s32_add_emod, h, Int.emod_add_emod]
  · split
    · rw [u32_cast, s32_add_emod]
    · rw [u32_cast]

theorem listed_offset (entries : Int) (f : File) :
    ((f.listed entries).offset : Int) = (f.offset + entries) % 4294967296 := by
  have hlisted : (f.listed entries).offset = u32 (f.offset + entries) := rfl
  rw [hlisted, u32_cast]

theorem follows_returned {event : Int → FileEvent} {m : Int × File} {node : σ} {x : OpenFile σ}
    (hresult : ∀ r, result (event r) = some r)
    (hposition : ∀ r events, position (event r :: events) =
      if r < 0 then position events else position events + r) :
    Follows x (x.returned event m node) ↔
      (m.2.offset : Int) = (if m.1 < 0 then position x.events else position x.events + m.1) %
        4294967296 ∧ (m.1 < 0 → m.2.offset = x.file.offset) := by
  unfold Follows AtPosition returned
  simp only [hposition]
  refine and_congr Iff.rfl ⟨fun h => h _ _ rfl (hresult _), fun h e r he hr => ?_⟩
  obtain rfl := Option.some.inj he
  obtain rfl := Option.some.inj ((hresult _).symm.trans hr)
  exact h

/-- A file at its position is left there by every call except a `get_entries` that fails. -/
theorem exactCall_iff {calls : NodeCalls σ} {x : OpenFile σ} (hx : AtPosition x) (c : FileCall) :
    Exact calls c x ↔ ListsOk calls c x := by
  cases c with
  | read buffer size =>
    refine iff_of_true ?_ trivial
    exact (follows_returned (fun _ => rfl) fun _ _ => rfl).2 (moved_offset hx _)
  | write buffer size =>
    refine iff_of_true ?_ trivial
    exact (follows_returned (fun _ => rfl) fun _ _ => rfl).2 (moved_offset hx _)
  | getEntries dp count =>
    obtain ⟨hlo, hhi⟩ := calls.getEntries_int (s32 x.file.offset) dp count x.node
    refine (follows_returned (fun _ => rfl) fun _ _ => rfl).trans ?_
    unfold ListsOk
    unfold AtPosition at hx
    simp only [listed_offset]
    generalize (calls.getEntries (s32 x.file.offset) dp count x.node).1 = r at hlo hhi ⊢
    have hlisted := listed_offset r x.file
    constructor
    · rintro ⟨-, hkept⟩
      by_contra hneg
      rw [hkept (by omega)] at hlisted
      omega
    · intro hpos
      rw [if_neg (by omega)]
      exact ⟨by omega, fun hneg => by omega⟩
  | seek pos whence =>
    have hsought := seek_offset hx (calls.length x.node) pos whence
    refine iff_of_true ⟨hsought, fun e r he hr => ?_⟩ trivial
    obtain rfl := Option.some.inj he
    cases hr

/-- **The position of an open file.** Along a sequence of calls on a file over any node the
file is where the last `seek` and the results since put it, and stays there when a call
fails, exactly when no `get_entries` of the sequence fails. -/
theorem position_iff (calls : NodeCalls σ) (cs : List FileCall) (node : σ) :
    Along calls (Exact calls) cs (opened node) ↔ Along calls (ListsOk calls) cs (opened node) := by
  have hopened : AtPosition (opened node) := rfl
  generalize opened node = x at hopened ⊢
  induction cs generalizing x with
  | nil => exact Iff.rfl
  | cons c cs ih =>
    have hc : Exact calls c x ↔ ListsOk calls c x := exactCall_iff hopened c
    constructor
    · rintro ⟨h, hrest⟩
      exact ⟨hc.1 h, (ih _ h.1).1 hrest⟩
    · rintro ⟨h, hrest⟩
      exact ⟨hc.2 h, (ih _ (hc.2 h).1).2 hrest⟩

/-- `getdents` on a node that is not a directory moves the file one byte back. -/
theorem failed_listing_moves : ¬Along NodeCalls.base (Exact NodeCalls.base) [.getEntries 0 0]
    (opened ()) := by
  rintro ⟨⟨hposition, -⟩, -⟩
  revert hposition
  decide

end OpenFile

end Ulysses.Fs
