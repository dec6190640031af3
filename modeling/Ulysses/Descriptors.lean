import Mathlib.Data.Fin.Basic
import Mathlib.Data.List.FinRange
import Mathlib.Logic.Function.Basic

/-!
# File descriptors

`Process::open_file`, `dup_fd` and `get_file` of `process.cpp` and the `close` system
call, against a POSIX table of 16 slots (`Table`).

`find_fd` returns -1 for a full table, and its callers store through `fds_[-1]`, which
is `break_mapping_`. `close` releases no slot. A run behaves as the POSIX table just
when it meets neither case (`behaves_iff`).
-/

namespace Ulysses

/-- The words of a `Process`, counted from `fds_`: word -1 is `break_mapping_`, the words
from 16 on are `channels_` and the fields after it. A file is its address, 0 is none. -/
structure Descriptors where
  word : Int → Nat

namespace Descriptors

/-- A call of the process. `node` is what `lookup` returned, `file` the new `fs::File`,
and `result` what the node's `close` returns. -/
inductive Call
  | openFile (node file : Nat)
  | dupFd (fd : Int)
  | close (fd : Int) (result : Int)
  deriving DecidableEq

def breakMapping (p : Descriptors) : Nat := p.word (-1)

/-- `find_fd`. -/
def findFd (p : Descriptors) : Int :=
  match (List.finRange 16).find? fun i : Fin 16 => p.word i = 0 with
  | some i => i
  | none => -1

/-- The assignment `fds_[fd] = file`. -/
def setFd (fd : Int) (file : Nat) (p : Descriptors) : Descriptors :=
  ⟨Function.update p.word fd file⟩

/-- `get_file`. -/
def getFile (fd : Int) (p : Descriptors) : Nat :=
  if fd < 0 ∨ fd ≥ 16 then 0 else p.word fd

/-- `open_file`. -/
def openFile (node file : Nat) (p : Descriptors) : Int × Descriptors :=
  if node = 0 then (-1, p)
  else
    let fd := p.findFd
    (fd, p.setFd fd file)

/-- `dup_fd`. -/
def dupFd (fd : Int) (p : Descriptors) : Int × Descriptors :=
  let file := p.getFile fd
  if file = 0 then (-1, p)
  else
    let newFd := p.findFd
    (newFd, p.setFd newFd file)

/-- The system call `close`. -/
def close (fd result : Int) (p : Descriptors) : Int × Descriptors :=
  if p.getFile fd = 0 then (-1, p) else (result, p)

def step (p : Descriptors) : Call → Int × Descriptors
  | .openFile node file => p.openFile node file
  | .dupFd fd => p.dupFd fd
  | .close fd result => p.close fd result

/-! ## The POSIX table -/

/-- The open file in each slot. -/
abbrev Table := Fin 16 → Option Nat

namespace Table

def lowestFree (t : Table) : Option (Fin 16) := (List.finRange 16).find? fun i => (t i).isNone

def file (fd : Int) (t : Table) : Option Nat :=
  if h : 0 ≤ fd ∧ fd < 16 then t ⟨fd.toNat, by omega⟩ else none

def allocate (file : Nat) (t : Table) : Int × Table :=
  match t.lowestFree with
  | some i => (i, Function.update t i (some file))
  | none => (-1, t)

def release (fd : Int) (t : Table) : Table := fun i => if (i : Int) = fd then none else t i

def step (t : Table) : Call → Int × Table
  | .openFile _ file => t.allocate file
  | .dupFd fd =>
    match t.file fd with
    | some file => t.allocate file
    | none => (-1, t)
  | .close fd result =>
    match t.file fd with
    | some _ => (result, t.release fd)
    | none => (-1, t)

end Table

/-- The table a process has. -/
def table (p : Descriptors) : Table := fun i => if p.word i = 0 then none else some (p.word i)

/-- The call does to the process what it does to its table, and nothing else. -/
structure Agrees (p : Descriptors) (c : Call) : Prop where
  result : (p.step c).1 = (p.table.step c).1
  table : (p.step c).2.table = (p.table.step c).2
  rest : ∀ i, i < 0 ∨ 16 ≤ i → (p.step c).2.word i = p.word i

/-- All calls of a run agree. -/
def Behaves : Descriptors → List Call → Prop
  | _, [] => True
  | p, c :: calls => p.Agrees c ∧ Behaves (p.step c).2 calls

/-- No open descriptor is closed, and a new descriptor is asked for only while a slot is
free. -/
def Call.Safe (t : Table) : Call → Prop
  | .openFile _ _ => ∃ i, t i = none
  | .dupFd fd => t.file fd = none ∨ ∃ i, t i = none
  | .close fd _ => t.file fd = none

/-- All calls of a run of the table are safe. -/
def Safe : Table → List Call → Prop
  | _, [] => True
  | t, c :: calls => c.Safe t ∧ Safe (t.step c).2 calls

/-- A node was found, and the new file is where nothing else of the process is. -/
def Call.Fresh (breakMapping : Nat) : Call → Prop
  | .openFile node file => node ≠ 0 ∧ file ≠ 0 ∧ file ≠ breakMapping
  | _ => True

/-- `break_mapping_` is no open file. -/
def Apart (p : Descriptors) : Prop := ∀ i : Fin 16, p.word i ≠ 0 → p.word i ≠ p.breakMapping

/-! ## One call -/

variable {p : Descriptors}

theorem table_eq_none {i : Fin 16} : p.table i = none ↔ p.word i = 0 := by
  unfold table
  split <;> simp [*]

theorem table_file (fd : Int) (p : Descriptors) :
    p.table.file fd = if p.getFile fd = 0 then none else some (p.getFile fd) := by
  unfold Table.file
  by_cases h : 0 ≤ fd ∧ fd < 16
  · have hfd : ((fd.toNat : Nat) : Int) = fd := Int.toNat_of_nonneg h.1
    have hget : p.getFile fd = p.word fd := if_neg (by omega)
    rw [dif_pos h, hget]
    simp only [table, hfd]
  · have hget : p.getFile fd = 0 := if_pos (by omega)
    rw [dif_neg h, if_pos hget]

theorem findFd_eq (p : Descriptors) :
    p.findFd = match p.table.lowestFree with
      | some i => (i : Int)
      | none => -1 := by
  have hfree : (fun i : Fin 16 => decide (p.word i = 0)) = fun i => (p.table i).isNone := by
    funext i
    rw [Bool.eq_iff_iff, decide_eq_true_iff, Option.isNone_iff_eq_none, table_eq_none]
  unfold findFd Table.lowestFree
  rw [hfree]

theorem lowestFree_eq_none {t : Table} : t.lowestFree = none ↔ ¬∃ i, t i = none := by
  simp [Table.lowestFree]

theorem table_setFd (p : Descriptors) (i : Fin 16) {file : Nat} (hfile : file ≠ 0) :
    (p.setFd i file).table = Function.update p.table i (some file) := by
  funext j
  by_cases hj : j = i
  · subst hj
    simp [table, setFd, hfile]
  · have hne : (j : Int) ≠ (i : Int) := fun h => hj (Fin.ext (by omega))
    simp [table, setFd, hj, hne]

/-- What storing a file in the slot that `find_fd` chose does. -/
theorem allocate_agrees_iff (p : Descriptors) {file : Nat} (hfile : file ≠ 0)
    (hbreak : file ≠ p.breakMapping) :
    (p.findFd = (p.table.allocate file).1 ∧ (p.setFd p.findFd file).table =
        (p.table.allocate file).2 ∧
      ∀ i, i < 0 ∨ 16 ≤ i → (p.setFd p.findFd file).word i = p.word i) ↔
      ∃ i, p.table i = none := by
  rw [findFd_eq]
  unfold Table.allocate
  cases hfree : p.table.lowestFree with
  | none =>
    refine ⟨fun h => ?_, fun h => absurd h (lowestFree_eq_none.1 hfree)⟩
    -- the store goes to `break_mapping_`
    have hword := h.2.2 (-1) (by omega)
    exact absurd (by simpa [setFd] using hword : file = p.word (-1)) hbreak
  | some i =>
    refine ⟨fun _ => ?_, fun _ => ⟨rfl, table_setFd p i hfile, fun j hj => ?_⟩⟩
    · by_contra hfull
      rw [lowestFree_eq_none.2 hfull] at hfree
      cases hfree
    · have hi := i.isLt
      have hne : j ≠ (i : Int) := by omega
      exact Function.update_of_ne hne file p.word

theorem getFile_ne_breakMapping (hp : p.Apart) {fd : Int} (h : p.getFile fd ≠ 0) :
    p.getFile fd ≠ p.breakMapping := by
  unfold getFile at h ⊢
  split at h
  · exact absurd rfl h
  · have hfd : ((fd.toNat : Nat) : Int) = fd := Int.toNat_of_nonneg (by omega)
    rw [if_neg ‹_›]
    have := hp ⟨fd.toNat, by omega⟩
    simp only [hfd] at this
    exact this h

/-- A call agrees with the table just when it is safe. -/
theorem agrees_iff (hp : p.Apart) {c : Call} (hc : c.Fresh p.breakMapping) :
    p.Agrees c ↔ c.Safe p.table := by
  have hagrees : p.Agrees c ↔ (p.step c).1 = (p.table.step c).1 ∧
      (p.step c).2.table = (p.table.step c).2 ∧
      ∀ i, i < 0 ∨ 16 ≤ i → (p.step c).2.word i = p.word i :=
    ⟨fun h => ⟨h.1, h.2, h.3⟩, fun h => ⟨h.1, h.2.1, h.2.2⟩⟩
  rw [hagrees]
  cases c with
  | openFile node file =>
    simp only [step, openFile, if_neg hc.1]
    exact allocate_agrees_iff p hc.2.1 hc.2.2
  | dupFd fd =>
    simp only [step, dupFd, Table.step, Call.Safe, table_file]
    by_cases hfile : p.getFile fd = 0
    · simp [hfile]
    · simp only [if_neg hfile, reduceCtorEq, false_or]
      exact allocate_agrees_iff p hfile (getFile_ne_breakMapping hp hfile)
  | close fd result =>
    simp only [step, close, Table.step, Call.Safe, table_file]
    by_cases hfile : p.getFile fd = 0
    · simp [hfile]
    · simp only [if_neg hfile, reduceCtorEq, iff_false]
      -- the slot still has its file
      intro h
      have htable : p.table.file fd = (p.table.release fd).file fd := congrArg (Table.file fd) h.2.1
      rw [table_file, if_neg hfile] at htable
      unfold Table.file Table.release at htable
      split at htable
      · rw [if_pos (by simp only; omega)] at htable
        cases htable
      · cases htable

/-! ## Runs -/

theorem apart_iff : p.Apart ↔ ∀ i file, p.table i = some file → file ≠ p.breakMapping := by
  unfold Apart table
  refine forall_congr' fun i => ⟨fun h file hfile => ?_, fun h hi => h _ (if_neg hi)⟩
  split at hfile
  · cases hfile
  · obtain rfl := Option.some.inj hfile
    exact h ‹_›

theorem Table.allocate_mem {t : Table} {file f : Nat} {i : Fin 16}
    (h : (t.allocate file).2 i = some f) : f = file ∨ ∃ j, t j = some f := by
  unfold allocate at h
  split at h
  · by_cases hi : i = ‹Fin 16›
    · subst hi
      simp only [Function.update_self, Option.some.injEq] at h
      exact .inl h.symm
    · exact .inr ⟨i, (Function.update_of_ne hi _ _).symm.trans h⟩
  · exact .inr ⟨i, h⟩

theorem Table.step_mem {t : Table} {c : Call} {f : Nat} {i : Fin 16}
    (h : (t.step c).2 i = some f) : (∃ node, c = .openFile node f) ∨ ∃ j, t j = some f := by
  cases c with
  | openFile node file =>
    rcases allocate_mem h with rfl | h
    · exact .inl ⟨node, rfl⟩
    · exact .inr h
  | dupFd fd =>
    cases hfd : t.file fd with
    | none =>
      simp only [step, hfd] at h
      exact .inr ⟨i, h⟩
    | some file =>
      simp only [step, hfd] at h
      rcases allocate_mem h with rfl | h
      · unfold Table.file at hfd
        split at hfd
        · exact .inr ⟨_, hfd⟩
        · cases hfd
      · exact .inr h
  | close fd result =>
    cases hfd : t.file fd with
    | none =>
      simp only [step, hfd] at h
      exact .inr ⟨i, h⟩
    | some file =>
      simp only [step, hfd, release] at h
      split at h
      · cases h
      · exact .inr ⟨i, h⟩

theorem apart_step (hp : p.Apart) {c : Call} (hc : c.Fresh p.breakMapping) (h : p.Agrees c) :
    (p.step c).2.Apart := by
  have hbreak : (p.step c).2.breakMapping = p.breakMapping := h.rest (-1) (by omega)
  refine apart_iff.2 fun i file hfile => ?_
  rw [hbreak]
  rw [h.table] at hfile
  rcases Table.step_mem hfile with ⟨node, rfl⟩ | ⟨j, hj⟩
  · exact hc.2.2
  · exact apart_iff.1 hp j file hj

/-- A run behaves as the POSIX table just when no call closes an open descriptor or asks
for one while all slots are used. -/
theorem behaves_iff (p : Descriptors) (hp : p.Apart) (calls : List Call)
    (hcalls : ∀ c ∈ calls, c.Fresh p.breakMapping) : p.Behaves calls ↔ Safe p.table calls := by
  induction calls generalizing p with
  | nil => rfl
  | cons c calls ih =>
    have hc := hcalls c List.mem_cons_self
    unfold Behaves Safe
    rw [← agrees_iff hp hc]
    refine and_congr_right fun h => ?_
    have hbreak : (p.step c).2.breakMapping = p.breakMapping := h.rest (-1) (by omega)
    rw [← h.table]
    refine ih _ (apart_step hp hc h) fun c' hc' => ?_
    rw [hbreak]
    exact hcalls c' (List.mem_cons_of_mem c hc')

/-- `Process::Process`, as far as the descriptors go. -/
def make : Descriptors := ⟨fun _ => 0⟩

theorem apart_make : make.Apart := fun _ h => absurd rfl h

/-- A file opened, its descriptor duplicated, and a descriptor closed that is not open. -/
theorem behaves_make : make.Behaves [.openFile 1 4096, .dupFd 0, .close 7 0] := by
  refine (behaves_iff make apart_make _ ?_).2
    ⟨⟨0, rfl⟩, .inr ⟨1, by decide⟩, show Table.file 7 _ = none by decide, trivial⟩
  intro c hc
  simp only [List.mem_cons, List.not_mem_nil, or_false] at hc
  rcases hc with rfl | rfl | rfl
  · exact ⟨by decide, by decide, by decide⟩
  · trivial
  · trivial

/-- Calls in turn. -/
def run (p : Descriptors) (calls : List Call) : Descriptors :=
  calls.foldl (fun p c => (p.step c).2) p

theorem Behaves.breakMapping_run {calls : List Call} (h : p.Behaves calls) :
    (p.run calls).breakMapping = p.breakMapping := by
  induction calls generalizing p with
  | nil => rfl
  | cons c calls ih => exact (ih h.2).trans (h.1.rest (-1) (by omega))

/-- A closed descriptor stays open, and opening a 17th file overwrites
`break_mapping_`. -/
theorem not_behaves_make :
    (make.run [.openFile 1 4096, .close 0 0]).getFile 0 = 4096 ∧
      ¬make.Behaves [.openFile 1 4096, .close 0 0] ∧
      (make.run ((List.range 17).map fun i => .openFile 1 (4096 + 8 * i))).breakMapping = 4224 ∧
      ¬make.Behaves ((List.range 17).map fun i => .openFile 1 (4096 + 8 * i)) := by
  have hfull :
      (make.run ((List.range 17).map fun i => .openFile 1 (4096 + 8 * i))).breakMapping = 4224 := by
    decide
  refine ⟨by decide, fun h => ?_, hfull, fun h => ?_⟩
  · have hslot := congrFun h.2.1.table 0
    exact absurd hslot (by decide)
  · have hkept := h.breakMapping_run
    rw [hfull] at hkept
    exact absurd hkept (by decide)

end Descriptors

end Ulysses
