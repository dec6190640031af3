import Mathlib.Logic.Function.Basic
import Ulysses.Fs.Position
import Ulysses.Tmpfs.File

/-!
# Appending to a file of a tmpfs

A node that `create_file` made, with any number of `fs::File`s over it. Its `length` starts
at 0, and neither `FileNode::write` nor `File::write` changes it. `seek` to the end
therefore goes to the start, and what is appended there replaces what was written before
(`append_overwrites`).
-/

namespace Ulysses.Tmpfs

open Lib Fs

/-- A node with the files over it, by number, and the ranges written through them. -/
structure SharedNode where
  node : FileNode
  files : Nat → File
  written : List (Nat × Nat)

namespace SharedNode

/-- The node after `lookup` created it; the files over it start at 0. -/
def created (memory : Bytes) : SharedNode := ⟨.make memory, fun _ => .make, []⟩

/-- The calls on a file. -/
inductive Op
  | write (file : Nat) (data : List UInt8)
  | read (file size : Nat)
  | seek (file : Nat) (pos whence : Int)

/-- One call; `none` is the `ASSERT` of a call that is not accepted. -/
def step (s : SharedNode) : Op → Option SharedNode
  | .write file data =>
    (FileNode.fileWrite (s.files file, s.node) data).map fun r =>
      { node := r.2
        files := Function.update s.files file r.1
        written := ((s.files file).offset, data.length) :: s.written }
  | .read file size =>
    (FileNode.fileRead s.node (s.files file, []) size).map fun r =>
      { s with files := Function.update s.files file r.1 }
  | .seek file pos whence =>
    some { s with
      files := Function.update s.files file ((s.files file).seek s.node.length pos whence) }

/-- The end of the highest range of bytes that was written. -/
def writtenEnd (s : SharedNode) : Nat :=
  ((s.written.filter fun r => 0 < r.2).map fun r => r.1 + r.2).foldr max 0

/-- The length reaches to the end of what was written, `seek` to the end goes there, and a
write from there on leaves it as it is. -/
structure Appends (s : SharedNode) : Prop where
  length : s.writtenEnd ≤ s.node.length
  seek_end : ∀ f : File, (f.seek s.node.length 0 2).offset = s.writtenEnd
  intact : ∀ (f : File) (data : List UInt8) (r : File × FileNode),
    FileNode.fileWrite (f.seek s.node.length 0 2, s.node) data = some r →
      ∀ w ∈ s.written, ∀ p, w.1 ≤ p → p < w.1 + w.2 → r.2.chunk p = s.node.chunk p

/-- Only writes of no bytes. -/
def WritesNothing (ops : List Op) : Prop := ∀ file data, Op.write file data ∈ ops → data = []

variable {s s' : SharedNode}

theorem writtenEnd_eq_zero_iff : s.writtenEnd = 0 ↔ ∀ w ∈ s.written, w.2 = 0 := by
  unfold writtenEnd
  induction s.written with
  | nil => simp
  | cons w ws ih =>
    rw [List.filter_cons, List.forall_mem_cons]
    by_cases hpos : 0 < w.2
    · rw [if_pos (decide_eq_true hpos), List.map_cons, List.foldr_cons]
      exact ⟨fun hmax => absurd hmax (by omega), fun hall => absurd hall.1 hpos.ne'⟩
    · rw [if_neg (by simpa using hpos), ih, and_iff_right (Nat.eq_zero_of_not_pos hpos)]

theorem writesNothing_cons (op : Op) (ops : List Op) :
    WritesNothing (op :: ops) ↔ WritesNothing ops ∧ WritesNothing [op] := by
  constructor
  · intro hall
    refine ⟨fun file data hmem => hall file data (List.mem_cons_of_mem op hmem), ?_⟩
    intro file data hmem
    exact hall file data (List.mem_singleton.1 hmem ▸ List.mem_cons_self)
  · rintro ⟨hrest, hfirst⟩ file data hmem
    rcases List.mem_cons.1 hmem with rfl | hmem
    · exact hfirst file data (List.mem_singleton_self _)
    · exact hrest file data hmem

theorem length_fileWrite {f : File} {n : FileNode} {data : List UInt8} {r : File × FileNode}
    (h : FileNode.fileWrite (f, n) data = some r) : r.2.length = n.length := by
  obtain ⟨n', hwrite, rfl⟩ := Option.map_eq_some_iff.1 h
  obtain ⟨-, hwrite⟩ := Option.ite_none_right_eq_some.1 hwrite
  obtain rfl := Option.some.inj hwrite
  rfl

theorem step_spec {op : Op} (h : s.step op = some s') :
    s'.node.length = s.node.length ∧
      ((∀ w ∈ s'.written, w.2 = 0) ↔ WritesNothing [op] ∧ ∀ w ∈ s.written, w.2 = 0) := by
  cases op with
  | write file data =>
    obtain ⟨r, hr, rfl⟩ := Option.map_eq_some_iff.1 h
    refine ⟨length_fileWrite hr, ?_⟩
    simp [WritesNothing]
  | read file size =>
    obtain ⟨r, -, rfl⟩ := Option.map_eq_some_iff.1 h
    exact ⟨rfl, by simp [WritesNothing]⟩
  | seek file pos whence =>
    obtain rfl := Option.some.inj h
    exact ⟨rfl, by simp [WritesNothing]⟩

theorem run_spec {ops : List Op} (h : ops.foldlM step s = some s') :
    s'.node.length = s.node.length ∧
      ((∀ w ∈ s'.written, w.2 = 0) ↔ WritesNothing ops ∧ ∀ w ∈ s.written, w.2 = 0) := by
  induction ops generalizing s with
  | nil =>
    obtain rfl := Option.some.inj h
    exact ⟨rfl, by simp [WritesNothing]⟩
  | cons op ops ih =>
    rw [List.foldlM_cons] at h
    obtain ⟨s₁, hs, hrun⟩ := Option.bind_eq_some_iff.1 h
    obtain ⟨hlen, hwritten⟩ := step_spec hs
    obtain ⟨hlen', hwritten'⟩ := ih hrun
    refine ⟨hlen'.trans hlen, ?_⟩
    rw [hwritten', hwritten, writesNothing_cons op ops, and_assoc]

/-- **Appending**: after a run on a created file, its end is where the written bytes end
exactly when the run wrote none. -/
theorem appends_iff {memory : Bytes} {ops : List Op}
    (h : ops.foldlM step (created memory) = some s) : s.Appends ↔ WritesNothing ops := by
  obtain ⟨hlen, hwritten⟩ := run_spec h
  have hzero : s.node.length = 0 := hlen
  have hnothing : (∀ w ∈ s.written, w.2 = 0) ↔ WritesNothing ops := by
    simpa [created] using hwritten
  rw [← hnothing]
  constructor
  · intro happ
    have hend := happ.length
    rw [hzero, Nat.le_zero] at hend
    exact writtenEnd_eq_zero_iff.1 hend
  · intro hall
    have hend : s.writtenEnd = 0 := writtenEnd_eq_zero_iff.2 hall
    refine ⟨by omega, fun f => ?_, fun f data r _ w hw p hlo hhi => ?_⟩
    · rw [hzero, hend]
      rfl
    · rw [hall w hw] at hhi
      omega

theorem appends_empty_write :
    ∃ s, [Op.write 0 [], .seek 1 5 0, .read 1 3].foldlM step (created fun _ => 0) = some s ∧
      s.Appends := by
  refine ⟨_, rfl, (appends_iff (rfl : [Op.write 0 [], .seek 1 5 0, .read 1 3].foldlM step
    (created fun _ => 0) = some _)).2 fun file data hmem => ?_⟩
  rcases List.mem_cons.1 hmem with heq | hmem
  · exact (Op.write.inj heq).2
  · simp at hmem

/-- Three bytes written, then a byte appended through a second file: it takes the place of
the first of them. -/
theorem append_overwrites :
    ∃ s r, [Op.write 0 [1, 2, 3]].foldlM step (created fun _ => 0) = some s ∧
      s.node.length = 0 ∧ s.writtenEnd = 3 ∧
      FileNode.fileWrite ((s.files 1).seek s.node.length 0 2, s.node) [9] = some r ∧
      s.node.chunk 0 = 1 ∧ r.2.chunk 0 = 9 ∧ ¬ s.Appends := by
  refine ⟨_, _, rfl, rfl, rfl, rfl, rfl, rfl, fun happ => ?_⟩
  exact absurd happ.length (by decide)

end SharedNode

end Ulysses.Tmpfs
