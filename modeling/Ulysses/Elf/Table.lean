import Ulysses.Elf.Basic

/-!
# Walks over the program headers

`load_ph` of `elf.cpp` reads `e_phnum` entries of `e_phentsize` bytes, and the loops of
`setup_interp`, `map_memory` and `map_lib_memory` step over them with `ph++`, by the 32 bytes
of a `ProgramHeader`. `validate` does not compare the two sizes.
-/

namespace Ulysses

open Lib

namespace Elf

/-- The functions that walk over the program headers. -/
inductive Walk
  | setupInterp
  | mapMemory
  | mapLibMemory

namespace Header

/-- Where `ph` points, from the front of the buffer, in a walk over all entries. -/
def walk (h : Header) : List Nat := (List.range h.ePhnum).map (32 * ·)

theorem programHeaders_eq (stale : Nat → UInt8) (node : Fs.Node) (h : Header) :
    h.programHeaders stale node = h.walk.map (ProgramHeader.ofBytes (h.loadPh stale node)) := by
  unfold programHeaders walk
  rw [List.map_map]
  rfl

/-- The path of an interpreter, as `setup_interp` reads it. -/
def interpPath (node : Fs.Node) (ph : ProgramHeader) : List UInt8 :=
  (List.range ph.pFilesz).map fun i => node.bytes (ph.pOffset + i)

/-- The walk of `setup_interp`, which stops at an interpreter that is not found. -/
def interpWalk (finddir : List UInt8 → Option Fs.Node) (node : Fs.Node) (buffer : Bytes) :
    List Nat → List Nat
  | [] => []
  | off :: offs =>
    let ph := ProgramHeader.ofBytes buffer off
    if ph.interpP ∧ (finddir (interpPath node ph)).isNone then [off]
    else off :: interpWalk finddir node buffer offs

/-- Where each of the functions reads a program header. -/
def reads (finddir : List UInt8 → Option Fs.Node) (node : Fs.Node) (buffer : Bytes) (h : Header) :
    Walk → List Nat
  | .setupInterp => interpWalk finddir node buffer h.walk
  | .mapMemory => h.walk
  | .mapLibMemory => h.walk

/-- The record is an entry of the table in the file, and lies in the buffer. -/
structure InTable (h : Header) (off : Nat) : Prop where
  entry : ∃ i < h.ePhnum, h.ePhoff + off = h.ePhoff + i * h.ePhentsize
  inside : off + 32 ≤ h.phSize

section

variable {finddir : List UInt8 → Option Fs.Node} {node : Fs.Node} {buffer : Bytes} {h : Header}

theorem interpWalk_subset (offs : List Nat) : interpWalk finddir node buffer offs ⊆ offs := by
  induction offs with
  | nil => exact List.Subset.refl _
  | cons off offs ih =>
    simp only [interpWalk]
    split
    · exact List.cons_subset_cons off (List.nil_subset offs)
    · exact List.cons_subset_cons off ih

/-- A `setup_interp` that returns has walked over all entries. -/
theorem interpWalk_of_setupInterp {offs : List Nat}
    (hfound : (setupInterp finddir node (offs.map (ProgramHeader.ofBytes buffer))).isSome) :
    interpWalk finddir node buffer offs = offs := by
  unfold setupInterp at hfound
  generalize (none : Option Fs.Node) = req at hfound
  induction offs generalizing req with
  | nil => rfl
  | cons off offs ih =>
    rw [List.map_cons, List.foldlM_cons, Option.isSome_iff_exists] at hfound
    obtain ⟨r, hr⟩ := hfound
    obtain ⟨req', hstep, hrest⟩ := Option.bind_eq_some_iff.1 hr
    simp only [interpWalk]
    rw [if_neg, ih req' (Option.isSome_iff_exists.2 ⟨r, hrest⟩)]
    rintro ⟨hinterp, hnone⟩
    rw [if_pos hinterp] at hstep
    obtain ⟨target, hfind, -⟩ := Option.map_eq_some_iff.1 hstep
    have hpath : finddir (interpPath node (ProgramHeader.ofBytes buffer off)) = some target := hfind
    rw [hpath] at hnone
    cases hnone

theorem reads_subset (w : Walk) : h.reads finddir node buffer w ⊆ h.walk := by
  cases w with
  | setupInterp => exact interpWalk_subset _
  | mapMemory => exact List.Subset.refl _
  | mapLibMemory => exact List.Subset.refl _

end

/-- All entries are read inside the table exactly when the sizes agree, or when there is at
most one entry and it is large enough. -/
theorem walk_inTable_iff (h : Header) :
    (∀ off ∈ h.walk, h.InTable off) ↔
      h.ePhnum = 0 ∨ h.ePhentsize = 32 ∨ (h.ePhnum = 1 ∧ 32 ≤ h.ePhentsize) := by
  have hmem : ∀ i < h.ePhnum, 32 * i ∈ h.walk := fun i hi =>
    List.mem_map.2 ⟨i, List.mem_range.2 hi, rfl⟩
  constructor
  · intro hall
    rcases Nat.eq_zero_or_pos h.ePhnum with hzero | hpos
    · exact .inl hzero
    · have hlast := (hall _ (hmem (h.ePhnum - 1) (by omega))).inside
      have hsize : 32 ≤ h.ePhentsize := by
        rw [show 32 * (h.ePhnum - 1) + 32 = 32 * h.ePhnum by omega] at hlast
        exact Nat.le_of_mul_le_mul_right hlast hpos
      rcases Nat.lt_or_ge 1 h.ePhnum with hmore | hone
      · obtain ⟨i, -, hi⟩ := (hall _ (hmem 1 hmore)).entry
        rw [Nat.add_left_cancel_iff] at hi
        refine .inr (.inl ?_)
        rcases i with - | - | i
        · omega
        · omega
        · rw [Nat.add_mul, Nat.add_mul] at hi
          omega
      · exact .inr (.inr ⟨by omega, hsize⟩)
  · intro hsizes off hoff
    obtain ⟨i, hi, rfl⟩ := List.mem_map.1 hoff
    rw [List.mem_range] at hi
    rcases hsizes with hzero | heq | ⟨hone, hsize⟩
    · omega
    · refine ⟨⟨i, hi, ?_⟩, ?_⟩
      · rw [heq, Nat.mul_comm]
      · rw [phSize, heq]
        omega
    · obtain rfl : i = 0 := by omega
      refine ⟨⟨0, hi, ?_⟩, ?_⟩
      · rw [Nat.zero_mul]
      · rw [phSize, hone]
        omega

/-- **Program headers**: the three walks stay in the table exactly when `e_phentsize` is the
size of a `ProgramHeader`, or when there is at most one entry and it is large enough. -/
theorem reads_inTable_iff (finddir : List UInt8 → Option Fs.Node) (node : Fs.Node)
    (buffer : Bytes) (h : Header) :
    (∀ w, ∀ off ∈ h.reads finddir node buffer w, h.InTable off) ↔
      h.ePhnum = 0 ∨ h.ePhentsize = 32 ∨ (h.ePhnum = 1 ∧ 32 ≤ h.ePhentsize) := by
  rw [← walk_inTable_iff]
  constructor
  · intro hall
    exact hall .mapMemory
  · intro hall w off hoff
    exact hall off (reads_subset w hoff)

/-- A header of a program with two entries of the size. -/
def twoEntries (ePhentsize : Nat) : Header where
  eIdent i := [0x7f, 0x45, 0x4c, 0x46, 1, 1, 1].getD i 0
  eType := 2
  eMachine := 3
  eVersion := 1
  eEntry := 0x8048000
  ePhoff := 52
  ePhentsize
  ePhnum := 2

/-- Entries of 16 bytes: the second record ends 32 bytes behind the buffer. Entries of 56
bytes: it begins inside the first one. -/
theorem reads_leave_table :
    (twoEntries 16).validate = true ∧ (twoEntries 56).validate = true ∧
    (∀ size finddir node buffer, 32 ∈ (twoEntries size).reads finddir node buffer .mapMemory) ∧
    ¬(twoEntries 16).InTable 32 ∧ ¬(twoEntries 56).InTable 32 := by
  refine ⟨by decide, by decide, fun size _ _ _ => ?_, fun h => ?_, fun h => ?_⟩
  · exact List.mem_map.2 ⟨1, List.mem_range.2 Nat.one_lt_two, rfl⟩
  · exact absurd h.inside (by decide)
  · obtain ⟨i, -, hi⟩ := h.entry
    simp only [twoEntries] at hi
    omega

end Header

end Elf

end Ulysses
