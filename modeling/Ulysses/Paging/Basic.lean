import Ulysses.Lib.Word
import Ulysses.Lib.Loop
import Ulysses.Lib.Bitmap

/-!
# Page tables and physical frames

`paging.hpp` and `paging.cpp`: page-table entries, page directories, the bitmap
of physical frames and the functions of `VirtualMemory` over them.

Directories and tables are objects behind pointers, so the state holds one map
from pointers to directories and one from pointers to tables; a null table
pointer is `none`. Where the source calls `kmalloc_ap` for a new object, the
function here takes the pair of the pointer and the physical address that the
call returned. `none` is `kabort`.

`given` is history: the entries that `alloc_frame` has given a frame and that no
`free_frame` was called on since, each with its frame. No function reads it.
-/

namespace Ulysses

open Lib

/-- `cpu::cPageSize`. -/
def pageSize : Nat := 0x1000

/-- `KERNEL_VIRTUAL_BASE`. -/
def kernelVirtualBase : Nat := 0xC0000000

/-- `cpu::page_align`. -/
def pageAlignUp (addr : Nat) : Nat := add32 addr 0xFFF &&& 0xFFFFF000

/-- `x86::Page`; `frame` is 20 bits wide. -/
structure Page where
  present : Bool := false
  rw : Bool := false
  user : Bool := false
  accessed : Bool := false
  dirty : Bool := false
  frame : Nat := 0
  deriving DecidableEq, Repr

def Page.assign (p : Page) (f : Nat) (write kernel : Bool) : Page :=
  { p with present := true, rw := write, user := !kernel, frame := f % 1048576 }

/-- `Page::clear` forgets the frame; the entry stays present. -/
def Page.clear (p : Page) : Page := { p with frame := 0 }

/-- The flags `clone_table` carries over, on top of those `alloc_user_frame` set. -/
def Page.orFlags (q p : Page) : Page :=
  { q with
    present := q.present || p.present
    rw := q.rw || p.rw
    user := q.user || p.user
    accessed := q.accessed || p.accessed
    dirty := q.dirty || p.dirty }

/-- `x86::PageTable`: the entries `0` to `1023`. -/
abbrev PageTable := Nat → Page

/-- `x86::PageDirectory`. -/
structure PageDirectory where
  tables : Nat → Option Nat := fun _ => none
  tablesPhysical : Nat → Nat := fun _ => 0
  physicalAddr : Nat := 0

/-- `sizeof(x86::PageDirectory)`: two arrays of 1024 words, and a word. -/
def pageDirectorySize : Nat := 8196

/-- Where an entry lies: the pointer of its table and its index. -/
structure Entry where
  table : Nat
  index : Nat
  deriving DecidableEq, Repr

structure VirtualMemory where
  kernelDirectory : Nat
  currentDirectory : Nat
  frames : Bitmap
  nframes : Nat
  directories : Nat → PageDirectory
  tables : Nat → PageTable
  /-- The bytes of each physical frame. -/
  physical : Nat → Nat → UInt8
  given : List (Entry × Nat)

namespace VirtualMemory

/-- A memory of 32 frames with nothing allocated. -/
def blankMemory : VirtualMemory where
  kernelDirectory := 0xC0100000
  currentDirectory := 0xC0100000
  frames := fun _ => 0#32
  nframes := 32
  directories := fun _ => {}
  tables := fun _ _ => {}
  physical := fun _ _ => 0
  given := []

/-! ## Entries and frames -/

def page (s : VirtualMemory) (e : Entry) : Page := s.tables e.table e.index

def setPage (s : VirtualMemory) (e : Entry) (p : Page) : VirtualMemory :=
  { s with
    tables := Function.update s.tables e.table (Function.update (s.tables e.table) e.index p) }

def setFrame (frameAddr : Nat) (s : VirtualMemory) : VirtualMemory :=
  { s with frames := s.frames.set (frameAddr / pageSize) }

def clearFrame (frameAddr : Nat) (s : VirtualMemory) : VirtualMemory :=
  { s with frames := s.frames.clear (frameAddr / pageSize) }

/-- `first_frame`; `none` is the answer with `ok` false. -/
def firstFrame (s : VirtualMemory) : Option Nat := s.frames.firstClear (s.nframes / 32)

def allocFrame (e : Entry) (isKernel isWriteable : Bool) (s : VirtualMemory) :
    Option VirtualMemory :=
  if (s.page e).frame ≠ 0 then some s
  else
    match s.firstFrame with
    | none => none
    | some idx =>
      let s := s.setFrame (mul32 idx pageSize)
      let s := s.setPage e ((s.page e).assign idx isWriteable isKernel)
      some { s with given := (e, idx) :: s.given }

/-- `free_frame`. It passes the frame number to `clear_frame`, which takes an
address. -/
def freeFrame (e : Entry) (s : VirtualMemory) : VirtualMemory :=
  let frame := (s.page e).frame
  let s := { s with given := s.given.filter fun g => decide (g.1 ≠ e) }
  if frame = 0 then s else (s.clearFrame frame).setPage e (s.page e).clear

/-! ## Tables -/

/-- `memset` of a new table. -/
def zeroTable (t : Nat) (s : VirtualMemory) : VirtualMemory :=
  { s with tables := Function.update s.tables t fun _ => {} }

/-- Enter a table and the physical address with its flags in a directory. -/
def putTable (dir idx t tmp : Nat) (s : VirtualMemory) : VirtualMemory :=
  let d := s.directories dir
  { s with
    directories := Function.update s.directories dir
      { d with
        tables := Function.update d.tables idx (some t)
        tablesPhysical := Function.update d.tablesPhysical idx tmp } }

/-- `get_page`; a null result is `none`. `fresh` is what `kmalloc_ap` returns when
a table has to be made. -/
def getPage (address : Nat) (make : Bool) (dir : Nat) (fresh : Nat × Nat) (s : VirtualMemory) :
    Option Entry × VirtualMemory :=
  let address := address / pageSize
  let tableIdx := address / 1024
  match (s.directories dir).tables tableIdx with
  | some t => (some ⟨t, address % 1024⟩, s)
  | none =>
    if make then
      (some ⟨fresh.1, address % 1024⟩,
        (s.zeroTable fresh.1).putTable dir tableIdx fresh.1 (fresh.2 ||| 0x7))
    else (none, s)

def getKernelPage (address : Nat) (make : Bool) (fresh : Nat × Nat) (s : VirtualMemory) :
    Option Entry × VirtualMemory :=
  s.getPage address make s.kernelDirectory fresh

def getCurrentPage (address : Nat) (make : Bool) (fresh : Nat × Nat) (s : VirtualMemory) :
    Option Entry × VirtualMemory :=
  s.getPage address make s.currentDirectory fresh

/-- `alloc_frame` on the entry `get_page` returned. -/
def allocAt (r : Option Entry × VirtualMemory) (isKernel isWriteable : Bool) :
    Option VirtualMemory :=
  r.1.bind fun e => r.2.allocFrame e isKernel isWriteable

def allocateUser (address : Nat) (writable : Bool) (fresh : Nat × Nat) (s : VirtualMemory) :
    Option VirtualMemory :=
  allocAt (s.getCurrentPage address true fresh) false writable

/-- One turn of the loop of the heap's `expand`. -/
def expandPage (address : Nat) (fresh : Nat × Nat) (isKernel isWriteable : Bool)
    (s : VirtualMemory) : Option VirtualMemory :=
  allocAt (s.getKernelPage address true fresh) isKernel isWriteable

/-- One turn of the loop of the heap's `contract`; `none` when the page has no
table. -/
def contractPage (address : Nat) (s : VirtualMemory) : Option VirtualMemory :=
  (s.getKernelPage address false (0, 0)).1.map fun e => s.freeFrame e

/-- The kernel branch of `PageFault::handle`: the page is not present, the access
is the kernel's own and the address is above the kernel's base. -/
def kernelBranch (present us : Bool) (faultingAddress : Nat) : Bool :=
  !present && !us && decide (faultingAddress > kernelVirtualBase)

/-- What the handler does on its kernel branch. -/
def kernelFault (faultingAddress : Nat) (fresh : Nat × Nat) (s : VirtualMemory) :
    Option VirtualMemory :=
  allocAt (s.getCurrentPage (faultingAddress &&& 0xFFFFF000) true fresh) true true

def switchPageDirectory (dir : Nat) (s : VirtualMemory) : VirtualMemory :=
  { s with currentDirectory := dir }

/-! ## Copies of tables and directories -/

/-- One turn of the loop of `clone_table`. -/
def cloneEntry (src dst : Nat) (s : VirtualMemory) (i : Nat) : Option VirtualMemory :=
  let p := s.page ⟨src, i⟩
  if p.frame = 0 then some s
  else
    (s.allocFrame ⟨dst, i⟩ false false).map fun s =>
      let q := (s.page ⟨dst, i⟩).orFlags p
      let s := s.setPage ⟨dst, i⟩ q
      { s with physical := Function.update s.physical q.frame (s.physical p.frame) }

/-- `clone_table` into the new table at `dst`. -/
def cloneTable (src dst : Nat) (s : VirtualMemory) : Option VirtualMemory :=
  (List.range 1024).foldlM (cloneEntry src dst) (s.zeroTable dst)

/-- One turn of the loop of `free_table`. -/
def freeEntry (t : Nat) (s : VirtualMemory) (i : Nat) : VirtualMemory :=
  if (s.page ⟨t, i⟩).frame = 0 then s else s.freeFrame ⟨t, i⟩

/-- `free_table` up to its `kfree`. -/
def freeTable (t : Nat) (s : VirtualMemory) : VirtualMemory :=
  (List.range 1024).foldl (freeEntry t) s

/-- A blank directory at `dir`; `phys` is its physical address and 4096 the
offset of `tablesPhysical`. -/
def blankDirectory (dir phys : Nat) (s : VirtualMemory) : VirtualMemory :=
  { s with directories := Function.update s.directories dir { physicalAddr := add32 phys 4096 } }

/-- One turn of the loop of `new_directory`. -/
def shareTable (dir : Nat) (s : VirtualMemory) (i : Nat) : VirtualMemory :=
  match (s.directories s.kernelDirectory).tables i with
  | some t => s.putTable dir i t ((s.directories s.kernelDirectory).tablesPhysical i)
  | none => s

def newDirectory (dir phys : Nat) (s : VirtualMemory) : VirtualMemory :=
  (List.range 1024).foldl (shareTable dir) (s.blankDirectory dir phys)

/-- One turn of the loop of `clone_directory`; `fresh i` is what `kmalloc_ap`
returns for the copy of table `i`. -/
def cloneSlot (src dir : Nat) (fresh : Nat → Nat × Nat) (s : VirtualMemory) (i : Nat) :
    Option VirtualMemory :=
  match (s.directories src).tables i with
  | none => some s
  | some t =>
    if (s.directories s.kernelDirectory).tables i = some t then
      some (s.putTable dir i t ((s.directories src).tablesPhysical i))
    else
      (s.cloneTable t (fresh i).1).map fun s =>
        s.putTable dir i (fresh i).1 ((fresh i).2 ||| 0x07)

def cloneDirectory (src dir phys : Nat) (fresh : Nat → Nat × Nat) (s : VirtualMemory) :
    Option VirtualMemory :=
  (List.range 1024).foldlM (cloneSlot src dir fresh) (s.blankDirectory dir phys)

/-! ## Directories -/

/-- The table of a directory at an index. -/
def tableAt (s : VirtualMemory) (dir i : Nat) : Option Nat := (s.directories dir).tables i

theorem tableAt_putTable (s : VirtualMemory) (dir idx t tmp d i : Nat) :
    (s.putTable dir idx t tmp).tableAt d i =
      if d = dir ∧ i = idx then some t else s.tableAt d i := by
  unfold tableAt putTable
  by_cases hd : d = dir
  · subst hd
    by_cases hi : i = idx
    · simp [hi]
    · simp [hi]
  · simp [hd]

theorem tableAt_blankDirectory (s : VirtualMemory) (dir phys d i : Nat) :
    (s.blankDirectory dir phys).tableAt d i = if d = dir then none else s.tableAt d i := by
  unfold tableAt blankDirectory
  by_cases hd : d = dir
  · simp [hd]
  · simp [hd]

/-- The directories and which of them are the kernel's and the current one. -/
def SameSpaces (s s' : VirtualMemory) : Prop :=
  s'.directories = s.directories ∧ s'.kernelDirectory = s.kernelDirectory ∧
    s'.currentDirectory = s.currentDirectory

theorem SameSpaces.refl (s : VirtualMemory) : SameSpaces s s := ⟨rfl, rfl, rfl⟩

theorem SameSpaces.trans {s₁ s₂ s₃ : VirtualMemory} (h₁ : SameSpaces s₁ s₂)
    (h₂ : SameSpaces s₂ s₃) : SameSpaces s₁ s₃ :=
  ⟨h₂.1.trans h₁.1, h₂.2.1.trans h₁.2.1, h₂.2.2.trans h₁.2.2⟩

variable {s s' : VirtualMemory}

theorem SameSpaces.tableAt (h : SameSpaces s s') (d i : Nat) : s'.tableAt d i = s.tableAt d i := by
  unfold VirtualMemory.tableAt
  rw [h.1]

/-! ## Reading entries back -/

theorem page_setPage (s : VirtualMemory) (e e' : Entry) (p : Page) :
    (s.setPage e p).page e' = if e' = e then p else s.page e' := by
  obtain ⟨t, i⟩ := e
  obtain ⟨t', i'⟩ := e'
  simp only [page, setPage, Entry.mk.injEq]
  by_cases ht : t' = t
  · subst ht
    by_cases hi : i' = i
    · simp [hi]
    · simp [hi]
  · simp [ht]

theorem page_zeroTable (s : VirtualMemory) (t : Nat) (e : Entry) :
    (s.zeroTable t).page e = if e.table = t then {} else s.page e := by
  simp only [page, zeroTable]
  by_cases ht : e.table = t
  · simp [ht]
  · simp [ht]

/-- The bit the search finds is clear, and its number survives the trip through the
frame address and the 20-bit field. -/
theorem firstFrame_spec (hn : s.nframes < 1048576) {idx : Nat} (hidx : s.firstFrame = some idx) :
    s.frames.test idx = false ∧ mul32 idx pageSize / pageSize = idx ∧ idx % 1048576 = idx := by
  obtain ⟨hlt, htest⟩ := Bitmap.firstClear_spec hidx
  have hb : idx < 1048576 := by omega
  refine ⟨htest, ?_, Nat.mod_eq_of_lt hb⟩
  unfold pageSize
  rw [mul32_eq (by omega)]
  omega

/-- What `alloc_frame` does: nothing to an entry that has a frame, and otherwise
it takes the first clear bit. -/
theorem allocFrame_cases {e : Entry} {k w : Bool} (h : s.allocFrame e k w = some s') :
    (s' = s ∧ (s.page e).frame ≠ 0) ∨
      ∃ idx, (s.page e).frame = 0 ∧ s.firstFrame = some idx ∧
        s' = { (s.setFrame (mul32 idx pageSize)).setPage e ((s.page e).assign idx w k) with
          given := (e, idx) :: s.given } := by
  unfold allocFrame at h
  split at h
  · next hf => exact .inl ⟨(Option.some.inj h).symm, hf⟩
  · next hf =>
    split at h
    · cases h
    · next idx hidx =>
      exact .inr ⟨idx, not_not.1 hf, hidx, (Option.some.inj h).symm⟩

/-- The frame that the search finds goes to the entry, if its number fits the 20-bit field. -/
theorem allocFrame_of_firstFrame {e : Entry} {k w : Bool} {idx : Nat}
    (hidx : s.firstFrame = some idx) (hlt : idx < 1048576) (hzero : (s.page e).frame = 0)
    (h : s.allocFrame e k w = some s') :
    (∀ f, s'.frames.test f = (decide (f = idx) || s.frames.test f)) ∧
      s'.physical = s.physical ∧ s'.nframes = s.nframes ∧
      ∀ e', s'.page e' = if e' = e then (s.page e).assign idx w k else s.page e' := by
  obtain ⟨-, hne⟩ | ⟨idx', -, hidx', rfl⟩ := allocFrame_cases h
  · exact absurd hzero hne
  obtain rfl : idx' = idx := Option.some.inj (hidx'.symm.trans hidx)
  have haddr : mul32 idx' pageSize / pageSize = idx' := by
    unfold pageSize
    rw [mul32_eq (by omega)]
    omega
  refine ⟨fun f => ?_, rfl, rfl, fun e' => page_setPage _ e e' _⟩
  show (s.frames.set (mul32 idx' pageSize / pageSize)).test f = _
  rw [haddr, Bitmap.test_set]

theorem allocFrame_spec {e : Entry} {k w : Bool} (hn : s.nframes < 1048576)
    (hzero : (s.page e).frame = 0) (h : s.allocFrame e k w = some s') :
    ∃ idx, s.firstFrame = some idx ∧ s.frames.test idx = false ∧ idx < 1048576 ∧
      (∀ f, s'.frames.test f = (decide (f = idx) || s.frames.test f)) ∧
      s'.physical = s.physical ∧ s'.nframes = s.nframes ∧
      ∀ e', s'.page e' = if e' = e then (s.page e).assign idx w k else s.page e' := by
  obtain ⟨-, hne⟩ | ⟨idx, -, hidx, -⟩ := allocFrame_cases h
  · exact absurd hzero hne
  obtain ⟨hin, hclear⟩ := Bitmap.firstClear_spec hidx
  have hlt : idx < 1048576 := by omega
  exact ⟨idx, hidx, hclear, hlt, allocFrame_of_firstFrame hidx hlt hzero h⟩

theorem allocAt_cases {r : Option Entry × VirtualMemory} {k w : Bool}
    (h : allocAt r k w = some s') : ∃ e, r.1 = some e ∧ r.2.allocFrame e k w = some s' :=
  Option.bind_eq_some_iff.1 h

/-- What `get_page` does: it finds the table, makes one, or returns null. -/
theorem getPage_cases (s : VirtualMemory) (address : Nat) (make : Bool) (dir : Nat)
    (fresh : Nat × Nat) :
    (∃ t, (s.directories dir).tables (address / pageSize / 1024) = some t ∧
        s.getPage address make dir fresh = (some ⟨t, address / pageSize % 1024⟩, s)) ∨
      ((s.directories dir).tables (address / pageSize / 1024) = none ∧ make = true ∧
        s.getPage address make dir fresh = (some ⟨fresh.1, address / pageSize % 1024⟩,
          (s.zeroTable fresh.1).putTable dir (address / pageSize / 1024) fresh.1
            (fresh.2 ||| 0x7))) ∨
      s.getPage address make dir fresh = (none, s) := by
  unfold getPage
  simp only
  cases h : (s.directories dir).tables (address / pageSize / 1024) with
  | some t => exact .inl ⟨t, rfl, rfl⟩
  | none =>
    cases make with
    | true => exact .inr (.inl ⟨rfl, rfl, rfl⟩)
    | false => exact .inr (.inr rfl)

theorem getKernelPage_false (s : VirtualMemory) (address : Nat) (fresh : Nat × Nat) :
    (s.getKernelPage address false fresh).1 =
      (s.tableAt s.kernelDirectory (address / pageSize / 1024)).map
        fun t => ⟨t, address / pageSize % 1024⟩ := by
  unfold getKernelPage getPage tableAt
  simp only
  cases (s.directories s.kernelDirectory).tables (address / pageSize / 1024) with
  | some t => rfl
  | none => rfl

theorem cloneEntry_cases {src dst i : Nat} (h : s.cloneEntry src dst i = some s') :
    (s' = s ∧ (s.page ⟨src, i⟩).frame = 0) ∨
      ∃ s₁ q, (s.page ⟨src, i⟩).frame ≠ 0 ∧ s.allocFrame ⟨dst, i⟩ false false = some s₁ ∧
        q = (s₁.page ⟨dst, i⟩).orFlags (s.page ⟨src, i⟩) ∧
        s' = { s₁.setPage ⟨dst, i⟩ q with
          physical := Function.update s₁.physical q.frame
            (s₁.physical (s.page ⟨src, i⟩).frame) } := by
  unfold cloneEntry at h
  simp only at h
  split at h
  · next hz => exact .inl ⟨(Option.some.inj h).symm, hz⟩
  · next hz =>
    obtain ⟨s₁, ha, rfl⟩ := Option.map_eq_some_iff.1 h
    exact .inr ⟨s₁, _, hz, ha, rfl, rfl⟩

theorem allocFrame_sameSpaces {e : Entry} {k w : Bool} (h : s.allocFrame e k w = some s') :
    SameSpaces s s' := by
  obtain ⟨rfl, -⟩ | ⟨idx, -, -, rfl⟩ := allocFrame_cases h
  · exact .refl s'
  · exact ⟨rfl, rfl, rfl⟩

theorem cloneEntry_sameSpaces {src dst i : Nat} (h : s.cloneEntry src dst i = some s') :
    SameSpaces s s' := by
  obtain ⟨rfl, -⟩ | ⟨s₁, q, -, ha, -, rfl⟩ := cloneEntry_cases h
  · exact .refl s'
  · exact (allocFrame_sameSpaces ha).trans ⟨rfl, rfl, rfl⟩

theorem cloneTable_sameSpaces {src dst : Nat} (h : s.cloneTable src dst = some s') :
    SameSpaces s s' := by
  have hblank : SameSpaces s (s.zeroTable dst) := ⟨rfl, rfl, rfl⟩
  refine foldlM_invariant (P := SameSpaces s) _ (fun _ _ _ _ h₁ hi => ?_) hblank h
  exact h₁.trans (cloneEntry_sameSpaces hi)

theorem cloneSlot_cases {src dir : Nat} {fresh : Nat → Nat × Nat} {i : Nat}
    (h : s.cloneSlot src dir fresh i = some s') :
    (s.tableAt src i = none ∧ s' = s) ∨
      (∃ t, s.tableAt src i = some t ∧ s.tableAt s.kernelDirectory i = some t ∧
        s' = s.putTable dir i t ((s.directories src).tablesPhysical i)) ∨
      ∃ t s₁, s.tableAt src i = some t ∧ s.tableAt s.kernelDirectory i ≠ some t ∧
        s.cloneTable t (fresh i).1 = some s₁ ∧
        s' = s₁.putTable dir i (fresh i).1 ((fresh i).2 ||| 0x07) := by
  unfold cloneSlot at h
  unfold tableAt
  split at h
  · next hn => exact .inl ⟨hn, (Option.some.inj h).symm⟩
  · next t ht =>
    split at h
    · next hk => exact .inr (.inl ⟨t, ht, hk, (Option.some.inj h).symm⟩)
    · next hk =>
      obtain ⟨s₁, hc, rfl⟩ := Option.map_eq_some_iff.1 h
      exact .inr (.inr ⟨t, s₁, ht, hk, hc, rfl⟩)

end VirtualMemory

end Ulysses
