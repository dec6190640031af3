import Mathlib.Data.Set.Lattice
import Mathlib.Order.CompletePartialOrder
import Ulysses.Lib.Reach
import Ulysses.Paging.Basic

/-!
# The boot of virtual memory

`VirtualMemory::init` as far as its mapping loop. There is no heap yet: the frame bitmap,
the kernel's directory and the page tables are carved off the memory behind the kernel by
a pointer that moves up (`bump`).

The bitmap has one word of four bytes for 32 frames, and `init` carves and clears one byte
for 32 frames. So the directory may lie on the bitmap, and where it does not, three
quarters of the bitmap are not cleared before `first_frame` reads them (`boot_objects`).

`tables` and `zeroed` are history: the tables that were made and the ranges that `memset`
was called on, the latest first. No function reads them.
-/

namespace Ulysses

open Lib

/-- `KHEAP_INITIAL_SIZE`. -/
def kheapInitialSize : Nat := 0x100000

/-- `init` in progress. `frames` is the address of the bitmap. -/
structure Boot where
  allocp : Nat
  frames : Nat
  vmem : VirtualMemory
  tables : List Nat := []
  zeroed : List (Nat × Nat) := []

namespace Boot

def bump (point size : Nat) : Nat × Nat := (point, add32 point size)

/-- Enter a table in a directory, as `putTable`; a table at address 0 is a null pointer. -/
def enterTable (dir idx t tmp : Nat) (s : VirtualMemory) : VirtualMemory :=
  let d := s.directories dir
  { s with
    directories := Function.update s.directories dir
      { d with
        tables := Function.update d.tables idx (if t = 0 then none else some t)
        tablesPhysical := Function.update d.tablesPhysical idx tmp } }

/-- The branch of `get_page` that makes a table, at the next page. -/
def makeTable (dir tableIdx : Nat) (b : Boot) : Boot :=
  let addr := pageAlignUp b.allocp
  let tmp := sub32 addr kernelVirtualBase
  { b with
    allocp := add32 addr pageSize
    vmem := enterTable dir tableIdx addr (tmp ||| 0x7) (b.vmem.zeroTable addr)
    tables := addr :: b.tables
    zeroed := (addr, pageSize) :: b.zeroed }

/-- `get_page` with a pointer to bump. -/
def getPage (address : Nat) (make : Bool) (dir : Nat) (b : Boot) : Option Entry × Boot :=
  let address := address / pageSize
  let tableIdx := address / 1024
  match (b.vmem.directories dir).tables tableIdx with
  | some t => (some ⟨t, address % 1024⟩, b)
  | none =>
    if make then (some ⟨pageAlignUp b.allocp, address % 1024⟩, b.makeTable dir tableIdx)
    else (none, b)

/-- One turn of the mapping loop; `none` is `kabort`. -/
def mapPage (page : Nat) (b : Boot) : Option Boot :=
  let r := b.getPage page true b.vmem.kernelDirectory
  r.1.bind fun e => (r.2.vmem.allocFrame e false false).map fun vmem => { r.2 with vmem }

/-- The mapping loop from `page` on, for at most so many turns; `none` is `kabort` or a loop
that goes on. -/
def mapLoop (heapEnd : Nat) : Nat → Nat → Boot → Option Boot
  | 0, page, b => if page < heapEnd then none else some b
  | n + 1, page, b =>
    if page < heapEnd then (b.mapPage page).bind fun b => mapLoop heapEnd n (add32 page pageSize) b
    else some b

/-- `memset` of the first `n` bytes of a bitmap. -/
def clearBytes (n : Nat) (m : Bitmap) : Bitmap := fun i =>
  m i &&& (BitVec.allOnes 32 <<< (8 * (n - 4 * i)))

def initialHeapEnd (memEnd : Nat) : Nat := add32 memEnd kheapInitialSize

/-- `init` up to the mapping loop, on whatever is in memory. -/
def start (totalMemory memEnd : Nat) (s : VirtualMemory) : Boot :=
  let nframes := totalMemory / pageSize
  let r := bump memEnd (nframes / 32)
  let d := bump (pageAlignUp r.2) pageDirectorySize
  { allocp := d.2
    frames := r.1
    vmem :=
      { s with
        nframes
        frames := clearBytes (nframes / 32) s.frames
        kernelDirectory := d.1
        currentDirectory := 0
        directories := Function.update s.directories d.1
          { physicalAddr := sub32 (add32 d.1 4096) kernelVirtualBase } }
    zeroed := [(d.1, pageDirectorySize), (r.1, nframes / 32)] }

/-! ## Where the objects lie -/

/-- The addresses of an object. -/
def region (o : Nat × Nat) : Set Nat := {x | ∃ i < o.2, x = (o.1 + i) % 4294967296}

/-- The bitmap, as far as `set_frame` and `first_frame` go for the frames the search can
find. -/
def bitmap (b : Boot) : Nat × Nat := (b.frames, 4 * (b.vmem.nframes / 32))

/-- What was carved off so far. -/
def objects (b : Boot) : List (Nat × Nat) :=
  b.bitmap :: (b.vmem.kernelDirectory, pageDirectorySize) :: b.tables.map fun t => (t, pageSize)

/-- The turns of the loop: the counter with the state before a turn. -/
inductive Turn (heapEnd : Nat) : Nat × Boot → Nat × Boot → Prop
  | mk {page : Nat} {b b' : Boot} (hlt : page < heapEnd) (h : b.mapPage page = some b') :
      Turn heapEnd (page, b) (add32 page pageSize, b')

/-- The states in which `init` looks for a table or, after `get_page`, for a frame. -/
inductive Carved (totalMemory memEnd : Nat) (s : VirtualMemory) : Boot → Prop
  | loop {page : Nat} {b : Boot}
      (h : Reach (· = (kernelVirtualBase, start totalMemory memEnd s))
        (Turn (initialHeapEnd memEnd)) (page, b)) : Carved totalMemory memEnd s b
  | table {page : Nat} {b : Boot}
      (h : Reach (· = (kernelVirtualBase, start totalMemory memEnd s))
        (Turn (initialHeapEnd memEnd)) (page, b)) (hlt : page < initialHeapEnd memEnd) :
      Carved totalMemory memEnd s (b.getPage page true b.vmem.kernelDirectory).2

/-- The state in which the bitmap is read for the first time: in the first turn of the loop,
or after it if there is none. -/
def firstUse (totalMemory memEnd : Nat) (s : VirtualMemory) : Boot :=
  let b := start totalMemory memEnd s
  if kernelVirtualBase < initialHeapEnd memEnd then
    (b.getPage kernelVirtualBase true b.vmem.kernelDirectory).2
  else b

/-- The objects never overlap, and the bitmap is cleared when it is read. -/
structure ObjectsOk (totalMemory memEnd : Nat) (s : VirtualMemory) : Prop where
  apart : ∀ b, Carved totalMemory memEnd s b →
    b.objects.Pairwise fun x y => Disjoint (region x) (region y)
  zeroed : ∀ x ∈ region (firstUse totalMemory memEnd s).bitmap,
    ∃ r ∈ (firstUse totalMemory memEnd s).zeroed, x ∈ region r

/-! ## Addresses -/

/-- Rounding up moves an address by less than a page, around the end of memory if need be. -/
theorem pageAlignUp_eq {x : Nat} (hx : x < 4294967296) :
    ∃ g < 4096, pageAlignUp x = (x + g) % 4294967296 := by
  unfold pageAlignUp
  rw [and_pageMask (add32_lt ..)]
  unfold add32
  by_cases hwrap : x + 0xFFF < 4294967296
  · exact ⟨(x + 0xFFF) / 4096 * 4096 - x, by omega, by omega⟩
  · exact ⟨4294967296 - x, by omega, by omega⟩

/-- Objects one behind the other do not overlap, as long as they do not go all around. -/
theorem disjoint_region {a p q n m : Nat} (hpq : p + n ≤ q) (hqm : q + m ≤ p + 4294967296) :
    Disjoint (region ((a + p) % 4294967296, n)) (region ((a + q) % 4294967296, m)) := by
  rw [Set.disjoint_left]
  rintro x ⟨i, hi, rfl⟩ ⟨j, hj, heq⟩
  simp only at hi hj heq
  omega

section

variable {totalMemory memEnd : Nat} {s : VirtualMemory}

theorem start_bitmap (totalMemory memEnd : Nat) (s : VirtualMemory) :
    (start totalMemory memEnd s).bitmap = (memEnd, 4 * (totalMemory / pageSize / 32)) := rfl

theorem start_objects (totalMemory memEnd : Nat) (s : VirtualMemory) :
    (start totalMemory memEnd s).objects = [(memEnd, 4 * (totalMemory / pageSize / 32)),
      (pageAlignUp (add32 memEnd (totalMemory / pageSize / 32)), pageDirectorySize)] := rfl

theorem start_tables (i : Nat) :
    (start totalMemory memEnd s).vmem.tableAt (start totalMemory memEnd s).vmem.kernelDirectory i =
      none := by
  unfold start VirtualMemory.tableAt
  simp only [Function.update_self]

end

section

variable {b : Boot}

theorem getPage_of_some {address dir t : Nat}
    (h : b.vmem.tableAt dir (address / pageSize / 1024) = some t) :
    b.getPage address true dir = (some ⟨t, address / pageSize % 1024⟩, b) := by
  unfold VirtualMemory.tableAt at h
  unfold getPage
  simp only [h]

theorem getPage_of_none {address dir : Nat}
    (h : b.vmem.tableAt dir (address / pageSize / 1024) = none) :
    b.getPage address true dir = (some ⟨pageAlignUp b.allocp, address / pageSize % 1024⟩,
      b.makeTable dir (address / pageSize / 1024)) := by
  unfold VirtualMemory.tableAt at h
  unfold getPage
  simp only [h, if_true]

theorem makeTable_page (dir idx : Nat) (e : Entry) : (b.makeTable dir idx).vmem.page e =
    if e.table = pageAlignUp b.allocp then {} else b.vmem.page e :=
  VirtualMemory.page_zeroTable b.vmem _ e

theorem makeTable_nframes (dir idx : Nat) :
    (b.makeTable dir idx).vmem.nframes = b.vmem.nframes := by
  unfold makeTable
  rfl

theorem makeTable_kernelDirectory (dir idx : Nat) :
    (b.makeTable dir idx).vmem.kernelDirectory = b.vmem.kernelDirectory := by
  unfold makeTable
  rfl

theorem makeTable_frames (dir idx : Nat) :
    (b.makeTable dir idx).vmem.frames = b.vmem.frames := by
  unfold makeTable
  rfl

theorem makeTable_allocp (dir idx : Nat) :
    (b.makeTable dir idx).allocp = add32 (pageAlignUp b.allocp) pageSize := by
  unfold makeTable
  rfl

theorem makeTable_tableAt (dir idx : Nat) (hnull : pageAlignUp b.allocp ≠ 0) (d i : Nat) :
    (b.makeTable dir idx).vmem.tableAt d i =
      if d = dir ∧ i = idx then some (pageAlignUp b.allocp) else b.vmem.tableAt d i := by
  have henter : ∀ tmp s, enterTable dir idx (pageAlignUp b.allocp) tmp s =
      s.putTable dir idx (pageAlignUp b.allocp) tmp := fun tmp s => by
    unfold enterTable VirtualMemory.putTable
    rw [if_neg hnull]
  unfold makeTable
  simp only [henter]
  exact VirtualMemory.tableAt_putTable ..

theorem makeTable_bitmap (dir idx : Nat) : (b.makeTable dir idx).bitmap = b.bitmap := by
  unfold bitmap
  rw [makeTable_nframes]
  unfold makeTable
  rfl

theorem makeTable_zeroed (dir idx : Nat) :
    (b.makeTable dir idx).zeroed = (pageAlignUp b.allocp, pageSize) :: b.zeroed := by
  unfold makeTable
  rfl

theorem makeTable_objects (dir idx : Nat) : (b.makeTable dir idx).objects = b.bitmap ::
    (b.vmem.kernelDirectory, pageDirectorySize) :: (pageAlignUp b.allocp, pageSize) ::
      b.tables.map fun t => (t, pageSize) := by
  unfold objects
  rw [makeTable_bitmap]
  unfold makeTable
  rfl

/-- With fewer frames than a word has bits the search finds none. -/
theorem mapPage_eq_none (hn : b.vmem.nframes / 32 = 0) {page : Nat}
    (h : b.vmem.tableAt b.vmem.kernelDirectory (page / pageSize / 1024) = none) :
    b.mapPage page = none := by
  unfold mapPage
  rw [getPage_of_none h]
  simp only [Option.bind_some, Option.map_eq_none_iff]
  have hfirst : (b.makeTable b.vmem.kernelDirectory (page / pageSize / 1024)).vmem.firstFrame =
      none := by
    rw [VirtualMemory.firstFrame, makeTable_nframes, hn]
    rfl
  rw [VirtualMemory.allocFrame, makeTable_page, if_pos rfl, hfirst]
  exact if_neg (not_not.2 rfl)

end

/-! ## Overlap -/

section

variable {totalMemory memEnd : Nat} {s : VirtualMemory}

theorem start_places (totalMemory memEnd : Nat) (s : VirtualMemory) :
    ∃ g < 4096, ∃ g' < 4096,
      (start totalMemory memEnd s).vmem.kernelDirectory =
        (memEnd + (totalMemory / pageSize / 32 + g)) % 4294967296 ∧
      pageAlignUp (start totalMemory memEnd s).allocp =
        (memEnd + (totalMemory / pageSize / 32 + g + 8196 + g')) % 4294967296 := by
  obtain ⟨g, hg, hdir⟩ := pageAlignUp_eq (add32_lt memEnd (totalMemory / pageSize / 32))
  have hallocp : (start totalMemory memEnd s).allocp =
      add32 (pageAlignUp (add32 memEnd (totalMemory / pageSize / 32))) 8196 := rfl
  obtain ⟨g', hg', htable⟩ := pageAlignUp_eq (hallocp ▸ add32_lt _ _)
  refine ⟨g, hg, g', hg', ?_, ?_⟩
  · show pageAlignUp (add32 memEnd (totalMemory / pageSize / 32)) = _
    rw [hdir]
    unfold add32
    omega
  · rw [htable, hallocp, hdir]
    unfold add32
    omega

/-- Without a word in the bitmap the loop stops in its first turn. -/
theorem carved_cases (hw : totalMemory / pageSize / 32 = 0) {b : Boot}
    (h : Carved totalMemory memEnd s b) :
    b = start totalMemory memEnd s ∨
      ∃ idx, b = (start totalMemory memEnd s).makeTable
        (start totalMemory memEnd s).vmem.kernelDirectory idx := by
  have hreach : ∀ {x : Nat × Boot}, Reach (· = (kernelVirtualBase, start totalMemory memEnd s))
      (Turn (initialHeapEnd memEnd)) x → x = (kernelVirtualBase, start totalMemory memEnd s) := by
    intro x hx
    refine Reach.invariant (I := (· = (kernelVirtualBase, start totalMemory memEnd s)))
      (fun _ h => h) (fun x y hxs hturn => ?_) hx
    cases hturn with
    | mk hlt hmap =>
      obtain ⟨rfl, rfl⟩ := Prod.mk.inj hxs
      rw [mapPage_eq_none hw (start_tables _)] at hmap
      cases hmap
  cases h with
  | loop hr => exact .inl (Prod.mk.inj (hreach hr)).2
  | table hr _ =>
    obtain ⟨rfl, rfl⟩ := Prod.mk.inj (hreach hr)
    rw [getPage_of_none (start_tables _)]
    exact .inr ⟨_, rfl⟩

/-- The bitmap is read first in the state that `init` enters the loop with, or after the
first table was made. -/
theorem firstUse_cases (totalMemory memEnd : Nat) (s : VirtualMemory) :
    Carved totalMemory memEnd s (firstUse totalMemory memEnd s) ∧
      (firstUse totalMemory memEnd s = start totalMemory memEnd s ∨
        ∃ idx, firstUse totalMemory memEnd s = (start totalMemory memEnd s).makeTable
          (start totalMemory memEnd s).vmem.kernelDirectory idx) := by
  unfold firstUse
  simp only
  split
  · next hlt =>
    refine ⟨.table (.init rfl) hlt, .inr ?_⟩
    rw [getPage_of_none (start_tables _)]
    exact ⟨_, rfl⟩
  · exact ⟨.loop (.init rfl), .inl rfl⟩

theorem firstUse_bitmap : (firstUse totalMemory memEnd s).bitmap =
    (start totalMemory memEnd s).bitmap := by
  obtain ⟨-, heq | ⟨idx, heq⟩⟩ := firstUse_cases totalMemory memEnd s
  · rw [heq]
  · rw [heq, makeTable_bitmap]

theorem objectsOk_of_small (hw : totalMemory / pageSize / 32 = 0) :
    ObjectsOk totalMemory memEnd s := by
  have hempty : region (start totalMemory memEnd s).bitmap = ∅ := by
    rw [start_bitmap, hw]
    exact Set.eq_empty_of_forall_notMem fun x ⟨i, hi, _⟩ => absurd hi (Nat.not_lt_zero i)
  obtain ⟨g, hg, g', hg', hdir, htable⟩ := start_places totalMemory memEnd s
  refine ⟨fun b hb => ?_, fun x hx => ?_⟩
  · have hbitmap : ∀ o, Disjoint (region (start totalMemory memEnd s).bitmap) (region o) := by
      rw [hempty]
      exact fun o => Set.empty_disjoint _
    obtain rfl | ⟨idx, rfl⟩ := carved_cases hw hb
    · exact .cons (fun o _ => hbitmap o) (List.pairwise_singleton _ _)
    · rw [makeTable_objects]
      refine .cons (fun o _ => hbitmap o) (List.pairwise_pair.2 ?_)
      rw [hdir, htable]
      unfold pageDirectorySize pageSize
      exact disjoint_region (by omega) (by omega)
  · have hbitmap : (firstUse totalMemory memEnd s).bitmap =
        (start totalMemory memEnd s).bitmap := firstUse_bitmap
    rw [hbitmap, hempty] at hx
    cases hx

/-- The byte of the bitmap behind those that `init` clears is not cleared unless the bitmap
lies on something else. -/
theorem small_of_objectsOk (htotal : totalMemory < 4294967296)
    (h : ObjectsOk totalMemory memEnd s) : totalMemory / pageSize / 32 = 0 := by
  by_contra hw
  have hlt : totalMemory / pageSize / 32 < 4294967296 :=
    Nat.lt_of_le_of_lt ((Nat.div_le_self _ _).trans (Nat.div_le_self _ _)) htotal
  obtain ⟨hcarved, hcases⟩ := firstUse_cases totalMemory memEnd s
  have hbitmap : (firstUse totalMemory memEnd s).bitmap = _ := firstUse_bitmap
  rw [start_bitmap] at hbitmap
  have hmem : (memEnd + totalMemory / pageSize / 32) % 4294967296 ∈
      region (firstUse totalMemory memEnd s).bitmap := by
    rw [hbitmap]
    exact ⟨totalMemory / pageSize / 32, by simp only; omega, rfl⟩
  -- what else was cleared does not meet the bitmap
  have hother : ∀ o ∈ (firstUse totalMemory memEnd s).objects.tail,
      (memEnd + totalMemory / pageSize / 32) % 4294967296 ∉ region o := fun o ho hx =>
    Set.disjoint_left.1 ((List.pairwise_cons.1 (h.apart _ hcarved)).1 o ho) hmem hx
  obtain ⟨r, hr, hx⟩ := h.zeroed _ hmem
  have hzeroed : r = (memEnd, totalMemory / pageSize / 32) ∨
      r ∈ (firstUse totalMemory memEnd s).objects.tail := by
    rcases hcases with heq | ⟨idx, heq⟩
    · rw [heq] at hr ⊢
      simp only [start, bump, List.mem_cons, List.not_mem_nil, or_false] at hr
      rw [start_objects]
      rcases hr with rfl | rfl
      · exact .inr List.mem_cons_self
      · exact .inl rfl
    · rw [heq, makeTable_zeroed, List.mem_cons] at hr
      rw [heq, makeTable_objects]
      rcases hr with rfl | hr
      · exact .inr (List.mem_cons_of_mem _ List.mem_cons_self)
      · simp only [start, bump, List.mem_cons, List.not_mem_nil, or_false] at hr
        rcases hr with rfl | rfl
        · exact .inr List.mem_cons_self
        · exact .inl rfl
  rcases hzeroed with rfl | ho
  · obtain ⟨i, hi, heq⟩ := hx
    simp only at hi heq
    omega
  · exact hother r ho hx

/-- The objects that `init` carves off are apart, and the bitmap is cleared before it is
read, if and only if there are fewer frames than a word of the bitmap has bits. -/
theorem boot_objects (htotal : totalMemory < 4294967296) :
    ObjectsOk totalMemory memEnd s ↔ totalMemory < 131072 := by
  have hsmall : totalMemory / pageSize / 32 = 0 ↔ totalMemory < 131072 := by
    unfold pageSize
    omega
  rw [← hsmall]
  exact ⟨small_of_objectsOk htotal, objectsOk_of_small⟩

end

/-- A machine with 64 KiB. -/
theorem boot_objects_small : ObjectsOk 0x10000 0xC0150E80 VirtualMemory.blankMemory :=
  (boot_objects (by decide)).2 (by decide)

/-- With 16 MiB the bitmap has 512 bytes. The directory begins in it, 384 bytes behind its
start, and the byte behind the 128 that are cleared is not cleared. -/
theorem boot_objects_overlap :
    (start 0x1000000 0xC0150E80 VirtualMemory.blankMemory).bitmap = (0xC0150E80, 512) ∧
      (start 0x1000000 0xC0150E80 VirtualMemory.blankMemory).vmem.kernelDirectory = 0xC0151000 ∧
      0xC0151000 ∈ region (0xC0150E80, 512) ∧
      (∀ r ∈ (firstUse 0x1000000 0xC0150E80 VirtualMemory.blankMemory).zeroed,
        0xC0150F00 ∉ region r) ∧
      ¬ObjectsOk 0x1000000 0xC0150E80 VirtualMemory.blankMemory := by
  refine ⟨by decide, by decide, ⟨0x180, by decide, by decide⟩, fun r hr => ?_, fun h => ?_⟩
  · have hzeroed : (firstUse 0x1000000 0xC0150E80 VirtualMemory.blankMemory).zeroed =
        [(0xC0154000, 4096), (0xC0151000, 8196), (0xC0150E80, 128)] := by decide
    rw [hzeroed] at hr
    simp only [List.mem_cons, List.not_mem_nil, or_false] at hr
    rintro ⟨i, hi, heq⟩
    rcases hr with rfl | rfl | rfl
    · simp only at hi heq
      omega
    · simp only at hi heq
      omega
    · simp only at hi heq
      omega
  · exact absurd (small_of_objectsOk (by decide) h) (by decide)

end Boot

end Ulysses
