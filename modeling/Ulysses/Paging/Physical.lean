import Ulysses.Lib.Reach
import Ulysses.Paging.Apart
import Ulysses.Paging.Frames

/-!
# The physical address of a directory

`new_directory` and `clone_directory` get the physical address of the first byte of the
directory from `kmalloc_int` and add the offset of `tablesPhysical`, which lies in the next
page. That is the physical address of the array when the second page of the block has the
frame after that of the first (`directory_base_iff`); the heap takes its pages one at a
time, and a user page allocated between two of them breaks the sequence
(`directory_base_of_user_page`).
-/

namespace Ulysses

open Lib

namespace VirtualMemory

/-- The offset of `tablesPhysical`. -/
def tablesPhysicalOffset : Nat := 4096

/-- The entry of an address in the tables of the kernel's directory. -/
def kernelEntry (s : VirtualMemory) (address : Nat) : Option Entry :=
  (s.getKernelPage address false (0, 0)).1

/-- The physical address behind a virtual one, through the kernel's page tables. -/
def translate (s : VirtualMemory) (address : Nat) : Option Nat :=
  (s.kernelEntry address).bind fun e =>
    if (s.page e).present then some ((s.page e).frame % 1048576 * pageSize + address % pageSize)
    else none

/-- What `kmalloc_int` stores in `*phys` for the block at `addr`; `none` is a null entry. -/
def kmallocPhys (s : VirtualMemory) (addr : Nat) : Option Nat :=
  (s.kernelEntry addr).map fun e => add32 (mul32 (s.page e).frame 0x1000) (addr &&& 0xFFF)

/-! ## Calls -/

/-- The two functions that make a directory. `calls i` makes the copy of table `i`. -/
inductive DirectoryCall
  | new
  | clone (src : Nat) (calls : Nat → HeapCall)

/-- The call from where `knew_phys` has found the block at `dir` on. -/
def makeDirectory (dir : Nat) (c : DirectoryCall) (s : VirtualMemory) : Option VirtualMemory :=
  (s.kmallocPhys dir).bind fun phys =>
    match c with
    | .new => some (s.newDirectory dir phys)
    | .clone src calls => Growing.cloneDirectory src { object := (dir, phys) } calls s

/-- What changes the tables and the frames: a turn of the heap's `expand` and `contract`, a
user page, `free_frame`, another current directory, a new directory. -/
inductive MemoryCall
  | expandPage (address : Nat) (fresh : Nat × Nat) (isKernel isWriteable : Bool)
  | contractPage (address : Nat)
  | allocateUser (address : Nat) (writable : Bool) (fresh : Nat × Nat)
  | freeFrame (e : Entry)
  | switch (dir : Nat)
  | makeDirectory (dir : Nat) (c : DirectoryCall)

def applyCall (s : VirtualMemory) : MemoryCall → Option VirtualMemory
  | .expandPage address fresh isKernel isWriteable =>
    s.expandPage address fresh isKernel isWriteable
  | .contractPage address => s.contractPage address
  | .allocateUser address writable fresh => s.allocateUser address writable fresh
  | .freeFrame e => some (s.freeFrame e)
  | .switch dir => some (s.switchPageDirectory dir)
  | .makeDirectory dir c => s.makeDirectory dir c

def MemoryStep (s s' : VirtualMemory) : Prop := ∃ c, s.applyCall c = some s'

/-- The base of the directory is the physical address of its `tablesPhysical`. -/
def BaseOk (s : VirtualMemory) (dir : Nat) : Prop :=
  s.translate (dir + tablesPhysicalOffset) = some (s.directories dir).physicalAddr

/-- The page after that of `dir` has the next frame. -/
def NextFrame (s : VirtualMemory) (dir : Nat) : Prop :=
  (s.kernelEntry (dir + pageSize)).map (fun e => (s.page e).frame % 1048576) =
    (s.kernelEntry dir).map fun e => ((s.page e).frame + 1) % 1048576

/-- The address is in a page of the kernel's that has a frame. -/
def Backed (s : VirtualMemory) (address : Nat) : Prop :=
  (s.kernelEntry address).any (fun e => (s.page e).present && decide ((s.page e).frame ≠ 0)) = true

instance (s : VirtualMemory) (address : Nat) : Decidable (s.Backed address) :=
  inferInstanceAs (Decidable (_ = true))

/-- A block of the heap for a directory: it is not the kernel's directory, and its bytes are
backed. -/
structure DirectoryBlock (s : VirtualMemory) (dir : Nat) : Prop where
  new : dir ≠ s.kernelDirectory
  lt : dir + pageDirectorySize ≤ 4294967296
  backed : ∀ a, dir ≤ a → a < dir + pageDirectorySize → s.Backed a

/-- What `kmalloc_ap` sees to: the new tables of a call are none that the kernel's directory
has. -/
def DirectoryCall.NewTables (s : VirtualMemory) : DirectoryCall → Prop
  | .new => True
  | .clone _ calls => ∀ j t, s.tableAt s.kernelDirectory j = some t →
    ∀ i, (calls i).object.1 ≠ t ∧ ∀ p ∈ (calls i).pages, p.2.1 ≠ t

/-! ## What a call keeps -/

/-- The entry `e` of slot `i` of the kernel stays where it is, with its frame, and no
directory changes its base. -/
structure KeepsEntry (e : Entry) (i : Nat) (s s' : VirtualMemory) : Prop where
  kernel : s'.kernelDirectory = s.kernelDirectory
  table : s.tableAt s.kernelDirectory i = some e.table →
    s'.tableAt s.kernelDirectory i = some e.table
  page : (s.page e).frame ≠ 0 → s'.page e = s.page e
  base : ∀ d, (s'.directories d).physicalAddr = (s.directories d).physicalAddr

section

variable {e : Entry} {i : Nat} {s s' : VirtualMemory}

theorem KeepsEntry.refl (e : Entry) (i : Nat) (s : VirtualMemory) : KeepsEntry e i s s :=
  ⟨rfl, id, fun _ => rfl, fun _ => rfl⟩

theorem KeepsEntry.trans {s₁ s₂ s₃ : VirtualMemory} (h₁ : KeepsEntry e i s₁ s₂)
    (h₂ : KeepsEntry e i s₂ s₃) : KeepsEntry e i s₁ s₃ where
  kernel := h₂.kernel.trans h₁.kernel
  table ht := by
    have hkept := h₂.table
    rw [h₁.kernel] at hkept
    exact hkept (h₁.table ht)
  page hz := by
    have hpage := h₁.page hz
    rw [h₂.page (hpage ▸ hz), hpage]
  base d := (h₂.base d).trans (h₁.base d)

theorem keepsEntry_zeroTable {t : Nat} (ht : e.table ≠ t) (s : VirtualMemory) :
    KeepsEntry e i s (s.zeroTable t) :=
  ⟨rfl, id, fun _ => by rw [page_zeroTable, if_neg ht], fun _ => rfl⟩

theorem physicalAddr_putTable (dir idx t tmp d : Nat) (s : VirtualMemory) :
    ((s.putTable dir idx t tmp).directories d).physicalAddr =
      (s.directories d).physicalAddr := by
  unfold putTable
  by_cases hd : d = dir
  · subst hd
    simp
  · simp [hd]

theorem keepsEntry_putTable {dir idx : Nat} (t tmp : Nat)
    (h : dir = s.kernelDirectory → s.tableAt dir idx = none) :
    KeepsEntry e i s (s.putTable dir idx t tmp) := by
  refine ⟨rfl, fun ht => ?_, fun _ => rfl, fun d =>
    physicalAddr_putTable dir idx t tmp d s⟩
  rw [tableAt_putTable, if_neg]
  · exact ht
  · rintro ⟨hdir, rfl⟩
    rw [hdir] at ht
    rw [h hdir.symm] at ht
    cases ht

theorem keepsEntry_allocFrame {e' : Entry} {k w : Bool} (h : s.allocFrame e' k w = some s') :
    KeepsEntry e i s s' := by
  obtain ⟨rfl, -⟩ | ⟨idx, hzero, -, rfl⟩ := allocFrame_cases h
  · exact .refl _ _ _
  · refine ⟨rfl, id, fun hnz => ?_, fun _ => rfl⟩
    have hne : e ≠ e' := fun heq => hnz (heq ▸ hzero)
    exact (page_setPage _ e' e _).trans (if_neg hne)

theorem keepsEntry_cloneEntry {src dst j : Nat} (hdst : e.table ≠ dst)
    (h : s.cloneEntry src dst j = some s') : KeepsEntry e i s s' := by
  obtain ⟨rfl, -⟩ | ⟨s₁, q, -, halloc, -, rfl⟩ := cloneEntry_cases h
  · exact .refl _ _ _
  · have hne : e ≠ ⟨dst, j⟩ := fun heq => hdst (congrArg Entry.table heq)
    refine (keepsEntry_allocFrame halloc).trans ⟨rfl, id, fun _ => ?_, fun _ => rfl⟩
    exact (page_setPage s₁ ⟨dst, j⟩ e q).trans (if_neg hne)

theorem keepsEntry_cloneTable {src dst : Nat} (hdst : e.table ≠ dst)
    (h : s.cloneTable src dst = some s') : KeepsEntry e i s s' :=
  foldlM_invariant (P := KeepsEntry e i s) _
    (fun _ _ _ _ hx hstep => hx.trans (keepsEntry_cloneEntry hdst hstep))
    (keepsEntry_zeroTable hdst s) h

theorem keepsEntry_expandPage {address : Nat} {fresh : Nat × Nat} {k w : Bool}
    (hfresh : e.table ≠ fresh.1) (h : s.expandPage address fresh k w = some s') :
    KeepsEntry e i s s' := by
  obtain ⟨e', he', halloc⟩ := allocAt_cases h
  refine KeepsEntry.trans ?_ (keepsEntry_allocFrame halloc)
  unfold getKernelPage
  obtain ⟨t, -, heq⟩ | ⟨hnone, -, heq⟩ | heq :=
    getPage_cases s address true s.kernelDirectory fresh
  · rw [heq]
    exact .refl _ _ _
  · rw [heq]
    exact (keepsEntry_zeroTable hfresh s).trans (keepsEntry_putTable _ _ fun _ => hnone)
  · rw [heq]
    exact .refl _ _ _

theorem keepsEntry_knewPhys {c : HeapCall} (hmade : ∀ p ∈ c.pages, e.table ≠ p.2.1)
    (h : Growing.knewPhys c s = some s') : KeepsEntry e i s s' :=
  foldlM_invariant (P := KeepsEntry e i s) _
    (fun _ p _ hp hx hstep => hx.trans (keepsEntry_expandPage (hmade p hp) hstep)) (.refl e i s) h

theorem keepsEntry_cloneSlot {src dir j : Nat} {calls : Nat → HeapCall}
    (hdir : dir ≠ s.kernelDirectory)
    (hnew : e.table ≠ (calls j).object.1 ∧ ∀ p ∈ (calls j).pages, e.table ≠ p.2.1)
    (h : Growing.cloneSlot src dir calls s j = some s') : KeepsEntry e i s s' := by
  unfold Growing.cloneSlot at h
  split at h
  · exact Option.some.inj h ▸ .refl _ _ _
  split at h
  · obtain rfl := Option.some.inj h
    exact keepsEntry_putTable _ _ fun heq => absurd heq hdir
  · obtain ⟨s₂, hclone, rfl⟩ := Option.map_eq_some_iff.1 h
    obtain ⟨s₁, hknew, hclone⟩ := Option.bind_eq_some_iff.1 hclone
    have hcopy : KeepsEntry e i s s₂ :=
      (keepsEntry_knewPhys hnew.2 hknew).trans (keepsEntry_cloneTable hnew.1 hclone)
    exact hcopy.trans (keepsEntry_putTable _ _ fun heq => absurd (heq.trans hcopy.kernel) hdir)

theorem keepsEntry_shareTable {dir : Nat} (hdir : dir ≠ s.kernelDirectory) (j : Nat) :
    KeepsEntry e i s (s.shareTable dir j) := by
  unfold shareTable
  split
  · exact keepsEntry_putTable _ _ fun heq => absurd heq hdir
  · exact .refl _ _ _

theorem keepsEntry_makeDirectory {dir phys : Nat} {c : DirectoryCall}
    (hphys : s.kmallocPhys dir = some phys) (hdir : dir ≠ s.kernelDirectory)
    (hnew : c.NewTables s) {j : Nat} (he : s.tableAt s.kernelDirectory j = some e.table)
    (h : s.makeDirectory dir c = some s') : KeepsEntry e i (s.blankDirectory dir phys) s' := by
  have hblank : (s.blankDirectory dir phys).kernelDirectory = s.kernelDirectory := rfl
  unfold makeDirectory at h
  rw [hphys, Option.bind_some] at h
  cases c with
  | new =>
    obtain rfl := Option.some.inj h
    refine List.foldlRecOn (motive := KeepsEntry e i (s.blankDirectory dir phys)) _ _
      (.refl _ _ _) fun x hx j _ => hx.trans (keepsEntry_shareTable ?_ j)
    rw [hx.kernel]
    exact hdir
  | clone src calls =>
    obtain ⟨s₁, hknew, h⟩ := Option.bind_eq_some_iff.1 h
    obtain rfl := Option.some.inj hknew
    refine foldlM_invariant (P := KeepsEntry e i (s.blankDirectory dir phys)) _
      (fun x n x' _ hx hstep => hx.trans (keepsEntry_cloneSlot ?_ ?_ hstep)) (.refl _ _ _) h
    · rw [hx.kernel]
      exact hdir
    · obtain ⟨hobject, hpages⟩ := hnew j e.table he n
      exact ⟨hobject.symm, fun p hp => (hpages p hp).symm⟩

/-! ## The base -/

theorem kernelEntry_eq_some {address : Nat} :
    s.kernelEntry address = some e ↔
      s.tableAt s.kernelDirectory (address / pageSize / 1024) = some e.table ∧
        e.index = address / pageSize % 1024 := by
  unfold kernelEntry
  rw [getKernelPage_false, Option.map_eq_some_iff]
  constructor
  · rintro ⟨t, ht, rfl⟩
    exact ⟨ht, rfl⟩
  · rintro ⟨ht, hidx⟩
    exact ⟨e.table, ht, by rw [← hidx]⟩

theorem Backed.entry {address : Nat} (h : s.Backed address) :
    ∃ e, s.kernelEntry address = some e ∧ (s.page e).present = true ∧ (s.page e).frame ≠ 0 := by
  obtain ⟨e, he, hpage⟩ := (Option.any_eq_true _ _).1 h
  rw [Bool.and_eq_true, decide_eq_true_iff] at hpage
  exact ⟨e, he, hpage⟩

theorem kernelEntry_makeDirectory {dir phys address : Nat} {c : DirectoryCall}
    (hphys : s.kmallocPhys dir = some phys) (hdir : dir ≠ s.kernelDirectory)
    (hnew : c.NewTables s) (he : s.kernelEntry address = some e) (hframe : (s.page e).frame ≠ 0)
    (h : s.makeDirectory dir c = some s') :
    s'.kernelEntry address = some e ∧ s'.page e = s.page e ∧
      (s'.directories dir).physicalAddr = add32 phys 4096 := by
  obtain ⟨htable, hidx⟩ := kernelEntry_eq_some.1 he
  have hkeeps := keepsEntry_makeDirectory (i := address / pageSize / 1024) hphys hdir hnew htable h
  have hslot : (s.blankDirectory dir phys).tableAt s.kernelDirectory (address / pageSize / 1024) =
      some e.table := by
    rw [tableAt_blankDirectory, if_neg hdir.symm]
    exact htable
  refine ⟨kernelEntry_eq_some.2 ⟨?_, hidx⟩, hkeeps.page hframe, ?_⟩
  · rw [hkeeps.kernel]
    exact hkeeps.table hslot
  · rw [hkeeps.base]
    simp [blankDirectory]

/-- The base that is stored for the frame `f` of the first page, against the frame of the
second. -/
theorem base_eq_iff {f f' off : Nat} (hoff : off < 4096) :
    f' % 1048576 * 4096 + off = add32 (add32 (mul32 f 4096) off) 4096 ↔
      f' % 1048576 = (f + 1) % 1048576 := by
  unfold add32 mul32
  omega

/-- The base of a new directory is the physical address of its array exactly when the
second page of the block has the frame after that of the first. -/
theorem directory_base_iff {dir : Nat} {c : DirectoryCall} (hblock : s.DirectoryBlock dir)
    (hnew : c.NewTables s) (h : s.makeDirectory dir c = some s') :
    s'.BaseOk dir ↔ s.NextFrame dir := by
  have hsecond : s.Backed (dir + pageSize) :=
    hblock.backed _ (Nat.le_add_right _ _) (Nat.add_lt_add_left (by decide) _)
  obtain ⟨e, he, hpresent, hframe⟩ := hsecond.entry
  obtain ⟨phys, hphys, -⟩ := Option.bind_eq_some_iff.1 h
  obtain ⟨e₀, he₀, rfl⟩ := Option.map_eq_some_iff.1 hphys
  obtain ⟨he', hpage, hbase⟩ := kernelEntry_makeDirectory hphys hblock.new hnew he hframe h
  have htranslate : s'.translate (dir + tablesPhysicalOffset) =
      some ((s.page e).frame % 1048576 * 4096 + dir % 4096) := by
    unfold translate
    rw [show dir + tablesPhysicalOffset = dir + pageSize from rfl, he', Option.bind_some, hpage,
      if_pos hpresent]
    simp [pageSize]
  unfold BaseOk NextFrame
  rw [htranslate, hbase, he, he₀, Option.some.injEq, Option.map_some, Option.map_some,
    Option.some.injEq, and_pageOffset]
  exact base_eq_iff (Nat.mod_lt _ (by decide))

end

/-! ## Runs -/

def runCalls (s : VirtualMemory) (cs : List MemoryCall) : Option VirtualMemory :=
  cs.foldlM applyCall s

theorem reach_runCalls {s s' : VirtualMemory} {cs : List MemoryCall}
    (hr : Reach Initial MemoryStep s) (h : s.runCalls cs = some s') : Reach Initial MemoryStep s' :=
  hr.foldlM (fun _ c _ hs => ⟨c, hs⟩) h

/-- Three backed pages are a block for a directory. -/
theorem directoryBlock_of_pages {s : VirtualMemory} {dir : Nat} (hnew : dir ≠ s.kernelDirectory)
    (hlt : dir + pageDirectorySize ≤ 4294967296) (halign : dir % 4096 = 0)
    (hpages : ∀ i < 3, s.Backed (dir + 4096 * i)) : s.DirectoryBlock dir := by
  refine ⟨hnew, hlt, fun a hlo hhi => ?_⟩
  unfold pageDirectorySize at hhi
  have hpage := hpages ((a - dir) / 4096) (by omega)
  have hsame : (dir + 4096 * ((a - dir) / 4096)) / pageSize = a / pageSize := by
    unfold pageSize
    omega
  unfold Backed kernelEntry at hpage ⊢
  rwa [getKernelPage_false, hsame, ← getKernelPage_false s a (0, 0)] at hpage

/-- The kernel's first page, and three pages of the heap in a row. -/
def growInRow : List MemoryCall :=
  [.expandPage 0xC0000000 (0xC0200000, 0x200000) true true,
    .expandPage 0xC0400000 (0xC0201000, 0x201000) false true,
    .expandPage 0xC0401000 (0, 0) false true, .expandPage 0xC0402000 (0, 0) false true]

/-- The same with a user page after the first page of the heap. -/
def growAroundUser : List MemoryCall :=
  [.expandPage 0xC0000000 (0xC0200000, 0x200000) true true,
    .expandPage 0xC0400000 (0xC0201000, 0x201000) false true,
    .allocateUser 0x8048000 true (0xC0202000, 0x202000),
    .expandPage 0xC0401000 (0, 0) false true, .expandPage 0xC0402000 (0, 0) false true]

theorem makeDirectory_new {s : VirtualMemory} {dir phys : Nat}
    (h : s.kmallocPhys dir = some phys) :
    s.makeDirectory dir .new = some (s.newDirectory dir phys) := by
  unfold makeDirectory
  rw [h]
  rfl

theorem directory_base_in_row :
    ∃ s s', blankMemory.runCalls growInRow = some s ∧ s.DirectoryBlock 0xC0400000 ∧
      s.makeDirectory 0xC0400000 .new = some s' ∧ s'.BaseOk 0xC0400000 := by
  have hrun : (blankMemory.runCalls growInRow).map (fun s =>
      (decide (0xC0400000 ≠ s.kernelDirectory ∧ ∀ i < 3, s.Backed (0xC0400000 + 4096 * i)),
        s.kmallocPhys 0xC0400000,
        (s.kernelEntry 0xC0401000).map (fun e => (s.page e).frame % 1048576),
        (s.kernelEntry 0xC0400000).map (fun e => ((s.page e).frame + 1) % 1048576))) =
      some (true, some 0x1000, some 2, some 2) := by
    decide +kernel
  obtain ⟨s, hs, heq⟩ := Option.map_eq_some_iff.1 hrun
  obtain ⟨hpages, heq⟩ := Prod.mk.inj heq
  obtain ⟨hphys, heq⟩ := Prod.mk.inj heq
  obtain ⟨hsecond, hfirst⟩ := Prod.mk.inj heq
  rw [decide_eq_true_iff] at hpages
  have hblock := directoryBlock_of_pages hpages.1 (by decide) (by decide) hpages.2
  refine ⟨s, _, hs, hblock, makeDirectory_new hphys, ?_⟩
  exact (directory_base_iff (c := .new) hblock trivial (makeDirectory_new hphys)).2
    (hsecond.trans hfirst.symm)

/-- The array is in frame 3, and the base of the directory is the user's page. -/
theorem directory_base_of_user_page :
    ∃ s s', blankMemory.runCalls growAroundUser = some s ∧ Reach Initial MemoryStep s ∧
      s.DirectoryBlock 0xC0400000 ∧ s.makeDirectory 0xC0400000 .new = some s' ∧
      (s'.directories 0xC0400000).physicalAddr = 0x2000 ∧
      s'.translate 0xC0401000 = some 0x3000 ∧ ¬s'.BaseOk 0xC0400000 := by
  have hrun : (blankMemory.runCalls growAroundUser).map (fun s =>
      (decide (0xC0400000 ≠ s.kernelDirectory ∧ ∀ i < 3, s.Backed (0xC0400000 + 4096 * i)),
        s.kmallocPhys 0xC0400000, s.kernelEntry 0xC0401000,
        (s.page ⟨0xC0201000, 1⟩).present, (s.page ⟨0xC0201000, 1⟩).frame)) =
      some (true, some 0x1000, some ⟨0xC0201000, 1⟩, true, 3) := by
    decide +kernel
  obtain ⟨s, hs, heq⟩ := Option.map_eq_some_iff.1 hrun
  obtain ⟨hpages, heq⟩ := Prod.mk.inj heq
  obtain ⟨hphys, heq⟩ := Prod.mk.inj heq
  obtain ⟨hentry, heq⟩ := Prod.mk.inj heq
  obtain ⟨hpresent, hframe⟩ := Prod.mk.inj heq
  rw [decide_eq_true_iff] at hpages
  have hblock := directoryBlock_of_pages hpages.1 (by decide) (by decide) hpages.2
  have hmake := makeDirectory_new hphys
  obtain ⟨hentry', hpage, hbase⟩ :=
    kernelEntry_makeDirectory (c := .new) hphys hblock.new trivial hentry (by rw [hframe]; decide)
      hmake
  have htranslate : (s.newDirectory 0xC0400000 0x1000).translate 0xC0401000 = some 0x3000 := by
    unfold translate
    rw [hentry', Option.bind_some, hpage, hpresent, hframe]
    rfl
  refine ⟨s, _, hs, reach_runCalls (.init blankMemory_initial) hs, hblock, hmake, hbase, htranslate,
    fun hok => ?_⟩
  have hphysical : some 0x3000 = some (add32 0x1000 4096) :=
    htranslate.symm.trans (hok.trans (congrArg some hbase))
  exact absurd hphysical (by decide)

end VirtualMemory

end Ulysses
