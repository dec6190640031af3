import Ulysses.Lib.Reach
import Ulysses.Paging.Basic

/-!
# The kernel half of the address spaces

Two directories map a page above `KERNEL_VIRTUAL_BASE` to one frame when they
share the table of that page. `new_directory` and `clone_directory` copy the
table pointers that the kernel directory has at that time; a table made later is
entered in one directory only: in the kernel's when the heap grows, in the
current one when the page-fault handler makes it. So the kernel halves stay one
as long as no such table is made while another directory has one at the same
index, and as long as no directory with a private kernel table is cloned
(`kernelHalf_shared`).
-/

namespace Ulysses

open Lib

/-- The virtual memory and the pointers of the directories that exist. The code
keeps no such list: each process holds its own directory. -/
structure AddressSpaces where
  vm : VirtualMemory
  dirs : List Nat

namespace AddressSpaces

/-- The frame a directory maps an address to, if the page is present. -/
def frameOf (s : AddressSpaces) (dir address : Nat) : Option Nat :=
  (s.vm.tableAt dir (address / pageSize / 1024)).bind fun t =>
    let p := s.vm.page ⟨t, address / pageSize % 1024⟩
    if p.present then some p.frame else none

/-- Directories that both map a page of the kernel half map it to one frame. -/
def SameKernelHalf (s : AddressSpaces) : Prop :=
  ∀ d ∈ s.dirs, ∀ d' ∈ s.dirs, ∀ address, kernelVirtualBase ≤ address → address < 4294967296 →
    ∀ f f', s.frameOf d address = some f → s.frameOf d' address = some f' → f = f'

/-! ## Calls -/

/-- The calls that make tables and directories. `expandPage` is a turn of the
loop of the heap's `expand`, `fault` a page fault with the error code's bits. -/
inductive Call
  | expandPage (address : Nat) (fresh : Nat × Nat) (isKernel isWriteable : Bool)
  | newDirectory (dir phys : Nat)
  | cloneDirectory (src dir phys : Nat) (fresh : Nat → Nat × Nat)
  | switch (dir : Nat)
  | fault (address : Nat) (present us : Bool) (fresh : Nat × Nat)

/-- What the caller and `kmalloc_ap` see to: addresses are words, a new directory
is a new object, directories used exist, and the fault takes the kernel branch. -/
def Call.Valid (s : AddressSpaces) : Call → Prop
  | .expandPage address .. => address < 4294967296
  | .newDirectory dir _ => dir ∉ s.dirs
  | .cloneDirectory src dir .. => src ∈ s.dirs ∧ dir ∉ s.dirs
  | .switch dir => dir ∈ s.dirs
  | .fault address present us _ =>
    address < 4294967296 ∧ VirtualMemory.kernelBranch present us address = true

def apply (s : AddressSpaces) : Call → Option AddressSpaces
  | .expandPage address fresh k w =>
    (s.vm.expandPage address fresh k w).map fun vm => { s with vm }
  | .newDirectory dir phys => some ⟨s.vm.newDirectory dir phys, dir :: s.dirs⟩
  | .cloneDirectory src dir phys fresh =>
    (s.vm.cloneDirectory src dir phys fresh).map fun vm => ⟨vm, dir :: s.dirs⟩
  | .switch dir => some { s with vm := s.vm.switchPageDirectory dir }
  | .fault address _ _ fresh => (s.vm.kernelFault address fresh).map fun vm => { s with vm }

/-- If `dir` needs a new table for a kernel address, no other directory has one
there. -/
def MayMake (s : AddressSpaces) (dir address : Nat) : Prop :=
  768 ≤ address / pageSize / 1024 → s.vm.tableAt dir (address / pageSize / 1024) = none →
    ∀ d ∈ s.dirs, s.vm.tableAt d (address / pageSize / 1024) = none

/-- The kernel tables of `src` are the kernel's own. -/
def MayClone (s : AddressSpaces) (src : Nat) : Prop :=
  ∀ i t, 768 ≤ i → s.vm.tableAt src i = some t → s.vm.tableAt s.vm.kernelDirectory i = some t

/-- The condition on a call. -/
def Call.Ok (s : AddressSpaces) : Call → Prop
  | .expandPage address .. => s.MayMake s.vm.kernelDirectory address
  | .cloneDirectory src .. => s.MayClone src
  | .fault address .. => s.MayMake s.vm.currentDirectory address
  | .newDirectory .. => True
  | .switch _ => True

/-- Only the kernel's directory exists, and it is the current one. -/
def Boot (s : AddressSpaces) : Prop :=
  s.dirs = [s.vm.kernelDirectory] ∧ s.vm.currentDirectory = s.vm.kernelDirectory

def Step (s s' : AddressSpaces) : Prop := ∃ c : Call, c.Valid s ∧ s.apply c = some s'

/-- A step that meets the condition. -/
def OkStep (s s' : AddressSpaces) : Prop := ∃ c : Call, c.Valid s ∧ c.Ok s ∧ s.apply c = some s'

/-! ## Shared tables -/

/-- Directories that both have a table for a part of the kernel half have the
same one. -/
structure Shared (s : AddressSpaces) : Prop where
  kernel_mem : s.vm.kernelDirectory ∈ s.dirs
  current_mem : s.vm.currentDirectory ∈ s.dirs
  agree : ∀ d ∈ s.dirs, ∀ d' ∈ s.dirs, ∀ i t t', 768 ≤ i →
    s.vm.tableAt d i = some t → s.vm.tableAt d' i = some t' → t = t'

theorem Shared.sameKernelHalf {s : AddressSpaces} (h : s.Shared) : s.SameKernelHalf := by
  intro d hd d' hd' address hlo _ f f' hf hf'
  have hi : 768 ≤ address / pageSize / 1024 := by
    unfold kernelVirtualBase at hlo
    unfold pageSize
    omega
  obtain ⟨t, ht, hf⟩ := Option.bind_eq_some_iff.1 hf
  obtain ⟨t', ht', hf'⟩ := Option.bind_eq_some_iff.1 hf'
  obtain rfl := h.agree d hd d' hd' _ t t' hi ht ht'
  exact Option.some.inj (hf.symm.trans hf')

theorem Boot.shared {s : AddressSpaces} (h : s.Boot) : s.Shared := by
  refine ⟨by simp [h.1], by simp [h.1, h.2], ?_⟩
  intro d hd d' hd' i t t' _ ht ht'
  rw [h.1, List.mem_singleton] at hd hd'
  rw [hd] at ht
  rw [hd'] at ht'
  exact Option.some.inj (ht.symm.trans ht')

/-- `agree` reads nothing but the tables of the kernel half. -/
theorem Shared.congr {s s' : AddressSpaces} (h : s.Shared) (hd : s'.dirs = s.dirs)
    (hs : VirtualMemory.SameSpaces s.vm s'.vm) : s'.Shared := by
  refine ⟨by rw [hd, hs.2.1]; exact h.kernel_mem, by rw [hd, hs.2.2]; exact h.current_mem, ?_⟩
  intro d hmem d' hmem' i t t' hi ht ht'
  rw [hs.tableAt] at ht ht'
  exact h.agree d (hd ▸ hmem) d' (hd ▸ hmem') i t t' hi ht ht'

variable {dir : Nat} {s : VirtualMemory}

theorem Shared.getPage {s : AddressSpaces} (h : s.Shared) {address : Nat}
    (hok : s.MayMake dir address) (make : Bool) (fresh : Nat × Nat) :
    ({ s with vm := (s.vm.getPage address make dir fresh).2 } : AddressSpaces).Shared := by
  obtain ⟨t, -, heq⟩ | ⟨hnone, -, heq⟩ | heq := s.vm.getPage_cases address make dir fresh
  · rw [heq]
    exact h
  · rw [heq]
    refine ⟨h.kernel_mem, h.current_mem, ?_⟩
    intro d hd d' hd' i t t' hi ht ht'
    have hz : ∀ d i, (s.vm.zeroTable fresh.1).tableAt d i = s.vm.tableAt d i := fun _ _ => rfl
    simp only [VirtualMemory.tableAt_putTable, hz] at ht ht'
    -- at the index of the new table nobody but `dir` has one
    by_cases hidx : i = address / pageSize / 1024
    · subst hidx
      have hno := hok hi hnone
      split at ht
      · split at ht'
        · exact Option.some.inj (ht.symm.trans ht')
        · rw [hno d' hd'] at ht'
          cases ht'
      · rw [hno d hd] at ht
        cases ht
    · rw [if_neg (by tauto)] at ht ht'
      exact h.agree d hd d' hd' i t t' hi ht ht'
  · rw [heq]
    exact h

theorem Shared.allocAt {s : AddressSpaces} {r : Option Entry × VirtualMemory} {k w : Bool}
    {vm : VirtualMemory} (h : ({ s with vm := r.2 } : AddressSpaces).Shared)
    (ha : VirtualMemory.allocAt r k w = some vm) : ({ s with vm } : AddressSpaces).Shared := by
  obtain ⟨e, -, ha⟩ := VirtualMemory.allocAt_cases ha
  exact h.congr rfl (VirtualMemory.allocFrame_sameSpaces ha)

/-! ## New directories -/

/-- The state while `new_directory` or `clone_directory` fills `dir`: the other
directories are as they were, and the kernel tables of `dir` are the kernel's. -/
structure Filling (s₀ : VirtualMemory) (dir : Nat) (s : VirtualMemory) : Prop where
  kernel : s.kernelDirectory = s₀.kernelDirectory
  current : s.currentDirectory = s₀.currentDirectory
  others : ∀ d i, d ≠ dir → s.tableAt d i = s₀.tableAt d i
  copied : ∀ i t, 768 ≤ i → s.tableAt dir i = some t →
    s₀.tableAt s₀.kernelDirectory i = some t

theorem filling_blank (s : VirtualMemory) (dir phys : Nat) :
    Filling s dir (s.blankDirectory dir phys) := by
  refine ⟨rfl, rfl, fun d i hd => ?_, fun i t _ ht => ?_⟩
  · rw [VirtualMemory.tableAt_blankDirectory, if_neg hd]
  · rw [VirtualMemory.tableAt_blankDirectory, if_pos rfl] at ht
    cases ht

theorem Filling.putTable {s₀ : VirtualMemory} (h : Filling s₀ dir s) {i t : Nat}
    (hput : 768 ≤ i → s₀.tableAt s₀.kernelDirectory i = some t) (tmp : Nat) :
    Filling s₀ dir (s.putTable dir i t tmp) := by
  refine ⟨h.kernel, h.current, fun d j hd => ?_, fun j t' hj ht' => ?_⟩
  · rw [VirtualMemory.tableAt_putTable, if_neg fun hc => hd hc.1]
    exact h.others d j hd
  · rw [VirtualMemory.tableAt_putTable] at ht'
    split at ht'
    · next hc =>
      obtain rfl := Option.some.inj ht'
      rw [hc.2] at hj ⊢
      exact hput hj
    · exact h.copied j t' hj ht'

theorem Filling.congr {s₀ s' : VirtualMemory} (h : Filling s₀ dir s)
    (hs : VirtualMemory.SameSpaces s s') : Filling s₀ dir s' := by
  refine ⟨hs.2.1.trans h.kernel, hs.2.2.trans h.current, fun d i hd => ?_, fun i t hi ht => ?_⟩
  · rw [hs.tableAt]
    exact h.others d i hd
  · rw [hs.tableAt] at ht
    exact h.copied i t hi ht

theorem Filling.shareTable {s₀ : VirtualMemory} (h : Filling s₀ dir s)
    (hdir : dir ≠ s₀.kernelDirectory) (i : Nat) : Filling s₀ dir (s.shareTable dir i) := by
  unfold VirtualMemory.shareTable
  split
  · next t ht =>
    refine h.putTable (fun _ => ?_) _
    rw [← h.others _ _ hdir.symm, ← h.kernel]
    exact ht
  · exact h

theorem filling_newDirectory (hdir : dir ≠ s.kernelDirectory) (phys : Nat) :
    Filling s dir (s.newDirectory dir phys) := by
  unfold VirtualMemory.newDirectory
  exact List.foldlRecOn _ _ (filling_blank s dir phys) fun _ h i _ => h.shareTable hdir i

/-- A turn of `clone_directory` from a directory whose kernel tables are the
kernel's own: only a table of the user half is copied. -/
theorem Filling.cloneSlot {s₀ s' : VirtualMemory} {src : Nat} (h : Filling s₀ dir s)
    (hdir : dir ≠ s₀.kernelDirectory) (hsrc : src ≠ dir)
    (hok : ∀ i t, 768 ≤ i → s₀.tableAt src i = some t → s₀.tableAt s₀.kernelDirectory i = some t)
    {fresh : Nat → Nat × Nat} {i : Nat} (hc : s.cloneSlot src dir fresh i = some s') :
    Filling s₀ dir s' := by
  obtain ⟨-, rfl⟩ | ⟨t, ht, -, rfl⟩ | ⟨t, s₁, ht, hne, hct, rfl⟩ :=
    VirtualMemory.cloneSlot_cases hc
  · exact h
  · rw [h.others _ _ hsrc] at ht
    exact h.putTable (fun hi => hok i t hi ht) _
  · rw [h.others _ _ hsrc] at ht
    rw [h.kernel, h.others _ _ hdir.symm] at hne
    exact (h.congr (VirtualMemory.cloneTable_sameSpaces hct)).putTable
      (fun hi => absurd (hok i t hi ht) hne) _

theorem filling_cloneDirectory {s' : VirtualMemory} {src phys : Nat}
    (hdir : dir ≠ s.kernelDirectory) (hsrc : src ≠ dir)
    (hok : ∀ i t, 768 ≤ i → s.tableAt src i = some t → s.tableAt s.kernelDirectory i = some t)
    {fresh : Nat → Nat × Nat} (hc : s.cloneDirectory src dir phys fresh = some s') :
    Filling s dir s' := by
  unfold VirtualMemory.cloneDirectory at hc
  exact foldlM_invariant _ (fun _ _ _ _ h hi => h.cloneSlot hdir hsrc hok hi)
    (filling_blank s dir phys) hc

theorem Shared.add {s : AddressSpaces} (h : s.Shared) {vm : VirtualMemory}
    (hf : Filling s.vm dir vm) : Shared ⟨vm, dir :: s.dirs⟩ := by
  -- a kernel table of any directory is one that some directory had before
  have hold : ∀ d ∈ dir :: s.dirs, ∀ i t, 768 ≤ i → vm.tableAt d i = some t →
      ∃ d' ∈ s.dirs, s.vm.tableAt d' i = some t := by
    intro d hd i t hi ht
    by_cases hne : d = dir
    · rw [hne] at ht
      exact ⟨_, h.kernel_mem, hf.copied i t hi ht⟩
    · rw [hf.others d i hne] at ht
      exact ⟨d, (List.mem_cons.1 hd).resolve_left hne, ht⟩
  refine ⟨?_, ?_, ?_⟩
  · rw [hf.kernel]
    exact List.mem_cons_of_mem _ h.kernel_mem
  · rw [hf.current]
    exact List.mem_cons_of_mem _ h.current_mem
  · intro d hd d' hd' i t t' hi ht ht'
    obtain ⟨e, he, ht⟩ := hold d hd i t hi ht
    obtain ⟨e', he', ht'⟩ := hold d' hd' i t' hi ht'
    exact h.agree e he e' he' i t t' hi ht ht'

/-! ## Runs -/

theorem index_pageMask {address : Nat} (h : address < 4294967296) :
    (address &&& 0xFFFFF000) / pageSize = address / pageSize := by
  rw [and_pageMask h]
  unfold pageSize
  omega

theorem Shared.step {s s' : AddressSpaces} (h : s.Shared) (hs : s.OkStep s') : s'.Shared := by
  obtain ⟨c, hv, hok, ha⟩ := hs
  unfold apply at ha
  cases c with
  | expandPage address fresh k w =>
    obtain ⟨vm, hvm, rfl⟩ := Option.map_eq_some_iff.1 ha
    exact (h.getPage hok true fresh).allocAt hvm
  | newDirectory dir phys =>
    obtain rfl := Option.some.inj ha
    have hne : dir ≠ s.vm.kernelDirectory := fun heq => hv (heq ▸ h.kernel_mem)
    exact h.add (filling_newDirectory hne phys)
  | cloneDirectory src dir phys fresh =>
    obtain ⟨vm, hvm, rfl⟩ := Option.map_eq_some_iff.1 ha
    have hne : dir ≠ s.vm.kernelDirectory := fun heq => hv.2 (heq ▸ h.kernel_mem)
    have hsrc : src ≠ dir := fun heq => hv.2 (heq ▸ hv.1)
    exact h.add (filling_cloneDirectory hne hsrc hok hvm)
  | switch dir =>
    obtain rfl := Option.some.inj ha
    exact ⟨h.kernel_mem, hv, h.agree⟩
  | fault address present us fresh =>
    obtain ⟨vm, hvm, rfl⟩ := Option.map_eq_some_iff.1 ha
    refine (h.getPage ?_ true fresh).allocAt hvm
    unfold MayMake
    rw [index_pageMask hv.1]
    exact hok

/-- **The kernel half is shared.** In every state that a run from boot reaches,
directories agree on the frames of the kernel half, provided the run makes no
kernel table while another directory has one at that index and clones no
directory with a kernel table of its own. -/
theorem kernelHalf_shared {s : AddressSpaces} (h : Reach Boot OkStep s) : s.SameKernelHalf :=
  (h.invariant (fun _ => Boot.shared) fun _ _ hi hs => hi.step hs).sameKernelHalf

/-- The kernel's directory, without any table yet, and 32 frames. -/
def bootSpaces : AddressSpaces := ⟨VirtualMemory.blankMemory, [0xC0100000]⟩

theorem foldl_shareTable_of_no_table (dir : Nat) {is : List Nat}
    (h : ∀ i ∈ is, s.tableAt s.kernelDirectory i = none) :
    is.foldl (VirtualMemory.shareTable dir) s = s := by
  induction is with
  | nil => rfl
  | cons i is ih =>
    have hturn : s.shareTable dir i = s := by
      have hi := h i List.mem_cons_self
      unfold VirtualMemory.tableAt at hi
      unfold VirtualMemory.shareTable
      rw [hi]
    rw [List.foldl_cons, hturn]
    exact ih fun j hj => h j (List.mem_cons_of_mem _ hj)

theorem bootSpaces_newDirectory :
    bootSpaces.apply (.newDirectory 0xC0300000 0x300000) =
      some ⟨bootSpaces.vm.blankDirectory 0xC0300000 0x300000, [0xC0300000, 0xC0100000]⟩ :=
  congrArg (fun vm => some (AddressSpaces.mk vm [0xC0300000, 0xC0100000]))
    (foldl_shareTable_of_no_table _ fun _ _ => rfl)

/-- After the heap has grown to `0xC0400000`. -/
def grownSpaces : AddressSpaces :=
  (bootSpaces.apply (.expandPage 0xC0400000 (0xC0200000, 0x200000) true true)).getD bootSpaces

theorem grownSpaces_newDirectory :
    grownSpaces.apply (.newDirectory 0xC0300000 0x300000) =
      some ⟨(grownSpaces.vm.blankDirectory 0xC0300000 0x300000).shareTable 0xC0300000 769,
        [0xC0300000, 0xC0100000]⟩ := by
  refine congrArg (fun vm => some (AddressSpaces.mk vm [0xC0300000, 0xC0100000])) ?_
  have hrange : List.range 1024 = List.range 769 ++ 769 :: List.range' 770 254 := by
    decide +kernel
  have hnone : ∀ i, i ≠ 769 → grownSpaces.vm.tableAt 0xC0100000 i = none := fun i hi =>
    Function.update_of_ne hi _ _
  have hbelow := foldl_shareTable_of_no_table
    (s := grownSpaces.vm.blankDirectory 0xC0300000 0x300000) 0xC0300000 fun i hi =>
      hnone i (Nat.ne_of_lt (List.mem_range.1 hi))
  unfold VirtualMemory.newDirectory
  rw [hrange, List.foldl_append, List.foldl_cons, hbelow]
  exact foldl_shareTable_of_no_table _ fun i hi =>
    hnone i (Nat.ne_of_gt (List.mem_range'_1.1 hi).1)

/-- The kernel heap grows into a new table, then a process gets a directory: both map the page. -/
theorem kernelHalf_shared_after_growth :
    ∃ s, grownSpaces.apply (.newDirectory 0xC0300000 0x300000) = some s ∧
      s.frameOf 0xC0100000 0xC0400000 = some 0 ∧ s.frameOf 0xC0300000 0xC0400000 = some 0 ∧
      s.SameKernelHalf := by
  refine ⟨_, grownSpaces_newDirectory, by decide, by decide, ?_⟩
  refine kernelHalf_shared (((Reach.init ⟨rfl, rfl⟩ : Reach Boot OkStep bootSpaces).step
    ⟨.expandPage 0xC0400000 (0xC0200000, 0x200000) true true, ?_, ?_, rfl⟩).step
    ⟨.newDirectory 0xC0300000 0x300000, ?_, trivial, grownSpaces_newDirectory⟩)
  · unfold Call.Valid
    decide
  · intro _ _ d hd
    rw [List.mem_singleton.1 hd]
    rfl
  · unfold Call.Valid
    decide

/-- The process has its directory before the heap grows, and then touches the page. The handler
makes a table and takes a frame of its own, and the two directories map the page to different
frames. -/
theorem fault_makes_private_table :
    bootSpaces.Boot ∧ ∃ s, Reach Boot Step s ∧ ¬ s.SameKernelHalf := by
  refine ⟨⟨rfl, rfl⟩, _, ((((Reach.init ⟨rfl, rfl⟩ : Reach Boot Step bootSpaces).step
    ⟨.newDirectory 0xC0300000 0x300000, ?_, bootSpaces_newDirectory⟩).step
    ⟨.expandPage 0xC0400000 (0xC0200000, 0x200000) true true, ?_, rfl⟩).step
    ⟨.switch 0xC0300000, ?_, rfl⟩).step
    ⟨.fault 0xC0400004 false false (0xC0201000, 0x201000), ?_, rfl⟩, ?_⟩
  · unfold Call.Valid
    decide
  · unfold Call.Valid
    decide
  · unfold Call.Valid
    decide
  · unfold Call.Valid
    decide
  · intro h
    have h01 := h 0xC0100000 (by decide) 0xC0300000 (by decide) 0xC0400000
      (by decide) (by decide) 0 1 (by decide) (by decide)
    cases h01

end AddressSpaces

end Ulysses
