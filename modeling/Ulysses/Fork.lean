import Ulysses.Process
import Ulysses.Paging.Clone

/-!
# Fork and the address space

`fork` clones the page directory and makes a new `Process`. The pages that are
resident are copied. A page that is not resident is described by the mappings of
the process, and the new process has none: where the parent would fill the page,
the child faults (`fork_reads_iff`).

The memory of a process in `Ulysses.Process` is what a user access sees of its
directory, `VirtualMemory.space`.
-/

namespace Ulysses

open Lib

namespace VirtualMemory

/-! ## A directory as the memory of a process -/

/-- The entry of a page in a directory; blank where there is no table. -/
def pageAt (s : VirtualMemory) (dir n : Nat) : Page :=
  match s.tableAt dir (n / 1024) with
  | some t => s.page ⟨t, n % 1024⟩
  | none => {}

/-- What user accesses see. A page that is not resident will get the first free
frame. -/
def space (s : VirtualMemory) (dir : Nat) : Space where
  resident n := (s.pageAt dir n).present && (s.pageAt dir n).user
  writable n := (s.pageAt dir n).rw
  mem a :=
    let p := s.pageAt dir (a / pageSize)
    s.physical (if p.present && p.user then p.frame else s.firstFrame.getD 0) (a % pageSize)

variable {dir : Nat} {s : VirtualMemory}

theorem space_mem_of_resident {a : Nat} (h : (s.space dir).resident (a / pageSize) = true) :
    (s.space dir).mem a = s.physical (s.pageAt dir (a / pageSize)).frame (a % pageSize) :=
  congrArg (s.physical · (a % pageSize)) (if_pos h)

theorem space_mem_of_absent {a : Nat} (h : (s.space dir).resident (a / pageSize) = false) :
    (s.space dir).mem a = s.physical (s.firstFrame.getD 0) (a % pageSize) :=
  congrArg (s.physical · (a % pageSize)) (if_neg (Bool.eq_false_iff.1 h))

/-- Each table of the directory is at one place. -/
def TablesApart (s : VirtualMemory) (dir : Nat) : Prop :=
  ∀ i j t, s.tableAt dir i = some t → s.tableAt dir j = some t → i = j

theorem pageAt_of_table {n t : Nat} (h : s.tableAt dir (n / 1024) = some t) :
    s.pageAt dir n = s.page ⟨t, n % 1024⟩ := by
  unfold pageAt
  rw [h]

theorem pageAt_of_none {n : Nat} (h : s.tableAt dir (n / 1024) = none) : s.pageAt dir n = {} := by
  unfold pageAt
  rw [h]

/-- `get_page` finds the entry of the page and changes no page; a new table is
blank. -/
theorem getPage_pageAt {address : Nat} {fresh : Nat × Nat} (hapart : s.TablesApart dir)
    (hfresh : ∀ i, s.tableAt dir i ≠ some fresh.1) :
    ∃ t s₁, s.getPage address true dir fresh = (some ⟨t, address / pageSize % 1024⟩, s₁) ∧
      s₁.tableAt dir (address / pageSize / 1024) = some t ∧ s₁.TablesApart dir ∧
      (∀ n, s₁.pageAt dir n = s.pageAt dir n) ∧ s₁.physical = s.physical ∧
      s₁.firstFrame = s.firstFrame ∧ s₁.nframes = s.nframes := by
  generalize hidx : address / pageSize / 1024 = idx
  obtain ⟨t, ht, heq⟩ | ⟨hnone, -, heq⟩ | heq := s.getPage_cases address true dir fresh
  · rw [hidx] at ht
    exact ⟨t, s, heq, ht, hapart, fun _ => rfl, rfl, rfl, rfl⟩
  · rw [hidx] at hnone heq
    have htable : ∀ i, ((s.zeroTable fresh.1).putTable dir idx fresh.1 (fresh.2 ||| 0x7)).tableAt
        dir i = if i = idx then some fresh.1 else s.tableAt dir i := by
      intro i
      rw [tableAt_putTable]
      simp only [true_and]
      rfl
    refine ⟨fresh.1, _, heq, by rw [htable, if_pos rfl], ?_, fun n => ?_, rfl, rfl, rfl⟩
    · intro i j t hi hj
      rw [htable] at hi hj
      split at hi <;> split at hj
      · omega
      · exact absurd (Option.some.inj hi ▸ hj) (hfresh j)
      · exact absurd (Option.some.inj hj ▸ hi) (hfresh i)
      · exact hapart i j t hi hj
    · by_cases hn : n / 1024 = idx
      · rw [pageAt_of_table (t := fresh.1) (by rw [htable, if_pos hn]), pageAt_of_none (hn ▸ hnone)]
        exact (page_zeroTable s fresh.1 _).trans (if_pos rfl)
      · cases ht : s.tableAt dir (n / 1024) with
        | none => rw [pageAt_of_none (by rw [htable, if_neg hn, ht]), pageAt_of_none ht]
        | some t =>
          rw [pageAt_of_table (by rw [htable, if_neg hn, ht]), pageAt_of_table ht]
          exact (page_zeroTable s fresh.1 _).trans
            (if_neg fun (h : t = fresh.1) => hfresh _ (h ▸ ht))
  · unfold getPage at heq
    simp only [if_true] at heq
    split at heq <;> cases heq

/-- `alloc_frame` changes the entry of the page and of no other one. -/
theorem pageAt_allocFrame {s' : VirtualMemory} {n t idx : Nat} {k w : Bool}
    (hapart : s.TablesApart dir) (htable : s.tableAt dir (n / 1024) = some t)
    (hsame : SameSpaces s s')
    (hset : ∀ e, s'.page e =
      if e = ⟨t, n % 1024⟩ then (s.page ⟨t, n % 1024⟩).assign idx w k else s.page e) (m : Nat) :
    s'.pageAt dir m = if m = n then (s.pageAt dir m).assign idx w k else s.pageAt dir m := by
  have hat := hsame.tableAt dir (m / 1024)
  cases hm : s.tableAt dir (m / 1024) with
  | none =>
    rw [pageAt_of_none (hat.trans hm), pageAt_of_none hm, if_neg]
    rintro rfl
    rw [htable] at hm
    cases hm
  | some u =>
    rw [pageAt_of_table (hat.trans hm), pageAt_of_table hm, hset]
    by_cases heq : m = n
    · subst heq
      obtain rfl := Option.some.inj (htable.symm.trans hm)
      rw [if_pos rfl, if_pos rfl]
    · rw [if_neg heq, if_neg]
      intro h
      obtain ⟨rfl, hmod⟩ := Entry.mk.inj h
      exact heq (by have := hapart _ _ _ hm htable; omega)

/-- The memory that user accesses see, when the page of an address has got the first free
frame. -/
theorem space_assign {s' : VirtualMemory} {address idx : Nat} {w : Bool}
    (habsent : (s.space dir).resident (address / pageSize) = false) (hlt : idx < 1048576)
    (hidx : s.firstFrame = some idx) (hphys : s'.physical = s.physical)
    (hafter : ∀ m, s'.pageAt dir m = if m = address / pageSize then
      (s.pageAt dir m).assign idx w false else s.pageAt dir m) :
    (s'.space dir).resident = ((s.space dir).allocateUser address w).resident ∧
      (s'.space dir).writable = ((s.space dir).allocateUser address w).writable ∧
      ∀ a, (s'.space dir).resident (a / pageSize) = true →
        (s'.space dir).mem a = (s.space dir).mem a := by
  unfold Space.allocateUser
  rw [habsent, if_neg Bool.false_ne_true]
  refine ⟨?_, ?_, ?_⟩
  · funext m
    by_cases hm : m = address / pageSize
    · simp [space, hafter, hm, Page.assign]
    · simp [space, hafter, hm]
  · funext m
    by_cases hm : m = address / pageSize
    · simp [space, hafter, hm, Page.assign]
    · simp [space, hafter, hm]
  · intro a ha
    rw [space_mem_of_resident ha, hafter, hphys]
    by_cases hm : a / pageSize = address / pageSize
    · rw [if_pos hm, space_mem_of_absent (hm ▸ habsent), hidx]
      simp [Page.assign, Nat.mod_eq_of_lt hlt]
    · have hres : (s.space dir).resident (a / pageSize) = true := by
        simpa [space, hafter, hm] using ha
      rw [if_neg hm, space_mem_of_resident hres]

/-- `allocate_user` on the tables is `allocateUser` on the memory that user accesses
see: the page becomes resident, and the pages that are resident then read as before. -/
theorem space_allocateUser {s' : VirtualMemory} {address : Nat} {w : Bool} {fresh : Nat × Nat}
    (hn : s.nframes < 1048576) (hapart : s.TablesApart s.currentDirectory)
    (hfresh : ∀ i, s.tableAt s.currentDirectory i ≠ some fresh.1)
    (hentry : (s.pageAt s.currentDirectory (address / pageSize)).frame ≠ 0 ↔
      (s.space s.currentDirectory).resident (address / pageSize) = true)
    (h : s.allocateUser address w fresh = some s') :
    (s'.space s.currentDirectory).resident =
        ((s.space s.currentDirectory).allocateUser address w).resident ∧
      (s'.space s.currentDirectory).writable =
        ((s.space s.currentDirectory).allocateUser address w).writable ∧
      ∀ a, (s'.space s.currentDirectory).resident (a / pageSize) = true →
        (s'.space s.currentDirectory).mem a = (s.space s.currentDirectory).mem a := by
  unfold VirtualMemory.allocateUser getCurrentPage at h
  generalize s.currentDirectory = dir at *
  obtain ⟨t, s₁, hget, htable, hapart₁, hpages, hphys, hfirst, hnf⟩ :=
    @getPage_pageAt dir s address fresh hapart hfresh
  rw [hget] at h
  obtain ⟨e, he, ha⟩ := allocAt_cases h
  obtain rfl := Option.some.inj he
  have hpage := hpages (address / pageSize)
  rw [pageAt_of_table htable] at hpage
  by_cases hframe : (s.pageAt dir (address / pageSize)).frame = 0
  · -- the page gets a frame
    obtain ⟨idx, hidx, -, hlt, -, hphys', -, hset⟩ :=
      allocFrame_spec (hnf ▸ hn) (by rw [hpage]; exact hframe) ha
    have habsent : (s.space dir).resident (address / pageSize) = false := by
      rw [← Bool.not_eq_true]
      exact fun h => hentry.2 h hframe
    refine space_assign habsent hlt (hfirst.symm.trans hidx) (hphys'.trans hphys) ?_
    intro m
    rw [← hpages]
    exact pageAt_allocFrame hapart₁ htable (allocFrame_sameSpaces ha) hset m
  · -- a page with a frame is resident
    obtain ⟨rfl, -⟩ | ⟨-, hzero, -, -⟩ := allocFrame_cases ha
    · unfold Space.allocateUser
      rw [if_pos (hentry.1 hframe)]
      refine ⟨funext fun m => ?_, funext fun m => ?_, fun a ha => ?_⟩
      · simp only [space, hpages]
      · simp only [space, hpages]
      · simp only [space, hpages, hphys, hfirst]
    · rw [hpage] at hzero
      exact absurd hzero hframe

end VirtualMemory

/-! ## Fork -/

open VirtualMemory

/-- `fork`, up to the thread of the new process. `dir`, `phys` and `fresh` are what
`kmalloc_ap` returns. -/
def fork (dir phys : Nat) (fresh : Nat → Nat × Nat) (s : VirtualMemory) :
    Option (VirtualMemory × Process) :=
  (s.cloneDirectory s.currentDirectory dir phys fresh).map fun s' => (s', .make (s'.space dir))

/-- The state in which a process forks: the objects for the child are new, the
frames in use are marked, and an entry of a user page that has a frame is present
for user accesses. -/
structure ForkOk (s : VirtualMemory) (dir : Nat) (fresh : Nat → Nat × Nat) : Prop where
  fresh : s.FreshClone s.currentDirectory dir fresh
  nframes : s.nframes < 1048576
  marked : ∀ i t, s.tableAt s.currentDirectory i = some t → s.TableMarked t
  user : ∀ n, n < kernelVirtualBase / pageSize → (s.pageAt s.currentDirectory n).frame ≠ 0 →
    (s.space s.currentDirectory).resident n = true

/-- The page is resident in the current directory, and its table is the kernel's or
its entry names a frame other than 0. -/
def Carried (s : VirtualMemory) (n : Nat) : Prop :=
  (s.space s.currentDirectory).resident n = true ∧
    ((s.pageAt s.currentDirectory n).frame ≠ 0 ∨
      s.tableAt s.currentDirectory (n / 1024) = s.tableAt s.kernelDirectory (n / 1024))

section

variable {s s' : VirtualMemory} {dir phys : Nat} {fresh : Nat → Nat × Nat} {parent child : Process}

theorem fork_pages (hok : ForkOk s dir fresh) (h : fork dir phys fresh s = some (s', child))
    {n : Nat} (hn : n < kernelVirtualBase / pageSize) :
    s'.pageAt s.currentDirectory n = s.pageAt s.currentDirectory n ∧
      (Carried s n → (s'.space dir).resident n = true ∧
        s'.physical (s'.pageAt dir n).frame = s'.physical (s.pageAt s.currentDirectory n).frame) ∧
      (¬Carried s n → (s'.space dir).resident n = false) := by
  obtain ⟨s₁, hclone, heq⟩ := Option.map_eq_some_iff.1 h
  obtain ⟨rfl, -⟩ := Prod.mk.inj heq
  have hcloned := cloneDirectory_spec hok.fresh hok.nframes hok.marked hclone
  have hlt : n / 1024 < 1024 := by
    unfold kernelVirtualBase pageSize at hn
    omega
  have hslot := hcloned.done (n / 1024) hlt
  have hsrc := hcloned.others s.currentDirectory (n / 1024) hok.fresh.dir_src.symm
  unfold SlotCloned at hslot
  unfold Carried
  cases ht : s.tableAt s.currentDirectory (n / 1024) with
  | none =>
    rw [ht] at hsrc
    simp only [ht] at hslot
    simp [space, pageAt_of_none ht, pageAt_of_none hsrc, pageAt_of_none hslot]
  | some t =>
    have hkept : s₁.page ⟨t, n % 1024⟩ = s.page ⟨t, n % 1024⟩ :=
      hcloned.keeps.page _ fun ⟨i, hi⟩ => hok.fresh.table i _ t ht hi
    have huser := hok.user n hn
    rw [ht] at hsrc
    simp only [ht] at hslot
    split at hslot
    · next hshared =>
      simp [space, pageAt_of_table ht, pageAt_of_table hsrc, pageAt_of_table hslot, hkept, hshared]
    · next hown =>
      obtain ⟨hdir, hcopied⟩ := hslot
      have hcopy := hcopied (n % 1024) (Nat.mod_lt _ (by decide))
      unfold Copied at hcopy
      rw [hkept] at hcopy
      rw [pageAt_of_table ht] at huser ⊢
      rw [pageAt_of_table hsrc, hkept]
      refine ⟨rfl, ?_⟩
      simp only [space, pageAt_of_table ht, pageAt_of_table hdir] at huser ⊢
      by_cases hz : (s.page ⟨t, n % 1024⟩).frame = 0
      · rw [if_pos hz] at hcopy
        simp [hz, hcopy, Ne.symm hown]
      · rw [if_neg hz] at hcopy
        obtain ⟨hpresent, huser', -, hbytes⟩ := hcopy
        simp [hpresent, huser', hbytes, hz, huser hz]

/-- The process in the memory it has after a step of the kernel. -/
def Process.inSpace (space : Space) (p : Process) : Process := { p with space }

/-- At each user address the child reads what the parent reads after the fork if and
only if the page was carried over, or the parent could not read the address. -/
theorem fork_reads_iff (hparent : parent.space = s.space s.currentDirectory)
    (hok : ForkOk s dir fresh) (h : fork dir phys fresh s = some (s', child)) {a : Nat}
    (ha : a < kernelVirtualBase) :
    child.read a = (parent.inSpace (s'.space s.currentDirectory)).read a ↔
      Carried s (a / pageSize) ∨ parent.read a = none := by
  have hn : a / pageSize < kernelVirtualBase / pageSize := by
    unfold kernelVirtualBase pageSize at *
    omega
  obtain ⟨hpage, hcarried, hlost⟩ := fork_pages hok h hn
  have hres : (s'.space s.currentDirectory).resident (a / pageSize) =
      (s.space s.currentDirectory).resident (a / pageSize) := by
    simp only [space, hpage]
  have hchild : child = .make (s'.space dir) := by
    obtain ⟨s₁, -, heq⟩ := Option.map_eq_some_iff.1 h
    obtain ⟨rfl, rfl⟩ := Prod.mk.inj heq
    rfl
  by_cases hc : Carried s (a / pageSize)
  · obtain ⟨hresident, hbytes⟩ := hcarried hc
    refine iff_of_true ?_ (.inl hc)
    have hread : child.read a = some ((s'.space dir).mem a) :=
      hchild ▸ Process.read_of_resident hresident
    have hread' : (parent.inSpace (s'.space s.currentDirectory)).read a =
        some ((s'.space s.currentDirectory).mem a) :=
      Process.read_of_resident (hres.trans hc.1)
    rw [hread, hread', space_mem_of_resident hresident,
      space_mem_of_resident (hres.trans hc.1), hbytes, hpage]
  · rw [hchild, Process.read_make (hlost hc), eq_comm]
    simp only [hc, false_or]
    exact Process.read_eq_none_iff rfl (hres.trans (by rw [hparent]))

end

/-! ## A page that was touched and one that was not -/

/-- A process in the directory `0xC0200000`: the page at `0x8048000` is resident, in
frame 5. -/
def oneResident : VirtualMemory where
  kernelDirectory := 0xC0100000
  currentDirectory := 0xC0200000
  frames := fun i => if i = 0 then 0xFF#32 else 0#32
  nframes := 64
  directories := fun d =>
    { tables := fun i => if d = 0xC0200000 ∧ i = 32 then some 0xC0300000 else none }
  tables := fun t i =>
    if t = 0xC0300000 ∧ i = 72 then
      { present := true, user := true, frame := 5 }
    else {}
  physical := fun f i => if f = 5 ∧ i = 84 then 0xc3 else 0
  given := []

/-- Its mappings: one file, of which the second page was not touched. -/
def mappedParent : Process :=
  (Process.make (oneResident.space 0xC0200000)).addMmap (some ⟨fun _ => 0x90, 8192⟩) 0 8192
    0x8048000 8192 MemoryMapping.eAll

def newTables (i : Nat) : Nat × Nat := (0xC0500000 + 4096 * i, 4096 * i)

theorem tableAt_oneResident {d i t : Nat} (h : oneResident.tableAt d i = some t) :
    i = 32 ∧ t = 0xC0300000 := by
  unfold tableAt oneResident at h
  simp only [Option.ite_none_right_eq_some] at h
  exact ⟨h.1.2, (Option.some.inj h.2).symm⟩

theorem page_oneResident {e : Entry} (h : (oneResident.page e).frame ≠ 0) :
    oneResident.page e = { present := true, user := true, frame := 5 } := by
  unfold page oneResident at *
  simp only at h ⊢
  split at h
  · next heq => rw [if_pos heq]
  · exact absurd rfl h

theorem forkOk_oneResident : ForkOk oneResident 0xC0400000 newTables where
  fresh :=
    { dir_src := by decide
      dir_kernel := by decide
      table := fun i j t h => by
        obtain ⟨-, rfl⟩ := tableAt_oneResident h
        unfold newTables
        omega
      inj := fun i j _ _ h => by
        unfold newTables at h
        omega }
  nframes := by decide
  marked := fun i t _ j hj => by
    rw [page_oneResident hj]
    decide
  user := fun n _ hn => by
    cases ht : oneResident.tableAt oneResident.currentDirectory (n / 1024) with
    | none =>
      rw [pageAt_of_none ht] at hn
      exact absurd rfl hn
    | some t =>
      rw [pageAt_of_table ht] at hn
      unfold space
      simp only [pageAt_of_table ht, page_oneResident hn, Bool.and_self]

theorem fork_reads_resident :
    ∃ s' child, fork 0xC0400000 0 newTables oneResident = some (s', child) ∧
      child.read 0x8048054 = (mappedParent.inSpace (s'.space 0xC0200000)).read 0x8048054 := by
  have hsome : (fork 0xC0400000 0 newTables oneResident).isSome = true := by decide +kernel
  obtain ⟨⟨s', child⟩, h⟩ := Option.isSome_iff_exists.1 hsome
  refine ⟨s', child, h, ?_⟩
  exact (fork_reads_iff rfl forkOk_oneResident h (by decide)).2
    (.inl ⟨by decide +kernel, .inl (by decide +kernel)⟩)

/-- The second page of the mapping: the parent reads the file, the child faults. -/
theorem fork_loses_mapping :
    ForkOk oneResident 0xC0400000 newTables ∧
      mappedParent.space = oneResident.space oneResident.currentDirectory ∧
      (fork 0xC0400000 0 newTables oneResident).map (fun r =>
        (r.2.read 0x8049000, (mappedParent.inSpace (r.1.space 0xC0200000)).read 0x8049000)) =
      some (none, some 0x90) :=
  ⟨forkOk_oneResident, rfl, by decide +kernel⟩

end Ulysses
