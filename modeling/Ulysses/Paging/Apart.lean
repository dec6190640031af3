import Ulysses.Paging.Clone

/-!
# Frames of one entry only

`clone_table` takes the frames of the copy from the bitmap while it runs, and each
`knew_phys` for a new table may grow the kernel heap, which takes frames from the
same bitmap and may enter new tables in the kernel's directory. As long as the
frame of every entry in use is marked, the frame a turn finds was clear and no entry
has it; `Apart` is that invariant, with what it says of the copies made so far.

`dirs` is the set of the directories that exist.
-/

namespace Ulysses

open Lib

namespace VirtualMemory

/-- The frames `first_frame` can find. -/
def freeFrames (s : VirtualMemory) : Nat := (s.frames.clearBits (s.nframes / 32)).card

/-! ## Taking a frame -/

/-- The entry `e`, which had no frame, gets frame `idx`, which was free. -/
structure Takes (e : Entry) (idx : Nat) (s s' : VirtualMemory) : Prop where
  clear : s.frames.test idx = false
  lt : idx < s.nframes
  free : s'.freeFrames + 1 = s.freeFrames
  frame : (s'.page e).frame = idx
  page : ∀ e', e' ≠ e → s'.page e' = s.page e'
  marked : ∀ f, s'.frames.test f = (decide (f = idx) || s.frames.test f)
  physical : ∀ f, f ≠ idx → s'.physical f = s.physical f
  nframes : s'.nframes = s.nframes
  spaces : SameSpaces s s'

variable {s s' s₀ : VirtualMemory} {dirs copies : Set Nat}

theorem Takes.keeps {e : Entry} {idx : Nat} (h : Takes e idx s s') :
    Keeps (· = e) s s' where
  page := h.page
  marked f hf := by rw [h.marked, hf, Bool.or_true]
  physical f hf := h.physical f fun heq => by
    rw [heq, h.clear] at hf
    cases hf
  nframes := h.nframes

theorem exists_firstFrame (h : 0 < s.freeFrames) : ∃ idx, s.firstFrame = some idx := by
  obtain ⟨f, hf⟩ := Finset.card_pos.1 h
  exact Bitmap.exists_firstClear hf

theorem allocFrame_takes {e : Entry} (k w : Bool) (hn : s.nframes < 1048576)
    (hfree : 0 < s.freeFrames) (hzero : (s.page e).frame = 0) :
    ∃ s' idx, s.allocFrame e k w = some s' ∧ Takes e idx s s' := by
  obtain ⟨idx, hidx⟩ := exists_firstFrame hfree
  have halloc : ∃ s', s.allocFrame e k w = some s' := by
    unfold allocFrame
    rw [if_neg (not_not.2 hzero), hidx]
    exact ⟨_, rfl⟩
  obtain ⟨s', hs'⟩ := halloc
  refine ⟨s', idx, hs', ?_⟩
  obtain ⟨idx', hidx', hclear, hlt, hframes, hphys, hnf, hpages⟩ := allocFrame_spec hn hzero hs'
  obtain rfl : idx' = idx := Option.some.inj (hidx'.symm.trans hidx)
  obtain ⟨hin, -⟩ := Bitmap.firstClear_spec hidx
  refine ⟨hclear, by omega, ?_, ?_, fun e' he' => by rw [hpages, if_neg he'], hframes,
    fun f _ => by rw [hphys], hnf, allocFrame_sameSpaces hs'⟩
  · have hset : s'.frames.clearBits (s'.nframes / 32) =
        (s.frames.set idx').clearBits (s.nframes / 32) := by
      ext f
      rw [hnf, Bitmap.mem_clearBits, Bitmap.mem_clearBits, hframes, Bitmap.test_set]
    unfold freeFrames
    rw [hset]
    exact Bitmap.card_clearBits_set (Bitmap.mem_clearBits.2 ⟨hin, hclear⟩)
  · rw [hpages, if_pos rfl]
    exact Nat.mod_eq_of_lt hlt

theorem cloneEntry_takes {src dst i : Nat} (hn : s.nframes < 1048576) (hfree : 0 < s.freeFrames)
    (hblank : s.page ⟨dst, i⟩ = {}) (hnz : (s.page ⟨src, i⟩).frame ≠ 0) :
    ∃ s' idx, s.cloneEntry src dst i = some s' ∧ Takes ⟨dst, i⟩ idx s s' := by
  obtain ⟨s₁, idx, halloc, ht⟩ := allocFrame_takes false false hn hfree (e := ⟨dst, i⟩)
    (by rw [hblank])
  have hclone : ∃ s', s.cloneEntry src dst i = some s' := by
    unfold cloneEntry
    simp only [if_neg hnz, halloc, Option.map_some]
    exact ⟨_, rfl⟩
  obtain ⟨s', hs'⟩ := hclone
  refine ⟨s', idx, hs', ?_⟩
  obtain ⟨-, hz⟩ | ⟨s₂, q, -, ha, hq, heq⟩ := cloneEntry_cases hs'
  · exact absurd hz hnz
  obtain rfl : s₂ = s₁ := Option.some.inj (ha.symm.trans halloc)
  have hqf : q.frame = idx := by
    rw [hq]
    exact ht.frame
  have hpage : ∀ e, s'.page e = if e = ⟨dst, i⟩ then q else s₂.page e := fun e => by
    rw [heq]
    exact page_setPage s₂ ⟨dst, i⟩ e q
  refine ⟨ht.clear, ht.lt, ?_, ?_, fun e he => ?_, fun f => ?_, fun f hf => ?_, ?_,
    cloneEntry_sameSpaces hs'⟩
  · rw [heq]
    exact ht.free
  · rw [hpage, if_pos rfl, hqf]
  · rw [hpage, if_neg he, ht.page e he]
  · rw [heq]
    exact ht.marked f
  · rw [heq]
    refine (Function.update_of_ne (hqf ▸ hf) _ _).trans (ht.physical f hf)
  · rw [heq]
    exact ht.nframes

/-! ## Tables in use and whose frames they have -/

/-- The table is one of a directory of `dirs`. -/
def InUse (dirs : Set Nat) (s : VirtualMemory) (t : Nat) : Prop :=
  ∃ d ∈ dirs, ∃ i, s.tableAt d i = some t

/-- The table is in use or one of the copies made so far. -/
def Listed (dirs copies : Set Nat) (s : VirtualMemory) (t : Nat) : Prop :=
  InUse dirs s t ∨ t ∈ copies

/-- Frame 0 and the frames of all entries are marked, and the frames of the entries
of the copies were free in `s₀` and belong to one entry only. -/
structure Apart (s₀ : VirtualMemory) (dirs copies : Set Nat) (s : VirtualMemory) : Prop where
  old : ∀ f, s₀.frames.test f = true → s.frames.test f = true
  nframes : s.nframes = s₀.nframes
  zero : s.frames.test 0 = true
  marked : ∀ e : Entry, Listed dirs copies s e.table → s.frames.test (s.page e).frame = true
  sole : ∀ e : Entry, e.table ∈ copies → (s.page e).frame ≠ 0 →
    s₀.frames.test (s.page e).frame = false ∧ (s.page e).frame < s₀.nframes ∧
      ∀ e' : Entry, Listed dirs copies s e'.table → (s.page e').frame = (s.page e).frame → e' = e

theorem InUse.congr (h : ∀ d ∈ dirs, ∀ i, s'.tableAt d i = s.tableAt d i) {t : Nat}
    (ht : InUse dirs s' t) : InUse dirs s t := by
  obtain ⟨d, hd, i, hi⟩ := ht
  exact ⟨d, hd, i, h d hd i ▸ hi⟩

theorem Apart.takes {e : Entry} {idx : Nat} (h : Apart s₀ dirs copies s)
    (he : Listed dirs copies s e.table) (ht : Takes e idx s s') : Apart s₀ dirs copies s' := by
  have hlisted : ∀ t, Listed dirs copies s' t → Listed dirs copies s t := fun t hl =>
    hl.imp_left (InUse.congr fun d _ i => ht.spaces.tableAt d i)
  have hmarked : ∀ e', Listed dirs copies s' e'.table → e' ≠ e →
      s.frames.test (s'.page e').frame = true := fun e' hl hne => by
    rw [ht.page e' hne]
    exact h.marked e' (hlisted _ hl)
  -- the frame that was taken is no other entry's
  have hother : ∀ e', Listed dirs copies s' e'.table → (s'.page e').frame = idx → e' = e := by
    intro e' hl hframe
    by_contra hne
    have := hmarked e' hl hne
    rw [hframe, ht.clear] at this
    cases this
  refine ⟨fun f hf => ht.keeps.marked f (h.old f hf), ht.nframes.trans h.nframes,
    ht.keeps.marked 0 h.zero, fun e' hl => ?_, fun e' hc hnz => ?_⟩
  · by_cases heq : e' = e
    · rw [heq, ht.frame, ht.marked, decide_eq_true rfl, Bool.true_or]
    · exact ht.keeps.marked _ (hmarked e' hl heq)
  · by_cases heq : e' = e
    · subst heq
      rw [ht.frame]
      refine ⟨?_, h.nframes ▸ ht.lt, hother⟩
      by_contra hset
      have := h.old idx (by simpa using hset)
      rw [ht.clear] at this
      cases this
    · rw [ht.page e' heq] at hnz ⊢
      obtain ⟨hclear, hlt, hsole⟩ := h.sole e' hc hnz
      refine ⟨hclear, hlt, fun e'' hl hframe => ?_⟩
      by_cases heq' : e'' = e
      · subst heq'
        rw [ht.frame] at hframe
        have := h.marked e' (.inr hc)
        rw [← hframe, ht.clear] at this
        cases this
      · rw [ht.page e'' heq'] at hframe
        exact hsole e'' (hlisted _ hl) hframe

/-- Steps that take no frame: what is listed afterwards was listed before and has its
pages, or is blank. -/
theorem Apart.of_pages {copies' : Set Nat} (h : Apart s₀ dirs copies s)
    (hframes : s'.frames = s.frames) (hnf : s'.nframes = s.nframes)
    (hpage : ∀ e : Entry, Listed dirs copies' s' e.table →
      (s'.page e).frame = 0 ∨ Listed dirs copies s e.table ∧ s'.page e = s.page e)
    (hcopies : ∀ e : Entry, e.table ∈ copies' → (s'.page e).frame ≠ 0 → e.table ∈ copies) :
    Apart s₀ dirs copies' s' := by
  refine ⟨fun f hf => hframes ▸ h.old f hf, hnf.trans h.nframes, hframes ▸ h.zero,
    fun e hl => ?_, fun e hc hnz => ?_⟩
  · rw [hframes]
    obtain hz | ⟨hl', heq⟩ := hpage e hl
    · rw [hz]
      exact h.zero
    · rw [heq]
      exact h.marked e hl'
  · obtain hz | ⟨-, heq⟩ := hpage e (.inr hc)
    · exact absurd hz hnz
    obtain ⟨hclear, hlt, hsole⟩ := h.sole e (hcopies e hc hnz) (heq ▸ hnz)
    rw [heq] at hnz ⊢
    refine ⟨hclear, hlt, fun e' hl hframe => ?_⟩
    obtain hz | ⟨hl', heq'⟩ := hpage e' hl
    · exact absurd (hframe.symm.trans hz) hnz
    · exact hsole e' hl' (heq' ▸ hframe)

/-! ## The copies, with a heap that grows -/

/-- A call of `knew_phys`: the pages by which `expand` grows the kernel heap first,
each with what `kmalloc_ap` returns should its table have to be made, and the new
object with its physical address. -/
structure HeapCall where
  pages : List (Nat × Nat × Nat) := []
  object : Nat × Nat

namespace Growing

/-- The growth of the heap in a call of `knew_phys`. -/
def knewPhys (c : HeapCall) (s : VirtualMemory) : Option VirtualMemory :=
  c.pages.foldlM (fun s p => s.expandPage p.1 p.2 false true) s

def cloneTable (src : Nat) (c : HeapCall) (s : VirtualMemory) : Option VirtualMemory :=
  (knewPhys c s).bind fun s => s.cloneTable src c.object.1

/-- One turn of the loop of `clone_directory`; `calls i` makes the copy of table `i`. -/
def cloneSlot (src dir : Nat) (calls : Nat → HeapCall) (s : VirtualMemory) (i : Nat) :
    Option VirtualMemory :=
  match (s.directories src).tables i with
  | none => some s
  | some t =>
    if (s.directories s.kernelDirectory).tables i = some t then
      some (s.putTable dir i t ((s.directories src).tablesPhysical i))
    else
      (cloneTable t (calls i) s).map fun s =>
        s.putTable dir i (calls i).object.1 ((calls i).object.2 ||| 0x07)

def cloneDirectory (src : Nat) (first : HeapCall) (calls : Nat → HeapCall) (s : VirtualMemory) :
    Option VirtualMemory :=
  (knewPhys first s).bind fun s =>
    (List.range 1024).foldlM (cloneSlot src first.object.1 calls)
      (s.blankDirectory first.object.1 first.object.2)

/-- Without growth this is `clone_directory` as the other modules have it. -/
theorem cloneDirectory_of_pages_nil {src : Nat} {first : HeapCall} {calls : Nat → HeapCall}
    (hfirst : first.pages = []) (hcalls : ∀ i, (calls i).pages = []) (s : VirtualMemory) :
    cloneDirectory src first calls s =
      s.cloneDirectory src first.object.1 first.object.2 fun i => (calls i).object := by
  have hknew : ∀ (c : HeapCall) (x : VirtualMemory), c.pages = [] → knewPhys c x = some x :=
    fun c x hc => by rw [knewPhys, hc]; rfl
  have hslot : cloneSlot src first.object.1 calls =
      fun x i => x.cloneSlot src first.object.1 (fun i => (calls i).object) i := by
    funext x i
    unfold cloneSlot VirtualMemory.cloneSlot
    cases (x.directories src).tables i with
    | none => rfl
    | some t => simp only [cloneTable, hknew _ _ (hcalls i), Option.bind_some]
  rw [cloneDirectory, VirtualMemory.cloneDirectory, hknew _ _ hfirst, Option.bind_some, hslot]

end Growing

/-- What growing the heap does to the directories `dirs`: the kernel's may get tables
from `made` where it had none. -/
structure Grows (dirs made : Set Nat) (s s' : VirtualMemory) : Prop where
  kernel : s'.kernelDirectory = s.kernelDirectory
  others : ∀ d ∈ dirs, d ≠ s.kernelDirectory → ∀ i, s'.tableAt d i = s.tableAt d i
  slot : ∀ i, s'.tableAt s.kernelDirectory i = s.tableAt s.kernelDirectory i ∨
    s.tableAt s.kernelDirectory i = none ∧ ∃ u ∈ made, s'.tableAt s.kernelDirectory i = some u

theorem Grows.of_tableAt (made : Set Nat) (hker : s.kernelDirectory ∈ dirs)
    (hkernel : s'.kernelDirectory = s.kernelDirectory)
    (h : ∀ d ∈ dirs, ∀ i, s'.tableAt d i = s.tableAt d i) : Grows dirs made s s' :=
  ⟨hkernel, fun d hd _ => h d hd, fun i => .inl (h _ hker i)⟩

theorem Grows.mono {dirs' made made' : Set Nat} (h : Grows dirs made s s') (hd : dirs' ⊆ dirs)
    (hm : made ⊆ made') : Grows dirs' made' s s' :=
  ⟨h.kernel, fun d hd' => h.others d (hd hd'), fun i => (h.slot i).imp_right
    fun ⟨hnone, u, hu, hi⟩ => ⟨hnone, u, hm hu, hi⟩⟩

theorem Grows.trans {made : Set Nat} {s₁ s₂ s₃ : VirtualMemory} (h₁ : Grows dirs made s₁ s₂)
    (h₂ : Grows dirs made s₂ s₃) : Grows dirs made s₁ s₃ := by
  refine ⟨h₂.kernel.trans h₁.kernel, fun d hd hne i => ?_, fun i => ?_⟩
  · rw [h₂.others d hd (h₁.kernel ▸ hne), h₁.others d hd hne]
  · have hslot := h₂.slot i
    rw [h₁.kernel] at hslot
    obtain heq | ⟨hnone, u, hu, hi⟩ := hslot
    · rw [heq]
      exact h₁.slot i
    · refine .inr ⟨?_, u, hu, hi⟩
      obtain heq | ⟨-, u', -, hi'⟩ := h₁.slot i
      · exact heq ▸ hnone
      · rw [hi'] at hnone
        cases hnone

theorem Grows.kernel_kept {made : Set Nat} (h : Grows dirs made s s') {i t : Nat}
    (ht : s.tableAt s.kernelDirectory i = some t) : s'.tableAt s'.kernelDirectory i = some t := by
  rw [h.kernel]
  obtain heq | ⟨hnone, -⟩ := h.slot i
  · rw [heq, ht]
  · rw [ht] at hnone
    cases hnone

theorem Grows.kernel_cases {made : Set Nat} (h : Grows dirs made s s') {i t : Nat}
    (ht : s'.tableAt s'.kernelDirectory i = some t) :
    s.tableAt s.kernelDirectory i = some t ∨ t ∈ made := by
  rw [h.kernel] at ht
  obtain heq | ⟨-, u, hu, hi⟩ := h.slot i
  · exact .inl (heq ▸ ht)
  · rw [hi] at ht
    exact .inr (Option.some.inj ht ▸ hu)

/-- The tables in which the pages of a heap call lie. -/
def HeapTable (pages : List (Nat × Nat × Nat)) (s : VirtualMemory) (t : Nat) : Prop :=
  ∃ p ∈ pages, s.tableAt s.kernelDirectory (p.1 / pageSize / 1024) = some t

theorem getKernelPage_spec (address : Nat) (fresh : Nat × Nat) (h : Apart s₀ dirs copies s) :
    ∃ e s₁, s.getKernelPage address true fresh = (some e, s₁) ∧
      s₁.tableAt s₁.kernelDirectory (address / pageSize / 1024) = some e.table ∧
      s₁.freeFrames = s.freeFrames ∧ Grows Set.univ {fresh.1} s s₁ ∧
      Keeps (fun e' => e'.table = e.table) s s₁ ∧ Apart s₀ dirs copies s₁ := by
  unfold getKernelPage
  obtain ⟨t, ht, heq⟩ | ⟨hnone, -, heq⟩ | heq :=
    getPage_cases s address true s.kernelDirectory fresh
  · exact ⟨_, s, heq, ht, rfl, .of_tableAt _ trivial rfl fun _ _ _ => rfl, .refl _ _, h⟩
  · refine ⟨_, _, heq, ?_, rfl, ⟨rfl, fun d _ hd i => ?_, fun i => ?_⟩,
      ⟨fun e he => ?_, fun _ hf => hf, fun _ _ => rfl, rfl⟩, ?_⟩
    · rw [tableAt_putTable]
      exact if_pos ⟨rfl, rfl⟩
    · rw [tableAt_putTable, if_neg fun hd' => hd hd'.1]
      rfl
    · rw [tableAt_putTable]
      by_cases hi : i = address / pageSize / 1024
      · rw [if_pos ⟨rfl, hi⟩, hi]
        exact .inr ⟨hnone, fresh.1, rfl, rfl⟩
      · rw [if_neg fun hi' => hi hi'.2]
        exact .inl rfl
    · exact (page_zeroTable s fresh.1 e).trans (if_neg he)
    · refine h.of_pages rfl rfl (fun e hl => ?_) fun e hc _ => hc
      have hpage := page_zeroTable s fresh.1 e
      by_cases he : e.table = fresh.1
      · rw [if_pos he] at hpage
        exact .inl (congrArg Page.frame hpage)
      · refine .inr ⟨hl.imp_left ?_, hpage.trans (if_neg he)⟩
        rintro ⟨d, hd, i, hi⟩
        rw [tableAt_putTable] at hi
        split at hi
        · exact absurd (Option.some.inj hi).symm he
        · exact ⟨d, hd, i, hi⟩
  · unfold getPage at heq
    simp only at heq
    split at heq
    · cases (Prod.mk.inj heq).1
    · cases (Prod.mk.inj heq).1

theorem expandPage_spec {k : Nat} (address : Nat) (fresh : Nat × Nat) (isKernel isWriteable : Bool)
    (hn : s.nframes < 1048576) (hker : s.kernelDirectory ∈ dirs) (h : Apart s₀ dirs copies s)
    (hfree : k + 1 ≤ s.freeFrames) :
    ∃ s', s.expandPage address fresh isKernel isWriteable = some s' ∧ k ≤ s'.freeFrames ∧
      Grows Set.univ {fresh.1} s s' ∧ Apart s₀ dirs copies s' ∧
      Keeps (fun e =>
        s'.tableAt s'.kernelDirectory (address / pageSize / 1024) = some e.table) s s' := by
  obtain ⟨e, s₁, hget, htable, hfree₁, hgrows, hkeeps, hapart⟩ :=
    getKernelPage_spec address fresh h
  have hexpand : s.expandPage address fresh isKernel isWriteable =
      s₁.allocFrame e isKernel isWriteable := by
    rw [expandPage, hget]
    rfl
  have hn₁ : s₁.nframes < 1048576 := hkeeps.nframes ▸ hn
  rw [hexpand]
  by_cases hz : (s₁.page e).frame = 0
  · obtain ⟨s', idx, halloc, ht⟩ := allocFrame_takes isKernel isWriteable hn₁ (by omega) hz
    have htable' : s'.tableAt s'.kernelDirectory (address / pageSize / 1024) = some e.table := by
      rw [ht.spaces.2.1, ht.spaces.tableAt, htable]
    have hlisted : Listed dirs copies s₁ e.table := .inl ⟨_, hgrows.kernel ▸ hker, _, htable⟩
    have hfree' := ht.free
    refine ⟨s', halloc, by omega, hgrows.trans (.of_tableAt _ trivial ht.spaces.2.1
      fun d _ => ht.spaces.tableAt d), hapart.takes hlisted ht, ?_⟩
    refine (hkeeps.trans (ht.keeps.mono fun e' he' => by rw [he'])).mono fun e' he' => ?_
    rw [htable', he']
  · refine ⟨s₁, ?_, by omega, hgrows, hapart, hkeeps.mono fun e' he' => by rw [htable, he']⟩
    unfold allocFrame
    rw [if_pos hz]

theorem knewPhys_spec {k : Nat} (c : HeapCall) (hn : s.nframes < 1048576)
    (hker : s.kernelDirectory ∈ dirs) (h : Apart s₀ dirs copies s)
    (hfree : k + c.pages.length ≤ s.freeFrames) :
    ∃ s', Growing.knewPhys c s = some s' ∧ k ≤ s'.freeFrames ∧
      Grows Set.univ {u | ∃ p ∈ c.pages, p.2.1 = u} s s' ∧ Apart s₀ dirs copies s' ∧
      Keeps (fun e => HeapTable c.pages s' e.table) s s' := by
  unfold Growing.knewPhys
  generalize c.pages = pages at hfree ⊢
  induction pages generalizing s with
  | nil =>
    exact ⟨s, rfl, hfree, .of_tableAt _ trivial rfl fun _ _ _ => rfl, h, .refl _ _⟩
  | cons p pages ih =>
    rw [List.length_cons, ← Nat.add_assoc] at hfree
    obtain ⟨s₁, hstep, hfree₁, hgrows₁, hapart₁, hkeeps₁⟩ :=
      expandPage_spec p.1 p.2 false true hn hker h hfree
    obtain ⟨s', hrun, hfree', hgrows, hapart, hkeeps⟩ :=
      ih (hkeeps₁.nframes ▸ hn) (hgrows₁.kernel ▸ hker) hapart₁ hfree₁
    refine ⟨s', ?_, hfree', ?_, hapart, ?_⟩
    · rw [List.foldlM_cons, hstep]
      exact hrun
    · refine (hgrows₁.mono subset_rfl ?_).trans (hgrows.mono subset_rfl ?_)
      · rintro u rfl
        exact ⟨p, List.mem_cons_self, rfl⟩
      · rintro u ⟨q, hq, rfl⟩
        exact ⟨q, List.mem_cons_of_mem p hq, rfl⟩
    · refine (hkeeps₁.mono ?_).trans (hkeeps.mono ?_)
      · exact fun e he => ⟨p, List.mem_cons_self, hgrows.kernel_kept he⟩
      · rintro e ⟨q, hq, he⟩
        exact ⟨q, List.mem_cons_of_mem p hq, he⟩

/-! ## One table -/

/-- The entries of a table that have a frame. -/
def tableFrames (s : VirtualMemory) (t : Nat) : Nat :=
  ∑ j ∈ Finset.range 1024, if (s.page ⟨t, j⟩).frame = 0 then 0 else 1

/-- The table `u` is a copy of `t`; its entries have frames where those of `t` do. -/
def TableCopied (s : VirtualMemory) (t u : Nat) : Prop :=
  ∀ j < 1024, s.Copied t u j ∧ ((s.page ⟨t, j⟩).frame ≠ 0 → (s.page ⟨u, j⟩).frame ≠ 0)

theorem TableCopied.keeps {w : Entry → Prop} {t u : Nat} (h : s.TableCopied t u) (hk : Keeps w s s')
    (hmarked : s.TableMarked t) (ht : ∀ j, ¬w ⟨t, j⟩) (hu : ∀ j, ¬w ⟨u, j⟩) :
    s'.TableCopied t u := by
  intro j hj
  refine ⟨(h j hj).1.keeps hk hmarked (ht j) (hu j), ?_⟩
  rw [hk.page _ (ht j), hk.page _ (hu j)]
  exact (h j hj).2

/-- With a frame for each entry that has one, `clone_table` makes a copy apart from
everything that is there. -/
theorem cloneTable_total {src dst k : Nat} (hn : s.nframes < 1048576) (hne : src ≠ dst)
    (hsrc : InUse dirs s src) (h : Apart s₀ dirs copies s)
    (hfree : k + s.tableFrames src ≤ s.freeFrames) :
    ∃ s', s.cloneTable src dst = some s' ∧ k ≤ s'.freeFrames ∧
      Apart s₀ dirs (insert dst copies) s' ∧ Keeps (·.table = dst) s s' ∧
      s'.TableCopied src dst := by
  have hmarked : s.TableMarked src := fun i _ => h.marked ⟨src, i⟩ (.inl hsrc)
  have hzero : Apart s₀ dirs (insert dst copies) (s.zeroTable dst) := by
    refine h.of_pages rfl rfl (fun e hl => ?_) fun e hc hnz => hc.resolve_left fun heq => hnz ?_
    · rw [page_zeroTable]
      by_cases he : e.table = dst
      · exact .inl (by rw [if_pos he])
      · exact .inr ⟨hl.imp_right fun hc => hc.resolve_left he, if_neg he⟩
    · rw [page_zeroTable, if_pos heq]
  -- before turn `j` the entries from `j` on are blank
  obtain ⟨s', hrun, hfree', hapart, -, -, hnonzero⟩ := foldlM_range_budget
    (f := cloneEntry src dst)
    (P := fun j k x => k ≤ x.freeFrames ∧ Apart s₀ dirs (insert dst copies) x ∧
      Keeps (·.table = dst) s x ∧ (∀ i, j ≤ i → x.page ⟨dst, i⟩ = {}) ∧
      ∀ i < j, (s.page ⟨src, i⟩).frame ≠ 0 → (x.page ⟨dst, i⟩).frame ≠ 0)
    (n := 1024) (k := k) (s := s.zeroTable dst)
    (fun j => if (s.page ⟨src, j⟩).frame = 0 then 0 else 1)
    (fun j k x _ ⟨hfree, hapart, hkeeps, hblank, hnonzero⟩ => by
      have hpage : x.page ⟨src, j⟩ = s.page ⟨src, j⟩ := hkeeps.page _ hne
      by_cases hz : (s.page ⟨src, j⟩).frame = 0
      · refine ⟨x, ?_, ?_, hapart, hkeeps, fun i hi => hblank i (by omega), fun i hi hnz => ?_⟩
        · rw [cloneEntry, hpage]
          exact if_pos hz
        · rwa [if_pos hz] at hfree
        · have : i ≠ j := fun heq => hnz (heq ▸ hz)
          exact hnonzero i (by omega) hnz
      · rw [if_neg hz] at hfree
        obtain ⟨x', idx, hstep, ht⟩ := cloneEntry_takes (hkeeps.nframes ▸ hn) (by omega)
          (hblank j (Nat.le_refl j)) (hpage ▸ hz)
        have hfree' := ht.free
        refine ⟨x', hstep, by omega, hapart.takes (.inr (.inl rfl)) ht,
          hkeeps.trans (ht.keeps.mono fun e he => by rw [he]), fun i hi => ?_, fun i hi hnz => ?_⟩
        · rw [ht.page _ (by simp; omega), hblank i (by omega)]
        · by_cases heq : i = j
          · rw [heq, ht.frame]
            rintro rfl
            have := hapart.zero
            rw [ht.clear] at this
            cases this
          · rw [ht.page _ (by simp [heq])]
            exact hnonzero i (by omega) hnz)
    ⟨hfree, hzero, ⟨fun e he => by rw [page_zeroTable, if_neg he], fun _ hf => hf, fun _ _ => rfl,
      rfl⟩, fun i _ => by rw [page_zeroTable, if_pos rfl], fun i hi => absurd hi (by omega)⟩
  obtain ⟨hkeeps, hcopied⟩ := cloneTable_spec hn hne hmarked hrun
  refine ⟨s', hrun, hfree', hapart, hkeeps, fun j hj => ⟨hcopied j hj, ?_⟩⟩
  rw [hkeeps.page _ hne]
  exact hnonzero j hj

end VirtualMemory

end Ulysses
