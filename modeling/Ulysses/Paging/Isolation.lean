import Ulysses.Paging.Apart

/-!
# Cloned address spaces are isolated

What `clone_directory` has done after each turn (`Progress`), over the invariant
that frames belong to one entry only, and what follows at the end: the tables of
the copy are the kernel's or new, and its frames are no other entry's (`Isolated`).
-/

namespace Ulysses

open Lib

namespace VirtualMemory

/-! ## The whole directory -/

/-- A table that `src` has for itself: the kernel has another one, or none, there. -/
def OwnTable (s : VirtualMemory) (src i t : Nat) : Prop :=
  s.tableAt src i = some t ∧ s.tableAt s.kernelDirectory i ≠ some t

/-- The frames that a turn of `clone_directory` takes. -/
def slotFrames (s : VirtualMemory) (src : Nat) (calls : Nat → HeapCall) (i : Nat) : Nat :=
  match s.tableAt src i with
  | none => 0
  | some t =>
    if s.tableAt s.kernelDirectory i = some t then 0
    else (calls i).pages.length + s.tableFrames t

/-- The frames that `clone_directory` takes. -/
def framesNeeded (s : VirtualMemory) (src : Nat) (first : HeapCall) (calls : Nat → HeapCall) :
    Nat :=
  first.pages.length + ∑ i ∈ Finset.range 1024, s.slotFrames src calls i

/-- The calls of `knew_phys` in a `clone_directory`. -/
def IsCall (first : HeapCall) (calls : Nat → HeapCall) (c : HeapCall) : Prop :=
  c = first ∨ ∃ i < 1024, c = calls i

/-- The tables the heap may make for itself. -/
def heapMade (first : HeapCall) (calls : Nat → HeapCall) : Set Nat :=
  {u | ∃ c, IsCall first calls c ∧ ∃ p ∈ c.pages, p.2.1 = u}

/-- `kmalloc_ap` returns memory that is not in use, and the heap does not lie in
tables that `src` has for itself. -/
structure NewObjects (s : VirtualMemory) (dirs : Set Nat) (src : Nat) (first : HeapCall)
    (calls : Nat → HeapCall) : Prop where
  dir : first.object.1 ∉ dirs
  made : ∀ u ∈ heapMade first calls, ¬InUse dirs s u
  copy : ∀ i < 1024, ¬InUse dirs s (calls i).object.1
  copy_made : ∀ i < 1024, (calls i).object.1 ∉ heapMade first calls
  copy_inj : ∀ i < 1024, ∀ j < 1024, (calls i).object.1 = (calls j).object.1 → i = j
  heap : ∀ c, IsCall first calls c → ∀ t, HeapTable c.pages s t → ∀ i, ¬OwnTable s src i t

/-- The copies made in the first `n` turns. -/
def copies (s : VirtualMemory) (src : Nat) (calls : Nat → HeapCall) (n : Nat) : Set Nat :=
  {u | ∃ i < n, ∃ t, OwnTable s src i t ∧ (calls i).object.1 = u}

/-- What `clone_directory` has done after `n` turns. -/
structure Progress (s₀ : VirtualMemory) (dirs : Set Nat) (src : Nat) (first : HeapCall)
    (calls : Nat → HeapCall) (n : Nat) (s : VirtualMemory) : Prop where
  apart : Apart s₀ dirs (copies s₀ src calls n) s
  keeps : Keeps (fun e => ∀ i, ¬OwnTable s₀ src i e.table) s₀ s
  grows : Grows dirs (heapMade first calls) s₀ s
  todo : ∀ i, n ≤ i → s.tableAt first.object.1 i = none
  table : ∀ i u, s.tableAt first.object.1 i = some u →
    s.tableAt s.kernelDirectory i = some u ∨
      i < n ∧ (∃ t, OwnTable s₀ src i t) ∧ (calls i).object.1 = u
  shared : ∀ i < n, ∀ t, s₀.tableAt src i = some t → s₀.tableAt s₀.kernelDirectory i = some t →
    s.tableAt first.object.1 i = some t
  copied : ∀ i < n, ∀ t, OwnTable s₀ src i t →
    s.tableAt first.object.1 i = some (calls i).object.1 ∧ s.TableCopied t (calls i).object.1

section Loop

variable {s₀ s : VirtualMemory} {dirs : Set Nat} {src : Nat} {first : HeapCall}
  {calls : Nat → HeapCall} {n : Nat}

theorem copies_succ {t : Nat} (ht : OwnTable s₀ src n t) :
    copies s₀ src calls (n + 1) = insert (calls n).object.1 (copies s₀ src calls n) := by
  ext u
  constructor
  · rintro ⟨i, hi, t', ht', rfl⟩
    by_cases heq : i = n
    · exact .inl (by rw [heq])
    · exact .inr ⟨i, by omega, t', ht', rfl⟩
  · rintro (rfl | ⟨i, hi, t', ht', rfl⟩)
    · exact ⟨n, Nat.lt_succ_self n, t, ht, rfl⟩
    · exact ⟨i, Nat.lt_succ_of_lt hi, t', ht', rfl⟩

theorem copies_succ_of_not (hnot : ∀ t, ¬OwnTable s₀ src n t) :
    copies s₀ src calls (n + 1) = copies s₀ src calls n := by
  ext u
  constructor
  · rintro ⟨i, hi, t, ht, rfl⟩
    have hne : i ≠ n := fun heq => hnot t (heq ▸ ht)
    exact ⟨i, by omega, t, ht, rfl⟩
  · rintro ⟨i, hi, t, ht, rfl⟩
    exact ⟨i, Nat.lt_succ_of_lt hi, t, ht, rfl⟩

theorem Apart.of_tableAt {s' : VirtualMemory} {made : Set Nat} (h : Apart s₀ dirs made s)
    (hframes : s'.frames = s.frames) (hnf : s'.nframes = s.nframes)
    (htables : s'.tables = s.tables) (h' : ∀ d ∈ dirs, ∀ i, s'.tableAt d i = s.tableAt d i) :
    Apart s₀ dirs made s' :=
  h.of_pages hframes hnf (fun e hl => .inr ⟨hl.imp_left (InUse.congr h'), by
    unfold page
    rw [htables]⟩) fun _ hc _ => hc

variable (hnew : NewObjects s₀ dirs src first calls) (hsrc : src ∈ dirs)

include hnew hsrc

/-- The tables `src` has for itself stay where they are, and so does what tells them
from the kernel's. -/
theorem Progress.own (h : Progress s₀ dirs src first calls n s) {i t : Nat}
    (ht : OwnTable s₀ src i t) : OwnTable s src i t := by
  have hne : src ≠ s₀.kernelDirectory := fun heq => ht.2 (heq ▸ ht.1)
  refine ⟨(h.grows.others src hsrc hne i).trans ht.1, fun hk => ?_⟩
  obtain hold | hmade := h.grows.kernel_cases hk
  · exact ht.2 hold
  · exact hnew.made t hmade ⟨src, hsrc, i, ht.1⟩

theorem Progress.own_marked (h : Progress s₀ dirs src first calls n s) {i t : Nat}
    (ht : OwnTable s₀ src i t) : s.TableMarked t :=
  fun _ _ => h.apart.marked ⟨t, _⟩ (.inl ⟨src, hsrc, i, (h.own hnew hsrc ht).1⟩)

variable (hker : s₀.kernelDirectory ∈ dirs)

include hker

/-- A table in which the heap grows is neither one that `src` has for itself nor a
copy. -/
theorem NewObjects.heapTable (hgrows : Grows dirs (heapMade first calls) s₀ s) {c : HeapCall}
    (hc : IsCall first calls c) {u : Nat} (hu : HeapTable c.pages s u) :
    (∀ i, ¬OwnTable s₀ src i u) ∧ ∀ i < 1024, (calls i).object.1 ≠ u := by
  obtain ⟨p, hp, hslot⟩ := hu
  obtain hold | hmade := hgrows.kernel_cases hslot
  · exact ⟨hnew.heap c hc u ⟨p, hp, hold⟩, fun i hi heq =>
      hnew.copy i hi ⟨_, hker, _, heq ▸ hold⟩⟩
  · exact ⟨fun i ht => hnew.made u hmade ⟨src, hsrc, i, ht.1⟩, fun i hi heq =>
      hnew.copy_made i hi (heq ▸ hmade)⟩

theorem Progress.grow {s' : VirtualMemory} (hle : n ≤ 1024) {c : HeapCall}
    (hc : IsCall first calls c) (h : Progress s₀ dirs src first calls n s)
    (hgrows : Grows Set.univ {u | ∃ p ∈ c.pages, p.2.1 = u} s s')
    (hapart : Apart s₀ dirs (copies s₀ src calls n) s')
    (hkeeps : Keeps (fun e => HeapTable c.pages s' e.table) s s') :
    Progress s₀ dirs src first calls n s' := by
  have hgrows' : Grows dirs (heapMade first calls) s₀ s' :=
    h.grows.trans (hgrows.mono (Set.subset_univ _) fun u ⟨p, hp, hu⟩ => ⟨c, hc, p, hp, hu⟩)
  have hdir : ∀ i, s'.tableAt first.object.1 i = s.tableAt first.object.1 i :=
    hgrows.others _ trivial fun heq => hnew.dir (heq ▸ h.grows.kernel ▸ hker)
  refine ⟨hapart, h.keeps.trans (hkeeps.mono fun e he =>
      (hnew.heapTable hsrc hker hgrows' hc he).1), hgrows', fun i hi => ?_, fun i u hu => ?_,
      fun i hi t ht hk => ?_, fun i hi t ht => ?_⟩
  · rw [hdir, h.todo i hi]
  · rw [hdir] at hu
    exact (h.table i u hu).imp_left hgrows.kernel_kept
  · rw [hdir, h.shared i hi t ht hk]
  · obtain ⟨htable, hcopied⟩ := h.copied i hi t ht
    refine ⟨by rw [hdir, htable], hcopied.keeps hkeeps (h.own_marked hnew hsrc ht)
      (fun j hj => ?_) fun j hj => ?_⟩
    · exact (hnew.heapTable hsrc hker hgrows' hc hj).1 i ht
    · exact (hnew.heapTable hsrc hker hgrows' hc hj).2 i (by omega) rfl

/-- A turn that writes at most the new table and enters the table `v`. -/
theorem Progress.enter {s₂ : VirtualMemory} {w : Entry → Prop} {v : Nat} (tmp : Nat)
    (hlt : n < 1024)
    (h : Progress s₀ dirs src first calls n s) (hsame : SameSpaces s s₂) (hkeeps : Keeps w s s₂)
    (hw : ∀ e, w e → e.table = (calls n).object.1)
    (hapart : Apart s₀ dirs (copies s₀ src calls (n + 1)) s₂)
    (htable : s.tableAt s.kernelDirectory n = some v ∨
      (∃ t, OwnTable s₀ src n t) ∧ (calls n).object.1 = v)
    (hshared : ∀ t, s₀.tableAt src n = some t → s₀.tableAt s₀.kernelDirectory n = some t → v = t)
    (hcopied : ∀ t, OwnTable s₀ src n t →
      (calls n).object.1 = v ∧ s₂.TableCopied t (calls n).object.1) :
    Progress s₀ dirs src first calls (n + 1) (s₂.putTable first.object.1 n v tmp) := by
  have hat : ∀ d i, (s₂.putTable first.object.1 n v tmp).tableAt d i =
      if d = first.object.1 ∧ i = n then some v else s.tableAt d i := fun d i => by
    rw [tableAt_putTable, hsame.tableAt]
  have hdir : ∀ d ∈ dirs, d ≠ first.object.1 := fun d hd heq => hnew.dir (heq ▸ hd)
  have hother : ∀ d ∈ dirs, ∀ i, (s₂.putTable first.object.1 n v tmp).tableAt d i =
      s.tableAt d i := fun d hd i => by
    rw [hat, if_neg fun heq => hdir d hd heq.1]
  have hput : Keeps w s (s₂.putTable first.object.1 n v tmp) :=
    ⟨hkeeps.page, hkeeps.marked, hkeeps.physical, hkeeps.nframes⟩
  have hker' : s.kernelDirectory ∈ dirs := h.grows.kernel ▸ hker
  have hkernel : (s₂.putTable first.object.1 n v tmp).kernelDirectory = s.kernelDirectory :=
    hsame.2.1
  -- neither a table of `src` nor an earlier copy is the table written
  have hown : ∀ i t, OwnTable s₀ src i t → ∀ j, ¬w ⟨t, j⟩ := fun i t ht j hj =>
    hnew.copy n hlt (hw _ hj ▸ ⟨src, hsrc, i, ht.1⟩)
  refine ⟨?_, h.keeps.trans (hput.mono fun e he i ht => hown i _ ht e.index he),
    h.grows.trans (.of_tableAt _ hker' hkernel hother), fun i hi => ?_, fun i u hu => ?_,
    fun i hi t ht hk => ?_, fun i hi t ht => ?_⟩
  · exact hapart.of_tableAt rfl rfl rfl fun d hd i => by
      rw [tableAt_putTable, if_neg fun heq => hdir d hd heq.1]
  · rw [hat, if_neg (by omega), h.todo i (by omega)]
  · rw [hkernel, hother _ hker']
    rw [hat] at hu
    split at hu
    · next heq =>
      obtain rfl := Option.some.inj hu
      rw [heq.2]
      exact htable.imp_right fun ⟨ht, hv⟩ => ⟨Nat.lt_succ_self n, ht, hv⟩
    · exact (h.table i u hu).imp_right fun ⟨hi, ht⟩ => ⟨Nat.lt_succ_of_lt hi, ht⟩
  · rw [hat]
    by_cases heq : i = n
    · subst heq
      rw [if_pos ⟨rfl, rfl⟩, hshared t ht hk]
    · rw [if_neg fun heq' => heq heq'.2]
      exact h.shared i (by omega) t ht hk
  · rw [hat]
    by_cases heq : i = n
    · subst heq
      obtain ⟨hv, hcop⟩ := hcopied t ht
      rw [if_pos ⟨rfl, rfl⟩, hv]
      exact ⟨rfl, hv ▸ hcop⟩
    · rw [if_neg fun heq' => heq heq'.2]
      obtain ⟨htab, hcop⟩ := h.copied i (by omega) t ht
      refine ⟨htab, hcop.keeps hput (h.own_marked hnew hsrc ht) (hown i t ht) fun j hj => heq ?_⟩
      exact hnew.copy_inj i (by omega) n hlt (hw _ hj)

theorem Progress.step_own {k t : Nat} (hn : s₀.nframes < 1048576)
    (hlt : n < 1024) (ht : OwnTable s₀ src n t) (h : Progress s₀ dirs src first calls n s)
    (hfree : k + s₀.slotFrames src calls n ≤ s.freeFrames) :
    ∃ s', Growing.cloneSlot src first.object.1 calls s n = some s' ∧ k ≤ s'.freeFrames ∧
      Progress s₀ dirs src first calls (n + 1) s' := by
  have hcost : s₀.slotFrames src calls n = (calls n).pages.length + s₀.tableFrames t := by
    simp only [slotFrames, ht.1, if_neg ht.2]
  obtain ⟨s₁, hknew, hfree₁, hgrows, hapart, hkeeps⟩ := knewPhys_spec (calls n)
    (h.keeps.nframes ▸ hn) (h.grows.kernel ▸ hker) h.apart
    (show k + s₀.tableFrames t + (calls n).pages.length ≤ s.freeFrames by omega)
  have h₁ := h.grow hnew hsrc hker (by omega) (.inr ⟨n, hlt, rfl⟩) hgrows hapart hkeeps
  have hinuse : InUse dirs s₁ t := ⟨src, hsrc, n, (h₁.own hnew hsrc ht).1⟩
  have hne : t ≠ (calls n).object.1 := fun heq => hnew.copy n hlt (heq ▸ ⟨src, hsrc, n, ht.1⟩)
  have hframes : s₁.tableFrames t = s₀.tableFrames t := by
    refine Finset.sum_congr rfl fun j _ => ?_
    rw [h₁.keeps.page _ fun hno => hno n ht]
  obtain ⟨s₂, hclone, hfree₂, hapart₂, hkeeps₂, hcopied⟩ := cloneTable_total
    (h₁.keeps.nframes ▸ hn) hne hinuse h₁.apart (by rw [hframes]; exact hfree₁)
  refine ⟨s₂.putTable first.object.1 n (calls n).object.1 ((calls n).object.2 ||| 0x07), ?_,
    hfree₂, ?_⟩
  · obtain ⟨hs, hk⟩ := h.own hnew hsrc ht
    unfold tableAt at hs hk
    simp only [Growing.cloneSlot, hs, if_neg hk, Growing.cloneTable, hknew, Option.bind_some,
      hclone, Option.map_some]
  · refine h₁.enter hnew hsrc hker _ hlt (cloneTable_sameSpaces hclone) hkeeps₂ (fun _ he => he)
      (copies_succ ht ▸ hapart₂) (.inr ⟨⟨t, ht⟩, rfl⟩) (fun t' ht' hk' => ?_) fun t' ht' => ?_
    · obtain rfl : t = t' := Option.some.inj (ht.1.symm.trans ht')
      exact absurd hk' ht.2
    · obtain rfl : t = t' := Option.some.inj (ht.1.symm.trans ht'.1)
      exact ⟨rfl, hcopied⟩

theorem Progress.step_shared (hlt : n < 1024) (hnot : ∀ t, ¬OwnTable s₀ src n t)
    (h : Progress s₀ dirs src first calls n s) :
    ∃ s', Growing.cloneSlot src first.object.1 calls s n = some s' ∧
      s'.freeFrames = s.freeFrames ∧ Progress s₀ dirs src first calls (n + 1) s' := by
  have hapart : Apart s₀ dirs (copies s₀ src calls (n + 1)) s := copies_succ_of_not hnot ▸ h.apart
  -- the table that `src` has here, now or at the start, is the kernel's
  have hkept : ∀ t, s₀.tableAt src n = some t → s.tableAt s.kernelDirectory n = some t :=
    fun t ht => h.grows.kernel_kept (not_not.1 fun hk => hnot t ⟨ht, hk⟩)
  have hsame : ∀ t, s₀.tableAt src n = some t → s.tableAt src n = some t := fun t ht => by
    by_cases heq : src = s₀.kernelDirectory
    · rw [heq, ← h.grows.kernel]
      exact hkept t ht
    · rw [h.grows.others src hsrc heq, ht]
  cases hcur : s.tableAt src n with
  | none =>
    refine ⟨s, ?_, rfl, hapart, h.keeps, h.grows, fun i hi => h.todo i (by omega), fun i u hu =>
      (h.table i u hu).imp_right fun ⟨hi, ht⟩ => ⟨Nat.lt_succ_of_lt hi, ht⟩,
      fun i hi t ht hk => ?_, fun i hi t ht => ?_⟩
    · unfold tableAt at hcur
      simp only [Growing.cloneSlot, hcur]
    · by_cases heq : i = n
      · rw [heq] at ht
        rw [hsame t ht] at hcur
        cases hcur
      · exact h.shared i (by omega) t ht hk
    · by_cases heq : i = n
      · exact absurd (heq ▸ ht) (hnot t)
      · exact h.copied i (by omega) t ht
  | some v =>
    have hkernel : s.tableAt s.kernelDirectory n = some v := by
      by_cases heq : src = s₀.kernelDirectory
      · rw [h.grows.kernel, ← heq, hcur]
      · exact hkept v ((h.grows.others src hsrc heq n).symm.trans hcur)
    refine ⟨s.putTable first.object.1 n v ((s.directories src).tablesPhysical n), ?_, rfl,
      h.enter hnew hsrc hker _ hlt (.refl s) (.refl (fun _ => False) s) (fun _ hf => hf.elim) hapart
        (.inl hkernel) (fun t ht _ => ?_) fun t ht => absurd ht (hnot t)⟩
    · unfold tableAt at hcur hkernel
      simp only [Growing.cloneSlot, hcur, if_pos hkernel]
    · exact Option.some.inj (hcur.symm.trans (hsame t ht))

theorem Progress.step {k : Nat} (hn : s₀.nframes < 1048576) (hlt : n < 1024)
    (h : Progress s₀ dirs src first calls n s)
    (hfree : k + s₀.slotFrames src calls n ≤ s.freeFrames) :
    ∃ s', Growing.cloneSlot src first.object.1 calls s n = some s' ∧ k ≤ s'.freeFrames ∧
      Progress s₀ dirs src first calls (n + 1) s' := by
  by_cases hown : ∃ t, OwnTable s₀ src n t
  · obtain ⟨t, ht⟩ := hown
    exact h.step_own hnew hsrc hker hn hlt ht hfree
  · obtain ⟨s', hslot, heq, h'⟩ := h.step_shared hnew hsrc hker hlt (not_exists.1 hown)
    exact ⟨s', hslot, by omega, h'⟩

/-- With enough frames `clone_directory` goes through all its turns. -/
theorem cloneDirectory_progress (hn : s₀.nframes < 1048576)
    (hapart : Apart s₀ dirs (copies s₀ src calls 0) s₀)
    (hfree : s₀.framesNeeded src first calls ≤ s₀.freeFrames) :
    ∃ s', Growing.cloneDirectory src first calls s₀ = some s' ∧
      Progress s₀ dirs src first calls 1024 s' := by
  unfold framesNeeded at hfree
  obtain ⟨s₁, hknew, hfree₁, hgrows, hapart₁, hkeeps⟩ := knewPhys_spec first hn hker hapart
    (show ∑ i ∈ Finset.range 1024, s₀.slotFrames src calls i + first.pages.length ≤ _ by omega)
  have hgrows₁ : Grows dirs (heapMade first calls) s₀ s₁ :=
    hgrows.mono (Set.subset_univ _) fun u ⟨p, hp, hu⟩ => ⟨first, .inl rfl, p, hp, hu⟩
  have hother : ∀ d ∈ dirs, ∀ i, (s₁.blankDirectory first.object.1 first.object.2).tableAt d i =
      s₁.tableAt d i := fun d hd i => by
    have hne : d ≠ first.object.1 := fun heq => hnew.dir (heq ▸ hd)
    rw [tableAt_blankDirectory, if_neg hne]
  have hblank : Progress s₀ dirs src first calls 0
      (s₁.blankDirectory first.object.1 first.object.2) := by
    refine ⟨hapart₁.of_tableAt rfl rfl rfl hother, ?_,
      hgrows₁.trans (.of_tableAt _ (hgrows₁.kernel ▸ hker) rfl hother), fun i _ => ?_,
      fun i u hu => ?_, fun i hi => absurd hi (Nat.not_lt_zero i),
      fun i hi => absurd hi (Nat.not_lt_zero i)⟩
    · have hk := hkeeps.mono fun e he => (hnew.heapTable hsrc hker hgrows₁ (.inl rfl) he).1
      exact ⟨hk.page, hk.marked, hk.physical, hk.nframes⟩
    · rw [tableAt_blankDirectory, if_pos rfl]
    · rw [tableAt_blankDirectory, if_pos rfl] at hu
      cases hu
  obtain ⟨s', hrun, -, h'⟩ := foldlM_range_budget
    (P := fun i k x => k ≤ x.freeFrames ∧ Progress s₀ dirs src first calls i x) (k := 0)
    (s₀.slotFrames src calls)
    (fun i k x hi ⟨hk, hx⟩ => hx.step hnew hsrc hker hn hi hk) ⟨by rwa [Nat.zero_add], hblank⟩
  refine ⟨s', ?_, h'⟩
  rw [Growing.cloneDirectory, hknew, Option.bind_some]
  exact hrun

end Loop

/-! ## Isolation -/

/-- Frame 0 and every frame that an entry of a directory names are marked. -/
def FramesMarked (s : VirtualMemory) (dirs : Set Nat) : Prop :=
  s.frames.test 0 = true ∧
    ∀ e : Entry, InUse dirs s e.table → s.frames.test (s.page e).frame = true

/-- The entry `e'` of the directory `dir` is a private copy of `e`: it has a frame if
`e` has one, which was free and which no other entry has, with the bytes of that of
`e`. -/
structure PrivateCopy (s s' : VirtualMemory) (dirs : Set Nat) (e e' : Entry) : Prop where
  empty : (s.page e).frame = 0 → (s'.page e').frame = 0
  nonzero : (s.page e).frame ≠ 0 → (s'.page e').frame ≠ 0
  free : (s.page e).frame ≠ 0 →
    s.frames.test (s'.page e').frame = false ∧ (s'.page e').frame < s.nframes
  sole : (s.page e).frame ≠ 0 → ∀ e'' : Entry, InUse dirs s' e''.table →
    (s'.page e'').frame = (s'.page e').frame → e'' = e'
  bytes : (s.page e).frame ≠ 0 →
    s'.physical (s'.page e').frame = s.physical (s.page e).frame ∧
      s'.physical (s.page e).frame = s.physical (s.page e).frame

/-- What `clone_directory` makes of `src` at `dir`. -/
structure Isolated (s s' : VirtualMemory) (dirs : Set Nat) (src dir : Nat) : Prop where
  table_new : ∀ i u, s'.tableAt dir i = some u → s'.tableAt s'.kernelDirectory i ≠ some u →
    ¬InUse dirs s u ∧ ¬InUse dirs s' u
  shared : ∀ i < 1024, ∀ t, s.tableAt src i = some t → s.tableAt s.kernelDirectory i = some t →
    s'.tableAt dir i = some t
  unchanged : ∀ i t, OwnTable s src i t → s'.tableAt src i = some t ∧ s'.tables t = s.tables t
  copied : ∀ i < 1024, ∀ t, OwnTable s src i t → ∃ u, s'.tableAt dir i = some u ∧
    ∀ j < 1024, PrivateCopy s s' (insert dir dirs) ⟨t, j⟩ ⟨u, j⟩

/-- The tables of the directories, the new one included, are those of the kernel and
the others and the copies. -/
theorem Progress.listed {s₀ s : VirtualMemory} {dirs : Set Nat} {src : Nat} {first : HeapCall}
    {calls : Nat → HeapCall} {n : Nat} (hker : s₀.kernelDirectory ∈ dirs)
    (h : Progress s₀ dirs src first calls n s) {u : Nat}
    (hu : InUse (insert first.object.1 dirs) s u) :
    Listed dirs (copies s₀ src calls n) s u := by
  obtain ⟨d, rfl | hd, i, hi⟩ := hu
  · obtain hk | ⟨hlt, ⟨t, ht⟩, rfl⟩ := h.table i u hi
    · exact .inl ⟨_, h.grows.kernel ▸ hker, i, hk⟩
    · exact .inr ⟨i, hlt, t, ht, rfl⟩
  · exact .inl ⟨d, hd, i, hi⟩

theorem Progress.copy_new {s₀ s : VirtualMemory} {dirs : Set Nat} {src : Nat} {first : HeapCall}
    {calls : Nat → HeapCall} {n i : Nat} (hnew : NewObjects s₀ dirs src first calls)
    (h : Progress s₀ dirs src first calls n s) (hi : i < 1024) :
    ¬InUse dirs s (calls i).object.1 := by
  rintro ⟨d, hd, j, hj⟩
  by_cases heq : d = s₀.kernelDirectory
  · rw [heq, ← h.grows.kernel] at hj
    obtain hold | hmade := h.grows.kernel_cases hj
    · exact hnew.copy i hi ⟨d, hd, j, heq ▸ hold⟩
    · exact hnew.copy_made i hi hmade
  · exact hnew.copy i hi ⟨d, hd, j, (h.grows.others d hd heq j).symm.trans hj⟩

/-- `clone_directory` isolates the copy: its tables are the kernel's or new, and each
entry of a table that `src` has for itself has a private copy. -/
theorem cloneDirectory_isolated {s : VirtualMemory} {dirs : Set Nat} {src : Nat}
    {first : HeapCall} {calls : Nat → HeapCall} (hn : s.nframes < 1048576) (hsrc : src ∈ dirs)
    (hker : s.kernelDirectory ∈ dirs) (hmarked : s.FramesMarked dirs)
    (hnew : NewObjects s dirs src first calls)
    (hfree : s.framesNeeded src first calls ≤ s.freeFrames) :
    ∃ s', Growing.cloneDirectory src first calls s = some s' ∧
      Isolated s s' dirs src first.object.1 := by
  have hnone : ∀ u, u ∉ copies s src calls 0 := fun u ⟨i, hi, _⟩ => absurd hi (Nat.not_lt_zero i)
  have hapart : Apart s dirs (copies s src calls 0) s :=
    ⟨fun _ hf => hf, rfl, hmarked.1, fun e hl => hmarked.2 e (hl.resolve_right (hnone _)),
      fun e hc => absurd hc (hnone _)⟩
  obtain ⟨s', hrun, h⟩ := cloneDirectory_progress hnew hsrc hker hn hapart hfree
  refine ⟨s', hrun, fun i u hu hk => ?_, fun i hi t ht hk => h.shared i hi t ht hk,
    fun i t ht => ⟨(h.own hnew hsrc ht).1, ?_⟩, fun i hi t ht => ?_⟩
  · obtain hk' | ⟨hi, -, rfl⟩ := h.table i u hu
    · exact absurd hk' hk
    · exact ⟨hnew.copy i hi, h.copy_new hnew hi⟩
  · funext j
    exact h.keeps.page ⟨t, j⟩ fun hno => hno i ht
  · obtain ⟨hdir, hcopied⟩ := h.copied i hi t ht
    refine ⟨_, hdir, fun j hj => ?_⟩
    have hpage : s'.page ⟨t, j⟩ = s.page ⟨t, j⟩ := h.keeps.page ⟨t, j⟩ fun hno => hno i ht
    have hmem : (calls i).object.1 ∈ copies s src calls 1024 := ⟨i, hi, t, ht, rfl⟩
    obtain ⟨hcop, hnz⟩ := hcopied j hj
    unfold Copied at hcop
    rw [hpage] at hcop hnz
    refine ⟨fun hz => ?_, hnz, fun hne => ?_, fun hne e'' hin heq => ?_, fun hne => ?_⟩
    · rw [if_pos hz] at hcop
      rw [hcop]
    · obtain ⟨hclear, hlt, -⟩ := h.apart.sole ⟨_, j⟩ hmem (hnz hne)
      exact ⟨hclear, hlt⟩
    · exact (h.apart.sole ⟨_, j⟩ hmem (hnz hne)).2.2 e'' (h.listed hker hin) heq
    · rw [if_neg hne] at hcop
      have hsame := h.keeps.physical _ (hmarked.2 ⟨t, j⟩ ⟨src, hsrc, i, ht.1⟩)
      exact ⟨hcop.2.2.2.trans hsame, hsame⟩

/-- A process with two pages in a table of its own, beside the kernel's table. -/
def twoPages : VirtualMemory :=
  { blankMemory with
    frames := fun i => if i = 0 then 0xA9#32 else 0#32
    directories := fun d =>
      if d = 0xC0100000 then { tables := fun i => if i = 768 then some 0xC0300000 else none }
      else if d = 0xC0200000 then
        { tables := fun i =>
            if i = 0 then some 0xC0400000 else if i = 768 then some 0xC0300000 else none }
      else {}
    tables := fun t j =>
      if t = 0xC0300000 ∧ j = 0 then { frame := 3 }
      else if t = 0xC0400000 ∧ j = 1 then { frame := 5 }
      else if t = 0xC0400000 ∧ j = 2 then { frame := 7 }
      else {} }

/-- The new directory, for which the heap grows in the table it has. -/
def twoPagesFirst : HeapCall where
  pages := [(0xC0001000, 0xC0500000, 0x500000)]
  object := (0xC0700000, 0x700000)

/-- The copies of the tables; the first makes the heap grow into a new table. -/
def twoPagesCalls (i : Nat) : HeapCall where
  pages := if i = 0 then [(0xC0400000, 0xC0600000, 0x600000)] else []
  object := (0xC1000000 + 4096 * i, 0x1000000 + 4096 * i)

theorem twoPages_kernel (i : Nat) :
    twoPages.tableAt 0xC0100000 i = if i = 768 then some 0xC0300000 else none := rfl

theorem twoPages_src (i : Nat) : twoPages.tableAt 0xC0200000 i =
    if i = 0 then some 0xC0400000 else if i = 768 then some 0xC0300000 else none := rfl

theorem twoPages_inUse {t : Nat} (h : InUse {0xC0100000, 0xC0200000} twoPages t) :
    t = 0xC0300000 ∨ t = 0xC0400000 := by
  obtain ⟨d, rfl | rfl, i, hi⟩ := h
  · rw [twoPages_kernel] at hi
    split at hi
    · exact .inl (Option.some.inj hi).symm
    · cases hi
  · rw [twoPages_src] at hi
    split at hi
    · exact .inr (Option.some.inj hi).symm
    · split at hi
      · exact .inl (Option.some.inj hi).symm
      · cases hi

theorem twoPages_framesMarked : twoPages.FramesMarked {0xC0100000, 0xC0200000} := by
  refine ⟨by decide, fun e _ => ?_⟩
  simp only [page, twoPages]
  split
  · decide
  · split
    · decide
    · split
      · decide
      · decide

theorem twoPages_page {c : HeapCall} (hc : IsCall twoPagesFirst twoPagesCalls c)
    {p : Nat × Nat × Nat} (hp : p ∈ c.pages) :
    p = (0xC0001000, 0xC0500000, 0x500000) ∨ p = (0xC0400000, 0xC0600000, 0x600000) := by
  obtain rfl | ⟨i, -, rfl⟩ := hc
  · exact .inl (List.mem_singleton.1 hp)
  · simp only [twoPagesCalls] at hp
    split at hp
    · exact .inr (List.mem_singleton.1 hp)
    · cases hp

theorem twoPages_made {u : Nat} (h : u ∈ heapMade twoPagesFirst twoPagesCalls) :
    u = 0xC0500000 ∨ u = 0xC0600000 := by
  obtain ⟨c, hc, p, hp, rfl⟩ := h
  obtain rfl | rfl := twoPages_page hc hp
  · exact .inl rfl
  · exact .inr rfl

theorem twoPages_newObjects :
    NewObjects twoPages {0xC0100000, 0xC0200000} 0xC0200000 twoPagesFirst twoPagesCalls where
  dir := by simp [twoPagesFirst]
  made u hu hin := by
    have := twoPages_made hu
    have := twoPages_inUse hin
    omega
  copy i _ hin := by
    have := twoPages_inUse hin
    simp only [twoPagesCalls] at this
    omega
  copy_made i _ hmem := by
    have := twoPages_made hmem
    simp only [twoPagesCalls] at this
    omega
  copy_inj i _ j _ heq := by
    simp only [twoPagesCalls] at heq
    omega
  heap c hc t := by
    rintro ⟨p, hp, hslot⟩ i ⟨hsrc, hker⟩
    obtain rfl | rfl := twoPages_page hc hp
    · obtain rfl : 0xC0300000 = t := Option.some.inj hslot
      rw [twoPages_src] at hsrc
      split at hsrc
      · cases hsrc
      · split at hsrc
        · next hi => exact hker (hi ▸ rfl)
        · cases hsrc
    · cases hslot

theorem cloneDirectory_isolated_twoPages :
    ∃ s', Growing.cloneDirectory 0xC0200000 twoPagesFirst twoPagesCalls twoPages = some s' ∧
      Isolated twoPages s' {0xC0100000, 0xC0200000} 0xC0200000 0xC0700000 :=
  cloneDirectory_isolated (by decide) (.inr rfl) (.inl rfl) twoPages_framesMarked
    twoPages_newObjects (by decide +kernel)

end VirtualMemory

end Ulysses
