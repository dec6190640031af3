import Ulysses.Paging.Basic

/-!
# Cloned tables and directories

`clone_table` gives each entry that has a frame a frame of its own, and copies the
bytes. The new frames come from the clear bits of the bitmap, so frames that are
marked keep their bytes; that is what carries the copies made in earlier turns
through the later ones.
-/

namespace Ulysses

open Lib

namespace VirtualMemory

/-- The entries outside `w` are as they were, and the marked frames are still
marked and have their bytes. -/
structure Keeps (w : Entry → Prop) (s s' : VirtualMemory) : Prop where
  page : ∀ e, ¬w e → s'.page e = s.page e
  marked : ∀ f, s.frames.test f = true → s'.frames.test f = true
  physical : ∀ f, s.frames.test f = true → s'.physical f = s.physical f
  nframes : s'.nframes = s.nframes

theorem Keeps.refl (w : Entry → Prop) (s : VirtualMemory) : Keeps w s s :=
  ⟨fun _ _ => rfl, fun _ h => h, fun _ _ => rfl, rfl⟩

theorem Keeps.trans {w : Entry → Prop} {s₁ s₂ s₃ : VirtualMemory} (h₁ : Keeps w s₁ s₂)
    (h₂ : Keeps w s₂ s₃) : Keeps w s₁ s₃ where
  page e he := (h₂.page e he).trans (h₁.page e he)
  marked f hf := h₂.marked f (h₁.marked f hf)
  physical f hf := (h₂.physical f (h₁.marked f hf)).trans (h₁.physical f hf)
  nframes := h₂.nframes.trans h₁.nframes

variable {s s' : VirtualMemory} {src : Nat}

theorem Keeps.mono {w w' : Entry → Prop} (h : Keeps w s s') (hw : ∀ e, w e → w' e) :
    Keeps w' s s' where
  page e he := h.page e fun hwe => he (hw e hwe)
  marked := h.marked
  physical := h.physical
  nframes := h.nframes

/-- The frames that the entries of a table name are marked. -/
def TableMarked (s : VirtualMemory) (t : Nat) : Prop :=
  ∀ i, (s.page ⟨t, i⟩).frame ≠ 0 → s.frames.test (s.page ⟨t, i⟩).frame = true

theorem TableMarked.keeps {w : Entry → Prop} {t : Nat} (h : s.TableMarked t) (hk : Keeps w s s')
    (ht : ∀ i, ¬w ⟨t, i⟩) : s'.TableMarked t := by
  intro i hi
  rw [hk.page _ (ht i)] at hi ⊢
  exact hk.marked _ (h i hi)

/-- Entry `i` of `dst` is a copy of that of `src`, or blank where `src` has no
frame. -/
def Copied (s : VirtualMemory) (src dst i : Nat) : Prop :=
  if (s.page ⟨src, i⟩).frame = 0 then s.page ⟨dst, i⟩ = {}
  else
    (s.page ⟨dst, i⟩).present = true ∧ (s.page ⟨dst, i⟩).user = true ∧
      s.frames.test (s.page ⟨dst, i⟩).frame = true ∧
      s.physical (s.page ⟨dst, i⟩).frame = s.physical (s.page ⟨src, i⟩).frame

theorem Copied.keeps {w : Entry → Prop} {dst i : Nat} (h : s.Copied src dst i) (hk : Keeps w s s')
    (hmarked : s.TableMarked src) (hsrc : ¬w ⟨src, i⟩) (hdst : ¬w ⟨dst, i⟩) :
    s'.Copied src dst i := by
  unfold Copied at h ⊢
  rw [hk.page _ hsrc, hk.page _ hdst]
  split
  · next hz => rwa [if_pos hz] at h
  · next hnz =>
    rw [if_neg hnz] at h
    obtain ⟨hpresent, huser, htest, hbytes⟩ := h
    exact ⟨hpresent, huser, hk.marked _ htest,
      by rw [hk.physical _ htest, hk.physical _ (hmarked i hnz), hbytes]⟩

theorem cloneEntry_spec {dst i : Nat} (hn : s.nframes < 1048576) (hne : src ≠ dst)
    (hmarked : s.TableMarked src) (hblank : s.page ⟨dst, i⟩ = {})
    (h : s.cloneEntry src dst i = some s') : Keeps (· = ⟨dst, i⟩) s s' ∧ s'.Copied src dst i := by
  have hsrc : (⟨src, i⟩ : Entry) ≠ ⟨dst, i⟩ := fun heq => hne (Entry.mk.inj heq).1
  obtain ⟨rfl, hz⟩ | ⟨s₁, q, hnz, ha, hq, heq⟩ := cloneEntry_cases h
  · refine ⟨.refl _ _, ?_⟩
    unfold Copied
    rwa [if_pos hz]
  obtain ⟨idx, -, hclear, hlt, hframes, hphys, hnf, hpages⟩ :=
    allocFrame_spec hn (by rw [hblank]) ha
  have hmark := hmarked i hnz
  have hq' : q.present = true ∧ q.user = true ∧ q.frame = idx := by
    rw [hq, hpages, if_pos rfl]
    simp [Page.orFlags, Page.assign, Nat.mod_eq_of_lt hlt]
  generalize hp : s.page ⟨src, i⟩ = p at hnz hmark heq
  obtain ⟨hpresent, huser, hqf⟩ := hq'
  have hpage : ∀ e, s'.page e = if e = ⟨dst, i⟩ then q else s.page e := by
    intro e
    rw [heq]
    refine (page_setPage s₁ ⟨dst, i⟩ e q).trans ?_
    split
    · rfl
    · next he => rw [hpages, if_neg he]
  have hframes' : ∀ f, s'.frames.test f = (decide (f = idx) || s.frames.test f) := by
    intro f
    rw [heq]
    exact hframes f
  have hphys' : s'.physical = Function.update s.physical idx (s.physical p.frame) := by
    rw [heq, ← hqf, ← hphys]
  -- the frame that was found is not a marked one
  have hother : ∀ f, s.frames.test f = true → s'.physical f = s.physical f := by
    intro f hf
    have hne : f ≠ idx := fun heq => by
      rw [heq, hclear] at hf
      cases hf
    rw [hphys', Function.update_of_ne hne]
  refine ⟨⟨fun e he => by rw [hpage, if_neg he], fun f hf => by rw [hframes', hf, Bool.or_true],
    hother, by rw [heq]; exact hnf⟩, ?_⟩
  unfold Copied
  rw [hpage, hpage, if_neg hsrc, if_pos rfl, hp, if_neg hnz, hother _ hmark, hqf, hframes',
    hphys', Function.update_self]
  exact ⟨hpresent, huser, by simp, rfl⟩

theorem cloneTable_spec {dst : Nat} (hn : s.nframes < 1048576) (hne : src ≠ dst)
    (hmarked : s.TableMarked src) (h : s.cloneTable src dst = some s') :
    Keeps (·.table = dst) s s' ∧ ∀ i < 1024, s'.Copied src dst i := by
  have hzero : Keeps (·.table = dst) s (s.zeroTable dst) :=
    ⟨fun e he => by rw [page_zeroTable, if_neg he], fun _ hf => hf, fun _ _ => rfl, rfl⟩
  -- after `n` turns the entries below `n` are copies and the others blank
  obtain ⟨hkeeps, -, hcopied⟩ := foldlM_range_invariant
    (P := fun n x => Keeps (·.table = dst) s x ∧ (∀ i, n ≤ i → x.page ⟨dst, i⟩ = {}) ∧
      ∀ i < n, x.Copied src dst i)
    (fun n x x' _ hx hstep => by
      obtain ⟨hk, hblank, hcop⟩ := hx
      have hm : x.TableMarked src := hmarked.keeps hk fun _ => hne
      obtain ⟨hk', hc⟩ := cloneEntry_spec (hk.nframes ▸ hn) hne hm (hblank n (Nat.le_refl n)) hstep
      refine ⟨hk.trans (hk'.mono fun e he => by rw [he]), fun i hi => ?_, fun i hi => ?_⟩
      · rw [hk'.page _ (by simp; omega), hblank i (by omega)]
      · by_cases heq : i = n
        · exact heq ▸ hc
        · exact (hcop i (by omega)).keeps hk' hm (by simp [hne]) (by simp [heq]))
    ⟨hzero, fun i _ => by rw [page_zeroTable, if_pos rfl], fun i hi => absurd hi (by omega)⟩ h
  exact ⟨hkeeps, hcopied⟩

/-- The new objects of a `clone_directory` are new. -/
structure FreshClone (s : VirtualMemory) (src dir : Nat) (fresh : Nat → Nat × Nat) : Prop where
  dir_src : dir ≠ src
  dir_kernel : dir ≠ s.kernelDirectory
  table : ∀ i j t, s.tableAt src j = some t → t ≠ (fresh i).1
  inj : ∀ i j, i < 1024 → j < 1024 → (fresh i).1 = (fresh j).1 → i = j

/-- The table `clone_directory` shares or copies. -/
def SlotCloned (s₀ s : VirtualMemory) (src dir : Nat) (fresh : Nat → Nat × Nat) (i : Nat) : Prop :=
  match s₀.tableAt src i with
  | none => s.tableAt dir i = none
  | some t =>
    if s₀.tableAt s₀.kernelDirectory i = some t then s.tableAt dir i = some t
    else s.tableAt dir i = some (fresh i).1 ∧ ∀ j < 1024, s.Copied t (fresh i).1 j

theorem SlotCloned.keeps {w : Entry → Prop} {s₀ : VirtualMemory} {dir i : Nat}
    {fresh : Nat → Nat × Nat} (h : SlotCloned s₀ s src dir fresh i) (hk : Keeps w s s')
    (htable : s'.tableAt dir i = s.tableAt dir i)
    (hsrc : ∀ t, s₀.tableAt src i = some t → s.TableMarked t ∧ ∀ j, ¬w ⟨t, j⟩)
    (hdst : ∀ j, ¬w ⟨(fresh i).1, j⟩) : SlotCloned s₀ s' src dir fresh i := by
  unfold SlotCloned at h ⊢
  rw [htable]
  cases ht : s₀.tableAt src i with
  | none => simpa only [ht] using h
  | some t =>
    obtain ⟨hmarked, hw⟩ := hsrc t ht
    simp only [ht] at h ⊢
    split
    · next hshared => rwa [if_pos hshared] at h
    · next hown =>
      rw [if_neg hown] at h
      exact ⟨h.1, fun j hj => (h.2 j hj).keeps hk hmarked (hw j) (hdst j)⟩

/-- What the loop of `clone_directory` has done after `n` turns. -/
structure Cloning (s₀ : VirtualMemory) (src dir : Nat) (fresh : Nat → Nat × Nat) (n : Nat)
    (s : VirtualMemory) : Prop where
  keeps : Keeps (fun e => ∃ i, e.table = (fresh i).1) s₀ s
  others : ∀ d i, d ≠ dir → s.tableAt d i = s₀.tableAt d i
  kernel : s.kernelDirectory = s₀.kernelDirectory
  todo : ∀ i, n ≤ i → s.tableAt dir i = none
  done : ∀ i < n, SlotCloned s₀ s src dir fresh i

theorem Cloning.step {s₀ : VirtualMemory} {dir n : Nat} {fresh : Nat → Nat × Nat}
    (hfresh : FreshClone s₀ src dir fresh) (hn : s₀.nframes < 1048576)
    (hmarked : ∀ i t, s₀.tableAt src i = some t → s₀.TableMarked t) (hlt : n < 1024)
    (h : Cloning s₀ src dir fresh n s) (hstep : s.cloneSlot src dir fresh n = some s') :
    Cloning s₀ src dir fresh (n + 1) s' := by
  have hsrc : ∀ i, s.tableAt src i = s₀.tableAt src i := fun i => h.others src i hfresh.dir_src.symm
  have hker : ∀ i, s.tableAt s.kernelDirectory i = s₀.tableAt s₀.kernelDirectory i := fun i => by
    rw [h.kernel, h.others _ _ hfresh.dir_kernel.symm]
  have hmarked' : ∀ i t, s₀.tableAt src i = some t → s.TableMarked t := fun i t ht =>
    (hmarked i t ht).keeps h.keeps fun _ ⟨k, hk⟩ => hfresh.table k i t ht hk
  -- a turn that enters the table `u` after writing the entries of `w`
  have henter : ∀ (w : Entry → Prop) (s₁ : VirtualMemory) (u tmp : Nat), Keeps w s s₁ →
      SameSpaces s s₁ → (∀ e, w e → e.table = (fresh n).1) →
      SlotCloned s₀ (s₁.putTable dir n u tmp) src dir fresh n →
      Cloning s₀ src dir fresh (n + 1) (s₁.putTable dir n u tmp) := by
    intro w s₁ u tmp hk hsame hw hslot
    have hput : Keeps w s (s₁.putTable dir n u tmp) := ⟨hk.page, hk.marked, hk.physical, hk.nframes⟩
    have htable : ∀ d i, (s₁.putTable dir n u tmp).tableAt d i =
        if d = dir ∧ i = n then some u else s.tableAt d i := fun d i => by
      rw [tableAt_putTable, hsame.tableAt]
    refine ⟨h.keeps.trans (hput.mono fun e he => ⟨n, hw e he⟩), ?_, hsame.2.1.trans h.kernel,
      ?_, ?_⟩
    · intro d i hd
      rw [htable, if_neg fun h => hd h.1, h.others d i hd]
    · intro i hi
      rw [htable, if_neg (by omega), h.todo i (by omega)]
    · intro i hi
      by_cases heq : i = n
      · exact heq ▸ hslot
      refine (h.done i (by omega)).keeps hput (by rw [htable, if_neg fun h => heq h.2])
        (fun t ht => ⟨hmarked' i t ht, fun j hj => hfresh.table n i t ht (hw _ hj)⟩) fun j hj => ?_
      exact heq (hfresh.inj i n (by omega) hlt (hw _ hj))
  obtain ⟨hnone, rfl⟩ | ⟨t, ht, hshared, rfl⟩ | ⟨t, s₁, ht, hown, hclone, rfl⟩ :=
    cloneSlot_cases hstep
  · refine ⟨h.keeps, h.others, h.kernel, fun i hi => h.todo i (by omega), fun i hi => ?_⟩
    by_cases heq : i = n
    · subst heq
      unfold SlotCloned
      rw [← hsrc, hnone]
      exact h.todo i (Nat.le_refl i)
    · exact h.done i (by omega)
  · rw [hsrc] at ht
    rw [hker] at hshared
    refine henter (fun _ => False) s t _ (.refl _ _) (.refl _) (fun _ hf => hf.elim) ?_
    unfold SlotCloned
    simp only [ht, hshared, if_true]
    rw [tableAt_putTable, if_pos ⟨rfl, rfl⟩]
  · rw [hsrc] at ht
    rw [hker] at hown
    obtain ⟨hk, hcopied⟩ := cloneTable_spec (h.keeps.nframes ▸ hn) (hfresh.table n n t ht)
      (hmarked' n t ht) hclone
    refine henter _ s₁ _ _ hk (cloneTable_sameSpaces hclone) (fun _ he => he) ?_
    unfold SlotCloned
    simp only [ht, hown, if_false]
    rw [tableAt_putTable, if_pos ⟨rfl, rfl⟩]
    exact ⟨rfl, hcopied⟩

theorem cloneDirectory_spec {dir phys : Nat} {fresh : Nat → Nat × Nat}
    (hfresh : FreshClone s src dir fresh) (hn : s.nframes < 1048576)
    (hmarked : ∀ i t, s.tableAt src i = some t → s.TableMarked t)
    (h : s.cloneDirectory src dir phys fresh = some s') : Cloning s src dir fresh 1024 s' := by
  have hblank : Cloning s src dir fresh 0 (s.blankDirectory dir phys) := by
    refine ⟨⟨fun _ _ => rfl, fun _ hf => hf, fun _ _ => rfl, rfl⟩, fun d i hd => ?_, rfl,
      fun i _ => ?_, fun i hi => absurd hi (Nat.not_lt_zero i)⟩
    · rw [tableAt_blankDirectory, if_neg hd]
    · rw [tableAt_blankDirectory, if_pos rfl]
  exact foldlM_range_invariant (P := Cloning s src dir fresh)
    (fun n x x' hlt hx hstep => hx.step hfresh hn hmarked hlt hstep) hblank h

/-! ## The flags of a copy

`alloc_user_frame` has set `present` and `user` before the flags of the source are
carried over, and carrying over sets flags and never clears one. -/

/-- The flags of an entry: everything in it except the frame. -/
def flags (p : Page) : Bool × Bool × Bool × Bool × Bool :=
  (p.present, p.rw, p.user, p.accessed, p.dirty)

theorem cloneEntry_flags {dst i : Nat} (hblank : s.page ⟨dst, i⟩ = {})
    (h : s.cloneEntry src dst i = some s') :
    (∀ e, e ≠ ⟨dst, i⟩ → s'.page e = s.page e) ∧
      ((s.page ⟨src, i⟩).frame ≠ 0 → flags (s'.page ⟨dst, i⟩) =
        (true, (s.page ⟨src, i⟩).rw, true, (s.page ⟨src, i⟩).accessed,
          (s.page ⟨src, i⟩).dirty)) := by
  obtain ⟨rfl, hz⟩ | ⟨s₁, q, -, ha, hq, rfl⟩ := cloneEntry_cases h
  · exact ⟨fun _ _ => rfl, fun hnz => absurd hz hnz⟩
  obtain ⟨-, hf⟩ | ⟨idx, -, -, rfl⟩ := allocFrame_cases ha
  · rw [hblank] at hf
    exact absurd rfl hf
  have hassigned : ∀ e, page { (s.setFrame (mul32 idx pageSize)).setPage ⟨dst, i⟩
      ((s.page ⟨dst, i⟩).assign idx false false) with given := (⟨dst, i⟩, idx) :: s.given } e =
        if e = ⟨dst, i⟩ then (s.page ⟨dst, i⟩).assign idx false false else s.page e :=
    fun e => page_setPage _ _ e _
  generalize { (s.setFrame (mul32 idx pageSize)).setPage ⟨dst, i⟩
    ((s.page ⟨dst, i⟩).assign idx false false) with given := (⟨dst, i⟩, idx) :: s.given } = s₁
    at hassigned hq ⊢
  have hpage : ∀ e, page { s₁.setPage ⟨dst, i⟩ q with
      physical := Function.update s₁.physical q.frame (s₁.physical (s.page ⟨src, i⟩).frame) } e =
        if e = ⟨dst, i⟩ then q else s₁.page e := fun e => page_setPage _ _ e _
  refine ⟨fun e he => ?_, fun _ => ?_⟩
  · rw [hpage, if_neg he, hassigned, if_neg he]
  · rw [hpage, if_pos rfl, hq, hassigned, if_pos rfl, hblank]
    rfl

theorem cloneTable_flags {dst i : Nat} (hne : src ≠ dst) (h : s.cloneTable src dst = some s')
    (hi : i < 1024) (hf : (s.page ⟨src, i⟩).frame ≠ 0) :
    flags (s'.page ⟨dst, i⟩) = (true, (s.page ⟨src, i⟩).rw, true, (s.page ⟨src, i⟩).accessed,
      (s.page ⟨src, i⟩).dirty) := by
  -- after `n` turns the source is as it was, the entries from `n` on are blank, and those
  -- below have their flags
  obtain ⟨-, -, hflags⟩ := foldlM_range_invariant
    (P := fun n x => (∀ j, x.page ⟨src, j⟩ = s.page ⟨src, j⟩) ∧
      (∀ j, n ≤ j → x.page ⟨dst, j⟩ = {}) ∧
      ∀ j < n, (s.page ⟨src, j⟩).frame ≠ 0 → flags (x.page ⟨dst, j⟩) =
        (true, (s.page ⟨src, j⟩).rw, true, (s.page ⟨src, j⟩).accessed, (s.page ⟨src, j⟩).dirty))
    (fun n x x' _ hx hstep => by
      obtain ⟨hsrc, hblank, hdone⟩ := hx
      obtain ⟨hother, hnew⟩ := cloneEntry_flags (hblank n (Nat.le_refl n)) hstep
      refine ⟨fun j => ?_, fun j hj => ?_, fun j hj hfr => ?_⟩
      · rw [hother _ (by simp [hne]), hsrc]
      · rw [hother _ (by simp; omega), hblank j (by omega)]
      · by_cases heq : j = n
        · subst heq
          rw [hsrc] at hnew
          exact hnew hfr
        · rw [hother _ (by simp [heq])]
          exact hdone j (by omega) hfr)
    ⟨fun j => by rw [page_zeroTable, if_neg hne], fun j _ => by rw [page_zeroTable, if_pos rfl],
      fun j hj => absurd hj (Nat.not_lt_zero j)⟩ h
  exact hflags i hi hf

/-- **The flags a clone keeps.** The copy of an entry with a frame has the flags of its
source exactly when the source is present and a user's. -/
theorem cloneTable_flags_iff {s s' : VirtualMemory} {src dst i : Nat} (hne : src ≠ dst)
    (h : s.cloneTable src dst = some s') (hi : i < 1024) (hf : (s.page ⟨src, i⟩).frame ≠ 0) :
    flags (s'.page ⟨dst, i⟩) = flags (s.page ⟨src, i⟩) ↔
      (s.page ⟨src, i⟩).present = true ∧ (s.page ⟨src, i⟩).user = true := by
  rw [cloneTable_flags hne h hi hf]
  unfold flags
  simp only [Prod.mk.injEq, true_and, and_true]
  exact and_congr eq_comm eq_comm

/-- A table with one page, for the kernel or for users. -/
def onePage (user : Bool) : VirtualMemory :=
  { blankMemory with
    tables := fun t i =>
      if t = 0xC0200000 ∧ i = 0 then { present := true, user, frame := 9 } else {} }

theorem onePage_cloned (user : Bool) :
    ∃ s', (onePage user).cloneTable 0xC0200000 0xC0300000 = some s' := by
  have hsome : ((onePage user).cloneTable 0xC0200000 0xC0300000).isSome := by
    cases user <;> decide +kernel
  exact Option.isSome_iff_exists.1 hsome

/-- A read-only page of a user stays one. -/
theorem cloneTable_flags_userPage :
    ∃ s', (onePage true).cloneTable 0xC0200000 0xC0300000 = some s' ∧
      flags (s'.page ⟨0xC0300000, 0⟩) = flags ((onePage true).page ⟨0xC0200000, 0⟩) := by
  obtain ⟨s', h⟩ := onePage_cloned true
  exact ⟨s', h, (cloneTable_flags_iff (by decide) h (by decide) (by decide)).2
    ⟨by decide, by decide⟩⟩

/-- The copy of a page that only the kernel may use is open to users. -/
theorem cloneTable_opens_kernel_page :
    ∃ s', (onePage false).cloneTable 0xC0200000 0xC0300000 = some s' ∧
      ((onePage false).page ⟨0xC0200000, 0⟩).frame ≠ 0 ∧
      flags (s'.page ⟨0xC0300000, 0⟩) ≠ flags ((onePage false).page ⟨0xC0200000, 0⟩) := by
  obtain ⟨s', h⟩ := onePage_cloned false
  have hf : ((onePage false).page ⟨0xC0200000, 0⟩).frame ≠ 0 := by decide
  refine ⟨s', h, hf, ?_⟩
  rw [cloneTable_flags (by decide) h (by decide) hf]
  decide

end VirtualMemory

end Ulysses
