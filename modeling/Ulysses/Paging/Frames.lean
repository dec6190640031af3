import Ulysses.Lib.Reach
import Ulysses.Lib.Loop
import Ulysses.Paging.Basic

/-!
# Who owns a physical frame

`alloc_frame` takes the first clear bit of the bitmap and enters its number in a
page-table entry. As long as nothing is freed, the set bits are exactly the
frames given out, each to one entry. `free_frame` hands the frame number to
`clear_frame`, which divides it by the page size once more, and it takes an entry
with frame 0 for one without a frame. Either way the bit of the freed frame stays
set, so the first `free_frame` of an entry that owns a frame ends the exactness
(`frames_owned`).

The steps are the turns of the loops of `clone_table`, `free_table`, `expand` and
`contract` besides the two functions themselves, so that the statement also
speaks of the states in the middle of these loops.
-/

namespace Ulysses

open Lib

namespace VirtualMemory

/-! ## What ownership means -/

/-- `alloc_frame` has given the entry a frame that was not freed since. -/
def Live (s : VirtualMemory) (e : Entry) : Prop := ∃ f, (e, f) ∈ s.given

/-- A bit is set exactly when one entry owns the frame. -/
def Owned (s : VirtualMemory) : Prop :=
  ∀ f, s.frames.test f = true ↔ ∃! e, (e, f) ∈ s.given

/-- No two entries own one frame. -/
def Unshared (s : VirtualMemory) : Prop :=
  ∀ e e' f, (e, f) ∈ s.given → (e', f) ∈ s.given → e = e'

/-- `free_frame` clears the bits of the entry's frames and no others. -/
def FreesExactly (s : VirtualMemory) (e : Entry) : Prop :=
  ∀ f, (s.freeFrame e).frames.test f = true ↔ s.frames.test f = true ∧ (e, f) ∉ s.given

/-- An all-clear bitmap and zero entries. `nframes` is a 32-bit memory size
divided by the page size. -/
structure Initial (s : VirtualMemory) : Prop where
  clear : ∀ i, s.frames i = 0#32
  zero : ∀ e, s.page e = {}
  nframes : ∃ totalMemory, totalMemory < 4294967296 ∧ s.nframes = totalMemory / pageSize
  given : s.given = []

/-! ## Steps -/

/-- One step of the functions that allocate and free frames, with the condition
that a step that frees frees no live entry. `blank` is the `memset` of a new
table. -/
inductive FrameStep (s : VirtualMemory) : VirtualMemory → Prop
  | alloc {s' : VirtualMemory} (e : Entry) (k w : Bool) (h : s.allocFrame e k w = some s') :
      FrameStep s s'
  | free (e : Entry) (hok : ¬ s.Live e) : FrameStep s (s.freeFrame e)
  | blank (t : Nat) : FrameStep s (s.zeroTable t)
  | cloneEntry {s' : VirtualMemory} (src dst i : Nat) (h : s.cloneEntry src dst i = some s') :
      FrameStep s s'
  | freeEntry (t i : Nat) (hok : (s.page ⟨t, i⟩).frame ≠ 0 → ¬ s.Live ⟨t, i⟩) :
      FrameStep s (s.freeEntry t i)
  | expandPage {s' : VirtualMemory} (address : Nat) (fresh : Nat × Nat) (k w : Bool)
      (h : s.expandPage address fresh k w = some s') : FrameStep s s'
  | contractPage {s' : VirtualMemory} (address : Nat)
      (hok : ∀ e, (s.getKernelPage address false (0, 0)).1 = some e → ¬ s.Live e)
      (h : s.contractPage address = some s') : FrameStep s s'

/-- What every such step keeps. -/
structure FrameInv (s : VirtualMemory) : Prop where
  nframes_lt : s.nframes < 1048576
  set_of_given : ∀ e f, (e, f) ∈ s.given → s.frames.test f = true
  given_of_set : ∀ f, s.frames.test f = true → ∃ e, (e, f) ∈ s.given
  unshared : s.Unshared
  given_of_frame : ∀ e, (s.page e).frame ≠ 0 → (e, (s.page e).frame) ∈ s.given

variable {s s' : VirtualMemory}

theorem FrameInv.owned (h : s.FrameInv) : s.Owned := by
  intro f
  constructor
  · intro hf
    obtain ⟨e, he⟩ := h.given_of_set f hf
    exact ⟨e, he, fun e' he' => h.unshared _ _ _ he' he⟩
  · rintro ⟨e, he, -⟩
    exact h.set_of_given e f he

theorem Initial.frameInv (h : s.Initial) : s.FrameInv := by
  obtain ⟨m, hm, hn⟩ := h.nframes
  refine ⟨?_, ?_, ?_, ?_, ?_⟩
  · rw [hn]
    unfold pageSize
    omega
  · intro e f he
    rw [h.given] at he
    cases he
  · intro f hf
    simp [Bitmap.test, h.clear] at hf
  · intro e e' f he
    rw [h.given] at he
    cases he
  · intro e he
    rw [h.zero] at he
    exact absurd rfl he

/-- What the invariant reads: the bitmap, its size, the history and the frames of
the entries, which may also become zero. -/
theorem FrameInv.congr (h : s.FrameInv) (hf : s'.frames = s.frames) (hn : s'.nframes = s.nframes)
    (hg : s'.given = s.given)
    (hp : ∀ e, (s'.page e).frame = 0 ∨ (s'.page e).frame = (s.page e).frame) : s'.FrameInv := by
  refine ⟨hn ▸ h.nframes_lt, ?_, ?_, ?_, ?_⟩
  · intro e f he
    rw [hf]
    exact h.set_of_given e f (hg ▸ he)
  · intro f hset
    rw [hf] at hset
    rw [hg]
    exact h.given_of_set f hset
  · intro e e' f he he'
    exact h.unshared e e' f (hg ▸ he) (hg ▸ he')
  · intro e he
    rcases hp e with h0 | heq
    · exact absurd h0 he
    · rw [heq] at he ⊢
      rw [hg]
      exact h.given_of_frame e he

theorem FrameInv.zeroTable (h : s.FrameInv) (t : Nat) : (s.zeroTable t).FrameInv := by
  refine h.congr rfl rfl rfl fun e => ?_
  rw [page_zeroTable]
  split
  · exact .inl rfl
  · exact .inr rfl

theorem FrameInv.setPage (h : s.FrameInv) {e : Entry} {p : Page} (hp : p.frame = (s.page e).frame) :
    (s.setPage e p).FrameInv := by
  refine h.congr rfl rfl rfl fun e' => .inr ?_
  rw [page_setPage]
  split
  · next heq => rw [hp, heq]
  · rfl

theorem FrameInv.allocFrame (h : s.FrameInv) {e : Entry} {k w : Bool}
    (ha : s.allocFrame e k w = some s') : s'.FrameInv := by
  obtain ⟨rfl, -⟩ | ⟨idx, hzero, hidx, rfl⟩ := allocFrame_cases ha
  · exact h
  obtain ⟨hclear, haddr, hmod⟩ := firstFrame_spec h.nframes_lt hidx
  have hnot : ∀ e', (e', idx) ∉ s.given := fun e' he' => by
    rw [h.set_of_given e' idx he'] at hclear
    cases hclear
  have htest : ∀ f, (s.frames.set (mul32 idx pageSize / pageSize)).test f =
      (decide (f = idx) || s.frames.test f) := by
    intro f
    rw [haddr, Bitmap.test_set]
  refine ⟨h.nframes_lt, ?_, ?_, ?_, ?_⟩
  · intro e' f he'
    refine (htest f).trans ?_
    rcases List.mem_cons.1 he' with heq | he'
    · simp [(Prod.mk.inj heq).2]
    · simp [h.set_of_given e' f he']
  · intro f hf
    have hf := (htest f).symm.trans hf
    rw [Bool.or_eq_true, decide_eq_true_eq] at hf
    rcases hf with rfl | hf
    · exact ⟨e, List.mem_cons_self⟩
    · obtain ⟨e', he'⟩ := h.given_of_set f hf
      exact ⟨e', List.mem_cons_of_mem _ he'⟩
  · intro e₁ e₂ f h₁ h₂
    rcases List.mem_cons.1 h₁ with heq₁ | h₁
    · rcases List.mem_cons.1 h₂ with heq₂ | h₂
      · exact (Prod.mk.inj heq₁).1.trans (Prod.mk.inj heq₂).1.symm
      · rw [(Prod.mk.inj heq₁).2] at h₂
        exact absurd h₂ (hnot e₂)
    · rcases List.mem_cons.1 h₂ with heq₂ | h₂
      · rw [(Prod.mk.inj heq₂).2] at h₁
        exact absurd h₁ (hnot e₁)
      · exact h.unshared e₁ e₂ f h₁ h₂
  · intro e' he'
    have hpage : ∀ x : VirtualMemory,
        VirtualMemory.page { x with given := (e, idx) :: s.given } e' = x.page e' := fun _ => rfl
    rw [hpage, page_setPage] at he' ⊢
    split at he'
    · next heq =>
      rw [if_pos heq]
      simp [Page.assign, hmod, heq]
    · next hne =>
      rw [if_neg hne]
      exact List.mem_cons_of_mem _ (h.given_of_frame e' he')

theorem FrameInv.getPage (h : s.FrameInv) (address : Nat) (make : Bool) (dir : Nat)
    (fresh : Nat × Nat) : (s.getPage address make dir fresh).2.FrameInv := by
  obtain ⟨t, -, heq⟩ | ⟨-, -, heq⟩ | heq := s.getPage_cases address make dir fresh
  · exact heq ▸ h
  · rw [heq]
    exact (h.zeroTable fresh.1).congr rfl rfl rfl fun _ => .inr rfl
  · exact heq ▸ h

theorem FrameInv.allocAt {r : Option Entry × VirtualMemory} {k w : Bool} (h : r.2.FrameInv)
    (ha : VirtualMemory.allocAt r k w = some s') : s'.FrameInv := by
  obtain ⟨e, -, ha⟩ := allocAt_cases ha
  exact h.allocFrame ha

theorem FrameInv.cloneEntry (h : s.FrameInv) {src dst i : Nat}
    (hc : s.cloneEntry src dst i = some s') : s'.FrameInv := by
  obtain ⟨rfl, -⟩ | ⟨s₁, q, -, ha, rfl, rfl⟩ := cloneEntry_cases hc
  · exact h
  · have h₁ := (h.allocFrame ha).setPage (e := ⟨dst, i⟩)
      (p := (s₁.page ⟨dst, i⟩).orFlags (s.page ⟨src, i⟩)) rfl
    exact h₁.congr rfl rfl rfl fun _ => .inr rfl

/-! ## Freeing -/

theorem given_freeFrame (s : VirtualMemory) (e : Entry) :
    (s.freeFrame e).given = s.given.filter fun g => decide (g.1 ≠ e) := by
  unfold freeFrame
  simp only
  split <;> rfl

theorem frames_freeFrame (s : VirtualMemory) (e : Entry) :
    (s.freeFrame e).frames =
      if (s.page e).frame = 0 then s.frames else s.frames.clear ((s.page e).frame / pageSize) := by
  unfold freeFrame
  simp only
  split <;> rfl

/-- An entry that owns nothing has no frame, and `free_frame` returns at once. -/
theorem FrameInv.freeFrame_of_not_live (h : s.FrameInv) {e : Entry} (he : ¬ s.Live e) :
    s.freeFrame e = s := by
  have hframe : (s.page e).frame = 0 := by
    by_contra hne
    exact he ⟨_, h.given_of_frame e hne⟩
  have hgiven : (s.given.filter fun g => decide (g.1 ≠ e)) = s.given := by
    refine List.filter_eq_self.2 fun g hg => decide_eq_true fun heq => he ⟨g.2, ?_⟩
    rw [← heq]
    exact hg
  unfold freeFrame
  simp only [hframe, hgiven, if_true]

/-- The bit of the frame an entry owns is still set after `free_frame`: an entry
with frame 0 is left alone, and for another frame the bit cleared is that of a
smaller number. -/
theorem FrameInv.test_freeFrame (h : s.FrameInv) {e : Entry} (he : s.Live e) :
    ∃ f, (e, f) ∈ s.given ∧ (s.freeFrame e).frames.test f = true := by
  rw [frames_freeFrame]
  split
  · obtain ⟨f, hf⟩ := he
    exact ⟨f, hf, h.set_of_given e f hf⟩
  · next hne =>
    have hg := h.given_of_frame e hne
    refine ⟨_, hg, ?_⟩
    rw [Bitmap.test_clear, h.set_of_given e _ hg]
    have : (s.page e).frame ≠ (s.page e).frame / pageSize := by
      unfold pageSize
      omega
    simp [this]

theorem FrameInv.not_owned_freeFrame (h : s.FrameInv) {e : Entry} (he : s.Live e) :
    ¬ (s.freeFrame e).Owned := by
  intro howned
  obtain ⟨f, hf, htest⟩ := h.test_freeFrame he
  obtain ⟨e', he', -⟩ := (howned f).1 htest
  rw [given_freeFrame, List.mem_filter] at he'
  exact of_decide_eq_true he'.2 (h.unshared e' e f he'.1 hf)

/-! ## Runs -/

theorem FrameInv.step (h : s.FrameInv) (hs : s.FrameStep s') : s'.FrameInv := by
  cases hs with
  | alloc e k w ha => exact h.allocFrame ha
  | free e hok => exact (h.freeFrame_of_not_live hok).symm ▸ h
  | blank t => exact h.zeroTable t
  | cloneEntry src dst i hc => exact h.cloneEntry hc
  | freeEntry t i hok =>
    unfold VirtualMemory.freeEntry
    split
    · exact h
    · next hne => exact (h.freeFrame_of_not_live (hok hne)).symm ▸ h
  | expandPage address fresh k w ha => exact (h.getPage _ _ _ _).allocAt ha
  | contractPage address hok hc =>
    obtain ⟨e, he, rfl⟩ := Option.map_eq_some_iff.1 hc
    exact (h.freeFrame_of_not_live (hok e he)).symm ▸ h

theorem frameInv_of_reach (h : Reach Initial FrameStep s) : s.FrameInv :=
  h.invariant (fun _ => Initial.frameInv) fun _ _ hi hs => hi.step hs

/-- `clone_table` as a whole is a run of such steps. -/
theorem reach_cloneTable (h : Reach Initial FrameStep s) {src dst : Nat}
    (hc : s.cloneTable src dst = some s') : Reach Initial FrameStep s' := by
  unfold cloneTable at hc
  refine foldlM_invariant _ (fun s₁ i s₂ _ h₁ hi => ?_) (h.step (.blank dst)) hc
  exact h₁.step (.cloneEntry src dst i hi)

/-- So is `free_table` on a table without a live entry. -/
theorem reach_freeTable (h : Reach Initial FrameStep s) {t : Nat}
    (hok : ∀ i, (s.page ⟨t, i⟩).frame ≠ 0 → ¬ s.Live ⟨t, i⟩) :
    Reach Initial FrameStep (s.freeTable t) := by
  have hrun : ∀ (is : List Nat) (s₁ : VirtualMemory), Reach Initial FrameStep s₁ →
      (∀ i, (s₁.page ⟨t, i⟩).frame ≠ 0 → ¬ s₁.Live ⟨t, i⟩) →
        Reach Initial FrameStep (is.foldl (freeEntry t) s₁) := by
    intro is
    induction is with
    | nil => exact fun s₁ h₁ _ => h₁
    | cons i is ih =>
      intro s₁ h₁ hok
      have hsame : s₁.freeEntry t i = s₁ := by
        unfold VirtualMemory.freeEntry
        split
        · rfl
        · next hne => exact (frameInv_of_reach h₁).freeFrame_of_not_live (hok i hne)
      rw [List.foldl_cons, hsame]
      exact ih s₁ h₁ hok
  exact hrun _ _ h hok

/-- **Frames are owned until the first free.** In every state that a run without
a `free_frame` of a live entry reaches, a bit is set exactly when one entry owns
the frame and no frame has two owners; and there `free_frame` of an entry keeps
this and clears exactly the entry's bits if and only if the entry is not live. -/
theorem frames_owned {s : VirtualMemory} (h : Reach Initial FrameStep s) :
    s.Owned ∧ s.Unshared ∧
      ∀ e, (s.freeFrame e).Owned ∧ s.FreesExactly e ↔ ¬ s.Live e := by
  have hinv := frameInv_of_reach h
  refine ⟨hinv.owned, hinv.unshared, fun e => ⟨fun ho he => ?_, fun he => ?_⟩⟩
  · exact hinv.not_owned_freeFrame he ho.1
  · unfold FreesExactly
    rw [hinv.freeFrame_of_not_live he]
    exact ⟨hinv.owned, fun f => ⟨fun hf => ⟨hf, fun hmem => he ⟨f, hmem⟩⟩, And.left⟩⟩

theorem blankMemory_initial : blankMemory.Initial :=
  ⟨fun _ => rfl, fun _ => rfl, ⟨131072, by decide, rfl⟩, rfl⟩

/-- Two entries get the frames 0 and 1; each then owns its frame. -/
theorem frames_owned_two :
    ∃ s₁ s₂, blankMemory.allocFrame ⟨0xC0200000, 0⟩ true true = some s₁ ∧
      s₁.allocFrame ⟨0xC0200000, 1⟩ true true = some s₂ ∧ s₂.Owned ∧ s₂.Unshared := by
  refine ⟨_, _, rfl, rfl, ?_⟩
  have h := frames_owned (((Reach.init blankMemory_initial).step
    (.alloc ⟨0xC0200000, 0⟩ true true rfl)).step (.alloc ⟨0xC0200000, 1⟩ true true rfl))
  exact ⟨h.1, h.2.1⟩

/-- Freeing the second of these entries clears the bit of the first. -/
theorem freeFrame_clears_wrong_bit :
    blankMemory.Initial ∧
      ∃ s₁ s₂, blankMemory.allocFrame ⟨0xC0200000, 0⟩ true true = some s₁ ∧
        s₁.allocFrame ⟨0xC0200000, 1⟩ true true = some s₂ ∧
        ¬ (s₂.freeFrame ⟨0xC0200000, 1⟩).Owned ∧ ¬ s₂.FreesExactly ⟨0xC0200000, 1⟩ := by
  refine ⟨blankMemory_initial, _, _, rfl, rfl, ?_, ?_⟩
  · intro h
    -- the bit of frame 1 is still set, and nobody owns the frame
    obtain ⟨e, he, -⟩ := (h 1).1 (by decide)
    change (e, 1) ∈ [((⟨0xC0200000, 0⟩ : Entry), 0)] at he
    simp at he
  · intro h
    exact absurd ((h 0).2 ⟨by decide, by decide⟩) (by decide)

end VirtualMemory

end Ulysses
