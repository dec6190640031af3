import Ulysses.KHeap.Blocks

/-!
# Boundary tags

Runs that neither grow nor shrink the heap: `alloc` without alignment when a hole
is found, and `free` of blocks whose joined hole stays below the end of the heap.
Along them the tags are exact as long as no block is freed in front of a hole:
every footer points back to the header of its segment, and no two holes are
neighbours.

Joining a hole on the right changes the variable `footer` to the one of that hole
and does not write to it, so its footer keeps pointing at the header that was
swallowed.
-/

namespace Ulysses

open Lib Bytes Heap

namespace Kernel

/-! ## Runs -/

/-- The block and the hole it is joined to end before the heap does. -/
def Interior (p : Nat) (h : Heap) : Prop :=
  blockEnd h p < h.endAddress ∧ holeEnd p h < h.endAddress

instance (p : Nat) (h : Heap) : Decidable (Interior p h) := inferInstanceAs (Decidable (_ ∧ _))

/-- No word below the heap looks like the magic of a footer. -/
def NoMagicBelow (h : Heap) : Prop :=
  8 ≤ h.startAddress ∧ magicAt h.mem (h.startAddress - 8) ≠ heapMagic

/-- A new heap with no magic below it. -/
def TagsCreated (k : Kernel) : Prop := Created k ∧ NoMagicBelow k.heap

/-- The steps of a run, the calls under the conditions `allocOk` and `freeOk`. -/
inductive TagsStep (allocOk : Nat → Prop) (freeOk : Nat → Heap → Prop) : Kernel → Kernel → Prop
  | alloc {k : Kernel} {fuel size : Nat} {r : Nat × Kernel} (hsize : size < 4294967296)
      (hfind : (k.heap.findSmallestHole (add32 (add32 size 12) 8) false).isSome)
      (hok : allocOk size) (ha : alloc fuel size false k = some r) : TagsStep allocOk freeOk k r.2
  | free {k k' : Kernel} {p n : Nat} (hp : (p, n) ∈ k.heap.live) (hin : Interior p k.heap)
      (hok : freeOk p k.heap) (hf : free p k = some k') : TagsStep allocOk freeOk k k'
  | write {h : Heap} {vmem : VirtualMemory} {p n : Nat} {m : Bytes} (hp : (p, n) ∈ h.live)
      (hm : AgreeOff p (p + n) h.mem m) :
      TagsStep allocOk freeOk ⟨h, vmem⟩ ⟨{ h with mem := m }, vmem⟩

/-- The size with header and footer is a word. -/
def SizeOk (size : Nat) : Prop := size + 20 < 4294967296

/-- No hole is on the right of the block, and the index has room unless one is on
its left. -/
def NoRightHole (p : Nat) (h : Heap) : Prop :=
  rightHole h.mem (footerOf p h) = false ∧
    (leftHole (marked p h) (sub32 p 12) = false → h.IndexRoom)

/-! ## Exact tags -/

/-- No hole begins where another one ends. -/
def Apart (gs : List (Seg Bool)) : Prop :=
  ∀ g ∈ gs, ∀ g' ∈ gs, g.tag = true → g'.tag = true → g.addr + g.size ≠ g'.addr

theorem Apart.replace {xs mid mid' ys : List (Seg Bool)} {lo a b hi : Nat}
    (h : Apart (xs ++ mid ++ ys)) (hx : Tiles 20 lo xs a) (hy : Tiles 20 b ys hi)
    (hnew : ∀ g ∈ mid', g.tag = true → a ≤ g.addr ∧ g.addr + g.size = b ∧ 20 ≤ g.size ∧
      (g.addr = a → ∀ g' ∈ xs, g'.tag = true → g'.addr + g'.size ≠ a))
    (hright : ∀ g ∈ ys, g.tag = true → g.addr ≠ b) : Apart (xs ++ mid' ++ ys) := by
  have hbx : ∀ g ∈ xs, g.addr + g.size ≤ a ∧ 20 ≤ g.size := fun g hg =>
    ⟨(hx.bounds hg).2.2, (hx.bounds hg).2.1⟩
  have hby : ∀ g ∈ ys, b ≤ g.addr ∧ 20 ≤ g.size := fun g hg =>
    ⟨(hy.bounds hg).1, (hy.bounds hg).2.1⟩
  intro g hg g' hg' ht ht' heq
  simp only [List.mem_append] at hg hg'
  rcases hg with (hg | hg) | hg <;> rcases hg' with (hg' | hg') | hg'
  · exact h g (by simp [hg]) g' (by simp [hg']) ht ht' heq
  · obtain ⟨hlo, -, -, hleft⟩ := hnew g' hg' ht'
    have := hbx g hg
    exact hleft (by omega) g hg ht (by omega)
  · exact h g (by simp [hg]) g' (by simp [hg']) ht ht' heq
  · have := hnew g hg ht
    have := hbx g' hg'
    omega
  · have := hnew g hg ht
    have := hnew g' hg' ht'
    omega
  · exact hright g' hg' ht' (heq.symm.trans (hnew g hg ht).2.1)
  · exact h g (by simp [hg]) g' (by simp [hg']) ht ht' heq
  · have := hby g hg
    have := hnew g' hg' ht'
    omega
  · exact h g (by simp [hg]) g' (by simp [hg']) ht ht' heq

/-- The segments `gs` of a heap with exact tags. The heap before the first `alloc`
is a single hole, whose footer has not been written. -/
structure Tagged (h : Heap) (gs : List (Seg Bool)) : Prop where
  layout : Layout h gs
  footers : (∃ g, gs = [g] ∧ g.tag = true) ∨ ∀ g ∈ gs, FooterAt h.mem g
  apart : Apart gs
  below : NoMagicBelow h

/-- Boundary tags and index of a heap are exact. -/
def TagsOk (h : Heap) : Prop := ∃ gs, Tagged h gs

namespace Tagged

variable {h : Heap} {gs : List (Seg Bool)}

/-- With a block in it, a heap has all its footers. -/
theorem footer (ht : Tagged h gs) {B : Seg Bool} (hB : B ∈ gs) (hb : B.tag = false) :
    ∀ g ∈ gs, FooterAt h.mem g := by
  rcases ht.footers with ⟨g, rfl, hg⟩ | hf
  · rw [List.mem_singleton.1 hB, hg] at hb
    cases hb
  · exact hf

theorem noMagicBelow_agree {m : Bytes} {a b : Nat} (hn : NoMagicBelow h)
    (hm : AgreeOff a b h.mem m) (ha : h.startAddress ≤ a) :
    magicAt m (h.startAddress - 8) ≠ heapMagic := by
  have h8 := hn.1
  rw [magicAt_agree hm (by omega)]
  exact hn.2

/-- The left neighbour as `free` sees it: there is none, or a segment that is a
hole exactly when it looks like one. -/
theorem left_cases (ht : Tagged h gs) {H s : Nat} (hB : (⟨H, s, false⟩ : Seg Bool) ∈ gs) :
    (leftHole (marked (H + 12) h) H = false ∧ ∀ g ∈ gs, g.addr + g.size ≠ H) ∨
      ∃ g ∈ gs, g.addr + g.size = H ∧ leftHole (marked (H + 12) h) H = g.tag ∧
        hdrAt h.mem (sub32 H 8) = g.addr := by
  have hl := ht.layout
  have hb := hl.bounds hB
  simp only at hb
  have hagree := marked_agree h (sub32_header H (by omega))
  obtain ⟨xs, ys, heq, hx, -⟩ := hl.tiles.cut hB
  have h8 := ht.below.1
  have hsub : sub32 H 8 = H - 8 := sub32_eq (by omega) (by omega)
  rcases Nat.eq_or_lt_of_le hb.1 with hstart | hstart
  · refine .inl ⟨?_, fun g hg hend => ?_⟩
    · have hno := noMagicBelow_agree ht.below hagree (by omega)
      rw [hstart] at hno
      unfold leftHole
      rw [hsub, beq_eq_false_iff_ne.2 hno, Bool.false_and]
    · have := hl.bounds hg
      omega
  · obtain ⟨g, hg, hend⟩ := hx.exists_last hstart
    simp only at hend
    have hmem : g ∈ gs := by
      rw [heq]
      simp [hg]
    have hgb := hl.bounds hmem
    have hfoot := ht.footer hB rfl g hmem
    unfold FooterAt at hfoot
    rw [hend] at hfoot
    refine .inr ⟨g, hmem, hend, ?_, by rw [hsub]; exact hfoot.2⟩
    have hmagic : magicAt (marked (H + 12) h) (H - 8) = heapMagic :=
      (magicAt_agree hagree (by omega)).trans hfoot.1
    have hhdr : hdrAt (marked (H + 12) h) (H - 8) = g.addr :=
      (hdrAt_agree hagree (by omega)).trans hfoot.2
    have hhole : isHoleAt (marked (H + 12) h) g.addr = if g.tag then 1 else 0 :=
      (isHoleAt_agree hagree (by omega)).trans (hl.header g hmem).2.1
    unfold leftHole
    rw [hsub, hmagic, hhdr, hhole]
    cases g.tag <;> rfl

theorem no_left_hole (ht : Tagged h gs) {H s : Nat} (hB : (⟨H, s, false⟩ : Seg Bool) ∈ gs)
    (hno : leftHole (marked (H + 12) h) H = false) :
    ∀ g ∈ gs, g.tag = true → g.addr + g.size ≠ H := by
  intro g hg htag hend
  rcases ht.left_cases hB with ⟨-, hnone⟩ | ⟨g', hg', hend', htag', -⟩
  · exact hnone g hg hend
  · -- two segments that end at one place are one
    have heq : g = g' := by
      by_contra hne
      have h₁ := ht.layout.bounds hg
      have h₂ := ht.layout.bounds hg'
      have := ht.layout.tiles.disjoint hg hg' hne
      omega
    rw [← heq, htag, hno] at htag'
    cases htag'

theorem leftOk (ht : Tagged h gs) {H s : Nat} (hB : (⟨H, s, false⟩ : Seg Bool) ∈ gs) :
    LeftOk (H + 12) h := by
  have hb := ht.layout.bounds hB
  simp only at hb
  unfold LeftOk
  rw [sub32_header H (by omega)]
  intro hleft
  rcases ht.left_cases hB with ⟨hno, -⟩ | ⟨g, hg, hend, htag, hhdr⟩
  · rw [hno] at hleft
    cases hleft
  · rw [hleft] at htag
    rw [hhdr, (ht.layout.header g hg).2.2]
    exact ⟨(ht.layout.mem_index _).2 ⟨g, hg, htag.symm, rfl⟩, hend⟩

/-- The right neighbour as `free` sees it is the next segment, when there is one. -/
theorem right_cases (hl : Layout h gs) {H s : Nat} (hB : (⟨H, s, false⟩ : Seg Bool) ∈ gs)
    {g : Seg Bool} (hg : g ∈ gs) (hnext : g.addr = H + s) :
    rightHole h.mem (H + s - 8) = g.tag := by
  have hb := hl.bounds hB
  have hgb := hl.bounds hg
  simp only at hb
  have hadd : add32 (H + s - 8) 8 = g.addr := by
    rw [add32_eq (by omega)]
    omega
  obtain ⟨hmagic, hhole, -⟩ := hl.header g hg
  unfold rightHole
  rw [hadd, hmagic, hhole]
  cases g.tag <;> rfl

/-! ## Steps -/

theorem footer_off (hl : Layout h gs) {xs mid ys : List (Seg Bool)} (hgs : gs = xs ++ mid ++ ys)
    {a b : Nat} (hx : Tiles 20 h.startAddress xs a) (hy : Tiles 20 b ys h.endAddress) {m : Bytes}
    (hm : AgreeOff a b h.mem m) (hf : ∀ g ∈ xs ++ ys, FooterAt h.mem g) :
    ∀ g ∈ xs ++ ys, FooterAt m g := by
  intro g hg
  have hg' : g ∈ gs := by
    rw [hgs]
    rcases List.mem_append.1 hg with h | h <;> simp [h]
  have hb := hl.bounds hg'
  refine (hf g hg).agree hm (by omega) ?_
  rcases List.mem_append.1 hg with h | h
  · have := hx.bounds h
    omega
  · have := hy.bounds h
    omega

theorem allocFrom (ht : Tagged h gs) {iterator size : Nat} {r : Nat × Heap}
    (hsize : size + 20 < 4294967296) (ha : h.allocFrom iterator size false = some r) :
    TagsOk r.2 := by
  have hl := ht.layout
  obtain ⟨pos, -, -, hpos, -⟩ := allocFrom_cases hsize ha
  obtain ⟨xs, ys, newSize, rfl, hs, hp, hl'⟩ :=
    hl.allocFrom_plain hsize hpos (fun hmove => by cases hmove.1) ha
  have hb := hl.bounds (g := ⟨pos, sizeAt h.mem pos, true⟩) (by simp)
  simp only at hb
  obtain ⟨hx, hy⟩ := hl.run_singleton
  simp only at hx hy
  have hstart : r.2.startAddress = h.startAddress := hp.start
  have hmem : AgreeOff pos (pos + sizeAt h.mem pos) h.mem r.2.mem := hp.mem
  have hblock := hl'.bounds (g := ⟨pos, newSize, false⟩) (by simp [Heap.placed])
  simp only at hblock
  refine ⟨_, hl', .inr fun g hg => ?_, ht.apart.replace hx hy (fun g hg htag => ?_) ?_, ?_⟩
  · have hold : ∀ g ∈ xs ++ ys, FooterAt h.mem g := by
      intro g hg
      rcases ht.footers with ⟨g', heq, -⟩ | hf
      · have hnil : xs = [] ∧ ys = [] := by
          have := congrArg List.length heq
          simp only [List.length_append, List.length_singleton] at this
          exact ⟨List.length_eq_zero_iff.1 (by omega), List.length_eq_zero_iff.1 (by omega)⟩
        rw [hnil.1, hnil.2] at hg
        cases hg
      · exact hf g (by rcases List.mem_append.1 hg with h | h <;> simp [h])
    have hkeep := footer_off hl rfl hx hy hmem hold
    simp only [List.mem_append] at hg hkeep
    rcases hg with (hg | hg) | hg
    · exact hkeep g (.inl hg)
    · exact hp.footer g hg
    · exact hkeep g (.inr hg)
  · -- the hole behind the block ends where the old hole did
    unfold Heap.placed at hg
    rcases List.mem_cons.1 hg with rfl | hg
    · cases htag
    · split at hg
      · rw [List.mem_singleton.1 hg]
        refine ⟨?_, ?_, ?_, fun heq => ?_⟩ <;> simp only at * <;> omega
      · cases hg
  · intro g hg htag heq
    exact ht.apart ⟨pos, sizeAt h.mem pos, true⟩ (by simp) g (by simp [hg]) rfl htag heq.symm
  · unfold NoMagicBelow
    rw [hstart]
    exact ⟨ht.below.1, noMagicBelow_agree ht.below hmem hb.1⟩

theorem free (ht : Tagged h gs) {p n : Nat} {vmem : VirtualMemory} {k' : Kernel}
    (hp : (p, n) ∈ h.live) (hin : Interior p h) (hok : NoRightHole p h)
    (hf : Kernel.free p ⟨h, vmem⟩ = some k') : TagsOk k'.heap := by
  have hl := ht.layout
  obtain ⟨⟨H, s, tag⟩, hB, rfl, rfl, -⟩ := hl.of_live hp
  simp only at hok hin hf hp
  have hb := hl.bounds hB
  simp only at hb
  obtain ⟨hright, -⟩ := hok
  obtain ⟨u, xs, lefts, rights, ys, size, total, m, index, k₁, heq, rfl, hu, hr, hmem,
    ⟨hfooter, -, hend⟩, hk₁, rfl⟩ := free_cases hl hB (ht.leftOk hB) hf
  rw [hfooter] at hright
  obtain ⟨rfl, rfl⟩ : rights = [] ∧ total = size := by
    rcases hr.rights with ⟨h₁, h₂, -⟩ | ⟨sr, i, -, -, -, -, -, hyes⟩
    · exact ⟨h₁, h₂⟩
    · rw [hright] at hyes
      cases hyes
  rw [if_neg (by have := hin.2; omega)] at hk₁
  obtain rfl := Option.some.inj hk₁
  obtain rfl := hmem rfl
  obtain ⟨a, b, hx, hmid, hy⟩ := hl.run
  have hjoin := free_join hl hu hr (headerLessThan u.1)
  obtain ⟨rfl, rfl, -⟩ := joined_run hmid hu hr
  have hends := hu.ends
  rw [hends] at hy
  have htagged : Tagged
      { h with
        mem := u.1
        live := h.live.filter fun e => decide (e.1 ≠ H + 12)
        index := if u.2.2 then index.insert (headerLessThan u.1) u.2.1 else index }
      (xs ++ [⟨u.2.1, total, true⟩] ++ ys) := by
    refine ⟨hjoin, .inr fun g hg => ?_, ht.apart.replace hx hy (fun g hg htag => ?_) ?_, ?_⟩
    · have hold := ht.footer hB rfl
      have hkeep := footer_off hl rfl hx hy hu.mem fun g hg =>
        hold g (by rcases List.mem_append.1 hg with h | h <;> simp [h])
      simp only [List.mem_append, List.mem_singleton] at hg hkeep
      rcases hg with (hg | rfl) | hg
      · exact hkeep g (.inl hg)
      · exact hu.footer (hold _ hB)
      · exact hkeep g (.inr hg)
    · rw [List.mem_singleton.1 hg]
      refine ⟨Nat.le_refl _, hends, (hjoin.bounds (by simp)).2.1, fun _ g' hg' htag' hend' => ?_⟩
      rcases hu.lefts with ⟨hadd, -, hH⟩ | ⟨-, sl, rfl, -, -⟩
      · have hno : leftHole (marked (H + 12) h) H = false := by
          simpa [heq, unifyLeft_add] using hadd
        exact ht.no_left_hole hB hno g' (by simp [hg']) htag' (by omega)
      · exact ht.apart g' (by simp [hg']) ⟨u.2.1, sl, true⟩ (by simp) htag' rfl hend'
    · intro g hg htag hnext
      have := right_cases hl hB (g := g) (by simp [hg]) hnext
      rw [hright, htag] at this
      cases this
    · have hbelow := noMagicBelow_agree ht.below hu.mem hx.le
      exact ⟨ht.below.1, hbelow⟩
  generalize u.2.2 = add at htagged ⊢
  cases add <;> exact ⟨_, htagged⟩

theorem write (ht : Tagged h gs) {p n : Nat} (hp : (p, n) ∈ h.live) {m : Bytes}
    (hm : AgreeOff p (p + n) h.mem m) : Tagged { h with mem := m } gs := by
  have hl := ht.layout
  obtain ⟨g, hg, htag, ha, hn⟩ := hl.of_live hp
  have hb := hl.bounds hg
  have hold := ht.footer hg htag
  refine ⟨hl.write hp hm, .inr fun g' hg' => (hold g' hg').agree hm ?_ ?_, ht.apart, ?_⟩
  · have := hl.bounds hg'
    omega
  · have hb' := hl.bounds hg'
    by_cases heq : g = g'
    · subst heq
      omega
    · have := hl.tiles.disjoint hg hg' heq
      omega
  · have hbelow := noMagicBelow_agree ht.below hm (by omega)
    exact ⟨ht.below.1, hbelow⟩

/-- `Unify right` finds the hole it joins in the index. -/
theorem unifyRight_isSome (hl : Layout h gs) {H s : Nat} (hB : (⟨H, s, false⟩ : Seg Bool) ∈ gs)
    (hlt : H + s < h.endAddress) {m : Bytes} {lo header : Nat} (hm : AgreeOff lo (H + s) h.mem m)
    (live : List (Nat × Nat)) :
    ∃ r, unifyRight header (H + s - 8) { h with mem := m, live } = some r := by
  have hb := hl.bounds hB
  simp only at hb
  have hnext : add32 (H + s - 8) 8 = H + s := by
    rw [add32_eq (by omega)]
    omega
  have hright : rightHole m (H + s - 8) = rightHole h.mem (H + s - 8) :=
    rightHole_agree (by rwa [Nat.sub_add_cancel (by omega)]) (by omega)
  obtain ⟨xs, ys, heq, -, hy⟩ := hl.tiles.cut hB
  obtain ⟨g, ys', rfl, ha, -⟩ := hy.exists_head hlt
  have hg : g ∈ gs := by
    rw [heq]
    simp
  rw [right_cases hl hB hg ha] at hright
  unfold unifyRight
  simp only [hright, hnext]
  split
  · next htag =>
    have hidx := (hl.mem_index _).2 ⟨g, hg, htag, ha⟩
    obtain ⟨i, hi, harr⟩ := OrderedArray.mem_toList.1 hidx
    cases hfind : Heap.indexFind (H + s)
        { h with mem := putSize m header (add32 (sizeAt m header) (sizeAt m (H + s))), live } with
    | some j => exact ⟨_, rfl⟩
    | none =>
      unfold Heap.indexFind at hfind
      have := List.find?_eq_none.1 hfind i (List.mem_range.2 hi)
      simp [harr] at this
  · exact ⟨_, rfl⟩

/-- No assertion of `free` fails on a block away from the end of the heap. -/
theorem free_isSome (ht : Tagged h gs) {p n : Nat} {vmem : VirtualMemory} (hp : (p, n) ∈ h.live)
    (hin : Interior p h) : (Kernel.free p ⟨h, vmem⟩).isSome := by
  have hl := ht.layout
  obtain ⟨⟨H, s, tag⟩, hB, rfl, rfl, -⟩ := hl.of_live hp
  simp only at hin
  have hb := hl.bounds hB
  simp only at hb
  have hheader := sub32_header H (by omega)
  have hlt : H + s < h.endAddress := by
    have hsize : sizeAt h.mem H = s := (hl.header _ hB).2.2
    have := hin.1
    unfold blockEnd blockStart at this
    rwa [hheader, hsize] at this
  obtain ⟨u, heq⟩ : ∃ u, u = unifyLeft H (H + s - 8) (marked (H + 12) h) := ⟨_, rfl⟩
  obtain ⟨xs, lefts, ys, size, rfl, hu⟩ := unifyLeft_spec hl hheader hB (ht.leftOk hB)
  rw [← heq] at hu
  obtain ⟨r, hr⟩ := unifyRight_isSome hl hB hlt hu.mem
    (h.live.filter fun e => decide (e.1 ≠ H + 12))
  obtain ⟨rights, ys, total, m, index, rfl, hr₁, hr₂, hright, -⟩ := unifyRight_block hl hu hr
  obtain ⟨-, -, hend⟩ := hole_bounds (hl.header _ hB) hb.2.1 (by omega) heq hu hright
    fun g hg => hl.header g (by simp [hg])
  have hne : ¬ add32 r.2 8 = r.1.endAddress := by
    rw [hr₂, hr₁, ← hend]
    exact Nat.ne_of_lt hin.2
  rw [free_eq (by omega) hb.2.1 (hl.header _ hB) heq, if_pos (ht.footer hB rfl _ hB).1, hr]
  simp only [Option.bind_some, hne, if_false, Option.map_some, Option.isSome_some]

end Tagged

theorem tagsOk_step {k k' : Kernel} (hk : TagsOk k.heap)
    (hs : TagsStep SizeOk NoRightHole k k') : TagsOk k'.heap := by
  obtain ⟨gs, ht⟩ := hk
  cases hs with
  | alloc hsize hfind hok ha =>
    obtain ⟨iterator, hfind⟩ := Option.isSome_iff_exists.1 hfind
    rw [newSize_eq hok] at hfind
    exact ht.allocFrom hok (alloc_of_hole hok hfind ha).1
  | free hp hin hok hf => exact ht.free hp hin hok hf
  | write hp hm => exact ⟨gs, ht.write hp hm⟩

theorem tagsOk_created {k : Kernel} (hk : TagsCreated k) : TagsOk k.heap := by
  obtain ⟨hk, hbelow⟩ := hk
  cases hk with
  | create vmem hok hc =>
    refine ⟨_, create_layout hok hc, .inl ⟨_, rfl, rfl⟩, ?_, hbelow⟩
    intro g hg g' hg' _ _ heq
    rw [List.mem_singleton.1 hg, List.mem_singleton.1 hg'] at heq
    have := hok.1
    simp only at heq
    omega

/-- **Exact boundary tags.** In every state that a run reaches in which no block is
freed in front of a hole, the heap is tiled by its segments, their footers point
back to their headers, the index lists the holes, and no two holes are neighbours;
and there no assertion of `free` fails on a block away from the end of the heap. -/
theorem tags_exact {k : Kernel} (hk : Reach TagsCreated (TagsStep SizeOk NoRightHole) k) :
    TagsOk k.heap ∧
      ∀ p n, (p, n) ∈ k.heap.live → Interior p k.heap → (free p k).isSome := by
  obtain ⟨gs, ht⟩ := Reach.invariant (I := fun k => TagsOk k.heap)
    (fun _ h => tagsOk_created h) (fun _ _ h hs => tagsOk_step h hs) hk
  exact ⟨⟨gs, ht⟩, fun p n hp hin => ht.free_isSome hp hin⟩

/-- Two blocks are live, with the hole of a freed one between them. -/
theorem tags_exact_freed :
    ∃ h r₁ r₂ r₃ k, ThreeBlocks h r₁ r₂ r₃ k ∧ TagsOk k.heap := by
  obtain ⟨h, r₁, r₂, r₃, k, hb⟩ := threeBlocks
  obtain ⟨i₁, i₂, i₃, h₁, h₂, h₃⟩ := hb.finds
  have hok : CreateOk 0xC0100000 0xC0190000 := by decide +kernel
  have hstart : TagsCreated ⟨h, VirtualMemory.blankMemory⟩ := ⟨.create _ hok hb.create, hb.below⟩
  have hsize : ∀ n, n ≤ 5000 → SizeOk n := fun n hn => by unfold SizeOk; omega
  have hsome : ∀ {h : Heap} {n i : Nat}, n ≤ 5000 → h.findSmallestHole (n + 20) false = some i →
      (h.findSmallestHole (add32 (add32 n 12) 8) false).isSome := by
    intro h n i hn hi
    rw [newSize_eq (hsize n hn), hi]
    rfl
  have hreach : Reach TagsCreated (TagsStep SizeOk NoRightHole) r₃.2 := (((Reach.init hstart).step
    (.alloc (by decide) (hsome (by decide) h₁) (hsize _ (by decide)) hb.first)).step
    (.alloc (by decide) (hsome (by decide) h₂) (hsize _ (by decide)) hb.second)).step
    (.alloc (by decide) (hsome (by decide) h₃) (hsize _ (by decide)) hb.third)
  have hfree : NoRightHole r₂.1 r₃.2.heap := ⟨hb.right, fun _ => hb.room⟩
  exact ⟨h, r₁, r₂, r₃, k, hb,
    (tags_exact (hreach.step (.free hb.live hb.inside hfree hb.free))).1⟩

/-! ## A right neighbour that is a hole -/

/-- The calls that runs without growth and shrinking may make. -/
def Call.inPlace : Call → Kernel → Bool
  | alloc size pageAlign, k =>
    !pageAlign && (k.heap.findSmallestHole (add32 (add32 size 12) 8) false).isSome
  | free p, k => decide (Interior p k.heap)

def execInPlace (calls : List Call) (k : Kernel) : Option Kernel :=
  calls.foldlM (fun k c => if c.inPlace k then c.exec k else none) k

theorem reach_execInPlace {calls : List Call} {k k' : Kernel}
    (hk : Reach TagsCreated (TagsStep (fun _ => True) (fun _ _ => True)) k)
    (he : execInPlace calls k = some k') :
    Reach TagsCreated (TagsStep (fun _ => True) (fun _ _ => True)) k' := by
  refine foldlM_invariant calls (fun k₁ c k₂ _ h₁ hc => ?_) hk he
  split at hc
  case isFalse => cases hc
  next hplace =>
  cases c with
  | alloc size pageAlign =>
    simp only [Call.exec, Call.inPlace, Bool.and_eq_true, Bool.not_eq_true'] at hc hplace
    obtain ⟨rfl, hfind⟩ := hplace
    split at hc
    · next hsize =>
      obtain ⟨r, ha, rfl⟩ := Option.map_eq_some_iff.1 hc
      exact h₁.step (.alloc hsize hfind trivial ha)
    · cases hc
  | free p =>
    simp only [Call.exec, Call.inPlace, decide_eq_true_eq] at hc hplace
    split at hc
    · next hp =>
      obtain ⟨⟨p', n⟩, hlive, rfl⟩ := List.mem_map.1 hp
      exact h₁.step (.free hlive hplace trivial hc)
    · cases hc

theorem Tagged.first {h : Heap} {gs : List (Seg Bool)} (ht : Tagged h gs)
    (hlt : h.startAddress < h.endAddress) :
    h.startAddress + sizeAt h.mem h.startAddress = h.endAddress ∨
      hdrAt h.mem (h.startAddress + sizeAt h.mem h.startAddress - 8) = h.startAddress := by
  obtain ⟨g, ys, rfl, ha, -, hy⟩ := ht.layout.tiles.exists_head hlt
  have hsize := (ht.layout.header g List.mem_cons_self).2.2
  rw [ha] at hsize
  rw [hsize]
  rcases ht.footers with ⟨g', heq, -⟩ | hf
  · rw [(List.cons.inj heq).2] at hy
    exact .inl hy
  · have := (hf g List.mem_cons_self).2
    rw [ha] at this
    exact .inr this

/-- Three blocks; the second is freed, then the first, whose right neighbour is now
a hole. -/
def staleCalls : List Call :=
  [.alloc 100 false, .alloc 100 false, .alloc 100 false, .free 0xC0182084, .free 0xC018200C]

/-- The footer of the joined hole still points to the header of the second block. -/
theorem right_merge_leaves_stale_footer :
    ∃ k, Reach TagsCreated (TagsStep (fun _ => True) (fun _ _ => True)) k ∧ ¬ TagsOk k.heap := by
  have hrun : (Heap.create (fun _ => 0) 0xC0100000 0xC0190000 0xCFFFF000 false false).bind
      (fun h => (execInPlace staleCalls ⟨h, VirtualMemory.blankMemory⟩).map fun k =>
        (decide (8 ≤ h.startAddress), magicAt h.mem (h.startAddress - 8),
          decide (k.heap.startAddress < k.heap.endAddress),
          decide (k.heap.startAddress + sizeAt k.heap.mem k.heap.startAddress = k.heap.endAddress),
          decide (hdrAt k.heap.mem
            (k.heap.startAddress + sizeAt k.heap.mem k.heap.startAddress - 8) =
              k.heap.startAddress))) = some (true, 0, true, false, false) := by decide +kernel
  obtain ⟨h, hc, hrest⟩ := Option.bind_eq_some_iff.1 hrun
  obtain ⟨k, he, hchecks⟩ := Option.map_eq_some_iff.1 hrest
  simp only [Prod.mk.injEq, decide_eq_true_eq, decide_eq_false_iff_not] at hchecks
  obtain ⟨h8, hmagic, hlt, hend, hhdr⟩ := hchecks
  have hok : CreateOk 0xC0100000 0xC0190000 := by decide +kernel
  have hbelow : NoMagicBelow h := ⟨h8, by rw [hmagic]; decide⟩
  refine ⟨k, reach_execInPlace (Reach.init ⟨.create _ hok hc, hbelow⟩) he, ?_⟩
  rintro ⟨gs, ht⟩
  rcases ht.first hlt with h | h
  · exact hend h
  · exact hhdr h

end Kernel

end Ulysses
