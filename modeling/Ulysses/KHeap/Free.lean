import Ulysses.KHeap.Grow

/-!
# Freeing a block

`free` makes a hole of the block, joins it with a hole on its left and on its
right, and gives the end of the heap back when the hole reaches it. What it knows
of the left neighbour it reads from the eight bytes before the header, which need
not be the footer of a segment of the heap: nothing is below the first segment,
and a footer is left behind in a hole when a hole on the right is joined.
`FreeOk` says that these bytes do not lie, that the index has room, and that the
heap is cut only where `contract` can cut it.
-/

namespace Ulysses

open Lib Bytes Heap

namespace Kernel

/-- The memory after `free` marked the header of the block as a hole. -/
def marked (p : Nat) (h : Heap) : Bytes := h.mem.write8 (sub32 p 12 + 4) 1

/-- The footer of the block with pointer `p`. -/
def footerOf (p : Nat) (h : Heap) : Nat :=
  sub32 (add32 (sub32 p 12) (sizeAt h.mem (sub32 p 12))) 8

/-- If the bytes before the header look like the footer of a hole, they are: its
header is in the index and its bytes end at the block. -/
def LeftOk (p : Nat) (h : Heap) : Prop :=
  leftHole (marked p h) (sub32 p 12) = true →
    hdrAt h.mem (sub32 (sub32 p 12) 8) ∈ h.index.toList ∧
      hdrAt h.mem (sub32 (sub32 p 12) 8) + sizeAt h.mem (hdrAt h.mem (sub32 (sub32 p 12) 8)) =
        sub32 p 12

/-- Where the joined hole starts. -/
def holeStart (p : Nat) (h : Heap) : Nat :=
  if leftHole (marked p h) (sub32 p 12) then hdrAt (marked p h) (sub32 (sub32 p 12) 8)
  else sub32 p 12

/-- Where the joined hole ends. -/
def holeEnd (p : Nat) (h : Heap) : Nat :=
  let next := add32 (footerOf p h) 8
  if rightHole h.mem (footerOf p h) then next + sizeAt h.mem next else next

/-- The condition on a call of `free`. The last part is about a hole that reaches
the end of the heap: `contract` then leaves `HEAP_MIN_SIZE` bytes, and the hole
has to begin early enough to be a hole still. -/
def FreeOk (p : Nat) (h : Heap) : Prop :=
  LeftOk p h ∧
    (leftHole (marked p h) (sub32 p 12) = false → rightHole h.mem (footerOf p h) = false →
      h.IndexRoom) ∧
    (holeEnd p h = h.endAddress →
      holeStart p h + 20 ≤ h.startAddress + heapMinSize ∧
        h.startAddress + heapMinSize < 4294967296)

/-! ## The left neighbour -/

/-- What `Unify left` makes of the block at `H` and a hole on its left: a hole of
`size` bytes from `header` on. -/
structure UnifiedLeft (h : Heap) (H s : Nat) (lefts : List (Seg Bool)) (size : Nat)
    (u : Bytes × Nat × Bool) : Prop where
  lefts : (u.2.2 = true ∧ lefts = [] ∧ u.2.1 = H) ∨
    (u.2.2 = false ∧ ∃ sl, lefts = [⟨u.2.1, sl, true⟩] ∧ 20 ≤ sl ∧ u.2.1 + sl = H)
  ends : u.2.1 + size = H + s
  mem : AgreeOff u.2.1 (H + s) h.mem u.1
  header : HeaderAt u.1 ⟨u.2.1, size, true⟩
  footer : FooterAt h.mem ⟨H, s, false⟩ → FooterAt u.1 ⟨u.2.1, size, true⟩

variable {H s size : Nat} {h : Heap} {xs ys : List (Seg Bool)} {u : Bytes × Nat × Bool}

theorem marked_agree {p : Nat} (h : Heap) (hp : sub32 p 12 = H) :
    AgreeOff (H + 4) (H + 5) h.mem (marked p h) := by
  unfold marked
  rw [hp]
  exact (AgreeOff.refl _ _ _).write8 _ (by omega) (by omega)

theorem marked_header {p : Nat} (hp : sub32 p 12 = H) (hB : HeaderAt h.mem ⟨H, s, false⟩) :
    HeaderAt (marked p h) ⟨H, s, true⟩ := by
  have hagree := marked_agree h hp
  refine ⟨(magicAt_agree hagree (by simp only; omega)).trans hB.1, ?_,
    (sizeAt_agree hagree (by simp only; omega)).trans hB.2.2⟩
  unfold marked isHoleAt
  rw [hp]
  exact write8_same _ _ _

theorem unifiedLeft_none {p : Nat} (hp : sub32 p 12 = H) (hs : 20 ≤ s)
    (hB : HeaderAt h.mem ⟨H, s, false⟩) (hno : leftHole (marked p h) H = false) (footer : Nat) :
    UnifiedLeft h H s [] s (unifyLeft H footer (marked p h)) := by
  have heq : unifyLeft H footer (marked p h) = (marked p h, H, true) := by
    unfold unifyLeft
    rw [hno]
    rfl
  have hagree := marked_agree h hp
  rw [heq]
  refine ⟨.inl ⟨rfl, rfl, rfl⟩, rfl, ?_, marked_header hp hB, fun hf => ?_⟩
  · show AgreeOff H (H + s) h.mem (marked p h)
    exact hagree.mono (by omega) (by omega)
  · exact ⟨(magicAt_agree hagree (by simp only; omega)).trans hf.1,
      (hdrAt_agree hagree (by simp only; omega)).trans hf.2⟩

/-- A hole of `sl` bytes at `l` ends where the block starts. -/
theorem unifiedLeft_some {p l sl : Nat} (hp : sub32 p 12 = H) (hs : 20 ≤ s) (hsl : 20 ≤ sl)
    (hlH : l + sl = H) (hend : H + s < 4294967296) (hB : HeaderAt h.mem ⟨H, s, false⟩)
    (hL : HeaderAt h.mem ⟨l, sl, true⟩) (hhdr : hdrAt h.mem (sub32 H 8) = l)
    (hyes : leftHole (marked p h) H = true) :
    UnifiedLeft h H s [⟨l, sl, true⟩] (sl + s)
      (unifyLeft H (H + s - 8) (marked p h)) := by
  have hagree := marked_agree h hp
  have hsub : sub32 H 8 = H - 8 := sub32_eq (by omega) (by omega)
  have hl : hdrAt (marked p h) (sub32 H 8) = l := by
    rw [hdrAt_agree hagree (by rw [hsub]; omega), hhdr]
  have hcache : sizeAt (marked p h) H = s := (marked_header hp hB).2.2
  have hL₁ : HeaderAt (marked p h) ⟨l, sl, true⟩ := hL.agree hagree (by simp only; omega)
  have hf₁ : FooterAt h.mem ⟨H, s, false⟩ → magicAt (marked p h) (H + s - 8) = heapMagic :=
    fun hf => (magicAt_agree hagree (by omega)).trans hf.1
  -- the writes to the footer and to the size of the left hole
  generalize marked p h = m at hagree hl hcache hL₁ hf₁ hyes ⊢
  have hw : AgreeOff (H + s - 4) (H + s) m (m.write32 (H + s - 8 + 4) l) :=
    (AgreeOff.refl _ _ _).write32 _ (by omega) (by omega)
  have hL₂ : HeaderAt (m.write32 (H + s - 8 + 4) l) ⟨l, sl, true⟩ :=
    hL₁.agree hw (by simp only; omega)
  have hhdr₂ : hdrAt (m.write32 (H + s - 8 + 4) l) (H + s - 8) = l :=
    read32_write32_same _ _ (by omega)
  have hmagic₂ : FooterAt h.mem ⟨H, s, false⟩ →
      magicAt (m.write32 (H + s - 8 + 4) l) (H + s - 8) = heapMagic :=
    fun hf => (magicAt_agree hw (by omega)).trans (hf₁ hf)
  have heq : unifyLeft H (H + s - 8) m =
      (putSize (m.write32 (H + s - 8 + 4) l) l
        (add32 (sizeAt (m.write32 (H + s - 8 + 4) l) l) s), l, false) := by
    unfold unifyLeft
    rw [hyes]
    simp only [if_true, hl, hcache]
  generalize m.write32 (H + s - 8 + 4) l = m₂ at hw hL₂ hhdr₂ hmagic₂ heq
  have hsum : add32 (sizeAt m₂ l) s = sl + s := by
    have := hL₂.2.2
    simp only at this
    rw [this, add32_eq (by omega)]
  have hput := putSize_agree m₂ l (sl + s)
  rw [heq, hsum]
  refine ⟨.inr ⟨rfl, sl, rfl, hsl, hlH⟩, ?_, ?_, hL₂.putSize (by omega), fun hf => ?_⟩
  · simp only
    omega
  · show AgreeOff l (H + s) h.mem (putSize m₂ l (sl + s))
    exact ((hagree.mono (by omega) (by omega)).trans (hw.mono (by omega) (by omega))).trans
      (hput.mono (by omega) (by omega))
  · have haddr : l + (sl + s) - 8 = H + s - 8 := by omega
    refine ⟨?_, ?_⟩ <;> simp only [haddr]
    · exact (magicAt_agree hput (by omega)).trans (hmagic₂ hf)
    · exact (hdrAt_agree hput (by omega)).trans hhdr₂

theorem unifyLeft_spec {p : Nat} {gs : List (Seg Bool)} (hl : Layout h gs) (hp : sub32 p 12 = H)
    (hB : (⟨H, s, false⟩ : Seg Bool) ∈ gs) (hok : LeftOk p h) :
    ∃ xs lefts ys size, gs = xs ++ (lefts ++ [⟨H, s, false⟩]) ++ ys ∧
      UnifiedLeft h H s lefts size (unifyLeft H (H + s - 8) (marked p h)) := by
  have hb := hl.bounds hB
  simp only at hb
  unfold LeftOk at hok
  rw [hp] at hok
  cases hleft : leftHole (marked p h) H with
  | false =>
    obtain ⟨xs, ys, rfl⟩ := List.append_of_mem hB
    exact ⟨xs, [], ys, s, by simp, unifiedLeft_none hp hb.2.1 (hl.header _ hB) hleft _⟩
  | true =>
    obtain ⟨hidx, hsum⟩ := hok hleft
    obtain ⟨g, hg, ht, ha⟩ := (hl.mem_index _).1 hidx
    have hgs := (hl.header g hg).2.2
    have hgb := hl.bounds hg
    have hgH : g.addr + g.size = H := by
      rw [← hsum, ← ha, hgs]
    obtain ⟨l, sl, tag⟩ := g
    simp only at ht ha hgs hgb hgH
    subst ht
    obtain ⟨xs, ys, rfl⟩ := hl.tiles.cut_pair (by omega) hg hB hgH
    exact ⟨xs, [⟨l, sl, true⟩], ys, sl + s, by simp,
      unifiedLeft_some hp hb.2.1 hgb.2.1 hgH (by omega) (hl.header _ hB) (hl.header _ hg)
        ha.symm hleft⟩

/-! ## The right neighbour -/

/-- What `Unify right` adds to the hole of `size` bytes at `header`: nothing, or the
hole that starts where it ends. -/
structure UnifiedRight (h : Heap) (header next size : Nat) (rights : List (Seg Bool))
    (total : Nat) (m : Bytes) (index : OrderedArray Nat) : Prop where
  rights : (rights = [] ∧ total = size ∧ index = h.index ∧ rightHole h.mem (next - 8) = false) ∨
    (∃ sr i, rights = [⟨next, sr, true⟩] ∧ total = size + sr ∧ i < h.index.size ∧
      h.index.array i = next ∧ index = h.index.remove i ∧ rightHole h.mem (next - 8) = true)
  mem : AgreeOff header (header + total) h.mem m
  header : HeaderAt m ⟨header, total, true⟩

theorem rightHole_agree {m m' : Bytes} {lo footer : Nat} (h : AgreeOff lo (footer + 8) m m')
    (hf : footer + 8 < 4294967296) : rightHole m' footer = rightHole m footer := by
  unfold rightHole
  rw [add32_eq hf, magicAt_agree h (by omega), isHoleAt_agree h (by omega)]

theorem indexFind_some {header i : Nat} (hi : h.indexFind header = some i) :
    i < h.index.size ∧ h.index.array i = header := by
  unfold indexFind at hi
  exact ⟨List.mem_range.1 (List.mem_of_find?_eq_some hi), by simpa using List.find?_some hi⟩

/-- The segments from `next` on begin with a hole, when `next` is in the index. -/
theorem hole_of_index {mid : List (Seg Bool)} {next : Nat} (hl : Layout h (xs ++ mid ++ ys))
    (hy : Tiles 20 next ys h.endAddress) (hidx : next ∈ h.index.toList) :
    ∃ size ys', ys = ⟨next, size, true⟩ :: ys' ∧ HeaderAt h.mem ⟨next, size, true⟩ ∧
      20 ≤ size ∧ next + size ≤ h.endAddress := by
  obtain ⟨g, hg, ht, ha⟩ := (hl.mem_index next).1 hidx
  have hgb := hl.bounds hg
  obtain ⟨g', ys', rfl, ha', -, -⟩ := hy.exists_head (by omega)
  have hg' : g' ∈ xs ++ mid ++ g' :: ys' := by simp
  obtain rfl := hl.eq_of_addr hg hg' (ha.trans ha'.symm)
  have hheader := hl.header g hg
  obtain ⟨addr, size, tag⟩ := g
  simp only at ht ha hgb
  subst ht ha
  exact ⟨size, ys', rfl, hheader, by omega, by omega⟩

theorem unifyRight_spec {mid : List (Seg Bool)} {header next : Nat}
    (hl : Layout h (xs ++ mid ++ ys)) (hy : Tiles 20 next ys h.endAddress)
    (hsize : header + size = next) (h20 : 20 ≤ size) {m : Bytes} (hm : AgreeOff header next h.mem m)
    (hheader : HeaderAt m ⟨header, size, true⟩) {live : List (Nat × Nat)} {r : Heap × Nat}
    (hr : unifyRight header (next - 8) { h with mem := m, live } = some r) :
    ∃ rights ys' total m' index, ys = rights ++ ys' ∧
      r = ({ h with mem := m', live, index }, header + total - 8) ∧
      UnifiedRight h header next size rights total m' index ∧
      (rights = [] → m' = m) := by
  have hlt := hl.end_lt
  have hle := hy.le
  have hnext : add32 (next - 8) 8 = next := by
    rw [add32_eq (by omega)]
    omega
  have hm' : AgreeOff header (next - 8 + 8) h.mem m := by rwa [Nat.sub_add_cancel (by omega)]
  have hright : rightHole m (next - 8) = rightHole h.mem (next - 8) :=
    rightHole_agree hm' (by omega)
  unfold unifyRight at hr
  simp only [hright, hnext] at hr
  cases hcase : rightHole h.mem (next - 8) with
  | false =>
    rw [hcase] at hr
    obtain rfl := Option.some.inj hr
    refine ⟨[], ys, size, m, h.index, rfl, ?_, ⟨.inl ⟨rfl, rfl, rfl, hcase⟩, ?_, hheader⟩,
      fun _ => rfl⟩
    · rw [hsize]
    · rwa [hsize]
  | true =>
    rw [hcase] at hr
    simp only [if_true] at hr
    obtain ⟨i, hi, rfl⟩ := Option.map_eq_some_iff.1 hr
    obtain ⟨hlti, harr⟩ := indexFind_some hi
    simp only at hlti harr
    -- the right neighbour is in the index, so it is the next segment and a hole
    obtain ⟨sr, ys', rfl, hgh, hsr20, hend⟩ :=
      hole_of_index hl hy (OrderedArray.mem_toList.2 ⟨i, hlti, harr⟩)
    have hsr : sizeAt m next = sr := (hgh.agree hm (by simp only; omega)).2.2
    have hsz : sizeAt m header = size := hheader.2.2
    have htotal : add32 (sizeAt m header) (sizeAt m next) = size + sr := by
      rw [hsr, hsz, add32_eq (by omega)]
    have hput := putSize_agree m header (size + sr)
    have hsr' : sizeAt (putSize m header (size + sr)) next = sr :=
      (sizeAt_agree hput (by omega)).trans hsr
    have hfooter : sub32 (add32 next sr) 8 = header + (size + sr) - 8 := by
      rw [add32_eq (by omega), sub32_eq (by omega) (by omega)]
      omega
    refine ⟨[⟨next, sr, true⟩], ys', size + sr, putSize m header (size + sr), h.index.remove i,
      rfl, ?_, ⟨.inr ⟨sr, i, rfl, rfl, hlti, harr, rfl, hcase⟩, ?_, ?_⟩, fun h => by cases h⟩
    · simp only [htotal, hsr', hfooter, indexRemove]
    · exact (hm.mono (Nat.le_refl _) (by omega)).trans (hput.mono (by omega) (by omega))
    · exact hheader.putSize (by omega)

/-! ## The joined hole -/

section Joined

variable {h : Heap} {lefts rights : List (Seg Bool)} {H s size total : Nat}
  {u : Bytes × Nat × Bool} {m : Bytes} {index : OrderedArray Nat}

theorem UnifiedLeft.header_le (hu : UnifiedLeft h H s lefts size u) : u.2.1 ≤ H := by
  rcases hu.lefts with ⟨-, -, hH⟩ | ⟨-, sl, -, -, hH⟩ <;> omega

theorem UnifiedLeft.tag (hu : UnifiedLeft h H s lefts size u) {g : Seg Bool} (hg : g ∈ lefts) :
    g.tag = true := by
  rcases hu.lefts with ⟨-, rfl, -⟩ | ⟨-, sl, rfl, -, -⟩
  · cases hg
  · rw [List.mem_singleton.1 hg]

theorem UnifiedRight.tag {header next : Nat}
    (hr : UnifiedRight h header next size rights total m index) {g : Seg Bool} (hg : g ∈ rights) :
    g.tag = true := by
  rcases hr.rights with ⟨rfl, -⟩ | ⟨sr, i, rfl, -⟩
  · cases hg
  · rw [List.mem_singleton.1 hg]

theorem UnifiedRight.index_spec {header next : Nat}
    (hr : UnifiedRight h header next size rights total m index)
    (hnodup : h.index.toList.Nodup) :
    index.toList.Nodup ∧
      ∀ c, c ∈ index.toList ↔ c ∈ h.index.toList ∧ ∀ g ∈ rights, g.addr ≠ c := by
  rcases hr.rights with ⟨rfl, -, rfl, -⟩ | ⟨sr, i, rfl, -, hi, harr, rfl, -⟩
  · exact ⟨hnodup, by simp⟩
  · refine ⟨OrderedArray.nodup_toList_remove hi hnodup, fun c => ?_⟩
    rw [OrderedArray.mem_toList_remove hi hnodup, harr]
    simp only [List.mem_singleton, forall_eq, ne_comm]

theorem UnifiedRight.sublist {header next : Nat}
    (hr : UnifiedRight h header next size rights total m index) :
    index.toList.Sublist h.index.toList := by
  rcases hr.rights with ⟨-, -, rfl, -⟩ | ⟨sr, i, -, -, hi, -, rfl, -⟩
  · exact List.Sublist.refl _
  · rw [OrderedArray.toList_remove hi]
    exact List.eraseIdx_sublist _ _

theorem joined_run {a b : Nat} (hmid : Tiles 20 a (lefts ++ [⟨H, s, false⟩] ++ rights) b)
    (hu : UnifiedLeft h H s lefts size u)
    (hr : UnifiedRight h u.2.1 (H + s) size rights total m index) :
    a = u.2.1 ∧ b = u.2.1 + total ∧ 20 ≤ total ∧
      (∀ g ∈ rights, u.2.1 < g.addr ∧ g.addr < b) ∧ ∀ g ∈ lefts, g.addr = u.2.1 := by
  have hends := hu.ends
  have hle := hu.header_le
  obtain ⟨mid, hlB, hrights⟩ := tiles_append.1 hmid
  obtain ⟨mid', hlefts, hB⟩ := tiles_append.1 hlB
  obtain ⟨hBa, hBs, hBe⟩ := tiles_singleton.1 hB
  simp only at hBa hBs hBe
  subst hBa hBe
  have hleft : a = u.2.1 ∧ ∀ g ∈ lefts, g.addr = u.2.1 := by
    rcases hu.lefts with ⟨-, rfl, hH⟩ | ⟨-, sl, rfl, -, -⟩
    · rw [tiles_nil] at hlefts
      exact ⟨hlefts.trans hH.symm, by simp⟩
    · exact ⟨(tiles_singleton.1 hlefts).1.symm, by simp⟩
  rcases hr.rights with ⟨rfl, rfl, -⟩ | ⟨sr, i, rfl, rfl, -⟩
  · rw [tiles_nil] at hrights
    exact ⟨hleft.1, by omega, by omega, by simp, hleft.2⟩
  · obtain ⟨-, hs, he⟩ := tiles_singleton.1 hrights
    simp only at hs he
    refine ⟨hleft.1, by omega, by omega, ?_, hleft.2⟩
    intro g hg
    rw [List.mem_singleton.1 hg]
    simp only
    omega

theorem joined_block (hu : UnifiedLeft h H s lefts size u)
    (hr : UnifiedRight h u.2.1 (H + s) size rights total m index) {g : Seg Bool}
    (hg : g ∈ lefts ++ [⟨H, s, false⟩] ++ rights) (ht : g.tag = false) : g.addr = H := by
  simp only [List.mem_append, List.mem_singleton] at hg
  rcases hg with (hg | rfl) | hg
  · rw [hu.tag hg] at ht
    cases ht
  · rfl
  · rw [hr.tag hg] at ht
    cases ht

end Joined

section Join

variable {h : Heap} {xs lefts rights ys : List (Seg Bool)} {H s size total : Nat}
  {u : Bytes × Nat × Bool} {m : Bytes} {index index' : OrderedArray Nat}

/-- The left hole, the block and the right hole become one hole, whose header the
index now lists. -/
theorem segments_join (hg : Segments h (xs ++ (lefts ++ [⟨H, s, false⟩] ++ rights) ++ ys))
    (hu : UnifiedLeft h H s lefts size u)
    (hr : UnifiedRight h u.2.1 (H + s) size rights total m index) (hnodup : index'.toList.Nodup)
    (hindex : ∀ c, c ∈ index'.toList ↔
      c = u.2.1 ∨ (c ∈ h.index.toList ∧ ∀ g ∈ rights, g.addr ≠ c)) (live : List (Nat × Nat)) :
    Segments { h with mem := m, live, index := index' }
      (xs ++ [⟨u.2.1, total, true⟩] ++ ys) := by
  obtain ⟨a, b, hx, hmid, hy⟩ := hg.run
  obtain ⟨rfl, rfl, h20, hrights, hlefts⟩ := joined_run hmid hu hr
  -- a hole of the run is the left or the right one
  have hholes : ∀ g ∈ lefts ++ [⟨H, s, false⟩] ++ rights, g.tag = true →
      g.addr = u.2.1 ∨ g ∈ rights := by
    intro g hg ht
    simp only [List.mem_append, List.mem_singleton] at hg
    rcases hg with (hg | rfl) | hg
    · exact .inl (hlefts g hg)
    · cases ht
    · exact .inr hg
  refine hg.replace (a := u.2.1) (b := u.2.1 + total) hx ?_ (tiles_singleton.2 ⟨rfl, h20, rfl⟩) hy
    rfl hg.end_lt hr.mem ?_ hnodup ?_ ?_
  · intro g hg
    have := hmid.bounds hg
    omega
  · intro g hg
    rw [List.mem_singleton.1 hg]
    exact hr.header
  · intro c hc
    rw [hindex c]
    constructor
    · rintro (rfl | h)
      · omega
      · exact h.1
    · intro h
      refine .inr ⟨h, fun g hg heq => ?_⟩
      have := hrights g hg
      omega
  · intro c h₁ h₂
    rw [hindex c]
    simp only [List.mem_singleton, exists_eq_left, true_and]
    constructor
    · rintro (rfl | ⟨hc, hne⟩)
      · rfl
      · obtain ⟨g, hg, ht, rfl⟩ := hg.index_run hx hy hc h₁ h₂
        rcases hholes g hg ht with heq | hg
        · exact heq.symm
        · exact absurd rfl (hne g hg)
    · intro h
      exact .inl h.symm

theorem layout_join (hl : Layout h (xs ++ (lefts ++ [⟨H, s, false⟩] ++ rights) ++ ys))
    (hu : UnifiedLeft h H s lefts size u)
    (hr : UnifiedRight h u.2.1 (H + s) size rights total m index) (hnodup : index'.toList.Nodup)
    (hindex : ∀ c, c ∈ index'.toList ↔
      c = u.2.1 ∨ (c ∈ h.index.toList ∧ ∀ g ∈ rights, g.addr ≠ c)) :
    Layout
      { h with
        mem := m
        live := h.live.filter fun e => decide (e.1 ≠ H + 12)
        index := index' }
      (xs ++ [⟨u.2.1, total, true⟩] ++ ys) := by
  obtain ⟨a, b, hx, hmid, hy⟩ := hl.run
  obtain ⟨rfl, rfl, h20, -⟩ := joined_run hmid hu hr
  have hHb : u.2.1 ≤ H ∧ H < u.2.1 + total := by
    have := hmid.bounds (g := ⟨H, s, false⟩) (by simp)
    simp only at this
    omega
  refine hl.of_segments (a := u.2.1) (b := u.2.1 + total) hx ?_
    (tiles_singleton.2 ⟨rfl, h20, rfl⟩) hy (segments_join hl.toSegments hu hr hnodup hindex _)
    (hl.live_nodup.sublist (List.filter_sublist.map _)) ?_ ?_ ?_
  · intro g hg
    have := hmid.bounds hg
    omega
  · intro p n hp
    simp only [List.mem_filter, decide_eq_true_eq]
    exact ⟨And.left, fun h => ⟨h, by omega⟩⟩
  · intro p h₁ h₂
    simp only [List.mem_filter, decide_eq_true_eq, List.mem_singleton, exists_eq_left,
      Bool.true_eq_false, false_and, iff_false]
    rintro ⟨n, hn, hne⟩
    obtain ⟨g, hg, ht, rfl⟩ := hl.live_run hx hy hn h₁ h₂
    exact hne (by rw [joined_block hu hr hg ht])
  · intro p n g hp hg hga
    simp only [List.mem_filter, decide_eq_true_eq] at hp
    rw [List.mem_singleton.1 hg] at hga
    simp only at hga
    obtain ⟨g', hg', ht, hga'⟩ := hl.live_run hx hy hp.1 (by omega) (by omega)
    exact absurd (by rw [← hga', joined_block hu hr hg' ht]) hp.2

end Join

theorem unifyLeft_add (header footer : Nat) (m : Bytes) :
    (unifyLeft header footer m).2.2 = !leftHole m header := by
  unfold unifyLeft
  split
  · next h => rw [h]; rfl
  · next h => rw [Bool.eq_false_iff.2 h]; rfl

theorem unifyLeft_header (header footer : Nat) (m : Bytes) :
    (unifyLeft header footer m).2.1 =
      if leftHole m header then hdrAt m (sub32 header 8) else header := by
  unfold unifyLeft
  split <;> rfl

/-- The index at the end of `free`: without the right hole, and with the header of
the joined hole. -/
theorem index_join {lefts rights : List (Seg Bool)} {total : Nat} {m : Bytes}
    {index : OrderedArray Nat} (hl : Layout h (xs ++ (lefts ++ [⟨H, s, false⟩] ++ rights) ++ ys))
    (hu : UnifiedLeft h H s lefts size u)
    (hr : UnifiedRight h u.2.1 (H + s) size rights total m index) (lessThan : Nat → Nat → Bool)
    {index' : OrderedArray Nat}
    (heq : index' = if u.2.2 then index.insert lessThan u.2.1 else index) :
    index'.toList.Nodup ∧ ∀ c, c ∈ index'.toList ↔
      c = u.2.1 ∨ (c ∈ h.index.toList ∧ ∀ g ∈ rights, g.addr ≠ c) := by
  have hBb := hl.bounds (g := ⟨H, s, false⟩) (by simp)
  simp only at hBb
  obtain ⟨hnodup, hmem⟩ := hr.index_spec hl.index_nodup
  subst heq
  rcases hu.lefts with ⟨hadd, -, hH⟩ | ⟨hadd, sl, rfl, -, hH⟩
  · rw [hadd]
    simp only [if_true]
    refine ⟨OrderedArray.nodup_toList_insert.2 ⟨fun hc => ?_, hnodup⟩, fun c => ?_⟩
    · -- the header was that of a block
      obtain ⟨g, hg, ht, ha⟩ := (hl.mem_index _).1 ((hmem _).1 hc).1
      have := hl.eq_of_addr hg (show (⟨H, s, false⟩ : Seg Bool) ∈ _ by simp) (ha.trans hH)
      rw [this] at ht
      cases ht
    · rw [OrderedArray.mem_toList_insert, hmem]
  · rw [hadd]
    simp only [Bool.false_eq_true, if_false]
    refine ⟨hnodup, fun c => ?_⟩
    rw [hmem]
    refine ⟨.inr, ?_⟩
    rintro (rfl | hc)
    · -- the left hole was in the index, and it is not the right one
      refine ⟨(hl.mem_index _).2 ⟨⟨u.2.1, sl, true⟩, by simp, rfl, rfl⟩, fun g hg => ?_⟩
      rcases hr.rights with ⟨rfl, -⟩ | ⟨sr, i, rfl, -⟩
      · cases hg
      · rw [List.mem_singleton.1 hg]
        simp only
        omega
    · exact hc

/-! ## The end of the heap -/

/-- The new length is the one asked for, or `HEAP_MIN_SIZE`. -/
theorem contractSize_eq (n : Nat) :
    contractSize n = if n / 4096 % 2 = 0 ∧ heapMinSize ≤ n then n else heapMinSize := by
  unfold contractSize
  rw [and_bit12]
  rcases Nat.mod_two_eq_zero_or_one (n / 4096) with hbit | hbit
  · simp only [hbit, Nat.zero_mul, ne_eq, not_true, if_false, true_and]
    by_cases hmin : heapMinSize ≤ n
    · rw [if_neg (Nat.not_lt.2 hmin), if_pos hmin]
    · rw [if_pos (Nat.lt_of_not_le hmin), if_neg hmin]
  · -- the bit alone, rounded up, is below the minimum
    have hone : 1 * 0x1000 ≠ 0 := by decide
    simp only [hbit, if_pos hone, one_ne_zero, false_and, if_false]
    exact if_pos (by decide)

theorem contractSize_of_lt {n : Nat} (h : n < heapMinSize) : contractSize n = heapMinSize := by
  rw [contractSize_eq, if_neg fun hn => Nat.not_le.2 h hn.2]

theorem contract_eq {newSize : Nat} {k : Kernel} {r : Nat × Kernel}
    (h : contract newSize k = some r) :
    ∃ vmem, r = (contractSize newSize,
      { heap := { k.heap with endAddress := add32 k.heap.startAddress (contractSize newSize) },
        vmem }) := by
  unfold contract at h
  simp only at h
  split at h
  · obtain ⟨vmem, -, rfl⟩ := Option.map_eq_some_iff.1 h
    exact ⟨vmem, rfl⟩
  · cases h

/-- What `free` does after `contract` when some of the hole is left. -/
theorem shrink_resize {header testHeader newLength : Nat} {k k₁ : Kernel}
    (hc : contract (sub32 header k.heap.startAddress) k = some (newLength, k₁))
    (hsize : sub32 (sizeAt k₁.heap.mem header) (sub32 k.heap.length newLength) = size)
    (hpos : size > 0) :
    shrink header testHeader k = some { k₁ with heap := { k₁.heap with
      mem := putFooter (putSize k₁.heap.mem header size) (sub32 (add32 header size) 8)
        header } } := by
  unfold shrink
  rw [hc]
  simp only [Option.map_some, hsize, hpos, if_true]

/-- A hole that reaches the end and begins early enough ends with the first
`HEAP_MIN_SIZE` bytes. -/
theorem shrink_spec {header total testHeader : Nat} {k k' : Kernel}
    (hheader : HeaderAt k.heap.mem ⟨header, total, true⟩)
    (hend : header + total = k.heap.endAddress) (hlt : k.heap.endAddress < 4294967296)
    (hstart : k.heap.startAddress ≤ header)
    (hmin : header + 20 ≤ k.heap.startAddress + heapMinSize)
    (hmax : k.heap.startAddress + heapMinSize < 4294967296)
    (hs : shrink header testHeader k = some k') :
    ∃ m vmem, k' = { heap := { k.heap with
        mem := m, endAddress := k.heap.startAddress + heapMinSize }, vmem } ∧
      AgreeOff header (k.heap.startAddress + heapMinSize) k.heap.mem m ∧
      HeaderAt m ⟨header, k.heap.startAddress + heapMinSize - header, true⟩ := by
  have hlen : k.heap.length = k.heap.endAddress - k.heap.startAddress := sub32_eq (by omega) hlt
  have hn : sub32 header k.heap.startAddress = header - k.heap.startAddress :=
    sub32_eq hstart (by omega)
  have hc : contractSize (sub32 header k.heap.startAddress) = heapMinSize := by
    rw [hn]
    exact contractSize_of_lt (by omega)
  obtain ⟨r, hr, -⟩ := Option.map_eq_some_iff.1 hs
  obtain ⟨vmem, rfl⟩ := contract_eq hr
  rw [hc, add32_eq hmax] at hr
  have hsz : sizeAt k.heap.mem header = total := hheader.2.2
  generalize heapMinSize = min at hmin hmax hr ⊢
  have hsize : sub32 (sizeAt k.heap.mem header) (sub32 k.heap.length min) =
      k.heap.startAddress + min - header := by
    rw [hsz, hlen]
    unfold sub32
    omega
  have hfooter : sub32 (add32 header (k.heap.startAddress + min - header)) 8 =
      k.heap.startAddress + min - 8 := by
    rw [add32_eq (by omega), sub32_eq (by omega) (by omega)]
    omega
  rw [shrink_resize hr hsize (by omega), hfooter] at hs
  have hput := putSize_agree k.heap.mem header (k.heap.startAddress + min - header)
  have hfoot := putFooter_agree (putSize k.heap.mem header (k.heap.startAddress + min - header))
    (k.heap.startAddress + min - 8) header
  refine ⟨_, vmem, (Option.some.inj hs).symm, ?_, ?_⟩
  · exact (hput.mono (by omega) (by omega)).trans (hfoot.mono (by omega) (by omega))
  · exact (hheader.putSize (by omega)).agree hfoot (by simp only; omega)

/-! ## The whole call -/

theorem sub32_header (H : Nat) (h : H + 12 < 4294967296) : sub32 (H + 12) 12 = H := by
  rw [sub32_eq (by omega) h]
  omega

theorem free_eq {vmem : VirtualMemory} (hend : H + s < 4294967296) (hs : 20 ≤ s)
    (hB : HeaderAt h.mem ⟨H, s, false⟩) (hu : u = unifyLeft H (H + s - 8) (marked (H + 12) h)) :
    free (H + 12) ⟨h, vmem⟩ =
      if magicAt h.mem (H + s - 8) = heapMagic then
        (unifyRight u.2.1 (H + s - 8)
          { h with
            mem := u.1
            live := h.live.filter fun e => decide (e.1 ≠ H + 12) }).bind fun r =>
          (if add32 r.2 8 = r.1.endAddress then shrink u.2.1 (H + s) ⟨r.1, vmem⟩
            else some ⟨r.1, vmem⟩).map fun k =>
              if u.2.2 then { k with heap := k.heap.indexInsert u.2.1 } else k
      else none := by
  have hheader := sub32_header H (by omega)
  have hsize : sizeAt h.mem H = s := hB.2.2
  have hmagic : magicAt h.mem H = heapMagic := hB.1
  have hfooter : sub32 (add32 H s) 8 = H + s - 8 := by
    rw [add32_eq hend, sub32_eq (by omega) hend]
  have htest : add32 (H + s - 8) 8 = H + s := by
    rw [add32_eq (by omega)]
    omega
  have hmarked : h.mem.write8 (H + 4) 1 = marked (H + 12) h := by
    unfold marked
    rw [hheader]
  unfold free
  rw [if_neg (by omega)]
  simp only [hheader, hsize, hfooter, htest, hmarked, hmagic, true_and, ← hu]

theorem unifyRight_block {lefts : List (Seg Bool)}
    (hl : Layout h (xs ++ (lefts ++ [⟨H, s, false⟩]) ++ ys)) (hu : UnifiedLeft h H s lefts size u)
    {live : List (Nat × Nat)} {r : Heap × Nat}
    (hr : unifyRight u.2.1 (H + s - 8) { h with mem := u.1, live } = some r) :
    ∃ rights ys' total m index, ys = rights ++ ys' ∧ r.1 = { h with mem := m, live, index } ∧
      add32 r.2 8 = u.2.1 + total ∧
      UnifiedRight h u.2.1 (H + s) size rights total m index ∧ (rights = [] → m = u.1) := by
  have hB := hl.bounds (g := ⟨H, s, false⟩) (by simp)
  simp only at hB
  obtain ⟨a, b, hx, hmid, hy⟩ := hl.run
  obtain ⟨b', -, hBt⟩ := tiles_append.1 hmid
  obtain ⟨ha', -, hb'⟩ := tiles_singleton.1 hBt
  simp only at ha' hb'
  subst ha' hb'
  have hends := hu.ends
  have hge := hu.header_le
  obtain ⟨rights, ys, total, m, index, rfl, rfl, hright, hmem⟩ :=
    unifyRight_spec hl hy hu.ends (by omega) hu.mem hu.header hr
  have htotal : size ≤ total := by
    rcases hright.rights with ⟨-, rfl, -⟩ | ⟨sr, i, -, rfl, -⟩ <;> omega
  have hle : u.2.1 + total ≤ h.endAddress := by
    rcases hright.rights with ⟨-, rfl, -⟩ | ⟨sr, i, rfl, rfl, -⟩
    · omega
    · have := hl.bounds (g := ⟨H + s, sr, true⟩) (by simp)
      simp only at this
      omega
  refine ⟨rights, ys, total, m, index, rfl, rfl, ?_, hright, hmem⟩
  rw [add32_eq (by simp only; omega)]
  simp only
  omega

theorem hole_bounds {total : Nat} {lefts rights : List (Seg Bool)} {m : Bytes}
    {index : OrderedArray Nat} (hB : HeaderAt h.mem ⟨H, s, false⟩) (hs : 20 ≤ s)
    (hend : H + s < 4294967296) (heq : u = unifyLeft H (H + s - 8) (marked (H + 12) h))
    (hu : UnifiedLeft h H s lefts size u)
    (hr : UnifiedRight h u.2.1 (H + s) size rights total m index)
    (hright : ∀ g ∈ rights, HeaderAt h.mem g) :
    footerOf (H + 12) h = H + s - 8 ∧ holeStart (H + 12) h = u.2.1 ∧
      holeEnd (H + 12) h = u.2.1 + total := by
  have hheader := sub32_header H (by omega)
  have hsize : sizeAt h.mem H = s := hB.2.2
  have hfooter : footerOf (H + 12) h = H + s - 8 := by
    unfold footerOf
    rw [hheader, hsize, add32_eq hend, sub32_eq (by omega) hend]
  have hnext : add32 (H + s - 8) 8 = H + s := by
    rw [add32_eq (by omega)]
    omega
  have hends := hu.ends
  refine ⟨hfooter, ?_, ?_⟩
  · unfold holeStart
    rw [heq, unifyLeft_header, hheader]
  · unfold holeEnd
    simp only [hfooter, hnext]
    rcases hr.rights with ⟨-, rfl, -, hno⟩ | ⟨sr, i, rfl, rfl, -, -, -, hyes⟩
    · rw [hno]
      simp only [Bool.false_eq_true, if_false]
      omega
    · have hsr : sizeAt h.mem (H + s) = sr := (hright _ List.mem_cons_self).2.2
      rw [hyes, hsr]
      simp only [if_true]
      omega

/-- The parts of a call of `free`: what is joined on the left and on the right, and
the heap `k₁` after the end was given back, if the hole reaches it. -/
theorem free_cases {vmem : VirtualMemory} {k' : Kernel} {gs : List (Seg Bool)} (hl : Layout h gs)
    (hB : (⟨H, s, false⟩ : Seg Bool) ∈ gs) (hleft : LeftOk (H + 12) h)
    (hf : free (H + 12) ⟨h, vmem⟩ = some k') :
    ∃ u xs lefts rights ys size total m index k₁,
      u = unifyLeft H (H + s - 8) (marked (H + 12) h) ∧
      gs = xs ++ (lefts ++ [⟨H, s, false⟩] ++ rights) ++ ys ∧
      UnifiedLeft h H s lefts size u ∧
      UnifiedRight h u.2.1 (H + s) size rights total m index ∧
      (rights = [] → m = u.1) ∧
      (footerOf (H + 12) h = H + s - 8 ∧ holeStart (H + 12) h = u.2.1 ∧
        holeEnd (H + 12) h = u.2.1 + total) ∧
      (if u.2.1 + total = h.endAddress then
        shrink u.2.1 (H + s)
          ⟨{ h with
              mem := m
              live := h.live.filter fun e => decide (e.1 ≠ H + 12)
              index }, vmem⟩
        else some
          ⟨{ h with
              mem := m
              live := h.live.filter fun e => decide (e.1 ≠ H + 12)
              index }, vmem⟩) = some k₁ ∧
      k' = if u.2.2 then { k₁ with heap := k₁.heap.indexInsert u.2.1 } else k₁ := by
  have hb := hl.bounds hB
  simp only at hb
  obtain ⟨u, heq⟩ : ∃ u, u = unifyLeft H (H + s - 8) (marked (H + 12) h) := ⟨_, rfl⟩
  rw [free_eq (by omega) hb.2.1 (hl.header _ hB) heq] at hf
  obtain ⟨xs, lefts, ys, size, rfl, hu⟩ := unifyLeft_spec hl (sub32_header H (by omega)) hB hleft
  rw [← heq] at hu
  split at hf
  case isFalse => cases hf
  obtain ⟨r, hr, hf⟩ := Option.bind_eq_some_iff.1 hf
  obtain ⟨k₁, hk₁, hk'⟩ := Option.map_eq_some_iff.1 hf
  obtain ⟨rights, ys, total, m, index, rfl, hr₁, hr₂, hright, hmem⟩ := unifyRight_block hl hu hr
  rw [hr₂, hr₁] at hk₁
  have hbounds := hole_bounds (hl.header _ hB) hb.2.1 (by omega) heq hu hright
    fun g hg => hl.header g (by simp [hg])
  exact ⟨u, xs, lefts, rights, ys, size, total, m, index, k₁, heq, by simp, hu, hright, hmem,
    hbounds, hk₁, hk'.symm⟩

theorem free_join {total : Nat} {lefts rights : List (Seg Bool)} {m : Bytes}
    {index : OrderedArray Nat} (hl : Layout h (xs ++ (lefts ++ [⟨H, s, false⟩] ++ rights) ++ ys))
    (hu : UnifiedLeft h H s lefts size u)
    (hr : UnifiedRight h u.2.1 (H + s) size rights total m index) (lessThan : Nat → Nat → Bool) :
    Layout
      { h with
        mem := m
        live := h.live.filter fun e => decide (e.1 ≠ H + 12)
        index := if u.2.2 then index.insert lessThan u.2.1 else index }
      (xs ++ [⟨u.2.1, total, true⟩] ++ ys) := by
  obtain ⟨hnodup, hmem⟩ := index_join hl hu hr lessThan rfl
  exact layout_join hl hu hr hnodup hmem

/-- A call of `free` that meets the conditions keeps the layout and the start of the heap, and
leaves the end where it is or `HEAP_MIN_SIZE` bytes behind the start. -/
theorem free_layout {p n : Nat} {vmem : VirtualMemory} {k' : Kernel} {gs : List (Seg Bool)}
    (hl : Layout h gs) (hp : (p, n) ∈ h.live) (hok : FreeOk p h) (hf : free p ⟨h, vmem⟩ = some k') :
    (∃ gs', Layout k'.heap gs') ∧ k'.heap.startAddress = h.startAddress ∧
      (k'.heap.endAddress = h.endAddress ∨
        k'.heap.endAddress = h.startAddress + heapMinSize) := by
  obtain ⟨⟨H, s, tag⟩, hB, rfl, rfl, -⟩ := hl.of_live hp
  simp only at hok hf hp
  have hb := hl.bounds hB
  simp only at hb
  obtain ⟨hleft, -, hcut⟩ := hok
  obtain ⟨u, xs, lefts, rights, ys, size, total, m, index, k₁, heq, rfl, hu, hr, -,
    ⟨-, hstart, hend⟩, hk₁, rfl⟩ := free_cases hl hB hleft hf
  rw [hstart, hend] at hcut
  have hjoin := free_join hl hu hr
  split at hk₁
  · next hreach =>
    have hbounds := (hjoin fun _ _ => true).bounds (g := ⟨u.2.1, total, true⟩) (by simp)
    simp only at hbounds
    obtain ⟨hmin, hmax⟩ := hcut hreach
    obtain ⟨m', vmem', rfl, hagree, hheader⟩ :=
      shrink_spec hr.header hreach hl.end_lt hbounds.1 hmin hmax hk₁
    have hlast := (hjoin (headerLessThan m')).resizeLast hreach hmin hmax hagree hheader
    generalize u.2.2 = add at hlast ⊢
    cases add <;> exact ⟨⟨_, hlast⟩, rfl, .inr rfl⟩
  · obtain rfl := Option.some.inj hk₁
    have hjoined := hjoin (headerLessThan m)
    generalize u.2.2 = add at hjoined ⊢
    cases add <;> exact ⟨⟨_, hjoined⟩, rfl, .inl rfl⟩

end Kernel

end Ulysses
