import Ulysses.KHeap.Layout

/-!
# Allocating from a hole

What `alloc` does with the hole that `find_smallest_hole` found: an optional hole
in front for page-aligned data, the block, and an optional hole behind it. The
pieces tile the hole when each hole among them has at least 20 bytes. For data
without alignment the code sees to that itself. For page-aligned data it does
not: the hole in front may have any size from 0 up, or a size that wraps below 0,
and a rest too small for a hole is added to the block as if there were nothing in
front. `CarveOk` excludes just that.
-/

namespace Ulysses

open Lib Bytes

namespace Heap

/-! ## The block and the hole behind it -/

/-- The segments that a block of `newSize` bytes in `holeSize` bytes leaves. -/
def placed (pos newSize holeSize : Nat) : List (Seg Bool) :=
  ⟨pos, newSize, false⟩ ::
    if holeSize > newSize then [⟨pos + newSize, holeSize - newSize, true⟩] else []

/-- What `place` did: it wrote the segments `placed` and nothing outside them. -/
structure Placed (pos newSize holeSize requested : Nat) (h : Heap) (r : Nat × Heap) : Prop where
  ptr : r.1 = pos + 12
  start : r.2.startAddress = h.startAddress
  endAddress : r.2.endAddress = h.endAddress
  live : r.2.live = (pos + 12, requested) :: h.live
  mem : AgreeOff pos (pos + holeSize) h.mem r.2.mem
  header : ∀ g ∈ placed pos newSize holeSize, HeaderAt r.2.mem g
  footer : ∀ g ∈ placed pos newSize holeSize, FooterAt r.2.mem g
  index : ∃ lessThan, r.2.index =
    if holeSize > newSize then h.index.insert lessThan (pos + newSize) else h.index

variable {newSize pos : Nat}

theorem putBlock_spec {size : Nat} {h : Heap} (hn : newSize = size + 20)
    (hb : pos + newSize < 4294967296) :
    AgreeOff pos (pos + newSize) h.mem (h.putBlock pos size newSize).mem ∧
      HeaderAt (h.putBlock pos size newSize).mem ⟨pos, newSize, false⟩ ∧
      FooterAt (h.putBlock pos size newSize).mem ⟨pos, newSize, false⟩ := by
  have hf : add32 (add32 pos 12) size = pos + newSize - 8 := by
    unfold add32
    omega
  have hheader : HeaderAt (putHeader h.mem pos 0 newSize) ⟨pos, newSize, false⟩ :=
    headerAt_putHeader h.mem pos false (by omega)
  have hfooter := putFooter_agree (putHeader h.mem pos 0 newSize) (pos + newSize - 8) pos
  unfold putBlock
  simp only [hf]
  refine ⟨?_, ?_, ?_⟩
  · exact ((putHeader_agree h.mem pos 0 newSize).mono (Nat.le_refl _) (by omega)).trans
      (hfooter.mono (by omega) (by omega))
  · exact hheader.agree hfooter (by simp only; omega)
  · exact footerAt_putFooter _ (g := ⟨pos, newSize, false⟩) (by simp only; omega) rfl

theorem putTail_frame (pos size newSize holeSize : Nat) (h : Heap) :
    (h.putTail pos size newSize holeSize).startAddress = h.startAddress ∧
      (h.putTail pos size newSize holeSize).endAddress = h.endAddress ∧
      (h.putTail pos size newSize holeSize).live = h.live := by
  obtain ⟨m, header, heq⟩ : ∃ m header, h.putTail pos size newSize holeSize =
      if holeSize > newSize then { h with mem := m }.indexInsert header else h := ⟨_, _, rfl⟩
  rw [heq]
  split
  · exact ⟨rfl, rfl, rfl⟩
  · exact ⟨rfl, rfl, rfl⟩

theorem putTail_spec {size holeSize : Nat} {h : Heap} (hn : newSize = size + 20)
    (hs : newSize + 20 ≤ holeSize) (hb : pos + holeSize ≤ h.endAddress)
    (he : h.endAddress < 4294967296) :
    AgreeOff (pos + newSize) (pos + holeSize) h.mem (h.putTail pos size newSize holeSize).mem ∧
      HeaderAt (h.putTail pos size newSize holeSize).mem
        ⟨pos + newSize, holeSize - newSize, true⟩ ∧
      FooterAt (h.putTail pos size newSize holeSize).mem
        ⟨pos + newSize, holeSize - newSize, true⟩ ∧
      ∃ lessThan, (h.putTail pos size newSize holeSize).index =
        h.index.insert lessThan (pos + newSize) := by
  have hhdr : add32 (add32 (add32 pos 12) size) 8 = pos + newSize := by
    unfold add32
    omega
  have hftr : sub32 (sub32 (add32 (pos + newSize) holeSize) newSize) 8 = pos + holeSize - 8 := by
    unfold add32 sub32
    omega
  have hsz : sub32 holeSize newSize = holeSize - newSize := sub32_eq (by omega) (by omega)
  have hheader : HeaderAt (putHeader h.mem (pos + newSize) 1 (holeSize - newSize))
      ⟨pos + newSize, holeSize - newSize, true⟩ :=
    headerAt_putHeader h.mem (pos + newSize) true (by omega)
  have hfooter := putFooter_agree (putHeader h.mem (pos + newSize) 1 (holeSize - newSize))
    (pos + holeSize - 8) (pos + newSize)
  unfold putTail
  simp only [show holeSize > newSize by omega, if_true, hhdr, hftr, hsz, indexInsert,
    show pos + holeSize - 8 < h.endAddress by omega]
  refine ⟨?_, ?_, ?_, _, rfl⟩
  · exact ((putHeader_agree h.mem (pos + newSize) 1 (holeSize - newSize)).mono (Nat.le_refl _)
      (by omega)).trans (hfooter.mono (by omega) (by omega))
  · exact hheader.agree hfooter (by simp only; omega)
  · exact footerAt_putFooter _ (g := ⟨pos + newSize, holeSize - newSize, true⟩)
      (by simp only; omega) (by simp only; omega)

theorem place_spec {size holeSize requested : Nat} {h : Heap} (hn : newSize = size + 20)
    (hs : newSize = holeSize ∨ newSize + 20 ≤ holeSize) (hb : pos + holeSize ≤ h.endAddress)
    (he : h.endAddress < 4294967296) :
    Placed pos newSize holeSize requested h (h.place pos size newSize holeSize requested) := by
  obtain ⟨hbm, hbh, hbf⟩ := putBlock_spec (h := h) hn (by omega : pos + newSize < 4294967296)
  obtain ⟨hstart, hend, hlive⟩ :=
    putTail_frame pos size newSize holeSize (h.putBlock pos size newSize)
  have hptr : add32 pos 12 = pos + 12 := add32_eq (by omega)
  rcases hs with heq | hlt
  · -- the block takes the whole hole
    have hno : ¬ holeSize > newSize := by omega
    have htail : (h.putBlock pos size newSize).putTail pos size newSize holeSize =
        h.putBlock pos size newSize := by
      unfold putTail
      rw [if_neg hno]
    refine ⟨hptr, hstart, hend, ?_, ?_, ?_, ?_, fun _ _ => true, ?_⟩ <;>
      simp only [place, htail, placed, if_neg hno, List.mem_singleton]
    · rw [hptr]
      rfl
    · exact heq ▸ hbm
    · rintro g rfl
      exact hbh
    · rintro g rfl
      exact hbf
    · exact rfl
  · have hyes : holeSize > newSize := by omega
    obtain ⟨htm, hth, htf, lessThan, hti⟩ :=
      putTail_spec (h := h.putBlock pos size newSize) hn hlt hb he
    refine ⟨hptr, hstart, hend, ?_, ?_, ?_, ?_, lessThan, ?_⟩ <;>
      simp only [place, placed, if_pos hyes, List.mem_cons, List.not_mem_nil, or_false]
    · rw [hptr, hlive]
      rfl
    · exact (hbm.mono (Nat.le_refl _) (by omega)).trans (htm.mono (by omega) (Nat.le_refl _))
    · rintro g (rfl | rfl)
      · exact hbh.agree htm (by simp only; omega)
      · exact hth
    · rintro g (rfl | rfl)
      · exact hbf.agree htm (by simp only; omega) (by simp only; omega)
      · exact htf
    · exact hti

theorem tiles_placed (pos : Nat) {holeSize : Nat} (h20 : 20 ≤ newSize)
    (hs : newSize = holeSize ∨ newSize + 20 ≤ holeSize) :
    Tiles 20 pos (placed pos newSize holeSize) (pos + holeSize) := by
  unfold placed
  split
  · refine ⟨rfl, h20, rfl, ?_, ?_⟩
    · simp only
      omega
    · simp only [tiles_nil]
      omega
  · refine ⟨rfl, h20, ?_⟩
    simp only [tiles_nil]
    omega

/-- The block is the first of the segments and the one that is not a hole. -/
theorem eq_block_of_placed {holeSize : Nat} {g : Seg Bool} (hg : g ∈ placed pos newSize holeSize)
    (hpos : 0 < newSize) (hblock : g.tag = false ∨ g.addr = pos) : g = ⟨pos, newSize, false⟩ := by
  unfold placed at hg
  rcases List.mem_cons.1 hg with rfl | hg
  · rfl
  · split at hg
    · obtain rfl := List.mem_singleton.1 hg
      simp only [Bool.true_eq_false, false_or] at hblock
      omega
    · cases hg

namespace Placed

variable {pos newSize holeSize requested : Nat} {h : Heap} {r : Nat × Heap}

theorem mem_index (hp : Placed pos newSize holeSize requested h r) (c : Nat) :
    c ∈ r.2.index.toList ↔ c ∈ h.index.toList ∨
      ∃ g ∈ placed pos newSize holeSize, g.tag = true ∧ g.addr = c := by
  obtain ⟨lessThan, hi⟩ := hp.index
  rw [hi]
  unfold placed
  split
  · rw [OrderedArray.mem_toList_insert]
    simp only [List.mem_cons, List.not_mem_nil, or_false, exists_eq_or_imp, Bool.false_eq_true,
      false_and, exists_eq_left, true_and, false_or]
    exact ⟨fun hc => hc.symm.imp id Eq.symm, fun hc => (hc.imp id Eq.symm).symm⟩
  · simp

theorem index_nodup (hp : Placed pos newSize holeSize requested h r)
    (hnodup : h.index.toList.Nodup)
    (hnew : holeSize > newSize → pos + newSize ∉ h.index.toList) : r.2.index.toList.Nodup := by
  obtain ⟨lessThan, hi⟩ := hp.index
  rw [hi]
  split
  · next hgt => exact OrderedArray.nodup_toList_insert.2 ⟨hnew hgt, hnodup⟩
  · exact hnodup

end Placed

/-! ## The hole in front of page-aligned data -/

theorem frontSize_eq (h : pos % 4096 ≤ 4084) : frontSize pos = 4084 - pos % 4096 := by
  unfold frontSize
  rw [and_pageOffset]
  unfold sub32
  omega

theorem frontEnd_eq (h : pos % 4096 ≤ 4084) (hb : pos + frontSize pos < 4294967296) :
    frontEnd pos = pos + frontSize pos := by
  rw [frontSize_eq h] at hb ⊢
  unfold frontEnd
  rw [and_pageOffset]
  unfold sub32 add32
  omega

theorem carveFront_spec {h : Heap} (ht : pos % 4096 ≤ 4064)
    (hb : pos + frontSize pos < 4294967296) :
    ∃ m, h.carveFront pos = { h with mem := m } ∧
      AgreeOff pos (pos + frontSize pos) h.mem m ∧ HeaderAt m ⟨pos, frontSize pos, true⟩ ∧
      FooterAt m ⟨pos, frontSize pos, true⟩ := by
  have h20 : 20 ≤ frontSize pos := by
    rw [frontSize_eq (by omega)]
    omega
  have hf : sub32 (frontEnd pos) 8 = pos + frontSize pos - 8 := by
    rw [frontEnd_eq (by omega) hb, sub32_eq (by omega) hb]
  have hheader : HeaderAt (putHeader h.mem pos 1 (frontSize pos)) ⟨pos, frontSize pos, true⟩ :=
    headerAt_putHeader h.mem pos true (by omega)
  have hfooter := putFooter_agree (putHeader h.mem pos 1 (frontSize pos))
    (pos + frontSize pos - 8) pos
  refine ⟨putFooter (putHeader h.mem pos 1 (frontSize pos)) (pos + frontSize pos - 8) pos,
    ?_, ?_, ?_, ?_⟩
  · unfold carveFront
    rw [hf]
  · exact ((putHeader_agree h.mem pos 1 (frontSize pos)).mono (Nat.le_refl _) (by omega)).trans
      (hfooter.mono (by omega) (by omega))
  · exact hheader.agree hfooter (by simp only; omega)
  · exact footerAt_putFooter _ (g := ⟨pos, frontSize pos, true⟩) (by simp only; omega) rfl

/-- The data has to be moved to a page boundary. -/
def Moves (pageAlign : Bool) (pos : Nat) : Prop := pageAlign = true ∧ pos &&& 0xFFFFF000 ≠ 0

/-- The condition for page-aligned data in a hole of `holeSize` bytes at `pos`: the
hole in front has at least 20 bytes, and what is behind the block is nothing or a
hole of at least 20 bytes. -/
def CarveFits (size pos holeSize : Nat) : Prop :=
  pos % 4096 ≤ 4064 ∧
    (frontSize pos + size + 20 = holeSize ∨ frontSize pos + size + 40 ≤ holeSize)

def CarveOk (size pos : Nat) (h : Heap) : Prop := CarveFits size pos (sizeAt h.mem pos)

/-! ## From the hole to its pieces -/

/-- What `allocFrom` returns, in terms of `place`. -/
theorem allocFrom_cases {iterator size : Nat} {pageAlign : Bool} {h : Heap} {r : Nat × Heap}
    (hsize : size + 20 < 4294967296) (ha : h.allocFrom iterator size pageAlign = some r) :
    ∃ pos size' newSize, h.index.lookup iterator = some pos ∧ size + 20 ≤ sizeAt h.mem pos ∧
      newSize = size' + 20 ∧
      ((sizeAt h.mem pos < size + 40 ∧ newSize = sizeAt h.mem pos) ∨
        (size + 40 ≤ sizeAt h.mem pos ∧ newSize = size + 20)) ∧
      ((¬ Moves pageAlign pos ∧
          r = (h.indexRemove iterator).place pos size' newSize (sizeAt h.mem pos) size) ∨
        (Moves pageAlign pos ∧
          r = (h.carveFront pos).place (frontEnd pos) size' newSize
            (sub32 (sizeAt h.mem pos) (sizeAt (h.carveFront pos).mem pos)) size)) := by
  obtain ⟨pos, hpos, ha⟩ := Option.bind_eq_some_iff.1 ha
  have hlt : sizeAt h.mem pos < 4294967296 := read32_lt _ _
  have hnew : add32 (add32 size 12) 8 = size + 20 := by
    unfold add32
    omega
  simp only [hnew] at ha
  split at ha
  · next hge =>
    have hsub : sub32 (sizeAt h.mem pos) (size + 20) = sizeAt h.mem pos - (size + 20) :=
      sub32_eq hge hlt
    rw [hsub] at ha
    have hfit : ∃ size' newSize, newSize = size' + 20 ∧
        ((sizeAt h.mem pos < size + 40 ∧ newSize = sizeAt h.mem pos) ∨
          (size + 40 ≤ sizeAt h.mem pos ∧ newSize = size + 20)) ∧
        size' = (if sizeAt h.mem pos - (size + 20) < 20 then
          add32 size (sizeAt h.mem pos - (size + 20)) else size) ∧
        newSize = if sizeAt h.mem pos - (size + 20) < 20 then sizeAt h.mem pos else size + 20 := by
      by_cases hall : sizeAt h.mem pos - (size + 20) < 20
      · have hadd : add32 size (sizeAt h.mem pos - (size + 20)) = sizeAt h.mem pos - 20 := by
          rw [add32_eq (by omega)]
          omega
        exact ⟨sizeAt h.mem pos - 20, sizeAt h.mem pos, by omega, .inl ⟨by omega, rfl⟩,
          by rw [if_pos hall, hadd], by rw [if_pos hall]⟩
      · exact ⟨size, size + 20, rfl, .inr ⟨by omega, rfl⟩, by rw [if_neg hall],
          by rw [if_neg hall]⟩
    obtain ⟨size', newSize, hn, hcase, hs', hn'⟩ := hfit
    rw [← hs', ← hn'] at ha
    refine ⟨pos, size', newSize, hpos, hge, hn, hcase, ?_⟩
    split at ha
    · next hmove =>
      split at ha
      · exact .inr ⟨hmove, (Option.some.inj ha).symm⟩
      · cases ha
    · next hmove => exact .inl ⟨hmove, (Option.some.inj ha).symm⟩
  · cases ha

theorem place_frame (pos size newSize holeSize requested : Nat) (h : Heap) :
    (h.place pos size newSize holeSize requested).2.startAddress = h.startAddress ∧
      (h.place pos size newSize holeSize requested).2.endAddress = h.endAddress ∧
      (h.place pos size newSize holeSize requested).2.live =
        ((h.place pos size newSize holeSize requested).1, requested) :: h.live := by
  obtain ⟨hstart, hend, hlive⟩ :=
    putTail_frame pos size newSize holeSize (h.putBlock pos size newSize)
  refine ⟨hstart, hend, ?_⟩
  unfold place
  simp only [hlive]
  rfl

theorem place_fst (pos size newSize holeSize requested : Nat) (h : Heap) :
    (h.place pos size newSize holeSize requested).1 = add32 pos 12 := by
  unfold place
  rfl

theorem carveFront_index (pos : Nat) (h : Heap) : (h.carveFront pos).index = h.index := by
  unfold carveFront
  rfl

theorem putBlock_index (pos size newSize : Nat) (h : Heap) :
    (h.putBlock pos size newSize).index = h.index := by
  unfold putBlock
  rfl

/-- The hole behind the block goes to its place among the sizes in memory then. -/
theorem place_index (pos size newSize holeSize requested : Nat) (h : Heap) :
    (h.place pos size newSize holeSize requested).2.index =
      if holeSize > newSize then
        h.index.insert (headerLessThan (h.place pos size newSize holeSize requested).2.mem)
          (add32 (add32 (add32 pos 12) size) 8)
      else h.index := by
  obtain ⟨m, heq⟩ : ∃ m, (h.putBlock pos size newSize).putTail pos size newSize holeSize =
      if holeSize > newSize then
        { h.putBlock pos size newSize with mem := m }.indexInsert
          (add32 (add32 (add32 pos 12) size) 8)
      else h.putBlock pos size newSize := ⟨_, rfl⟩
  unfold place
  rw [heq]
  split
  · simp only [indexInsert, putBlock_index]
  · exact putBlock_index pos size newSize h

theorem allocFrom_frame {iterator size : Nat} {pageAlign : Bool} {h : Heap} {r : Nat × Heap}
    (ha : h.allocFrom iterator size pageAlign = some r) :
    r.2.startAddress = h.startAddress ∧ r.2.endAddress = h.endAddress ∧
      r.2.live = (r.1, size) :: h.live := by
  obtain ⟨pos, -, ha⟩ := Option.bind_eq_some_iff.1 ha
  simp only at ha
  split at ha
  · split at ha
    · obtain ⟨m, hcarve⟩ : ∃ m, h.carveFront pos = { h with mem := m } := ⟨_, rfl⟩
      rw [hcarve] at ha
      split at ha
      · obtain rfl := Option.some.inj ha
        exact place_frame _ _ _ _ _ _
      · cases ha
    · obtain rfl := Option.some.inj ha
      exact place_frame _ _ _ _ _ _
  · cases ha

end Heap

/-- The heap `h₁` has the holes `front` written from `pos` to `pos'`, and `pos` is in its index
only if `front` lists it: the hole of `h` at `pos` is ready for the block. -/
structure Heap.Fronted (pos pos' : Nat) (front : List (Seg Bool)) (h h₁ : Heap) : Prop where
  tiles : Tiles 20 pos front pos'
  tag : ∀ g ∈ front, g.tag = true
  start : h₁.startAddress = h.startAddress
  endAddress : h₁.endAddress = h.endAddress
  live : h₁.live = h.live
  mem : AgreeOff pos pos' h.mem h₁.mem
  header : ∀ g ∈ front, HeaderAt h₁.mem g
  nodup : h₁.index.toList.Nodup
  mem_index : ∀ c, c ∈ h₁.index.toList ↔
    (c ∈ h.index.toList ∧ c ≠ pos) ∨ ∃ g ∈ front, g.addr = c

section Placed

open Heap

variable {h h₁ : Heap} {r : Nat × Heap} {xs ys front : List (Seg Bool)}
  {pos s pos' newSize holeSize size : Nat}

theorem Heap.Fronted.bounds (hf : Fronted pos pos' front h h₁) :
    ∀ g ∈ front, pos ≤ g.addr ∧ g.addr < pos' := by
  intro g hg
  have := hf.tiles.bounds hg
  omega

theorem Heap.Fronted.tiles_append (hf : Fronted pos pos' front h h₁)
    (hsum : pos' + holeSize = pos + s) (h20 : 20 ≤ newSize)
    (hs : newSize = holeSize ∨ newSize + 20 ≤ holeSize) :
    Tiles 20 pos (front ++ Heap.placed pos' newSize holeSize) (pos + s) := by
  rw [Lib.tiles_append]
  exact ⟨pos', hf.tiles, hsum ▸ tiles_placed pos' h20 hs⟩

/-- The pieces `front`, the block and the hole behind it replace the hole at `pos`. -/
theorem Segments.placed (hg : Segments h (xs ++ [⟨pos, s, true⟩] ++ ys))
    (hf : Fronted pos pos' front h h₁) (hsum : pos' + holeSize = pos + s)
    (hp : Placed pos' newSize holeSize size h₁ r) (hreq : size + 20 ≤ newSize)
    (hs : newSize = holeSize ∨ newSize + 20 ≤ holeSize) :
    Segments r.2 (xs ++ (front ++ Heap.placed pos' newSize holeSize) ++ ys) := by
  obtain ⟨hx, hy⟩ := hg.run_singleton
  simp only at hx hy
  have hpos := hf.tiles.le
  have hb := hg.bounds (g := ⟨pos, s, true⟩) (by simp)
  simp only at hb
  have hpiece := tiles_placed pos' (by omega) hs
  have hfb := hf.bounds
  refine hg.replace (a := pos) (b := pos + s) hx ?_ ?_ ?_ ?_ ?_ ?_ ?_ ?_ ?_ ?_
  · intro g hg
    rw [List.mem_singleton.1 hg]
    exact ⟨Nat.le_refl _, by simp only; omega⟩
  · exact hf.tiles_append hsum (by omega) hs
  · rw [hp.endAddress, hf.endAddress]
    exact hy
  · exact hp.start.trans hf.start
  · rw [hp.endAddress, hf.endAddress]
    exact hg.end_lt
  · exact (hf.mem.mono (Nat.le_refl _) (by omega)).trans (hp.mem.mono hpos (by omega))
  · intro g hg
    rcases List.mem_append.1 hg with hg | hg
    · exact (hf.header g hg).agree hp.mem (.inl (by have := hf.tiles.bounds hg; omega))
    · exact hp.header g hg
  · refine hp.index_nodup hf.nodup fun hgt hc => ?_
    rcases (hf.mem_index _).1 hc with ⟨hc, hne⟩ | ⟨g, hg, heq⟩
    · exact hne (hg.index_hole hc (by omega) (by omega))
    · have := hfb g hg
      omega
  · intro c hc
    rw [hp.mem_index c, hf.mem_index c]
    constructor
    · rintro ((h | ⟨g, hg, rfl⟩) | ⟨g, hg, -, rfl⟩)
      · exact h.1
      · have := hfb g hg
        omega
      · have := hpiece.bounds hg
        omega
    · intro h
      exact .inl (.inl ⟨h, by omega⟩)
  · intro c h₁ h₂
    rw [hp.mem_index c, hf.mem_index c]
    simp only [List.mem_append]
    constructor
    · rintro ((h | ⟨g, hg, rfl⟩) | ⟨g, hg, ht, rfl⟩)
      · exact absurd (hg.index_hole h.1 h₁ h₂) h.2
      · exact ⟨g, .inl hg, hf.tag g hg, rfl⟩
      · exact ⟨g, .inr hg, ht, rfl⟩
    · rintro ⟨g, hg | hg, ht, rfl⟩
      · exact .inl (.inr ⟨g, hg, rfl⟩)
      · exact .inr ⟨g, hg, ht, rfl⟩

theorem Layout.placed (hl : Layout h (xs ++ [⟨pos, s, true⟩] ++ ys))
    (hf : Fronted pos pos' front h h₁) (hsum : pos' + holeSize = pos + s)
    (hp : Placed pos' newSize holeSize size h₁ r) (hreq : size + 20 ≤ newSize)
    (hs : newSize = holeSize ∨ newSize + 20 ≤ holeSize) :
    Layout r.2 (xs ++ (front ++ Heap.placed pos' newSize holeSize) ++ ys) := by
  obtain ⟨hx, hy⟩ := hl.run_singleton
  simp only at hx hy
  have hpos := hf.tiles.le
  have hb := hl.bounds (g := ⟨pos, s, true⟩) (by simp)
  simp only at hb
  have hpiece := tiles_placed pos' (by omega) hs
  have hfb := hf.bounds
  refine hl.of_segments (a := pos) (b := pos + s) hx ?_ ?_ ?_
    (hl.toSegments.placed hf hsum hp hreq hs) ?_ ?_ ?_ ?_
  · intro g hg
    rw [List.mem_singleton.1 hg]
    exact ⟨Nat.le_refl _, by simp only; omega⟩
  · exact hf.tiles_append hsum (by omega) hs
  · rw [hp.endAddress, hf.endAddress]
    exact hy
  · rw [hp.live, hf.live, List.map_cons, List.nodup_cons]
    refine ⟨fun hc => ?_, hl.live_nodup⟩
    obtain ⟨⟨p, n⟩, hpn, hpe⟩ := List.mem_map.1 hc
    simp only at hpe
    exact hl.live_hole (by omega) (by omega) hpn
  · intro p n hpo
    rw [hp.live, hf.live, List.mem_cons, Prod.mk.injEq]
    exact ⟨fun h => h.resolve_left (by omega), .inr⟩
  · intro p h₁ h₂
    rw [hp.live, hf.live]
    constructor
    · rintro ⟨n, hn⟩
      rcases List.mem_cons.1 hn with heq | hn
      · exact ⟨⟨pos', newSize, false⟩, by simp [Heap.placed], rfl, (Prod.mk.inj heq).1.symm⟩
      · exact absurd hn (hl.live_hole h₁ h₂)
    · rintro ⟨g, hg, ht, rfl⟩
      rcases List.mem_append.1 hg with hg | hg
      · rw [hf.tag g hg] at ht
        cases ht
      · rw [eq_block_of_placed hg (by omega) (.inl ht)]
        exact ⟨size, List.mem_cons_self⟩
  · intro p n g hpn hg hga
    have hgb : pos ≤ g.addr ∧ g.addr < pos + s := by
      rcases List.mem_append.1 hg with hg | hg
      · have := hfb g hg
        omega
      · have := hpiece.bounds hg
        omega
    rw [hp.live, hf.live] at hpn
    rcases List.mem_cons.1 hpn with heq | hpn
    · obtain ⟨rfl, rfl⟩ := Prod.mk.inj heq
      have hga : g.addr = pos' := by omega
      rcases List.mem_append.1 hg with hg | hg
      · have := hfb g hg
        omega
      · rw [eq_block_of_placed hg (by omega) (.inr hga)]
        exact hreq
    · exact absurd hpn (hl.live_hole (by omega) (by omega))

theorem Segments.fronted_plain {gs : List (Seg Bool)} (hg : Segments h gs) {iterator : Nat}
    (hpos : h.index.lookup iterator = some pos) :
    Fronted pos pos [] h (h.indexRemove iterator) := by
  obtain ⟨hlt, harr⟩ := OrderedArray.lookup_eq_some.1 hpos
  refine ⟨tiles_nil.2 rfl, by simp, rfl, rfl, rfl, AgreeOff.refl _ _ _, by simp, ?_, ?_⟩
  · exact OrderedArray.nodup_toList_remove hlt hg.index_nodup
  · intro c
    simp only [indexRemove, OrderedArray.mem_toList_remove hlt hg.index_nodup, harr,
      List.not_mem_nil, false_and, exists_false, or_false]

theorem Segments.fronted_moved {gs : List (Seg Bool)} (hg : Segments h gs)
    (hmem : pos ∈ h.index.toList) (hmod : pos % 4096 ≤ 4064)
    (hb : pos + frontSize pos < 4294967296) :
    Fronted pos (pos + frontSize pos) [⟨pos, frontSize pos, true⟩] h (h.carveFront pos) ∧
      (h.carveFront pos).index = h.index ∧
      sizeAt (h.carveFront pos).mem pos = frontSize pos := by
  obtain ⟨m, hcarve, hcm, hch, -⟩ := carveFront_spec (h := h) hmod hb
  have h20 : 20 ≤ frontSize pos := by
    rw [frontSize_eq (by omega)]
    omega
  rw [hcarve]
  refine ⟨⟨⟨rfl, h20, rfl⟩, by simp, rfl, rfl, rfl, hcm, ?_, hg.index_nodup, fun c => ?_⟩, rfl,
    hch.2.2⟩
  · intro g hg
    rw [List.mem_singleton.1 hg]
    exact hch
  · simp only [List.mem_singleton, exists_eq_left]
    constructor
    · intro hc
      by_cases heq : c = pos
      · exact .inr heq.symm
      · exact .inl ⟨hc, heq⟩
    · rintro (hc | rfl)
      · exact hc.1
      · exact hmem

theorem Segments.allocFrom_plain {gs : List (Seg Bool)} (hg : Segments h gs) {iterator : Nat}
    {pageAlign : Bool} (hsize : size + 20 < 4294967296)
    (hpos : h.index.lookup iterator = some pos) (hmove : ¬ Moves pageAlign pos)
    (ha : h.allocFrom iterator size pageAlign = some r) :
    ∃ xs ys newSize, gs = xs ++ [⟨pos, sizeAt h.mem pos, true⟩] ++ ys ∧ size + 20 ≤ newSize ∧
      (newSize = sizeAt h.mem pos ∨ newSize + 20 ≤ sizeAt h.mem pos) ∧
      Placed pos newSize (sizeAt h.mem pos) size (h.indexRemove iterator) r := by
  obtain ⟨pos', size', newSize, hpos', hge, hn, hcase, hr⟩ := allocFrom_cases hsize ha
  obtain rfl := Option.some.inj (hpos.symm.trans hpos')
  have hmem := OrderedArray.mem_toList.2 ⟨iterator, OrderedArray.lookup_eq_some.1 hpos⟩
  have hb := hg.index_bounds hmem
  obtain ⟨xs, ys, rfl⟩ := hg.hole hmem
  have hs : newSize = sizeAt h.mem pos ∨ newSize + 20 ≤ sizeAt h.mem pos := by omega
  rcases hr with ⟨-, rfl⟩ | ⟨hm, -⟩
  · exact ⟨xs, ys, newSize, rfl, by omega, hs, place_spec hn hs hb.2.2.1 hb.2.2.2⟩
  · exact absurd hm hmove

/-- Data that is moved to the next page: a hole stays in front of the block. -/
theorem Segments.allocFrom_moved {gs : List (Seg Bool)} (hg : Segments h gs) {iterator : Nat}
    {pageAlign : Bool} (hsize : size + 20 < 4294967296)
    (hpos : h.index.lookup iterator = some pos) (hmove : Moves pageAlign pos)
    (hok : CarveOk size pos h) (ha : h.allocFrom iterator size pageAlign = some r) :
    ∃ xs ys newSize holeSize, gs = xs ++ [⟨pos, sizeAt h.mem pos, true⟩] ++ ys ∧
      size + 20 ≤ newSize ∧ (newSize = holeSize ∨ newSize + 20 ≤ holeSize) ∧
      pos + frontSize pos + holeSize = pos + sizeAt h.mem pos ∧
      Placed (pos + frontSize pos) newSize holeSize size (h.carveFront pos) r := by
  obtain ⟨pos', size', newSize, hpos', hge, hn, hcase, hr⟩ := allocFrom_cases hsize ha
  obtain rfl := Option.some.inj (hpos.symm.trans hpos')
  obtain ⟨hmod, hfit⟩ := hok
  have hmem := OrderedArray.mem_toList.2 ⟨iterator, OrderedArray.lookup_eq_some.1 hpos⟩
  have hb := hg.index_bounds hmem
  obtain ⟨xs, ys, rfl⟩ := hg.hole hmem
  have hfb : pos + frontSize pos < 4294967296 := by omega
  obtain ⟨hf, -, hcs⟩ := hg.fronted_moved hmem hmod hfb
  have hsub : sub32 (sizeAt h.mem pos) (frontSize pos) = sizeAt h.mem pos - frontSize pos :=
    sub32_eq (by omega) (by omega)
  have h20 : 20 ≤ frontSize pos := by
    rw [frontSize_eq (by omega)]
    omega
  have hs : newSize = sizeAt h.mem pos - frontSize pos ∨
      newSize + 20 ≤ sizeAt h.mem pos - frontSize pos := by omega
  have hsum : pos + frontSize pos + (sizeAt h.mem pos - frontSize pos) =
      pos + sizeAt h.mem pos := by omega
  rcases hr with ⟨hm, -⟩ | ⟨-, hr⟩
  · exact absurd hmove hm
  · rw [frontEnd_eq (by omega) hfb, hcs, hsub] at hr
    refine ⟨xs, ys, newSize, _, rfl, by omega, hs, hsum, ?_⟩
    rw [hr]
    exact place_spec hn hs (by rw [hf.endAddress, hsum]; exact hb.2.2.1)
      (by rw [hf.endAddress]; exact hb.2.2.2)

end Placed

namespace Layout

variable {h : Heap} {r : Nat × Heap}

open Heap

theorem allocFrom_plain {gs : List (Seg Bool)} (hl : Layout h gs) {iterator size pos : Nat}
    {pageAlign : Bool} (hsize : size + 20 < 4294967296)
    (hpos : h.index.lookup iterator = some pos) (hmove : ¬ Moves pageAlign pos)
    (ha : h.allocFrom iterator size pageAlign = some r) :
    ∃ xs ys newSize, gs = xs ++ [⟨pos, sizeAt h.mem pos, true⟩] ++ ys ∧
      (newSize = sizeAt h.mem pos ∨ newSize + 20 ≤ sizeAt h.mem pos) ∧
      Placed pos newSize (sizeAt h.mem pos) size (h.indexRemove iterator) r ∧
      Layout r.2 (xs ++ Heap.placed pos newSize (sizeAt h.mem pos) ++ ys) := by
  obtain ⟨xs, ys, newSize, rfl, hreq, hs, hp⟩ :=
    hl.toSegments.allocFrom_plain hsize hpos hmove ha
  exact ⟨xs, ys, newSize, rfl, hs, hp, hl.placed (hl.fronted_plain hpos) rfl hp hreq hs⟩

theorem allocFrom_moved {gs : List (Seg Bool)} (hl : Layout h gs) {iterator size pos : Nat}
    {pageAlign : Bool} (hsize : size + 20 < 4294967296)
    (hpos : h.index.lookup iterator = some pos) (hmove : Moves pageAlign pos)
    (hok : CarveOk size pos h) (ha : h.allocFrom iterator size pageAlign = some r) :
    ∃ gs', Layout r.2 gs' := by
  obtain ⟨xs, ys, newSize, holeSize, rfl, hreq, hs, hsum, hp⟩ :=
    hl.toSegments.allocFrom_moved hsize hpos hmove hok ha
  have hmem := OrderedArray.mem_toList.2 ⟨iterator, OrderedArray.lookup_eq_some.1 hpos⟩
  have hb := hl.index_bounds hmem
  obtain ⟨hf, -, -⟩ := hl.fronted_moved hmem hok.1 (by omega)
  exact ⟨_, hl.placed hf hsum hp hreq hs⟩

/-- An allocation from a hole keeps the layout, if page-aligned data fits in it. -/
theorem allocFrom {gs : List (Seg Bool)} (hl : Layout h gs) {iterator size : Nat}
    {pageAlign : Bool} (hsize : size + 20 < 4294967296)
    (hok : ∀ pos, h.index.lookup iterator = some pos → Moves pageAlign pos → CarveOk size pos h)
    (ha : h.allocFrom iterator size pageAlign = some r) : ∃ gs', Layout r.2 gs' := by
  obtain ⟨pos, -, -, hpos, -⟩ := allocFrom_cases hsize ha
  by_cases hmove : Moves pageAlign pos
  · exact hl.allocFrom_moved hsize hpos hmove (hok pos hpos hmove) ha
  · obtain ⟨xs, ys, newSize, -, -, -, hl'⟩ := hl.allocFrom_plain hsize hpos hmove ha
    exact ⟨_, hl'⟩

end Layout

end Ulysses
