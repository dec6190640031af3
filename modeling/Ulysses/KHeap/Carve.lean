import Ulysses.KHeap.Blocks

/-!
# Carving a hole

One call of `alloc` that a hole serves, in any tiled heap with an exact index. Without
alignment the hole is always replaced by the block and, if there is room for it, a hole
behind the block (`alloc_unaligned`). With alignment the search and the carving disagree:
the search asks for the distance to the next page boundary, the carving makes of it a hole
in front that may be too small, empty or of negative size, and it decides whether there is
room for a hole behind the block before the one in front is taken off. `Carvable` says when
the pieces still tile the hole (`alloc_aligned_iff`).
-/

namespace Ulysses

open Lib Bytes Heap

/-- A tiled heap with an exact index, in which each block has its footer. -/
structure Tiled (h : Heap) (gs : List (Seg Bool)) : Prop extends Segments h gs where
  footer : ∀ g ∈ gs, g.tag = false → FooterAt h.mem g

/-- An optional hole, a block with room for `size` bytes, and an optional hole tile
`[pos, pos + s)`. -/
structure Pieces (size pos s : Nat) (front : List (Seg Bool)) (b : Seg Bool)
    (tail : List (Seg Bool)) : Prop where
  front_le : front.length ≤ 1
  tail_le : tail.length ≤ 1
  holes : ∀ g ∈ front ++ tail, g.tag = true
  block : b.tag = false
  tiles : Tiles 20 pos (front ++ [b] ++ tail) (pos + s)
  room : size + 20 ≤ b.size

/-- The pointer `r.1` is that of a block in the hole at `pos`, which was replaced by its pieces;
nothing else changed. -/
def Carved (size pos : Nat) (h : Heap) (gs : List (Seg Bool)) (r : Nat × Heap) : Prop :=
  ∃ xs ys s front b tail, gs = xs ++ [⟨pos, s, true⟩] ++ ys ∧ Pieces size pos s front b tail ∧
    r.1 = b.addr + 12 ∧ Tiled r.2 (xs ++ (front ++ [b] ++ tail) ++ ys) ∧
    AgreeOff pos (pos + s) h.mem r.2.mem

/-! ## From `place` to the pieces -/

section Placed

variable {h h₁ : Heap} {r : Nat × Heap} {xs ys front : List (Seg Bool)}
  {pos s pos' newSize holeSize size : Nat}

theorem Tiled.placed (ht : Tiled h (xs ++ [⟨pos, s, true⟩] ++ ys))
    (hf : Fronted pos pos' front h h₁) (hlen : front.length ≤ 1) (hsum : pos' + holeSize = pos + s)
    (hp : Placed pos' newSize holeSize size h₁ r) (hreq : size + 20 ≤ newSize)
    (hs : newSize = holeSize ∨ newSize + 20 ≤ holeSize) :
    Carved size pos h (xs ++ [⟨pos, s, true⟩] ++ ys) r := by
  have hle := hf.tiles.le
  have hmem : AgreeOff pos (pos + s) h.mem r.2.mem :=
    (hf.mem.mono (Nat.le_refl _) (by omega)).trans (hp.mem.mono hle (by omega))
  have hseg := ht.toSegments.placed hf hsum hp hreq hs
  have hpiece := tiles_placed pos' (by omega) hs
  obtain ⟨tail, htail⟩ : ∃ tail : List (Seg Bool), tail =
      if holeSize > newSize then [⟨pos' + newSize, holeSize - newSize, true⟩] else [] := ⟨_, rfl⟩
  have hcat : front ++ Heap.placed pos' newSize holeSize =
      front ++ [⟨pos', newSize, false⟩] ++ tail := by
    rw [htail, List.append_assoc]
    rfl
  have htag : ∀ g ∈ tail, g.tag = true := by
    rw [htail]
    intro g hg
    split at hg
    · rw [List.mem_singleton.1 hg]
    · cases hg
  rw [hcat] at hseg
  refine ⟨xs, ys, s, front, ⟨pos', newSize, false⟩, tail, rfl,
    ⟨hlen, ?_, fun g hg => ?_, rfl, ?_, hreq⟩, hp.ptr, ⟨hseg, fun g hg hblock => ?_⟩, hmem⟩
  · rw [htail]
    split <;> simp
  · exact (List.mem_append.1 hg).elim (hf.tag g) (htag g)
  · rw [← hcat, tiles_append]
    exact ⟨pos', hf.tiles, hsum ▸ hpiece⟩
  · -- the block among the pieces, or one that was there before
    obtain ⟨hx, hy⟩ := ht.run_singleton
    simp only at hx hy
    simp only [List.mem_append, List.mem_singleton] at hg
    rcases hg with (hg | (hg | rfl) | hg) | hg
    · have := hx.bounds hg
      exact (ht.footer g (by simp [hg]) hblock).agree hmem (by omega) (by omega)
    · rw [hf.tag g hg] at hblock
      cases hblock
    · exact hp.footer _ List.mem_cons_self
    · rw [htag g hg] at hblock
      cases hblock
    · have := hy.bounds hg
      exact (ht.footer g (by simp [hg]) hblock).agree hmem (by omega) (by omega)

end Placed

/-! ## Calls that return -/

section Calls

variable {h : Heap} {gs : List (Seg Bool)} {iterator size pos : Nat} {pageAlign : Bool}

theorem allocFrom_isSome (hsize : size + 20 < 4294967296)
    (hpos : h.index.lookup iterator = some pos) (hge : size + 20 ≤ sizeAt h.mem pos)
    (hmove : Moves pageAlign pos → sizeAt (h.carveFront pos).mem pos < sizeAt h.mem pos) :
    ∃ r, h.allocFrom iterator size pageAlign = some r := by
  unfold Heap.allocFrom
  rw [hpos]
  simp only [Option.bind_some, Kernel.newSize_eq hsize]
  rw [if_pos hge]
  by_cases hm : pageAlign = true ∧ pos &&& 0xFFFFF000 ≠ 0
  · rw [if_pos hm, if_pos (hmove hm)]
    exact ⟨_, rfl⟩
  · rw [if_neg hm]
    exact ⟨_, rfl⟩

theorem Tiled.carve_plain (ht : Tiled h gs) (hsize : size + 20 < 4294967296)
    (hpos : h.index.lookup iterator = some pos) (hge : size + 20 ≤ sizeAt h.mem pos)
    (hmove : ¬ Moves pageAlign pos) :
    ∃ r, h.allocFrom iterator size pageAlign = some r ∧ Carved size pos h gs r ∧ r.1 = pos + 12 ∧
      r.2.index.size ≤ h.index.size := by
  obtain ⟨r, hr⟩ := allocFrom_isSome hsize hpos hge fun hm => absurd hm hmove
  obtain ⟨xs, ys, newSize, rfl, hreq, hs, hp⟩ :=
    ht.toSegments.allocFrom_plain hsize hpos hmove hr
  have hlt := (OrderedArray.lookup_eq_some.1 hpos).1
  have hcarved := ht.placed (ht.fronted_plain hpos) (by simp) rfl hp hreq hs
  obtain ⟨lessThan, hindex⟩ := hp.index
  refine ⟨r, hr, hcarved, hp.ptr, ?_⟩
  rw [hindex]
  split
  · rw [OrderedArray.insert_size]
    exact Nat.le_of_eq (Nat.sub_add_cancel (by omega))
  · exact Nat.sub_le _ _

theorem Tiled.carve_moved (ht : Tiled h gs) (hsize : size + 20 < 4294967296)
    (hpos : h.index.lookup iterator = some pos) (hmove : Moves pageAlign pos)
    (hok : CarveOk size pos h) :
    ∃ r, h.allocFrom iterator size pageAlign = some r ∧ Carved size pos h gs r ∧
      r.1 = pos + frontSize pos + 12 := by
  have hmem := OrderedArray.mem_toList.2 ⟨iterator, OrderedArray.lookup_eq_some.1 hpos⟩
  have hb := ht.index_bounds hmem
  have hfit := hok.2
  obtain ⟨hf, -, hcs⟩ := ht.fronted_moved hmem hok.1 (by omega)
  obtain ⟨r, hr⟩ := allocFrom_isSome hsize hpos (by omega) fun _ => by omega
  obtain ⟨xs, ys, newSize, holeSize, rfl, hreq, hs, hsum, hp⟩ :=
    ht.toSegments.allocFrom_moved hsize hpos hmove hok hr
  exact ⟨r, hr, ht.placed hf (by simp) hsum hp hreq hs, hp.ptr⟩

end Calls

namespace Kernel

theorem tiled_create {mem : Bytes} {start endAddr max : Nat} {supervisor readonly : Bool}
    {h : Heap} (hok : CreateOk start endAddr)
    (hc : Heap.create mem start endAddr max supervisor readonly = some h) :
    Tiled h [⟨heapStart start, endAddr - heapStart start, true⟩] := by
  refine ⟨(create_layout hok hc).toSegments, fun g hg htag => ?_⟩
  rw [List.mem_singleton.1 hg] at htag
  cases htag

/-! ## Allocation without alignment -/

theorem alloc_eq {fuel size iterator : Nat} {pageAlign : Bool} {k : Kernel}
    (hsize : size + 20 < 4294967296)
    (hfind : k.heap.findSmallestHole (size + 20) pageAlign = some iterator) :
    alloc (fuel + 1) size pageAlign k =
      (k.heap.allocFrom iterator size pageAlign).map fun r => (r.1, { k with heap := r.2 }) := by
  simp only [alloc, newSize_eq hsize, hfind]

/-- **Allocation without alignment.** In any tiled heap with an exact index, a call that a hole
serves returns a block inside that hole with room for what was asked for, leaves a tiled heap
with an exact index, and changes nothing outside the hole. The index does not grow. -/
theorem alloc_unaligned {k : Kernel} {gs : List (Seg Bool)} (ht : Tiled k.heap gs)
    {size iterator : Nat} (hsize : size + 20 < 4294967296)
    (hfind : k.heap.findSmallestHole (size + 20) false = some iterator) (fuel : Nat) :
    ∃ pos r, k.heap.index.lookup iterator = some pos ∧ alloc (fuel + 1) size false k = some r ∧
      Carved size pos k.heap gs (r.1, r.2.heap) ∧ r.2.heap.index.size ≤ k.heap.index.size := by
  obtain ⟨hlt, hfits⟩ := findSmallestHole_some hfind
  have hge : size + 20 ≤ sizeAt k.heap.mem (k.heap.index.array iterator) := by
    simpa [fits] using hfits
  have hpos := OrderedArray.lookup_eq_some.2 ⟨hlt, rfl⟩
  have hmove : ¬ Moves false (k.heap.index.array iterator) := fun hm => Bool.false_ne_true hm.1
  obtain ⟨r, hr, hcarved, -, hle⟩ := ht.carve_plain hsize hpos hge hmove
  refine ⟨_, (r.1, { k with heap := r.2 }), hpos, ?_, hcarved, hle⟩
  rw [alloc_eq hsize hfind, hr, Option.map_some]

/-- The first allocation in a new heap. -/
theorem alloc_unaligned_first :
    ∃ h r gs, Heap.create (fun _ => 0) 0xC0100000 0xC0190000 0xCFFFF000 false false = some h ∧
      alloc 1 5000 false ⟨h, VirtualMemory.blankMemory⟩ = some r ∧
      Carved 5000 0xC0182000 h gs (r.1, r.2.heap) := by
  have hcreate : (Heap.create (fun _ => 0) 0xC0100000 0xC0190000 0xCFFFF000 false false).bind
      (fun h => (h.findSmallestHole (5000 + 20) false).bind h.index.lookup) = some 0xC0182000 := by
    decide +kernel
  obtain ⟨h, hc, hrest⟩ := Option.bind_eq_some_iff.1 hcreate
  obtain ⟨iterator, hfind, hlookup⟩ := Option.bind_eq_some_iff.1 hrest
  have hok : CreateOk 0xC0100000 0xC0190000 := by decide +kernel
  obtain ⟨pos, r, hpos, ha, hcarved, -⟩ :=
    alloc_unaligned (k := ⟨h, VirtualMemory.blankMemory⟩) (tiled_create hok hc) (by decide) hfind 0
  obtain rfl := Option.some.inj (hpos.symm.trans hlookup)
  exact ⟨h, r, _, hc, ha, hcarved⟩

/-! ## Page-aligned allocation -/

/-- When the hole at `pos` can be carved for page-aligned data: the pointer would be aligned in
the first page already, or the hole in front and the one behind the block have at least 20
bytes. -/
def Carvable (size pos : Nat) (h : Heap) : Prop :=
  size + 20 < 4294967296 ∧
    ((pos = 4084 ∧ size + 20 ≤ sizeAt h.mem pos) ∨ (4096 ≤ pos ∧ CarveOk size pos h))

theorem moves_iff {pos : Nat} (h : pos < 4294967296) : Moves true pos ↔ 4096 ≤ pos := by
  unfold Moves
  rw [ne_eq, and_pageMask_eq_zero h]
  simp

theorem carved_block {size pos : Nat} {h : Heap} {gs : List (Seg Bool)} {r : Nat × Heap}
    (ht : Tiled h gs) (hc : Carved size pos h gs r) :
    ∃ xs ys front b tail, gs = xs ++ [⟨pos, sizeAt h.mem pos, true⟩] ++ ys ∧
      Pieces size pos (sizeAt h.mem pos) front b tail ∧ r.1 = b.addr + 12 ∧
      Tiled r.2 (xs ++ (front ++ [b] ++ tail) ++ ys) ∧ pos ≤ b.addr ∧
      b.addr + b.size ≤ pos + sizeAt h.mem pos ∧
      pos + sizeAt h.mem pos < 4294967296 ∧ (pos < b.addr → pos + 20 ≤ b.addr) := by
  obtain ⟨xs, ys, s, front, b, tail, rfl, hp, hr, ht', -⟩ := hc
  have hmem : (⟨pos, s, true⟩ : Seg Bool) ∈ xs ++ [⟨pos, s, true⟩] ++ ys := by simp
  have hs : sizeAt h.mem pos = s := (ht.header _ hmem).2.2
  have hb := ht.bounds hmem
  have hbb := hp.tiles.bounds (g := b) (by simp)
  simp only at hb
  rw [hs]
  refine ⟨xs, ys, front, b, tail, rfl, hp, hr, ht', hbb.1, hbb.2.2, by omega, fun hlt => ?_⟩
  -- something is in front of the block
  have htiles := hp.tiles
  rw [List.append_assoc] at htiles
  obtain ⟨mid, hfront, hrest⟩ := tiles_append.1 htiles
  obtain ⟨g, gs, -, -, h20, hg⟩ := hfront.exists_head (by rw [← hrest.1]; exact hlt)
  have := hg.le
  rw [← hrest.1] at this
  omega

/-- The hole in front of the block keeps its entry, so it must be a hole. -/
theorem carved_moved {size pos size' newSize holeSize : Nat} {h : Heap} {gs : List (Seg Bool)}
    {r : Nat × Heap} (ht : Tiled h gs) (hpos : pos ∈ h.index.toList) (hc : Carved size pos h gs r)
    (hr : r = (h.carveFront pos).place (frontEnd pos) size' newSize holeSize size) :
    pos % 4096 ≤ 4064 ∧ frontSize pos + size + 20 ≤ sizeAt h.mem pos := by
  obtain ⟨xs, ys, front, b, tail, rfl, hp, hptr, ht', hle, hend, hlt, hfront⟩ := carved_block ht hc
  have hroom := hp.room
  have hb : add32 (frontEnd pos) 12 = b.addr + 12 := by
    rw [← hptr, hr, place_fst]
  have hne : pos ≠ b.addr := by
    rintro rfl
    -- the entry in the index would be that of the block
    have hindex := place_index (frontEnd b.addr) size' newSize holeSize size (h.carveFront b.addr)
    have hentry : b.addr ∈ r.2.index.toList := by
      rw [hr, hindex, carveFront_index]
      split
      · exact OrderedArray.mem_toList_insert.2 (.inr hpos)
      · exact hpos
    obtain ⟨g, hg, htag, haddr⟩ := (ht'.mem_index _).1 hentry
    rw [ht'.eq_of_addr hg (by simp) haddr, hp.block] at htag
    cases htag
  have h20 := hfront (by omega)
  have hmod : pos % 4096 ≤ 4064 := by
    unfold frontEnd at hb
    rw [and_pageOffset] at hb
    unfold sub32 add32 at hb
    omega
  refine ⟨hmod, ?_⟩
  have hfs := @frontSize_eq pos (by omega)
  rw [frontEnd_eq (by omega) (by omega)] at hb
  unfold add32 at hb
  omega

/-- The rest behind the block is nothing or a hole. -/
theorem carved_carveOk {size pos iterator : Nat} {h : Heap} {gs : List (Seg Bool)} {r : Nat × Heap}
    (ht : Tiled h gs) (hsize : size + 20 < 4294967296)
    (hpos : h.index.lookup iterator = some pos) (hmove : Moves true pos)
    (ha : h.allocFrom iterator size true = some r) (hc : Carved size pos h gs r) :
    CarveOk size pos h := by
  obtain ⟨hstart, hend, -⟩ := allocFrom_frame ha
  obtain ⟨pos', size', newSize, hpos', -, hn, hcase, ⟨hm, -⟩ | ⟨-, hr⟩⟩ := allocFrom_cases hsize ha
  · obtain rfl := Option.some.inj (hpos.symm.trans hpos')
    exact absurd hmove hm
  obtain rfl := Option.some.inj (hpos.symm.trans hpos')
  have hmem := lookup_mem hpos
  obtain ⟨hmod, hfit⟩ := carved_moved ht hmem hc hr
  have hfs := @frontSize_eq pos (by omega)
  obtain ⟨xs, ys, front, b, tail, rfl, hp, hptr, ht', hle, hbend, hlt, -⟩ := carved_block ht hc
  obtain ⟨-, hindex, hcs⟩ := ht.fronted_moved hmem hmod (by omega)
  refine ⟨hmod, ?_⟩
  by_cases heq : frontSize pos + size + 20 = sizeAt h.mem pos
  · exact .inl heq
  -- the tail is in the index, so it is one of the pieces
  have hgt : sizeAt h.mem pos - frontSize pos > newSize := by omega
  rw [frontEnd_eq (by omega) (by omega), hcs, sub32_eq (by omega) (by omega)] at hr
  have hri := place_index (pos + frontSize pos) size' newSize
    (sizeAt h.mem pos - frontSize pos) size (h.carveFront pos)
  rw [← hr, if_pos hgt, hindex] at hri
  have haddr : add32 (add32 (add32 (pos + frontSize pos) 12) size') 8 =
      pos + frontSize pos + (size + 20) := by
    unfold add32
    omega
  rw [haddr] at hri
  obtain ⟨hx, hy⟩ := ht.run_singleton
  rw [← hstart] at hx
  rw [← hend] at hy
  have hentry : pos + frontSize pos + (size + 20) ∈ r.2.index.toList := by
    rw [hri]
    exact OrderedArray.mem_toList_insert.2 (.inl rfl)
  obtain ⟨g, hg, -, hga⟩ := ht'.index_run hx hy hentry (by simp only; omega) (by simp only; omega)
  have hgb := hp.tiles.bounds hg
  exact .inr (by omega)

/-- **Page-aligned carving.** In any tiled heap with an exact index, a call that a hole serves
returns an aligned pointer to a block in that hole and leaves the pieces of the hole, with the
index exact and everything else unchanged, exactly when the hole is `Carvable`. The index is
memory of its own here, as it is in the code while there is room for one more entry. -/
theorem alloc_aligned_iff {k : Kernel} {gs : List (Seg Bool)} (ht : Tiled k.heap gs)
    (_hroom : k.heap.IndexRoom) {size iterator pos : Nat}
    (hfind : k.heap.findSmallestHole (add32 (add32 size 12) 8) true = some iterator)
    (hpos : k.heap.index.lookup iterator = some pos) (fuel : Nat) :
    (∃ r, alloc (fuel + 1) size true k = some r ∧ r.1 % 4096 = 0 ∧
        Carved size pos k.heap gs (r.1, r.2.heap)) ↔ Carvable size pos k.heap := by
  have hmem := lookup_mem hpos
  have hb := ht.index_bounds hmem
  constructor
  · rintro ⟨r, ha, halign, hc⟩
    obtain ⟨-, -, front, b, tail, -, hp, hptr, -, hle, hend, hlt, -⟩ := carved_block ht hc
    have hreq := hp.room
    have hsize : size + 20 < 4294967296 := by omega
    rw [newSize_eq hsize] at hfind
    obtain ⟨hfrom, -⟩ := alloc_of_hole hsize hfind ha
    refine ⟨hsize, ?_⟩
    by_cases hpage : 4096 ≤ pos
    · have hmove := (moves_iff (by omega)).2 hpage
      exact .inr ⟨hpage, carved_carveOk ht hsize hpos hmove hfrom hc⟩
    · obtain ⟨pos', size', newSize, hpos', -, -, -, ⟨-, hr⟩ | ⟨hm, -⟩⟩ :=
        allocFrom_cases hsize hfrom
      · obtain rfl := Option.some.inj (hpos.symm.trans hpos')
        have hr₁ : r.1 = add32 pos 12 := congrArg Prod.fst hr
        rw [add32_eq (by omega)] at hr₁
        exact .inl ⟨by omega, by omega⟩
      · obtain rfl := Option.some.inj (hpos.symm.trans hpos')
        exact absurd ((moves_iff (by omega)).1 hm) hpage
  · rintro ⟨hsize, hcase⟩
    rw [newSize_eq hsize] at hfind
    rcases hcase with ⟨rfl, hge⟩ | ⟨hpage, hok⟩
    · have hmove : ¬ Moves true 4084 := fun hm => absurd ((moves_iff (by decide)).1 hm) (by decide)
      obtain ⟨r, hr, hc, hptr, -⟩ := ht.carve_plain hsize hpos hge hmove
      refine ⟨(r.1, { k with heap := r.2 }), ?_, by simp only [hptr], hc⟩
      rw [alloc_eq hsize hfind, hr, Option.map_some]
    · have hmove := (moves_iff (by omega)).2 hpage
      obtain ⟨r, hr, hc, hptr⟩ := ht.carve_moved hsize hpos hmove hok
      have hfs := @frontSize_eq pos (by have := hok.1; omega)
      refine ⟨(r.1, { k with heap := r.2 }), ?_, ?_, hc⟩
      · rw [alloc_eq hsize hfind, hr, Option.map_some]
      · simp only [hptr]
        have := hok.1
        omega

/-- A page in a new heap. -/
theorem alloc_aligned_first :
    ∃ h r gs, Heap.create (fun _ => 0) 0xC0100000 0xC0190000 0xCFFFF000 false false = some h ∧
      alloc 1 4096 true ⟨h, VirtualMemory.blankMemory⟩ = some r ∧ r.1 % 4096 = 0 ∧
      Carved 4096 0xC0182000 h gs (r.1, r.2.heap) := by
  have hcreate : (Heap.create (fun _ => 0) 0xC0100000 0xC0190000 0xCFFFF000 false false).bind
      (fun h => (h.findSmallestHole (add32 (add32 4096 12) 8) true).bind fun i =>
        (h.index.lookup i).map fun pos =>
          (pos, sizeAt h.mem pos, h.index.size, h.index.maxSize)) =
        some (0xC0182000, 57344, 1, 131072) := by
    decide +kernel
  obtain ⟨h, hc, hrest⟩ := Option.bind_eq_some_iff.1 hcreate
  obtain ⟨iterator, hfind, hrest⟩ := Option.bind_eq_some_iff.1 hrest
  obtain ⟨pos, hpos, heq⟩ := Option.map_eq_some_iff.1 hrest
  simp only [Prod.mk.injEq] at heq
  obtain ⟨rfl, hsize, hlen, hmax⟩ := heq
  have hok : CreateOk 0xC0100000 0xC0190000 := by decide +kernel
  have hfront : frontSize 0xC0182000 = 4084 := by decide +kernel
  have hcarvable : Carvable 4096 0xC0182000 h := by
    refine ⟨by decide, .inr ⟨by decide, by decide, .inr ?_⟩⟩
    rw [hsize, hfront]
    decide
  have hroom : h.IndexRoom := by
    unfold IndexRoom
    omega
  obtain ⟨r, ha, halign, hcarved⟩ :=
    (alloc_aligned_iff (k := ⟨h, VirtualMemory.blankMemory⟩) (tiled_create hok hc) hroom hfind
      hpos 0).2 hcarvable
  exact ⟨h, r, _, hc, ha, halign, hcarved⟩

/-- In a new heap of 57344 bytes, the block for 53230 aligned bytes leaves 10 bytes behind it,
and the index lists them as a hole. -/
theorem aligned_tail_too_small :
    ∃ h gs r, Heap.create (fun _ => 0) 0xC0100000 0xC0190000 0xCFFFF000 false false = some h ∧
      Tiled h gs ∧ alloc 1 53230 true ⟨h, VirtualMemory.blankMemory⟩ = some r ∧
      ∃ c ∈ r.2.heap.index.toList, c + 10 = r.2.heap.endAddress := by
  have hrun : (Heap.create (fun _ => 0) 0xC0100000 0xC0190000 0xCFFFF000 false false).bind
      (fun h => (alloc 1 53230 true ⟨h, VirtualMemory.blankMemory⟩).map fun r =>
        decide (∃ c ∈ r.2.heap.index.toList, c + 10 = r.2.heap.endAddress)) = some true := by
    decide +kernel
  obtain ⟨h, hc, hrest⟩ := Option.bind_eq_some_iff.1 hrun
  obtain ⟨r, ha, hbad⟩ := Option.map_eq_some_iff.1 hrest
  have hok : CreateOk 0xC0100000 0xC0190000 := by decide +kernel
  exact ⟨h, _, r, hc, tiled_create hok hc, ha, of_decide_eq_true hbad⟩

end Kernel

end Ulysses
