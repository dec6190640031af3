import Ulysses.KHeap.Blocks

/-!
# Best fit

`find_smallest_hole` returns the first entry of the index that is large enough, which is
the smallest one if the index is sorted by the sizes in the headers (`bestFit_of_ordered`).
An allocation without alignment keeps the order: the hole leaves the index before its rest
is inserted, also when it had grown before. `free` keeps it unless the block is joined with
a hole on its left. That hole stays where it is in the index while its size changes, so its
neighbours in the index must leave room for the new size (`OrderOk`).
-/

namespace Ulysses

open Lib Bytes Heap

/-! ## The order of the index -/

/-- The headers in the index are sorted by their sizes. -/
def Ordered (m : Bytes) (index : OrderedArray Nat) : Prop :=
  index.toList.Pairwise fun a b => sizeAt m a ≤ sizeAt m b

instance (m : Bytes) (index : OrderedArray Nat) : Decidable (Ordered m index) :=
  inferInstanceAs (Decidable (List.Pairwise _ _))

/-- The index is sorted, and the search for a hole without alignment finds the smallest one. -/
structure BestFit (h : Heap) : Prop where
  ordered : Ordered h.mem h.index
  none_iff : ∀ size, h.findSmallestHole size false = none ↔
    ∀ c ∈ h.index.toList, sizeAt h.mem c < size
  smallest : ∀ size i, h.findSmallestHole size false = some i →
    i < h.index.size ∧ size ≤ sizeAt h.mem (h.index.array i) ∧
      ∀ c ∈ h.index.toList, size ≤ sizeAt h.mem c →
        sizeAt h.mem (h.index.array i) ≤ sizeAt h.mem c

theorem fits_iff {size header : Nat} {h : Heap} :
    h.fits size false header = true ↔ size ≤ sizeAt h.mem header := by
  simp [fits]

theorem bestFit_of_ordered {h : Heap} (ho : Ordered h.mem h.index) : BestFit h := by
  refine ⟨ho, fun size => ?_, fun size i hi => ?_⟩
  · constructor
    · intro hnone c hc
      obtain ⟨i, hi, rfl⟩ := OrderedArray.mem_toList.1 hc
      have := Kernel.findSmallestHole_none hnone hi
      rw [Bool.eq_false_iff, ne_eq, fits_iff] at this
      omega
    · intro hsmall
      refine List.find?_eq_none.2 fun i hi hfits => ?_
      have := hsmall _ (OrderedArray.mem_toList.2 ⟨i, List.mem_range.1 hi, rfl⟩)
      rw [fits_iff] at hfits
      omega
  · obtain ⟨hlt, hfits⟩ := Kernel.findSmallestHole_some hi
    refine ⟨hlt, fits_iff.1 hfits, fun c hc hc' => ?_⟩
    obtain ⟨j, hj, rfl⟩ := OrderedArray.mem_toList.1 hc
    -- an entry before the one found is too small, one behind it is not smaller
    rcases Nat.lt_trichotomy i j with hij | rfl | hij
    · exact OrderedArray.pairwise_toList.1 ho i j hij hj
    · exact Nat.le_refl _
    · have := (List.find?_range_eq_some.1 hi).2.2 j hij
      rw [Bool.not_eq_true', Bool.eq_false_iff, ne_eq, fits_iff] at this
      exact absurd hc' this

namespace Ordered

variable {m m' : Bytes} {index : OrderedArray Nat}

theorem congr (ho : Ordered m index) (hm : ∀ c ∈ index.toList, sizeAt m' c = sizeAt m c) :
    Ordered m' index := by
  refine ho.imp_of_mem fun {a b} ha hb hab => ?_
  rw [hm a ha, hm b hb]
  exact hab

theorem remove (ho : Ordered m index) {i : Nat} (hi : i < index.size) :
    Ordered m (index.remove i) := OrderedArray.pairwise_remove hi ho

theorem insert (ho : Ordered m index) (header : Nat) :
    Ordered m (index.insert (headerLessThan m) header) := OrderedArray.pairwise_insert ho header

end Ordered

/-! ## Allocation -/

namespace Kernel

variable {gs : List (Seg Bool)} {h : Heap} {size : Nat}

theorem allocFrom_ordered {r : Nat × Heap} {iterator : Nat} (hl : Layout h gs)
    (hsize : size + 20 < 4294967296) (ho : Ordered h.mem (h.index.remove iterator))
    (ha : h.allocFrom iterator size false = some r) : Ordered r.2.mem r.2.index := by
  obtain ⟨pos, size', newSize, hpos, -, -, -, ⟨hmove, hr⟩ | ⟨hmove, -⟩⟩ := allocFrom_cases hsize ha
  · obtain ⟨hlt, harr⟩ := OrderedArray.lookup_eq_some.1 hpos
    obtain ⟨xs, ys, n, rfl, -, hp, -⟩ := hl.allocFrom_plain hsize hpos hmove ha
    have hkeep : Ordered r.2.mem (h.index.remove iterator) := by
      refine ho.congr fun c hc => ?_
      obtain ⟨hc, hne⟩ := (OrderedArray.mem_toList_remove hlt hl.index_nodup).1 hc
      have hapart := hl.index_apart_hole hc fun heq => hne (heq.trans harr.symm)
      exact sizeAt_agree hp.mem (by omega)
    have hindex := place_index pos size' newSize (sizeAt h.mem pos) size (h.indexRemove iterator)
    rw [← hr] at hindex
    rw [hindex]
    split
    · exact hkeep.insert _
    · exact hkeep
  · exact absurd hmove.1 Bool.false_ne_true

/-! ### Growing when no page table is missing -/

theorem getKernelPage_congr {s s' : VirtualMemory} (h : s.SameSpaces s') (address : Nat) :
    (s'.getKernelPage address false (0, 0)).1.isSome =
      (s.getKernelPage address false (0, 0)).1.isSome := by
  unfold VirtualMemory.getKernelPage VirtualMemory.getPage
  rw [h.1, h.2.1]
  simp only
  split <;> rfl

theorem mapPage_of_table {alloc : Nat → Bool → Kernel → Option (Nat × Kernel)} {address : Nat}
    {k k' : Kernel} (htable : (k.vmem.getKernelPage address false (0, 0)).1.isSome)
    (hm : mapPage alloc k address = some k') :
    k'.heap = k.heap ∧ k.vmem.SameSpaces k'.vmem := by
  unfold mapPage at hm
  split at hm
  · obtain ⟨vmem, ha, rfl⟩ := Option.map_eq_some_iff.1 hm
    exact ⟨rfl, VirtualMemory.allocFrame_sameSpaces ha⟩
  · next hnone =>
    rw [hnone] at htable
    cases htable

/-- If all tables exist, the loop of `expand` does not touch the heap. -/
theorem mapPages_of_tables {alloc : Nat → Bool → Kernel → Option (Nat × Kernel)}
    {pages : List Nat} {k k' : Kernel}
    (htables : ∀ address ∈ pages, (k.vmem.getKernelPage address false (0, 0)).1.isSome)
    (hm : pages.foldlM (mapPage alloc) k = some k') : k'.heap = k.heap := by
  have hinit : k.heap = k.heap ∧ k.vmem.SameSpaces k.vmem := ⟨rfl, .refl _⟩
  refine (foldlM_invariant (P := fun k₁ => k₁.heap = k.heap ∧ k.vmem.SameSpaces k₁.vmem) pages
    (fun k₁ address k₂ hmem h₁ h₂ => ?_) hinit hm).1
  have htable := htables address hmem
  rw [← getKernelPage_congr h₁.2] at htable
  obtain ⟨hheap, hspaces⟩ := mapPage_of_table htable h₂
  exact ⟨hheap.trans h₁.1, h₁.2.trans hspaces⟩

/-- Once the last hole has grown, the search stops nowhere else: the other holes have the size
they had when none was found. -/
theorem grown_find_eq {idx header endAddress iterator : Nat} {h' : Heap} (hl : Layout h gs)
    (hfind : h.findSmallestHole (size + 20) false = none)
    (hheader : h.index.lookup idx = some header) (hindex : h'.index = h.index)
    (hm : AgreeOff header endAddress h.mem h'.mem)
    (hlast : header + sizeAt h.mem header = h.endAddress)
    (hfind' : h'.findSmallestHole (size + 20) false = some iterator) :
    h.index.lookup iterator = some header := by
  obtain ⟨hi, hyes⟩ := findSmallestHole_some hfind'
  rw [hindex] at hi hyes
  refine OrderedArray.lookup_eq_some.2 ⟨hi, ?_⟩
  by_contra hne
  obtain ⟨xs, ys, rfl⟩ := hl.hole (lookup_mem hheader)
  have hapart := hl.index_apart_hole (OrderedArray.mem_toList.2 ⟨iterator, hi, rfl⟩) hne
  have hno := findSmallestHole_none hfind hi
  rw [Bool.eq_false_iff, ne_eq, fits_iff] at hno
  rw [fits_iff, sizeAt_agree hm (by omega)] at hyes
  exact hno hyes

/-- What `grow` leaves when no page table is missing: the last hole of the heap has become
longer, and it is the one the search now stops at. -/
structure Grown (size : Nat) (h h' : Heap) (header iterator : Nat) : Prop where
  last : header + sizeAt h.mem header = h.endAddress
  lookup : h.index.lookup iterator = some header
  index : h'.index = h.index
  mem : AgreeOff header h'.endAddress h.mem h'.mem
  find : h'.findSmallestHole (size + 20) false = some iterator

theorem grow_grown {fuel : Nat} {k k' : Kernel} (hl : Layout k.heap gs)
    (hfind : k.heap.findSmallestHole (size + 20) false = none)
    (htables : ∀ address ∈ newPages size k.heap,
      (k.vmem.getKernelPage address false (0, 0)).1.isSome)
    (hword : WordOk size k.heap) (hok : LoopOk (alloc fuel) (newPages size k.heap) k)
    (hg : grow (alloc fuel) (size + 20) k = some k') :
    ∃ header iterator, Grown size k.heap k'.heap header iterator := by
  obtain ⟨k₁, hpages, -, hend, ha⟩ := grow_cases hl hword hok hg
  rw [mapPages_of_tables htables hpages] at ha hend
  obtain ⟨hge, hlt⟩ := grownEnd_bounds hl.tiles.le hl.end_lt hword
  obtain ⟨idx, header, m, hidx, hheader, hk', hm, hgrown⟩ :=
    adjustEndmost_cases hl (by omega) hlt hend ha
  have hlast := hend idx header hidx hheader
  have hindex : k'.heap.index = k.heap.index := by rw [hk']
  have hmem : AgreeOff header k'.heap.endAddress k.heap.mem k'.heap.mem := by rwa [hk']
  have hfits : k'.heap.fits (size + 20) false header = true := by
    rw [fits_iff, hk', hgrown.2.2]
    simp only
    omega
  obtain ⟨iterator, hfind'⟩ := findSmallestHole_isSome (by rwa [hindex]) hfits
  exact ⟨header, iterator, hlast, grown_find_eq hl hfind hheader hindex hmem hlast hfind', hindex,
    hmem, hfind'⟩

theorem Grown.ordered {header iterator : Nat} {h' : Heap} (hg : Grown size h h' header iterator)
    (hl : Layout h gs) (ho : Ordered h.mem h.index) :
    Ordered h'.mem (h'.index.remove iterator) := by
  obtain ⟨hlt, harr⟩ := OrderedArray.lookup_eq_some.1 hg.lookup
  rw [hg.index]
  refine (ho.remove hlt).congr fun c hc => ?_
  obtain ⟨hc, hne⟩ := (OrderedArray.mem_toList_remove hlt hl.index_nodup).1 hc
  obtain ⟨xs, ys, rfl⟩ := hl.hole (lookup_mem hg.lookup)
  have hapart := hl.index_apart_hole hc fun heq => hne (heq.trans harr.symm)
  have hlast := hg.last
  exact sizeAt_agree hg.mem (by omega)

/-- The condition on a call of `alloc`: it is without alignment, and no page table is missing
if the heap has to grow. -/
def UnalignedOk (size : Nat) (pageAlign : Bool) (k : Kernel) : Prop :=
  pageAlign = false ∧ AllocOk size pageAlign k ∧
    (k.heap.findSmallestHole (size + 20) pageAlign = none → ∀ address ∈ newPages size k.heap,
      (k.vmem.getKernelPage address false (0, 0)).1.isSome)

theorem alloc_ordered {fuel : Nat} {k : Kernel} {r : Nat × Kernel} (hl : Layout k.heap gs)
    (ho : Ordered k.heap.mem k.heap.index) (hok : UnalignedOk size false k)
    (ha : alloc fuel size false k = some r) : Ordered r.2.heap.mem r.2.heap.index := by
  cases fuel with
  | zero => cases ha
  | succ fuel =>
    obtain ⟨-, hcalls, htables⟩ := hok
    obtain ⟨hsize, hcall⟩ := hcalls (fuel + 1)
    cases hfind : k.heap.findSmallestHole (size + 20) false with
    | some iterator =>
      have hfrom := (alloc_of_hole hsize hfind ha).1
      have hordered :=
        allocFrom_ordered hl hsize (ho.remove (findSmallestHole_some hfind).1) hfrom
      exact hordered
    | none =>
      rw [hfind] at hcall
      simp only [alloc, newSize_eq hsize, hfind] at ha
      obtain ⟨k₁, hg, ha⟩ := Option.bind_eq_some_iff.1 ha
      obtain ⟨header, iterator, hgrown⟩ :=
        grow_grown hl hfind (htables hfind) hcall.1 hcall.2.1 hg
      obtain ⟨⟨gs₁, hl₁⟩, -⟩ := grow_spans hl hcall.1 hcall.2.1 hg
      have hfrom := (alloc_of_hole hsize hgrown.find ha).1
      have hordered := allocFrom_ordered hl₁ hsize (hgrown.ordered hl ho) hfrom
      exact hordered

/-! ## Freeing -/

/-- The size of the joined hole when `free` is done. -/
def joinedSize (p : Nat) (h : Heap) : Nat :=
  if holeEnd p h = h.endAddress then h.startAddress + heapMinSize - holeStart p h
  else holeEnd p h - holeStart p h

/-- If the block is joined with a hole on its left, the entries before that hole in the index
are not larger than the joined hole will be, and those behind it not smaller. A hole on the
right of the block does not count, it leaves the index. -/
def OrderOk (p : Nat) (h : Heap) : Prop :=
  leftHole (marked p h) (sub32 p 12) = true → h.index.toList.Pairwise fun a b =>
    (a = holeStart p h → b ≠ add32 (footerOf p h) 8 → joinedSize p h ≤ sizeAt h.mem b) ∧
      (b = holeStart p h → a ≠ add32 (footerOf p h) 8 → sizeAt h.mem a ≤ joinedSize p h)

/-- What a call of `free` leaves of the sizes and the index: the entries other than the joined
hole `header` keep their sizes, and it is entered anew unless it was the left hole. -/
structure Freed (p : Nat) (h h' : Heap) (index : OrderedArray Nat) : Prop where
  sublist : index.toList.Sublist h.index.toList
  next : add32 (footerOf p h) 8 ∉ index.toList
  sizes : ∀ c ∈ index.toList, c ≠ holeStart p h → sizeAt h'.mem c = sizeAt h.mem c
  size : sizeAt h'.mem (holeStart p h) = joinedSize p h
  index : h'.index = if leftHole (marked p h) (sub32 p 12) then index
    else index.insert (headerLessThan h'.mem) (holeStart p h)

/-- The heap after the end was given back, if the hole reaches it: the joined hole has its last
size, and headers outside it are as before. -/
theorem shrunk_sizes {H s total : Nat} {u : Bytes × Nat × Bool} {m : Bytes}
    {index : OrderedArray Nat} {live : List (Nat × Nat)} {vmem : VirtualMemory} {k₁ : Kernel}
    (hlt : h.endAddress < 4294967296) (hle : h.startAddress ≤ u.2.1)
    (hmem : AgreeOff u.2.1 (u.2.1 + total) h.mem m) (hheader : HeaderAt m ⟨u.2.1, total, true⟩)
    (hcut : u.2.1 + total = h.endAddress →
      u.2.1 + 20 ≤ h.startAddress + heapMinSize ∧ h.startAddress + heapMinSize < 4294967296)
    (hk₁ : (if u.2.1 + total = h.endAddress then
        shrink u.2.1 (H + s) ⟨{ h with mem := m, live, index }, vmem⟩
      else some ⟨{ h with mem := m, live, index }, vmem⟩) = some k₁) :
    k₁.heap.index = index ∧
      sizeAt k₁.heap.mem u.2.1 =
        (if u.2.1 + total = h.endAddress then h.startAddress + heapMinSize - u.2.1 else total) ∧
      ∀ c, c + 20 ≤ u.2.1 ∨ u.2.1 + total ≤ c ∧ c + 20 ≤ h.endAddress →
        sizeAt k₁.heap.mem c = sizeAt h.mem c := by
  have hsizes : ∀ c, c + 20 ≤ u.2.1 ∨ u.2.1 + total ≤ c ∧ c + 20 ≤ h.endAddress →
      sizeAt m c = sizeAt h.mem c := fun c hc => sizeAt_agree hmem (by omega)
  split at hk₁
  · next hreach =>
    obtain ⟨hmin, hmax⟩ := hcut hreach
    obtain ⟨m', vmem', rfl, hagree, hheader'⟩ := shrink_spec hheader hreach hlt hle hmin hmax hk₁
    refine ⟨rfl, ?_, fun c hc => ?_⟩
    · rw [if_pos hreach]
      exact hheader'.2.2
    · rw [← hsizes c hc]
      exact sizeAt_agree hagree (by omega)
  · next hreach =>
    obtain rfl := Option.some.inj hk₁
    refine ⟨rfl, ?_, hsizes⟩
    rw [if_neg hreach]
    exact hheader.2.2

/-- A hole right behind the block is joined, so it is not in the index any more. -/
theorem next_not_mem {H s header total : Nat} {rights : List (Seg Bool)} {m : Bytes}
    {index : OrderedArray Nat} (hl : Layout h gs) (hb : 8 ≤ H + s ∧ H + s < 4294967296)
    (hr : UnifiedRight h header (H + s) size rights total m index) : H + s ∉ index.toList := by
  intro hc
  obtain ⟨-, hmem⟩ := hr.index_spec hl.index_nodup
  obtain ⟨hc, hne⟩ := (hmem _).1 hc
  obtain ⟨g, hg, htag, hga⟩ := (hl.mem_index _).1 hc
  have hright : rightHole h.mem (H + s - 8) = true := by
    obtain ⟨h₁, h₂, -⟩ := hl.header g hg
    rw [hga] at h₁ h₂
    unfold rightHole
    rw [show add32 (H + s - 8) 8 = H + s by rw [add32_eq (by omega)]; omega, h₁, h₂, htag]
    rfl
  rcases hr.rights with ⟨-, -, -, hno⟩ | ⟨sr, i, rfl, -⟩
  · rw [hright] at hno
    cases hno
  · exact hne _ List.mem_cons_self rfl

theorem free_freed {p n : Nat} {vmem : VirtualMemory} {k' : Kernel} (hl : Layout h gs)
    (hp : (p, n) ∈ h.live) (hok : FreeOk p h) (hf : free p ⟨h, vmem⟩ = some k') :
    ∃ index, Freed p h k'.heap index := by
  obtain ⟨⟨H, s, tag⟩, hB, rfl, rfl, -⟩ := hl.of_live hp
  simp only at hok hf hp
  have hb := hl.bounds hB
  simp only at hb
  obtain ⟨hleft, -, hcut⟩ := hok
  obtain ⟨u, xs, lefts, rights, ys, size, total, m, index, k₁, heq, rfl, hu, hr, -,
    ⟨hfooter, hstart, hend⟩, hk₁, rfl⟩ := free_cases hl hB hleft hf
  rw [hstart, hend] at hcut
  obtain ⟨a, b, hx, hmid, hy⟩ := hl.run
  obtain ⟨rfl, rfl, h20, -, hlefts⟩ := joined_run hmid hu hr
  obtain ⟨-, hmem⟩ := hr.index_spec hl.index_nodup
  obtain ⟨hindex, hsize, hsizes⟩ :=
    shrunk_sizes hl.end_lt hx.le hr.mem hr.header hcut hk₁
  have hnext : add32 (footerOf (H + 12) h) 8 = H + s := by
    rw [hfooter, add32_eq (by omega)]
    omega
  have hadd : u.2.2 = !leftHole (marked (H + 12) h) (sub32 (H + 12) 12) := by
    rw [heq, unifyLeft_add, sub32_header H (by omega)]
  -- `indexInsert` writes to the index only
  have hk' : (if u.2.2 then { k₁ with heap := k₁.heap.indexInsert u.2.1 } else k₁).heap.mem =
      k₁.heap.mem ∧ (if u.2.2 then { k₁ with heap := k₁.heap.indexInsert u.2.1 }
        else k₁).heap.index =
      if u.2.2 then k₁.heap.index.insert (headerLessThan k₁.heap.mem) u.2.1
        else k₁.heap.index := by
    cases u.2.2 <;> exact ⟨rfl, rfl⟩
  refine ⟨index, hr.sublist, ?_, ?_, ?_, ?_⟩
  · rw [hnext]
    exact next_not_mem hl (by omega) hr
  · intro c hc hne
    rw [hstart] at hne
    rw [hk'.1]
    refine hsizes c (hl.index_apart hx hy ((hmem c).1 hc).1 fun g hg ht hga => ?_)
    simp only [List.mem_append, List.mem_singleton] at hg
    rcases hg with (hg | rfl) | hg
    · exact hne (hga.symm.trans (hlefts g hg))
    · cases ht
    · exact ((hmem c).1 hc).2 g hg hga
  · unfold joinedSize
    rw [hk'.1, hstart, hend, hsize, Nat.add_sub_cancel_left]
  · rw [hk'.2, hk'.1, hindex, hstart, hadd]
    cases leftHole (marked (H + 12) h) (sub32 (H + 12) 12) <;> rfl

theorem free_ordered {p n : Nat} {vmem : VirtualMemory} {k' : Kernel} (hl : Layout h gs)
    (ho : Ordered h.mem h.index) (hp : (p, n) ∈ h.live) (hok : FreeOk p h) (hord : OrderOk p h)
    (hf : free p ⟨h, vmem⟩ = some k') : Ordered k'.heap.mem k'.heap.index := by
  obtain ⟨index, hfreed⟩ := free_freed hl hp hok hf
  have hkeep : Ordered h.mem index := ho.sublist hfreed.sublist
  rw [hfreed.index]
  cases hleft : leftHole (marked p h) (sub32 p 12) with
  | false =>
    simp only [Bool.false_eq_true, if_false]
    obtain ⟨g, hg, htag, hga, -⟩ := hl.of_live hp
    have hb := hl.bounds hg
    have hstart : holeStart p h = g.addr := by
      unfold holeStart
      rw [hleft, ← hga, sub32_header g.addr (by omega)]
      rfl
    -- the header of the block is new in the index
    refine (hkeep.congr fun c hc => hfreed.sizes c hc fun heq => ?_).insert _
    obtain ⟨g', hg', htag', hga'⟩ := (hl.mem_index c).1 (hfreed.sublist.subset hc)
    rw [hl.eq_of_addr hg' hg (hga'.trans (heq.trans hstart)), htag] at htag'
    cases htag'
  | true =>
    simp only [if_true]
    -- the left hole stays where it is, with its new size
    have hpairs := (hord hleft).sublist hfreed.sublist
    have hnodup := hl.index_nodup.sublist hfreed.sublist
    refine (hkeep.and (hpairs.and hnodup)).imp_of_mem fun {a b} ha hb hab => ?_
    obtain ⟨hle, ⟨h₁, h₂⟩, hne⟩ := hab
    have hna : a ≠ add32 (footerOf p h) 8 := fun heq => hfreed.next (heq ▸ ha)
    have hnb : b ≠ add32 (footerOf p h) 8 := fun heq => hfreed.next (heq ▸ hb)
    by_cases haH : a = holeStart p h
    · rw [hfreed.sizes b hb fun h => hne (haH.trans h.symm), haH, hfreed.size]
      exact h₁ haH hnb
    · rw [hfreed.sizes a ha haH]
      by_cases hbH : b = holeStart p h
      · rw [hbH, hfreed.size]
        exact h₂ hbH hna
      · rw [hfreed.sizes b hb hbH]
        exact hle

/-! ## Runs -/

/-- A layout whose index is sorted. -/
def SortedLayout (h : Heap) : Prop := (∃ gs, Layout h gs) ∧ Ordered h.mem h.index

theorem Layout.ordered (hl : Layout h gs) (ho : Ordered h.mem h.index) {m : Bytes}
    (hl' : Layout { h with mem := m } gs) : Ordered m h.index := by
  refine ho.congr fun c hc => ?_
  obtain ⟨g, hg, -, rfl⟩ := (hl.mem_index c).1 hc
  rw [(hl.header g hg).2.2]
  exact (hl'.header g hg).2.2

theorem sortedLayout_created {k : Kernel} (hk : Created k) : SortedLayout k.heap := by
  cases hk with
  | create vmem hok hc =>
    have hl := create_layout hok hc
    refine ⟨⟨_, hl⟩, List.pairwise_of_forall_mem_list fun a ha b hb => ?_⟩
    -- both entries are the one hole
    obtain ⟨g, hg, -, rfl⟩ := (hl.mem_index a).1 ha
    obtain ⟨g', hg', -, rfl⟩ := (hl.mem_index b).1 hb
    rw [List.mem_singleton.1 hg, List.mem_singleton.1 hg']

/-- The condition on a call of `free`. -/
def FreeInOrder (p : Nat) (h : Heap) : Prop := FreeOk p h ∧ OrderOk p h

theorem sortedLayout_step {k k' : Kernel} (hk : SortedLayout k.heap)
    (hs : Step UnalignedOk FreeInOrder k k') : SortedLayout k'.heap := by
  obtain ⟨⟨gs, hl⟩, ho⟩ := hk
  cases hs with
  | alloc hsize hok ha =>
    obtain rfl := hok.1
    exact ⟨(alloc_layout hl (hok.2.1 _) ha).1, alloc_ordered hl ho hok ha⟩
  | free hp hok hf =>
    exact ⟨(free_layout hl hp hok.1 hf).1, free_ordered hl ho hp hok.1 hok.2 hf⟩
  | write hp hm => exact ⟨⟨gs, hl.write hp hm⟩, Layout.ordered hl ho (hl.write hp hm)⟩
  | outside hm => exact ⟨⟨gs, hl.outside hm⟩, Layout.ordered hl ho (hl.outside hm)⟩

/-- **Best fit.** In every state that a run reaches whose allocations are without alignment and
meet `UnalignedOk`, and whose calls of `free` meet `FreeOk` and `OrderOk`, the index is sorted by
the sizes of the holes, and `find_smallest_hole` finds none exactly when none is large enough,
and otherwise the smallest that is. -/
theorem best_fit {k : Kernel} (hk : Reach Created (Step UnalignedOk FreeInOrder) k) :
    BestFit k.heap :=
  bestFit_of_ordered (Reach.invariant (I := fun k => SortedLayout k.heap)
    (fun _ h => sortedLayout_created h) (fun _ _ h hs => sortedLayout_step h hs) hk).2

theorem unalignedOk_of_hole {iterator : Nat} {k : Kernel} (hsize : size + 20 < 4294967296)
    (hfind : k.heap.findSmallestHole (size + 20) false = some iterator) :
    UnalignedOk size false k := by
  refine ⟨rfl, allocOk_of_hole hsize hfind, fun hnone => ?_⟩
  rw [hfind] at hnone
  cases hnone

/-- Two blocks are live, and the index has the hole of a freed one and the rest of the heap. -/
theorem best_fit_freed :
    ∃ h r₁ r₂ r₃ k, ThreeBlocks h r₁ r₂ r₃ k ∧ BestFit k.heap := by
  obtain ⟨h, r₁, r₂, r₃, k, hb⟩ := threeBlocks
  obtain ⟨i₁, i₂, i₃, h₁, h₂, h₃⟩ := hb.finds
  have hok : CreateOk 0xC0100000 0xC0190000 := by decide +kernel
  have hstart : Created ⟨h, VirtualMemory.blankMemory⟩ := .create _ hok hb.create
  have hreach : Reach Created (Step UnalignedOk FreeInOrder) r₃.2 := (((Reach.init hstart).step
    (.alloc (by decide) (unalignedOk_of_hole (by decide) h₁) hb.first)).step
    (.alloc (by decide) (unalignedOk_of_hole (by decide) h₂) hb.second)).step
    (.alloc (by decide) (unalignedOk_of_hole (by decide) h₃) hb.third)
  have hfree : FreeInOrder r₂.1 r₃.2.heap := by
    refine ⟨hb.freeOk, fun hleft => ?_⟩
    rw [hb.left] at hleft
    cases hleft
  exact ⟨h, r₁, r₂, r₃, k, hb, best_fit (hreach.step (.free hb.live hfree hb.free))⟩

/-- Five blocks are allocated; the first is freed, then the fourth, then the second, which is
joined with the first. -/
def unsortedCalls : List Call :=
  [.alloc 100 false, .alloc 100 false, .alloc 100 false, .alloc 150 false, .alloc 100 false,
    .free 0xC018200C, .free 0xC0182174, .free 0xC0182084]

/-- The joined hole of 240 bytes stays in front of the one of 170 bytes in the index, and the
search for 150 bytes stops at it. -/
theorem left_merge_unsorts_index :
    ∃ h k, Heap.create (fun _ => 0) 0xC0100000 0xC0190000 0xCFFFF000 false false = some h ∧
      execAll unsortedCalls ⟨h, mappedMemory⟩ = some k ∧
      k.heap.findSmallestHole 150 false = some 0 ∧ 1 < k.heap.index.size ∧
      sizeAt k.heap.mem (k.heap.index.array 0) = 240 ∧
      sizeAt k.heap.mem (k.heap.index.array 1) = 170 := by
  have hrun : ((Heap.create (fun _ => 0) 0xC0100000 0xC0190000 0xCFFFF000 false false).bind
      fun h => (execAll unsortedCalls ⟨h, mappedMemory⟩).map fun k =>
        (k.heap.findSmallestHole 150 false, decide (1 < k.heap.index.size),
          sizeAt k.heap.mem (k.heap.index.array 0), sizeAt k.heap.mem (k.heap.index.array 1))) =
      some (some 0, true, 240, 170) := by
    decide +kernel
  obtain ⟨h, hc, hrest⟩ := Option.bind_eq_some_iff.1 hrun
  obtain ⟨k, he, heq⟩ := Option.map_eq_some_iff.1 hrest
  simp only [Prod.mk.injEq, decide_eq_true_eq] at heq
  exact ⟨h, k, hc, he, heq⟩

end Kernel

end Ulysses
