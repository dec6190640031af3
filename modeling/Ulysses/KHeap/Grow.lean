import Ulysses.KHeap.Alloc

/-!
# Growing the heap

When no hole fits, `alloc` extends the heap and gives the new space to the
endmost hole of the index, wherever that hole is. This keeps the layout when the
endmost hole reaches the old end of the heap. Mapping the new pages may need page
tables, which come from the heap itself: such a call in the middle of `expand` is
harmless when a hole serves it, while a nested `expand` would count the new space
twice.

`CallsOk` collects the conditions along a call of `alloc`, in the order in which
the call meets the states they speak of.
-/

namespace Ulysses

open Lib Bytes Heap

namespace Kernel

/-! ## Conditions -/

/-- Page-aligned data fits in the hole that was found, and the index has room for the hole
behind it. -/
def HoleOk (size : Nat) (pageAlign : Bool) (iterator : Nat) (h : Heap) : Prop :=
  ∀ pos, h.index.lookup iterator = some pos → Moves pageAlign pos →
    CarveOk size pos h ∧ h.IndexRoom

/-- A page table can be had from a hole. -/
def TableOk (h : Heap) : Prop :=
  ∃ iterator, h.findSmallestHole 0x1014 true = some iterator ∧ HoleOk 0x1000 true iterator h

/-- The endmost hole, if there is one, ends where the heap does. -/
def EndmostOk (h : Heap) : Prop :=
  ∀ idx header, (endmost h).1 = some idx → h.index.lookup idx = some header →
    header + sizeAt h.mem header = h.endAddress

/-- The loop of `expand` finds a hole for every page table it needs, and leaves
the endmost hole at the end of the heap. -/
def LoopOk (alloc : Nat → Bool → Kernel → Option (Nat × Kernel)) : List Nat → Kernel → Prop
  | [], k => EndmostOk k.heap
  | address :: rest, k =>
    ((k.vmem.getKernelPage address false (0, 0)).1 = none → TableOk k.heap) ∧
      ∀ k', mapPage alloc k address = some k' → LoopOk alloc rest k'

/-- The end of the heap after it has grown for `size` bytes. -/
def grownEnd (size : Nat) (h : Heap) : Nat :=
  h.startAddress + expandSize (h.length + (size + 20))

/-- The pages with which the heap grows for `size` bytes. -/
def newPages (size : Nat) (h : Heap) : List Nat :=
  expandPages h.startAddress h.length (expandSize (h.length + (size + 20)))

/-- The end of the grown heap is a word. -/
def WordOk (size : Nat) (h : Heap) : Prop :=
  h.startAddress + ((h.length + (size + 20)) / 4096 + 1) * 4096 < 4294967296

/-- The conditions along a call of `alloc`. -/
def CallsOk : Nat → Nat → Bool → Kernel → Prop
  | 0, _, _, _ => True
  | fuel + 1, size, pageAlign, k =>
    size + 20 < 4294967296 ∧
      match k.heap.findSmallestHole (size + 20) pageAlign with
      | some iterator => HoleOk size pageAlign iterator k.heap
      | none =>
        WordOk size k.heap ∧ LoopOk (alloc fuel) (newPages size k.heap) k ∧
          ∀ k', grow (alloc fuel) (size + 20) k = some k' → CallsOk fuel size pageAlign k'

/-- The condition on a call of `alloc`. -/
def AllocOk (size : Nat) (pageAlign : Bool) (k : Kernel) : Prop :=
  ∀ fuel, CallsOk fuel size pageAlign k

/-! ## Mapping the new pages -/

/-- A heap with a layout between two addresses. -/
def Spans (start endAddress : Nat) (h : Heap) : Prop :=
  (∃ gs, Layout h gs) ∧ h.startAddress = start ∧ h.endAddress = endAddress

variable {size fuel : Nat} {k : Kernel} {pageAlign : Bool} {gs : List (Seg Bool)} {h : Heap}

theorem newSize_eq (h : size + 20 < 4294967296) : add32 (add32 size 12) 8 = size + 20 := by
  unfold add32
  omega

theorem alloc_of_hole {r : Nat × Kernel} (hsize : size + 20 < 4294967296) {iterator : Nat}
    (hfind : k.heap.findSmallestHole (size + 20) pageAlign = some iterator)
    (ha : alloc fuel size pageAlign k = some r) :
    k.heap.allocFrom iterator size pageAlign = some (r.1, r.2.heap) ∧ r.2.vmem = k.vmem := by
  cases fuel with
  | zero => cases ha
  | succ fuel =>
    simp only [alloc, newSize_eq hsize, hfind] at ha
    obtain ⟨r', hr', rfl⟩ := Option.map_eq_some_iff.1 ha
    exact ⟨hr', rfl⟩

theorem Spans.table {s e : Nat} {r : Nat × Kernel} (hk : Spans s e k.heap) (hok : TableOk k.heap)
    (ha : alloc fuel 0x1000 true k = some r) :
    Spans s e r.2.heap ∧ (r.1, 0x1000) ∈ r.2.heap.live := by
  obtain ⟨⟨gs, hl⟩, hstart, hend⟩ := hk
  obtain ⟨iterator, hfind, hhole⟩ := hok
  obtain ⟨hfrom, -⟩ := alloc_of_hole (by omega) hfind ha
  obtain ⟨hs, he, hlive⟩ := allocFrom_frame hfrom
  refine ⟨⟨hl.allocFrom (by omega) (fun pos hpos hm => (hhole pos hpos hm).1) hfrom,
    hs.trans hstart, he.trans hend⟩, ?_⟩
  simp only at hlive
  rw [hlive]
  exact List.mem_cons_self

theorem Spans.mapPage {s e address : Nat} {k' : Kernel} (hk : Spans s e k.heap)
    (hok : (k.vmem.getKernelPage address false (0, 0)).1 = none → TableOk k.heap)
    (hm : mapPage (alloc fuel) k address = some k') : Spans s e k'.heap := by
  unfold Kernel.mapPage at hm
  split at hm
  · obtain ⟨vmem, -, rfl⟩ := Option.map_eq_some_iff.1 hm
    exact hk
  · next hnone =>
    obtain ⟨r, hr, hm⟩ := Option.bind_eq_some_iff.1 hm
    obtain ⟨page, -, hm⟩ := Option.bind_eq_some_iff.1 hm
    obtain ⟨vmem, -, rfl⟩ := Option.map_eq_some_iff.1 hm
    obtain ⟨⟨⟨gs, hl⟩, hstart, hend⟩, hlive⟩ := hk.table (hok hnone) hr
    refine ⟨⟨gs, hl.write hlive fun x hx => ?_⟩, hstart, hend⟩
    rw [if_neg (by omega)]

theorem Spans.mapPages {s e : Nat} {pages : List Nat} {k' : Kernel} (hk : Spans s e k.heap)
    (hok : LoopOk (alloc fuel) pages k)
    (hm : pages.foldlM (Kernel.mapPage (alloc fuel)) k = some k') :
    Spans s e k'.heap ∧ EndmostOk k'.heap := by
  induction pages generalizing k with
  | nil =>
    obtain rfl := Option.some.inj hm
    exact ⟨hk, hok⟩
  | cons address pages ih =>
    obtain ⟨k₁, h₁, hm⟩ := Option.bind_eq_some_iff.1 hm
    exact ih (hk.mapPage hok.1 h₁) (hok.2 k₁ h₁) hm

/-! ## The endmost hole -/

theorem expandSize_bounds {newSize : Nat} (h : (newSize / 4096 + 1) * 4096 < 4294967296) :
    newSize ≤ expandSize newSize ∧ expandSize newSize ≤ (newSize / 4096 + 1) * 4096 := by
  have hlt : newSize < 4294967296 := by omega
  unfold expandSize
  rw [and_pageMask hlt]
  split
  · unfold add32
    omega
  · omega

theorem length_eq (hl : Layout h gs) :
    h.length = h.endAddress - h.startAddress := sub32_eq hl.tiles.le hl.end_lt

theorem lookup_mem {i header : Nat} (hi : h.index.lookup i = some header) :
    header ∈ h.index.toList :=
  OrderedArray.mem_toList.2 ⟨i, OrderedArray.lookup_eq_some.1 hi⟩

section Endmost

variable {h : Heap} (hle : h.startAddress ≤ h.endAddress) {endAddress : Nat}
  (hgrow : h.endAddress < endAddress) (hlt : endAddress < 4294967296)

include hle hgrow hlt

theorem length_grown :
    Heap.length { h with endAddress := endAddress } = endAddress - h.startAddress :=
  sub32_eq (by simp only; omega) hlt

/-- Without a hole the assertion on the lengths fails: it asks for a smaller length than before. -/
theorem adjustEndmost_none (hnone : (endmost h).1 = none) :
    adjustEndmost h.length h.endAddress { h with endAddress := endAddress } = none := by
  have hold : h.length = h.endAddress - h.startAddress := sub32_eq hle (by omega)
  have hend : endmost { h with endAddress := endAddress } = endmost h := rfl
  unfold adjustEndmost
  simp only [length_grown hle hgrow hlt, hend, hnone]
  rw [if_neg (by omega)]

/-- After the end has moved, the endmost hole takes the new space. -/
theorem adjustEndmost_some {idx header : Nat} (hidx : (endmost h).1 = some idx)
    (hheader : h.index.lookup idx = some header) {size : Nat}
    (hin : header + sizeAt h.mem header ≤ h.endAddress)
    (hsize : sizeAt h.mem header + (endAddress - h.endAddress) = size) (h8 : 8 ≤ size) :
    adjustEndmost h.length h.endAddress { h with endAddress := endAddress } =
      some { h with
        endAddress := endAddress
        mem := putFooter (putSize h.mem header size) (header + size - 8) header } := by
  have hold : h.length = h.endAddress - h.startAddress := sub32_eq hle (by omega)
  have hend : endmost { h with endAddress := endAddress } = endmost h := rfl
  have hadd : add32 (sizeAt h.mem header) (sub32 (endAddress - h.startAddress) h.length) =
      size := by
    rw [sub32_eq (by omega) (by omega), add32_eq (by omega)]
    omega
  have hfooter : sub32 (add32 header size) 8 = header + size - 8 := by
    rw [add32_eq (by omega), sub32_eq (by omega) (by omega)]
  unfold adjustEndmost
  simp only [length_grown hle hgrow hlt, hend, hidx, hheader, Option.bind_some]
  rw [if_pos (by omega)]
  simp only [hadd, hfooter]

end Endmost

theorem adjustEndmost_cases {h' : Heap} (hl : Layout h gs) {endAddress : Nat}
    (hgrow : h.endAddress < endAddress) (hlt : endAddress < 4294967296) (hok : EndmostOk h)
    (ha : adjustEndmost h.length h.endAddress { h with endAddress := endAddress } = some h') :
    ∃ idx header m, (endmost h).1 = some idx ∧ h.index.lookup idx = some header ∧
      h' = { h with mem := m, endAddress := endAddress } ∧
      AgreeOff header endAddress h.mem m ∧
      HeaderAt m ⟨header, endAddress - header, true⟩ := by
  cases hidx : (endmost h).1 with
  | none =>
    rw [adjustEndmost_none hl.tiles.le hgrow hlt hidx] at ha
    cases ha
  | some idx =>
    cases hheader : h.index.lookup idx with
    | none =>
      have hend : endmost { h with endAddress := endAddress } = endmost h := rfl
      unfold adjustEndmost at ha
      simp only [hend, hidx, hheader] at ha
      cases ha
    | some header =>
      have hlast := hok idx header hidx hheader
      have hb := hl.index_bounds (lookup_mem hheader)
      obtain ⟨xs, ys, rfl⟩ := hl.hole (lookup_mem hheader)
      rw [adjustEndmost_some hl.tiles.le hgrow hlt hidx hheader (by omega)
        (show _ = endAddress - header by omega) (by omega)] at ha
      have hput := (hl.header ⟨header, sizeAt h.mem header, true⟩ (by simp)).putSize
        (show endAddress - header < 4294967296 by omega)
      have hagree := putFooter_agree (putSize h.mem header (endAddress - header))
        (header + (endAddress - header) - 8) header
      refine ⟨idx, header, _, rfl, hheader, (Option.some.inj ha).symm, ?_, ?_⟩
      · exact ((putSize_agree h.mem header _).mono (by omega) (by omega)).trans
          (hagree.mono (by omega) (by omega))
      · exact hput.agree hagree (by simp only; omega)

theorem adjustEndmost_spans {h' : Heap} (hl : Layout h gs) (hok : EndmostOk h) {endAddress : Nat}
    (hgrow : h.endAddress < endAddress) (hlt : endAddress < 4294967296)
    (ha : adjustEndmost h.length h.endAddress { h with endAddress := endAddress } = some h') :
    Spans h.startAddress endAddress h' := by
  obtain ⟨idx, header, m, hidx, hheader, rfl, hm, hgrown⟩ :=
    adjustEndmost_cases hl hgrow hlt hok ha
  have hlast := hok idx header hidx hheader
  have hb := hl.index_bounds (lookup_mem hheader)
  obtain ⟨xs, ys, rfl⟩ := hl.hole (lookup_mem hheader)
  exact ⟨⟨_, hl.resizeLast hlast (by omega) hlt hm hgrown⟩, rfl, rfl⟩

/-! ## The whole call -/

theorem grownEnd_bounds (hle : h.startAddress ≤ h.endAddress) (hlt : h.endAddress < 4294967296)
    (hword : WordOk size h) :
    h.endAddress + (size + 20) ≤ grownEnd size h ∧ grownEnd size h < 4294967296 := by
  unfold WordOk at hword
  have hlen : h.length = h.endAddress - h.startAddress := sub32_eq hle hlt
  obtain ⟨hlo, hhi⟩ := expandSize_bounds
    (show ((h.length + (size + 20)) / 4096 + 1) * 4096 < 4294967296 by omega)
  unfold grownEnd
  omega

/-- `grow` is the loop over the new pages, the move of the end, and the adjustment
of the endmost hole. -/
theorem grow_eq_some {alloc : Nat → Bool → Kernel → Option (Nat × Kernel)} {k' : Kernel}
    (hlen : k.heap.length + (size + 20) < 4294967296) (hg : grow alloc (size + 20) k = some k') :
    ∃ k₁, (newPages size k.heap).foldlM (mapPage alloc) k = some k₁ ∧
      adjustEndmost k.heap.length k.heap.endAddress
        { k₁.heap with
          endAddress := add32 k₁.heap.startAddress (expandSize (k.heap.length + (size + 20))) } =
        some k'.heap := by
  obtain ⟨k₁, he, hg⟩ := Option.bind_eq_some_iff.1 hg
  obtain ⟨h', ha, rfl⟩ := Option.map_eq_some_iff.1 hg
  rw [add32_eq hlen] at he
  unfold expand at he
  simp only [show k.heap.length + (size + 20) > k.heap.length by omega, if_true] at he
  split at he
  · obtain ⟨k₁, hloop, rfl⟩ := Option.map_eq_some_iff.1 he
    exact ⟨k₁, hloop, ha⟩
  · cases he

theorem grow_cases {k' : Kernel} (hl : Layout k.heap gs) (hword : WordOk size k.heap)
    (hok : LoopOk (alloc fuel) (newPages size k.heap) k)
    (hg : grow (alloc fuel) (size + 20) k = some k') :
    ∃ k₁, (newPages size k.heap).foldlM (mapPage (alloc fuel)) k = some k₁ ∧
      Spans k.heap.startAddress k.heap.endAddress k₁.heap ∧ EndmostOk k₁.heap ∧
      adjustEndmost k₁.heap.length k₁.heap.endAddress
        { k₁.heap with endAddress := grownEnd size k.heap } = some k'.heap := by
  have hlen := length_eq hl
  have hlt := (grownEnd_bounds hl.tiles.le hl.end_lt hword).2
  unfold WordOk at hword
  obtain ⟨k₁, hloop, ha⟩ := grow_eq_some (by omega) hg
  have hspan : Spans k.heap.startAddress k.heap.endAddress k.heap := ⟨⟨gs, hl⟩, rfl, rfl⟩
  obtain ⟨⟨⟨gs₁, hl₁⟩, hs₁, he₁⟩, hend₁⟩ := hspan.mapPages hok hloop
  have hlen₁ : k₁.heap.length = k.heap.length := by rw [length_eq hl₁, hlen, hs₁, he₁]
  have hnew : add32 k₁.heap.startAddress (expandSize (k.heap.length + (size + 20))) =
      grownEnd size k.heap := by
    rw [hs₁]
    exact add32_eq hlt
  rw [hnew, ← hlen₁, ← he₁] at ha
  exact ⟨k₁, hloop, ⟨⟨gs₁, hl₁⟩, hs₁, he₁⟩, hend₁, ha⟩

theorem grow_spans {k' : Kernel} (hl : Layout k.heap gs) (hword : WordOk size k.heap)
    (hok : LoopOk (alloc fuel) (newPages size k.heap) k)
    (hg : grow (alloc fuel) (size + 20) k = some k') :
    Spans k.heap.startAddress (grownEnd size k.heap) k'.heap := by
  obtain ⟨k₁, -, ⟨⟨gs₁, hl₁⟩, hs₁, he₁⟩, hend₁, ha⟩ := grow_cases hl hword hok hg
  obtain ⟨hge, hlt⟩ := grownEnd_bounds hl.tiles.le hl.end_lt hword
  rw [← hs₁]
  exact adjustEndmost_spans hl₁ hend₁ (by omega) hlt ha

/-- A call of `alloc` that meets the conditions keeps the layout and the start of the heap, and
moves its end up at most. -/
theorem alloc_layout {r : Nat × Kernel} (hl : Layout k.heap gs)
    (hok : CallsOk fuel size pageAlign k) (ha : alloc fuel size pageAlign k = some r) :
    (∃ gs', Layout r.2.heap gs') ∧ r.2.heap.startAddress = k.heap.startAddress ∧
      k.heap.endAddress ≤ r.2.heap.endAddress := by
  induction fuel generalizing k gs with
  | zero => cases ha
  | succ fuel ih =>
    obtain ⟨hsize, hok⟩ := hok
    cases hfind : k.heap.findSmallestHole (size + 20) pageAlign with
    | some iterator =>
      rw [hfind] at hok
      obtain ⟨hfrom, -⟩ := alloc_of_hole hsize hfind ha
      obtain ⟨hstart, hend, -⟩ := allocFrom_frame hfrom
      exact ⟨hl.allocFrom hsize (fun pos hpos hm => (hok pos hpos hm).1) hfrom, hstart,
        Nat.le_of_eq hend.symm⟩
    | none =>
      rw [hfind] at hok
      simp only [alloc, newSize_eq hsize, hfind] at ha
      obtain ⟨k₁, hg, ha⟩ := Option.bind_eq_some_iff.1 ha
      obtain ⟨⟨gs₁, hl₁⟩, hstart, hend⟩ := grow_spans hl hok.1 hok.2.1 hg
      obtain ⟨hlayout, hs, he⟩ := ih hl₁ (hok.2.2 k₁ hg) ha
      have hge := (grownEnd_bounds hl.tiles.le hl.end_lt hok.1).1
      exact ⟨hlayout, hs.trans hstart, by omega⟩

/-! ## The search -/

theorem findSmallestHole_some {iterator : Nat}
    (hfind : h.findSmallestHole size pageAlign = some iterator) :
    iterator < h.index.size ∧ h.fits size pageAlign (h.index.array iterator) = true := by
  unfold findSmallestHole at hfind
  exact ⟨List.mem_range.1 (List.mem_of_find?_eq_some hfind), by simpa using List.find?_some hfind⟩

theorem findSmallestHole_none (hfind : h.findSmallestHole size pageAlign = none) {i : Nat}
    (hi : i < h.index.size) : h.fits size pageAlign (h.index.array i) = false := by
  unfold findSmallestHole at hfind
  simpa using List.find?_eq_none.1 hfind i (List.mem_range.2 hi)

/-- A hole that fits is found, or another one before it. -/
theorem findSmallestHole_isSome {idx header : Nat} (hheader : h.index.lookup idx = some header)
    (hfits : h.fits size pageAlign header = true) :
    ∃ iterator, h.findSmallestHole size pageAlign = some iterator := by
  obtain ⟨hlt, harr⟩ := OrderedArray.lookup_eq_some.1 hheader
  cases hfind : h.findSmallestHole size pageAlign with
  | none =>
    have hno := findSmallestHole_none hfind hlt
    rw [harr, hfits] at hno
    cases hno
  | some iterator => exact ⟨iterator, rfl⟩

end Kernel

end Ulysses
