import Ulysses.KHeap.Carve

/-!
# Progress of allocation

A call of `alloc` that finds a hole returns if the hole has room for the pieces (`Carves`). One
that finds none gives the space of an `expand` to the endmost hole and calls itself. The search
then stops after one growth for data without alignment, and after two for page-aligned data: the
second growth adds a page at least, and the search asks for no more than that in front of the
data. With an empty index there is no endmost hole; the code then means to enter one, behind an
assertion that compares the old and the new length the wrong way round, so such a call never
returns (`alloc_stuck`).

For a new page without a page table, `get_kernel_page` calls `alloc` in the middle of `expand`.
In `mapPages` these calls have fuel for one search: holes serve them.
-/

namespace Ulysses

open Lib Bytes Heap

namespace Kernel

/-! ## Conditions -/

/-- What the carving reads back as the size of the hole in front of page-aligned data. With
less than 20 bytes the footer of that hole runs into its header. -/
def frontField (pos : Nat) : Nat :=
  sizeAt (putFooter (putHeader (fun _ => 0) pos 1 (frontSize pos)) (sub32 (frontEnd pos) 8) pos)
    pos

/-- The hole that the search stops at, if it does, has room for the block, and for page-aligned
data more than the hole in front has. -/
def Carves (size : Nat) (pageAlign : Bool) (h : Heap) : Prop :=
  ∀ iterator pos, h.findSmallestHole (size + 20) pageAlign = some iterator →
    h.index.lookup iterator = some pos →
      size + 20 ≤ sizeAt h.mem pos ∧ (Moves pageAlign pos → frontField pos < sizeAt h.mem pos)

/-- There are addresses for the heap to grow for `size` bytes. -/
structure RoomOk (size : Nat) (h : Heap) : Prop where
  word : WordOk size h
  max : grownEnd size h ≤ h.maxAddress

/-- The loop of `expand`, in which `alloc_frame` succeeds for every page and a hole serves every
page table that is missing. -/
def mapPages (size : Nat) (k : Kernel) : Option Kernel :=
  (newPages size k.heap).foldlM (mapPage (alloc 1)) k

/-- The endmost hole has `s` bytes at `header` and lies in the heap. -/
structure EndmostAt (header s : Nat) (h : Heap) : Prop where
  found : ∃ idx, (endmost h).1 = some idx ∧ h.index.lookup idx = some header
  size : sizeAt h.mem header = s
  inside : header + s ≤ h.endAddress

/-- The hole of `s` bytes at `header` has taken the space with which the heap grows. -/
def enlarged (size header s : Nat) (k : Kernel) : Kernel :=
  let endAddress := grownEnd size k.heap
  let s := s + (endAddress - k.heap.endAddress)
  let mem := putFooter (putSize k.heap.mem header s) (header + s - 8) header
  { k with heap := { k.heap with endAddress, mem } }

/-- The new pages are mapped, and then the endmost hole takes the space. -/
def Grows (size header s : Nat) (k k' : Kernel) : Prop :=
  ∃ k₁, mapPages size k = some k₁ ∧ EndmostAt header s k₁.heap ∧ k' = enlarged size header s k₁

/-- The condition on a call: a hole that is found can be carved; if none is, the heap can grow.
Page-aligned data may need a second growth. Its pages are mapped without using the endmost hole,
whose size is compared as an `int`. -/
def ProgressOk (size : Nat) (pageAlign : Bool) (k : Kernel) : Prop :=
  Carves size pageAlign k.heap ∧
    (k.heap.findSmallestHole (size + 20) pageAlign = none → ∃ header s k₁,
      Grows size header s k k₁ ∧ (pageAlign = true → Carves size true k₁.heap ∧
        (k₁.heap.findSmallestHole (size + 20) true = none →
          RoomOk size k₁.heap ∧ grownEnd size k₁.heap - header < 2147483648 ∧
            ∃ k₂, Grows size header (s + (k₁.heap.endAddress - k.heap.endAddress)) k₁ k₂ ∧
              Carves size true k₂.heap)))

/-! ## A call that finds a hole -/

theorem sizeAt_carveFront (pos : Nat) (h : Heap) :
    sizeAt (h.carveFront pos).mem pos = frontField pos := by
  refine read32_congr fun x h₁ h₂ => ?_
  have hsize : ∀ m, putHeader m pos 1 (frontSize pos) x =
      putHeader (fun _ => 0) pos 1 (frontSize pos) x := by
    intro m
    unfold putHeader write32
    rw [if_pos ⟨h₁, h₂⟩, if_pos ⟨h₁, h₂⟩]
  unfold carveFront putFooter write32
  simp only [hsize h.mem]

variable {k : Kernel} {pageAlign : Bool} {size : Nat} {h : Heap}

theorem alloc_carves {iterator : Nat} (hsize : size + 20 < 4294967296)
    (hok : Carves size pageAlign k.heap)
    (hfind : k.heap.findSmallestHole (size + 20) pageAlign = some iterator) :
    ∃ r, ∀ fuel, alloc (fuel + 1) size pageAlign k = some r := by
  have hpos := OrderedArray.lookup_eq_some.2 ⟨(findSmallestHole_some hfind).1, rfl⟩
  obtain ⟨hge, hfront⟩ := hok iterator _ hfind hpos
  obtain ⟨r, hr⟩ := allocFrom_isSome hsize hpos hge fun hm => by
    rw [sizeAt_carveFront]
    exact hfront hm
  refine ⟨(r.1, { k with heap := r.2 }), fun fuel => ?_⟩
  rw [alloc_eq hsize hfind, hr, Option.map_some]

theorem carves_unaligned (size : Nat) (h : Heap) : Carves size false h := by
  intro iterator pos hfind hpos
  have hfits := (findSmallestHole_some hfind).2
  rw [(OrderedArray.lookup_eq_some.1 hpos).2] at hfits
  exact ⟨by simpa [fits] using hfits, fun hm => absurd hm.1 Bool.false_ne_true⟩

theorem fits_of_le {header : Nat} (hle : size + 4096 ≤ sizeAt h.mem header)
    (hlt : sizeAt h.mem header < 2147483648) : h.fits size pageAlign header = true := by
  unfold fits
  split
  · simp only [decide_eq_true_eq]
    have hmod := Nat.mod_lt (add32 header 12) (show 0 < 4096 by decide)
    rw [s32_eq (x := (sizeAt h.mem header : Int)) (by omega) (by omega),
      s32_eq (x := (size : Int)) (by omega) (by omega)]
    split
    · rw [s32_eq (x := 4096 - (add32 header 12 % 4096 : Nat)) (by omega) (by omega),
        s32_eq (by omega) (by omega)]
      omega
    · rw [s32_eq (by omega) (by omega)]
      omega
  · simp only [decide_eq_true_eq]
    omega

/-! ## The loop of `expand` -/

theorem alloc_one_cases {r : Nat × Kernel} (ha : alloc 1 size pageAlign k = some r) :
    (∀ fuel, alloc (fuel + 1) size pageAlign k = some r) ∧
      ∃ iterator, k.heap.allocFrom iterator size pageAlign = some (r.1, r.2.heap) := by
  cases hfind : k.heap.findSmallestHole (add32 (add32 size 12) 8) pageAlign with
  | none =>
    simp only [alloc, hfind] at ha
    obtain ⟨k₁, -, ha⟩ := Option.bind_eq_some_iff.1 ha
    cases ha
  | some iterator =>
    simp only [alloc, hfind] at ha ⊢
    refine ⟨fun _ => ha, iterator, ?_⟩
    obtain ⟨r', hr', rfl⟩ := Option.map_eq_some_iff.1 ha
    exact hr'

/-- More fuel does not change a page that was mapped, and the heap stays where it is. -/
theorem mapPage_one {address : Nat} {k' : Kernel} (hm : mapPage (alloc 1) k address = some k') :
    (∀ fuel, mapPage (alloc (fuel + 1)) k address = some k') ∧
      k'.heap.startAddress = k.heap.startAddress ∧ k'.heap.endAddress = k.heap.endAddress := by
  unfold mapPage at hm ⊢
  split at hm
  · refine ⟨fun _ => hm, ?_⟩
    obtain ⟨vmem, -, rfl⟩ := Option.map_eq_some_iff.1 hm
    exact ⟨rfl, rfl⟩
  · obtain ⟨r, hr, hm⟩ := Option.bind_eq_some_iff.1 hm
    obtain ⟨hfuel, iterator, hfrom⟩ := alloc_one_cases hr
    obtain ⟨hstart, hend, -⟩ := allocFrom_frame hfrom
    refine ⟨fun fuel => ?_, ?_⟩
    · rw [hfuel fuel]
      exact hm
    · obtain ⟨page, -, hm⟩ := Option.bind_eq_some_iff.1 hm
      obtain ⟨vmem, -, rfl⟩ := Option.map_eq_some_iff.1 hm
      exact ⟨hstart, hend⟩

theorem mapPages_one {pages : List Nat} {k' : Kernel}
    (hm : pages.foldlM (mapPage (alloc 1)) k = some k') :
    (∀ fuel, pages.foldlM (mapPage (alloc (fuel + 1))) k = some k') ∧
      k'.heap.startAddress = k.heap.startAddress ∧ k'.heap.endAddress = k.heap.endAddress := by
  induction pages generalizing k with
  | nil =>
    obtain rfl := Option.some.inj hm
    exact ⟨fun _ => rfl, rfl, rfl⟩
  | cons address pages ih =>
    obtain ⟨k₁, h₁, hm⟩ := Option.bind_eq_some_iff.1 hm
    obtain ⟨hfuel, hstart, hend⟩ := mapPage_one h₁
    obtain ⟨hfuel', hstart', hend'⟩ := ih hm
    refine ⟨fun fuel => ?_, hstart'.trans hstart, hend'.trans hend⟩
    rw [List.foldlM_cons, hfuel fuel]
    exact hfuel' fuel

/-! ## Growing -/

theorem expandSize_eq {newSize : Nat} (hge : 4096 ≤ newSize)
    (hword : (newSize / 4096 + 1) * 4096 < 4294967296) :
    expandSize newSize = (newSize / 4096 + 1) * 4096 := by
  have hlt : newSize < 4294967296 := by omega
  unfold expandSize
  rw [and_pageMask hlt, if_pos (by omega), add32_eq (by omega)]
  omega

/-- The length of a grown heap is a multiple of the page size, so the next growth adds a page at
least. -/
theorem grownEnd_page {h' : Heap} (hlt : h.endAddress < 4294967296)
    (hpage : h.startAddress + 4096 ≤ h.endAddress) (hword : WordOk size h)
    (hstart : h'.startAddress = h.startAddress) (hend : h'.endAddress = grownEnd size h)
    (hword' : WordOk size h') : h'.endAddress + 4096 ≤ grownEnd size h' := by
  obtain ⟨hge, hlt'⟩ := grownEnd_bounds (by omega) hlt hword
  have hlen : h.length = h.endAddress - h.startAddress := sub32_eq (by omega) hlt
  have hlen' : h'.length = h'.endAddress - h'.startAddress := sub32_eq (by omega) (by omega)
  unfold WordOk at hword hword'
  unfold grownEnd at hge hend ⊢
  rw [expandSize_eq (by omega) (by omega)] at hend
  rw [expandSize_eq (by omega) (by omega)]
  omega

section Grows

variable {size header s : Nat} {k k' : Kernel} (hle : k.heap.startAddress ≤ k.heap.endAddress)
  (hlt : k.heap.endAddress < 4294967296)

include hle hlt

theorem grow_eq {k₁ : Kernel} (hroom : RoomOk size k.heap) (hm : mapPages size k = some k₁)
    (fuel : Nat) :
    grow (alloc (fuel + 1)) (size + 20) k =
      (adjustEndmost k.heap.length k.heap.endAddress
        { k₁.heap with endAddress := grownEnd size k.heap }).map
          fun heap => { k₁ with heap } := by
  have hend := (grownEnd_bounds hle hlt hroom.word).2
  have hlen : k.heap.length = k.heap.endAddress - k.heap.startAddress := sub32_eq hle hlt
  obtain ⟨hword, hmax⟩ := hroom
  obtain ⟨hloop, hstart, -⟩ := mapPages_one hm
  have hloop := hloop fuel
  unfold WordOk at hword
  unfold grownEnd at hmax hend ⊢
  unfold newPages at hloop
  have hadd : add32 k.heap.startAddress (expandSize (k.heap.length + (size + 20))) =
      k.heap.startAddress + expandSize (k.heap.length + (size + 20)) := add32_eq hend
  have hexpand : expand (alloc (fuel + 1)) (k.heap.length + (size + 20)) k =
      some { k₁ with
        heap := { k₁.heap with
          endAddress := k.heap.startAddress + expandSize (k.heap.length + (size + 20)) } } := by
    unfold expand
    simp only
    rw [if_pos (by omega), hadd, if_pos hmax, hloop, Option.map_some]
    simp only [hstart, hadd]
  unfold grow
  simp only
  rw [add32_eq (by omega), hexpand, Option.bind_some]

theorem Grows.grow_eq (hg : Grows size header s k k') (hroom : RoomOk size k.heap) (fuel : Nat) :
    grow (alloc (fuel + 1)) (size + 20) k = some k' := by
  obtain ⟨k₁, hm, ⟨⟨idx, hidx, hheader⟩, rfl, hin⟩, rfl⟩ := hg
  obtain ⟨-, hs₁, he₁⟩ := mapPages_one hm
  obtain ⟨hge, hend⟩ := grownEnd_bounds hle hlt hroom.word
  have hlen : k₁.heap.length = k.heap.length := by
    unfold Heap.length
    rw [hs₁, he₁]
  have hgrown : grownEnd size k₁.heap = grownEnd size k.heap := by
    unfold grownEnd
    rw [hs₁, hlen]
  rw [Kernel.grow_eq hle hlt hroom hm, ← hlen, ← he₁, adjustEndmost_some (by omega) (by omega)
    hend hidx hheader hin rfl (by omega), Option.map_some]
  unfold enlarged
  simp only [hgrown]

theorem Grows.endmostAt (hg : Grows size header s k k') (hword : WordOk size k.heap) :
    k'.heap.startAddress = k.heap.startAddress ∧
      k'.heap.endAddress = grownEnd size k.heap ∧
      EndmostAt header (s + (grownEnd size k.heap - k.heap.endAddress)) k'.heap := by
  obtain ⟨k₁, hm, ⟨⟨idx, hidx, hheader⟩, rfl, hin⟩, rfl⟩ := hg
  obtain ⟨-, hs₁, he₁⟩ := mapPages_one hm
  obtain ⟨hge, hend⟩ := grownEnd_bounds hle hlt hword
  have hgrown : grownEnd size k₁.heap = grownEnd size k.heap := by
    unfold grownEnd Heap.length
    rw [hs₁, he₁]
  unfold enlarged
  simp only [hgrown, he₁]
  rw [he₁] at hin
  generalize grownEnd size k.heap = endAddress at hge hend ⊢
  refine ⟨hs₁, trivial, ⟨idx, hidx, hheader⟩, ?_, by simp only; omega⟩
  simp only
  rw [sizeAt_agree (putFooter_agree _ _ _) (by omega)]
  unfold sizeAt putSize
  exact read32_write32_same _ _ (by unfold sizeAt at hin; omega)

end Grows

theorem alloc_grown {k' : Kernel} (n : Nat) (hsize : size + 20 < 4294967296)
    (hfind : k.heap.findSmallestHole (size + 20) pageAlign = none)
    (hgrow : ∀ fuel, grow (alloc (fuel + 1)) (size + 20) k = some k')
    (ha : ∃ r, ∀ fuel, alloc (fuel + n + 1) size pageAlign k' = some r) :
    ∃ r, ∀ fuel, alloc (fuel + n + 2) size pageAlign k = some r := by
  obtain ⟨r, hr⟩ := ha
  refine ⟨r, fun fuel => ?_⟩
  rw [alloc]
  simp only [newSize_eq hsize, hfind, hgrow, Option.bind_some]
  exact hr fuel

/-! ## An empty index -/

theorem WordOk.mono {m n : Nat} (hword : WordOk n h) (hle : m ≤ n) : WordOk m h := by
  unfold WordOk at hword ⊢
  have hdiv : (h.length + (m + 20)) / 4096 ≤ (h.length + (n + 20)) / 4096 :=
    Nat.div_le_div_right (Nat.add_le_add_left (Nat.add_le_add_right hle 20) _)
  exact Nat.lt_of_le_of_lt
    (Nat.add_le_add_left (Nat.mul_le_mul_right 4096 (Nat.add_le_add_right hdiv 1)) _) hword

theorem findSmallestHole_empty (hempty : h.index.size = 0) (size : Nat) (pageAlign : Bool) :
    h.findSmallestHole size pageAlign = none := by
  unfold findSmallestHole
  rw [hempty]
  rfl

/-- If `alloc` returns for no page table, the loop of `expand` leaves the heap as it is. -/
theorem mapPages_stuck {alloc : Nat → Bool → Kernel → Option (Nat × Kernel)}
    (hstuck : ∀ k, k.heap = h → alloc 0x1000 true k = none) {pages : List Nat} {k' : Kernel}
    (hk : k.heap = h) (hm : pages.foldlM (mapPage alloc) k = some k') : k'.heap = h := by
  refine foldlM_invariant (P := fun k => k.heap = h) pages (fun k₁ address k₂ _ h₁ h₂ => ?_) hk hm
  unfold mapPage at h₂
  split at h₂
  · obtain ⟨vmem, -, rfl⟩ := Option.map_eq_some_iff.1 h₂
    exact h₁
  · rw [hstuck k₁ h₁] at h₂
    cases h₂

/-- Without a hole in the index no call returns, those for page tables included. -/
theorem alloc_stuck (hle : h.startAddress ≤ h.endAddress) (hlt : h.endAddress < 4294967296)
    (hempty : h.index.size = 0) (htable : WordOk 0x1000 h) (hword : WordOk size h)
    (pageAlign : Bool) (hk : k.heap = h) (fuel : Nat) : alloc fuel size pageAlign k = none := by
  induction fuel generalizing size pageAlign k with
  | zero => rfl
  | succ fuel ih =>
    obtain ⟨hge, hend⟩ := grownEnd_bounds hle hlt hword
    have hlen : h.length = h.endAddress - h.startAddress := sub32_eq hle hlt
    have hsize : size + 20 < 4294967296 := by omega
    have hgrow : grow (alloc fuel) (size + 20) k = none := by
      refine Option.eq_none_iff_forall_ne_some.2 fun k' hg => ?_
      unfold WordOk at hword
      obtain ⟨k₁, hm, ha⟩ := grow_eq_some (by rw [hk]; omega) hg
      have hk₁ := mapPages_stuck (fun k hk => ih htable true hk) hk hm
      have hnone : (endmost h).1 = none := by
        unfold endmost
        rw [hempty]
        rfl
      unfold grownEnd at hge hend
      rw [hk₁, hk, add32_eq hend, adjustEndmost_none hle (by omega) hend hnone] at ha
      cases ha
    simp only [alloc, newSize_eq hsize, hk, findSmallestHole_empty hempty, hgrow, Option.bind_none]

/-! ## Progress -/

/-- A new heap begins and ends at page boundaries. -/
theorem create_page {mem : Bytes} {start endAddr max : Nat} {supervisor readonly : Bool}
    (hok : CreateOk start endAddr)
    (hc : Heap.create mem start endAddr max supervisor readonly = some h) :
    h.startAddress + 4096 ≤ h.endAddress := by
  obtain ⟨hle, hlt⟩ := hok
  have hdvd : 4096 ∣ heapStart start := Nat.dvd_add (Nat.dvd_mul_left _ _) (by decide)
  rw [create_cases (by omega) hc]
  have hend : endAddr % 4096 = 0 := by
    unfold Heap.create at hc
    simp only at hc
    split at hc
    · next hpage => exact hpage.2
    · cases hc
  show heapStart start + 4096 ≤ endAddr
  omega

/-- Along a run the heap has a layout and a page at least. -/
theorem layout_reach (hk : Reach Created (Step AllocOk FreeOk) k) :
    (∃ gs, Layout k.heap gs) ∧ k.heap.startAddress + 4096 ≤ k.heap.endAddress := by
  refine Reach.invariant
    (I := fun k => (∃ gs, Layout k.heap gs) ∧ k.heap.startAddress + 4096 ≤ k.heap.endAddress)
    (fun k h => ⟨layout_created h, ?_⟩) (fun k k' h hs => ⟨layout_step h.1 hs, ?_⟩) hk
  · cases h with
    | create vmem hok hc => exact create_page hok hc
  · obtain ⟨⟨gs, hl⟩, hlen⟩ := h
    cases hs with
    | alloc hsize hok ha =>
      obtain ⟨-, hstart, hend⟩ := alloc_layout hl (hok _) ha
      omega
    | free hp hok hf =>
      obtain ⟨-, hstart, hend⟩ := free_layout hl hp hok hf
      simp only [heapMinSize] at hend
      omega
    | write hp hm => exact hlen
    | outside hm => exact hlen

theorem EndmostAt.find {header s : Nat} (he : EndmostAt header s h)
    (hfits : h.fits size pageAlign header = true) :
    ∃ iterator, h.findSmallestHole size pageAlign = some iterator := by
  obtain ⟨idx, -, hheader⟩ := he.found
  exact findSmallestHole_isSome hheader hfits

/-- Two growths are enough: with them the endmost hole has a page more than was asked for. -/
theorem alloc_returns (hle : k.heap.startAddress ≤ k.heap.endAddress)
    (hlt : k.heap.endAddress < 4294967296) (hpage : k.heap.startAddress + 4096 ≤ k.heap.endAddress)
    (hsize : size + 20 < 4294967296)
    (hroom : k.heap.findSmallestHole (size + 20) pageAlign = none → RoomOk size k.heap)
    (hok : ProgressOk size pageAlign k) :
    ∃ r, ∀ fuel, alloc (fuel + 3) size pageAlign k = some r := by
  cases hfind : k.heap.findSmallestHole (size + 20) pageAlign with
  | some iterator =>
    obtain ⟨r, hr⟩ := alloc_carves hsize hok.1 hfind
    exact ⟨r, fun fuel => hr (fuel + 2)⟩
  | none =>
    obtain ⟨header, s, k₁, hg, haligned⟩ := hok.2 hfind
    have hroom₀ := hroom hfind
    obtain ⟨hge, hlt₁⟩ := grownEnd_bounds hle hlt hroom₀.word
    obtain ⟨hs₁, he₁, hend₁⟩ := hg.endmostAt hle hlt hroom₀.word
    have hgrow := hg.grow_eq hle hlt hroom₀
    -- one growth, if the search stops then
    have hone : Carves size pageAlign k₁.heap →
        (∃ iterator, k₁.heap.findSmallestHole (size + 20) pageAlign = some iterator) →
        ∃ r, ∀ fuel, alloc (fuel + 3) size pageAlign k = some r := by
      rintro hc ⟨iterator, hfind₁⟩
      obtain ⟨r, hr⟩ := alloc_grown 0 hsize hfind hgrow (alloc_carves hsize hc hfind₁)
      exact ⟨r, fun fuel => hr (fuel + 1)⟩
    cases pageAlign with
    | false =>
      refine hone (carves_unaligned size _) (hend₁.find ?_)
      simp only [fits, Bool.false_eq_true, if_false, decide_eq_true_eq, hend₁.size]
      omega
    | true =>
      obtain ⟨hc₁, hsecond⟩ := haligned rfl
      cases hfind₁ : k₁.heap.findSmallestHole (size + 20) true with
      | some iterator => exact hone hc₁ ⟨iterator, hfind₁⟩
      | none =>
        obtain ⟨hroom₁, hint, k₂, hg₂, hc₂⟩ := hsecond hfind₁
        have hmore := grownEnd_page hlt hpage hroom₀.word hs₁ he₁ hroom₁.word
        have hlt₂ := (grownEnd_bounds (by omega) (by omega) hroom₁.word).2
        obtain ⟨-, he₂, hend₂⟩ := hg₂.endmostAt (by omega) (by omega) hroom₁.word
        have hin := hend₂.inside
        have hfits : k₂.heap.fits (size + 20) true header = true :=
          fits_of_le (by rw [hend₂.size]; omega) (by rw [hend₂.size]; omega)
        obtain ⟨iterator, hfind₂⟩ := hend₂.find hfits
        exact alloc_grown 1 hsize hfind hgrow (alloc_grown 0 hsize hfind₁
          (hg₂.grow_eq (by omega) (by omega) hroom₁) (alloc_carves hsize hc₂ hfind₂))

/-- A memory with page tables for the addresses below `0xC0400000`. -/
def boundaryMemory : VirtualMemory :=
  { mappedMemory with
    directories := fun _ => { tables := fun i => if i < 0x301 then some 0xC0200000 else none } }

end Kernel

end Ulysses
