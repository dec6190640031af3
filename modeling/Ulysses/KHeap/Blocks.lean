import Ulysses.Lib.Reach
import Ulysses.KHeap.Free

/-!
# Live blocks do not overlap

The runs of the heap: `create`, then calls of `alloc` and `free`, with writes of
the clients to their payloads in between. Memory outside the heap and the page
tables may change at any time.

Along a run whose calls meet `AllocOk` and `FreeOk` the heap keeps a layout, and
so the live blocks are disjoint, lie inside the heap and have the room that was
asked for. Without the conditions they may overlap: when the endmost hole is not
the end of the heap, growing gives the new space to a hole that then runs into the
blocks behind it.
-/

namespace Ulysses

open Lib Bytes Heap

/-! ## Runs -/

/-- The `start_address` of a heap created at `start`: after the `Heap` object and
the index, one page further than rounded. -/
def heapStart (start : Nat) : Nat := (start + 28 + 4095) / 4096 * 4096 + 0x81000

/-- The area for the heap lies below `2 ^ 32` and has room for a hole. -/
def CreateOk (start endAddr : Nat) : Prop :=
  heapStart start + 20 ≤ endAddr ∧ endAddr < 4294967296

instance (start endAddr : Nat) : Decidable (CreateOk start endAddr) :=
  inferInstanceAs (Decidable (_ ∧ _))

namespace Kernel

inductive Created : Kernel → Prop
  | create {mem : Bytes} {start endAddr max : Nat} {supervisor readonly : Bool} {h : Heap}
      (vmem : VirtualMemory) (hok : CreateOk start endAddr)
      (hc : Heap.create mem start endAddr max supervisor readonly = some h) : Created ⟨h, vmem⟩

/-- The steps of a run, the calls under the conditions `allocOk` and `freeOk`. -/
inductive Step (allocOk : Nat → Bool → Kernel → Prop) (freeOk : Nat → Heap → Prop) :
    Kernel → Kernel → Prop
  | alloc {k : Kernel} {fuel size : Nat} {pageAlign : Bool} {r : Nat × Kernel}
      (hsize : size < 4294967296) (hok : allocOk size pageAlign k)
      (ha : alloc fuel size pageAlign k = some r) : Step allocOk freeOk k r.2
  | free {k k' : Kernel} {p n : Nat} (hp : (p, n) ∈ k.heap.live) (hok : freeOk p k.heap)
      (hf : free p k = some k') : Step allocOk freeOk k k'
  | write {h : Heap} {vmem : VirtualMemory} {p n : Nat} {m : Bytes} (hp : (p, n) ∈ h.live)
      (hm : AgreeOff p (p + n) h.mem m) : Step allocOk freeOk ⟨h, vmem⟩ ⟨{ h with mem := m }, vmem⟩
  | outside {h : Heap} {vmem vmem' : VirtualMemory} {m : Bytes}
      (hm : ∀ x, h.startAddress ≤ x → x < h.endAddress → m x = h.mem x) :
      Step allocOk freeOk ⟨h, vmem⟩ ⟨{ h with mem := m }, vmem'⟩

/-- The header and the end of the block with pointer `p`. -/
def blockStart (p : Nat) : Nat := sub32 p 12

def blockEnd (h : Heap) (p : Nat) : Nat := blockStart p + sizeAt h.mem (blockStart p)

/-- The live blocks are pairwise disjoint, inside the heap, and large enough. -/
def BlocksOk (h : Heap) : Prop :=
  (h.live.Pairwise fun e e' =>
    blockEnd h e.1 ≤ blockStart e'.1 ∨ blockEnd h e'.1 ≤ blockStart e.1) ∧
  ∀ e ∈ h.live, h.startAddress ≤ blockStart e.1 ∧ blockEnd h e.1 ≤ h.endAddress ∧
    e.2 + 20 ≤ sizeAt h.mem (blockStart e.1)

instance (h : Heap) : Decidable (BlocksOk h) := inferInstanceAs (Decidable (_ ∧ _))

/-! ## The first layout -/

theorem heapStart_eq {start : Nat} (h : heapStart start < 4294967296) :
    add32 (add32 (pageAlignUp (add32 start 28)) (mul32 4 heapIndexSize) &&& 0xFFFFF000) 0x1000 =
      heapStart start ∧
    add32 (pageAlignUp (add32 start 28)) (mul32 4 heapIndexSize) &&& 0xFFFFF000 ≠ 0 := by
  rw [show mul32 4 heapIndexSize = 0x80000 from rfl]
  unfold heapStart at h ⊢
  have hpage : pageAlignUp (add32 start 28) = (start + 28 + 4095) / 4096 * 4096 := by
    unfold pageAlignUp
    rw [add32_eq (a := start) (by omega), add32_eq (by omega), and_pageMask (by omega)]
  have hdvd : 4096 ∣ (start + 28 + 4095) / 4096 * 4096 := Nat.dvd_mul_left _ _
  rw [hpage]
  generalize (start + 28 + 4095) / 4096 * 4096 = base at h hdvd ⊢
  have hadd : 4096 ∣ base + 0x80000 := Nat.dvd_add hdvd (by decide)
  rw [add32_eq (a := base) (by omega), and_pageMask (by omega), Nat.div_mul_cancel hadd,
    add32_eq (by omega)]
  exact ⟨by omega, by omega⟩

theorem create_cases {mem : Bytes} {start endAddr max : Nat} {supervisor readonly : Bool}
    {h : Heap} (hstart : heapStart start < 4294967296)
    (hc : Heap.create mem start endAddr max supervisor readonly = some h) :
    h = indexInsert (heapStart start)
      { mem := putHeader mem (heapStart start) 1 (sub32 endAddr (heapStart start))
        index := { array := fun _ => 0, size := 0, maxSize := heapIndexSize }
        startAddress := heapStart start
        endAddress := endAddr
        maxAddress := max
        supervisor
        readonly
        live := [] } := by
  obtain ⟨heq, hne⟩ := heapStart_eq hstart
  unfold Heap.create at hc
  simp only [heq, hne, ne_eq, not_false_eq_true, if_true] at hc
  split at hc
  · exact (Option.some.inj hc).symm
  · cases hc

theorem create_layout {mem : Bytes} {start endAddr max : Nat} {supervisor readonly : Bool}
    {h : Heap} (hok : CreateOk start endAddr)
    (hc : Heap.create mem start endAddr max supervisor readonly = some h) :
    Layout h [⟨heapStart start, endAddr - heapStart start, true⟩] := by
  obtain ⟨hle, hlt⟩ := hok
  have hcase := create_cases (by omega) hc
  rw [sub32_eq (by omega) hlt] at hcase
  generalize heapStart start = s at hcase hle ⊢
  have hheader : HeaderAt (putHeader mem s 1 (endAddr - s)) ⟨s, endAddr - s, true⟩ :=
    headerAt_putHeader mem s true (by omega)
  generalize putHeader mem s 1 (endAddr - s) = m at hcase hheader
  subst hcase
  have hindex : ∀ c, c ∈ (OrderedArray.insert (headerLessThan m) s
      { array := fun _ => 0, size := 0, maxSize := heapIndexSize }).toList ↔ c = s := by
    intro c
    rw [OrderedArray.mem_toList_insert, OrderedArray.mem_toList]
    simp
  refine ⟨⟨tiles_singleton.2 ⟨rfl, by simp only; omega, by simp [indexInsert]; omega⟩, hlt, ?_, ?_,
    ?_⟩, List.nodup_nil, ?_, ?_⟩
  · intro g hg
    rw [List.mem_singleton.1 hg]
    exact hheader
  · refine OrderedArray.nodup_toList_insert.2 ⟨fun h => ?_, List.nodup_nil⟩
    obtain ⟨i, hi, -⟩ := OrderedArray.mem_toList.1 h
    exact absurd hi (Nat.not_lt_zero i)
  · intro c
    simp only [List.mem_singleton, exists_eq_left, true_and]
    exact (hindex c).trans eq_comm
  · intro p
    simp [indexInsert]
  · intro p n g hp
    cases hp

/-! ## Layouts along a run -/

theorem layout_created {k : Kernel} (hk : Created k) : ∃ gs, Layout k.heap gs := by
  cases hk with
  | create vmem hok hc => exact ⟨_, create_layout hok hc⟩

theorem layout_step {k k' : Kernel} (hk : ∃ gs, Layout k.heap gs) (hs : Step AllocOk FreeOk k k') :
    ∃ gs, Layout k'.heap gs := by
  obtain ⟨gs, hl⟩ := hk
  cases hs with
  | alloc hsize hok ha => exact (alloc_layout hl (hok _) ha).1
  | free hp hok hf => exact (free_layout hl hp hok hf).1
  | write hp hm => exact ⟨gs, hl.write hp hm⟩
  | outside hm => exact ⟨gs, hl.outside hm⟩

theorem blocksOk_of_layout {h : Heap} {gs : List (Seg Bool)} (hl : Layout h gs) : BlocksOk h := by
  -- the block of a live pointer is its segment
  have hseg : ∀ e ∈ h.live, ∃ g ∈ gs, blockStart e.1 = g.addr ∧ blockEnd h e.1 = g.addr + g.size ∧
      sizeAt h.mem (blockStart e.1) = g.size ∧ e.2 + 20 ≤ g.size ∧ g.addr + 12 = e.1 := by
    intro e he
    obtain ⟨g, hg, -, ha, hn⟩ := hl.of_live he
    have hb := hl.bounds hg
    have hstart : blockStart e.1 = g.addr := by
      unfold blockStart
      rw [← ha, sub32_header g.addr (by omega)]
    have hsize : sizeAt h.mem (blockStart e.1) = g.size := by
      rw [hstart]
      exact (hl.header g hg).2.2
    refine ⟨g, hg, hstart, ?_, hsize, hn, ha⟩
    unfold blockEnd
    rw [hsize, hstart]
  constructor
  · have hnodup : h.live.Pairwise fun e e' => e.1 ≠ e'.1 := List.pairwise_map.1 hl.live_nodup
    refine hnodup.imp_of_mem fun {e e'} he he' hne => ?_
    obtain ⟨g, hg, h₁, h₂, -, -, h₃⟩ := hseg e he
    obtain ⟨g', hg', h₁', h₂', -, -, h₃'⟩ := hseg e' he'
    rw [h₁, h₂, h₁', h₂']
    exact hl.tiles.disjoint hg hg' fun heq => hne (by rw [← h₃, ← h₃', heq])
  · intro e he
    obtain ⟨g, hg, h₁, h₂, h₃, h₄, -⟩ := hseg e he
    have hb := hl.bounds hg
    omega

/-- **Live blocks do not overlap.** In every state that a run reaches whose calls
of `alloc` and `free` meet `AllocOk` and `FreeOk`, the live blocks are pairwise
disjoint, inside the heap, and have room for what was asked for. -/
theorem blocks_disjoint {k : Kernel} (hk : Reach Created (Step AllocOk FreeOk) k) :
    BlocksOk k.heap := by
  obtain ⟨gs, hl⟩ := Reach.invariant (I := fun k => ∃ gs, Layout k.heap gs)
    (fun _ h => layout_created h) (fun _ _ h hs => layout_step h hs) hk
  exact blocksOk_of_layout hl

theorem allocOk_of_hole {size iterator : Nat} {k : Kernel} (hsize : size + 20 < 4294967296)
    (hfind : k.heap.findSmallestHole (size + 20) false = some iterator) :
    AllocOk size false k := by
  intro fuel
  cases fuel with
  | zero => trivial
  | succ fuel =>
    refine ⟨hsize, ?_⟩
    rw [hfind]
    intro pos _ hmove
    cases hmove.1

/-- A run of four calls: three blocks are allocated in a new heap over zeroed memory, and the
second is freed, which lies between two live blocks. -/
structure ThreeBlocks (h : Heap) (r₁ r₂ r₃ : Nat × Kernel) (k : Kernel) : Prop where
  create : Heap.create (fun _ => 0) 0xC0100000 0xC0190000 0xCFFFF000 false false = some h
  first : alloc 1 5000 false ⟨h, VirtualMemory.blankMemory⟩ = some r₁
  second : alloc 1 100 false r₁.2 = some r₂
  third : alloc 1 200 false r₂.2 = some r₃
  free : free r₂.1 r₃.2 = some k
  finds : ∃ i₁ i₂ i₃, h.findSmallestHole (5000 + 20) false = some i₁ ∧
    r₁.2.heap.findSmallestHole (100 + 20) false = some i₂ ∧
    r₂.2.heap.findSmallestHole (200 + 20) false = some i₃
  live : (r₂.1, 100) ∈ r₃.2.heap.live
  left : leftHole (marked r₂.1 r₃.2.heap) (sub32 r₂.1 12) = false
  right : rightHole r₃.2.heap.mem (footerOf r₂.1 r₃.2.heap) = false
  room : r₃.2.heap.IndexRoom
  inside : blockEnd r₃.2.heap r₂.1 < r₃.2.heap.endAddress ∧
    holeEnd r₂.1 r₃.2.heap < r₃.2.heap.endAddress
  below : 8 ≤ h.startAddress ∧ magicAt h.mem (h.startAddress - 8) ≠ heapMagic
  pair : k.heap.live.length = 2

theorem threeBlocks : ∃ h r₁ r₂ r₃ k, ThreeBlocks h r₁ r₂ r₃ k := by
  have hrun : (Heap.create (fun _ => 0) 0xC0100000 0xC0190000 0xCFFFF000 false false).bind
      (fun h => (alloc 1 5000 false ⟨h, VirtualMemory.blankMemory⟩).bind fun r₁ =>
        (alloc 1 100 false r₁.2).bind fun r₂ => (alloc 1 200 false r₂.2).bind fun r₃ =>
          (Kernel.free r₂.1 r₃.2).map fun k =>
            let h₃ := r₃.2.heap
            ([h.findSmallestHole (5000 + 20) false,
                r₁.2.heap.findSmallestHole (100 + 20) false,
                r₂.2.heap.findSmallestHole (200 + 20) false],
              [decide ((r₂.1, 100) ∈ h₃.live),
                !leftHole (marked r₂.1 h₃) (sub32 r₂.1 12), !rightHole h₃.mem (footerOf r₂.1 h₃),
                decide (h₃.index.size < h₃.index.maxSize + 1024),
                decide (blockEnd h₃ r₂.1 < h₃.endAddress ∧ holeEnd r₂.1 h₃ < h₃.endAddress),
                decide (8 ≤ h.startAddress ∧ magicAt h.mem (h.startAddress - 8) ≠ heapMagic),
                decide (k.heap.live.length = 2)])) =
      some ([some 0, some 0, some 0], [true, true, true, true, true, true, true]) := by
    decide +kernel
  obtain ⟨h, hc, hrun⟩ := Option.bind_eq_some_iff.1 hrun
  obtain ⟨r₁, ha₁, hrun⟩ := Option.bind_eq_some_iff.1 hrun
  obtain ⟨r₂, ha₂, hrun⟩ := Option.bind_eq_some_iff.1 hrun
  obtain ⟨r₃, ha₃, hrun⟩ := Option.bind_eq_some_iff.1 hrun
  obtain ⟨k, hf, heq⟩ := Option.map_eq_some_iff.1 hrun
  simp only [Prod.mk.injEq, List.cons.injEq, decide_eq_true_eq, Bool.not_eq_true'] at heq
  obtain ⟨⟨h₁, h₂, h₃, -⟩, hlive, hleft, hright, hroom, hin, hbelow, hpair, -⟩ := heq
  exact ⟨h, r₁, r₂, r₃, k, hc, ha₁, ha₂, ha₃, hf, ⟨0, 0, 0, h₁, h₂, h₃⟩, hlive, hleft, hright,
    hroom, hin, hbelow, hpair⟩

theorem ThreeBlocks.freeOk {h : Heap} {r₁ r₂ r₃ : Nat × Kernel} {k : Kernel}
    (hb : ThreeBlocks h r₁ r₂ r₃ k) : FreeOk r₂.1 r₃.2.heap := by
  refine ⟨fun hleft => ?_, fun _ _ => hb.room, fun hend => ?_⟩
  · rw [hb.left] at hleft
    cases hleft
  · have := hb.inside.2
    omega

/-- Two blocks are live, with the hole of a freed one between them. -/
theorem blocks_disjoint_freed :
    ∃ h r₁ r₂ r₃ k, ThreeBlocks h r₁ r₂ r₃ k ∧ BlocksOk k.heap := by
  obtain ⟨h, r₁, r₂, r₃, k, hb⟩ := threeBlocks
  obtain ⟨i₁, i₂, i₃, h₁, h₂, h₃⟩ := hb.finds
  have hok : CreateOk 0xC0100000 0xC0190000 := by decide +kernel
  have hstart : Created ⟨h, VirtualMemory.blankMemory⟩ := .create _ hok hb.create
  have hreach : Reach Created (Step AllocOk FreeOk) r₃.2 := (((Reach.init hstart).step
    (.alloc (by decide) (allocOk_of_hole (by decide) h₁) hb.first)).step
    (.alloc (by decide) (allocOk_of_hole (by decide) h₂) hb.second)).step
    (.alloc (by decide) (allocOk_of_hole (by decide) h₃) hb.third)
  exact ⟨h, r₁, r₂, r₃, k, hb, blocks_disjoint (hreach.step (.free hb.live hb.freeOk hb.free))⟩

/-! ## Runs of calls -/

inductive Call
  | alloc (size : Nat) (pageAlign : Bool)
  | free (p : Nat)

/-- One call; a client frees only what is live. -/
def Call.exec : Call → Kernel → Option Kernel
  | alloc size pageAlign, k =>
    if size < 4294967296 then (Kernel.alloc 3 size pageAlign k).map Prod.snd else none
  | free p, k => if p ∈ k.heap.live.map Prod.fst then Kernel.free p k else none

def execAll (calls : List Call) (k : Kernel) : Option Kernel :=
  calls.foldlM (fun k c => c.exec k) k

theorem reach_execAll {calls : List Call} {k k' : Kernel}
    (hk : Reach Created (Step (fun _ _ _ => True) (fun _ _ => True)) k)
    (he : execAll calls k = some k') :
    Reach Created (Step (fun _ _ _ => True) (fun _ _ => True)) k' := by
  refine foldlM_invariant calls (fun k₁ c k₂ _ h₁ hc => ?_) hk he
  cases c with
  | alloc size pageAlign =>
    simp only [Call.exec] at hc
    split at hc
    · next hsize =>
      obtain ⟨r, ha, rfl⟩ := Option.map_eq_some_iff.1 hc
      exact h₁.step (.alloc hsize trivial ha)
    · cases hc
  | free p =>
    simp only [Call.exec] at hc
    split at hc
    · next hp =>
      obtain ⟨⟨p', n⟩, hlive, rfl⟩ := List.mem_map.1 hp
      exact h₁.step (.free hlive trivial hc)
    · cases hc

/-- The heap is filled with a block of 5000 and one of 52304 bytes; the first is
freed, and its hole is the endmost one although a block is behind it. -/
def overlapCalls : List Call :=
  [.alloc 5000 false, .alloc 52304 false, .free 0xC018200C, .alloc 6000 false]

/-- A memory in which every kernel address has its page table. -/
def mappedMemory : VirtualMemory :=
  { VirtualMemory.blankMemory with
    nframes := 4096
    directories := fun _ => { tables := fun _ => some 0xC0200000 } }

/-- The last of these calls grows the hole at the start of the heap over the second
block, and its own block overlaps it. -/
theorem growth_overlaps_block :
    ∃ k, Reach Created (Step (fun _ _ _ => True) (fun _ _ => True)) k ∧ ¬ BlocksOk k.heap := by
  have hrun : ((Heap.create (fun _ => 0) 0xC0100000 0xC0190000 0xCFFFF000 false false).bind
      fun h => (execAll overlapCalls ⟨h, mappedMemory⟩).map fun k => decide (BlocksOk k.heap)) =
      some false := by decide +kernel
  obtain ⟨h, hc, hrest⟩ := Option.bind_eq_some_iff.1 hrun
  obtain ⟨k, he, hbad⟩ := Option.map_eq_some_iff.1 hrest
  have hok : CreateOk 0xC0100000 0xC0190000 := by decide +kernel
  exact ⟨k, reach_execAll (Reach.init (.create _ hok hc)) he, of_decide_eq_false hbad⟩

end Kernel

end Ulysses
