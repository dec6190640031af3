import Ulysses.Lib.Bytes
import Ulysses.OrderedArray
import Ulysses.Paging.Basic

/-!
# The kernel heap

`kheap.cpp`: the heap lives in a byte memory. A segment starts with a header of
12 bytes (magic at 0, `is_hole` at 4, size at 8) and ends with a footer of 8
bytes (magic at 0, pointer to the header at 4). The index of the holes is an
ordered array of header addresses; it lies below `start_address`, with the 4096
bytes that the rounding in `create` leaves in between, and is memory of its own
here.

`alloc` grows the heap through `expand` when no hole fits. The loop of `expand`
maps pages with `get_kernel_page(_, true)`, which calls `kmalloc_ap` for a
missing page table and so `alloc` again, in the middle of the outer call.
`expand` therefore takes `alloc` as a parameter, and `alloc` itself has fuel.

`none` is a failed assertion, `kabort` or an access through a null pointer.
`live` is history: the pointers that `alloc` returned and that were not passed to
`free` since, each with the size asked for. No function reads it.
-/

namespace Ulysses

open Lib

/-- `HEAP_MAGIC`. -/
def heapMagic : Nat := 0x123890AB

/-- `HEAP_INDEX_SIZE`. -/
def heapIndexSize : Nat := 0x20000

/-- `HEAP_MIN_SIZE`. -/
def heapMinSize : Nat := 0x70000

structure Heap where
  mem : Bytes
  index : OrderedArray Nat
  startAddress : Nat
  endAddress : Nat
  maxAddress : Nat
  supervisor : Bool
  readonly : Bool
  live : List (Nat × Nat)

structure Kernel where
  heap : Heap
  vmem : VirtualMemory

/-! ## Headers and footers -/

def magicAt (m : Bytes) (a : Nat) : Nat := m.read32 a

def isHoleAt (m : Bytes) (header : Nat) : UInt8 := m (header + 4)

def sizeAt (m : Bytes) (header : Nat) : Nat := m.read32 (header + 8)

def hdrAt (m : Bytes) (footer : Nat) : Nat := m.read32 (footer + 4)

def putHeader (m : Bytes) (header : Nat) (isHole : UInt8) (size : Nat) : Bytes :=
  ((m.write32 header heapMagic).write8 (header + 4) isHole).write32 (header + 8) size

def putFooter (m : Bytes) (footer hdr : Nat) : Bytes :=
  (m.write32 footer heapMagic).write32 (footer + 4) hdr

def putSize (m : Bytes) (header size : Nat) : Bytes := m.write32 (header + 8) size

/-- `header::less_than`. -/
def headerLessThan (m : Bytes) (a b : Nat) : Bool := decide (sizeAt m a < sizeAt m b)

namespace Heap

def length (h : Heap) : Nat := sub32 h.endAddress h.startAddress

def indexInsert (header : Nat) (h : Heap) : Heap :=
  { h with index := h.index.insert (headerLessThan h.mem) header }

def indexRemove (i : Nat) (h : Heap) : Heap := { h with index := h.index.remove i }

/-- The loops that look for a header in the index. -/
def indexFind (header : Nat) (h : Heap) : Option Nat :=
  (List.range h.index.size).find? fun i => h.index.array i == header

/-! ## Finding and carving a hole -/

/-- The condition on which the loop of `find_smallest_hole` stops. Sizes are
compared as signed words when the data has to be page aligned. -/
def fits (size : Nat) (pageAlign : Bool) (h : Heap) (header : Nat) : Bool :=
  if pageAlign then
    let offset : Int :=
      if add32 header 12 &&& 0xFFFFF000 ≠ 0 then s32 (4096 - (add32 header 12 % 0x1000 : Nat))
      else 0
    let holeSize := s32 (s32 (sizeAt h.mem header) - offset)
    decide (holeSize ≥ s32 size)
  else decide (sizeAt h.mem header ≥ size)

def findSmallestHole (size : Nat) (pageAlign : Bool) (h : Heap) : Option Nat :=
  (List.range h.index.size).find? fun i => h.fits size pageAlign (h.index.array i)

/-- The size of the hole left in front of page-aligned data in a hole at `pos`. -/
def frontSize (pos : Nat) : Nat := sub32 (sub32 4096 (pos &&& 0xFFF)) 12

/-- Where the block of page-aligned data in a hole at `pos` starts. -/
def frontEnd (pos : Nat) : Nat := sub32 (sub32 (add32 pos 4096) (pos &&& 0xFFF)) 12

def carveFront (pos : Nat) (h : Heap) : Heap :=
  let m := putHeader h.mem pos 1 (frontSize pos)
  { h with mem := putFooter m (sub32 (frontEnd pos) 8) pos }

/-- Write the block. `size` is the payload as far as the footer. -/
def putBlock (pos size newSize : Nat) (h : Heap) : Heap :=
  let m := putHeader h.mem pos 0 newSize
  { h with mem := putFooter m (add32 (add32 pos 12) size) pos }

/-- Write the hole after the block, if there is room for one. -/
def putTail (pos size newSize holeSize : Nat) (h : Heap) : Heap :=
  if holeSize > newSize then
    let header := add32 (add32 (add32 pos 12) size) 8
    let footer := sub32 (sub32 (add32 header holeSize) newSize) 8
    let m := putHeader h.mem header 1 (sub32 holeSize newSize)
    let m := if footer < h.endAddress then putFooter m footer header else m
    { h with mem := m }.indexInsert header
  else h

/-- The block, the hole after it, and the pointer `alloc` returns. -/
def place (pos size newSize holeSize requested : Nat) (h : Heap) : Nat × Heap :=
  let h := (h.putBlock pos size newSize).putTail pos size newSize holeSize
  (add32 pos 12, { h with live := (add32 pos 12, requested) :: h.live })

/-- `alloc` from the hole at an index on. -/
def allocFrom (iterator size : Nat) (pageAlign : Bool) (h : Heap) : Option (Nat × Heap) :=
  (h.index.lookup iterator).bind fun pos =>
    let holeSize := sizeAt h.mem pos
    let newSize := add32 (add32 size 12) 8
    if holeSize ≥ newSize then
      -- a rest too small for a hole of its own goes to the block
      let all := sub32 holeSize newSize < 20
      let size' := if all then add32 size (sub32 holeSize newSize) else size
      let newSize' := if all then holeSize else newSize
      if pageAlign = true ∧ pos &&& 0xFFFFF000 ≠ 0 then
        let h := h.carveFront pos
        let front := sizeAt h.mem pos
        if holeSize > front then
          some (h.place (frontEnd pos) size' newSize' (sub32 holeSize front) size)
        else none
      else some ((h.indexRemove iterator).place pos size' newSize' holeSize size)
    else none

end Heap

/-! ## Growing -/

namespace Kernel

/-- `get_kernel_page(address, true)` and `alloc_frame`, with the `kmalloc_ap` and
the `memset` of a new page table. -/
def mapPage (alloc : Nat → Bool → Kernel → Option (Nat × Kernel)) (k : Kernel) (address : Nat) :
    Option Kernel :=
  let kernelAlloc := k.heap.supervisor
  let writeable := !k.heap.readonly
  match (k.vmem.getKernelPage address false (0, 0)).1 with
  | some e => (k.vmem.allocFrame e kernelAlloc writeable).map fun vmem => { k with vmem }
  | none =>
    (alloc 0x1000 true k).bind fun r =>
      let t := r.1
      let k := r.2
      (k.vmem.getKernelPage t false (0, 0)).1.bind fun page =>
        let phys := add32 (mul32 (k.vmem.page page).frame 0x1000) (t &&& 0xFFF)
        let idx := address / pageSize / 1024
        let vmem := (k.vmem.zeroTable t).putTable k.vmem.kernelDirectory idx t (phys ||| 0x7)
        let mem : Bytes := fun x => if t ≤ x ∧ x < t + 0x1000 then 0 else k.heap.mem x
        (vmem.allocFrame ⟨t, address / pageSize % 1024⟩ kernelAlloc writeable).map fun vmem =>
          { heap := { k.heap with mem }, vmem }

/-- The size `expand` grows to: the next page boundary, one page further when
there is one already. -/
def expandSize (newSize : Nat) : Nat :=
  if newSize &&& 0xFFFFF000 ≠ 0 then add32 (newSize &&& 0xFFFFF000) 0x1000 else newSize

/-- The pages the loop of `expand` maps. -/
def expandPages (start oldSize newSize : Nat) : List Nat :=
  (List.range ((newSize - oldSize + 0xFFF) / 0x1000)).map fun j =>
    add32 start (oldSize + j * 0x1000)

def expand (alloc : Nat → Bool → Kernel → Option (Nat × Kernel)) (newSize : Nat) (k : Kernel) :
    Option Kernel :=
  let h := k.heap
  if newSize > h.length then
    let newSize := expandSize newSize
    if add32 h.startAddress newSize ≤ h.maxAddress then
      ((expandPages h.startAddress h.length newSize).foldlM (mapPage alloc) k).map fun k =>
        { k with heap := { k.heap with endAddress := add32 k.heap.startAddress newSize } }
    else none
  else none

/-- The loop for the endmost header: its index and its address. -/
def endmost (h : Heap) : Option Nat × Nat :=
  (List.range h.index.size).foldl
    (fun st i => if h.index.array i > st.2 then (some i, h.index.array i) else st) (none, 0)

/-- The part of `alloc` after `expand`: the new space goes to the endmost hole. -/
def adjustEndmost (oldLength oldEndAddress : Nat) (h : Heap) : Option Heap :=
  let newLength := h.length
  match (endmost h).1 with
  | none =>
    let header := oldEndAddress
    if oldLength > newLength then
      let size := sub32 newLength oldLength
      let m := putHeader h.mem header 1 size
      let m := putFooter m (sub32 (add32 oldEndAddress size) 8) header
      some ({ h with mem := m }.indexInsert header)
    else none
  | some idx =>
    (h.index.lookup idx).bind fun header =>
      if newLength > oldLength then
        let size := add32 (sizeAt h.mem header) (sub32 newLength oldLength)
        let m := putSize h.mem header size
        some { h with mem := putFooter m (sub32 (add32 header size) 8) header }
      else none

/-- What `alloc` does when no hole fits, up to its recursive call. -/
def grow (alloc : Nat → Bool → Kernel → Option (Nat × Kernel)) (newSize : Nat) (k : Kernel) :
    Option Kernel :=
  let oldLength := k.heap.length
  let oldEndAddress := k.heap.endAddress
  (expand alloc (add32 oldLength newSize) k).bind fun k =>
    (adjustEndmost oldLength oldEndAddress k.heap).map fun heap => { k with heap }

def alloc : Nat → Nat → Bool → Kernel → Option (Nat × Kernel)
  | 0, _, _, _ => none
  | fuel + 1, size, pageAlign, k =>
    let newSize := add32 (add32 size 12) 8
    match k.heap.findSmallestHole newSize pageAlign with
    | some iterator =>
      (k.heap.allocFrom iterator size pageAlign).map fun r => (r.1, { k with heap := r.2 })
    | none => (grow (alloc fuel) newSize k).bind (alloc fuel size pageAlign)

/-! ## Freeing -/

/-- The size `contract` shrinks to. The mask it rounds with is a single bit. -/
def contractSize (newSize : Nat) : Nat :=
  let newSize := if newSize &&& 0x1000 ≠ 0 then add32 (newSize &&& 0x1000) 0x1000 else newSize
  if newSize < heapMinSize then heapMinSize else newSize

/-- The pages the loop of `contract` unmaps. -/
def contractPages (start oldSize newSize : Nat) : List Nat :=
  let i := sub32 oldSize 0x1000
  (List.range ((i - newSize + 0xFFF) / 0x1000)).map fun j => add32 start (i - j * 0x1000)

def contract (newSize : Nat) (k : Kernel) : Option (Nat × Kernel) :=
  let h := k.heap
  if newSize < h.length then
    let newSize := contractSize newSize
    ((contractPages h.startAddress h.length newSize).foldlM
      (fun (vmem : VirtualMemory) address => vmem.contractPage address) k.vmem).map fun vmem =>
        (newSize, { heap := { h with endAddress := add32 h.startAddress newSize }, vmem })
  else none

/-- Does the left neighbour look like a hole? -/
def leftHole (m : Bytes) (header : Nat) : Bool :=
  magicAt m (sub32 header 8) == heapMagic && isHoleAt m (hdrAt m (sub32 header 8)) == 1

/-- Does the right neighbour look like a hole? -/
def rightHole (m : Bytes) (footer : Nat) : Bool :=
  magicAt m (add32 footer 8) == heapMagic && isHoleAt m (add32 footer 8) != 0

/-- `Unify left`: the memory, the header and `do_add`. -/
def unifyLeft (header footer : Nat) (m : Bytes) : Bytes × Nat × Bool :=
  if leftHole m header then
    let cacheSize := sizeAt m header
    let left := hdrAt m (sub32 header 8)
    let m := m.write32 (footer + 4) left
    (putSize m left (add32 (sizeAt m left) cacheSize), left, false)
  else (m, header, true)

/-- `Unify right`: the heap and the footer. The comment in the source says that
the footer is rewritten; only the variable is. -/
def unifyRight (header footer : Nat) (h : Heap) : Option (Heap × Nat) :=
  if rightHole h.mem footer then
    let testHeader := add32 footer 8
    let m := putSize h.mem header (add32 (sizeAt h.mem header) (sizeAt h.mem testHeader))
    let footer := sub32 (add32 testHeader (sizeAt m testHeader)) 8
    let h := { h with mem := m }
    (h.indexFind testHeader).map fun i => (h.indexRemove i, footer)
  else some (h, footer)

/-- The part of `free` that gives the end of the heap back. -/
def shrink (header testHeader : Nat) (k : Kernel) : Option Kernel :=
  let oldLength := k.heap.length
  (contract (sub32 header k.heap.startAddress) k).map fun r =>
    let newLength := r.1
    let k := r.2
    let h := k.heap
    let size := sub32 (sizeAt h.mem header) (sub32 oldLength newLength)
    if size > 0 then
      let m := putSize h.mem header size
      { k with heap := { h with mem := putFooter m (sub32 (add32 header size) 8) header } }
    else
      match h.indexFind testHeader with
      | some i => { k with heap := h.indexRemove i }
      | none => k

def free (p : Nat) (k : Kernel) : Option Kernel :=
  if p = 0 then some k
  else
    let h := k.heap
    let header := sub32 p 12
    let footer := sub32 (add32 header (sizeAt h.mem header)) 8
    if magicAt h.mem header = heapMagic ∧ magicAt h.mem footer = heapMagic then
      let m := h.mem.write8 (header + 4) 1
      let live := h.live.filter fun e => decide (e.1 ≠ p)
      let left := unifyLeft header footer m
      let testHeader := add32 footer 8
      (unifyRight left.2.1 footer { h with mem := left.1, live }).bind fun r =>
        let k := { k with heap := r.1 }
        (if add32 r.2 8 = k.heap.endAddress then shrink left.2.1 testHeader k else some k).map
          fun k => if left.2.2 then { k with heap := k.heap.indexInsert left.2.1 } else k
    else none

end Kernel

/-! ## Creating -/

/-- `Heap::create` over the memory `mem`; `sizeof(Heap)` is 28. -/
def Heap.create (mem : Bytes) (start endAddr max : Nat) (supervisor readonly : Bool) :
    Option Heap :=
  let start := pageAlignUp (add32 start 28)
  if start % 0x1000 = 0 ∧ endAddr % 0x1000 = 0 then
    let index : OrderedArray Nat := { array := fun _ => 0, size := 0, maxSize := heapIndexSize }
    let start := add32 start (mul32 4 heapIndexSize)
    let start := if start &&& 0xFFFFF000 ≠ 0 then add32 (start &&& 0xFFFFF000) 0x1000 else start
    let heap : Heap :=
      { mem := putHeader mem start 1 (sub32 endAddr start)
        index
        startAddress := start
        endAddress := endAddr
        maxAddress := max
        supervisor
        readonly
        live := [] }
    some (heap.indexInsert start)
  else none

end Ulysses
