import Ulysses.Lib.Bytes
import Ulysses.Paging.Basic

/-!
# Memory of a process

The user half of an address space, the mappings of a process, and what an access
to an address that is not resident does: the fault handler looks for the first
mapping that contains the address and has it fill the page.

Page tables and frames are in `Ulysses.Paging`; here a page is resident or not.
`mem` gives the bytes of the resident pages, and at other addresses the bytes that
happen to be in the frame the page will get. A file node is what `read` returns,
the bytes of the file.
-/

namespace Ulysses

open Lib

/-- `fs::Node` of a file, with the part of it that loading a program uses. -/
structure Fs.Node where
  bytes : Nat → UInt8
  length : Nat

/-- `Node::read` into the buffer at `buffer`. -/
def Fs.Node.read (offset size buffer : Nat) (n : Fs.Node) (m : Bytes) : Bytes :=
  m.fill buffer size fun i => n.bytes (offset + i)

/-- The user pages of an address space, by page number. -/
structure Space where
  resident : Nat → Bool
  writable : Nat → Bool
  mem : Bytes

namespace Space

/-- `allocate_user`: a page that has a frame keeps it. -/
def allocateUser (page : Nat) (w : Bool) (s : Space) : Space :=
  if s.resident (page / pageSize) then s
  else
    { s with
      resident := Function.update s.resident (page / pageSize) true
      writable := Function.update s.writable (page / pageSize) w }

@[simp] theorem allocateUser_mem (page : Nat) (w : Bool) (s : Space) :
    (s.allocateUser page w).mem = s.mem := by
  unfold allocateUser
  split <;> rfl

theorem allocateUser_resident (page : Nat) (w : Bool) (s : Space) (n : Nat) :
    (s.allocateUser page w).resident n = (s.resident n || n == page / pageSize) := by
  unfold allocateUser
  split
  · next h =>
    by_cases hn : n = page / pageSize
    · rw [hn, h, Bool.true_or]
    · simp [hn]
  · by_cases hn : n = page / pageSize
    · simp [hn]
    · simp [hn, Function.update_of_ne]

end Space

/-! ## Mappings -/

/-- `align`: `(val + count - 1) & ~(count - 1)` for a power of two. -/
def alignUp (val count : Nat) : Nat := add32 val (count - 1) / count * count

/-- `MemoryMapping`. -/
structure MemoryMapping where
  pageStart : Nat
  pageEnd : Nat
  address : Nat
  memSize : Nat
  node : Option Fs.Node
  offset : Nat
  fileSize : Nat
  flags : Nat

namespace MemoryMapping

def eReadable : Nat := 1

def eWritable : Nat := 2

def eExecutable : Nat := 4

def eAll : Nat := 7

/-- The constructor. -/
def make (address memSize : Nat) (node : Option Fs.Node) (offset size flags : Nat) :
    MemoryMapping where
  pageStart := address &&& 0xFFFFF000
  pageEnd := alignUp (add32 address memSize) pageSize
  address
  memSize
  node
  offset
  fileSize := size
  flags

def containsP (addr : Nat) (m : MemoryMapping) : Bool :=
  decide (addr ≥ m.pageStart) && decide (addr < m.pageEnd)

def writableP (m : MemoryMapping) : Bool := m.flags &&& eWritable == eWritable

/-- The first page of a mapping that starts inside a page. The node is read even
when there is nothing to read. -/
def fulfillFirst (pageAddress : Nat) (m : MemoryMapping) (mem : Bytes) : Option Bytes :=
  let mem := mem.fill pageAddress (sub32 m.address pageAddress) fun _ => 0
  let targetSize := sub32 (add32 pageAddress pageSize) m.address
  let readSize := min targetSize m.fileSize
  m.node.map fun node =>
    let mem := node.read m.offset readSize m.address mem
    if readSize < targetSize then
      mem.fill (add32 m.address readSize) (sub32 targetSize readSize) fun _ => 0
    else mem

/-- A page that begins inside the mapping. -/
def fulfillRest (pageAddress : Nat) (m : MemoryMapping) (mem : Bytes) : Option Bytes :=
  let requestOffset := sub32 pageAddress m.address
  let targetOffset := add32 m.offset requestOffset
  let targetSize :=
    if requestOffset > m.fileSize then 0 else min (sub32 m.fileSize requestOffset) pageSize
  let zeroFillSize := sub32 pageSize targetSize
  let read :=
    if targetSize > 0 then m.node.map fun node => node.read targetOffset targetSize pageAddress mem
    else some mem
  read.map fun mem =>
    if zeroFillSize > 0 then mem.fill (add32 pageAddress targetSize) zeroFillSize fun _ => 0
    else mem

/-- `fulfill`; `none` is a call through a null node. -/
def fulfill (request : Nat) (m : MemoryMapping) (s : Space) : Option Space :=
  let pageAddress := request &&& 0xFFFFF000
  let s := s.allocateUser pageAddress m.writableP
  let filled :=
    if pageAddress < m.address then m.fulfillFirst pageAddress s.mem
    else m.fulfillRest pageAddress s.mem
  filled.map fun mem => { s with mem }

end MemoryMapping

/-! ## Processes -/

/-- `Process`, with its memory. `breakMapping` is the place of the mapping that
`break_mapping_` points to. -/
structure Process where
  mmaps : List MemoryMapping
  breakMapping : Option Nat
  nextMmapStart : Nat
  space : Space

namespace Process

def defaultMMapStart : Nat := 0x1000000

/-- A new process, in the memory it is given. -/
def make (space : Space) : Process where
  mmaps := []
  breakMapping := none
  nextMmapStart := defaultMMapStart
  space

def addMmap (node : Option Fs.Node) (offset size addr memSize flags : Nat) (p : Process) :
    Process :=
  { p with mmaps := p.mmaps ++ [.make addr memSize node offset size flags] }

def findMapping (addr : Nat) (p : Process) : Option MemoryMapping :=
  p.mmaps.find? fun m => m.containsP addr

def newMmapRegion (size : Nat) (p : Process) : Nat × Process :=
  (p.nextMmapStart, { p with nextMmapStart := add32 p.nextMmapStart size })

def positionBrk (fin : Nat) (p : Process) : Process :=
  { p with
    mmaps := p.mmaps ++ [.make fin 0 none 0 0 MemoryMapping.eAll]
    breakMapping := some p.mmaps.length }

/-- The fault handler on a user access to a page that is not present; `none` is the
panic at its end. -/
def handleFault (address : Nat) (write : Bool) (p : Process) : Option Process :=
  (p.findMapping address).bind fun m =>
    if !write || m.writableP then (m.fulfill address p.space).map fun space => { p with space }
    else none

/-- What the process reads at an address, filling the page first if need be. -/
def read (address : Nat) (p : Process) : Option UInt8 :=
  if p.space.resident (address / pageSize) then some (p.space.mem address)
  else (p.handleFault address false).map fun p => p.space.mem address

/-- What a user access reads, where the pages of `kernel` are present for the kernel only. On
such a page the access faults again after each `fulfill`. -/
def userRead (kernel : Nat → Bool) (address : Nat) (p : Process) : Option UInt8 :=
  if kernel (address / pageSize) then none else p.read address

end Process

/-! ## The bytes of a mapping -/

namespace MemoryMapping

/-- Where a fill reads the byte of an address in the file. The offset of a page that begins
inside the mapping is a word and wraps. -/
def fileOffset (m : MemoryMapping) (x : Nat) : Nat :=
  let page := x / pageSize * pageSize
  if page < m.address then m.offset + (x - m.address)
  else add32 m.offset (page - m.address) + (x - page)

/-- The byte a mapping stands for: from the file, and zero outside its file part. -/
def byteAt (m : MemoryMapping) (x : Nat) : UInt8 :=
  match m.node with
  | some n =>
    if m.address ≤ x ∧ x < m.address + m.fileSize then n.bytes (m.fileOffset x) else 0
  | none => 0

/-- What `fulfill` leaves in memory: the bytes of the mapping on the page, and
everything else as it was. -/
structure Filled (m : MemoryMapping) (pageAddress : Nat) (mem mem' : Bytes) : Prop where
  page : ∀ x, pageAddress ≤ x → x < pageAddress + pageSize → mem' x = m.byteAt x
  off : Bytes.AgreeOff pageAddress (pageAddress + pageSize) mem mem'

variable {m : MemoryMapping} {pageAddress : Nat}

theorem byteAt_some {n : Fs.Node} (hn : m.node = some n) (x : Nat) :
    m.byteAt x = if m.address ≤ x ∧ x < m.address + m.fileSize then
      n.bytes (m.fileOffset x) else 0 := by
  unfold byteAt
  rw [hn]

/-- In a file part that does not wrap, the bytes follow each other. -/
theorem fileOffset_eq {x : Nat} (hlo : m.address ≤ x) (hhi : x < m.address + m.fileSize)
    (hfile : m.offset + m.fileSize ≤ 4294967296) : m.fileOffset x = m.offset + (x - m.address) := by
  unfold fileOffset
  simp only
  split
  · rfl
  · unfold pageSize at *
    rw [add32_eq (by omega)]
    omega

theorem page_of_mem {x : Nat} (haligned : pageAddress % pageSize = 0) (hlo : pageAddress ≤ x)
    (hhi : x < pageAddress + pageSize) : x / pageSize * pageSize = pageAddress := by
  unfold pageSize at *
  omega

theorem fulfillFirst_spec {n : Fs.Node} (hn : m.node = some n)
    (haligned : pageAddress % pageSize = 0) (hlt : pageAddress < m.address)
    (hin : m.address < pageAddress + pageSize) (hwrap : pageAddress + pageSize < 4294967296)
    (mem : Bytes) :
    ∃ mem', m.fulfillFirst pageAddress mem = some mem' ∧ m.Filled pageAddress mem mem' := by
  have hoffset : ∀ x, pageAddress ≤ x → x < pageAddress + pageSize →
      m.fileOffset x = m.offset + (x - m.address) := by
    intro x hlo hhi
    unfold fileOffset
    rw [page_of_mem haligned hlo hhi]
    exact if_pos hlt
  unfold pageSize at hin hwrap
  unfold fulfillFirst
  simp only [hn, Option.map_some, Option.some.injEq, exists_eq_left']
  unfold pageSize
  rw [add32_eq hwrap, sub32_eq (by omega) (by omega), sub32_eq (by omega) (by omega)]
  generalize hread : min (pageAddress + 4096 - m.address) m.fileSize = readSize
  have hle : readSize ≤ pageAddress + 4096 - m.address := by omega
  rw [add32_eq (by omega), sub32_eq hle (by omega)]
  constructor
  · intro x hlo hhi
    rw [byteAt_some hn, hoffset x hlo hhi]
    unfold pageSize at hhi
    have hbelow : x < m.address + readSize →
        (n.read m.offset readSize m.address
            (mem.fill pageAddress (m.address - pageAddress) fun _ => 0)) x =
          if m.address ≤ x ∧ x < m.address + m.fileSize then n.bytes (m.offset + (x - m.address))
          else 0 := by
      intro hx
      by_cases hx' : m.address ≤ x
      · rw [Fs.Node.read, Bytes.fill_in _ _ (by omega), if_pos (by omega)]
      · rw [Fs.Node.read, Bytes.fill_off _ _ (by omega), Bytes.fill_in _ _ (by omega),
          if_neg (by omega)]
    split
    · by_cases hx : m.address + readSize ≤ x
      · rw [Bytes.fill_in _ _ (by omega), if_neg (by omega)]
      · rw [Bytes.fill_off _ _ (by omega)]
        exact hbelow (by omega)
    · exact hbelow (by omega)
  · unfold pageSize
    have hbelow := (Bytes.AgreeOff.refl pageAddress (pageAddress + 4096) mem).fill (fun _ => 0)
      (a := pageAddress) (n := m.address - pageAddress) (by omega) (by omega)
    have hread := hbelow.fill (fun i => n.bytes (m.offset + i)) (a := m.address) (n := readSize)
      (by omega) (by omega)
    split
    · exact hread.fill _ (by omega) (by omega)
    · exact hread

/-- How much of a page behind the first comes from the file. -/
theorem targetSize_spec (hge : m.address ≤ pageAddress)
    (hwrap : pageAddress + pageSize < 4294967296) (hsize : m.fileSize < 4294967296) :
    ∃ t, (if sub32 pageAddress m.address > m.fileSize then 0
        else min (sub32 m.fileSize (sub32 pageAddress m.address)) pageSize) = t ∧ t ≤ pageSize ∧
      ∀ x, pageAddress ≤ x → x < pageAddress + pageSize →
        (x < m.address + m.fileSize ↔ x < pageAddress + t) := by
  unfold pageSize at hwrap
  refine ⟨_, rfl, ?_, ?_⟩
  · split <;> omega
  · rw [sub32_eq hge (by omega)]
    unfold pageSize
    split
    · omega
    · rw [sub32_eq (by omega) (by omega)]
      omega

theorem fulfillRest_spec {n : Fs.Node} (hn : m.node = some n)
    (haligned : pageAddress % pageSize = 0) (hge : m.address ≤ pageAddress)
    (hwrap : pageAddress + pageSize < 4294967296) (hsize : m.fileSize < 4294967296) (mem : Bytes) :
    ∃ mem', m.fulfillRest pageAddress mem = some mem' ∧ m.Filled pageAddress mem mem' := by
  have hoffset : ∀ x, pageAddress ≤ x → x < pageAddress + pageSize →
      m.fileOffset x = add32 m.offset (pageAddress - m.address) + (x - pageAddress) := by
    intro x hlo hhi
    unfold fileOffset
    rw [page_of_mem haligned hlo hhi]
    exact if_neg (by omega)
  obtain ⟨t, ht, hle, hzero⟩ := targetSize_spec hge hwrap hsize
  unfold pageSize at hwrap hle hzero
  unfold fulfillRest
  simp only [ht, hn, Option.map_some]
  have hsub : sub32 pageSize t = 4096 - t := sub32_eq hle (by decide)
  rw [hsub, add32_eq (by omega)]
  by_cases hpos : t > 0
  · rw [if_pos hpos, sub32_eq hge (by omega)]
    simp only [Option.map_some]
    refine ⟨_, rfl, fun x hlo hhi => ?_, ?_⟩
    · have hbyte := byteAt_some hn x
      rw [hoffset x hlo hhi] at hbyte
      unfold pageSize at hhi
      have hx := hzero x hlo hhi
      by_cases hin : x < pageAddress + t
      · have hread : (n.read (add32 m.offset (pageAddress - m.address)) t pageAddress mem) x =
            m.byteAt x := by
          rw [hbyte, if_pos (by omega), Fs.Node.read, Bytes.fill_in _ _ (by omega)]
        split
        · rw [Bytes.fill_off _ _ (by omega), hread]
        · exact hread
      · rw [if_pos (by omega), Bytes.fill_in _ _ (by omega), hbyte, if_neg (by omega)]
    · unfold pageSize
      have hread := (Bytes.AgreeOff.refl pageAddress (pageAddress + 4096) mem).fill
        (fun i => n.bytes (add32 m.offset (pageAddress - m.address) + i)) (a := pageAddress)
        (n := t) (by omega) (by omega)
      split
      · exact hread.fill _ (by omega) (by omega)
      · exact hread
  · rw [if_neg hpos]
    simp only [Option.map_some]
    refine ⟨_, rfl, fun x hlo hhi => ?_, ?_⟩
    · unfold pageSize at hhi
      have hx := hzero x hlo hhi
      have hbyte : m.byteAt x = 0 := by
        rw [byteAt_some hn, if_neg (by omega)]
      rw [if_pos (by omega), Bytes.fill_in _ _ (by omega), hbyte]
    · rw [if_pos (by omega)]
      exact (Bytes.AgreeOff.refl _ _ mem).fill _ (by omega) (by unfold pageSize; omega)

/-- A mapping of a file fills a page with its bytes. -/
theorem fulfill_spec {n : Fs.Node} (hn : m.node = some n) {request : Nat}
    (hrequest : request / pageSize * pageSize + pageSize < 4294967296)
    (hin : m.address < request / pageSize * pageSize + pageSize) (hsize : m.fileSize < 4294967296)
    (s : Space) :
    ∃ s', m.fulfill request s = some s' ∧
      m.Filled (request / pageSize * pageSize) s.mem s'.mem ∧
      ∀ x, s'.resident x = (s.resident x || x == request / pageSize) := by
  have hpage : request &&& 0xFFFFF000 = request / pageSize * pageSize := by
    unfold pageSize at *
    exact and_pageMask (by omega)
  have haligned : request / pageSize * pageSize % pageSize = 0 := Nat.mul_mod_left _ _
  unfold fulfill
  simp only [hpage, Space.allocateUser_mem]
  have hres : ∀ x, (s.allocateUser (request / pageSize * pageSize) m.writableP).resident x =
      (s.resident x || x == request / pageSize) := by
    intro x
    rw [Space.allocateUser_resident, Nat.mul_div_cancel _ (by decide)]
  split
  · next hlt =>
    obtain ⟨mem', heq, hfilled⟩ := fulfillFirst_spec hn haligned hlt hin hrequest s.mem
    rw [heq]
    exact ⟨_, rfl, hfilled, hres⟩
  · next hge =>
    obtain ⟨mem', heq, hfilled⟩ :=
      fulfillRest_spec hn haligned (Nat.le_of_not_lt hge) hrequest hsize s.mem
    rw [heq]
    exact ⟨_, rfl, hfilled, hres⟩

theorem fulfillFirst_congr (m : MemoryMapping) (pageAddress : Nat) {mem mem' : Bytes} {x : Nat}
    (h : mem' x = mem x) :
    (m.fulfillFirst pageAddress mem').map (fun t => t x) =
      (m.fulfillFirst pageAddress mem).map fun t => t x := by
  unfold fulfillFirst
  cases m.node with
  | none => rfl
  | some n =>
    simp only [Option.map_some, Option.some.injEq]
    split
    · exact Bytes.fill_congr _ _ _ (Bytes.fill_congr _ _ _ (Bytes.fill_congr _ _ _ h))
    · exact Bytes.fill_congr _ _ _ (Bytes.fill_congr _ _ _ h)

theorem fulfillRest_congr (m : MemoryMapping) (pageAddress : Nat) {mem mem' : Bytes} {x : Nat}
    (h : mem' x = mem x) :
    (m.fulfillRest pageAddress mem').map (fun t => t x) =
      (m.fulfillRest pageAddress mem).map fun t => t x := by
  unfold fulfillRest
  simp only
  generalize (if sub32 pageAddress m.address > m.fileSize then 0 else _) = size
  have hzero : ∀ {t t' : Bytes}, t' x = t x →
      (if sub32 pageSize size > 0 then
        t'.fill (add32 pageAddress size) (sub32 pageSize size) fun _ => 0 else t') x =
      (if sub32 pageSize size > 0 then
        t.fill (add32 pageAddress size) (sub32 pageSize size) fun _ => 0 else t) x := by
    intro t t' ht
    split
    · exact Bytes.fill_congr _ _ _ ht
    · exact ht
  by_cases hsize : size > 0
  · rw [if_pos hsize, if_pos hsize]
    cases m.node with
    | none => rfl
    | some n => exact congrArg some (hzero (Bytes.fill_congr _ _ _ h))
  · rw [if_neg hsize, if_neg hsize]
    exact congrArg some (hzero h)

/-- What a page is filled with at an address depends at most on what was there. -/
theorem fulfill_congr (m : MemoryMapping) (request : Nat) {s s' : Space} {x : Nat}
    (h : s'.mem x = s.mem x) :
    (m.fulfill request s').map (fun t => t.mem x) =
      (m.fulfill request s).map fun t => t.mem x := by
  unfold fulfill
  simp only [Option.map_map, Space.allocateUser_mem]
  split
  · exact m.fulfillFirst_congr _ h
  · exact m.fulfillRest_congr _ h

/-- Whether a page can be filled does not depend on the memory. -/
theorem fulfill_eq_none_iff (m : MemoryMapping) (request : Nat) (s s' : Space) :
    m.fulfill request s' = none ↔ m.fulfill request s = none := by
  unfold fulfill
  simp only [Option.map_eq_none_iff]
  split
  · unfold fulfillFirst
    simp only [Option.map_eq_none_iff]
  · unfold fulfillRest
    simp only [Option.map_eq_none_iff]
    generalize (if sub32 (request &&& 0xFFFFF000) m.address > m.fileSize then 0 else _) = size
    split
    · simp only [Option.map_eq_none_iff]
    · simp

end MemoryMapping

theorem Process.userRead_eq_some {kernel : Nat → Bool} {a : Nat} {p : Process} {b : UInt8} :
    p.userRead kernel a = some b ↔ kernel (a / pageSize) = false ∧ p.read a = some b := by
  unfold userRead
  rw [Option.ite_none_left_eq_some, Bool.not_eq_true]

theorem Process.read_of_resident {a : Nat} {p : Process}
    (h : p.space.resident (a / pageSize) = true) : p.read a = some (p.space.mem a) := by
  unfold read
  rw [if_pos h]

theorem Process.read_congr {a : Nat} {p p' : Process} (hspace : p'.space = p.space)
    (hfind : p'.findMapping a = p.findMapping a) : p'.read a = p.read a := by
  unfold read handleFault
  rw [hspace, hfind]
  cases p.findMapping a with
  | none => rfl
  | some m => simp [Option.map_map, Function.comp_def]

/-- A new process has no mapping to fill a page from. -/
theorem Process.read_make {a : Nat} {space : Space} (h : space.resident (a / pageSize) = false) :
    (make space).read a = none :=
  if_neg (Bool.eq_false_iff.1 h)

theorem Process.read_eq_none_iff {a : Nat} {p p' : Process} (hmaps : p'.mmaps = p.mmaps)
    (hres : p'.space.resident (a / pageSize) = p.space.resident (a / pageSize)) :
    p'.read a = none ↔ p.read a = none := by
  unfold read
  rw [hres]
  split
  · simp
  · have hfind : p'.findMapping a = p.findMapping a := by
      unfold findMapping
      rw [hmaps]
    unfold handleFault
    rw [hfind]
    cases p.findMapping a with
    | none => rfl
    | some m => simpa using m.fulfill_eq_none_iff a p.space p'.space

end Ulysses
