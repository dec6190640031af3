import Ulysses.Process

/-!
# Loading programs

`elf.cpp`: a `Loader` reads the header and the program headers of an ELF file,
appends a mapping to the process for each `PT_LOAD` segment, for the break and for
the segments of an interpreter, and lays out arguments and environment at the top
of the user stack.

`fs_root->finddir` is a parameter, a function of the bytes of the path. The strings
of arguments and environment are values. The program headers are read into a
buffer from `kmalloc`; `stale` is what lies behind the buffer.
-/

namespace Ulysses

open Lib

namespace Elf

/-! ## Headers -/

/-- The fields of `Header` that loading reads. -/
structure Header where
  eIdent : Nat → UInt8
  eType : Nat
  eMachine : Nat
  eVersion : Nat
  eEntry : Nat
  ePhoff : Nat
  ePhentsize : Nat
  ePhnum : Nat

def Header.ofBytes (b : Bytes) : Header where
  eIdent := b
  eType := b.read16 16
  eMachine := b.read16 18
  eVersion := b.read32 20
  eEntry := b.read32 24
  ePhoff := b.read32 28
  ePhentsize := b.read16 42
  ePhnum := b.read16 44

def Header.validate (h : Header) : Bool :=
  if h.eIdent 0 ≠ 0x7f ∨ h.eIdent 1 ≠ 0x45 ∨ h.eIdent 2 ≠ 0x4c ∨ h.eIdent 3 ≠ 0x46 then false
  -- `ELFCLASS32`, `ELFDATA2LSB`
  else if h.eIdent 4 ≠ 1 then false
  else if h.eIdent 5 ≠ 1 then false
  else if h.eIdent 6 ≠ 1 then false
  -- `ET_EXEC`, `ET_DYN`, `MT_X86`
  else if h.eType ≠ 2 ∧ h.eType ≠ 3 then false
  else if h.eMachine ≠ 3 then false
  else if h.eVersion ≠ 1 then false
  else true

def Header.phSize (h : Header) : Nat := h.ePhentsize * h.ePhnum

/-- `ProgramHeader`. -/
structure ProgramHeader where
  pType : Nat
  pOffset : Nat
  pVaddr : Nat
  pFilesz : Nat
  pMemsz : Nat
  pFlags : Nat
deriving DecidableEq

namespace ProgramHeader

/-- The record at `a`; `sizeof(ProgramHeader)` is 32. -/
def ofBytes (b : Bytes) (a : Nat) : ProgramHeader where
  pType := b.read32 a
  pOffset := b.read32 (a + 4)
  pVaddr := b.read32 (a + 8)
  pFilesz := b.read32 (a + 16)
  pMemsz := b.read32 (a + 20)
  pFlags := b.read32 (a + 24)

def loadP (ph : ProgramHeader) : Bool := ph.pType == 1

def interpP (ph : ProgramHeader) : Bool := ph.pType == 3

def mmapFlags (ph : ProgramHeader) : Nat :=
  (if ph.pFlags &&& 4 = 4 then MemoryMapping.eReadable else 0) |||
    (if ph.pFlags &&& 2 = 2 then MemoryMapping.eWritable else 0) |||
    (if ph.pFlags &&& 1 = 1 then MemoryMapping.eExecutable else 0)

end ProgramHeader

/-- The buffer `load_ph` returns. -/
def Header.loadPh (stale : Nat → UInt8) (node : Fs.Node) (h : Header) : Bytes :=
  node.read h.ePhoff h.phSize 0 stale

/-- The records that `ph++` walks over. -/
def Header.programHeaders (stale : Nat → UInt8) (node : Fs.Node) (h : Header) :
    List ProgramHeader :=
  (List.range h.ePhnum).map fun i => ProgramHeader.ofBytes (h.loadPh stale node) (32 * i)

/-- `load_header`. -/
def loadHeader (node : Fs.Node) : Option Header :=
  if node.length < 52 then none
  else
    let hdr := Header.ofBytes node.bytes
    if hdr.validate then some hdr else none

/-! ## Segments -/

/-- `setup_interp`: the node of the interpreter; `none` when it is not found. -/
def setupInterp (finddir : List UInt8 → Option Fs.Node) (node : Fs.Node)
    (phs : List ProgramHeader) : Option (Option Fs.Node) :=
  phs.foldlM
    (fun interpReq ph =>
      if ph.interpP then
        let path := (List.range ph.pFilesz).map fun i => node.bytes (ph.pOffset + i)
        (finddir path).map some
      else some interpReq)
    none

/-- One turn of the loop of `map_memory`, on the process, `base_address_` and
`brk`. -/
def mapSegment (node : Fs.Node) (st : Process × Nat × Nat) (ph : ProgramHeader) :
    Process × Nat × Nat :=
  if ph.loadP then
    let proc := st.1.addMmap (some node) ph.pOffset ph.pFilesz ph.pVaddr ph.pMemsz ph.mmapFlags
    let base := if st.2.1 = 0 then sub32 ph.pVaddr ph.pOffset else st.2.1
    let addr := add32 ph.pVaddr ph.pMemsz
    (proc, base, if addr > st.2.2 then addr else st.2.2)
  else st

/-- `map_memory`: the process and `base_address_`. -/
def mapMemory (node : Fs.Node) (phs : List ProgramHeader) (proc : Process) : Process × Nat :=
  let st := phs.foldl (mapSegment node) (proc, 0, 0)
  (st.1.positionBrk st.2.2, st.2.1)

/-- One turn of the loop of `map_lib_memory`, on the process, `base_address_` and
`entry`. -/
def mapLibSegment (node : Fs.Node) (hdr : Header) (st : Process × Nat × Nat)
    (ph : ProgramHeader) : Process × Nat × Nat :=
  if ph.loadP then
    let region := if st.2.1 = 0 then st.1.newMmapRegion ph.pMemsz else (st.2.1, st.1)
    let base := region.1
    let reqAddr := if st.2.1 = 0 then base else add32 base ph.pVaddr
    let entry :=
      if hdr.eEntry ≥ ph.pVaddr ∧ hdr.eEntry < add32 ph.pVaddr ph.pFilesz then
        add32 base (sub32 hdr.eEntry ph.pVaddr)
      else st.2.2
    (region.2.addMmap (some node) ph.pOffset ph.pFilesz reqAddr ph.pMemsz ph.mmapFlags, base, entry)
  else st

/-- `map_lib_memory`: the process, `base_address_` and the entry. -/
def mapLibMemory (node : Fs.Node) (hdr : Header) (phs : List ProgramHeader) (proc : Process) :
    Process × Nat × Nat :=
  phs.foldl (mapLibSegment node hdr) (proc, 0, 0)

/-- `load_as_lib`: the process, `base_address_` and `target_ip_`. -/
def loadAsLib (stale : Nat → UInt8) (node : Fs.Node) (proc : Process) :
    Option (Process × Nat × Nat) :=
  (loadHeader node).bind fun hdr =>
    if hdr.ePhnum = 0 then none
    else some (mapLibMemory node hdr (hdr.programHeaders stale node) proc)

/-! ## Arguments -/

structure Request where
  node : Fs.Node
  argv : List (List UInt8)
  env : List (List UInt8)

structure TableInfo where
  entries : Nat
  bytes : Nat
  tableSize : Nat

/-- The constructor; every string has its terminating zero. -/
def TableInfo.make (table : List (List UInt8)) : TableInfo where
  entries := table.length
  bytes := (table.map fun str => str.length + 1).sum
  tableSize := 4 * (table.length + 1)

def TableInfo.totalSize (t : TableInfo) : Nat := t.tableSize + t.bytes

/-- `stack_top`. -/
def stackTop : Nat := kernelVirtualBase

/-- `USER_STACK_SIZE`. -/
def userStackSize : Nat := 0x800000

/-- Bytes of the auxiliary table, eight records of two words. -/
def auxvSize : Nat := 64

def headerBytes (req : Request) : Nat :=
  alignUp ((TableInfo.make req.env).totalSize + (TableInfo.make req.argv).totalSize +
    auxvSize + 4) 16

def allocatePagesForHeader (bytes : Nat) (s : Space) : Space :=
  let pages := pageAlignUp bytes / pageSize
  (List.range' 1 pages).foldl
    (fun s i => s.allocateUser (sub32 stackTop (mul32 i pageSize)) true) s

/-- One turn of the loop of `copy_string_table`, on memory, `pos` and `i`. -/
def copyString (tableAddr : Nat) (st : Bytes × Nat × Nat) (str : List UInt8) :
    Bytes × Nat × Nat :=
  let mem := st.1.fill st.2.1 (str.length + 1) fun j => str.getD j 0
  (mem.write32 (tableAddr + 4 * st.2.2) st.2.1, st.2.1 + (str.length + 1), st.2.2 + 1)

def copyStringTable (dataAddr tableAddr : Nat) (table : List (List UInt8)) (mem : Bytes) : Bytes :=
  let st := table.foldl (copyString tableAddr) (mem, dataAddr, 0)
  st.1.write32 (tableAddr + 4 * table.length) 0

/-- The words of `write_auxv_table`. -/
def auxv (hdr : Header) (baseAddress interpBase : Nat) : List Nat :=
  [3, add32 baseAddress hdr.ePhoff, 4, 32, 5, hdr.ePhnum, 6, pageSize, 7, interpBase, 8, 0, 9,
    hdr.eEntry, 0, 0]

def writeWords (addr : Nat) (ws : List Nat) (mem : Bytes) : Bytes :=
  (ws.foldl (fun (st : Bytes × Nat) w => (st.1.write32 st.2 w, st.2 + 4)) (mem, addr)).1

/-- `setup_args`: the space and `new_esp_`. -/
def setupArgs (hdr : Header) (req : Request) (baseAddress interpBase : Nat) (s : Space) :
    Space × Nat :=
  let env := TableInfo.make req.env
  let argv := TableInfo.make req.argv
  let s := allocatePagesForHeader (headerBytes req) s
  let newEsp := sub32 stackTop (headerBytes req)
  let argvTable := newEsp + 4
  let envTable := argvTable + argv.tableSize
  let auxvTable := envTable + env.tableSize
  let argvData := auxvTable + auxvSize
  let envData := argvData + argv.bytes
  let mem := copyStringTable envData envTable req.env s.mem
  let mem := copyStringTable argvData argvTable req.argv mem
  let mem := writeWords auxvTable (auxv hdr baseAddress interpBase) mem
  let mem := mem.write32 newEsp argv.entries
  ({ s with mem }, newEsp)

/-! ## The loader -/

/-- What `load_into` leaves in the process and the loader. -/
structure Loaded where
  proc : Process
  targetIp : Nat
  newEsp : Nat

/-- `load_into`. `stale` gives the bytes behind the three buffers of `load_ph`, and
`interpBase` is the value of `interp_base_address_` that the constructor does not
set. -/
def loadInto (finddir : List UInt8 → Option Fs.Node) (stale : Nat → Nat → UInt8)
    (interpBase : Nat) (req : Request) (proc : Process) : Option Loaded :=
  (loadHeader req.node).bind fun hdr =>
    (setupInterp finddir req.node (hdr.programHeaders (stale 0) req.node)).map fun interpReq =>
      let mapped := mapMemory req.node (hdr.programHeaders (stale 1) req.node) proc
      -- a failure of `load_interp` is not looked at
      let interp := interpReq.bind fun node => loadAsLib (stale 2) node mapped.1
      let proc := (interp.map Prod.fst).getD mapped.1
      let interpBase := (interp.map fun r => r.2.1).getD interpBase
      let targetIp := (interp.map fun r => r.2.2).getD hdr.eEntry
      let args := setupArgs hdr req mapped.2 interpBase proc.space
      let proc := { proc with space := args.1 }
      let stackFin := sub32 stackTop userStackSize
      { proc := proc.addMmap none 0 0 stackFin userStackSize MemoryMapping.eAll
        targetIp
        newEsp := args.2 }

end Elf

end Ulysses
