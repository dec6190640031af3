import Ulysses.Block.Device

/-!
# The ext2 file system

`fs/ext2.cpp`: the geometry that `read_superblock` computes, the walk of
`read_inode_block` through the indirection tables with its cache of buffers, and
`find_inode`. `none` as the result of a call is a failed ASSERT or a division by zero.
-/

namespace Ulysses

open Lib

namespace Ext2

/-- The fields of `SuperBlock` that are read. -/
structure SuperBlock where
  blocksCount : Nat
  firstDataBlock : Nat
  logBlockSize : Nat
  blocksPerGroup : Nat
  inodesPerGroup : Nat
  magic : Nat
  inodeSize : Nat

def SuperBlock.ofBytes (data : Bytes) : SuperBlock where
  blocksCount := data.read32 4
  firstDataBlock := data.read32 20
  logBlockSize := data.read32 24
  blocksPerGroup := data.read32 32
  inodesPerGroup := data.read32 40
  magic := data.read16 56
  inodeSize := data.read16 88

def SuperBlock.validate (sb : SuperBlock) : Bool := decide (sb.magic = 0xEF53)

/-- The field of `GroupDesc` that is read. -/
structure GroupDesc where
  inodeTable : Nat

/-- A descriptor is 32 bytes long. -/
def GroupDesc.ofBytes (data : Bytes) (g : Nat) : GroupDesc where
  inodeTable := data.read32 (32 * g + 8)

/-- `blocks` of an `Inode`; the entries 12 to 14 are the three fields behind the array. -/
structure Inode where
  blocks : Nat → Nat

/-- The fields of `FS` that stay as they are once it is mounted. -/
structure FS where
  superBlock : SuperBlock
  totalGroups : Nat
  groups : Nat → GroupDesc
  blockPerRegion : Nat
  bytesPerBlock : Nat
  inodePerBlock : Nat
  idsPerBlock : Nat
  idsPerSecondLevel : Nat

def numDirectBlocks : Nat := 12
def indirectBlock : Nat := 12
def doubleIndirectBlock : Nat := 13
def tripleIndirectBlock : Nat := 14

namespace FS

def b2r (fs : FS) (block : Nat) : Nat := mul32 block fs.blockPerRegion

/-- The range that `read_block` requests. -/
def blockRange (fs : FS) (block count : Nat) : RegionRange := ⟨fs.b2r block, fs.b2r count⟩

/-! ## Mounting -/

/-- `1024 << log_block_size`; the processor takes the shift count modulo 32. -/
def shiftedSize (logBlockSize : Nat) : Nat := 1024 * 2 ^ (logBlockSize % 32) % 4294967296

def groupCount (sb : SuperBlock) : Nat :=
  sub32 (add32 (sub32 sb.blocksCount sb.firstDataBlock) sb.blocksPerGroup) 1 / sb.blocksPerGroup

/-- What `read_superblock` establishes. -/
structure Geometry (fs : FS) : Prop where
  pow : ∃ l ≤ 21, fs.bytesPerBlock = 1024 * 2 ^ l
  region : fs.blockPerRegion = fs.bytesPerBlock / 1024
  inodeSize_pos : 0 < fs.superBlock.inodeSize
  inodes : fs.inodePerBlock = fs.bytesPerBlock / fs.superBlock.inodeSize
  ids : fs.idsPerBlock = fs.bytesPerBlock / 4
  ids_square : fs.idsPerSecondLevel = mul32 fs.idsPerBlock fs.idsPerBlock

end FS

/-! ## Blocks of files -/

/-- `sys::Pair` as a key. -/
def pairOps : HashOps (Nat × Nat) where
  computeHash k := mixHash (UInt32.ofNat (k.1 ^^^ k.2))
  compareKeys a b := decide (a.1 = b.1) && decide (a.2 = b.2)

theorem pairOps_compareKeys {a b : Nat × Nat} (h : pairOps.compareKeys a b = true) : a = b := by
  simp only [pairOps, Bool.and_eq_true, decide_eq_true_eq] at h
  exact Prod.ext h.1 h.2

/-- What changes after the mount: the device's buffers and `block_cache_`. -/
structure State where
  device : BlockDevice := {}
  blockCache : HashTable (Nat × Nat) Nat := .empty

/-- `buffer->index<u32>(i)`. -/
def State.index (disk : Disk) (st : State) (buffer i : Nat) : Nat :=
  match st.device.rangeOf buffer with
  | some range => (disk.data range).read32 (4 * i)
  | none => 0

namespace FS

def readBlock (fs : FS) (block count : Nat) (st : State) : Nat × State :=
  let r := st.device.request (fs.blockRange block count)
  (r.1, { st with device := r.2 })

/-- Where `read_inode_block` starts in `obj->blocks` and the indices it then passes to
`index`; the successive `block -= …` are those of the source. -/
def blockPath (fs : FS) (block : Nat) : Option (Nat × List Nat) :=
  if block < numDirectBlocks then some (block, [])
  else
    let block := sub32 block numDirectBlocks
    if block < fs.idsPerBlock then some (indirectBlock, [block])
    else
      let block := sub32 block fs.idsPerBlock
      if block < fs.idsPerSecondLevel then
        some (doubleIndirectBlock, [block / fs.idsPerBlock, block % fs.idsPerBlock])
      else
        let block := sub32 block fs.idsPerSecondLevel
        if fs.idsPerSecondLevel = 0 then none
        else
          some (tripleIndirectBlock,
            [block / fs.idsPerSecondLevel, block / fs.idsPerBlock, block % fs.idsPerBlock])

/-- From table to table: `id = buffer->index<u32>(i); if(!id) return 0;
buffer = read_block(id);`. -/
def walk (disk : Disk) (fs : FS) : List Nat → Nat → State → Option Nat × State
  | [], buffer, st => (some buffer, st)
  | i :: is, buffer, st =>
    let id := st.index disk buffer i
    if id = 0 then (none, st)
    else
      let r := fs.readBlock id 1 st
      walk disk fs is r.1 r.2

/-- `read_inode_block`; the inner `none` is a null result. -/
def readInodeBlock (disk : Disk) (fs : FS) (inode : Nat) (obj : Inode) (block : Nat) (st : State) :
    Option (Option Nat × State) :=
  match st.blockCache.fetch pairOps (inode, block) with
  | some buffer => some (some buffer, st)
  | none =>
    (fs.blockPath block).map fun path =>
      let r := fs.readBlock (obj.blocks path.1) 1 st
      match walk disk fs path.2 r.1 r.2 with
      | (none, st) => (none, st)
      | (some buffer, st) =>
        (some buffer, { st with blockCache := st.blockCache.store pairOps (inode, block) buffer })

/-! ## Inodes -/

/-- The group, block and slot in which `find_inode` looks. -/
def inodePlace (fs : FS) (inode : Nat) : Option (Nat × Nat) :=
  let adjInode := sub32 inode 1
  if fs.superBlock.inodesPerGroup = 0 ∨ fs.inodePerBlock = 0 then none
  else
    let bg := adjInode / fs.superBlock.inodesPerGroup
    if bg < fs.totalGroups then
      some (add32 (fs.groups bg).inodeTable (adjInode / fs.inodePerBlock),
        adjInode % fs.inodePerBlock)
    else none

/-- The bytes at a slot of a block of inodes, as many as an inode has. -/
def inodeBytes (disk : Disk) (fs : FS) (block slot : Nat) : List UInt8 :=
  (List.range fs.superBlock.inodeSize).map fun j =>
    disk.data (fs.blockRange block 1) (slot * fs.superBlock.inodeSize + j)

/-- `find_inode`: the bytes that it copies. -/
def findInode (disk : Disk) (fs : FS) (inode : Nat) (st : State) :
    Option (List UInt8 × State) :=
  (fs.inodePlace inode).map fun place =>
    (inodeBytes disk fs place.1 place.2, (fs.readBlock place.1 1 st).2)

end FS

end Ext2

end Ulysses
