import Ulysses.Ext2.Basic

/-!
# Mounting

`read_superblock` and `read_block_groups` of `fs/ext2.cpp`, with what stops them. Of the
superblock only the magic number is checked: `readable_iff` lists what the other fields have
to be like for every later division and product to be defined. The group descriptors are
always read from block 2, one block for each group (`groups_read_iff`).
-/

namespace Ulysses

open Lib Bytes

namespace Ext2

/-- What stops `read_superblock`. -/
inductive MountFault
  | assertion
  | division
deriving DecidableEq

/-- The superblock of a disk. -/
def superBlockOf (disk : Disk) : SuperBlock := .ofBytes (disk.data ⟨1, 1⟩)

/-! ## Group descriptors -/

/-- What `read_block_groups` leaves: `total_groups_`, the blocks and the range that it asked
for, and the memory at `groups_`. -/
structure GroupTable where
  totalGroups : Nat
  tableSize : Nat
  blocks : Nat
  range : RegionRange
  bytes : Bytes

namespace FS

/-- The table that `read_block_groups` copies, over what was in the memory before. -/
def groupTable (disk : Disk) (sb : SuperBlock) (blockPerRegion : Nat) (heap : Bytes) :
    GroupTable :=
  let totalGroups := groupCount sb
  let tableSize := mul32 32 totalGroups
  let range : RegionRange := ⟨mul32 2 blockPerRegion, mul32 totalGroups blockPerRegion⟩
  { totalGroups
    tableSize
    blocks := totalGroups
    range
    bytes := heap.fill 0 tableSize (disk.data range) }

def readBlockGroups (disk : Disk) (sb : SuperBlock) (blockPerRegion : Nat) (heap : Bytes) :
    Except MountFault GroupTable :=
  if sb.blocksPerGroup = 0 then .error .division
  else .ok (groupTable disk sb blockPerRegion heap)

/-- The fields that `read_superblock` sets, with the table that `read_block_groups` leaves. -/
def ofTable (sb : SuperBlock) (table : GroupTable) : FS where
  superBlock := sb
  totalGroups := table.totalGroups
  groups := GroupDesc.ofBytes table.bytes
  blockPerRegion := shiftedSize sb.logBlockSize / 1024
  bytesPerBlock := shiftedSize sb.logBlockSize
  inodePerBlock := shiftedSize sb.logBlockSize / sb.inodeSize
  idsPerBlock := shiftedSize sb.logBlockSize / 4
  idsPerSecondLevel := mul32 (shiftedSize sb.logBlockSize / 4) (shiftedSize sb.logBlockSize / 4)

/-- `read_superblock`, with what stops it. -/
def loadSuperblock (disk : Disk) (heap : Bytes) : Except MountFault (Option (FS × GroupTable)) :=
  let sb := superBlockOf disk
  if !sb.validate then .ok none
  else if shiftedSize sb.logBlockSize < 1024 then .error .assertion
  else if sb.inodeSize = 0 then .error .division
  else
    (readBlockGroups disk sb (shiftedSize sb.logBlockSize / 1024) heap).map fun table =>
      some (ofTable sb table, table)

theorem loadSuperblock_ok_iff {disk : Disk} {heap : Bytes} {r : Option (FS × GroupTable)}
    (hvalid : (superBlockOf disk).validate = true) :
    loadSuperblock disk heap = .ok r ↔
      1024 ≤ shiftedSize (superBlockOf disk).logBlockSize ∧ (superBlockOf disk).inodeSize ≠ 0 ∧
        (superBlockOf disk).blocksPerGroup ≠ 0 ∧
        r = some (ofTable (superBlockOf disk) (groupTable disk (superBlockOf disk)
          (shiftedSize (superBlockOf disk).logBlockSize / 1024) heap),
          groupTable disk (superBlockOf disk)
            (shiftedSize (superBlockOf disk).logBlockSize / 1024) heap) := by
  unfold loadSuperblock readBlockGroups
  by_cases hsize : shiftedSize (superBlockOf disk).logBlockSize < 1024
  · simp [hvalid, hsize, Nat.not_le.2 hsize]
  · by_cases hinode : (superBlockOf disk).inodeSize = 0
    · simp [hvalid, hsize, hinode]
    · by_cases hgroup : (superBlockOf disk).blocksPerGroup = 0
      · simp [hvalid, hsize, hinode, hgroup, Except.map]
      · simp [hvalid, hsize, hinode, hgroup, Except.map, Nat.not_lt.1 hsize, eq_comm]

end FS

/-! ## The number of groups -/

/-- The number of groups that the blocks make, the last one perhaps shorter. -/
def SuperBlock.groups (sb : SuperBlock) : Nat :=
  (sb.blocksCount - sb.firstDataBlock + sb.blocksPerGroup - 1) / sb.blocksPerGroup

section

variable {sb : SuperBlock} (hcount : sb.blocksCount < 4294967296)
  (hgroup : sb.blocksPerGroup < 4294967296) (hpos : 0 < sb.blocksPerGroup)
  (hfirst : sb.firstDataBlock ≤ sb.blocksCount)

include hcount hgroup hpos hfirst

theorem groupCount_eq_iff :
    FS.groupCount sb = sb.groups ↔
      sb.blocksCount - sb.firstDataBlock + sb.blocksPerGroup ≤ 4294967296 := by
  unfold FS.groupCount SuperBlock.groups
  rw [sub32_eq hfirst hcount]
  obtain ⟨n, hn⟩ : ∃ n, sb.blocksCount - sb.firstDataBlock = n := ⟨_, rfl⟩
  rw [hn]
  constructor
  · intro heq
    by_contra hwrap
    have hsum : sub32 (add32 n sb.blocksPerGroup) 1 = n + sb.blocksPerGroup - 1 - 4294967296 := by
      unfold sub32 add32
      omega
    have hmore : (n + sb.blocksPerGroup - 1 - 4294967296) / sb.blocksPerGroup + 1 ≤
        (n + sb.blocksPerGroup - 1) / sb.blocksPerGroup := by
      rw [← Nat.add_div_right _ hpos]
      exact Nat.div_le_div_right (by omega)
    rw [hsum] at heq
    omega
  · intro hle
    have hsum : sub32 (add32 n sb.blocksPerGroup) 1 = n + sb.blocksPerGroup - 1 := by
      unfold sub32 add32
      omega
    rw [hsum]

end

theorem superBlockOf_lt (disk : Disk) :
    (superBlockOf disk).blocksCount < 4294967296 ∧
      (superBlockOf disk).blocksPerGroup < 4294967296 :=
  ⟨read32_lt _ _, read32_lt _ _⟩

/-! ## Usable superblocks -/

/-- All later arithmetic on the geometry is defined: no divisor of `read_block_groups`,
`find_inode` and `read_inode_block` is 0, and no size or count wraps. -/
structure FS.Usable (fs : FS) : Prop where
  inodeSize : fs.superBlock.inodeSize ≠ 0
  blocksPerGroup : fs.superBlock.blocksPerGroup ≠ 0
  inodesPerGroup : fs.superBlock.inodesPerGroup ≠ 0
  inodePerBlock : fs.inodePerBlock ≠ 0
  idsPerBlock : fs.idsPerBlock ≠ 0
  inodeBlocks : ∀ block < 4294967296, (fs.blockPath block).isSome
  bytesPerBlock : fs.bytesPerBlock = 1024 * 2 ^ fs.superBlock.logBlockSize
  blocks : fs.superBlock.firstDataBlock ≤ fs.superBlock.blocksCount
  dividend : fs.superBlock.blocksCount - fs.superBlock.firstDataBlock +
    fs.superBlock.blocksPerGroup < 4294967296
  table : 32 * fs.totalGroups < 4294967296
  regions : fs.totalGroups * fs.blockPerRegion < 4294967296

/-- `read_superblock` returns 0, or it returns with a usable geometry. -/
def Readable (disk : Disk) (heap : Bytes) : Prop :=
  ∃ r, FS.loadSuperblock disk heap = .ok r ∧ ∀ p, r = some p → p.1.Usable

/-- What the fields of a superblock have to be like. -/
structure SuperBlock.Sane (sb : SuperBlock) : Prop where
  log : sb.logBlockSize ≤ 7
  inodeSize : 0 < sb.inodeSize
  inodeFits : sb.inodeSize ≤ 1024 * 2 ^ sb.logBlockSize
  blocksPerGroup : 0 < sb.blocksPerGroup
  inodesPerGroup : 0 < sb.inodesPerGroup
  blocks : sb.firstDataBlock ≤ sb.blocksCount
  dividend : sb.blocksCount - sb.firstDataBlock + sb.blocksPerGroup < 4294967296
  table : 32 * sb.groups < 4294967296
  regions : sb.groups * 2 ^ sb.logBlockSize < 4294967296

theorem shiftedSize_eq {log : Nat} (h : log ≤ 21) : FS.shiftedSize log = 1024 * 2 ^ log := by
  have hpow : 2 ^ log ≤ 2 ^ 21 := Nat.pow_le_pow_right (by norm_num) h
  unfold FS.shiftedSize
  rw [Nat.mod_eq_of_lt (show log < 32 by omega), Nat.mod_eq_of_lt (by omega)]

theorem shiftedSize_pow {log : Nat} (h : 1024 ≤ FS.shiftedSize log) :
    ∃ l ≤ 21, FS.shiftedSize log = 1024 * 2 ^ l := by
  by_cases hl : log % 32 ≤ 21
  · refine ⟨_, hl, ?_⟩
    rw [← shiftedSize_eq hl]
    simp [FS.shiftedSize]
  · -- from 22 on nothing is left of the bit
    have hpow : 1024 * 2 ^ (log % 32) = 4294967296 * 2 ^ (log % 32 - 22) := by
      rw [show (4294967296 : Nat) = 1024 * 2 ^ 22 by norm_num, Nat.mul_assoc, ← Nat.pow_add]
      congr 2
      omega
    rw [FS.shiftedSize, hpow, Nat.mul_mod_right] at h
    omega

theorem loadSuperblock_geometry {disk : Disk} {heap : Bytes} {fs : FS} {table : GroupTable}
    (h : FS.loadSuperblock disk heap = .ok (some (fs, table))) : fs.Geometry := by
  by_cases hvalid : (superBlockOf disk).validate = true
  · obtain ⟨hle, hsize, -, ⟨⟩⟩ := (FS.loadSuperblock_ok_iff hvalid).1 h
    exact ⟨shiftedSize_pow hle, rfl, Nat.pos_of_ne_zero hsize, rfl, rfl, rfl⟩
  · simp [FS.loadSuperblock, hvalid] at h

/-- Only 22 shifts leave a size that is not cut off. -/
theorem log_le_of_shiftedSize {log : Nat} (h : FS.shiftedSize log = 1024 * 2 ^ log) :
    log ≤ 21 := by
  by_contra hlog
  have hpow : 2 ^ 22 ≤ 2 ^ log := Nat.pow_le_pow_right (by norm_num) (by omega)
  have hlt : FS.shiftedSize log < 4294967296 := Nat.mod_lt _ (by norm_num)
  omega

/-- The number of ids of a second level is 0 from blocks of 256 KiB on. -/
theorem secondLevel_ne_zero_iff : ∀ log < 22,
    (mul32 (FS.shiftedSize log / 4) (FS.shiftedSize log / 4) ≠ 0 ↔ log ≤ 7) := by
  decide +kernel

theorem blockPath_isSome_iff {fs : FS} (hids : 12 + fs.idsPerBlock < 4294967296) :
    (∀ block < 4294967296, (fs.blockPath block).isSome) ↔ fs.idsPerSecondLevel ≠ 0 := by
  constructor
  · intro h hzero
    have hpath := h (12 + fs.idsPerBlock) hids
    unfold FS.blockPath numDirectBlocks at hpath
    rw [if_neg (by omega), sub32_eq (by omega) hids, Nat.add_sub_cancel_left] at hpath
    simp [hzero] at hpath
  · intro hne block _
    unfold FS.blockPath
    simp only [if_neg hne]
    split
    · rfl
    · split
      · rfl
      · split
        · rfl
        · rfl

theorem regions_of_log {log : Nat} (h : log ≤ 21) : FS.shiftedSize log / 1024 = 2 ^ log := by
  rw [shiftedSize_eq h]
  exact Nat.mul_div_cancel_left _ (by norm_num)

theorem usable_iff (disk : Disk) (heap : Bytes) (blockPerRegion : Nat) {sb : SuperBlock}
    (hcount : sb.blocksCount < 4294967296) (hgroup : sb.blocksPerGroup < 4294967296) :
    (FS.ofTable sb (FS.groupTable disk sb blockPerRegion heap)).Usable ↔ sb.Sane := by
  have hids : 12 + FS.shiftedSize sb.logBlockSize / 4 < 4294967296 := by
    have hlt : FS.shiftedSize sb.logBlockSize < 4294967296 := Nat.mod_lt _ (by norm_num)
    omega
  constructor
  · intro h
    have hlog := log_le_of_shiftedSize h.bytesPerBlock
    have htotal : FS.groupCount sb = sb.groups :=
      (groupCount_eq_iff hcount hgroup (Nat.pos_of_ne_zero h.blocksPerGroup) h.blocks).2
        h.dividend.le
    have hsecond := (blockPath_isSome_iff hids).1 h.inodeBlocks
    have hfits : sb.inodeSize ≤ FS.shiftedSize sb.logBlockSize :=
      (Nat.div_ne_zero_iff.1 h.inodePerBlock).2
    refine ⟨(secondLevel_ne_zero_iff _ (by omega)).1 hsecond, Nat.pos_of_ne_zero h.inodeSize, ?_,
      Nat.pos_of_ne_zero h.blocksPerGroup, Nat.pos_of_ne_zero h.inodesPerGroup, h.blocks,
      h.dividend, ?_, ?_⟩
    · rw [← shiftedSize_eq hlog]
      exact hfits
    · rw [← htotal]
      exact h.table
    · rw [← htotal, ← regions_of_log hlog]
      exact h.regions
  · intro h
    have hlog : sb.logBlockSize ≤ 21 := h.log.trans (by norm_num)
    have hbytes := shiftedSize_eq hlog
    have hpow : 0 < 2 ^ sb.logBlockSize := Nat.two_pow_pos _
    have htotal : FS.groupCount sb = sb.groups :=
      (groupCount_eq_iff hcount hgroup h.blocksPerGroup h.blocks).2 h.dividend.le
    have hsecond := (secondLevel_ne_zero_iff sb.logBlockSize (by omega)).2 h.log
    refine ⟨h.inodeSize.ne', h.blocksPerGroup.ne', h.inodesPerGroup.ne', ?_, ?_,
      (blockPath_isSome_iff hids).2 hsecond, hbytes, h.blocks, h.dividend, ?_, ?_⟩
    · show FS.shiftedSize sb.logBlockSize / sb.inodeSize ≠ 0
      rw [hbytes, Nat.div_ne_zero_iff]
      exact ⟨h.inodeSize.ne', h.inodeFits⟩
    · show FS.shiftedSize sb.logBlockSize / 4 ≠ 0
      omega
    · show 32 * FS.groupCount sb < 4294967296
      rw [htotal]
      exact h.table
    · show FS.groupCount sb * (FS.shiftedSize sb.logBlockSize / 1024) < 4294967296
      rw [htotal, regions_of_log hlog]
      exact h.regions

/-- A disk whose superblock has the magic number and zeros. -/
def magicDisk : Disk where
  image a := if a = 1080 then 0x53 else if a = 1081 then 0xEF else 0
  behind _ _ := 0

/-- A valid superblock for blocks of 1, 2 or 4 KiB; only with those of 1 KiB is there a block
before that of the superblock. -/
structure SuperBlock.Standard (sb : SuperBlock) : Prop where
  magic : sb.validate = true
  log : sb.logBlockSize ≤ 2
  first : sb.firstDataBlock = if sb.logBlockSize = 0 then 1 else 0
  blocks : sb.firstDataBlock ≤ sb.blocksCount
  group : 0 < sb.blocksPerGroup

/-- The table has all groups, each with its record of the table on the disk behind the first
data block, and is read without blocks that are not needed. -/
structure GroupTable.Right (disk : Disk) (sb : SuperBlock) (bytesPerBlock : Nat)
    (t : GroupTable) : Prop where
  total : t.totalGroups = sb.groups
  records : ∀ g < t.totalGroups, ∀ j < 32, t.bytes (32 * g + j) =
    disk.image (bytesPerBlock * (sb.firstDataBlock + 1) + (32 * g + j))
  covers : 32 * t.totalGroups ≤ t.range.numBytes
  blocks : t.blocks ≤ (32 * t.totalGroups + bytesPerBlock - 1) / bytesPerBlock

/-- One block for each group is too much from two groups on. -/
theorem blocks_needed_iff {n bpb : Nat} (hb : 1024 ≤ bpb) :
    n ≤ (32 * n + bpb - 1) / bpb ↔ n ≤ 1 := by
  rw [Nat.le_div_iff_mul_le (by omega)]
  constructor
  · intro h
    by_contra hn
    obtain ⟨k, rfl⟩ : ∃ k, n = k + 2 := ⟨n - 2, by omega⟩
    have hk : k * 1024 ≤ k * bpb := Nat.mul_le_mul_left k hb
    rw [Nat.add_mul] at h
    omega
  · intro h
    rcases Nat.le_one_iff_eq_zero_or_eq_one.1 h with rfl | rfl
    · omega
    · omega

section

variable {disk : Disk} {sb : SuperBlock} {heap : Bytes} {log : Nat}

theorem numBytes_mk (start size : Nat) : RegionRange.numBytes ⟨start, size⟩ = mul32 size 1024 := rfl

theorem groupTable_one (hlog : log ≤ 2) (hcount : FS.groupCount sb = 1) {j : Nat} (hj : j < 32) :
    (FS.groupTable disk sb (2 ^ log) heap).bytes j = disk.image (1024 * 2 ^ log * 2 + j) := by
  have hpow : 2 ^ log ≤ 2 ^ 2 := Nat.pow_le_pow_right (by norm_num) hlog
  have hpos : 0 < 2 ^ log := Nat.two_pow_pos _
  have hsize : mul32 32 1 = 32 := mul32_eq (by norm_num)
  simp only [FS.groupTable, hcount, hsize]
  rw [fill_in _ _ ⟨Nat.zero_le j, by omega⟩, Disk.data, numBytes_mk,
    mul32_eq (show 1 * 2 ^ log < 4294967296 by omega), mul32_eq (by omega),
    mul32_eq (show 2 * 2 ^ log < 4294967296 by omega), if_pos (by omega)]
  show disk.image (2 * 2 ^ log * 1024 + (j - 0)) = _
  exact congrArg disk.image (by omega)

theorem groupTable_covers (hlog : log ≤ 2) (hcount : FS.groupCount sb ≤ 1) :
    32 * FS.groupCount sb ≤ (FS.groupTable disk sb (2 ^ log) heap).range.numBytes := by
  have hpow : 2 ^ log ≤ 2 ^ 2 := Nat.pow_le_pow_right (by norm_num) hlog
  have hpos : 0 < 2 ^ log := Nat.two_pow_pos _
  simp only [FS.groupTable, numBytes_mk]
  rcases Nat.le_one_iff_eq_zero_or_eq_one.1 hcount with hzero | hone
  · omega
  · rw [hone, mul32_eq (show 1 * 2 ^ log < 4294967296 by omega), mul32_eq (by omega)]
    omega

/-- The table is right when there is no group, or one whose record is found at block 2. -/
theorem groupTable_right_iff (hlog : log ≤ 2) (hcount : FS.groupCount sb = sb.groups) :
    (FS.groupTable disk sb (2 ^ log) heap).Right disk sb (1024 * 2 ^ log) ↔
      sb.groups = 0 ∨ sb.groups = 1 ∧ ∀ j < 32, disk.image (1024 * 2 ^ log * 2 + j) =
        disk.image (1024 * 2 ^ log * (sb.firstDataBlock + 1) + j) := by
  have hpos : 0 < 2 ^ log := Nat.two_pow_pos _
  have hblocks := blocks_needed_iff (n := sb.groups) (show 1024 ≤ 1024 * 2 ^ log by omega)
  have htotal : (FS.groupTable disk sb (2 ^ log) heap).totalGroups = sb.groups := hcount
  have hasked : (FS.groupTable disk sb (2 ^ log) heap).blocks = sb.groups := hcount
  constructor
  · intro h
    have hneeded := h.blocks
    rw [htotal, hasked, hblocks] at hneeded
    rcases Nat.le_one_iff_eq_zero_or_eq_one.1 hneeded with hzero | hone
    · exact .inl hzero
    · refine .inr ⟨hone, fun j hj => ?_⟩
      have hrecord := h.records 0 (by rw [htotal, hone]; exact Nat.one_pos) j hj
      rw [Nat.mul_zero, Nat.zero_add, groupTable_one hlog (hcount.trans hone) hj] at hrecord
      exact hrecord
  · intro h
    have hle : sb.groups ≤ 1 := by
      rcases h with hzero | ⟨hone, -⟩
      · omega
      · omega
    refine ⟨htotal, ?_, ?_, ?_⟩
    · intro g hg j hj
      rw [htotal] at hg
      rcases h with hzero | ⟨hone, hsame⟩
      · omega
      · obtain rfl : g = 0 := by omega
        rw [Nat.mul_zero, Nat.zero_add, groupTable_one hlog (hcount.trans hone) hj]
        exact hsame j hj
    · rw [htotal, ← hcount]
      exact groupTable_covers hlog (hcount.trans_le hle)
    · rw [htotal, hasked]
      exact hblocks.2 hle

end

/-- **Group descriptors**: `read_block_groups` reads the right table exactly when the number
of groups does not wrap and there is no group, or a single one in blocks of 1 KiB or with the
same record at block 2 as at block 1. -/
theorem groups_read_iff {disk : Disk} (heap : Bytes) (h : (superBlockOf disk).Standard) :
    (∃ t, FS.readBlockGroups disk (superBlockOf disk)
        (FS.shiftedSize (superBlockOf disk).logBlockSize / 1024) heap = .ok t ∧
      t.Right disk (superBlockOf disk) (FS.shiftedSize (superBlockOf disk).logBlockSize)) ↔
    (superBlockOf disk).blocksCount - (superBlockOf disk).firstDataBlock +
        (superBlockOf disk).blocksPerGroup ≤ 4294967296 ∧
      ((superBlockOf disk).groups = 0 ∨ (superBlockOf disk).groups = 1 ∧
        ((superBlockOf disk).logBlockSize = 0 ∨ ∀ j < 32,
          disk.image (FS.shiftedSize (superBlockOf disk).logBlockSize * 2 + j) =
            disk.image (FS.shiftedSize (superBlockOf disk).logBlockSize + j))) := by
  obtain ⟨hcount, hgroup⟩ := superBlockOf_lt disk
  generalize superBlockOf disk = sb at h hcount hgroup ⊢
  have hlog : sb.logBlockSize ≤ 21 := h.log.trans (by norm_num)
  have hread : FS.readBlockGroups disk sb (2 ^ sb.logBlockSize) heap =
      .ok (FS.groupTable disk sb (2 ^ sb.logBlockSize) heap) := if_neg h.group.ne'
  rw [regions_of_log hlog, shiftedSize_eq hlog, hread]
  have hsame : (∀ j < 32, disk.image (1024 * 2 ^ sb.logBlockSize * 2 + j) =
      disk.image (1024 * 2 ^ sb.logBlockSize * (sb.firstDataBlock + 1) + j)) ↔
      sb.logBlockSize = 0 ∨ ∀ j < 32, disk.image (1024 * 2 ^ sb.logBlockSize * 2 + j) =
        disk.image (1024 * 2 ^ sb.logBlockSize + j) := by
    rw [h.first]
    by_cases hzero : sb.logBlockSize = 0
    · rw [if_pos hzero]
      exact iff_of_true (fun _ _ => rfl) (.inl hzero)
    · rw [if_neg hzero, Nat.zero_add, Nat.mul_one, or_iff_right hzero]
  have hwrap := groupCount_eq_iff hcount hgroup h.group h.blocks
  constructor
  · rintro ⟨t, ⟨⟩, hright⟩
    have htotal : FS.groupCount sb = sb.groups := hright.total
    refine ⟨hwrap.1 htotal, ?_⟩
    rw [← hsame]
    exact (groupTable_right_iff h.log htotal).1 hright
  · rintro ⟨hle, hone⟩
    rw [← hsame] at hone
    exact ⟨_, rfl, (groupTable_right_iff h.log (hwrap.2 hle)).2 hone⟩

/-- A disk with groups of 32 blocks, and with the descriptor table at an address. -/
def groupDisk (log first blocks : UInt8) (table : Nat) : Disk where
  image a :=
    if a = 1028 then blocks
    else if a = 1044 then first
    else if a = 1048 then log
    else if a = 1056 then 32
    else if a = 1080 then 0x53
    else if a = 1081 then 0xEF
    else if a = table + 8 then 5
    else 0
  behind _ _ := 0

theorem groups_read_single :
    ∃ t, FS.readBlockGroups (groupDisk 0 1 30 2048) (superBlockOf (groupDisk 0 1 30 2048))
        (FS.shiftedSize (superBlockOf (groupDisk 0 1 30 2048)).logBlockSize / 1024) (fun _ => 0) =
          .ok t ∧
      t.Right (groupDisk 0 1 30 2048) (superBlockOf (groupDisk 0 1 30 2048))
        (FS.shiftedSize (superBlockOf (groupDisk 0 1 30 2048)).logBlockSize) :=
  (groups_read_iff _ ⟨by decide +kernel, by decide +kernel, by decide +kernel, by decide +kernel,
    by decide +kernel⟩).2
    ⟨by decide +kernel, .inr ⟨by decide +kernel, .inl (by decide +kernel)⟩⟩

/-- With blocks of 2 KiB the table is at block 1, and what lies at block 2 is taken for it; with
two groups in blocks of 1 KiB two blocks are asked for, and the table has one. -/
theorem groups_read_from_block_two :
    (superBlockOf (groupDisk 1 0 30 2048)).Standard ∧
    (superBlockOf (groupDisk 0 1 60 2048)).Standard ∧
    (¬∃ t, FS.readBlockGroups (groupDisk 1 0 30 2048) (superBlockOf (groupDisk 1 0 30 2048)) 2
        (fun _ => 0) = .ok t ∧
      t.Right (groupDisk 1 0 30 2048) (superBlockOf (groupDisk 1 0 30 2048)) 2048) ∧
    ¬∃ t, FS.readBlockGroups (groupDisk 0 1 60 2048) (superBlockOf (groupDisk 0 1 60 2048)) 1
        (fun _ => 0) = .ok t ∧
      t.Right (groupDisk 0 1 60 2048) (superBlockOf (groupDisk 0 1 60 2048)) 1024 := by
  refine ⟨⟨by decide +kernel, by decide +kernel, by decide +kernel, by decide +kernel,
    by decide +kernel⟩, ⟨by decide +kernel, by decide +kernel, by decide +kernel,
    by decide +kernel, by decide +kernel⟩, ?_, ?_⟩
  · rintro ⟨t, ht, hright⟩
    rw [FS.readBlockGroups, if_neg (by decide +kernel), Except.ok.injEq] at ht
    subst ht
    exact absurd (hright.records 0 (by decide +kernel) 8 (by norm_num)) (by decide +kernel)
  · rintro ⟨t, ht, hright⟩
    rw [FS.readBlockGroups, if_neg (by decide +kernel), Except.ok.injEq] at ht
    subst ht
    exact absurd hright.blocks (by decide +kernel)

end Ext2

end Ulysses
