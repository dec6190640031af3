import Ulysses.Ext2.Cache

/-!
# Where an inode is found

Inode `i` is record `(i - 1) % inodes_per_group` of the table of its group. `find_inode`
finds the group, and then looks in its table for record `i - 1`, which is the right one
in the first group only (`findInode_record`).
-/

namespace Ulysses

open Lib

namespace Ext2

/-- Record `r` of the inode table of group `g`. -/
def inodeRecord (disk : Disk) (fs : FS) (g r : Nat) : List UInt8 :=
  fs.inodeBytes disk ((fs.groups g).inodeTable + r / fs.inodePerBlock) (r % fs.inodePerBlock)

/-- `find_inode` returns the record of the inode, whatever the disk has. -/
def FindsRecord (fs : FS) (inode : Nat) : Prop :=
  ∀ (disk : Disk) (st : State), (fs.findInode disk inode st).map (·.1) =
    some (inodeRecord disk fs ((inode - 1) / fs.superBlock.inodesPerGroup)
      ((inode - 1) % fs.superBlock.inodesPerGroup))

/-- The inode tables fill whole blocks, and lie on the device, whose regions have 32-bit
numbers. -/
structure GroupsOk (fs : FS) : Prop where
  inodes_pos : 0 < fs.inodePerBlock
  group_pos : 0 < fs.superBlock.inodesPerGroup
  dvd : fs.inodePerBlock ∣ fs.superBlock.inodesPerGroup
  table : ∀ g < fs.totalGroups, ((fs.groups g).inodeTable +
    fs.superBlock.inodesPerGroup / fs.inodePerBlock) * fs.blockPerRegion ≤ 4294967296
  tables : fs.totalGroups * (fs.superBlock.inodesPerGroup / fs.inodePerBlock) *
    fs.blockPerRegion ≤ 4294967296

theorem div_of_dvd {a p q : Nat} (hp : 0 < p) (h : p ∣ q) :
    a / p = a / q * (q / p) + a % q / p := by
  obtain ⟨m, rfl⟩ := h
  conv_lhs => rw [← Nat.div_add_mod a (p * m), Nat.mul_assoc, Nat.mul_add_div hp]
  rw [Nat.mul_div_cancel_left m hp, Nat.mul_comm m]

section

variable {fs : FS}

theorem FS.Geometry.region_pos (h : fs.Geometry) :
    0 < fs.blockPerRegion ∧ fs.bytesPerBlock = fs.blockPerRegion * 1024 ∧
      fs.bytesPerBlock < 4294967296 := by
  obtain ⟨l, hl, hbytes⟩ := h.pow
  have hpow := Nat.pow_le_pow_right (n := 2) (by norm_num) hl
  have hpos := Nat.pow_pos (n := l) (show 0 < 2 by norm_num)
  rw [h.region, hbytes]
  omega

theorem FS.Geometry.bytes_pos (h : fs.Geometry) : 0 < fs.bytesPerBlock := by
  obtain ⟨hpos, hbytes, -⟩ := h.region_pos
  omega

theorem FS.Geometry.slot_lt (h : fs.Geometry) {block slot : Nat}
    (hslot : slot < fs.inodePerBlock) :
    slot * fs.superBlock.inodeSize < (fs.blockRange block 1).numBytes := by
  obtain ⟨-, hbytes, hlt⟩ := h.region_pos
  have hnum : (fs.blockRange block 1).numBytes = fs.bytesPerBlock := by
    have hone : mul32 1 fs.blockPerRegion = fs.blockPerRegion := by
      rw [mul32_eq (by omega), Nat.one_mul]
    simp only [FS.blockRange, FS.b2r, RegionRange.numBytes]
    rw [hone, mul32_eq (by omega), hbytes]
  have hpos := h.inodeSize_pos
  have hle : fs.inodePerBlock * fs.superBlock.inodeSize ≤ fs.bytesPerBlock := by
    rw [h.inodes]
    exact Nat.div_mul_le_self _ _
  have hsucc : (slot + 1) * fs.superBlock.inodeSize ≤
      fs.inodePerBlock * fs.superBlock.inodeSize := Nat.mul_le_mul_right _ hslot
  rw [Nat.succ_mul] at hsucc
  omega

theorem group_lt (hok : GroupsOk fs) {inode : Nat} (hpos : 1 ≤ inode)
    (hle : inode ≤ fs.totalGroups * fs.superBlock.inodesPerGroup) :
    (inode - 1) / fs.superBlock.inodesPerGroup < fs.totalGroups := by
  rw [Nat.div_lt_iff_lt_mul hok.group_pos]
  omega

theorem row_lt (hok : GroupsOk fs) (inode : Nat) :
    (inode - 1) % fs.superBlock.inodesPerGroup / fs.inodePerBlock <
      fs.superBlock.inodesPerGroup / fs.inodePerBlock :=
  Nat.div_lt_div_of_lt_of_dvd hok.dvd (Nat.mod_lt _ hok.group_pos)

/-- The place in which `find_inode` looks, in terms of the group and the record. -/
theorem inodePlace_eq (hok : GroupsOk fs) {inode : Nat} (hpos : 1 ≤ inode)
    (hle : inode ≤ fs.totalGroups * fs.superBlock.inodesPerGroup) (hlt : inode < 4294967296) :
    fs.inodePlace inode = some
      (add32 (fs.groups ((inode - 1) / fs.superBlock.inodesPerGroup)).inodeTable
        ((inode - 1) / fs.superBlock.inodesPerGroup *
            (fs.superBlock.inodesPerGroup / fs.inodePerBlock) +
          (inode - 1) % fs.superBlock.inodesPerGroup / fs.inodePerBlock),
        (inode - 1) % fs.superBlock.inodesPerGroup % fs.inodePerBlock) := by
  have hgroup := hok.group_pos
  have hinodes := hok.inodes_pos
  unfold FS.inodePlace
  simp only [sub32_eq hpos hlt]
  rw [if_neg (by omega), if_pos (group_lt hok hpos hle), ← div_of_dvd hinodes hok.dvd,
    Nat.mod_mod_of_dvd _ hok.dvd]

theorem findsRecord_of_le (hgeo : fs.Geometry) (hok : GroupsOk fs) {inode : Nat} (hpos : 1 ≤ inode)
    (hle : inode ≤ fs.totalGroups * fs.superBlock.inodesPerGroup) (hlt : inode < 4294967296)
    (hfirst : inode ≤ fs.superBlock.inodesPerGroup) : FindsRecord fs inode := by
  intro disk st
  have hgroup : (inode - 1) / fs.superBlock.inodesPerGroup = 0 :=
    Nat.div_eq_of_lt (by omega)
  have htotal := group_lt hok hpos hle
  rw [hgroup] at htotal
  obtain ⟨hregion, -⟩ := hgeo.region_pos
  -- the block does not wrap, since the table of the group ends on the device
  have hrow := row_lt hok inode
  have htable := hok.table 0 htotal
  have hend := Nat.le_mul_of_pos_right
    ((fs.groups 0).inodeTable + fs.superBlock.inodesPerGroup / fs.inodePerBlock) hregion
  unfold FS.findInode
  rw [inodePlace_eq hok hpos hle hlt, hgroup, Nat.zero_mul, Nat.zero_add, add32_eq (by omega)]
  rfl

/-- A wrapped product that is moved by less than a full turn has another value. -/
theorem mul32_add32_ne {a d c : Nat} (hpos : 0 < d * c) (hlt : d * c < 4294967296) :
    mul32 (add32 a d) c ≠ a * c := by
  unfold mul32 add32
  rw [Nat.mod_mul_mod, Nat.add_mul]
  omega

/-- Some disk tells blocks of different regions apart. -/
theorem exists_inodeBytes_ne (hgeo : fs.Geometry) {block block' slot : Nat}
    (hslot : slot < fs.inodePerBlock) (hne : fs.b2r block ≠ fs.b2r block') :
    ∃ disk, fs.inodeBytes disk block slot ≠ fs.inodeBytes disk block' slot := by
  let start := fs.b2r block * 1024 + slot * fs.superBlock.inodeSize
  let disk : Disk := { image := fun a => if a = start then 1 else 0, behind := fun _ _ => 0 }
  have hfirst : ∀ b, disk.data (fs.blockRange b 1) (slot * fs.superBlock.inodeSize + 0) =
      if fs.b2r b * 1024 + slot * fs.superBlock.inodeSize = start then 1 else 0 :=
    fun b => if_pos (hgeo.slot_lt hslot)
  refine ⟨disk, fun heq => ?_⟩
  have hbyte := List.map_inj_left.1 heq 0 (List.mem_range.2 hgeo.inodeSize_pos)
  rw [hfirst, hfirst, if_pos rfl, if_neg (by omega)] at hbyte
  cases hbyte

/-- In a later group the code looks behind the record. -/
theorem le_of_findsRecord (hgeo : fs.Geometry) (hok : GroupsOk fs) {inode : Nat} (hpos : 1 ≤ inode)
    (hle : inode ≤ fs.totalGroups * fs.superBlock.inodesPerGroup) (hlt : inode < 4294967296)
    (h : FindsRecord fs inode) : inode ≤ fs.superBlock.inodesPerGroup := by
  by_contra hgt
  obtain ⟨hregion, -⟩ := hgeo.region_pos
  have hplace := inodePlace_eq hok hpos hle hlt
  have hbg := group_lt hok hpos hle
  have hbg_pos : 0 < (inode - 1) / fs.superBlock.inodesPerGroup :=
    Nat.div_pos (by omega) hok.group_pos
  have hrow := row_lt hok inode
  have hslot : (inode - 1) % fs.superBlock.inodesPerGroup % fs.inodePerBlock < fs.inodePerBlock :=
    Nat.mod_lt _ hok.inodes_pos
  have htable := hok.table _ hbg
  have htables := hok.tables
  unfold FindsRecord FS.findInode inodeRecord at h
  rw [hplace] at h
  generalize (inode - 1) / fs.superBlock.inodesPerGroup = g at *
  generalize (inode - 1) % fs.superBlock.inodesPerGroup / fs.inodePerBlock = row at *
  generalize (inode - 1) % fs.superBlock.inodesPerGroup % fs.inodePerBlock = slot at *
  generalize fs.superBlock.inodesPerGroup / fs.inodePerBlock = m at *
  generalize (fs.groups g).inodeTable = t at *
  have hmoved : fs.b2r (add32 t (g * m + row)) ≠ fs.b2r (t + row) := by
    have hright : (t + row) * fs.blockPerRegion < (t + m) * fs.blockPerRegion :=
      Nat.mul_lt_mul_of_pos_right (by omega) hregion
    have hd : 0 < g * m * fs.blockPerRegion :=
      Nat.mul_pos (Nat.mul_pos hbg_pos (by omega)) hregion
    have hless : g * m * fs.blockPerRegion < fs.totalGroups * m * fs.blockPerRegion :=
      Nat.mul_lt_mul_of_pos_right (Nat.mul_lt_mul_of_pos_right hbg (by omega)) hregion
    have hne := mul32_add32_ne (a := t + row) hd (by omega)
    unfold FS.b2r
    rw [mul32_eq (show (t + row) * fs.blockPerRegion < 4294967296 by omega)]
    rwa [show add32 t (g * m + row) = add32 (t + row) (g * m) by unfold add32; congr 1; omega]
  obtain ⟨disk, hdisk⟩ := exists_inodeBytes_ne hgeo hslot hmoved
  exact hdisk (Option.some.inj (h disk {}))

/-- `find_inode` finds every inode of the first group and no other one. -/
theorem findInode_record (hgeo : fs.Geometry) (hok : GroupsOk fs) {inode : Nat} (hpos : 1 ≤ inode)
    (hle : inode ≤ fs.totalGroups * fs.superBlock.inodesPerGroup) (hlt : inode < 4294967296) :
    FindsRecord fs inode ↔ inode ≤ fs.superBlock.inodesPerGroup :=
  ⟨le_of_findsRecord hgeo hok hpos hle hlt, findsRecord_of_le hgeo hok hpos hle hlt⟩

theorem smallFs_groupsOk : GroupsOk smallFs where
  inodes_pos := by decide
  group_pos := by decide
  dvd := ⟨2, rfl⟩
  table g hg := by
    have hg : g < 2 := hg
    show (5 + 32 * g + 2) * 1 ≤ 4294967296
    omega
  tables := by decide

/-- The last inode of the first group. -/
theorem findInode_record_first : FindsRecord smallFs 16 :=
  (findInode_record smallFs_geometry smallFs_groupsOk (by decide) (by decide) (by decide)).2
    (by decide)

/-- The first inode of the second group is the first record of its table, at block 37; the
code reads at block 39. -/
theorem second_group_misread :
    inodeRecord { image := fun a => if a = 37888 then 7 else 0, behind := fun _ _ => 0 }
        smallFs 1 0 = 7 :: List.replicate 127 0 ∧
      (smallFs.findInode { image := fun a => if a = 37888 then 7 else 0, behind := fun _ _ => 0 }
        17 {}).map (·.1) = some (List.replicate 128 0) ∧
      smallFs.inodePlace 17 = some (39, 0) := by
  refine ⟨by decide +kernel, by decide +kernel, by decide⟩

end

end Ext2

end Ulysses
