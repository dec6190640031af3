import Ulysses.Ext2.Inodes
import Ulysses.Fs.File

/-!
# Reading files

`Node::read` of `fs/ext2.cpp`: the rest of the first block, then block after block. With
every block found it stores the bytes of the file from `offset` on, asks for each block
they lie in once and in order, and returns `size`; two reads in a row through `fs::File`
give the bytes of one (`read_copies`). It never looks at the length of the file.

`none` is a failed ASSERT, a division by zero or an access through a null buffer.
-/

namespace Ulysses

open Lib Bytes

namespace Ext2

/-! ## Inodes and nodes -/

/-- The fields of `ext2::Inode` that are read. -/
structure InodeRecord extends Inode where
  mode : Nat
  uid : Nat
  size : Nat
  gid : Nat
  blockCount : Nat

/-- The struct at the front of the bytes that `find_inode` copied. -/
def InodeRecord.ofBytes (bytes : List UInt8) : InodeRecord :=
  let data : Bytes := fun j => bytes.getD j 0
  { blocks := fun i => data.read32 (40 + 4 * i)
    mode := data.read16 0
    uid := data.read16 2
    size := data.read32 4
    gid := data.read16 24
    blockCount := data.read32 28 }

namespace FS

/-- `find_inode`, with the object it returns. -/
def loadInode (disk : Disk) (fs : FS) (inode : Nat) (st : State) : Option (InodeRecord × State) :=
  (fs.findInode disk inode st).map fun r => (.ofBytes r.1, r.2)

/-- The object that `find_inode` returns for an inode. -/
def inodeOf (disk : Disk) (fs : FS) (inode : Nat) : InodeRecord :=
  match fs.inodePlace inode with
  | some place => .ofBytes (fs.inodeBytes disk place.1 place.2)
  | none => .ofBytes []

/-- The caches agree with the disk. -/
def Sound (disk : Disk) (fs : FS) (st : State) : Prop :=
  Cached disk fs (fun i => (fs.inodeOf disk i).toInode) st

end FS

/-- `ext2::Node`. -/
structure Node where
  name : List UInt8
  mask : Nat
  uid : Nat
  gid : Nat
  flags : Nat
  inode : Nat
  length : Nat
  deriving DecidableEq

/-! ## Reading -/

/-- What a read works on: the file system's state, the memory, and the blocks that
`read_inode_block` was asked for. -/
structure Transfer where
  st : State
  memory : Bytes
  requests : List Nat

/-- `buffer->data()`. -/
def State.bufferData (disk : Disk) (st : State) (buffer : Nat) : Bytes :=
  match st.device.rangeOf buffer with
  | some range => disk.data range
  | none => fun _ => 0

section

variable (disk : Disk) (fs : FS) (inode : Nat) (obj : InodeRecord)

/-- `read_inode_block(inode, obj, block)`, and a `memcpy` of `n` bytes from `off` on. -/
def Transfer.copyBlock (block off n user : Nat) (t : Transfer) : Option Transfer :=
  (fs.readInodeBlock disk inode obj.toInode block t.st).bind fun r =>
    r.1.map fun buffer =>
      { st := r.2
        memory := t.memory.fill user n fun i => r.2.bufferData disk buffer (off + i)
        requests := t.requests ++ [block] }

/-- The loop of `read`. Without fuel there is no result. -/
def readLoop : Nat → Nat → Nat → Nat → Transfer → Option Transfer
  | _, _, 0, _, t => some t
  | 0, _, _ + 1, _, _ => none
  | fuel + 1, curBlock, left + 1, user, t =>
    let readSize := if left + 1 > fs.bytesPerBlock then fs.bytesPerBlock else left + 1
    (t.copyBlock disk fs inode obj curBlock 0 readSize user).bind
      (readLoop fuel (add32 curBlock 1) (sub32 (left + 1) readSize) (add32 user readSize))

end

namespace Node

def read (disk : Disk) (fs : FS) (offset size user : Nat) (n : Node) (t : Transfer) :
    Option (Nat × Transfer) :=
  (fs.loadInode disk n.inode t.st).bind fun r =>
    if fs.bytesPerBlock = 0 then none
    else
      let curBlock := offset / fs.bytesPerBlock
      let initialOffset := offset % fs.bytesPerBlock
      let b1Size := sub32 fs.bytesPerBlock initialOffset
      let b1Size := if b1Size > size then size else b1Size
      (({ t with st := r.2 } : Transfer).copyBlock disk fs n.inode r.1 curBlock initialOffset b1Size
          user).bind fun t =>
        let left := sub32 size b1Size
        if left = 0 then some (size, t)
        else
          (readLoop disk fs n.inode r.1 left (add32 curBlock 1) left (add32 user b1Size) t).map
            fun t => (size, t)

/-- `File::read` of a file with the node. -/
def readFile (disk : Disk) (fs : FS) (user size : Nat) (n : Node) (f : Fs.File) (t : Transfer) :
    Option (Int × Fs.File × Transfer) :=
  (n.read disk fs f.offset size user t).map fun r => ((f.moved r.1).1, (f.moved r.1).2, r.2)

end Node

/-- The `n` bytes at `a`. -/
def bytesAt (m : Bytes) (a n : Nat) : List UInt8 := (List.range n).map fun i => m (a + i)

/-! ## One block -/

namespace FS

/-- `read_inode_block` finds the block, and its bytes are `data`. -/
def Serves (disk : Disk) (fs : FS) (obj : Inode) (block : Nat) (data : Bytes) : Prop :=
  ∃ id, fs.blockId disk obj block = some (some id) ∧
    ∀ j < fs.bytesPerBlock, disk.data (fs.blockRange id 1) j = data j

end FS

section

variable {disk : Disk} {fs : FS} {inode : Nat}

theorem loadInode_eq (st : State) :
    fs.loadInode disk inode st =
      (fs.inodePlace inode).map fun place =>
        (fs.inodeOf disk inode, (fs.readBlock place.1 1 st).2) := by
  unfold FS.loadInode FS.findInode FS.inodeOf
  cases fs.inodePlace inode with
  | none => rfl
  | some place => rfl

theorem sound_loadInode {st st' : State} {obj : InodeRecord} (h : fs.Sound disk st)
    (hload : fs.loadInode disk inode st = some (obj, st')) :
    obj = fs.inodeOf disk inode ∧ fs.Sound disk st' := by
  rw [loadInode_eq] at hload
  obtain ⟨place, -, heq⟩ := Option.map_eq_some_iff.1 hload
  obtain ⟨rfl, rfl⟩ := Prod.mk.inj heq
  exact ⟨rfl, h.extend (readBlock_spec fs h.device place.1).2⟩

theorem loadInode_of_place {st : State} (h : fs.Sound disk st)
    (hplace : (fs.inodePlace inode).isSome) :
    ∃ st', fs.loadInode disk inode st = some (fs.inodeOf disk inode, st') ∧ fs.Sound disk st' := by
  obtain ⟨place, hplace⟩ := Option.isSome_iff_exists.1 hplace
  have hload : fs.loadInode disk inode st =
      some (fs.inodeOf disk inode, (fs.readBlock place.1 1 st).2) := by
    rw [loadInode_eq, hplace]
    rfl
  exact ⟨_, hload, (sound_loadInode h hload).2⟩

variable {t : Transfer} {user left offset size : Nat}

theorem copyBlock_of_serves {block off n : Nat} (user : Nat) {data : Bytes} (h : fs.Sound disk t.st)
    (hserves : fs.Serves disk (fs.inodeOf disk inode).toInode block data)
    (hn : off + n ≤ fs.bytesPerBlock) :
    ∃ t', t.copyBlock disk fs inode (fs.inodeOf disk inode) block off n user = some t' ∧
      fs.Sound disk t'.st ∧ t'.memory = t.memory.fill user n (fun i => data (off + i)) ∧
      t'.requests = t.requests ++ [block] := by
  obtain ⟨id, hid, hdata⟩ := hserves
  have hspec := Cached.readInodeBlock h inode block
  rw [hid] at hspec
  obtain ⟨r, st', hread, hanswer, hsound⟩ := hspec
  obtain ⟨buffer, rfl, hrange⟩ := Option.map_eq_some_iff.1 hanswer
  unfold Transfer.copyBlock
  rw [hread]
  refine ⟨_, rfl, hsound, ?_, rfl⟩
  show t.memory.fill user n (fun i => st'.bufferData disk buffer (off + i)) = _
  refine fill_ext fun i hi => ?_
  unfold State.bufferData
  rw [hrange]
  exact hdata (off + i) (by omega)

theorem serves_of_copyBlock {block off n : Nat} {t' : Transfer} (h : fs.Sound disk t.st)
    (hcopy : t.copyBlock disk fs inode (fs.inodeOf disk inode) block off n user = some t') :
    (∃ id, fs.blockId disk (fs.inodeOf disk inode).toInode block = some (some id)) ∧
      fs.Sound disk t'.st := by
  obtain ⟨⟨r, st'⟩, hread, hcopy⟩ := Option.bind_eq_some_iff.1 hcopy
  obtain ⟨buffer, rfl, rfl⟩ := Option.map_eq_some_iff.1 hcopy
  have hspec := Cached.readInodeBlock h inode block
  split at hspec
  · rw [hspec] at hread
    cases hread
  · next id hid =>
    obtain ⟨r, st₁, hread', hanswer, hsound⟩ := hspec
    rw [hread'] at hread
    cases hread
    cases id with
    | none => cases hanswer
    | some id => exact ⟨⟨id, hid⟩, hsound⟩

/-! ## The loop -/

theorem blocks_succ {bpb : Nat} (hb : 0 < bpb) (hlt : bpb < left) :
    (left + bpb - 1) / bpb = (left - bpb + bpb - 1) / bpb + 1 := by
  rw [show left + bpb - 1 = left - bpb + bpb - 1 + bpb by omega, Nat.add_div_right _ hb]

theorem readLoop_last {obj : InodeRecord} {fuel cur : Nat} (hleft : 0 < left)
    (hle : left ≤ fs.bytesPerBlock) :
    readLoop disk fs inode obj (fuel + 1) cur left user t =
      t.copyBlock disk fs inode obj cur 0 left user := by
  obtain ⟨left, rfl⟩ := Nat.exists_eq_succ_of_ne_zero hleft.ne'
  have hzero : sub32 (left + 1) (left + 1) = 0 := by
    unfold sub32
    omega
  simp only [readLoop, if_neg (Nat.not_lt.2 hle), Nat.succ_eq_add_one, hzero]
  cases t.copyBlock disk fs inode obj cur 0 (left + 1) user with
  | none => rfl
  | some t' => rfl

theorem readLoop_whole {obj : InodeRecord} {fuel cur : Nat} (hlt : fs.bytesPerBlock < left)
    (hleft : left < 4294967296) :
    readLoop disk fs inode obj (fuel + 1) cur left user t =
      (t.copyBlock disk fs inode obj cur 0 fs.bytesPerBlock user).bind
        (readLoop disk fs inode obj fuel (add32 cur 1) (left - fs.bytesPerBlock)
          (add32 user fs.bytesPerBlock)) := by
  obtain ⟨left, rfl⟩ := Nat.exists_eq_succ_of_ne_zero (show left ≠ 0 by omega)
  simp only [readLoop, if_pos hlt, Nat.succ_eq_add_one]
  rw [sub32_eq (by omega) hleft]

/-- With every block served the loop copies the rest of the file's bytes. -/
theorem readLoop_of_serves {contents : Nat → Bytes} (hb : 0 < fs.bytesPerBlock) {fuel cur : Nat}
    (hfuel : left ≤ fuel) (hleft : left < 4294967296) (h : fs.Sound disk t.st)
    (hserves : ∀ b, cur ≤ b → b * fs.bytesPerBlock < cur * fs.bytesPerBlock + left →
      fs.Serves disk (fs.inodeOf disk inode).toInode b (contents b))
    (hcur : cur + left / fs.bytesPerBlock + 1 < 4294967296) (huser : user + left ≤ 4294967296) :
    ∃ t', readLoop disk fs inode (fs.inodeOf disk inode) fuel cur left user t = some t' ∧
      fs.Sound disk t'.st ∧
      t'.memory = t.memory.fill user left
        (fun i => contents (cur + i / fs.bytesPerBlock) (i % fs.bytesPerBlock)) ∧
      t'.requests = t.requests ++
        List.range' cur ((left + fs.bytesPerBlock - 1) / fs.bytesPerBlock) := by
  induction fuel generalizing cur left user t with
  | zero =>
    obtain rfl := Nat.le_zero.1 hfuel
    refine ⟨t, rfl, h, (funext fun x => fill_off _ _ (by omega)).symm, ?_⟩
    rw [Nat.zero_add, Nat.div_eq_of_lt (by omega)]
    simp
  | succ fuel ih =>
    rcases Nat.eq_zero_or_pos left with rfl | hpos
    · refine ⟨t, rfl, h, (funext fun x => fill_off _ _ (by omega)).symm, ?_⟩
      rw [Nat.zero_add, Nat.div_eq_of_lt (by omega)]
      simp
    have hfirst := hserves cur (Nat.le_refl _) (by omega)
    by_cases hle : left ≤ fs.bytesPerBlock
    · rw [readLoop_last hpos hle]
      obtain ⟨t', hcopy, hsound, hmem, hreq⟩ :=
        copyBlock_of_serves user h hfirst (show 0 + left ≤ _ by omega)
      refine ⟨t', hcopy, hsound, hmem.trans (fill_ext fun i hi => ?_), hreq.trans ?_⟩
      · rw [Nat.div_eq_of_lt (by omega), Nat.mod_eq_of_lt (by omega), Nat.zero_add, Nat.add_zero]
      · rw [show left + fs.bytesPerBlock - 1 = left - 1 + fs.bytesPerBlock by omega,
          Nat.add_div_right _ hb, Nat.div_eq_of_lt (by omega)]
        rfl
    · rw [Nat.not_le] at hle
      obtain ⟨t₁, hcopy, hsound₁, hmem₁, hreq₁⟩ :=
        copyBlock_of_serves user h hfirst (show 0 + fs.bytesPerBlock ≤ _ by omega)
      obtain ⟨q, hq⟩ : ∃ q, (left - fs.bytesPerBlock) / fs.bytesPerBlock = q := ⟨_, rfl⟩
      rw [Nat.div_eq_sub_div hb hle.le, hq] at hcur
      rw [readLoop_whole hle hleft, hcopy, Option.bind_some, add32_eq (by omega),
        add32_eq (by omega)]
      obtain ⟨t', hrun, hsound, hmem, hreq⟩ := @ih t₁ (user + fs.bytesPerBlock)
        (left - fs.bytesPerBlock) (cur + 1) (by omega) (by omega) hsound₁
        (fun b hcb hb' => hserves b (by omega) (by rw [Nat.succ_mul] at hb'; omega)) (by omega)
        (by omega)
      refine ⟨t', hrun, hsound, ?_, ?_⟩
      · rw [hmem, hmem₁, fill_append, show fs.bytesPerBlock + (left - fs.bytesPerBlock) = left by
          omega]
        refine fill_ext fun i _ => ?_
        split
        · next hi => rw [Nat.div_eq_of_lt hi, Nat.mod_eq_of_lt hi, Nat.zero_add, Nat.add_zero]
        · next hi =>
          obtain ⟨j, rfl⟩ := Nat.exists_eq_add_of_le (Nat.not_lt.1 hi)
          rw [Nat.add_sub_cancel_left, Nat.add_div_left _ hb, Nat.add_mod_left]
          congr 1
          omega
      · rw [hreq, hreq₁, blocks_succ hb hle, List.range'_succ, List.append_assoc]
        rfl

theorem sound_readLoop {fuel cur : Nat} {t' : Transfer} (h : fs.Sound disk t.st)
    (hrun : readLoop disk fs inode (fs.inodeOf disk inode) fuel cur left user t = some t') :
    fs.Sound disk t'.st := by
  induction fuel generalizing cur left user t with
  | zero =>
    cases left with
    | zero => exact Option.some.inj hrun ▸ h
    | succ left => cases hrun
  | succ fuel ih =>
    cases left with
    | zero => exact Option.some.inj hrun ▸ h
    | succ left =>
      obtain ⟨t₁, hcopy, hrun⟩ := Option.bind_eq_some_iff.1 hrun
      exact ih (serves_of_copyBlock h hcopy).2 hrun

theorem found_of_readLoop (hb : 0 < fs.bytesPerBlock) {fuel cur : Nat} {t' : Transfer}
    (hleft : left < 4294967296) (h : fs.Sound disk t.st)
    (hcur : cur + left / fs.bytesPerBlock + 1 < 4294967296)
    (hrun : readLoop disk fs inode (fs.inodeOf disk inode) fuel cur left user t = some t') :
    ∀ b, cur ≤ b → b * fs.bytesPerBlock < cur * fs.bytesPerBlock + left →
      ∃ id, fs.blockId disk (fs.inodeOf disk inode).toInode b = some (some id) := by
  intro b hcb hlt
  have hmul := Nat.mul_le_mul_right fs.bytesPerBlock hcb
  induction fuel generalizing cur left user t with
  | zero =>
    cases left with
    | zero => omega
    | succ left => cases hrun
  | succ fuel ih =>
    rcases Nat.eq_zero_or_pos left with rfl | hpos
    · omega
    by_cases hle : left ≤ fs.bytesPerBlock
    · rw [readLoop_last hpos hle] at hrun
      obtain ⟨hid, -⟩ := serves_of_copyBlock h hrun
      obtain rfl : b = cur := by
        by_contra hne
        have := Nat.mul_le_mul_right fs.bytesPerBlock (show cur + 1 ≤ b by omega)
        rw [Nat.succ_mul] at this
        omega
      exact hid
    · rw [Nat.not_le] at hle
      obtain ⟨q, hq⟩ : ∃ q, (left - fs.bytesPerBlock) / fs.bytesPerBlock = q := ⟨_, rfl⟩
      rw [Nat.div_eq_sub_div hb hle.le, hq] at hcur
      rw [readLoop_whole hle hleft] at hrun
      obtain ⟨t₁, hcopy, hrun⟩ := Option.bind_eq_some_iff.1 hrun
      obtain ⟨hid, hsound₁⟩ := serves_of_copyBlock h hcopy
      rw [add32_eq (by omega)] at hrun
      rcases Nat.eq_or_lt_of_le hcb with rfl | hgt
      · exact hid
      · exact ih (by omega) hsound₁ (show cur + 1 + _ / _ + 1 < _ by omega) hrun hgt
          (by rw [Nat.succ_mul]; omega) (Nat.mul_le_mul_right _ hgt)

/-! ## The whole read -/

/-- The blocks that a read asks for: the one with the first byte, and those of the bytes that
follow. -/
def FS.Used (fs : FS) (offset size b : Nat) : Prop :=
  b = offset / fs.bytesPerBlock ∨
    offset / fs.bytesPerBlock < b ∧ b * fs.bytesPerBlock < offset + size

/-- How many they are. -/
def FS.usedCount (fs : FS) (offset size : Nat) : Nat :=
  (size - (fs.bytesPerBlock - offset % fs.bytesPerBlock) + fs.bytesPerBlock - 1) /
    fs.bytesPerBlock + 1

/-- `read` with the arithmetic carried out. -/
theorem read_eq {n : Node} (hb : 0 < fs.bytesPerBlock) (hlt : fs.bytesPerBlock < 4294967296)
    (hsize : size < 4294967296) (huser : user + size ≤ 4294967296) :
    n.read disk fs offset size user t =
      (fs.loadInode disk n.inode t.st).bind fun r =>
        (({ t with st := r.2 } : Transfer).copyBlock disk fs n.inode r.1
            (offset / fs.bytesPerBlock) (offset % fs.bytesPerBlock)
            (min (fs.bytesPerBlock - offset % fs.bytesPerBlock) size) user).bind fun t =>
          let left := size - (fs.bytesPerBlock - offset % fs.bytesPerBlock)
          if left = 0 then some (size, t)
          else
            (readLoop disk fs n.inode r.1 left (add32 (offset / fs.bytesPerBlock) 1) left
              (user + (fs.bytesPerBlock - offset % fs.bytesPerBlock)) t).map
              fun t => (size, t) := by
  have hmod := Nat.mod_lt offset hb
  unfold Node.read
  generalize offset % fs.bytesPerBlock = initial at hmod ⊢
  simp only [if_neg hb.ne', sub32_eq hmod.le hlt]
  by_cases hsmall : fs.bytesPerBlock - initial > size
  · have hzero : sub32 size size = 0 := by
      unfold sub32
      omega
    simp only [if_pos hsmall, min_eq_right hsmall.le, hzero, Nat.sub_eq_zero_of_le hsmall.le,
      if_true]
  · rw [Nat.not_lt] at hsmall
    simp only [if_neg (Nat.not_lt.2 hsmall), min_eq_left hsmall, sub32_eq hsmall hsize]
    congr 1
    funext r
    congr 1
    funext t
    split
    · rfl
    · next hleft =>
      rw [add32_eq (show user + (fs.bytesPerBlock - initial) < 4294967296 by omega)]

/-- The bytes of the first block and of the rest are those of the file from `offset` on. -/
theorem contents_split (contents : Nat → Bytes) {bpb : Nat} (offset size i : Nat) (hb : 0 < bpb)
    (hi : i < size) :
    (if i < min (bpb - offset % bpb) size then contents (offset / bpb) (offset % bpb + i)
      else contents (offset / bpb + 1 + (i - min (bpb - offset % bpb) size) / bpb)
        ((i - min (bpb - offset % bpb) size) % bpb)) =
      contents ((offset + i) / bpb) ((offset + i) % bpb) := by
  have hmod := Nat.mod_lt offset hb
  have hdivmod := Nat.div_add_mod offset bpb
  generalize offset / bpb = cur at hdivmod ⊢
  generalize offset % bpb = initial at hmod hdivmod ⊢
  split
  · next hfirst =>
    have hsum : offset + i = initial + i + bpb * cur := by omega
    have hlt : initial + i < bpb := by omega
    rw [hsum, Nat.add_mul_div_left _ _ hb, Nat.add_mul_mod_self_left, Nat.div_eq_of_lt hlt,
      Nat.mod_eq_of_lt hlt, Nat.zero_add]
  · next hrest =>
    have hmin : min (bpb - initial) size = bpb - initial := by omega
    rw [hmin] at hrest ⊢
    have hsum : offset + i = i - (bpb - initial) + bpb * (cur + 1) := by
      rw [Nat.mul_add, Nat.mul_one]
      omega
    rw [hsum, Nat.add_mul_div_left _ _ hb, Nat.add_mul_mod_self_left, Nat.add_comm (cur + 1)]

theorem used_of_lt {b : Nat} (hb : 0 < fs.bytesPerBlock) (hcur : offset / fs.bytesPerBlock + 1 ≤ b)
    (hlt : b * fs.bytesPerBlock < (offset / fs.bytesPerBlock + 1) * fs.bytesPerBlock +
      (size - (fs.bytesPerBlock - offset % fs.bytesPerBlock))) :
    fs.Used offset size b ∧ fs.bytesPerBlock - offset % fs.bytesPerBlock < size := by
  have hmod := Nat.mod_lt offset hb
  have hdivmod := Nat.div_add_mod offset fs.bytesPerBlock
  have hle := Nat.mul_le_mul_right fs.bytesPerBlock hcur
  rw [Nat.mul_comm fs.bytesPerBlock] at hdivmod
  rw [Nat.succ_mul] at hlt hle
  exact ⟨.inr ⟨hcur, by omega⟩, by omega⟩

theorem lt_of_used {b : Nat} (hb : 0 < fs.bytesPerBlock) (hused : fs.Used offset size b)
    (hne : b ≠ offset / fs.bytesPerBlock) :
    offset / fs.bytesPerBlock + 1 ≤ b ∧
      b * fs.bytesPerBlock < (offset / fs.bytesPerBlock + 1) * fs.bytesPerBlock +
        (size - (fs.bytesPerBlock - offset % fs.bytesPerBlock)) ∧
      size - (fs.bytesPerBlock - offset % fs.bytesPerBlock) ≠ 0 := by
  obtain ⟨hcur, hlt⟩ := hused.resolve_left hne
  have hmod := Nat.mod_lt offset hb
  have hdivmod := Nat.div_add_mod offset fs.bytesPerBlock
  have hle := Nat.mul_le_mul_right fs.bytesPerBlock
    (show offset / fs.bytesPerBlock + 1 ≤ b from hcur)
  rw [Nat.mul_comm fs.bytesPerBlock] at hdivmod
  rw [Nat.succ_mul] at hle ⊢
  exact ⟨hcur, by omega, by omega⟩

theorem block_bound (hgeo : fs.Geometry) (left : Nat) (hoffset : offset < 4294967296)
    (hleft : left < 4294967296) :
    offset / fs.bytesPerBlock + 1 + left / fs.bytesPerBlock + 1 < 4294967296 := by
  obtain ⟨hpos, hbytes, -⟩ := hgeo.region_pos
  have hle : 1024 ≤ fs.bytesPerBlock := by omega
  have h1 : offset / fs.bytesPerBlock ≤ offset / 1024 := Nat.div_le_div_left hle (by decide)
  have h2 : left / fs.bytesPerBlock ≤ left / 1024 := Nat.div_le_div_left hle (by decide)
  have h3 : offset / 1024 < 4194304 := by omega
  have h4 : left / 1024 < 4194304 := by omega
  generalize offset / fs.bytesPerBlock = q at h1 ⊢
  generalize left / fs.bytesPerBlock = q' at h2 ⊢
  omega

theorem next_block_lt (hgeo : fs.Geometry) (hoffset : offset < 4294967296) :
    offset / fs.bytesPerBlock + 1 < 4294967296 := by
  have hbound := block_bound hgeo 0 hoffset (by decide)
  rw [Nat.zero_div] at hbound
  omega

theorem read_of_serves (hgeo : fs.Geometry) {contents : Nat → Bytes} {n : Node}
    (h : fs.Sound disk t.st) (hplace : (fs.inodePlace n.inode).isSome)
    (hserves : ∀ b, fs.Used offset size b →
      fs.Serves disk (fs.inodeOf disk n.inode).toInode b (contents b))
    (hoffset : offset < 4294967296) (hsize : size < 4294967296) (huser : user + size ≤ 4294967296) :
    ∃ t', n.read disk fs offset size user t = some (size, t') ∧ fs.Sound disk t'.st ∧
      t'.memory = t.memory.fill user size
        (fun i => contents ((offset + i) / fs.bytesPerBlock) ((offset + i) % fs.bytesPerBlock)) ∧
      t'.requests = t.requests ++
        List.range' (offset / fs.bytesPerBlock) (fs.usedCount offset size) := by
  obtain ⟨-, -, hlt⟩ := hgeo.region_pos
  have hb := hgeo.bytes_pos
  have hmod := Nat.mod_lt offset hb
  obtain ⟨st₀, hload, hsound₀⟩ := loadInode_of_place h hplace
  obtain ⟨t₁, hcopy, hsound₁, hmem₁, hreq₁⟩ := copyBlock_of_serves user
    (t := { t with st := st₀ }) hsound₀ (hserves _ (.inl rfl))
    (show offset % fs.bytesPerBlock +
      min (fs.bytesPerBlock - offset % fs.bytesPerBlock) size ≤ _ by omega)
  rw [read_eq hb hlt hsize huser, hload, Option.bind_some, hcopy, Option.bind_some]
  have hcontents := fun i => contents_split contents offset size i hb
  simp only
  split
  · next hleft =>
    refine ⟨t₁, rfl, hsound₁, ?_, ?_⟩
    · have hmin : min (fs.bytesPerBlock - offset % fs.bytesPerBlock) size = size := by omega
      rw [hmin] at hmem₁ hcontents
      refine hmem₁.trans (fill_ext fun i hi => ?_)
      rw [← hcontents i hi, if_pos hi]
    · have hzero : (0 + fs.bytesPerBlock - 1) / fs.bytesPerBlock = 0 :=
        Nat.div_eq_of_lt (by omega)
      rw [hreq₁, FS.usedCount, hleft, hzero]
      rfl
  · next hleft =>
    have hmin : min (fs.bytesPerBlock - offset % fs.bytesPerBlock) size =
        fs.bytesPerBlock - offset % fs.bytesPerBlock := by omega
    have hbound := block_bound hgeo (size - (fs.bytesPerBlock - offset % fs.bytesPerBlock)) hoffset
      (by omega)
    rw [hmin] at hmem₁ hcontents
    rw [add32_eq (next_block_lt hgeo hoffset)]
    have hrest : user + (fs.bytesPerBlock - offset % fs.bytesPerBlock) +
        (size - (fs.bytesPerBlock - offset % fs.bytesPerBlock)) ≤ 4294967296 := by
      omega
    obtain ⟨t', hrun, hsound, hmem, hreq⟩ := readLoop_of_serves hb (Nat.le_refl _) (by omega)
      hsound₁ (fun b hcb hlt' => hserves b (used_of_lt hb hcb hlt').1) hbound hrest
    refine ⟨t', by rw [hrun]; rfl, hsound, ?_, ?_⟩
    · rw [hmem, hmem₁, fill_append, Nat.add_sub_cancel' (by omega)]
      exact fill_ext fun i hi => hcontents i hi
    · rw [hreq, hreq₁, FS.usedCount, List.range'_succ, List.append_assoc]
      rfl

theorem sound_read {n : Node} {r : Nat × Transfer} (h : fs.Sound disk t.st)
    (hread : n.read disk fs offset size user t = some r) : fs.Sound disk r.2.st := by
  obtain ⟨⟨obj, st⟩, hload, hread⟩ := Option.bind_eq_some_iff.1 hread
  obtain ⟨rfl, hsound⟩ := sound_loadInode h hload
  obtain ⟨-, hread⟩ := Option.ite_none_left_eq_some.1 hread
  obtain ⟨t₁, hcopy, hread⟩ := Option.bind_eq_some_iff.1 hread
  have hsound₁ := (serves_of_copyBlock hsound hcopy).2
  generalize (if sub32 fs.bytesPerBlock (offset % fs.bytesPerBlock) > size then size
    else sub32 fs.bytesPerBlock (offset % fs.bytesPerBlock)) = b1Size at hread
  simp only at hread
  split at hread
  · obtain rfl := Option.some.inj hread
    exact hsound₁
  · obtain ⟨t₂, hrun, rfl⟩ := Option.map_eq_some_iff.1 hread
    exact sound_readLoop hsound₁ hrun

/-- If `read` returns, it returns `size` and found every block. -/
theorem found_of_read (hgeo : fs.Geometry) {n : Node} {count : Nat} {t' : Transfer}
    (h : fs.Sound disk t.st) (hoffset : offset < 4294967296) (hsize : size < 4294967296)
    (huser : user + size ≤ 4294967296)
    (hread : n.read disk fs offset size user t = some (count, t')) :
    count = size ∧ (fs.inodePlace n.inode).isSome ∧ ∀ b, fs.Used offset size b →
      ∃ id, fs.blockId disk (fs.inodeOf disk n.inode).toInode b = some (some id) := by
  obtain ⟨-, -, hlt⟩ := hgeo.region_pos
  have hb := hgeo.bytes_pos
  rw [read_eq hb hlt hsize huser] at hread
  obtain ⟨⟨obj, st⟩, hload, hread⟩ := Option.bind_eq_some_iff.1 hread
  obtain ⟨rfl, hsound₀⟩ := sound_loadInode h hload
  have hplace : (fs.inodePlace n.inode).isSome := by
    rw [loadInode_eq] at hload
    obtain ⟨place, hplace, -⟩ := Option.map_eq_some_iff.1 hload
    rw [hplace]
    rfl
  obtain ⟨t₁, hcopy, hread⟩ := Option.bind_eq_some_iff.1 hread
  obtain ⟨hfirst, hsound₁⟩ := serves_of_copyBlock hsound₀ hcopy
  simp only at hread
  split at hread
  · next hleft =>
    obtain ⟨rfl, -⟩ := Prod.mk.inj (Option.some.inj hread)
    refine ⟨rfl, hplace, fun b hused => ?_⟩
    by_cases hne : b = offset / fs.bytesPerBlock
    · exact hne ▸ hfirst
    · exact absurd hleft (lt_of_used hb hused hne).2.2
  · have hbound := block_bound hgeo (size - (fs.bytesPerBlock - offset % fs.bytesPerBlock)) hoffset
      (by omega)
    rw [add32_eq (next_block_lt hgeo hoffset)] at hread
    obtain ⟨t₂, hrun, heq⟩ := Option.map_eq_some_iff.1 hread
    obtain ⟨rfl, -⟩ := Prod.mk.inj heq
    have hfound := found_of_readLoop hb (by omega) hsound₁ hbound hrun
    refine ⟨rfl, hplace, fun b hused => ?_⟩
    by_cases hne : b = offset / fs.bytesPerBlock
    · exact hne ▸ hfirst
    · obtain ⟨hcb, hlt', -⟩ := lt_of_used hb hused hne
      exact hfound b hcb hlt'

theorem usedCount_eq (hb : 0 < fs.bytesPerBlock) (hsize : 1 ≤ size) :
    fs.usedCount offset size =
      (offset + size - 1) / fs.bytesPerBlock - offset / fs.bytesPerBlock + 1 := by
  have hmod := Nat.mod_lt offset hb
  have hdivmod := Nat.div_add_mod offset fs.bytesPerBlock
  unfold FS.usedCount
  generalize offset / fs.bytesPerBlock = cur at hdivmod ⊢
  generalize offset % fs.bytesPerBlock = initial at hmod hdivmod ⊢
  have hlast : offset + size - 1 = initial + size - 1 + fs.bytesPerBlock * cur := by omega
  rw [hlast, Nat.add_mul_div_left _ _ hb, Nat.add_sub_cancel]
  congr 1
  by_cases hle : fs.bytesPerBlock - initial ≤ size
  · congr 1
    omega
  · rw [Nat.div_eq_of_lt (by omega), Nat.div_eq_of_lt (by omega)]

end

/-! ## Files whose blocks are there -/

/-- The inode is found, and every block of the file is served. -/
structure FS.Present (disk : Disk) (fs : FS) (inode length : Nat) (contents : Nat → Bytes) :
    Prop where
  place : (fs.inodePlace inode).isSome
  blocks : ∀ b, b * fs.bytesPerBlock < length →
    fs.Serves disk (fs.inodeOf disk inode).toInode b (contents b)

/-- The bytes `offset` to `offset + size - 1` of the blocks are stored at `user` and nothing
else is written, and each of their blocks was asked for once, in order. -/
structure FS.Copies (fs : FS) (contents : Nat → Bytes) (offset size user : Nat) (t t' : Transfer) :
    Prop where
  bytes : ∀ i < size, t'.memory (user + i) =
    contents ((offset + i) / fs.bytesPerBlock) ((offset + i) % fs.bytesPerBlock)
  beyond : ∀ a, a < user ∨ user + size ≤ a → t'.memory a = t.memory a
  requests : t'.requests = t.requests ++ List.range' (offset / fs.bytesPerBlock)
    ((offset + size - 1) / fs.bytesPerBlock - offset / fs.bytesPerBlock + 1)

section

variable {disk : Disk} {fs : FS} {n : Node} {length : Nat} {contents : Nat → Bytes}

theorem FS.Present.read (hfile : fs.Present disk n.inode length contents) (hgeo : fs.Geometry)
    (hlength : length < 2147483648) {t : Transfer} (h : fs.Sound disk t.st)
    {offset size user : Nat} (hsize : 1 ≤ size) (hend : offset + size ≤ length)
    (huser : user + size ≤ 4294967296) :
    ∃ t', n.read disk fs offset size user t = some (size, t') ∧ fs.Sound disk t'.st ∧
      fs.Copies contents offset size user t t' := by
  have hb := hgeo.bytes_pos
  have hserves : ∀ b, fs.Used offset size b →
      fs.Serves disk (fs.inodeOf disk n.inode).toInode b (contents b) := by
    intro b hused
    refine hfile.blocks b ?_
    rcases hused with rfl | ⟨-, hlt⟩
    · have := Nat.div_mul_le_self offset fs.bytesPerBlock
      omega
    · omega
  obtain ⟨t', hread, hsound, hmem, hreq⟩ := read_of_serves hgeo h hfile.place
    hserves (by omega) (by omega) huser
  refine ⟨t', hread, hsound, fun i hi => ?_, fun a ha => ?_, ?_⟩
  · rw [hmem, fill_in _ _ ⟨Nat.le_add_right _ _, by omega⟩, Nat.add_sub_cancel_left]
  · rw [hmem, fill_off _ _ ha]
  · rw [hreq, usedCount_eq hb hsize]

theorem FS.Present.readFile (hfile : fs.Present disk n.inode length contents)
    (hgeo : fs.Geometry) (hlength : length < 2147483648) {t : Transfer} (h : fs.Sound disk t.st)
    {f : Fs.File} {size user : Nat} (hsize : 1 ≤ size) (hend : f.offset + size ≤ length)
    (huser : user + size ≤ 4294967296) :
    ∃ t', n.readFile disk fs user size f t = some ((size : Int), ⟨f.offset + size⟩, t') ∧
      fs.Sound disk t'.st ∧
      bytesAt t'.memory user size = (List.range size).map fun i =>
        contents ((f.offset + i) / fs.bytesPerBlock) ((f.offset + i) % fs.bytesPerBlock) := by
  obtain ⟨t', hread, hsound, hcopies⟩ := hfile.read hgeo hlength h hsize hend huser
  refine ⟨t', ?_, hsound, List.map_congr_left fun i hi => hcopies.bytes i (List.mem_range.1 hi)⟩
  unfold Node.readFile
  rw [hread, Option.map_some, Fs.File.moved_of_lt (by omega) (by omega)]

/-- `read` copies the bytes of the file that it was asked for, and two reads in a row give
the bytes of one. -/
theorem read_copies (hgeo : fs.Geometry) (hfile : fs.Present disk n.inode length contents)
    (hlength : length < 2147483648) {t : Transfer} (h : fs.Sound disk t.st) :
    (∀ offset size user, 1 ≤ size → offset + size ≤ length → user + size ≤ 4294967296 →
      ∃ t', n.read disk fs offset size user t = some (size, t') ∧
        fs.Copies contents offset size user t t') ∧
    ∀ (f : Fs.File) (n₁ n₂ u₁ u₂ u : Nat), 1 ≤ n₁ → 1 ≤ n₂ → f.offset + (n₁ + n₂) ≤ length →
      u₁ + n₁ ≤ 4294967296 → u₂ + n₂ ≤ 4294967296 → u + (n₁ + n₂) ≤ 4294967296 →
      ∃ f₁ t₁ f₂ t₂ t', n.readFile disk fs u₁ n₁ f t = some ((n₁ : Int), f₁, t₁) ∧
        n.readFile disk fs u₂ n₂ f₁ t₁ = some ((n₂ : Int), f₂, t₂) ∧
        n.readFile disk fs u (n₁ + n₂) f t = some (((n₁ + n₂ : Nat) : Int), f₂, t') ∧
        bytesAt t₁.memory u₁ n₁ ++ bytesAt t₂.memory u₂ n₂ = bytesAt t'.memory u (n₁ + n₂) := by
  refine ⟨fun offset size user hsize hend huser => ?_,
    fun f n₁ n₂ u₁ u₂ u hn₁ hn₂ hend hu₁ hu₂ hu => ?_⟩
  · obtain ⟨t', hread, -, hcopies⟩ := hfile.read hgeo hlength h hsize hend huser
    exact ⟨t', hread, hcopies⟩
  · obtain ⟨t₁, hread₁, hsound₁, hbytes₁⟩ :=
      hfile.readFile hgeo hlength h (f := f) hn₁ (by omega) hu₁
    obtain ⟨t₂, hread₂, -, hbytes₂⟩ :=
      hfile.readFile hgeo hlength hsound₁ (f := ⟨f.offset + n₁⟩) hn₂ (by simp only; omega) hu₂
    obtain ⟨t', hread, -, hbytes⟩ :=
      hfile.readFile hgeo hlength h (f := f) (by omega) hend hu
    rw [← Nat.add_assoc] at hread
    refine ⟨_, t₁, _, t₂, t', hread₁, hread₂, hread, ?_⟩
    rw [hbytes₁, hbytes₂, hbytes, List.range_add, List.map_append, List.map_map]
    congr 1
    refine List.map_congr_left fun i _ => ?_
    simp only [Function.comp_apply, Nat.add_assoc]

/-- Inode 2 has the blocks 20 and 21. -/
def fileDisk : Disk where
  image a :=
    if a = 5288 then 20 else if a = 5292 then 21 else if a < 6144 then 0 else UInt8.ofNat (a / 3)
  behind _ _ := 0

theorem fileDisk_present : smallFs.Present fileDisk 2 2048
    fun b => fileDisk.data (smallFs.blockRange (20 + b) 1) := by
  refine ⟨by decide, fun b hb => ⟨20 + b, ?_, fun _ _ => rfl⟩⟩
  have hlt : b < 2 := by
    have hmul : b * 1024 < 2048 := hb
    omega
  have hall : ∀ b < 2, smallFs.blockId fileDisk (smallFs.inodeOf fileDisk 2).toInode b =
      some (some (20 + b)) := by
    decide +kernel
  exact hall b hlt

/-- A hundred bytes across the border of two blocks. -/
theorem read_copies_border :
    ∃ t', Node.read fileDisk smallFs 1000 100 0x8000 ⟨[], 0, 0, 0, 1, 2, 2048⟩
        ⟨{}, fun _ => 0, []⟩ = some (100, t') ∧
      smallFs.Copies (fun b => fileDisk.data (smallFs.blockRange (20 + b) 1)) 1000 100 0x8000
        ⟨{}, fun _ => 0, []⟩ t' :=
  (read_copies (n := ⟨[], 0, 0, 0, 1, 2, 2048⟩) smallFs_geometry fileDisk_present (by decide)
    (t := ⟨{}, fun _ => 0, []⟩) cached_init).1 1000 100 0x8000 (by decide) (by decide) (by decide)

end

end Ext2

end Ulysses
