import Ulysses.Ext2.Blocks
import Ulysses.Ext2.Read
import Ulysses.Fs.Name

/-!
# Looking up a name

`Node::finddir` of `fs/ext2.cpp` walks the entries of the first block of a directory and
takes the first one whose name `strncmp` finds equal in the bytes it is given. It looks
neither at `name_len` nor at whether the entry is in use, so an entry whose name merely
begins with the given one is taken for it (`finddir_takes_longer_name`), and it does not
look at the other blocks. `finddir_exact` says when the answer is right all the same.

`none` is a failed ASSERT, a division by zero or a walk that does not end.
-/

namespace Ulysses

open Lib

namespace Ext2

/-! ## Entries -/

/-- `DirEntry`, without the file type. -/
structure DirEntry where
  inode : Nat
  recLen : Nat
  nameLen : Nat
  name : Bytes

def DirEntry.ofBytes (data : Bytes) (off : Nat) : DirEntry where
  inode := data.read32 off
  recLen := data.read16 (off + 4)
  nameLen := (data (off + 6)).toNat
  name i := data (off + 8 + i)

/-- `strncmp(dir->name, name, len)` is 0. -/
def DirEntry.accepts (name : List UInt8) (e : DirEntry) : Bool :=
  Fs.Name.strncmp ((List.range name.length).map e.name) name == 0

/-- The bytes of the entry's name and the given ones are equal, up to a zero byte in both. -/
def DirEntry.Begins (name : List UInt8) (e : DirEntry) : Prop :=
  ((List.range name.length).map e.name).takeWhile (· ≠ 0) = name.takeWhile (· ≠ 0)

instance (name : List UInt8) (e : DirEntry) : Decidable (e.Begins name) :=
  inferInstanceAs (Decidable (_ = _))

theorem DirEntry.accepts_iff {name : List UInt8} {e : DirEntry} :
    e.accepts name = true ↔ e.Begins name := by
  unfold accepts Begins
  rw [beq_iff_eq, Fs.Name.strncmp_eq_zero_iff (by simp)]

/-- The entry is in use and has the name. -/
def DirEntry.Exact (name : List UInt8) (e : DirEntry) : Prop :=
  e.inode ≠ 0 ∧ e.nameLen = name.length ∧ (List.range name.length).map e.name = name

instance (name : List UInt8) (e : DirEntry) : Decidable (e.Exact name) :=
  inferInstanceAs (Decidable (_ ∧ _ ∧ _))

/-- Where the walk by `rec_len` from `off` on finds entries. -/
def entriesFrom (data : Bytes) (fin : Nat) : Nat → Nat → List Nat
  | 0, _ => []
  | fuel + 1, off =>
    if off < fin then off :: entriesFrom data fin fuel (off + (DirEntry.ofBytes data off).recLen)
    else []

/-- Where the walk from `off` on ends. -/
def walkEnd (data : Bytes) (fin : Nat) : Nat → Nat → Option Nat
  | 0, _ => none
  | fuel + 1, off =>
    if off < fin then walkEnd data fin fuel (off + (DirEntry.ofBytes data off).recLen)
    else some off

namespace FS

/-- The bytes of a block. -/
def blockData (disk : Disk) (fs : FS) (id : Nat) : Bytes := disk.data (fs.blockRange id 1)

/-- The entries of a block. -/
def blockEntries (disk : Disk) (fs : FS) (id : Nat) : List DirEntry :=
  (entriesFrom (fs.blockData disk id) fs.bytesPerBlock (fs.bytesPerBlock + 1) 0).map
    (DirEntry.ofBytes (fs.blockData disk id))

/-- Where the walk of a block ends. -/
def blockEnd (disk : Disk) (fs : FS) (id : Nat) : Option Nat :=
  walkEnd (fs.blockData disk id) fs.bytesPerBlock (fs.bytesPerBlock + 1) 0

/-- The entries of a block tile it. -/
def Tiled (disk : Disk) (fs : FS) (id : Nat) : Prop :=
  fs.blockEnd disk id = some fs.bytesPerBlock

end FS

/-! ## The lookup -/

/-- `eIFMask` and `eIFDir`. -/
def InodeRecord.directoryP (obj : InodeRecord) : Bool :=
  decide ((obj.mode &&& 0xF000) &&& 0x4000 = 0x4000)

def fsFile : Nat := 0x01
def fsDirectory : Nat := 0x02

/-- What changes after the mount: besides the caches, `nodes_in_use_`. -/
structure Mount where
  st : State := {}
  nodesInUse : HashTable UInt32 Node := .empty

/-- The loop of `finddir`. Without fuel there is no result. -/
def findEntry (data : Bytes) (fin : Nat) (name : List UInt8) : Nat → Nat → Option (Option DirEntry)
  | 0, _ => none
  | fuel + 1, off =>
    if off < fin then
      if (DirEntry.ofBytes data off).accepts name then some (some (DirEntry.ofBytes data off))
      else findEntry data fin name fuel (off + (DirEntry.ofBytes data off).recLen)
    else some none

/-- The node that `finddir` makes for an entry. -/
def Node.ofEntry (e : DirEntry) (target : InodeRecord) : Node where
  name := (List.range e.nameLen).map e.name
  mask := 0
  uid := target.uid
  gid := target.gid
  flags := if target.directoryP then fsDirectory else fsFile
  inode := e.inode
  length := target.size

/-- The end of `finddir`, with the entry that was found. -/
def Mount.nodeFor (disk : Disk) (fs : FS) (e : DirEntry) (m : Mount) :
    Option (Option Node × Mount) :=
  match m.nodesInUse.fetch identityHashOps (UInt32.ofNat e.inode) with
  | some node => some (some node, m)
  | none =>
    (fs.loadInode disk e.inode m.st).map fun r =>
      (some (Node.ofEntry e r.1),
        { st := r.2
          nodesInUse := m.nodesInUse.store identityHashOps (UInt32.ofNat e.inode)
            (Node.ofEntry e r.1) })

def Node.finddir (disk : Disk) (fs : FS) (name : List UInt8) (n : Node) (m : Mount) :
    Option (Option Node × Mount) :=
  (fs.loadInode disk n.inode m.st).bind fun r =>
    let m : Mount := { m with st := r.2 }
    if !r.1.directoryP then some (none, m)
    else if r.1.blockCount = 0 then some (none, m)
    else
      let buffer := fs.readBlock (r.1.blocks 0) 1 m.st
      let m : Mount := { m with st := buffer.2 }
      (findEntry (buffer.2.bufferData disk buffer.1) fs.bytesPerBlock name
          (fs.bytesPerBlock + 1) 0).bind fun found =>
        match found with
        | none => some (none, m)
        | some e => m.nodeFor disk fs e

/-! ## Runs -/

inductive MountCall
  | finddir (n : Node) (name : List UInt8)
  | read (n : Node) (offset size user : Nat) (memory : Bytes)

section

variable (disk : Disk) (fs : FS)

/-- The state after a call. -/
def Mount.apply (m : Mount) : MountCall → Option Mount
  | .finddir n name => (n.finddir disk fs name m).map (·.2)
  | .read n offset size user memory =>
    (n.read disk fs offset size user ⟨m.st, memory, []⟩).map fun r => { m with st := r.2.st }

def Mount.Step (m m' : Mount) : Prop := ∃ c, m.apply disk fs c = some m'

/-- The states that calls on a new file system reach. -/
def Mount.Reached (m : Mount) : Prop := Reach (· = {}) (Mount.Step disk fs) m

/-- The caches agree with the disk, and the nodes in use are those of their inodes. -/
structure Mount.Ok (m : Mount) : Prop where
  sound : fs.Sound disk m.st
  nodes : m.nodesInUse.Every fun key node =>
    node.inode = key.toNat ∧ node.length = (fs.inodeOf disk node.inode).size

end

section

variable {disk : Disk} {fs : FS} {m m' : Mount} {n node : Node} {name : List UInt8} {e : DirEntry}

theorem sound_readBlock {st : State} (h : fs.Sound disk st) (block : Nat) :
    fs.Sound disk (fs.readBlock block 1 st).2 ∧
      (fs.readBlock block 1 st).2.bufferData disk (fs.readBlock block 1 st).1 =
        fs.blockData disk block := by
  obtain ⟨hrange, hext⟩ := readBlock_spec fs h.device block
  refine ⟨h.extend hext, ?_⟩
  unfold State.bufferData
  rw [hrange]
  rfl

theorem ofNat_inode (e : DirEntry) (h : e.inode < 4294967296) :
    (UInt32.ofNat e.inode).toNat = e.inode := by
  rw [UInt32.toNat_ofNat']
  exact Nat.mod_eq_of_lt h

theorem Mount.Ok.nodeFor (h : m.Ok disk fs) (he : e.inode < 4294967296) {r : Option Node × Mount}
    (hr : m.nodeFor disk fs e = some r) :
    r.2.Ok disk fs ∧ ∃ node, r.1 = some node ∧ node.inode = e.inode ∧
      node.length = (fs.inodeOf disk node.inode).size := by
  unfold Mount.nodeFor at hr
  split at hr
  · next node hfetch =>
    obtain rfl := Option.some.inj hr
    obtain ⟨key, hkey, hinode, hlength⟩ := h.nodes.fetch hfetch
    have hkey : key = UInt32.ofNat e.inode := of_decide_eq_true hkey
    refine ⟨h, node, rfl, ?_, hlength⟩
    rw [hinode, hkey, ofNat_inode e he]
  · obtain ⟨⟨obj, st⟩, hload, rfl⟩ := Option.map_eq_some_iff.1 hr
    obtain ⟨rfl, hsound⟩ := sound_loadInode h.sound hload
    have hnode : (Node.ofEntry e (fs.inodeOf disk e.inode)).inode = (UInt32.ofNat e.inode).toNat ∧
        (Node.ofEntry e (fs.inodeOf disk e.inode)).length =
          (fs.inodeOf disk (Node.ofEntry e (fs.inodeOf disk e.inode)).inode).size :=
      ⟨(ofNat_inode e he).symm, rfl⟩
    refine ⟨⟨hsound, h.nodes.store (fun key hkey => ?_) hnode⟩, _, rfl, rfl, rfl⟩
    rw [show key = UInt32.ofNat e.inode from of_decide_eq_true hkey]
    exact hnode

theorem inode_lt (data : Bytes) (off : Nat) : (DirEntry.ofBytes data off).inode < 4294967296 :=
  Bytes.read32_lt data off

/-- The loop finds the first entry that `strncmp` accepts, or comes to the end of the walk. -/
theorem findEntry_eq (data : Bytes) (fin fuel off : Nat) :
    findEntry data fin name fuel off =
      (((entriesFrom data fin fuel off).map (DirEntry.ofBytes data)).find? (·.accepts name)).elim
        ((walkEnd data fin fuel off).map fun _ => none) fun e => some (some e) := by
  induction fuel generalizing off with
  | zero => rfl
  | succ fuel ih =>
    simp only [findEntry, entriesFrom, walkEnd]
    by_cases hlt : off < fin
    · rw [if_pos hlt, if_pos hlt, if_pos hlt, List.map_cons, List.find?_cons]
      cases (DirEntry.ofBytes data off).accepts name with
      | true => rfl
      | false => exact ih _
    · rw [if_neg hlt, if_neg hlt, if_neg hlt]
      rfl

theorem ofBytes_of_findEntry {data : Bytes} {fin fuel off : Nat}
    (h : findEntry data fin name fuel off = some (some e)) : ∃ o, e = DirEntry.ofBytes data o := by
  rw [findEntry_eq] at h
  cases hfind : ((entriesFrom data fin fuel off).map (DirEntry.ofBytes data)).find?
      (·.accepts name) with
  | none =>
    rw [hfind] at h
    obtain ⟨_, -, hnone⟩ := Option.map_eq_some_iff.1 h
    cases hnone
  | some e' =>
    rw [hfind] at h
    obtain rfl := Option.some.inj (Option.some.inj h)
    obtain ⟨o, -, ho⟩ := List.mem_map.1 (List.mem_of_find?_eq_some hfind)
    exact ⟨o, ho.symm⟩

/-- A lookup keeps the invariant, and the node it returns has the length of its inode. -/
theorem Mount.Ok.finddir (h : m.Ok disk fs) {r : Option Node × Mount}
    (hr : n.finddir disk fs name m = some r) :
    r.2.Ok disk fs ∧ ∀ node, r.1 = some node → node.length = (fs.inodeOf disk node.inode).size := by
  obtain ⟨⟨obj, st⟩, hload, hr⟩ := Option.bind_eq_some_iff.1 hr
  obtain ⟨rfl, hsound⟩ := sound_loadInode h.sound hload
  simp only at hr
  split at hr
  · obtain rfl := Option.some.inj hr
    exact ⟨⟨hsound, h.nodes⟩, fun _ hnode => by cases hnode⟩
  split at hr
  · obtain rfl := Option.some.inj hr
    exact ⟨⟨hsound, h.nodes⟩, fun _ hnode => by cases hnode⟩
  obtain ⟨hsound', -⟩ := sound_readBlock hsound ((fs.inodeOf disk n.inode).blocks 0)
  obtain ⟨found, hfound, hr⟩ := Option.bind_eq_some_iff.1 hr
  cases found with
  | none =>
    obtain rfl := Option.some.inj hr
    exact ⟨⟨hsound', h.nodes⟩, fun _ hnode => by cases hnode⟩
  | some e =>
    obtain ⟨o, rfl⟩ := ofBytes_of_findEntry hfound
    have hok : Mount.Ok disk fs
        ⟨(fs.readBlock ((fs.inodeOf disk n.inode).blocks 0) 1 st).2, m.nodesInUse⟩ :=
      ⟨hsound', h.nodes⟩
    obtain ⟨hok', node, hnode, -, hlength⟩ := hok.nodeFor (inode_lt _ o) hr
    refine ⟨hok', fun node' hnode' => ?_⟩
    obtain rfl := Option.some.inj (hnode.symm.trans hnode')
    exact hlength

theorem Mount.Ok.apply (h : m.Ok disk fs) {c : MountCall} (hc : m.apply disk fs c = some m') :
    m'.Ok disk fs := by
  cases c with
  | finddir n name =>
    obtain ⟨r, hr, rfl⟩ := Option.map_eq_some_iff.1 hc
    exact (h.finddir hr).1
  | read n offset size user memory =>
    obtain ⟨r, hr, rfl⟩ := Option.map_eq_some_iff.1 hc
    exact ⟨sound_read h.sound hr, h.nodes⟩

theorem Mount.Reached.ok (h : m.Reached disk fs) : m.Ok disk fs :=
  Reach.invariant (I := Mount.Ok disk fs)
    (fun _ hm => by rw [hm]; exact ⟨cached_init, HashTable.every_empty⟩)
    (fun _ _ hi ⟨_, hc⟩ => hi.apply hc) h

end

/-! ## What a lookup answers -/

/-- The first entry that `strncmp` accepts, in the first block. -/
def FS.firstAccepted (disk : Disk) (fs : FS) (obj : InodeRecord) (name : List UInt8) :
    Option DirEntry :=
  if obj.blockCount = 0 then none
  else (fs.blockEntries disk (obj.blocks 0)).find? (·.accepts name)

/-- There is nothing to walk, or the walk ends. -/
def FS.WalkEnds (disk : Disk) (fs : FS) (obj : InodeRecord) : Prop :=
  obj.blockCount = 0 ∨ (fs.blockEnd disk (obj.blocks 0)).isSome

instance (disk : Disk) (fs : FS) (obj : InodeRecord) : Decidable (fs.WalkEnds disk obj) :=
  inferInstanceAs (Decidable (_ ∨ _))

/-- The inode is that of a directory with the blocks `ids`, each tiled by its entries. -/
structure FS.IsDirectory (disk : Disk) (fs : FS) (inode : Nat) (ids : List Nat) : Prop where
  place : (fs.inodePlace inode).isSome
  directory : (fs.inodeOf disk inode).directoryP = true
  count : ids.length =
    ((fs.inodeOf disk inode).size + fs.bytesPerBlock - 1) / fs.bytesPerBlock
  mapped : ∀ b, (h : b < ids.length) → Mapped disk fs (fs.inodeOf disk inode).toInode b ids[b]
  tiled : ∀ id ∈ ids, fs.Tiled disk id

/-- The entries of all blocks. -/
def FS.entries (disk : Disk) (fs : FS) (ids : List Nat) : List DirEntry :=
  ids.flatMap (fs.blockEntries disk)

/-- The answer is a node with the inode number of an entry in use with the name, or 0 if
there is no such entry. -/
def FS.FindsExact (disk : Disk) (fs : FS) (ids : List Nat) (name : List UInt8)
    (r : Option (Option Node)) : Prop :=
  (∃ node, r = some (some node) ∧ ∃ e ∈ fs.entries disk ids, e.Exact name ∧ node.inode = e.inode) ∨
    (r = some none ∧ ∀ e ∈ fs.entries disk ids, ¬e.Exact name)

/-- The inode has a node, or `find_inode` accepts it. -/
def Mount.Loads (fs : FS) (m : Mount) (inode : Nat) : Prop :=
  (m.nodesInUse.fetch identityHashOps (UInt32.ofNat inode)).isSome ∨ (fs.inodePlace inode).isSome

/-- No entry of the first block begins with the name, and none of any block has it; or an entry
of the first block begins with it, none before it does, and it has the inode number of an entry
with the name. A directory without blocks has no sectors, or what its `blocks[0]` names can be
walked. -/
def FS.Unambiguous (disk : Disk) (fs : FS) (inode : Nat) (ids : List Nat) (name : List UInt8)
    (m : Mount) : Prop :=
  (((fs.inodeOf disk inode).blockCount = 0 ∨
        ∀ e ∈ fs.blockEntries disk ((fs.inodeOf disk inode).blocks 0), ¬e.Begins name) ∧
      (ids = [] → fs.WalkEnds disk (fs.inodeOf disk inode)) ∧
      ∀ e ∈ fs.entries disk ids, ¬e.Exact name) ∨
    (fs.inodeOf disk inode).blockCount ≠ 0 ∧ ∃ before e after,
      fs.blockEntries disk ((fs.inodeOf disk inode).blocks 0) = before ++ e :: after ∧
      e.Begins name ∧ (∀ b ∈ before, ¬b.Begins name) ∧ m.Loads fs e.inode ∧
      ∃ e' ∈ fs.entries disk ids, e'.Exact name ∧ e'.inode = e.inode

section

variable {disk : Disk} {fs : FS} {m : Mount} {n : Node} {name : List UInt8} {ids : List Nat}

theorem FS.IsDirectory.walkEnds_iff (h : fs.IsDirectory disk n.inode ids) :
    (ids = [] → fs.WalkEnds disk (fs.inodeOf disk n.inode)) ↔
      fs.WalkEnds disk (fs.inodeOf disk n.inode) := by
  cases ids with
  | nil => exact ⟨fun hends => hends rfl, fun hends _ => hends⟩
  | cons id ids =>
    obtain ⟨-, hfollow⟩ := h.mapped 0 (Nat.zero_lt_succ _)
    have hid : (fs.inodeOf disk n.inode).blocks 0 = id := Option.some.inj hfollow
    have hends : fs.WalkEnds disk (fs.inodeOf disk n.inode) := by
      refine Or.inr ?_
      rw [hid, h.tiled id List.mem_cons_self]
      rfl
    exact ⟨fun _ => hends, fun _ _ => hends⟩

theorem FS.IsDirectory.finddir (h : fs.IsDirectory disk n.inode ids) (hok : m.Ok disk fs)
    (name : List UInt8) :
    ∃ st, fs.Sound disk st ∧ n.finddir disk fs name m =
      (fs.firstAccepted disk (fs.inodeOf disk n.inode) name).elim
        (if fs.WalkEnds disk (fs.inodeOf disk n.inode) then some (none, { m with st }) else none)
        fun e => Mount.nodeFor disk fs e { m with st } := by
  obtain ⟨st, hload, hsound⟩ := loadInode_of_place hok.sound h.place
  unfold Node.finddir FS.firstAccepted
  rw [hload, Option.bind_some]
  simp only [h.directory, Bool.not_true, Bool.false_eq_true, if_false]
  by_cases hcount : (fs.inodeOf disk n.inode).blockCount = 0
  · rw [if_pos hcount, if_pos hcount]
    have hends : fs.WalkEnds disk (fs.inodeOf disk n.inode) := Or.inl hcount
    refine ⟨_, hsound, ?_⟩
    rw [Option.elim_none, if_pos hends]
  · obtain ⟨hsound', hdata⟩ := sound_readBlock hsound ((fs.inodeOf disk n.inode).blocks 0)
    have hwalk : findEntry (fs.blockData disk ((fs.inodeOf disk n.inode).blocks 0))
        fs.bytesPerBlock name (fs.bytesPerBlock + 1) 0 =
          ((fs.blockEntries disk ((fs.inodeOf disk n.inode).blocks 0)).find?
            (·.accepts name)).elim
          ((fs.blockEnd disk ((fs.inodeOf disk n.inode).blocks 0)).map fun _ => none)
          fun e => some (some e) :=
      findEntry_eq _ _ _ _
    rw [if_neg hcount, if_neg hcount, hdata, hwalk]
    refine ⟨_, hsound', ?_⟩
    cases (fs.blockEntries disk ((fs.inodeOf disk n.inode).blocks 0)).find? (·.accepts name) with
    | none =>
      cases hend : fs.blockEnd disk ((fs.inodeOf disk n.inode).blocks 0) with
      | none => simp [FS.WalkEnds, hcount, hend]
      | some fin => simp [FS.WalkEnds, hend]
    | some e => rfl

theorem nodeFor_isSome (e : DirEntry) :
    (m.nodeFor disk fs e).isSome ↔ m.Loads fs e.inode := by
  unfold Mount.nodeFor Mount.Loads
  cases m.nodesInUse.fetch identityHashOps (UInt32.ofNat e.inode) with
  | some node => simp
  | none => simp [loadInode_eq]

theorem firstAccepted_eq_none {obj : InodeRecord} :
    fs.firstAccepted disk obj name = none ↔ obj.blockCount = 0 ∨
      ∀ e ∈ fs.blockEntries disk (obj.blocks 0), ¬e.Begins name := by
  unfold FS.firstAccepted
  by_cases hcount : obj.blockCount = 0
  · simp [hcount]
  · simp [hcount, List.find?_eq_none, DirEntry.accepts_iff]

theorem firstAccepted_eq_some {obj : InodeRecord} {e : DirEntry} :
    fs.firstAccepted disk obj name = some e ↔ obj.blockCount ≠ 0 ∧ ∃ before after,
      fs.blockEntries disk (obj.blocks 0) = before ++ e :: after ∧ e.Begins name ∧
        ∀ b ∈ before, ¬b.Begins name := by
  unfold FS.firstAccepted
  rw [Option.ite_none_left_eq_some, List.find?_eq_some_iff_append, DirEntry.accepts_iff]
  simp only [Bool.not_eq_true', ← Bool.not_eq_true, DirEntry.accepts_iff]
  exact and_congr_right fun _ => ⟨fun ⟨hbegins, before, after, heq, hbefore⟩ =>
    ⟨before, after, heq, hbegins, hbefore⟩, fun ⟨before, after, heq, hbegins, hbefore⟩ =>
    ⟨hbegins, before, after, heq, hbefore⟩⟩

/-- The condition, by the entry that the loop takes. -/
theorem FS.unambiguous_iff {inode : Nat} :
    fs.Unambiguous disk inode ids name m ↔
      (fs.firstAccepted disk (fs.inodeOf disk inode) name = none ∧
        (ids = [] → fs.WalkEnds disk (fs.inodeOf disk inode)) ∧
        ∀ e ∈ fs.entries disk ids, ¬e.Exact name) ∨
      ∃ e, fs.firstAccepted disk (fs.inodeOf disk inode) name = some e ∧ m.Loads fs e.inode ∧
        ∃ e' ∈ fs.entries disk ids, e'.Exact name ∧ e'.inode = e.inode := by
  unfold FS.Unambiguous
  rw [firstAccepted_eq_none]
  refine or_congr_right ⟨?_, ?_⟩
  · rintro ⟨hcount, before, e, after, heq, hbegins, hbefore, hrest⟩
    exact ⟨e, firstAccepted_eq_some.2 ⟨hcount, before, after, heq, hbegins, hbefore⟩, hrest⟩
  · rintro ⟨e, hfirst, hrest⟩
    obtain ⟨hcount, before, after, heq, hbegins, hbefore⟩ := firstAccepted_eq_some.1 hfirst
    exact ⟨hcount, before, e, after, heq, hbegins, hbefore, hrest⟩

theorem inode_lt_of_firstAccepted {obj : InodeRecord} {e : DirEntry}
    (h : fs.firstAccepted disk obj name = some e) : e.inode < 4294967296 := by
  obtain ⟨-, h⟩ := Option.ite_none_left_eq_some.1 h
  obtain ⟨off, -, rfl⟩ := List.mem_map.1 (List.mem_of_find?_eq_some h)
  exact inode_lt _ off

/-- A lookup is exact just when the name is unambiguous in this sense. -/
theorem finddir_exact (h : fs.IsDirectory disk n.inode ids) (hm : m.Reached disk fs) :
    fs.FindsExact disk ids name ((n.finddir disk fs name m).map (·.1)) ↔
      fs.Unambiguous disk n.inode ids name m := by
  have hok := hm.ok
  obtain ⟨st, hsound, hfind⟩ := h.finddir hok name
  have hok' : Mount.Ok disk fs { m with st } := ⟨hsound, hok.nodes⟩
  rw [hfind, FS.unambiguous_iff]
  unfold FS.FindsExact
  cases hfirst : fs.firstAccepted disk (fs.inodeOf disk n.inode) name with
  | none =>
    rw [h.walkEnds_iff, Option.elim_none]
    by_cases hends : fs.WalkEnds disk (fs.inodeOf disk n.inode) <;> simp [hends]
  | some e =>
    have hloads : (Mount.nodeFor disk fs e { m with st }).isSome ↔ m.Loads fs e.inode :=
      nodeFor_isSome e
    rw [Option.elim_some]
    cases hnode : Mount.nodeFor disk fs e { m with st } with
    | none =>
      rw [hnode] at hloads
      have hnot : ¬m.Loads fs e.inode := fun hl => Bool.false_ne_true (hloads.2 hl)
      simp [hnot]
    | some r =>
      rw [hnode] at hloads
      have hl : m.Loads fs e.inode := hloads.1 rfl
      obtain ⟨-, node, hr, hinode, -⟩ := hok'.nodeFor (inode_lt_of_firstAccepted hfirst) hnode
      simp [hr, hl, hinode, eq_comm]

end

/-- Inode 2 is a directory with the block 20, which has the entries "ab" and "a". -/
def pairDisk : Disk where
  image a :=
    if a = 5249 then 0x40 else if a = 5253 then 4 else if a = 5276 then 2 else if a = 5288 then 20
    else if a < 20480 then 0
    else [12, 0, 0, 0, 12, 0, 2, 1, 97, 98, 0, 0, 13, 0, 0, 0, 0xF4, 3, 1, 1, 97].getD (a - 20480) 0
  behind _ _ := 0

theorem pairDisk_blocks : (smallFs.inodeOf pairDisk 2).blocks 0 = 20 := by
  decide +kernel

theorem pairDisk_isDirectory : smallFs.IsDirectory pairDisk 2 [20] where
  place := by decide
  directory := by decide +kernel
  count := by decide +kernel
  mapped b hb := by
    obtain rfl : b = 0 := by simpa using hb
    exact ⟨pairDisk_blocks ▸ by decide, congrArg some pairDisk_blocks⟩
  tiled id hid := by
    obtain rfl := List.mem_singleton.1 hid
    show smallFs.blockEnd pairDisk 20 = some 1024
    decide +kernel

theorem pairDisk_entries : smallFs.blockEntries pairDisk 20 =
    [DirEntry.ofBytes (smallFs.blockData pairDisk 20) 0,
      DirEntry.ofBytes (smallFs.blockData pairDisk 20) 12] := by
  have hoffsets : entriesFrom (smallFs.blockData pairDisk 20) 1024 1025 0 = [0, 12] := by
    decide +kernel
  exact congrArg (List.map _) hoffsets

/-- The first entry is found by its name. -/
theorem finddir_exact_first : smallFs.FindsExact pairDisk [20] [97, 98]
    ((Node.finddir pairDisk smallFs [97, 98] ⟨[], 0, 0, 0, 2, 2, 0⟩ {}).map (·.1)) := by
  have hmem : DirEntry.ofBytes (smallFs.blockData pairDisk 20) 0 ∈
      smallFs.entries pairDisk [20] := by
    unfold FS.entries
    rw [List.flatMap_singleton, pairDisk_entries]
    exact List.mem_cons_self
  refine (finddir_exact (n := ⟨[], 0, 0, 0, 2, 2, 0⟩) pairDisk_isDirectory (.init rfl)).2 ?_
  have hentries : smallFs.blockEntries pairDisk ((smallFs.inodeOf pairDisk 2).blocks 0) =
      [] ++ DirEntry.ofBytes (smallFs.blockData pairDisk 20) 0 ::
        [DirEntry.ofBytes (smallFs.blockData pairDisk 20) 12] := by
    rw [pairDisk_blocks]
    exact pairDisk_entries
  exact Or.inr ⟨by decide +kernel, _, _, _, hentries, by decide +kernel,
    fun b hb => absurd hb List.not_mem_nil, Or.inr (by decide +kernel), _, hmem,
    by decide +kernel, rfl⟩

/-- "ab" is taken for "a". -/
theorem finddir_takes_longer_name :
    smallFs.IsDirectory pairDisk 2 [20] ∧
      (smallFs.entries pairDisk [20]).map (fun e => (e.inode, e.nameLen, e.name 0)) =
        [(12, 2, 97), (13, 1, 97)] ∧
      ((Node.finddir pairDisk smallFs [97] ⟨[], 0, 0, 0, 2, 2, 0⟩ {}).map
        fun r => r.1.map fun node => (node.inode, node.name)) = some (some (12, [97, 98])) ∧
      ¬smallFs.FindsExact pairDisk [20] [97]
        ((Node.finddir pairDisk smallFs [97] ⟨[], 0, 0, 0, 2, 2, 0⟩ {}).map (·.1)) := by
  have hexact : ∀ e ∈ smallFs.entries pairDisk [20], e.Exact [97] → e.inode = 13 := by
    decide +kernel
  have hfound : ((Node.finddir pairDisk smallFs [97] ⟨[], 0, 0, 0, 2, 2, 0⟩ {}).map (·.1)).map
      (Option.map Node.inode) = some (some 12) := by
    decide +kernel
  refine ⟨pairDisk_isDirectory, by decide +kernel, by decide +kernel, ?_⟩
  rintro (⟨node, hnode, e, he, hname, hinode⟩ | ⟨hnone, -⟩)
  · rw [hnode] at hfound
    have h12 : node.inode = 12 := Option.some.inj (Option.some.inj hfound)
    have h13 := hexact e he hname
    omega
  · rw [hnone] at hfound
    cases hfound

end Ext2

end Ulysses
