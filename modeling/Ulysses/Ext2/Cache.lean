import Ulysses.Lib.Reach
import Ulysses.Ext2.Basic

/-!
# Cached reads

`read_inode_block` keeps each buffer it returns under the inode and the block number it
was called with. The buffers in the cache are those of the blocks that the walk through
the tables ends at (`Cached`), so a call answers as it would with an empty cache.
-/

namespace Ulysses

open Lib

namespace Ext2

/-- The block that the walk from the block `id` ends at. -/
def FS.follow (disk : Disk) (fs : FS) : Nat → List Nat → Option Nat
  | id, [] => some id
  | id, i :: is =>
    let next := (disk.data (fs.blockRange id 1)).read32 (4 * i)
    if next = 0 then none else follow disk fs next is

/-- The block that `read_inode_block` finds for a logical block, `none` inside for a null
pointer on the way. -/
def FS.blockId (disk : Disk) (fs : FS) (obj : Inode) (block : Nat) : Option (Option Nat) :=
  (fs.blockPath block).map fun path => fs.follow disk (obj.blocks path.1) path.2

/-- The result is a buffer of the block, or null if there is none. -/
def Answers (fs : FS) (st : State) (id r : Option Nat) : Prop :=
  r.map st.device.rangeOf = id.map fun id => some (fs.blockRange id 1)

/-- Buffers were added at most. -/
structure Extends (st st' : State) : Prop where
  blockCache : st'.blockCache = st.blockCache
  keyed : st'.device.Keyed
  rangeOf : ∀ buffer r, st.device.rangeOf buffer = some r → st'.device.rangeOf buffer = some r

theorem readBlock_spec (fs : FS) {st : State} (h : st.device.Keyed) (block : Nat) :
    (fs.readBlock block 1 st).2.device.rangeOf (fs.readBlock block 1 st).1 =
        some (fs.blockRange block 1) ∧ Extends st (fs.readBlock block 1 st).2 := by
  obtain ⟨hrange, hkeyed, hold⟩ := h.request (fs.blockRange block 1)
  exact ⟨hrange, rfl, hkeyed, hold⟩

theorem walk_spec (disk : Disk) (fs : FS) (is : List Nat) {id buffer : Nat} {st : State}
    (h : st.device.Keyed) (hbuffer : st.device.rangeOf buffer = some (fs.blockRange id 1)) :
    Answers fs (fs.walk disk is buffer st).2 (fs.follow disk id is)
        (fs.walk disk is buffer st).1 ∧
      Extends st (fs.walk disk is buffer st).2 := by
  induction is generalizing id buffer st with
  | nil => exact ⟨congrArg some hbuffer, rfl, h, fun _ _ hb => hb⟩
  | cons i is ih =>
    have hindex : st.index disk buffer i =
        (disk.data (fs.blockRange id 1)).read32 (4 * i) := by
      unfold State.index
      rw [hbuffer]
    simp only [FS.walk, FS.follow, hindex]
    split
    · exact ⟨rfl, rfl, h, fun _ _ hb => hb⟩
    · obtain ⟨hrange, hext⟩ :=
        readBlock_spec fs h ((disk.data (fs.blockRange id 1)).read32 (4 * i))
      obtain ⟨hans, hext'⟩ := ih hext.keyed hrange
      exact ⟨hans, hext'.blockCache.trans hext.blockCache, hext'.keyed,
        fun b r hb => hext'.rangeOf b r (hext.rangeOf b r hb)⟩

/-- The caches hold what their keys say. -/
structure Cached (disk : Disk) (fs : FS) (inodes : Nat → Inode) (st : State) : Prop where
  device : st.device.Keyed
  blocks : st.blockCache.Every fun key buffer =>
    ∃ id, fs.blockId disk (inodes key.1) key.2 = some (some id) ∧
      st.device.rangeOf buffer = some (fs.blockRange id 1)

section

variable {disk : Disk} {fs : FS} {inodes : Nat → Inode} {st : State}

theorem cached_init : Cached disk fs inodes {} :=
  ⟨BlockDevice.keyed_init, HashTable.every_empty⟩

theorem Cached.extend {st' : State} (h : Cached disk fs inodes st) (hext : Extends st st') :
    Cached disk fs inodes st' := by
  refine ⟨hext.keyed, ?_⟩
  rw [hext.blockCache]
  exact h.blocks.mono fun key buffer ⟨id, hid, hr⟩ => ⟨id, hid, hext.rangeOf buffer _ hr⟩

theorem Cached.clear (h : Cached disk fs inodes st) :
    Cached disk fs inodes { st with blockCache := .empty } :=
  ⟨h.device, HashTable.every_empty⟩

/-- What a call answers, whatever is in the cache. -/
theorem Cached.readInodeBlock (h : Cached disk fs inodes st) (inode block : Nat) :
    match fs.blockId disk (inodes inode) block with
    | none => fs.readInodeBlock disk inode (inodes inode) block st = none
    | some id => ∃ r st', fs.readInodeBlock disk inode (inodes inode) block st = some (r, st') ∧
        Answers fs st' id r ∧ Cached disk fs inodes st' := by
  unfold FS.readInodeBlock
  cases hf : st.blockCache.fetch pairOps (inode, block) with
  | some buffer =>
    obtain ⟨key, hkey, id, hid, hrange⟩ := h.blocks.fetch hf
    obtain rfl := pairOps_compareKeys hkey
    rw [hid]
    exact ⟨some buffer, st, rfl, congrArg some hrange, h⟩
  | none =>
    unfold FS.blockId
    cases hpath : fs.blockPath block with
    | none => rfl
    | some path =>
      obtain ⟨hrange, hext⟩ := readBlock_spec fs h.device ((inodes inode).blocks path.1)
      obtain ⟨hans, hext'⟩ := walk_spec disk fs path.2 hext.keyed hrange
      have h' := (h.extend hext).extend hext'
      simp only [Option.map_some]
      revert hans h'
      generalize fs.walk disk path.2 _ _ = w
      obtain ⟨r, st'⟩ := w
      intro hans h'
      cases r with
      | none => exact ⟨none, st', rfl, hans, h'⟩
      | some buffer =>
        refine ⟨some buffer, _, rfl, hans, h'.device, ?_⟩
        cases hid : fs.follow disk ((inodes inode).blocks path.1) path.2 with
        | none =>
          rw [hid] at hans
          cases hans
        | some id =>
          rw [hid] at hans
          have hpair : ∃ id, fs.blockId disk (inodes inode) block = some (some id) ∧
              st'.device.rangeOf buffer = some (fs.blockRange id 1) :=
            ⟨id, by rw [FS.blockId, hpath, Option.map_some, hid], Option.some.inj hans⟩
          exact h'.blocks.store (fun key hkey => pairOps_compareKeys hkey ▸ hpair) hpair

end

/-! ## Runs of calls -/

inductive Call
  | readInodeBlock (inode block : Nat)
  | request (range : RegionRange)

section

variable (disk : Disk) (fs : FS) (inodes : Nat → Inode)

/-- The state after a call. -/
def State.apply (st : State) : Call → Option State
  | .readInodeBlock inode block =>
    (fs.readInodeBlock disk inode (inodes inode) block st).map (·.2)
  | .request range => some { st with device := (st.device.request range).2 }

def Step (st st' : State) : Prop := ∃ call, st.apply disk fs inodes call = some st'

/-- The states that calls on a new file system reach. -/
def Reached (st : State) : Prop := Reach (· = {}) (Step disk fs inodes) st

end

section

variable {disk : Disk} {fs : FS} {inodes : Nat → Inode} {st : State}

theorem Cached.apply {st' : State} (h : Cached disk fs inodes st) {call : Call}
    (hs : st.apply disk fs inodes call = some st') : Cached disk fs inodes st' := by
  cases call with
  | readInodeBlock inode block =>
    obtain ⟨⟨r, st₁⟩, hread, rfl⟩ := Option.map_eq_some_iff.1 hs
    have hspec := h.readInodeBlock inode block
    split at hspec
    · rw [hspec] at hread
      cases hread
    · obtain ⟨r', st₂, hread', -, h'⟩ := hspec
      rw [hread'] at hread
      cases hread
      exact h'
  | request range =>
    obtain rfl := Option.some.inj hs
    obtain ⟨-, hkeyed, hold⟩ := h.device.request range
    exact h.extend ⟨rfl, hkeyed, hold⟩

theorem Reached.cached (h : Reached disk fs inodes st) : Cached disk fs inodes st :=
  Reach.invariant (I := Cached disk fs inodes) (fun _ hs => by rw [hs]; exact cached_init)
    (fun _ _ hi ⟨_, hs⟩ => hi.apply hs) h

/-- The range of the buffer that a call returns. -/
def outcome (r : Option (Option Nat × State)) : Option (Option (Option RegionRange)) :=
  r.map fun r => r.1.map r.2.device.rangeOf

theorem Cached.outcome (h : Cached disk fs inodes st) (inode block : Nat) :
    outcome (fs.readInodeBlock disk inode (inodes inode) block st) =
      (fs.blockId disk (inodes inode) block).map fun id =>
        id.map fun id => some (fs.blockRange id 1) := by
  have hspec := h.readInodeBlock inode block
  split at hspec
  · next hid =>
    rw [hspec, hid]
    rfl
  · next id hid =>
    obtain ⟨r, st', hread, hans, -⟩ := hspec
    rw [hread, hid]
    exact congrArg some hans

/-- After every sequence of calls, `read_inode_block` returns a buffer of the block that
it finds with an empty cache, and `request` one of the range it is given. -/
theorem reads_agree (h : Reached disk fs inodes st) :
    (∀ inode block,
      outcome (fs.readInodeBlock disk inode (inodes inode) block st) =
          outcome (fs.readInodeBlock disk inode (inodes inode) block
            { st with blockCache := .empty }) ∧
        outcome (fs.readInodeBlock disk inode (inodes inode) block st) =
          (fs.blockId disk (inodes inode) block).map fun id =>
            id.map fun id => some (fs.blockRange id 1)) ∧
      ∀ range, (st.device.request range).2.rangeOf (st.device.request range).1 = some range := by
  have hc := h.cached
  refine ⟨fun inode block => ⟨?_, hc.outcome inode block⟩, fun range =>
    (hc.device.request range).1⟩
  rw [hc.outcome, hc.clear.outcome]

/-- A file system with blocks of 1024 bytes and two groups of 16 inodes. -/
def smallFs : FS where
  superBlock :=
    { blocksCount := 64, firstDataBlock := 1, logBlockSize := 0, blocksPerGroup := 32
      inodesPerGroup := 16, magic := 0xEF53, inodeSize := 128 }
  totalGroups := 2
  groups g := ⟨5 + 32 * g⟩
  blockPerRegion := 1
  bytesPerBlock := 1024
  inodePerBlock := 8
  idsPerBlock := 256
  idsPerSecondLevel := 65536

theorem smallFs_geometry : smallFs.Geometry :=
  ⟨⟨0, by decide, rfl⟩, rfl, by decide, rfl, rfl, by decide⟩

/-- Block 10 is a table with the blocks 11 and 12 at its front. -/
def tableDisk : Disk where
  image a := if a = 10240 then 11 else if a = 10244 then 12 else 0
  behind _ _ := 0

def runCalls (calls : List Call) : Option State :=
  calls.foldlM (State.apply tableDisk smallFs fun _ => ⟨fun _ => 10⟩) {}

/-- Two keys with one hash, read twice. -/
theorem reads_agree_collision :
    ∃ st, runCalls [.readInodeBlock 2 12, .readInodeBlock 12 2, .readInodeBlock 2 13] = some st ∧
      st.blockCache.fetch pairOps (2, 12) = some 1 ∧ st.blockCache.fetch pairOps (12, 2) = some 0 ∧
      outcome (smallFs.readInodeBlock tableDisk 2 ⟨fun _ => 10⟩ 12 st) =
        outcome (smallFs.readInodeBlock tableDisk 2 ⟨fun _ => 10⟩ 12
          { st with blockCache := .empty }) := by
  have hrun : (runCalls [.readInodeBlock 2 12, .readInodeBlock 12 2, .readInodeBlock 2 13]).map
      (fun st => (st.blockCache.fetch pairOps (2, 12), st.blockCache.fetch pairOps (12, 2))) =
        some (some 1, some 0) := by
    decide +kernel
  obtain ⟨st, hst, hfetch⟩ := Option.map_eq_some_iff.1 hrun
  obtain ⟨hfirst, hsecond⟩ := Prod.mk.inj hfetch
  have hreached : Reached tableDisk smallFs (fun _ => ⟨fun _ => 10⟩) st :=
    Reach.foldlM (fun _ call _ hs => ⟨call, hs⟩) (.init rfl) hst
  exact ⟨st, hst, hfirst, hsecond, ((reads_agree hreached).1 2 12).1⟩

end

end Ext2

end Ulysses
