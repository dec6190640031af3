import Ulysses.Fs.Name
import Ulysses.HashTable.Iterator
import Ulysses.Lib.CString
import Ulysses.Process

/-!
# Directories of a tmpfs

`tmpfs::DirectoryNode`: a hash table from names to nodes. `get_entries` writes one
`dirent` for ".", one for ".." and one for each entry, as far as the buffer goes. It
takes the place to go on from as the number of bytes already returned, and finds it by
adding up the sizes of the records again.
-/

namespace Ulysses.Tmpfs

open Lib Fs

/-- `DirectoryNode`. A node is its address. -/
structure DirectoryNode where
  entries : HashTable Name Nat

namespace DirectoryNode

def make : DirectoryNode := ⟨.empty⟩

def finddir (name : Name) (d : DirectoryNode) : Option Nat :=
  HashTable.fetch Name.nameOps name d.entries

/-- `create_file`; `file` is the new `FileNode`. -/
def createFile (name : Name) (file : Nat) (d : DirectoryNode) : DirectoryNode :=
  ⟨HashTable.store Name.nameOps name file d.entries⟩

/-! ## Records -/

/-- `sizeof(dirent)`. `d_ino` and `d_off` have 8 bytes each, `d_reclen` is at 16, `d_type`
at 18 and `d_name` at 19. -/
def sizeofDirent : Nat := 20

/-- The size of the record for a name of `sz` bytes. -/
def entSize (sz : Nat) : Nat := alignUp (sizeofDirent + sz + 1) 4

/-- Fill in the `dirent` at `pos`. -/
def putRecord (m : Bytes) (pos reclen : Nat) (name : List UInt8) : Bytes :=
  let m := (m.write32 pos 1).write32 (pos + 4) 0
  let m := m.write16 (pos + 16) reclen
  let m := m.fill (pos + 19) name.length fun i => name.getD i 0
  m.write8 (pos + 19 + name.length) 0

/-- The variables `buf_pos` and `total` of `get_entries`, with the memory. -/
structure Listed where
  mem : Bytes
  bufPos : Nat
  total : Int

/-- A record of `ent` bytes at `buf_pos`. -/
def Listed.put (name : List UInt8) (ent : Nat) (l : Listed) : Listed :=
  let reclen := ent % 65536
  { mem := putRecord l.mem l.bufPos reclen name
    bufPos := add32 l.bufPos reclen
    total := s32 (l.total + reclen) }

/-- The loop of `get_entries`; `none` is out of fuel. -/
def listLoop (t : HashTable Name Nat) (bufFin : Nat) (seek : Int) :
    Nat → HashTable.Iterator Name Nat → Int → Listed → Option Listed
  | 0, _, _, _ => none
  | fuel + 1, it, pos, l =>
    if l.bufPos < bufFin then
      match it.next t with
      | (none, _) => some l
      | (some entry, it) =>
        let sz := min entry.key.bytes.length 254
        let ent := entSize sz
        if seek > pos then listLoop t bufFin seek fuel it (s32 (pos + ent)) l
        else if add32 l.bufPos ent > bufFin then some l
        else listLoop t bufFin seek fuel it pos (l.put (entry.key.bytes.take sz) ent)
    else some l

/-- `get_entries`, with the memory it leaves. -/
def getEntries (seek : Int) (mem : Bytes) (dp : Nat) (count : Int) (d : DirectoryNode) :
    Option Listed :=
  let bufFin := ((dp + count) % 4294967296).toNat
  let l : Listed := ⟨mem, dp, 0⟩
  let entries := listLoop d.entries bufFin seek (d.entries.reachable.length + 1) .make
  if l.bufPos > bufFin then some l
  else
    let ent := entSize 1
    if seek = 0 ∧ add32 l.bufPos ent > bufFin then some l
    else
      let l := if seek = 0 then l.put [46] ent else l
      let pos : Int := ent
      let ent := entSize 2
      if seek ≤ pos then
        if l.bufPos > bufFin then some l
        else if add32 l.bufPos ent > bufFin then some l
        else entries (pos + ent) (l.put [46, 46] ent)
      else entries (pos + ent) l

end DirectoryNode

end Ulysses.Tmpfs
