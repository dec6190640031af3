import Ulysses.Lib.CString
import Ulysses.Fs.Name

/-!
# The initial ramdisk

`make_initrd.c` writes an image: the number of files, a table of 64 headers of 76 bytes
(magic at 0, name at 1, offset at 68, length at 72), and the contents of the files one
behind the other. `initrd.cpp` opens an image in memory and makes a node for every file.

`main` of `make_initrd.c` takes `argc` as a `char`. The headers are an array on the stack,
of which only what is written has known bytes. In the kernel the nodes lie in memory from
`kmalloc`, with unknown bytes in `name` behind the first, which the constructor of
`fs::Node` clears; and the kernel's `strcpy` does not copy the zero byte at the end.
-/

namespace Ulysses.Initrd

open Lib Fs Bytes

/-! ## The program that writes an image -/

structure File where
  name : Name
  contents : List UInt8

/-- `nheaders`. The `char` is signed. -/
def nheaders (nfiles : Nat) : Int := (Int.bmod (1 + 2 * nfiles) 256 - 1).tdiv 2

/-- One turn of the first loop of `main`, on the array `headers` and `off`. -/
def putHeader (st : Bytes × Nat) (i : Nat) (f : File) : Bytes × Nat :=
  let headers := st.1.fill (76 * i + 1) (f.name.bytes.length + 1) fun j => f.name.bytes.getD j 0
  let headers := headers.write32 (76 * i + 68) st.2
  let headers := headers.write32 (76 * i + 72) f.contents.length
  (headers.write8 (76 * i) 0xBF, add32 st.2 f.contents.length)

/-- One turn of the first loop of `main`. -/
def putHeaderAt (files : List File) (st : Bytes × Nat) (i : Nat) : Bytes × Nat :=
  match files[i]? with
  | some f => putHeader st i f
  | none => st

/-- The first loop of `main`, over the files that `nheaders` counts. -/
def putHeaders (stack : Bytes) (files : List File) : Bytes × Nat :=
  (List.range (nheaders files.length).toNat).foldl (putHeaderAt files) (stack, 4868)

/-- The bytes of a word. -/
def wordBytes (v : Nat) : List UInt8 := (List.range 4).map (write32 (fun _ => 0) 0 v)

/-- The image. `stack` is what the array `headers` held before. -/
def makeInitrd (stack : Bytes) (files : List File) : List UInt8 :=
  wordBytes (u32 (nheaders files.length)) ++
    (List.range 4864).map (putHeaders stack files).1 ++
    (files.take (nheaders files.length).toNat).flatMap File.contents

/-! ## Opening an image -/

/-- `initrd::Node`; behind the 128 bytes of `name` comes `mask`, which is 0. -/
structure Node where
  name : Bytes
  length : Nat
  inode : Nat

/-- `initrd::FS`, with the memory in which the headers lie. -/
structure FS where
  mem : Bytes
  fileHeaders : Nat
  rootNodes : List Node

/-- `name` after the constructor of `fs::Node`. -/
def construct (raw : Bytes) : Bytes := raw.write8 0 0

/-- The kernel's `strcpy` into `dest`. It copies a byte before it looks for the end, and
leaves the byte behind the copy alone. -/
def strcpy (dest m : Bytes) (src : Nat) : Option Bytes :=
  (m.strlenFrom src 1 (4294967296 - src)).map fun n => dest.fill 0 n fun i => m (src + i)

/-- One turn of the loop of `FS::init`. `raw i` is what the memory of node `i` held. -/
def initNode (location : Nat) (raw : Nat → Bytes) (st : Bytes × List Node) (i : Nat) :
    Option (Bytes × List Node) :=
  let header := location + 4 + 76 * i
  let mem := st.1.write32 (header + 68) (add32 (st.1.read32 (header + 68)) location)
  (strcpy (construct (raw i)) mem (header + 1)).map fun name =>
    (mem, st.2 ++ [⟨name, mem.read32 (header + 72), i⟩])

/-- `FS::init`. `kmalloc` says for which sizes the heap has memory; a node has 164 bytes. -/
def init (kmalloc : Nat → Bool) (raw : Nat → Bytes) (location : Nat) (mem : Bytes) : Option FS :=
  let nfiles := mem.read32 location
  if kmalloc (mul32 164 nfiles) then
    ((List.range nfiles).foldlM (initNode location raw) (mem, [])).map fun st =>
      ⟨st.1, location + 4, st.2⟩
  else none

/-! ## Looking up and reading -/

/-- What `finddir` returns: one of the directories of the root, or a file. -/
inductive Found
  | dev
  | data
  | tmp
  | file (i : Nat)
  deriving DecidableEq

def dev : Name := ⟨[100, 101, 118], by decide⟩

def data : Name := ⟨[100, 97, 116, 97], by decide⟩

def tmp : Name := ⟨[116, 109, 112], by decide⟩

/-- The bytes from `name` on. -/
def nameByte (name : Bytes) (j : Nat) : UInt8 := if j < 128 then name j else 0

/-- The comparison in the loop of `finddir`. -/
def matchesName (q : Name) (node : Node) : Bool :=
  Name.strncmp q.bytes ((List.range q.bytes.length).map (nameByte node.name)) == 0

/-- `Node::finddir`, on the root or on another node. -/
def FS.finddir (fs : FS) (atRoot : Bool) (q : Name) : Option Found :=
  let len := q.bytes.length
  if atRoot = true ∧ len = 3 ∧ Name.strncmp q.bytes dev.bytes = 0 then some .dev
  else if atRoot = true ∧ len = 4 ∧ Name.strncmp q.bytes data.bytes = 0 then some .data
  else if atRoot = true ∧ len = 3 ∧ Name.strncmp q.bytes tmp.bytes = 0 then some .tmp
  else
    ((List.range fs.rootNodes.length).find? fun i => (fs.rootNodes[i]?).any (matchesName q)).map
      Found.file

/-- `Node::read`: the result, and the bytes that are copied. -/
def FS.read (fs : FS) (inode offset size : Nat) : Nat × List UInt8 :=
  let header := fs.fileHeaders + 76 * inode
  let length := fs.mem.read32 (header + 72)
  if offset > length then (0, [])
  else
    let size := if add32 offset size > length then sub32 length offset else size
    let src := add32 (fs.mem.read32 (header + 68)) offset
    (size, (List.range size).map fun j => fs.mem (add32 src j))

end Ulysses.Initrd
