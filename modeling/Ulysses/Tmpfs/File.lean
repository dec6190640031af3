import Ulysses.Fs.File
import Ulysses.Lib.ByteStore
import Ulysses.Lib.Bytes
import Ulysses.Lib.Reach

/-!
# Files of a tmpfs

`tmpfs::FileNode`: a chunk of `size_` bytes from `kmalloc`. `read` and `write` check
`offset + size < size_` in 32-bit arithmetic and copy.

Calls that pass the check without a wrap make the node a store of bytes
(`byteStore`). The check itself refuses the ranges that end with the chunk, and lets
ranges pass whose end wraps (`exact_iff`).
-/

namespace Ulysses.Tmpfs

open Lib

/-- `FileNode`. `chunk` gives the bytes from `chunk_` on; those from `size` on are not
the node's. -/
structure FileNode where
  length : Nat
  size : Nat
  chunk : Bytes

namespace FileNode

/-- `cInitialChunkSize`. -/
def initialChunkSize : Nat := 1024

/-- The constructor; `memory` is what `kmalloc` returned. -/
def make (memory : Bytes) : FileNode := { length := 0, size := initialChunkSize, chunk := memory }

/-- `read`; `none` is the `ASSERT`. -/
def read (offset size : Nat) (n : FileNode) : Option (List UInt8) :=
  if add32 offset size < n.size then
    some ((List.range size).map fun i => n.chunk (add32 offset i))
  else none

/-- `memcpy` to `chunk_ + offset`. -/
def copyIn (chunk : Bytes) (offset size : Nat) (buffer : Bytes) : Bytes :=
  (List.range size).foldl (fun chunk i => chunk.write8 (add32 offset i) (buffer i)) chunk

/-- `write` of the `size` bytes at `buffer`. -/
def write (offset size : Nat) (buffer : Bytes) (n : FileNode) : Option FileNode :=
  if add32 offset size < n.size then some { n with chunk := copyIn n.chunk offset size buffer }
  else none

/-- `resize`; a new chunk is what `kmalloc` returns. -/
def resize (size : Nat) (memory : Bytes) (n : FileNode) : FileNode :=
  if size > n.size then { n with size, chunk := memory } else n

def importRaw (size : Nat) (buffer memory : Bytes) (n : FileNode) : FileNode :=
  let n := n.resize size memory
  { n with chunk := copyIn n.chunk 0 size buffer }

/-! ## A store of bytes -/

/-- A call on the node. -/
inductive Call
  | write (offset size : Nat) (buffer : Bytes)
  | read (offset size : Nat)

namespace Call

def offset : Call → Nat
  | .write offset _ _ => offset
  | .read offset _ => offset

def size : Call → Nat
  | .write _ size _ => size
  | .read _ size => size

/-- The end of the range does not wrap, and the call passes its check on a chunk of
`chunkSize` bytes. -/
def Passes (chunkSize : Nat) (c : Call) : Prop :=
  c.offset + c.size < 4294967296 ∧ add32 c.offset c.size < chunkSize

instance (chunkSize : Nat) (c : Call) : Decidable (c.Passes chunkSize) :=
  inferInstanceAs (Decidable (_ ∧ _))

/-- The write that the call is. -/
def write? : Call → Option (Write UInt8)
  | .write offset size buffer => some ⟨offset, (List.range size).map buffer⟩
  | .read _ _ => none

end Call

def step (n : FileNode) : Call → Option FileNode
  | .write offset size buffer => n.write offset size buffer
  | .read offset size => (n.read offset size).map fun _ => n

theorem fill_eq_apply (m buffer : Bytes) (offset size : Nat) :
    m.fill offset size buffer = Write.apply m ⟨offset, (List.range size).map buffer⟩ := by
  funext p
  simp only [Write.apply, Write.at?, Bytes.fill, List.getElem?_map]
  by_cases hlo : offset ≤ p
  · by_cases hhi : p < offset + size
    · rw [if_pos ⟨hlo, hhi⟩, if_pos hlo, List.getElem?_range (by omega)]
      rfl
    · rw [if_neg (by omega), if_pos hlo, List.getElem?_eq_none (by simp; omega)]
      rfl
  · rw [if_neg (by omega), if_neg hlo]
    rfl

theorem copyIn_eq (chunk buffer : Bytes) {offset size : Nat} (h : offset + size < 4294967296) :
    copyIn chunk offset size buffer = chunk.fill offset size buffer := by
  rw [← Bytes.foldl_write8]
  refine List.foldl_ext _ _ _ fun m i hi => ?_
  rw [add32_eq (by have := List.mem_range.1 hi; omega)]

variable {n : FileNode}

theorem read_eq {offset size : Nat} (h : (Call.read offset size).Passes n.size) :
    n.read offset size = some ((List.range size).map fun i => n.chunk (offset + i)) := by
  refine (if_pos h.2).trans (congrArg some (List.map_congr_left fun i hi => ?_))
  have hsum : offset + size < 4294967296 := h.1
  rw [add32_eq (by have := List.mem_range.1 hi; omega)]

theorem write_eq {offset size : Nat} {buffer : Bytes}
    (h : (Call.write offset size buffer).Passes n.size) :
    n.write offset size buffer = some { n with
      chunk := Write.apply n.chunk ⟨offset, (List.range size).map buffer⟩ } := by
  have hsum : offset + size < 4294967296 := h.1
  rw [← fill_eq_apply, ← copyIn_eq _ _ hsum]
  exact if_pos h.2

theorem step_eq {c : Call} (h : c.Passes n.size) :
    n.step c = some { n with chunk := (c.write?.toList).foldl Write.apply n.chunk } := by
  cases c with
  | write offset size buffer => exact write_eq h
  | read offset size =>
    show (n.read offset size).map (fun _ => n) = _
    rw [read_eq h]
    rfl

/-- The node after a sequence of calls has at each position the byte of the latest write
to it. -/
theorem foldlM_step {calls : List Call} (h : ∀ c ∈ calls, c.Passes n.size) :
    calls.foldlM step n =
      some { n with chunk := Write.latest n.chunk (calls.filterMap Call.write?) } := by
  rw [← Write.foldl_apply]
  induction calls generalizing n with
  | nil => rfl
  | cons c calls ih =>
    rw [List.foldlM_cons, step_eq (h c List.mem_cons_self)]
    refine (ih (n := { n with chunk := (c.write?.toList).foldl Write.apply n.chunk })
      fun c' hc' => h c' (List.mem_cons_of_mem c hc')).trans ?_
    cases c with
    | write offset size buffer => rfl
    | read offset size => rfl

/-! ## Through open files -/

/-- `File::write` of the bytes `data`. -/
def fileWrite (st : Fs.File × FileNode) (data : List UInt8) : Option (Fs.File × FileNode) :=
  (st.2.write st.1.offset data.length fun i => data.getD i 0).map fun n =>
    ((st.1.moved data.length).2, n)

/-- `File::read` of `size` bytes, behind those already read. -/
def fileRead (n : FileNode) (st : Fs.File × List UInt8) (size : Nat) :
    Option (Fs.File × List UInt8) :=
  (n.read st.1.offset size).map fun bytes => ((st.1.moved size).2, st.2 ++ bytes)

/-- The chunk lies in the kernel's part of the address space. -/
def InKernel (n : FileNode) : Prop := n.size ≤ 4294967296 - 0xC0000000

theorem passes_of_lt {c : Call} (h : c.offset + c.size < n.size) (hn : n.InKernel) :
    c.Passes n.size := by
  unfold InKernel at hn
  refine ⟨by omega, ?_⟩
  rwa [add32_eq (by omega)]

theorem fileWrites_eq (hn : n.InKernel) {datas : List (List UInt8)} (pos : Nat)
    (h : pos + datas.flatten.length < n.size) :
    datas.foldlM fileWrite (⟨pos⟩, n) = some (⟨pos + datas.flatten.length⟩,
      { n with chunk := Write.latest n.chunk (Write.consecutive pos datas) }) := by
  have hsize : n.size ≤ 1073741824 := hn
  rw [← Write.foldl_apply]
  induction datas generalizing n pos with
  | nil => rfl
  | cons data datas ih =>
    simp only [List.flatten_cons, List.length_append] at h ⊢
    have hdata : (List.range data.length).map (fun i => data.getD i 0) = data := by
      refine List.ext_getElem (by simp) fun i h₁ h₂ => ?_
      simp [h₂]
    have hstep : fileWrite (⟨pos⟩, n) data =
        some (⟨pos + data.length⟩, { n with chunk := Write.apply n.chunk ⟨pos, data⟩ }) := by
      unfold fileWrite
      rw [write_eq (passes_of_lt (by simp only [Call.offset, Call.size]; omega) hn), hdata,
        Fs.File.moved_of_lt (by omega) (by simp only; omega)]
      rfl
    rw [List.foldlM_cons, hstep, ← Nat.add_assoc]
    exact ih (n := { n with chunk := Write.apply n.chunk ⟨pos, data⟩ }) hn (pos + data.length)
      (by simp only; omega) hsize

theorem fileReads_eq (hn : n.InKernel) (sizes : List Nat) (pos : Nat) (bytes : List UInt8)
    (h : pos + sizes.sum < n.size) :
    sizes.foldlM (fileRead n) (⟨pos⟩, bytes) = some (⟨pos + sizes.sum⟩,
      bytes ++ (List.range sizes.sum).map fun i => n.chunk (pos + i)) := by
  have hsize : n.size ≤ 1073741824 := hn
  induction sizes generalizing pos bytes with
  | nil => simp
  | cons size sizes ih =>
    rw [List.sum_cons] at h ⊢
    have hstep : fileRead n (⟨pos⟩, bytes) size = some (⟨pos + size⟩,
        bytes ++ (List.range size).map fun i => n.chunk (pos + i)) := by
      unfold fileRead
      rw [read_eq (passes_of_lt (by simp only [Call.offset, Call.size]; omega) hn),
        Fs.File.moved_of_lt (by omega) (by simp only; omega)]
      rfl
    rw [List.foldlM_cons, hstep]
    refine (ih _ _ (by omega)).trans ?_
    rw [List.range_add, List.map_append, List.append_assoc, Nat.add_assoc]
    simp only [List.map_map, Function.comp_def, Nat.add_assoc]

/-- A node is a store of bytes. After any calls that pass their checks, a read returns
for each position the byte of the latest write to it, and writes through one open file
are read back through another. -/
theorem byteStore (n : FileNode) :
    (∀ calls : List Call, (∀ c ∈ calls, c.Passes n.size) →
      ∃ n', calls.foldlM step n = some n' ∧ n'.length = n.length ∧ n'.size = n.size ∧
        (∀ p, n'.chunk p = Write.latest n.chunk (calls.filterMap Call.write?) p) ∧
        ∀ offset size, (Call.read offset size).Passes n.size →
          n'.read offset size = some ((List.range size).map fun i =>
            Write.latest n.chunk (calls.filterMap Call.write?) (offset + i))) ∧
    (n.InKernel → ∀ (datas : List (List UInt8)) (sizes : List Nat),
      datas.flatten.length < n.size → sizes.sum = datas.flatten.length →
      ∃ f n' g, datas.foldlM fileWrite (.make, n) = some (f, n') ∧
        sizes.foldlM (fileRead n') (.make, []) = some (g, datas.flatten)) := by
  refine ⟨fun calls hcalls => ?_, fun hn datas sizes hfit hsizes => ?_⟩
  · refine ⟨_, foldlM_step hcalls, rfl, rfl, fun _ => rfl, fun offset size hread => ?_⟩
    exact read_eq (n := { n with chunk := _ }) hread
  · let n' : FileNode := { n with chunk := Write.latest n.chunk (Write.consecutive 0 datas) }
    have hbytes : (List.range sizes.sum).map (fun i => n'.chunk (0 + i)) = datas.flatten := by
      refine List.ext_getElem? fun i => ?_
      by_cases hi : i < datas.flatten.length
      · rw [List.getElem?_map, List.getElem?_range (by omega), ← Write.latest_consecutive _ 0 _ hi]
        rfl
      · rw [List.getElem?_eq_none (by simp; omega), List.getElem?_eq_none (by omega)]
    have hreads := fileReads_eq (n := n') hn sizes 0 []
      (by rw [hsizes, Nat.zero_add]; exact hfit)
    rw [hbytes] at hreads
    exact ⟨_, n', _, fileWrites_eq hn 0 (by omega), hreads⟩

/-- A write, a write over a part of it, and a read of a new node. -/
theorem byteStore_overlap :
    (∃ n', [Call.write 2 3 fun _ => 7, .write 4 1 fun _ => 9].foldlM step (make fun _ => 0) =
        some n' ∧ n'.read 1 5 = some [0, 7, 7, 9, 0]) ∧
      ∃ f n' g, [[1, 2], [3]].foldlM fileWrite (.make, make fun _ => 0) = some (f, n') ∧
        [1, 2].foldlM (fileRead n') (.make, []) = some (g, [1, 2, 3]) := by
  have h := byteStore (make fun _ => 0)
  refine ⟨?_, h.2 (by unfold InKernel; decide) [[1, 2], [3]] [1, 2] (by decide) rfl⟩
  obtain ⟨n', hrun, -, -, -, hread⟩ :=
    h.1 [.write 2 3 fun _ => 7, .write 4 1 fun _ => 9] (by decide)
  exact ⟨n', hrun, hread 1 5 (by decide)⟩

/-! ## The check -/

/-- A `u32` request on the node. -/
inductive Step : FileNode → FileNode → Prop
  | resize (n : FileNode) (size : Nat) (memory : Bytes) (h : size < 4294967296) :
    Step n (n.resize size memory)
  | importRaw (n : FileNode) (size : Nat) (buffer memory : Bytes) (h : size < 4294967296) :
    Step n (n.importRaw size buffer memory)
  | call (n n' : FileNode) (c : Call) (h : n.step c = some n') : Step n n'

/-- The nodes that come from `create_file`. -/
def Reachable : FileNode → Prop := Reach (fun n => ∃ memory, n = make memory) Step

theorem size_of_step {n' : FileNode} {c : Call} (h : n.step c = some n') : n'.size = n.size := by
  cases c with
  | write offset size buffer =>
    obtain ⟨-, h⟩ := Option.ite_none_right_eq_some.1 (show n.write offset size buffer = _ from h)
    obtain rfl := Option.some.inj h
    rfl
  | read offset size =>
    obtain ⟨_, -, rfl⟩ := Option.map_eq_some_iff.1 h
    rfl

theorem size_resize_lt {size : Nat} (memory : Bytes) (hn : n.size < 4294967296)
    (hsize : size < 4294967296) : (n.resize size memory).size < 4294967296 := by
  unfold resize
  split
  · exact hsize
  · exact hn

theorem Reachable.size_lt (h : Reachable n) : n.size < 4294967296 := by
  refine h.invariant (I := fun n => n.size < 4294967296) ?_ fun n n' hn hs => ?_
  · rintro _ ⟨memory, rfl⟩
    show 1024 < 4294967296
    decide
  · cases hs with
    | resize size memory hsize => exact size_resize_lt memory hn hsize
    | importRaw size buffer memory hsize => exact size_resize_lt memory hn hsize
    | call _ c hc => exact (size_of_step hc).symm ▸ hn

/-- The accesses at `offset` of `size` bytes pass exactly if they lie in the chunk. -/
def Exact (n : FileNode) (offset size : Nat) : Prop :=
  ((n.read offset size).isSome ↔ offset + size ≤ n.size) ∧
    ∀ buffer, (n.write offset size buffer).isSome ↔ offset + size ≤ n.size

/-- The check of a range is exact just when the range does not end with the chunk and,
if its end wraps, does not wrap into the chunk. -/
theorem exact_iff (n : FileNode) (hn : Reachable n) (offset size : Nat)
    (hoffset : offset < 4294967296) (hsize : size < 4294967296) :
    Exact n offset size ↔ offset + size ≠ n.size ∧
      (offset + size < 4294967296 ∨ n.size + 4294967296 ≤ offset + size) := by
  have hlt := hn.size_lt
  have hread : (n.read offset size).isSome ↔ add32 offset size < n.size := by
    unfold read
    split <;> simp [*]
  have hwrite (buffer : Bytes) :
      (n.write offset size buffer).isSome ↔ add32 offset size < n.size := by
    unfold write
    split <;> simp [*]
  unfold Exact
  simp only [hread, hwrite, forall_const, and_self]
  unfold add32
  omega

theorem exact_fresh : Exact (make fun _ => 0) 1000 23 :=
  (exact_iff (make fun _ => 0) (.init ⟨_, rfl⟩) 1000 23 (by decide) (by decide)).2
    ⟨by decide, .inl (by decide)⟩

/-- The last byte of a new node is refused, and the byte before the chunk is read. -/
theorem not_exact_fresh :
    Reachable (make fun _ => 0) ∧ (make fun _ => 0).read 1023 1 = none ∧
      (make fun _ => 0).write 0 1024 (fun _ => 7) = none ∧
      (make fun _ => 0).read 4294967295 2 = some [0, 0] ∧
      ¬Exact (make fun _ => 0) 1023 1 ∧ ¬Exact (make fun _ => 0) 4294967295 2 := by
  have hlast : (make fun _ => 0).read 1023 1 = none := by decide
  have hwrap : (make fun _ => 0).read 4294967295 2 = some [0, 0] := by decide
  refine ⟨.init ⟨_, rfl⟩, hlast, if_neg (by decide), hwrap, fun h => ?_, fun h => ?_⟩
  · have := h.1.2 (by decide)
    rw [hlast] at this
    exact absurd this (by decide)
  · have := h.1.1 (by rw [hwrap]; rfl)
    exact absurd this (by decide)

end FileNode

end Ulysses.Tmpfs
