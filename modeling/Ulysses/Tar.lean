import Ulysses.Tar.Octal
import Ulysses.Tmpfs.Directory
import Ulysses.Tmpfs.File

/-!
# Loading an archive

`tar::Archive::load_into`: a compressed archive is read header by header, and each
member becomes a file of a tmpfs directory. `inflate` is zlib's; all that is assumed of
it is that it delivers the bytes it is asked for while more remain (`Zlib.delivers`).

Loading inverts the encoding (`loadInto_encode`). The members lie one behind the other,
so it is enough that one turn of the loop takes exactly one member off the stream
(`loadFile_eq`).
-/

namespace Ulysses.Tar

open Lib Fs Tmpfs

/-! ## The code -/

/-- What a call of `inflate` did. -/
structure Inflated (σ : Type*) where
  ret : Int
  out : List UInt8
  availOut : Nat
  strm : σ

def zOk : Int := 0

def zStreamEnd : Int := 1

/-- zlib: `inflate` with `avail_out`, and the bytes a stream has yet to deliver. -/
structure Zlib (σ : Type*) where
  inflate : Nat → σ → Inflated σ
  remaining : σ → List UInt8
  delivers : ∀ m strm, 0 < m → m < (remaining strm).length →
    (inflate m strm).ret = zOk ∧ (inflate m strm).out = (remaining strm).take m ∧
      (inflate m strm).availOut = 0 ∧ remaining (inflate m strm).strm = (remaining strm).drop m

/-- Store `data` from `a` on. -/
def put (m : Bytes) (a : Nat) (data : List UInt8) : Bytes :=
  m.fill a data.length fun i => data.getD i 0

/-- `Entry::byte_size` of the header in `out`; the field `size` is at 124. -/
def byteSize (out : Bytes) : Nat := ato8 900 (fun i => out (124 + i)) 11

/-- `Entry::empty_p`. -/
def emptyP (out : Bytes) : Bool := (List.range 512).all fun i => out i == 0

theorem nul_free_cstring (m : Bytes) (a n : Nat) : 0 ∉ m.cstring a n := by
  intro h
  simpa using List.mem_takeWhile_imp h

/-- The string made from the field `name`. -/
def entryName (out : Bytes) : Name := ⟨out.cstring 0 1024, nul_free_cstring out 0 1024⟩

/-- The kernel's allocator: the address of file node `k`, and the memory found in its
first chunk and in the one `resize` gets. -/
structure Heap where
  node : Nat → Nat
  chunk : Nat → Bytes
  grown : Nat → Bytes

/-- The variables of `load_into`, with the nodes it created. -/
structure State (σ : Type*) where
  strm : σ
  out : Bytes
  top : DirectoryNode
  created : List (Name × FileNode)
  count : Int

variable {σ : Type*} (z : Zlib σ) (h : Heap)

/-- The loop that reads the data of a file; `none` is the `ASSERT`. -/
def copyData : Nat → Nat → Nat → σ → Bytes → Option (σ × Bytes)
  | 0, _, _, _, _ => none
  | fuel + 1, left, file, strm, chunk =>
    if left > 0 then
      let req := if left ≥ 1024 then 1024 else left
      let r := z.inflate req strm
      let chunk := put chunk file r.out
      let read := req - r.availOut
      if r.ret = zStreamEnd then some (r.strm, chunk)
      else if r.ret ≠ zOk then none
      else if r.availOut ≠ 0 then some (r.strm, chunk)
      else copyData fuel (left - read) (file + read) r.strm chunk
    else some (strm, chunk)

/-- `inflate` of `m` bytes into `out`, with its `ASSERT`. -/
def inflateOut (m : Nat) (st : State σ) : Option (State σ) :=
  let r := z.inflate m st.strm
  if r.ret = zOk then some { st with strm := r.strm, out := put st.out 0 r.out } else none

/-- The rest of a turn of the outer loop, behind a header that is not empty. -/
def loadFile (st : State σ) : Option (State σ) :=
  let k := st.created.length
  let count := s32 (st.count + 1)
  let bytes := byteSize st.out
  let name := entryName st.out
  let top := st.top.createFile name (h.node k)
  let node := { FileNode.make (h.chunk k) with length := bytes }
  let node := node.resize bytes (h.grown k)
  (copyData z (bytes + 1) bytes 0 st.strm node.chunk).bind fun r =>
    let st := { st with
      strm := r.1
      top
      created := st.created ++ [(name, { node with chunk := r.2 })]
      count }
    let extra := sub32 (alignUp bytes 512) bytes
    if extra > 0 then inflateOut z extra st else some st

/-- The outer loop; `none` is an `ASSERT` or out of fuel. -/
def loadLoop : Nat → State σ → Option (State σ)
  | 0, _ => none
  | fuel + 1, st =>
    (inflateOut z 512 st).bind fun st =>
      if emptyP st.out then some st else (loadFile z h st).bind (loadLoop fuel)

/-- `load_into`, after `inflateInit2`; its result is `count`. -/
def loadInto (fuel : Nat) (strm : σ) (out : Bytes) (top : DirectoryNode) : Option (State σ) :=
  loadLoop z h fuel { strm, out, top, created := [], count := 0 }

/-! ## The encoding -/

/-- The `k` last octal digits of `n`. -/
def octal : Nat → Nat → List UInt8
  | 0, _ => []
  | k + 1, n => UInt8.ofNat (48 + n / 8 ^ k % 8) :: octal k n

/-- A member of an archive. `owner` is the fields `mode`, `uid` and `gid`, `ends` the byte
behind the digits of `size`, and `other` the rest of the header. -/
structure Member where
  name : Name
  owner : List UInt8
  ends : UInt8
  other : List UInt8
  data : List UInt8

namespace Member

structure Valid (f : Member) : Prop where
  name_pos : 1 ≤ f.name.bytes.length
  name_le : f.name.bytes.length ≤ 99
  owner : f.owner.length = 24
  ends : f.ends ≠ 48
  other : f.other.length = 376
  data : f.data.length < 2147483648

def header (f : Member) : List UInt8 :=
  f.name.bytes ++ (List.replicate (100 - f.name.bytes.length) 0 ++
    (f.owner ++ (octal 11 f.data.length ++ f.ends :: f.other)))

/-- The number of bytes that pad the data to whole blocks. -/
def padding (f : Member) : Nat := (512 - f.data.length % 512) % 512

def encode (f : Member) : List UInt8 := f.header ++ (f.data ++ List.replicate f.padding 0)

end Member

/-- The members, and two zero blocks. -/
def encode (files : List Member) : List UInt8 :=
  files.flatMap Member.encode ++ List.replicate 1024 0

/-! ## Reading what was stored -/

theorem put_in (m : Bytes) {a i : Nat} {data : List UInt8} (hi : i < data.length) :
    put m a data (a + i) = data[i] := by
  unfold put
  rw [Bytes.fill_in _ _ (by omega), Nat.add_sub_cancel_left, List.getD_eq_getElem _ _ hi]

theorem put_off (m : Bytes) {a x : Nat} {data : List UInt8} (hx : x < a ∨ a + data.length ≤ x) :
    put m a data x = m x := Bytes.fill_off m _ hx

theorem put_append (m : Bytes) (a : Nat) (xs ys : List UInt8) :
    put (put m a xs) (a + xs.length) ys = put m a (xs ++ ys) := by
  funext x
  by_cases hlo : x < a
  · rw [put_off _ (.inl (by omega)), put_off _ (.inl hlo), put_off _ (.inl hlo)]
  obtain ⟨i, rfl⟩ := Nat.exists_eq_add_of_le (Nat.le_of_not_lt hlo)
  by_cases hxs : i < xs.length
  · rw [put_off _ (.inl (by omega)), put_in _ hxs,
      put_in _ (by rw [List.length_append]; omega), List.getElem_append_left hxs]
  by_cases hys : i < xs.length + ys.length
  · obtain ⟨j, rfl⟩ := Nat.exists_eq_add_of_le (Nat.le_of_not_lt hxs)
    rw [← Nat.add_assoc, put_in _ (by omega), Nat.add_assoc,
      put_in _ (by rw [List.length_append]; omega), List.getElem_append_right (by omega)]
    simp
  · rw [put_off _ (.inr (by omega)), put_off _ (.inr (by omega)),
      put_off _ (.inr (by rw [List.length_append]; omega))]

theorem length_octal (k n : Nat) : (octal k n).length = k := by
  induction k with
  | zero => rfl
  | succ k ih => rw [octal, List.length_cons, ih]

theorem getElem_octal {k n i : Nat} (hi : i < (octal k n).length) :
    (octal k n)[i] = UInt8.ofNat (48 + n / 8 ^ (k - 1 - i) % 8) := by
  induction k generalizing i with
  | zero => cases hi
  | succ k ih =>
    cases i with
    | zero => rfl
    | succ i =>
      have hi : i < (octal k n).length := Nat.lt_of_succ_lt_succ hi
      show (octal k n)[i] = _
      rw [ih hi, show k + 1 - 1 - (i + 1) = k - 1 - i by omega]

/-! ## Sizes -/

section Ato8

variable {buf : Bytes} {n : Nat}

theorem ofDigits_range (n k : Nat) :
    Nat.ofDigits 8 ((List.range k).map fun i => n / 8 ^ i % 8) = n % 8 ^ k := by
  induction k with
  | zero => exact (Nat.mod_one n).symm
  | succ k ih =>
    rw [List.range_succ, List.map_append, List.map_singleton, Nat.ofDigits_append, ih,
      Nat.ofDigits_singleton, List.length_map, List.length_range, Nat.mod_pow_succ]

theorem ato8_octal (hn : n < 2147483648)
    (hbuf : ∀ i < 11, buf i = UInt8.ofNat (48 + n / 8 ^ (10 - i) % 8)) (hend : buf 11 ≠ 48)
    (limit : Nat) : ato8 limit buf 11 = n := by
  obtain ⟨digits, hrange⟩ : ∃ digits,
      digits = ((List.range 11).map fun i => n / 8 ^ i % 8).reverse := ⟨_, rfl⟩
  have hlen : digits.length = 11 := by
    rw [hrange, List.length_reverse, List.length_map, List.length_range]
  have hdigits : ∀ d ∈ digits, d < 8 := by
    intro d hd
    rw [hrange, List.mem_reverse, List.mem_map] at hd
    obtain ⟨i, -, rfl⟩ := hd
    exact Nat.mod_lt _ (by decide)
  have hchars : ∀ i (hi : i < digits.length), buf i = UInt8.ofNat (48 + digits[i]) := by
    intro i hi
    rw [hbuf i (hlen ▸ hi)]
    simp only [hrange, List.getElem_reverse, List.getElem_map, List.getElem_range,
      List.length_map, List.length_range]
  have hvalue := ato8_digits hdigits hchars (hlen ▸ hend) limit
  rw [hlen, hrange, List.reverse_reverse, ofDigits_range,
    Nat.mod_eq_of_lt (hn.trans (by decide)), Nat.mod_eq_of_lt (hn.trans (by decide))] at hvalue
  exact hvalue

end Ato8

/-! ## One member -/

theorem Member.length_header {f : Member} (hf : f.Valid) : f.header.length = 512 := by
  have h := hf.name_le
  simp only [header, List.length_append, List.length_replicate, List.length_cons, length_octal,
    hf.owner, hf.other]
  omega

variable {z h}

theorem inflateOut_eq {m : Nat} (st : State σ) {xs rest : List UInt8}
    (hrem : z.remaining st.strm = xs ++ rest) (hxs : xs.length = m) (hm : 0 < m)
    (hrest : rest ≠ []) :
    ∃ strm, z.remaining strm = rest ∧
      inflateOut z m st = some { st with strm, out := put st.out 0 xs } := by
  have hlt : m < (z.remaining st.strm).length := by
    have := List.length_pos_iff.2 hrest
    rw [hrem, List.length_append]
    omega
  obtain ⟨hret, hout, -, hnext⟩ := z.delivers m st.strm hm hlt
  rw [hrem, ← hxs, List.take_left] at hout
  rw [hrem, ← hxs, List.drop_left, hxs] at hnext
  refine ⟨(z.inflate m st.strm).strm, hnext, ?_⟩
  unfold inflateOut
  simp only [hret, if_true, hxs ▸ hout]

theorem copyData_eq {fuel left : Nat} (file : Nat) {strm : σ} (chunk : Bytes)
    {data rest : List UInt8}
    (hrem : z.remaining strm = data ++ rest) (hdata : data.length = left) (hrest : rest ≠ [])
    (hfuel : left < fuel) :
    ∃ strm', z.remaining strm' = rest ∧
      copyData z fuel left file strm chunk = some (strm', put chunk file data) := by
  induction fuel generalizing left file strm chunk data with
  | zero => cases hfuel
  | succ fuel ih =>
    unfold copyData
    by_cases hleft : left > 0
    · rw [if_pos hleft]
      generalize hreq : (if left ≥ 1024 then 1024 else left) = req
      have hle : 0 < req ∧ req ≤ left := by
        split at hreq <;> omega
      have hlt : req < (z.remaining strm).length := by
        have := List.length_pos_iff.2 hrest
        rw [hrem, List.length_append]
        omega
      obtain ⟨hret, hout, havail, hnext⟩ := z.delivers req strm hle.1 hlt
      rw [hrem, List.take_append_of_le_length (by omega)] at hout
      rw [hrem, List.drop_append_of_le_length (by omega)] at hnext
      have hlen : (data.take req).length = req := by
        rw [List.length_take]
        omega
      obtain ⟨strm', hrem', hloop⟩ := ih (file + req)
        (put chunk file (data.take req)) hnext
        (show (data.drop req).length = left - req by rw [List.length_drop]; omega) (by omega)
      refine ⟨strm', hrem', ?_⟩
      have hput : put (put chunk file (data.take req)) (file + req) (data.drop req) =
          put chunk file data := by
        have := put_append chunk file (data.take req) (data.drop req)
        rwa [hlen, List.take_append_drop] at this
      simp only [hret, hout, havail, Nat.sub_zero, ne_eq, not_true_eq_false, if_false, hloop, hput]
      rfl
    · obtain rfl : left = 0 := by omega
      obtain rfl := List.eq_nil_of_length_eq_zero hdata
      refine ⟨strm, hrem, ?_⟩
      rw [if_neg hleft]
      congr 2
      funext x
      exact (put_off chunk (by simp; omega)).symm

theorem Member.header_name {f : Member} (hf : f.Valid) (m : Bytes) :
    Bytes.HasCString (put m 0 f.header) 0 f.name.bytes := by
  have hle := hf.name_le
  have hlen := length_header hf
  refine ⟨fun i hi => ?_, ?_⟩
  · rw [put_in m (by omega)]
    exact List.getElem_append_left hi
  · rw [put_in m (by omega)]
    unfold header
    rw [List.getElem_append_right (Nat.le_refl _), List.getElem_append_left (by simp; omega)]
    exact List.getElem_replicate _

theorem Member.header_size {f : Member} (hf : f.Valid) (m : Bytes) {i : Nat}
    (hi : i < (octal 11 f.data.length ++ f.ends :: f.other).length) :
    put m 0 f.header (124 + i) = (octal 11 f.data.length ++ f.ends :: f.other)[i] := by
  have hle := hf.name_le
  have hpre : (f.name.bytes ++ (List.replicate (100 - f.name.bytes.length) 0 ++ f.owner)).length =
      124 := by
    simp only [List.length_append, List.length_replicate, hf.owner]
    omega
  have hsplit : f.header = (f.name.bytes ++ (List.replicate (100 - f.name.bytes.length) 0 ++
      f.owner)) ++ (octal 11 f.data.length ++ f.ends :: f.other) := by
    simp only [header, List.append_assoc]
  have hput := put_in m (a := 0) (show 124 + i < f.header.length by
    rw [hsplit, List.length_append, hpre]
    omega)
  rw [Nat.zero_add] at hput
  rw [hput]
  simp only [hsplit]
  rw [List.getElem_append_right (by omega)]
  simp only [hpre, Nat.add_sub_cancel_left]

theorem header_spec {f : Member} (hf : f.Valid) (m : Bytes) :
    emptyP (put m 0 f.header) = false ∧ byteSize (put m 0 f.header) = f.data.length ∧
      entryName (put m 0 f.header) = f.name := by
  have hname := Member.header_name hf m
  have hlen := length_octal 11 f.data.length
  refine ⟨?_, ?_, ?_⟩
  · -- the first byte of the name
    have hfirst := hname.1 0 hf.name_pos
    refine Bool.eq_false_iff.2 fun hempty => ?_
    have hzero := List.all_eq_true.1 hempty 0 (List.mem_range.2 (by decide))
    rw [Nat.zero_add] at hfirst
    rw [hfirst] at hzero
    exact f.name.nul_free (eq_of_beq hzero ▸ List.getElem_mem hf.name_pos)
  · refine ato8_octal hf.data (fun i hi => ?_) ?_ 900
    · rw [Member.header_size hf m (by rw [List.length_append]; omega),
        List.getElem_append_left (by omega), getElem_octal (by omega)]
    · rw [Member.header_size hf m (by simp [hlen]), List.getElem_append_right (by omega)]
      simp only [hlen, Nat.sub_self]
      exact hf.ends
  · have hle := hf.name_le
    have hbytes := Bytes.cstring_eq hname f.name.nul_free (n := 1024) (by omega)
    unfold entryName
    simp only [hbytes]

/-- The node of a loaded member. -/
structure Loaded (f : Member) (c : Name × FileNode) : Prop where
  name : c.1 = f.name
  length : c.2.length = f.data.length
  data : ∀ i (hi : i < f.data.length), c.2.chunk i = f.data[i]

/-- One turn of the outer loop takes one member off the stream. -/
theorem loadFile_eq {f : Member} (hf : f.Valid) (st : State σ) {rest : List UInt8}
    (hrem : z.remaining st.strm = f.data ++ (List.replicate f.padding 0 ++ rest))
    (hrest : rest ≠ []) (hout : ∃ m, st.out = put m 0 f.header) :
    ∃ st' node, loadFile z h st = some st' ∧ z.remaining st'.strm = rest ∧
      st'.top = st.top.createFile f.name (h.node st.created.length) ∧
      st'.created = st.created ++ [(f.name, node)] ∧ Loaded f (f.name, node) ∧
      st'.count = s32 (st.count + 1) := by
  obtain ⟨m, hout⟩ := hout
  obtain ⟨-, hsize, hname⟩ := header_spec hf m
  rw [← hout] at hsize hname
  have hpad : sub32 (alignUp f.data.length 512) f.data.length = f.padding := by
    have hdata := hf.data
    unfold alignUp Member.padding
    rw [add32_eq (by omega), sub32_eq (by omega) (by omega)]
    omega
  generalize hnode : ({ FileNode.make (h.chunk st.created.length) with
    length := f.data.length } : FileNode).resize f.data.length (h.grown st.created.length) = node
  have hlength : node.length = f.data.length := by
    rw [← hnode]
    unfold FileNode.resize
    split <;> rfl
  obtain ⟨strm, hstrm, hcopy⟩ := copyData_eq 0 node.chunk
    hrem rfl (by simp [hrest]) (Nat.lt_succ_self f.data.length)
  have hloaded : Loaded f (f.name, { node with chunk := put node.chunk 0 f.data }) := by
    refine ⟨rfl, hlength, fun i hi => ?_⟩
    have := put_in node.chunk (a := 0) hi
    rwa [Nat.zero_add] at this
  unfold loadFile
  simp only [hsize, hname, hnode, hcopy, Option.bind_some, hpad]
  by_cases hextra : f.padding > 0
  · rw [if_pos hextra]
    obtain ⟨strm', hstrm', hskip⟩ := inflateOut_eq (z := z)
      { st with
        strm
        top := st.top.createFile f.name (h.node st.created.length)
        created := st.created ++ [(f.name, { node with chunk := put node.chunk 0 f.data })]
        count := s32 (st.count + 1) } hstrm List.length_replicate hextra hrest
    exact ⟨_, _, hskip, hstrm', rfl, rfl, hloaded, rfl⟩
  · rw [if_neg hextra]
    have hzero : f.padding = 0 := by omega
    rw [hzero] at hstrm
    exact ⟨_, _, rfl, hstrm, rfl, rfl, hloaded, rfl⟩

/-! ## All members -/

/-- `create_file` for the names in order, the first of which is file node `k`. -/
def createAll (h : Heap) : Nat → List Name → DirectoryNode → DirectoryNode
  | _, [], d => d
  | k, name :: names, d => createAll h (k + 1) names (d.createFile name (h.node k))

/-- A block of zeros ends the archive. -/
theorem emptyP_zeros (m : Bytes) : emptyP (put m 0 (List.replicate 512 0)) = true := by
  refine List.all_eq_true.2 fun i hi => ?_
  have hlt : i < (List.replicate 512 (0 : UInt8)).length := by
    rw [List.length_replicate]
    exact List.mem_range.1 hi
  have hbyte := put_in m (a := 0) hlt
  rw [Nat.zero_add, List.getElem_replicate] at hbyte
  rw [hbyte]
  rfl

theorem loadLoop_encode {files : List Member} (hfiles : ∀ f ∈ files, f.Valid)
    {tail : List UInt8} {fuel : Nat} (hfuel : files.length < fuel) (st : State σ)
    (hrem : z.remaining st.strm = encode files ++ tail) {n : Int} (hcount : st.count = s32 n) :
    ∃ st' nodes, loadLoop z h fuel st = some st' ∧ st'.count = s32 (n + files.length) ∧
      st'.top = createAll h st.created.length (files.map Member.name) st.top ∧
      st'.created = st.created ++ nodes ∧ List.Forall₂ Loaded files nodes := by
  induction files generalizing fuel st n with
  | nil =>
    obtain ⟨fuel, rfl⟩ := Nat.exists_eq_add_one_of_ne_zero (Nat.ne_of_gt hfuel)
    have hblocks : z.remaining st.strm =
        List.replicate 512 0 ++ (List.replicate 512 0 ++ tail) := by
      rw [hrem, ← List.append_assoc, List.replicate_append_replicate, encode, List.flatMap_nil,
        List.nil_append]
    obtain ⟨strm, -, hblock⟩ := inflateOut_eq st hblocks List.length_replicate (by decide)
      (List.append_ne_nil_of_left_ne_nil (by decide) _)
    refine ⟨{ st with strm, out := put st.out 0 (List.replicate 512 0) }, [], ?_, ?_, rfl,
      (List.append_nil _).symm, .nil⟩
    · rw [loadLoop, hblock, Option.bind_some, if_pos (emptyP_zeros st.out)]
    · simpa using hcount
  | cons f files ih =>
    obtain ⟨fuel, rfl⟩ := Nat.exists_eq_add_one_of_ne_zero (Nat.ne_of_gt (Nat.zero_lt_of_lt hfuel))
    have hf := hfiles f List.mem_cons_self
    have hmore : encode files ++ tail ≠ [] :=
      List.append_ne_nil_of_left_ne_nil (List.append_ne_nil_of_right_ne_nil _ (by decide)) _
    have hmember : z.remaining st.strm = f.header ++ (f.data ++
        (List.replicate f.padding 0 ++ (encode files ++ tail))) := by
      rw [hrem]
      simp only [encode, List.flatMap_cons, Member.encode, List.append_assoc]
    obtain ⟨strm, hstrm, hheader⟩ := inflateOut_eq st hmember (Member.length_header hf) (by decide)
      (by simp [hmore])
    obtain ⟨st₁, node, hload, hrem₁, htop, hcreated, hloaded, hcount₁⟩ :=
      loadFile_eq (h := h) hf { st with strm, out := put st.out 0 f.header } hstrm hmore
        ⟨st.out, rfl⟩
    have hnext : st₁.count = s32 (n + 1) := by
      rw [hcount₁, hcount, s32_s32_add]
    obtain ⟨st', nodes, hloop, hcount', htop', hcreated', hnodes⟩ :=
      ih (fun x hx => hfiles x (List.mem_cons_of_mem f hx)) (Nat.lt_of_succ_lt_succ hfuel) st₁ hrem₁
        hnext
    refine ⟨st', (f.name, node) :: nodes, ?_, ?_, ?_, ?_, .cons hloaded hnodes⟩
    · rw [loadLoop, hheader, Option.bind_some, (header_spec hf st.out).1]
      simp only [Bool.false_eq_true, if_false, hload, Option.bind_some]
      exact hloop
    · have hsum : n + 1 + (files.length : Int) = n + ((f :: files).length : Int) := by
        rw [List.length_cons]
        omega
      rw [hcount', hsum]
    · rw [htop', htop, hcreated, List.length_append]
      rfl
    · rw [hcreated', hcreated, List.append_assoc]
      rfl

/-- Loading inverts the encoding: `create_file` is called for the names of the members in
order, each new node has the length and the data of its member, and the result is the
number of members. -/
theorem loadInto_encode (z : Zlib σ) (h : Heap) (files : List Member)
    (hfiles : ∀ f ∈ files, f.Valid) (tail : List UInt8) (strm : σ)
    (hstrm : z.remaining strm = encode files ++ tail) (out : Bytes) (top : DirectoryNode)
    (fuel : Nat) (hfuel : files.length < fuel) :
    ∃ st, loadInto z h fuel strm out top = some st ∧ st.count = s32 files.length ∧
      (files.length < 2147483648 → st.count = files.length) ∧
      st.top = createAll h 0 (files.map Member.name) top ∧
      List.Forall₂ Loaded files st.created := by
  obtain ⟨st, nodes, hload, hcount, htop, hcreated, hnodes⟩ :=
    loadLoop_encode (h := h) hfiles hfuel { strm, out, top, created := [], count := 0 }
      hstrm (n := 0) rfl
  rw [Int.zero_add] at hcount
  refine ⟨st, hload, hcount, fun hlt => ?_, htop, hcreated ▸ hnodes⟩
  rw [hcount, s32_eq (by omega) (by omega)]

/-- A stream that delivers a list. -/
def listZlib : Zlib (List UInt8) where
  inflate m strm :=
    if m < strm.length then ⟨zOk, strm.take m, 0, strm.drop m⟩
    else ⟨zStreamEnd, strm, m - strm.length, []⟩
  remaining strm := strm
  delivers m strm _ hm := by
    rw [if_pos hm]
    exact ⟨rfl, rfl, rfl, rfl⟩

/-- An archive of an empty file and one of three bytes. -/
def twoMembers : List Member :=
  [⟨.a, List.replicate 24 48, 0, List.replicate 376 48, []⟩,
    ⟨⟨[98, 99], by decide⟩, List.replicate 24 48, 32, List.replicate 376 48, [1, 2, 3]⟩]

theorem loadInto_twoMembers :
    ∃ st, loadInto listZlib ⟨fun k => 4096 + k, fun _ _ => 0, fun _ _ => 0⟩ 3
        (encode twoMembers ++ []) (fun _ => 0) .make = some st ∧ st.count = 2 ∧
      List.Forall₂ Loaded twoMembers st.created := by
  have hvalid : ∀ f ∈ twoMembers, f.Valid := by
    intro f hf
    simp only [twoMembers, List.mem_cons, List.not_mem_nil, or_false] at hf
    rcases hf with rfl | rfl
    · exact ⟨by decide, by decide, List.length_replicate, by decide, List.length_replicate,
        by decide⟩
    · exact ⟨by decide, by decide, List.length_replicate, by decide, List.length_replicate,
        by decide⟩
  obtain ⟨st, hload, -, hcount, -, hnodes⟩ := loadInto_encode listZlib
    ⟨fun k => 4096 + k, fun _ _ => 0, fun _ _ => 0⟩ twoMembers hvalid [] (encode twoMembers ++ [])
    rfl (fun _ => 0) .make 3 (by decide)
  exact ⟨st, hload, hcount (by decide), hnodes⟩

end Ulysses.Tar
