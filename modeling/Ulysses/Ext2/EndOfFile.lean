import Ulysses.Ext2.Directory

/-!
# Reading at the end of a file

`Node::read` does not look at the length of the file, and `read_inode_block` takes a direct
pointer of 0 for the number of a block. So a read returns the size it was asked for, at the
end of the file as anywhere else, and a hole shows what is in block 0
(`read_passes_end`). `read_stops_at_end` says which reads give the bytes of the file.
-/

namespace Ulysses

open Lib Bytes

namespace Ext2

/-! ## What a read should do -/

/-- There is a zero on the way to the block. -/
def FS.Hole (disk : Disk) (fs : FS) (obj : Inode) (b : Nat) : Prop := ∀ id, ¬Mapped disk fs obj b id

/-- What is left of `size` bytes in a file of `length` bytes. -/
def bytesLeft (length offset size : Nat) : Nat :=
  if offset < length then min size (length - offset) else 0

/-- The read returns the number of bytes up to the end of the file, and holes are read as
zeros. -/
def Node.StopsAtEnd (disk : Disk) (fs : FS) (n : Node) (offset size user : Nat) (t : Transfer) :
    Prop :=
  ∃ t', n.read disk fs offset size user t = some (bytesLeft n.length offset size, t') ∧
    ∀ i < bytesLeft n.length offset size,
      fs.Hole disk (fs.inodeOf disk n.inode).toInode ((offset + i) / fs.bytesPerBlock) →
        t'.memory (user + i) = 0

/-- The arguments of `File::read`. -/
structure ReadCall where
  user : Nat
  size : Nat

/-- The bytes that the calls ask for. -/
def totalSize (calls : List ReadCall) : Nat := (calls.map (·.size)).sum

/-- `File::read` again and again, with the results. -/
def Node.readFiles (disk : Disk) (fs : FS) (n : Node) :
    List ReadCall → Fs.File → Transfer → Option (List Int × Fs.File × Transfer)
  | [], f, t => some ([], f, t)
  | c :: calls, f, t =>
    (n.readFile disk fs c.user c.size f t).bind fun r =>
      (n.readFiles disk fs calls r.2.1 r.2.2).map fun rest => (r.1 :: rest.1, rest.2)

/-- After each call, what was asked for has been returned as far as the file goes. -/
def Node.ReadsThrough (disk : Disk) (fs : FS) (n : Node) (calls : List ReadCall) (t : Transfer) :
    Prop :=
  ∃ results f t', n.readFiles disk fs calls .make t = some (results, f, t') ∧
    ∀ k, (results.take k).sum = ((min (totalSize (calls.take k)) n.length : Nat) : Int)

/-! ## When it does -/

/-- The entry of `blocks` and the table indices by which a block is found, for tables of `n` block
numbers: those of the scheme, but in the triple-indirect range with a second index that is not
reduced. With tables of 65536 entries or more there are no double-indirect blocks. -/
def readPath (n b : Nat) : Option (Nat × List Nat) :=
  if b < 12 + n ∨ n < 65536 ∧ b < 12 + n + n ^ 2 then some (schemePath n b)
  else if n < 65536 then
    let k := b - 12 - n - n ^ 2
    some (14, [k / n ^ 2, k / n, k % n])
  else none

/-- The pointers of the inode and of the tables lead to the block `id`, with no zero in a
table. -/
def FS.ReadsFrom (disk : Disk) (fs : FS) (obj : Inode) (b id : Nat) : Prop :=
  ∃ path, readPath fs.idsPerBlock b = some path ∧
    fs.follow disk (obj.blocks path.1) path.2 = some id

/-- The byte at a position of the block that `read_inode_block` finds. -/
def FS.blockByte (disk : Disk) (fs : FS) (obj : Inode) (b : Nat) : Bytes := fun j =>
  match fs.blockId disk obj b with
  | some (some id) => disk.data (fs.blockRange id 1) j
  | _ => 0

/-- `find_inode` accepts the inode, and its pointers lead to the blocks that a read asks for. -/
structure FS.Found (disk : Disk) (fs : FS) (inode offset size : Nat) : Prop where
  place : (fs.inodePlace inode).isSome
  blocks : ∀ b, fs.Used offset size b →
    ∃ id, fs.ReadsFrom disk (fs.inodeOf disk inode).toInode b id

/-- A read of nothing, or inside the file, whose blocks are found. For a direct pointer of 0 the
bytes asked for are zero in block 0 of the disk; for a block with a zero on the way to it they are
zero in the block that the pointers lead to all the same. -/
structure FS.Inside (disk : Disk) (fs : FS) (inode offset size : Nat) : Prop where
  found : fs.Found disk inode offset size
  inside : size = 0 ∨ offset + size ≤ (fs.inodeOf disk inode).size
  direct : ∀ i < size, (offset + i) / fs.bytesPerBlock < 12 →
    (fs.inodeOf disk inode).blocks ((offset + i) / fs.bytesPerBlock) = 0 →
    fs.blockData disk 0 ((offset + i) % fs.bytesPerBlock) = 0
  table : ∀ i < size, 12 ≤ (offset + i) / fs.bytesPerBlock →
    fs.Hole disk (fs.inodeOf disk inode).toInode ((offset + i) / fs.bytesPerBlock) →
    ∀ id, fs.ReadsFrom disk (fs.inodeOf disk inode).toInode ((offset + i) / fs.bytesPerBlock) id →
      fs.blockData disk id ((offset + i) % fs.bytesPerBlock) = 0

/-- The calls stay inside the file, and none asks for 2 GiB. -/
structure FS.InsideCalls (disk : Disk) (fs : FS) (inode offset : Nat) (calls : List ReadCall) :
    Prop where
  small : ∀ c ∈ calls, c.size < 2147483648
  inside : offset + totalSize calls ≤ (fs.inodeOf disk inode).size
  found : totalSize calls = 0 ∨ fs.Found disk inode offset (totalSize calls)

section

variable {disk : Disk} {fs : FS} {n : Node} {t : Transfer} {offset size user : Nat}

theorem bytesLeft_eq_self {length : Nat} :
    bytesLeft length offset size = size ↔ size = 0 ∨ offset + size ≤ length := by
  unfold bytesLeft
  split <;> omega

theorem size_inodeOf_lt (disk : Disk) (fs : FS) (inode : Nat) :
    (fs.inodeOf disk inode).size < 4294967296 := by
  have hbytes : ∀ bytes, (InodeRecord.ofBytes bytes).size < 4294967296 :=
    fun bytes => read32_lt (fun j => bytes.getD j 0) 4
  unfold FS.inodeOf
  split
  · exact hbytes _
  · exact hbytes _

/-- The code finds the block that the pointers lead to. -/
theorem blockId_eq_iff (hgeo : fs.Geometry) {obj : Inode} {b id : Nat} (hb : b < 4294967296) :
    fs.blockId disk obj b = some (some id) ↔ fs.ReadsFrom disk obj b id := by
  have hpath : fs.blockPath b = readPath fs.idsPerBlock b := by
    unfold readPath
    split
    · next hlow => exact blockPath_of_lt hgeo hb hlow
    · next hlow =>
      split
      · next hsmall => exact blockPath_triple hgeo hb hsmall (by omega)
      · next hlarge => exact blockPath_overflow hgeo hb (by omega) (by omega)
  rw [FS.blockId, hpath, Option.map_eq_some_iff]
  rfl

theorem used_lt (hgeo : fs.Geometry) (hoffset : offset < 4294967296) (hsize : size < 4294967296)
    {b : Nat} (hused : fs.Used offset size b) : b < 4294967296 := by
  obtain ⟨l, -, hbytes⟩ := hgeo.pow
  have hpow := Nat.one_le_two_pow (n := l)
  have hmul : b * 1024 ≤ b * fs.bytesPerBlock := Nat.mul_le_mul_left b (by omega)
  have hdiv := Nat.div_le_self offset fs.bytesPerBlock
  rcases hused with rfl | ⟨-, hend⟩ <;> omega

theorem found_iff (hgeo : fs.Geometry) (hoffset : offset < 4294967296) (hsize : size < 4294967296)
    {inode : Nat} :
    fs.Found disk inode offset size ↔ (fs.inodePlace inode).isSome ∧ ∀ b, fs.Used offset size b →
      ∃ id, fs.blockId disk (fs.inodeOf disk inode).toInode b = some (some id) := by
  have hblock : ∀ b, fs.Used offset size b → ∀ id,
      fs.blockId disk (fs.inodeOf disk inode).toInode b = some (some id) ↔ _ := fun b hused id =>
    blockId_eq_iff hgeo (used_lt hgeo hoffset hsize hused)
  constructor
  · rintro ⟨hplace, hblocks⟩
    exact ⟨hplace, fun b hused => (hblocks b hused).imp fun id => (hblock b hused id).2⟩
  · rintro ⟨hplace, hblocks⟩
    exact ⟨hplace, fun b hused => (hblocks b hused).imp fun id => (hblock b hused id).1⟩

theorem FS.ReadsFrom.unique {obj : Inode} {b id id' : Nat} (h : fs.ReadsFrom disk obj b id)
    (h' : fs.ReadsFrom disk obj b id') : id = id' := by
  obtain ⟨path, hpath, hid⟩ := h
  obtain ⟨path', hpath', hid'⟩ := h'
  obtain rfl := Option.some.inj (hpath.symm.trans hpath')
  exact Option.some.inj (hid.symm.trans hid')

theorem hole_direct {obj : Inode} {b : Nat} (hb : b < 12) :
    (fs.Hole disk obj b ↔ obj.blocks b = 0) ∧
      ∀ id, fs.ReadsFrom disk obj b id ↔ obj.blocks b = id := by
  have hscheme : schemePath fs.idsPerBlock b = (b, []) := if_pos hb
  have hpath : readPath fs.idsPerBlock b = some (b, []) := by
    rw [readPath, if_pos (.inl (by omega)), hscheme]
  constructor
  · unfold FS.Hole Mapped
    rw [hscheme]
    simp [FS.follow]
  · intro id
    unfold FS.ReadsFrom
    simp [hpath, FS.follow]

/-- A read of at least one byte asks for the blocks from its first byte to its last. -/
theorem used_iff (hsize : 1 ≤ size) {b : Nat} :
    fs.Used offset size b ↔
      offset / fs.bytesPerBlock ≤ b ∧ b * fs.bytesPerBlock < offset + size := by
  have hfirst := Nat.div_mul_le_self offset fs.bytesPerBlock
  constructor
  · rintro (rfl | ⟨hlt, hend⟩)
    · exact ⟨Nat.le_refl _, by omega⟩
    · exact ⟨hlt.le, hend⟩
  · rintro ⟨hle, hend⟩
    rcases Nat.eq_or_lt_of_le hle with heq | hlt
    · exact .inl heq.symm
    · exact .inr ⟨hlt, hend⟩

theorem FS.Found.read (h : fs.Found disk n.inode offset size) (hgeo : fs.Geometry)
    (hsound : fs.Sound disk t.st) (hoffset : offset < 4294967296) (hsize : size < 4294967296)
    (huser : user + size ≤ 4294967296) :
    ∃ t', n.read disk fs offset size user t = some (size, t') ∧ fs.Sound disk t'.st ∧
      ∀ i < size, ∃ id, fs.ReadsFrom disk (fs.inodeOf disk n.inode).toInode
          ((offset + i) / fs.bytesPerBlock) id ∧
        t'.memory (user + i) = fs.blockData disk id ((offset + i) % fs.bytesPerBlock) := by
  obtain ⟨hplace, hblocks⟩ := (found_iff hgeo hoffset hsize).1 h
  have hserves : ∀ b, fs.Used offset size b → fs.Serves disk (fs.inodeOf disk n.inode).toInode b
      (fs.blockByte disk (fs.inodeOf disk n.inode).toInode b) := by
    intro b hused
    obtain ⟨id, hid⟩ := hblocks b hused
    refine ⟨id, hid, fun j _ => ?_⟩
    unfold FS.blockByte
    rw [hid]
  obtain ⟨t', hread, hsound', hmem, -⟩ :=
    read_of_serves hgeo hsound hplace hserves hoffset hsize huser
  refine ⟨t', hread, hsound', fun i hi => ?_⟩
  have hused : fs.Used offset size ((offset + i) / fs.bytesPerBlock) :=
    (used_iff (by omega)).2 ⟨Nat.div_le_div_right (Nat.le_add_right _ _),
      (Nat.div_mul_le_self _ _).trans_lt (by omega)⟩
  obtain ⟨id, hid⟩ := hblocks _ hused
  refine ⟨id, (blockId_eq_iff hgeo (used_lt hgeo hoffset hsize hused)).1 hid, ?_⟩
  rw [hmem, fill_in _ _ ⟨Nat.le_add_right _ _, by omega⟩, Nat.add_sub_cancel_left]
  unfold FS.blockByte
  rw [hid]
  rfl

theorem found_append {inode rest : Nat} (hsize : 1 ≤ size) :
    fs.Found disk inode offset (size + rest) ↔
      fs.Found disk inode offset size ∧ (rest = 0 ∨ fs.Found disk inode (offset + size) rest) := by
  rcases Nat.eq_zero_or_pos rest with rfl | hrest
  · simp
  have hused : ∀ b, fs.Used offset (size + rest) b ↔
      fs.Used offset size b ∨ fs.Used (offset + size) rest b := by
    intro b
    have hmono : offset / fs.bytesPerBlock ≤ (offset + size) / fs.bytesPerBlock :=
      Nat.div_le_div_right (Nat.le_add_right _ _)
    rw [used_iff hsize, used_iff hrest, used_iff (by omega), ← Nat.add_assoc]
    constructor
    · rintro ⟨hle, hend⟩
      rcases Nat.lt_or_ge (b * fs.bytesPerBlock) (offset + size) with hlt | hge
      · exact .inl ⟨hle, hlt⟩
      · exact .inr ⟨Nat.div_le_of_le_mul (by rwa [Nat.mul_comm]), hend⟩
    · rintro (⟨hle, hlt⟩ | ⟨hle, hend⟩)
      · exact ⟨hle, by omega⟩
      · exact ⟨hmono.trans hle, hend⟩
  constructor
  · intro h
    exact ⟨⟨h.place, fun b hb' => h.blocks b ((hused b).2 (.inl hb'))⟩,
      .inr ⟨h.place, fun b hb' => h.blocks b ((hused b).2 (.inr hb'))⟩⟩
  · rintro ⟨hfirst, hrest'⟩
    have hrest' := hrest'.resolve_left hrest.ne'
    exact ⟨hfirst.place, fun b hb' =>
      ((hused b).1 hb').elim (hfirst.blocks b) (hrest'.blocks b)⟩

/-- One read gives what the file has exactly when it is inside. -/
theorem stopsAtEnd_iff (hgeo : fs.Geometry) (hsound : fs.Sound disk t.st)
    (hlength : n.length = (fs.inodeOf disk n.inode).size) (hoffset : offset < 4294967296)
    (hsize : size < 4294967296) (huser : user + size ≤ 4294967296) :
    n.StopsAtEnd disk fs offset size user t ↔ fs.Inside disk n.inode offset size := by
  unfold Node.StopsAtEnd
  constructor
  · rintro ⟨t', hread, hzero⟩
    obtain ⟨hcount, hplace, hblocks⟩ := found_of_read hgeo hsound hoffset hsize huser hread
    have hfound := (found_iff hgeo hoffset hsize).2 ⟨hplace, hblocks⟩
    obtain ⟨t₁, hread₁, -, hbytes⟩ := hfound.read hgeo hsound hoffset hsize huser
    rw [hcount] at hread hzero
    obtain rfl : t' = t₁ := (Prod.mk.inj (Option.some.inj (hread.symm.trans hread₁))).2
    refine ⟨hfound, hlength ▸ bytesLeft_eq_self.1 hcount, fun i hi hb hnull => ?_,
      fun i hi _ hhole id hid => ?_⟩
    · obtain ⟨id, hid, hbyte⟩ := hbytes i hi
      obtain rfl := hnull.symm.trans (((hole_direct hb).2 id).1 hid)
      rw [← hbyte]
      exact hzero i hi ((hole_direct hb).1.2 hnull)
    · obtain ⟨id', hid', hbyte⟩ := hbytes i hi
      obtain rfl := hid.unique hid'
      rw [← hbyte]
      exact hzero i hi hhole
  · intro h
    have hcount : bytesLeft n.length offset size = size :=
      bytesLeft_eq_self.2 (hlength ▸ h.inside)
    obtain ⟨t', hread, -, hbytes⟩ := h.found.read hgeo hsound hoffset hsize huser
    rw [hcount]
    refine ⟨t', hread, fun i hi hhole => ?_⟩
    obtain ⟨id, hid, hbyte⟩ := hbytes i hi
    rw [hbyte]
    by_cases hb : (offset + i) / fs.bytesPerBlock < 12
    · have hnull := (hole_direct hb).1.1 hhole
      obtain rfl := hnull.symm.trans (((hole_direct hb).2 id).1 hid)
      exact h.direct i hi hb hnull
    · exact h.table i hi (Nat.not_lt.1 hb) hhole id hid

/-! ## Calls in a row -/

theorem totalSize_nil : totalSize [] = 0 := rfl

theorem totalSize_cons (c : ReadCall) (calls : List ReadCall) :
    totalSize (c :: calls) = c.size + totalSize calls := rfl

theorem insideCalls_cons {inode : Nat} {c : ReadCall} {calls : List ReadCall} (hpos : 1 ≤ c.size) :
    fs.InsideCalls disk inode offset (c :: calls) ↔
      c.size < 2147483648 ∧ fs.Found disk inode offset c.size ∧
        fs.InsideCalls disk inode (offset + c.size) calls := by
  constructor
  · rintro ⟨hsmall, hinside, hfound⟩
    rw [totalSize_cons] at hinside hfound
    obtain ⟨hfirst, hrest⟩ := (found_append hpos).1 (hfound.resolve_left (by omega))
    obtain ⟨hc, hcalls⟩ := List.forall_mem_cons.1 hsmall
    exact ⟨hc, hfirst, hcalls, by omega, hrest⟩
  · rintro ⟨hc, hfirst, hcalls, hinside, hrest⟩
    refine ⟨List.forall_mem_cons.2 ⟨hc, hcalls⟩, ?_, .inr ((found_append hpos).2 ⟨hfirst, hrest⟩)⟩
    rw [totalSize_cons]
    omega

theorem found_of_readFile (hgeo : fs.Geometry) (hsound : fs.Sound disk t.st) {f f' : Fs.File}
    {count : Int} {t' : Transfer} (hoffset : f.offset < 4294967296) (hsize : size < 4294967296)
    (huser : user + size ≤ 4294967296)
    (hfile : n.readFile disk fs user size f t = some (count, f', t')) :
    fs.Found disk n.inode f.offset size ∧ fs.Sound disk t'.st ∧ f.moved size = (count, f') := by
  obtain ⟨⟨size', t₁⟩, hread, heq⟩ := Option.map_eq_some_iff.1 hfile
  obtain ⟨rfl, hplace, hblocks⟩ := found_of_read hgeo hsound hoffset hsize huser hread
  simp only [Prod.mk.injEq] at heq
  obtain ⟨hcount, hf, rfl⟩ := heq
  exact ⟨(found_iff hgeo hoffset hsize).2 ⟨hplace, hblocks⟩, sound_read hsound hread,
    Prod.ext hcount hf⟩

/-- A size of 2 GiB or more becomes a negative result. -/
theorem lt_of_moved {f f' : Fs.File} {count : Int} (hsize : size < 4294967296)
    (hmoved : f.moved size = (count, f')) (hcount : 0 ≤ count) :
    size < 2147483648 ∧ count = size := by
  have hfst : (f.moved size).1 = s32 size := by
    unfold Fs.File.moved
    by_cases hneg : s32 size < 0
    · rw [if_pos hneg]
    · rw [if_neg hneg]
  rw [hmoved] at hfst
  have hmod := s32_emod size
  have hlt := (s32_range size).2
  omega

theorem FS.Found.readFile {f : Fs.File} (h : fs.Found disk n.inode f.offset size)
    (hgeo : fs.Geometry) (hsound : fs.Sound disk t.st) (hsmall : size < 2147483648)
    (hend : f.offset + size < 4294967296) (huser : user + size ≤ 4294967296) :
    ∃ t', n.readFile disk fs user size f t = some ((size : Int), ⟨f.offset + size⟩, t') ∧
      fs.Sound disk t'.st := by
  obtain ⟨t', hread, hsound', -⟩ := h.read hgeo hsound (by omega) (by omega) huser
  refine ⟨t', ?_, hsound'⟩
  unfold Node.readFile
  rw [hread, Option.map_some, Fs.File.moved_of_lt hsmall hend]

theorem readFiles_iff (hgeo : fs.Geometry) {calls : List ReadCall} {f : Fs.File}
    (hsound : fs.Sound disk t.st) (hoffset : f.offset ≤ (fs.inodeOf disk n.inode).size)
    (hcalls : ∀ c ∈ calls, 1 ≤ c.size ∧ c.size < 4294967296 ∧ c.user + c.size ≤ 4294967296) :
    (∃ results f' t', n.readFiles disk fs calls f t = some (results, f', t') ∧
      ∀ k, (results.take k).sum = ((min (totalSize (calls.take k))
        ((fs.inodeOf disk n.inode).size - f.offset) : Nat) : Int)) ↔
      fs.InsideCalls disk n.inode f.offset calls := by
  have hlength := size_inodeOf_lt disk fs n.inode
  induction calls generalizing f t with
  | nil =>
    refine iff_of_true ⟨[], f, t, rfl, fun k => ?_⟩
      ⟨fun c hc => absurd hc List.not_mem_nil, hoffset, .inl rfl⟩
    rw [List.take_nil, List.take_nil]
    simp [totalSize]
  | cons c calls ih =>
    obtain ⟨hpos, hsize, huser⟩ := hcalls c List.mem_cons_self
    have hrest := fun c hc => hcalls c (List.mem_cons_of_mem _ hc)
    rw [insideCalls_cons hpos]
    constructor
    · rintro ⟨results, f', t', hrun, hsum⟩
      obtain ⟨⟨count, f₁, t₁⟩, hread, hrun⟩ := Option.bind_eq_some_iff.1 hrun
      obtain ⟨⟨rest, f₂, t₂⟩, htail, heq⟩ := Option.map_eq_some_iff.1 hrun
      obtain ⟨rfl, -⟩ := Prod.mk.inj heq
      obtain ⟨hfound, hsound₁, hmoved⟩ :=
        found_of_readFile hgeo hsound (by omega) hsize huser hread
      have hone := hsum 1
      simp only [List.take_succ_cons, List.take_zero, List.sum_cons, List.sum_nil, totalSize_cons,
        totalSize_nil, Nat.add_zero, Int.add_zero] at hone
      obtain ⟨hsmall, hcount⟩ := lt_of_moved hsize hmoved (by omega)
      rw [Fs.File.moved_of_lt hsmall (by omega)] at hmoved
      obtain ⟨rfl, rfl⟩ := Prod.mk.inj hmoved
      refine ⟨hsmall, hfound, (ih (f := ⟨f.offset + c.size⟩) hsound₁
        (show f.offset + c.size ≤ _ by omega) hrest).1 ⟨rest, f₂, t₂, htail, fun k => ?_⟩⟩
      have hk := hsum (k + 1)
      simp only [List.take_succ_cons, List.sum_cons, totalSize_cons] at hk ⊢
      omega
    · rintro ⟨hsmall, hfirst, htail⟩
      have hend : f.offset + c.size ≤ (fs.inodeOf disk n.inode).size :=
        (Nat.le_add_right _ _).trans htail.inside
      obtain ⟨t₁, hread, hsound₁⟩ := hfirst.readFile hgeo hsound hsmall (by omega) huser
      obtain ⟨results, f', t', hrun, hsum⟩ :=
        (ih (f := ⟨f.offset + c.size⟩) hsound₁ hend hrest).2 htail
      refine ⟨(c.size : Int) :: results, f', t', ?_, fun k => ?_⟩
      · rw [Node.readFiles, hread, Option.bind_some, hrun]
        rfl
      · cases k with
        | zero => simp [totalSize]
        | succ k =>
          rw [List.take_succ_cons, List.take_succ_cons, List.sum_cons, totalSize_cons, hsum k]
          simp only
          omega

/-- Reads inside a file give its bytes, and no others do: neither those at the end of the
file nor, in general, those in a hole. -/
theorem read_stops_at_end (hgeo : fs.Geometry) {m₀ m₁ m : Mount} {dir : Node} {name : List UInt8}
    (hm₀ : m₀.Reached disk fs) (hfind : dir.finddir disk fs name m₀ = some (some n, m₁))
    (hm : m.Reached disk fs) :
    (∀ offset size user memory, offset < 4294967296 → size < 4294967296 →
      user + size ≤ 4294967296 →
      (n.StopsAtEnd disk fs offset size user ⟨m.st, memory, []⟩ ↔
        fs.Inside disk n.inode offset size)) ∧
    ∀ calls memory,
      (∀ c ∈ calls, 1 ≤ c.size ∧ c.size < 4294967296 ∧ c.user + c.size ≤ 4294967296) →
      (n.ReadsThrough disk fs calls ⟨m.st, memory, []⟩ ↔
        fs.InsideCalls disk n.inode 0 calls) := by
  have hlength : n.length = (fs.inodeOf disk n.inode).size := (hm₀.ok.finddir hfind).2 n rfl
  refine ⟨fun offset size user memory hoffset hsize huser => ?_, fun calls memory hcalls => ?_⟩
  · exact stopsAtEnd_iff hgeo hm.ok.sound hlength hoffset hsize huser
  · unfold Node.ReadsThrough
    rw [hlength]
    exact readFiles_iff hgeo (f := .make) (t := ⟨m.st, memory, []⟩) hm.ok.sound (Nat.zero_le _)
      hcalls

end

/-- Inode 2 is a directory with the file "f", inode 12, of 2048 bytes: block 21 and a hole. -/
def sparseDisk : Disk where
  image a :=
    if a = 0 then 0xEB
    else if a = 5249 then 0x40 else if a = 5253 then 4 else if a = 5276 then 2
    else if a = 5288 then 20
    else if a = 6529 then 0x80 else if a = 6533 then 8 else if a = 6556 then 2
    else if a = 6568 then 21
    else if a < 20480 then 0
    else [12, 0, 0, 0, 0, 4, 1, 1, 102].getD (a - 20480) 0
  behind _ _ := 0

def sparseDirectory : Node := ⟨[], 0, 0, 0, fsDirectory, 2, 0⟩

def sparseFile : Node := ⟨[102], 0, 0, 0, fsFile, 12, 2048⟩

theorem sparseDisk_finddir :
    ∃ m, sparseDirectory.finddir sparseDisk smallFs [102] {} = some (some sparseFile, m) := by
  have hfst : (sparseDirectory.finddir sparseDisk smallFs [102] {}).map (·.1) =
      some (some sparseFile) := by
    decide +kernel
  obtain ⟨⟨node, m⟩, hfind, rfl⟩ := Option.map_eq_some_iff.1 hfst
  exact ⟨m, hfind⟩

theorem sparseDisk_found {offset size : Nat} (hsize : 1 ≤ size) (hend : offset + size ≤ 1024) :
    smallFs.Found sparseDisk 12 offset size := by
  refine ⟨by decide, fun b hused => ⟨21, ?_⟩⟩
  have hlt : b * 1024 < offset + size := ((used_iff hsize).1 hused).2
  obtain rfl : b = 0 := by omega
  exact ((hole_direct (by decide)).2 21).2 (by decide +kernel)

/-- The 24 bytes at the end of the first block, and the first block in two calls. -/
theorem read_stops_at_end_block :
    sparseFile.StopsAtEnd sparseDisk smallFs 1000 24 0x8000 ⟨{}, fun _ => 0, []⟩ ∧
      sparseFile.ReadsThrough sparseDisk smallFs [⟨0x8000, 1000⟩, ⟨0x9000, 24⟩]
        ⟨{}, fun _ => 0, []⟩ := by
  obtain ⟨m, hfind⟩ := sparseDisk_finddir
  obtain ⟨hread, hreads⟩ :=
    read_stops_at_end smallFs_geometry (.init rfl) hfind (m := {}) (.init rfl)
  have hsize : (smallFs.inodeOf sparseDisk 12).size = 2048 := by decide +kernel
  constructor
  · refine (hread 1000 24 0x8000 _ (by decide) (by decide) (by decide)).2
      ⟨sparseDisk_found (by decide) (by decide), .inr (hsize ▸ by decide), fun i hi _ hnull => ?_,
        fun i hi hb => ?_⟩
    all_goals
      have hfirst : (1000 + i) / smallFs.bytesPerBlock = 0 :=
        Nat.div_eq_of_lt (show _ < 1024 by omega)
    · rw [hfirst] at hnull
      exact absurd hnull (by decide +kernel)
    · rw [hfirst] at hb
      exact absurd hb (by decide)
  · exact (hreads _ _ (by decide)).2
      ⟨by decide, hsize ▸ by decide, .inr (sparseDisk_found (by decide) (by decide))⟩

/-- Five bytes are read behind the end, and the hole reads as the start of block 0. -/
theorem read_passes_end :
    ∃ m, sparseDirectory.finddir sparseDisk smallFs [102] {} = some (some sparseFile, m) ∧
      (∃ t, sparseFile.read sparseDisk smallFs 2048 5 0x8000 ⟨m.st, fun _ => 0, []⟩ = some (5, t)) ∧
      ¬sparseFile.StopsAtEnd sparseDisk smallFs 2048 5 0x8000 ⟨m.st, fun _ => 0, []⟩ ∧
      smallFs.Hole sparseDisk (smallFs.inodeOf sparseDisk 12).toInode 1 ∧
      (∃ t, sparseFile.read sparseDisk smallFs 1024 1 0x8000 ⟨m.st, fun _ => 0, []⟩ = some (1, t) ∧
        t.memory 0x8000 = 0xEB) ∧
      ¬sparseFile.StopsAtEnd sparseDisk smallFs 1024 1 0x8000 ⟨m.st, fun _ => 0, []⟩ := by
  obtain ⟨m, hfind⟩ := sparseDisk_finddir
  have hreads : ((sparseDirectory.finddir sparseDisk smallFs [102] {}).bind fun r =>
      (sparseFile.read sparseDisk smallFs 2048 5 0x8000 ⟨r.2.st, fun _ => 0, []⟩).map (·.1)) =
        some 5 ∧
      ((sparseDirectory.finddir sparseDisk smallFs [102] {}).bind fun r =>
        (sparseFile.read sparseDisk smallFs 1024 1 0x8000 ⟨r.2.st, fun _ => 0, []⟩).map
          fun q => (q.1, q.2.memory 0x8000)) = some (1, 0xEB) := by
    decide +kernel
  have hhole : smallFs.Hole sparseDisk (smallFs.inodeOf sparseDisk 12).toInode 1 := by
    have hblock : (smallFs.inodeOf sparseDisk 12).blocks 1 = 0 := by decide +kernel
    exact fun id hmapped => hmapped.1 hblock
  rw [hfind, Option.bind_some, Option.bind_some] at hreads
  obtain ⟨⟨count₁, t₁⟩, hend, rfl⟩ := Option.map_eq_some_iff.1 hreads.1
  obtain ⟨⟨count₂, t₂⟩, hhole', heq⟩ := Option.map_eq_some_iff.1 hreads.2
  obtain ⟨rfl, hbyte⟩ := Prod.mk.inj heq
  refine ⟨m, hfind, ⟨t₁, hend⟩, ?_, hhole, ⟨t₂, hhole', hbyte⟩, ?_⟩
  · rintro ⟨t', hread, -⟩
    have hcount := (Prod.mk.inj (Option.some.inj (hread.symm.trans hend))).1
    exact absurd hcount (by decide)
  · rintro ⟨t', hread, hzero⟩
    obtain rfl := (Prod.mk.inj (Option.some.inj (hread.symm.trans hhole'))).2
    have hstored : t'.memory 0x8000 = 0 := hzero 0 (by decide) hhole
    rw [hstored] at hbyte
    cases hbyte

end Ext2

end Ulysses
