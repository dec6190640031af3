import Ulysses.Ext2.Cache

/-!
# From logical to physical blocks

The ext2 scheme maps a logical block through at most three tables of `n` block numbers
each (`schemePath`). `read_inode_block` agrees with it up to the first `n²` blocks of
the triple-indirect range. There it takes `block / n` as the index into the second table
and not its remainder by `n`, so from then on it reads behind the table
(`triple_indirect_outside`).
-/

namespace Ulysses

open Lib

namespace Ext2

/-! ## The scheme -/

/-- The entry of `blocks` and the table indices that ext2 has for a logical block. -/
def schemePath (n b : Nat) : Nat × List Nat :=
  if b < 12 then (b, [])
  else if b < 12 + n then (12, [b - 12])
  else if b < 12 + n + n ^ 2 then (13, [(b - 12 - n) / n, (b - 12 - n) % n])
  else
    let k := b - 12 - n - n ^ 2
    (14, [k / n ^ 2, k / n % n, k % n])

/-- The scheme maps the logical block `b` to the block `id`, with no zero on the way. -/
def Mapped (disk : Disk) (fs : FS) (obj : Inode) (b id : Nat) : Prop :=
  obj.blocks (schemePath fs.idsPerBlock b).1 ≠ 0 ∧
    fs.follow disk (obj.blocks (schemePath fs.idsPerBlock b).1)
      (schemePath fs.idsPerBlock b).2 = some id

/-- The indices that a walk from the block `id` passes to `index`. -/
def FS.walkIndices (disk : Disk) (fs : FS) : Nat → List Nat → List Nat
  | _, [] => []
  | id, i :: is =>
    let next := (disk.data (fs.blockRange id 1)).read32 (4 * i)
    i :: if next = 0 then [] else walkIndices disk fs next is

/-- The indices that a call of `read_inode_block` uses; one that finds its buffer in the
cache uses none. -/
def FS.usedIndices (disk : Disk) (fs : FS) (inode : Nat) (obj : Inode) (block : Nat)
    (st : State) : List Nat :=
  match st.blockCache.fetch pairOps (inode, block), fs.blockPath block with
  | none, some path => fs.walkIndices disk (obj.blocks path.1) path.2
  | _, _ => []

/-- After any calls, `read_inode_block` returns the buffer of the block `id` and stays in
its tables. -/
def ReadsBlock (disk : Disk) (fs : FS) (inodes : Nat → Inode) (inode b id : Nat) : Prop :=
  ∀ st, Reached disk fs inodes st →
    outcome (fs.readInodeBlock disk inode (inodes inode) b st) =
        some (some (some (fs.blockRange id 1))) ∧
      ∀ i ∈ fs.usedIndices disk inode (inodes inode) b st, i < fs.idsPerBlock

theorem mem_of_mem_walkIndices {disk : Disk} {fs : FS} {is : List Nat} {id i : Nat}
    (h : i ∈ fs.walkIndices disk id is) : i ∈ is := by
  induction is generalizing id with
  | nil => cases h
  | cons j is ih =>
    simp only [FS.walkIndices, List.mem_cons] at h
    rcases h with rfl | h
    · exact List.mem_cons_self
    · split at h
      · cases h
      · exact List.mem_cons_of_mem j (ih h)

/-! ## The path of the code -/

section

variable {fs : FS}

theorem FS.Geometry.ids_pow (h : fs.Geometry) : ∃ l ≤ 21, fs.idsPerBlock = 2 ^ (8 + l) := by
  obtain ⟨l, hl, hbytes⟩ := h.pow
  refine ⟨l, hl, ?_⟩
  rw [h.ids, hbytes, Nat.pow_add]
  omega

theorem FS.Geometry.ids_bounds (h : fs.Geometry) :
    256 ≤ fs.idsPerBlock ∧ fs.idsPerBlock < 4294967296 := by
  obtain ⟨l, hl, hids⟩ := h.ids_pow
  have hlow := Nat.pow_le_pow_right (n := 2) (by norm_num) (show 8 ≤ 8 + l by omega)
  have hhigh := Nat.pow_le_pow_right (n := 2) (by norm_num) (show 8 + l ≤ 29 by omega)
  rw [hids]
  omega

theorem FS.Geometry.ids_square_of_lt (h : fs.Geometry) (hlt : fs.idsPerBlock < 65536) :
    fs.idsPerSecondLevel = fs.idsPerBlock ^ 2 ∧ fs.idsPerBlock ^ 2 < 4294967296 := by
  have hsq : fs.idsPerBlock * fs.idsPerBlock < 65536 * 65536 := Nat.mul_lt_mul'' hlt hlt
  rw [h.ids_square, mul32_eq hsq, Nat.pow_two]
  exact ⟨rfl, hsq⟩

theorem FS.Geometry.ids_square_of_le (h : fs.Geometry) (hle : 65536 ≤ fs.idsPerBlock) :
    fs.idsPerSecondLevel = 0 := by
  obtain ⟨l, hl, hids⟩ := h.ids_pow
  have hl8 : 8 ≤ l := by
    by_contra hlt
    have := Nat.pow_le_pow_right (n := 2) (by norm_num) (show 8 + l ≤ 15 by omega)
    omega
  have hfactor : fs.idsPerBlock * fs.idsPerBlock = 4294967296 * 2 ^ (2 * l - 16) := by
    rw [hids, ← Nat.pow_add, show (4294967296 : Nat) = 2 ^ 32 by norm_num, ← Nat.pow_add]
    congr 1
    omega
  rw [h.ids_square, mul32, hfactor, Nat.mul_mod_right]

/-- Below the triple-indirect range the code follows the scheme. -/
theorem blockPath_of_lt (h : fs.Geometry) {b : Nat} (hb : b < 4294967296)
    (hlt : b < 12 + fs.idsPerBlock ∨
      fs.idsPerBlock < 65536 ∧ b < 12 + fs.idsPerBlock + fs.idsPerBlock ^ 2) :
    fs.blockPath b = some (schemePath fs.idsPerBlock b) := by
  have hbounds := h.ids_bounds
  unfold FS.blockPath schemePath numDirectBlocks indirectBlock doubleIndirectBlock
  by_cases h12 : b < 12
  · rw [if_pos h12, if_pos h12]
  simp only [if_neg h12, sub32_eq (show 12 ≤ b by omega) hb]
  by_cases hsingle : b < 12 + fs.idsPerBlock
  · rw [if_pos (by omega), if_pos hsingle]
  obtain ⟨hsmall, hdouble⟩ := hlt.resolve_left hsingle
  obtain ⟨hsq, -⟩ := h.ids_square_of_lt hsmall
  rw [if_neg (by omega), if_neg hsingle, if_pos hdouble,
    sub32_eq (show fs.idsPerBlock ≤ b - 12 by omega) (by omega), hsq, if_pos (by omega)]

/-- In the triple-indirect range it does not reduce the second index. -/
theorem blockPath_triple (h : fs.Geometry) {b : Nat} (hb : b < 4294967296)
    (hsmall : fs.idsPerBlock < 65536) (hle : 12 + fs.idsPerBlock + fs.idsPerBlock ^ 2 ≤ b) :
    fs.blockPath b = some (14,
      [(b - 12 - fs.idsPerBlock - fs.idsPerBlock ^ 2) / fs.idsPerBlock ^ 2,
        (b - 12 - fs.idsPerBlock - fs.idsPerBlock ^ 2) / fs.idsPerBlock,
        (b - 12 - fs.idsPerBlock - fs.idsPerBlock ^ 2) % fs.idsPerBlock]) := by
  have hbounds := h.ids_bounds
  obtain ⟨hsq, -⟩ := h.ids_square_of_lt hsmall
  have hpos : fs.idsPerBlock ^ 2 ≠ 0 := by
    have := Nat.pow_pos (n := 2) (show 0 < fs.idsPerBlock by omega)
    omega
  unfold FS.blockPath numDirectBlocks tripleIndirectBlock
  rw [if_neg (by omega)]
  simp only [sub32_eq (show 12 ≤ b by omega) hb]
  rw [if_neg (by omega)]
  simp only [sub32_eq (show fs.idsPerBlock ≤ b - 12 by omega) (by omega), hsq]
  rw [if_neg (by omega), if_neg hpos,
    sub32_eq (show fs.idsPerBlock ^ 2 ≤ b - 12 - fs.idsPerBlock by omega) (by omega)]

/-- With tables so large that their square does not fit in 32 bits, the code divides by
zero. -/
theorem blockPath_overflow (h : fs.Geometry) {b : Nat} (hb : b < 4294967296)
    (hlarge : 65536 ≤ fs.idsPerBlock) (hle : 12 + fs.idsPerBlock ≤ b) : fs.blockPath b = none := by
  have hzero := h.ids_square_of_le hlarge
  unfold FS.blockPath numDirectBlocks
  rw [if_neg (by omega)]
  simp only [sub32_eq (show 12 ≤ b by omega) hb]
  rw [if_neg (by omega), hzero, if_neg (by omega), if_pos rfl]

/-- The blocks for which the code follows the scheme. -/
def InReach (n b : Nat) : Prop := b < 12 + n ∨ n < 65536 ∧ b < 12 + n + 2 * n ^ 2

theorem blockPath_of_inReach (h : fs.Geometry) {b : Nat} (hb : b < 4294967296)
    (hreach : InReach fs.idsPerBlock b) :
    fs.blockPath b = some (schemePath fs.idsPerBlock b) := by
  by_cases hlow : b < 12 + fs.idsPerBlock ∨
      fs.idsPerBlock < 65536 ∧ b < 12 + fs.idsPerBlock + fs.idsPerBlock ^ 2
  · exact blockPath_of_lt h hb hlow
  obtain ⟨hsmall, hlt⟩ := hreach.resolve_left fun hs => hlow (.inl hs)
  have hle : 12 + fs.idsPerBlock + fs.idsPerBlock ^ 2 ≤ b := by
    by_contra hb'
    exact hlow (.inr ⟨hsmall, by omega⟩)
  rw [blockPath_triple h hb hsmall hle]
  unfold schemePath
  rw [if_neg (by omega), if_neg (by omega), if_neg (by omega)]
  have hk : b - 12 - fs.idsPerBlock - fs.idsPerBlock ^ 2 < fs.idsPerBlock * fs.idsPerBlock := by
    rw [← Nat.pow_two]
    omega
  simp only [Nat.mod_eq_of_lt (Nat.div_lt_of_lt_mul hk)]

theorem lt_of_mem_schemePath {n b i : Nat} (hn : 0 < n) (hb : b < 12 + n + n ^ 2 + n ^ 3)
    (hi : i ∈ (schemePath n b).2) : i < n := by
  unfold schemePath at hi
  split at hi
  · cases hi
  · split at hi
    · obtain rfl := List.mem_singleton.1 hi
      omega
    · split at hi
      · have hk : b - 12 - n < n * n := by
          rw [← Nat.pow_two]
          omega
        simp only [List.mem_cons, List.not_mem_nil, or_false] at hi
        rcases hi with rfl | rfl
        · exact Nat.div_lt_of_lt_mul hk
        · exact Nat.mod_lt _ hn
      · have hk : b - 12 - n - n ^ 2 < n ^ 2 * n := by
          have hcube : n ^ 3 = n ^ 2 * n := pow_succ n 2
          omega
        simp only [List.mem_cons, List.not_mem_nil, or_false] at hi
        rcases hi with rfl | rfl | rfl
        · exact Nat.div_lt_of_lt_mul hk
        · exact Nat.mod_lt _ hn
        · exact Nat.mod_lt _ hn

end

/-! ## The mapping -/

section

variable {disk : Disk} {fs : FS} {inodes : Nat → Inode} {inode b id : Nat}

theorem readsBlock_of_inReach (hgeo : fs.Geometry) (hb : b < 4294967296)
    (hmax : b < 12 + fs.idsPerBlock + fs.idsPerBlock ^ 2 + fs.idsPerBlock ^ 3)
    (hmap : Mapped disk fs (inodes inode) b id) (hreach : InReach fs.idsPerBlock b) :
    ReadsBlock disk fs inodes inode b id := by
  have hpath := blockPath_of_inReach hgeo hb hreach
  have hbounds := hgeo.ids_bounds
  intro st hst
  refine ⟨?_, fun i hi => ?_⟩
  · rw [hst.cached.outcome, FS.blockId, hpath, Option.map_some, hmap.2]
    rfl
  · unfold FS.usedIndices at hi
    rw [hpath] at hi
    split at hi
    · next path _ heq =>
      obtain rfl := Option.some.inj heq
      exact lt_of_mem_schemePath (by omega) hmax (mem_of_mem_walkIndices hi)
    · cases hi

/-- Past that the code leaves its tables, or it divides by zero. -/
theorem inReach_of_readsBlock (hgeo : fs.Geometry) (hb : b < 4294967296)
    (hmap : Mapped disk fs (inodes inode) b id) (h : ReadsBlock disk fs inodes inode b id) :
    InReach fs.idsPerBlock b := by
  obtain ⟨hout, hused⟩ := h {} (.init rfl)
  by_contra hnot
  unfold InReach at hnot
  have hbounds := hgeo.ids_bounds
  by_cases hlarge : 65536 ≤ fs.idsPerBlock
  · have hnone : fs.blockId disk (inodes inode) b = none := by
      rw [FS.blockId, blockPath_overflow hgeo hb hlarge (by omega)]
      rfl
    rw [cached_init.outcome, hnone] at hout
    cases hout
  · have hle : 12 + fs.idsPerBlock + 2 * fs.idsPerBlock ^ 2 ≤ b := by omega
    have hpath := blockPath_triple hgeo hb (by omega)
      (show 12 + fs.idsPerBlock + fs.idsPerBlock ^ 2 ≤ b by omega)
    -- the first table is read as the scheme says, so the second one is read
    obtain ⟨-, hfollow⟩ := hmap
    unfold schemePath at hfollow
    rw [if_neg (by omega), if_neg (by omega), if_neg (by omega)] at hfollow
    simp only [FS.follow] at hfollow
    split at hfollow
    · cases hfollow
    · next hne =>
      have hmem : (b - 12 - fs.idsPerBlock - fs.idsPerBlock ^ 2) / fs.idsPerBlock ∈
          fs.usedIndices disk inode (inodes inode) b {} := by
        have hfetch : (HashTable.empty : HashTable _ Nat).fetch pairOps (inode, b) = none := rfl
        simp only [FS.usedIndices, hfetch, hpath, FS.walkIndices, if_neg hne]
        exact List.mem_cons_of_mem _ List.mem_cons_self
      have hlt := hused _ hmem
      rw [Nat.div_lt_iff_lt_mul (by omega), ← Nat.pow_two] at hlt
      omega

/-- `read_inode_block` maps a logical block as ext2 does if and only if it lies below the
second `n²` blocks of the triple-indirect range. -/
theorem readInodeBlock_scheme (hgeo : fs.Geometry) (hb : b < 4294967296)
    (hmax : b < 12 + fs.idsPerBlock + fs.idsPerBlock ^ 2 + fs.idsPerBlock ^ 3)
    (hmap : Mapped disk fs (inodes inode) b id) :
    ReadsBlock disk fs inodes inode b id ↔ InReach fs.idsPerBlock b :=
  ⟨inReach_of_readsBlock hgeo hb hmap, readsBlock_of_inReach hgeo hb hmax hmap⟩

/-- The 14th block of a file, through the table of `tableDisk`. -/
theorem readInodeBlock_scheme_single :
    ReadsBlock tableDisk smallFs (fun _ => ⟨fun _ => 10⟩) 2 13 12 :=
  (readInodeBlock_scheme smallFs_geometry (by decide) (by decide)
    ⟨by decide, by decide +kernel⟩).2 (.inl (by decide))

/-- Tables at the blocks 10, 11 and 12 that lead to block 13, and a block number behind
the table at 11. -/
def tripleDisk : Disk where
  image a :=
    if a = 10244 then 11 else if a = 11264 then 12 else if a = 12288 then 13
    else if a = 14336 then 15 else 0
  behind range j := if range.start = 11 ∧ j = 1024 then 14 else 0

/-- The block 12 + 256 + 2 · 256² of a file: ext2 has block 13 for it. -/
theorem triple_indirect_outside :
    Mapped tripleDisk smallFs ⟨fun _ => 10⟩ 131340 13 ∧
      outcome (smallFs.readInodeBlock tripleDisk 2 ⟨fun _ => 10⟩ 131340 {}) =
        some (some (some (smallFs.blockRange 15 1))) ∧
      smallFs.usedIndices tripleDisk 2 ⟨fun _ => 10⟩ 131340 {} = [1, 256, 0] := by
  refine ⟨⟨by decide, by decide +kernel⟩, by decide +kernel, by decide +kernel⟩

end

end Ext2

end Ulysses
