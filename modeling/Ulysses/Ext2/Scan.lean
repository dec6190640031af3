import Ulysses.Ext2.Directory

/-!
# Walking over a directory block

The loop of `Node::finddir` of `fs/ext2.cpp` on a block with any contents. It advances by
the `rec_len` that it finds and asks only whether the next entry begins inside the block. So
it does not end on an entry with a `rec_len` of 0, and it reads the rest of an entry that
begins at the end of the block from behind the buffer (`scan_leaves_block`). `scanned_iff`
says what the chain of `rec_len` has to be like for it to end and to stay inside.
-/

namespace Ulysses

open Lib

namespace Ext2

/-- How many bytes of its first argument `strncmp` reads. -/
def compared : List UInt8 → List UInt8 → Nat
  | x :: xs, y :: ys => if x = 0 ∨ x ≠ y then 1 else compared xs ys + 1
  | _, _ => 0

section

variable (data : Bytes) (fin : Nat) (name : List UInt8)

/-- How many bytes of the name of an entry are compared. -/
def comparedAt (off : Nat) : Nat :=
  compared ((List.range name.length).map (DirEntry.ofBytes data off).name) name

/-- Where `inode`, `rec_len` and `name_len` of an entry and the compared bytes of its name
lie. -/
def entryBytes (off : Nat) : List Nat :=
  (List.range 7).map (off + ·) ++ (List.range (comparedAt data name off)).map (off + 8 + ·)

/-- The entries that the loop of `finddir` examines. -/
def examined : Nat → Nat → List Nat
  | 0, _ => []
  | fuel + 1, off =>
    if off < fin then
      if (DirEntry.ofBytes data off).accepts name then [off]
      else off :: examined fuel (off + (DirEntry.ofBytes data off).recLen)
    else []

/-- The loop ends, and what it examines lies inside the block. -/
structure Scanned : Prop where
  ends : ∃ fuel, (findEntry data fin name fuel 0).isSome
  inside : ∀ fuel, ∀ off ∈ examined data fin name fuel 0, ∀ a ∈ entryBytes data name off, a < fin

/-- The places that the `rec_len`s lead to, from the beginning of the block on. -/
def chain : Nat → Nat
  | 0 => 0
  | i + 1 => chain i + data.read16 (chain i + 4)

/-- The first `i` places lie in the block, and no entry there begins with the name. -/
def Passed (i : Nat) : Prop :=
  ∀ j < i, chain data j < fin ∧ ¬(DirEntry.ofBytes data (chain data j)).Begins name

/-- Up to the end of the block or an entry that begins with the name: no `rec_len` is 0, the last
entry does not begin in the last six bytes, and where a name is cut off by the end of the block,
a byte before it is zero or not that of the given name. -/
structure ChainOk : Prop where
  moves : ∀ i, Passed data fin name (i + 1) → data.read16 (chain data i + 4) ≠ 0
  last : ∀ i, Passed data fin name i → chain data i < fin →
    (DirEntry.ofBytes data (chain data i)).Begins name ∨ fin ≤ chain data (i + 1) →
    chain data i + 7 ≤ fin
  name : ∀ i, Passed data fin name i → chain data i < fin →
    ∀ k < name.length, fin ≤ chain data i + 8 + k →
      ∃ j < k, data (chain data i + 8 + j) = 0 ∨ name[j]? ≠ some (data (chain data i + 8 + j))

end

section

variable {data : Bytes} {fin : Nat} {name : List UInt8} {off fuel i : Nat}

theorem lt_compared {xs ys : List UInt8} {k : Nat} (hlen : xs.length = ys.length) :
    k < compared xs ys ↔ k < ys.length ∧ ∀ j < k, xs[j]? ≠ some 0 ∧ xs[j]? = ys[j]? := by
  induction xs generalizing ys k with
  | nil =>
    obtain rfl := List.eq_nil_of_length_eq_zero hlen.symm
    simp [compared]
  | cons x xs ih =>
    cases ys with
    | nil => cases hlen
    | cons y ys =>
      have htail := fun k => ih (k := k) (Nat.succ.inj hlen)
      cases k with
      | zero =>
        unfold compared
        split <;> simp
      | succ k =>
        rw [compared, Nat.forall_lt_succ_left]
        by_cases hstop : x = 0 ∨ x ≠ y
        · rw [if_pos hstop]
          simp only [List.getElem?_cons_zero, ne_eq, Option.some.injEq]
          refine iff_of_false (by omega) fun h => ?_
          exact hstop.elim h.2.1.1 fun hne => hne h.2.1.2
        · obtain ⟨hx, hxy⟩ := not_or.1 hstop
          obtain rfl := not_not.1 hxy
          rw [if_neg hstop, Nat.succ_lt_succ_iff, htail, List.length_cons, Nat.succ_lt_succ_iff]
          simp [hx]

theorem entryBytes_lt_iff :
    (∀ a ∈ entryBytes data name off, a < fin) ↔
      off + 7 ≤ fin ∧ ∀ k < name.length, fin ≤ off + 8 + k →
        ∃ j < k, data (off + 8 + j) = 0 ∨ name[j]? ≠ some (data (off + 8 + j)) := by
  have hcompared : ∀ k, k < comparedAt data name off ↔ k < name.length ∧
      ∀ j < k, data (off + 8 + j) ≠ 0 ∧ name[j]? = some (data (off + 8 + j)) := by
    intro k
    rw [comparedAt, lt_compared (by simp)]
    refine and_congr_right fun hk => forall₂_congr fun j hj => ?_
    rw [List.getElem?_map, List.getElem?_range (hj.trans hk), Option.map_some,
      eq_comm (b := name[j]?)]
    simp [DirEntry.ofBytes]
  unfold entryBytes
  simp only [List.mem_append, List.mem_map, List.mem_range]
  constructor
  · intro h
    refine ⟨?_, fun k hk hle => ?_⟩
    · have hlast := h (off + 6) (.inl ⟨6, by omega, rfl⟩)
      omega
    · by_contra hnone
      have hlt := h (off + 8 + k) (.inr ⟨k, (hcompared k).2 ⟨hk, fun j hj => ?_⟩, rfl⟩)
      · omega
      · by_contra hj'
        rw [not_and_or, not_not] at hj'
        exact hnone ⟨j, hj, hj'⟩
  · rintro ⟨hheader, hname⟩ a (⟨k, hk, rfl⟩ | ⟨k, hk, rfl⟩)
    · omega
    · obtain ⟨hlen, hequal⟩ := (hcompared k).1 hk
      by_contra hge
      obtain ⟨j, hj, hzero | hne⟩ := hname k hlen (Nat.not_lt.1 hge)
      · exact (hequal j hj).1 hzero
      · exact hne (hequal j hj).2

/-! ## What is examined -/

theorem Passed.of_le {j : Nat} (h : Passed data fin name i) (hj : j ≤ i) :
    Passed data fin name j :=
  fun k hk => h k (hk.trans_le hj)

theorem Passed.succ (h : Passed data fin name i) (hlt : chain data i < fin)
    (hnot : ¬(DirEntry.ofBytes data (chain data i)).Begins name) : Passed data fin name (i + 1) :=
  Nat.forall_lt_succ_right.2 ⟨h, hlt, hnot⟩

/-- The loop examines the places of the chain that it passes, and the one behind them. -/
theorem mem_examined_iff (h : Passed data fin name i) :
    off ∈ examined data fin name fuel (chain data i) ↔
      ∃ j < fuel, Passed data fin name (i + j) ∧ chain data (i + j) < fin ∧
        off = chain data (i + j) := by
  induction fuel generalizing i with
  | zero => simp [examined]
  | succ fuel ih =>
    rw [examined]
    by_cases hlt : chain data i < fin
    · rw [if_pos hlt, Nat.exists_lt_succ_left]
      by_cases hbegins : (DirEntry.ofBytes data (chain data i)).Begins name
      · rw [if_pos (DirEntry.accepts_iff.2 hbegins), List.mem_singleton]
        have hstop : ∀ j, ¬Passed data fin name (i + (j + 1)) := fun j hj =>
          (hj i (by omega)).2 hbegins
        simp [h, hlt, hstop]
      · have hnext := ih (h.succ hlt hbegins)
        rw [if_neg fun hacc => hbegins (DirEntry.accepts_iff.1 hacc), List.mem_cons]
        refine or_congr (by simp [h, hlt]) (hnext.trans ?_)
        simp only [Nat.add_right_comm, Nat.add_assoc]
    · rw [if_neg hlt]
      refine iff_of_false List.not_mem_nil ?_
      rintro ⟨j, -, hpassed, hlt', -⟩
      cases j with
      | zero => exact hlt hlt'
      | succ j => exact hlt (hpassed i (by omega)).1

/-! ## When the loop ends -/

/-- An entry with a `rec_len` of 0 that is not accepted is looked at for ever. -/
theorem findEntry_stuck (hlt : off < fin) (hacc : (DirEntry.ofBytes data off).accepts name = false)
    (hzero : (DirEntry.ofBytes data off).recLen = 0) : findEntry data fin name fuel off = none := by
  induction fuel with
  | zero => rfl
  | succ fuel ih =>
    rw [findEntry, if_pos hlt, hacc, hzero]
    exact ih

theorem ends_of_passed (hends : ∃ fuel, (findEntry data fin name fuel 0).isSome)
    (h : Passed data fin name i) :
    ∃ fuel, (findEntry data fin name fuel (chain data i)).isSome := by
  induction i with
  | zero => exact hends
  | succ i ih =>
    obtain ⟨fuel, hfuel⟩ := ih (h.of_le (Nat.le_succ i))
    obtain ⟨hlt, hnot⟩ := h i (Nat.lt_succ_self i)
    cases fuel with
    | zero => cases hfuel
    | succ fuel =>
      rw [findEntry, if_pos hlt, if_neg fun hacc => hnot (DirEntry.accepts_iff.1 hacc)] at hfuel
      exact ⟨fuel, hfuel⟩

/-- Entries that lead on bring the loop to its end, as each is behind the one before. -/
theorem findEntry_ends
    (hmoves : ∀ i, Passed data fin name (i + 1) → data.read16 (chain data i + 4) ≠ 0)
    (h : Passed data fin name i) (hfuel : fin - chain data i < fuel) :
    (findEntry data fin name fuel (chain data i)).isSome := by
  induction fuel generalizing i with
  | zero => cases hfuel
  | succ fuel ih =>
    rw [findEntry]
    by_cases hlt : chain data i < fin
    · rw [if_pos hlt]
      by_cases hbegins : (DirEntry.ofBytes data (chain data i)).Begins name
      · rw [if_pos (DirEntry.accepts_iff.2 hbegins)]
        rfl
      · rw [if_neg fun hacc => hbegins (DirEntry.accepts_iff.1 hacc)]
        have hnext := h.succ hlt hbegins
        have hpos := hmoves i hnext
        refine ih hnext ?_
        rw [chain]
        omega
    · rw [if_neg hlt]
      rfl

theorem findEntry_ends_iff :
    (∃ fuel, (findEntry data fin name fuel 0).isSome) ↔
      ∀ i, Passed data fin name (i + 1) → data.read16 (chain data i + 4) ≠ 0 := by
  constructor
  · intro hends i hpassed hzero
    obtain ⟨hlt, hnot⟩ := hpassed i (Nat.lt_succ_self i)
    obtain ⟨fuel, hfuel⟩ := ends_of_passed hends (hpassed.of_le (Nat.le_succ i))
    rw [findEntry_stuck hlt (Bool.eq_false_iff.2 fun h => hnot (DirEntry.accepts_iff.1 h)) hzero]
      at hfuel
    cases hfuel
  · intro hmoves
    exact ⟨fin + 1, findEntry_ends (i := 0) hmoves (fun j hj => absurd hj (Nat.not_lt_zero j))
      (Nat.lt_succ_of_le (Nat.sub_le _ _))⟩

/-- The fuel that `finddir` has is enough for every walk that ends. -/
theorem findEntry_isSome_iff :
    (findEntry data fin name (fin + 1) 0).isSome ↔
      ∃ fuel, (findEntry data fin name fuel 0).isSome :=
  ⟨fun h => ⟨_, h⟩, fun hends => findEntry_ends (i := 0) (findEntry_ends_iff.1 hends)
    (fun j hj => absurd hj (Nat.not_lt_zero j)) (Nat.lt_succ_of_le (Nat.sub_le _ _))⟩

theorem ChainOk.header (h : ChainOk data fin name) (hpassed : Passed data fin name i)
    (hlt : chain data i < fin) : chain data i + 7 ≤ fin := by
  induction hn : fin - chain data i using Nat.strongRecOn generalizing i with | ind n ih => ?_
  by_cases hlast : (DirEntry.ofBytes data (chain data i)).Begins name ∨ fin ≤ chain data (i + 1)
  · exact h.last i hpassed hlt hlast
  · obtain ⟨hnot, hnext⟩ := not_or.1 hlast
    have hpassed' := hpassed.succ hlt hnot
    have hpos := h.moves i hpassed'
    have hstep : chain data (i + 1) = chain data i + data.read16 (chain data i + 4) := rfl
    have hheader := ih _ (by omega) hpassed' (Nat.not_le.1 hnext) rfl
    omega

end

/-- **Scans**: the loop of `finddir` ends and stays inside the block exactly when the chain of
its `rec_len`s is in order. -/
theorem scanned_iff (disk : Disk) (fs : FS) (id : Nat) (name : List UInt8) :
    Scanned (fs.blockData disk id) fs.bytesPerBlock name ↔
      ChainOk (fs.blockData disk id) fs.bytesPerBlock name := by
  generalize fs.blockData disk id = data, fs.bytesPerBlock = fin
  have hstart : Passed data fin name 0 := fun j hj => absurd hj (Nat.not_lt_zero j)
  constructor
  · intro h
    have hinside : ∀ i, Passed data fin name i → chain data i < fin →
        ∀ a ∈ entryBytes data name (chain data i), a < fin := fun i hpassed hlt =>
      h.inside (i + 1) _ ((mem_examined_iff hstart).2
        ⟨i, Nat.lt_succ_self i, by rwa [Nat.zero_add], by rwa [Nat.zero_add], by rw [Nat.zero_add]⟩)
    exact ⟨findEntry_ends_iff.1 h.ends,
      fun i hpassed hlt _ => (entryBytes_lt_iff.1 (hinside i hpassed hlt)).1,
      fun i hpassed hlt => (entryBytes_lt_iff.1 (hinside i hpassed hlt)).2⟩
  · intro h
    refine ⟨findEntry_ends_iff.2 h.moves, fun fuel off hmem => ?_⟩
    obtain ⟨i, -, hpassed, hlt, rfl⟩ := (mem_examined_iff hstart).1 hmem
    exact entryBytes_lt_iff.2 ⟨h.header hpassed hlt, h.name _ hpassed hlt⟩

/-- Every block has one entry in its first bytes, with the `rec_len`. -/
def singleEntryDisk (recLen : Nat) : Disk where
  image a :=
    if a % 1024 = 4 then UInt8.ofNat recLen
    else if a % 1024 = 5 then UInt8.ofNat (recLen / 256)
    else 0
  behind _ _ := 0

/-- On a block of zeros the walk does not end, and after a `rec_len` of 1020 an entry is
read whose `name_len` lies behind the block. -/
theorem scan_leaves_block :
    (∀ fuel, findEntry (smallFs.blockData (singleEntryDisk 0) 5) smallFs.bytesPerBlock [97]
      fuel 0 = none) ∧
    ¬Scanned (smallFs.blockData (singleEntryDisk 0) 5) smallFs.bytesPerBlock [97] ∧
    1020 ∈ examined (smallFs.blockData (singleEntryDisk 1020) 5) smallFs.bytesPerBlock [97] 2 0 ∧
    1026 ∈ entryBytes (smallFs.blockData (singleEntryDisk 1020) 5) [97] 1020 ∧
    smallFs.bytesPerBlock = 1024 := by
  have hstuck : ∀ fuel, findEntry (smallFs.blockData (singleEntryDisk 0) 5) smallFs.bytesPerBlock
      [97] fuel 0 = none :=
    fun fuel => findEntry_stuck (by decide +kernel) (by decide +kernel) (by decide +kernel)
  refine ⟨hstuck, fun h => ?_, by decide +kernel, by decide +kernel, rfl⟩
  obtain ⟨fuel, hfuel⟩ := h.ends
  rw [hstuck fuel] at hfuel
  cases hfuel

end Ext2

end Ulysses
