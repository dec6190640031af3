import Mathlib.Data.List.InsertIdx
import Mathlib.Data.List.Infix
import Ulysses.Lib.Word
import Ulysses.OrderedArray

/-!
# The slots of an ordered array

`insert` and `remove` of `ordered_array.hpp` loop by loop, with every slot that they read or
write. They leave what `OrderedArray.insert` and `OrderedArray.remove` leave (`insert_eq`,
`remove_eq`), and they go as far as the slot at `size`, behind the last element. So an array
whose size stays below `max_size` stays inside its memory (`ordered_run`).
-/

namespace Ulysses

open Lib

/-- An array with the slots accessed so far, the last one first. `max_size` is a `u32`. -/
structure SlotArray (α : Type*) extends OrderedArray α where
  accessed : List Nat
  maxSize_lt : maxSize < 4294967296

namespace SlotArray

open OrderedArray (StrictWeak Sorted shiftUp shiftDown)

variable {α : Type*}

def read (i : Nat) (a : SlotArray α) : α × SlotArray α :=
  (a.array i, { a with accessed := i :: a.accessed })

def write (i : Nat) (item : α) (a : SlotArray α) : SlotArray α :=
  { a with array := Function.update a.array i item, accessed := i :: a.accessed }

/-- The first loop of `insert`. Without fuel there is no result. -/
def findLoop (lessThan : α → α → Bool) (item : α) :
    Nat → Nat → SlotArray α → Option (Nat × SlotArray α)
  | 0, _, _ => none
  | fuel + 1, iterator, a =>
    if iterator < a.size then
      let r := a.read iterator
      if lessThan r.1 item then findLoop lessThan item fuel (iterator + 1) r.2
      else some (iterator, r.2)
    else some (iterator, a)

/-- The second loop of `insert`. -/
def shiftLoop : Nat → Nat → α → SlotArray α → Option (SlotArray α)
  | 0, _, _, _ => none
  | fuel + 1, iterator, tmp, a =>
    if iterator < a.size then
      let iterator := iterator + 1
      let tmp2 := a.read iterator
      shiftLoop fuel iterator tmp2.1 (tmp2.2.write iterator tmp)
    else some a

def insert (lessThan : α → α → Bool) (item : α) (a : SlotArray α) : Option (SlotArray α) :=
  (findLoop lessThan item (a.size + 1) 0 a).bind fun (iterator, a) =>
    if iterator = a.size then
      let a := a.write a.size item
      some { a with size := add32 a.size 1 }
    else
      let tmp := a.read iterator
      (shiftLoop (a.size + 1) iterator tmp.1 (tmp.2.write iterator item)).map fun a =>
        { a with size := add32 a.size 1 }

/-- The loop of `remove`. -/
def removeLoop : Nat → Nat → SlotArray α → Option (SlotArray α)
  | 0, _, _ => none
  | fuel + 1, i, a =>
    if i < a.size then
      let r := a.read (i + 1)
      removeLoop fuel (i + 1) (r.2.write i r.1)
    else some a

def remove (i : Nat) (a : SlotArray α) : Option (SlotArray α) :=
  (removeLoop (a.size + 1) i a).map fun a => { a with size := sub32 a.size 1 }

/-! ## One call -/

/-- The slots accessed since `a` are below `n`. -/
def Within (n : Nat) (a a' : SlotArray α) : Prop := ∀ i ∈ a'.accessed, i ∈ a.accessed ∨ i < n

section

variable {lessThan : α → α → Bool} {item tmp : α} {a a' a'' : SlotArray α} {i n fuel : Nat}

theorem Within.refl (n : Nat) (a : SlotArray α) : Within n a a := by
  intro i hi
  exact .inl hi

theorem Within.trans (h : Within n a a') (h' : Within n a' a'') : Within n a a'' := by
  intro i hi
  rcases h' i hi with hi | hi
  · exact h i hi
  · exact .inr hi

theorem Within.mono {k : Nat} (h : Within n a a') (hle : n ≤ k) : Within k a a' := by
  intro i hi
  exact (h i hi).imp_right fun hlt => hlt.trans_le hle

theorem within_read (hi : i < n) (a : SlotArray α) : Within n a (a.read i).2 := by
  intro j hj
  rcases List.mem_cons.1 hj with rfl | hj
  · exact .inr hi
  · exact .inl hj

theorem within_write (hi : i < n) (item : α) (a : SlotArray α) : Within n a (a.write i item) := by
  intro j hj
  rcases List.mem_cons.1 hj with rfl | hj
  · exact .inr hi
  · exact .inl hj

theorem findLoop_eq (hi : i ≤ a.position lessThan item) (hfuel : a.size - i < fuel) :
    ∃ a', findLoop lessThan item fuel i a = some (a.position lessThan item, a') ∧
      a'.toOrderedArray = a.toOrderedArray ∧ Within a.size a a' := by
  have hle := a.position_le lessThan item
  induction fuel generalizing i a with
  | zero => exact absurd hfuel (Nat.not_lt_zero _)
  | succ fuel ih =>
    unfold findLoop
    rcases Nat.lt_or_eq_of_le hi with hlt | heq
    · have hsize : i < a.size := hlt.trans_le hle
      obtain ⟨a', hloop, hsame, hwithin⟩ :=
        ih (i := i + 1) (a := (a.read i).2) hlt (show a.size - (i + 1) < fuel by omega) hle
      refine ⟨a', ?_, hsame, (within_read hsize a).trans hwithin⟩
      rw [if_pos hsize]
      exact (if_pos (OrderedArray.lessThan_of_lt_position hlt)).trans hloop
    · by_cases hsize : i < a.size
      · refine ⟨(a.read i).2, ?_, rfl, within_read hsize a⟩
        have hstop : lessThan (a.array i) item = false := by
          rw [heq] at hsize ⊢
          exact OrderedArray.not_lessThan_position hsize
        rw [if_pos hsize, ← heq]
        exact if_neg (Bool.not_eq_true _ ▸ hstop)
      · refine ⟨a, ?_, rfl, .refl _ a⟩
        rw [if_neg hsize, heq]

theorem shiftLoop_eq (hi : i ≤ a.size) (hfuel : a.size - i < fuel) :
    ∃ a', shiftLoop fuel i tmp a = some a' ∧
      a'.toOrderedArray = { a.toOrderedArray with
        array := ((List.range' (i + 1) (a.size - i)).foldl shiftUp (a.array, tmp)).1 } ∧
      Within (a.size + 1) a a' := by
  induction fuel generalizing i tmp a with
  | zero => exact absurd hfuel (Nat.not_lt_zero _)
  | succ fuel ih =>
    unfold shiftLoop
    by_cases hlt : i < a.size
    · obtain ⟨a', hloop, harray, hwithin⟩ :=
        @ih (a.array (i + 1)) ((a.read (i + 1)).2.write (i + 1) tmp) (i + 1) hlt
          (show a.size - (i + 1) < fuel by omega)
      refine ⟨a', ?_, ?_, ?_⟩
      · rw [if_pos hlt]
        exact hloop
      · rw [harray, show a.size - i = a.size - (i + 1) + 1 by omega, List.range'_succ,
          List.foldl_cons]
        rfl
      · exact ((within_read (Nat.succ_lt_succ hlt) a).trans
          (within_write (Nat.succ_lt_succ hlt) tmp _)).trans hwithin
    · refine ⟨a, if_neg hlt, ?_, .refl _ a⟩
      rw [show a.size - i = 0 by omega]
      rfl

theorem insert_eq (hsize : a.size < a.maxSize) (lessThan : α → α → Bool) (item : α) :
    ∃ a', a.insert lessThan item = some a' ∧
      a'.toOrderedArray = a.toOrderedArray.insert lessThan item ∧ Within (a.size + 1) a a' := by
  have hmax := a.maxSize_lt
  have hle := a.position_le lessThan item
  have hsucc : add32 a.size 1 = a.size + 1 := add32_eq (by omega)
  obtain ⟨⟨b, accessed, hlt⟩, hfind, hsame, hwithin⟩ :=
    findLoop_eq (Nat.zero_le (a.position lessThan item)) (Nat.lt_succ_self a.size)
  obtain rfl : b = a.toOrderedArray := hsame
  have hwithin := hwithin.mono (Nat.le_succ a.size)
  unfold insert OrderedArray.insert
  rw [hfind, Option.bind_some]
  by_cases hend : a.position lessThan item = a.size
  · simp only [if_pos hend]
    refine ⟨_, rfl, ?_, hwithin.trans (within_write (Nat.lt_succ_self a.size) item _)⟩
    simp only [write, hsucc]
  · have hpos : a.position lessThan item < a.size + 1 := by omega
    simp only [if_neg hend]
    obtain ⟨a', hshift, harray, hwithin'⟩ :=
      @shiftLoop_eq α (a.array (a.position lessThan item))
        (((⟨a.toOrderedArray, accessed, hlt⟩ : SlotArray α).read
          (a.position lessThan item)).2.write (a.position lessThan item) item) _ _ hle
        (show a.size - a.position lessThan item < a.size + 1 by omega)
    refine ⟨{ a' with size := add32 a'.size 1 }, ?_, ?_, ?_⟩
    · exact congrArg (Option.map _) hshift
    · simp only [harray, read, write, hsucc]
    · exact ((hwithin.trans (within_read hpos _)).trans (within_write hpos item _)).trans hwithin'

theorem removeLoop_eq (hfuel : a.size - i < fuel) :
    ∃ a', removeLoop fuel i a = some a' ∧
      a'.toOrderedArray = { a.toOrderedArray with
        array := (List.range' i (a.size - i)).foldl shiftDown a.array } ∧
      Within (a.size + 1) a a' := by
  induction fuel generalizing i a with
  | zero => exact absurd hfuel (Nat.not_lt_zero _)
  | succ fuel ih =>
    unfold removeLoop
    by_cases hlt : i < a.size
    · obtain ⟨a', hloop, harray, hwithin⟩ :=
        ih (i := i + 1) (a := (a.read (i + 1)).2.write i (a.array (i + 1)))
          (by show a.size - (i + 1) < fuel; omega)
      refine ⟨a', ?_, ?_, ?_⟩
      · rw [if_pos hlt]
        exact hloop
      · rw [harray, show a.size - i = a.size - (i + 1) + 1 by omega, List.range'_succ,
          List.foldl_cons]
        rfl
      · exact ((within_read (Nat.succ_lt_succ hlt) a).trans
          (within_write (Nat.lt_succ_of_lt hlt) _ _)).trans hwithin
    · refine ⟨a, if_neg hlt, ?_, .refl _ a⟩
      rw [show a.size - i = 0 by omega]
      rfl

/-- `remove` of the slots is that of the array, except for the size of an empty one. -/
theorem remove_eq (a : SlotArray α) (i : Nat) :
    ∃ a', a.remove i = some a' ∧
      a'.toOrderedArray = { a.toOrderedArray.remove i with size := sub32 a.size 1 } ∧
      Within (a.size + 1) a a' := by
  obtain ⟨a', hloop, harray, hwithin⟩ :=
    removeLoop_eq (i := i) (show a.size - i < a.size + 1 by omega)
  refine ⟨{ a' with size := sub32 a'.size 1 }, ?_, ?_, ?_⟩
  · exact congrArg (Option.map _) hloop
  · simp only [harray, OrderedArray.remove]
  · intro j hj
    exact hwithin j hj

theorem remove_eq_of_pos (hpos : 0 < a.size) (hsize : a.size < a.maxSize) (i : Nat) :
    ∃ a', a.remove i = some a' ∧ a'.toOrderedArray = a.toOrderedArray.remove i ∧
      Within (a.size + 1) a a' := by
  obtain ⟨a', hremove, harray, hwithin⟩ := a.remove_eq i
  rw [sub32_eq hpos (hsize.trans a.maxSize_lt)] at harray
  exact ⟨a', hremove, harray, hwithin⟩

end

/-! ## Runs -/

inductive Op (α : Type*)
  | insert (item : α)
  | remove (i : Nat)

/-- An array without elements, whatever its memory holds. -/
def empty (array : Nat → α) (maxSize : Nat) (h : maxSize < 4294967296) : SlotArray α :=
  ⟨⟨array, 0, maxSize⟩, [], h⟩

def step (lessThan : α → α → Bool) (a : SlotArray α) : Op α → Option (SlotArray α)
  | .insert item => a.insert lessThan item
  | .remove i => a.remove i

/-- The array after a call of `insert`. -/
structure Inserted (lessThan : α → α → Bool) (item : α) (a a' : SlotArray α) : Prop where
  perm : a'.toList.Perm (item :: a.toList)
  order : a.toList.Sublist a'.toList
  sorted : Sorted lessThan a.toList → Sorted lessThan a'.toList
  inside : Within a.maxSize a a'

/-- The array after a call of `remove`. -/
structure Removed (lessThan : α → α → Bool) (i : Nat) (a a' : SlotArray α) : Prop where
  others : a'.toList = a.toList.eraseIdx i
  sorted : Sorted lessThan a.toList → Sorted lessThan a'.toList
  inside : Within a.maxSize a a'

/-- What the calls keep. -/
structure Ordered (lessThan : α → α → Bool) (a : SlotArray α) : Prop where
  sorted : Sorted lessThan a.toList
  inside : ∀ i ∈ a.accessed, i < a.maxSize

section

variable {lessThan : α → α → Bool} {a a' : SlotArray α}

theorem inserted (hless : StrictWeak lessThan) (hsize : a.size < a.maxSize) (item : α) :
    ∃ a', a.insert lessThan item = some a' ∧ a'.maxSize = a.maxSize ∧
      Inserted lessThan item a a' := by
  obtain ⟨a', hinsert, harray, hwithin⟩ := insert_eq hsize lessThan item
  refine ⟨a', hinsert, ?_, ?_, ?_, ?_, hwithin.mono hsize⟩
  · rw [harray, OrderedArray.insert_maxSize]
  · rw [harray]
    exact OrderedArray.toList_insert_perm lessThan item _
  · rw [harray, OrderedArray.toList_insert]
    exact List.sublist_insertIdx _ _ _
  · intro hsorted
    rw [harray]
    exact OrderedArray.sorted_insert hless hsorted item

theorem removed (hpos : 0 < a.size) (hsize : a.size < a.maxSize) (i : Nat) :
    ∃ a', a.remove i = some a' ∧ a'.toOrderedArray = a.toOrderedArray.remove i ∧
      (Sorted lessThan a.toList → Sorted lessThan a'.toList) ∧ Within a.maxSize a a' := by
  obtain ⟨a', hremove, harray, hwithin⟩ := remove_eq_of_pos hpos hsize i
  refine ⟨a', hremove, harray, ?_, hwithin.mono hsize⟩
  intro hsorted
  rw [harray]
  exact List.Pairwise.sublist (a.toList_remove_sublist i) hsorted

theorem Ordered.within (h : Ordered lessThan a) (hmax : a'.maxSize = a.maxSize)
    (hsorted : Sorted lessThan a.toList → Sorted lessThan a'.toList)
    (hwithin : Within a.maxSize a a') : Ordered lessThan a' := by
  refine ⟨hsorted h.sorted, ?_⟩
  intro i hi
  rw [hmax]
  exact (hwithin i hi).elim (h.inside i) id

theorem Ordered.step (hless : StrictWeak lessThan) (h : Ordered lessThan a)
    (hsize : a.size < a.maxSize) (op : Op α)
    (hafter : ∀ a', a.step lessThan op = some a' → a'.size < a.maxSize) :
    ∃ a', a.step lessThan op = some a' ∧ a'.maxSize = a.maxSize ∧ Ordered lessThan a' := by
  cases op with
  | insert item =>
    obtain ⟨a', hinsert, hmax, hins⟩ := inserted hless hsize item
    exact ⟨a', hinsert, hmax, h.within hmax hins.sorted hins.inside⟩
  | remove i =>
    rcases Nat.eq_zero_or_pos a.size with hzero | hpos
    · -- the size of an empty array wraps
      obtain ⟨a', hremove, harray, -⟩ := a.remove_eq i
      have hwrap : a'.size = 4294967295 := by
        rw [harray, hzero]
        rfl
      have hlt := hafter a' hremove
      have hmax := a.maxSize_lt
      omega
    · obtain ⟨a', hremove, harray, hsorted, hwithin⟩ := removed hpos hsize i
      have hmax : a'.maxSize = a.maxSize := by
        rw [harray]
        rfl
      exact ⟨a', hremove, hmax, h.within hmax hsorted hwithin⟩

theorem Ordered.run (hless : StrictWeak lessThan) (h : Ordered lessThan a) {ops : List (Op α)}
    (hsize : ∀ done a', done <+: ops → done.foldlM (SlotArray.step lessThan) a = some a' →
      a'.size < a.maxSize) :
    ∃ a', ops.foldlM (SlotArray.step lessThan) a = some a' ∧ a'.maxSize = a.maxSize ∧
      Ordered lessThan a' := by
  induction ops generalizing a with
  | nil => exact ⟨a, rfl, rfl, h⟩
  | cons op ops ih =>
    have hbefore : a.size < a.maxSize := hsize [] a List.nil_prefix rfl
    have hafter : ∀ a', a.step lessThan op = some a' → a'.size < a.maxSize := by
      intro a' hstep
      refine hsize [op] a' (List.prefix_append [op] ops) ?_
      rw [List.foldlM_cons, hstep]
      rfl
    obtain ⟨a₁, hstep, hmax, hordered⟩ := h.step hless hbefore op hafter
    have hrest : ∀ done a', done <+: ops → done.foldlM (SlotArray.step lessThan) a₁ = some a' →
        a'.size < a₁.maxSize := by
      intro done a' hdone hrun
      rw [hmax]
      refine hsize (op :: done) a' ((List.prefix_cons_inj op).2 hdone) ?_
      rw [List.foldlM_cons, hstep]
      exact hrun
    obtain ⟨a', hrun, hmax', hordered'⟩ := ih hordered hrest
    refine ⟨a', ?_, hmax'.trans hmax, hordered'⟩
    rw [List.foldlM_cons, hstep]
    exact hrun

end

/-- **Ordered arrays**: by a sorter that orders the elements, `insert` and `remove` do what
they should and keep the array sorted, and any calls on an array that was empty stay inside
its memory while its size is below `max_size`. -/
theorem ordered_run {lessThan : α → α → Bool} (hless : StrictWeak lessThan) :
    (∀ (a : SlotArray α) (item : α), a.size < a.maxSize →
      ∃ a', a.insert lessThan item = some a' ∧ Inserted lessThan item a a') ∧
    (∀ (a : SlotArray α) (i : Nat), i < a.size → a.size < a.maxSize →
      ∃ a', a.remove i = some a' ∧ Removed lessThan i a a') ∧
    ∀ (array : Nat → α) (maxSize : Nat) (h : maxSize < 4294967296) (ops : List (Op α)),
      (∀ done a, done <+: ops →
        done.foldlM (step lessThan) (empty array maxSize h) = some a → a.size < maxSize) →
      ∃ a, ops.foldlM (step lessThan) (empty array maxSize h) = some a ∧
        Sorted lessThan a.toList ∧ ∀ i ∈ a.accessed, i < maxSize := by
  refine ⟨?_, ?_, ?_⟩
  · intro a item hsize
    obtain ⟨a', hinsert, -, hins⟩ := inserted hless hsize item
    exact ⟨a', hinsert, hins⟩
  · intro a i hi hsize
    obtain ⟨a', hremove, harray, hsorted, hwithin⟩ :=
      removed (Nat.zero_lt_of_lt hi) hsize i
    refine ⟨a', hremove, ?_, hsorted, hwithin⟩
    rw [harray]
    exact OrderedArray.toList_remove hi
  · intro array maxSize h ops hsize
    have hempty : Ordered lessThan (empty array maxSize h) := ⟨.nil, nofun⟩
    obtain ⟨a, hrun, hmax, hordered⟩ := hempty.run hless hsize
    refine ⟨a, hrun, hordered.sorted, ?_⟩
    intro i hi
    have hlt := hordered.inside i hi
    rwa [hmax] at hlt

/-- Two blocks of sizes 5 and 3. -/
theorem ordered_run_two :
    StrictWeak (fun x y : Nat => decide (x < y)) ∧
    ∃ a, [Op.insert 5, Op.insert 3].foldlM (step fun x y : Nat => decide (x < y))
        (empty (fun _ => 0) 4 (by decide)) = some a ∧
      Sorted (fun x y : Nat => decide (x < y)) a.toList ∧ ∀ i ∈ a.accessed, i < 4 := by
  have hless : StrictWeak (fun x y : Nat => decide (x < y)) := OrderedArray.strictWeak_key id
  refine ⟨hless, (ordered_run hless).2.2 (fun _ => 0) 4 (by decide) _ ?_⟩
  intro done a hdone hrun
  have hinits : done ∈ [[], [Op.insert 5], [Op.insert 5, Op.insert 3]] :=
    (List.mem_inits done _).2 hdone
  simp only [List.mem_cons, List.not_mem_nil, or_false] at hinits
  rcases hinits with rfl | rfl | rfl <;> cases hrun <;> decide

end SlotArray

end Ulysses
