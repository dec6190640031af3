import Mathlib.Data.List.Nodup
import Mathlib.Logic.Function.Basic

/-!
# Ordered arrays

`ordered_array.hpp`: an array with its size, kept in the order of
`sorter::less_than`. `insert` shifts the elements from the place of the new one
up by one, carrying one element in `tmp`; `remove` shifts down. The array is
memory of its own with room for `max_size` elements, which the code does not
check; the callers' conditions do.

On the elements below `size` the two are list operations: `insert` puts the item
in front of the first element that is not less (`toList_insert`), and `remove`
drops the element at its index (`toList_remove`).
-/

namespace Ulysses

structure OrderedArray (α : Type*) where
  array : Nat → α
  size : Nat
  maxSize : Nat

namespace OrderedArray

variable {α : Type*}

/-- Where the first loop of `insert` stops. -/
def position (lessThan : α → α → Bool) (item : α) (a : OrderedArray α) : Nat :=
  ((List.range a.size).find? fun i => !lessThan (a.array i) item).getD a.size

/-- One turn of the second loop of `insert`, on the array and `tmp`. -/
def shiftUp (st : (Nat → α) × α) (iterator : Nat) : (Nat → α) × α :=
  (Function.update st.1 iterator st.2, st.1 iterator)

def insert (lessThan : α → α → Bool) (item : α) (a : OrderedArray α) : OrderedArray α :=
  let iterator := a.position lessThan item
  if iterator = a.size then
    { a with array := Function.update a.array a.size item, size := a.size + 1 }
  else
    let tmp := a.array iterator
    let st := (List.range' (iterator + 1) (a.size - iterator)).foldl shiftUp
      (Function.update a.array iterator item, tmp)
    { a with array := st.1, size := a.size + 1 }

/-- `lookup`; a failed assertion is `none`. -/
def lookup (i : Nat) (a : OrderedArray α) : Option α :=
  if i < a.size then some (a.array i) else none

/-- One turn of the loop of `remove`. -/
def shiftDown (array : Nat → α) (i : Nat) : Nat → α :=
  Function.update array i (array (i + 1))

def remove (i : Nat) (a : OrderedArray α) : OrderedArray α :=
  { a with
    array := (List.range' i (a.size - i)).foldl shiftDown a.array
    size := a.size - 1 }

/-- The elements in order. -/
def toList (a : OrderedArray α) : List α := (List.range a.size).map a.array

variable {a : OrderedArray α} {lessThan : α → α → Bool}

theorem mem_toList {x : α} : x ∈ a.toList ↔ ∃ i, i < a.size ∧ a.array i = x := by
  simp [toList]

theorem lookup_eq_some {i : Nat} {x : α} : a.lookup i = some x ↔ i < a.size ∧ a.array i = x := by
  unfold lookup
  split
  · next h => simp [h]
  · next h => simp [h]

/-! ## The two loops -/

theorem foldl_shiftUp (array : Nat → α) (tmp : α) (p n : Nat) :
    (List.range' (p + 1) n).foldl shiftUp (array, tmp) =
      (fun j => if j = p + 1 ∧ 0 < n then tmp else
          if p + 1 < j ∧ j < p + 1 + n then array (j - 1) else array j,
        if n = 0 then tmp else array (p + n)) := by
  induction n with
  | zero =>
    refine Prod.ext (funext fun j => ?_) rfl
    simp only [Nat.lt_irrefl, and_false, if_false]
    rw [if_neg (by omega)]
    rfl
  | succ n ih =>
    rw [List.range'_concat, List.foldl_append, ih]
    simp only [List.foldl_cons, List.foldl_nil, shiftUp, Nat.one_mul]
    refine Prod.ext (funext fun j => ?_) ?_
    · simp only
      by_cases hj : j = p + 1 + n
      · subst hj
        rw [Function.update_self]
        by_cases hn : n = 0
        · simp [hn]
        · rw [if_neg hn, if_neg (by omega), if_pos (by omega)]
          congr 1
          omega
      · rw [Function.update_of_ne hj]
        by_cases h₁ : j = p + 1
        · rw [if_pos (by omega), if_pos (by omega)]
        · simp only [h₁, false_and, if_false]
          by_cases h₂ : p + 1 < j ∧ j < p + 1 + n
          · rw [if_pos h₂, if_pos (by omega)]
          · rw [if_neg h₂, if_neg (by omega)]
    · simp only
      rw [if_neg (by omega), if_neg (by omega), if_neg (by omega)]
      congr 1
      omega

theorem foldl_shiftDown (array : Nat → α) (i n : Nat) :
    (List.range' i n).foldl shiftDown array =
      fun j => if i ≤ j ∧ j < i + n then array (j + 1) else array j := by
  induction n with
  | zero =>
    funext j
    rw [if_neg (by omega)]
    rfl
  | succ n ih =>
    rw [List.range'_concat, List.foldl_append, ih]
    simp only [List.foldl_cons, List.foldl_nil, shiftDown, Nat.one_mul]
    funext j
    by_cases hj : j = i + n
    · subst hj
      rw [Function.update_self, if_neg (by omega), if_pos (by omega)]
    · rw [Function.update_of_ne hj]
      by_cases h : i ≤ j ∧ j < i + n
      · rw [if_pos h, if_pos (by omega)]
      · rw [if_neg h, if_neg (by omega)]

/-! ## As lists -/

theorem position_le (lessThan : α → α → Bool) (item : α) (a : OrderedArray α) :
    a.position lessThan item ≤ a.size := by
  unfold position
  cases h : (List.range a.size).find? fun i => !lessThan (a.array i) item with
  | none => exact Nat.le_refl _
  | some i => exact Nat.le_of_lt (List.mem_range.1 (List.mem_of_find?_eq_some h))

/-- Either way `insert` puts the item at `position` and moves the rest up. -/
theorem insert_apply (lessThan : α → α → Bool) (item : α) (a : OrderedArray α) {j : Nat}
    (hj : j < a.size + 1) :
    (a.insert lessThan item).array j =
      if j < a.position lessThan item then a.array j
      else if j = a.position lessThan item then item else a.array (j - 1) := by
  have hle := a.position_le lessThan item
  unfold insert
  simp only
  split
  · next heq =>
    rw [heq]
    by_cases h : j = a.size
    · simp [h]
    · simp only
      rw [Function.update_of_ne h, if_pos (by omega)]
  · next hne =>
    rw [foldl_shiftUp]
    simp only
    by_cases h₁ : j < a.position lessThan item
    · rw [if_neg (by omega), if_neg (by omega), Function.update_of_ne (by omega), if_pos h₁]
    · rw [if_neg h₁]
      by_cases h₂ : j = a.position lessThan item
      · rw [if_pos h₂, if_neg (by omega), if_neg (by omega), h₂, Function.update_self]
      · rw [if_neg h₂]
        by_cases h₃ : j = a.position lessThan item + 1
        · rw [if_pos (by omega), h₃, Nat.add_sub_cancel]
        · rw [if_neg (by omega), if_pos (by omega), Function.update_of_ne (by omega)]

@[simp] theorem insert_size (lessThan : α → α → Bool) (item : α) (a : OrderedArray α) :
    (a.insert lessThan item).size = a.size + 1 := by
  unfold insert
  simp only
  split <;> rfl

@[simp] theorem insert_maxSize (lessThan : α → α → Bool) (item : α) (a : OrderedArray α) :
    (a.insert lessThan item).maxSize = a.maxSize := by
  unfold insert
  simp only
  split <;> rfl

theorem toList_insert (lessThan : α → α → Bool) (item : α) (a : OrderedArray α) :
    (a.insert lessThan item).toList = a.toList.insertIdx (a.position lessThan item) item := by
  have hle := a.position_le lessThan item
  have hlen : a.toList.length = a.size := by simp [toList]
  apply List.ext_getElem
  · rw [List.length_insertIdx_of_le_length (by rw [hlen]; exact hle)]
    simp [toList]
  · intro j h₁ h₂
    have hj : j < a.size + 1 := by simpa [toList] using h₁
    rw [List.getElem_insertIdx]
    simp only [toList, List.getElem_map, List.getElem_range]
    rw [insert_apply lessThan item a hj]
    split
    · rfl
    · split <;> rfl

theorem toList_remove {i : Nat} (hi : i < a.size) : (a.remove i).toList = a.toList.eraseIdx i := by
  have hlen : a.toList.length = a.size := by simp [toList]
  apply List.ext_getElem
  · rw [List.length_eraseIdx_of_lt (by rw [hlen]; exact hi)]
    simp [toList, remove]
  · intro j h₁ h₂
    have hj : j < a.size - 1 := by simpa [toList, remove] using h₁
    rw [List.getElem_eraseIdx]
    simp only [toList, remove, List.getElem_map, List.getElem_range, foldl_shiftDown]
    by_cases h : j < i
    · rw [if_neg (by omega), dif_pos h]
    · rw [if_pos (by omega), dif_neg h]

theorem toList_insert_perm (lessThan : α → α → Bool) (item : α) (a : OrderedArray α) :
    (a.insert lessThan item).toList.Perm (item :: a.toList) := by
  rw [toList_insert]
  refine List.perm_insertIdx item a.toList ?_
  have hlen : a.toList.length = a.size := by simp [toList]
  rw [hlen]
  exact a.position_le lessThan item

theorem mem_toList_insert {item : α} {x : α} :
    x ∈ (a.insert lessThan item).toList ↔ x = item ∨ x ∈ a.toList := by
  rw [(toList_insert_perm lessThan item a).mem_iff, List.mem_cons]

theorem nodup_toList_insert {item : α} :
    (a.insert lessThan item).toList.Nodup ↔ item ∉ a.toList ∧ a.toList.Nodup := by
  rw [(toList_insert_perm lessThan item a).nodup_iff, List.nodup_cons]

theorem nodup_toList_remove {i : Nat} (hi : i < a.size) (h : a.toList.Nodup) :
    (a.remove i).toList.Nodup := by
  rw [toList_remove hi]
  exact h.sublist (List.eraseIdx_sublist _ _)

/-- Elements that occur once are gone after they are removed. -/
theorem mem_toList_remove {i : Nat} (hi : i < a.size) (h : a.toList.Nodup) {x : α} :
    x ∈ (a.remove i).toList ↔ x ∈ a.toList ∧ x ≠ a.array i := by
  have hlen : a.toList.length = a.size := by simp [toList]
  have hget : ∀ j (hj : j < a.toList.length), a.toList[j] = a.array j := by simp [toList]
  rw [toList_remove hi, List.mem_eraseIdx_iff_getElem]
  constructor
  · rintro ⟨j, hj, hne, rfl⟩
    refine ⟨List.getElem_mem hj, fun heq => hne ?_⟩
    rw [← hget i (by omega)] at heq
    exact (h.getElem_inj_iff).1 heq
  · rintro ⟨hx, hne⟩
    obtain ⟨j, hj, rfl⟩ := List.getElem_of_mem hx
    refine ⟨j, hj, fun heq => hne ?_, rfl⟩
    rw [hget j hj, heq]

/-! ## Order -/

theorem pairwise_toList {R : α → α → Prop} :
    a.toList.Pairwise R ↔ ∀ i j, i < j → j < a.size → R (a.array i) (a.array j) := by
  rw [List.pairwise_iff_getElem]
  simp only [toList, List.length_map, List.length_range, List.getElem_map, List.getElem_range]
  exact ⟨fun h i j hij hj => h i j (by omega) hj hij, fun h i j _ hj hij => h i j hij hj⟩

theorem lessThan_of_lt_position {item : α} {i : Nat} (h : i < a.position lessThan item) :
    lessThan (a.array i) item = true := by
  have hi : i < a.size := Nat.lt_of_lt_of_le h (a.position_le lessThan item)
  unfold position at h
  cases hfind : (List.range a.size).find? fun i => !lessThan (a.array i) item with
  | none => simpa using List.find?_eq_none.1 hfind i (List.mem_range.2 hi)
  | some j =>
    rw [hfind] at h
    simpa using (List.find?_range_eq_some.1 hfind).2.2 i h

theorem not_lessThan_position {item : α} (h : a.position lessThan item < a.size) :
    lessThan (a.array (a.position lessThan item)) item = false := by
  unfold position at h ⊢
  cases hfind : (List.range a.size).find? fun i => !lessThan (a.array i) item with
  | none =>
    rw [hfind] at h
    exact absurd h (Nat.lt_irrefl _)
  | some j => simpa using List.find?_some hfind

/-- What a sorter has to be for its arrays to be sorted. -/
structure StrictWeak (lessThan : α → α → Bool) : Prop where
  asymm : ∀ x y, lessThan x y = true → lessThan y x = false
  trans : ∀ x y z, lessThan x y = false → lessThan y z = false → lessThan x z = false

/-- No element is less than one in front of it. -/
def Sorted (lessThan : α → α → Bool) (xs : List α) : Prop :=
  xs.Pairwise fun x y => lessThan y x = false

theorem strictWeak_key (key : α → Nat) : StrictWeak fun x y => decide (key x < key y) := by
  constructor
  · intro x y h
    exact decide_eq_false (Nat.not_lt_of_gt (of_decide_eq_true h))
  · intro x y z hxy hyz
    simp only [decide_eq_false_iff_not, Nat.not_lt] at hxy hyz ⊢
    exact Nat.le_trans hyz hxy

theorem sorted_insert (hless : StrictWeak lessThan) (h : Sorted lessThan a.toList) (item : α) :
    Sorted lessThan (a.insert lessThan item).toList := by
  unfold Sorted at h ⊢
  rw [pairwise_toList] at h ⊢
  have hlow := fun i => @lessThan_of_lt_position α a lessThan item i
  have hhigh := @not_lessThan_position α a lessThan item
  have hle := a.position_le lessThan item
  intro i j hij hj
  rw [insert_size] at hj
  have hi : i < a.size + 1 := by omega
  rw [insert_apply _ item a hi, insert_apply _ item a hj]
  generalize a.position _ item = p at hlow hhigh hle ⊢
  rcases Nat.lt_trichotomy i p with hi | rfl | hi
  · rw [if_pos hi]
    rcases Nat.lt_trichotomy j p with hjp | rfl | hjp
    · rw [if_pos hjp]
      exact h i j hij (by omega)
    · rw [if_neg (Nat.lt_irrefl _), if_pos rfl]
      exact hless.asymm _ _ (hlow i hi)
    · rw [if_neg (by omega), if_neg (by omega)]
      exact h i (j - 1) (by omega) (by omega)
  · rw [if_neg (Nat.lt_irrefl _), if_pos rfl, if_neg (by omega), if_neg (by omega)]
    -- the first element that is not less, or one behind it
    have hfirst := hhigh (by omega)
    by_cases heq : i = j - 1
    · rwa [← heq]
    · exact hless.trans _ _ _ (h i (j - 1) (by omega) (by omega)) hfirst
  · rw [if_neg (by omega), if_neg (by omega), if_neg (by omega), if_neg (by omega)]
    exact h (i - 1) (j - 1) (by omega) (by omega)

/-- Only these sorters keep all arrays sorted. -/
theorem strictWeak_of_sorted_insert
    (h : ∀ (a : OrderedArray α) (item : α), Sorted lessThan a.toList →
      Sorted lessThan (a.insert lessThan item).toList) :
    StrictWeak lessThan := by
  constructor
  · intro x y hxy
    have hsorted := h ⟨fun _ => x, 1, 2⟩ y (List.pairwise_singleton _ _)
    have hlist : ((⟨fun _ => x, 1, 2⟩ : OrderedArray α).insert lessThan y).toList = [x, y] := by
      rw [toList_insert]
      simp [toList, position, hxy]
    rw [hlist] at hsorted
    exact List.rel_of_pairwise_cons hsorted List.mem_cons_self
  · intro x y z hxy hyz
    have hsorted := h ⟨fun i => if i = 0 then y else x, 2, 3⟩ z
      (by simpa [Sorted, toList, List.range_succ] using hxy)
    have hlist : ((⟨fun i => if i = 0 then y else x, 2, 3⟩ : OrderedArray α).insert
        lessThan z).toList = [z, y, x] := by
      rw [toList_insert]
      simp [toList, position, List.range_succ, hyz]
    rw [hlist] at hsorted
    exact List.rel_of_pairwise_cons hsorted (List.mem_cons_of_mem y List.mem_cons_self)

theorem pairwise_insert {key : α → Nat} (h : a.toList.Pairwise fun x y => key x ≤ key y)
    (item : α) :
    (a.insert (fun x y => decide (key x < key y)) item).toList.Pairwise
      fun x y => key x ≤ key y := by
  have hiff : ∀ x y, decide (key y < key x) = false ↔ key x ≤ key y := by
    intro x y
    rw [decide_eq_false_iff_not, Nat.not_lt]
  have hsorted := sorted_insert (strictWeak_key key) (h.imp fun hxy => (hiff _ _).2 hxy) item
  exact List.Pairwise.imp (fun hxy => (hiff _ _).1 hxy) hsorted

/-- At an index behind the last element `remove` drops the last element. -/
theorem toList_remove_sublist (a : OrderedArray α) (i : Nat) :
    (a.remove i).toList.Sublist a.toList := by
  by_cases hi : i < a.size
  · rw [toList_remove hi]
    exact List.eraseIdx_sublist _ _
  · have hremove : a.remove i = { a with size := a.size - 1 } := by
      unfold remove
      rw [Nat.sub_eq_zero_of_le (Nat.le_of_not_lt hi)]
      rfl
    rw [hremove]
    exact (List.range_sublist.2 (Nat.sub_le a.size 1)).map a.array

theorem pairwise_remove {R : α → α → Prop} {i : Nat} (hi : i < a.size) (h : a.toList.Pairwise R) :
    (a.remove i).toList.Pairwise R := by
  rw [toList_remove hi]
  exact h.sublist (List.eraseIdx_sublist _ _)

end OrderedArray

end Ulysses
