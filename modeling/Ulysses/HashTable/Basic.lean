import Ulysses.Lib.Word
import Ulysses.Lib.Buckets

/-!
# The kernel's hash table

`hash_table.hpp`'s `HashTable<Key, Value, Operations>`: an array of `bins_`
chains and the number `entries_` of entries. A chain is the list of the entries
that its `next` pointers visit. The table doubles before a store that finds it
three quarters full and halves before a remove that finds it less than three
tenths full; both go through `redistribute`.

`redistribute` relinks the entries one by one. When the new bin is occupied it
sets the `next` pointer of the bin's first entry (`slot->next = entry`), whatever
that pointer was, so a bin holds its first entry and the entry relinked last.
-/

namespace Ulysses

open Lib

/-- The template parameter `Operations`. -/
structure HashOps (K : Type*) where
  computeHash : K → UInt32
  compareKeys : K → K → Bool

/-- `compare_keys` is an equivalence, and equal keys have equal hashes. -/
structure HashOps.Lawful {K : Type*} (ops : HashOps K) : Prop where
  refl : ∀ a, ops.compareKeys a a = true
  symm : ∀ a b, ops.compareKeys a b = true → ops.compareKeys b a = true
  trans : ∀ a b c, ops.compareKeys a b = true → ops.compareKeys b c = true →
    ops.compareKeys a c = true
  hash_eq : ∀ a b, ops.compareKeys a b = true → ops.computeHash a = ops.computeHash b

/-- The integer hash that `IdentityHashOperations` and `OOHashOperations` share. -/
def mixHash (a : UInt32) : UInt32 :=
  let a := a + (0x7ed55d16 : UInt32) + a <<< (12 : UInt32)
  let a := a ^^^ (0xc761c23c : UInt32) ^^^ a >>> (19 : UInt32)
  let a := a + (0x165667b1 : UInt32) + a <<< (5 : UInt32)
  let a := (a + (0xd3a2646c : UInt32)) ^^^ a <<< (9 : UInt32)
  let a := a + (0xfd7046c5 : UInt32) + a <<< (3 : UInt32)
  a ^^^ (0xb55a4f09 : UInt32) ^^^ a >>> (16 : UInt32)

/-- `IdentityHashOperations` on keys that are words already. -/
def identityHashOps : HashOps UInt32 where
  computeHash k := mixHash k
  compareKeys a b := decide (a = b)

theorem identityHashOps_lawful : identityHashOps.Lawful := by
  constructor
  · intro a
    exact decide_eq_true rfl
  · intro a b h
    exact decide_eq_true (of_decide_eq_true h).symm
  · intro a b c hab hbc
    exact decide_eq_true ((of_decide_eq_true hab).trans (of_decide_eq_true hbc))
  · intro a b h
    rw [of_decide_eq_true h]

/-- `HashTable::Entry` without its `next`, which is its position in the chain. -/
structure HashEntry (K V : Type*) where
  key : K
  value : V
  deriving DecidableEq, Repr

structure HashTable (K V : Type*) where
  values : Nat → List (HashEntry K V)
  bins : Nat
  entries : Nat

namespace HashTable

variable {K V : Type*} (ops : HashOps K)

/-- `MinSize`. -/
def minSize : Nat := 16

/-- The constructor's table. -/
def empty : HashTable K V := { values := fun _ => [], bins := minSize, entries := 0 }

def findBin (hash : UInt32) (total : Nat) : Nat := hash.toNat &&& sub32 total 1

def maxDensityP (t : HashTable K V) : Bool := decide (t.entries ≥ mul32 t.bins 3 / 4)

def minDensityP (t : HashTable K V) : Bool := decide (t.entries < mul32 t.bins 3 / 10)

/-- The bin of a key in a table of `total` bins. -/
def binOf (total : Nat) (k : K) : Nat := findBin (ops.computeHash k) total

/-- What `redistribute` makes of the chain of a new bin when it relinks `entry`:
`entry->next` is null already, and `slot->next = entry` drops the rest. -/
def link : List (HashEntry K V) → HashEntry K V → List (HashEntry K V)
  | [], entry => [entry]
  | slot :: _, entry => [slot, entry]

/-- One turn of `redistribute`'s inner loop. -/
def relink (size : Nat) (newValues : Nat → List (HashEntry K V)) (entry : HashEntry K V) :
    Nat → List (HashEntry K V) :=
  let bin := binOf ops size entry.key
  Function.update newValues bin (link (newValues bin) entry)

def redistribute (size : Nat) (t : HashTable K V) : HashTable K V :=
  { t with
    values := (List.range t.bins).foldl
      (fun newValues i => (t.values i).foldl (relink ops size) newValues) (fun _ => [])
    bins := size }

/-- The loop of `store` over one chain, and whether it added an entry. -/
def storeChain (key : K) (value : V) :
    List (HashEntry K V) → List (HashEntry K V) × Bool
  | [] => ([⟨key, value⟩], true)
  | entry :: rest =>
    if ops.compareKeys entry.key key then ({ entry with value := value } :: rest, false)
    else (entry :: (storeChain key value rest).1, (storeChain key value rest).2)

def store (key : K) (value : V) (t : HashTable K V) : HashTable K V :=
  let t := if t.maxDensityP then redistribute ops (mul32 t.bins 2) t else t
  let bin := binOf ops t.bins key
  let r := storeChain ops key value (t.values bin)
  { t with
    values := Function.update t.values bin r.1
    entries := if r.2 then add32 t.entries 1 else t.entries }

/-- The loop of `fetch` over one chain. -/
def fetchChain (key : K) : List (HashEntry K V) → Option V
  | [] => none
  | entry :: rest =>
    if ops.compareKeys entry.key key then some entry.value else fetchChain key rest

/-- `fetch`; the answer `false` is `none`, a value stored to `*val` is `some`. -/
def fetch (key : K) (t : HashTable K V) : Option V :=
  fetchChain ops key (t.values (binOf ops t.bins key))

/-- The loop of `remove` over one chain, and whether it unlinked an entry. -/
def removeChain (key : K) : List (HashEntry K V) → List (HashEntry K V) × Bool
  | [] => ([], false)
  | entry :: rest =>
    if ops.compareKeys entry.key key then (rest, true)
    else (entry :: (removeChain key rest).1, (removeChain key rest).2)

/-- `remove` and its answer. -/
def remove (key : K) (t : HashTable K V) : HashTable K V × Bool :=
  let t := if t.minDensityP then redistribute ops (t.bins / 2) t else t
  let bin := binOf ops t.bins key
  let r := removeChain ops key (t.values bin)
  ({ t with
    values := Function.update t.values bin r.1
    entries := if r.2 then sub32 t.entries 1 else t.entries }, r.2)

/-- The entries reachable through the bins. -/
def reachable (t : HashTable K V) : List (HashEntry K V) := contents t.values t.bins

/-! ## Chains -/

section Chains

variable {ops}

/-- The chain holds an entry for a key equal to `k`. -/
def Has (ops : HashOps K) (k : K) (c : List (HashEntry K V)) : Prop :=
  ∃ e ∈ c, ops.compareKeys e.key k = true

variable {c : List (HashEntry K V)}

theorem fetchChain_isSome {k : K} : (fetchChain ops k c).isSome ↔ Has ops k c := by
  induction c with
  | nil => simp [fetchChain, Has]
  | cons e c ih =>
    by_cases he : ops.compareKeys e.key k = true
    · simp [fetchChain, Has, he]
    · simpa [fetchChain, Has, he] using ih

theorem mem_storeChain_key {k : K} {v : V} {e : HashEntry K V} (he : e ∈ (storeChain ops k v c).1) :
    (∃ e' ∈ c, e'.key = e.key) ∨ e.key = k := by
  induction c with
  | nil =>
    simp only [storeChain, List.mem_singleton] at he
    exact .inr (by rw [he])
  | cons a c ih =>
    by_cases ha : ops.compareKeys a.key k = true
    · simp only [storeChain, ha, if_true, List.mem_cons] at he
      rcases he with rfl | he
      · exact .inl ⟨a, List.mem_cons_self, rfl⟩
      · exact .inl ⟨e, List.mem_cons_of_mem _ he, rfl⟩
    · simp only [storeChain, ha, Bool.false_eq_true, if_false, List.mem_cons] at he
      rcases he with rfl | he
      · exact .inl ⟨e, List.mem_cons_self, rfl⟩
      · rcases ih he with ⟨e', he', heq⟩ | h
        · exact .inl ⟨e', List.mem_cons_of_mem _ he', heq⟩
        · exact .inr h

theorem has_storeChain (hops : ops.Lawful) {k : K} {v : V} (j : K) :
    Has ops j (storeChain ops k v c).1 ↔ ops.compareKeys k j = true ∨ Has ops j c := by
  induction c with
  | nil => simp [storeChain, Has]
  | cons a c ih =>
    by_cases ha : ops.compareKeys a.key k = true
    · simp only [storeChain, ha, if_true, Has, List.exists_mem_cons_iff]
      constructor
      · rintro (h | h)
        · exact .inr (.inl h)
        · exact .inr (.inr h)
      · rintro (h | h | h)
        · exact .inl (hops.trans _ _ _ ha h)
        · exact .inl h
        · exact .inr h
    · simp only [storeChain, ha, Bool.false_eq_true, if_false]
      simp only [Has, List.exists_mem_cons_iff] at ih ⊢
      rw [ih]
      tauto

theorem length_storeChain {k : K} {v : V} :
    (storeChain ops k v c).1.length = c.length + (storeChain ops k v c).2.toNat := by
  induction c with
  | nil => rfl
  | cons a c ih =>
    by_cases ha : ops.compareKeys a.key k = true
    · simp [storeChain, ha]
    · simp only [storeChain, ha, Bool.false_eq_true, if_false, List.length_cons, ih]
      omega

/-- Different entries of a chain hold different keys. -/
def Distinct (ops : HashOps K) (c : List (HashEntry K V)) : Prop :=
  c.Pairwise fun a b => ops.compareKeys a.key b.key = false

theorem distinct_storeChain {k : K} {v : V} (hc : Distinct ops c) :
    Distinct ops (storeChain ops k v c).1 := by
  induction c with
  | nil => exact List.pairwise_singleton _ _
  | cons a c ih =>
    obtain ⟨hac, hc⟩ := List.pairwise_cons.1 hc
    by_cases ha : ops.compareKeys a.key k = true
    · simp only [storeChain, ha, if_true]
      exact List.pairwise_cons.2 ⟨hac, hc⟩
    · simp only [storeChain, ha, Bool.false_eq_true, if_false]
      refine List.pairwise_cons.2 ⟨fun e he => ?_, ih hc⟩
      rcases mem_storeChain_key he with ⟨e', he', heq⟩ | heq
      · rw [← heq]; exact hac e' he'
      · rw [heq]; simpa using ha

theorem removeChain_sublist {k : K} : (removeChain ops k c).1.Sublist c := by
  induction c with
  | nil => simp [removeChain]
  | cons a c ih =>
    by_cases ha : ops.compareKeys a.key k = true
    · simp only [removeChain, ha, if_true]
      exact List.sublist_cons_self a c
    · simp only [removeChain, ha, Bool.false_eq_true, if_false]
      exact ih.cons_cons a

theorem length_removeChain {k : K} :
    (removeChain ops k c).1.length + (removeChain ops k c).2.toNat = c.length := by
  induction c with
  | nil => rfl
  | cons a c ih =>
    by_cases ha : ops.compareKeys a.key k = true
    · simp [removeChain, ha]
    · simp only [removeChain, ha, Bool.false_eq_true, if_false, List.length_cons]
      omega

/-- After a remove the chain holds the keys it held other than the removed one.
The chain has one entry for it at most, so unlinking the first is enough. -/
theorem has_removeChain (hops : ops.Lawful) {k : K} (hc : Distinct ops c) (j : K) :
    Has ops j (removeChain ops k c).1 ↔ ops.compareKeys k j = false ∧ Has ops j c := by
  induction c with
  | nil => simp [removeChain, Has]
  | cons a c ih =>
    obtain ⟨hac, hc⟩ := List.pairwise_cons.1 hc
    by_cases ha : ops.compareKeys a.key k = true
    · simp only [removeChain, ha, if_true]
      constructor
      · rintro ⟨e, he, hej⟩
        refine ⟨?_, e, List.mem_cons_of_mem _ he, hej⟩
        -- `e` would be equal to `a` through the removed key
        by_contra hkj
        have hkj : ops.compareKeys k j = true := by simpa using hkj
        have hae := hops.trans _ _ _ (hops.trans _ _ _ ha hkj) (hops.symm _ _ hej)
        rw [hac e he] at hae
        cases hae
      · rintro ⟨hkj, e, he, hej⟩
        rcases List.mem_cons.1 he with rfl | he
        · rw [hops.trans _ _ _ (hops.symm _ _ ha) hej] at hkj
          cases hkj
        · exact ⟨e, he, hej⟩
    · simp only [removeChain, ha, Bool.false_eq_true, if_false]
      have ih := ih hc
      simp only [Has, List.exists_mem_cons_iff] at ih ⊢
      rw [ih]
      constructor
      · rintro (h | h)
        · refine ⟨?_, .inl h⟩
          by_contra hkj
          exact ha (hops.trans _ _ _ h (hops.symm _ _ (by simpa using hkj)))
        · exact ⟨h.1, .inr h.2⟩
      · rintro ⟨hkj, h | h⟩
        · exact .inl h
        · exact .inr ⟨hkj, h⟩

end Chains

/-! ## The rehash loop -/

section Rehash

variable {ops}

theorem foldl_relink_apply (size : Nat) (xs : List (HashEntry K V))
    (acc : Nat → List (HashEntry K V)) (b : Nat) :
    xs.foldl (relink ops size) acc b =
      (distribute (fun e : HashEntry K V => binOf ops size e.key) xs b).foldl link (acc b) := by
  induction xs generalizing acc with
  | nil => rfl
  | cons x xs ih =>
    rw [List.foldl_cons, ih]
    by_cases hx : binOf ops size x.key = b
    · simp [distribute, relink, hx]
    · simp [distribute, relink, hx, Function.update_of_ne (Ne.symm hx)]

/-- The two loops of `redistribute` visit the reachable entries in order. -/
theorem redistribute_values (size : Nat) (t : HashTable K V) (b : Nat) :
    (redistribute ops size t).values b =
      (distribute (fun e : HashEntry K V => binOf ops size e.key) t.reachable b).foldl link [] := by
  unfold redistribute reachable contents
  rw [← List.foldl_flatMap]
  exact foldl_relink_apply size _ _ b

theorem link_nil_of_length_le {c : List (HashEntry K V)} (hc : c.length ≤ 2) :
    c.foldl link [] = c := by
  match c, hc with
  | [], _ => rfl
  | [_], _ => rfl
  | [_, _], _ => rfl

theorem foldl_link_cons_sublist (c : List (HashEntry K V)) (x y : HashEntry K V) :
    (c.foldl link [x, y]).Sublist (x :: y :: c) := by
  induction c generalizing y with
  | nil => exact List.Sublist.refl _
  | cons z c ih => exact (ih z).trans ((List.sublist_cons_self y (z :: c)).cons_cons x)

theorem foldl_link_sublist (c : List (HashEntry K V)) : (c.foldl link []).Sublist c := by
  match c with
  | [] => exact List.Sublist.refl _
  | [_] => exact List.Sublist.refl _
  | x :: y :: c => exact foldl_link_cons_sublist c x y

theorem length_foldl_link (c : List (HashEntry K V)) (x y : HashEntry K V) :
    (c.foldl link [x, y]).length = 2 := by
  induction c generalizing y with
  | nil => rfl
  | cons z c ih => exact ih z

theorem length_link_nil_lt {c : List (HashEntry K V)} (hc : 2 < c.length) :
    (c.foldl link []).length < c.length := by
  match c, hc with
  | x :: y :: c, hc => simpa only [List.foldl_cons, link, length_foldl_link] using hc

end Rehash

end HashTable

end Ulysses
