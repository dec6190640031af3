import Ulysses.HashTable.Basic

/-!
# The shape of the hash table

`Shape` is what every call keeps, whatever a rehash drops: the table has at least two
bins, every entry is in the bin of its key, and no chain has two entries for one key.
`redistribute` leaves the first and the last of the entries it sends to a bin, which
are in their bin and differ in their keys.
-/

namespace Ulysses

open Lib

namespace HashTable

variable {K V : Type*} {ops : HashOps K}

theorem binOf_lt (ops : HashOps K) (total : Nat) (h1 : 1 ≤ total) (h2 : total < 4294967296)
    (k : K) : binOf ops total k < total := by
  unfold binOf findBin
  have h := Nat.and_le_right (n := (ops.computeHash k).toNat) (m := sub32 total 1)
  rw [sub32_eq h1 h2] at h ⊢
  omega

theorem binOf_congr (hops : ops.Lawful) (total : Nat) {a b : K}
    (h : ops.compareKeys a b = true) : binOf ops total a = binOf ops total b := by
  unfold binOf
  rw [hops.hash_eq _ _ h]

/-- A key is in the table when its bin has an entry for it. -/
def Holds (ops : HashOps K) (t : HashTable K V) (k : K) : Prop :=
  Has ops k (t.values (binOf ops t.bins k))

theorem fetch_isSome (t : HashTable K V) (k : K) :
    (fetch ops k t).isSome ↔ Holds ops t k := fetchChain_isSome

/-- The representation invariant without the count. The upper bound on `bins` keeps
`bins_ * 3` and `bins_ << 1` below `2 ^ 32`. -/
structure Shape (ops : HashOps K) (t : HashTable K V) : Prop where
  two_le : 2 ≤ t.bins
  bins_le : t.bins ≤ 715827884
  placed : ∀ i, i < t.bins → ∀ e ∈ t.values i, binOf ops t.bins e.key = i
  distinct : ∀ i, i < t.bins → Distinct ops (t.values i)

variable {t : HashTable K V}

theorem Shape.binOf_lt (h : Shape ops t) (k : K) : binOf ops t.bins k < t.bins :=
  HashTable.binOf_lt ops t.bins (by have := h.two_le; omega) (by have := h.bins_le; omega) k

/-- Equal keys lie in one bin, so a key is in the table when it is anywhere. -/
theorem Shape.holds_iff (hops : ops.Lawful) (h : Shape ops t) (k : K) :
    Holds ops t k ↔ Has ops k t.reachable := by
  constructor
  · rintro ⟨e, he, hek⟩
    exact ⟨e, mem_contents.2 ⟨_, h.binOf_lt k, he⟩, hek⟩
  · rintro ⟨e, he, hek⟩
    obtain ⟨i, hi, he⟩ := mem_contents.1 he
    refine ⟨e, ?_, hek⟩
    rw [← binOf_congr hops t.bins hek, h.placed i hi e he]
    exact he

theorem Shape.distinct_reachable (hops : ops.Lawful) (h : Shape ops t) :
    Distinct ops t.reachable := by
  unfold Distinct reachable contents
  rw [List.pairwise_flatMap]
  refine ⟨fun i hi => h.distinct i (List.mem_range.1 hi), ?_⟩
  refine (List.pairwise_lt_range (n := t.bins)).imp_of_mem fun {i j} hi hj hij x hx y hy => ?_
  by_contra hxy
  have heq := binOf_congr hops t.bins (by simpa using hxy)
  rw [h.placed i (List.mem_range.1 hi) x hx, h.placed j (List.mem_range.1 hj) y hy] at heq
  omega

theorem shape_empty : Shape ops (empty : HashTable K V) := by
  refine ⟨by simp [empty, minSize], by simp [empty, minSize], ?_, ?_⟩
  · intro i _ e he
    cases he
  · intro i _
    exact List.Pairwise.nil

theorem not_holds_empty (k : K) : ¬ Holds ops (empty : HashTable K V) k := by
  rintro ⟨e, he, -⟩
  cases he

/-! ## Rehashing -/

theorem redistribute_sublist (size : Nat) (t : HashTable K V) (b : Nat) :
    ((redistribute ops size t).values b).Sublist
      (distribute (fun e : HashEntry K V => binOf ops size e.key) t.reachable b) := by
  rw [redistribute_values]
  exact foldl_link_sublist _

theorem Shape.redistribute (hops : ops.Lawful) (h : Shape ops t) {size : Nat} (h1 : 2 ≤ size)
    (h2 : size ≤ 715827884) : Shape ops (redistribute ops size t) := by
  refine ⟨h1, h2, fun i _ e he => ?_, fun i _ => ?_⟩
  · have hmem := (redistribute_sublist size t i).subset he
    exact of_decide_eq_true (List.mem_filter.1 hmem).2
  · exact (h.distinct_reachable hops).sublist
      ((redistribute_sublist size t i).trans List.filter_sublist)

/-- `entries_` may count too many entries after a rehash, never too few. -/
theorem reachable_redistribute_le {size : Nat} (h1 : 1 ≤ size) (h2 : size < 4294967296)
    (t : HashTable K V) :
    (redistribute ops size t).reachable.length ≤ t.reachable.length := by
  have hperm := contents_distribute_perm (fun e : HashEntry K V => binOf ops size e.key) size
    t.reachable fun e _ => binOf_lt ops size h1 h2 e.key
  rw [← hperm.length_eq]
  exact length_contents_le fun i => (redistribute_sublist size t i).length_le

theorem mem_reachable_redistribute {size : Nat} {e : HashEntry K V}
    (he : e ∈ (redistribute ops size t).reachable) : e ∈ t.reachable := by
  obtain ⟨i, -, he⟩ := mem_contents.1 he
  exact (List.mem_filter.1 ((redistribute_sublist size t i).subset he)).1

/-! ## The calls, after their rehash -/

/-- `store` after its rehash. -/
def storeAt (ops : HashOps K) (key : K) (value : V) (t : HashTable K V) : HashTable K V :=
  let bin := binOf ops t.bins key
  let r := storeChain ops key value (t.values bin)
  { t with
    values := Function.update t.values bin r.1
    entries := if r.2 then add32 t.entries 1 else t.entries }

/-- `remove` after its rehash. -/
def removeAt (ops : HashOps K) (key : K) (t : HashTable K V) : HashTable K V :=
  let bin := binOf ops t.bins key
  let r := removeChain ops key (t.values bin)
  { t with
    values := Function.update t.values bin r.1
    entries := if r.2 then sub32 t.entries 1 else t.entries }

theorem store_of_dense (h : t.maxDensityP = true) (k : K) (v : V) :
    store ops k v t = storeAt ops k v (redistribute ops (mul32 t.bins 2) t) := by
  simp [store, storeAt, h]

theorem store_of_not_dense (h : t.maxDensityP = false) (k : K) (v : V) :
    store ops k v t = storeAt ops k v t := by
  simp [store, storeAt, h]

theorem remove_of_sparse (h : t.minDensityP = true) (k : K) :
    (remove ops k t).1 = removeAt ops k (redistribute ops (t.bins / 2) t) := by
  simp [remove, removeAt, h]

theorem remove_of_not_sparse (h : t.minDensityP = false) (k : K) :
    (remove ops k t).1 = removeAt ops k t := by
  simp [remove, removeAt, h]

/-- The number of reachable entries goes up exactly when `entries_` does. -/
theorem reachable_storeAt (t : HashTable K V) (k : K) (v : V) (hb : binOf ops t.bins k < t.bins) :
    (storeAt ops k v t).reachable.length = t.reachable.length +
      (storeChain ops k v (t.values (binOf ops t.bins k))).2.toNat := by
  have h := length_contents_update t.values hb
    (storeChain ops k v (t.values (binOf ops t.bins k))).1
  rw [length_storeChain] at h
  simp only [reachable, storeAt]
  omega

theorem reachable_removeAt (t : HashTable K V) (k : K) (hb : binOf ops t.bins k < t.bins) :
    (removeAt ops k t).reachable.length +
      (removeChain ops k (t.values (binOf ops t.bins k))).2.toNat = t.reachable.length := by
  have h := length_contents_update t.values hb
    (removeChain ops k (t.values (binOf ops t.bins k))).1
  have hlen := @length_removeChain K V ops (t.values (binOf ops t.bins k)) k
  simp only [reachable, removeAt]
  omega

theorem entries_storeAt (ops : HashOps K) (t : HashTable K V) (k : K) (v : V)
    (ht : t.entries + 1 < 4294967296) :
    (storeAt ops k v t).entries = t.entries +
      (storeChain ops k v (t.values (binOf ops t.bins k))).2.toNat := by
  simp only [storeAt]
  cases (storeChain ops k v (t.values (binOf ops t.bins k))).2
  · simp
  · simpa using add32_eq ht

theorem entries_removeAt (t : HashTable K V) (k : K) (hb : binOf ops t.bins k < t.bins)
    (hle : t.reachable.length ≤ t.entries) (ht : t.entries < 4294967296) :
    (removeAt ops k t).entries +
      (removeChain ops k (t.values (binOf ops t.bins k))).2.toNat = t.entries := by
  have hr := reachable_removeAt t k hb
  simp only [removeAt] at hr ⊢
  cases hf : (removeChain ops k (t.values (binOf ops t.bins k))).2
  · simp
  · rw [hf] at hr
    have : 1 ≤ t.entries := by simp only [Bool.toNat_true] at hr; omega
    simp only [if_true, Bool.toNat_true, sub32_eq this ht]
    omega

theorem Shape.storeAt (h : Shape ops t) (k : K) (v : V) : Shape ops (storeAt ops k v t) := by
  refine ⟨h.two_le, h.bins_le, ?_, ?_⟩
  · intro i hi e he
    simp only [HashTable.storeAt] at hi he ⊢
    by_cases hik : i = binOf ops t.bins k
    · subst hik
      rw [Function.update_self] at he
      rcases mem_storeChain_key he with ⟨e', he', heq⟩ | heq
      · rw [← heq]
        exact h.placed _ hi e' he'
      · rw [heq]
    · rw [Function.update_of_ne hik] at he
      exact h.placed i hi e he
  · intro i hi
    simp only [HashTable.storeAt] at hi ⊢
    by_cases hik : i = binOf ops t.bins k
    · subst hik
      rw [Function.update_self]
      exact distinct_storeChain (h.distinct _ hi)
    · rw [Function.update_of_ne hik]
      exact h.distinct i hi

theorem Shape.removeAt (h : Shape ops t) (k : K) : Shape ops (removeAt ops k t) := by
  refine ⟨h.two_le, h.bins_le, ?_, ?_⟩
  · intro i hi e he
    simp only [HashTable.removeAt] at hi he ⊢
    by_cases hik : i = binOf ops t.bins k
    · subst hik
      rw [Function.update_self] at he
      exact h.placed _ hi e (removeChain_sublist.subset he)
    · rw [Function.update_of_ne hik] at he
      exact h.placed i hi e he
  · intro i hi
    simp only [HashTable.removeAt] at hi ⊢
    by_cases hik : i = binOf ops t.bins k
    · subst hik
      rw [Function.update_self]
      exact (h.distinct _ hi).sublist removeChain_sublist
    · rw [Function.update_of_ne hik]
      exact h.distinct i hi

theorem holds_storeAt (hops : ops.Lawful) (t : HashTable K V) (k : K) (v : V) (j : K) :
    Holds ops (storeAt ops k v t) j ↔ ops.compareKeys k j = true ∨ Holds ops t j := by
  unfold Holds
  simp only [storeAt]
  by_cases hb : binOf ops t.bins j = binOf ops t.bins k
  · rw [hb, Function.update_self, has_storeChain hops]
  · rw [Function.update_of_ne hb]
    constructor
    · exact .inr
    · rintro (h | h)
      · exact absurd (binOf_congr hops t.bins h).symm hb
      · exact h

/-! ## Sequences of calls -/

/-- A call that changes the table. -/
inductive Op (K V : Type*)
  | store (key : K) (value : V)
  | remove (key : K)

def Op.key : Op K V → K
  | .store k _ => k
  | .remove k => k

def Op.isStore : Op K V → Bool
  | .store .. => true
  | .remove _ => false

def apply (ops : HashOps K) (t : HashTable K V) : Op K V → HashTable K V
  | .store k v => store ops k v t
  | .remove k => (remove ops k t).1

/-- The table after the calls `past` on a fresh one, the latest call first. -/
def run (ops : HashOps K) : List (Op K V) → HashTable K V
  | [] => empty
  | op :: past => apply ops (run ops past) op

/-- The latest call on a key equal to `k` is a store. -/
def stored (ops : HashOps K) (past : List (Op K V)) (k : K) : Prop :=
  (past.find? fun op => ops.compareKeys op.key k).any Op.isStore = true

/-- The number of store calls of a sequence. -/
def stores (past : List (Op K V)) : Nat := past.countP Op.isStore

theorem stored_cons (op : Op K V) (past : List (Op K V)) (k : K) :
    stored ops (op :: past) k ↔
      if ops.compareKeys op.key k then op.isStore = true else stored ops past k := by
  unfold stored
  rw [List.find?_cons]
  split <;> simp_all

theorem stores_le_of_suffix {past q : List (Op K V)} (h : q <:+ past) : stores q ≤ stores past :=
  h.sublist.countP_le

/-! ## How far the table grows and shrinks -/

theorem bins_of_dense (h : Shape ops t) (hd : t.maxDensityP = true) (he : t.entries < 268435456) :
    mul32 t.bins 2 = t.bins * 2 ∧ t.bins * 2 ≤ 715827884 := by
  have hle := h.bins_le
  have h3 : mul32 t.bins 3 = t.bins * 3 := mul32_eq (by omega)
  have hd := of_decide_eq_true hd
  rw [h3] at hd
  have hb : t.bins * 2 ≤ 715827884 := by omega
  exact ⟨mul32_eq (by omega), hb⟩

theorem bins_of_sparse (h : Shape ops t) (hd : t.minDensityP = true) :
    2 ≤ t.bins / 2 ∧ t.bins / 2 ≤ 715827884 := by
  have hle := h.bins_le
  have h3 : mul32 t.bins 3 = t.bins * 3 := mul32_eq (by omega)
  have hd := of_decide_eq_true hd
  rw [h3] at hd
  omega

end HashTable

end Ulysses
