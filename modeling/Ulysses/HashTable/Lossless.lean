import Mathlib.Data.List.Infix
import Ulysses.HashTable.Shape

/-!
# What the hash table loses

A table that is well formed (`WF`) stays so under `store` and `remove` as long as
no rehash sends three entries to one bin (`Uncrowded`). A rehash that does sends
`redistribute` through `slot->next = entry` twice for that bin, and the entries
between the first and the last are dropped while `entries_` still counts them.
`lossless_iff_uncrowded` says that this is the only way to lose an entry: along
every sequence of calls, the table keeps every stored key and its count after
every step if and only if no rehash of the sequence is crowded.
-/

namespace Ulysses

open Lib

namespace HashTable

variable {K V : Type*} {ops : HashOps K}

/-! ## Well-formed tables -/

/-- The representation invariant. The upper bound on `bins` keeps `bins_ * 3` and
`bins_ << 1` below `2 ^ 32`. -/
structure WF (ops : HashOps K) (t : HashTable K V) : Prop where
  two_le : 2 ≤ t.bins
  bins_le : t.bins ≤ 715827884
  placed : ∀ i, i < t.bins → ∀ e ∈ t.values i, binOf ops t.bins e.key = i
  distinct : ∀ i, i < t.bins → Distinct ops (t.values i)
  count : t.entries = t.reachable.length

variable {t : HashTable K V} {size : Nat} {past : List (Op K V)}

theorem WF.shape (h : WF ops t) : Shape ops t :=
  ⟨h.two_le, h.bins_le, h.placed, h.distinct⟩

theorem Shape.wf (h : Shape ops t) (hcount : t.entries = t.reachable.length) : WF ops t :=
  ⟨h.two_le, h.bins_le, h.placed, h.distinct, hcount⟩

theorem wf_empty : WF ops (empty : HashTable K V) :=
  shape_empty.wf (by simp [empty, reachable, contents])

/-! ## Rehashing -/

/-- No bin of a table of `size` bins would get three of the entries of `t`. -/
def Uncrowded (ops : HashOps K) (size : Nat) (t : HashTable K V) : Prop :=
  ∀ b, (distribute (fun e : HashEntry K V => binOf ops size e.key) t.reachable b).length ≤ 2

theorem redistribute_values_of_uncrowded (hu : Uncrowded ops size t) (b : Nat) :
    (redistribute ops size t).values b =
      distribute (fun e : HashEntry K V => binOf ops size e.key) t.reachable b := by
  rw [redistribute_values, link_nil_of_length_le (hu b)]

theorem reachable_redistribute_perm (h1 : 1 ≤ size) (h2 : size < 4294967296)
    (hu : Uncrowded ops size t) : (redistribute ops size t).reachable.Perm t.reachable := by
  have hv : (redistribute ops size t).values =
      distribute (fun e : HashEntry K V => binOf ops size e.key) t.reachable :=
    funext (redistribute_values_of_uncrowded hu)
  unfold reachable at hv ⊢
  rw [hv]
  exact contents_distribute_perm _ size _ fun e _ => binOf_lt ops size h1 h2 e.key

theorem WF.redistribute (hops : ops.Lawful) (h : WF ops t) (h1 : 2 ≤ size) (h2 : size ≤ 715827884)
    (hu : Uncrowded ops size t) : WF ops (redistribute ops size t) := by
  refine (h.shape.redistribute hops h1 h2).wf ?_
  rw [(reachable_redistribute_perm (by omega) (by omega) hu).length_eq]
  exact h.count

theorem WF.holds_redistribute (hops : ops.Lawful) (h : WF ops t) (h1 : 2 ≤ size)
    (h2 : size ≤ 715827884) (hu : Uncrowded ops size t) (k : K) :
    Holds ops (HashTable.redistribute ops size t) k ↔ Holds ops t k := by
  rw [(h.shape.redistribute hops h1 h2).holds_iff hops, h.shape.holds_iff hops]
  have hperm := reachable_redistribute_perm (by omega) (by omega) hu
  exact ⟨fun ⟨e, he, hk⟩ => ⟨e, hperm.mem_iff.1 he, hk⟩,
    fun ⟨e, he, hk⟩ => ⟨e, hperm.mem_iff.2 he, hk⟩⟩

/-- A crowded rehash drops an entry that `entries_` goes on counting. -/
theorem WF.redistribute_drops (h : WF ops t) (h1 : 1 ≤ size) (h2 : size < 4294967296)
    (hu : ¬ Uncrowded ops size t) :
    (HashTable.redistribute ops size t).reachable.length < t.entries := by
  unfold Uncrowded at hu
  push Not at hu
  obtain ⟨b, hb⟩ := hu
  have hbs : b < size := by
    obtain ⟨e, he⟩ := List.exists_mem_of_length_pos (Nat.lt_of_le_of_lt (Nat.zero_le 2) hb)
    have := (List.mem_filter.1 he).2
    simp only [decide_eq_true_eq] at this
    rw [← this]
    exact HashTable.binOf_lt ops size h1 h2 e.key
  have hlt : (contents (HashTable.redistribute ops size t).values size).length <
      (contents (distribute (fun e : HashEntry K V => binOf ops size e.key) t.reachable)
        size).length := by
    apply length_contents_lt hbs
    · intro i
      exact (redistribute_sublist size t i).length_le
    · rw [redistribute_values]
      exact length_link_nil_lt hb
  have hperm := contents_distribute_perm (fun e : HashEntry K V => binOf ops size e.key) size
    t.reachable fun e _ => HashTable.binOf_lt ops size h1 h2 e.key
  rw [hperm.length_eq, ← h.count] at hlt
  exact hlt

/-! ## The calls, after their rehash -/

theorem WF.storeAt (h : WF ops t) (k : K) (v : V) (ht : t.entries + 1 < 4294967296) :
    WF ops (storeAt ops k v t) :=
  (h.shape.storeAt k v).wf
    (by rw [entries_storeAt ops t k v ht, reachable_storeAt t k v (h.shape.binOf_lt k), h.count])

theorem WF.removeAt (h : WF ops t) (k : K) (ht : t.entries < 4294967296) :
    WF ops (removeAt ops k t) := by
  refine (h.shape.removeAt k).wf ?_
  have he := entries_removeAt t k (h.shape.binOf_lt k) h.count.ge ht
  have hr := reachable_removeAt t k (h.shape.binOf_lt k)
  have := h.count
  omega

theorem WF.holds_removeAt (hops : ops.Lawful) (h : WF ops t) (k j : K) :
    Holds ops (HashTable.removeAt ops k t) j ↔ ops.compareKeys k j = false ∧ Holds ops t j := by
  unfold Holds
  simp only [HashTable.removeAt]
  by_cases hb : binOf ops t.bins j = binOf ops t.bins k
  · rw [hb, Function.update_self, has_removeChain hops (h.distinct _ (h.shape.binOf_lt k))]
  · rw [Function.update_of_ne hb]
    constructor
    · intro hj
      refine ⟨?_, hj⟩
      by_contra hkj
      exact hb (binOf_congr hops t.bins (by simpa using hkj)).symm
    · exact And.right

/-! ## Sequences of calls -/

/-- The table keeps what was stored: every key whose latest call is a store is
found, and `entries_` is both the number of these keys and the number of entries
reachable through the bins. The keys are counted by a list of pairwise different
representatives. -/
def Lossless (ops : HashOps K) (past : List (Op K V)) (t : HashTable K V) : Prop :=
  (∀ k, stored ops past k → (fetch ops k t).isSome) ∧
    ∃ keys : List K, keys.Pairwise (fun a b => ops.compareKeys a b = false) ∧
      (∀ k, stored ops past k ↔ ∃ r ∈ keys, ops.compareKeys r k = true) ∧
      t.entries = keys.length ∧ t.reachable.length = keys.length

/-- The rehash a call triggers in `t`, if any, sends no three entries to one bin. -/
def CallOk (ops : HashOps K) (t : HashTable K V) : Op K V → Prop
  | .store .. => t.maxDensityP = true → Uncrowded ops (mul32 t.bins 2) t
  | .remove _ => t.minDensityP = true → Uncrowded ops (t.bins / 2) t

/-- What a sequence without crowded rehash maintains. -/
structure Keeps (ops : HashOps K) (past : List (Op K V)) (t : HashTable K V) : Prop where
  wf : WF ops t
  entries_le : t.entries ≤ stores past
  holds : ∀ k, Holds ops t k ↔ stored ops past k

theorem keeps_empty : Keeps ops [] (empty : HashTable K V) := by
  refine ⟨wf_empty, Nat.zero_le _, fun k => ?_⟩
  simp [not_holds_empty, stored]

theorem Keeps.storeAt (hops : ops.Lawful) (h : Keeps ops past t) (hs : stores past < 268435456)
    (k : K) (v : V) : Keeps ops (.store k v :: past) (storeAt ops k v t) := by
  have hle := h.entries_le
  have he := entries_storeAt ops t k v (by omega)
  have hb := Bool.toNat_le (storeChain ops k v (t.values (binOf ops t.bins k))).2
  refine ⟨h.wf.storeAt k v (by omega), ?_, fun j => ?_⟩
  · simp only [stores, List.countP_cons, Op.isStore, if_true] at hle ⊢
    omega
  · rw [holds_storeAt hops, h.holds, stored_cons]
    by_cases hkj : ops.compareKeys k j = true <;> simp [Op.key, Op.isStore, hkj]

theorem Keeps.removeAt (hops : ops.Lawful) (h : Keeps ops past t) (hs : stores past < 268435456)
    (k : K) : Keeps ops (.remove k :: past) (removeAt ops k t) := by
  have hle := h.entries_le
  have he := entries_removeAt t k (h.wf.shape.binOf_lt k) h.wf.count.ge (by omega)
  refine ⟨h.wf.removeAt k (by omega), ?_, fun j => ?_⟩
  · simp only [stores, List.countP_cons, Op.isStore, Bool.false_eq_true, if_false] at hle ⊢
    omega
  · rw [h.wf.holds_removeAt hops, h.holds, stored_cons]
    by_cases hkj : ops.compareKeys k j = true <;> simp [Op.key, Op.isStore, hkj]

theorem Keeps.redistribute (hops : ops.Lawful) (h : Keeps ops past t) (h1 : 2 ≤ size)
    (h2 : size ≤ 715827884) (hu : Uncrowded ops size t) :
    Keeps ops past (HashTable.redistribute ops size t) :=
  ⟨h.wf.redistribute hops h1 h2 hu, h.entries_le, fun k =>
    (h.wf.holds_redistribute hops h1 h2 hu k).trans (h.holds k)⟩

theorem Keeps.apply (hops : ops.Lawful) (h : Keeps ops past t) (hs : stores past < 268435456)
    {op : Op K V} (hok : CallOk ops t op) : Keeps ops (op :: past) (apply ops t op) := by
  cases op with
  | store k v =>
    simp only [HashTable.apply]
    cases hd : t.maxDensityP with
    | false =>
      rw [store_of_not_dense hd]
      exact h.storeAt hops hs k v
    | true =>
      have hle := h.entries_le
      obtain ⟨hm, hb⟩ := bins_of_dense h.wf.shape hd (by omega)
      have h2 := h.wf.two_le
      rw [store_of_dense hd]
      exact (h.redistribute hops (by omega) (by omega) (hok hd)).storeAt hops hs k v
  | remove k =>
    simp only [HashTable.apply]
    cases hd : t.minDensityP with
    | false =>
      rw [remove_of_not_sparse hd]
      exact h.removeAt hops hs k
    | true =>
      obtain ⟨h1, h2⟩ := bins_of_sparse h.wf.shape hd
      rw [remove_of_sparse hd]
      exact (h.redistribute hops h1 h2 (hok hd)).removeAt hops hs k

/-- One call that does not: the table counts more entries than it reaches. -/
theorem Keeps.apply_crowded (h : Keeps ops past t) (hs : stores past < 268435456) {op : Op K V}
    (hok : ¬ CallOk ops t op) :
    (HashTable.apply ops t op).reachable.length < (HashTable.apply ops t op).entries := by
  have hle := h.entries_le
  cases op with
  | store k v =>
    simp only [CallOk, Classical.not_imp] at hok
    obtain ⟨hd, hu⟩ := hok
    obtain ⟨hm, hb⟩ := bins_of_dense h.wf.shape hd (by omega)
    have h2 := h.wf.two_le
    have hdrop := h.wf.redistribute_drops (by omega) (by omega) hu
    have hbin := HashTable.binOf_lt ops (mul32 t.bins 2) (by omega) (by omega) k
    have hent : (HashTable.redistribute ops (mul32 t.bins 2) t).entries = t.entries := rfl
    have hr := reachable_storeAt (HashTable.redistribute ops (mul32 t.bins 2) t) k v hbin
    have he := entries_storeAt ops (HashTable.redistribute ops (mul32 t.bins 2) t) k v
      (by omega)
    simp only [HashTable.apply]
    rw [store_of_dense hd]
    omega
  | remove k =>
    simp only [CallOk, Classical.not_imp] at hok
    obtain ⟨hd, hu⟩ := hok
    obtain ⟨h1, h2⟩ := bins_of_sparse h.wf.shape hd
    have hdrop := h.wf.redistribute_drops (by omega) (by omega) hu
    have hbin := HashTable.binOf_lt ops (t.bins / 2) (by omega) (by omega) k
    have hent : (HashTable.redistribute ops (t.bins / 2) t).entries = t.entries := rfl
    have hr := reachable_removeAt (HashTable.redistribute ops (t.bins / 2) t) k hbin
    have he := entries_removeAt (HashTable.redistribute ops (t.bins / 2) t) k hbin
      (by omega) (by omega)
    simp only [HashTable.apply]
    rw [remove_of_sparse hd]
    omega

theorem Keeps.lossless (hops : ops.Lawful) (h : Keeps ops past t) : Lossless ops past t := by
  refine ⟨fun k hk => (fetch_isSome t k).2 ((h.holds k).2 hk), t.reachable.map HashEntry.key,
    ?_, fun k => ?_, ?_, ?_⟩
  · rw [List.pairwise_map]
    exact h.wf.shape.distinct_reachable hops
  · rw [← h.holds k, h.wf.shape.holds_iff hops]
    simp [Has]
  · rw [List.length_map]
    exact h.wf.count
  · rw [List.length_map]

theorem keeps_run (hops : ops.Lawful) (hs : stores past < 268435456)
    (hok : ∀ op q, op :: q <:+ past → CallOk ops (run ops q) op) :
    Keeps ops past (run ops past) := by
  induction past with
  | nil => exact keeps_empty
  | cons op past ih =>
    have hs' : stores past < 268435456 :=
      lt_of_le_of_lt (stores_le_of_suffix (List.suffix_cons op past)) hs
    have hk := ih hs' fun op' q hq => hok op' q (hq.trans (List.suffix_cons op past))
    exact hk.apply hops hs' (hok op past List.suffix_rfl)

/-- **The table loses nothing exactly when no rehash is crowded.** Along every
sequence of calls on a fresh table (fewer than `2 ^ 28` of them stores), the
table keeps what was stored after every call if and only if no call of the
sequence triggers a rehash that sends three reachable entries to one bin. -/
theorem lossless_iff_uncrowded (ops : HashOps K) (hops : ops.Lawful) (past : List (Op K V))
    (hs : stores past < 268435456) :
    (∀ q, q <:+ past → Lossless ops q (run ops q)) ↔
      ∀ op q, op :: q <:+ past → CallOk ops (run ops q) op := by
  constructor
  · intro hall
    induction past with
    | nil =>
      intro op q hq
      exact absurd (List.suffix_nil.1 hq) (by simp)
    | cons op past ih =>
      have hs' : stores past < 268435456 :=
        lt_of_le_of_lt (stores_le_of_suffix (List.suffix_cons op past)) hs
      have hpast := ih hs' fun q hq => hall q (hq.trans (List.suffix_cons op past))
      intro op' q hq
      rcases List.suffix_cons_iff.1 hq with heq | hq
      · obtain ⟨rfl, rfl⟩ := List.cons.inj heq
        by_contra hbad
        -- the calls before were fine, so this one leaves a count that is too high
        have hlt := (keeps_run hops hs' hpast).apply_crowded hs' hbad
        obtain ⟨-, keys, -, -, he, hr⟩ := hall _ List.suffix_rfl
        simp only [run] at he hr
        omega
      · exact hpast op' q hq
  · intro hok q hq
    exact (keeps_run hops (lt_of_le_of_lt (stores_le_of_suffix hq) hs)
      fun op' q' hq' => hok op' q' (hq'.trans hq)).lossless hops

theorem callOk_of_length_le (h : t.reachable.length ≤ 2) (op : Op K V) : CallOk ops t op := by
  have huncrowded : ∀ size, Uncrowded ops size t := fun size b =>
    (List.length_filter_le _ _).trans h
  cases op with
  | store k v => exact fun _ => huncrowded _
  | remove k => exact fun _ => huncrowded _

/-- Three removes halve the table, and the second store doubles it. -/
theorem lossless_grown :
    (run identityHashOps
      [.store 2 20, .store 1 (10 : Nat), .remove 0, .remove 0, .remove 0]).bins = 4 ∧
    ∀ q, q <:+ [Op.store 2 20, .store 1 (10 : Nat), .remove 0, .remove 0, .remove 0] →
      Lossless identityHashOps q (run identityHashOps q) := by
  have hlen : ∀ q ∈ [Op.store 2 20, .store 1 (10 : Nat), .remove 0, .remove 0, .remove 0].tails,
      (run identityHashOps q).reachable.length ≤ 2 := by decide +kernel
  refine ⟨by decide +kernel, (lossless_iff_uncrowded _ identityHashOps_lawful _ (by decide)).2 ?_⟩
  intro op q hq
  exact callOk_of_length_le (hlen q ((List.mem_tails _ _).2 ((List.suffix_cons op q).trans hq))) op

/-- Three keys that `find_bin` sends to bin 4 of 8, and a remove of a fourth key:
the remove halves the table, and the key 2 is gone. -/
theorem crowded_rehash_loses :
    identityHashOps.Lawful ∧
      stores [Op.remove 0, .store 6 (30 : Nat), .store 3 20, .store 2 10] < 268435456 ∧
      ¬ Lossless identityHashOps [Op.remove 0, .store 6 (30 : Nat), .store 3 20, .store 2 10]
        (run identityHashOps [Op.remove 0, .store 6 (30 : Nat), .store 3 20, .store 2 10]) := by
  refine ⟨identityHashOps_lawful, by decide, fun h => ?_⟩
  have hstored : stored identityHashOps
      [Op.remove 0, .store 6 (30 : Nat), .store 3 20, .store 2 10] 2 := by
    unfold stored
    decide
  exact absurd (h.1 2 hstored) (by decide +kernel)

end HashTable

end Ulysses
