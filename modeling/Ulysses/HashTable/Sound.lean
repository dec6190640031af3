import Ulysses.HashTable.Shape

/-!
# What the hash table answers

A rehash may drop entries, and a dropped entry does not come back. Every entry that is
reachable holds the value of the latest call on its key, which was a store
(`Sound`), whatever was resized in between.
-/

namespace Ulysses

open Lib

namespace HashTable

variable {K V : Type*} {ops : HashOps K}

/-! ## Chains -/

theorem mem_storeChain (hops : ops.Lawful) {k : K} {v : V} {c : List (HashEntry K V)}
    (hc : Distinct ops c) {e : HashEntry K V} (he : e ∈ (storeChain ops k v c).1) :
    (e ∈ c ∧ ops.compareKeys e.key k = false) ∨
      (ops.compareKeys e.key k = true ∧ e.value = v) := by
  induction c with
  | nil =>
    obtain rfl := List.mem_singleton.1 he
    exact .inr ⟨hops.refl k, rfl⟩
  | cons a c ih =>
    obtain ⟨hac, hc⟩ := List.pairwise_cons.1 hc
    by_cases ha : ops.compareKeys a.key k = true
    · simp only [storeChain, ha, if_true, List.mem_cons] at he
      rcases he with rfl | he
      · exact .inr ⟨ha, rfl⟩
      · refine .inl ⟨List.mem_cons_of_mem a he, ?_⟩
        by_contra hek
        have hae := hops.trans _ _ _ ha (hops.symm _ _ (Bool.not_eq_false _ ▸ hek))
        rw [hac e he] at hae
        cases hae
    · simp only [storeChain, ha, Bool.false_eq_true, if_false, List.mem_cons] at he
      rcases he with rfl | he
      · exact .inl ⟨List.mem_cons_self, by simpa using ha⟩
      · exact (ih hc he).imp_left fun h => ⟨List.mem_cons_of_mem a h.1, h.2⟩

theorem mem_removeChain (hops : ops.Lawful) {k : K} {c : List (HashEntry K V)}
    (hc : Distinct ops c) {e : HashEntry K V} (he : e ∈ (removeChain ops k c).1) :
    e ∈ c ∧ ops.compareKeys e.key k = false := by
  refine ⟨removeChain_sublist.subset he, ?_⟩
  have hhas : Has ops e.key (removeChain ops k c).1 := ⟨e, he, hops.refl _⟩
  by_contra hek
  have hke := hops.symm _ _ (by simpa using hek)
  rw [((has_removeChain hops hc e.key).1 hhas).1] at hke
  cases hke

theorem mem_of_fetchChain {k : K} {v : V} {c : List (HashEntry K V)}
    (h : fetchChain ops k c = some v) :
    ∃ e ∈ c, ops.compareKeys e.key k = true ∧ e.value = v := by
  induction c with
  | nil => cases h
  | cons a c ih =>
    by_cases ha : ops.compareKeys a.key k = true
    · simp only [fetchChain, ha, if_true, Option.some.injEq] at h
      exact ⟨a, List.mem_cons_self, ha, h⟩
    · simp only [fetchChain, ha, Bool.false_eq_true, if_false] at h
      obtain ⟨e, he, hek⟩ := ih h
      exact ⟨e, List.mem_cons_of_mem a he, hek⟩

/-! ## The latest call on a key -/

def latest (ops : HashOps K) (past : List (Op K V)) (k : K) : Option (Op K V) :=
  past.find? fun op => ops.compareKeys op.key k

theorem latest_congr (hops : ops.Lawful) (past : List (Op K V)) {j k : K}
    (h : ops.compareKeys j k = true) : latest ops past j = latest ops past k := by
  have hsame : ∀ op : Op K V, ops.compareKeys op.key j = ops.compareKeys op.key k := by
    intro op
    rw [Bool.eq_iff_iff]
    exact ⟨fun hj => hops.trans _ _ _ hj h, fun hk => hops.trans _ _ _ hk (hops.symm _ _ h)⟩
  unfold latest
  simp only [hsame]

theorem latest_cons_of_eq {op : Op K V} {past : List (Op K V)} {k : K}
    (h : ops.compareKeys op.key k = true) : latest ops (op :: past) k = some op := by
  simp [latest, h]

theorem latest_cons_of_ne {op : Op K V} {past : List (Op K V)} {k : K}
    (h : ops.compareKeys op.key k = false) : latest ops (op :: past) k = latest ops past k := by
  simp [latest, h]

/-! ## Runs -/

structure Sound (ops : HashOps K) (past : List (Op K V)) (t : HashTable K V) : Prop where
  shape : Shape ops t
  pow : ∃ n, t.bins = 2 ^ n
  count : t.reachable.length ≤ t.entries
  entries_le : t.entries ≤ stores past
  latest : ∀ e ∈ t.reachable, ∃ k, HashTable.latest ops past e.key = some (.store k e.value)

theorem sound_empty : Sound ops [] (empty : HashTable K V) := by
  have hnil : (empty : HashTable K V).reachable = [] := by simp [reachable, contents, empty]
  refine ⟨shape_empty, ⟨4, rfl⟩, by simp [hnil], Nat.zero_le _, fun e he => ?_⟩
  rw [hnil] at he
  cases he

section

variable {past : List (Op K V)} {t : HashTable K V}

theorem Sound.redistribute (hops : ops.Lawful) (h : Sound ops past t) {size : Nat} (h1 : 2 ≤ size)
    (h2 : size ≤ 715827884) (hpow : ∃ n, size = 2 ^ n) :
    Sound ops past (HashTable.redistribute ops size t) :=
  ⟨h.shape.redistribute hops h1 h2, hpow,
    (reachable_redistribute_le (by omega) (by omega) t).trans h.count, h.entries_le,
    fun e he => h.latest e (mem_reachable_redistribute he)⟩

theorem Sound.storeAt (hops : ops.Lawful) (h : Sound ops past t) (hs : stores past < 268435456)
    (k : K) (v : V) : Sound ops (.store k v :: past) (HashTable.storeAt ops k v t) := by
  have hle := h.entries_le
  have hent := entries_storeAt ops t k v (by omega)
  have hb := Bool.toNat_le (storeChain ops k v (t.values (binOf ops t.bins k))).2
  refine ⟨h.shape.storeAt k v, h.pow, ?_, ?_, fun e he => ?_⟩
  · rw [reachable_storeAt t k v (h.shape.binOf_lt k), hent]
    exact Nat.add_le_add_right h.count _
  · simp only [stores, List.countP_cons, Op.isStore, if_true] at hle ⊢
    omega
  · obtain ⟨i, hi, he⟩ := mem_contents.1 he
    have hcases : (e ∈ t.values i ∧ ops.compareKeys e.key k = false) ∨
        (ops.compareKeys e.key k = true ∧ e.value = v) := by
      simp only [HashTable.storeAt] at hi he
      by_cases hik : i = binOf ops t.bins k
      · rw [hik, Function.update_self] at he
        exact hik ▸ mem_storeChain hops (h.shape.distinct _ (h.shape.binOf_lt k)) he
      · rw [Function.update_of_ne hik] at he
        refine .inl ⟨he, ?_⟩
        by_contra hek
        -- an entry for `k` would be in the bin of `k`
        have hbin := binOf_congr hops t.bins (Bool.not_eq_false _ ▸ hek)
        exact hik ((h.shape.placed i hi e he).symm.trans hbin)
    rcases hcases with ⟨hmem, hne⟩ | ⟨heq, rfl⟩
    · rw [latest_cons_of_ne]
      · exact h.latest e (mem_contents.2 ⟨i, hi, hmem⟩)
      · by_contra hke
        rw [hops.symm _ _ (Bool.not_eq_false _ ▸ hke)] at hne
        cases hne
    · exact ⟨k, latest_cons_of_eq (hops.symm _ _ heq)⟩

theorem Sound.removeAt (hops : ops.Lawful) (h : Sound ops past t) (hs : stores past < 268435456)
    (k : K) : Sound ops (.remove k :: past) (HashTable.removeAt ops k t) := by
  have hle := h.entries_le
  have hent := entries_removeAt t k (h.shape.binOf_lt k) h.count (by omega)
  have hr := reachable_removeAt t k (h.shape.binOf_lt k)
  have hcount := h.count
  refine ⟨h.shape.removeAt k, h.pow, by omega, ?_, fun e he => ?_⟩
  · simp only [stores, List.countP_cons, Op.isStore, Bool.false_eq_true, if_false] at hle ⊢
    omega
  · obtain ⟨i, hi, he⟩ := mem_contents.1 he
    have hmem : e ∈ t.values i ∧ ops.compareKeys e.key k = false := by
      simp only [HashTable.removeAt] at hi he
      by_cases hik : i = binOf ops t.bins k
      · rw [hik, Function.update_self] at he
        exact hik ▸ mem_removeChain hops (h.shape.distinct _ (h.shape.binOf_lt k)) he
      · rw [Function.update_of_ne hik] at he
        refine ⟨he, ?_⟩
        by_contra hek
        have hbin := binOf_congr hops t.bins (Bool.not_eq_false _ ▸ hek)
        exact hik ((h.shape.placed i hi e he).symm.trans hbin)
    rw [latest_cons_of_ne]
    · exact h.latest e (mem_contents.2 ⟨i, hi, hmem.1⟩)
    · by_contra hke
      have hek := hops.symm _ _ (Bool.not_eq_false _ ▸ hke)
      rw [show ops.compareKeys e.key (Op.key (.remove k : Op K V)) = false from hmem.2] at hek
      cases hek

theorem pow_double {b : Nat} (h : ∃ n, b = 2 ^ n) : ∃ n, b * 2 = 2 ^ n := by
  obtain ⟨n, rfl⟩ := h
  exact ⟨n + 1, (Nat.pow_succ ..).symm⟩

theorem pow_half {b : Nat} (h : ∃ n, b = 2 ^ n) (hb : 2 ≤ b) : ∃ n, b / 2 = 2 ^ n := by
  obtain ⟨n, rfl⟩ := h
  cases n with
  | zero => omega
  | succ n => exact ⟨n, by rw [Nat.pow_succ, Nat.mul_div_cancel _ (by omega)]⟩

theorem Sound.apply (hops : ops.Lawful) (h : Sound ops past t) (hs : stores past < 268435456)
    (op : Op K V) : Sound ops (op :: past) (HashTable.apply ops t op) := by
  cases op with
  | store k v =>
    simp only [HashTable.apply]
    cases hd : t.maxDensityP with
    | false =>
      rw [store_of_not_dense hd]
      exact h.storeAt hops hs k v
    | true =>
      have hle := h.entries_le
      obtain ⟨hm, hb⟩ := bins_of_dense h.shape hd (by omega)
      have h2 := h.shape.two_le
      rw [store_of_dense hd, hm]
      exact (h.redistribute hops (by omega) hb (pow_double h.pow)).storeAt hops hs k v
  | remove k =>
    simp only [HashTable.apply]
    cases hd : t.minDensityP with
    | false =>
      rw [remove_of_not_sparse hd]
      exact h.removeAt hops hs k
    | true =>
      obtain ⟨h1, h2⟩ := bins_of_sparse h.shape hd
      rw [remove_of_sparse hd]
      exact (h.redistribute hops h1 h2 (pow_half h.pow h.shape.two_le)).removeAt hops hs k

theorem sound_run (hops : ops.Lawful) (hs : stores past < 268435456) :
    Sound ops past (run ops past) := by
  induction past with
  | nil => exact sound_empty
  | cons op past ih =>
    have hs' : stores past < 268435456 :=
      lt_of_le_of_lt (stores_le_of_suffix (List.suffix_cons op past)) hs
    exact (ih hs').apply hops hs' op

/-- An answer of `fetch` is the value of the latest call on the key. -/
theorem Sound.fetch (hops : ops.Lawful) (h : Sound ops past t) {k : K} {v : V}
    (hf : HashTable.fetch ops k t = some v) :
    ∃ j, HashTable.latest ops past k = some (.store j v) := by
  obtain ⟨e, he, hek, rfl⟩ := mem_of_fetchChain hf
  obtain ⟨j, hj⟩ := h.latest e (mem_contents.2 ⟨_, h.shape.binOf_lt k, he⟩)
  exact ⟨j, (latest_congr hops past hek).symm.trans hj⟩

theorem holds_store (hops : ops.Lawful) (k : K) (v : V) (t : HashTable K V) :
    Holds ops (store ops k v t) k := by
  cases hd : t.maxDensityP with
  | false =>
    rw [store_of_not_dense hd, holds_storeAt hops]
    exact .inl (hops.refl k)
  | true =>
    rw [store_of_dense hd, holds_storeAt hops]
    exact .inl (hops.refl k)

end

/-! ## What all entries have in common

A property of entries that every stored pair has is one of all entries, however the
table was resized; nothing about its bins is needed. -/

def Every (P : K → V → Prop) (t : HashTable K V) : Prop :=
  ∀ i, ∀ e ∈ t.values i, P e.key e.value

section Every

variable {P : K → V → Prop} {t : HashTable K V}

theorem every_empty : Every P (empty : HashTable K V) := fun _ _ he => absurd he List.not_mem_nil

theorem Every.mono {Q : K → V → Prop} (h : Every P t) (hPQ : ∀ k v, P k v → Q k v) : Every Q t :=
  fun i e he => hPQ _ _ (h i e he)

theorem Every.redistribute (h : Every P t) (size : Nat) :
    Every P (HashTable.redistribute ops size t) := by
  intro i e he
  have hmem := (List.mem_filter.1 ((redistribute_sublist size t i).subset he)).1
  obtain ⟨j, -, hj⟩ := mem_contents.1 hmem
  exact h j e hj

theorem storeChain_every {k : K} {v : V} (hP : ∀ j, ops.compareKeys j k = true → P j v)
    (hk : P k v) {c : List (HashEntry K V)} (hc : ∀ e ∈ c, P e.key e.value) :
    ∀ e ∈ (storeChain ops k v c).1, P e.key e.value := by
  induction c with
  | nil =>
    intro e he
    obtain rfl := List.mem_singleton.1 he
    exact hk
  | cons a c ih =>
    obtain ⟨ha, hc⟩ := List.forall_mem_cons.1 hc
    by_cases hak : ops.compareKeys a.key k = true
    · simp only [storeChain, hak, if_true]
      exact List.forall_mem_cons.2 ⟨hP a.key hak, hc⟩
    · simp only [storeChain, hak, Bool.false_eq_true, if_false]
      exact List.forall_mem_cons.2 ⟨ha, ih hc⟩

theorem Every.store (h : Every P t) {k : K} {v : V}
    (hP : ∀ j, ops.compareKeys j k = true → P j v) (hk : P k v) :
    Every P (HashTable.store ops k v t) := by
  have hat : ∀ t : HashTable K V, Every P t → Every P (HashTable.storeAt ops k v t) := by
    intro t h i
    simp only [HashTable.storeAt]
    by_cases hi : i = binOf ops t.bins k
    · rw [hi, Function.update_self]
      exact storeChain_every hP hk (h _)
    · rw [Function.update_of_ne hi]
      exact h i
  cases hd : t.maxDensityP with
  | false =>
    rw [store_of_not_dense hd]
    exact hat t h
  | true =>
    rw [store_of_dense hd]
    exact hat _ (h.redistribute _)

theorem Every.fetch (h : Every P t) {k : K} {v : V} (hf : HashTable.fetch ops k t = some v) :
    ∃ j, ops.compareKeys j k = true ∧ P j v := by
  obtain ⟨e, he, hek, rfl⟩ := mem_of_fetchChain hf
  exact ⟨e.key, hek, h _ e he⟩

end Every

end HashTable

end Ulysses
