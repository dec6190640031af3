import Ulysses.HashTable.Sound

/-!
# What a store changes for `fetch`

A store changes the answer for its own key. The answers for the other keys stay, except
for the entries that a rehash drops: of the entries it sends to one bin, `redistribute`
keeps the first and the last (`fetch_store_iff_ends`).
-/

namespace Ulysses

open Lib

namespace HashTable

variable {K V : Type*} {ops : HashOps K}

/-! ## Chains -/

theorem Distinct.eq_of_compareKeys (hops : ops.Lawful) {c : List (HashEntry K V)}
    (hc : Distinct ops c) {a b : HashEntry K V} (ha : a ∈ c) (hb : b ∈ c)
    (h : ops.compareKeys a.key b.key = true) : a = b := by
  induction c with
  | nil => cases ha
  | cons x c ih =>
    obtain ⟨hx, hc⟩ := List.pairwise_cons.1 hc
    rcases List.mem_cons.1 ha with rfl | ha' <;> rcases List.mem_cons.1 hb with rfl | hb'
    · rfl
    · rw [hx b hb'] at h
      cases h
    · have := hops.symm _ _ h
      rw [hx a ha'] at this
      cases this
    · exact ih hc ha' hb'

theorem fetchChain_eq_some (hops : ops.Lawful) {k : K} {v : V} {c : List (HashEntry K V)}
    (hc : Distinct ops c) :
    fetchChain ops k c = some v ↔ ∃ e ∈ c, ops.compareKeys e.key k = true ∧ e.value = v := by
  refine ⟨mem_of_fetchChain, ?_⟩
  rintro ⟨e, he, hek, rfl⟩
  induction c with
  | nil => cases he
  | cons a c ih =>
    obtain ⟨hac, hc⟩ := List.pairwise_cons.1 hc
    unfold fetchChain
    rcases List.mem_cons.1 he with rfl | he
    · rw [if_pos hek]
    · have hak : ¬ops.compareKeys a.key k = true := by
        intro hak
        have hae := hops.trans _ _ _ hak (hops.symm _ _ hek)
        rw [hac e he] at hae
        cases hae
      rw [if_neg hak]
      exact ih hc he

theorem fetchChain_storeChain_same {k : K} (hk : ops.compareKeys k k = true) (v : V)
    (c : List (HashEntry K V)) : fetchChain ops k (storeChain ops k v c).1 = some v := by
  induction c with
  | nil => exact if_pos hk
  | cons a c ih =>
    unfold storeChain
    by_cases hak : ops.compareKeys a.key k = true
    · rw [if_pos hak]
      exact if_pos hak
    · rw [if_neg hak]
      exact (if_neg hak).trans ih

theorem fetchChain_storeChain_other (hops : ops.Lawful) {k j : K} (v : V)
    (hkj : ops.compareKeys k j = false) (c : List (HashEntry K V)) :
    fetchChain ops j (storeChain ops k v c).1 = fetchChain ops j c := by
  have hne : ∀ a : K, ops.compareKeys a k = true → ¬ops.compareKeys a j = true := by
    intro a hak haj
    rw [hops.trans _ _ _ (hops.symm _ _ hak) haj] at hkj
    cases hkj
  induction c with
  | nil =>
    refine if_neg ?_
    rw [hkj]
    exact Bool.false_ne_true
  | cons a c ih =>
    unfold storeChain
    by_cases hak : ops.compareKeys a.key k = true
    · rw [if_pos hak]
      exact (if_neg (hne a.key hak)).trans (if_neg (hne a.key hak)).symm
    · rw [if_neg hak]
      show (if ops.compareKeys a.key j then _ else _) = if ops.compareKeys a.key j then _ else _
      rw [ih]

theorem mem_foldl_link {c : List (HashEntry K V)} {e : HashEntry K V} :
    e ∈ c.foldl link [] ↔ c.head? = some e ∨ c.getLast? = some e := by
  have htwo : ∀ (x y : HashEntry K V) (c : List (HashEntry K V)),
      c.foldl link [x, y] = [x, (y :: c).getLast (List.cons_ne_nil y c)] := by
    intro x y c
    induction c generalizing y with
    | nil => rfl
    | cons z c ih => exact ih z
  match c with
  | [] => simp
  | [x] => simp [link, eq_comm]
  | x :: y :: c =>
    rw [List.foldl_cons, List.foldl_cons, show link (link [] x) y = [x, y] from rfl, htwo]
    rw [List.getLast?_cons_cons, List.getLast?_eq_some_getLast (List.cons_ne_nil y c)]
    simp [eq_comm]

/-! ## Tables -/

theorem Shape.fetch_eq_some (hops : ops.Lawful) {t : HashTable K V} (h : Shape ops t) {k : K}
    {v : V} :
    fetch ops k t = some v ↔
      ∃ e ∈ t.reachable, ops.compareKeys e.key k = true ∧ e.value = v := by
  unfold fetch
  rw [fetchChain_eq_some hops (h.distinct _ (h.binOf_lt k))]
  constructor
  · rintro ⟨e, he, hek⟩
    exact ⟨e, mem_contents.2 ⟨_, h.binOf_lt k, he⟩, hek⟩
  · rintro ⟨e, he, hek, hv⟩
    obtain ⟨i, hi, he⟩ := mem_contents.1 he
    refine ⟨e, ?_, hek, hv⟩
    rw [← binOf_congr hops t.bins hek, h.placed i hi e he]
    exact he

/-- `fetch` knows a key by its hash and its comparisons. -/
theorem fetch_congr {k j : K} (hhash : ops.computeHash k = ops.computeHash j)
    (hcompare : ∀ a, ops.compareKeys a k = ops.compareKeys a j) (t : HashTable K V) :
    fetch ops k t = fetch ops j t := by
  have hchain : ∀ c : List (HashEntry K V), fetchChain ops k c = fetchChain ops j c := by
    intro c
    induction c with
    | nil => rfl
    | cons a c ih =>
      unfold fetchChain
      rw [hcompare, ih]
  unfold fetch binOf
  rw [hhash, hchain]

theorem fetch_storeAt_same {k : K} (hk : ops.compareKeys k k = true) (v : V) (t : HashTable K V) :
    fetch ops k (storeAt ops k v t) = some v := by
  unfold fetch storeAt
  simp only [Function.update_self]
  exact fetchChain_storeChain_same hk v _

theorem fetch_storeAt_other (hops : ops.Lawful) {k j : K} (v : V)
    (hkj : ops.compareKeys k j = false) (t : HashTable K V) :
    fetch ops j (storeAt ops k v t) = fetch ops j t := by
  unfold fetch storeAt
  simp only
  by_cases hbin : binOf ops t.bins j = binOf ops t.bins k
  · rw [hbin, Function.update_self]
    exact fetchChain_storeChain_other hops v hkj _
  · rw [Function.update_of_ne hbin]

theorem fetch_store_same {k : K} (hk : ops.compareKeys k k = true) (v : V) (t : HashTable K V) :
    fetch ops k (store ops k v t) = some v := by
  cases hd : t.maxDensityP with
  | false =>
    rw [store_of_not_dense hd]
    exact fetch_storeAt_same hk v t
  | true =>
    rw [store_of_dense hd]
    exact fetch_storeAt_same hk v _

theorem fetch_store_of_not_dense (hops : ops.Lawful) {t : HashTable K V}
    (hd : t.maxDensityP = false) {k j : K} (v : V) (hkj : ops.compareKeys k j = false) :
    fetch ops j (store ops k v t) = fetch ops j t := by
  rw [store_of_not_dense hd]
  exact fetch_storeAt_other hops v hkj t

/-- The entry is the first or the last of those that a rehash to `size` bins sends to its
bin. -/
def AtEnd (ops : HashOps K) (size : Nat) (t : HashTable K V) (e : HashEntry K V) : Prop :=
  let sent := distribute (fun e : HashEntry K V => binOf ops size e.key) t.reachable
    (binOf ops size e.key)
  sent.head? = some e ∨ sent.getLast? = some e

theorem mem_reachable_redistribute_iff {size : Nat} (h1 : 1 ≤ size) (h2 : size < 4294967296)
    {t : HashTable K V} {e : HashEntry K V} :
    e ∈ (redistribute ops size t).reachable ↔ AtEnd ops size t e := by
  unfold AtEnd
  rw [← mem_foldl_link, ← redistribute_values]
  constructor
  · intro he
    obtain ⟨i, -, he⟩ := mem_contents.1 he
    have hi : binOf ops size e.key = i :=
      of_decide_eq_true (List.mem_filter.1 ((redistribute_sublist size t i).subset he)).2
    rwa [hi]
  · exact fun he => mem_contents.2 ⟨_, binOf_lt ops size h1 h2 e.key, he⟩

section Store

variable {t : HashTable K V} (hops : ops.Lawful) (h : Shape ops t) (ht : t.entries < 268435456)
  {k j : K} {v w : V}

include hops h ht

/-- What `fetch` answers after a rehash. -/
theorem Shape.fetch_store_of_dense (hd : t.maxDensityP = true) (hkj : ops.compareKeys k j = false) :
    fetch ops j (store ops k v t) = some w ↔
      ∃ e ∈ t.reachable, AtEnd ops (t.bins * 2) t e ∧ ops.compareKeys e.key j = true ∧
        e.value = w := by
  obtain ⟨hmul, hbins⟩ := bins_of_dense h hd ht
  have htwo := h.two_le
  rw [store_of_dense hd, hmul, fetch_storeAt_other hops v hkj,
    (h.redistribute hops (by omega) hbins).fetch_eq_some hops]
  constructor
  · rintro ⟨e, he, hej, hv⟩
    exact ⟨e, mem_reachable_redistribute he,
      (mem_reachable_redistribute_iff (by omega) (by omega)).1 he, hej, hv⟩
  · rintro ⟨e, -, he, hej, hv⟩
    exact ⟨e, (mem_reachable_redistribute_iff (by omega) (by omega)).2 he, hej, hv⟩

theorem Shape.fetch_of_fetch_store (hkj : ops.compareKeys k j = false)
    (hf : fetch ops j (store ops k v t) = some w) : fetch ops j t = some w := by
  cases hd : t.maxDensityP with
  | false => rwa [fetch_store_of_not_dense hops hd v hkj] at hf
  | true =>
    obtain ⟨e, he, -, hej, hv⟩ := (h.fetch_store_of_dense hops ht hd hkj).1 hf
    exact (h.fetch_eq_some hops).2 ⟨e, he, hej, hv⟩

/-- The answers for the keys in `P` stay just when a rehash keeps their entries. -/
theorem Shape.fetch_store_iff_ends (hk : fetch ops k t = none) {P : K → Prop}
    (hP : ∀ a b, ops.compareKeys a b = true → P b → P a) :
    (∀ j, P j → ops.compareKeys k j = false → fetch ops j (store ops k v t) = fetch ops j t) ↔
      (t.maxDensityP = true → ∀ e ∈ t.reachable, P e.key → AtEnd ops (t.bins * 2) t e) := by
  cases hd : t.maxDensityP with
  | false =>
    simp only [Bool.false_eq_true, false_imp_iff, iff_true]
    exact fun j _ hkj => fetch_store_of_not_dense hops hd v hkj
  | true =>
    simp only [true_imp_iff]
    constructor
    · intro hall e he hPe
      have hfetch : fetch ops e.key t = some e.value :=
        (h.fetch_eq_some hops).2 ⟨e, he, hops.refl _, rfl⟩
      -- the key of the store has no entry
      have hke : ops.compareKeys k e.key = false := by
        by_contra hke
        have hke := hops.symm _ _ (Bool.not_eq_false _ ▸ hke)
        rw [(h.fetch_eq_some hops).2 ⟨e, he, hke, rfl⟩] at hk
        cases hk
      rw [← hall e.key hPe hke] at hfetch
      obtain ⟨e', he', hend, hkey, -⟩ := (h.fetch_store_of_dense hops ht hd hke).1 hfetch
      exact (h.distinct_reachable hops).eq_of_compareKeys hops he' he hkey ▸ hend
    · intro hall j hPj hkj
      refine Option.ext fun w => ?_
      rw [h.fetch_store_of_dense hops ht hd hkj, h.fetch_eq_some hops]
      constructor
      · rintro ⟨e, he, -, hej, hw⟩
        exact ⟨e, he, hej, hw⟩
      · rintro ⟨e, he, hej, hw⟩
        exact ⟨e, he, hall e he (hP e.key j hej hPj), hej, hw⟩

end Store

end HashTable

end Ulysses
