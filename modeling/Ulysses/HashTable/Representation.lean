import Ulysses.HashTable.Refinement

/-!
# Runs of the table in memory

Every run of calls on a table in memory is a run on the table of lists
(`Runs.refines`). So the representation is well formed after every call
(`representation`), and `fetch` answers with the latest value of its key or not at all
(`fetch_latest`).
-/

namespace Ulysses

open Lib

namespace HashMemory

open HashTable (Op stores run Sound sound_run binOf)

variable {K V : Type*} {ops : HashOps K}

/-- The memory after the calls `past` on a new table, the latest first; a new entry is at
an address that is not allocated. -/
inductive Runs (ops : HashOps K) : List (Op K V) → HashMemory K V → Prop
  | init (nodes : Nat → HashNode K V) : Runs ops [] (init nodes)
  | store {past : List (Op K V)} {m m' : HashMemory K V} {a : Nat} {k : K} {v : V}
      (h : Runs ops past m) (hfresh : a ∉ m.live) (hs : m.store ops a k v = some m') :
      Runs ops (.store k v :: past) m'
  | remove {past : List (Op K V)} {m m' : HashMemory K V} {k : K} {found : Bool}
      (h : Runs ops past m) (hs : m.remove ops k = some (m', found)) :
      Runs ops (.remove k :: past) m'

section

variable {past : List (Op K V)} {m : HashMemory K V} {t : HashTable K V} {chains : Nat → List Nat}

theorem refines_init (nodes : Nat → HashNode K V) :
    Refines (init nodes) HashTable.empty fun _ => [] :=
  ⟨⟨fun _ _ => rfl, fun _ _ => List.nodup_nil, fun _ _ _ _ _ ha => absurd ha List.not_mem_nil,
    fun _ _ _ ha => absurd ha List.not_mem_nil⟩, rfl, rfl, fun _ _ => rfl⟩

theorem Runs.refines (hops : ops.Lawful) (h : Runs ops past m) (hs : stores past < 268435456) :
    ∃ chains, Refines m (run ops past) chains := by
  induction h with
  | init nodes => exact ⟨_, refines_init nodes⟩
  | @store past m m' a k v _ hfresh hstore ih =>
    have hs' : stores past < 268435456 :=
      lt_of_le_of_lt (HashTable.stores_le_of_suffix (List.suffix_cons _ past)) hs
    obtain ⟨chains, href⟩ := ih hs'
    obtain ⟨m₁, chains', hm₁, href'⟩ := href.store (sound_run hops hs').shape hfresh k v
    obtain rfl := Option.some.inj (hstore.symm.trans hm₁)
    exact ⟨chains', href'⟩
  | @remove past m m' k found _ hremove ih =>
    have hs' : stores past < 268435456 :=
      lt_of_le_of_lt (HashTable.stores_le_of_suffix (List.suffix_cons _ past)) hs
    obtain ⟨chains, href⟩ := ih hs'
    obtain ⟨m₁, chains', found', hm₁, href'⟩ := href.remove (sound_run hops hs').shape k
    obtain ⟨rfl, -⟩ := Prod.mk.inj (Option.some.inj (hremove.symm.trans hm₁))
    exact ⟨chains', href'⟩

/-! ## The representation -/

/-- The bins are a power of two of null-terminated chains; an entry is in the bin of its
key, and no other entry has an equal key. -/
structure WellFormed (ops : HashOps K) (m : HashMemory K V) : Prop where
  pow : ∃ n, m.bins = 2 ^ n
  two_le : 2 ≤ m.bins
  findBin : ∀ hash, HashTable.findBin hash m.bins < m.bins
  chains : ∃ chains : Nat → List Nat,
    (∀ i < m.bins, Chain m.next (m.values i) (chains i)) ∧
    (∀ i < m.bins, ∀ a ∈ chains i,
      (ops.computeHash (m.nodes a).key).toNat &&& (m.bins - 1) = i) ∧
    (contents chains m.bins).Pairwise fun a b =>
      ops.compareKeys (m.nodes a).key (m.nodes b).key = false

theorem Refines.wellFormed (hops : ops.Lawful) (h : Refines m t chains)
    (hsound : Sound ops past t) :
    m.WellFormed ops := by
  have h2 := hsound.shape.two_le
  have hle := hsound.shape.bins_le
  have hpow := hsound.pow
  rw [h.bins] at h2 hle hpow
  refine ⟨hpow, h2, fun hash => ?_, chains, h.chain, fun i hi a ha => ?_, ?_⟩
  · exact HashTable.binOf_lt ⟨fun _ : Unit => hash, fun _ _ => true⟩ m.bins (by omega) (by omega) ()
  · have hmem : entryAt m.nodes a ∈ t.values i := by
      rw [h.values i hi]
      exact List.mem_map_of_mem ha
    have hplaced := hsound.shape.placed i (h.bins ▸ hi) _ hmem
    rwa [h.bins, HashTable.binOf, HashTable.findBin, sub32_eq (by omega) (by omega)] at hplaced
  · have hdistinct := hsound.shape.distinct_reachable hops
    rw [h.reachable, HashTable.Distinct, List.pairwise_map] at hdistinct
    exact hdistinct

/-- After every run of calls the representation is well formed, and the next call
returns. -/
theorem representation (hops : ops.Lawful) (h : Runs ops past m) (hs : stores past < 268435456) :
    m.WellFormed ops ∧ (∀ a k v, a ∉ m.live → (m.store ops a k v).isSome) ∧
      ∀ k, (m.remove ops k).isSome := by
  obtain ⟨chains, href⟩ := h.refines hops hs
  have hsound := sound_run hops hs
  refine ⟨href.wellFormed hops hsound, fun a k v hfresh => ?_, fun k => ?_⟩
  · obtain ⟨m', -, hm', -⟩ := href.store hsound.shape hfresh k v
    rw [hm']
    rfl
  · obtain ⟨m', -, found, hm', -⟩ := href.remove hsound.shape k
    rw [hm']
    rfl

/-- A remove has halved the table, and the next one will halve it again. -/
theorem runs_halved :
    ∃ m, Runs identityHashOps [.remove 2, .store 1 (10 : Nat)] m ∧ m.bins = 8 ∧ m.live = [0] ∧
      (m.remove identityHashOps 1).map (fun r => r.1.bins) = some 4 := by
  have hrun : (((init fun _ => ⟨0, 0, none⟩).store identityHashOps 0 1 10).bind fun m =>
      (m.remove identityHashOps 2).map fun r => (r.1.bins, r.1.live,
        (r.1.remove identityHashOps 1).map fun r => r.1.bins)) = some (8, [0], some 4) := by
    decide +kernel
  obtain ⟨m, hm, hremove⟩ := Option.bind_eq_some_iff.1 hrun
  obtain ⟨⟨m', found⟩, hm', hresult⟩ := Option.map_eq_some_iff.1 hremove
  obtain ⟨hbins, hrest⟩ := Prod.mk.inj hresult
  obtain ⟨hlive, hnext⟩ := Prod.mk.inj hrest
  exact ⟨m', .remove (.store (.init _) List.not_mem_nil hm) hm', hbins, hlive, hnext⟩

/-- A table that a remove has halved. -/
theorem representation_halved :
    ∃ m, Runs identityHashOps [.remove 2, .store 1 (10 : Nat)] m ∧ m.bins = 8 ∧
      m.WellFormed identityHashOps := by
  obtain ⟨m, hruns, hbins, -⟩ := runs_halved
  exact ⟨m, hruns, hbins, (representation identityHashOps_lawful hruns (by decide)).1⟩

/-! ## The answers -/

theorem Runs.fetch (hops : ops.Lawful) (h : Runs ops past m) (hs : stores past < 268435456)
    (k : K) :
    m.fetch ops k = some (HashTable.fetch ops k (run ops past)) := by
  obtain ⟨chains, href⟩ := h.refines hops hs
  exact href.fetch (href.binOf_lt (sound_run hops hs).shape (.inl rfl) k)

/-- `fetch` returns, and a value it finds is the one that the latest call on the key has
stored; a store returns and `fetch` then finds its value, a remove returns and `fetch` then finds
nothing. -/
theorem fetch_latest (hops : ops.Lawful) (h : Runs ops past m) (hs : stores past < 268435456)
    (k : K) :
    (∃ r, m.fetch ops k = some r ∧
      ∀ v, r = some v → ∃ j, HashTable.latest ops past k = some (.store j v)) ∧
    (∀ a v, a ∉ m.live →
      ∃ m', m.store ops a k v = some m' ∧ m'.fetch ops k = some (some v)) ∧
    ∃ m' found, m.remove ops k = some (m', found) ∧ m'.fetch ops k = some none := by
  have hsound := sound_run hops hs
  obtain ⟨chains, href⟩ := h.refines hops hs
  refine ⟨⟨_, h.fetch hops hs k, fun v hv => hsound.fetch hops hv⟩, ?_, ?_⟩
  · intro a v hfresh
    obtain ⟨m', chains', hm', href'⟩ := href.store hsound.shape hfresh k v
    have hsound' := hsound.apply hops hs (.store k v)
    refine ⟨m', hm', ?_⟩
    rw [href'.fetch (href'.binOf_lt hsound'.shape (.inl rfl) k)]
    obtain ⟨v', hv'⟩ := Option.isSome_iff_exists.1
      ((HashTable.fetch_isSome _ k).2 (HashTable.holds_store hops k v (run ops past)))
    obtain ⟨j, hj⟩ := hsound'.fetch hops hv'
    rw [HashTable.latest_cons_of_eq (hops.refl k)] at hj
    obtain ⟨-, rfl⟩ := HashTable.Op.store.inj (Option.some.inj hj)
    exact congrArg some hv'
  · obtain ⟨m', chains', found, hm', href'⟩ := href.remove hsound.shape k
    have hsound' := hsound.apply hops hs (.remove k)
    refine ⟨m', found, hm', ?_⟩
    rw [href'.fetch (href'.binOf_lt hsound'.shape (.inl rfl) k)]
    cases hf : HashTable.fetch ops k (HashTable.remove ops k (run ops past)).1 with
    | none => rfl
    | some v =>
      obtain ⟨j, hj⟩ := hsound'.fetch hops hf
      rw [HashTable.latest_cons_of_eq (hops.refl k)] at hj
      cases hj

/-- A store into a table that a remove has halved, and a remove that halves it again. -/
theorem fetch_latest_halved :
    ∃ m, Runs identityHashOps [.remove 2, .store 1 (10 : Nat)] m ∧ m.bins = 8 ∧
      (∃ m', m.store identityHashOps 1 1 20 = some m' ∧
        m'.fetch identityHashOps 1 = some (some 20)) ∧
      ∃ m' found, m.remove identityHashOps 1 = some (m', found) ∧ m'.bins = 4 ∧
        m'.fetch identityHashOps 1 = some none := by
  obtain ⟨m, hruns, hbins, hlive, hnext⟩ := runs_halved
  obtain ⟨-, hstore, m', found, hm', hnone⟩ :=
    fetch_latest identityHashOps_lawful hruns (by decide) 1
  rw [hm'] at hnext
  exact ⟨m, hruns, hbins, hstore 1 20 (by rw [hlive]; decide), m', found, hm',
    Option.some.inj hnext, hnone⟩

end

end HashMemory

end Ulysses
