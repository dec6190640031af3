import Mathlib.Data.List.Induction
import Ulysses.HashTable.Memory

/-!
# The calls on the table in memory

Each function on the table in memory returns, and does what its counterpart does on
the table of lists.
-/

namespace Ulysses

open Lib

namespace HashTable

variable {K V : Type*} {ops : HashOps K}

/-! ## Chains that begin with other keys -/

/-- No entry is for the key. -/
def Skips (ops : HashOps K) (k : K) (c : List (HashEntry K V)) : Prop :=
  ∀ e ∈ c, ops.compareKeys e.key k = false

theorem storeChain_append {k : K} {v : V} {c : List (HashEntry K V)} (hc : Skips ops k c)
    (d : List (HashEntry K V)) :
    storeChain ops k v (c ++ d) = (c ++ (storeChain ops k v d).1, (storeChain ops k v d).2) := by
  induction c with
  | nil => rfl
  | cons e c ih =>
    have he := hc e List.mem_cons_self
    rw [List.cons_append, storeChain, if_neg (by simp [he]),
      ih fun x hx => hc x (List.mem_cons_of_mem e hx)]
    rfl

theorem removeChain_append {k : K} {c : List (HashEntry K V)} (hc : Skips ops k c)
    (d : List (HashEntry K V)) :
    removeChain ops k (c ++ d) = (c ++ (removeChain ops k d).1, (removeChain ops k d).2) := by
  induction c with
  | nil => rfl
  | cons e c ih =>
    have he := hc e List.mem_cons_self
    rw [List.cons_append, removeChain, if_neg (by simp [he]),
      ih fun x hx => hc x (List.mem_cons_of_mem e hx)]
    rfl

theorem fetchChain_append {k : K} {c : List (HashEntry K V)} (hc : Skips ops k c)
    (d : List (HashEntry K V)) : fetchChain ops k (c ++ d) = fetchChain ops k d := by
  induction c with
  | nil => rfl
  | cons e c ih =>
    have he := hc e List.mem_cons_self
    rw [List.cons_append, fetchChain, if_neg (by simp [he]),
      ih fun x hx => hc x (List.mem_cons_of_mem e hx)]

end HashTable

namespace HashMemory

open HashTable (binOf Skips)

variable {K V : Type*} {ops : HashOps K}

/-! ## Walking along a chain -/

theorem walk_spec (ops : HashOps K) (k : K) {nodes : Nat → HashNode K V} {n : Nat}
    (last : Option Nat) {p : Option Nat} {xs : List Nat}
    (h : Chain (fun a => (nodes a).next) p xs) (hn : xs.length ≤ n) :
    (∃ ys a zs, xs = ys ++ a :: zs ∧ Skips ops k (ys.map (entryAt nodes)) ∧
      ops.compareKeys (entryAt nodes a).key k = true ∧
      walk ops k nodes n last p = some (ys.getLast?.or last, some a)) ∨
    (Skips ops k (xs.map (entryAt nodes)) ∧
      walk ops k nodes n last p = some (xs.getLast?.or last, none)) := by
  induction xs generalizing n last p with
  | nil =>
    obtain rfl : p = none := h
    refine .inr ⟨by simp [Skips], ?_⟩
    cases n <;> rfl
  | cons a xs ih =>
    obtain ⟨rfl, h⟩ := h
    obtain ⟨n, rfl⟩ : ∃ n', n = n' + 1 := ⟨n - 1, by simp at hn; omega⟩
    by_cases ha : ops.compareKeys (nodes a).key k = true
    · exact .inl ⟨[], a, xs, rfl, by simp [Skips], ha, by simp [walk, ha]⟩
    · have hskip : ops.compareKeys (entryAt nodes a).key k = false := Bool.eq_false_iff.2 ha
      have hlast : ∀ ys : List Nat, (a :: ys).getLast?.or last = ys.getLast?.or (some a) := by
        intro ys
        cases hys : ys.getLast? <;> simp [List.getLast?_cons, hys]
      have hwalk : walk ops k nodes (n + 1) last (some a) =
          walk ops k nodes n (some a) (nodes a).next := by
        simp [walk, ha]
      rcases ih (some a) h (by simpa using hn) with
        ⟨ys, b, zs, rfl, hys, hb, hw⟩ | ⟨hxs, hw⟩
      · refine .inl ⟨a :: ys, b, zs, rfl, ?_, hb, ?_⟩
        · rw [List.map_cons]
          exact List.forall_mem_cons.2 ⟨hskip, hys⟩
        · rw [hwalk, hw, hlast]
      · refine .inr ⟨?_, by rw [hwalk, hw, hlast]⟩
        rw [List.map_cons]
        exact List.forall_mem_cons.2 ⟨hskip, hxs⟩

section

variable {m : HashMemory K V} {t : HashTable K V} {chains : Nat → List Nat}

theorem Rep.length_le (h : Rep m chains) {i : Nat} (hi : i < m.bins) :
    (chains i).length ≤ m.live.length :=
  (List.subperm_of_subset (h.nodup i hi) (h.live i hi)).length_le

theorem Refines.find_spec (h : Refines m t chains) {k : K} (hb : binOf ops m.bins k < m.bins) :
    (∃ ys a zs, chains (binOf ops m.bins k) = ys ++ a :: zs ∧
      Skips ops k (ys.map (entryAt m.nodes)) ∧
      ops.compareKeys (entryAt m.nodes a).key k = true ∧
      m.find ops k = some (ys.getLast?, some a)) ∨
    (Skips ops k ((chains (binOf ops m.bins k)).map (entryAt m.nodes)) ∧
      m.find ops k = some ((chains (binOf ops m.bins k)).getLast?, none)) := by
  have hspec := walk_spec ops k none (h.chain _ hb) (h.length_le hb)
  unfold find
  simpa only [Option.or_none] using hspec

theorem Refines.fetch (h : Refines m t chains) {k : K} (hb : binOf ops m.bins k < m.bins) :
    m.fetch ops k = some (HashTable.fetch ops k t) := by
  unfold HashMemory.fetch HashTable.fetch
  rw [h.bins, h.values _ hb]
  rcases h.find_spec hb with ⟨ys, a, zs, hsplit, hys, ha, hfind⟩ | ⟨hskip, hfind⟩
  · rw [hfind, hsplit, List.map_append, HashTable.fetchChain_append hys, List.map_cons,
      HashTable.fetchChain, if_pos ha]
    rfl
  · have hnil := HashTable.fetchChain_append hskip []
    rw [List.append_nil] at hnil
    rw [hfind, hnil]
    rfl

/-! ## `store` -/

theorem next_setNext (a : Nat) (q : Option Nat) (m : HashMemory K V) :
    ({ m with nodes := setNext a q m.nodes } : HashMemory K V).next =
      Function.update m.next a q := by
  funext b
  by_cases hb : b = a
  · subst hb
    simp [next, setNext]
  · simp [next, setNext, hb]

theorem entryAt_setNext (a : Nat) (q : Option Nat) (nodes : Nat → HashNode K V) :
    entryAt (setNext a q nodes) = entryAt nodes := by
  funext b
  by_cases hb : b = a
  · subst hb
    simp [entryAt, setNext]
  · simp [entryAt, setNext, hb]

theorem entryAt_setLink (last : Option Nat) (bin : Nat) (p : Option Nat) (m : HashMemory K V) :
    entryAt (m.setLink last bin p).nodes = entryAt m.nodes := by
  cases last with
  | none => rfl
  | some last => exact entryAt_setNext last p m.nodes

theorem Rep.chain_setLink (h : Rep m chains) {bin : Nat} (hb : bin < m.bins)
    {ys rest rest' : List Nat} {p : Option Nat} (hsplit : chains bin = ys ++ rest)
    (hp : Chain m.next p rest') (hnd : (ys ++ rest').Nodup) {i : Nat} (hi : i < m.bins) :
    Chain (m.setLink ys.getLast? bin p).next ((m.setLink ys.getLast? bin p).values i)
      (Function.update chains bin (ys ++ rest') i) := by
  cases hlast : ys.getLast? with
  | none =>
    obtain rfl := List.getLast?_eq_none_iff.1 hlast
    simp only [HashMemory.setLink]
    by_cases heq : i = bin
    · rw [heq, Function.update_self, Function.update_self]
      exact hp
    · rw [Function.update_of_ne heq, Function.update_of_ne heq]
      exact h.chain i hi
  | some l =>
    obtain ⟨ys', rfl⟩ := List.getLast?_eq_some_iff.1 hlast
    simp only [HashMemory.setLink, next_setNext]
    by_cases heq : i = bin
    · rw [heq, Function.update_self, List.append_assoc, List.singleton_append]
      have hchain := h.chain bin hb
      have hnodup := h.nodup bin hb
      rw [hsplit, List.append_assoc, List.singleton_append] at hchain hnodup
      refine hchain.update_append hnodup (hp.update_of_not_mem (fun hl => ?_) p)
      rw [List.nodup_append] at hnd
      exact hnd.2.2 l (by simp) l hl rfl
    · rw [Function.update_of_ne heq]
      refine (h.chain i hi).update_of_not_mem (fun hl => heq ?_) p
      exact h.disjoint i hi bin hb l hl (by simp [hsplit])

theorem Rep.setLink (h : Rep m chains) {bin : Nat} (hb : bin < m.bins) {ys rest rest' : List Nat}
    {p : Option Nat} (hsplit : chains bin = ys ++ rest) (hp : Chain m.next p rest')
    (hnd : (ys ++ rest').Nodup) (hlive : ∀ x ∈ rest', x ∈ m.live)
    (hnew : ∀ x ∈ rest', ∀ i < m.bins, x ∈ chains i → i = bin) :
    Rep (m.setLink ys.getLast? bin p) (Function.update chains bin (ys ++ rest')) := by
  have hmem : ∀ i < m.bins, ∀ x ∈ Function.update chains bin (ys ++ rest') i,
      x ∈ chains i ∨ (i = bin ∧ x ∈ rest') := by
    intro i _ x hx
    by_cases hi : i = bin
    · subst hi
      rw [Function.update_self] at hx
      rcases List.mem_append.1 hx with hx | hx
      · exact .inl (by simp [hsplit, hx])
      · exact .inr ⟨rfl, hx⟩
    · rw [Function.update_of_ne hi] at hx
      exact .inl hx
  have hbins : (m.setLink ys.getLast? bin p).bins = m.bins := by
    unfold HashMemory.setLink
    split <;> rfl
  have hlive' : (m.setLink ys.getLast? bin p).live = m.live := by
    unfold HashMemory.setLink
    split <;> rfl
  refine ⟨fun i hi => ?_, fun i hi => ?_, fun i hi j hj x hx hx' => ?_, fun i hi x hx => ?_⟩
  · rw [hbins] at hi
    exact h.chain_setLink hb hsplit hp hnd hi
  · rw [hbins] at hi
    by_cases heq : i = bin
    · rw [heq, Function.update_self]
      exact hnd
    · rw [Function.update_of_ne heq]
      exact h.nodup i hi
  · rw [hbins] at hi hj
    rcases hmem i hi x hx with hxi | ⟨rfl, hxi⟩
    · rcases hmem j hj x hx' with hxj | ⟨rfl, hxj⟩
      · exact h.disjoint i hi j hj x hxi hxj
      · exact hnew x hxj i hi hxi
    · rcases hmem j hj x hx' with hxj | ⟨rfl, hxj⟩
      · exact (hnew x hxi j hj hxj).symm
      · rfl
  · rw [hbins] at hi
    rw [hlive']
    rcases hmem i hi x hx with hxi | ⟨-, hxi⟩
    · exact h.live i hi x hxi
    · exact hlive x hxi

theorem next_setValue (a : Nat) (v : V) (m : HashMemory K V) :
    (m.setValue a v).next = m.next := by
  funext b
  by_cases hb : b = a
  · subst hb
    simp [next, setValue]
  · simp [next, setValue, hb]

theorem map_entryAt_of_not_mem {nodes nodes' : Nat → HashNode K V} {a : Nat}
    (hn : ∀ b, b ≠ a → entryAt nodes' b = entryAt nodes b) {xs : List Nat} (ha : a ∉ xs) :
    xs.map (entryAt nodes') = xs.map (entryAt nodes) :=
  List.map_congr_left fun b hb => hn b fun heq => ha (heq ▸ hb)

theorem Refines.setValue (h : Refines m t chains) {k : K} (v : V)
    (hb : binOf ops m.bins k < m.bins) {ys zs : List Nat} {a : Nat}
    (hsplit : chains (binOf ops m.bins k) = ys ++ a :: zs)
    (hys : Skips ops k (ys.map (entryAt m.nodes)))
    (ha : ops.compareKeys (entryAt m.nodes a).key k = true) :
    Refines (m.setValue a v) (HashTable.storeAt ops k v t) chains := by
  have hother : ∀ b, b ≠ a → entryAt (m.setValue a v).nodes b = entryAt m.nodes b := by
    intro b hne
    simp [entryAt, HashMemory.setValue, hne]
  have hself : entryAt (m.setValue a v).nodes a = { entryAt m.nodes a with value := v } := by
    simp [entryAt, HashMemory.setValue]
  have hstore : HashTable.storeChain ops k v ((chains (binOf ops m.bins k)).map (entryAt m.nodes)) =
      ((chains (binOf ops m.bins k)).map (entryAt (m.setValue a v).nodes), false) := by
    have hnd := h.nodup _ hb
    rw [hsplit] at hnd ⊢
    have hnot : a ∉ ys ∧ a ∉ zs := by
      rw [List.nodup_append] at hnd
      exact ⟨fun hmem => hnd.2.2 a hmem a List.mem_cons_self rfl, (List.nodup_cons.1 hnd.2.1).1⟩
    rw [List.map_append, List.map_append, HashTable.storeChain_append hys, List.map_cons,
      List.map_cons, HashTable.storeChain, if_pos ha, hself,
      map_entryAt_of_not_mem hother hnot.1, map_entryAt_of_not_mem hother hnot.2]
  refine ⟨⟨fun i hi => ?_, h.nodup, h.disjoint, h.live⟩, h.bins, ?_, fun i hi => ?_⟩
  · rw [next_setValue]
    exact h.chain i hi
  · simp only [HashTable.storeAt]
    rw [h.bins, h.values _ hb, hstore]
    exact h.entries
  · simp only [HashTable.storeAt]
    rw [h.bins, h.values _ hb, hstore]
    by_cases heq : i = binOf ops m.bins k
    · rw [heq, Function.update_self]
    · rw [Function.update_of_ne heq, h.values i hi]
      refine (map_entryAt_of_not_mem hother fun hmem => heq ?_).symm
      exact h.disjoint i hi _ hb a hmem (by simp [hsplit])

theorem Rep.allocate (h : Rep m chains) {a : Nat} (hfresh : a ∉ m.live) (k : K) (v : V) :
    Rep (m.allocate a k v) chains := by
  refine ⟨fun i hi => ?_, h.nodup, h.disjoint, fun i hi x hx => ?_⟩
  · refine (h.chain i hi).congr fun x hx => ?_
    have hne : x ≠ a := fun heq => hfresh (heq ▸ h.live i hi x hx)
    simp [next, HashMemory.allocate, hne]
  · exact List.mem_cons_of_mem a (h.live i hi x hx)

theorem Refines.allocate (h : Refines m t chains) {a : Nat} (hfresh : a ∉ m.live) {k : K} (v : V)
    (hb : binOf ops m.bins k < m.bins)
    (hskip : Skips ops k ((chains (binOf ops m.bins k)).map (entryAt m.nodes))) :
    Refines ((m.allocate a k v).setLink (chains (binOf ops m.bins k)).getLast?
        (binOf ops m.bins k) (some a)) (HashTable.storeAt ops k v t)
      (Function.update chains (binOf ops m.bins k) (chains (binOf ops m.bins k) ++ [a])) := by
  have hnot : ∀ i < m.bins, a ∉ chains i := fun i hi hmem => hfresh (h.live i hi a hmem)
  have hother : ∀ b, b ≠ a → entryAt (m.allocate a k v).nodes b = entryAt m.nodes b := by
    intro b hne
    simp [entryAt, HashMemory.allocate, hne]
  have hself : entryAt (m.allocate a k v).nodes a = ⟨k, v⟩ := by
    simp [entryAt, HashMemory.allocate]
  have hstore : HashTable.storeChain ops k v
      ((chains (binOf ops m.bins k)).map (entryAt m.nodes)) =
      ((chains (binOf ops m.bins k)).map (entryAt m.nodes) ++ [⟨k, v⟩], true) := by
    have happ := HashTable.storeChain_append (v := v) hskip []
    rwa [List.append_nil] at happ
  have hbins : ((m.allocate a k v).setLink (chains (binOf ops m.bins k)).getLast?
      (binOf ops m.bins k) (some a)).bins = m.bins := by
    unfold HashMemory.setLink
    split <;> rfl
  have hentries : ((m.allocate a k v).setLink (chains (binOf ops m.bins k)).getLast?
      (binOf ops m.bins k) (some a)).entries = add32 m.entries 1 := by
    unfold HashMemory.setLink
    split <;> rfl
  refine ⟨(h.toRep.allocate hfresh k v).setLink hb (List.append_nil _).symm ?_ ?_ ?_ ?_,
    h.bins.trans hbins.symm, ?_, fun i hi => ?_⟩
  · simp [next, HashMemory.allocate]
  · exact List.nodup_append.2 ⟨h.nodup _ hb, List.nodup_singleton a, fun x hx y hy heq =>
      hnot _ hb (List.mem_singleton.1 hy ▸ heq ▸ hx)⟩
  · intro x hx
    rw [List.mem_singleton.1 hx]
    exact List.mem_cons_self
  · intro x hx i hi hmem
    rw [List.mem_singleton.1 hx] at hmem
    exact absurd hmem (hnot i hi)
  · rw [hentries]
    simp only [HashTable.storeAt]
    rw [h.bins, h.values _ hb, hstore, h.entries]
    exact if_pos rfl
  · rw [hbins] at hi
    rw [entryAt_setLink]
    simp only [HashTable.storeAt]
    rw [h.bins, h.values _ hb, hstore]
    by_cases heq : i = binOf ops m.bins k
    · rw [heq, Function.update_self, Function.update_self, List.map_append,
        map_entryAt_of_not_mem hother (hnot _ hb), List.map_singleton, hself]
    · rw [Function.update_of_ne heq, Function.update_of_ne heq, h.values i hi,
        map_entryAt_of_not_mem hother (hnot i hi)]

theorem Refines.storeAt (h : Refines m t chains) {a : Nat} (hfresh : a ∉ m.live) (k : K) (v : V)
    (hb : binOf ops m.bins k < m.bins) :
    ∃ m' chains', m.storeAt ops a k v = some m' ∧
      Refines m' (HashTable.storeAt ops k v t) chains' := by
  unfold HashMemory.storeAt
  rcases h.find_spec hb with ⟨ys, b, zs, hsplit, hys, hbk, hfind⟩ | ⟨hskip, hfind⟩
  · rw [hfind]
    exact ⟨_, chains, rfl, h.setValue v hb hsplit hys hbk⟩
  · rw [hfind]
    exact ⟨_, _, rfl, h.allocate hfresh v hb hskip⟩

/-! ## `remove` -/

theorem Rep.free (h : Rep m chains) {a : Nat} (hnot : ∀ i < m.bins, a ∉ chains i) :
    Rep (m.free a) chains :=
  ⟨h.chain, h.nodup, h.disjoint, fun i hi x hx =>
    (List.mem_erase_of_ne fun heq : x = a => hnot i hi (heq ▸ hx)).2 (h.live i hi x hx)⟩

theorem Refines.unlink (h : Refines m t chains) {k : K} (hb : binOf ops m.bins k < m.bins)
    {ys zs : List Nat} {a : Nat} (hsplit : chains (binOf ops m.bins k) = ys ++ a :: zs)
    (hys : Skips ops k (ys.map (entryAt m.nodes)))
    (ha : ops.compareKeys (entryAt m.nodes a).key k = true) :
    Refines ((m.setLink ys.getLast? (binOf ops m.bins k) (m.nodes a).next).free a)
      (HashTable.removeAt ops k t)
      (Function.update chains (binOf ops m.bins k) (ys ++ zs)) := by
  have hnd := h.nodup _ hb
  have hchain := h.chain _ hb
  rw [hsplit] at hnd hchain
  have hrest : (ys ++ zs).Nodup :=
    hnd.sublist ((List.Sublist.refl ys).append (List.sublist_cons_self a zs))
  have hnot : a ∉ ys ++ zs := by
    rw [List.nodup_append] at hnd
    rw [List.mem_append, not_or]
    exact ⟨fun hmem => hnd.2.2 a hmem a List.mem_cons_self rfl, (List.nodup_cons.1 hnd.2.1).1⟩
  have hmem : ∀ x ∈ zs, x ∈ chains (binOf ops m.bins k) := fun x hx => by simp [hsplit, hx]
  have hremove : HashTable.removeChain ops k
      ((chains (binOf ops m.bins k)).map (entryAt m.nodes)) =
      ((ys ++ zs).map (entryAt m.nodes), true) := by
    rw [hsplit, List.map_append, HashTable.removeChain_append hys, List.map_cons,
      HashTable.removeChain, if_pos ha, List.map_append]
  have hbins : (m.setLink ys.getLast? (binOf ops m.bins k) (m.nodes a).next).bins = m.bins := by
    unfold HashMemory.setLink
    split <;> rfl
  have hentries : (m.setLink ys.getLast? (binOf ops m.bins k) (m.nodes a).next).entries =
      m.entries := by
    unfold HashMemory.setLink
    split <;> rfl
  have hlink := h.toRep.setLink hb hsplit hchain.tail hrest
    (fun x hx => h.live _ hb x (hmem x hx))
    (fun x hx i hi hxi => h.disjoint i hi _ hb x hxi (hmem x hx))
  refine ⟨hlink.free fun i hi => ?_, h.bins.trans hbins.symm, ?_, fun i hi => ?_⟩
  · have hi : i < m.bins := Nat.lt_of_lt_of_eq hi hbins
    by_cases heq : i = binOf ops m.bins k
    · rw [heq, Function.update_self]
      exact hnot
    · rw [Function.update_of_ne heq]
      exact fun hai => heq (h.disjoint i hi _ hb a hai (by simp [hsplit]))
  · simp only [HashTable.removeAt, HashMemory.free]
    rw [h.bins, h.values _ hb, hremove, hentries, h.entries]
    exact if_pos rfl
  · have hi : i < m.bins := Nat.lt_of_lt_of_eq hi hbins
    simp only [HashMemory.free, entryAt_setLink, HashTable.removeAt]
    rw [h.bins, h.values _ hb, hremove]
    by_cases heq : i = binOf ops m.bins k
    · rw [heq, Function.update_self, Function.update_self]
    · rw [Function.update_of_ne heq, Function.update_of_ne heq, h.values i hi]

theorem Refines.removeAt (h : Refines m t chains) (k : K) (hb : binOf ops m.bins k < m.bins) :
    ∃ m' chains' found, m.removeAt ops k = some (m', found) ∧
      Refines m' (HashTable.removeAt ops k t) chains' := by
  unfold HashMemory.removeAt
  rcases h.find_spec hb with ⟨ys, a, zs, hsplit, hys, hak, hfind⟩ | ⟨hskip, hfind⟩
  · rw [hfind]
    exact ⟨_, _, true, rfl, h.unlink hb hsplit hys hak⟩
  · rw [hfind]
    have happ := HashTable.removeChain_append hskip []
    rw [List.append_nil] at happ
    refine ⟨m, chains, false, rfl, h.toRep, h.bins, ?_, fun i hi => ?_⟩
    · simp only [HashTable.removeAt]
      rw [h.bins, h.values _ hb, happ]
      exact h.entries
    · simp only [HashTable.removeAt]
      rw [h.bins, h.values _ hb, happ]
      by_cases heq : i = binOf ops m.bins k
      · rw [heq, Function.update_self]
        exact List.append_nil _
      · rw [Function.update_of_ne heq, h.values i hi]

end

/-! ## `redistribute` -/

/-- `HashTable.link` for addresses. -/
def linkAddr : List Nat → Nat → List Nat
  | [], a => [a]
  | slot :: _, a => [slot, a]

theorem map_linkAddr (f : Nat → HashEntry K V) (c : List Nat) (a : Nat) :
    (linkAddr c a).map f = HashTable.link (c.map f) (f a) := by
  cases c <;> rfl

theorem map_foldl_linkAddr (f : Nat → HashEntry K V) (xs c : List Nat) :
    (xs.foldl linkAddr c).map f = (xs.map f).foldl HashTable.link (c.map f) := by
  induction xs generalizing c with
  | nil => rfl
  | cons a xs ih => rw [List.foldl_cons, ih, map_linkAddr, List.map_cons, List.foldl_cons]

theorem mem_linkAddr {c : List Nat} {a x : Nat} (h : x ∈ linkAddr c a) : x ∈ c ∨ x = a := by
  cases c with
  | nil => exact .inr (List.mem_singleton.1 h)
  | cons slot c =>
    rcases List.mem_cons.1 h with rfl | h
    · exact .inl List.mem_cons_self
    · exact .inr (List.mem_singleton.1 h)

section Rehash

variable (ops) (nodes : Nat → HashNode K V) (size : Nat)

/-- The chain of a new bin after the entries `xs` were relinked. -/
def newChain (xs : List Nat) (b : Nat) : List Nat :=
  (distribute (fun a => binOf ops size (nodes a).key) xs b).foldl linkAddr []

theorem newChain_concat (xs : List Nat) (a b : Nat) :
    newChain ops nodes size (xs ++ [a]) b =
      if binOf ops size (nodes a).key = b then linkAddr (newChain ops nodes size xs b) a
      else newChain ops nodes size xs b := by
  unfold newChain distribute
  rw [List.filter_append, List.foldl_append]
  by_cases hb : binOf ops size (nodes a).key = b <;> simp [hb]

theorem mem_newChain {xs : List Nat} {b x : Nat} (h : x ∈ newChain ops nodes size xs b) :
    x ∈ xs ∧ binOf ops size (nodes x).key = b := by
  induction xs using List.reverseRecOn with
  | nil => cases h
  | append_singleton xs a ih =>
    rw [newChain_concat] at h
    split at h
    · next hb =>
      rcases mem_linkAddr h with h | rfl
      · exact ⟨List.mem_append_left _ (ih h).1, (ih h).2⟩
      · exact ⟨by simp, hb⟩
    · exact ⟨List.mem_append_left _ (ih h).1, (ih h).2⟩

/-- The state of `redistribute` when it has relinked `xs`: the new chains are those, and
the entries that are still to come are as they were. -/
structure Relinked (xs : List Nat) (st : (Nat → HashNode K V) × (Nat → Option Nat)) : Prop where
  chain : ∀ b, Chain (fun a => (st.1 a).next) (st.2 b) (newChain ops nodes size xs b)
  entry : entryAt st.1 = entryAt nodes
  rest : ∀ a, a ∉ xs → st.1 a = nodes a

end Rehash

section

variable {nodes : Nat → HashNode K V} {size : Nat} {xs : List Nat}
  {st : (Nat → HashNode K V) × (Nat → Option Nat)}

theorem next_setNext_fun (a : Nat) (q : Option Nat) (nodes : Nat → HashNode K V) :
    (fun b => (setNext a q nodes b).next) = Function.update (fun b => (nodes b).next) a q :=
  next_setNext a q ⟨nodes, [], fun _ => none, 0, 0⟩

theorem setNext_of_ne {a x : Nat} (h : x ≠ a) (q : Option Nat) (nodes : Nat → HashNode K V) :
    setNext a q nodes x = nodes x := Function.update_of_ne h _ _

theorem Relinked.relink (h : Relinked ops nodes size xs st) {a : Nat} (ha : a ∉ xs) :
    Relinked ops nodes size (xs ++ [a]) (relink ops size st a) := by
  have hkey : (setNext a none st.1 a).key = (nodes a).key := by
    have hentry := congrFun (entryAt_setNext a none st.1) a
    rw [h.entry] at hentry
    exact congrArg HashEntry.key hentry
  have hmem : ∀ {b x}, x ∈ newChain ops nodes size xs b →
      x ∈ xs ∧ binOf ops size (nodes x).key = b := mem_newChain ops nodes size
  have hchain : ∀ b, Chain (Function.update (fun x => (st.1 x).next) a none) (st.2 b)
      (newChain ops nodes size xs b) := fun b =>
    (h.chain b).update_of_not_mem (fun hb => ha (hmem hb).1) none
  have hrest : ∀ x, x ∉ xs ++ [a] → setNext a none st.1 x = nodes x := by
    intro x hx
    rw [List.mem_append, List.mem_singleton, not_or] at hx
    rw [setNext_of_ne hx.2, h.rest x hx.1]
  unfold HashMemory.relink
  simp only [hkey]
  have hbin := h.chain (binOf ops size (nodes a).key)
  split
  · next slot hslot =>
    -- the bin keeps its first entry, and the new one is all that follows
    rw [hslot] at hbin
    obtain ⟨c, hc⟩ := hbin.exists_cons
    obtain ⟨hslotmem, hslotbin⟩ := hmem (hc ▸ List.mem_cons_self)
    have hne : a ≠ slot := fun heq => ha (heq ▸ hslotmem)
    refine ⟨fun b => ?_, ?_, fun x hx => ?_⟩
    · rw [newChain_concat, next_setNext_fun, next_setNext_fun]
      split
      · next hb =>
        rw [← hb, hc, hslot]
        simp [linkAddr, Function.update_of_ne hne]
      · next hb =>
        refine (hchain b).update_of_not_mem (fun hmemb => hb ?_) _
        exact hslotbin.symm.trans (hmem hmemb).2
    · rw [entryAt_setNext, entryAt_setNext, h.entry]
    · have hxs : x ≠ slot := fun heq => hx (by simp [heq, hslotmem])
      exact (setNext_of_ne hxs _ _).trans (hrest x hx)
  · next hslot =>
    rw [hslot] at hbin
    refine ⟨fun b => ?_, ?_, hrest⟩
    · rw [newChain_concat, next_setNext_fun]
      split
      · next hb =>
        rw [← hb, hbin.eq_nil]
        simp [linkAddr]
      · next hb =>
        simp only [Function.update_of_ne (Ne.symm hb)]
        exact hchain b
    · rw [entryAt_setNext, h.entry]

/-- The inner loop: the entries ahead still have their old `next` pointers. -/
theorem Relinked.relinkChain (h : Relinked ops nodes size xs st) {p : Option Nat} {ys : List Nat}
    (hchain : Chain (fun a => (nodes a).next) p ys) (hnd : (xs ++ ys).Nodup) {n : Nat}
    (hn : ys.length ≤ n) :
    ∃ st', relinkChain ops size n p st = some st' ∧ Relinked ops nodes size (xs ++ ys) st' := by
  induction ys generalizing xs st p n with
  | nil =>
    obtain rfl : p = none := hchain
    refine ⟨st, ?_, (List.append_nil xs).symm ▸ h⟩
    cases n <;> rfl
  | cons a ys ih =>
    obtain ⟨rfl, hchain⟩ := hchain
    obtain ⟨n, rfl⟩ : ∃ n', n = n' + 1 := ⟨n - 1, by simp at hn; omega⟩
    have ha : a ∉ xs := fun hmem =>
      (List.nodup_append.1 hnd).2.2 a hmem a List.mem_cons_self rfl
    rw [List.append_cons] at hnd ⊢
    rw [HashMemory.relinkChain, h.rest a ha]
    exact ih (h.relink ha) hchain hnd (by simpa using hn)

end

section

variable {m : HashMemory K V} {t : HashTable K V} {chains : Nat → List Nat}

theorem contents_succ (f : Nat → List Nat) (n : Nat) :
    contents f (n + 1) = contents f n ++ f n := by
  simp [contents, List.range_succ]

theorem Rep.nodup_contents (h : Rep m chains) {n : Nat} (hn : n ≤ m.bins) :
    (contents chains n).Nodup := by
  induction n with
  | zero => exact List.nodup_nil
  | succ n ih =>
    rw [contents_succ]
    refine List.nodup_append.2 ⟨ih (by omega), h.nodup n (by omega), fun x hx y hy heq => ?_⟩
    obtain ⟨i, hi, hx⟩ := mem_contents.1 hx
    have := h.disjoint i (by omega) n (by omega) x hx (heq ▸ hy)
    omega

theorem Refines.reachable (h : Refines m t chains) :
    t.reachable = (contents chains m.bins).map (entryAt m.nodes) := by
  unfold HashTable.reachable contents
  rw [h.bins, List.map_flatMap]
  exact List.flatMap_congr fun i hi => h.values i (List.mem_range.1 hi)

theorem nodup_foldl_linkAddr {xs : List Nat} (hnd : xs.Nodup) :
    (xs.foldl linkAddr []).Nodup := by
  -- an address is the key of an entry of its own
  have hmap : (xs.map fun a => (⟨a, ()⟩ : HashEntry Nat Unit)).Nodup :=
    hnd.map fun _ _ heq => congrArg HashEntry.key heq
  have hsub := HashTable.foldl_link_sublist (xs.map fun a => (⟨a, ()⟩ : HashEntry Nat Unit))
  rw [← List.map_nil (f := fun a => (⟨a, ()⟩ : HashEntry Nat Unit)), ← map_foldl_linkAddr] at hsub
  exact (hmap.sublist hsub).of_map _

theorem Refines.redistribute (h : Refines m t chains) (ops : HashOps K) (size : Nat) :
    ∃ m' chains', m.redistribute ops size = some m' ∧
      Refines m' (HashTable.redistribute ops size t) chains' ∧ m'.live = m.live := by
  have hinit : Relinked ops m.nodes size (contents chains 0) (m.nodes, fun _ => none) :=
    ⟨fun _ => rfl, rfl, fun _ _ => rfl⟩
  obtain ⟨st, hst, hrel⟩ := foldlM_range_total
    (P := fun n st => Relinked ops m.nodes size (contents chains n) st)
    (n := m.bins) (fun n st hn hst => by
      have hnd := h.nodup_contents (Nat.succ_le_of_lt hn)
      rw [contents_succ] at hnd ⊢
      exact hst.relinkChain (h.chain n hn) hnd (h.length_le hn)) hinit
  have hmem : ∀ {b x}, x ∈ newChain ops m.nodes size (contents chains m.bins) b →
      x ∈ contents chains m.bins ∧ binOf ops size (m.nodes x).key = b :=
    mem_newChain ops m.nodes size
  refine ⟨{ m with nodes := st.1, values := st.2, bins := size },
    newChain ops m.nodes size (contents chains m.bins), ?_, ⟨⟨?_, ?_, ?_, ?_⟩, rfl, h.entries, ?_⟩,
    rfl⟩
  · unfold HashMemory.redistribute
    rw [hst]
    rfl
  · exact fun i _ => hrel.chain i
  · intro i _
    exact nodup_foldl_linkAddr ((h.nodup_contents (Nat.le_refl _)).filter _)
  · intro i _ j _ a hi hj
    exact (hmem hi).2.symm.trans (hmem hj).2
  · intro i _ a ha
    obtain ⟨j, hj, ha⟩ := mem_contents.1 (hmem ha).1
    exact h.live j hj a ha
  · intro b _
    rw [HashTable.redistribute_values, h.reachable, hrel.entry, newChain, map_foldl_linkAddr]
    unfold distribute
    rw [List.filter_map]
    rfl

/-! ## The calls -/

theorem Refines.maxDensityP (h : Refines m t chains) : m.maxDensityP = t.maxDensityP := by
  unfold HashMemory.maxDensityP HashTable.maxDensityP
  rw [h.bins, h.entries]

theorem Refines.minDensityP (h : Refines m t chains) : m.minDensityP = t.minDensityP := by
  unfold HashMemory.minDensityP HashTable.minDensityP
  rw [h.bins, h.entries]

theorem Refines.binOf_lt (h : Refines m t chains) (hshape : HashTable.Shape ops t) {n : Nat}
    (hn : n = m.bins ∨ n = mul32 m.bins 2 ∨ n = m.bins / 2) (k : K) : binOf ops n k < n := by
  have h2 := hshape.two_le
  have hle := hshape.bins_le
  rw [h.bins] at h2 hle
  rw [mul32_eq (by omega)] at hn
  exact HashTable.binOf_lt ops n (by omega) (by omega) k

theorem Refines.store (h : Refines m t chains) (hshape : HashTable.Shape ops t) {a : Nat}
    (hfresh : a ∉ m.live) (k : K) (v : V) :
    ∃ m' chains', m.store ops a k v = some m' ∧
      Refines m' (HashTable.store ops k v t) chains' := by
  unfold HashMemory.store
  rw [h.maxDensityP]
  cases hd : t.maxDensityP with
  | false =>
    rw [HashTable.store_of_not_dense hd]
    exact h.storeAt hfresh k v (h.binOf_lt hshape (.inl rfl) k)
  | true =>
    obtain ⟨m', chains', hm', hr, hlive⟩ := h.redistribute ops (mul32 m.bins 2)
    have hbins : m'.bins = mul32 m.bins 2 := hr.bins.symm
    rw [HashTable.store_of_dense hd, h.bins, if_pos rfl, hm']
    refine hr.storeAt (hlive ▸ hfresh) k v ?_
    rw [hbins]
    exact h.binOf_lt hshape (.inr (.inl rfl)) k

theorem Refines.remove (h : Refines m t chains) (hshape : HashTable.Shape ops t) (k : K) :
    ∃ m' chains' found, m.remove ops k = some (m', found) ∧
      Refines m' (HashTable.remove ops k t).1 chains' := by
  unfold HashMemory.remove
  rw [h.minDensityP]
  cases hd : t.minDensityP with
  | false =>
    rw [HashTable.remove_of_not_sparse hd]
    exact h.removeAt k (h.binOf_lt hshape (.inl rfl) k)
  | true =>
    obtain ⟨m', chains', hm', hr, -⟩ := h.redistribute ops (m.bins / 2)
    have hbins : m'.bins = m.bins / 2 := hr.bins.symm
    rw [HashTable.remove_of_sparse hd, h.bins, if_pos rfl, hm']
    refine hr.removeAt k ?_
    rw [hbins]
    exact h.binOf_lt hshape (.inr (.inr rfl)) k

end

end HashMemory

end Ulysses
