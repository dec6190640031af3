import Ulysses.HashTable.Refinement

/-!
# The iterator over the table in memory

`HashTable::Iterator` on the entries at their addresses. A cursor that is not at the end has
a list of entries still to come, of which `next` takes the first (`Pending.next_cons`). At the
end `entry_` stays at the last entry, and every further call counts `bin_` up, which is a `u32`:
after `2 ^ 32 - bins_` of them it is 0, and the entries come again (`iterates_iff`).
-/

namespace Ulysses

open Lib

namespace HashMemory

variable {K V : Type*}

/-- `Iterator`. -/
structure Cursor where
  bin : Nat
  entry : Option Nat

namespace Cursor

/-- The loop of `next` over the bins, of which `n` are left. -/
def scan (m : HashMemory K V) : Nat → Cursor → Option Nat × Cursor
  | 0, it => (none, it)
  | n + 1, it =>
    match m.values it.bin with
    | some e => (some e, { it with entry := some e })
    | none => scan m n { it with bin := add32 it.bin 1 }

def next (m : HashMemory K V) (it : Cursor) : Option Nat × Cursor :=
  match it.entry with
  | some entry =>
    match m.next entry with
    | some e => (some e, { it with entry := some e })
    | none =>
      let it := { it with bin := add32 it.bin 1 }
      scan m (m.bins - it.bin) it
  | none => scan m (m.bins - it.bin) it

/-- A new iterator after `k` calls. -/
def after (m : HashMemory K V) : Nat → Cursor
  | 0 => ⟨0, none⟩
  | k + 1 => (next m (after m k)).2

/-- What the call behind `k` others returns. -/
def call (m : HashMemory K V) (k : Nat) : Option Nat := (next m (after m k)).1

/-! ## One call -/

/-- The entries of the `n` bins from `bin` on. -/
def later (chains : Nat → List Nat) (bin n : Nat) : List Nat := (List.range' bin n).flatMap chains

/-- The entries that a cursor has yet to come to. -/
inductive Pending (m : HashMemory K V) (chains : Nat → List Nat) : Cursor → List Nat → Prop
  | before {bin : Nat} (hle : bin ≤ m.bins) :
      Pending m chains ⟨bin, none⟩ (later chains bin (m.bins - bin))
  | inside {bin a : Nat} {ys rest : List Nat} (hlt : bin < m.bins)
      (hchain : chains bin = ys ++ a :: rest) :
      Pending m chains ⟨bin, some a⟩ (rest ++ later chains (bin + 1) (m.bins - (bin + 1)))

section

variable {m : HashMemory K V} {chains : Nat → List Nat} {it : Cursor} {a bin n : Nat}
  {e : Option Nat} {l : List Nat}

theorem later_succ (chains : Nat → List Nat) (bin n : Nat) :
    later chains bin (n + 1) = chains bin ++ later chains (bin + 1) n := by
  unfold later
  rw [List.range'_succ, List.flatMap_cons]

theorem later_all (chains : Nat → List Nat) (n : Nat) : later chains 0 n = contents chains n := by
  unfold later contents
  rw [List.range_eq_range']

theorem scan_cons (h : Rep m chains) (hbins : m.bins < 4294967296) (hn : bin + n = m.bins)
    (hl : later chains bin n = a :: l) :
    ∃ it', scan m n ⟨bin, e⟩ = (some a, it') ∧ Pending m chains it' l := by
  induction n generalizing bin with
  | zero => cases hl
  | succ n ih =>
    have hchain := h.chain bin (by omega)
    rw [later_succ] at hl
    unfold scan
    dsimp only
    cases hbin : chains bin with
    | nil =>
      rw [hbin] at hchain hl
      rw [chain_nil.1 hchain, add32_eq (by omega)]
      exact ih (by omega) hl
    | cons b rest =>
      rw [hbin] at hchain hl
      rw [(chain_cons.1 hchain).1]
      obtain ⟨rfl, rfl⟩ := List.cons.inj hl
      refine ⟨_, rfl, ?_⟩
      have hrest : n = m.bins - (bin + 1) := by omega
      rw [hrest]
      exact .inside (by omega) (hbin.trans (List.nil_append _).symm)

theorem scan_nil (h : Rep m chains) (hbins : m.bins < 4294967296) (hn : bin + n = m.bins)
    (hl : later chains bin n = []) : scan m n ⟨bin, e⟩ = (none, ⟨m.bins, e⟩) := by
  induction n generalizing bin with
  | zero =>
    rw [← hn]
    rfl
  | succ n ih =>
    have hchain := h.chain bin (by omega)
    rw [later_succ] at hl
    obtain ⟨hbin, hl⟩ := List.append_eq_nil_iff.1 hl
    rw [hbin] at hchain
    unfold scan
    dsimp only
    rw [chain_nil.1 hchain, add32_eq (by omega)]
    exact ih (by omega) hl

/-- `next` returns the first entry that is to come. -/
theorem Pending.next_cons (hit : Pending m chains it (a :: l)) (h : Rep m chains)
    (hbins : m.bins < 4294967296) : ∃ it', next m it = (some a, it') ∧ Pending m chains it' l := by
  generalize hl : a :: l = l' at hit
  cases hit with
  | before hle => exact scan_cons h hbins (Nat.add_sub_cancel' hle) hl.symm
  | @inside bin e ys rest hlt hchain =>
    have hnext := (hchain ▸ h.chain bin hlt).tail
    unfold next
    dsimp only
    cases rest with
    | cons b rest =>
      rw [(chain_cons.1 hnext).1]
      obtain ⟨rfl, rfl⟩ := List.cons.inj hl
      have hchain' : chains bin = (ys ++ [e]) ++ a :: rest := by
        rw [hchain, List.append_assoc]
        rfl
      exact ⟨_, rfl, .inside hlt hchain'⟩
    | nil =>
      rw [chain_nil.1 hnext]
      dsimp only
      rw [add32_eq (by omega)]
      exact scan_cons h hbins (Nat.add_sub_cancel' hlt) hl.symm

theorem Pending.next_nil (hit : Pending m chains it []) (h : Rep m chains)
    (hbins : m.bins < 4294967296) :
    next m it = (none, ⟨m.bins, it.entry⟩) ∧ ∀ a, it.entry = some a → m.next a = none := by
  generalize hl : [] = l' at hit
  cases hit with
  | before hle => exact ⟨scan_nil h hbins (Nat.add_sub_cancel' hle) hl.symm, nofun⟩
  | @inside bin e ys rest hlt hchain =>
    obtain ⟨rfl, hlater⟩ := List.append_eq_nil_iff.1 hl.symm
    have hnext : m.next e = none := chain_nil.1 (hchain ▸ h.chain bin hlt).tail
    refine ⟨?_, ?_⟩
    · unfold next
      dsimp only
      rw [hnext]
      dsimp only
      rw [add32_eq (by omega)]
      exact scan_nil h hbins (Nat.add_sub_cancel' hlt) hlater
    · intro a ha
      obtain rfl := Option.some.inj ha
      exact hnext

theorem scan_entry (hscan : (scan m n it).1 = some a) : (scan m n it).2.entry = some a := by
  induction n generalizing it with
  | zero => cases hscan
  | succ n ih =>
    unfold scan at hscan ⊢
    cases hbin : m.values it.bin with
    | none =>
      rw [hbin] at hscan
      exact ih hscan
    | some e =>
      rw [hbin] at hscan
      exact hscan

theorem next_entry (hnext : (next m it).1 = some a) : (next m it).2.entry = some a := by
  unfold next at hnext ⊢
  cases hentry : it.entry with
  | none =>
    rw [hentry] at hnext
    exact scan_entry hnext
  | some e =>
    rw [hentry] at hnext
    dsimp only at hnext ⊢
    cases hlink : m.next e with
    | none =>
      rw [hlink] at hnext
      exact scan_entry hnext
    | some b =>
      rw [hlink] at hnext
      exact hnext

/-! ## All calls -/

theorem pending_after (h : Rep m chains) (hbins : m.bins < 4294967296) {k : Nat}
    (hk : k ≤ (contents chains m.bins).length) :
    Pending m chains (after m k) ((contents chains m.bins).drop k) := by
  induction k with
  | zero =>
    rw [List.drop_zero, ← later_all]
    exact .before (Nat.zero_le m.bins)
  | succ k ih =>
    have hpending := ih (Nat.le_of_succ_le hk)
    rw [List.drop_eq_getElem_cons hk] at hpending
    obtain ⟨it', hnext, hpending'⟩ := hpending.next_cons h hbins
    unfold after
    rw [hnext]
    exact hpending'

theorem call_of_lt (h : Rep m chains) (hbins : m.bins < 4294967296) {k : Nat}
    (hk : k < (contents chains m.bins).length) :
    call m k = (contents chains m.bins)[k]? := by
  have hpending := pending_after h hbins (Nat.le_of_lt hk)
  rw [List.drop_eq_getElem_cons hk] at hpending
  obtain ⟨it', hnext, -⟩ := hpending.next_cons h hbins
  unfold call
  rw [hnext, List.getElem?_eq_getElem hk]

/-- An iterator over a table without entries stays at its end. -/
theorem call_of_empty (h : Rep m chains) (hbins : m.bins < 4294967296)
    (hempty : contents chains m.bins = []) (k : Nat) : call m k = none := by
  have hpending : ∀ k, Pending m chains (after m k) [] ∧ (after m k).entry = none := by
    intro k
    induction k with
    | zero =>
      have hfirst := pending_after h hbins (Nat.zero_le (contents chains m.bins).length)
      rw [hempty] at hfirst
      exact ⟨hfirst, rfl⟩
    | succ k ih =>
      obtain ⟨hpending, hentry⟩ := ih
      unfold after
      rw [(hpending.next_nil h hbins).1, hentry]
      refine ⟨?_, rfl⟩
      have hend : Pending m chains ⟨m.bins, none⟩ _ := .before (Nat.le_refl m.bins)
      rw [Nat.sub_self] at hend
      exact hend
  unfold call
  rw [((hpending k).1.next_nil h hbins).1]

/-- Behind the end every call counts `bin_` up. -/
theorem after_end (h : Rep m chains) (hbins : m.bins < 4294967296)
    (hsome : contents chains m.bins ≠ []) {i : Nat} (hi : m.bins + i < 4294967296) :
    call m ((contents chains m.bins).length + i) = none ∧
      ∃ a, m.next a = none ∧
        after m ((contents chains m.bins).length + i + 1) = ⟨m.bins + i, some a⟩ := by
  induction i with
  | zero =>
    have hpending := pending_after h hbins (Nat.le_refl (contents chains m.bins).length)
    rw [List.drop_length] at hpending
    obtain ⟨hnext, hlast⟩ := hpending.next_nil h hbins
    obtain ⟨k, hk⟩ := Nat.exists_eq_succ_of_ne_zero (mt List.eq_nil_of_length_eq_zero hsome)
    have hentry : ∃ a, (after m (contents chains m.bins).length).entry = some a := by
      have hcall := call_of_lt h hbins (hk ▸ Nat.lt_succ_self k)
      rw [List.getElem?_eq_getElem (hk ▸ Nat.lt_succ_self k)] at hcall
      rw [hk]
      exact ⟨_, next_entry hcall⟩
    obtain ⟨a, ha⟩ := hentry
    refine ⟨?_, a, hlast a ha, ?_⟩
    · exact congrArg Prod.fst hnext
    · show (next m (after m (contents chains m.bins).length)).2 = _
      rw [hnext, ha]
      rfl
  | succ i ih =>
    obtain ⟨-, a, ha, hafter⟩ := ih (by omega)
    have hsucc : add32 (m.bins + i) 1 = m.bins + i + 1 := add32_eq (by omega)
    have hnext : next m (after m ((contents chains m.bins).length + i + 1)) =
        (none, ⟨m.bins + i + 1, some a⟩) := by
      rw [hafter]
      unfold next
      dsimp only
      rw [ha]
      dsimp only
      rw [hsucc, show m.bins - (m.bins + i + 1) = 0 by omega]
      rfl
    refine ⟨congrArg Prod.fst hnext, a, ha, ?_⟩
    exact congrArg Prod.snd hnext

theorem call_wraps (h : Rep m chains) (hbins : m.bins < 4294967296)
    (hl : contents chains m.bins = a :: l) :
    call m ((contents chains m.bins).length + (4294967296 - m.bins)) = some a := by
  have hsome : contents chains m.bins ≠ [] := by
    rw [hl]
    exact List.cons_ne_nil a l
  obtain ⟨i, hi⟩ : ∃ i, 4294967296 - m.bins = i + 1 := ⟨4294967296 - m.bins - 1, by omega⟩
  obtain ⟨-, b, hb, hafter⟩ := after_end h hbins hsome (i := i) (by omega)
  have hzero : add32 (m.bins + i) 1 = 0 := by
    rw [show m.bins + i = 4294967295 by omega]
    rfl
  have hscan : ∃ it', scan m m.bins ⟨0, some b⟩ = (some a, it') ∧ Pending m chains it' l :=
    scan_cons h hbins (Nat.zero_add m.bins) ((later_all chains m.bins).trans hl)
  obtain ⟨it', hscan, -⟩ := hscan
  rw [hi, ← Nat.add_assoc]
  unfold call
  rw [hafter]
  unfold next
  dsimp only
  rw [hb]
  dsimp only
  rw [hzero, Nat.sub_zero, hscan]

end

end Cursor

open Cursor

/-- The calls return what the iterator over the lists does. -/
theorem Refines.call_eq {m : HashMemory K V} {t : HashTable K V} {chains : Nat → List Nat}
    (h : Refines m t chains) (hbins : m.bins < 4294967296) {k : Nat}
    (hk : k < t.reachable.length) :
    (call m k).map (entryAt m.nodes) = t.reachable[k]? := by
  rw [h.reachable, List.length_map] at hk
  rw [call_of_lt h.toRep hbins hk, h.reachable, List.getElem?_map]

/-- **Iteration**: the first `n` calls of `next` return the entries one by one, in the order of
the bins and their chains, and then null, as long as `bin_` has not gone around. -/
theorem iterates_iff {m : HashMemory K V} {chains : Nat → List Nat} (h : Rep m chains)
    (hbins : m.bins < 4294967296) (n : Nat) :
    (contents chains m.bins).Nodup ∧
      ((∀ k < n, call m k = (contents chains m.bins)[k]?) ↔
        contents chains m.bins = [] ∨
          n ≤ (contents chains m.bins).length + (4294967296 - m.bins)) := by
  refine ⟨h.nodup_contents (Nat.le_refl m.bins), ?_, ?_⟩
  · intro hcalls
    rw [or_iff_not_imp_left]
    intro hsome
    by_contra hlong
    obtain ⟨a, l, hl⟩ := List.exists_cons_of_ne_nil hsome
    have hcall := hcalls _ (Nat.lt_of_not_le hlong)
    rw [call_wraps h hbins hl, List.getElem?_eq_none (Nat.le_add_right _ _)] at hcall
    cases hcall
  · intro hn k hk
    by_cases hempty : contents chains m.bins = []
    · rw [call_of_empty h hbins hempty k, hempty]
      rfl
    · have hn := hn.resolve_left hempty
      rcases Nat.lt_or_ge k (contents chains m.bins).length with hlt | hge
      · exact call_of_lt h hbins hlt
      · obtain ⟨i, rfl⟩ := Nat.exists_eq_add_of_le hge
        rw [(after_end h hbins hempty (by omega)).1, List.getElem?_eq_none hge]

/-- Two entries in the second of two bins. -/
def twoEntries : HashMemory Nat Nat where
  nodes a := ⟨a, 0, if a = 8 then some 24 else none⟩
  live := [8, 24]
  values i := if i = 1 then some 8 else none
  bins := 2
  entries := 2

theorem rep_twoEntries : Rep twoEntries fun i => if i = 1 then [8, 24] else [] := by
  constructor
  · intro i hi
    by_cases h1 : i = 1
    · subst h1
      exact ⟨rfl, rfl, rfl⟩
    · simp only [if_neg h1]
      exact if_neg h1
  · intro i hi
    split <;> decide
  · intro i hi j hj a ha ha'
    by_cases h1 : i = 1
    · by_cases h2 : j = 1
      · exact h1.trans h2.symm
      · rw [if_neg h2] at ha'
        cases ha'
    · rw [if_neg h1] at ha
      cases ha
  · intro i hi a ha
    by_cases h1 : i = 1
    · rwa [if_pos h1] at ha
    · rw [if_neg h1] at ha
      cases ha

theorem iterates_iff_two :
    twoEntries.bins < 4294967296 ∧ ∀ k < 1000, call twoEntries k = [8, 24][k]? := by
  have hbins : twoEntries.bins < 4294967296 := by decide
  exact ⟨hbins, (iterates_iff rep_twoEntries hbins 1000).2.2 (.inr (by decide))⟩

/-- The first entry comes again behind the end. -/
theorem entries_again :
    call twoEntries 4294967296 = some 8 ∧ ¬∀ k, call twoEntries k = [8, 24][k]? := by
  have hagain := call_wraps (l := [24]) rep_twoEntries (by decide) rfl
  have hcount : (contents (fun i => if i = 1 then [8, 24] else []) twoEntries.bins).length +
      (4294967296 - twoEntries.bins) = 4294967296 := by decide
  rw [hcount] at hagain
  refine ⟨hagain, ?_⟩
  intro hall
  rw [hall] at hagain
  cases hagain

end HashMemory

end Ulysses
