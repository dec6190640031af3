import Ulysses.HashTable.Basic

/-!
# The iterator of the hash table

`HashTable::Iterator`: `next` goes along the chain of the current bin and then on to the
next bin that has one. What is left to come is a list (`Iterator.remaining`) whose head
`next` returns (`Iterator.next_takes`); an iterator starts with the entries reachable
through the bins, in order.
-/

namespace Ulysses.HashTable

open Lib

variable {K V : Type*}

/-- `Iterator`. `chain` is the chain from `entry_` on, empty for a null `entry_`. -/
structure Iterator (K V : Type*) where
  bin : Nat
  chain : List (HashEntry K V)

namespace Iterator

/-- The constructor. -/
def make : Iterator K V := ⟨0, []⟩

/-- The loop of `next` over the bins, of which `n` are left. -/
def scan (t : HashTable K V) : Nat → Iterator K V → Option (HashEntry K V) × Iterator K V
  | 0, it => (none, it)
  | n + 1, it =>
    match t.values it.bin with
    | e :: rest => (some e, { it with chain := e :: rest })
    | [] => scan t n { it with bin := it.bin + 1 }

def next (t : HashTable K V) (it : Iterator K V) : Option (HashEntry K V) × Iterator K V :=
  match it.chain with
  | _ :: e :: rest => (some e, { it with chain := e :: rest })
  | [_] => scan t (t.bins - (it.bin + 1)) { it with bin := it.bin + 1 }
  | [] => scan t (t.bins - it.bin) it

/-- The entries of the `n` bins from `bin` on. -/
def later (t : HashTable K V) (bin n : Nat) : List (HashEntry K V) :=
  (List.range' bin n).flatMap t.values

/-- The entries to come. -/
def remaining (t : HashTable K V) (it : Iterator K V) : List (HashEntry K V) :=
  match it.chain with
  | _ :: rest => rest ++ later t (it.bin + 1) (t.bins - (it.bin + 1))
  | [] => later t it.bin (t.bins - it.bin)

theorem remaining_make (t : HashTable K V) : remaining t make = t.reachable := by
  show (List.range' 0 (t.bins - 0)).flatMap t.values = contents t.values t.bins
  rw [contents, List.range_eq_range', Nat.sub_zero]

/-- The result of `next` is the head of what was to come, and the rest is still to come. -/
def Takes (t : HashTable K V) (l : List (HashEntry K V))
    (r : Option (HashEntry K V) × Iterator K V) : Prop :=
  match r.1 with
  | some e => l = e :: remaining t r.2
  | none => l = []

theorem scan_takes (t : HashTable K V) (n : Nat) (it : Iterator K V) (hn : n = t.bins - it.bin) :
    Takes t (later t it.bin n) (scan t n it) := by
  induction n generalizing it with
  | zero => rfl
  | succ n ih =>
    have hlater : later t it.bin (n + 1) = t.values it.bin ++ later t (it.bin + 1) n := by
      unfold later
      rw [List.range'_succ, List.flatMap_cons]
    unfold scan
    cases hbin : t.values it.bin with
    | nil =>
      rw [hlater, hbin]
      exact ih { it with bin := it.bin + 1 } (by simp only; omega)
    | cons e rest =>
      show later t it.bin (n + 1) = e :: (rest ++ later t (it.bin + 1) (t.bins - (it.bin + 1)))
      rw [hlater, hbin, show t.bins - (it.bin + 1) = n by omega]
      rfl

theorem next_takes (t : HashTable K V) (it : Iterator K V) :
    Takes t (remaining t it) (next t it) := by
  obtain ⟨bin, chain⟩ := it
  match chain with
  | [] => exact scan_takes t _ _ rfl
  | [_] => exact scan_takes t _ ⟨bin + 1, _⟩ rfl
  | _ :: e :: rest => rfl

theorem next_of_nil {t : HashTable K V} {it : Iterator K V} (h : remaining t it = []) :
    (next t it).1 = none := by
  have htakes := next_takes t it
  unfold Takes at htakes
  cases hnext : (next t it).1 with
  | none => rfl
  | some e =>
    rw [hnext, h] at htakes
    cases htakes

theorem next_of_cons {t : HashTable K V} {it : Iterator K V} {e : HashEntry K V}
    {l : List (HashEntry K V)} (h : remaining t it = e :: l) :
    (next t it).1 = some e ∧ remaining t (next t it).2 = l := by
  have htakes := next_takes t it
  unfold Takes at htakes
  cases hnext : (next t it).1 with
  | none =>
    rw [hnext, h] at htakes
    cases htakes
  | some e' =>
    rw [hnext, h] at htakes
    obtain ⟨rfl, rfl⟩ := List.cons.inj htakes
    exact ⟨rfl, rfl⟩

end Iterator

end Ulysses.HashTable
