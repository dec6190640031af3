import Mathlib.Algebra.Order.Group.Nat
import Mathlib.Algebra.Ring.Nat
import Mathlib.Algebra.BigOperators.Group.List.Basic
import Mathlib.Algebra.Order.BigOperators.Group.List
import Mathlib.Data.List.Perm.Lattice

/-!
# Lists distributed over buckets

A bucket array is a function `Nat → List α` read at the indices below `n`.
`contents f n` lists what the first `n` buckets hold. Distributing a list by an
index function and collecting the buckets again permutes the list
(`contents_distribute_perm`); replacing one bucket changes the number of elements
by the difference of the two buckets (`length_contents_update`).
-/

namespace Ulysses.Lib

variable {α : Type*}

/-- The elements of the first `n` buckets, in bucket order. -/
def contents (f : Nat → List α) (n : Nat) : List α := (List.range n).flatMap f

theorem mem_contents {f : Nat → List α} {n : Nat} {x : α} :
    x ∈ contents f n ↔ ∃ i, i < n ∧ x ∈ f i := by
  simp [contents, List.mem_flatMap]

theorem length_contents (f : Nat → List α) (n : Nat) :
    (contents f n).length = ((List.range n).map fun i => (f i).length).sum := by
  simp [contents, List.length_flatMap]

/-- The bucket array that holds each element of `xs` in the bucket `f` gives it. -/
def distribute (f : α → Nat) (xs : List α) : Nat → List α := fun i => xs.filter (f · = i)

theorem contents_distribute_perm (f : α → Nat) (n : Nat) (xs : List α)
    (h : ∀ x ∈ xs, f x < n) : (contents (distribute f xs) n).Perm xs := by
  induction n generalizing xs with
  | zero =>
    cases xs with
    | nil => simp [contents]
    | cons x xs => exact absurd (h x List.mem_cons_self) (Nat.not_lt_zero _)
  | succ n ih =>
    have hlow := ih (xs.filter (f · < n)) (fun x hx => by simpa using (List.mem_filter.1 hx).2)
    have hsame : contents (distribute f (xs.filter (f · < n))) n =
        contents (distribute f xs) n := by
      refine List.flatMap_congr fun i hi => ?_
      have hi : i < n := List.mem_range.1 hi
      simp only [distribute, List.filter_filter]
      refine List.filter_congr fun x _ => ?_
      by_cases hx : f x = i
      · simp [hx, hi]
      · simp [hx]
    have htop : distribute f xs n = xs.filter (fun x => !decide (f x < n)) := by
      refine List.filter_congr fun x hx => ?_
      have := h x hx
      by_cases hx : f x = n
      · simp [hx]
      · simp [hx, show f x < n by omega]
    have hsplit : contents (distribute f xs) (n + 1) =
        contents (distribute f xs) n ++ distribute f xs n := by
      simp [contents, List.range_succ]
    rw [hsplit, ← hsame, htop]
    exact (hlow.append_right _).trans (List.filter_append_perm _ xs)

theorem length_contents_update (f : Nat → List α) {n b : Nat} (hb : b < n) (c : List α) :
    (contents (Function.update f b c) n).length + (f b).length =
      (contents f n).length + c.length := by
  rw [length_contents, length_contents]
  induction n with
  | zero => omega
  | succ n ih =>
    simp only [List.range_succ, List.map_append, List.map_cons, List.map_nil, List.sum_append,
      List.sum_cons, List.sum_nil, Nat.add_zero]
    by_cases hbn : b = n
    · have hlow : ((List.range n).map fun i => (Function.update f b c i).length) =
          (List.range n).map fun i => (f i).length := by
        refine List.map_congr_left fun i hi => ?_
        have hi : i < n := List.mem_range.1 hi
        rw [Function.update_of_ne (by omega)]
      rw [hlow, hbn, Function.update_self]
      omega
    · have := ih (by omega)
      rw [Function.update_of_ne (show n ≠ b from fun h => hbn h.symm)]
      omega

theorem length_contents_le {f g : Nat → List α} {n : Nat}
    (hle : ∀ i, (f i).length ≤ (g i).length) :
    (contents f n).length ≤ (contents g n).length := by
  rw [length_contents, length_contents]
  exact List.sum_le_sum fun i _ => hle i

/-- Buckets that are nowhere longer and somewhere shorter hold fewer elements. -/
theorem length_contents_lt {f g : Nat → List α} {n b : Nat} (hb : b < n)
    (hle : ∀ i, (f i).length ≤ (g i).length) (hlt : (f b).length < (g b).length) :
    (contents f n).length < (contents g n).length := by
  rw [length_contents, length_contents]
  exact List.sum_lt_sum _ _ (fun i _ => hle i) ⟨b, List.mem_range.2 hb, hlt⟩

end Ulysses.Lib
