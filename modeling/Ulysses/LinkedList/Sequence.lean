import Ulysses.LinkedList

/-!
# Runs of an intrusive list

Any calls of `append`, `prepend` and `unlink` on one `sys::List`, over elements that are in
no other list. `Represents` says what a reader of the pointers sees; `Pool.Inv` is what each
call keeps. The loops of `Scheduler::cleanup` and `on_tick` unlink elements while an
`Iterator` goes over them (`Pool.Inv.visit`).
-/

namespace Ulysses.LinkedList

open Lib

variable {α : Type}

/-- The pointers, the count and the flags of the elements are those of the sequence. -/
structure Represents (nodes : α → Link α) (l : LinkedList α) (xs : List α) : Prop where
  nodup : xs.Nodup
  forward : Chain (fun x => (nodes x).next) l.head xs
  backward : Chain (fun x => (nodes x).prev) l.tail xs.reverse
  count : l.count = xs.length
  linked : ∀ x, (nodes x).linked = true ↔ x ∈ xs
  unlinked : ∀ x, (nodes x).linked = false → (nodes x).next = none ∧ (nodes x).prev = none

/-- The links of all elements, and the list. -/
abbrev Pool (α : Type) := (α → Link α) × LinkedList α

/-- After `init`, with new elements. -/
def initial : Pool α := (fun _ => blank, empty)

inductive Op (α : Type)
  | append (elem : α)
  | prepend (elem : α)
  | unlink (elem : α)

variable [DecidableEq α]

def Pool.apply (s : Pool α) : Op α → Pool α
  | .append elem => s.2.append elem s.1
  | .prepend elem => s.2.prepend elem s.1
  | .unlink elem => s.2.unlink elem s.1

/-- What a call does to the sequence. -/
def Op.onSequence (xs : List α) : Op α → List α
  | .append elem => if elem ∈ xs then xs else xs ++ [elem]
  | .prepend elem => if elem ∈ xs then xs else elem :: xs
  | .unlink elem => xs.erase elem

/-- A loop with an `Iterator` at `node`: `advance`, then `unlink` of the elements that
`unlinkP` picks. It gives the visited elements; without fuel there is no result. -/
def Pool.visit (unlinkP : α → Bool) : Nat → Option α → Pool α → Option (List α × Pool α)
  | 0, _, _ => none
  | _ + 1, none, s => some ([], s)
  | fuel + 1, some elem, s =>
    let node := (s.1 elem).next
    let s := if unlinkP elem then s.2.unlink elem s.1 else s
    (visit unlinkP fuel node s).map fun r => (elem :: r.1, r.2)

/-! ## What a call keeps -/

/-- The list is the sequence, and the other elements are in no list. -/
structure Pool.Inv (s : Pool α) (xs : List α) : Prop where
  rep : Rep s.1 s.2 xs
  other : ∀ x, x ∉ xs → s.1 x = blank

omit [DecidableEq α] in
theorem inv_initial : Pool.Inv (initial : Pool α) [] := ⟨rep_empty _, fun _ _ => rfl⟩

namespace Pool.Inv

variable {s : Pool α} {xs ys : List α} {x : α}

omit [DecidableEq α] in
theorem unlinked (h : s.Inv xs) (hx : x ∉ xs) : (s.1 x).linked = false := by
  rw [h.other x hx]
  rfl

omit [DecidableEq α] in
theorem represents (h : s.Inv xs) : Represents s.1 s.2 xs := by
  obtain ⟨hrep, hother⟩ := h
  have hlinked : ∀ x, (s.1 x).linked = true ↔ x ∈ xs := by
    intro x
    refine ⟨fun hx => ?_, fun hx => hrep.links.linked hx⟩
    by_contra hnot
    rw [hother x hnot] at hx
    cases hx
  refine ⟨hrep.nodup, ?_, ?_, hrep.count, hlinked, fun x hx => ?_⟩
  · rw [hrep.head]
    exact hrep.links.chain_next
  · rw [hrep.tail]
    exact hrep.links.chain_prev
  · have hnot : x ∉ xs := fun hmem => by
      rw [(hlinked x).2 hmem] at hx
      cases hx
    rw [hother x hnot]
    exact ⟨rfl, rfl⟩

theorem append (h : s.Inv xs) (hx : x ∉ xs) : Inv (s.2.append x s.1) (xs ++ [x]) := by
  obtain ⟨hrep, hkept⟩ := h.rep.append (h.unlinked hx)
  refine ⟨hrep, fun y hy => ?_⟩
  rw [hkept y hy]
  exact h.other y fun hmem => hy (List.mem_append_left _ hmem)

theorem prepend (h : s.Inv xs) (hx : x ∉ xs) : Inv (s.2.prepend x s.1) (x :: xs) := by
  obtain ⟨hrep, hkept⟩ := h.rep.prepend (h.unlinked hx)
  refine ⟨hrep, fun y hy => ?_⟩
  rw [hkept y hy]
  exact h.other y fun hmem => hy (List.mem_cons_of_mem x hmem)

theorem unlink (h : s.Inv (xs ++ x :: ys)) : Inv (s.2.unlink x s.1) (xs ++ ys) := by
  obtain ⟨hrep, hblank, hkept⟩ := h.rep.unlink
  refine ⟨hrep, fun y hy => ?_⟩
  by_cases hyx : y = x
  · rw [hyx, hblank]
  · have hnot : y ∉ xs ++ x :: ys := by
      simp only [List.mem_append, List.mem_cons, not_or] at hy ⊢
      exact ⟨hy.1, hyx, hy.2⟩
    rw [hkept y hnot]
    exact h.other y hnot

theorem apply (h : s.Inv xs) (op : Op α) : (s.apply op).Inv (op.onSequence xs) := by
  cases op with
  | append elem =>
    show Inv (s.2.append elem s.1) (if elem ∈ xs then xs else xs ++ [elem])
    by_cases hmem : elem ∈ xs
    · rw [if_pos hmem, LinkedList.append, if_pos (h.rep.links.linked hmem)]
      exact h
    · rw [if_neg hmem]
      exact h.append hmem
  | prepend elem =>
    show Inv (s.2.prepend elem s.1) (if elem ∈ xs then xs else elem :: xs)
    by_cases hmem : elem ∈ xs
    · rw [if_pos hmem, prepend_of_linked (h.rep.links.linked hmem)]
      exact h
    · rw [if_neg hmem]
      exact h.prepend hmem
  | unlink elem =>
    show Inv (s.2.unlink elem s.1) (xs.erase elem)
    by_cases hmem : elem ∈ xs
    · obtain ⟨ys, zs, -, rfl, herase⟩ := List.exists_erase_eq hmem
      rw [herase]
      exact h.unlink
    · rw [unlink_of_unlinked (h.unlinked hmem), List.erase_of_not_mem hmem]
      exact h

theorem run (h : s.Inv xs) (ops : List (Op α)) :
    (ops.foldl Pool.apply s).Inv (ops.foldl Op.onSequence xs) := by
  induction ops generalizing s xs with
  | nil => exact h
  | cons op ops ih => exact ih (h.apply op)

/-- The loop behind the elements `xs` that it has kept visits the rest, and keeps of it what
it does not unlink. -/
theorem visit (unlinkP : α → Bool) (h : s.Inv (xs ++ ys)) {fuel : Nat} (hfuel : ys.length < fuel) :
    ∃ s', Pool.visit unlinkP fuel ys.head? s = some (ys, s') ∧
      s'.Inv (xs ++ ys.filter fun x => !unlinkP x) := by
  induction ys generalizing xs s fuel with
  | nil =>
    obtain ⟨fuel, rfl⟩ := Nat.exists_eq_succ_of_ne_zero (Nat.ne_of_gt hfuel)
    exact ⟨s, rfl, h⟩
  | cons y ys ih =>
    obtain ⟨fuel, rfl⟩ := Nat.exists_eq_succ_of_ne_zero (Nat.ne_of_gt (Nat.zero_lt_of_lt hfuel))
    have hnext : (s.1 y).next = ys.head? := h.rep.next
    have hlen : ys.length < fuel := Nat.lt_of_succ_lt_succ hfuel
    cases hy : unlinkP y with
    | true =>
      obtain ⟨s', hvisit, hinv⟩ := ih h.unlink hlen
      refine ⟨s', ?_, ?_⟩
      · simp only [List.head?_cons, Pool.visit, hnext, hy, if_true, hvisit, Option.map_some]
      · rw [List.filter_cons_of_neg (by simp [hy])]
        exact hinv
    | false =>
      have hkept : s.Inv ((xs ++ [y]) ++ ys) := by
        rw [List.append_assoc]
        exact h
      obtain ⟨s', hvisit, hinv⟩ := ih hkept hlen
      refine ⟨s', ?_, ?_⟩
      · simp only [List.head?_cons, Pool.visit, hnext, hy, Bool.false_eq_true, if_false, hvisit,
          Option.map_some]
      · rw [List.filter_cons_of_pos (by simp [hy]), List.append_cons]
        exact hinv

end Pool.Inv

/-- **Intrusive lists**: after any calls the list is the sequence that the calls make, and a
loop that unlinks elements right after it has advanced past them visits each once, in order,
and leaves the others. -/
theorem represents_run (ops : List (Op α)) :
    Represents (ops.foldl Pool.apply initial).1 (ops.foldl Pool.apply initial).2
      (ops.foldl Op.onSequence []) ∧
    ∀ (unlinkP : α → Bool) (fuel : Nat),
      ∃ s', Pool.visit unlinkP ((ops.foldl Op.onSequence []).length + 1 + fuel)
          (ops.foldl Pool.apply initial).2.head (ops.foldl Pool.apply initial) =
            some (ops.foldl Op.onSequence [], s') ∧
        Represents s'.1 s'.2 ((ops.foldl Op.onSequence []).filter fun x => !unlinkP x) := by
  have hinv := inv_initial.run ops
  refine ⟨hinv.represents, fun unlinkP fuel => ?_⟩
  have hall : (ops.foldl Pool.apply initial).Inv ([] ++ ops.foldl Op.onSequence []) := hinv
  obtain ⟨s', hvisit, hinv'⟩ := hall.visit unlinkP (Nat.lt_add_right fuel (Nat.lt_succ_self _))
  rw [hinv.rep.head]
  exact ⟨s', hvisit, hinv'.represents⟩

end Ulysses.LinkedList
