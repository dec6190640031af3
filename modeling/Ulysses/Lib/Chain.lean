import Mathlib.Logic.Function.Basic
import Mathlib.Data.List.Nodup

/-!
# Chains of pointers

A null-terminated chain of `next` pointers is the list of the addresses it visits.
A write to a node outside of a chain leaves it alone (`Chain.update_of_not_mem`), and a
write to a node inside replaces what follows (`Chain.update_append`).
-/

namespace Ulysses.Lib

variable {α : Type*}

/-- From `p` the pointers visit `xs` and end in null. -/
def Chain (next : α → Option α) : Option α → List α → Prop
  | p, [] => p = none
  | p, a :: xs => p = some a ∧ Chain next (next a) xs

section

variable {next next' : α → Option α} {p q : Option α} {a : α} {xs ys : List α}

@[simp] theorem chain_nil : Chain next p [] ↔ p = none := Iff.rfl

@[simp] theorem chain_cons : Chain next p (a :: xs) ↔ p = some a ∧ Chain next (next a) xs := Iff.rfl

theorem Chain.eq_nil (h : Chain next none xs) : xs = [] := by
  cases xs with
  | nil => rfl
  | cons b xs => cases h.1

theorem Chain.exists_cons (h : Chain next (some a) xs) : ∃ ys, xs = a :: ys := by
  cases xs with
  | nil => cases h
  | cons b xs =>
    obtain rfl := Option.some.inj h.1
    exact ⟨xs, rfl⟩

theorem Chain.congr (h : Chain next p xs) (heq : ∀ a ∈ xs, next' a = next a) :
    Chain next' p xs := by
  induction xs generalizing p with
  | nil => exact h
  | cons a xs ih =>
    refine ⟨h.1, ?_⟩
    rw [heq a List.mem_cons_self]
    exact ih h.2 fun b hb => heq b (List.mem_cons_of_mem a hb)

theorem Chain.tail (h : Chain next p (xs ++ a :: ys)) : Chain next (next a) ys := by
  induction xs generalizing p with
  | nil => exact h.2
  | cons b xs ih => exact ih h.2

variable [DecidableEq α]

theorem Chain.update_of_not_mem (h : Chain next p xs) (ha : a ∉ xs) (q : Option α) :
    Chain (Function.update next a q) p xs :=
  h.congr fun b hb => Function.update_of_ne (fun heq : b = a => ha (heq ▸ hb)) _ _

/-- What follows the node `a` becomes the chain from `q`. -/
theorem Chain.update_append (h : Chain next p (xs ++ a :: ys)) (hnd : (xs ++ a :: ys).Nodup)
    {zs : List α} (hq : Chain (Function.update next a q) q zs) :
    Chain (Function.update next a q) p (xs ++ a :: zs) := by
  induction xs generalizing p with
  | nil =>
    refine ⟨h.1, ?_⟩
    rw [Function.update_self]
    exact hq
  | cons b xs ih =>
    obtain ⟨hb, hnd⟩ := List.nodup_cons.1 hnd
    have hne : b ≠ a := by
      rintro rfl
      exact hb (by simp)
    refine ⟨h.1, ?_⟩
    rw [Function.update_of_ne hne]
    exact ih h.2 hnd

end

end Ulysses.Lib
