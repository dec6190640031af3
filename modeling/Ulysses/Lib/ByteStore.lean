import Mathlib.Data.List.Induction

/-!
# Histories of writes

A store maps positions to values. A write puts a list of values at consecutive
positions. `latest` reads a history of writes: the value at a position is that of the
latest write that covers it, or the initial one. Carrying out the writes in turn gives
the same (`foldl_apply`), and writes one behind the other give the concatenation of
their values (`latest_consecutive`).
-/

namespace Ulysses.Lib

/-- `data` from position `offset` on. -/
structure Write (α : Type*) where
  offset : Nat
  data : List α

namespace Write

variable {α : Type*}

/-- The value the write has for a position. -/
def at? (w : Write α) (p : Nat) : Option α :=
  if w.offset ≤ p then w.data[p - w.offset]? else none

def apply (f : Nat → α) (w : Write α) : Nat → α := fun p => (w.at? p).getD (f p)

/-- The value at `p` after the writes of a history, the latest of which is the last. -/
def latest (f : Nat → α) (ws : List (Write α)) (p : Nat) : α :=
  (ws.reverse.findSome? fun w => w.at? p).getD (f p)

@[simp] theorem latest_nil (f : Nat → α) (p : Nat) : latest f [] p = f p := rfl

theorem latest_concat (f : Nat → α) (ws : List (Write α)) (w : Write α) (p : Nat) :
    latest f (ws ++ [w]) p = (w.at? p).getD (latest f ws p) := by
  unfold latest
  rw [List.reverse_append, List.reverse_singleton, List.singleton_append, List.findSome?_cons]
  cases w.at? p with
  | none => rfl
  | some a => rfl

theorem foldl_apply (f : Nat → α) (ws : List (Write α)) : ws.foldl apply f = latest f ws := by
  induction ws using List.reverseRecOn with
  | nil => rfl
  | append_singleton ws w ih =>
    rw [List.foldl_append, ih]
    funext p
    exact (latest_concat f ws w p).symm

/-- The writes that put the lists one behind the other, from `offset` on. -/
def consecutive (offset : Nat) : List (List α) → List (Write α)
  | [] => []
  | data :: rest => ⟨offset, data⟩ :: consecutive (offset + data.length) rest

theorem consecutive_append (offset : Nat) (xs ys : List (List α)) :
    consecutive offset (xs ++ ys) =
      consecutive offset xs ++ consecutive (offset + xs.flatten.length) ys := by
  induction xs generalizing offset with
  | nil => rfl
  | cons data xs ih =>
    simp only [List.cons_append, consecutive, ih, List.flatten_cons, List.length_append,
      Nat.add_assoc]

theorem latest_consecutive (f : Nat → α) (offset : Nat) (xs : List (List α)) {p : Nat}
    (hp : p < xs.flatten.length) :
    some (latest f (consecutive offset xs) (offset + p)) = xs.flatten[p]? := by
  induction xs using List.reverseRecOn with
  | nil => simp at hp
  | append_singleton xs data ih =>
    rw [consecutive_append, consecutive, consecutive, latest_concat, List.flatten_append]
    simp only [at?]
    by_cases hnew : p < xs.flatten.length
    · rw [if_neg (by omega), List.getElem?_append_left hnew]
      exact ih hnew
    · have hle : xs.flatten.length ≤ p := Nat.le_of_not_lt hnew
      have hlt : p - xs.flatten.length < data.length := by
        simp only [List.flatten_append, List.length_append, List.flatten_cons, List.flatten_nil,
          List.append_nil] at hp
        omega
      rw [if_pos (by omega), List.getElem?_append_right hle,
        show offset + p - (offset + xs.flatten.length) = p - xs.flatten.length by omega,
        List.flatten_singleton, List.getElem?_eq_getElem hlt]
      rfl

end Write

end Ulysses.Lib
