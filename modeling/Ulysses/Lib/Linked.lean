import Mathlib.Logic.Function.Basic
import Mathlib.Data.List.Basic
import Mathlib.Data.List.Induction
import Ulysses.Lib.Chain

/-!
# Doubly linked segments

Elements that carry their own links, one `Link` each. `LinkSeg nodes p xs q` says that
`xs` is linked in this order, with `p` before the first element and `q` after the
last. The two writes of a list operation, to the `prev` of a first element and to
the `next` of a last one, change `p` and `q` and nothing else.
-/

namespace Ulysses.Lib

structure Link (α : Type) where
  next : Option α
  prev : Option α
  linked : Bool
deriving DecidableEq

variable {α : Type}

def LinkSeg (nodes : α → Link α) : Option α → List α → Option α → Prop
  | _, [], _ => True
  | p, x :: xs, q => nodes x = ⟨xs.head?.or q, p, true⟩ ∧ LinkSeg nodes (some x) xs q

variable {nodes : α → Link α} {p : Option α} {xs : List α}

theorem LinkSeg.congr {nodes' : α → Link α} {q : Option α} (h : LinkSeg nodes p xs q)
    (heq : ∀ x ∈ xs, nodes' x = nodes x) : LinkSeg nodes' p xs q := by
  induction xs generalizing p with
  | nil => trivial
  | cons x xs ih =>
    exact ⟨(heq x List.mem_cons_self).trans h.1,
      ih h.2 fun y hy => heq y (List.mem_cons_of_mem x hy)⟩

theorem LinkSeg.linked {q : Option α} (h : LinkSeg nodes p xs q) {x : α} (hx : x ∈ xs) :
    (nodes x).linked = true := by
  induction xs generalizing p with
  | nil => cases hx
  | cons y xs ih =>
    rcases List.mem_cons.1 hx with rfl | hx
    · rw [h.1]
    · exact ih h.2 hx

/-- The first `n` elements that the links lead to. -/
def chain (nodes : α → Link α) : Nat → Option α → List α
  | 0, _ => []
  | _ + 1, none => []
  | n + 1, some x => x :: chain nodes n (nodes x).next

theorem LinkSeg.chain_eq (h : LinkSeg nodes p xs none) : chain nodes xs.length xs.head? = xs := by
  induction xs generalizing p with
  | nil => rfl
  | cons x xs ih =>
    have hnext : (nodes x).next = xs.head? := by rw [h.1, Option.or_none]
    have hrest := ih h.2
    rw [List.length_cons, List.head?_cons, chain, hnext, hrest]

theorem linkSeg_append {q : Option α} (xs ys : List α) :
    LinkSeg nodes p (xs ++ ys) q ↔
      LinkSeg nodes p xs (ys.head?.or q) ∧ LinkSeg nodes (xs.getLast?.or p) ys q := by
  induction xs generalizing p with
  | nil => simp [LinkSeg]
  | cons x xs ih =>
    simp only [List.cons_append, LinkSeg, ih, List.head?_append, Option.or_assoc, and_assoc]
    cases xs with
    | nil => simp
    | cons y xs => simp [List.getLast?_cons]

/-- Forward the pointers visit the elements in their order. -/
theorem LinkSeg.chain_next (h : LinkSeg nodes p xs none) :
    Chain (fun x => (nodes x).next) xs.head? xs := by
  induction xs generalizing p with
  | nil => rfl
  | cons x xs ih =>
    refine ⟨rfl, ?_⟩
    simp only [h.1, Option.or_none]
    exact ih h.2

/-- Backward they visit them in the reverse order. -/
theorem LinkSeg.chain_prev {q : Option α} (h : LinkSeg nodes none xs q) :
    Chain (fun x => (nodes x).prev) xs.getLast? xs.reverse := by
  induction xs using List.reverseRecOn generalizing q with
  | nil => rfl
  | append_singleton xs x ih =>
    obtain ⟨hxs, hx, -⟩ := (linkSeg_append xs [x]).1 h
    rw [List.getLast?_concat, List.reverse_concat]
    refine ⟨rfl, ?_⟩
    simp only [hx, Option.or_none]
    exact ih hxs

variable [DecidableEq α]

def setPrev (at? v : Option α) (nodes : α → Link α) : α → Link α :=
  match at? with
  | some x => Function.update nodes x { nodes x with prev := v }
  | none => nodes

def setNext (at? v : Option α) (nodes : α → Link α) : α → Link α :=
  match at? with
  | some x => Function.update nodes x { nodes x with next := v }
  | none => nodes

theorem setPrev_of_ne {at? : Option α} {x : α} (h : at? ≠ some x) (v : Option α)
    (nodes : α → Link α) : setPrev at? v nodes x = nodes x := by
  unfold setPrev
  split
  · exact Function.update_of_ne (fun heq => h (by rw [heq])) _ _
  · rfl

theorem setNext_of_ne {at? : Option α} {x : α} (h : at? ≠ some x) (v : Option α)
    (nodes : α → Link α) : setNext at? v nodes x = nodes x := by
  unfold setNext
  split
  · exact Function.update_of_ne (fun heq => h (by rw [heq])) _ _
  · rfl

theorem LinkSeg.setPrev {q : Option α} (h : LinkSeg nodes p xs q) (hnd : xs.Nodup) (v : Option α) :
    LinkSeg (setPrev xs.head? v nodes) v xs q := by
  cases xs with
  | nil => trivial
  | cons x xs =>
    refine ⟨?_, h.2.congr fun y hy => setPrev_of_ne ?_ v nodes⟩
    · simp only [List.head?_cons, Lib.setPrev, Function.update_self, h.1]
    · rintro heq
      obtain rfl := Option.some.inj heq
      exact (List.nodup_cons.1 hnd).1 hy

theorem LinkSeg.setNext {q : Option α} (h : LinkSeg nodes p xs q) (hnd : xs.Nodup) (v : Option α) :
    LinkSeg (setNext xs.getLast? v nodes) p xs v := by
  rcases List.eq_nil_or_concat' xs with rfl | ⟨ys, x, rfl⟩
  · trivial
  · obtain ⟨hys, hx⟩ := (linkSeg_append ys [x]).1 h
    obtain ⟨-, -, hdisj⟩ := List.nodup_append.1 hnd
    rw [List.getLast?_concat]
    refine (linkSeg_append ys [x]).2 ⟨hys.congr fun y hy => setNext_of_ne ?_ v nodes, ?_, trivial⟩
    · rintro heq
      obtain rfl := Option.some.inj heq
      exact hdisj _ hy _ (List.mem_singleton_self _) rfl
    · simp only [Lib.setNext, Function.update_self, hx.1, List.head?_nil, Option.none_or]

end Ulysses.Lib
