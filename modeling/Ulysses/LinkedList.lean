import Ulysses.Lib.Linked

/-!
# Intrusive lists

`sys::List` of `list.hpp`. The elements carry their links, so the state of a list
is its head, tail and count together with the links of all elements; two lists
over one link field share `nodes`. `Rep nodes l xs` says that the list is `xs`.
-/

namespace Ulysses

open Lib

structure LinkedList (α : Type) where
  head : Option α
  tail : Option α
  count : Int
deriving DecidableEq

namespace LinkedList

variable {α : Type} [DecidableEq α]

/-- `init`. -/
def empty : LinkedList α := ⟨none, none, 0⟩

/-- The link of an element that is in no list. -/
def blank : Link α := ⟨none, none, false⟩

def unlink (elem : α) (nodes : α → Link α) (l : LinkedList α) : (α → Link α) × LinkedList α :=
  if !(nodes elem).linked then (nodes, l)
  else
    let nodes := setPrev (nodes elem).next (nodes elem).prev nodes
    let nodes := setNext (nodes elem).prev (nodes elem).next nodes
    (Function.update nodes elem blank,
      { head := if l.head = some elem then (nodes elem).next else l.head
        tail := if l.tail = some elem then (nodes elem).prev else l.tail
        count := l.count - 1 })

def append (elem : α) (nodes : α → Link α) (l : LinkedList α) : (α → Link α) × LinkedList α :=
  if (nodes elem).linked then (nodes, l)
  else
    (Function.update (setNext l.tail (some elem) nodes) elem ⟨none, l.tail, true⟩,
      { head := if l.head = none then some elem else l.head
        tail := some elem
        count := l.count + 1 })

def prepend (elem : α) (nodes : α → Link α) (l : LinkedList α) : (α → Link α) × LinkedList α :=
  if (nodes elem).linked then (nodes, l)
  else
    (Function.update (setPrev l.head (some elem) nodes) elem ⟨l.head, none, true⟩,
      { head := some elem
        tail := if l.tail = none then some elem else l.tail
        count := l.count + 1 })

/-- The elements from the head on. -/
def toList (nodes : α → Link α) (l : LinkedList α) : List α := chain nodes l.count.toNat l.head

/-! ## What the operations do to the sequence -/

structure Rep (nodes : α → Link α) (l : LinkedList α) (xs : List α) : Prop where
  nodup : xs.Nodup
  head : l.head = xs.head?
  tail : l.tail = xs.getLast?
  count : l.count = xs.length
  links : LinkSeg nodes none xs none

omit [DecidableEq α] in
theorem rep_empty (nodes : α → Link α) : Rep nodes empty [] :=
  ⟨List.nodup_nil, rfl, rfl, rfl, trivial⟩

variable {l : LinkedList α} {nodes : α → Link α} {xs : List α} {x : α}

omit [DecidableEq α] in
theorem Rep.congr {nodes' : α → Link α} (h : Rep nodes l xs) (heq : ∀ x ∈ xs, nodes' x = nodes x) :
    Rep nodes' l xs :=
  { h with links := h.links.congr heq }

omit [DecidableEq α] in
theorem Rep.next {ys : List α} (h : Rep nodes l (xs ++ x :: ys)) : (nodes x).next = ys.head? := by
  rw [((linkSeg_append xs (x :: ys)).1 h.links).2.1, Option.or_none]

omit [DecidableEq α] in
theorem Rep.toList_eq (h : Rep nodes l xs) : l.toList nodes = xs := by
  unfold toList
  rw [h.count, Int.toNat_natCast, h.head]
  exact h.links.chain_eq

theorem unlink_of_unlinked (h : (nodes x).linked = false) (l : LinkedList α) :
    l.unlink x nodes = (nodes, l) := by
  unfold unlink
  rw [h]
  rfl

theorem prepend_of_linked (h : (nodes x).linked = true) (l : LinkedList α) :
    l.prepend x nodes = (nodes, l) := by
  unfold prepend
  rw [if_pos h]

theorem Rep.unlink_eq {ys : List α} (h : Rep nodes l (xs ++ x :: ys)) :
    l.unlink x nodes =
      (Function.update (setNext xs.getLast? ys.head? (setPrev ys.head? xs.getLast? nodes)) x blank,
        { head := if l.head = some x then ys.head? else l.head
          tail := if l.tail = some x then xs.getLast? else l.tail
          count := l.count - 1 }) := by
  obtain ⟨-, hx, -⟩ := (linkSeg_append xs (x :: ys)).1 h.links
  simp only [Option.or_none] at hx
  obtain ⟨-, hndy, hdisj⟩ := List.nodup_append.1 h.nodup
  have hhead : ys.head? ≠ some x := fun heq =>
    (List.nodup_cons.1 hndy).1 (List.mem_of_head? heq)
  have hlast : xs.getLast? ≠ some x := fun heq =>
    hdisj x (List.mem_of_getLast? heq) x List.mem_cons_self rfl
  have hx₁ : setPrev ys.head? xs.getLast? nodes x = nodes x := setPrev_of_ne hhead _ _
  have hx₂ : setNext xs.getLast? ys.head? (setPrev ys.head? xs.getLast? nodes) x = nodes x := by
    rw [setNext_of_ne hlast, hx₁]
  unfold LinkedList.unlink
  rw [hx] at hx₁ hx₂ ⊢
  simp only [hx₁, hx₂, Bool.not_true, Bool.false_eq_true, if_false]

/-- An element is taken out; the links of other lists stay. -/
theorem Rep.unlink {ys : List α} (h : Rep nodes l (xs ++ x :: ys)) :
    Rep (l.unlink x nodes).1 (l.unlink x nodes).2 (xs ++ ys) ∧
      (l.unlink x nodes).1 x = blank ∧
      ∀ y, y ∉ xs ++ x :: ys → (l.unlink x nodes).1 y = nodes y := by
  obtain ⟨hxs, -, hys⟩ := (linkSeg_append xs (x :: ys)).1 h.links
  simp only [List.head?_cons] at hxs
  have hnd := h.nodup
  rw [List.nodup_append, List.nodup_cons] at hnd
  obtain ⟨hndx, ⟨hxy, hndy⟩, hdisj⟩ := hnd
  have hxx : x ∉ xs := fun hmem => hdisj x hmem x List.mem_cons_self rfl
  rw [h.unlink_eq]
  -- the two writes beside the element
  obtain ⟨n₁, hn₁⟩ : ∃ n₁, n₁ = setPrev ys.head? xs.getLast? nodes := ⟨_, rfl⟩
  rw [← hn₁]
  have hblank : ∀ y, y ≠ x → Function.update (setNext xs.getLast? ys.head? n₁) x blank y =
      setNext xs.getLast? ys.head? n₁ y := fun y hy => Function.update_of_ne hy _ _
  refine ⟨⟨?_, ?_, ?_, ?_, ?_⟩, Function.update_self .., fun y hy => ?_⟩
  · exact List.nodup_append.2
      ⟨hndx, hndy, fun a ha b hb => hdisj a ha b (List.mem_cons_of_mem x hb)⟩
  · show (if l.head = some x then ys.head? else l.head) = _
    rw [h.head]
    cases xs with
    | nil => simp
    | cons a xs =>
      have : a ≠ x := fun heq => hxx (heq ▸ List.mem_cons_self)
      simp [this]
  · show (if l.tail = some x then xs.getLast? else l.tail) = _
    rw [h.tail]
    rcases List.eq_nil_or_concat' ys with rfl | ⟨zs, b, rfl⟩
    · simp
    · have : b ≠ x := fun heq => hxy (by simp [heq])
      have hcons : xs ++ x :: (zs ++ [b]) = (xs ++ x :: zs) ++ [b] := by simp
      rw [hcons, List.getLast?_concat, ← List.append_assoc, List.getLast?_concat]
      simp [this]
  · show l.count - 1 = _
    rw [h.count]
    simp only [List.length_append, List.length_cons]
    omega
  · refine (linkSeg_append xs ys).2 ⟨?_, ?_⟩
    · have hkept : LinkSeg n₁ none xs (some x) := hxs.congr fun y hy => hn₁ ▸
        setPrev_of_ne (fun heq => hdisj y hy y (by simp [List.mem_of_head? heq]) rfl) _ _
      rw [Option.or_none]
      exact (hkept.setNext hndx ys.head?).congr fun y hy => hblank y fun heq => hxx (heq ▸ hy)
    · have hkept : LinkSeg n₁ xs.getLast? ys none := hn₁ ▸ hys.setPrev hndy xs.getLast?
      rw [Option.or_none]
      refine hkept.congr fun y hy => (hblank y fun heq => hxy (heq ▸ hy)).trans ?_
      exact setNext_of_ne
        (fun heq => hdisj y (List.mem_of_getLast? heq) y (List.mem_cons_of_mem x hy) rfl) _ _
  · simp only [List.mem_append, List.mem_cons, not_or] at hy
    refine (hblank y hy.2.1).trans ?_
    rw [setNext_of_ne fun heq => hy.1 (List.mem_of_getLast? heq), hn₁,
      setPrev_of_ne fun heq => hy.2.2 (List.mem_of_head? heq)]

theorem Rep.prepend (h : Rep nodes l xs) (hx : (nodes x).linked = false) :
    Rep (l.prepend x nodes).1 (l.prepend x nodes).2 (x :: xs) ∧
      ∀ y, y ∉ x :: xs → (l.prepend x nodes).1 y = nodes y := by
  have hnot : x ∉ xs := fun hmem => by
    rw [h.links.linked hmem] at hx
    cases hx
  unfold LinkedList.prepend
  rw [if_neg (by rw [hx]; decide), h.head]
  refine ⟨⟨List.nodup_cons.2 ⟨hnot, h.nodup⟩, rfl, ?_, ?_, ?_⟩, fun y hy => ?_⟩
  · show (if l.tail = none then some x else l.tail) = _
    rw [h.tail, List.getLast?_cons]
    cases xs.getLast? <;> rfl
  · show l.count + 1 = _
    rw [h.count]
    simp
  · refine ⟨by rw [Option.or_none]; exact Function.update_self .., ?_⟩
    exact (h.links.setPrev h.nodup (some x)).congr fun y hy =>
      Function.update_of_ne (fun heq : y = x => hnot (heq ▸ hy)) _ _
  · simp only [List.mem_cons, not_or] at hy
    show Function.update _ _ _ y = _
    rw [Function.update_of_ne hy.1, setPrev_of_ne fun heq => hy.2 (List.mem_of_head? heq)]

theorem Rep.append (h : Rep nodes l xs) (hx : (nodes x).linked = false) :
    Rep (l.append x nodes).1 (l.append x nodes).2 (xs ++ [x]) ∧
      ∀ y, y ∉ xs ++ [x] → (l.append x nodes).1 y = nodes y := by
  have hnot : x ∉ xs := fun hmem => by
    rw [h.links.linked hmem] at hx
    cases hx
  unfold LinkedList.append
  rw [if_neg (by rw [hx]; decide), h.tail]
  refine ⟨⟨?_, ?_, (List.getLast?_concat ..).symm, ?_, ?_⟩, fun y hy => ?_⟩
  · exact List.nodup_append.2 ⟨h.nodup, by simp, fun a ha b hb heq =>
      hnot (List.mem_singleton.1 hb ▸ heq ▸ ha)⟩
  · show (if l.head = none then some x else l.head) = _
    rw [h.head]
    cases xs <;> rfl
  · show l.count + 1 = _
    rw [h.count]
    simp
  · refine (linkSeg_append xs [x]).2 ⟨?_, ?_, trivial⟩
    · exact (h.links.setNext h.nodup (some x)).congr fun y hy =>
        Function.update_of_ne (fun heq : y = x => hnot (heq ▸ hy)) _ _
    · refine (Function.update_self x _ _).trans ?_
      rw [Option.or_none, Option.or_none]
      rfl
  · simp only [List.mem_append, List.mem_singleton, not_or] at hy
    show Function.update _ _ _ y = _
    rw [Function.update_of_ne hy.2, setNext_of_ne fun heq => hy.1 (List.mem_of_getLast? heq)]

/-! ## Elements that may or may not be in the list -/

theorem Rep.erase (h : Rep nodes l xs) (hx : (nodes x).linked = true → x ∈ xs) :
    Rep (l.unlink x nodes).1 (l.unlink x nodes).2 (xs.erase x) ∧
      ((l.unlink x nodes).1 x).linked = false ∧
      ∀ y, y ∉ xs → (l.unlink x nodes).1 y = nodes y := by
  by_cases hmem : x ∈ xs
  · obtain ⟨ys, zs, -, rfl, herase⟩ := List.exists_erase_eq hmem
    obtain ⟨hrep, hblank, hother⟩ := h.unlink
    rw [herase]
    exact ⟨hrep, by rw [hblank]; rfl, hother⟩
  · have hun : (nodes x).linked = false := by
      rw [← Bool.not_eq_true]
      exact fun hl => hmem (hx hl)
    rw [unlink_of_unlinked hun, List.erase_of_not_mem hmem]
    exact ⟨h, hun, fun _ _ => rfl⟩

theorem Rep.insert (h : Rep nodes l xs) (hx : (nodes x).linked = true → x ∈ xs) :
    Rep (l.prepend x nodes).1 (l.prepend x nodes).2 (xs.insert x) ∧
      ∀ y, y ∉ xs → y ≠ x → (l.prepend x nodes).1 y = nodes y := by
  by_cases hmem : x ∈ xs
  · rw [prepend_of_linked (h.links.linked hmem), List.insert_of_mem hmem]
    exact ⟨h, fun _ _ _ => rfl⟩
  · have hun : (nodes x).linked = false := by
      rw [← Bool.not_eq_true]
      exact fun hl => hmem (hx hl)
    obtain ⟨hrep, hother⟩ := h.prepend hun
    rw [List.insert_of_not_mem hmem]
    exact ⟨hrep, fun y hy hne => hother y (by simp [hy, hne])⟩

end LinkedList

end Ulysses
