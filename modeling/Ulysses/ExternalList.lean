import Ulysses.LinkedList
import Ulysses.Lib.Reach

/-!
# External lists

`sys::ExternalList` of `list.hpp`, the queue of `WaitQueue`: the nodes are allocated for the
list and hold the elements. The pointers are those of an intrusive list over the nodes, so
that `LinkedList.Rep` says what they lead to. `shift` takes an element out and leaves
`count_`, which from then on is too large (`represents_iff`).
-/

namespace Ulysses

open Lib

/-- `ExternalList::Node`. -/
structure ListNode (α : Type) where
  elem : α
  next : Option Nat
  prev : Option Nat

/-- `ExternalList` with the memory of its nodes. `made` counts the nodes that there have
been; no function of the source reads it. -/
structure ExternalList (α : Type) where
  nodes : Nat → Option (ListNode α)
  head : Option Nat
  tail : Option Nat
  count : Int
  made : Nat

namespace ExternalList

variable {α : Type}

def make : ExternalList α := ⟨fun _ => none, none, none, 0, 0⟩

/-- The nodes with `f` applied to the one at a pointer. -/
def modify (node : Option Nat) (f : ListNode α → ListNode α) (nodes : Nat → Option (ListNode α)) :
    Nat → Option (ListNode α) :=
  fun q => if node = some q then (nodes q).map f else nodes q

/-- A write to the node at a pointer that is not null. `none` is a node that is not there. -/
def write (node : Option Nat) (f : ListNode α → ListNode α) (nodes : Nat → Option (ListNode α)) :
    Option (Nat → Option (ListNode α)) :=
  if node.all fun p => (nodes p).isSome then some (modify node f nodes) else none

/-- `append`; `p` is the new node. -/
def append (p : Nat) (elem : α) (l : ExternalList α) : Option (ExternalList α) :=
  (write l.tail (fun n => { n with next := some p }) l.nodes).map fun nodes =>
    { nodes := Function.update nodes p (some ⟨elem, none, l.tail⟩)
      head := if l.head = none then some p else l.head
      tail := some p
      count := l.count + 1
      made := l.made + 1 }

/-- The loop of `find_node` from a node on. -/
def findFrom [BEq α] (nodes : Nat → Option (ListNode α)) (elem : α) :
    Nat → Option Nat → Option (Option Nat)
  | _, none => some none
  | 0, some _ => none
  | fuel + 1, some p =>
    match nodes p with
    | none => none
    | some n => if n.elem == elem then some (some p) else findFrom nodes elem fuel n.next

/-- `find_node`. -/
def findNode [BEq α] (elem : α) (l : ExternalList α) : Option (Option Nat) :=
  findFrom l.nodes elem l.made l.head

/-- `remove`; the node is not freed. -/
def remove [BEq α] (elem : α) (l : ExternalList α) : Option (ExternalList α) :=
  (l.findNode elem).bind fun node => node.bind fun p => (l.nodes p).bind fun n =>
    (write n.next (fun m => { m with prev := n.prev }) l.nodes).bind fun nodes =>
      (write n.prev (fun m => { m with next := n.next }) nodes).map fun nodes =>
        { l with
          nodes
          head := if l.head = some p then n.next else l.head
          tail := if l.tail = some p then n.prev else l.tail
          count := l.count - 1 }

/-- `shift`, with the element if it returns `true`. -/
def shift (l : ExternalList α) : Option (Option α × ExternalList α) :=
  match l.head with
  | none => some (none, l)
  | some p => (l.nodes p).bind fun n =>
    (write n.next (fun m => { m with prev := none }) l.nodes).map fun nodes =>
      (some n.elem,
        { l with
          nodes := Function.update nodes p none
          head := n.next
          tail := if l.tail = some p then n.next else l.tail })

/-! ## The pointers -/

/-- The links of the nodes that are there. -/
def links (nodes : Nat → Option (ListNode α)) (p : Nat) : Link Nat :=
  match nodes p with
  | some n => ⟨n.next, n.prev, true⟩
  | none => LinkedList.blank

/-- The cells, by the address of their node, are the list. -/
structure Rep (l : ExternalList α) (cells : List (Nat × α)) : Prop where
  pointers : LinkedList.Rep (links l.nodes) ⟨l.head, l.tail, cells.length⟩ (cells.map Prod.fst)
  elems : ∀ c ∈ cells, (l.nodes c.1).map ListNode.elem = some c.2
  made : cells.length ≤ l.made

section

variable {nodes : Nat → Option (ListNode α)} {l : ExternalList α} {at? : Option Nat}
  {cells cs ds : List (Nat × α)} {c : Nat × α}

theorem rep_make : Rep (make : ExternalList α) [] :=
  ⟨LinkedList.rep_empty _, by simp, Nat.le_refl 0⟩

theorem links_of_some {p : Nat} {n : ListNode α} (h : nodes p = some n) :
    links nodes p = ⟨n.next, n.prev, true⟩ := by
  unfold links
  rw [h]

theorem links_of_none {p : Nat} (h : nodes p = none) : links nodes p = LinkedList.blank := by
  unfold links
  rw [h]

theorem links_next (nodes : Nat → Option (ListNode α)) (p : Nat) :
    (links nodes p).next = (nodes p).bind ListNode.next := by
  unfold links
  cases nodes p <;> rfl

theorem links_prev (nodes : Nat → Option (ListNode α)) (p : Nat) :
    (links nodes p).prev = (nodes p).bind ListNode.prev := by
  unfold links
  cases nodes p <;> rfl

theorem links_update (nodes : Nat → Option (ListNode α)) (p : Nat) (n : ListNode α) :
    links (Function.update nodes p (some n)) =
      Function.update (links nodes) p ⟨n.next, n.prev, true⟩ := by
  funext q
  by_cases hq : q = p
  · rw [hq, Function.update_self, links_of_some (Function.update_self ..)]
  · unfold links
    rw [Function.update_of_ne hq, Function.update_of_ne hq]

theorem links_congr {nodes' : Nat → Option (ListNode α)} {p : Nat} (h : nodes' p = nodes p) :
    links nodes' p = links nodes p := by
  unfold links
  rw [h]

theorem write_eq {f : ListNode α → ListNode α} (h : ∀ p, at? = some p → (nodes p).isSome) :
    write at? f nodes = some (modify at? f nodes) := by
  unfold write
  rw [if_pos]
  cases at? with
  | none => rfl
  | some p => exact h p rfl

theorem modify_elem {f : ListNode α → ListNode α} (hf : ∀ n, (f n).elem = n.elem) (q : Nat) :
    (modify at? f nodes q).map ListNode.elem = (nodes q).map ListNode.elem := by
  unfold modify
  split
  · cases nodes q with
    | none => rfl
    | some n => exact congrArg some (hf n)
  · rfl

theorem modify_isSome {f : ListNode α → ListNode α} (q : Nat) :
    (modify at? f nodes q).isSome = (nodes q).isSome := by
  unfold modify
  split
  · exact Option.isSome_map
  · rfl

theorem links_modify_prev {v : Option Nat} (h : ∀ p, at? = some p → (nodes p).isSome) :
    links (modify at? (fun n => { n with prev := v }) nodes) = setPrev at? v (links nodes) := by
  funext q
  by_cases hq : at? = some q
  · obtain ⟨n, hn⟩ := Option.isSome_iff_exists.1 (h q hq)
    subst hq
    simp [setPrev, links, modify, hn]
  · rw [setPrev_of_ne hq]
    exact links_congr (if_neg hq)

theorem links_modify_next {v : Option Nat} (h : ∀ p, at? = some p → (nodes p).isSome) :
    links (modify at? (fun n => { n with next := v }) nodes) = setNext at? v (links nodes) := by
  funext q
  by_cases hq : at? = some q
  · obtain ⟨n, hn⟩ := Option.isSome_iff_exists.1 (h q hq)
    subst hq
    simp [setNext, links, modify, hn]
  · rw [setNext_of_ne hq]
    exact links_congr (if_neg hq)

/-! ## What an operation does to the cells -/

theorem Rep.node (h : Rep l cells) (hc : c ∈ cells) :
    ∃ n, l.nodes c.1 = some n ∧ n.elem = c.2 := by
  obtain ⟨n, hn, helem⟩ := Option.map_eq_some_iff.1 (h.elems c hc)
  exact ⟨n, hn, helem⟩

theorem Rep.isSome_of_mem (h : Rep l cells) {p : Nat} (hp : p ∈ cells.map Prod.fst) :
    (l.nodes p).isSome := by
  obtain ⟨c, hc, rfl⟩ := List.mem_map.1 hp
  obtain ⟨n, hn, -⟩ := h.node hc
  rw [hn]
  rfl

theorem Rep.node_between (h : Rep l (cs ++ c :: ds)) :
    l.nodes c.1 = some ⟨c.2, (ds.map Prod.fst).head?, (cs.map Prod.fst).getLast?⟩ := by
  obtain ⟨n, hn, helem⟩ := h.node (List.mem_append_right cs List.mem_cons_self)
  have hlinks := h.pointers.links
  rw [List.map_append, List.map_cons] at hlinks
  have hc := ((linkSeg_append _ _).1 hlinks).2.1
  rw [links_of_some hn, Option.or_none, Option.or_none] at hc
  obtain ⟨elem, next, prev⟩ := n
  simp only [Link.mk.injEq, and_true] at hc
  rw [hn, hc.1, hc.2, ← helem]

theorem Rep.append (h : Rep l cells) {p : Nat} (hp : l.nodes p = none) (elem : α) :
    ∃ l', l.append p elem = some l' ∧ Rep l' (cells ++ [(p, elem)]) ∧ l'.count = l.count + 1 := by
  have htail : ∀ q, l.tail = some q → (l.nodes q).isSome := fun q hq =>
    h.isSome_of_mem (List.mem_of_getLast? (h.pointers.tail.symm.trans hq))
  have hnot : ∀ c ∈ cells, c.1 ≠ p := fun c hc heq => by
    obtain ⟨n, hn, -⟩ := h.node hc
    rw [heq, hp] at hn
    cases hn
  refine ⟨_, by rw [ExternalList.append, write_eq htail, Option.map_some], ⟨?_, ?_, ?_⟩, rfl⟩
  · have hlinked : (links l.nodes p).linked = false := by
      rw [links_of_none hp]
      rfl
    have hrep := (h.pointers.append hlinked).1
    rw [LinkedList.append, if_neg (by rw [hlinked]; decide)] at hrep
    rw [links_update, links_modify_next htail, List.map_append, List.length_append]
    exact hrep
  · intro c hc
    dsimp only
    rcases List.mem_append.1 hc with hc | hc
    · rw [Function.update_of_ne (hnot c hc), modify_elem]
      · exact h.elems c hc
      · exact fun _ => rfl
    · rw [List.mem_singleton.1 hc, Function.update_self]
      rfl
  · rw [List.length_append]
    exact Nat.add_le_add_right h.made 1

theorem Rep.without (h : Rep l (cs ++ c :: ds)) {l' : ExternalList α}
    (hnodes : ∀ q, q ≠ c.1 → links l'.nodes q =
      setNext (cs.map Prod.fst).getLast? (ds.map Prod.fst).head?
        (setPrev (ds.map Prod.fst).head? (cs.map Prod.fst).getLast? (links l.nodes)) q)
    (helems : ∀ q, q ≠ c.1 →
      (l'.nodes q).map ListNode.elem = (l.nodes q).map ListNode.elem)
    (hhead : l'.head = if l.head = some c.1 then (ds.map Prod.fst).head? else l.head)
    (htail : l'.tail = if l.tail = some c.1 then (cs.map Prod.fst).getLast? else l.tail)
    (hmade : l'.made = l.made) : Rep l' (cs ++ ds) := by
  have hpointers := h.pointers
  rw [List.map_append, List.map_cons] at hpointers
  have hnd := hpointers.nodup
  rw [List.nodup_append, List.nodup_cons] at hnd
  have hne : ∀ q ∈ cs.map Prod.fst ++ ds.map Prod.fst, q ≠ c.1 := by
    rintro q hq rfl
    rcases List.mem_append.1 hq with hq | hq
    · exact hnd.2.2 _ hq _ List.mem_cons_self rfl
    · exact hnd.2.1.1 hq
  refine ⟨?_, fun d hd => ?_, ?_⟩
  · have hrep := hpointers.unlink.1
    rw [hpointers.unlink_eq] at hrep
    rw [hhead, htail, List.map_append]
    have hcount : ((cs ++ c :: ds).length : Int) - 1 = (cs ++ ds).length := by
      simp only [List.length_append, List.length_cons]
      omega
    rw [hcount] at hrep
    refine hrep.congr fun q hq => ?_
    rw [hnodes q (hne q hq)]
    exact (Function.update_of_ne (hne q hq) _ _).symm
  · have hmem : d.1 ∈ cs.map Prod.fst ++ ds.map Prod.fst := by
      rw [← List.map_append]
      exact List.mem_map_of_mem hd
    rw [helems d.1 (hne _ hmem)]
    refine h.elems d ?_
    rcases List.mem_append.1 hd with hd | hd
    · exact List.mem_append_left _ hd
    · exact List.mem_append_right _ (List.mem_cons_of_mem c hd)
  · have hlen := h.made
    simp only [List.length_append, List.length_cons] at hlen ⊢
    omega

theorem Rep.isSome_beside (h : Rep l (cs ++ c :: ds)) {p : Nat}
    (hp : (ds.map Prod.fst).head? = some p ∨ (cs.map Prod.fst).getLast? = some p) :
    (l.nodes p).isSome := by
  refine h.isSome_of_mem ?_
  rw [List.map_append, List.map_cons]
  rcases hp with hp | hp
  · exact List.mem_append_right _ (List.mem_cons_of_mem _ (List.mem_of_head? hp))
  · exact List.mem_append_left _ (List.mem_of_getLast? hp)

theorem Rep.shift_nil (h : Rep l []) : l.shift = some (none, l) := by
  have hhead : l.head = none := h.pointers.head
  unfold ExternalList.shift
  rw [hhead]

theorem Rep.eq_nil_of_tail (h : Rep l (c :: ds)) (htail : l.tail = some c.1) : ds = [] := by
  rcases List.eq_nil_or_concat' ds with rfl | ⟨es, d, rfl⟩
  · rfl
  · have hlast : some c.1 = some d.1 := by
      have hlast : l.tail = ((c :: (es ++ [d])).map Prod.fst).getLast? := h.pointers.tail
      rw [← htail, hlast, ← List.cons_append, List.map_append]
      exact List.getLast?_concat ..
    have hnd := (List.nodup_cons.1 h.pointers.nodup).1
    rw [Option.some.inj hlast] at hnd
    exact absurd (List.mem_map_of_mem (List.mem_append_right es (List.mem_singleton_self d))) hnd

theorem Rep.shift_cons (h : Rep l (c :: ds)) :
    ∃ l', l.shift = some (some c.2, l') ∧ Rep l' ds ∧ l'.count = l.count := by
  have hsplit : Rep l ([] ++ c :: ds) := h
  have hhead : l.head = some c.1 := h.pointers.head
  have hnode : l.nodes c.1 = some ⟨c.2, (ds.map Prod.fst).head?, none⟩ := hsplit.node_between
  have hnext : ∀ p, (ds.map Prod.fst).head? = some p → (l.nodes p).isSome := fun p hp =>
    hsplit.isSome_beside (.inl hp)
  refine ⟨{ l with
    nodes := Function.update
      (modify (ds.map Prod.fst).head? (fun m => { m with prev := none }) l.nodes) c.1 none
    head := (ds.map Prod.fst).head?
    tail := if l.tail = some c.1 then (ds.map Prod.fst).head? else l.tail }, ?_, ?_, rfl⟩
  · simp only [ExternalList.shift, hhead, hnode, Option.bind_some, write_eq hnext,
      Option.map_some]
  · refine hsplit.without ?_ ?_ ?_ ?_ rfl
    · intro q hq
      rw [links_congr (Function.update_of_ne hq _ _), links_modify_prev hnext]
      rfl
    · intro q hq
      dsimp only
      rw [Function.update_of_ne hq, modify_elem]
      exact fun _ => rfl
    · rw [if_pos hhead]
    · show (if l.tail = some c.1 then (ds.map Prod.fst).head? else l.tail) = _
      split
      next hlast =>
        rw [h.eq_nil_of_tail hlast]
        rfl
      next => rfl

section

variable [BEq α] {elem : α}

/-- `find_node` goes past the elements that are not equal. -/
theorem Rep.findFrom_eq (h : Rep l (cells ++ cs ++ c :: ds)) (hcs : ∀ d ∈ cs, (d.2 == elem) = false)
    (hc : (c.2 == elem) = true) {fuel : Nat} (hfuel : cs.length < fuel) :
    findFrom l.nodes elem fuel ((cs ++ c :: ds).map Prod.fst).head? = some (some c.1) := by
  induction cs generalizing cells fuel with
  | nil =>
    obtain ⟨fuel, rfl⟩ := Nat.exists_eq_succ_of_ne_zero (Nat.ne_of_gt hfuel)
    rw [List.append_nil] at h
    simp only [List.nil_append, List.map_cons, List.head?_cons, findFrom, h.node_between, hc,
      if_true]
  | cons d cs ih =>
    obtain ⟨fuel, rfl⟩ := Nat.exists_eq_succ_of_ne_zero (Nat.ne_of_gt (Nat.zero_lt_of_lt hfuel))
    have hsplit : Rep l (cells ++ d :: (cs ++ c :: ds)) := by
      rw [List.append_assoc, List.cons_append] at h
      exact h
    have hrest : Rep l ((cells ++ [d]) ++ cs ++ c :: ds) := by
      rw [List.append_cons, ← List.append_assoc] at hsplit
      exact hsplit
    have hd := hcs d List.mem_cons_self
    simp only [List.cons_append, List.map_cons, List.head?_cons, findFrom, hsplit.node_between,
      hd, Bool.false_eq_true, if_false]
    exact ih hrest (fun e he => hcs e (List.mem_cons_of_mem d he)) (Nat.lt_of_succ_lt_succ hfuel)

theorem Rep.findNode_eq (h : Rep l (cs ++ c :: ds)) (hcs : ∀ d ∈ cs, (d.2 == elem) = false)
    (hc : (c.2 == elem) = true) : l.findNode elem = some (some c.1) := by
  have hmade := h.made
  rw [List.length_append, List.length_cons] at hmade
  have hhead : l.head = ((cs ++ c :: ds).map Prod.fst).head? := h.pointers.head
  have hall : Rep l ([] ++ cs ++ c :: ds) := h
  unfold findNode
  rw [hhead]
  exact hall.findFrom_eq hcs hc (by omega)

theorem Rep.remove (h : Rep l (cs ++ c :: ds)) (hcs : ∀ d ∈ cs, (d.2 == elem) = false)
    (hc : (c.2 == elem) = true) :
    ∃ l', l.remove elem = some l' ∧ Rep l' (cs ++ ds) ∧ l'.count = l.count - 1 := by
  have hnext : ∀ p, (ds.map Prod.fst).head? = some p → (l.nodes p).isSome := fun p hp =>
    h.isSome_beside (.inl hp)
  have hprev : ∀ p, (cs.map Prod.fst).getLast? = some p →
      (modify (ds.map Prod.fst).head? (fun m => { m with prev := (cs.map Prod.fst).getLast? })
        l.nodes p).isSome := fun p hp => by
    rw [modify_isSome]
    exact h.isSome_beside (.inr hp)
  refine ⟨{ l with
    nodes := modify (cs.map Prod.fst).getLast?
      (fun m => { m with next := (ds.map Prod.fst).head? })
      (modify (ds.map Prod.fst).head? (fun m => { m with prev := (cs.map Prod.fst).getLast? })
        l.nodes)
    head := if l.head = some c.1 then (ds.map Prod.fst).head? else l.head
    tail := if l.tail = some c.1 then (cs.map Prod.fst).getLast? else l.tail
    count := l.count - 1 }, ?_, ?_, rfl⟩
  · simp only [ExternalList.remove, h.findNode_eq hcs hc, Option.bind_some, h.node_between,
      write_eq hnext, write_eq hprev, Option.map_some]
  · refine h.without (fun q _ => ?_) (fun q _ => ?_) rfl rfl rfl
    · rw [links_modify_next hprev, links_modify_prev hnext]
    · dsimp only
      rw [modify_elem, modify_elem]
      · exact fun _ => rfl
      · exact fun _ => rfl

end

end

/-! ## Runs -/

inductive Op (α : Type)
  /-- The heap gives a node for the element. -/
  | append (p : Nat) (elem : α)
  | remove (elem : α)
  | shift

/-- The list and what the calls of `shift` have given. -/
structure Calls (α : Type) where
  list : ExternalList α
  results : List (Option α)

/-- The sequence that the list should be, and what `shift` should have given. -/
structure Queue (α : Type) where
  seq : List α
  results : List (Option α)

section

variable [BEq α]

def Calls.step (s : Calls α) : Op α → Option (Calls α)
  | .append p elem => (s.list.append p elem).map fun l => { s with list := l }
  | .remove elem => (s.list.remove elem).map fun l => { s with list := l }
  | .shift => s.list.shift.map fun r => ⟨r.2, s.results ++ [r.1]⟩

def Queue.step (q : Queue α) : Op α → Queue α
  | .append _ elem => { q with seq := q.seq ++ [elem] }
  | .remove elem => { q with seq := q.seq.eraseP (· == elem) }
  | .shift => ⟨q.seq.tail, q.results ++ [q.seq.head?]⟩

/-- Both from the constructor on; without a list a call has faulted. -/
abbrev Run (α : Type) := Option (Calls α) × Queue α

def Run.start : Run α := (some ⟨make, []⟩, ⟨[], []⟩)

def Run.step (r : Run α) (op : Op α) : Run α := (r.1.bind (·.step op), r.2.step op)

/-- The heap gives a node that is free, and only what is there is removed. -/
def Op.Allowed : Op α → Run α → Prop
  | .append p _, r => ∀ s, r.1 = some s → s.list.nodes p = none
  | .remove elem, r => ∃ x ∈ r.2.seq, (x == elem) = true
  | .shift, _ => True

/-- What a reader of the fields sees is the sequence. -/
structure Represents (l : ExternalList α) (xs : List α) : Prop where
  cells : ∃ ps : List Nat, ps.Nodup ∧
    Chain (fun p => (l.nodes p).bind ListNode.next) l.head ps ∧
    Chain (fun p => (l.nodes p).bind ListNode.prev) l.tail ps.reverse ∧
    ps.map (fun p => (l.nodes p).map ListNode.elem) = xs.map some
  head : l.head = none ↔ xs = []
  tail : l.tail = none ↔ xs = []
  count : l.count = xs.length

/-- The list is the sequence but for `count_`, which counts the elements shifted out too. -/
structure Run.Inv (r : Run α) (s : Calls α) (cells : List (Nat × α)) : Prop where
  returned : r.1 = some s
  rep : Rep s.list cells
  seq : cells.map Prod.snd = r.2.seq
  results : s.results = r.2.results
  count : s.list.count = (r.2.seq.length + r.2.results.countP Option.isSome : Nat)

omit [BEq α] in
theorem Run.inv_start : Run.Inv (Run.start : Run α) ⟨make, []⟩ [] :=
  ⟨rfl, rep_make, rfl, rfl, rfl⟩

section

variable {r : Run α} {s : Calls α} {cells : List (Nat × α)}

theorem Run.Inv.step_fst (h : r.Inv s cells) (op : Op α) : (r.step op).1 = s.step op := by
  unfold Run.step
  rw [h.returned]
  rfl

theorem Run.Inv.append (h : r.Inv s cells) {p : Nat} (hp : s.list.nodes p = none) (elem : α) :
    ∃ s' cells', (r.step (.append p elem)).Inv s' cells' := by
  obtain ⟨l', happ, hrep', hcount'⟩ := h.rep.append hp elem
  refine ⟨{ s with list := l' }, cells ++ [(p, elem)], ?_, hrep', ?_, h.results, ?_⟩
  · rw [h.step_fst, Calls.step, happ]
    rfl
  · rw [List.map_append, h.seq]
    rfl
  · show l'.count = ((r.2.seq ++ [elem]).length + r.2.results.countP Option.isSome : Nat)
    rw [hcount', h.count, List.length_append, List.length_singleton]
    omega

theorem Run.Inv.remove (h : r.Inv s cells) {elem x : α} (hx : x ∈ r.2.seq)
    (hxe : (x == elem) = true) : ∃ s' cells', (r.step (.remove elem)).Inv s' cells' := by
  rw [← h.seq] at hx
  obtain ⟨c, hc, rfl⟩ := List.mem_map.1 hx
  obtain ⟨c', cs, ds, hcs, hc', rfl, -⟩ :=
    List.exists_of_eraseP (p := fun c : Nat × α => c.2 == elem) hc hxe
  obtain ⟨l', hremove, hrep', hcount'⟩ :=
    h.rep.remove (fun d hd => Bool.eq_false_iff.2 (hcs d hd)) hc'
  have herase : r.2.seq.eraseP (· == elem) = (cs ++ ds).map Prod.snd := by
    have hnot : ∀ x ∈ cs.map Prod.snd, ¬(x == elem) = true := by
      intro x hx
      obtain ⟨d, hd, rfl⟩ := List.mem_map.1 hx
      exact hcs d hd
    rw [← h.seq, List.map_append, List.map_cons, List.eraseP_append_right _ hnot,
      List.eraseP_cons_of_pos (p := (· == elem)) hc', List.map_append]
  refine ⟨{ s with list := l' }, cs ++ ds, ?_, hrep', herase.symm, h.results, ?_⟩
  · rw [h.step_fst, Calls.step, hremove]
    rfl
  · show l'.count = ((r.2.seq.eraseP (· == elem)).length + r.2.results.countP Option.isSome : Nat)
    rw [hcount', h.count, herase, ← h.seq]
    simp only [List.length_map, List.length_append, List.length_cons]
    omega

theorem Run.Inv.shift_nil (h : r.Inv s []) :
    (r.step .shift).Inv ⟨s.list, s.results ++ [none]⟩ [] := by
  have hnil : r.2.seq = [] := h.seq.symm
  refine ⟨?_, h.rep, ?_, ?_, ?_⟩
  · rw [h.step_fst, Calls.step, h.rep.shift_nil]
    rfl
  · show _ = r.2.seq.tail
    rw [hnil]
    rfl
  · show _ = r.2.results ++ [r.2.seq.head?]
    rw [h.results, hnil]
    rfl
  · show s.list.count = (r.2.seq.tail.length +
      (r.2.results ++ [r.2.seq.head?]).countP Option.isSome : Nat)
    rw [h.count, hnil, List.countP_append]
    rfl

theorem Run.Inv.shift_cons {c : Nat × α} (h : r.Inv s (c :: cells)) :
    ∃ l', (r.step .shift).Inv ⟨l', s.results ++ [some c.2]⟩ cells := by
  have hcons : r.2.seq = c.2 :: cells.map Prod.snd := h.seq.symm
  obtain ⟨l', hshift, hrep', hcount'⟩ := h.rep.shift_cons
  refine ⟨l', ?_, hrep', ?_, ?_, ?_⟩
  · rw [h.step_fst, Calls.step, hshift]
    rfl
  · show _ = r.2.seq.tail
    rw [hcons]
    rfl
  · show _ = r.2.results ++ [r.2.seq.head?]
    rw [h.results, hcons]
    rfl
  · show l'.count = (r.2.seq.tail.length +
      (r.2.results ++ [r.2.seq.head?]).countP Option.isSome : Nat)
    rw [hcount', h.count, hcons, List.countP_append]
    simp only [List.length_cons, List.tail_cons, List.head?_cons, List.countP_cons,
      List.countP_nil, Option.isSome_some, if_true]
    omega

theorem Run.Inv.step (h : r.Inv s cells) (op : Op α) (hop : op.Allowed r) :
    ∃ s' cells', (r.step op).Inv s' cells' := by
  cases op with
  | append p elem => exact h.append (hop s h.returned) elem
  | remove elem =>
    obtain ⟨x, hx, hxe⟩ := hop
    exact h.remove hx hxe
  | shift =>
    cases cells with
    | nil => exact ⟨_, _, h.shift_nil⟩
    | cons c cells =>
      obtain ⟨l', h'⟩ := h.shift_cons
      exact ⟨_, _, h'⟩

end

theorem Run.Inv.run {r : Run α} {s : Calls α} {cells : List (Nat × α)} (h : r.Inv s cells)
    {ops : List (Op α)} (hops : Along Run.step Op.Allowed ops r) :
    ∃ s' cells', Run.Inv (ops.foldl Run.step r) s' cells' := by
  induction ops generalizing r s cells with
  | nil => exact ⟨s, cells, h⟩
  | cons op ops ih =>
    obtain ⟨s', cells', h'⟩ := h.step op hops.1
    exact ih h' hops.2

omit [BEq α] in
theorem Rep.represents_iff_count {l : ExternalList α} {cells : List (Nat × α)} (h : Rep l cells) :
    l.Represents (cells.map Prod.snd) ↔ l.count = cells.length := by
  refine ⟨fun hrep => by simpa using hrep.count, fun hcount => ?_⟩
  have hhead : l.head = (cells.map Prod.fst).head? := h.pointers.head
  have htail : l.tail = (cells.map Prod.fst).getLast? := h.pointers.tail
  refine ⟨⟨cells.map Prod.fst, h.pointers.nodup, ?_, ?_, ?_⟩, ?_, ?_, ?_⟩
  · have hchain := h.pointers.links.chain_next
    rw [hhead]
    simpa only [links_next] using hchain
  · have hchain := h.pointers.links.chain_prev
    rw [htail]
    simpa only [links_prev] using hchain
  · rw [List.map_map, List.map_map]
    exact List.map_congr_left fun c hc => h.elems c hc
  · rw [hhead, List.head?_eq_none_iff, List.map_eq_nil_iff, List.map_eq_nil_iff]
  · rw [htail, List.getLast?_eq_none_iff, List.map_eq_nil_iff, List.map_eq_nil_iff]
  · rw [hcount, List.length_map]

/-- The calls do not fault, `shift` gives what it should, and the list is the sequence
exactly if no `shift` has taken out an element. -/
theorem represents_iff (ops : List (Op α)) (h : Along Run.step Op.Allowed ops Run.start) :
    ∃ s, (ops.foldl Run.step Run.start).1 = some s ∧
      s.results = (ops.foldl Queue.step ⟨[], []⟩).results ∧
      (s.list.Represents (ops.foldl Queue.step ⟨[], []⟩).seq ↔
        ∀ r ∈ (ops.foldl Queue.step ⟨[], []⟩).results, r = none) := by
  obtain ⟨s, cells, hinv⟩ := Run.inv_start.run h
  have hqueue : (ops.foldl Run.step Run.start).2 = ops.foldl Queue.step ⟨[], []⟩ :=
    (List.foldl_hom Prod.snd fun _ _ => rfl).symm
  obtain ⟨hret, hrep, hseq, hres, hcount⟩ := hinv
  rw [hqueue] at hseq hres hcount
  refine ⟨s, hret, hres, ?_⟩
  rw [← hseq, List.length_map] at hcount
  rw [← hseq, hrep.represents_iff_count, hcount]
  have hzero : (∀ r ∈ (ops.foldl Queue.step ⟨[], []⟩).results, r = none) ↔
      (ops.foldl Queue.step ⟨[], []⟩).results.countP Option.isSome = 0 := by
    simp only [List.countP_eq_zero, Option.not_isSome_iff_eq_none]
  rw [hzero]
  omega

end

/-- Two elements go in and are removed; `shift` comes too late. -/
theorem represents_iff_removed :
    Along Run.step Op.Allowed [.append 0 7, .append 1 8, .remove 7, .remove 8, .shift]
      (Run.start : Run Nat) ∧
    ∃ s, ([.append 0 7, .append 1 8, .remove 7, .remove 8, .shift].foldl
        Run.step (Run.start : Run Nat)).1 = some s ∧
      s.results = [none] ∧ s.list.Represents [] := by
  have hops : Along Run.step Op.Allowed [.append 0 7, .append 1 8, .remove 7, .remove 8, .shift]
      (Run.start : Run Nat) := by
    refine ⟨?_, ?_, ⟨7, by decide, rfl⟩, ⟨8, by decide, rfl⟩, trivial, trivial⟩
    · rintro s ⟨⟩
      rfl
    · rintro s ⟨⟩
      rfl
  obtain ⟨s, hret, hres, hiff⟩ := represents_iff _ hops
  exact ⟨hops, s, hret, hres, hiff.2 (by decide)⟩

/-- One element goes in and comes out, and `count()` is 1. -/
theorem shift_keeps_count :
    Along Run.step Op.Allowed [.append 0 7, .shift] (Run.start : Run Nat) ∧
    ∃ s, ([.append 0 7, .shift].foldl Run.step (Run.start : Run Nat)).1 = some s ∧
      s.results = [some 7] ∧ s.list.head = none ∧ s.list.count = 1 ∧ ¬s.list.Represents [] := by
  refine ⟨⟨?_, trivial, trivial⟩, _, rfl, rfl, rfl, rfl, fun h => ?_⟩
  · rintro s ⟨⟩
    rfl
  · have hcount := h.count
    cases hcount

end ExternalList

end Ulysses
