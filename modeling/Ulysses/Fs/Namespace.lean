import Ulysses.Fs.Lookup
import Ulysses.HashTable.Fetch
import Ulysses.Tmpfs.Directory

/-!
# The namespace

The nodes of the file systems, with their delegates. A directory of a tmpfs is its hash
table. The other nodes have a `finddir` of their own and the `create_file` of `fs::Node`,
which returns null.

`reach` is the walk over a path without delegate of the last node, and `find` with it;
neither creates a file. `lookup` either finds what they find, fails, or creates a file in
a tmpfs directory (`lookup_looked`).
-/

namespace Ulysses.Fs

open Lib Tmpfs

/-- What `finddir` and `create_file` do to a node. -/
inductive Kind
  | tmpfs (d : DirectoryNode)
  | other (finddir : Name → Nat)

/-- The nodes are those below `next`; 0 is none. -/
structure Namespace where
  next : Nat
  root : Nat
  delegate : Nat → Nat
  flags : Nat → Nat
  inode : Nat → Nat
  kind : Nat → Kind

namespace Namespace

/-- `finddir` of a name. -/
def child (dir : Nat) (name : Name) (ns : Namespace) : Nat :=
  match ns.kind dir with
  | .tmpfs d => (d.finddir name).getD 0
  | .other finddir => finddir name

/-- `create_file`. The new node is a `FileNode`. -/
def createFile (dir : Nat) (name : Name) (ns : Namespace) : Nat × Namespace :=
  match ns.kind dir with
  | .tmpfs d =>
    (ns.next,
      { ns with
        next := ns.next + 1
        delegate := Function.update ns.delegate ns.next 0
        flags := Function.update ns.flags ns.next 0
        inode := Function.update ns.inode ns.next 0
        kind := Function.update (Function.update ns.kind ns.next (.other fun _ => 0)) dir
          (.tmpfs (d.createFile name ns.next)) })
  | .other _ => (0, ns)

/-- The name in a string. -/
def nameOf (bytes : List UInt8) : Option Name :=
  if h : 0 ∉ bytes then some ⟨bytes, h⟩ else none

def ops : NodeOps Namespace where
  delegate node ns := ns.delegate node
  finddir dir name len ns := (((nameOf (stringOf name len)).map (ns.child dir)).getD 0, ns)
  createFile dir str ns :=
    match nameOf str with
    | some name => ns.createFile dir name
    | none => (0, ns)
  finddir_take dir name len ns hlen := by
    have hstr : stringOf (name.take len) len = stringOf name len := by
      unfold stringOf
      rw [if_neg (Nat.ne_of_gt hlen), if_neg (Nat.ne_of_gt hlen), List.take_take, Nat.min_self]
    rw [hstr]

def follow (node : Nat) (ns : Namespace) : Nat := ops.follow node ns

/-- `lookup` of a text from the root. -/
def lookupText (s : List UInt8) (ns : Namespace) : Nat × Namespace :=
  Fs.lookup ops s s.length ns.root ns

/-- `lookup` of a path from the root. -/
def lookup (p : List Component) (ns : Namespace) : Nat × Namespace := ns.lookupText (join p)

/-! ## Walks -/

/-- The node that the path leads to from `node`. -/
def walkFrom (ns : Namespace) : List Component → Nat → Option Nat
  | [], node => some node
  | c :: cs, node =>
    if ns.child (ns.follow node) c.toName = 0 then none
    else ns.walkFrom cs (ns.child (ns.follow node) c.toName)

/-- The node that the path leads to. -/
def reach (p : List Component) (ns : Namespace) : Option Nat := ns.walkFrom p ns.root

/-- The node that the path resolves to. -/
def find (p : List Component) (ns : Namespace) : Option Nat :=
  (ns.reach p).map fun node => ns.follow node

section Walks

variable {ns ns' : Namespace} {p u : List Component} {c : Component} {v : Nat}

theorem walkFrom_append (p q : List Component) (node : Nat) :
    ns.walkFrom (p ++ q) node = (ns.walkFrom p node).bind (ns.walkFrom q) := by
  induction p generalizing node with
  | nil => rfl
  | cons c p ih =>
    simp only [List.cons_append, walkFrom]
    split
    · rfl
    · exact ih _

@[simp] theorem reach_nil : ns.reach [] = some ns.root := rfl

theorem reach_concat_of_none (h : ns.reach p = none) : ns.reach (p ++ [c]) = none := by
  unfold reach at h ⊢
  rw [walkFrom_append, h]
  rfl

theorem reach_concat (h : ns.reach p = some v) :
    ns.reach (p ++ [c]) = if ns.child (ns.follow v) c.toName = 0 then none
      else some (ns.child (ns.follow v) c.toName) := by
  unfold reach at h ⊢
  rw [walkFrom_append, h]
  rfl

theorem reach_concat_eq_some {w : Nat} :
    ns.reach (p ++ [c]) = some w ↔
      ∃ v, ns.reach p = some v ∧ ns.child (ns.follow v) c.toName = w ∧ w ≠ 0 := by
  cases h : ns.reach p with
  | none => simp [reach_concat_of_none h]
  | some v =>
    rw [reach_concat h]
    constructor
    · intro hw
      split at hw
      · cases hw
      · obtain rfl := Option.some.inj hw
        exact ⟨v, rfl, rfl, ‹_›⟩
    · rintro ⟨v', hv', rfl, hw⟩
      obtain rfl := Option.some.inj hv'
      exact if_neg hw

theorem reach_none_of_isPrefix (hu : u <+: p) (h : ns.reach u = none) : ns.reach p = none := by
  obtain ⟨q, rfl⟩ := hu
  unfold reach at h ⊢
  rw [walkFrom_append, h]
  rfl

theorem reach_congr (hroot : ns'.root = ns.root)
    (h : ∀ u c v, u ++ [c] <+: p → ns.reach u = some v →
      ns'.child (ns'.follow v) c.toName = ns.child (ns.follow v) c.toName) :
    ns'.reach p = ns.reach p := by
  induction p using List.reverseRecOn with
  | nil => rw [reach_nil, reach_nil, hroot]
  | append_singleton p c ih =>
    have hp := ih fun u c' v hu hv => h u c' v (hu.trans (List.prefix_append p [c])) hv
    cases hv : ns.reach p with
    | none => rw [reach_concat_of_none hv, reach_concat_of_none (hp.trans hv)]
    | some v => rw [reach_concat hv, reach_concat (hp.trans hv), h p c v (List.prefix_refl _) hv]

theorem find_eq_some {n : Nat} :
    ns.find p = some n ↔ ∃ v, ns.reach p = some v ∧ ns.follow v = n := by
  unfold find
  exact Option.map_eq_some_iff

theorem find_eq_none : ns.find p = none ↔ ns.reach p = none := by
  unfold find
  exact Option.map_eq_none_iff

theorem ops_finddir (dir : Nat) (c : Component) :
    ops.finddir dir c.bytes c.bytes.length ns = (ns.child dir c.toName, ns) := by
  have hlen : c.bytes.length ≠ 0 := fun h => c.ne_nil (List.eq_nil_of_length_eq_zero h)
  show (((nameOf (stringOf c.bytes c.bytes.length)).map (ns.child dir)).getD 0, ns) = _
  rw [stringOf, if_neg hlen, List.take_length, nameOf, dif_pos c.nul_free]
  rfl

theorem walk_concat (p : List Component) (c : Component) (node : Nat) :
    walk ops (p ++ [c]) node ns =
      match ns.walkFrom p node with
      | none => .missing ns
      | some v =>
        if ns.child (ns.follow v) c.toName = 0 then .lastMissing (ns.follow v) c ns
        else .found (ns.child (ns.follow v) c.toName) ns := by
  induction p generalizing node with
  | nil =>
    rw [List.nil_append, walk]
    simp only [ops_finddir]
    rfl
  | cons c' p ih =>
    have hmore : (p ++ [c]).isEmpty = false := by
      cases p <;> rfl
    rw [List.cons_append, walk, walkFrom]
    simp only [ops_finddir, hmore]
    show (if ns.child (ns.follow node) c'.toName = 0 then _ else _) = _
    by_cases hchild : ns.child (ns.follow node) c'.toName = 0
    · rw [if_pos hchild, if_pos hchild]
      rfl
    · rw [if_neg hchild, if_neg hchild]
      exact ih _

theorem lookup_concat (p : List Component) (c : Component) (ns : Namespace) :
    ns.lookup (p ++ [c]) =
      match ns.reach p with
      | none => (0, ns)
      | some v =>
        if ns.child (ns.follow v) c.toName = 0 then ns.createFile (ns.follow v) c.toName
        else (ns.follow (ns.child (ns.follow v) c.toName), ns) := by
  obtain ⟨x, xs, hx⟩ : ∃ x xs, p ++ [c] = x :: xs := by
    cases p with
    | nil => exact ⟨c, [], rfl⟩
    | cons x xs => exact ⟨x, xs ++ [c], rfl⟩
  have hlookup := lookup_eq_walk ops x xs [] ns.root ns
  rw [List.append_nil, ← hx, walk_concat] at hlookup
  unfold lookup lookupText reach
  rw [hlookup]
  cases ns.walkFrom p ns.root with
  | none => rfl
  | some v =>
    simp only
    split
    · show ops.createFile _ _ _ = _
      unfold ops
      simp only [nameOf]
      rw [dif_pos c.nul_free]
    · rfl

theorem ops_createFile (dir : Nat) (str : List UInt8) (ns : Namespace) :
    (ops.createFile dir str ns).2 = ns ∨ ∃ c d, ns.kind dir = .tmpfs d ∧
      ops.createFile dir str ns = ns.createFile dir c := by
  unfold ops
  simp only
  cases nameOf str with
  | none => exact .inl rfl
  | some c =>
    cases hd : ns.kind dir with
    | tmpfs d => exact .inr ⟨c, d, rfl, rfl⟩
    | other finddir =>
      refine .inl ?_
      simp only [createFile, hd]

/-- Any lookup leaves the namespace as it is or creates a file in a tmpfs directory. -/
theorem lookup_state (name : List UInt8) (len dir : Nat) (ns : Namespace) :
    (Fs.lookup ops name len dir ns).2 = ns ∨ ∃ v c d, ns.kind v = .tmpfs d ∧
      Fs.lookup ops name len dir ns = ns.createFile v c := by
  induction len using Nat.strongRecOn generalizing name dir with
  | ind len ih =>
    have hle := subLen_le name len
    have hns : (ops.finddir (ops.follow dir ns) name (subLen name len) ns).2 = ns := rfl
    rw [Fs.lookup]
    simp only [hns]
    split
    · split
      · exact .inl rfl
      · exact ih _ (by omega) _ _
    · split
      · refine (ops_createFile _ _ ns).imp_right ?_
        rintro ⟨c, d, hd, heq⟩
        exact ⟨_, c, d, hd, heq⟩
      · exact .inl rfl

end Walks

/-- `lookup` of the path creates a file. -/
def Creates (ns : Namespace) (p : List Component) : Prop :=
  ∃ q c v d, p = q ++ [c] ∧ ns.reach q = some v ∧ ns.kind (ns.follow v) = .tmpfs d ∧
    ns.child (ns.follow v) c.toName = 0

/-- What `lookup` of a path can do. -/
inductive Looked (ns : Namespace) (p : List Component) : Nat × Namespace → Prop
  | found {n : Nat} (h : ns.reach p = some n) : Looked ns p (ns.follow n, ns)
  | missing (h : ns.reach p = none) (hc : ¬ns.Creates p) : Looked ns p (0, ns)
  | created {q : List Component} {c : Component} {v : Nat} {d : DirectoryNode}
    (hp : p = q ++ [c]) (hv : ns.reach q = some v) (hd : ns.kind (ns.follow v) = .tmpfs d)
    (hc : ns.child (ns.follow v) c.toName = 0) :
    Looked ns p (ns.createFile (ns.follow v) c.toName)

theorem lookup_looked (ns : Namespace) {p : List Component} (hp : p ≠ []) :
    Looked ns p (ns.lookup p) := by
  obtain ⟨q, c, rfl⟩ : ∃ q c, p = q ++ [c] := ⟨_, _, (List.dropLast_append_getLast hp).symm⟩
  have hcreates {v : Nat} (hv : ns.reach q = some v) (h : ns.Creates (q ++ [c])) :
      ∃ d, ns.kind (ns.follow v) = .tmpfs d := by
    obtain ⟨q', c', v', d, heq, hv', hd, -⟩ := h
    obtain rfl := List.append_inj_left' heq rfl
    obtain rfl := Option.some.inj (hv.symm.trans hv')
    exact ⟨d, hd⟩
  rw [lookup_concat]
  cases hv : ns.reach q with
  | none =>
    refine .missing (reach_concat_of_none hv) ?_
    rintro ⟨q', c', v', d, heq, hv', -⟩
    obtain rfl := List.append_inj_left' heq rfl
    rw [hv] at hv'
    cases hv'
  | some v =>
    simp only
    by_cases hchild : ns.child (ns.follow v) c.toName = 0
    · rw [if_pos hchild]
      cases hd : ns.kind (ns.follow v) with
      | tmpfs d => exact .created rfl hv hd hchild
      | other finddir =>
        have hcreate : ns.createFile (ns.follow v) c.toName = (0, ns) := by
          unfold createFile
          rw [hd]
        rw [hcreate]
        refine .missing (by rw [reach_concat hv, if_pos hchild]) fun h => ?_
        obtain ⟨d, hd'⟩ := hcreates hv h
        rw [hd] at hd'
        cases hd'
    · rw [if_neg hchild]
      exact .found (by rw [reach_concat hv, if_neg hchild])

/-! ## Well-formed namespaces -/

/-- What calls of `create_file` keep of a tmpfs directory, and that it has room for more
files. -/
structure Roomy (d : DirectoryNode) : Prop where
  shape : HashTable.Shape Name.nameOps d.entries
  bins : 16 ≤ d.entries.bins
  load : d.entries.entries ≤ d.entries.bins * 3 / 4
  room : d.entries.entries < 268435456

/-- Nodes lead to nodes. -/
structure Closed (ns : Namespace) : Prop where
  root_ne : ns.root ≠ 0
  root_lt : ns.root < ns.next
  delegate_lt : ∀ n < ns.next, ns.delegate n < ns.next
  child_lt : ∀ n < ns.next, ∀ name, ns.child n name < ns.next

/-- The table of a tmpfs directory holds nodes, and nothing leads to the root. -/
structure Wf (ns : Namespace) : Prop extends Closed ns where
  delegate_ne : ∀ n < ns.next, ns.delegate n ≠ ns.root
  child_ne : ∀ n < ns.next, ∀ name, ns.child n name ≠ ns.root
  value_ne : ∀ n < ns.next, ∀ d, ns.kind n = .tmpfs d → ∀ name, d.finddir name ≠ some 0
  roomy : ∀ n < ns.next, ∀ d, ns.kind n = .tmpfs d → Roomy d

theorem follow_ne_zero {ns : Namespace} {v : Nat} (hv : v ≠ 0) : ns.follow v ≠ 0 := by
  unfold follow NodeOps.follow
  split
  · exact ‹_›
  · exact hv

section Wf

variable {ns : Namespace} {p : List Component} {v : Nat}

theorem Closed.follow_lt (h : ns.Closed) (hv : v < ns.next) : ns.follow v < ns.next := by
  unfold follow NodeOps.follow
  split
  · exact h.delegate_lt v hv
  · exact hv

theorem Closed.reach_lt (h : ns.Closed) (hv : ns.reach p = some v) : v < ns.next ∧ v ≠ 0 := by
  induction p using List.reverseRecOn generalizing v with
  | nil =>
    obtain rfl := Option.some.inj hv
    exact ⟨h.root_lt, h.root_ne⟩
  | append_singleton p c ih =>
    obtain ⟨w, hw, rfl, hne⟩ := reach_concat_eq_some.1 hv
    exact ⟨h.child_lt _ (h.follow_lt (ih hw).1) _, hne⟩

theorem Wf.reach_ne_root (h : ns.Wf) (hp : p ≠ []) (hv : ns.reach p = some v) : v ≠ ns.root := by
  obtain ⟨q, c, rfl⟩ : ∃ q c, p = q ++ [c] := ⟨_, _, (List.dropLast_append_getLast hp).symm⟩
  obtain ⟨w, hw, rfl, -⟩ := reach_concat_eq_some.1 hv
  exact h.child_ne _ (h.follow_lt (h.reach_lt hw).1) _

theorem Wf.follow_ne_root (h : ns.Wf) (hp : p ≠ []) (hv : ns.reach p = some v) :
    ns.follow v ≠ ns.root := by
  unfold follow NodeOps.follow
  split
  · exact h.delegate_ne v (h.reach_lt hv).1
  · exact h.reach_ne_root hp hv

end Wf

/-! ## Larger namespaces -/

/-- The nodes of `ns` are nodes of `ns'`, as they are. -/
structure Extends (ns ns' : Namespace) : Prop where
  next_le : ns.next ≤ ns'.next
  root : ns'.root = ns.root
  delegate : ∀ n < ns.next, ns'.delegate n = ns.delegate n
  flags : ∀ n < ns.next, ns'.flags n = ns.flags n
  inode : ∀ n < ns.next, ns'.inode n = ns.inode n
  kind : ∀ n < ns.next, ns'.kind n = ns.kind n

theorem Extends.refl (ns : Namespace) : Extends ns ns :=
  ⟨Nat.le_refl _, rfl, fun _ _ => rfl, fun _ _ => rfl, fun _ _ => rfl, fun _ _ => rfl⟩

theorem child_congr {ns ns' : Namespace} {n : Nat} (h : ns'.kind n = ns.kind n) (name : Name) :
    ns'.child n name = ns.child n name := by
  unfold child
  rw [h]

theorem follow_congr {ns ns' : Namespace} {n : Nat} (h : ns'.delegate n = ns.delegate n) :
    ns'.follow n = ns.follow n := by
  unfold follow NodeOps.follow ops
  simp only [h]

theorem Extends.reach {ns ns' : Namespace} (he : Extends ns ns') (h : ns.Closed)
    (p : List Component) : ns'.reach p = ns.reach p := by
  refine reach_congr he.root fun u c v _ hv => ?_
  have hlt := (h.reach_lt hv).1
  rw [follow_congr (he.delegate v hlt), child_congr (he.kind _ (h.follow_lt hlt))]

theorem Extends.find {ns ns' : Namespace} (he : Extends ns ns') (h : ns.Closed)
    (p : List Component) : ns'.find p = ns.find p := by
  unfold Namespace.find
  rw [he.reach h]
  cases hv : ns.reach p with
  | none => rfl
  | some v => exact congrArg some (follow_congr (he.delegate v (h.reach_lt hv).1))

/-! ## A new file -/

section Created

variable {ns : Namespace} {dir : Nat} {d : DirectoryNode} {c : Name}

theorem createFile_eq (hd : ns.kind dir = .tmpfs d) :
    (ns.createFile dir c).1 = ns.next := by
  unfold createFile
  rw [hd]

theorem createFile_next (hd : ns.kind dir = .tmpfs d) :
    (ns.createFile dir c).2.next = ns.next + 1 := by
  unfold createFile
  rw [hd]

theorem createFile_root (hd : ns.kind dir = .tmpfs d) :
    (ns.createFile dir c).2.root = ns.root := by
  unfold createFile
  rw [hd]

theorem createFile_delegate (hd : ns.kind dir = .tmpfs d) {n : Nat} (hn : n < ns.next) :
    (ns.createFile dir c).2.delegate n = ns.delegate n := by
  unfold createFile
  rw [hd]
  exact Function.update_of_ne (Nat.ne_of_lt hn) _ _

theorem createFile_follow (hd : ns.kind dir = .tmpfs d) {n : Nat} (hn : n < ns.next) :
    (ns.createFile dir c).2.follow n = ns.follow n := follow_congr (createFile_delegate hd hn)

theorem createFile_delegate_new (hd : ns.kind dir = .tmpfs d) :
    (ns.createFile dir c).2.delegate ns.next = 0 := by
  unfold createFile
  rw [hd]
  exact Function.update_self _ _ _

theorem createFile_follow_new (hd : ns.kind dir = .tmpfs d) :
    (ns.createFile dir c).2.follow ns.next = ns.next :=
  if_neg (not_not_intro (createFile_delegate_new hd))

theorem createFile_flags_new (hd : ns.kind dir = .tmpfs d) :
    (ns.createFile dir c).2.flags ns.next = 0 := by
  unfold createFile
  rw [hd]
  exact Function.update_self _ _ _

theorem createFile_kind_dir (hd : ns.kind dir = .tmpfs d) :
    (ns.createFile dir c).2.kind dir = .tmpfs (d.createFile c ns.next) := by
  unfold createFile
  rw [hd]
  exact Function.update_self _ _ _

theorem createFile_kind (hd : ns.kind dir = .tmpfs d) {n : Nat} (hn : n < ns.next)
    (hne : n ≠ dir) : (ns.createFile dir c).2.kind n = ns.kind n := by
  unfold createFile
  rw [hd]
  exact (Function.update_of_ne hne _ _).trans (Function.update_of_ne (Nat.ne_of_lt hn) _ _)

theorem createFile_kind_new (hd : ns.kind dir = .tmpfs d) (hdir : dir < ns.next) :
    (ns.createFile dir c).2.kind ns.next = .other fun _ => 0 := by
  unfold createFile
  rw [hd]
  exact (Function.update_of_ne (Nat.ne_of_gt hdir) _ _).trans (Function.update_self _ _ _)

theorem createFile_child_new (hd : ns.kind dir = .tmpfs d) (hdir : dir < ns.next) (name : Name) :
    (ns.createFile dir c).2.child ns.next name = 0 := by
  unfold child
  rw [createFile_kind_new hd hdir]

theorem createFile_child (hd : ns.kind dir = .tmpfs d) {n : Nat} (hn : n < ns.next)
    (hne : n ≠ dir) (name : Name) :
    (ns.createFile dir c).2.child n name = ns.child n name :=
  child_congr (createFile_kind hd hn hne) name

theorem finddir_createFile_same (d : DirectoryNode) (c : Name) (file : Nat) :
    (d.createFile c file).finddir c = some file :=
  HashTable.fetch_store_same (Name.nameOps_lawful.refl c) file d.entries

theorem compareKeys_ne {a b : Name} (h : a ≠ b) : Name.nameOps.compareKeys a b = false :=
  Bool.eq_false_iff.2 fun heq => h (Name.nameOps_compareKeys.1 heq)

theorem Roomy.finddir_of_createFile {d : DirectoryNode} (h : Roomy d) {c name : Name}
    {file n : Nat} (hne : name ≠ c) (hf : (d.createFile c file).finddir name = some n) :
    d.finddir name = some n :=
  h.shape.fetch_of_fetch_store Name.nameOps_lawful h.room (compareKeys_ne hne.symm) hf

theorem createFile_child_same (hd : ns.kind dir = .tmpfs d) :
    (ns.createFile dir c).2.child dir c = ns.next := by
  unfold child
  rw [createFile_kind_dir hd]
  simp only [finddir_createFile_same, Option.getD_some]

/-- The directory of a new file has lost entries at most. -/
theorem createFile_child_other (hd : ns.kind dir = .tmpfs d) (hroomy : Roomy d) {name : Name}
    (hne : name ≠ c) :
    (ns.createFile dir c).2.child dir name = ns.child dir name ∨
      (ns.createFile dir c).2.child dir name = 0 := by
  unfold child
  rw [createFile_kind_dir hd, hd]
  simp only
  cases hf : (d.createFile c ns.next).finddir name with
  | none => exact .inr rfl
  | some n =>
    rw [hroomy.finddir_of_createFile hne hf]
    exact .inl rfl

theorem Closed.createFile (h : ns.Closed) (hdir : dir < ns.next) (hd : ns.kind dir = .tmpfs d)
    (hroomy : Roomy d) : (ns.createFile dir c).2.Closed := by
  have hnext := createFile_next (c := c) hd
  refine ⟨?_, ?_, fun n hn => ?_, fun n hn name => ?_⟩
  · rw [createFile_root hd]
    exact h.root_ne
  · rw [createFile_root hd, hnext]
    exact Nat.lt_succ_of_lt h.root_lt
  · rw [hnext] at hn ⊢
    rcases Nat.lt_or_eq_of_le (Nat.le_of_lt_succ hn) with hlt | rfl
    · rw [createFile_delegate hd hlt]
      exact Nat.lt_succ_of_lt (h.delegate_lt n hlt)
    · rw [createFile_delegate_new hd]
      exact Nat.succ_pos _
  · rw [hnext] at hn ⊢
    rcases Nat.lt_or_eq_of_le (Nat.le_of_lt_succ hn) with hlt | rfl
    · by_cases hne : n = dir
      · subst hne
        by_cases hname : name = c
        · rw [hname, createFile_child_same hd]
          exact Nat.lt_succ_self _
        · rcases createFile_child_other hd hroomy hname with heq | heq
          · rw [heq]
            exact Nat.lt_succ_of_lt (h.child_lt n hlt name)
          · rw [heq]
            exact Nat.succ_pos _
      · rw [createFile_child hd hlt hne]
        exact Nat.lt_succ_of_lt (h.child_lt n hlt name)
    · rw [createFile_child_new hd hdir]
      exact Nat.succ_pos _

theorem createFile_child_of_not_dense (hd : ns.kind dir = .tmpfs d)
    (hdense : d.entries.maxDensityP = false) {name : Name} (hne : name ≠ c) :
    (ns.createFile dir c).2.child dir name = ns.child dir name := by
  unfold child
  rw [createFile_kind_dir hd, hd]
  exact congrArg (Option.getD · 0) (HashTable.fetch_store_of_not_dense Name.nameOps_lawful hdense _
    (compareKeys_ne hne.symm))

/-- After a rehash the next file does not cause another. -/
theorem Roomy.not_dense {d : DirectoryNode} (h : Roomy d) (hdense : d.entries.maxDensityP = true)
    (c : Name) (file : Nat) : (d.createFile c file).entries.maxDensityP = false := by
  obtain ⟨hmul, hbins⟩ := HashTable.bins_of_dense h.shape hdense h.room
  have hload := h.load
  have hsixteen := h.bins
  have hroom := h.room
  have hentries := HashTable.entries_storeAt Name.nameOps
    (HashTable.redistribute Name.nameOps (d.entries.bins * 2) d.entries) c file (by
      show d.entries.entries + 1 < _
      omega)
  have hadded := Bool.toNat_le (HashTable.storeChain Name.nameOps c file
    ((HashTable.redistribute Name.nameOps (d.entries.bins * 2) d.entries).values
      (HashTable.binOf Name.nameOps (d.entries.bins * 2) c))).2
  have htable : (d.createFile c file).entries = HashTable.storeAt Name.nameOps c file
      (HashTable.redistribute Name.nameOps (d.entries.bins * 2) d.entries) := by
    unfold DirectoryNode.createFile
    rw [HashTable.store_of_dense hdense, hmul]
  unfold HashTable.maxDensityP
  rw [htable, hentries]
  show decide (d.entries.entries + _ ≥ mul32 (d.entries.bins * 2) 3 / 4) = false
  rw [mul32_eq (by omega), decide_eq_false_iff_not]
  refine Nat.not_le.2 (Nat.lt_of_le_of_lt (Nat.add_le_add_left hadded _) ?_)
  omega

end Created

end Namespace

end Ulysses.Fs
