import Ulysses.Fs.Name

/-!
# Path resolution

`fs::lookup`: the first component of the path is looked up in the directory, or in its
delegate, and the rest in the child. The nodes and their virtual functions are arbitrary
operations on a state (`NodeOps`). On a path of components, the scan for slashes and the
remaining length amount to a walk over the components (`walk`).
-/

namespace Ulysses.Fs

/-- A component of a path. -/
structure Component extends Name where
  ne_nil : bytes ≠ []
  no_slash : 47 ∉ bytes

/-- The text of a path. -/
def join : List Component → List UInt8
  | [] => []
  | [c] => c.bytes
  | c :: cs => c.bytes ++ 47 :: join cs

theorem join_cons (c : Component) (cs : List Component) :
    ∃ tail, join (c :: cs) = c.bytes ++ tail ∧ tail.takeWhile (· ≠ 47) = [] ∧
      (cs = [] ∧ tail = [] ∨ cs ≠ [] ∧ tail = 47 :: join cs) := by
  cases cs with
  | nil => exact ⟨[], (List.append_nil _).symm, rfl, .inl ⟨rfl, rfl⟩⟩
  | cons c' cs => exact ⟨_, rfl, rfl, .inr ⟨List.cons_ne_nil c' cs, rfl⟩⟩

theorem join_injective {p q : List Component} (h : join p = join q) : p = q := by
  have hne (c : Component) (cs : List Component) : join (c :: cs) ≠ [] := by
    obtain ⟨tail, hjoin, -⟩ := join_cons c cs
    rw [hjoin]
    exact List.append_ne_nil_of_left_ne_nil c.ne_nil tail
  induction p generalizing q with
  | nil =>
    cases q with
    | nil => rfl
    | cons c q => exact absurd h.symm (hne c q)
  | cons c p ih =>
    cases q with
    | nil => exact absurd h (hne c p)
    | cons c' q =>
      obtain ⟨tail, hp, ht, hcase⟩ := join_cons c p
      obtain ⟨tail', hq, ht', hcase'⟩ := join_cons c' q
      -- the first component is what comes before the first slash
      have hfirst (c : Component) {tail : List UInt8} (ht : tail.takeWhile (· ≠ 47) = []) :
          (c.bytes ++ tail).takeWhile (· ≠ 47) = c.bytes := by
        rw [List.takeWhile_append_of_pos, ht, List.append_nil]
        intro b hb
        simpa using fun heq : b = 47 => c.no_slash (heq ▸ hb)
      rw [hp, hq] at h
      have hbytes : c.bytes = c'.bytes := by rw [← hfirst c ht, h, hfirst c' ht']
      have hc : c = c' := by
        obtain ⟨⟨b, _⟩, _, _⟩ := c
        obtain ⟨⟨b', _⟩, _, _⟩ := c'
        obtain rfl : b = b' := hbytes
        rfl
      subst hc
      obtain rfl := List.append_cancel_left h
      rcases hcase with ⟨rfl, rfl⟩ | ⟨hp0, rfl⟩
      · rcases hcase' with ⟨rfl, -⟩ | ⟨-, hcons⟩
        · rfl
        · cases hcons
      · rcases hcase' with ⟨-, hnil⟩ | ⟨-, hcons⟩
        · cases hnil
        · rw [ih (List.cons.inj hcons).2]

/-- The field `delegate` of a node and its functions `finddir` and `create_file`. A node is
its address, 0 is none. The name given to `finddir` is a string and the number of its
bytes that count. -/
structure NodeOps (σ : Type*) where
  delegate : Nat → σ → Nat
  finddir : Nat → List UInt8 → Nat → σ → Nat × σ
  createFile : Nat → List UInt8 → σ → Nat × σ
  finddir_take : ∀ dir name len s, 0 < len →
    finddir dir (name.take len) len s = finddir dir name len s

variable {σ : Type*} (ops : NodeOps σ)

/-- The delegate of a node, if it has one. -/
def NodeOps.follow (node : Nat) (s : σ) : Nat :=
  if ops.delegate node s ≠ 0 then ops.delegate node s else node

/-- The first loop of `lookup`. -/
def subLen : List UInt8 → Nat → Nat
  | c :: name, len + 1 => if c = 47 then 0 else subLen name len + 1
  | _, _ => 0

theorem subLen_le (name : List UInt8) (len : Nat) : subLen name len ≤ len := by
  induction name generalizing len with
  | nil => cases len <;> exact Nat.zero_le _
  | cons c name ih =>
    cases len with
    | zero => exact Nat.le_refl _
    | succ len =>
      unfold subLen
      split
      · exact Nat.zero_le _
      · exact Nat.succ_le_succ (ih len)

/-- The contents of `sys::String(name, size, false)`: a size of 0 asks for the whole
string. -/
def stringOf (name : List UInt8) (size : Nat) : List UInt8 :=
  if size = 0 then name else name.take size

/-- `lookup` of the first `len` bytes of a string. -/
def lookup (name : List UInt8) (len : Nat) (dir : Nat) (s : σ) : Nat × σ :=
  let sub := subLen name len
  let dir := ops.follow dir s
  let r := ops.finddir dir name sub s
  if r.1 ≠ 0 then
    if sub = len then (ops.follow r.1 r.2, r.2)
    else lookup (name.drop (sub + 1)) (len - sub - 1) r.1 r.2
  else if sub = len then ops.createFile dir (stringOf name sub) r.2
  else (0, r.2)
termination_by len
decreasing_by
  have := subLen_le name len
  omega

/-! ## The walk over the components -/

/-- How far a path resolves. -/
inductive Walk (σ : Type*)
  | found (node : Nat) (s : σ)
  | missing (s : σ)
  | lastMissing (dir : Nat) (c : Component) (s : σ)

/-- Look up component after component, each in the delegate of the node before it. -/
def walk : List Component → Nat → σ → Walk σ
  | [], node, s => .found node s
  | c :: cs, dir, s =>
    let dir := ops.follow dir s
    let r := ops.finddir dir c.bytes c.bytes.length s
    if r.1 = 0 then
      if cs.isEmpty then .lastMissing dir c r.2 else .missing r.2
    else walk cs r.1 r.2

/-- What `lookup` makes of it. -/
def Walk.result : Walk σ → Nat × σ
  | .found node s => (ops.follow node s, s)
  | .missing s => (0, s)
  | .lastMissing dir c s => ops.createFile dir c.bytes s

theorem subLen_append {name rest : List UInt8} (hname : 47 ∉ name) {len : Nat}
    (hrest : len = name.length ∨ name.length < len ∧ rest.head? = some 47) :
    subLen (name ++ rest) len = name.length := by
  induction name generalizing len with
  | nil =>
    rcases hrest with rfl | ⟨hlt, hhead⟩
    · cases rest <;> rfl
    · obtain ⟨rest, rfl⟩ := List.head?_eq_some_iff.1 hhead
      obtain ⟨len, rfl⟩ := Nat.exists_eq_add_one_of_ne_zero (Nat.ne_of_gt hlt)
      rfl
  | cons c name ih =>
    have hc : c ≠ 47 := fun h => hname (h ▸ List.mem_cons_self)
    obtain ⟨len, rfl⟩ := Nat.exists_eq_add_one_of_ne_zero (n := len) (by
      simp only [List.length_cons] at hrest
      omega)
    rw [List.cons_append, subLen, if_neg hc, ih (fun h => hname (List.mem_cons_of_mem c h))]
    · rfl
    · exact hrest.imp Nat.succ.inj fun h => ⟨Nat.lt_of_succ_lt_succ h.1, h.2⟩

theorem finddir_append (dir : Nat) (c : Component) (rest : List UInt8) (s : σ) :
    ops.finddir dir (c.bytes ++ rest) c.bytes.length s =
      ops.finddir dir c.bytes c.bytes.length s := by
  have hlen : 0 < c.bytes.length := List.length_pos_iff.2 c.ne_nil
  rw [← ops.finddir_take dir (c.bytes ++ rest) _ s hlen, List.take_left]

theorem stringOf_append (c : Component) (rest : List UInt8) :
    stringOf (c.bytes ++ rest) c.bytes.length = c.bytes := by
  have hlen : c.bytes.length ≠ 0 := fun h => c.ne_nil (List.eq_nil_of_length_eq_zero h)
  rw [stringOf, if_neg hlen, List.take_left]

/-- The bytes after the path do not matter. -/
theorem lookup_eq_walk (c : Component) (cs : List Component) (tail : List UInt8) (dir : Nat)
    (s : σ) :
    lookup ops (join (c :: cs) ++ tail) (join (c :: cs)).length dir s =
      (walk ops (c :: cs) dir s).result ops := by
  induction cs generalizing c dir s with
  | nil =>
    have hsub : subLen (c.bytes ++ tail) c.bytes.length = c.bytes.length :=
      subLen_append c.no_slash (.inl rfl)
    rw [lookup, walk]
    simp only [join, hsub, finddir_append, stringOf_append, List.isEmpty_nil, if_true]
    by_cases hchild : (ops.finddir (ops.follow dir s) c.bytes c.bytes.length s).1 = 0
    · rw [if_neg (not_not_intro hchild), if_pos hchild]
      rfl
    · rw [if_pos hchild, if_neg hchild]
      rfl
  | cons c' cs ih =>
    have htext : join (c :: c' :: cs) ++ tail = c.bytes ++ 47 :: (join (c' :: cs) ++ tail) := by
      simp only [join, List.append_assoc, List.cons_append]
    have hlen : (join (c :: c' :: cs)).length =
        c.bytes.length + 1 + (join (c' :: cs)).length := by
      simp only [join, List.length_append, List.length_cons]
      omega
    have hsub : subLen (c.bytes ++ 47 :: (join (c' :: cs) ++ tail))
        (c.bytes.length + 1 + (join (c' :: cs)).length) = c.bytes.length :=
      subLen_append c.no_slash (.inr ⟨by omega, rfl⟩)
    have hdrop : (c.bytes ++ 47 :: (join (c' :: cs) ++ tail)).drop (c.bytes.length + 1) =
        join (c' :: cs) ++ tail := by
      rw [← List.drop_drop, List.drop_left]
      rfl
    have hne : c.bytes.length ≠ c.bytes.length + 1 + (join (c' :: cs)).length := by omega
    rw [htext, hlen, lookup, walk]
    simp only [hsub, finddir_append, hdrop, if_neg hne, List.isEmpty_cons]
    by_cases hchild : (ops.finddir (ops.follow dir s) c.bytes c.bytes.length s).1 = 0
    · rw [if_neg (not_not_intro hchild), if_pos hchild]
      rfl
    · rw [if_pos hchild, if_neg hchild, ← ih]
      congr 1
      omega

/-! ## The calls of `create_file` -/

/-- The operations, with a log of the calls of `create_file`. -/
def NodeOps.logged : NodeOps (σ × List (Nat × List UInt8)) where
  delegate node s := ops.delegate node s.1
  finddir dir name len s :=
    let r := ops.finddir dir name len s.1
    (r.1, r.2, s.2)
  createFile dir str s :=
    let r := ops.createFile dir str s.1
    (r.1, r.2, s.2 ++ [(dir, str)])
  finddir_take dir name len s hlen := by rw [ops.finddir_take _ _ _ _ hlen]

/-- A walk, with a log that it leaves as it is. -/
def Walk.log (l : List (Nat × List UInt8)) : Walk σ → Walk (σ × List (Nat × List UInt8))
  | .found node s => .found node (s, l)
  | .missing s => .missing (s, l)
  | .lastMissing dir c s => .lastMissing dir c (s, l)

theorem walk_logged (p : List Component) (dir : Nat) (s : σ) (l : List (Nat × List UInt8)) :
    walk ops.logged p dir (s, l) = (walk ops p dir s).log l := by
  induction p generalizing dir s with
  | nil => rfl
  | cons c cs ih =>
    simp only [walk]
    show (if (ops.finddir (ops.follow dir s) c.bytes c.bytes.length s).1 = 0 then _ else _) = _
    split
    · cases cs <;> rfl
    · exact ih _ _

theorem eq_getLast_of_walk {c : Component} {cs : List Component} {dir d : Nat} {x : Component}
    {s s' : σ} (h : walk ops (c :: cs) dir s = .lastMissing d x s') :
    x = (c :: cs).getLast (List.cons_ne_nil c cs) := by
  induction cs generalizing c dir s with
  | nil =>
    simp only [walk, List.isEmpty_nil, if_true] at h
    split at h
    · cases h
      rfl
    · cases h
  | cons c' cs ih =>
    rw [walk] at h
    simp only [List.isEmpty_cons] at h
    split at h
    · cases h
    · exact ih h

/-- `lookup` of a path walks over its components. It calls `create_file` only if the last
component is the one that is missing, once and for that component. -/
theorem lookup_spec (c : Component) (cs : List Component) (tail : List UInt8) (dir : Nat)
    (s : σ) :
    match walk ops (c :: cs) dir s with
    | .found node s' =>
      lookup ops (join (c :: cs) ++ tail) (join (c :: cs)).length dir s =
          (ops.follow node s', s') ∧
        (lookup ops.logged (join (c :: cs) ++ tail) (join (c :: cs)).length dir (s, [])).2.2 = []
    | .missing s' =>
      lookup ops (join (c :: cs) ++ tail) (join (c :: cs)).length dir s = (0, s') ∧
        (lookup ops.logged (join (c :: cs) ++ tail) (join (c :: cs)).length dir (s, [])).2.2 = []
    | .lastMissing d x s' =>
      x = (c :: cs).getLast (List.cons_ne_nil c cs) ∧
        lookup ops (join (c :: cs) ++ tail) (join (c :: cs)).length dir s =
          ops.createFile d x.bytes s' ∧
        (lookup ops.logged (join (c :: cs) ++ tail) (join (c :: cs)).length dir (s, [])).2.2 =
          [(d, x.bytes)] := by
  simp only [lookup_eq_walk, walk_logged]
  cases h : walk ops (c :: cs) dir s with
  | found node s' => exact ⟨rfl, rfl⟩
  | missing s' => exact ⟨rfl, rfl⟩
  | lastMissing d x s' => exact ⟨eq_getLast_of_walk ops h, rfl, rfl⟩

end Ulysses.Fs
