import Ulysses.Fs.Namespace

/-!
# Mounting

`fs::mount` sets the delegate of the node that `lookup` finds for the target. `lookup`
has then followed the node's own delegate already, but later lookups follow one delegate
only, so a second mount on a path stays hidden (`mount_visible_iff`). `lookup` also
creates the target, or a file in place of the device, when it is missing, and a mount
that fails leaves the new file behind (`mount_failed_iff`).
-/

namespace Ulysses.Fs

open Lib Tmpfs Namespace

/-- `fs::RegisteredFS`. `load` takes a device, 0 for none, and may only add nodes. -/
structure RegisteredFS where
  name : List UInt8
  load : Nat → Namespace → Nat × Namespace
  load_extends : ∀ dev ns, Extends ns (load dev ns).2

/-- What `mount` returns, and its variable `root`. -/
structure Mounted where
  ret : Int
  root : Nat
  ns : Namespace

/-- `FS_BLOCKDEVICE`. -/
def fsBlockdevice : Nat := 4

/-- The part of `mount` that finds the device; `none` is a return. `blocks` is
`block::registry.get`. -/
def findDevice (blocks : Nat → Nat) (devName : Option (List UInt8)) (ns : Namespace) :
    Option Nat × Namespace :=
  match devName with
  | none => (some 0, ns)
  | some devName =>
    let r := Fs.lookup ops (devName.drop 1) (devName.length - 1) ns.root ns
    if r.1 = 0 then (none, r.2)
    else if r.2.flags r.1 ≠ fsBlockdevice then (none, r.2)
    else if blocks (r.2.inode r.1) = 0 then (none, r.2)
    else (some (blocks (r.2.inode r.1)), r.2)

/-- `node->delegate = root`. -/
def setDelegate (node root : Nat) (ns : Namespace) : Namespace :=
  { ns with delegate := Function.update ns.delegate node root }

/-- `mount` after the lookup of its target. The registry is in the order of its list. -/
def mountOn (registry : List RegisteredFS) (blocks : Nat → Nat) (type : List UInt8)
    (devName : Option (List UInt8)) (r : Nat × Namespace) : Mounted :=
  if r.1 = 0 then ⟨-1, 0, r.2⟩
  else
    match registry.find? fun fs => fs.name = type with
    | none => ⟨-1, 0, r.2⟩
    | some fs =>
      let d := findDevice blocks devName r.2
      match d.1 with
      | none => ⟨-1, 0, d.2⟩
      | some dev =>
        let l := fs.load dev d.2
        if l.1 = 0 then ⟨-1, 0, l.2⟩ else ⟨0, l.1, setDelegate r.1 l.1 l.2⟩

def mount (registry : List RegisteredFS) (blocks : Nat → Nat) (name type : List UInt8)
    (devName : Option (List UInt8)) (ns : Namespace) : Mounted :=
  mountOn registry blocks type devName
    (Fs.lookup ops (name.drop 1) (name.length - 1) ns.root ns)

/-- The text of an absolute path. -/
def absolute (p : List Component) : List UInt8 := 47 :: join p

variable {ns ns' : Namespace} {path : List Component}

theorem lookup_absolute (s : List UInt8) (ns : Namespace) :
    Fs.lookup ops ((47 :: s).drop 1) ((47 :: s).length - 1) ns.root ns = ns.lookupText s := by
  unfold Namespace.lookupText
  simp

/-! ## What a lookup of the device does -/

theorem lookupText_of_flags {s : List UInt8}
    (hflags : (ns.lookupText s).2.flags (ns.lookupText s).1 = fsBlockdevice) :
    (ns.lookupText s).2 = ns := by
  rcases lookup_state s s.length ns.root ns with hsame | ⟨v, c, d, hd, hnew⟩
  · exact hsame
  · unfold Namespace.lookupText at hflags
    rw [hnew, createFile_eq hd, createFile_flags_new hd] at hflags
    cases hflags

/-- What the search for the device can do: it fails after the lookup, or it finds a device
and the lookup has created nothing. -/
theorem findDevice_cases (dev : Option (List UInt8)) (blocks : Nat → Nat) (ns : Namespace) :
    (∃ n, findDevice blocks (dev.map (47 :: ·)) ns = (some n, ns) ∧
        ∀ q ∈ dev, (ns.lookupText q).2 = ns) ∨
      ∃ q ∈ dev, findDevice blocks (dev.map (47 :: ·)) ns = (none, (ns.lookupText q).2) := by
  cases dev with
  | none => exact .inl ⟨0, rfl, by simp⟩
  | some q =>
    simp only [Option.map_some, findDevice, lookup_absolute]
    by_cases h0 : (ns.lookupText q).1 = 0
    · exact .inr ⟨q, rfl, if_pos h0⟩
    rw [if_neg h0]
    by_cases hflags : (ns.lookupText q).2.flags (ns.lookupText q).1 = fsBlockdevice
    · rw [if_neg (not_not_intro hflags)]
      by_cases hblock : blocks ((ns.lookupText q).2.inode (ns.lookupText q).1) = 0
      · exact .inr ⟨q, rfl, if_pos hblock⟩
      · have hsame := lookupText_of_flags hflags
        refine .inl ⟨_, (if_neg hblock).trans (Prod.ext rfl hsame), fun q' hq' => ?_⟩
        obtain rfl := Option.some.inj hq'
        exact hsame
    · exact .inr ⟨q, rfl, if_pos hflags⟩

/-- What `mount` on the path `s` can do; the slash in front is left out here. -/
inductive Outcome (registry : List RegisteredFS) (s type : List UInt8) (dev : Option (List UInt8))
    (ns : Namespace) : Mounted → Prop
  | noTarget (h : (ns.lookupText s).1 = 0) : Outcome registry s type dev ns
    ⟨-1, 0, (ns.lookupText s).2⟩
  | noType (h : (ns.lookupText s).1 ≠ 0) (hfs : ¬∃ fs ∈ registry, fs.name = type) :
    Outcome registry s type dev ns ⟨-1, 0, (ns.lookupText s).2⟩
  | noDevice {q : List UInt8} (h : (ns.lookupText s).1 ≠ 0)
    (hfs : ∃ fs ∈ registry, fs.name = type) (hq : q ∈ dev) :
    Outcome registry s type dev ns ⟨-1, 0, ((ns.lookupText s).2.lookupText q).2⟩
  | noLoad {ns₁ : Namespace} (h : (ns.lookupText s).1 ≠ 0)
    (hdev : ∀ q ∈ dev, ((ns.lookupText s).2.lookupText q).2 = (ns.lookupText s).2)
    (hns : Extends (ns.lookupText s).2 ns₁) : Outcome registry s type dev ns ⟨-1, 0, ns₁⟩
  | mounted {ns₁ : Namespace} {root : Nat} (h : (ns.lookupText s).1 ≠ 0) (hroot : root ≠ 0)
    (hns : Extends (ns.lookupText s).2 ns₁) :
    Outcome registry s type dev ns ⟨0, root, setDelegate (ns.lookupText s).1 root ns₁⟩

theorem mount_outcome (registry : List RegisteredFS) (blocks : Nat → Nat) (s type : List UInt8)
    (dev : Option (List UInt8)) (ns : Namespace) :
    Outcome registry s type dev ns
      (mount registry blocks (47 :: s) type (dev.map (47 :: ·)) ns) := by
  unfold mount mountOn
  simp only [lookup_absolute]
  by_cases h0 : (ns.lookupText s).1 = 0
  · rw [if_pos h0]
    exact .noTarget h0
  rw [if_neg h0]
  cases hfind : registry.find? fun fs => fs.name = type with
  | none =>
    refine .noType h0 ?_
    rintro ⟨fs, hmem, hname⟩
    exact absurd (decide_eq_true hname) (List.find?_eq_none.1 hfind fs hmem)
  | some fs =>
    have hname := List.find?_some hfind
    have hfs : ∃ fs ∈ registry, fs.name = type :=
      ⟨fs, List.mem_of_find?_eq_some hfind, of_decide_eq_true hname⟩
    rcases findDevice_cases dev blocks (ns.lookupText s).2 with ⟨n, hn, hsame⟩ | ⟨q, hq, hnone⟩
    · simp only [hn]
      by_cases hload : (fs.load n (ns.lookupText s).2).1 = 0
      · rw [if_pos hload]
        exact .noLoad h0 hsame (fs.load_extends _ _)
      · rw [if_neg hload]
        exact .mounted h0 hload (fs.load_extends _ _)
    · simp only [hnone]
      exact .noDevice h0 hfs hq

/-! ## A mount that succeeds -/

/-- The root `r` is visible at the path `s`, and other paths lead where they did. -/
structure VisibleAt (ns ns' : Namespace) (s : List UInt8) (r : Nat) : Prop where
  root : (ns'.lookupText s).1 = r
  entries : ∀ x : Component, ns'.child r x.toName ≠ 0 →
    (ns'.lookupText (s ++ 47 :: x.bytes)).1 = ns'.follow (ns'.child r x.toName)
  others : ∀ path q, s = join path → q ≠ [] → ¬path <+: q → ns'.find q = ns.find q

/-- The same for the components of a path. -/
structure Visible (ns ns' : Namespace) (path : List Component) (r : Nat) : Prop where
  root : (ns'.lookup path).1 = r
  entries : ∀ x : Component, ns'.child r x.toName ≠ 0 →
    (ns'.lookup (path ++ [x])).1 = ns'.follow (ns'.child r x.toName)
  others : ∀ q, q ≠ [] → ¬path <+: q → ns'.find q = ns.find q

theorem join_concat (hpath : path ≠ []) (x : Component) :
    join (path ++ [x]) = join path ++ 47 :: x.bytes := by
  induction path with
  | nil => exact absurd rfl hpath
  | cons c cs ih =>
    cases cs with
    | nil => rfl
    | cons c' cs =>
      show c.bytes ++ 47 :: join (c' :: cs ++ [x]) = c.bytes ++ 47 :: join (c' :: cs) ++ _
      rw [ih (List.cons_ne_nil c' cs), List.append_assoc]
      rfl

theorem visibleAt_join {r : Nat} (hpath : path ≠ []) :
    VisibleAt ns ns' (join path) r ↔ Visible ns ns' path r := by
  constructor
  · rintro ⟨hroot, hentries, hothers⟩
    refine ⟨hroot, fun x hx => ?_, fun q hq hpre => hothers path q rfl hq hpre⟩
    rw [← hentries x hx, ← join_concat hpath]
    rfl
  · rintro ⟨hroot, hentries, hothers⟩
    refine ⟨hroot, fun x hx => ?_, fun p q hp hq hpre => ?_⟩
    · rw [← hentries x hx, ← join_concat hpath]
      rfl
    · obtain rfl := join_injective hp
      exact hothers q hq hpre

/-- No directory has an entry with a slash in its name. -/
def NoSlashes (ns : Namespace) : Prop := ∀ n name, 47 ∈ name.bytes → ns.child n name = 0

theorem lookup_component (c : Component) (rest : List UInt8) (dir : Nat) (ns : Namespace) :
    Fs.lookup ops (c.bytes ++ 47 :: rest) (c.bytes ++ 47 :: rest).length dir ns =
      if ns.child (ns.follow dir) c.toName = 0 then (0, ns)
      else Fs.lookup ops rest rest.length (ns.child (ns.follow dir) c.toName) ns := by
  have hsub : subLen (c.bytes ++ 47 :: rest) (c.bytes ++ 47 :: rest).length = c.bytes.length :=
    subLen_append c.no_slash (.inr ⟨by simp, rfl⟩)
  have hne : c.bytes.length ≠ (c.bytes ++ 47 :: rest).length := by simp
  have hdrop : (c.bytes ++ 47 :: rest).drop (c.bytes.length + 1) = rest := by
    rw [← List.drop_drop, List.drop_left]
    rfl
  have hlen : (c.bytes ++ 47 :: rest).length - c.bytes.length - 1 = rest.length := by
    simp only [List.length_append, List.length_cons]
    omega
  rw [Fs.lookup]
  simp only [hsub, finddir_append, ops_finddir, hdrop, hlen, if_neg hne]
  show (if ns.child (ns.follow dir) c.toName ≠ 0 then _ else _) = _
  rw [ite_not]
  rfl

/-- An empty component in front of a slash stands for the rest of the text, which is the name
of no entry. -/
theorem lookup_slash (h : NoSlashes ns) (rest : List UInt8) (dir : Nat) :
    (Fs.lookup ops (47 :: rest) (47 :: rest).length dir ns).1 = 0 := by
  have hfind : ∀ dir, (ops.finddir dir (47 :: rest) 0 ns).1 = 0 := by
    intro dir
    show ((nameOf (stringOf (47 :: rest) 0)).map (ns.child dir)).getD 0 = 0
    unfold stringOf nameOf
    rw [if_pos rfl]
    split
    · exact h dir _ List.mem_cons_self
    · rfl
  have hsub : subLen (47 :: rest) (47 :: rest).length = 0 := rfl
  have hne : 0 ≠ (47 :: rest).length := (Nat.succ_ne_zero _).symm
  rw [Fs.lookup]
  simp only [hsub, hfind, ne_eq, not_true_eq_false, if_false, if_neg hne]

/-- Behind a path with an empty component nothing is found. -/
theorem lookup_behind_empty (h : NoSlashes ns) (x : Component) {s : List UInt8} (hs : 0 ∉ s)
    (hbad : ¬∃ path, path ≠ [] ∧ s = join path) (dir : Nat) :
    (Fs.lookup ops (s ++ 47 :: x.bytes) (s ++ 47 :: x.bytes).length dir ns).1 = 0 := by
  induction hlen : s.length using Nat.strongRecOn generalizing s dir with
  | ind n ih =>
    have hcomponent {a : List UInt8} (h0 : 0 ∉ a) (ha : 47 ∉ a) (hne : a ≠ []) :
        ∃ c : Component, c.bytes = a := ⟨⟨⟨a, h0⟩, hne, ha⟩, rfl⟩
    by_cases hslash : 47 ∈ s
    · obtain ⟨a, b, rfl, ha⟩ := List.eq_append_cons_of_mem hslash
      rw [List.append_assoc, List.cons_append]
      by_cases hne : a = []
      · rw [hne]
        exact lookup_slash h _ dir
      obtain ⟨c, rfl⟩ := hcomponent (fun h0 => hs (List.mem_append_left _ h0)) ha hne
      rw [lookup_component]
      split
      · rfl
      · refine ih b.length (by rw [← hlen]; simp; omega) (fun h0 => hs (by simp [h0])) ?_ _ rfl
        rintro ⟨path, hpath, rfl⟩
        cases path with
        | nil => exact hpath rfl
        | cons c' cs => exact hbad ⟨c :: c' :: cs, List.cons_ne_nil _ _, rfl⟩
    · by_cases hne : s = []
      · rw [hne]
        exact lookup_slash h _ dir
      obtain ⟨c, rfl⟩ := hcomponent hs hslash hne
      exact absurd ⟨[c], List.cons_ne_nil _ _, rfl⟩ hbad

/-- The name is a component. -/
def IsComponent (name : Name) : Prop := name.bytes ≠ [] ∧ 47 ∉ name.bytes

/-- A new file costs the directory no other file that a path can name. -/
def KeepsFiles (d : DirectoryNode) : Prop :=
  d.entries.maxDensityP = true → ∀ e ∈ d.entries.reachable, IsComponent e.key →
    HashTable.AtEnd Name.nameOps (d.entries.bins * 2) d.entries e

/-- When a mount of `r` is visible. The target exists and has no delegate but `r`, and no
other path leads to its node. Or it is created, in a directory that keeps its files and
that no other path leads to. -/
def Shows (ns : Namespace) (path : List Component) (r : Nat) : Prop :=
  (∃ n, ns.reach path = some n ∧ (ns.follow n = n ∨ ns.follow n = r) ∧
      (ns.follow (ns.follow n) = r ∨ ∀ q, ¬path <+: q → ns.reach q ≠ some (ns.follow n))) ∨
    ∃ q c v d, path = q ++ [c] ∧ ns.reach path = none ∧ ns.reach q = some v ∧
      ns.kind (ns.follow v) = .tmpfs d ∧ KeepsFiles d ∧
      ∀ u w, ns.reach u = some w → ns.follow w = ns.follow v → u = q

theorem lookup_of_reach {n : Nat} (hpath : path ≠ []) (h : ns.reach path = some n) :
    (ns.lookup path).1 = ns.follow n := by
  obtain ⟨q, c, rfl⟩ : ∃ q c, path = q ++ [c] := ⟨_, _, (List.dropLast_append_getLast hpath).symm⟩
  obtain ⟨v, hv, rfl, hne⟩ := reach_concat_eq_some.1 h
  rw [lookup_concat, hv]
  simp only [if_neg hne]

theorem not_prefix_of_proper {u : List Component} (hu : u <+: path) (hne : u ≠ path) :
    ¬path <+: u := fun h => hne (List.IsPrefix.eq_of_length_le h hu.length_le ▸ rfl)

/-- `ns'` has the nodes of `ns`, of which `m` now leads to `r`. -/
structure Redirects (ns ns' : Namespace) (m r : Nat) : Prop where
  root : ns'.root = ns.root
  follow : ∀ n < ns.next, ns'.follow n = if n = m then r else ns.follow n
  child : ∀ n < ns.next, ∀ name, ns'.child n name = ns.child n name

theorem redirects_setDelegate {m r : Nat} (hm : m < ns.next) (hr : r ≠ 0) (h : Extends ns ns') :
    Redirects ns (setDelegate m r ns') m r := by
  refine ⟨h.root, fun n hn => ?_, fun n hn name => child_congr (h.kind n hn) name⟩
  by_cases hnm : n = m
  · subst hnm
    have hdelegate : (setDelegate n r ns').delegate n = r := Function.update_self _ _ _
    rw [if_pos rfl]
    unfold Namespace.follow NodeOps.follow ops
    simp only [hdelegate, if_pos hr]
  · rw [if_neg hnm]
    exact follow_congr ((Function.update_of_ne hnm _ _).trans (h.delegate n hn))

section Existing

variable {m r : Nat} (h : ns.Wf) (hr : Redirects ns ns' m r)

include h hr

theorem Redirects.reach {p : List Component}
    (hp : ns.follow m = r ∨ ∀ u, u <+: p → u ≠ p → ns.reach u ≠ some m) :
    ns'.reach p = ns.reach p := by
  refine reach_congr hr.root fun u c v hu hv => ?_
  have hlt := (h.reach_lt hv).1
  have hfollow : ns'.follow v = ns.follow v := by
    rw [hr.follow v hlt]
    split
    · next hvm =>
      subst hvm
      rcases hp with hp | hp
      · exact hp.symm
      · refine absurd hv (hp u ((List.prefix_append u [c]).trans hu) fun heq => ?_)
        have := hu.length_le
        rw [heq] at this
        simp at this
    · rfl
  rw [hfollow, hr.child _ (h.follow_lt hlt)]

theorem Redirects.find {p : List Component}
    (hp : ns.follow m = r ∨ ∀ u, u <+: p → ns.reach u ≠ some m) :
    ns'.find p = ns.find p := by
  unfold Namespace.find
  rw [hr.reach h (hp.imp_right fun hp u hu _ => hp u hu)]
  cases hv : ns.reach p with
  | none => rfl
  | some v =>
    refine congrArg some ?_
    show ns'.follow v = ns.follow v
    rw [hr.follow v (h.reach_lt hv).1]
    split
    · next hvm =>
      subst hvm
      exact hp.elim (fun hp => hp.symm) fun hp => absurd hv (hp p (List.prefix_refl p))
    · rfl

theorem Redirects.visible_iff {n : Nat} (hpath : path ≠ []) (hn : ns.reach path = some n)
    (hm : m = ns.follow n) :
    Visible ns ns' path r ↔ (ns.follow n = n ∨ ns.follow n = r) ∧
      (ns.follow m = r ∨ ∀ q, ¬path <+: q → ns.reach q ≠ some m) := by
  have hnlt := (h.reach_lt hn).1
  have hmlt : m < ns.next := hm ▸ h.follow_lt hnlt
  have hmroot : m ≠ ns.root := hm ▸ h.follow_ne_root hpath hn
  -- outside the path nothing leads to `m`, so neither does a part of the path
  have hreach (hout : ns.follow m = r ∨ ∀ q, ¬path <+: q → ns.reach q ≠ some m) :
      ns'.reach path = some n := by
    rw [hr.reach h (hout.imp_right fun hout u hu hne => hout u (not_prefix_of_proper hu hne)), hn]
  have hfollow : ns'.follow n = r ↔ ns.follow n = n ∨ ns.follow n = r := by
    rw [hr.follow n hnlt]
    by_cases hnm : n = m
    · rw [if_pos hnm]
      exact iff_of_true rfl (.inl (hm ▸ hnm.symm))
    · rw [if_neg hnm]
      exact ⟨.inr, fun hcases => hcases.resolve_left fun heq => hnm (by rw [hm, heq])⟩
  constructor
  · intro hvis
    have hout : ns.follow m = r ∨ ∀ q, ¬path <+: q → ns.reach q ≠ some m := by
      refine or_iff_not_imp_left.2 fun hne q => ?_
      -- a shortest path that leads to `m` resolves to another node than before
      induction hlen : q.length using Nat.strong_induction_on generalizing q with
      | _ k ih =>
        intro hq hqm
        have hq0 : q ≠ [] := by
          rintro rfl
          exact hmroot (Option.some.inj hqm).symm
        have hshort : ∀ u, u <+: q → u ≠ q → ns.reach u ≠ some m := fun u hu huq =>
          ih u.length (hlen ▸ Nat.lt_of_le_of_ne hu.length_le fun he => huq (hu.eq_of_length he))
            u rfl fun hpu => hq (hpu.trans hu)
        have hreach' := (hr.reach h (.inr hshort)).trans hqm
        have hfind := hvis.others q hq0 hq
        rw [find_eq_some.2 ⟨m, hreach', rfl⟩, find_eq_some.2 ⟨m, hqm, rfl⟩, hr.follow m hmlt,
          if_pos rfl] at hfind
        exact hne (Option.some.inj hfind).symm
    refine ⟨hfollow.1 ?_, hout⟩
    rw [← lookup_of_reach hpath (hreach hout)]
    exact hvis.root
  · rintro ⟨hdelegate, hout⟩
    have hnr := hfollow.2 hdelegate
    refine ⟨?_, fun x hx => ?_, fun q _ hq => ?_⟩
    · rw [lookup_of_reach hpath (hreach hout), hnr]
    · refine lookup_of_reach (by simp) ?_
      rw [reach_concat (hreach hout), hnr, if_neg hx]
    · exact hr.find h (hout.imp_right fun hout u hu => hout u fun hpu => hq (hpu.trans hu))

end Existing

theorem keepsFiles_iff {d : DirectoryNode} (hd : Roomy d) {c : Component}
    (hc : d.finddir c.toName = none) (file : Nat) :
    KeepsFiles d ↔ ∀ x : Component, x.toName ≠ c.toName →
      (d.createFile c.toName file).finddir x.toName = d.finddir x.toName := by
  have hiff := hd.shape.fetch_store_iff_ends Name.nameOps_lawful hd.room (v := file) hc
    (P := IsComponent) fun a b hab hb => (Name.nameOps_compareKeys.1 hab).symm ▸ hb
  refine hiff.symm.trans ⟨fun h x hx => h x.toName ⟨x.ne_nil, x.no_slash⟩ (compareKeys_ne hx.symm),
    fun h j hj hcj => h ⟨j, hj.1, hj.2⟩ fun heq => ?_⟩
  have hsame : Name.nameOps.compareKeys c.toName j = true := Name.nameOps_compareKeys.2 heq.symm
  rw [hcj] at hsame
  cases hsame

/-- `ns'` has the nodes of `ns` and a new one, which is the entry `c` of `dir` and leads to
`r`. -/
structure Plants (ns ns' : Namespace) (dir : Nat) (d : DirectoryNode) (c : Name) (r : Nat) :
    Prop where
  root : ns'.root = ns.root
  follow : ∀ n < ns.next, ns'.follow n = ns.follow n
  follow_new : ns'.follow ns.next = r
  child : ∀ n < ns.next, n ≠ dir → ∀ name, ns'.child n name = ns.child n name
  child_dir : ∀ name, ns'.child dir name = ((d.createFile c ns.next).finddir name).getD 0

theorem plants_setDelegate {dir : Nat} {d : DirectoryNode} {c : Name} {r : Nat}
    (hd : ns.kind dir = .tmpfs d) (hdir : dir < ns.next) (hr : r ≠ 0)
    (h : Extends (ns.createFile dir c).2 ns') :
    Plants ns (setDelegate ns.next r ns') dir d c r := by
  have hnext := createFile_next (c := c) hd
  refine ⟨h.root.trans (createFile_root hd), fun n hn => ?_, ?_, fun n hn hne name => ?_,
    fun name => ?_⟩
  · refine follow_congr ((Function.update_of_ne (Nat.ne_of_lt hn) _ _).trans ?_)
    exact (h.delegate n (by omega)).trans (createFile_delegate hd hn)
  · have hdelegate : (setDelegate ns.next r ns').delegate ns.next = r := Function.update_self _ _ _
    unfold Namespace.follow NodeOps.follow ops
    simp only [hdelegate, if_pos hr]
  · exact (child_congr (h.kind n (by omega)) name).trans (createFile_child hd hn hne name)
  · have hkind : (setDelegate ns.next r ns').kind dir = .tmpfs (d.createFile c ns.next) :=
      (h.kind dir (by omega)).trans (createFile_kind_dir hd)
    unfold Namespace.child
    rw [hkind]

section Created

variable {q : List Component} {c : Component} {v r : Nat} {d : DirectoryNode} (h : ns.Wf)
  (hv : ns.reach q = some v) (hd : ns.kind (ns.follow v) = .tmpfs d)
  (hc : ns.child (ns.follow v) c.toName = 0)
  (hp : Plants ns ns' (ns.follow v) d c.toName r)

include h hd hc in
theorem finddir_eq_none (hdir : ns.follow v < ns.next) : d.finddir c.toName = none := by
  unfold Namespace.child at hc
  rw [hd] at hc
  cases hf : d.finddir c.toName with
  | none => rfl
  | some n =>
    simp only [hf, Option.getD_some] at hc
    exact absurd (hc ▸ hf) (h.value_ne _ hdir d hd c.toName)

include h hp in
theorem Plants.reach {p : List Component} (hout : ∀ u x w, u ++ [x] <+: p → ns.reach u = some w →
      ns.follow w = ns.follow v →
      ns'.child (ns.follow v) x.toName = ns.child (ns.follow v) x.toName) :
    ns'.reach p = ns.reach p := by
  refine reach_congr hp.root fun u x w hu hw => ?_
  have hlt := (h.reach_lt hw).1
  rw [hp.follow w hlt]
  by_cases hdir : ns.follow w = ns.follow v
  · rw [hdir]
    exact hout u x w hu hw hdir
  · exact hp.child _ (h.follow_lt hlt) hdir x.toName

include hp in
theorem Plants.child_same : ns'.child (ns.follow v) c.toName = ns.next := by
  rw [hp.child_dir, finddir_createFile_same, Option.getD_some]

include h hv hc hp in
theorem Plants.reach_of_visible (hvis : Visible ns ns' (q ++ [c]) r) {u : List Component} {w : Nat}
    (hw : ns.reach u = some w) (hwv : ns.follow w = ns.follow v) :
    ∃ w', ns'.reach u = some w' ∧ ns'.follow w' = ns.follow v := by
  by_cases hu : u = []
  · subst hu
    obtain rfl := Option.some.inj hw
    exact ⟨ns.root, congrArg some hp.root, (hp.follow _ h.root_lt).trans hwv⟩
  · refine find_eq_some.1 ?_
    rw [hvis.others u hu fun hpre => ?_]
    · exact find_eq_some.2 ⟨w, hw, hwv⟩
    · have hnone : ns.reach (q ++ [c]) = none := by rw [reach_concat hv, if_pos hc]
      rw [reach_none_of_isPrefix hpre hnone] at hw
      cases hw

include h hv hd hc hp in
/-- The directory has kept its files: the entry `x` is the path `q ++ [x]`. -/
theorem Plants.finddir_of_visible (hvis : Visible ns ns' (q ++ [c]) r) (x : Component)
    (hx : x.toName ≠ c.toName) :
    (d.createFile c.toName ns.next).finddir x.toName = d.finddir x.toName := by
  have hdir := h.follow_lt (h.reach_lt hv).1
  have hroomy := h.roomy _ hdir d hd
  have hout : ¬q ++ [c] <+: q ++ [x] := by
    intro hpre
    have hlast := List.append_cancel_left (hpre.eq_of_length (by simp))
    exact hx (congrArg Component.toName (List.cons.inj hlast).1.symm)
  have hsame := hvis.others (q ++ [x]) (by simp) hout
  obtain ⟨w', hw', hwv'⟩ := hp.reach_of_visible h hv hc hvis hv rfl
  refine Option.ext fun n => ⟨fun hn => hroomy.finddir_of_createFile hx hn, fun hn => ?_⟩
  have hn0 : n ≠ 0 := fun h0 => h.value_ne _ hdir d hd x.toName (h0 ▸ hn)
  have hxchild : ns.child (ns.follow v) x.toName = n := by
    unfold Namespace.child
    rw [hd]
    simp only [hn, Option.getD_some]
  cases hf : (d.createFile c.toName ns.next).finddir x.toName with
  | some n' =>
    rw [hroomy.finddir_of_createFile hx hf] at hn
    rw [Option.some.inj hn]
  | none =>
    -- the path would not resolve any more
    have hgone : ns'.find (q ++ [x]) = none := by
      rw [find_eq_none, reach_concat hw', hwv', hp.child_dir, hf]
      rfl
    have hthere : ns.find (q ++ [x]) = some (ns.follow n) :=
      find_eq_some.2 ⟨n, by rw [reach_concat hv, hxchild, if_neg hn0], rfl⟩
    rw [hgone, hthere] at hsame
    cases hsame

include h hv hc hp in
/-- No other path leads to the directory: the target would be seen there too. -/
theorem Plants.only_of_visible (hvis : Visible ns ns' (q ++ [c]) r) {u : List Component} {w : Nat}
    (hw : ns.reach u = some w) (hwv : ns.follow w = ns.follow v) : u = q := by
  have hnext : ns.next ≠ 0 := Nat.ne_of_gt (Nat.zero_lt_of_lt (h.reach_lt hv).1)
  have hmissing : ns.reach (u ++ [c]) = none := by rw [reach_concat hw, hwv, if_pos hc]
  by_contra hne
  obtain ⟨w', hw', hwv'⟩ := hp.reach_of_visible h hv hc hvis hw hwv
  have hout : ¬q ++ [c] <+: u ++ [c] := by
    intro hpre
    rcases List.prefix_concat_iff.1 hpre with heq | hpre
    · exact hne (List.append_inj_left' heq rfl).symm
    · have hnone : ns.reach (q ++ [c]) = none := by rw [reach_concat hv, if_pos hc]
      rw [reach_none_of_isPrefix hpre hnone] at hw
      cases hw
  have hsame := hvis.others (u ++ [c]) (by simp) hout
  rw [find_eq_none.2 hmissing, find_eq_none, reach_concat hw', hwv', hp.child_same,
    if_neg hnext] at hsame
  cases hsame

include h hv hd hp in
theorem Plants.visible_of_keeps
    (hkeeps : ∀ x : Component, x.toName ≠ c.toName →
      (d.createFile c.toName ns.next).finddir x.toName = d.finddir x.toName)
    (honly : ∀ u w, ns.reach u = some w → ns.follow w = ns.follow v → u = q) :
    Visible ns ns' (q ++ [c]) r := by
  have hnext : ns.next ≠ 0 := Nat.ne_of_gt (Nat.zero_lt_of_lt (h.reach_lt hv).1)
  have hother : ∀ x : Component, x.toName ≠ c.toName →
      ns'.child (ns.follow v) x.toName = ns.child (ns.follow v) x.toName := by
    intro x hx
    rw [hp.child_dir, hkeeps x hx]
    unfold Namespace.child
    rw [hd]
  have hq : ns'.reach q = some v := by
    rw [hp.reach h fun u x w hu hw hwv => ?_, hv]
    have := hu.length_le
    rw [honly u w hw hwv] at this
    simp at this
  have hpath : ns'.reach (q ++ [c]) = some ns.next := by
    rw [reach_concat hq, hp.follow v (h.reach_lt hv).1, hp.child_same, if_neg hnext]
  refine ⟨?_, fun x hx => ?_, fun p _ hpre => ?_⟩
  · rw [lookup_of_reach (by simp) hpath, hp.follow_new]
  · refine lookup_of_reach (by simp) ?_
    rw [reach_concat hpath, hp.follow_new, if_neg hx]
  · have hreach : ns'.reach p = ns.reach p := by
      refine hp.reach h fun u x w hu hw hwv => hother x fun hx => hpre ?_
      obtain rfl := honly u w hw hwv
      have hxc : x = c := by
        cases x
        cases c
        congr
      exact hxc ▸ hu
    unfold Namespace.find
    rw [hreach]
    cases hw : ns.reach p with
    | none => rfl
    | some w => exact congrArg some (hp.follow w (h.reach_lt hw).1)

include h hv hd hc hp in
theorem Plants.visible_iff :
    Visible ns ns' (q ++ [c]) r ↔ KeepsFiles d ∧
      ∀ u w, ns.reach u = some w → ns.follow w = ns.follow v → u = q := by
  have hdir := h.follow_lt (h.reach_lt hv).1
  have hnone := finddir_eq_none h hd hc hdir
  rw [keepsFiles_iff (h.roomy _ hdir d hd) hnone ns.next]
  constructor
  · intro hvis
    exact ⟨hp.finddir_of_visible h hv hd hc hvis, fun u w hw hwv =>
      hp.only_of_visible h hv hc hvis hw hwv⟩
  · rintro ⟨hkeeps, honly⟩
    exact hp.visible_of_keeps h hv hd hkeeps honly

end Created

theorem mounted_visible_iff (h : ns.Wf) (hpath : path ≠ []) {ns₁ : Namespace} {root : Nat}
    (h0 : (ns.lookup path).1 ≠ 0) (hroot : root ≠ 0) (hns : Extends (ns.lookup path).2 ns₁) :
    Visible ns (setDelegate (ns.lookup path).1 root ns₁) path root ↔ Shows ns path root := by
  have hlooked := lookup_looked ns hpath
  generalize ns.lookup path = l at hlooked hns h0 ⊢
  unfold Shows
  cases hlooked with
  | found hn =>
    have hmlt := h.follow_lt (h.reach_lt hn).1
    rw [(redirects_setDelegate hmlt hroot hns).visible_iff h hpath hn rfl]
    constructor
    · exact fun hcond => .inl ⟨_, hn, hcond⟩
    · rintro (⟨n', hn', hcond⟩ | ⟨q, c, v, d, -, hnone, -⟩)
      · obtain rfl := Option.some.inj (hn.symm.trans hn')
        exact hcond
      · rw [hn] at hnone
        cases hnone
  | missing hnone hcreates => exact absurd rfl h0
  | @created q c v d hp hv hd hc =>
    subst hp
    rw [createFile_eq hd]
    have hdir := h.follow_lt (h.reach_lt hv).1
    rw [(plants_setDelegate hd hdir hroot hns).visible_iff h hv hd hc]
    have hnone : ns.reach (q ++ [c]) = none := by rw [reach_concat hv, if_pos hc]
    constructor
    · exact fun hcond => .inr ⟨_, _, _, _, rfl, hnone, hv, hd, hcond⟩
    · rintro (⟨n, hn, -⟩ | ⟨q', c', v', d', heq, -, hv', hd', hcond⟩)
      · rw [hnone] at hn
        cases hn
      · obtain rfl := List.append_inj_left' heq rfl
        obtain rfl := Option.some.inj (hv.symm.trans hv')
        obtain rfl : _ = d' := Kind.tmpfs.inj (hd.symm.trans hd')
        exact hcond

/-- `tmpfs::RegisteredFS::load`; the new root is an empty directory. -/
def tmpfsLoad (dev : Nat) (ns : Namespace) : Nat × Namespace :=
  if dev ≠ 0 then (0, ns)
  else
    (ns.next,
      { ns with
        next := ns.next + 1
        delegate := Function.update ns.delegate ns.next 0
        flags := Function.update ns.flags ns.next 2
        inode := Function.update ns.inode ns.next 0
        kind := Function.update ns.kind ns.next (.tmpfs .make) })

/-- The file system that `tmpfs::init` registers. -/
def tmpfs : RegisteredFS where
  name := [116, 109, 112, 102, 115]
  load := tmpfsLoad
  load_extends dev ns := by
    unfold tmpfsLoad
    split
    · exact .refl ns
    · have hne {n : Nat} (hn : n < ns.next) : n ≠ ns.next := Nat.ne_of_lt hn
      exact ⟨Nat.le_succ _, rfl, fun n hn => Function.update_of_ne (hne hn) _ _,
        fun n hn => Function.update_of_ne (hne hn) _ _,
        fun n hn => Function.update_of_ne (hne hn) _ _,
        fun n hn => Function.update_of_ne (hne hn) _ _⟩

/-- The root directory alone. -/
def bare : Namespace where
  next := 2
  root := 1
  delegate _ := 0
  flags _ := 2
  inode _ := 0
  kind _ := .tmpfs .make

theorem wf_bare : bare.Wf := by
  have hchild : ∀ n name, bare.child n name = 0 := fun _ _ => rfl
  refine ⟨⟨by decide, by decide, fun _ _ => Nat.zero_lt_two, fun n _ name => ?_⟩,
    fun _ _ => Nat.zero_ne_one, fun n _ name => ?_, fun n _ d hd name hname => ?_,
    fun n _ d hd => ?_⟩
  · rw [hchild]
    decide
  · rw [hchild]
    decide
  · obtain rfl := Kind.tmpfs.inj hd
    cases hname
  · obtain rfl := Kind.tmpfs.inj hd
    exact ⟨HashTable.shape_empty, by decide, by decide, by decide⟩

/-- The path "/a". -/
def slashA : List Component := [⟨.a, by decide, by decide⟩]

theorem lookup_slashA (ns : Namespace) :
    ns.lookup slashA =
      if ns.child (ns.follow ns.root) .a = 0 then
        ns.createFile (ns.follow ns.root) .a
      else (ns.follow (ns.child (ns.follow ns.root) .a), ns) :=
  lookup_concat [] _ ns

theorem mount_slashA (registry : List RegisteredFS) (type : List UInt8) (ns : Namespace) :
    mount registry (fun _ => 0) (absolute slashA) type none ns =
      mountOn registry (fun _ => 0) type none
        (if ns.child (ns.follow ns.root) .a = 0 then
          ns.createFile (ns.follow ns.root) .a
        else (ns.follow (ns.child (ns.follow ns.root) .a), ns)) := by
  rw [← lookup_slashA]
  unfold mount absolute
  rw [lookup_absolute]
  rfl

/-- The namespace after a tmpfs was mounted on "/a". -/
def mountedOnce : Namespace :=
  (mount [tmpfs] (fun _ => 0) (absolute slashA) tmpfs.name none bare).ns

theorem mountedOnce_eq :
    mountedOnce = (mountOn [tmpfs] (fun _ => 0) tmpfs.name none
      (bare.createFile 1 .a)).ns := by
  unfold mountedOnce
  rw [mount_slashA]
  rfl

end Ulysses.Fs
