import Ulysses.Fs.Mount

/-!
# Mounts that fail

A mount that fails has looked up its target, and perhaps its device. If neither lookup
creates a file, nothing has changed (`mount_failed_iff`). If one does, a path resolves
that did not before: a shortest path to the directory of the file does not go through
the directory's table, so it still leads there, and the file is an entry of it.
-/

namespace Ulysses.Fs

open Lib Tmpfs Namespace

/-- The same paths resolve, and the nodes have the delegates they had. -/
structure Unchanged (ns ns' : Namespace) : Prop where
  resolves : ∀ q, q ≠ [] → ((ns'.find q).isSome ↔ (ns.find q).isSome)
  delegate : ∀ n < ns.next, ns'.delegate n = ns.delegate n

variable {ns ns' : Namespace}

theorem unchanged_of_extends (h : ns.Wf) (he : Extends ns ns') : Unchanged ns ns' :=
  ⟨fun q _ => by rw [he.find h.toClosed], he.delegate⟩

/-- A path that comes to a directory in `S` has a part that comes to one first. -/
theorem exists_first (S : Nat → Prop) {u : List Component} {v : Nat} (hv : ns.reach u = some v)
    (hS : S (ns.follow v)) :
    ∃ u v, ns.reach u = some v ∧ S (ns.follow v) ∧
      ∀ u' v', u' <+: u → u' ≠ u → ns.reach u' = some v' → ¬S (ns.follow v') := by
  induction hlen : u.length using Nat.strong_induction_on generalizing u v with
  | _ k ih =>
    by_cases hfirst : ∀ u' v', u' <+: u → u' ≠ u → ns.reach u' = some v' → ¬S (ns.follow v')
    · exact ⟨u, v, hv, hS, hfirst⟩
    · push Not at hfirst
      obtain ⟨u', v', hu', hne, hv', hS'⟩ := hfirst
      have hlt : u'.length < k :=
        hlen ▸ Nat.lt_of_le_of_ne hu'.length_le fun he => hne (hu'.eq_of_length he)
      exact ih _ hlt hv' hS' rfl

/-- A path that comes to the changed directories only at its end leads where it did. -/
theorem reach_of_first (h : ns.Wf) (hroot : ns'.root = ns.root)
    (hfollow : ∀ n < ns.next, ns'.follow n = ns.follow n) {S : Nat → Prop}
    (hchild : ∀ n < ns.next, ¬S n → ∀ name, ns'.child n name = ns.child n name)
    {u : List Component} (hfirst : ∀ u' v', u' <+: u → u' ≠ u → ns.reach u' = some v' →
      ¬S (ns.follow v')) : ns'.reach u = ns.reach u := by
  refine reach_congr hroot fun u' c v' hu' hv' => ?_
  have hlt := (h.reach_lt hv').1
  have hne : u' ≠ u := by
    rintro rfl
    have := hu'.length_le
    simp at this
  rw [hfollow v' hlt]
  exact hchild _ (h.follow_lt hlt) (hfirst u' v' ((List.prefix_append u' [c]).trans hu') hne hv') _

/-- A component that a directory has gained resolves at the end of a path to it. -/
theorem not_unchanged {u : List Component} {v : Nat} {c : Component} (hv : ns.reach u = some v)
    (hu : ns'.reach u = some v) (hc : ns.child (ns.follow v) c.toName = 0)
    (hc' : ns'.child (ns'.follow v) c.toName ≠ 0) : ¬Unchanged ns ns' := by
  intro hsame
  have hbefore : ns.find (u ++ [c]) = none :=
    find_eq_none.2 (by rw [reach_concat hv, if_pos hc])
  have hafter : ns'.find (u ++ [c]) = some _ :=
    find_eq_some.2 ⟨_, by rw [reach_concat hu, if_neg hc'], rfl⟩
  have hiff := hsame.resolves (u ++ [c]) (by simp)
  rw [hbefore, hafter] at hiff
  exact absurd (hiff.1 rfl) (by simp)

section Created

variable {q : List Component} {c : Component} {v : Nat} {d : DirectoryNode} (h : ns.Wf)
  (hv : ns.reach q = some v) (hd : ns.kind (ns.follow v) = .tmpfs d)
  (hc : ns.child (ns.follow v) c.toName = 0)

include h hv hd hc in
theorem not_unchanged_created
    (he : Extends (ns.createFile (ns.follow v) c.toName).2 ns') : ¬Unchanged ns ns' := by
  have hdir := h.follow_lt (h.reach_lt hv).1
  have hclosed : (ns.createFile (ns.follow v) c.toName).2.Closed :=
    h.toClosed.createFile hdir hd (h.roomy _ hdir d hd)
  obtain ⟨u, w, hw, hwv, hfirst⟩ := exists_first (fun n => n = ns.follow v) hv rfl
  have hreach : (ns.createFile (ns.follow v) c.toName).2.reach u = some w := by
    rw [reach_of_first h (createFile_root hd) (fun n hn => createFile_follow hd hn)
      (fun n hn hne => createFile_child hd hn hne) hfirst, hw]
  have hnext : ns.next ≠ 0 := Nat.ne_of_gt (Nat.zero_lt_of_lt hdir)
  have hlt : w < (ns.createFile (ns.follow v) c.toName).2.next := (hclosed.reach_lt hreach).1
  refine not_unchanged hw ((he.reach hclosed u).trans hreach) (hwv ▸ hc) ?_
  rw [follow_congr (he.delegate w hlt), createFile_follow hd (h.reach_lt hw).1, hwv,
    child_congr (he.kind _ (by rw [createFile_next hd]; omega)), createFile_child_same hd]
  exact hnext

include h hd hv in
/-- A path in the namespace with the new file is one without it, unless it leads to the
file. -/
theorem reach_of_created {u : List Component} {w : Nat}
    (hw : (ns.createFile (ns.follow v) c.toName).2.reach u = some w) :
    w = ns.next ∨ ns.reach u = some w := by
  have hdir := h.follow_lt (h.reach_lt hv).1
  induction u using List.reverseRecOn generalizing w with
  | nil =>
    rw [reach_nil, createFile_root hd] at hw
    exact .inr hw
  | append_singleton u x ih =>
    obtain ⟨w₁, hw₁, hchild, hne⟩ := reach_concat_eq_some.1 hw
    rcases ih hw₁ with rfl | hold
    · rw [createFile_follow_new hd, createFile_child_new hd hdir] at hchild
      exact absurd hchild.symm hne
    · have hlt := (h.reach_lt hold).1
      rw [createFile_follow hd hlt] at hchild
      by_cases hdw : ns.follow w₁ = ns.follow v
      · rw [hdw] at hchild
        by_cases hx : x.toName = c.toName
        · rw [hx, createFile_child_same hd] at hchild
          exact .inl hchild.symm
        · rcases createFile_child_other hd (h.roomy _ hdir d hd) hx with heq | heq
          · refine .inr (reach_concat_eq_some.2 ⟨w₁, hold, ?_, hne⟩)
            rw [hdw, ← heq, hchild]
          · rw [hchild] at heq
            exact absurd heq hne
      · rw [createFile_child hd (h.follow_lt hlt) hdw] at hchild
        exact .inr (reach_concat_eq_some.2 ⟨w₁, hold, hchild, hne⟩)

section Twice

variable {q₂ : List Component} {c₂ : Component} {v₂ : Nat} {d₂ : DirectoryNode}
  (hv₂ : ns.reach q₂ = some v₂)
  (hd₂ : (ns.createFile (ns.follow v) c.toName).2.kind (ns.follow v₂) = .tmpfs d₂)
  (hc₂ : (ns.createFile (ns.follow v) c.toName).2.child (ns.follow v₂) c₂.toName = 0)

include h hv hd hd₂ in
/-- A path to one of the two directories leads there after both files are created. -/
theorem exists_reach_created_twice (c₂ : Component) :
    ∃ u w, ns.reach u = some w ∧ (ns.follow w = ns.follow v ∨ ns.follow w = ns.follow v₂) ∧
      ((ns.createFile (ns.follow v) c.toName).2.createFile (ns.follow v₂) c₂.toName).2.reach u =
        some w ∧
      ((ns.createFile (ns.follow v) c.toName).2.createFile (ns.follow v₂) c₂.toName).2.follow w =
        ns.follow w := by
  have hnext₁ := createFile_next (c := c.toName) hd
  have hlt₁ {n : Nat} (hn : n < ns.next) :
      n < (ns.createFile (ns.follow v) c.toName).2.next := by omega
  have hfollow : ∀ n < ns.next, ((ns.createFile (ns.follow v) c.toName).2.createFile (ns.follow v₂)
      c₂.toName).2.follow n = ns.follow n := fun n hn => by
    rw [createFile_follow hd₂ (hlt₁ hn), createFile_follow hd hn]
  have hroot : ((ns.createFile (ns.follow v) c.toName).2.createFile (ns.follow v₂)
      c₂.toName).2.root = ns.root := by rw [createFile_root hd₂, createFile_root hd]
  have hchild : ∀ n < ns.next, ¬(n = ns.follow v ∨ n = ns.follow v₂) → ∀ name,
      ((ns.createFile (ns.follow v) c.toName).2.createFile (ns.follow v₂) c₂.toName).2.child n
        name = ns.child n name := fun n hn hne name => by
    rw [createFile_child hd₂ (hlt₁ hn) fun he => hne (.inr he),
      createFile_child hd hn fun he => hne (.inl he)]
  obtain ⟨u, w, hw, hwS, hfirst⟩ :=
    exists_first (fun n => n = ns.follow v ∨ n = ns.follow v₂) hv (.inl rfl)
  exact ⟨u, w, hw, hwS, (reach_of_first h hroot hfollow hchild hfirst).trans hw,
    hfollow w (h.reach_lt hw).1⟩

include h hv hd hc hv₂ hd₂ hc₂ in
theorem not_unchanged_created_apart (hne : ns.follow v₂ ≠ ns.follow v) :
    ¬Unchanged ns
      ((ns.createFile (ns.follow v) c.toName).2.createFile (ns.follow v₂) c₂.toName).2 := by
  have hdir := h.follow_lt (h.reach_lt hv).1
  have hnext₁ := createFile_next (c := c.toName) hd
  obtain ⟨u, w, hw, hwv | hwv, hreach, hfollow⟩ :=
    exists_reach_created_twice h hv hd hd₂ c₂
  · refine not_unchanged hw hreach (hwv ▸ hc) ?_
    rw [hfollow, hwv, createFile_child hd₂ (by omega) hne.symm, createFile_child_same hd]
    exact Nat.ne_of_gt (Nat.zero_lt_of_lt hdir)
  · rw [createFile_child hd (h.follow_lt (h.reach_lt hv₂).1) hne] at hc₂
    refine not_unchanged hw hreach (hwv ▸ hc₂) ?_
    rw [hfollow, hwv, createFile_child_same hd₂, hnext₁]
    exact Nat.succ_ne_zero _

include h hv hd hc hd₂ hc₂ in
/-- Two files in one directory. Only one of the two can make the table grow, so one file is
kept whatever is dropped. -/
theorem not_unchanged_created_same (heq : ns.follow v₂ = ns.follow v) :
    ¬Unchanged ns
      ((ns.createFile (ns.follow v) c.toName).2.createFile (ns.follow v₂) c₂.toName).2 := by
  have hdir := h.follow_lt (h.reach_lt hv).1
  have hnext : ns.next ≠ 0 := Nat.ne_of_gt (Nat.zero_lt_of_lt hdir)
  have hnext₁ := createFile_next (c := c.toName) hd
  obtain ⟨u, w, hw, hwS, hreach, hfollow⟩ := exists_reach_created_twice h hv hd hd₂ c₂
  rw [heq, or_self] at hwS
  rw [heq] at hd₂ hc₂ hreach hfollow ⊢
  rw [createFile_kind_dir hd] at hd₂
  obtain rfl := Kind.tmpfs.inj hd₂
  have hne : c₂.toName ≠ c.toName := by
    intro hsame
    rw [hsame, createFile_child_same hd] at hc₂
    exact hnext hc₂
  cases hdense : d.entries.maxDensityP with
  | false =>
    rw [createFile_child_of_not_dense hd hdense hne] at hc₂
    refine not_unchanged hw hreach (hwS ▸ hc₂) ?_
    rw [hfollow, hwS, createFile_child_same (createFile_kind_dir hd), hnext₁]
    exact Nat.succ_ne_zero _
  | true =>
    have hdense₂ := (h.roomy _ hdir d hd).not_dense hdense c.toName ns.next
    refine not_unchanged hw hreach (hwS ▸ hc) ?_
    rw [hfollow, hwS, createFile_child_of_not_dense (createFile_kind_dir hd) hdense₂ hne.symm,
      createFile_child_same hd]
    exact hnext

end Twice

include h hv hd hc in
theorem not_unchanged_created_twice {q₂ : List Component} {c₂ : Component} {v₂ : Nat}
    {d₂ : DirectoryNode} (hv₂ : (ns.createFile (ns.follow v) c.toName).2.reach q₂ = some v₂)
    (hd₂ : (ns.createFile (ns.follow v) c.toName).2.kind
      ((ns.createFile (ns.follow v) c.toName).2.follow v₂) = .tmpfs d₂)
    (hc₂ : (ns.createFile (ns.follow v) c.toName).2.child
      ((ns.createFile (ns.follow v) c.toName).2.follow v₂) c₂.toName = 0) :
    ¬Unchanged ns ((ns.createFile (ns.follow v) c.toName).2.createFile
      ((ns.createFile (ns.follow v) c.toName).2.follow v₂) c₂.toName).2 := by
  have hdir := h.follow_lt (h.reach_lt hv).1
  -- the second file is not in the first, so its directory was there before
  have hold : ns.reach q₂ = some v₂ := by
    refine (reach_of_created h hv hd hv₂).resolve_left fun hnew => ?_
    rw [hnew, createFile_follow_new hd, createFile_kind_new hd hdir] at hd₂
    cases hd₂
  rw [createFile_follow hd (h.reach_lt hold).1] at hd₂ hc₂ ⊢
  by_cases heq : ns.follow v₂ = ns.follow v
  · exact not_unchanged_created_same h hv hd hc hd₂ hc₂ heq
  · exact not_unchanged_created_apart h hv hd hc hold hd₂ hc₂ heq

end Created

theorem not_creates_of_reach {p : List Component} {n : Nat} (h : ns.reach p = some n) :
    ¬ns.Creates p := by
  rintro ⟨q, c, v, d, rfl, hv, -, hc⟩
  rw [reach_concat hv, if_pos hc] at h
  cases h

theorem lookup_of_not_creates {p : List Component} (hp : p ≠ []) (h : ¬ns.Creates p) :
    (ns.lookup p).2 = ns := by
  have hlooked := lookup_looked ns hp
  generalize ns.lookup p = l at hlooked ⊢
  cases hlooked with
  | found hn => rfl
  | missing hnone hcreates => rfl
  | created hp hv hd hc => exact absurd ⟨_, _, _, _, hp, hv, hd, hc⟩ h

theorem reach_of_lookup {p : List Component} (hp : p ≠ []) (h : ¬ns.Creates p)
    (h0 : (ns.lookup p).1 ≠ 0) : ∃ n, ns.reach p = some n := by
  have hlooked := lookup_looked ns hp
  generalize ns.lookup p = l at hlooked h0
  cases hlooked with
  | found hn => exact ⟨_, hn⟩
  | missing hnone hcreates => exact absurd rfl h0
  | created hp hv hd hc => exact absurd ⟨_, _, _, _, hp, hv, hd, hc⟩ h

theorem unchanged_lookup_iff (h : ns.Wf) {q : List Component} (hq : q ≠ []) :
    Unchanged ns (ns.lookup q).2 ↔ ¬ns.Creates q := by
  have hlooked := lookup_looked ns hq
  generalize ns.lookup q = l at hlooked ⊢
  cases hlooked with
  | found hn => exact iff_of_true (unchanged_of_extends h (.refl ns)) (not_creates_of_reach hn)
  | missing hnone hcreates => exact iff_of_true (unchanged_of_extends h (.refl ns)) hcreates
  | created hp hv hd hc =>
    exact iff_of_false (not_unchanged_created h hv hd hc (.refl _))
      (not_not_intro ⟨_, _, _, _, hp, hv, hd, hc⟩)

section

variable {q : List Component} {c : Component} {v : Nat} {d : DirectoryNode} (h : ns.Wf)
  (hv : ns.reach q = some v) (hd : ns.kind (ns.follow v) = .tmpfs d)
  (hc : ns.child (ns.follow v) c.toName = 0)

include h hv hd hc in
/-- The lookup of a device after the target was created does not take the target away. -/
theorem not_unchanged_created_lookup {u : List Component} (hu : u ≠ []) :
    ¬Unchanged ns ((ns.createFile (ns.follow v) c.toName).2.lookup u).2 := by
  have hlooked := lookup_looked (ns.createFile (ns.follow v) c.toName).2 hu
  generalize (ns.createFile (ns.follow v) c.toName).2.lookup u = l at hlooked ⊢
  cases hlooked with
  | found hn => exact not_unchanged_created h hv hd hc (.refl _)
  | missing hnone hcreates => exact not_unchanged_created h hv hd hc (.refl _)
  | created hp hv₂ hd₂ hc₂ => exact not_unchanged_created_twice h hv hd hc hv₂ hd₂ hc₂

end

theorem lookup_slashA_slashA : bare.lookup (slashA ++ slashA) = (0, bare) :=
  lookup_concat slashA _ bare

end Ulysses.Fs
