import Mathlib.Data.List.Basic

/-!
# Tilings of an address range

A range `[lo, hi)` is tiled by consecutive segments, each of at least `m` bytes.
Cutting a tiling at a segment, replacing a run of segments by another run over
the same bytes, and reading off that segments do not meet are all the operations
an allocator that splits and merges its segments in place needs.
-/

namespace Ulysses.Lib

/-- A segment with what is known about it. -/
structure Seg (α : Type*) where
  addr : Nat
  size : Nat
  tag : α
  deriving DecidableEq, Repr

variable {α : Type*}

def Tiles (m : Nat) : Nat → List (Seg α) → Nat → Prop
  | lo, [], hi => lo = hi
  | lo, g :: gs, hi => g.addr = lo ∧ m ≤ g.size ∧ Tiles m (lo + g.size) gs hi

theorem tiles_nil {m lo hi : Nat} : Tiles m lo ([] : List (Seg α)) hi ↔ lo = hi := Iff.rfl

theorem tiles_cons {m lo hi : Nat} {g : Seg α} {gs : List (Seg α)} :
    Tiles m lo (g :: gs) hi ↔ g.addr = lo ∧ m ≤ g.size ∧ Tiles m (lo + g.size) gs hi := Iff.rfl

theorem tiles_append {m lo hi : Nat} {xs ys : List (Seg α)} :
    Tiles m lo (xs ++ ys) hi ↔ ∃ mid, Tiles m lo xs mid ∧ Tiles m mid ys hi := by
  induction xs generalizing lo with
  | nil =>
    constructor
    · intro h
      exact ⟨lo, rfl, h⟩
    · rintro ⟨mid, rfl, h⟩
      exact h
  | cons g xs ih =>
    simp only [List.cons_append, tiles_cons, ih]
    constructor
    · rintro ⟨ha, hm, mid, h₁, h₂⟩
      exact ⟨mid, ⟨ha, hm, h₁⟩, h₂⟩
    · rintro ⟨mid, ⟨ha, hm, h₁⟩, h₂⟩
      exact ⟨ha, hm, mid, h₁, h₂⟩

theorem tiles_singleton {m lo hi : Nat} {g : Seg α} :
    Tiles m lo [g] hi ↔ g.addr = lo ∧ m ≤ g.size ∧ lo + g.size = hi := Iff.rfl

namespace Tiles

variable {m lo hi : Nat} {gs : List (Seg α)}

theorem le (h : Tiles m lo gs hi) : lo ≤ hi := by
  induction gs generalizing lo with
  | nil => exact Nat.le_of_eq h
  | cons g gs ih =>
    have := ih h.2.2
    omega

theorem bounds (h : Tiles m lo gs hi) {g : Seg α} (hg : g ∈ gs) :
    lo ≤ g.addr ∧ m ≤ g.size ∧ g.addr + g.size ≤ hi := by
  induction gs generalizing lo with
  | nil => cases hg
  | cons g' gs ih =>
    obtain ⟨ha, hm, ht⟩ := h
    rcases List.mem_cons.1 hg with rfl | hg
    · have := ht.le
      omega
    · have := ih ht hg
      omega

theorem cut (h : Tiles m lo gs hi) {g : Seg α} (hg : g ∈ gs) :
    ∃ xs ys, gs = xs ++ g :: ys ∧ Tiles m lo xs g.addr ∧ Tiles m (g.addr + g.size) ys hi := by
  obtain ⟨xs, ys, rfl⟩ := List.append_of_mem hg
  obtain ⟨mid, hx, ha, -, hy⟩ := tiles_append.1 h
  exact ⟨xs, ys, rfl, ha ▸ hx, ha ▸ hy⟩

theorem disjoint (h : Tiles m lo gs hi) {g g' : Seg α} (hg : g ∈ gs) (hg' : g' ∈ gs)
    (hne : g ≠ g') : g.addr + g.size ≤ g'.addr ∨ g'.addr + g'.size ≤ g.addr := by
  induction gs generalizing lo with
  | nil => cases hg
  | cons a gs ih =>
    obtain ⟨ha, -, ht⟩ := h
    rcases List.mem_cons.1 hg with rfl | hmem <;> rcases List.mem_cons.1 hg' with rfl | hmem'
    · exact absurd rfl hne
    · have := (ht.bounds hmem').1
      omega
    · have := (ht.bounds hmem).1
      omega
    · exact ih ht hmem hmem'

theorem eq_of_addr (h : Tiles m lo gs hi) (hm : 0 < m) {g g' : Seg α} (hg : g ∈ gs) (hg' : g' ∈ gs)
    (ha : g.addr = g'.addr) : g = g' := by
  by_contra hne
  have h₁ := (h.bounds hg).2.1
  have h₂ := (h.bounds hg').2.1
  have := h.disjoint hg hg' hne
  omega

theorem exists_head (h : Tiles m lo gs hi) (hlt : lo < hi) :
    ∃ g ys, gs = g :: ys ∧ g.addr = lo ∧ m ≤ g.size ∧ Tiles m (lo + g.size) ys hi := by
  cases gs with
  | nil => exact absurd h (Nat.ne_of_lt hlt)
  | cons g ys => exact ⟨g, ys, rfl, h⟩

theorem exists_last (h : Tiles m lo gs hi) (hlt : lo < hi) : ∃ g ∈ gs, g.addr + g.size = hi := by
  rcases List.eq_nil_or_concat gs with rfl | ⟨xs, g, rfl⟩
  · exact absurd h (Nat.ne_of_lt hlt)
  · rw [List.concat_eq_append] at h
    obtain ⟨mid, -, hg⟩ := tiles_append.1 h
    obtain ⟨ha, -, he⟩ := tiles_singleton.1 hg
    exact ⟨g, by simp, by omega⟩

/-- When a run of segments is replaced, a segment is one outside the bytes of the run that
was there before, or a new one. -/
theorem exists_replace {xs mid mid' ys : List (Seg α)} {a b : Nat} (hm : 0 < m)
    (hx : Tiles m lo xs a) (hmid : ∀ g ∈ mid, a ≤ g.addr ∧ g.addr < b) (hy : Tiles m b ys hi)
    (P : Seg α → Prop) : (∃ g ∈ xs ++ mid' ++ ys, P g) ↔
      (∃ g ∈ xs ++ mid ++ ys, (g.addr < a ∨ b ≤ g.addr) ∧ P g) ∨ ∃ g ∈ mid', P g := by
  simp only [List.mem_append]
  constructor
  · rintro ⟨g, (hg | hg) | hg, hP⟩
    · have := hx.bounds hg
      exact .inl ⟨g, .inl (.inl hg), by omega, hP⟩
    · exact .inr ⟨g, hg, hP⟩
    · exact .inl ⟨g, .inr hg, .inr (hy.bounds hg).1, hP⟩
  · rintro (⟨g, (hg | hg) | hg, hoff, hP⟩ | ⟨g, hg, hP⟩)
    · exact ⟨g, .inl (.inl hg), hP⟩
    · have := hmid g hg
      omega
    · exact ⟨g, .inr hg, hP⟩
    · exact ⟨g, .inl (.inr hg), hP⟩

/-- What is known of the addresses, `d` behind the beginnings of the segments with `P`, is
known after a run was replaced, if it follows the replacement inside the run and does not
change outside. -/
theorem replace_iff {xs mid mid' ys : List (Seg α)} {a b d : Nat} {P : Seg α → Prop}
    {old new : Nat → Prop} (hm : 0 < m) (hx : Tiles m lo xs a)
    (hmid : ∀ g ∈ mid, a ≤ g.addr ∧ g.addr < b) (hmid' : Tiles m a mid' b) (hy : Tiles m b ys hi)
    (hold : ∀ c, old c ↔ ∃ g ∈ xs ++ mid ++ ys, P g ∧ g.addr + d = c)
    (hout : ∀ c, c < a + d ∨ b + d ≤ c → (new c ↔ old c))
    (hin : ∀ c, a + d ≤ c → c < b + d → (new c ↔ ∃ g ∈ mid', P g ∧ g.addr + d = c)) (c : Nat) :
    new c ↔ ∃ g ∈ xs ++ mid' ++ ys, P g ∧ g.addr + d = c := by
  rw [exists_replace hm hx hmid hy]
  by_cases hc : a + d ≤ c ∧ c < b + d
  · rw [hin c hc.1 hc.2]
    refine ⟨.inr, ?_⟩
    rintro (⟨g, -, hoff, -, rfl⟩ | hg)
    · omega
    · exact hg
  · rw [hout c (by omega), hold c]
    constructor
    · rintro ⟨g, hg, hP, rfl⟩
      exact .inl ⟨g, hg, by omega, hP, rfl⟩
    · rintro (⟨g, hg, -, hP⟩ | ⟨g, hg, -, rfl⟩)
      · exact ⟨g, hg, hP⟩
      · have := hmid'.bounds hg
        omega

theorem cut_pair (h : Tiles m lo gs hi) (hm : 0 < m) {g g' : Seg α} (hg : g ∈ gs) (hg' : g' ∈ gs)
    (ha : g.addr + g.size = g'.addr) : ∃ xs ys, gs = xs ++ g :: g' :: ys := by
  obtain ⟨xs, ys, heq, hx, hy⟩ := h.cut hg
  have hb := h.bounds hg'
  obtain ⟨g'', ys, rfl, ha', -, -⟩ := hy.exists_head (by omega)
  have hmem : g'' ∈ gs := by
    rw [heq]
    simp
  have heq' : g'' = g' := h.eq_of_addr hm hmem hg' (ha'.trans ha)
  exact ⟨xs, ys, heq' ▸ heq⟩

end Tiles

end Ulysses.Lib
