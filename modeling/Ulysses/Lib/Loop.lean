import Mathlib.Data.List.Basic
import Mathlib.Algebra.BigOperators.Group.Finset.Basic

/-!
# Loops that may stop

A bounded loop whose body may abort is a monadic fold in `Option` over the values
of its counter. What every turn keeps, the loop keeps.
-/

namespace Ulysses.Lib

variable {σ α : Type*}

theorem foldlM_invariant {f : σ → α → Option σ} {P : σ → Prop} (l : List α)
    (hf : ∀ s a s', a ∈ l → P s → f s a = some s' → P s') {s s' : σ} (hs : P s)
    (h : l.foldlM f s = some s') : P s' := by
  induction l generalizing s with
  | nil => exact Option.some.inj h ▸ hs
  | cons a l ih =>
    obtain ⟨s₁, h₁, h⟩ := Option.bind_eq_some_iff.1 h
    exact ih (fun s b s' hb => hf s b s' (List.mem_cons_of_mem a hb))
      (hf s a s₁ List.mem_cons_self hs h₁) h

theorem foldlM_range_invariant {f : σ → Nat → Option σ} {P : Nat → σ → Prop} {n : Nat}
    (hf : ∀ i s s', i < n → P i s → f s i = some s' → P (i + 1) s') {s s' : σ} (hs : P 0 s)
    (h : (List.range n).foldlM f s = some s') : P n s' := by
  induction n generalizing s' with
  | zero => exact Option.some.inj h ▸ hs
  | succ n ih =>
    rw [List.range_succ, List.foldlM_append] at h
    obtain ⟨s₁, h₁, h⟩ := Option.bind_eq_some_iff.1 h
    obtain ⟨s₂, h₂, h⟩ := Option.bind_eq_some_iff.1 h
    obtain rfl := Option.some.inj h
    exact hf n s₁ s₂ (Nat.lt_succ_self n)
      (ih (fun i s s' hi => hf i s s' (Nat.lt_succ_of_lt hi)) h₁) h₂

/-- A loop that uses up a resource: `P i k` is what holds before turn `i` with `k`
units left, and turn `i` takes `cost i` of them. -/
theorem foldlM_range_budget {f : σ → Nat → Option σ} {P : Nat → Nat → σ → Prop}
    (cost : Nat → Nat) {n : Nat} (hf : ∀ i k s, i < n → P i (k + cost i) s →
      ∃ s', f s i = some s' ∧ P (i + 1) k s') {k : Nat} {s : σ}
    (hs : P 0 (k + ∑ i ∈ Finset.range n, cost i) s) :
    ∃ s', (List.range n).foldlM f s = some s' ∧ P n k s' := by
  induction n generalizing k with
  | zero => exact ⟨s, rfl, by simpa using hs⟩
  | succ n ih =>
    rw [Finset.sum_range_succ, Nat.add_comm _ (cost n), ← Nat.add_assoc] at hs
    obtain ⟨s₁, h₁, hP⟩ := ih (fun i j x hi => hf i j x (Nat.lt_succ_of_lt hi)) hs
    obtain ⟨s₂, h₂, hP'⟩ := hf n k s₁ (Nat.lt_succ_self n) hP
    refine ⟨s₂, ?_, hP'⟩
    rw [List.range_succ, List.foldlM_append, h₁]
    simp [h₂]

/-- A loop whose body never aborts, with what it keeps. -/
theorem foldlM_range_total {f : σ → Nat → Option σ} {P : Nat → σ → Prop} {n : Nat}
    (hf : ∀ i s, i < n → P i s → ∃ s', f s i = some s' ∧ P (i + 1) s') {s : σ} (hs : P 0 s) :
    ∃ s', (List.range n).foldlM f s = some s' ∧ P n s' :=
  -- nothing is used up
  foldlM_range_budget (P := fun i _ => P i) (fun _ => 0) (fun i _ => hf i) (k := 0) hs

end Ulysses.Lib
