import Mathlib.Logic.Relation
import Ulysses.Lib.Loop

/-!
# Reachable states of a transition system

A system is an initial predicate and a step relation on a state type. A run
whose steps all meet a side condition is a run of the system whose step
relation is restricted by it, so one induction serves both kinds of claim.
-/

namespace Ulysses.Lib

variable {σ : Type*} {init : σ → Prop} {step : σ → σ → Prop}

/-- The states some run of the system reaches. -/
inductive Reach (init : σ → Prop) (step : σ → σ → Prop) : σ → Prop
  | init {s : σ} (h : init s) : Reach init step s
  | step {s t : σ} (h : Reach init step s) (hst : step s t) : Reach init step t

/-- What holds initially and is kept by every step holds in every reachable
state. -/
theorem Reach.invariant {I : σ → Prop} (h0 : ∀ s, init s → I s)
    (hs : ∀ s t, I s → step s t → I t) {s : σ} (h : Reach init step s) : I s := by
  induction h with
  | init h => exact h0 _ h
  | step _ hst ih => exact hs _ _ ih hst

/-- A list of actions is a run. -/
theorem Reach.foldlM {α : Type*} {f : σ → α → Option σ}
    (hf : ∀ s a s', f s a = some s' → step s s') {l : List α} {s s' : σ} (hr : Reach init step s)
    (h : l.foldlM f s = some s') : Reach init step s' :=
  foldlM_invariant (P := Reach init step) l (fun x a x' _ hx hs => .step hx (hf x a x' hs)) hr h

/-! ## Sequences of actions -/

section

variable {α : Type*} {next : σ → α → σ} {P Q R : α → σ → Prop}

/-- `P` holds of every action of a sequence, in the state it is taken in. -/
def Along (next : σ → α → σ) (P : α → σ → Prop) : List α → σ → Prop
  | [], _ => True
  | a :: as, s => P a s ∧ Along next P as (next s a)

/-- Two properties of the actions agree on a sequence if they agree on each action in the
states that the sequence reaches. -/
theorem Along.congr {I : σ → Prop} (hnext : ∀ s a, I s → R a s → P a s → I (next s a))
    (hiff : ∀ s a, I s → R a s → (P a s ↔ Q a s)) {as : List α} {s : σ} (hs : I s)
    (hr : Along next R as s) : Along next P as s ↔ Along next Q as s := by
  induction as generalizing s with
  | nil => exact .rfl
  | cons a as ih =>
    have hhead := hiff s a hs hr.1
    exact ⟨fun h => ⟨hhead.1 h.1, (ih (hnext s a hs hr.1 h.1) hr.2).1 h.2⟩,
      fun h => ⟨hhead.2 h.1, (ih (hnext s a hs hr.1 (hhead.2 h.1)) hr.2).2 h.2⟩⟩

/-- A property of the actions in a part of the state that takes its own steps. -/
theorem along_comap {τ : Type*} {f : σ → τ} {next' : τ → α → τ} {T : α → τ → Prop}
    (hf : ∀ s a, f (next s a) = next' (f s) a) (as : List α) (s : σ) :
    Along next (fun a s => T a (f s)) as s ↔ Along next' T as (f s) := by
  induction as generalizing s with
  | nil => exact .rfl
  | cons a as ih =>
    have htail := ih (next s a)
    rw [hf] at htail
    exact and_congr_right fun _ => htail

end

end Ulysses.Lib
