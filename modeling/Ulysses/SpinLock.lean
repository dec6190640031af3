import Ulysses.Cpu

/-!
# The recursive spin lock

`SpinLock::lock` saves the interrupt flag in the lock itself and disables
interrupts; `unlock` re-enables them when the saved flag says so. The saved flag
is one field, rewritten by every acquisition, also by a nested one. So a nested
`synchronized` block saves "disabled" over what the outermost block had saved,
and the flag the outermost `unlock` restores is the right one only when no block
was nested in it or interrupts were disabled to begin with
(`restores_iff_unnested`).

A sequence of calls by one thread is a list of `Call`. `Nested d v` says that `v`
closes the `d` blocks open before it and every block it opens, so the properly
nested sequences are those with `Nested 0 v`.
-/

namespace Ulysses

/-- `spinlock.hpp`'s `SpinLock`. The owner is a thread, `none` for a null
`locker_`. The nesting depth is bounded by the kernel stack, so `recursive_` is a
natural number here. -/
structure SpinLock where
  locker : Option Nat := none
  recursive : Nat := 0
  enableInterrupts : Bool := false
  file : Option String := none
  line : Int := -1
  deriving DecidableEq, Repr

namespace SpinLock

/-- `SpinLock::lock` by the thread `cur`. When another thread owns the lock the
loop on the compare-and-swap spins with interrupts disabled, so on this CPU the
call does not return (`none`). -/
def lock (cur : Nat) (f : Option String) (l : Int) (s : SpinLock) (c : Cpu) :
    Option (SpinLock × Cpu) :=
  let s := { s with enableInterrupts := c.interruptsEnabledP }
  let c := if s.enableInterrupts then c.disableInterrupts.2 else c
  match s.locker with
  | none => some ({ s with locker := some cur, file := f, line := l }, c)
  | some t =>
    if t = cur then some ({ s with recursive := s.recursive + 1, file := f, line := l }, c)
    else none

/-- `SpinLock::unlock` by the thread `cur`; a failed assertion is `none`. -/
def unlock (cur : Nat) (s : SpinLock) (c : Cpu) : Option (SpinLock × Cpu) :=
  if s.locker = some cur then
    let s := { s with file := none, line := -1 }
    let s := if s.recursive > 0 then { s with recursive := s.recursive - 1 }
      else { s with locker := none }
    some (s, if s.enableInterrupts then c.enableInterrupts.2 else c)
  else none

/-- One call of the lock's interface. `lock` carries the file and line that
`synchronized` passes. -/
inductive Call
  | lock (file : Option String) (line : Int)
  | unlock
  deriving DecidableEq, Repr

def call (cur : Nat) : Call → SpinLock × Cpu → Option (SpinLock × Cpu)
  | .lock f l, (s, c) => s.lock cur f l c
  | .unlock, (s, c) => s.unlock cur c

/-- The calls of a sequence, one after the other. -/
def exec (cur : Nat) : List Call → SpinLock × Cpu → Option (SpinLock × Cpu)
  | [], st => some st
  | a :: v, st => (call cur a st).bind (exec cur v)

/-- `v` closes the `d` blocks that are open before it and every block it opens. -/
inductive Nested : Nat → List Call → Prop
  | done : Nested 0 []
  | lock {d : Nat} {v : List Call} (f : Option String) (l : Int) (h : Nested (d + 1) v) :
      Nested d (.lock f l :: v)
  | unlock {d : Nat} {v : List Call} (h : Nested d v) : Nested (d + 1) (.unlock :: v)

/-- The calls of an outermost block with the calls `w` inside. -/
def block (f : Option String) (l : Int) (w : List Call) : List Call :=
  .lock f l :: w ++ [.unlock]

/-- A lock nobody holds. -/
def Free (s : SpinLock) : Prop := s.locker = none ∧ s.recursive = 0

/-- What the lock promises of a sequence: after it the lock is free and the
interrupt flag is what it was before, and at every point strictly inside it
interrupts are disabled. -/
def Restores (cur : Nat) (v : List Call) (st : SpinLock × Cpu) : Prop :=
  (∃ s c, exec cur v st = some (s, c) ∧ s.Free ∧ c.interrupts = st.2.interrupts) ∧
    ∀ v₁ v₂, v = v₁ ++ v₂ → v₁ ≠ [] → v₂ ≠ [] →
      ∃ s c, exec cur v₁ st = some (s, c) ∧ c.interrupts = false

/-! ## Single calls -/

theorem exec_append (cur : Nat) (v w : List Call) (st : SpinLock × Cpu) :
    exec cur (v ++ w) st = (exec cur v st).bind (exec cur w) := by
  induction v generalizing st with
  | nil => rfl
  | cons a v ih =>
    simp only [List.cons_append, exec]
    cases h : call cur a st with
    | none => rfl
    | some st' => exact ih st'

/-- Held by `cur` at depth `r`, interrupts disabled, saved flag `e`. -/
structure Held (cur r : Nat) (e : Bool) (s : SpinLock) (c : Cpu) : Prop where
  locker : s.locker = some cur
  depth : s.recursive = r
  saved : s.enableInterrupts = e
  disabled : c.interrupts = false

variable {s : SpinLock}

theorem lock_free (cur : Nat) (hs : s.Free) (f : Option String) (l : Int) (c : Cpu) :
    ∃ s' c', s.lock cur f l c = some (s', c') ∧ Held cur 0 c.interrupts s' c' := by
  unfold lock
  simp only [hs.1]
  refine ⟨_, _, rfl, rfl, hs.2, rfl, ?_⟩
  cases h : c.interrupts <;> simp [Cpu.interruptsEnabledP, h]

/-- A nested acquisition finds interrupts disabled and saves that. -/
theorem lock_held {cur r : Nat} {e : Bool} {c : Cpu} (h : Held cur r e s c) (f : Option String)
    (l : Int) : ∃ s' c', s.lock cur f l c = some (s', c') ∧ Held cur (r + 1) false s' c' := by
  have hoff : c.interruptsEnabledP = false := h.disabled
  unfold lock
  simp only [h.locker, hoff, if_true, Bool.false_eq_true, if_false]
  exact ⟨_, _, rfl, rfl, by simp [h.depth], rfl, h.disabled⟩

theorem unlock_nested {cur r : Nat} {c : Cpu} (h : Held cur (r + 1) false s c) :
    ∃ s' c', s.unlock cur c = some (s', c') ∧ Held cur r false s' c' := by
  unfold unlock
  have hr : s.recursive > 0 := by rw [h.depth]; omega
  simp only [h.locker, if_true, hr, h.saved, Bool.false_eq_true, if_false]
  exact ⟨_, _, rfl, rfl, by simp [h.depth], rfl, h.disabled⟩

/-- The outermost release frees the lock and sets the flag the lock holds. -/
theorem unlock_outermost {cur : Nat} {e : Bool} {c : Cpu} (h : Held cur 0 e s c) :
    ∃ s' c', s.unlock cur c = some (s', c') ∧ s'.Free ∧ c'.interrupts = e := by
  unfold unlock
  have hr : ¬ s.recursive > 0 := by rw [h.depth]; omega
  simp only [h.locker, if_true, hr, if_false, h.saved]
  refine ⟨_, _, rfl, ⟨rfl, h.depth⟩, ?_⟩
  cases e
  · simpa using h.disabled
  · simp

/-! ## Sequences -/

/-- Once the saved flag says "disabled", every split of a nested sequence runs
its first part and leaves interrupts disabled. The depth the second part still
has to close is the depth the lock is held at. -/
theorem exec_held {cur r : Nat} (v₁ v₂ : List Call) {d : Nat} (hn : Nested d (v₁ ++ v₂)) {c : Cpu}
    (h : Held cur (r + d) false s c) :
    ∃ d' s' c', Nested d' v₂ ∧ exec cur v₁ (s, c) = some (s', c') ∧
      Held cur (r + d') false s' c' := by
  induction v₁ generalizing d s c with
  | nil => exact ⟨d, s, c, hn, rfl, h⟩
  | cons a v₁ ih =>
    cases hn with
    | lock f l hn =>
      obtain ⟨s₁, c₁, he, hh⟩ := lock_held h f l
      obtain ⟨d', s', c', hn', he', hh'⟩ := ih hn hh
      exact ⟨d', s', c', hn', by simp [exec, call, he, he'], hh'⟩
    | unlock hn =>
      obtain ⟨s₁, c₁, he, hh⟩ := unlock_nested h
      obtain ⟨d', s', c', hn', he', hh'⟩ := ih hn hh
      exact ⟨d', s', c', hn', by simp [exec, call, he, he'], hh'⟩

/-- The same from any saved flag. The first call of a nonempty nested sequence is
a `lock`, which overwrites the flag. -/
theorem exec_inside {cur : Nat} {e : Bool} (v₁ v₂ : List Call) (hn : Nested 0 (v₁ ++ v₂)) {c : Cpu}
    (h : Held cur 0 e s c) :
    ∃ d' s' c', Nested d' v₂ ∧ exec cur v₁ (s, c) = some (s', c') ∧
      Held cur d' (if v₁ = [] then e else false) s' c' := by
  cases v₁ with
  | nil => exact ⟨0, s, c, hn, rfl, h⟩
  | cons a v₁ =>
    cases hn with
    | lock f l hn =>
      obtain ⟨s₁, c₁, he, hh⟩ := lock_held h f l
      obtain ⟨d', s', c', hn', he', hh'⟩ := exec_held (r := 0) v₁ v₂ hn (by simpa using hh)
      refine ⟨d', s', c', hn', by simp [exec, call, he, he'], ?_⟩
      simpa using hh'

/-- A whole block runs, frees the lock and leaves the flag saved last. -/
theorem exec_block (cur : Nat) (f : Option String) (l : Int) {w : List Call} (hw : Nested 0 w)
    (hs : s.Free) (c : Cpu) :
    ∃ s' c', exec cur (block f l w) (s, c) = some (s', c') ∧ s'.Free ∧
      c'.interrupts = (if w = [] then c.interrupts else false) := by
  obtain ⟨s₁, c₁, he₁, hh₁⟩ := lock_free cur hs f l c
  obtain ⟨d', s₂, c₂, hn₂, he₂, hh₂⟩ := exec_inside w [] (by simpa using hw) hh₁
  cases hn₂
  obtain ⟨s₃, c₃, he₃, hf₃, hi₃⟩ := unlock_outermost hh₂
  refine ⟨s₃, c₃, ?_, hf₃, hi₃⟩
  simp [block, exec, call, he₁, exec_append, he₂, he₃]

theorem exec_inside_block {cur : Nat} (f : Option String) (l : Int) {w : List Call}
    (hw : Nested 0 w) (hs : s.Free) (c : Cpu) (v₁ v₂ : List Call) (hv : block f l w = v₁ ++ v₂)
    (h₁ : v₁ ≠ []) (h₂ : v₂ ≠ []) :
    ∃ s' c', exec cur v₁ (s, c) = some (s', c') ∧ c'.interrupts = false := by
  obtain ⟨s₁, c₁, he₁, hh₁⟩ := lock_free cur hs f l c
  cases v₁ with
  | nil => exact absurd rfl h₁
  | cons a v₁ =>
    -- the second part ends in the outermost `unlock`, so the rest is a split of `w`
    rcases List.eq_nil_or_concat v₂ with rfl | ⟨v₂, b, rfl⟩
    · exact absurd rfl h₂
    simp only [block, List.cons_append, List.cons.injEq, List.concat_eq_append] at hv
    obtain ⟨rfl, hv⟩ := hv
    rw [← List.append_assoc] at hv
    have hw' : w = v₁ ++ v₂ := List.append_inj_left' hv rfl
    obtain ⟨d', s', c', -, he, hh⟩ := exec_inside v₁ v₂ (hw' ▸ hw) hh₁
    exact ⟨s', c', by simp [exec, call, he₁, he], hh.disabled⟩

/-- **The flag is restored exactly by unnested blocks.** For every properly
nested sequence `w` inside an outermost block on a free lock, the lock keeps its
promise if and only if interrupts were disabled before the block or no block is
nested in it. -/
theorem restores_iff_unnested (cur : Nat) (f : Option String) (l : Int) (w : List Call)
    (hw : Nested 0 w) (s : SpinLock) (hs : s.Free) (c : Cpu) :
    Restores cur (block f l w) (s, c) ↔ c.interrupts = false ∨ w = [] := by
  obtain ⟨s', c', he, hf, hi⟩ := exec_block cur f l hw hs c
  constructor
  · rintro ⟨⟨s'', c'', he', -, hi'⟩, -⟩
    rw [he] at he'
    obtain ⟨rfl, rfl⟩ := Prod.mk.inj (Option.some.inj he')
    by_cases hn : w = []
    · exact .inr hn
    · rw [if_neg hn] at hi
      exact .inl (hi'.symm.trans hi)
  · intro h
    refine ⟨⟨s', c', he, hf, ?_⟩, fun v₁ v₂ => exec_inside_block f l hw hs c v₁ v₂⟩
    rcases h with h | h
    · rw [hi, h]; simp
    · rw [hi, if_pos h]

/-- Interrupts disabled, one nested block: the flag is restored. -/
theorem restores_disabled :
    Restores 1 (block none (-1) [.lock none (-1), .unlock]) ({}, ⟨false⟩) :=
  (restores_iff_unnested 1 none (-1) _ (.lock _ _ (.unlock .done)) {} ⟨rfl, rfl⟩ ⟨false⟩).2
    (.inl rfl)

/-- Interrupts enabled, one nested block, as `on_tick` around `make_ready` runs
it: after the outermost `unlock` interrupts are still disabled. -/
theorem nested_block_not_restored :
    Nested 0 [.lock none (-1), .unlock] ∧ Free {} ∧
      ¬ Restores 1 (block none (-1) [.lock none (-1), .unlock]) ({}, ⟨true⟩) := by
  refine ⟨.lock _ _ (.unlock .done), ⟨rfl, rfl⟩, ?_⟩
  rintro ⟨⟨s, c, he, -, hi⟩, -⟩
  have hrun : exec 1 (block none (-1) [.lock none (-1), .unlock]) ({}, ⟨true⟩) =
      some ({}, ⟨false⟩) := by decide
  rw [hrun] at he
  obtain ⟨-, rfl⟩ := Prod.mk.inj (Option.some.inj he)
  exact absurd hi (by decide)

end SpinLock

end Ulysses
