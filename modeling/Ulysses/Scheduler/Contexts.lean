import Ulysses.Scheduler.Moves

/-!
# Saved contexts

`fork` makes the new thread ready and then saves a register context into it, with
interrupts on. A tick between the two that wakes up a sleeper switches to it, and the
next switch resumes the new thread from registers nobody has saved
(`child_resumed_unsaved`). Without such a tick every thread that is resumed has a
context (`resumes_saved`).
-/

namespace Ulysses

open Lib

namespace Scheduler

/-- The step calls `switch_thread`. -/
def switches (s : Scheduler) : Event → Bool
  | .yield | .switch => true
  | .timer =>
    ((wakeSleepers s.queues.waiting.count.toNat s.queues.waiting.head
      ({ s with ticks := add32 s.ticks 1 }, false)).map Prod.snd).getD false
  | _ => false

section

variable {s s' : Scheduler} {rs ws : List Tid} {e : Event}

/-- A tick switches when it wakes up a sleeper. -/
theorem Inv.switches_timer (h : s.Inv rs ws) :
    s.switches .timer = !(s.due ws).isEmpty := by
  obtain ⟨s₁, hloop, -⟩ := h.tickLoop
  have hmap := congrArg (fun r => (r.map Prod.snd).getD false) hloop
  exact hmap

/-- The current thread changes by `switch_thread` only. -/
theorem Inv.current_of_not_switches (h : s.Inv rs ws) (hs : s.step e = some s')
    (hsw : s.switches e = false) : s'.current = s.current := by
  by_cases he : e = .timer
  · subst he
    obtain ⟨s₁, rs', hs₁, -, -, hticked⟩ := h.timer
    obtain rfl := Option.some.inj (hs.symm.trans hs₁)
    rw [h.switches_timer, Bool.not_eq_false'] at hsw
    have hdue : s.due ws = [] := List.isEmpty_iff.1 hsw
    generalize s'.current = n at hticked ⊢
    cases hticked with
    | quiet => rfl
    | woke hne => exact absurd hdue hne
  · obtain ⟨rs', ws', -, -, hchange⟩ := h.change he hs
    generalize s'.current = n at hchange ⊢
    cases hchange with
    | switch hcall =>
      rcases hcall with rfl | rfl
      · cases hsw
      · cases hsw
    | _ => rfl

/-- No sleeper's alarm expires at the next tick. -/
def NoAlarm (s : Scheduler) : Prop :=
  ∀ t ∈ s.created, ({ s with ticks := add32 s.ticks 1 } : Scheduler).alarmExpired t = false

instance (s : Scheduler) : Decidable s.NoAlarm := inferInstanceAs (Decidable (∀ t ∈ _, _ = _))

theorem Inv.not_switches_timer (h : s.Inv rs ws) (hno : s.NoAlarm) : s.switches .timer = false := by
  have hdue : s.due ws = [] := List.filter_eq_nil_iff.2 fun t ht =>
    Bool.eq_false_iff.1 (hno t (h.members t (.inr ht)))
  rw [h.switches_timer, hdue]
  rfl

end

end Scheduler

/-- The scheduler with the threads whose `regs` are set up, and the new thread of every
`fork` that has made it ready and not yet saved its registers. -/
structure ForkSystem where
  sched : Scheduler
  saved : Tid → Bool
  forking : Tid → Option Tid

namespace ForkSystem

def isInterrupt : Scheduler.Event → Bool
  | .timer | .setFull _ | .wake _ => true
  | _ => false

inductive Event
  | sched (e : Scheduler.Event)
  /-- `fork` up to its `make_ready`. -/
  | fork (t : Tid) (p pid : Nat) (unset : ThreadState)
  /-- The `save_registers` of `fork`. -/
  | save
  | spawnInit (t : Tid) (p : Nat) (unset : ThreadState)

/-- Inside `fork` only interrupts come; `spawn_init` has interrupts off. -/
def step (s : ForkSystem) : Event → Option ForkSystem
  | .sched e =>
    if Scheduler.spawns e = false ∧ (s.forking s.sched.current ≠ none → isInterrupt e = true) then
      (s.sched.step e).map fun sched =>
        { s with
          sched
          saved := if s.sched.switches e then Function.update s.saved s.sched.current true
            else s.saved }
    else none
  | .fork t p pid unset =>
    if s.forking s.sched.current = none then
      (s.sched.step (.fork t p pid unset)).map fun sched =>
        { sched
          saved := Function.update s.saved t false
          forking := Function.update s.forking s.sched.current (some t) }
    else none
  | .save =>
    (s.forking s.sched.current).map fun t =>
      { s with
        saved := Function.update s.saved t true
        forking := Function.update s.forking s.sched.current none }
  | .spawnInit t p unset =>
    if s.forking s.sched.current = none then
      (s.sched.step (.spawnInit t p unset)).map fun sched =>
        { s with sched, saved := Function.update s.saved t true }
    else none

structure Booted (s : ForkSystem) : Prop where
  sched : s.sched.Booted
  forking : ∀ t, s.forking t = none

/-- The step resumes the thread `t` from its `regs`. -/
def Resumes (s : ForkSystem) (e : Event) (t : Tid) : Prop :=
  ∃ s', s.step e = some s' ∧ s'.sched.current = t ∧ t ≠ s.sched.current

/-- No sleeper wakes up between the `make_ready` and the `save_registers` of a `fork`. -/
def Undisturbed (s : ForkSystem) : Event → Prop
  | .sched .timer => s.forking s.sched.current ≠ none → s.sched.NoAlarm
  | _ => True

instance (s : ForkSystem) (e : Event) : Decidable (s.Undisturbed e) := by
  unfold Undisturbed
  split <;> infer_instance

def Step (s s' : ForkSystem) : Prop := ∃ e, s.step e = some s'

/-- One step of a run without such a tick. -/
def UndisturbedStep (s s' : ForkSystem) : Prop := ∃ e, s.Undisturbed e ∧ s.step e = some s'

/-- Only the current thread is inside `fork`, and every other thread has its context,
save the one it is creating. -/
structure Inv (s : ForkSystem) : Prop where
  sched : ∃ rs ws, s.sched.Inv rs ws
  forking : ∀ u, s.forking u ≠ none → u = s.sched.current
  contexts : ∀ t ∈ s.sched.created, t = s.sched.current ∨ s.saved t = true ∨
    s.forking s.sched.current = some t

section

variable {s s' : ForkSystem}

theorem Booted.inv (h : s.Booted) : s.Inv := by
  refine ⟨⟨[], [], h.sched.inv⟩, fun u hu => absurd (h.forking u) hu, fun t ht => .inl ?_⟩
  rw [h.sched.created, List.mem_singleton] at ht
  rw [ht, h.sched.current]

theorem Inv.not_forking (h : s.Inv) {e : Scheduler.Event} (hok : s.Undisturbed (.sched e))
    (hguard : s.forking s.sched.current ≠ none → isInterrupt e = true)
    (hsw : s.sched.switches e = true) : s.forking s.sched.current = none := by
  obtain ⟨rs, ws, hinv⟩ := h.sched
  by_contra hne
  have hint := hguard hne
  cases e with
  | timer =>
    rw [hinv.not_switches_timer (hok hne)] at hsw
    cases hsw
  | setFull b => cases hsw
  | wake q => cases hsw
  | _ => cases hint

theorem Inv.schedStep (h : s.Inv) {e : Scheduler.Event} (hok : s.Undisturbed (.sched e))
    (hs : s.step (.sched e) = some s') : s'.Inv := by
  obtain ⟨⟨hspawn, hguard⟩, hs⟩ := Option.ite_none_right_eq_some.1 hs
  obtain ⟨sched, hstep, rfl⟩ := Option.map_eq_some_iff.1 hs
  obtain ⟨rs, ws, hinv⟩ := h.sched
  have hcreated : ∀ t ∈ sched.created, t ∈ s.sched.created := fun t ht =>
    (hinv.effect hstep t).elim (fun heff => heff.created ht) fun hnew => by simp [hspawn] at hnew
  cases hsw : s.sched.switches e with
  | false =>
    have hcur := hinv.current_of_not_switches hstep hsw
    refine ⟨hinv.step hstep, fun u hu => (h.forking u hu).trans hcur.symm, fun t ht => ?_⟩
    simp only [hcur, Bool.false_eq_true, if_false]
    exact h.contexts t (hcreated t ht)
  | true =>
    -- the thread that is left has its registers saved, and it is not inside `fork`
    have hnone := h.not_forking hok hguard hsw
    refine ⟨hinv.step hstep, fun u hu => ?_, fun t ht => .inr (.inl ?_)⟩
    · have hu' := h.forking u hu
      rw [hu'] at hu
      exact absurd hnone hu
    · simp only [if_true]
      rcases h.contexts t (hcreated t ht) with rfl | hsaved | hfork
      · exact Function.update_self ..
      · rw [Function.update_apply]
        split
        · rfl
        · exact hsaved
      · rw [hnone] at hfork
        cases hfork

theorem Inv.fork (h : s.Inv) {t : Tid} {p pid : Nat} {unset : ThreadState}
    (hs : s.step (.fork t p pid unset) = some s') : s'.Inv := by
  obtain ⟨hnone, hs⟩ := Option.ite_none_right_eq_some.1 hs
  obtain ⟨sched, hstep, rfl⟩ := Option.map_eq_some_iff.1 hs
  obtain ⟨rs, ws, hinv⟩ := h.sched
  have hcur := hinv.current_of_not_switches hstep rfl
  obtain ⟨hok, ⟨⟩⟩ := Option.ite_none_right_eq_some.1 hstep
  refine ⟨hinv.step hstep, fun u hu => ?_, fun u hu => ?_⟩
  · rw [hcur]
    by_contra hne
    simp only [Function.update_of_ne hne] at hu
    exact hne (h.forking u hu)
  · simp only [hcur, Function.update_self]
    rcases List.mem_cons.1 hu with rfl | hu
    · exact .inr (.inr rfl)
    · have hne : u ≠ t := fun heq => hok.2.1.1 (heq ▸ hu)
      rcases h.contexts u hu with heq | hsaved | hfork
      · exact .inl heq
      · exact .inr (.inl ((Function.update_of_ne hne _ _).trans hsaved))
      · rw [hnone] at hfork
        cases hfork

theorem Inv.save (h : s.Inv) (hs : s.step .save = some s') : s'.Inv := by
  obtain ⟨t, hfork, rfl⟩ := Option.map_eq_some_iff.1 hs
  refine ⟨h.sched, fun u hu => ?_, fun u hu => ?_⟩
  · by_contra hne
    simp only at hne
    simp only [Function.update_of_ne hne] at hu
    exact hne (h.forking u hu)
  · by_cases heq : u = t
    · exact .inr (.inl (heq ▸ Function.update_self ..))
    · rcases h.contexts u hu with hcur | hsaved | hf
      · exact .inl hcur
      · exact .inr (.inl ((Function.update_of_ne heq _ _).trans hsaved))
      · exact absurd (Option.some.inj (hf.symm.trans hfork)) heq

theorem Inv.spawnInit (h : s.Inv) {t : Tid} {p : Nat} {unset : ThreadState}
    (hs : s.step (.spawnInit t p unset) = some s') : s'.Inv := by
  obtain ⟨hnone, hs⟩ := Option.ite_none_right_eq_some.1 hs
  obtain ⟨sched, hstep, rfl⟩ := Option.map_eq_some_iff.1 hs
  obtain ⟨rs, ws, hinv⟩ := h.sched
  have hcur := hinv.current_of_not_switches hstep rfl
  obtain ⟨hok, ⟨⟩⟩ := Option.ite_none_right_eq_some.1 hstep
  refine ⟨hinv.step hstep, fun u hu => (h.forking u hu).trans hcur.symm, fun u hu => ?_⟩
  simp only [hcur]
  rcases List.mem_cons.1 hu with rfl | hu
  · exact .inr (.inl (Function.update_self ..))
  · have hne : u ≠ t := fun heq => hok.2.1 (heq ▸ hu)
    rcases h.contexts u hu with heq | hsaved | hfork
    · exact .inl heq
    · exact .inr (.inl ((Function.update_of_ne hne _ _).trans hsaved))
    · exact .inr (.inr hfork)

theorem Inv.step (h : s.Inv) {e : Event} (hok : s.Undisturbed e) (hs : s.step e = some s') :
    s'.Inv := by
  cases e with
  | sched e => exact h.schedStep hok hs
  | fork t p pid unset => exact h.fork hs
  | save => exact h.save hs
  | spawnInit t p unset => exact h.spawnInit hs

theorem Inv.resumes (h : s.Inv) {e : Event} {t : Tid} (hok : s.Undisturbed e)
    (hres : s.Resumes e t) : s.saved t = true := by
  obtain ⟨s', hs, rfl, hne⟩ := hres
  obtain ⟨rs, ws, hinv⟩ := h.sched
  cases e with
  | sched e =>
    obtain ⟨⟨hspawn, hguard⟩, hs⟩ := Option.ite_none_right_eq_some.1 hs
    obtain ⟨sched, hstep, rfl⟩ := Option.map_eq_some_iff.1 hs
    obtain ⟨rs', ws', hinv'⟩ := hinv.step hstep
    have hsw : s.sched.switches e = true := by
      by_contra hsw
      exact hne (hinv.current_of_not_switches hstep (Bool.eq_false_iff.2 hsw))
    have hmem : sched.current ∈ s.sched.created :=
      (hinv.effect hstep sched.current).elim (fun heff => heff.created hinv'.current)
        fun hnew => by simp [hspawn] at hnew
    rcases h.contexts _ hmem with heq | hsaved | hfork
    · exact absurd heq hne
    · exact hsaved
    · rw [h.not_forking hok hguard hsw] at hfork
      cases hfork
  | fork t p pid unset =>
    obtain ⟨-, hs⟩ := Option.ite_none_right_eq_some.1 hs
    obtain ⟨sched, hstep, rfl⟩ := Option.map_eq_some_iff.1 hs
    exact absurd (hinv.current_of_not_switches hstep rfl) hne
  | save =>
    obtain ⟨t, -, rfl⟩ := Option.map_eq_some_iff.1 hs
    exact absurd rfl hne
  | spawnInit t p unset =>
    obtain ⟨-, hs⟩ := Option.ite_none_right_eq_some.1 hs
    obtain ⟨sched, hstep, rfl⟩ := Option.map_eq_some_iff.1 hs
    exact absurd (hinv.current_of_not_switches hstep rfl) hne

end

/-- As long as no sleeper wakes up inside a `fork`, `switch_thread` resumes threads with
a saved context only. -/
theorem resumes_saved {s : ForkSystem} (h : Reach Booted UndisturbedStep s) {e : Event} {t : Tid}
    (hok : s.Undisturbed e) (hres : s.Resumes e t) : s.saved t = true :=
  Inv.resumes (h.invariant (I := Inv) (fun _ hb => hb.inv)
    fun _ _ hinv ⟨_, hok, hs⟩ => hinv.step hok hs) hok hres

def atBoot : ForkSystem := ⟨.atBoot, fun _ => false, fun _ => none⟩

theorem booted_atBoot : atBoot.Booted := ⟨Scheduler.booted_atBoot, fun _ => rfl⟩

/-- A run from boot without a tick that disturbs a `fork`. -/
def runUndisturbed (es : List Event) : Option ForkSystem :=
  es.foldlM (fun s e => if s.Undisturbed e then s.step e else none) atBoot

theorem reach_runUndisturbed {s : ForkSystem} {es : List Event} (h : runUndisturbed es = some s) :
    Reach Booted UndisturbedStep s :=
  Reach.foldlM (fun _ e _ hs => ⟨e, Option.ite_none_right_eq_some.1 hs⟩) (.init booted_atBoot) h

/-- A child is resumed after an undisturbed `fork`. -/
theorem resumes_saved_child :
    ∃ s, runUndisturbed [.spawnInit 2 1 .dead, .sched .yield, .fork 3 2 2 .dead, .sched .timer,
        .save] = some s ∧
      s.Resumes (.sched .yield) 3 ∧ s.saved 3 = true := by
  have hrun : ((runUndisturbed [.spawnInit 2 1 .dead, .sched .yield, .fork 3 2 2 .dead,
      .sched .timer, .save]).bind fun s => (s.step (.sched .yield)).map fun s' =>
        (s.sched.current, s'.sched.current)) = some (2, 3) := by
    decide +kernel
  obtain ⟨s, hs, hstep⟩ := Option.bind_eq_some_iff.1 hrun
  obtain ⟨s', hs', heq⟩ := Option.map_eq_some_iff.1 hstep
  obtain ⟨hcur, hcur'⟩ := Prod.mk.inj heq
  have hres : s.Resumes (.sched .yield) 3 := ⟨s', hs', hcur', by simp [hcur]⟩
  exact ⟨s, hs, hres, resumes_saved (e := .sched .yield) (reach_runUndisturbed hs) trivial hres⟩

/-- Thread 3 sleeps; thread 2 forks thread 4, and the tick after its `make_ready` wakes
up thread 3, which yields. -/
theorem child_resumed_unsaved :
    ∃ s e, Reach Booted Step s ∧ s.Resumes e 4 ∧ s.saved 4 = false := by
  have hrun : (([.spawnInit 2 1 .dead, .sched .yield, .fork 3 2 2 .dead, .save, .sched .timer,
      .sched .yield, .sched (.sleep 0), .sched .switch, .fork 4 3 3 .dead, .sched .timer,
      .sched .resume].foldlM step atBoot).bind fun s => (s.step (.sched .yield)).map fun s' =>
        (s.sched.current, s.saved 4, s'.sched.current)) = some (3, false, 4) := by
    decide +kernel
  obtain ⟨s, hs, hstep⟩ := Option.bind_eq_some_iff.1 hrun
  obtain ⟨s', hs', heq⟩ := Option.map_eq_some_iff.1 hstep
  simp only [Prod.mk.injEq] at heq
  obtain ⟨hcur, hsaved, hcur'⟩ := heq
  exact ⟨s, _, Reach.foldlM (fun _ e _ hx => ⟨e, hx⟩) (.init booted_atBoot) hs,
    ⟨s', hs', hcur', by simp [hcur]⟩, hsaved⟩

end ForkSystem

end Ulysses
