import Ulysses.Scheduler.Moves

/-!
# Sleeping

`sleep` stores the tick at which the thread is to be woken up, modulo 2^32 and with 0 for
no alarm, and `on_tick` compares it with the tick counter by `<=`. A sleep whose deadline
is 0 never ends, and one whose deadline is past the wrap of the counter ends at the next
tick (`sleep_ends_early`), unless the counter wraps at that tick. `sleep_duration` says for
which starts a sleep has its length.
-/

namespace Ulysses

open Lib

namespace Scheduler

def isTick : Event → Bool
  | .timer => true
  | _ => false

/-- The ticks of a run. -/
def tickCount (es : List Event) : Nat := es.countP isTick

/-- After `sleep`, in every run, the thread stays in the waiting queue up to the first tick
at which `d` ticks have passed, and that tick moves it to the ready queue. -/
def SleepsFor (s : Scheduler) (t : Tid) (d : Nat) : Prop :=
  ∀ es s₁ s₂, s.runAll es = some s₁ → s₁.step .timer = some s₂ →
    (∀ k, 1 ≤ k → k ≤ tickCount es → k < d) →
    t ∈ s₁.waitingList ∧ (t ∈ s₂.readyList ↔ d ≤ tickCount es + 1)

/-- The starts at which the deadline is reached after that many seconds. -/
def Measures (ticks secs : Nat) : Prop :=
  if secs = 0 then ticks ≠ 0 ∧ ticks ≠ 4294967295
  else ticks + secs * 100 < 4294967296 ∨ ticks = 4294967295

instance (ticks secs : Nat) : Decidable (Measures ticks secs) :=
  inferInstanceAs (Decidable (ite ..))

/-- The test of `alarm_expired` on a sleeper. -/
def Due (alarm ticks : Nat) : Prop := alarm ≠ 0 ∧ alarm ≤ ticks

/-- A sleeper of a run with its deadline. -/
def Asleep (s : Scheduler) (t : Tid) (alarm : Nat) : Prop :=
  ∃ rs ws, s.Inv rs ws ∧ t ∈ ws ∧ (s.threads t).alarmAt = alarm

/-! ## The clock and the deadlines -/

section

variable {s s' : Scheduler} {rs ws : List Tid} {e : Event} {t : Tid} {alarm : Nat}

/-- The clock and the deadlines are as before. -/
structure SameAlarms (s s' : Scheduler) : Prop where
  ticks : s'.ticks = s.ticks
  alarmAt : ∀ t, (s'.threads t).alarmAt = (s.threads t).alarmAt

theorem SameAlarms.refl (s : Scheduler) : SameAlarms s s := ⟨rfl, fun _ => rfl⟩

theorem SameAlarms.trans {s₁ s₂ s₃ : Scheduler} (h₁ : SameAlarms s₁ s₂) (h₂ : SameAlarms s₂ s₃) :
    SameAlarms s₁ s₃ :=
  ⟨h₂.ticks.trans h₁.ticks, fun t => (h₂.alarmAt t).trans (h₁.alarmAt t)⟩

theorem sameAlarms_setState (t : Tid) (st : ThreadState) (s : Scheduler) :
    SameAlarms s (s.setState t st) := by
  refine ⟨rfl, fun u => ?_⟩
  by_cases hu : u = t
  · subst hu
    simp [setState]
  · rw [(local_setState t st s).threads u hu]

theorem sameAlarms_makeReady (t : Tid) (s : Scheduler) : SameAlarms s (s.makeReady t) :=
  (sameAlarms_setState t .ready s).trans ⟨rfl, fun _ => rfl⟩

theorem sameAlarms_wakeSleeper (t : Tid) (s : Scheduler) :
    SameAlarms s ((s.removeFromWaiting t).makeReady t) := by
  have hremove : SameAlarms s (s.removeFromWaiting t) := ⟨rfl, fun _ => rfl⟩
  exact hremove.trans (sameAlarms_makeReady t _)

theorem sameAlarms_die (t : Tid) (s : Scheduler) : SameAlarms s (s.die t) := by
  unfold die
  refine SameAlarms.trans ?_ (sameAlarms_setState ..)
  split
  · exact ⟨rfl, fun _ => rfl⟩
  · exact ⟨rfl, fun _ => rfl⟩
  · exact .refl s

theorem sameAlarms_exit (hs : s.exit = some s') : SameAlarms s s' := by
  obtain ⟨-, hs⟩ := Option.ite_none_left_eq_some.1 hs
  obtain ⟨s₁, hrun, rfl⟩ := Option.map_eq_some_iff.1 hs
  have hremove : SameAlarms s (s.removeFromReady s.current) := ⟨rfl, fun _ => rfl⟩
  have hdies : SameAlarms s s₁ := by
    refine foldlM_invariant (P := SameAlarms s) _ (fun x u x' _ hx hx' => ?_) hremove hrun
    obtain ⟨-, ⟨⟩⟩ := Option.ite_none_right_eq_some.1 hx'
    exact hx.trans (sameAlarms_die u x)
  exact hdies.trans ⟨rfl, fun _ => rfl⟩

theorem sameAlarms_switchThread (hs : s.switchThread = some s') : SameAlarms s s' := by
  refine ⟨?_, fun t => by rw [switchThread_threads hs]⟩
  obtain ⟨n, -, rfl⟩ := Option.map_eq_some_iff.1 hs
  split
  · rfl
  split <;> rfl

theorem sameAlarms_ioWait {w : Source} (hs : s.ioWait w = some s') : SameAlarms s s' := by
  unfold Scheduler.ioWait at hs
  obtain ⟨-, hs⟩ := Option.ite_none_left_eq_some.1 hs
  simp only at hs
  split at hs
  · exact Option.some.inj hs ▸ ⟨rfl, fun _ => rfl⟩
  · obtain rfl := Option.some.inj hs
    exact (sameAlarms_setState s.current .ioWait s).trans ⟨rfl, fun _ => rfl⟩

/-- A tick counts, and keeps the deadlines. -/
theorem sameAlarms_timer (hs : s.timer = some s') : SameAlarms s.tick s' := by
  obtain ⟨⟨s₁, schedule⟩, hwake, hs⟩ := Option.bind_eq_some_iff.1 hs
  have hloop : SameAlarms s.tick s₁ :=
    wakeSleepers_invariant (P := SameAlarms s.tick)
      (fun x t hx => hx.trans (sameAlarms_wakeSleeper t x)) hwake (.refl _)
  split at hs
  · exact hloop.trans (sameAlarms_switchThread hs)
  · exact Option.some.inj hs ▸ hloop

/-- Between the ticks only `sleep` sets a deadline, that of the current thread. -/
theorem step_alarms (he : e ≠ .timer) (hs : s.step e = some s') :
    s'.ticks = s.ticks ∧ ∀ t ∈ s.created,
      (s.pc s.current = .run → t ≠ s.current) → (s'.threads t).alarmAt = (s.threads t).alarmAt := by
  suffices hsame : SameAlarms s s' ∨ (s'.ticks = s.ticks ∧ ∃ u, (u ∉ s.created ∨
      s.pc s.current = .run ∧ u = s.current) ∧ ∀ t, t ≠ u → s'.threads t = s.threads t) by
    rcases hsame with hsame | ⟨hticks, u, hu, hthreads⟩
    · exact ⟨hsame.ticks, fun t _ _ => hsame.alarmAt t⟩
    · refine ⟨hticks, fun t hmem hcur => ?_⟩
      rw [hthreads t]
      rintro rfl
      exact hu.elim (· hmem) fun hu => hcur hu.1 hu.2
  cases step_taken hs with
  | fork hpc hfresh hpid =>
    exact .inr ⟨rfl, _, .inl hfresh.1, (spawned_newThread _ _ _ _ _ s).threads⟩
  | spawnInit hpc hfresh =>
    exact .inr ⟨rfl, _, .inl hfresh.1, (spawned_newThread _ _ _ _ _ s).threads⟩
  | @sleep secs _ hpc hs =>
    obtain ⟨-, hs⟩ := Option.ite_none_left_eq_some.1 hs
    obtain rfl := Option.some.inj hs
    refine .inr ⟨rfl, s.current, .inr ⟨hpc, rfl⟩, ?_⟩
    exact ((local_sleepTil _ secs s).trans
      ((local_queues _ _ _).trans (local_makeWait _ _))).threads
  | startIo =>
    exact .inl ((sameAlarms_setState s.current .ioPending s).trans ⟨rfl, fun _ => rfl⟩)
  | registerBuffer =>
    unfold Scheduler.registerBuffer
    split
    · exact .inl ⟨rfl, fun _ => rfl⟩
    · exact .inl ⟨rfl, fun _ => rfl⟩
  | registerQueue => exact .inl ⟨rfl, fun _ => rfl⟩
  | ioWait hpc hs => exact .inl (sameAlarms_ioWait hs)
  | exit hpc hs => exact .inl (sameAlarms_exit hs)
  | yield hpc hs => exact .inl (sameAlarms_switchThread hs)
  | @switch c _ hpc hs =>
    have hset : SameAlarms s (s.setPc s.current (.away c)) := ⟨rfl, fun _ => rfl⟩
    exact .inl (hset.trans (sameAlarms_switchThread hs))
  | resume => exact .inl ⟨rfl, fun _ => rfl⟩
  | timer => exact absurd rfl he
  | @setFull b =>
    unfold Scheduler.setFull
    split
    · have hfull : SameAlarms s (s.markFull b) := ⟨rfl, fun _ => rfl⟩
      exact .inl (hfull.trans (sameAlarms_makeReady _ _))
    · exact .inl ⟨rfl, fun _ => rfl⟩
  | @wake q =>
    unfold Scheduler.wake
    split
    · exact .inl (.refl s)
    · next u us _ =>
      have hq : SameAlarms s { s with waitQueues := Function.update s.waitQueues q us } :=
        ⟨rfl, fun _ => rfl⟩
      exact .inl (hq.trans (sameAlarms_makeReady _ _))

/-! ## A sleeper -/

theorem Asleep.mem (h : s.Asleep t alarm) : t ∈ s.waitingList := by
  obtain ⟨rs, ws, hinv, ht, -⟩ := h
  rw [hinv.waitingList_eq]
  exact ht

theorem Asleep.not_ready (h : s.Asleep t alarm) : t ∉ s.readyList := by
  obtain ⟨rs, ws, hinv, ht, -⟩ := h
  rw [hinv.readyList_eq]
  exact fun hr => hinv.queues.disjoint t hr ht

theorem Inv.not_mem_of_run (h : s.Inv rs ws) (hpc : s.pc s.current = .run) : s.current ∉ ws := by
  have hrow := h.row _ h.current
  rw [hpc] at hrow
  exact hrow.2

/-- Between the ticks a sleeper sleeps on. -/
theorem Asleep.step (h : s.Asleep t alarm) (he : e ≠ .timer) (hs : s.step e = some s') :
    s'.Asleep t alarm ∧ s'.ticks = s.ticks := by
  obtain ⟨rs, ws, hinv, ht, rfl⟩ := h
  obtain ⟨hticks, halarm⟩ := step_alarms he hs
  obtain ⟨rs', ws', hinv', -, hc⟩ := hinv.change he hs
  have hne : s.pc s.current = .run → t ≠ s.current := fun hpc heq =>
    hinv.not_mem_of_run hpc (heq ▸ ht)
  refine ⟨⟨rs', ws', hinv', ?_, halarm t (hinv.members t (.inr ht)) hne⟩, hticks⟩
  generalize s'.current = n at hc
  cases hc with
  | sleep => exact List.mem_cons_of_mem _ ht
  | _ => exact ht

theorem Switched.mem {idle cur n : Tid} {rs' : List Tid} (h : Switched idle cur rs n rs')
    (ht : t ∈ rs) : t ∈ rs' := by
  cases h with
  | empty hrs => exact hrs ▸ ht
  | keep => exact ht
  | next hrs =>
    subst hrs
    exact List.mem_append.2 ((List.mem_cons.1 ht).symm.imp_right (List.mem_singleton.2 ·))
  | idle => exact ht

theorem Inv.alarmExpired_iff (h : s.Inv rs ws) (ht : t ∈ ws) :
    s.tick.alarmExpired t = true ↔ Due (s.threads t).alarmAt (add32 s.ticks 1) := by
  have hstate : (s.threads t).state = .waiting :=
    ((h.row t (h.members t (.inr ht))).consistent).1.1 ht
  have hthread : s.tick.threads t = s.threads t := rfl
  have hticks : s.tick.ticks = add32 s.ticks 1 := rfl
  unfold alarmExpired Due
  simp [hthread, hticks, hstate]

/-- A tick wakes the sleeper up when its deadline is due. -/
theorem Asleep.timer (h : s.Asleep t alarm) (hs : s.timer = some s') :
    s'.ticks = add32 s.ticks 1 ∧ (Due alarm (add32 s.ticks 1) → t ∈ s'.readyList) ∧
      (¬Due alarm (add32 s.ticks 1) → s'.Asleep t alarm) := by
  obtain ⟨rs, ws, hinv, ht, rfl⟩ := h
  have hsame := sameAlarms_timer hs
  obtain ⟨s₁, rs', hs₁, hinv', -, hc⟩ := hinv.timer
  obtain rfl := Option.some.inj (hs.symm.trans hs₁)
  rw [← hinv.alarmExpired_iff ht]
  refine ⟨hsame.ticks, fun hdue => ?_, fun hdue => ?_⟩
  · rw [hinv'.readyList_eq]
    have hmem : t ∈ s.due ws := List.mem_filter.2 ⟨ht, hdue⟩
    generalize s'.current = n at hc
    cases hc with
    | quiet hnone => exact absurd (hnone ▸ hmem) List.not_mem_nil
    | woke _ hsw => exact hsw.mem (List.mem_append_left _ (List.mem_reverse.2 hmem))
  · exact ⟨rs', _, hinv', List.mem_filter.2 ⟨ht, by simpa using hdue⟩, hsame.alarmAt t⟩

/-- What `sleep` makes of the thread that calls it. -/
theorem Inv.asleep_of_sleep {secs : Nat} (h : s.Inv rs ws) (hs : s.step (.sleep secs) = some s') :
    s'.Asleep s.current (add32 s.ticks (mul32 secs 100)) ∧ s'.ticks = s.ticks := by
  obtain ⟨hpc, hs⟩ := Option.ite_none_right_eq_some.1 hs
  refine ⟨⟨_, _, h.sleep hpc hs, List.mem_cons_self, ?_⟩, ?_⟩
  · obtain ⟨-, hs⟩ := Option.ite_none_left_eq_some.1 hs
    obtain rfl := Option.some.inj hs
    have hwait := (sameAlarms_setState s.current .waiting
      ((s.sleepTil s.current secs).removeFromReady s.current)).alarmAt s.current
    exact hwait.trans (by simp [removeFromReady, sleepTil, secsToTicks])
  · obtain ⟨-, hs⟩ := Option.ite_none_left_eq_some.1 hs
    exact Option.some.inj hs ▸ rfl

/-! ## Runs of a sleeper -/

/-- A run in which the deadline is due at no tick. -/
theorem Asleep.runAll {es : List Event} (h : s.Asleep t alarm) (hr : s.runAll es = some s')
    (hdue : ∀ k, 1 ≤ k → k ≤ tickCount es → ¬Due alarm (add32 s.ticks k)) :
    s'.Asleep t alarm ∧ add32 s'.ticks 1 = add32 s.ticks (tickCount es + 1) := by
  induction es generalizing s with
  | nil =>
    obtain rfl := Option.some.inj hr
    exact ⟨h, rfl⟩
  | cons e es ih =>
    obtain ⟨s₁, hs, hrest⟩ := Option.bind_eq_some_iff.1 hr
    by_cases he : e = .timer
    · subst he
      have hcount : tickCount (.timer :: es) = tickCount es + 1 := List.countP_cons_of_pos rfl
      obtain ⟨hticks, -, hsleep⟩ := h.timer hs
      have hadd : ∀ k, add32 s₁.ticks k = add32 s.ticks (k + 1) := fun k => by
        rw [hticks]
        unfold add32
        omega
      have hnot := hdue 1 (Nat.le_refl 1) (by omega)
      rw [hcount, ← hadd]
      refine ih (hsleep hnot) hrest fun k hk hk' => ?_
      rw [hadd]
      exact hdue (k + 1) (by omega) (by omega)
    · have hcount : tickCount (e :: es) = tickCount es := by
        refine List.countP_cons_of_neg ?_
        cases e with
        | timer => exact absurd rfl he
        | _ => exact Bool.false_ne_true
      obtain ⟨hsleep, hticks⟩ := h.step he hs
      rw [hcount] at hdue ⊢
      rw [← hticks] at hdue ⊢
      exact ih hsleep hrest hdue

theorem Inv.runAll_timers (h : s.Inv rs ws) (n : Nat) :
    ∃ s', s.runAll (List.replicate n .timer) = some s' := by
  induction n generalizing s rs ws with
  | zero => exact ⟨s, rfl⟩
  | succ n ih =>
    obtain ⟨s₁, rs', hs, hinv, -⟩ := h.timer
    obtain ⟨s', hr⟩ := ih hinv
    exact ⟨s', Option.bind_eq_some_iff.2 ⟨s₁, hs, hr⟩⟩

theorem tickCount_replicate (n : Nat) : tickCount (List.replicate n .timer) = n := by
  unfold tickCount
  rw [List.countP_replicate]
  rfl

/-- The deadline is due at the first tick at which `d` ticks have passed since `ticks`, and
at none before. -/
def DueAfter (alarm ticks d : Nat) : Prop :=
  ∀ j, 1 ≤ j → (∀ k, 1 ≤ k → k < j → k < d) → (Due alarm (add32 ticks j) ↔ d ≤ j)

theorem DueAfter.not_due {ticks d j : Nat} (h : DueAfter alarm ticks d)
    (hj : ∀ k, 1 ≤ k → k ≤ j → k < d) : ∀ k, 1 ≤ k → k ≤ j → ¬Due alarm (add32 ticks k) := by
  intro k hk hkj hdue
  have hle := (h k hk fun i hi hik => hj i hi (by omega)).1 hdue
  have hlt := hj k hk hkj
  omega

/-- The sleep has its length when the deadline is due at the right tick. -/
theorem Asleep.sleepsFor_iff (h : s.Asleep t alarm) (d : Nat) :
    s.SleepsFor t d ↔ DueAfter alarm s.ticks d := by
  constructor
  · intro hsleep j
    induction j using Nat.strong_induction_on with
    | _ j ih =>
      intro hj hfirst
      obtain ⟨rs, ws, hinv, -, -⟩ := id h
      obtain ⟨s₁, hr⟩ := hinv.runAll_timers (j - 1)
      have hcount := tickCount_replicate (j - 1)
      have hnot : ∀ k, 1 ≤ k → k ≤ tickCount (List.replicate (j - 1) .timer) →
          ¬Due alarm (add32 s.ticks k) := by
        intro k hk hkj hdue
        have hle := (ih k (by omega) hk fun i hi hik => hfirst i hi (by omega)).1 hdue
        have hlt := hfirst k hk (by omega)
        omega
      obtain ⟨hasleep, hticks⟩ := h.runAll hr hnot
      obtain ⟨rs₁, ws₁, hinv₁, -, -⟩ := id hasleep
      obtain ⟨s₂, rs₂, hs₂, -, -⟩ := hinv₁.timer
      obtain ⟨-, hwake, hstay⟩ := hasleep.timer hs₂
      obtain ⟨-, hready⟩ := hsleep _ s₁ s₂ hr hs₂ fun k hk hkj => hfirst k hk (by omega)
      rw [hticks, hcount, Nat.sub_add_cancel hj] at hwake hstay
      rw [hcount, Nat.sub_add_cancel hj] at hready
      rw [← hready]
      refine ⟨hwake, fun hmem => ?_⟩
      by_contra hnot
      exact (hstay hnot).not_ready hmem
  · intro hdue es s₁ s₂ hr hs₂ hfirst
    obtain ⟨hasleep, hticks⟩ := h.runAll hr (hdue.not_due hfirst)
    obtain ⟨-, hwake, hstay⟩ := hasleep.timer hs₂
    refine ⟨hasleep.mem, ?_⟩
    rw [hticks] at hwake hstay
    rw [← hdue (tickCount es + 1) (by omega) fun k hk hlt => hfirst k hk (by omega)]
    refine ⟨fun hmem => ?_, hwake⟩
    by_contra hnot
    exact (hstay hnot).not_ready hmem

end

/-! ## The arithmetic of the deadline -/

/-- When the deadline `ticks + d` is due after `d` ticks, for `d` in whole seconds. -/
theorem dueAfter_iff {ticks secs : Nat} (hticks : ticks < 4294967296)
    (hsecs : secs * 100 < 2147483648) :
    DueAfter (add32 ticks (mul32 secs 100)) ticks (secs * 100) ↔ Measures ticks secs := by
  unfold DueAfter Measures Due add32 mul32
  split
  · next hzero =>
    subst hzero
    constructor
    · intro h
      have hone := (h 1 (Nat.le_refl 1) (by omega)).2 (by omega)
      omega
    · intro h j hj hfirst
      have hj1 : j = 1 := by
        by_contra hne
        have := hfirst 1 (Nat.le_refl 1) (by omega)
        omega
      subst hj1
      omega
  · next hpos =>
    constructor
    · intro h
      by_contra hnot
      rw [not_or] at hnot
      by_cases hzero : ticks + secs * 100 = 4294967296
      · -- the deadline is 0, which is no deadline
        have hlast := (h (secs * 100) (by omega) fun k _ hk => hk).2 (Nat.le_refl _)
        omega
      · -- the deadline is past the wrap, and the counter is not
        have hone := (h 1 (Nat.le_refl 1) (by omega)).1 (by omega)
        omega
    · intro h j hj hfirst
      have hle : j ≤ secs * 100 := by
        by_contra hgt
        have := hfirst (secs * 100) (by omega) (by omega)
        omega
      omega

/-- A sleep has its length exactly when its deadline is not past the wrap of the counter,
or the counter wraps at the first tick; one of no seconds when its deadline is neither 0
nor the last tick before the wrap. -/
theorem sleep_duration {s s₁ : Scheduler} {secs : Nat} (h : Reach Booted Step s)
    (hticks : s.ticks < 4294967296) (hsecs : secs * 100 < 2147483648)
    (hs : s.step (.sleep secs) = some s₁) :
    s₁.SleepsFor s.current (secs * 100) ↔ Measures s.ticks secs := by
  obtain ⟨rs, ws, hinv⟩ := Reach.inv h
  obtain ⟨hasleep, heq⟩ := hinv.asleep_of_sleep hs
  rw [hasleep.sleepsFor_iff, heq]
  exact dueAfter_iff hticks hsecs

/-- Thread 2 sleeps for a second from tick 0. -/
theorem sleep_duration_second :
    ∃ s s₁, atBoot.runAll [.spawnInit 2 1 .dead, .yield] = some s ∧ s.current = 2 ∧ s.ticks = 0 ∧
      s.step (.sleep 1) = some s₁ ∧ s₁.SleepsFor 2 100 := by
  have hrun : (atBoot.runAll [.spawnInit 2 1 .dead, .yield]).map
      (fun s => (s.current, s.ticks, (s.step (.sleep 1)).isSome)) = some (2, 0, true) := by
    decide +kernel
  obtain ⟨s, hs, heq⟩ := Option.map_eq_some_iff.1 hrun
  obtain ⟨hcur, heq⟩ := Prod.mk.inj heq
  obtain ⟨hticks, hsome⟩ := Prod.mk.inj heq
  obtain ⟨s₁, hs₁⟩ := Option.isSome_iff_exists.1 hsome
  refine ⟨s, s₁, hs, hcur, hticks, hs₁, ?_⟩
  have hreach := reach_runAll (.init booted_atBoot) hs
  have hiff := sleep_duration hreach (by omega) (by omega) hs₁
  rw [hcur, hticks] at hiff
  exact hiff.2 (by decide)

/-- Fifty ticks before the wrap a sleep of a second ends at the first tick. -/
theorem sleep_ends_early :
    ∃ s s₁ s₂, Reach Booted Step s ∧ s.current = 2 ∧ s.ticks = 4294967246 ∧
      s.step (.sleep 1) = some s₁ ∧ s₁.step .timer = some s₂ ∧ s₂.readyList = [2] ∧
      ¬s₁.SleepsFor 2 100 := by
  have hrun : (({ atBoot with ticks := 4294967246 } : Scheduler).runAll
      [.spawnInit 2 1 .dead, .yield]).map (fun s => (s.current, s.ticks,
        ((s.step (.sleep 1)).bind (step · .timer)).map readyList)) =
        some (2, 4294967246, some [2]) := by
    decide +kernel
  have hboot : ({ atBoot with ticks := 4294967246 } : Scheduler).Booted :=
    ⟨fun _ => rfl, rfl, rfl, rfl, rfl, ⟨rfl, rfl, rfl⟩, fun _ => rfl, fun _ => rfl, fun _ => rfl⟩
  obtain ⟨s, hs, heq⟩ := Option.map_eq_some_iff.1 hrun
  obtain ⟨hcur, heq⟩ := Prod.mk.inj heq
  obtain ⟨hticks, heq⟩ := Prod.mk.inj heq
  obtain ⟨s₂, hs₂, hready⟩ := Option.map_eq_some_iff.1 heq
  obtain ⟨s₁, hs₁, hs₂⟩ := Option.bind_eq_some_iff.1 hs₂
  refine ⟨s, s₁, s₂, reach_runAll (.init hboot) hs, hcur, hticks, hs₁, hs₂, hready,
    fun hsleep => ?_⟩
  obtain ⟨-, hiff⟩ := hsleep [] s₁ s₂ rfl hs₂ fun k hk hk' => absurd (hk.trans hk') (by decide)
  exact absurd (hiff.1 (hready ▸ List.mem_cons_self)) (by decide)

end Scheduler

end Ulysses
