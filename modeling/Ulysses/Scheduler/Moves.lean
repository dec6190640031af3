import Ulysses.Scheduler.Wakeups

/-!
# What a step does to a thread

A step moves the current thread along its call (`Moves`), or leaves the place of every
thread alone and makes some threads ready (`Inv.effect`). The systems built on the
scheduler follow a thread by this inversion and do not look into the functions again.
-/

namespace Ulysses

open Lib

namespace Scheduler

/-- The moves of the current thread, with its state before and after. -/
inductive Moves : Event → Pc → ThreadState → Pc → ThreadState → Prop
  | sleep {n st} : Moves (.sleep n) .run st (.leaving .sleep) .waiting
  | startIo {w st} : Moves (.startIo w) .run st (.started w) .ioPending
  | register {w st} : Moves .register (.started w) st (.registered w) st
  | full {b st} : Moves .register (.started (.buffer b)) st .run st
  | skip {w st} : Moves .ioWait (.registered w) st .run st
  | ioWait {w} : Moves .ioWait (.registered w) .ioPending (.leaving (.io w)) .ioWait
  | exit {st st'} : Moves .exit .run st (.leaving .exit) st'
  | switch {c st} : Moves .switch (.leaving c) st (.away c) st
  | resume {c st} : Moves .resume (.away c) st .run st

theorem Moves.to_started {e : Event} {pc : Pc} {st st' : ThreadState} {w : Source}
    (h : Moves e pc st (.started w) st') : e = .startIo w := by
  cases h
  rfl

/-- A thread comes to be blocked by registering. -/
theorem Moves.blocked {e : Event} {pc pc' : Pc} {st st' : ThreadState} {w : Source}
    (h : Moves e pc st pc' st') (hb : Blocked pc' st' w) : Blocked pc st w ∨ pc = .started w := by
  obtain ⟨rfl, -⟩ | ⟨rfl | rfl, rfl⟩ := hb
  · cases h
    exact .inr rfl
  · cases h
    exact .inl (.inl ⟨rfl, rfl⟩)
  · cases h
    exact .inl (.inr ⟨.inl rfl, rfl⟩)

/-- The event creates a thread. -/
def spawns : Event → Bool
  | .fork .. | .spawnInit .. => true
  | _ => false

/-- What a step by `e` does to a thread `t` that it does not create. -/
structure Effect (e : Event) (s s' : Scheduler) (t : Tid) : Prop where
  created : t ∈ s'.created → t ∈ s.created
  moves : (s'.pc t = s.pc t ∧
      ((s'.threads t).state = (s.threads t).state ∨ (s'.threads t).state = .ready)) ∨
    (t = s.current ∧ Moves e (s.pc t) (s.threads t).state (s'.pc t) (s'.threads t).state)

section

variable {s s' : Scheduler} {rs ws : List Tid} {e : Event} {t : Tid}

theorem Quiet.effect (h : Quiet s s') : Effect e s s' t :=
  ⟨fun ht => h.created ▸ ht, .inl ⟨congrFun h.pc t, h.state t⟩⟩

theorem Local.effect {pc : Pc} {st : ThreadState} (h : Local s.current s s')
    (hpc : s'.pc s.current = pc) (hst : (s'.threads s.current).state = st)
    (hm : Moves e (s.pc s.current) (s.threads s.current).state pc st) : Effect e s s' t := by
  refine ⟨fun ht => h.created ▸ ht, ?_⟩
  by_cases ht : t = s.current
  · subst ht hpc hst
    exact .inr ⟨rfl, hm⟩
  · exact .inl ⟨h.pc t ht, .inl (by rw [h.threads t ht])⟩

theorem Spawned.effect {u : Tid} {p : Nat} (h : Spawned u p s s') :
    Effect e s s' t ∨ s'.pc t = .run := by
  by_cases ht : t = u
  · exact .inr (ht ▸ h.self_pc)
  · refine .inl ⟨fun hmem => ?_, .inl ⟨h.pc t ht, .inl (by rw [h.threads t ht])⟩⟩
    rw [h.created] at hmem
    exact (List.mem_cons.1 hmem).resolve_left ht

theorem effect_setPc {pc : Pc}
    (hm : Moves e (s.pc s.current) (s.threads s.current).state pc (s.threads s.current).state) :
    Effect e s (s.setPc s.current pc) t :=
  (local_setPc s.current pc s).effect (setPc_self ..) rfl hm

theorem switchThread_threads (hs : s.switchThread = some s') : s'.threads = s.threads := by
  obtain ⟨n, -, rfl⟩ := Option.map_eq_some_iff.1 hs
  split
  · rfl
  split <;> rfl

theorem Effect.congr {s'' : Scheduler} (h : Effect e s s' t) (hcreated : s''.created = s'.created)
    (hpc : s''.pc = s'.pc) (hthreads : s''.threads = s'.threads) : Effect e s s'' t := by
  refine ⟨fun ht => h.created (hcreated ▸ ht), ?_⟩
  rw [hpc, hthreads]
  exact h.moves

theorem effect_setFull (b : Nat) : Effect e s (s.setFull b) t := by
  unfold setFull
  split
  · next u _ =>
    have hq := quiet_makeReady u (s.markFull b)
    exact ⟨id, .inl ⟨rfl, hq.state t⟩⟩
  · exact ⟨id, .inl ⟨rfl, .inl rfl⟩⟩

theorem effect_wake (q : Nat) : Effect e s (s.wake q) t := by
  unfold wake
  split
  · exact (Quiet.refl s).effect
  · next u us _ =>
    have hq := quiet_makeReady u { s with waitQueues := Function.update s.waitQueues q us }
    exact ⟨id, .inl ⟨rfl, hq.state t⟩⟩

theorem effect_ioWait {w : Source} (hpc : s.pc s.current = .registered w)
    (hs : s.ioWait w = some s') : Effect .ioWait s s' t := by
  unfold Scheduler.ioWait at hs
  split at hs
  · cases hs
  simp only at hs
  split at hs
  · obtain rfl := Option.some.inj hs
    exact effect_setPc (hpc ▸ .skip)
  · next hpending =>
    rw [ne_eq, not_not] at hpending
    obtain rfl := Option.some.inj hs
    refine (((local_setState _ .ioWait s).trans (local_queues _ _ _)).trans
      (local_setPc _ (.leaving (.io w)) _)).effect (setPc_self ..) (setState_self ..) ?_
    rw [hpc, hpending]
    exact .ioWait

theorem effect_sleep {secs : Nat} (hpc : s.pc s.current = .run) (hs : s.sleep secs = some s') :
    Effect (.sleep secs) s s' t := by
  unfold Scheduler.sleep at hs
  split at hs
  · cases hs
  obtain rfl := Option.some.inj hs
  exact (((local_sleepTil _ secs s).trans (local_queues _ _ _)).trans
    ((local_makeWait _ _).trans (local_setPc _ (.leaving .sleep) _))).effect (setPc_self ..)
    (setState_self ..) (hpc ▸ .sleep)

/-- Every step, for every thread; one that it creates is outside the calls. -/
theorem Inv.effect (h : s.Inv rs ws) (hs : s.step e = some s') (t : Tid) :
    Effect e s s' t ∨ (spawns e = true ∧ s'.pc t = .run) := by
  cases step_taken hs with
  | fork => exact (spawned_newThread _ _ _ _ _ s).effect.imp_right (⟨rfl, ·⟩)
  | spawnInit => exact (spawned_newThread _ _ _ _ _ s).effect.imp_right (⟨rfl, ·⟩)
  | sleep hpc hs => exact .inl (effect_sleep hpc hs)
  | @startIo w hpc =>
    exact .inl (((local_setState _ .ioPending s).trans (local_setPc _ (.started w) _)).effect
      (setPc_self ..) (setState_self ..) (hpc ▸ .startIo))
  | registerBuffer hpc =>
    unfold Scheduler.registerBuffer
    split
    · exact .inl (effect_setPc (hpc ▸ .full))
    · exact .inl ((effect_setPc (hpc ▸ .register)).congr rfl rfl rfl)
  | registerQueue hpc => exact .inl ((effect_setPc (hpc ▸ .register)).congr rfl rfl rfl)
  | ioWait hpc hs => exact .inl (effect_ioWait hpc hs)
  | exit hpc hs =>
    obtain ⟨hl, hpc', -⟩ := h.exit_spec hpc hs
    exact .inl (hl.effect hpc' rfl (hpc ▸ .exit))
  | yield hpc hs => exact .inl (quiet_switchThread hs).effect
  | @switch c _ hpc hs =>
    have hset : Effect .switch s (s.setPc s.current (.away c)) t := effect_setPc (hpc ▸ .switch)
    have hq := quiet_switchThread hs
    exact .inl (hset.congr hq.created hq.pc (switchThread_threads hs))
  | resume hpc => exact .inl (effect_setPc (hpc ▸ .resume))
  | timer hs => exact .inl (quiet_timer hs).effect
  | @setFull b => exact .inl (effect_setFull b)
  | @wake q => exact .inl (effect_wake q)

/-! ## Waiting on a source -/

/-- The thread is in a `wait` on the source. -/
def Engaged (s : Scheduler) (t : Tid) (w : Source) : Prop :=
  s.pc t = .started w ∨ s.WaitsOn t w

theorem Blocked.engaged {w : Source} (h : Blocked (s.pc t) (s.threads t).state w) :
    s.Engaged t w := by
  obtain ⟨hpc, -⟩ | ⟨hpc | hpc, -⟩ := h
  · exact .inr (.inl hpc)
  · exact .inr (.inr (.inl hpc))
  · exact .inr (.inr (.inr hpc))

theorem not_engaged_of_run (h : s.pc t = .run) (w : Source) : ¬s.Engaged t w := by
  simp [Engaged, WaitsOn, h]

/-- A thread comes to the first step of a `wait` by `start_io` only. -/
theorem Effect.started {w : Source} (h : Effect e s s' t) (hpc : s'.pc t = .started w) :
    s.pc t = .started w ∨ (t = s.current ∧ e = .startIo w) := by
  rcases h.moves with ⟨heq, -⟩ | ⟨ht, hm⟩
  · exact .inl (heq ▸ hpc)
  · rw [hpc] at hm
    exact .inr ⟨ht, hm.to_started⟩

theorem Effect.blocked {w : Source} (h : Effect e s s' t)
    (hb : Blocked (s'.pc t) (s'.threads t).state w) :
    Blocked (s.pc t) (s.threads t).state w ∨ s.pc t = .started w := by
  rcases h.moves with ⟨heq, hst | hst⟩ | ⟨-, hm⟩
  · rw [heq, hst] at hb
    exact .inl hb
  · rw [hst] at hb
    exact absurd hb (not_blocked_ready _ _)
  · exact hm.blocked hb

theorem Effect.engaged {w : Source} (h : Effect e s s' t) (he : s'.Engaged t w) :
    s.Engaged t w ∨ (t = s.current ∧ e = .startIo w) := by
  rcases h.moves with ⟨heq, -⟩ | ⟨ht, hm⟩
  · rw [Engaged, WaitsOn, heq] at he
    exact .inl he
  · unfold Engaged WaitsOn at he ⊢
    generalize s.pc t = pc, (s.threads t).state = st, s'.pc t = pc', (s'.threads t).state = st'
      at hm he ⊢
    rcases he with rfl | rfl | rfl | rfl
    · cases hm
      exact .inr ⟨ht, rfl⟩
    · cases hm
      exact .inl (.inl rfl)
    · cases hm
      exact .inl (.inr (.inl rfl))
    · cases hm
      exact .inl (.inr (.inr (.inl rfl)))

end

/-! ## What only new threads change -/

/-- The threads there are, and the processes they belong to. -/
structure Steady (s s' : Scheduler) : Prop where
  created : s'.created = s.created
  pid : s'.pid = s.pid
  idle : s'.idleThread = s.idleThread
  process : ∀ t, (s'.threads t).process = (s.threads t).process

section

variable {s s' s'' : Scheduler} {rs ws : List Tid} {e : Event} {t : Tid}

theorem Steady.refl (s : Scheduler) : Steady s s := ⟨rfl, rfl, rfl, fun _ => rfl⟩

theorem Steady.trans (h : Steady s s') (h' : Steady s' s'') : Steady s s'' :=
  ⟨h'.created.trans h.created, h'.pid.trans h.pid, h'.idle.trans h.idle,
    fun t => (h'.process t).trans (h.process t)⟩

theorem Local.steady (h : Local t s s') : Steady s s' := by
  refine ⟨h.created, h.pid, h.idle, fun u => ?_⟩
  by_cases hu : u = t
  · rw [hu, h.process]
  · rw [h.threads u hu]

theorem steady_switchThread (hs : s.switchThread = some s') : Steady s s' := by
  obtain ⟨n, -, rfl⟩ := Option.map_eq_some_iff.1 hs
  split
  · exact .refl s
  split <;> exact ⟨rfl, rfl, rfl, fun _ => rfl⟩

theorem steady_timer (hs : s.timer = some s') : Steady s s' := by
  obtain ⟨⟨s₁, schedule⟩, hwake, hs⟩ := Option.bind_eq_some_iff.1 hs
  have htick : Steady s { s with ticks := add32 s.ticks 1 } := ⟨rfl, rfl, rfl, fun _ => rfl⟩
  have hwoken := wakeSleepers_invariant
    (P := Steady ({ s with ticks := add32 s.ticks 1 } : Scheduler)) (fun x u hx =>
      hx.trans ((local_queues u _ x).steady.trans (local_makeReady u _).steady)) hwake (.refl _)
  split at hs
  · exact (htick.trans hwoken).trans (steady_switchThread hs)
  · exact Option.some.inj hs ▸ htick.trans hwoken

theorem Inv.steady (h : s.Inv rs ws) (hs : s.step e = some s') (he : spawns e = false) :
    Steady s s' := by
  cases step_taken hs with
  | fork => cases he
  | spawnInit => cases he
  | @sleep secs _ hpc hs =>
    obtain ⟨-, ⟨⟩⟩ := Option.ite_none_left_eq_some.1 hs
    exact (((local_sleepTil _ secs s).trans (local_queues _ _ _)).trans
      ((local_makeWait _ _).trans (local_setPc _ _ _))).steady
  | startIo hpc => exact ((local_setState _ .ioPending s).trans (local_setPc _ _ _)).steady
  | registerBuffer hpc =>
    unfold Scheduler.registerBuffer
    split <;> exact ⟨rfl, rfl, rfl, fun _ => rfl⟩
  | registerQueue hpc => exact ⟨rfl, rfl, rfl, fun _ => rfl⟩
  | ioWait hpc hs =>
    unfold Scheduler.ioWait at hs
    obtain ⟨-, hs⟩ := Option.ite_none_left_eq_some.1 hs
    dsimp only at hs
    split at hs
    · exact Option.some.inj hs ▸ (local_setPc _ _ s).steady
    · exact Option.some.inj hs ▸ (((local_setState _ .ioWait s).trans (local_queues _ _ _)).trans
        (local_setPc _ _ _)).steady
  | exit hpc hs => exact (h.exit_spec hpc hs).1.steady
  | yield hpc hs => exact steady_switchThread hs
  | switch hpc hs => exact (local_setPc _ _ s).steady.trans (steady_switchThread hs)
  | resume hpc => exact (local_setPc _ _ s).steady
  | timer hs => exact steady_timer hs
  | @setFull b hfull =>
    have hmark : Steady s (s.markFull b) := ⟨rfl, rfl, rfl, fun _ => rfl⟩
    unfold Scheduler.setFull
    split
    · exact hmark.trans (local_makeReady _ _).steady
    · exact hmark
  | @wake q =>
    unfold Scheduler.wake
    split
    · exact .refl s
    · next u us _ =>
      have hshift : Steady s { s with waitQueues := Function.update s.waitQueues q us } :=
        ⟨rfl, rfl, rfl, fun _ => rfl⟩
      exact hshift.trans (local_makeReady _ _).steady

end

end Scheduler

end Ulysses
