import Ulysses.Scheduler.Consistent

/-!
# Wake-ups

A thread that is blocked on a source should be one that the source will wake up
(`Held`). A wait queue keeps all its threads, so it holds every thread that waits on
it. A buffer has one slot, `waiting_task_`, and a second thread that registers takes
it from the first: when the buffer becomes full, the first thread stays in `eIOWait`
(`second_waiter_lost`). Where each thread finds the slot free, no wake-up is lost
(`no_lost_wakeup`).
-/

namespace Ulysses

open Lib

namespace Scheduler

/-- Every thread that is blocked on the source is going to be woken up by it. -/
def Held (s : Scheduler) (w : Source) : Prop :=
  ∀ t ∈ s.created, Blocked (s.pc t) (s.threads t).state w → s.Waiter t w

section

variable {s s' : Scheduler} {rs ws : List Tid} {w : Source}

/-! ## Steps that leave the sources alone -/

theorem Held.local {t : Tid} (h : s.Held w) (hl : Local t s s')
    (ht : Blocked (s'.pc t) (s'.threads t).state w → s.Waiter t w) : s'.Held w := by
  intro u hu hb
  rw [hl.created] at hu
  rw [hl.waiter]
  by_cases hut : u = t
  · subst hut
    exact ht hb
  · rw [hl.pc u hut, hl.threads u hut] at hb
    exact h u hu hb

theorem not_blocked_ready (pc : Pc) (w : Source) : ¬Blocked pc .ready w := by
  simp [Blocked]

/-- Threads may become ready and the current thread may change. -/
structure Quiet (s s' : Scheduler) : Prop where
  created : s'.created = s.created
  pc : s'.pc = s.pc
  buffers : s'.buffers = s.buffers
  waitQueues : s'.waitQueues = s.waitQueues
  state : ∀ t, (s'.threads t).state = (s.threads t).state ∨ (s'.threads t).state = .ready

theorem Quiet.refl (s : Scheduler) : Quiet s s := ⟨rfl, rfl, rfl, rfl, fun _ => .inl rfl⟩

theorem Quiet.trans {s₁ s₂ s₃ : Scheduler} (h₁ : Quiet s₁ s₂) (h₂ : Quiet s₂ s₃) : Quiet s₁ s₃ where
  created := h₂.created.trans h₁.created
  pc := h₂.pc.trans h₁.pc
  buffers := h₂.buffers.trans h₁.buffers
  waitQueues := h₂.waitQueues.trans h₁.waitQueues
  state t := (h₂.state t).elim (fun heq => heq ▸ h₁.state t) .inr

theorem Held.quiet (h : s.Held w) (hq : Quiet s s') : s'.Held w := by
  intro t ht hb
  rw [hq.created] at ht
  rw [hq.pc] at hb
  have hw : s'.Waiter t w ↔ s.Waiter t w := by
    cases w with
    | buffer b => simp only [Waiter, hq.buffers]
    | queue q => simp only [Waiter, hq.waitQueues]
  rw [hw]
  rcases hq.state t with hst | hst
  · exact h t ht (hst ▸ hb)
  · rw [hst] at hb
    exact absurd hb (not_blocked_ready _ _)

theorem quiet_makeReady (t : Tid) (s : Scheduler) : Quiet s (s.makeReady t) := by
  refine ⟨rfl, rfl, rfl, rfl, fun u => ?_⟩
  by_cases hu : u = t
  · subst hu
    exact .inr (setState_self ..)
  · rw [(local_makeReady t s).threads u hu]
    exact .inl rfl

theorem quiet_switchThread (hs : s.switchThread = some s') : Quiet s s' := by
  obtain ⟨n, -, rfl⟩ := Option.map_eq_some_iff.1 hs
  split
  · exact .refl s
  split
  · exact ⟨rfl, rfl, rfl, rfl, fun _ => .inl rfl⟩
  · exact ⟨rfl, rfl, rfl, rfl, fun _ => .inl rfl⟩

theorem quiet_wakeSleepers {n : Nat} {node : Option Tid} {st r : Scheduler × Bool}
    (h : wakeSleepers n node st = some r) : Quiet st.1 r.1 := by
  refine wakeSleepers_invariant (P := Quiet st.1) (fun s t hq => ?_) h (.refl _)
  have hwait : Quiet s (s.removeFromWaiting t) := ⟨rfl, rfl, rfl, rfl, fun _ => .inl rfl⟩
  exact hq.trans (hwait.trans (quiet_makeReady t _))

theorem quiet_timer (hs : s.timer = some s') : Quiet s s' := by
  obtain ⟨⟨s₁, schedule⟩, hwake, hs⟩ := Option.bind_eq_some_iff.1 hs
  have htick : Quiet s { s with ticks := add32 s.ticks 1 } :=
    ⟨rfl, rfl, rfl, rfl, fun _ => .inl rfl⟩
  have hq := htick.trans (quiet_wakeSleepers hwake)
  split at hs
  · exact hq.trans (quiet_switchThread hs)
  · exact Option.some.inj hs ▸ hq

/-! ## Steps of the current thread -/

theorem Held.spawned {t : Tid} {p : Nat} (h : s.Held w) (hsp : Spawned t p s s')
    (hnew : t ∉ s.created) : s'.Held w := by
  intro u hu hb
  have hw : s'.Waiter u w ↔ s.Waiter u w := by
    cases w with
    | buffer b => simp only [Waiter, hsp.buffers]
    | queue q => simp only [Waiter, hsp.waitQueues]
  rw [hsp.created, List.mem_cons] at hu
  rw [hw]
  rcases hu with rfl | hu
  · rw [hsp.self] at hb
    exact absurd hb (not_blocked_ready _ _)
  · have hne : u ≠ t := fun heq => hnew (heq ▸ hu)
    rw [hsp.pc u hne, hsp.threads u hne] at hb
    exact h u hu hb

theorem Held.sleep (h : s.Held w) {secs : Nat} (hs : s.sleep secs = some s') : s'.Held w := by
  unfold Scheduler.sleep at hs
  split at hs
  · cases hs
  obtain rfl := Option.some.inj hs
  refine h.local (((local_sleepTil _ secs s).trans (local_queues _ _ _)).trans
    ((local_makeWait _ _).trans (local_setPc _ _ _))) fun hb => ?_
  rw [setPc_self] at hb
  simp [Blocked] at hb

theorem Held.startIo (h : s.Held w) (w' : Source) : (s.startIo w').Held w := by
  refine h.local ((local_setState _ .ioPending s).trans (local_setPc _ (.started w') _))
    fun hb => ?_
  unfold Scheduler.startIo at hb
  rw [setPc_self] at hb
  simp [Blocked] at hb

theorem Held.setPcRun (h : s.Held w) (t : Tid) : (s.setPc t .run).Held w := by
  refine h.local (local_setPc t .run s) fun hb => ?_
  rw [setPc_self] at hb
  simp [Blocked] at hb

theorem Held.ioWait (h : s.Held w) (hinv : s.Inv rs ws) {w' : Source}
    (hpc : s.pc s.current = .registered w') (hs : s.ioWait w' = some s') : s'.Held w := by
  unfold Scheduler.ioWait at hs
  split at hs
  · cases hs
  simp only at hs
  split at hs
  · exact Option.some.inj hs ▸ h.setPcRun s.current
  next hpending =>
  rw [ne_eq, not_not] at hpending
  obtain rfl := Option.some.inj hs
  refine h.local (((local_setState _ .ioWait s).trans (local_queues _ _ _)).trans
    (local_setPc _ _ _)) fun hb => h _ hinv.current ?_
  rw [setPc_self] at hb
  have hw : w' = w := by simpa [Blocked] using hb.elim (fun hb => by simp at hb) And.left
  exact .inl ⟨hw ▸ hpc, hpending⟩

theorem Held.switch (h : s.Held w) (hinv : s.Inv rs ws) {c : Call}
    (hpc : s.pc s.current = .leaving c)
    (hs : (s.setPc s.current (.away c)).switchThread = some s') : s'.Held w := by
  refine Held.quiet ?_ (quiet_switchThread hs)
  refine h.local (local_setPc _ _ s) fun hb => h _ hinv.current ?_
  rw [setPc_self] at hb
  obtain ⟨hb, -⟩ | ⟨hb | hb, hst⟩ := hb
  · cases hb
  · cases hb
  · cases hb
    exact .inr ⟨.inl hpc, hst⟩

/-! ## Registering -/

theorem Waiter.buffer_ne {b b' : Nat} (hb : b' ≠ b) (x : BlockBuffer) (t : Tid) :
    ({ s with buffers := Function.update s.buffers b x } : Scheduler).Waiter t (.buffer b') ↔
      s.Waiter t (.buffer b') := by
  simp only [Waiter, Function.update_of_ne hb]

theorem Waiter.queue_ne {q q' : Nat} (hq : q' ≠ q) (l : List Tid) (t : Tid) :
    ({ s with waitQueues := Function.update s.waitQueues q l } : Scheduler).Waiter t (.queue q') ↔
      s.Waiter t (.queue q') := by
  simp only [Waiter, Function.update_of_ne hq]

/-- The waiter's slot of the buffer is free for the current thread. -/
def SlotFree (s : Scheduler) (b : Nat) : Prop :=
  (s.buffers b).waitingTask = none ∨ (s.buffers b).waitingTask = some s.current

instance (s : Scheduler) (b : Nat) : Decidable (s.SlotFree b) :=
  inferInstanceAs (Decidable (_ ∨ _))

/-- Only the current thread can be blocked on a source it registers with, besides those
that were. -/
theorem blocked_of_registered {w' : Source} {t : Tid}
    (hb : Blocked ((s.setPc s.current (.registered w')).pc t) (s.threads t).state w) :
    (t = s.current ∧ w = w') ∨ (t ≠ s.current ∧ Blocked (s.pc t) (s.threads t).state w) := by
  by_cases ht : t = s.current
  · subst ht
    rw [setPc_self] at hb
    simp only [Blocked, Pc.registered.injEq, reduceCtorEq, or_false, false_and] at hb
    exact .inl ⟨rfl, hb.1.symm⟩
  · rw [(local_setPc _ _ s).pc t ht] at hb
    exact .inr ⟨ht, hb⟩

theorem Held.registerBuffer (h : s.Held w) {b : Nat}
    (hslot : w = .buffer b → (s.buffers b).full = false → s.SlotFree b) :
    (s.registerBuffer b).Held w := by
  unfold Scheduler.registerBuffer
  split
  · exact h.setPcRun s.current
  next hfull =>
  rw [Bool.not_eq_true] at hfull
  intro t ht hb
  rcases blocked_of_registered hb with ⟨rfl, rfl⟩ | ⟨hne, hb⟩
  · simp [Waiter, hfull]
  · have hw := h t ht hb
    by_cases heq : w = .buffer b
    · subst heq
      -- the slot is taken by `t`
      rcases hslot rfl hfull with hnone | hcur
      · simp [Waiter, hnone] at hw
      · exact absurd (Option.some.inj (hw.2.symm.trans hcur)) hne
    · cases w with
      | buffer b' => exact (Waiter.buffer_ne (by simpa using heq) _ t).2 hw
      | queue q => exact hw

theorem Held.registerQueue (h : s.Held w) (q : Nat) : (s.registerQueue q).Held w := by
  intro t ht hb
  rcases blocked_of_registered hb with ⟨rfl, rfl⟩ | ⟨-, hb⟩
  · simp [Waiter, Scheduler.registerQueue]
  · have hw := h t ht hb
    cases w with
    | buffer b => exact hw
    | queue q' =>
      by_cases hq : q' = q
      · subst hq
        simp only [Waiter, Scheduler.registerQueue, Function.update_self]
        exact List.mem_append_left _ hw
      · exact (Waiter.queue_ne hq _ t).2 hw

/-! ## Waking up -/

theorem blocked_makeReady {t u : Tid}
    (hb : Blocked ((s.makeReady t).pc u) ((s.makeReady t).threads u).state w) :
    u ≠ t ∧ Blocked (s.pc u) (s.threads u).state w := by
  have hne : u ≠ t := by
    rintro rfl
    have hst : ((s.makeReady u).threads u).state = .ready := setState_self ..
    rw [hst] at hb
    exact not_blocked_ready _ _ hb
  rw [(local_makeReady t s).pc u hne, (local_makeReady t s).threads u hne] at hb
  exact ⟨hne, hb⟩

theorem Held.setFull (h : s.Held w) (b : Nat) : (s.setFull b).Held w := by
  have hmark : ∀ t, s.Waiter t w → w ≠ .buffer b → (s.markFull b).Waiter t w := by
    intro t hw heq
    cases w with
    | buffer b' => exact (Waiter.buffer_ne (by simpa using heq) _ t).2 hw
    | queue q => exact hw
  unfold Scheduler.setFull
  split
  · next t hslot =>
    intro u hu hb
    obtain ⟨hne, hb⟩ := blocked_makeReady hb
    have hw := h u hu hb
    refine ((local_makeReady t _).waiter u w).2 (hmark u hw ?_)
    rintro rfl
    exact hne (Option.some.inj (hw.2.symm.trans hslot))
  · next hslot =>
    intro u hu hb
    have hw := h u hu hb
    refine hmark u hw ?_
    rintro rfl
    exact absurd (hw.2.symm.trans hslot) (by simp)

theorem Held.wake (h : s.Held w) (q : Nat) : (s.wake q).Held w := by
  unfold Scheduler.wake
  split
  · exact h
  next t ts hq =>
  intro u hu hb
  obtain ⟨hne, hb⟩ := blocked_makeReady hb
  have hw := h u hu hb
  refine ((local_makeReady t _).waiter u w).2 ?_
  cases w with
  | buffer b => exact hw
  | queue q' =>
    by_cases heq : q' = q
    · subst heq
      simp only [Waiter, hq, List.mem_cons, Function.update_self] at hw ⊢
      exact hw.resolve_left hne
    · exact (Waiter.queue_ne heq _ u).2 hw

/-! ## Runs -/

/-- A source keeps the threads that are blocked on it; a buffer does as long as nobody
registers in a slot that is taken. -/
theorem Held.step (h : s.Held w) (hinv : s.Inv rs ws) {e : Event} (hs : s.step e = some s')
    (hslot : ∀ b, w = .buffer b → e = .register → s.pc s.current = .started w →
      (s.buffers b).full = false → s.SlotFree b) : s'.Held w := by
  cases step_taken hs with
  | fork hpc hfresh hpid => exact h.spawned (spawned_newThread _ _ _ _ _ s) hfresh.1
  | spawnInit hpc hfresh => exact h.spawned (spawned_newThread _ _ _ _ _ s) hfresh.1
  | sleep hpc hs => exact h.sleep hs
  | @startIo w' => exact h.startIo w'
  | @registerBuffer b hpc => exact h.registerBuffer fun hw => hslot b hw rfl (hw ▸ hpc)
  | @registerQueue q => exact h.registerQueue q
  | ioWait hpc hs => exact h.ioWait hinv hpc hs
  | exit hpc hs =>
    obtain ⟨hl, hpc', -⟩ := hinv.exit_spec hpc hs
    exact h.local hl fun hb => by simp [Blocked, hpc'] at hb
  | yield hpc hs => exact h.quiet (quiet_switchThread hs)
  | switch hpc hs => exact h.switch hinv hpc hs
  | resume => exact h.setPcRun s.current
  | timer hs => exact h.quiet (quiet_timer hs)
  | @setFull b => exact h.setFull b
  | @wake q => exact h.wake q

theorem Booted.held (h : s.Booted) (w : Source) : s.Held w := by
  intro t ht hb
  rw [h.created, List.mem_singleton] at ht
  rw [ht, h.idle.2.2] at hb
  simp [Blocked] at hb

end

/-! ## Buffers -/

/-- Whoever registers with a buffer that is not full finds its slot free. -/
def FindsSlot (s : Scheduler) (e : Event) : Prop :=
  match e, s.pc s.current with
  | .register, .started (.buffer b) => (s.buffers b).full = false → s.SlotFree b
  | _, _ => True

instance (s : Scheduler) (e : Event) : Decidable (s.FindsSlot e) := by
  unfold FindsSlot
  split <;> infer_instance

/-- One step of a run in which `FindsSlot` holds. -/
def SlotStep (s s' : Scheduler) : Prop := ∃ e, s.FindsSlot e ∧ s.step e = some s'

/-- The thread has registered with the source and has not returned. -/
def WaitsOn (s : Scheduler) (t : Tid) (w : Source) : Prop :=
  s.pc t = .registered w ∨ s.pc t = .leaving (.io w) ∨ s.pc t = .away (.io w)

/-- The thread is in the ready queue. -/
def InReady (s : Scheduler) (t : Tid) : Prop :=
  ∃ rs, s.queues.ready.Rep s.queues.nodes rs ∧ t ∈ rs

/-- A buffer is full, and a thread that waits for it is in `eIOWait` outside the ready
queue. -/
def LostWakeup (s : Scheduler) : Prop :=
  ∃ b, ∃ t ∈ s.created, (s.buffers b).full = true ∧ s.WaitsOn t (.buffer b) ∧
    (s.threads t).state = .ioWait ∧ ¬s.InReady t

/-- A thread in `eIOWait` is blocked on what it waits for. -/
theorem Core.blocked {s : Scheduler} {rs ws : List Tid} (h : s.Core rs ws) {t : Tid}
    (ht : t ∈ s.created) {w : Source} (hw : s.WaitsOn t w) (hst : (s.threads t).state = .ioWait) :
    Blocked (s.pc t) (s.threads t).state w := by
  have hrow := h.row t ht
  rcases hw with hpc | hpc | hpc
  · rw [hpc, hst] at hrow
    exact absurd hrow.1 (by simp)
  · exact .inr ⟨.inl hpc, hst⟩
  · exact .inr ⟨.inr hpc, hst⟩

/-- When every thread finds the slot of its buffer free, no wake-up is lost in any
state of a run. -/
theorem no_lost_wakeup {s : Scheduler} (h : Reach Booted SlotStep s) : ¬s.LostWakeup := by
  obtain ⟨⟨rs, ws, hinv⟩, hheld⟩ := h.invariant
    (I := fun s => (∃ rs ws, s.Inv rs ws) ∧ ∀ b, s.Held (.buffer b))
    (fun _ hb => ⟨⟨[], [], hb.inv⟩, fun _ => hb.held _⟩)
    (fun x y ⟨⟨rs, ws, hinv⟩, hheld⟩ ⟨e, hok, hs⟩ => ⟨hinv.step hs, fun b =>
      (hheld b).step hinv hs fun b' hw hreg hpc => by simpa [FindsSlot, hreg, hpc, hw] using hok⟩)
  rintro ⟨b, t, ht, hfull, hw, hst, -⟩
  have hwaiter := hheld b t ht (hinv.blocked ht hw hst)
  rw [hwaiter.1] at hfull
  cases hfull

/-- A run from boot in which every step meets `FindsSlot`. -/
def runSlots (es : List Event) : Option Scheduler :=
  es.foldlM (fun s e => if s.FindsSlot e then s.step e else none) atBoot

theorem reach_runSlots {s : Scheduler} {es : List Event} (h : runSlots es = some s) :
    Reach Booted SlotStep s :=
  Reach.foldlM (fun _ e _ hs => ⟨e, Option.ite_none_right_eq_some.1 hs⟩) (.init booted_atBoot) h

/-- A thread reads a block, and a second one reads it when it is there. -/
theorem no_lost_wakeup_one_reader :
    ∃ s, runSlots [.spawnInit 2 1 .dead, .yield, .fork 3 2 2 .dead, .startIo (.buffer 0),
        .register, .ioWait, .switch, .setFull 0, .startIo (.buffer 0), .register, .yield,
        .resume] = some s ∧
      (s.buffers 0).full = true ∧ s.current = 2 ∧ ¬s.LostWakeup := by
  have hrun : (runSlots [.spawnInit 2 1 .dead, .yield, .fork 3 2 2 .dead, .startIo (.buffer 0),
      .register, .ioWait, .switch, .setFull 0, .startIo (.buffer 0), .register, .yield,
      .resume]).map (fun s => ((s.buffers 0).full, s.current)) = some (true, 2) := by
    decide +kernel
  obtain ⟨s, hs, heq⟩ := Option.map_eq_some_iff.1 hrun
  obtain ⟨hfull, hcur⟩ := Prod.mk.inj heq
  exact ⟨s, hs, hfull, hcur, no_lost_wakeup (reach_runSlots hs)⟩

/-- Two threads wait for one buffer; the completion wakes up the second only. -/
theorem second_waiter_lost : ∃ s, Reach Booted Step s ∧ s.LostWakeup := by
  have hrun : (atBoot.runAll [.spawnInit 2 1 .dead, .yield, .fork 3 2 2 .dead,
      .startIo (.buffer 0), .register, .ioWait, .switch, .startIo (.buffer 0), .register, .ioWait,
      .switch, .setFull 0]).map (fun s => (decide (2 ∈ s.created), (s.buffers 0).full, s.pc 2,
        (s.threads 2).state, (s.queues.nodes 2).linked)) =
      some (true, true, .away (.io (.buffer 0)), .ioWait, false) := by
    decide +kernel
  obtain ⟨s, hs, heq⟩ := Option.map_eq_some_iff.1 hrun
  simp only [Prod.mk.injEq, decide_eq_true_eq] at heq
  obtain ⟨hmem, hfull, hpc, hst, hlinked⟩ := heq
  refine ⟨s, reach_runAll (.init booted_atBoot) hs, 0, 2, hmem, hfull, .inr (.inr hpc), hst, ?_⟩
  rintro ⟨rs, hrep, hr⟩
  rw [hrep.links.linked hr] at hlinked
  cases hlinked

end Scheduler

end Ulysses
