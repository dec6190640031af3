import Ulysses.Scheduler.RunQueues

/-!
# What the threads are doing

What a thread may be doing when it is in a run queue, or in none, is a table over
its `pc` (`Row`). A step changes the row of one thread and moves this thread
accordingly (`Core.step`). A thread that a buffer or a wait queue is to wake up is on its
way into `io_wait` or inside it, so it is not asleep (`Blocked`).
-/

namespace Ulysses

open Lib

namespace Scheduler

/-! ## What a thread is doing -/

/-- The states a thread may have at its `pc`, and the lists it may then be in. -/
def Row (pc : Pc) (st : ThreadState) (ready waiting : Prop) : Prop :=
  match pc with
  | .run => (st = .ready ∨ st = .ioPending) ∧ ¬waiting
  | .started _ => st = .ioPending ∧ ¬waiting
  | .registered _ => (st = .ready ∨ st = .ioPending) ∧ ¬waiting
  | .leaving .sleep | .away .sleep =>
    (st = .waiting ∧ ¬ready ∧ waiting) ∨ (st = .ready ∧ ready ∧ ¬waiting)
  | .leaving (.io _) | .away (.io _) =>
    (st = .ioWait ∧ ¬ready ∧ ¬waiting) ∨ (st = .ready ∧ ready ∧ ¬waiting)
  | .leaving .exit | .away .exit =>
    (st = .ready ∨ st = .ioPending ∨ st = .dead) ∧ ¬ready ∧ ¬waiting

/-- A source is going to wake the thread up: the buffer is still to be filled, or the
queue has the thread in it. -/
def Waiter (s : Scheduler) (t : Tid) : Source → Prop
  | .buffer b => (s.buffers b).full = false ∧ (s.buffers b).waitingTask = some t
  | .queue q => t ∈ s.waitQueues q

/-- The thread is between registering with the source and being woken up. -/
def Blocked (pc : Pc) (st : ThreadState) (w : Source) : Prop :=
  (pc = .registered w ∧ st = .ioPending) ∨
    ((pc = .leaving (.io w) ∨ pc = .away (.io w)) ∧ st = .ioWait)

theorem Blocked.not_waiting {pc : Pc} {st : ThreadState} {w : Source} {ready waiting : Prop}
    (h : Blocked pc st w) (hrow : Row pc st ready waiting) : ¬waiting := by
  obtain ⟨rfl, rfl⟩ | ⟨rfl | rfl, rfl⟩ := h
  · exact hrow.2
  · exact hrow.elim (fun h => h.2.2) fun h => h.2.2
  · exact hrow.elim (fun h => h.2.2) fun h => h.2.2

/-- Being woken up is a row of the table. -/
theorem Blocked.row {pc : Pc} {st : ThreadState} {w : Source} (h : Blocked pc st w) :
    Row pc .ready True False := by
  obtain ⟨rfl, rfl⟩ | ⟨rfl | rfl, rfl⟩ := h
  · exact ⟨.inl rfl, not_false⟩
  · exact .inr ⟨rfl, trivial, not_false⟩
  · exact .inr ⟨rfl, trivial, not_false⟩

theorem Blocked.unique {pc : Pc} {st : ThreadState} {w w' : Source} (h : Blocked pc st w)
    (h' : Blocked pc st w') : w = w' := by
  obtain ⟨rfl, rfl⟩ | ⟨rfl | rfl, rfl⟩ := h <;> simpa [Blocked] using h'.symm

/-- What holds in every state of a run, and inside `switch_thread`. -/
structure Core (s : Scheduler) (rs ws : List Tid) : Prop where
  queues : s.queues.Ok rs ws
  members : ∀ t, t ∈ rs ∨ t ∈ ws → t ∈ s.created
  row : ∀ t ∈ s.created, Row (s.pc t) (s.threads t).state (t ∈ rs) (t ∈ ws)
  current : s.current ∈ s.created
  idle_mem : s.idleThread ∈ s.created
  idle_pid : s.pid (s.threads s.idleThread).process = 0
  idle_pc : ∀ c, s.pc s.idleThread ≠ .leaving c ∧ s.pc s.idleThread ≠ .away c
  waiter : ∀ t w, s.Waiter t w → t ∈ s.created ∧ Blocked (s.pc t) (s.threads t).state w
  waitQueues : ∀ q, (s.waitQueues q).Nodup
  processes : ∀ p, ∀ t ∈ s.threadsOf p, t ∈ s.created ∧ (s.threads t).process = p
  single : ∀ t ∈ s.created, ∀ u ∈ s.created,
    (s.threads t).process = (s.threads u).process → t = u

/-- What holds in every state of a run: besides, a thread that runs again after a call
was in the ready queue. -/
structure Inv (s : Scheduler) (rs ws : List Tid) : Prop extends Core s rs ws where
  returned : ∀ c, s.pc s.current = .away c → s.current ∈ rs

theorem Booted.inv {s : Scheduler} (h : s.Booted) : s.Inv [] [] := by
  obtain ⟨hpid, hstate, hpc⟩ := h.idle
  have hmem : ∀ t, t ∈ s.created ↔ t = s.idleThread := fun t => by simp [h.created]
  refine ⟨⟨⟨?_, ?_, ?_, ?_⟩, ?_, ?_, ?_, ?_, hpid, ?_, ?_, ?_, ?_, ?_⟩, ?_⟩
  · rw [h.ready]
    exact LinkedList.rep_empty _
  · rw [h.waiting]
    exact LinkedList.rep_empty _
  · exact fun t ht => absurd ht (by simp)
  · intro t ht
    rw [h.nodes] at ht
    cases ht
  · exact fun t ht => absurd ht (by simp)
  · intro t ht
    rw [(hmem t).1 ht, hpc, hstate]
    exact ⟨.inl rfl, by simp⟩
  · exact (hmem _).2 h.current
  · exact (hmem _).2 rfl
  · exact fun c => by simp [hpc]
  · intro t w hw
    cases w with
    | buffer b => simp [Waiter, h.buffers] at hw
    | queue q => simp [Waiter, h.waitQueues] at hw
  · exact fun q => by simp [h.waitQueues]
  · exact fun p t ht => by simp [h.threadsOf] at ht
  · intro t ht u hu _
    rw [(hmem t).1 ht, (hmem u).1 hu]
  · intro c hc
    rw [h.current, hpc] at hc
    cases hc

/-! ## Steps that concern one thread -/

/-- Apart from the run queues, only the thread `t` changes. -/
structure Local (t : Tid) (s s' : Scheduler) : Prop where
  created : s'.created = s.created
  current : s'.current = s.current
  idle : s'.idleThread = s.idleThread
  pid : s'.pid = s.pid
  threadsOf : s'.threadsOf = s.threadsOf
  buffers : s'.buffers = s.buffers
  waitQueues : s'.waitQueues = s.waitQueues
  pc : ∀ u, u ≠ t → s'.pc u = s.pc u
  threads : ∀ u, u ≠ t → s'.threads u = s.threads u
  process : (s'.threads t).process = (s.threads t).process

theorem Local.trans {t : Tid} {s₁ s₂ s₃ : Scheduler} (h₁ : Local t s₁ s₂) (h₂ : Local t s₂ s₃) :
    Local t s₁ s₃ where
  created := h₂.created.trans h₁.created
  current := h₂.current.trans h₁.current
  idle := h₂.idle.trans h₁.idle
  pid := h₂.pid.trans h₁.pid
  threadsOf := h₂.threadsOf.trans h₁.threadsOf
  buffers := h₂.buffers.trans h₁.buffers
  waitQueues := h₂.waitQueues.trans h₁.waitQueues
  pc u hu := (h₂.pc u hu).trans (h₁.pc u hu)
  threads u hu := (h₂.threads u hu).trans (h₁.threads u hu)
  process := h₂.process.trans h₁.process

theorem local_queues (t : Tid) (q : RunQueues) (s : Scheduler) :
    Local t s { s with queues := q } :=
  ⟨rfl, rfl, rfl, rfl, rfl, rfl, rfl, fun _ _ => rfl, fun _ _ => rfl, rfl⟩

theorem local_setState (t : Tid) (st : ThreadState) (s : Scheduler) :
    Local t s (s.setState t st) :=
  ⟨rfl, rfl, rfl, rfl, rfl, rfl, rfl, fun _ _ => rfl, fun _ hu => Function.update_of_ne hu _ _,
    by simp [setState]⟩

theorem local_setPc (t : Tid) (pc : Pc) (s : Scheduler) : Local t s (s.setPc t pc) :=
  ⟨rfl, rfl, rfl, rfl, rfl, rfl, rfl, fun _ hu => Function.update_of_ne hu _ _, fun _ _ => rfl,
    rfl⟩

theorem local_sleepTil (t : Tid) (secs : Nat) (s : Scheduler) : Local t s (s.sleepTil t secs) :=
  ⟨rfl, rfl, rfl, rfl, rfl, rfl, rfl, fun _ _ => rfl, fun _ hu => Function.update_of_ne hu _ _,
    by simp [sleepTil]⟩

theorem local_makeReady (t : Tid) (s : Scheduler) : Local t s (s.makeReady t) :=
  (local_setState t .ready s).trans (local_queues t _ _)

theorem local_makeWait (t : Tid) (s : Scheduler) : Local t s (s.makeWait t) :=
  (local_setState t .waiting s).trans (local_queues t _ _)

theorem setPc_self (t : Tid) (pc : Pc) (s : Scheduler) : (s.setPc t pc).pc t = pc :=
  Function.update_self ..

theorem setState_self (t : Tid) (st : ThreadState) (s : Scheduler) :
    ((s.setState t st).threads t).state = st := by
  simp [setState]

/-- A new thread `t` of the process `p` is ready; the other threads and the sources are
as before. -/
structure Spawned (t : Tid) (p : Nat) (s s' : Scheduler) : Prop where
  created : s'.created = t :: s.created
  current : s'.current = s.current
  idle : s'.idleThread = s.idleThread
  buffers : s'.buffers = s.buffers
  waitQueues : s'.waitQueues = s.waitQueues
  pc : ∀ u, u ≠ t → s'.pc u = s.pc u
  threads : ∀ u, u ≠ t → s'.threads u = s.threads u
  self_pc : s'.pc t = .run
  self : s'.threads t = ⟨p, .ready, 0⟩

theorem spawned_newThread (t : Tid) (p : Nat) (unset : ThreadState) (pid : Nat → Nat)
    (threadsOf : Nat → List Tid) (s : Scheduler) :
    Spawned t p s (({ s.newThread t p unset with pid, threadsOf } : Scheduler).makeReady t) where
  created := rfl
  current := rfl
  idle := rfl
  buffers := rfl
  waitQueues := rfl
  pc _ hu := Function.update_of_ne hu _ _
  threads _ hu := (Function.update_of_ne hu _ _).trans (Function.update_of_ne hu _ _)
  self_pc := Function.update_self ..
  self := by simp [makeReady, setState, newThread]

section

variable {s s' : Scheduler} {rs ws rs' ws' : List Tid} {t : Tid}

theorem Local.waiter (hl : Local t s s') (u : Tid) (w : Source) : s'.Waiter u w ↔ s.Waiter u w := by
  cases w with
  | buffer b => simp only [Waiter, hl.buffers]
  | queue q => simp only [Waiter, hl.waitQueues]

/-- The thread `t` changes and moves between the lists, into another row of the
table. -/
theorem Core.step (h : s.Core rs ws) (hl : Local t s s') (ht : t ∈ s.created)
    (hready : ∀ u, u ≠ t → (u ∈ rs' ↔ u ∈ rs)) (hwaiting : ∀ u, u ≠ t → (u ∈ ws' ↔ u ∈ ws))
    (hq : s'.queues.Ok rs' ws')
    (hrow : Row (s'.pc t) (s'.threads t).state (t ∈ rs') (t ∈ ws'))
    (hidle : t = s.idleThread → ∀ c, s'.pc t ≠ .leaving c ∧ s'.pc t ≠ .away c)
    (hwaiter : ∀ w, s.Waiter t w → Blocked (s'.pc t) (s'.threads t).state w) :
    s'.Core rs' ws' := by
  have hprocess : ∀ u, (s'.threads u).process = (s.threads u).process := by
    intro u
    by_cases hu : u = t
    · rw [hu, hl.process]
    · rw [hl.threads u hu]
  refine ⟨hq, ?_, ?_, ?_, ?_, ?_, ?_, ?_, ?_, ?_, ?_⟩
  · intro u hu
    rw [hl.created]
    by_cases hut : u = t
    · exact hut ▸ ht
    · rw [hready u hut, hwaiting u hut] at hu
      exact h.members u hu
  · intro u hu
    rw [hl.created] at hu
    by_cases hut : u = t
    · exact hut ▸ hrow
    · rw [hl.pc u hut, hl.threads u hut, hready u hut, hwaiting u hut]
      exact h.row u hu
  · rw [hl.current, hl.created]
    exact h.current
  · rw [hl.idle, hl.created]
    exact h.idle_mem
  · rw [hl.idle, hl.pid, hprocess]
    exact h.idle_pid
  · intro c
    rw [hl.idle]
    by_cases hut : s.idleThread = t
    · rw [hut]
      exact hidle hut.symm c
    · rw [hl.pc _ hut]
      exact h.idle_pc c
  · intro u w hw
    rw [hl.waiter] at hw
    rw [hl.created]
    by_cases hut : u = t
    · subst hut
      exact ⟨ht, hwaiter w hw⟩
    · rw [hl.pc u hut, hl.threads u hut]
      exact h.waiter u w hw
  · rw [hl.waitQueues]
    exact h.waitQueues
  · intro p u hu
    rw [hl.created, hprocess]
    rw [hl.threadsOf] at hu
    exact h.processes p u hu
  · intro u hu v hv
    rw [hl.created] at hu hv
    rw [hprocess, hprocess]
    exact h.single u hu v hv

theorem Inv.local (h : s.Inv rs ws) (hl : Local t s s') (ht : t ∈ s.created)
    (hready : ∀ u, u ≠ t → (u ∈ rs' ↔ u ∈ rs)) (hwaiting : ∀ u, u ≠ t → (u ∈ ws' ↔ u ∈ ws))
    (hq : s'.queues.Ok rs' ws')
    (hrow : Row (s'.pc t) (s'.threads t).state (t ∈ rs') (t ∈ ws'))
    (hreturned : ∀ c, s'.pc t = .away c → t ∈ rs')
    (hidle : t = s.idleThread → ∀ c, s'.pc t ≠ .leaving c ∧ s'.pc t ≠ .away c)
    (hwaiter : ∀ w, s.Waiter t w → Blocked (s'.pc t) (s'.threads t).state w) :
    s'.Inv rs' ws' := by
  refine ⟨h.step hl ht hready hwaiting hq hrow hidle hwaiter, fun c hc => ?_⟩
  rw [hl.current] at hc ⊢
  by_cases hut : s.current = t
  · rw [hut] at hc ⊢
    exact hreturned c hc
  · rw [hl.pc _ hut] at hc
    exact (hready _ hut).2 (h.returned c hc)

theorem Core.not_waiter (h : s.Core rs ws) (hb : ∀ w, ¬Blocked (s.pc t) (s.threads t).state w)
    (w : Source) : ¬s.Waiter t w :=
  fun hw => hb w (h.waiter t w hw).2

/-- A thread with a process id is not the idle thread. -/
theorem Core.current_ne_idle (h : s.Core rs ws) (hpid : s.getpid ≠ 0) :
    s.current ≠ s.idleThread := by
  intro heq
  unfold getpid at hpid
  rw [heq] at hpid
  exact hpid h.idle_pid

end

end Scheduler

end Ulysses
