import Ulysses.Lib.Reach
import Ulysses.Lib.Loop
import Ulysses.Scheduler.Invariant

/-!
# Run-queue consistency

Every step of the scheduler keeps the invariant, one lemma per function, so in every
state of a run the queues are what the states of the threads say
(`queues_consistent`).
-/

namespace Ulysses

open Lib

namespace Scheduler

/-! ## What a step does to the lists -/

/-- The ready queue from its head on. -/
def readyList (s : Scheduler) : List Tid := s.queues.ready.toList s.queues.nodes

/-- The waiting queue from its head on. -/
def waitingList (s : Scheduler) : List Tid := s.queues.waiting.toList s.queues.nodes

/-- The timer has counted. -/
def tick (s : Scheduler) : Scheduler := { s with ticks := add32 s.ticks 1 }

/-- The event calls `make_ready` for the thread. -/
def Wakes (s : Scheduler) (t : Tid) : Event → Prop
  | .setFull b => (s.buffers b).waitingTask = some t
  | .wake q => (s.waitQueues q).head? = some t
  | .timer => s.tick.alarmExpired t = true
  | _ => False

/-- The thread that `switch_thread` goes to from the thread `cur`, and the ready queue after
it. -/
inductive Switched (idle cur : Tid) (rs : List Tid) : Tid → List Tid → Prop
  | empty (h : rs = []) : Switched idle cur rs idle []
  | keep {rest : List Tid} (h : rs = cur :: rest) : Switched idle cur rs cur rs
  | next {n : Tid} {rest : List Tid} (h : rs = n :: rest) (hn : n ≠ cur) (hidle : n ≠ idle) :
      Switched idle cur rs n (rest ++ [n])
  | idle {rest : List Tid} (h : rs = idle :: rest) : Switched idle cur rs idle rs

/-- What an event other than a tick does to the lists and to the current thread. -/
inductive Change (s : Scheduler) (rs ws : List Tid) : Event → Tid → List Tid → List Tid → Prop
  | stay {e : Event} : Change s rs ws e s.current rs ws
  | spawn {e : Event} {t : Tid} (h : t ∉ s.created) : Change s rs ws e s.current (rs.insert t) ws
  | wake {e : Event} {t : Tid} (h : s.Wakes t e) : Change s rs ws e s.current (rs.insert t) ws
  | leave {e : Event} : Change s rs ws e s.current (rs.erase s.current) ws
  | sleep {secs : Nat} :
      Change s rs ws (.sleep secs) s.current (rs.erase s.current) (s.current :: ws)
  | switch {e : Event} {n : Tid} {rs' : List Tid} (he : e = .yield ∨ e = .switch)
      (h : Switched s.idleThread s.current rs n rs') : Change s rs ws e n rs' ws

/-- The sleepers whose alarm expires at the next tick, in the order of the waiting queue. -/
def due (s : Scheduler) (ws : List Tid) : List Tid := ws.filter fun t => s.tick.alarmExpired t

/-- What a tick does to the ready queue and to the current thread. -/
inductive Ticked (s : Scheduler) (rs ws : List Tid) : Tid → List Tid → Prop
  | quiet (h : s.due ws = []) : Ticked s rs ws s.current rs
  | woke {n : Tid} {rs' : List Tid} (h : s.due ws ≠ [])
      (hs : Switched s.idleThread s.current ((s.due ws).reverse ++ rs) n rs') :
      Ticked s rs ws n rs'

section

variable {s s' : Scheduler} {rs ws : List Tid}

theorem Inv.readyList_eq (h : s.Inv rs ws) : s.readyList = rs := h.queues.ready.toList_eq

theorem Inv.waitingList_eq (h : s.Inv rs ws) : s.waitingList = ws := h.queues.waiting.toList_eq

/-! ## Steps of the current thread that leave the lists alone -/

variable {t : Tid}

theorem Inv.setPc (h : s.Inv rs ws) (pc : Pc) (ht : t ∈ s.created)
    (hrow : Row pc (s.threads t).state (t ∈ rs) (t ∈ ws))
    (hpc : ∀ c, pc ≠ .leaving c ∧ pc ≠ .away c) (hw : ∀ w, ¬s.Waiter t w) :
    (s.setPc t pc).Inv rs ws := by
  refine h.local (local_setPc t pc s) ht (fun _ _ => .rfl) (fun _ _ => .rfl) h.queues ?_ ?_ ?_
    fun w hwt => absurd hwt (hw w)
  · rw [setPc_self]
    exact hrow
  · intro c hc
    rw [setPc_self] at hc
    exact absurd hc (hpc c).2
  · intro _
    rw [setPc_self]
    exact hpc

theorem Inv.setState (h : s.Inv rs ws) (st : ThreadState) (ht : t ∈ s.created)
    (hrow : Row (s.pc t) st (t ∈ rs) (t ∈ ws)) (hreturned : ∀ c, s.pc t ≠ .away c)
    (hw : ∀ w, ¬s.Waiter t w) : (s.setState t st).Inv rs ws := by
  refine h.local (local_setState t st s) ht (fun _ _ => .rfl) (fun _ _ => .rfl) h.queues ?_
    (fun c hc => absurd hc (hreturned c)) ?_ fun w hwt => absurd hwt (hw w)
  · rw [setState_self]
    exact hrow
  · rintro rfl
    exact h.idle_pc

theorem Inv.startIo (h : s.Inv rs ws) (hpc : s.pc s.current = .run) (w : Source) :
    (s.startIo w).Inv rs ws := by
  have hrow := h.row _ h.current
  rw [hpc] at hrow
  have hnot := h.not_waiter (t := s.current) (by simp [hpc, Blocked])
  have hpending := h.setState .ioPending h.current (by rw [hpc]; exact ⟨.inr rfl, hrow.2⟩)
    (by simp [hpc]) hnot
  exact hpending.setPc _ h.current ⟨setState_self .., hrow.2⟩ (by simp) hnot

/-- Buffers and wait queues may change as long as they wake up threads that are
blocked on them. -/
theorem Inv.withSources (h : s.Inv rs ws) (buffers : Nat → BlockBuffer)
    (waitQueues : Nat → List Tid) (hnodup : ∀ q, (waitQueues q).Nodup)
    (hw : ∀ t w, ({ s with buffers, waitQueues } : Scheduler).Waiter t w → s.Waiter t w ∨
      (t ∈ s.created ∧ Blocked (s.pc t) (s.threads t).state w)) :
    ({ s with buffers, waitQueues } : Scheduler).Inv rs ws :=
  ⟨⟨h.queues, h.members, h.row, h.current, h.idle_mem, h.idle_pid, h.idle_pc,
    fun t w ht => (hw t w ht).elim (h.waiter t w) id, hnodup, h.processes, h.single⟩, h.returned⟩

/-! ## Registering -/

theorem Inv.registerBuffer (h : s.Inv rs ws) {b : Nat}
    (hpc : s.pc s.current = .started (.buffer b)) : (s.registerBuffer b).Inv rs ws := by
  obtain ⟨hstate, hnw⟩ : Row (.started (.buffer b)) _ _ _ := hpc ▸ h.row _ h.current
  have hnot := h.not_waiter (t := s.current) (by simp [hpc, Blocked])
  unfold Scheduler.registerBuffer
  split
  · exact h.setPc .run h.current ⟨.inr hstate, hnw⟩ (by simp) hnot
  · have hreg := h.setPc (.registered (.buffer b)) h.current ⟨.inr hstate, hnw⟩ (by simp) hnot
    refine hreg.withSources _ _ h.waitQueues fun t w ht => ?_
    cases w with
    | queue q => exact .inl ht
    | buffer b' =>
      by_cases hb : b' = b
      · subst hb
        simp only [Waiter, Function.update_self, Option.some.injEq] at ht
        obtain rfl := ht.2
        exact .inr ⟨h.current, .inl ⟨Function.update_self .., hstate⟩⟩
      · simp only [Waiter, Function.update_of_ne hb] at ht
        exact .inl ht

theorem Inv.registerQueue (h : s.Inv rs ws) {q : Nat}
    (hpc : s.pc s.current = .started (.queue q)) : (s.registerQueue q).Inv rs ws := by
  obtain ⟨hstate, hnw⟩ : Row (.started (.queue q)) _ _ _ := hpc ▸ h.row _ h.current
  have hnot := h.not_waiter (t := s.current) (by simp [hpc, Blocked])
  have hreg := h.setPc (.registered (.queue q)) h.current ⟨.inr hstate, hnw⟩ (by simp) hnot
  refine hreg.withSources _ _ (fun q' => ?_) fun t w ht => ?_
  · by_cases hq : q' = q
    · subst hq
      rw [Function.update_self]
      refine List.nodup_append.2 ⟨h.waitQueues q', by simp, fun a ha b hb heq => ?_⟩
      exact hnot (.queue q') (List.mem_singleton.1 hb ▸ heq ▸ ha)
    · rw [Function.update_of_ne hq]
      exact h.waitQueues q'
  · cases w with
    | buffer b => exact .inl ht
    | queue q' =>
      by_cases hq : q' = q
      · subst hq
        simp only [Waiter, Function.update_self, List.mem_append, List.mem_singleton] at ht
        rcases ht with ht | rfl
        · exact .inl ht
        · exact .inr ⟨h.current, .inl ⟨Function.update_self .., hstate⟩⟩
      · simp only [Waiter, Function.update_of_ne hq] at ht
        exact .inl ht

/-! ## Waking up -/

/-- `make_ready` of a thread that its source has let go. -/
theorem Inv.makeReady {w : Source} (h : s.Inv rs ws) (ht : t ∈ s.created)
    (hb : Blocked (s.pc t) (s.threads t).state w) (hw : ∀ w, ¬s.Waiter t w) :
    (s.makeReady t).Inv (rs.insert t) ws := by
  have hnw := hb.not_waiting (h.row t ht)
  have hstate : ((s.makeReady t).threads t).state = .ready := setState_self ..
  refine h.local (local_makeReady t s) ht (fun u hu => by simp [List.mem_insert_iff, hu])
    (fun _ _ => .rfl) (h.queues.prependReady hnw) ?_ (fun _ _ => List.mem_insert_self) ?_
    fun w hwt => absurd hwt (hw w)
  · rw [hstate, eq_true (List.mem_insert_self : t ∈ rs.insert t), eq_false hnw]
    exact hb.row
  · rintro rfl
    exact h.idle_pc

theorem Inv.markFull (h : s.Inv rs ws) (b : Nat) : (s.markFull b).Inv rs ws := by
  refine h.withSources _ _ h.waitQueues fun t w ht => .inl ?_
  cases w with
  | queue q => exact ht
  | buffer b' =>
    by_cases hb : b' = b
    · subst hb
      simp [Waiter] at ht
    · simpa only [Waiter, Function.update_of_ne hb] using ht

theorem Inv.setFull (h : s.Inv rs ws) {b : Nat} (hfull : (s.buffers b).full = false) :
    ∃ rs', (s.setFull b).Inv rs' ws ∧
      Change s rs ws (.setFull b) (s.setFull b).current rs' ws := by
  have hmark := h.markFull b
  unfold Scheduler.setFull
  cases ht : (s.buffers b).waitingTask with
  | none => exact ⟨rs, hmark, .stay⟩
  | some t =>
    obtain ⟨hmem, hb⟩ := h.waiter t (.buffer b) ⟨hfull, ht⟩
    refine ⟨_, hmark.makeReady hmem hb fun w hw => ?_, .wake ht⟩
    -- the thread was blocked on this buffer only
    obtain rfl := hb.unique (hmark.waiter t w hw).2
    simp [Waiter, Scheduler.markFull] at hw

theorem Inv.wake (h : s.Inv rs ws) (q : Nat) :
    ∃ rs', (s.wake q).Inv rs' ws ∧ Change s rs ws (.wake q) (s.wake q).current rs' ws := by
  unfold Scheduler.wake
  cases hq : s.waitQueues q with
  | nil => exact ⟨rs, h, .stay⟩
  | cons t ts =>
    have hnd := h.waitQueues q
    rw [hq, List.nodup_cons] at hnd
    have hshift := h.withSources s.buffers (Function.update s.waitQueues q ts) (fun q' => ?_)
      fun u w hu => .inl ?_
    · obtain ⟨hmem, hb⟩ := h.waiter t (.queue q) (by simp [Waiter, hq])
      refine ⟨_, hshift.makeReady hmem hb fun w hw => ?_, .wake (by simp [Wakes, hq])⟩
      obtain rfl := hb.unique (hshift.waiter t w hw).2
      simp only [Waiter, Function.update_self] at hw
      exact hnd.1 hw
    · by_cases heq : q' = q
      · subst heq
        rw [Function.update_self]
        exact hnd.2
      · rw [Function.update_of_ne heq]
        exact h.waitQueues q'
    · cases w with
      | buffer b => exact hu
      | queue q' =>
        by_cases heq : q' = q
        · subst heq
          simp only [Waiter, Function.update_self] at hu ⊢
          rw [hq]
          exact List.mem_cons_of_mem t hu
        · simpa only [Waiter, Function.update_of_ne heq] using hu

/-! ## Leaving the ready queue -/

theorem Inv.sleep (h : s.Inv rs ws) (hpc : s.pc s.current = .run) {secs : Nat}
    (hs : s.sleep secs = some s') : s'.Inv (rs.erase s.current) (s.current :: ws) := by
  obtain ⟨hstate, hnw⟩ : Row .run _ _ _ := hpc ▸ h.row _ h.current
  unfold Scheduler.sleep at hs
  split at hs
  · cases hs
  next hpid =>
  have hidle := h.current_ne_idle hpid
  have hnot := h.not_waiter (t := s.current) (by simp [hpc, Blocked])
  have hnr : s.current ∉ rs.erase s.current := h.queues.ready.nodup.not_mem_erase
  obtain rfl := Option.some.inj hs
  have ht := h.current
  generalize s.current = t at *
  refine h.local ((((local_sleepTil t secs s).trans (local_queues t _ _)).trans
    (local_makeWait t _)).trans (local_setPc t _ _)) ht (fun u hu => List.mem_erase_of_ne hu)
    (fun u hu => by simp [hu]) ((h.queues.unlinkReady hnw).prependWaiting hnr hnw) ?_ ?_
    (fun heq => absurd heq hidle) fun w hw => absurd hw (hnot w)
  · rw [setPc_self]
    exact .inl ⟨setState_self .., hnr, List.mem_cons_self⟩
  · simp [setPc_self]

theorem Inv.ioWait (h : s.Inv rs ws) {w : Source} (hpc : s.pc s.current = .registered w)
    (hs : s.ioWait w = some s') :
    ∃ rs', s'.Inv rs' ws ∧ Change s rs ws .ioWait s'.current rs' ws := by
  obtain ⟨hstate, hnw⟩ : Row (.registered w) _ _ _ := hpc ▸ h.row _ h.current
  have hblocked := fun w' hw => (h.waiter s.current w' hw).2
  simp only [hpc] at hblocked
  unfold Scheduler.ioWait at hs
  split at hs
  · cases hs
  next hpid =>
  have hidle := h.current_ne_idle hpid
  have ht := h.current
  simp only at hs
  split at hs
  · next hne =>
    obtain rfl := Option.some.inj hs
    refine ⟨rs, h.setPc .run ht ⟨hstate, hnw⟩ (by simp) fun w' hw => ?_, .stay⟩
    exact (hblocked w' hw).elim (fun hb => hne hb.2) (by simp)
  · next hpending =>
    have hnr : s.current ∉ rs.erase s.current := h.queues.ready.nodup.not_mem_erase
    have hchange : Change s rs ws .ioWait s.current (rs.erase s.current) ws := .leave
    obtain rfl := Option.some.inj hs
    have hcurrent : (((s.setState s.current .ioWait).removeFromReady s.current).setPc s.current
        (.leaving (.io w))).current = s.current := rfl
    rw [hcurrent]
    generalize s.current = t at *
    have hio : (((((s.setState t .ioWait).removeFromReady t).setPc t
        (.leaving (.io w))).threads t).state) = .ioWait := setState_self ..
    refine ⟨rs.erase t, h.local (((local_setState t .ioWait s).trans (local_queues t _ _)).trans
      (local_setPc t _ _)) ht (fun u hu => List.mem_erase_of_ne hu) (fun _ _ => .rfl)
      (h.queues.unlinkReady hnw) ?_ ?_ (fun heq => absurd heq hidle) fun w' hw => ?_, hchange⟩
    · rw [setPc_self, hio]
      exact .inl ⟨rfl, hnr, hnw⟩
    · simp [setPc_self]
    · rw [setPc_self, hio]
      rcases hblocked w' hw with hb | hb
      · obtain ⟨rfl⟩ := hb.1
        exact .inr ⟨.inl rfl, rfl⟩
      · simp at hb

/-- `die` of the current thread, once it is out of the ready queue. -/
theorem die_spec (hq : s.queues.Ok rs ws) (hr : t ∉ rs) (hw : t ∉ ws)
    (hstate : (s.threads t).state ≠ .waiting) :
    Local t s (s.die t) ∧ (s.die t).queues.Ok rs ws ∧
      ((s.die t).threads t).state = .dead := by
  unfold die
  split
  · next h => exact absurd h hstate
  · refine ⟨(local_queues t _ _).trans (local_setState t _ _), ?_, setState_self ..⟩
    have := hq.unlinkReady hw
    rwa [List.erase_of_not_mem hr] at this
  · exact ⟨local_setState t _ _, hq, setState_self ..⟩

/-- `exit` ends the current thread and no other. -/
theorem Inv.exit_spec (h : s.Inv rs ws) (hpc : s.pc s.current = .run) (hs : s.exit = some s') :
    Local s.current s s' ∧ s'.pc s.current = .leaving .exit ∧
      s'.queues.Ok (rs.erase s.current) ws ∧
      ((s'.threads s.current).state = .ready ∨ (s'.threads s.current).state = .ioPending ∨
        (s'.threads s.current).state = .dead) := by
  obtain ⟨hstate, hnw⟩ : Row .run _ _ _ := hpc ▸ h.row _ h.current
  have ht := h.current
  have hnr : s.current ∉ rs.erase s.current := h.queues.ready.nodup.not_mem_erase
  unfold Scheduler.exit at hs
  split at hs
  · cases hs
  generalize s.current = t at *
  obtain ⟨s₁, hexit, rfl⟩ := Option.map_eq_some_iff.1 hs
  -- the only thread of the process is the current one
  have hown : ∀ u ∈ s.threadsOf (s.threads t).process, u = t := fun u hu =>
    h.single u (h.processes _ u hu).1 t ht (h.processes _ u hu).2
  have hstart : Local t s (s.removeFromReady t) ∧
      (s.removeFromReady t).queues.Ok (rs.erase t) ws ∧
      (((s.removeFromReady t).threads t).state = .ready ∨
        ((s.removeFromReady t).threads t).state = .ioPending ∨
        ((s.removeFromReady t).threads t).state = .dead) :=
    ⟨local_queues t _ s, h.queues.unlinkReady hnw, hstate.imp_right .inl⟩
  obtain ⟨hl, hq, hst⟩ := foldlM_invariant
    (P := fun x => Local t s x ∧ x.queues.Ok (rs.erase t) ws ∧
      ((x.threads t).state = .ready ∨ (x.threads t).state = .ioPending ∨
        (x.threads t).state = .dead))
    (s.threadsOf (s.threads t).process) (fun x u x' hu hx hstep => by
      obtain ⟨hl, hq, hst⟩ := hx
      obtain rfl := hown u hu
      split at hstep
      · obtain rfl := Option.some.inj hstep
        obtain ⟨hl', hq', hdead⟩ := die_spec hq hnr hnw (by rcases hst with h | h | h <;> simp [h])
        exact ⟨hl.trans hl', hq', .inr (.inr hdead)⟩
      · cases hstep) hstart hexit
  exact ⟨hl.trans (local_setPc t _ _), setPc_self .., hq, hst⟩

theorem Inv.exit (h : s.Inv rs ws) (hpc : s.pc s.current = .run) (hs : s.exit = some s') :
    s'.Inv (rs.erase s.current) ws := by
  obtain ⟨-, hnw⟩ : Row .run _ _ _ := hpc ▸ h.row _ h.current
  have hnot := h.not_waiter (t := s.current) (by simp [hpc, Blocked])
  obtain ⟨hl, hpc', hq, hst⟩ := h.exit_spec hpc hs
  have hpid : s.getpid ≠ 0 := by
    intro hzero
    simp [Scheduler.exit, hzero] at hs
  refine h.local hl h.current (fun u hu => List.mem_erase_of_ne hu) (fun _ _ => .rfl) hq ?_ ?_
    (fun heq => absurd heq (h.current_ne_idle hpid)) fun w hw => absurd hw (hnot w)
  · rw [hpc']
    exact ⟨hst, h.queues.ready.nodup.not_mem_erase, hnw⟩
  · simp [hpc']

/-! ## New threads -/

theorem Spawned.threads_of_created {p : Nat} (hsp : Spawned t p s s') (hnew : t ∉ s.created)
    {u : Tid} (hu : u ∈ s.created) : s'.threads u = s.threads u := by
  refine hsp.threads u ?_
  rintro rfl
  exact hnew hu

theorem Core.single_spawned (h : s.Core rs ws) {p : Nat} (hsp : Spawned t p s s')
    (hfresh : s.Fresh t p) {u v : Tid} (hu : u ∈ s'.created) (hv : v ∈ s'.created)
    (heq : (s'.threads u).process = (s'.threads v).process) : u = v := by
  obtain ⟨hnew, hp⟩ := hfresh
  rw [hsp.created] at hu hv
  rcases List.mem_cons.1 hu with rfl | hu'
  · rcases List.mem_cons.1 hv with rfl | hv'
    · rfl
    · rw [hsp.self, hsp.threads_of_created hnew hv'] at heq
      exact absurd heq.symm (hp v hv')
  · rcases List.mem_cons.1 hv with rfl | hv'
    · rw [hsp.self, hsp.threads_of_created hnew hu'] at heq
      exact absurd heq (hp u hu')
    · rw [hsp.threads_of_created hnew hu', hsp.threads_of_created hnew hv'] at heq
      exact h.single u hu' v hv' heq

theorem Core.processes_spawned (h : s.Core rs ws) {p : Nat} (hsp : Spawned t p s s')
    (hnew : t ∉ s.created) {members : List Tid} (hmembers : ∀ u ∈ members, u = t) {p' : Nat}
    {u : Tid} (hu : u ∈ Function.update s.threadsOf p members p') :
    u ∈ s'.created ∧ (s'.threads u).process = p' := by
  rw [hsp.created]
  by_cases heq : p' = p
  · subst heq
    rw [Function.update_self] at hu
    obtain rfl := hmembers u hu
    exact ⟨List.mem_cons_self, by rw [hsp.self]⟩
  · rw [Function.update_of_ne heq] at hu
    obtain ⟨hmem, hproc⟩ := h.processes p' u hu
    rw [hsp.threads_of_created hnew hmem]
    exact ⟨List.mem_cons_of_mem t hmem, hproc⟩

theorem Inv.newThread (h : s.Inv rs ws) {p : Nat} (hfresh : s.Fresh t p) (unset : ThreadState)
    (pid : Nat) {members : List Tid} (hmembers : ∀ u ∈ members, u = t) :
    (({ s.newThread t p unset with
        pid := Function.update s.pid p pid
        threadsOf := Function.update s.threadsOf p members } : Scheduler).makeReady t).Inv
      (rs.insert t) ws := by
  have hnew := hfresh.1
  have hnr : t ∉ rs := fun hr => hnew (h.members t (.inl hr))
  have hnw : t ∉ ws := fun hw => hnew (h.members t (.inr hw))
  have hne : ∀ u ∈ s.created, u ≠ t := fun u hu heq => hnew (heq ▸ hu)
  have hsp := spawned_newThread t p unset (Function.update s.pid p pid)
    (Function.update s.threadsOf p members) s
  have hqueues := (h.queues.blank hnr hnw).prependReady hnw
  have hpc : ∀ u ∈ s.created, _ := fun u hu => hsp.pc u (hne u hu)
  refine ⟨⟨hqueues, ?_, ?_, ?_, ?_, ?_, ?_, ?_, h.waitQueues, ?_, ?_⟩, ?_⟩
  · intro u hu
    rw [hsp.created, List.mem_cons]
    rw [List.mem_insert_iff, or_assoc] at hu
    exact hu.imp_right (h.members u)
  · intro u hu
    rw [hsp.created] at hu
    rcases List.mem_cons.1 hu with rfl | hu
    · rw [hsp.self_pc, hsp.self]
      exact ⟨.inl rfl, hnw⟩
    · rw [hpc u hu, hsp.threads_of_created hnew hu, List.mem_insert_iff]
      simpa only [hne u hu, false_or] using h.row u hu
  · exact List.mem_cons_of_mem t h.current
  · exact List.mem_cons_of_mem t h.idle_mem
  · rw [hsp.idle, hsp.threads_of_created hnew h.idle_mem]
    exact (Function.update_of_ne (hfresh.2 _ h.idle_mem) _ _).trans h.idle_pid
  · rw [hsp.idle, hpc _ h.idle_mem]
    exact h.idle_pc
  · intro u w hw
    have hw : s.Waiter u w := by
      cases w <;> exact hw
    obtain ⟨hu, hb⟩ := h.waiter u w hw
    rw [hsp.created, hpc u hu, hsp.threads_of_created hnew hu]
    exact ⟨List.mem_cons_of_mem t hu, hb⟩
  · intro p' u hu
    exact h.processes_spawned hsp hnew hmembers hu
  · intro u hu v hv heq
    exact h.single_spawned hsp hfresh hu hv heq
  · intro c hc
    rw [hsp.current] at hc ⊢
    rw [hpc _ h.current] at hc
    exact List.mem_insert_of_mem (h.returned c hc)

/-! ## Switching -/

theorem Core.switchTo (h : s.Core rs ws) {n : Tid} (hn : n ∈ s.created) {q : RunQueues}
    {rs' : List Tid} (hq : q.Ok rs' ws) (hmem : ∀ u, u ∈ rs' ↔ u ∈ rs)
    (hreturned : ∀ c, s.pc n = .away c → n ∈ rs') :
    ({ s with queues := q, current := n } : Scheduler).Inv rs' ws :=
  ⟨⟨hq, fun u hu => h.members u (hu.imp_left (hmem u).1),
    fun u hu => by rw [hmem]; exact h.row u hu, hn, h.idle_mem, h.idle_pid, h.idle_pc, h.waiter,
    h.waitQueues, h.processes, h.single⟩, hreturned⟩

/-- `switch_thread` finds a thread, and one that was in a call comes from the ready
queue. -/
theorem Core.switchThread (h : s.Core rs ws) :
    ∃ s' rs', s.switchThread = some s' ∧ s'.Inv rs' ws ∧
      Switched s.idleThread s.current rs s'.current rs' := by
  have hidle : ∀ c, s.pc s.idleThread = .away c → s.idleThread ∈ rs := fun c hc =>
    absurd hc (h.idle_pc c).2
  unfold Scheduler.switchThread
  rw [h.queues.ready.count, h.queues.ready.head]
  cases hrs : rs with
  | nil =>
    simp only [List.length_nil, Nat.cast_zero, if_true, Option.map_some]
    split
    · next heq =>
      refine ⟨s, [], rfl, ⟨hrs ▸ h, ?_⟩, heq ▸ .empty rfl⟩
      rw [← heq, ← hrs]
      exact hidle
    · refine ⟨_, [], by rw [if_neg (by simp)], ?_, .empty rfl⟩
      exact hrs ▸ h.switchTo h.idle_mem h.queues (fun _ => .rfl) hidle
  | cons n rest =>
    have hcount : ¬((rest.length + 1 : Nat) : Int) = 0 := by omega
    simp only [List.length_cons, hcount, if_false, List.head?_cons, Option.map_some]
    rw [← hrs]
    have hn : n ∈ rs := hrs ▸ List.mem_cons_self
    have hnw : n ∉ ws := h.queues.disjoint n hn
    split
    · next heq => exact ⟨s, rs, rfl, ⟨h, fun _ _ => heq ▸ hn⟩, .keep (heq ▸ hrs)⟩
    next hne =>
    split
    · next hni =>
      have hq := (h.queues.unlinkReady hnw).appendReady h.queues.ready.nodup.not_mem_erase hnw
      have hrest : rs.erase n = rest := by rw [hrs, List.erase_cons_head]
      refine ⟨_, rs.erase n ++ [n], rfl, h.switchTo (h.members n (.inl hn)) hq (fun u => ?_)
        fun _ _ => by simp, hrest ▸ .next hrs hne hni⟩
      rw [List.mem_append, List.mem_singleton]
      by_cases hu : u = n
      · simp [hu, hn]
      · simp [hu, List.mem_erase_of_ne hu]
    · next hni =>
      obtain rfl : n = s.idleThread := not_not.1 hni
      exact ⟨_, rs, rfl, h.switchTo (h.members _ (.inl hn)) h.queues (fun _ => .rfl) fun _ _ => hn,
        .idle hrs⟩

theorem switchThread_idleThread (hs : s.switchThread = some s') :
    s'.idleThread = s.idleThread := by
  obtain ⟨n, -, rfl⟩ := Option.map_eq_some_iff.1 hs
  split
  · rfl
  split <;> rfl

/-! ## Time -/

theorem Row.sleeping {pc : Pc} {st : ThreadState} {ready waiting : Prop}
    (h : Row pc st ready waiting) (hw : waiting) : pc = .leaving .sleep ∨ pc = .away .sleep := by
  unfold Row at h
  split at h
  all_goals first
    | exact .inl rfl
    | exact .inr rfl
    | exact absurd hw h.2
    | exact absurd hw h.2.2
    | exact (h.elim (fun h => h.2.2) fun h => h.2.2) hw |>.elim

theorem Inv.wakeSleeper (h : s.Inv rs ws) (ht : t ∈ ws) :
    ((s.removeFromWaiting t).makeReady t).Inv (rs.insert t) (ws.erase t) := by
  have hmem := h.members t (.inr ht)
  have hnr : t ∉ rs := fun hr => h.queues.disjoint t hr ht
  have hnw : t ∉ ws.erase t := h.queues.waiting.nodup.not_mem_erase
  have hpc := (h.row t hmem).sleeping ht
  have hpc' : ((s.removeFromWaiting t).makeReady t).pc t = s.pc t := rfl
  refine h.local ((local_queues t _ s).trans (local_makeReady t _)) hmem
    (fun u hu => by simp [List.mem_insert_iff, hu]) (fun u hu => List.mem_erase_of_ne hu)
    ((h.queues.unlinkWaiting hnr).prependReady hnw) ?_ (fun _ _ => List.mem_insert_self) ?_ ?_
  · rw [hpc']
    have hrow : ThreadState.ready = .ready ∧ t ∈ rs.insert t ∧ t ∉ ws.erase t :=
      ⟨rfl, List.mem_insert_self, hnw⟩
    rcases hpc with hpc | hpc
    · rw [hpc]
      exact .inr ⟨setState_self .., hrow.2⟩
    · rw [hpc]
      exact .inr ⟨setState_self .., hrow.2⟩
  · rintro rfl
    exact h.idle_pc
  · exact fun w hw => absurd ht ((h.waiter t w hw).2.not_waiting (h.row t hmem))

/-- Waking a sleeper does nothing to the alarms of the others. -/
theorem alarmExpired_wakeSleeper {u : Tid} (hu : u ≠ t) (s : Scheduler) :
    ((s.removeFromWaiting t).makeReady t).alarmExpired u = s.alarmExpired u := by
  have hu' : ((s.removeFromWaiting t).makeReady t).threads u = s.threads u :=
    (local_makeReady t (s.removeFromWaiting t)).threads u hu
  unfold alarmExpired
  rw [hu']
  rfl

/-- What waking a sleeper keeps, the loop of `on_tick` keeps. -/
theorem wakeSleepers_invariant {P : Scheduler → Prop}
    (hP : ∀ s t, P s → P ((s.removeFromWaiting t).makeReady t)) {n : Nat} {node : Option Tid}
    {st r : Scheduler × Bool} (h : Scheduler.wakeSleepers n node st = some r) (hst : P st.1) :
    P r.1 := by
  induction n generalizing node st with
  | zero =>
    cases node with
    | none => exact Option.some.inj h ▸ hst
    | some t => cases h
  | succ n ih =>
    cases node with
    | none => exact Option.some.inj h ▸ hst
    | some t =>
      simp only [Scheduler.wakeSleepers] at h
      split at h
      · exact ih h (hP _ t hst)
      · exact ih h hst

/-- The loop of `on_tick` ends. It moves the sleepers whose alarm has expired to the front
of the ready queue, one after the other. -/
theorem Inv.wakeSleepers {n : Nat} {b : Bool} {done rest : List Tid}
    (h : s.Inv rs (done ++ rest)) (hn : rest.length ≤ n) :
    ∃ s₁, Scheduler.wakeSleepers n rest.head? (s, b) =
        some (s₁, b || !(rest.filter fun t => s.alarmExpired t).isEmpty) ∧
      s₁.Inv ((rest.filter fun t => s.alarmExpired t).reverse ++ rs)
        (done ++ rest.filter fun t => !s.alarmExpired t) ∧
      s₁.current = s.current ∧ s₁.idleThread = s.idleThread := by
  induction n generalizing s b rs done rest with
  | zero =>
    obtain rfl := List.length_eq_zero_iff.1 (Nat.le_zero.1 hn)
    exact ⟨s, by simp [Scheduler.wakeSleepers], h, rfl, rfl⟩
  | succ n ih =>
    cases rest with
    | nil => exact ⟨s, by simp [Scheduler.wakeSleepers], h, rfl, rfl⟩
    | cons t rest =>
      have hnext := h.queues.waiting.next
      have hlen : rest.length ≤ n := by simpa using hn
      simp only [List.head?_cons, Scheduler.wakeSleepers, hnext]
      split
      · next hexpired =>
        have hnodup := List.nodup_append.1 h.queues.waiting.nodup
        have hnot : t ∉ done := fun hd => hnodup.2.2 t hd t List.mem_cons_self rfl
        have hnr : t ∉ rs := fun hr => h.queues.disjoint t hr (by simp)
        have hwoken := h.wakeSleeper (t := t) (by simp)
        rw [List.erase_append_right _ hnot, List.erase_cons_head, List.insert_of_not_mem hnr]
          at hwoken
        have halarm : ∀ u ∈ rest, ((s.removeFromWaiting t).makeReady t).alarmExpired u =
            s.alarmExpired u := by
          intro u hu
          refine alarmExpired_wakeSleeper ?_ s
          rintro rfl
          exact (List.nodup_cons.1 hnodup.2.1).1 hu
        obtain ⟨s₁, hrun, hinv, hcur, hidle⟩ := ih (b := true) hwoken hlen
        rw [List.filter_congr halarm, List.filter_congr fun u hu => congrArg _ (halarm u hu)]
          at hinv
        refine ⟨s₁, ?_, ?_, hcur, hidle⟩
        · rw [hrun]
          simp [hexpired]
        · simpa [hexpired] using hinv
      · next hexpired =>
        have hskip : s.Inv rs (done ++ [t] ++ rest) := by
          rw [List.append_assoc]
          exact h
        obtain ⟨s₁, hrun, hinv, hcur, hidle⟩ := ih (b := b) hskip hlen
        refine ⟨s₁, ?_, ?_, hcur, hidle⟩
        · rw [hrun]
          simp [hexpired]
        · simpa [hexpired] using hinv

theorem Inv.tick (h : s.Inv rs ws) : s.tick.Inv rs ws :=
  ⟨⟨h.queues, h.members, h.row, h.current, h.idle_mem, h.idle_pid, h.idle_pc, h.waiter,
    h.waitQueues, h.processes, h.single⟩, h.returned⟩

theorem Inv.tickLoop (h : s.Inv rs ws) :
    ∃ s₁, Scheduler.wakeSleepers s.queues.waiting.count.toNat s.queues.waiting.head
        (s.tick, false) = some (s₁, !(s.due ws).isEmpty) ∧
      s₁.Inv ((s.due ws).reverse ++ rs) (ws.filter fun t => !s.tick.alarmExpired t) ∧
      s₁.current = s.current ∧ s₁.idleThread = s.idleThread := by
  rw [h.queues.waiting.count, Int.toNat_natCast, h.queues.waiting.head]
  have htick : s.tick.Inv rs ([] ++ ws) := h.tick
  exact Inv.wakeSleepers (b := false) htick (Nat.le_refl _)

theorem Inv.timer (h : s.Inv rs ws) :
    ∃ s' rs', s.timer = some s' ∧ s'.Inv rs' (ws.filter fun t => !s.tick.alarmExpired t) ∧
      s'.idleThread = s.idleThread ∧ Ticked s rs ws s'.current rs' := by
  obtain ⟨s₁, heq, hinv, hcur, hidle⟩ := h.tickLoop
  have htimer : s.timer = if (!(s.due ws).isEmpty) = true then s₁.switchThread else some s₁ := by
    unfold Scheduler.timer onTick
    show (Scheduler.wakeSleepers s.queues.waiting.count.toNat s.queues.waiting.head
      (s.tick, false)).bind _ = _
    rw [heq]
    rfl
  rw [htimer]
  by_cases hdue : s.due ws = []
  · rw [if_neg (by simp [hdue])]
    rw [hdue, List.reverse_nil, List.nil_append] at hinv
    refine ⟨s₁, rs, rfl, hinv, hidle, ?_⟩
    rw [hcur]
    exact .quiet hdue
  · rw [if_pos (by simp [hdue])]
    obtain ⟨s₂, rs₂, hs, hinv', hsw⟩ := hinv.switchThread
    rw [hcur, hidle] at hsw
    exact ⟨s₂, rs₂, hs, hinv', (switchThread_idleThread hs).trans hidle, .woke hdue hsw⟩

/-! ## Runs -/

theorem Inv.switch (h : s.Inv rs ws) {c : Call} (hpc : s.pc s.current = .leaving c) :
    ∃ s' rs', (s.setPc s.current (.away c)).switchThread = some s' ∧ s'.Inv rs' ws ∧
      Switched s.idleThread s.current rs s'.current rs' := by
  have hidle : s.current ≠ s.idleThread := fun heq => (h.idle_pc c).1 (heq ▸ hpc)
  have hrow := h.row _ h.current
  have hblocked := fun w hw => (h.waiter s.current w hw).2
  rw [hpc] at hrow
  simp only [hpc] at hblocked
  refine Core.switchThread (h.step (local_setPc _ (.away c) s) h.current (fun _ _ => .rfl)
    (fun _ _ => .rfl) h.queues ?_ (fun heq => absurd heq hidle) fun w hw => ?_)
  · rw [setPc_self]
    cases c <;> exact hrow
  · rw [setPc_self]
    rcases hblocked w hw with hb | hb
    · simp at hb
    · obtain ⟨hb | hb, hst⟩ := hb
      · cases hb
        exact .inr ⟨.inr rfl, hst⟩
      · cases hb

theorem Inv.resume (h : s.Inv rs ws) {c : Call} (hpc : s.pc s.current = .away c) :
    (s.setPc s.current .run).Inv rs ws := by
  have hrow := h.row _ h.current
  rw [hpc, eq_true (h.returned c hpc)] at hrow
  have hready : (s.threads s.current).state = .ready ∧ s.current ∉ ws := by
    cases c with
    | sleep => exact hrow.elim (fun hr => absurd trivial hr.2.1) fun hr => ⟨hr.1, hr.2.2⟩
    | io w => exact hrow.elim (fun hr => absurd trivial hr.2.1) fun hr => ⟨hr.1, hr.2.2⟩
    | exit => exact absurd trivial hrow.2.1
  refine h.setPc .run h.current ⟨.inl hready.1, hready.2⟩ (by simp) (h.not_waiter ?_)
  simp [hpc, hready.1, Blocked]

theorem ioWait_idleThread {w : Source} (hs : s.ioWait w = some s') :
    s'.idleThread = s.idleThread := by
  unfold Scheduler.ioWait at hs
  obtain ⟨-, hs⟩ := Option.ite_none_left_eq_some.1 hs
  simp only at hs
  split at hs
  · exact Option.some.inj hs ▸ rfl
  · exact Option.some.inj hs ▸ rfl

theorem Inv.change (h : s.Inv rs ws) {e : Event} (he : e ≠ .timer) (hs : s.step e = some s') :
    ∃ rs' ws', s'.Inv rs' ws' ∧ s'.idleThread = s.idleThread ∧
      Change s rs ws e s'.current rs' ws' := by
  cases step_taken hs with
  | fork hpc hfresh hpid =>
    exact ⟨_, _, h.newThread hfresh _ _ (by simp), rfl, .spawn hfresh.1⟩
  | spawnInit hpc hfresh =>
    exact ⟨_, _, h.newThread hfresh _ 1 (by simp), rfl, .spawn hfresh.1⟩
  | sleep hpc hs =>
    have hsame : s'.current = s.current ∧ s'.idleThread = s.idleThread := by
      unfold Scheduler.sleep at hs
      obtain ⟨-, hs⟩ := Option.ite_none_left_eq_some.1 hs
      exact Option.some.inj hs ▸ ⟨rfl, rfl⟩
    exact ⟨_, _, h.sleep hpc hs, hsame.2, by rw [hsame.1]; exact .sleep⟩
  | startIo hpc => exact ⟨_, _, h.startIo hpc _, rfl, .stay⟩
  | @registerBuffer b hpc =>
    have hsame : (s.registerBuffer b).current = s.current ∧
        (s.registerBuffer b).idleThread = s.idleThread := by
      unfold Scheduler.registerBuffer
      split
      · exact ⟨rfl, rfl⟩
      · exact ⟨rfl, rfl⟩
    exact ⟨_, _, h.registerBuffer hpc, hsame.2, hsame.1 ▸ .stay⟩
  | registerQueue hpc => exact ⟨_, _, h.registerQueue hpc, rfl, .stay⟩
  | ioWait hpc hs =>
    obtain ⟨rs', hinv, hchange⟩ := h.ioWait hpc hs
    exact ⟨rs', ws, hinv, ioWait_idleThread hs, hchange⟩
  | exit hpc hs =>
    have hlocal := (h.exit_spec hpc hs).1
    exact ⟨_, _, h.exit hpc hs, hlocal.idle, by rw [hlocal.current]; exact .leave⟩
  | yield hpc hs =>
    obtain ⟨s₁, rs', hs₁, hinv, hsw⟩ := h.switchThread
    obtain rfl := Option.some.inj (hs.symm.trans hs₁)
    exact ⟨rs', ws, hinv, switchThread_idleThread hs, .switch (.inl rfl) hsw⟩
  | switch hpc hs =>
    obtain ⟨s₁, rs', hs₁, hinv, hsw⟩ := h.switch hpc
    obtain rfl := Option.some.inj (hs.symm.trans hs₁)
    have hidle := (switchThread_idleThread hs).trans rfl
    exact ⟨rs', ws, hinv, hidle, .switch (.inr rfl) hsw⟩
  | resume hpc => exact ⟨rs, ws, h.resume hpc, rfl, .stay⟩
  | timer => exact absurd rfl he
  | setFull hfull =>
    obtain ⟨rs', hinv, hchange⟩ := h.setFull hfull
    refine ⟨rs', ws, hinv, ?_, hchange⟩
    unfold Scheduler.setFull
    split <;> rfl
  | @wake q =>
    obtain ⟨rs', hinv, hchange⟩ := h.wake q
    refine ⟨rs', ws, hinv, ?_, hchange⟩
    unfold Scheduler.wake
    split <;> rfl

theorem Inv.step (h : s.Inv rs ws) {e : Event} (hs : s.step e = some s') :
    ∃ rs' ws', s'.Inv rs' ws' := by
  by_cases he : e = .timer
  · subst he
    obtain ⟨s₁, rs', hs₁, hinv, -⟩ := h.timer
    obtain rfl := Option.some.inj (hs.symm.trans hs₁)
    exact ⟨rs', _, hinv⟩
  · obtain ⟨rs', ws', hinv, -⟩ := h.change he hs
    exact ⟨rs', ws', hinv⟩

end

theorem Reach.inv {s : Scheduler} (h : Reach Booted Step s) : ∃ rs ws, s.Inv rs ws :=
  h.invariant (I := fun s => ∃ rs ws, s.Inv rs ws) (fun _ hb => ⟨[], [], hb.inv⟩)
    fun _ _ ⟨_, _, hinv⟩ ⟨_, hs⟩ => hinv.step hs

/-- The thread has called `exit`. -/
def Exited (s : Scheduler) (t : Tid) : Prop :=
  s.pc t = .leaving .exit ∨ s.pc t = .away .exit

/-- The run queues are lists without a common thread, and a thread is where its state
says. -/
def QueuesConsistent (s : Scheduler) : Prop :=
  ∃ rs ws, s.queues.ready.Rep s.queues.nodes rs ∧ s.queues.waiting.Rep s.queues.nodes ws ∧
    (∀ t ∈ rs, t ∉ ws) ∧ (∀ t, t ∈ rs ∨ t ∈ ws → t ∈ s.created) ∧
    ∀ t ∈ s.created, (t ∈ ws ↔ (s.threads t).state = .waiting) ∧
      (t ∈ rs → (s.threads t).state = .ready ∨ (s.threads t).state = .ioPending) ∧
      ((s.threads t).state = .ioWait ∨ s.Exited t → t ∉ rs ∧ t ∉ ws)

theorem Row.consistent {pc : Pc} {st : ThreadState} {ready waiting : Prop}
    (h : Row pc st ready waiting) :
    (waiting ↔ st = .waiting) ∧ (ready → st = .ready ∨ st = .ioPending) ∧
      (st = .ioWait ∨ (pc = .leaving .exit ∨ pc = .away .exit) → ¬ready ∧ ¬waiting) := by
  cases pc with
  | run => obtain ⟨hst | hst, hw⟩ := h <;> simp [hst, hw]
  | started w =>
    obtain ⟨hst, hw⟩ := h
    simp [hst, hw]
  | registered w => obtain ⟨hst | hst, hw⟩ := h <;> simp [hst, hw]
  | leaving c =>
    cases c with
    | sleep => obtain ⟨hst, hr, hw⟩ | ⟨hst, hr, hw⟩ := h <;> simp [hst, hr, hw]
    | io w => obtain ⟨hst, hr, hw⟩ | ⟨hst, hr, hw⟩ := h <;> simp [hst, hr, hw]
    | exit => obtain ⟨hst | hst | hst, hr, hw⟩ := h <;> simp [hst, hr, hw]
  | away c =>
    cases c with
    | sleep => obtain ⟨hst, hr, hw⟩ | ⟨hst, hr, hw⟩ := h <;> simp [hst, hr, hw]
    | io w => obtain ⟨hst, hr, hw⟩ | ⟨hst, hr, hw⟩ := h <;> simp [hst, hr, hw]
    | exit => obtain ⟨hst | hst | hst, hr, hw⟩ := h <;> simp [hst, hr, hw]

/-- In every state of every run the queues are consistent. -/
theorem queues_consistent {s : Scheduler} (h : Reach Booted Step s) : s.QueuesConsistent := by
  obtain ⟨rs, ws, hinv⟩ := Reach.inv h
  exact ⟨rs, ws, hinv.queues.ready, hinv.queues.waiting, hinv.queues.disjoint, hinv.members,
    fun t ht => (hinv.row t ht).consistent⟩

def runAll (s : Scheduler) (es : List Event) : Option Scheduler := es.foldlM step s

theorem reach_runAll {s s' : Scheduler} {es : List Event} (hr : Reach Booted Step s)
    (h : s.runAll es = some s') : Reach Booted Step s' :=
  hr.foldlM (fun _ e _ hs => ⟨e, hs⟩) h

/-- The idle thread, at address 1, alone. -/
def atBoot : Scheduler where
  queues := ⟨fun _ => LinkedList.blank, .empty, .empty⟩
  threads := fun _ => ⟨0, .ready, 0⟩
  idleThread := 1
  current := 1
  pid := fun _ => 0
  threadsOf := fun _ => []
  buffers := fun _ => ⟨false, false, none⟩
  waitQueues := fun _ => []
  ticks := 0
  pc := fun _ => .run
  created := [1]

theorem booted_atBoot : atBoot.Booted :=
  ⟨fun _ => rfl, rfl, rfl, rfl, rfl, ⟨rfl, rfl, rfl⟩, fun _ => rfl, fun _ => rfl, fun _ => rfl⟩

theorem queues_consistent_sleeper :
    ∃ s, atBoot.runAll [.spawnInit 2 1 .dead, .yield, .fork 3 2 2 .waiting, .sleep 1, .switch,
        .startIo (.buffer 0), .register, .ioWait, .setFull 0, .timer] = some s ∧
      (s.threads 2).state = .waiting ∧ (s.threads 3).state = .ready ∧ s.QueuesConsistent := by
  have hrun : (atBoot.runAll [.spawnInit 2 1 .dead, .yield, .fork 3 2 2 .waiting, .sleep 1,
      .switch, .startIo (.buffer 0), .register, .ioWait, .setFull 0, .timer]).map
      (fun s => ((s.threads 2).state, (s.threads 3).state)) = some (.waiting, .ready) := by
    decide +kernel
  obtain ⟨s, hs, heq⟩ := Option.map_eq_some_iff.1 hrun
  obtain ⟨h₂, h₃⟩ := Prod.mk.inj heq
  exact ⟨s, hs, h₂, h₃, queues_consistent (reach_runAll (.init booted_atBoot) hs)⟩

end Scheduler

end Ulysses
