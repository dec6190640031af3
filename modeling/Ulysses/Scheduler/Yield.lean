import Ulysses.Scheduler.Consistent

/-!
# Yielding

`switch_thread` goes to the head of the ready queue and moves it to the tail, so the
running thread stays behind the others as long as it is not linked in again. A wake-up
that falls between the unlocked end of `io_wait` and its `switch_thread` puts the running
thread at the head, and from then on it yields to itself (`yield_to_self`). Without such a
wake-up a yield goes to another thread whenever there is one (`yield_reaches_other`).
-/

namespace Ulysses

open Lib

namespace Scheduler

/-- `switch_thread` leaves the current thread when another one is ready, and the current
thread is not ahead of another one. -/
def Yields (s : Scheduler) : Prop :=
  ((∃ t ∈ s.readyList, t ≠ s.current) → ∃ s', s.switchThread = some s' ∧ s'.current ≠ s.current) ∧
    (s.current ∈ s.readyList → s.readyList.getLast? = some s.current)

instance (s : Scheduler) (t : Tid) (e : Event) : Decidable (s.Wakes t e) := by
  cases e <;> unfold Wakes <;> infer_instance

/-- The event makes neither the idle thread ready, nor the current one after it has left the
ready queue, unless no other thread is or becomes ready. -/
def Punctual (s : Scheduler) (e : Event) : Prop :=
  ¬s.Wakes s.idleThread e ∧ (s.Wakes s.current e → s.current ∈ s.readyList ∨
    s.readyList = [] ∧ ∀ t ∈ s.waitingList, s.Wakes t e → t = s.current)

instance (s : Scheduler) (e : Event) : Decidable (s.Punctual e) :=
  inferInstanceAs (Decidable (_ ∧ (_ → _ ∨ _ ∧ ∀ t ∈ s.waitingList, s.Wakes t e → t = s.current)))

/-- One step of a run without such a wake-up. -/
def PunctualStep (s s' : Scheduler) : Prop := ∃ e, s.Punctual e ∧ s.step e = some s'

/-- The idle thread is not in the queue, and the current one is at most its last. -/
structure Trailing (idle cur : Tid) (rs : List Tid) : Prop where
  idle : idle ∉ rs
  last : cur ∈ rs → rs.getLast? = some cur

/-! ## One step -/

section

variable {idle cur n : Tid} {rs rs' ws : List Tid} {s s' : Scheduler} {e : Event}

theorem Trailing.append (h : Trailing idle cur rs) {xs : List Tid} (hidle : idle ∉ xs)
    (hcur : cur ∉ xs) : Trailing idle cur (xs ++ rs) := by
  refine ⟨fun hmem => (List.mem_append.1 hmem).elim hidle h.idle, fun hmem => ?_⟩
  have hrs := (List.mem_append.1 hmem).resolve_left hcur
  rw [List.getLast?_append, h.last hrs, Option.some_or]

/-- Where no other thread is ready, the current one is the last. -/
theorem trailing_of_only (h : ∀ t ∈ rs, t = cur) (hidle : idle ∉ rs) : Trailing idle cur rs := by
  refine ⟨hidle, fun hmem => ?_⟩
  rw [List.getLast?_eq_some_getLast (List.ne_nil_of_mem hmem), h _ (List.getLast_mem _)]

theorem Trailing.insert (h : Trailing idle cur rs) {t : Tid} (hidle : t ≠ idle)
    (hcur : t = cur → cur ∈ rs) : Trailing idle cur (rs.insert t) := by
  by_cases hmem : t ∈ rs
  · rw [List.insert_of_mem hmem]
    exact h
  · rw [List.insert_of_not_mem hmem]
    have hne : t ≠ cur := fun heq => hmem (heq ▸ hcur heq)
    have hidle' : idle ∉ [t] := by simpa using hidle.symm
    have hcur' : cur ∉ [t] := by simpa using hne.symm
    exact h.append hidle' hcur'

theorem Trailing.erase (h : Trailing idle cur rs) (hnodup : rs.Nodup) :
    Trailing idle cur (rs.erase cur) :=
  ⟨fun hmem => h.idle (List.mem_of_mem_erase hmem), fun hmem => absurd hmem hnodup.not_mem_erase⟩

theorem Trailing.switched (h : Trailing idle cur rs) (hsw : Switched idle cur rs n rs') :
    Trailing idle n rs' := by
  cases hsw with
  | empty hrs => exact ⟨List.not_mem_nil, fun hmem => absurd hmem List.not_mem_nil⟩
  | keep hrs => exact h
  | next hrs hne hidle =>
    subst hrs
    refine ⟨fun hmem => ?_, fun _ => List.getLast?_concat⟩
    rcases List.mem_append.1 hmem with hmem | hmem
    · exact h.idle (List.mem_cons_of_mem _ hmem)
    · exact hidle (List.mem_singleton.1 hmem).symm
  | idle hrs => exact absurd (hrs ▸ List.mem_cons_self) h.idle

theorem Trailing.change (ht : Trailing s.idleThread s.current rs) (h : s.Inv rs ws)
    (hp : s.Punctual e) {ws' : List Tid} (hc : Change s rs ws e n rs' ws') :
    Trailing s.idleThread n rs' := by
  cases hc with
  | stay => exact ht
  | spawn hnew =>
    exact ht.insert (fun heq => hnew (heq ▸ h.idle_mem)) fun heq => absurd (heq ▸ h.current) hnew
  | @wake _ t hw =>
    have hidle : t ≠ s.idleThread := fun heq => hp.1 (heq ▸ hw)
    have hready := h.readyList_eq
    rcases eq_or_ne t s.current with rfl | hne
    · rcases hp.2 hw with hmem | ⟨hnil, -⟩
      · exact ht.insert hidle fun _ => hready ▸ hmem
      · rw [← hready, hnil]
        exact trailing_of_only (fun t => List.mem_singleton.1) (by simpa using hidle.symm)
    · exact ht.insert hidle fun heq => absurd heq hne
  | leave => exact ht.erase h.queues.ready.nodup
  | sleep => exact ht.erase h.queues.ready.nodup
  | switch _ hsw => exact ht.switched hsw

/-- A tick that wakes up sleepers puts them ahead of the current thread, unless it is the only
one. -/
theorem Trailing.ticked (ht : Trailing s.idleThread s.current rs) (h : s.Inv rs ws)
    (hp : s.Punctual .timer) (hc : Ticked s rs ws n rs') : Trailing s.idleThread n rs' := by
  cases hc with
  | quiet => exact ht
  | woke _ hsw =>
    have hdue : ∀ t ∈ (s.due ws).reverse, t ∈ ws ∧ s.Wakes t .timer := fun t hmem =>
      List.mem_filter.1 (List.mem_reverse.1 hmem)
    have hidle : s.idleThread ∉ (s.due ws).reverse := fun hmem => hp.1 (hdue _ hmem).2
    by_cases hcur : s.current ∈ (s.due ws).reverse
    · rcases hp.2 (hdue _ hcur).2 with hready | ⟨hnil, hother⟩
      · rw [h.readyList_eq] at hready
        exact absurd (hdue _ hcur).1 (h.queues.disjoint _ hready)
      · rw [h.readyList_eq] at hnil
        rw [h.waitingList_eq] at hother
        rw [hnil, List.append_nil] at hsw
        exact (trailing_of_only (fun t hmem => hother t (hdue t hmem).1 (hdue t hmem).2)
          hidle).switched hsw
    · exact (ht.append hidle hcur).switched hsw

theorem Trailing.step (ht : Trailing s.idleThread s.current rs) (h : s.Inv rs ws)
    (hp : s.Punctual e) (hs : s.step e = some s') :
    ∃ rs' ws', s'.Inv rs' ws' ∧ Trailing s'.idleThread s'.current rs' := by
  by_cases he : e = .timer
  · subst he
    obtain ⟨s₁, rs', hs₁, hinv, hidle, hc⟩ := h.timer
    obtain rfl := Option.some.inj (hs.symm.trans hs₁)
    exact ⟨rs', _, hinv, hidle ▸ ht.ticked h hp hc⟩
  · obtain ⟨rs', ws', hinv, hidle, hc⟩ := h.change he hs
    exact ⟨rs', ws', hinv, hidle ▸ ht.change h hp hc⟩

/-- From such a queue `switch_thread` leaves the current thread when it can. -/
theorem Trailing.yields (ht : Trailing s.idleThread s.current rs) (h : s.Inv rs ws) :
    s.Yields := by
  unfold Yields
  rw [h.readyList_eq]
  refine ⟨fun ⟨t, htmem, hne⟩ => ?_, ht.last⟩
  obtain ⟨s', rs', hs, -, hsw⟩ := Core.switchThread h.toCore
  refine ⟨s', hs, fun heq => ?_⟩
  rw [heq] at hsw
  generalize s.current = cur at *
  cases hsw with
  | empty hrs => exact List.not_mem_nil (hrs ▸ htmem)
  | next _ hn _ => exact hn rfl
  | idle hrs => exact ht.idle (hrs ▸ List.mem_cons_self)
  | @keep rest hrs =>
    -- the current thread is both the first and the last of a queue without repetition
    subst hrs
    have hnodup := List.nodup_cons.1 h.queues.ready.nodup
    cases rest with
    | nil => exact hne (List.mem_singleton.1 htmem)
    | cons r rest =>
      have hlast := ht.last List.mem_cons_self
      rw [List.getLast?_cons_cons] at hlast
      exact hnodup.1 (List.mem_of_getLast? hlast)

end

/-! ## Every run -/

theorem Booted.trailing {s : Scheduler} (h : s.Booted) :
    ∃ rs ws, s.Inv rs ws ∧ Trailing s.idleThread s.current rs :=
  ⟨[], [], h.inv, List.not_mem_nil, fun hmem => absurd hmem List.not_mem_nil⟩

/-- In a run without such a wake-up, yielding yields. -/
theorem yield_reaches_other {s : Scheduler} (h : Reach Booted PunctualStep s) : s.Yields := by
  obtain ⟨rs, ws, hinv, ht⟩ : ∃ rs ws, s.Inv rs ws ∧ Trailing s.idleThread s.current rs :=
    h.invariant (I := fun s => ∃ rs ws, s.Inv rs ws ∧ Trailing s.idleThread s.current rs)
      (fun _ hb => hb.trailing) fun _ _ ⟨_, _, hinv, ht⟩ ⟨_, hp, hs⟩ => ht.step hinv hp hs
  exact ht.yields hinv

/-- A run from boot without such a wake-up. -/
def runPunctual (es : List Event) : Option Scheduler :=
  es.foldlM (fun s e => if s.Punctual e then s.step e else none) atBoot

theorem reach_runPunctual {s : Scheduler} {es : List Event} (h : runPunctual es = some s) :
    Reach Booted PunctualStep s :=
  Reach.foldlM (fun _ e _ hs => ⟨e, Option.ite_none_right_eq_some.1 hs⟩) (.init booted_atBoot) h

/-- Thread 2 is woken up after it has switched to thread 3. -/
theorem yield_reaches_waiter :
    ∃ s, runPunctual [.spawnInit 2 1 .dead, .yield, .fork 3 2 2 .waiting, .startIo (.buffer 0),
        .register, .ioWait, .switch, .setFull 0] = some s ∧
      s.current = 3 ∧ s.readyList = [2, 3] ∧ s.Yields := by
  have hrun : (runPunctual [.spawnInit 2 1 .dead, .yield, .fork 3 2 2 .waiting,
      .startIo (.buffer 0), .register, .ioWait, .switch, .setFull 0]).map
      (fun s => (s.current, s.readyList)) = some (3, [2, 3]) := by
    decide +kernel
  obtain ⟨s, hs, heq⟩ := Option.map_eq_some_iff.1 hrun
  obtain ⟨hcur, hready⟩ := Prod.mk.inj heq
  exact ⟨s, hs, hcur, hready, yield_reaches_other (reach_runPunctual hs)⟩

/-- The buffer of thread 2 fills up after thread 2 has left the ready queue in `io_wait`
and before it switches: it is put ahead of thread 3, and `switch_thread` selects it, now
and at its next yield. -/
theorem yield_to_self :
    ∃ s, atBoot.runAll [.spawnInit 2 1 .dead, .yield, .fork 3 2 2 .waiting, .startIo (.buffer 0),
        .register, .ioWait, .setFull 0, .switch, .resume, .yield] = some s ∧
      s.current = 2 ∧ s.readyList = [2, 3] ∧ s.switchThread.map current = some 2 ∧
      Reach Booted Step s ∧ ¬s.Yields := by
  have hrun : (atBoot.runAll [.spawnInit 2 1 .dead, .yield, .fork 3 2 2 .waiting,
      .startIo (.buffer 0), .register, .ioWait, .setFull 0, .switch, .resume, .yield]).map
      (fun s => (s.current, s.readyList, s.switchThread.map current)) =
        some (2, [2, 3], some 2) := by
    decide +kernel
  obtain ⟨s, hs, heq⟩ := Option.map_eq_some_iff.1 hrun
  obtain ⟨hcur, heq⟩ := Prod.mk.inj heq
  obtain ⟨hready, hswitch⟩ := Prod.mk.inj heq
  refine ⟨s, hs, hcur, hready, hswitch, reach_runAll (.init booted_atBoot) hs, fun hy => ?_⟩
  have hlast := hy.2 (by rw [hcur, hready]; decide)
  rw [hcur, hready] at hlast
  exact absurd hlast (by decide)

end Scheduler

end Ulysses
