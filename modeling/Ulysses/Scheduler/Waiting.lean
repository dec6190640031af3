import Ulysses.Scheduler.Moves

/-!
# How long a ready thread waits

`switch_thread` takes the head of the ready queue and puts it at the end, and `make_ready` puts a
thread at the head. So a ready thread is passed by those before it, once each, and by the threads
that become ready while it waits: over every run the number of other threads that get the
processor is bounded by its place in the queue and by the arrivals (`waiting_bounded`).

The bound counts turns, and a `switch_thread` need not be one: when the thread that calls it is the
head of the queue it goes on itself.
-/

namespace Ulysses

open Lib

namespace Scheduler

/-- The threads that the event puts at the head of the ready queue. -/
def arrivals (s : Scheduler) : Event → Nat
  | .fork .. | .spawnInit .. => 1
  | .setFull b => if (s.buffers b).waitingTask.isSome then 1 else 0
  | .wake q => if (s.waitQueues q).isEmpty then 0 else 1
  | .timer => (s.due s.waitingList).length
  | _ => 0

/-- Another thread than before gets the processor, and it is not the idle one. -/
def turns (s s' : Scheduler) : Nat :=
  if s'.current ≠ s.current ∧ s'.current ≠ s.idleThread then 1 else 0

/-- A run in which the thread `t` is ready and does not get the processor, with the number of turns
and of arrivals. -/
inductive Passed (t : Tid) (s : Scheduler) : Nat → Nat → Scheduler → Prop
  | refl : Passed t s 0 0 s
  | step {m a : Nat} {s' s'' : Scheduler} {e : Event} (h : Passed t s m a s')
      (hs : s'.step e = some s'') (hready : t ∈ s''.readyList) (hcur : t ≠ s''.current) :
      Passed t s (m + turns s' s'') (a + arrivals s' e) s''

section

variable {s s' : Scheduler} {rs ws : List Tid} {e : Event} {t : Tid}

theorem idxOf_insert_le (rs : List Tid) (t u : Tid) : (rs.insert u).idxOf t ≤ rs.idxOf t + 1 := by
  by_cases hu : u ∈ rs
  · rw [List.insert_of_mem hu]
    omega
  · rw [List.insert_of_not_mem hu]
    by_cases hut : u = t
    · rw [hut, List.idxOf_cons_self]
      omega
    · rw [List.idxOf_cons_ne _ hut]

theorem idxOf_erase_le (rs : List Tid) {u : Tid} (hne : t ≠ u) :
    (rs.erase u).idxOf t ≤ rs.idxOf t := by
  induction rs with
  | nil => exact le_rfl
  | cons r rs ih =>
    by_cases hr : r = u
    · rw [hr, List.erase_cons_head, List.idxOf_cons_ne _ (Ne.symm hne)]
      omega
    · rw [List.erase_cons_tail (by simpa using hr)]
      by_cases hrt : r = t
      · rw [hrt, List.idxOf_cons_self]
        omega
      · rw [List.idxOf_cons_ne _ hrt, List.idxOf_cons_ne _ hrt]
        omega

/-- A switch to another thread moves `t` forward by one place. -/
theorem Switched.idxOf {idle cur n : Tid} {rs' : List Tid} (h : Switched idle cur rs n rs')
    (ht : t ∈ rs) (hne : t ≠ n) :
    (if n ≠ cur ∧ n ≠ idle then 1 else 0) + rs'.idxOf t ≤ rs.idxOf t := by
  cases h with
  | empty hnil => simp [hnil] at ht
  | keep _ => simp
  | @next n rest hlist hcur hidle =>
    subst hlist
    have hrest : t ∈ rest := (List.mem_cons.1 ht).resolve_left hne
    rw [if_pos ⟨hcur, hidle⟩, List.idxOf_append_of_mem hrest, List.idxOf_cons_ne _ (Ne.symm hne)]
    omega
  | idle _ => simp

/-- Only `fork` and `spawn_init` make new threads ready. -/
theorem Inv.arrivals_spawn (h : s.Inv rs ws) (hs : s.step e = some s') {rs' ws' : List Tid}
    (hinv : s'.Inv rs' ws') {u : Tid} (hu : u ∈ rs') (hnew : u ∉ s.created) :
    s.arrivals e = 1 := by
  have hspawns : spawns e = true := by
    by_contra hspawn
    have hcreated := (h.steady hs (Bool.eq_false_iff.2 hspawn)).created
    exact hnew (hcreated ▸ hinv.members u (.inl hu))
  cases e with
  | fork t p pid unset => rfl
  | spawnInit t p unset => rfl
  | _ => cases hspawns

theorem arrivals_wakes {u : Tid} (h : s.Wakes u e) (he : e ≠ .timer) : s.arrivals e = 1 := by
  cases e with
  | setFull b =>
    have hwaiting : (s.buffers b).waitingTask = some u := h
    simp [arrivals, hwaiting]
  | wake q =>
    have hhead : (s.waitQueues q).head? = some u := h
    have hne : s.waitQueues q ≠ [] := List.ne_nil_of_mem (List.mem_of_head? hhead)
    simp [arrivals, hne]
  | timer => exact absurd rfl he
  | _ => cases h

theorem Inv.passed (h : s.Inv rs ws) (hs : s.step e = some s') (ht : t ∈ rs)
    (hready : t ∈ s'.readyList) (hcur : t ≠ s'.current) :
    turns s s' + s'.readyList.idxOf t ≤ rs.idxOf t + s.arrivals e := by
  by_cases he : e = .timer
  · subst he
    obtain ⟨s₁, rs', hs₁, hinv, -, hticked⟩ := h.timer
    obtain rfl := Option.some.inj (hs.symm.trans hs₁)
    have harrivals : s.arrivals .timer = (s.due ws).length := by
      rw [arrivals, h.waitingList_eq]
    have hasleep : t ∉ s.due ws := fun hmem =>
      h.queues.disjoint t ht (List.mem_of_mem_filter hmem)
    rw [hinv.readyList_eq] at hready ⊢
    rw [harrivals]
    unfold turns
    generalize s'.current = n at hticked hcur ⊢
    cases hticked with
    | quiet _ =>
      simp only [ne_eq, not_true_eq_false, false_and, if_false]
      omega
    | woke _ hswitched =>
      have hplace := hswitched.idxOf (List.mem_append_right _ ht) hcur
      rw [List.idxOf_append_of_notMem (by simpa using hasleep), List.length_reverse] at hplace
      omega
  · obtain ⟨rs', ws', hinv, -, hchange⟩ := h.change he hs
    rw [hinv.readyList_eq] at hready ⊢
    have hnew := fun u hu => h.arrivals_spawn hs hinv (u := u) hu
    unfold turns
    generalize s'.current = n at hchange hcur ⊢
    cases hchange with
    | stay => simp
    | @spawn _ u hu =>
      have harrivals := hnew u (List.mem_insert_self ..) hu
      have hplace := idxOf_insert_le rs t u
      simp only [ne_eq, not_true_eq_false, false_and, if_false]
      omega
    | @wake _ u hu =>
      have harrivals := arrivals_wakes hu he
      have hplace := idxOf_insert_le rs t u
      simp only [ne_eq, not_true_eq_false, false_and, if_false]
      omega
    | leave =>
      have hplace := idxOf_erase_le rs hcur
      simp only [ne_eq, not_true_eq_false, false_and, if_false]
      omega
    | sleep =>
      have hplace := idxOf_erase_le rs hcur
      simp only [ne_eq, not_true_eq_false, false_and, if_false]
      omega
    | switch _ hswitched =>
      have hplace := hswitched.idxOf ht hcur
      omega

end

/-- **A ready thread is overtaken only by newcomers.** Over every run in which a thread is ready and
does not get the processor, the other threads that do are at most those that were before it in the
queue and those that have become ready since. -/
theorem waiting_bounded {s s' : Scheduler} (h : Reach Booted Step s) {t : Tid}
    (ht : t ∈ s.readyList) {m a : Nat} (hp : Passed t s m a s') :
    m + s'.readyList.idxOf t ≤ s.readyList.idxOf t + a := by
  suffices hall : Reach Booted Step s' ∧ t ∈ s'.readyList ∧
      m + s'.readyList.idxOf t ≤ s.readyList.idxOf t + a from hall.2.2
  induction hp with
  | refl => exact ⟨h, ht, by omega⟩
  | @step m a s₁ s₂ e _ hs hready hcur ih =>
    obtain ⟨hreach, hmem, hbound⟩ := ih
    obtain ⟨rs, ws, hinv⟩ := Reach.inv hreach
    have hstep := hinv.passed hs (hinv.readyList_eq ▸ hmem) hready hcur
    rw [← hinv.readyList_eq] at hstep
    exact ⟨.step hreach ⟨e, hs⟩, hready, by omega⟩

/-- Thread 3 is second in the queue when thread 2 yields to thread 4. -/
theorem waiting_bounded_second : ∃ s s', Passed 3 s 1 0 s' ∧
    1 + s'.readyList.idxOf 3 ≤ s.readyList.idxOf 3 + 0 := by
  have hrun : ((atBoot.runAll [.spawnInit 2 1 .dead, .yield, .fork 3 2 2 .dead,
      .fork 4 3 3 .dead]).bind fun s => (s.step .yield).map fun s' =>
        (s.readyList, s'.readyList, s'.current, turns s s')) =
      some ([4, 3, 2], [3, 2, 4], 4, 1) := by
    decide +kernel
  obtain ⟨s, hs, hrun⟩ := Option.bind_eq_some_iff.1 hrun
  obtain ⟨s', hs', heq⟩ := Option.map_eq_some_iff.1 hrun
  simp only [Prod.mk.injEq] at heq
  obtain ⟨hready, hready', hcur', hturns⟩ := heq
  have hpassed : Passed 3 s 1 0 s' := by
    have hstep := Passed.step (t := 3) .refl hs' (by simp [hready']) (by simp [hcur'])
    rwa [hturns] at hstep
  exact ⟨s, s', hpassed, waiting_bounded (reach_runAll (.init booted_atBoot) hs) (by simp [hready])
    hpassed⟩

end Scheduler

end Ulysses
