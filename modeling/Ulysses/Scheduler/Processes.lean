import Ulysses.LinkedList.Sequence
import Ulysses.Scheduler.Moves

/-!
# The process table

`processes_` has an entry for every pid. `fork` takes the first free one, `exit` puts the process
on `cleanup_`, and the idle thread later takes the processes on that list out of the table and
frees them.

In every state of a run the table is exact: `find_process` finds the process that has the pid and
has not been freed, and no two such processes share a pid (`process_table_exact`). A process is
freed once, when its thread has left every queue, and nothing brings the thread back
(`freed_never_runs`).
-/

namespace Ulysses

open Lib

/-- The scheduler with `processes_`, `cleanup_` and `lists[cCleanup]` of every process. `spawned`
says that `kmain` has called `spawn_init`, and `freed` lists the processes that `kfree` got. -/
structure ProcessSystem where
  sched : Scheduler
  table : Nat → Option Nat
  cleanup : LinkedList.Pool Nat
  spawned : Bool
  freed : List Nat

namespace ProcessSystem

/-- `cMaxProcesses`. -/
def maxProcesses : Nat := 512

/-- `new_pid`; `none` is `kabort`. -/
def newPid (s : ProcessSystem) : Option Nat :=
  (List.range maxProcesses).find? fun i => (s.table i).isNone

/-- `find_process`, for a pid inside `processes_`: the source does not check it, and the entry
behind the last one is the head of `cleanup_`. -/
def findProcess (pid : Fin maxProcesses) (s : ProcessSystem) : Option Nat := s.table pid

/-- The process of the current thread. -/
def process (s : ProcessSystem) : Nat := (s.sched.threads s.sched.current).process

/-- The loop of `cleanup` from the iterator at `node`, for at most so many turns; `none` is a list
that goes on. -/
def cleanupFrom : Nat → Option Nat → ProcessSystem → Option ProcessSystem
  | _, none, s => some s
  | 0, some _, _ => none
  | n + 1, some p, s =>
    -- the iterator advances before the process is freed
    let node := (s.cleanup.1 p).next
    cleanupFrom n node
      { s with
        cleanup := s.cleanup.2.unlink p s.cleanup.1
        table := Function.update s.table (s.sched.pid p) none
        freed := p :: s.freed }

def runCleanup (s : ProcessSystem) : Option ProcessSystem :=
  cleanupFrom s.cleanup.2.count.toNat s.cleanup.2.head s

inductive Event
  | sched (e : Scheduler.Event)
  | fork (t : Tid) (p : Nat) (unset : ThreadState)
  | spawnInit (t : Tid) (p : Nat) (unset : ThreadState)
  | exit
  /-- The `cleanup` of `on_idle`; its `switch_thread` is a `yield`. -/
  | cleanup

/-- The events that do nothing to the processes. -/
def plain : Scheduler.Event → Bool
  | .fork .. | .spawnInit .. | .exit => false
  | _ => true

/-- The idle thread is `kmain`: it calls `spawn_init` once, and never `fork`. -/
def step (s : ProcessSystem) : Event → Option ProcessSystem
  | .sched e => if plain e then (s.sched.step e).map fun sched => { s with sched } else none
  | .fork t p unset =>
    if s.sched.current ≠ s.sched.idleThread then
      s.newPid.bind fun pid => (s.sched.step (.fork t p pid unset)).map fun sched =>
        { s with
          sched
          table := Function.update s.table pid (some p)
          cleanup := (Function.update s.cleanup.1 p LinkedList.blank, s.cleanup.2) }
    else none
  | .spawnInit t p unset =>
    if s.sched.current = s.sched.idleThread ∧ s.spawned = false then
      (s.sched.step (.spawnInit t p unset)).map fun sched =>
        { s with
          sched
          table := Function.update s.table 1 (some p)
          cleanup := (Function.update s.cleanup.1 p LinkedList.blank, s.cleanup.2)
          spawned := true }
    else none
  | .exit => (s.sched.step .exit).map fun sched =>
    { s with sched, cleanup := s.cleanup.2.prepend s.process s.cleanup.1 }
  | .cleanup =>
    if s.sched.current = s.sched.idleThread ∧ s.sched.pc s.sched.idleThread = .run then
      s.runCleanup
    else none

structure Booted (s : ProcessSystem) : Prop where
  sched : s.sched.Booted
  table : ∀ i, s.table i =
    if i = 0 then some (s.sched.threads s.sched.idleThread).process else none
  cleanup : s.cleanup = LinkedList.initial
  spawned : s.spawned = false
  freed : s.freed = []

/-- One step of a run. -/
def Step (s s' : ProcessSystem) : Prop := ∃ e, s.step e = some s'

/-- There has been such a process. -/
def Exists (s : ProcessSystem) (p : Nat) : Prop :=
  ∃ t ∈ s.sched.created, (s.sched.threads t).process = p

/-- What holds in every state of a run, with the processes `xs` on `cleanup_`. -/
structure Inv (s : ProcessSystem) (xs : List Nat) : Prop where
  sched : ∃ rs ws, s.sched.Inv rs ws
  table : ∀ i p, s.table i = some p ↔ s.Exists p ∧ p ∉ s.freed ∧ s.sched.pid p = i
  bound : ∀ p, s.Exists p → s.sched.pid p < maxProcesses
  cleanup : s.cleanup.Inv xs
  listed : ∀ p, p ∈ xs ∨ p ∈ s.freed → s.Exists p
  exited : ∀ t ∈ s.sched.created, s.sched.Exited t ↔
    (s.sched.threads t).process ∈ xs ∨ (s.sched.threads t).process ∈ s.freed
  once : ∀ p ∈ xs, p ∉ s.freed
  nodup : s.freed.Nodup
  gone : ∀ t ∈ s.sched.created, (s.sched.threads t).process ∈ s.freed → t ≠ s.sched.current
  single : s.spawned = false → s.sched.created = [s.sched.idleThread]

end ProcessSystem

/-! ## The exited threads -/

namespace Scheduler

open ProcessSystem

variable {s s' : Scheduler} {rs ws : List Tid} {e : Event} {t : Tid}

/-- An exited thread is in no queue. -/
theorem Inv.exited_out (h : s.Inv rs ws) (ht : t ∈ s.created) (hpc : s.Exited t) :
    t ∉ rs ∧ t ∉ ws := by
  have hrow := h.row t ht
  rcases hpc with hpc | hpc
  · rw [hpc] at hrow
    exact hrow.2
  · rw [hpc] at hrow
    exact hrow.2

theorem Inv.exited_ne_idle (h : s.Inv rs ws) (hpc : s.Exited t) : t ≠ s.idleThread := by
  rintro rfl
  obtain ⟨hleaving, haway⟩ := h.idle_pc .exit
  exact hpc.elim hleaving haway

theorem Switched.ne {idle cur n : Tid} {rs' : List Tid} (h : Switched idle cur rs n rs')
    (hidle : t ≠ idle) (hcur : t ≠ cur) (hrs : t ∉ rs) : t ≠ n := by
  cases h with
  | empty _ => exact hidle
  | keep _ => exact hcur
  | next hlist _ _ =>
    rintro rfl
    exact hrs (hlist ▸ List.mem_cons_self)
  | idle _ => exact hidle

/-- An exited thread that does not run is not switched to. -/
theorem Inv.exited_ne_current (h : s.Inv rs ws) (hs : s.step e = some s') (ht : t ∈ s.created)
    (hpc : s.Exited t) (hne : t ≠ s.current) : t ≠ s'.current := by
  obtain ⟨hrs, hws⟩ := h.exited_out ht hpc
  have hidle := h.exited_ne_idle hpc
  by_cases he : e = .timer
  · subst he
    obtain ⟨s₁, rs', hs₁, -, -, hticked⟩ := h.timer
    obtain rfl := Option.some.inj (hs.symm.trans hs₁)
    generalize s'.current = n at hticked ⊢
    cases hticked with
    | quiet _ => exact hne
    | woke _ hswitched =>
      refine hswitched.ne hidle hne fun hmem => ?_
      rcases List.mem_append.1 hmem with hmem | hmem
      · exact hws (List.mem_of_mem_filter (List.mem_reverse.1 hmem))
      · exact hrs hmem
  · obtain ⟨rs', ws', -, -, hchange⟩ := h.change he hs
    generalize s'.current = n at hchange ⊢
    cases hchange with
    | switch _ hswitched => exact hswitched.ne hidle hne hrs
    | _ => exact hne

/-- Only `exit` makes a thread an exited one, and it stays one. -/
theorem Inv.exited_iff (h : s.Inv rs ws) (hs : s.step e = some s') (he : plain e = true)
    (ht : t ∈ s.created) : s'.Exited t ↔ s.Exited t := by
  unfold Exited
  have hspawn : spawns e = false := by
    cases e <;> simp_all [plain, spawns]
  rcases h.effect hs t with heff | hnew
  · rcases heff.moves with ⟨hpc, -⟩ | ⟨hcur, hmoves⟩
    · rw [hpc]
    · have hrow := h.row t ht
      have hreturned := h.returned
      rw [← hcur] at hreturned
      generalize s.pc t = pc, s'.pc t = pc', (s.threads t).state = st,
        (s'.threads t).state = st' at hmoves hrow hreturned ⊢
      cases hmoves with
      | exit => cases he
      | switch => simp
      | @resume c =>
        -- a thread that returns from a call was in the ready queue
        simp only [ reduceCtorEq, or_self, false_or, false_iff]
        rintro hc
        obtain rfl := Pc.away.inj hc
        exact hrow.2.1 (hreturned .exit rfl)
      | _ => simp
  · rw [hspawn] at hnew
    cases hnew.1

end Scheduler

namespace ProcessSystem

section

variable {s s' : ProcessSystem} {xs : List Nat}

/-! ## The steps -/

theorem Booted.inv (h : s.Booted) : s.Inv [] := by
  have hcreated := h.sched.created
  obtain ⟨hpid, -, hpc⟩ := h.sched.idle
  have hexists : ∀ p, s.Exists p ↔ p = (s.sched.threads s.sched.idleThread).process := by
    intro p
    simp [Exists, hcreated, eq_comm]
  refine ⟨⟨[], [], h.sched.inv⟩, fun i p => ?_, fun p hp => ?_, ?_, fun p hp => ?_, fun t ht => ?_,
    by simp, by simp [h.freed], by simp [h.freed], fun _ => hcreated⟩
  · rw [h.table, hexists, h.freed]
    by_cases hi : i = 0
    · subst hi
      simp only [if_true, Option.some.injEq, List.not_mem_nil, not_false_eq_true, true_and]
      refine ⟨fun heq => ⟨heq.symm, heq ▸ hpid⟩, fun heq => heq.1.symm⟩
    · simp only [if_neg hi, reduceCtorEq, List.not_mem_nil, not_false_eq_true, true_and,
        false_iff, not_and]
      rintro rfl
      rw [hpid]
      exact Ne.symm hi
  · rw [(hexists p).1 hp, hpid]
    decide
  · rw [h.cleanup]
    exact LinkedList.inv_initial
  · simp [h.freed] at hp
  · rw [hcreated, List.mem_singleton] at ht
    subst ht
    simp [Scheduler.Exited, hpc, h.freed]

/-- What the invariant says about the processes holds as long as there are no new threads. -/
theorem Inv.steady (h : s.Inv xs) {sched : Scheduler} (hsteady : Scheduler.Steady s.sched sched) :
    (∀ p, Exists { s with sched } p ↔ s.Exists p) ∧
      (∀ i p, s.table i = some p ↔ Exists { s with sched } p ∧ p ∉ s.freed ∧ sched.pid p = i) ∧
      (∀ p, Exists { s with sched } p → sched.pid p < maxProcesses) ∧
      (s.spawned = false → sched.created = [sched.idleThread]) := by
  have hexists : ∀ p, Exists { s with sched } p ↔ s.Exists p := by
    intro p
    simp only [Exists, hsteady.created, hsteady.process]
  refine ⟨hexists, ?_⟩
  simp only [hexists, hsteady.pid, hsteady.created, hsteady.idle]
  exact ⟨h.table, h.bound, h.single⟩

theorem Inv.plain (h : s.Inv xs) {e : Scheduler.Event} (he : plain e = true) {sched : Scheduler}
    (hs : s.sched.step e = some sched) : Inv { s with sched } xs := by
  obtain ⟨rs, ws, hinv⟩ := h.sched
  have hspawn : Scheduler.spawns e = false := by
    cases e <;> simp_all [ProcessSystem.plain, Scheduler.spawns]
  have hsteady := hinv.steady hs hspawn
  obtain ⟨hexists, htable, hbound, hsingle⟩ := h.steady hsteady
  refine ⟨hinv.step hs, htable, hbound, h.cleanup, fun p hp => (hexists p).2 (h.listed p hp),
    fun t ht => ?_, h.once, h.nodup, fun t ht hfreed => ?_, hsingle⟩
  · simp only [hsteady.created] at ht
    simp only [hsteady.process]
    exact (hinv.exited_iff hs he ht).trans (h.exited t ht)
  · simp only [hsteady.created] at ht
    simp only [hsteady.process] at hfreed
    exact hinv.exited_ne_current hs ht ((h.exited t ht).2 (.inr hfreed)) (h.gone t ht hfreed)

theorem Inv.spawn (h : s.Inv xs) {t : Tid} {p pid : Nat} {sched : Scheduler} {spawned : Bool}
    (hsp : Scheduler.Spawned t p s.sched sched) (hfresh : s.sched.Fresh t p)
    (hpid : sched.pid = Function.update s.sched.pid p pid) (hinv : ∃ rs ws, sched.Inv rs ws)
    (hfree : s.table pid = none) (hbound : pid < maxProcesses) (hspawned : spawned = true) :
    Inv { s with
      sched
      table := Function.update s.table pid (some p)
      cleanup := (Function.update s.cleanup.1 p LinkedList.blank, s.cleanup.2)
      spawned } xs := by
  have hnew : ¬ s.Exists p := fun ⟨u, hu, heq⟩ => hfresh.2 u hu heq
  have hlisted : p ∉ xs ∧ p ∉ s.freed :=
    ⟨fun hp => hnew (h.listed p (.inl hp)), fun hp => hnew (h.listed p (.inr hp))⟩
  have hprocess : ∀ u ∈ s.sched.created, (sched.threads u).process = (s.sched.threads u).process :=
    fun u hu => by rw [hsp.threads u fun heq => hfresh.1 (heq ▸ hu)]
  have hself : (sched.threads t).process = p := by rw [hsp.self]
  have hexists : ∀ q, (∃ u ∈ sched.created, (sched.threads u).process = q) ↔
      q = p ∨ s.Exists q := by
    intro q
    simp only [hsp.created, List.exists_mem_cons_iff, hself]
    refine or_congr eq_comm (exists_congr fun u => and_congr_right fun hu => ?_)
    rw [hprocess u hu]
  have hkept : ∀ q, q ≠ p → sched.pid q = s.sched.pid q := fun q hq => by
    rw [hpid, Function.update_of_ne hq]
  have hown : sched.pid p = pid := by rw [hpid, Function.update_self]
  have hblank : Function.update s.cleanup.1 p LinkedList.blank = s.cleanup.1 := by
    rw [← h.cleanup.other p hlisted.1, Function.update_eq_self]
  refine ⟨hinv, fun i q => ?_, fun q hq => ?_, ?_, fun q hq => ?_, fun u hu => ?_, h.once, h.nodup,
    fun u hu hfreed => ?_, fun hfalse => ?_⟩
  · unfold Exists
    simp only [hexists]
    by_cases hq : q = p
    · subst hq
      simp only [true_or, hlisted.2, not_false_eq_true, true_and, hown, Function.update_apply]
      by_cases hi : i = pid
      · simp [hi]
      · simp only [if_neg hi]
        refine ⟨fun htable => absurd ((h.table i q).1 htable).1 hnew, fun heq => absurd heq.symm hi⟩
    · rw [hkept q hq]
      simp only [hq, false_or, Function.update_apply]
      by_cases hi : i = pid
      · subst hi
        simp only [if_true, Option.some.injEq, Ne.symm hq, false_iff]
        exact fun hlive => by simpa [hfree] using (h.table i q).2 hlive
      · simp only [if_neg hi]
        exact h.table i q
  · rcases (hexists q).1 hq with rfl | hq
    · rw [hown]
      exact hbound
    · rw [hkept q fun heq => hnew (heq ▸ hq)]
      exact h.bound q hq
  · show LinkedList.Pool.Inv (_, s.cleanup.2) xs
    rw [hblank]
    exact h.cleanup
  · exact (hexists q).2 (.inr (h.listed q hq))
  · simp only [hsp.created, List.mem_cons] at hu
    rcases hu with rfl | hu
    · simp [Scheduler.Exited, hsp.self_pc, hself, hlisted]
    · simp only [Scheduler.Exited, hsp.pc u fun heq => hfresh.1 (heq ▸ hu), hprocess u hu]
      exact h.exited u hu
  · simp only [hsp.created, List.mem_cons] at hu
    simp only [hsp.current]
    rcases hu with rfl | hu
    · rw [hself] at hfreed
      exact absurd hfreed hlisted.2
    · rw [hprocess u hu] at hfreed
      exact h.gone u hu hfreed
  · rw [hspawned] at hfalse
    cases hfalse

theorem newPid_spec {pid : Nat} (hpid : s.newPid = some pid) :
    s.table pid = none ∧ pid < maxProcesses ∧ ∀ j < pid, s.table j ≠ none := by
  obtain ⟨hnone, hbound, hfirst⟩ := List.find?_range_eq_some.1 hpid
  refine ⟨Option.isNone_iff_eq_none.1 hnone, List.mem_range.1 hbound, fun j hj hfree => ?_⟩
  simpa [hfree] using hfirst j hj

theorem Inv.fork (h : s.Inv xs) {t : Tid} {p : Nat} {unset : ThreadState}
    (hs : s.step (.fork t p unset) = some s') : s'.Inv xs := by
  obtain ⟨hcur, hs⟩ := Option.ite_none_right_eq_some.1 hs
  obtain ⟨pid, hpid, hs⟩ := Option.bind_eq_some_iff.1 hs
  obtain ⟨sched, hstep, rfl⟩ := Option.map_eq_some_iff.1 hs
  obtain ⟨rs, ws, hinv⟩ := h.sched
  obtain ⟨hfree, hbound, -⟩ := newPid_spec hpid
  have hspawned : s.spawned = true := by
    by_contra hfalse
    have hmem := hinv.current
    rw [h.single (Bool.eq_false_iff.2 hfalse), List.mem_singleton] at hmem
    exact hcur hmem
  have hnext := hinv.step hstep
  obtain ⟨⟨-, hfresh, -⟩, ⟨⟩⟩ := Option.ite_none_right_eq_some.1 hstep
  exact h.spawn (Scheduler.spawned_newThread _ _ _ _ _ _) hfresh rfl hnext hfree hbound hspawned

theorem Inv.spawnInit (h : s.Inv xs) {t : Tid} {p : Nat} {unset : ThreadState}
    (hs : s.step (.spawnInit t p unset) = some s') : s'.Inv xs := by
  obtain ⟨⟨-, hspawned⟩, hs⟩ := Option.ite_none_right_eq_some.1 hs
  obtain ⟨sched, hstep, rfl⟩ := Option.map_eq_some_iff.1 hs
  obtain ⟨rs, ws, hinv⟩ := h.sched
  -- the idle process is the only one, and its pid is 0
  have hfree : s.table 1 = none := by
    by_contra hsome
    obtain ⟨q, hq⟩ := Option.ne_none_iff_exists'.1 hsome
    obtain ⟨⟨u, hu, rfl⟩, -, hpid⟩ := (h.table 1 q).1 hq
    rw [h.single hspawned, List.mem_singleton] at hu
    rw [hu, hinv.idle_pid] at hpid
    cases hpid
  have hnext := hinv.step hstep
  obtain ⟨⟨-, hfresh⟩, ⟨⟩⟩ := Option.ite_none_right_eq_some.1 hstep
  exact h.spawn (Scheduler.spawned_newThread _ _ _ _ _ _) hfresh rfl hnext hfree (by decide) rfl

theorem Inv.exit (h : s.Inv xs) (hs : s.step .exit = some s') : s'.Inv (s.process :: xs) := by
  obtain ⟨sched, hstep, rfl⟩ := Option.map_eq_some_iff.1 hs
  obtain ⟨rs, ws, hinv⟩ := h.sched
  obtain ⟨hpc, hexit⟩ := Option.ite_none_right_eq_some.1 hstep
  obtain ⟨hl, hpc', -⟩ := hinv.exit_spec hpc hexit
  have hsteady := hl.steady
  have hmem := hinv.current
  have hnot : ¬ s.sched.Exited s.sched.current := by simp [Scheduler.Exited, hpc]
  rw [h.exited _ hmem, not_or] at hnot
  obtain ⟨hexists, htable, hbound, hsingle⟩ := h.steady hsteady
  refine ⟨hinv.step hstep, htable, hbound, h.cleanup.prepend hnot.1, fun p hp => ?_,
    fun t ht => ?_, fun p hp => ?_, h.nodup, fun t ht hfreed => ?_, hsingle⟩
  · refine (hexists p).2 ?_
    rcases hp with hp | hp
    · rcases List.mem_cons.1 hp with rfl | hp
      · exact ⟨_, hmem, rfl⟩
      · exact h.listed p (.inl hp)
    · exact h.listed p (.inr hp)
  · simp only [hsteady.created] at ht
    simp only [hsteady.process, List.mem_cons]
    by_cases hcur : t = s.sched.current
    · subst hcur
      simp [Scheduler.Exited, hpc', process]
    · have hother : (s.sched.threads t).process ≠ s.process := fun heq =>
        hcur (hinv.single t ht _ hmem heq)
      simp only [Scheduler.Exited, hl.pc t hcur, hother, false_or]
      exact h.exited t ht
  · rcases List.mem_cons.1 hp with rfl | hp
    · exact hnot.2
    · exact h.once p hp
  · simp only [hsteady.created] at ht
    simp only [hsteady.process] at hfreed
    simp only [hl.current]
    exact h.gone t ht hfreed

theorem Inv.free {p : Nat} (h : s.Inv (p :: xs)) (hidle : s.sched.current = s.sched.idleThread) :
    Inv { s with
      cleanup := s.cleanup.2.unlink p s.cleanup.1
      table := Function.update s.table (s.sched.pid p) none
      freed := p :: s.freed } xs := by
  obtain ⟨rs, ws, hinv⟩ := h.sched
  have hp : s.Exists p := h.listed p (.inl List.mem_cons_self)
  have hnot : p ∉ s.freed := h.once p List.mem_cons_self
  have hlive : s.table (s.sched.pid p) = some p := (h.table _ p).2 ⟨hp, hnot, rfl⟩
  have hnodup := h.cleanup.rep.nodup
  have hlist : s.cleanup.Inv ([] ++ p :: xs) := h.cleanup
  refine ⟨h.sched, fun i q => ?_, h.bound, hlist.unlink, fun q hq => ?_,
    fun t ht => ?_, fun q hq => ?_, List.nodup_cons.2 ⟨hnot, h.nodup⟩, fun t ht hfreed => ?_,
    h.single⟩
  · simp only [Function.update_apply, List.mem_cons, not_or]
    by_cases hi : i = s.sched.pid p
    · subst hi
      simp only [if_true, reduceCtorEq, false_iff, not_and]
      intro hq hne heq
      have hsame := (h.table _ q).2 ⟨hq, hne.2, heq⟩
      exact hne.1 (Option.some.inj (hsame.symm.trans hlive))
    · simp only [if_neg hi]
      refine (h.table i q).trans ⟨fun hq => ⟨hq.1, ⟨?_, hq.2.1⟩, hq.2.2⟩,
        fun hq => ⟨hq.1, hq.2.1.2, hq.2.2⟩⟩
      rintro rfl
      exact hi hq.2.2.symm
  · rcases hq with hq | hq
    · exact h.listed q (.inl (List.mem_cons_of_mem p hq))
    · rcases List.mem_cons.1 hq with rfl | hq
      · exact hp
      · exact h.listed q (.inr hq)
  · refine (h.exited t ht).trans ?_
    simp only [List.mem_cons]
    tauto
  · simp only [List.mem_cons, not_or]
    refine ⟨?_, h.once q (List.mem_cons_of_mem p hq)⟩
    rintro rfl
    exact (List.nodup_cons.1 hnodup).1 hq
  · rcases List.mem_cons.1 hfreed with heq | hfreed
    · have hexited := (h.exited t ht).2 (.inl (heq ▸ List.mem_cons_self))
      simp only [hidle]
      exact hinv.exited_ne_idle hexited
    · exact h.gone t ht hfreed

theorem Inv.cleanupFrom (h : s.Inv xs) (hidle : s.sched.current = s.sched.idleThread) :
    ∃ s', cleanupFrom xs.length xs.head? s = some s' ∧ s'.Inv [] ∧ s'.sched = s.sched ∧
      s'.freed = xs.reverse ++ s.freed := by
  induction xs generalizing s with
  | nil => exact ⟨s, rfl, h, rfl, rfl⟩
  | cons p xs ih =>
    have hlist : s.cleanup.2.Rep s.cleanup.1 ([] ++ p :: xs) := h.cleanup.rep
    obtain ⟨s', hrun, hinv, hsched, hfreed⟩ := ih (h.free hidle) hidle
    refine ⟨s', ?_, hinv, hsched, ?_⟩
    · rw [List.length_cons, List.head?_cons, ProcessSystem.cleanupFrom, hlist.next]
      exact hrun
    · rw [hfreed]
      simp

theorem Inv.runCleanup (h : s.Inv xs) (hidle : s.sched.current = s.sched.idleThread) :
    ∃ s', s.runCleanup = some s' ∧ s'.Inv [] ∧ s'.sched = s.sched ∧
      s'.freed = xs.reverse ++ s.freed := by
  unfold ProcessSystem.runCleanup
  rw [h.cleanup.rep.count, Int.toNat_natCast, h.cleanup.rep.head]
  exact h.cleanupFrom hidle

theorem Inv.step (h : s.Inv xs) {e : Event} (hs : s.step e = some s') : ∃ xs', s'.Inv xs' := by
  cases e with
  | sched e =>
    obtain ⟨he, hs⟩ := Option.ite_none_right_eq_some.1 hs
    obtain ⟨sched, hstep, rfl⟩ := Option.map_eq_some_iff.1 hs
    exact ⟨xs, h.plain he hstep⟩
  | fork t p unset => exact ⟨xs, h.fork hs⟩
  | spawnInit t p unset => exact ⟨xs, h.spawnInit hs⟩
  | exit => exact ⟨_, h.exit hs⟩
  | cleanup =>
    obtain ⟨⟨hidle, -⟩, hs⟩ := Option.ite_none_right_eq_some.1 hs
    obtain ⟨s₁, hrun, hinv, -⟩ := h.runCleanup hidle
    obtain rfl := Option.some.inj (hs.symm.trans hrun)
    exact ⟨[], hinv⟩

theorem inv_of_reach (h : Reach Booted Step s) : ∃ xs, s.Inv xs :=
  h.invariant (I := fun s => ∃ xs, s.Inv xs) (fun _ hb => ⟨[], hb.inv⟩)
    fun _ _ ⟨_, hinv⟩ ⟨_, hs⟩ => hinv.step hs

end

/-- The process exists and has not been freed. -/
def Live (s : ProcessSystem) (p : Nat) : Prop := s.Exists p ∧ p ∉ s.freed

/-- **The process table is exact.** In every state of a run a pid below `maxProcesses` is found
exactly when a live process has it; no two live processes share a pid; the current process is
live and is found under `getpid`; and the pid of a new process is the least one that no live
process has. -/
theorem process_table_exact {s : ProcessSystem} (h : Reach Booted Step s) :
    (∀ (pid : Fin maxProcesses) p,
        s.findProcess pid = some p ↔ s.Live p ∧ s.sched.pid p = pid) ∧
      (∀ p q, s.Live p → s.Live q → s.sched.pid p = s.sched.pid q → p = q) ∧
      (∃ pid : Fin maxProcesses, pid = s.sched.getpid ∧ s.findProcess pid = some s.process) ∧
      ∀ pid, s.newPid = some pid → (∀ p, s.Live p → s.sched.pid p ≠ pid) ∧
        ∀ j < pid, ∃ p, s.Live p ∧ s.sched.pid p = j := by
  obtain ⟨xs, hinv⟩ := inv_of_reach h
  obtain ⟨rs, ws, hsched⟩ := hinv.sched
  have htable : ∀ pid p, s.table pid = some p ↔ s.Live p ∧ s.sched.pid p = pid :=
    fun pid p => (hinv.table pid p).trans and_assoc.symm
  refine ⟨fun pid => htable pid, fun p q hp hq heq => ?_, ?_, fun pid hpid => ?_⟩
  · have hfind := (htable _ p).2 ⟨hp, heq⟩
    exact Option.some.inj (hfind.symm.trans ((htable _ q).2 ⟨hq, rfl⟩))
  · have hexists : s.Exists s.process := ⟨_, hsched.current, rfl⟩
    refine ⟨⟨s.sched.getpid, hinv.bound _ hexists⟩, rfl,
      (htable _ _).2 ⟨⟨hexists, fun hfreed => ?_⟩, rfl⟩⟩
    exact hinv.gone _ hsched.current hfreed rfl
  · obtain ⟨hfree, -, hfirst⟩ := newPid_spec hpid
    refine ⟨fun p hp heq => ?_, fun j hj => ?_⟩
    · have hfind := (htable pid p).2 ⟨hp, heq⟩
      rw [hfree] at hfind
      cases hfind
    · obtain ⟨p, hp⟩ := Option.ne_none_iff_exists'.1 (hfirst j hj)
      exact ⟨p, (htable j p).1 hp⟩

/-- The idle process alone. -/
def atBoot : ProcessSystem where
  sched := .atBoot
  table i := if i = 0 then some 0 else none
  cleanup := LinkedList.initial
  spawned := false
  freed := []

theorem booted_atBoot : atBoot.Booted := ⟨Scheduler.booted_atBoot, fun _ => rfl, rfl, rfl, rfl⟩

/-- Process 1 forks process 2 and exits; process 2 sleeps, and the idle thread frees process 1. -/
def exitRun : Option ProcessSystem :=
  [.spawnInit 2 1 .dead, .sched .yield, .fork 3 2 .dead, .exit, .sched .switch,
    .sched (.sleep 1), .sched .switch, .cleanup].foldlM step atBoot

theorem exists_exitRun : ∃ s, exitRun = some s ∧ Reach Booted Step s ∧ s.freed = [1] ∧
    s.sched.created = [3, 2, 1] ∧ (s.sched.threads 2).process = 1 ∧ s.newPid = some 1 := by
  have hrun : exitRun.map (fun s => (s.freed, s.sched.created, (s.sched.threads 2).process,
      s.newPid)) = some ([1], [3, 2, 1], 1, some 1) := by
    decide +kernel
  obtain ⟨s, hs, heq⟩ := Option.map_eq_some_iff.1 hrun
  simp only [Prod.mk.injEq] at heq
  exact ⟨s, hs, Reach.foldlM (fun _ e _ hx => ⟨e, hx⟩) (.init booted_atBoot) hs, heq⟩

/-- The pid of the freed process is the next one. -/
theorem process_table_exact_reused : ∃ s, exitRun = some s ∧ ∀ p, s.Live p → s.sched.pid p ≠ 1 := by
  obtain ⟨s, hs, hreach, -, -, -, hpid⟩ := exists_exitRun
  exact ⟨s, hs, ((process_table_exact hreach).2.2.2 1 hpid).1⟩

/-- **A freed process never runs.** In every state of a run: no process has been freed twice; the
thread of a freed process is not the current one, is in no queue, and nothing is going to wake it
up. The idle thread can always clean up, and then exactly the processes whose threads have called
`exit` are freed. -/
theorem freed_never_runs {s : ProcessSystem} (h : Reach Booted Step s) :
    s.freed.Nodup ∧
      (∀ t ∈ s.sched.created, (s.sched.threads t).process ∈ s.freed →
        t ≠ s.sched.current ∧ t ∉ s.sched.readyList ∧ t ∉ s.sched.waitingList ∧
          ∀ w, ¬ s.sched.Waiter t w) ∧
      (s.sched.current = s.sched.idleThread → s.sched.pc s.sched.idleThread = .run →
        ∃ s', s.step .cleanup = some s' ∧ s'.sched = s.sched ∧
          ∀ t ∈ s.sched.created, (s.sched.threads t).process ∈ s'.freed ↔ s.sched.Exited t) := by
  obtain ⟨xs, hinv⟩ := inv_of_reach h
  obtain ⟨rs, ws, hsched⟩ := hinv.sched
  refine ⟨hinv.nodup, fun t ht hfreed => ?_, fun hidle hpc => ?_⟩
  · have hexited := (hinv.exited t ht).2 (.inr hfreed)
    obtain ⟨hready, hwaiting⟩ := hsched.exited_out ht hexited
    rw [hsched.readyList_eq, hsched.waitingList_eq]
    refine ⟨hinv.gone t ht hfreed, hready, hwaiting, fun w hw => ?_⟩
    have hblocked := (hsched.waiter t w hw).2
    rcases hexited with heq | heq <;> simp [Scheduler.Blocked, heq] at hblocked
  · obtain ⟨s', hrun, hinv', hsame, hfreed⟩ := hinv.runCleanup hidle
    refine ⟨s', (if_pos ⟨hidle, hpc⟩).trans hrun, hsame, fun t ht => ?_⟩
    rw [hinv.exited t ht, hfreed, List.mem_append, List.mem_reverse]

/-- The thread of process 1 is gone. -/
theorem freed_never_runs_exited : ∃ s, exitRun = some s ∧ 2 ≠ s.sched.current := by
  obtain ⟨s, hs, hreach, hfreed, hcreated, hprocess, -⟩ := exists_exitRun
  refine ⟨s, hs, ((freed_never_runs hreach).2.1 2 ?_ ?_).1⟩
  · simp [hcreated]
  · simp [hprocess, hfreed]

end ProcessSystem

end Ulysses
