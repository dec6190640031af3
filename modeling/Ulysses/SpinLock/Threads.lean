import Mathlib.Logic.Function.Basic
import Ulysses.Lib.Reach
import Ulysses.SpinLock

/-!
# The spin lock between threads

`lock` and `unlock` by any number of threads, each access to a field of the lock a step of its
own, in any order. A thread that preempts another one and a second CPU are covered: nothing is
assumed about who runs next. An interrupt handler that takes the lock is not: it runs as the
interrupted thread, which is at one place at a time here.

Whatever the order, at most one thread is inside, the lock names it and counts its blocks, and no
assertion of `unlock` fails (`LockSystem.mutual_exclusion`). The saved interrupt flag is another
matter: it belongs to the lock and not to the owner (`SpinLock.restores_iff_unnested`).
-/

namespace Ulysses

open Lib

namespace LockSystem

/-- Where a thread is: outside both functions, or before the named access in one of them. -/
inductive Pc
  | idle
  /-- `if(enable_interrupts_) cpu::disable_interrupts()`. -/
  | saved (f : Option String) (l : Int)
  /-- The first compare-and-swap. -/
  | attempt (f : Option String) (l : Int)
  /-- `locker_ == cur`. -/
  | compare (f : Option String) (l : Int)
  /-- The load of `recursive_++`. -/
  | reenter (f : Option String) (l : Int)
  /-- The store of `recursive_++`. -/
  | reenterStore (f : Option String) (l : Int) (r : Nat)
  /-- The compare-and-swap of the loop. -/
  | spin (f : Option String) (l : Int)
  /-- `file_ = f`. -/
  | taken (f : Option String) (l : Int)
  /-- `line_ = l`. -/
  | line (l : Int)
  /-- `file_ = 0`. -/
  | clearFile
  /-- `line_ = -1`. -/
  | clearLine
  /-- `recursive_ > 0`. -/
  | nested
  /-- The load of `recursive_--`. -/
  | leave
  /-- The store of `recursive_--`. -/
  | leaveStore (r : Nat)
  /-- The compare-and-swap of `unlock`. -/
  | release
  /-- `if(enable_interrupts_) cpu::enable_interrupts()`. -/
  | restore
  deriving DecidableEq

/-- The acquisitions that the lock counts and the thread's blocks do not show: `lock` has taken
the lock and not returned, or `unlock` has been called and has not let go. -/
def Pc.extra : Pc → Nat
  | .taken .. | .line _ | .clearFile | .clearLine | .nested | .leave | .leaveStore _
  | .release => 1
  | _ => 0

end LockSystem

/-- A lock and the threads that use it. `depth` is the number of blocks a thread has open: the
calls of `lock` that have returned, less the calls of `unlock`. Every thread has the interrupt
flag of the CPU it runs on. -/
structure LockSystem where
  lock : SpinLock
  pc : Nat → LockSystem.Pc
  cpu : Nat → Cpu
  depth : Nat → Nat
  failed : Bool

namespace LockSystem

def setPc (t : Nat) (pc : Pc) (s : LockSystem) : LockSystem :=
  { s with pc := Function.update s.pc t pc }

def setLock (l : SpinLock) (s : LockSystem) : LockSystem := { s with lock := l }

def setCpu (t : Nat) (c : Cpu) (s : LockSystem) : LockSystem :=
  { s with cpu := Function.update s.cpu t c }

def setDepth (t d : Nat) (s : LockSystem) : LockSystem :=
  { s with depth := Function.update s.depth t d }

/-- The next access of a thread inside `lock` or `unlock`. -/
def advance (t : Nat) (s : LockSystem) : LockSystem :=
  match s.pc t with
  | .idle => s
  | .saved f l =>
    (s.setCpu t (if s.lock.enableInterrupts then (s.cpu t).disableInterrupts.2
      else s.cpu t)).setPc t (.attempt f l)
  | .attempt f l =>
    if s.lock.locker = none then
      (s.setLock { s.lock with locker := some t }).setPc t (.taken f l)
    else s.setPc t (.compare f l)
  | .compare f l =>
    if s.lock.locker = some t then s.setPc t (.reenter f l) else s.setPc t (.spin f l)
  | .reenter f l => s.setPc t (.reenterStore f l s.lock.recursive)
  | .reenterStore f l r =>
    (s.setLock { s.lock with recursive := r + 1 }).setPc t (.taken f l)
  | .spin f l =>
    if s.lock.locker = none then
      (s.setLock { s.lock with locker := some t }).setPc t (.taken f l)
    else s
  | .taken f l => (s.setLock { s.lock with file := f }).setPc t (.line l)
  | .line l =>
    ((s.setLock { s.lock with line := l }).setPc t .idle).setDepth t (s.depth t + 1)
  | .clearFile => (s.setLock { s.lock with file := none }).setPc t .clearLine
  | .clearLine => (s.setLock { s.lock with line := -1 }).setPc t .nested
  | .nested => s.setPc t (if s.lock.recursive > 0 then .leave else .release)
  | .leave => s.setPc t (.leaveStore s.lock.recursive)
  | .leaveStore r => (s.setLock { s.lock with recursive := r - 1 }).setPc t .restore
  | .release =>
    if s.lock.locker = some t then
      (s.setLock { s.lock with locker := none }).setPc t .restore
    else { s with failed := true }
  | .restore =>
    (s.setCpu t (if s.lock.enableInterrupts then (s.cpu t).enableInterrupts.2
      else s.cpu t)).setPc t .idle

inductive Action
  | lock (f : Option String) (l : Int)
  | unlock
  | advance

/-- One step of a thread. `unlock` is called at the end of a block only. -/
def step (t : Nat) (s : LockSystem) : Action → Option LockSystem
  | .lock f l =>
    if s.pc t = .idle then
      some ((s.setLock { s.lock with
        enableInterrupts := (s.cpu t).interruptsEnabledP }).setPc t (.saved f l))
    else none
  | .unlock =>
    if s.pc t = .idle ∧ 0 < s.depth t then
      -- the first assertion
      if s.lock.locker = some t then
        some ((s.setPc t .clearFile).setDepth t (s.depth t - 1))
      else some { s with failed := true }
    else none
  | .advance => if s.pc t = .idle then none else some (s.advance t)

/-- A lock as the constructor leaves it, with every thread outside. -/
structure Initial (s : LockSystem) : Prop where
  free : s.lock.Free
  pc : ∀ t, s.pc t = .idle
  depth : ∀ t, s.depth t = 0
  failed : s.failed = false

def Step (s s' : LockSystem) : Prop := ∃ t a, s.step t a = some s'

/-- What the lock should count for a thread. -/
def acquisitions (s : LockSystem) (t : Nat) : Nat := s.depth t + (s.pc t).extra

/-! ## One step -/

/-- How a step of the thread `t` can change the owner, the counter and the acquisitions of `t`,
which are `n` before and `n'` after it. -/
inductive Change (t : Nat) (l l' : SpinLock) (n n' : Nat) : Prop
  | same (hl : l'.locker = l.locker) (hr : l'.recursive = l.recursive) (hn : n' = n)
  | acquire (hl : l.locker = none) (hl' : l'.locker = some t) (hr : l'.recursive = l.recursive)
      (hn : n' = n + 1)
  | reenter (hl : l.locker = some t) (hl' : l'.locker = some t)
      (hr : l'.recursive = l.recursive + 1) (hn : n' = n + 1)
  | leave (hl : l.locker = some t) (hl' : l'.locker = some t)
      (hr : l.recursive = l'.recursive + 1) (hn : n = n' + 1)
  | release (hl : l.locker = some t) (hl' : l'.locker = none) (hr : l'.recursive = l.recursive)
      (hzero : l.recursive = 0) (hn : n = n' + 1)

/-- What a thread relies on at its place in the code. -/
def PcOk (l : SpinLock) (n : Nat) : Pc → Prop
  | .spin .. => n = 0
  | .reenter .. => 0 < n
  | .reenterStore _ _ r => 0 < n ∧ r = l.recursive
  | .leave => 0 < l.recursive
  | .leaveStore r => 0 < r ∧ r = l.recursive
  | .release => l.recursive = 0
  | _ => True

/-- The owner is the thread with acquisitions, and the counter is one less than they are. -/
structure Inv (s : LockSystem) : Prop where
  owner : ∀ t, s.lock.locker = some t ↔ 0 < s.acquisitions t
  count : ∀ t, 0 < s.acquisitions t → s.lock.recursive + 1 = s.acquisitions t
  free : s.lock.locker = none → s.lock.recursive = 0
  pcs : ∀ t, PcOk s.lock (s.acquisitions t) (s.pc t)
  failed : s.failed = false

theorem Initial.inv {s : LockSystem} (h : s.Initial) : s.Inv := by
  have hzero : ∀ t, s.acquisitions t = 0 := by
    intro t
    rw [acquisitions, h.depth t, h.pc t]
    rfl
  refine ⟨fun t => ?_, fun t ht => ?_, fun _ => h.free.2, fun t => ?_, h.failed⟩
  · rw [h.free.1, hzero t]
    simp
  · rw [hzero t] at ht
    cases ht
  · rw [h.pc t]
    trivial

section

variable {s s' : LockSystem} {t : Nat}

/-- A thread that the lock does not count relies on nothing that others write. -/
theorem PcOk.of_zero {l l' : SpinLock} {d : Nat} {pc : Pc} (h : PcOk l (d + pc.extra) pc)
    (hzero : d + pc.extra = 0) : PcOk l' (d + pc.extra) pc := by
  cases pc <;> simp_all [PcOk, Pc.extra]

/-- A change that the code of one thread makes, and nothing of the others. -/
structure Moves (t : Nat) (s s' : LockSystem) : Prop where
  change : Change t s.lock s'.lock (s.acquisitions t) (s'.acquisitions t)
  pc : PcOk s'.lock (s'.acquisitions t) (s'.pc t)
  others : ∀ u, u ≠ t → s'.pc u = s.pc u ∧ s'.depth u = s.depth u
  failed : s'.failed = s.failed

theorem Moves.acquisitions (h : Moves t s s') {u : Nat} (hu : u ≠ t) :
    s'.acquisitions u = s.acquisitions u := by
  unfold LockSystem.acquisitions
  rw [(h.others u hu).1, (h.others u hu).2]

/-- While another thread owns the lock nothing changes. -/
theorem Moves.same_of_owner (h : Moves t s s') {u : Nat} (hu : u ≠ t)
    (howner : s.lock.locker = some u) :
    s'.lock.locker = some u ∧ s'.lock.recursive = s.lock.recursive := by
  have hne : s.lock.locker ≠ some t := by
    rw [howner]
    exact fun h => hu (Option.some.inj h)
  cases h.change with
  | same hl hr hn => exact ⟨hl.trans howner, hr⟩
  | acquire hl => rw [howner] at hl; cases hl
  | reenter hl => exact absurd hl hne
  | leave hl => exact absurd hl hne
  | release hl => exact absurd hl hne

theorem Inv.moves (h : s.Inv) (hm : Moves t s s') : s'.Inv := by
  have hacq := h.owner t
  have hcount := h.count t
  have hown : ∀ u, s'.lock.locker = some u ↔ 0 < s'.acquisitions u := by
    intro u
    by_cases hu : u = t
    · subst hu
      cases hm.change with
      | same hl hr hn => rw [hl, hn]; exact hacq
      | acquire hl hl' hr hn => rw [hl', hn]; simp
      | reenter hl hl' hr hn => rw [hl', hn]; simp
      | leave hl hl' hr hn =>
        have := hcount (hacq.1 hl)
        rw [hl']
        simp only [true_iff]
        omega
      | release hl hl' hr hzero hn =>
        have := hcount (hacq.1 hl)
        rw [hl']
        simp only [reduceCtorEq, false_iff]
        omega
    · rw [hm.acquisitions hu, ← h.owner u]
      cases hm.change with
      | same hl hr hn => rw [hl]
      | acquire hl hl' hr hn => rw [hl, hl']; simpa using fun h => hu h.symm
      | reenter hl hl' hr hn => rw [hl, hl']
      | leave hl hl' hr hn => rw [hl, hl']
      | release hl hl' hr hzero hn => rw [hl, hl']; simpa using fun h => hu h.symm
  refine ⟨hown, fun u hu => ?_, fun hnone => ?_, fun u => ?_, hm.failed.trans h.failed⟩
  · by_cases hut : u = t
    · subst hut
      cases hm.change with
      | same hl hr hn => rw [hr, hn]; exact hcount (hn ▸ hu)
      | acquire hl hl' hr hn =>
        have hz : ¬ 0 < s.acquisitions u := fun hpos => by
          rw [hacq.2 hpos] at hl
          cases hl
        rw [hr, h.free hl]
        omega
      | reenter hl hl' hr hn => have := hcount (hacq.1 hl); omega
      | leave hl hl' hr hn => have := hcount (hacq.1 hl); omega
      | release hl hl' hr hzero hn => have := hcount (hacq.1 hl); omega
    · rw [hm.acquisitions hut] at hu ⊢
      rw [(hm.same_of_owner hut ((h.owner u).2 hu)).2]
      exact h.count u hu
  · cases hm.change with
    | same hl hr hn => rw [hr]; exact h.free (hl ▸ hnone)
    | acquire hl hl' hr hn => rw [hl'] at hnone; cases hnone
    | reenter hl hl' hr hn => rw [hl'] at hnone; cases hnone
    | leave hl hl' hr hn => rw [hl'] at hnone; cases hnone
    | release hl hl' hr hzero hn => rw [hr, hzero]
  · by_cases hut : u = t
    · subst hut
      exact hm.pc
    · have hpc := h.pcs u
      rw [hm.acquisitions hut, (hm.others u hut).1]
      by_cases hpos : 0 < s.acquisitions u
      · -- the owner's counter is untouched
        have hsame := (hm.same_of_owner hut ((h.owner u).2 hpos)).2
        revert hpc
        cases s.pc u <;> simp [PcOk, hsame]
      · exact PcOk.of_zero hpc (Nat.eq_zero_of_not_pos hpos)

/-- A step that goes on to `pc'` and leaves the open blocks as they are. -/
theorem moves_goto {l : SpinLock} {c : Nat → Cpu} {pc pc' : Pc} (hp : s.pc t = pc)
    (hchange : Change t s.lock l (s.depth t + pc.extra) (s.depth t + pc'.extra))
    (hok : PcOk l (s.depth t + pc'.extra) pc') :
    Moves t s { s with lock := l, cpu := c, pc := Function.update s.pc t pc' } := by
  refine ⟨?_, ?_, fun u hu => ⟨Function.update_of_ne hu _ _, rfl⟩, rfl⟩
  · simpa [acquisitions, hp] using hchange
  · simpa [acquisitions] using hok

theorem Inv.moves_advance (h : s.Inv) (hbusy : s.pc t ≠ .idle) : Moves t s (s.advance t) := by
  have hok := h.pcs t
  have howner := h.owner t
  unfold acquisitions at hok howner
  unfold advance
  cases hp : s.pc t with
  | idle => exact absurd hp hbusy
  | saved f l => exact moves_goto hp (.same rfl rfl rfl) trivial
  | attempt f l =>
    dsimp only
    split
    · next hfree => exact moves_goto hp (.acquire hfree rfl rfl rfl) trivial
    · exact moves_goto hp (.same rfl rfl rfl) trivial
  | compare f l =>
    rw [hp] at howner
    dsimp only
    split
    · next hown => exact moves_goto hp (.same rfl rfl rfl) (howner.1 hown)
    · next hown =>
      have hzero := Nat.eq_zero_of_not_pos fun hpos => hown (howner.2 hpos)
      exact moves_goto hp (.same rfl rfl rfl) hzero
  | reenter f l =>
    rw [hp] at hok
    exact moves_goto hp (.same rfl rfl rfl) ⟨hok, rfl⟩
  | reenterStore f l r =>
    rw [hp] at hok howner
    obtain ⟨hpos, rfl⟩ := hok
    have hown := howner.2 hpos
    exact moves_goto hp (.reenter hown hown rfl rfl) trivial
  | spin f l =>
    dsimp only
    split
    · next hfree => exact moves_goto hp (.acquire hfree rfl rfl rfl) trivial
    · exact ⟨.same rfl rfl rfl, h.pcs t, fun u hu => ⟨rfl, rfl⟩, rfl⟩
  | taken f l => exact moves_goto hp (.same rfl rfl rfl) trivial
  | line l =>
    refine ⟨.same rfl rfl ?_, ?_,
      fun u hu => ⟨Function.update_of_ne hu _ s.pc, Function.update_of_ne hu _ s.depth⟩, rfl⟩
    · simp [acquisitions, setPc, setLock, setDepth, hp, Pc.extra]
    · simp [setPc, setLock, setDepth, PcOk]
  | clearFile => exact moves_goto hp (.same rfl rfl rfl) trivial
  | clearLine => exact moves_goto hp (.same rfl rfl rfl) trivial
  | nested =>
    dsimp only
    split
    · next hr => exact moves_goto hp (.same rfl rfl rfl) hr
    · next hr => exact moves_goto hp (.same rfl rfl rfl) (Nat.eq_zero_of_not_pos hr)
  | leave =>
    rw [hp] at hok
    exact moves_goto hp (.same rfl rfl rfl) ⟨hok, rfl⟩
  | leaveStore r =>
    rw [hp] at hok howner
    obtain ⟨hr, rfl⟩ := hok
    have hown := howner.2 (Nat.succ_pos _)
    exact moves_goto hp (.leave hown hown (Nat.sub_add_cancel hr).symm rfl) trivial
  | release =>
    rw [hp] at hok howner
    have hown := howner.2 (Nat.succ_pos _)
    dsimp only
    rw [if_pos hown]
    exact moves_goto hp (.release hown rfl rfl hok rfl) trivial
  | restore => exact moves_goto hp (.same rfl rfl rfl) trivial

theorem Inv.step {a : Action} (h : s.Inv) (hs : s.step t a = some s') : s'.Inv := by
  apply h.moves (t := t)
  cases a with
  | lock f l =>
    obtain ⟨hp, ⟨⟩⟩ := Option.ite_none_right_eq_some.1 hs
    exact moves_goto hp (.same rfl rfl rfl) trivial
  | unlock =>
    obtain ⟨⟨hp, hdepth⟩, hs⟩ := Option.ite_none_right_eq_some.1 hs
    have hown := (h.owner t).2 (Nat.add_pos_left hdepth _)
    rw [if_pos hown] at hs
    obtain rfl := Option.some.inj hs
    refine ⟨.same rfl rfl ?_, ?_,
      fun u hu => ⟨Function.update_of_ne hu _ s.pc, Function.update_of_ne hu _ s.depth⟩, rfl⟩
    · simpa [acquisitions, setPc, setDepth, hp, Pc.extra] using Nat.sub_add_cancel hdepth
    · simp [setPc, setDepth, PcOk]
  | advance =>
    obtain ⟨hp, ⟨⟩⟩ := Option.ite_none_left_eq_some.1 hs
    exact h.moves_advance hp

theorem Inv.of_reach (h : Reach Initial Step s) : s.Inv := by
  refine h.invariant (fun s h0 => h0.inv) ?_
  rintro s s' hinv ⟨t, a, hs⟩
  exact hinv.step hs

end

/-! ## Without interference

The steps of one call, with no other thread in between, are `SpinLock.lock` and
`SpinLock.unlock`. -/

section

variable {s : LockSystem} {t : Nat} {lk : SpinLock} {c : Cpu}

theorem lock_alone {f : Option String} {l : Int} (hp : s.pc t = .idle)
    (hl : s.lock.lock t f l (s.cpu t) = some (lk, c)) :
    ∃ s₁ n, s.step t (.lock f l) = some s₁ ∧
      (advance t)^[n] s₁ = ((s.setLock lk).setCpu t c).setDepth t (s.depth t + 1) := by
  cases hloc : s.lock.locker with
  | none =>
    simp only [SpinLock.lock, hloc, Option.some.injEq, Prod.mk.injEq] at hl
    obtain ⟨rfl, rfl⟩ := hl
    refine ⟨_, 4, if_pos hp, ?_⟩
    simp [advance, setPc, setLock, setCpu, setDepth, hloc, hp]
  | some u =>
    simp only [SpinLock.lock, hloc, Option.ite_none_right_eq_some, Option.some.injEq,
      Prod.mk.injEq] at hl
    obtain ⟨rfl, rfl, rfl⟩ := hl
    refine ⟨_, 7, if_pos hp, ?_⟩
    simp [advance, setPc, setLock, setCpu, setDepth, hloc, hp]

theorem unlock_alone (hp : s.pc t = .idle) (hdepth : 0 < s.depth t)
    (hl : s.lock.unlock t (s.cpu t) = some (lk, c)) :
    ∃ s₁ n, s.step t .unlock = some s₁ ∧
      (advance t)^[n] s₁ = ((s.setLock lk).setCpu t c).setDepth t (s.depth t - 1) := by
  obtain ⟨hloc, hl⟩ := Option.ite_none_right_eq_some.1 hl
  obtain ⟨rfl, rfl⟩ := Prod.mk.inj (Option.some.inj hl)
  by_cases hr : 0 < s.lock.recursive
  · refine ⟨_, 6, (if_pos ⟨hp, hdepth⟩).trans (if_pos hloc), ?_⟩
    simp [advance, setPc, setLock, setCpu, setDepth, hloc, hp, hr]
  · refine ⟨_, 5, (if_pos ⟨hp, hdepth⟩).trans (if_pos hloc), ?_⟩
    simp [advance, setPc, setLock, setCpu, setDepth, hloc, hp, hr]

end

/-- **Mutual exclusion.** However the accesses of the threads to the lock are interleaved, no
assertion of `unlock` fails, at most one thread is inside and it owns the lock, outside the two
functions the counter is one less than its open blocks, no thread spins on its own lock, and the
lock is free once all threads are done. -/
theorem mutual_exclusion {s : LockSystem} (h : Reach Initial Step s) :
    s.failed = false ∧ (∀ t u, 0 < s.depth t → 0 < s.depth u → t = u) ∧
      (∀ t, 0 < s.depth t → s.lock.locker = some t) ∧
      (∀ t, 0 < s.depth t → s.pc t = .idle → s.lock.recursive + 1 = s.depth t) ∧
      (∀ t f l, s.pc t = .spin f l → s.lock.locker ≠ some t) ∧
      ((∀ t, s.pc t = .idle ∧ s.depth t = 0) → s.lock.Free) := by
  have hinv := Inv.of_reach h
  have howner : ∀ t, 0 < s.depth t → s.lock.locker = some t := fun t ht =>
    (hinv.owner t).2 (Nat.add_pos_left ht _)
  refine ⟨hinv.failed, fun t u ht hu => ?_, howner, fun t ht hp => ?_, fun t f l hp hown => ?_,
    fun hdone => ?_⟩
  · exact Option.some.inj ((howner t ht).symm.trans (howner u hu))
  · have hcount := hinv.count t (Nat.add_pos_left ht _)
    rwa [acquisitions, hp] at hcount
  · have hzero := hinv.pcs t
    rw [hp] at hzero
    exact Nat.ne_of_gt ((hinv.owner t).1 hown) hzero
  · have hnone : s.lock.locker = none := by
      cases hl : s.lock.locker with
      | none => rfl
      | some t =>
        have hpos := (hinv.owner t).1 hl
        rw [acquisitions, (hdone t).1, (hdone t).2] at hpos
        cases hpos
    exact ⟨hnone, hinv.free hnone⟩

/-- Thread 2 calls `lock` between the calls of thread 1 and its compare-and-swap, and spins. -/
theorem mutual_exclusion_contended : ∃ s : LockSystem, Reach Initial Step s ∧ s.depth 1 = 1 ∧
    s.pc 2 = .spin none 7 ∧ s.lock.locker = some 1 ∧ s.lock.recursive = 0 ∧ s.failed = false := by
  let s₀ : LockSystem := ⟨{}, fun _ => .idle, fun _ => ⟨true⟩, fun _ => 0, false⟩
  let acts : List (Nat × Action) :=
    [(1, .lock none 3), (2, .lock none 7), (1, .advance), (1, .advance), (2, .advance),
      (2, .advance), (2, .advance), (1, .advance), (1, .advance)]
  have hstart : Reach Initial Step s₀ :=
    .init ⟨⟨rfl, rfl⟩, fun _ => rfl, fun _ => rfl, rfl⟩
  obtain ⟨s, hs, hdepth, hpc, hidle⟩ : ∃ s, acts.foldlM (fun s a => s.step a.1 a.2) s₀ = some s ∧
      s.depth 1 = 1 ∧ s.pc 2 = .spin none 7 ∧ s.pc 1 = .idle := ⟨_, rfl, rfl, rfl, rfl⟩
  have hr : Reach Initial Step s := Reach.foldlM (fun s a s' h => ⟨a.1, a.2, h⟩) hstart hs
  obtain ⟨hok, -, hown, hcount, -⟩ := mutual_exclusion hr
  have hpos : 0 < s.depth 1 := by rw [hdepth]; exact Nat.one_pos
  have hrec := hcount 1 hpos hidle
  exact ⟨s, hr, hdepth, hpc, hown 1 hpos, by omega, hok⟩

end LockSystem

end Ulysses
