import Ulysses.Lib.Word
import Ulysses.LinkedList

/-!
# The scheduler

`scheduler.cpp` with the parts of `thread.cpp`, `block_buffer.cpp` and
`wait_queue.cpp` that make threads wait and wake up.

The sections that run under `lock_` with interrupts off are the steps. Between two
of them a timer tick, the completion of a request or a `wake` may come. How far a
thread is inside a call of the scheduler is its `pc`, which no function of the
source reads. `none` is a failed `ASSERT`, or an event that cannot happen in the
state.
-/

namespace Ulysses

open Lib

/-- `Thread::State`. -/
inductive ThreadState
  | ready
  | running
  | waiting
  | ioPending
  | ioWait
  | dieing
  | dead
deriving DecidableEq

/-- A pointer to a thread. -/
abbrev Tid := Nat

/-- `Thread`, except for its links in the run lists. -/
structure Thread where
  process : Nat
  state : ThreadState
  alarmAt : Nat

/-- The bits of `state_` and the waiter of a `block::Buffer`. -/
structure BlockBuffer where
  requested : Bool
  full : Bool
  waitingTask : Option Tid

/-- What a thread can wait for: a `Buffer` or a `WaitQueue`. -/
inductive Source
  | buffer (b : Nat)
  | queue (q : Nat)
deriving DecidableEq

/-- The calls of a thread that end with a `switch_thread`. -/
inductive Call
  | sleep
  | io (w : Source)
  | exit
deriving DecidableEq

/-- How far a thread is: outside the scheduler; after `start_io`; after it
registered with the source; before the `switch_thread` at the end of a call; inside
it. -/
inductive Pc
  | run
  | started (w : Source)
  | registered (w : Source)
  | leaving (c : Call)
  | away (c : Call)
deriving DecidableEq

/-! ## The run queues -/

/-- `ready_queue_`, `waiting_queue_`, and `lists[cRun]` of every thread. -/
structure RunQueues where
  nodes : Tid → Link Tid
  ready : LinkedList Tid
  waiting : LinkedList Tid

namespace RunQueues

def prependReady (t : Tid) (q : RunQueues) : RunQueues :=
  { q with
    nodes := (q.ready.prepend t q.nodes).1
    ready := (q.ready.prepend t q.nodes).2 }

def appendReady (t : Tid) (q : RunQueues) : RunQueues :=
  { q with
    nodes := (q.ready.append t q.nodes).1
    ready := (q.ready.append t q.nodes).2 }

def unlinkReady (t : Tid) (q : RunQueues) : RunQueues :=
  { q with
    nodes := (q.ready.unlink t q.nodes).1
    ready := (q.ready.unlink t q.nodes).2 }

def prependWaiting (t : Tid) (q : RunQueues) : RunQueues :=
  { q with
    nodes := (q.waiting.prepend t q.nodes).1
    waiting := (q.waiting.prepend t q.nodes).2 }

def unlinkWaiting (t : Tid) (q : RunQueues) : RunQueues :=
  { q with
    nodes := (q.waiting.unlink t q.nodes).1
    waiting := (q.waiting.unlink t q.nodes).2 }

end RunQueues

/-- The scheduler with the threads, buffers and wait queues it works on. A process
is a number; `pid` and `threadsOf` are its `pid_` and `threads_`. `created` lists
the threads there have been. -/
structure Scheduler where
  queues : RunQueues
  threads : Tid → Thread
  idleThread : Tid
  current : Tid
  pid : Nat → Nat
  threadsOf : Nat → List Tid
  buffers : Nat → BlockBuffer
  waitQueues : Nat → List Tid
  ticks : Nat
  pc : Tid → Pc
  created : List Tid

namespace Scheduler

def setState (t : Tid) (st : ThreadState) (s : Scheduler) : Scheduler :=
  { s with threads := Function.update s.threads t { s.threads t with state := st } }

def setPc (t : Tid) (pc : Pc) (s : Scheduler) : Scheduler :=
  { s with pc := Function.update s.pc t pc }

def makeReady (t : Tid) (s : Scheduler) : Scheduler :=
  { s.setState t .ready with queues := s.queues.prependReady t }

def makeWait (t : Tid) (s : Scheduler) : Scheduler :=
  { s.setState t .waiting with queues := s.queues.prependWaiting t }

def removeFromReady (t : Tid) (s : Scheduler) : Scheduler :=
  { s with queues := s.queues.unlinkReady t }

def removeFromWaiting (t : Tid) (s : Scheduler) : Scheduler :=
  { s with queues := s.queues.unlinkWaiting t }

/-! ## Switching -/

def switchThread (s : Scheduler) : Option Scheduler :=
  let next := if s.queues.ready.count = 0 then some s.idleThread else s.queues.ready.head
  next.map fun next =>
    if next = s.current then s
    else if next ≠ s.idleThread then
      { s with
        queues := (s.queues.unlinkReady next).appendReady next
        current := next }
    else { s with current := next }

/-! ## Time -/

/-- `secs_to_ticks`, with `SLICE_HZ` 100. -/
def secsToTicks (secs : Nat) : Nat := mul32 secs 100

def sleepTil (t : Tid) (secs : Nat) (s : Scheduler) : Scheduler :=
  { s with
    threads := Function.update s.threads t
      { s.threads t with alarmAt := add32 s.ticks (secsToTicks secs) } }

def alarmExpired (t : Tid) (s : Scheduler) : Bool :=
  (s.threads t).state = .waiting && (s.threads t).alarmAt ≠ 0 && (s.threads t).alarmAt ≤ s.ticks

/-- The loop of `on_tick` from the iterator at `node`, for at most so many turns;
`none` is a list that goes on. -/
def wakeSleepers : Nat → Option Tid → Scheduler × Bool → Option (Scheduler × Bool)
  | _, none, st => some st
  | 0, some _, _ => none
  | n + 1, some t, st =>
    -- the iterator advances before the thread moves
    let node := (st.1.queues.nodes t).next
    if st.1.alarmExpired t then
      wakeSleepers n node ((st.1.removeFromWaiting t).makeReady t, true)
    else wakeSleepers n node st

def onTick (s : Scheduler) : Option Scheduler :=
  (wakeSleepers s.queues.waiting.count.toNat s.queues.waiting.head (s, false)).bind fun st =>
    if st.2 then st.1.switchThread else some st.1

/-- The handler of the timer. -/
def timer (s : Scheduler) : Option Scheduler := onTick { s with ticks := add32 s.ticks 1 }

def getpid (s : Scheduler) : Nat := s.pid (s.threads s.current).process

/-- `sleep` up to its `switch_thread`. -/
def sleep (secs : Nat) (s : Scheduler) : Option Scheduler :=
  if s.getpid = 0 then none
  else
    let t := s.current
    some ((((s.sleepTil t secs).removeFromReady t).makeWait t).setPc t (.leaving .sleep))

/-! ## Waiting for a device -/

def startIo (w : Source) (s : Scheduler) : Scheduler :=
  (s.setState s.current .ioPending).setPc s.current (.started w)

/-- The section of `Buffer::wait` under the buffer's lock; a full buffer ends the
call. -/
def registerBuffer (b : Nat) (s : Scheduler) : Scheduler :=
  if (s.buffers b).full then s.setPc s.current .run
  else
    { s.setPc s.current (.registered (.buffer b)) with
      buffers := Function.update s.buffers b
        { s.buffers b with requested := true, waitingTask := some s.current } }

/-- The `append` of `WaitQueue::wait`. -/
def registerQueue (q : Nat) (s : Scheduler) : Scheduler :=
  { s.setPc s.current (.registered (.queue q)) with
    waitQueues := Function.update s.waitQueues q (s.waitQueues q ++ [s.current]) }

/-- `io_wait` up to its `switch_thread`. -/
def ioWait (w : Source) (s : Scheduler) : Option Scheduler :=
  if s.getpid = 0 then none
  else
    let t := s.current
    if (s.threads t).state ≠ .ioPending then some (s.setPc t .run)
    else some (((s.setState t .ioWait).removeFromReady t).setPc t (.leaving (.io w)))

/-- `state_ |= eFull`. -/
def markFull (b : Nat) (s : Scheduler) : Scheduler :=
  { s with buffers := Function.update s.buffers b { s.buffers b with full := true } }

def setFull (b : Nat) (s : Scheduler) : Scheduler :=
  match (s.buffers b).waitingTask with
  | some t => (s.markFull b).makeReady t
  | none => s.markFull b

def wake (q : Nat) (s : Scheduler) : Scheduler :=
  match s.waitQueues q with
  | [] => s
  | t :: ts =>
    ({ s with waitQueues := Function.update s.waitQueues q ts } : Scheduler).makeReady t

/-! ## Threads -/

/-- `new Thread` in the process `p`. The constructor leaves `state_` unset. -/
def newThread (t : Tid) (p : Nat) (unset : ThreadState) (s : Scheduler) : Scheduler :=
  { s with
    queues := { s.queues with nodes := Function.update s.queues.nodes t LinkedList.blank }
    threads := Function.update s.threads t ⟨p, unset, 0⟩
    pc := Function.update s.pc t .run
    created := t :: s.created }

/-- The new process and thread of `fork`. The thread is not entered in
`threads_`. -/
def fork (t : Tid) (p pid : Nat) (unset : ThreadState) (s : Scheduler) : Scheduler :=
  let s := s.newThread t p unset
  ({ s with
    pid := Function.update s.pid p pid
    threadsOf := Function.update s.threadsOf p [] } : Scheduler).makeReady t

def spawnInit (t : Tid) (p : Nat) (unset : ThreadState) (s : Scheduler) : Scheduler :=
  let s := s.newThread t p unset
  ({ s with
    pid := Function.update s.pid p 1
    threadsOf := Function.update s.threadsOf p [t] } : Scheduler).makeReady t

/-- `Thread::die`. -/
def die (t : Tid) (s : Scheduler) : Scheduler :=
  let s :=
    match (s.threads t).state with
    | .waiting => s.removeFromWaiting t
    | .ready => s.removeFromReady t
    | _ => s
  s.setState t .dead

/-- The loop of `Process::exit`. -/
def exitProcess (p : Nat) (s : Scheduler) : Option Scheduler :=
  (s.threadsOf p).foldlM (fun s t => if (s.threads t).process = p then some (s.die t) else none) s

/-- `exit` up to its `switch_thread`. -/
def exit (s : Scheduler) : Option Scheduler :=
  if s.getpid = 0 then none
  else
    let t := s.current
    ((s.removeFromReady t).exitProcess (s.threads t).process).map fun s =>
      s.setPc t (.leaving .exit)

/-! ## Runs -/

inductive Event
  | fork (t : Tid) (p pid : Nat) (unset : ThreadState)
  | spawnInit (t : Tid) (p : Nat) (unset : ThreadState)
  | sleep (secs : Nat)
  | startIo (w : Source)
  | register
  | ioWait
  | exit
  | yield
  /-- The `switch_thread` at the end of a call. -/
  | switch
  /-- The return from it. -/
  | resume
  | timer
  | setFull (b : Nat)
  | wake (q : Nat)

/-- The thread and its process are new objects. -/
def Fresh (t : Tid) (p : Nat) (s : Scheduler) : Prop :=
  t ∉ s.created ∧ ∀ u ∈ s.created, (s.threads u).process ≠ p

instance (t : Tid) (p : Nat) (s : Scheduler) : Decidable (s.Fresh t p) :=
  inferInstanceAs (Decidable (_ ∧ _))

/-- What the current thread does at its `pc`, and the interrupts. A `new_pid` is not
0, the index of the idle process, and a device completes a request once. -/
def step (s : Scheduler) : Event → Option Scheduler
  | .fork t p pid unset =>
    if s.pc s.current = .run ∧ s.Fresh t p ∧ pid ≠ 0 then some (s.fork t p pid unset) else none
  | .spawnInit t p unset =>
    if s.pc s.current = .run ∧ s.Fresh t p then some (s.spawnInit t p unset) else none
  | .sleep secs => if s.pc s.current = .run then s.sleep secs else none
  | .startIo w => if s.pc s.current = .run then some (s.startIo w) else none
  | .register =>
    match s.pc s.current with
    | .started (.buffer b) => some (s.registerBuffer b)
    | .started (.queue q) => some (s.registerQueue q)
    | _ => none
  | .ioWait =>
    match s.pc s.current with
    | .registered w => s.ioWait w
    | _ => none
  | .exit => if s.pc s.current = .run then s.exit else none
  | .yield => if s.pc s.current = .run then s.switchThread else none
  | .switch =>
    match s.pc s.current with
    | .leaving c => (s.setPc s.current (.away c)).switchThread
    | _ => none
  | .resume =>
    match s.pc s.current with
    | .away (.io (.buffer b)) =>
      if (s.buffers b).full then some (s.setPc s.current .run) else none
    | .away _ => some (s.setPc s.current .run)
    | _ => none
  | .timer => s.timer
  | .setFull b =>
    if (s.buffers b).requested ∧ ¬(s.buffers b).full then some (s.setFull b) else none
  | .wake q => some (s.wake q)

/-- The event takes place: the call that `step` makes for it, and where the current thread is
then. -/
inductive Taken (s : Scheduler) : Event → Scheduler → Prop
  | fork {t : Tid} {p pid : Nat} {unset : ThreadState} (hpc : s.pc s.current = .run)
      (hfresh : s.Fresh t p) (hpid : pid ≠ 0) :
      Taken s (.fork t p pid unset) (s.fork t p pid unset)
  | spawnInit {t : Tid} {p : Nat} {unset : ThreadState} (hpc : s.pc s.current = .run)
      (hfresh : s.Fresh t p) : Taken s (.spawnInit t p unset) (s.spawnInit t p unset)
  | sleep {secs : Nat} {s' : Scheduler} (hpc : s.pc s.current = .run)
      (hs : s.sleep secs = some s') : Taken s (.sleep secs) s'
  | startIo {w : Source} (hpc : s.pc s.current = .run) : Taken s (.startIo w) (s.startIo w)
  | registerBuffer {b : Nat} (hpc : s.pc s.current = .started (.buffer b)) :
      Taken s .register (s.registerBuffer b)
  | registerQueue {q : Nat} (hpc : s.pc s.current = .started (.queue q)) :
      Taken s .register (s.registerQueue q)
  | ioWait {w : Source} {s' : Scheduler} (hpc : s.pc s.current = .registered w)
      (hs : s.ioWait w = some s') : Taken s .ioWait s'
  | exit {s' : Scheduler} (hpc : s.pc s.current = .run) (hs : s.exit = some s') : Taken s .exit s'
  | yield {s' : Scheduler} (hpc : s.pc s.current = .run) (hs : s.switchThread = some s') :
      Taken s .yield s'
  | switch {c : Call} {s' : Scheduler} (hpc : s.pc s.current = .leaving c)
      (hs : (s.setPc s.current (.away c)).switchThread = some s') : Taken s .switch s'
  | resume {c : Call} (hpc : s.pc s.current = .away c) :
      Taken s .resume (s.setPc s.current .run)
  | timer {s' : Scheduler} (hs : s.timer = some s') : Taken s .timer s'
  | setFull {b : Nat} (hfull : (s.buffers b).full = false) : Taken s (.setFull b) (s.setFull b)
  | wake {q : Nat} : Taken s (.wake q) (s.wake q)

theorem step_taken {s s' : Scheduler} {e : Event} (hs : s.step e = some s') : s.Taken e s' := by
  cases e with
  | fork t p pid unset =>
    obtain ⟨⟨hpc, hfresh, hpid⟩, ⟨⟩⟩ := Option.ite_none_right_eq_some.1 hs
    exact .fork hpc hfresh hpid
  | spawnInit t p unset =>
    obtain ⟨⟨hpc, hfresh⟩, ⟨⟩⟩ := Option.ite_none_right_eq_some.1 hs
    exact .spawnInit hpc hfresh
  | sleep secs =>
    obtain ⟨hpc, hs⟩ := Option.ite_none_right_eq_some.1 hs
    exact .sleep hpc hs
  | startIo w =>
    obtain ⟨hpc, ⟨⟩⟩ := Option.ite_none_right_eq_some.1 hs
    exact .startIo hpc
  | register =>
    simp only [step] at hs
    split at hs
    · next b hpc => exact Option.some.inj hs ▸ .registerBuffer hpc
    · next q hpc => exact Option.some.inj hs ▸ .registerQueue hpc
    · cases hs
  | ioWait =>
    simp only [step] at hs
    split at hs
    · next w hpc => exact .ioWait hpc hs
    · cases hs
  | exit =>
    obtain ⟨hpc, hs⟩ := Option.ite_none_right_eq_some.1 hs
    exact .exit hpc hs
  | yield =>
    obtain ⟨hpc, hs⟩ := Option.ite_none_right_eq_some.1 hs
    exact .yield hpc hs
  | switch =>
    simp only [step] at hs
    split at hs
    · next c hpc => exact .switch hpc hs
    · cases hs
  | resume =>
    simp only [step] at hs
    split at hs
    · next b hpc =>
      obtain ⟨-, ⟨⟩⟩ := Option.ite_none_right_eq_some.1 hs
      exact .resume hpc
    · next c _ hpc => exact Option.some.inj hs ▸ .resume hpc
    · cases hs
  | timer => exact .timer hs
  | setFull b =>
    obtain ⟨⟨-, hfull⟩, ⟨⟩⟩ := Option.ite_none_right_eq_some.1 hs
    exact .setFull (Bool.not_eq_true _ ▸ hfull)
  | wake q => exact Option.some.inj hs ▸ .wake

/-- After `init`: the idle thread is the only one and runs. -/
structure Booted (s : Scheduler) : Prop where
  nodes : ∀ t, s.queues.nodes t = LinkedList.blank
  ready : s.queues.ready = .empty
  waiting : s.queues.waiting = .empty
  created : s.created = [s.idleThread]
  current : s.current = s.idleThread
  idle : s.pid (s.threads s.idleThread).process = 0 ∧ (s.threads s.idleThread).state = .ready ∧
    s.pc s.idleThread = .run
  threadsOf : ∀ p, s.threadsOf p = []
  buffers : ∀ b, s.buffers b = ⟨false, false, none⟩
  waitQueues : ∀ q, s.waitQueues q = []

/-- One step of a run. -/
def Step (s s' : Scheduler) : Prop := ∃ e, s.step e = some s'

end Scheduler

end Ulysses
