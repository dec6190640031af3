import Ulysses.Console.Basic
import Ulysses.Scheduler.Moves

/-!
# A reader of the console

`read_bytes` tests the read region and, when it is empty, waits on `read_wait_`;
`inject_bytes` sets the region and wakes the queue up. The test and the `append` to
the queue are separate steps, with interrupts on: input that comes between them finds
nobody to wake up, and the reader goes to sleep with bytes in the region
(`input_between_test_and_append`). Without such input no wake-up is lost
(`no_lost_input`).
-/

namespace Ulysses

open Lib

namespace ConsoleDevice

/-- There is something for readers once the bytes are injected. -/
def Fills (bytes : List UInt8) (d : ConsoleDevice) : Prop :=
  if d.canonical then CharBuffer.newline ∈ d.rawBuffer.bytes ++ bytes
  else d.rawBuffer.bytes ++ bytes ≠ []

instance (bytes : List UInt8) (d : ConsoleDevice) : Decidable (d.Fills bytes) :=
  inferInstanceAs (Decidable (if d.canonical = true then CharBuffer.newline ∈ _ else _ ≠ []))

/-- `inject_bytes` calls `wake`, or it leaves the region as it is. -/
theorem injectBytes_spec {bytes : List UInt8} {d d' : ConsoleDevice} {woke : Bool}
    (h : d.injectBytes bytes = some (d', woke)) :
    (woke = true ∧ (d'.readRegion.emptyP = false → d.Fills bytes)) ∨
      (woke = false ∧ d'.readRegion = d.readRegion) := by
  obtain ⟨raw, hraw, h⟩ := Option.map_eq_some_iff.1 h
  unfold Fills
  rw [← CharBuffer.copy_bytes hraw]
  split at h
  · next hcanon =>
    rw [if_pos hcanon]
    split at h
    · next region hfind =>
      obtain ⟨rfl, rfl⟩ := Prod.mk.inj h
      obtain ⟨pos, hpos, -⟩ := Option.map_eq_some_iff.1 hfind
      obtain ⟨hlt, hnl, -⟩ := List.findIdx?_eq_some_iff_getElem.1 hpos
      refine .inl ⟨rfl, fun _ => ?_⟩
      exact List.mem_of_getElem (by simpa using hnl)
    · obtain ⟨rfl, rfl⟩ := Prod.mk.inj h
      exact .inr ⟨rfl, rfl⟩
  · next hcanon =>
    rw [if_neg hcanon]
    obtain ⟨rfl, rfl⟩ := Prod.mk.inj h
    refine .inl ⟨rfl, fun hne => ?_⟩
    intro hnil
    simp [Region.emptyP, CharBuffer.allOf, hnil] at hne

end ConsoleDevice

/-- Where the reader is in `read_bytes`: not in it; before the test of the loop, or in
`wait`; after the test. -/
inductive ReaderPc
  | outside
  | looping
  | sawEmpty
  | sawData
deriving DecidableEq

/-- The scheduler and the console, with one thread that reads. -/
structure ReaderSystem where
  sched : Scheduler
  device : ConsoleDevice
  pos : ReaderPc

namespace ReaderSystem

/-- What a thread does outside the calls that make it wait. -/
def isCall : Scheduler.Event → Bool
  | .fork .. | .spawnInit .. | .sleep _ | .startIo _ | .exit | .yield => true
  | _ => false

/-- The event uses the console's queue. -/
def usesQueue (q : Nat) : Scheduler.Event → Bool
  | .startIo (.queue q') | .wake q' => q' = q
  | _ => false

inductive Event
  /-- Another thread, the reader outside of `read_bytes` or in `wait`, or an interrupt. -/
  | sched (e : Scheduler.Event)
  | ioctl (canonical : Bool)
  | enter
  | test
  /-- The `start_io` of `wait`. -/
  | wait
  | drain (size : Nat)
  | inject (bytes : List UInt8)

section

variable (reader : Tid) (q : Nat)

/-- The reader runs, at the place `pos` of `read_bytes`. -/
def RunsAt (s : ReaderSystem) (pos : ReaderPc) : Prop :=
  s.sched.current = reader ∧ s.sched.pc reader = .run ∧ s.pos = pos

instance (s : ReaderSystem) (pos : ReaderPc) : Decidable (s.RunsAt reader pos) :=
  inferInstanceAs (Decidable (_ ∧ _))

/-- The current thread is not inside `read_bytes`. -/
def Elsewhere (s : ReaderSystem) : Prop := s.sched.current = reader → s.pos = .outside

instance (s : ReaderSystem) : Decidable (s.Elsewhere reader) :=
  inferInstanceAs (Decidable (_ → _))

/-- The thread `reader` is the only one that reads, and `q` is `read_wait_`. -/
def step (s : ReaderSystem) : Event → Option ReaderSystem
  | .sched e =>
    if usesQueue q e = false ∧ (isCall e = true → s.Elsewhere reader) then
      (s.sched.step e).map fun sched => { s with sched }
    else none
  | .ioctl canonical =>
    if s.sched.pc s.sched.current = .run ∧ s.Elsewhere reader then
      some { s with device := { s.device with canonical } }
    else none
  | .enter => if s.RunsAt reader .outside then some { s with pos := .looping } else none
  | .test =>
    if s.RunsAt reader .looping then
      some { s with pos := if s.device.readRegion.emptyP then .sawEmpty else .sawData }
    else none
  | .wait =>
    if s.RunsAt reader .sawEmpty then
      (s.sched.step (.startIo (.queue q))).map fun sched => { s with sched, pos := .looping }
    else none
  | .drain size =>
    if s.RunsAt reader .sawData then
      (s.device.drain size).map fun r => { s with device := r.2, pos := .outside }
    else none
  | .inject bytes =>
    (s.device.injectBytes bytes).map fun r =>
      { s with device := r.1, sched := if r.2 then s.sched.wake q else s.sched }

structure Booted (s : ReaderSystem) : Prop where
  sched : s.sched.Booted
  device : s.device = .opened
  pos : s.pos = .outside

/-- The reader has found the region empty and is not yet in the queue. -/
def InWindow (s : ReaderSystem) : Prop :=
  s.pos = .sawEmpty ∨ s.sched.pc reader = .started (.queue q)

instance (s : ReaderSystem) : Decidable (s.InWindow reader q) :=
  inferInstanceAs (Decidable (_ ∨ _))

/-- No input arrives for readers between the test and the `append`. -/
def Timely (s : ReaderSystem) : Event → Prop
  | .inject bytes => s.InWindow reader q → ¬s.device.Fills bytes
  | _ => True

instance (s : ReaderSystem) : (e : Event) → Decidable (s.Timely reader q e)
  | .inject _ => inferInstanceAs (Decidable (_ → _))
  | .sched _ | .ioctl _ | .enter | .test | .wait | .drain _ => .isTrue trivial

def Step (s s' : ReaderSystem) : Prop := ∃ e, s.step reader q e = some s'

/-- One step of a run in which input is timely. -/
def TimelyStep (s s' : ReaderSystem) : Prop :=
  ∃ e, s.Timely reader q e ∧ s.step reader q e = some s'

/-- There are bytes to read while the reader is in `eIOWait` outside the ready queue. -/
def LostInput (s : ReaderSystem) : Prop :=
  reader ∈ s.sched.created ∧ s.device.readRegion.emptyP = false ∧
    s.sched.WaitsOn reader (.queue q) ∧ (s.sched.threads reader).state = .ioWait ∧
    ¬s.sched.InReady reader

/-- Only the reader waits on the queue, which holds it while it is blocked, and as long
as it is on its way there or blocked the region is empty. -/
structure Inv (s : ReaderSystem) : Prop where
  sched : ∃ rs ws, s.sched.Inv rs ws
  held : s.sched.Held (.queue q)
  only : ∀ t ∈ s.sched.created, s.sched.Engaged t (.queue q) → t = reader
  tested : s.pos = .sawEmpty → s.device.readRegion.emptyP = true
  started : reader ∈ s.sched.created → s.sched.pc reader = .started (.queue q) →
    s.device.readRegion.emptyP = true
  blocked : reader ∈ s.sched.created →
    Scheduler.Blocked (s.sched.pc reader) (s.sched.threads reader).state (.queue q) →
      s.device.readRegion.emptyP = true

end

section

variable {reader : Tid} {q : Nat} {s s' : ReaderSystem}

theorem Booted.inv (h : s.Booted) : s.Inv reader q := by
  have hrun : ∀ t ∈ s.sched.created, s.sched.pc t = .run := by
    intro t ht
    rw [h.sched.created, List.mem_singleton] at ht
    rw [ht, h.sched.idle.2.2]
  have hempty : s.device.readRegion.emptyP = true := by
    rw [h.device]
    rfl
  exact ⟨⟨[], [], h.sched.inv⟩, h.sched.held _,
    fun t ht he => absurd he (Scheduler.not_engaged_of_run (hrun t ht) _), fun _ => hempty,
    fun _ _ => hempty, fun _ _ => hempty⟩

theorem Inv.schedStep (h : s.Inv reader q) {e : Scheduler.Event}
    (hs : s.sched.step e = some s'.sched) (hdevice : s'.device = s.device)
    (hstart : ∀ t, t = s.sched.current → e = .startIo (.queue q) →
      t = reader ∧ s.device.readRegion.emptyP = true)
    (hpos : s'.pos = .sawEmpty → s.pos = .sawEmpty) : s'.Inv reader q := by
  obtain ⟨rs, ws, hinv⟩ := h.sched
  have hnew : ∀ t, s'.sched.pc t = .run → ∀ w, ¬s'.sched.Engaged t w := fun t hpc w =>
    Scheduler.not_engaged_of_run hpc w
  refine ⟨hinv.step hs, h.held.step hinv hs (by simp), ?_, ?_, ?_, ?_⟩
  · intro t ht he
    rcases hinv.effect hs t with heff | ⟨-, hpc⟩
    · rcases heff.engaged he with he | ⟨hcur, he⟩
      · exact h.only t (heff.created ht) he
      · exact (hstart t hcur he).1
    · exact absurd he (hnew t hpc _)
  · intro hp
    rw [hdevice]
    exact h.tested (hpos hp)
  · intro ht hp
    rw [hdevice]
    rcases hinv.effect hs reader with heff | ⟨-, hpc⟩
    · rcases heff.started hp with hp | ⟨hcur, he⟩
      · exact h.started (heff.created ht) hp
      · exact (hstart reader hcur he).2
    · exact absurd (.inl hp) (hnew reader hpc _)
  · intro ht hb
    rw [hdevice]
    rcases hinv.effect hs reader with heff | ⟨-, hpc⟩
    · rcases heff.blocked hb with hb | hp
      · exact h.blocked (heff.created ht) hb
      · exact h.started (heff.created ht) hp
    · exact absurd hb.engaged (hnew reader hpc _)

theorem Inv.ofRun (h : s.Inv reader q) (hsched : s'.sched = s.sched)
    (hrun : s.sched.pc reader = .run)
    (hpos : s'.pos = .sawEmpty → s'.device.readRegion.emptyP = true) : s'.Inv reader q := by
  have hnot := Scheduler.not_engaged_of_run hrun (.queue q)
  refine ⟨hsched ▸ h.sched, hsched ▸ h.held, hsched ▸ h.only, hpos, ?_, ?_⟩
  · intro _ hp
    rw [hsched, hrun] at hp
    cases hp
  · intro _ hb
    rw [hsched] at hb
    exact absurd hb.engaged hnot

/-- `wake` finds the reader in the queue when it is blocked. -/
theorem Inv.not_blocked_wake (h : s.Inv reader q) (ht : reader ∈ s.sched.created) :
    ¬Scheduler.Blocked ((s.sched.wake q).pc reader) ((s.sched.wake q).threads reader).state
      (.queue q) := by
  intro hb
  obtain ⟨rs, ws, hinv⟩ := h.sched
  unfold Scheduler.wake at hb
  split at hb
  · next hnil =>
    have hmem : reader ∈ s.sched.waitQueues q := h.held reader ht hb
    rw [hnil] at hmem
    cases hmem
  · next t ts hcons =>
    obtain ⟨hne, hb⟩ := Scheduler.blocked_makeReady hb
    have hw : s.sched.Waiter t (.queue q) := by simp [Scheduler.Waiter, hcons]
    obtain ⟨hmem, hbt⟩ := hinv.waiter t _ hw
    exact hne (h.only t hmem hbt.engaged).symm

theorem Inv.inject (h : s.Inv reader q) {bytes : List UInt8} {d : ConsoleDevice} {woke : Bool}
    (hinject : s.device.injectBytes bytes = some (d, woke))
    (hok : s.InWindow reader q → ¬s.device.Fills bytes) :
    ({ s with device := d, sched := if woke then s.sched.wake q else s.sched } :
      ReaderSystem).Inv reader q := by
  rcases ConsoleDevice.injectBytes_spec hinject with ⟨rfl, hfills⟩ | ⟨rfl, hregion⟩
  · obtain ⟨rs, ws, hinv⟩ := h.sched
    have hs : s.sched.step (.wake q) = some (s.sched.wake q) := rfl
    have hpc : (s.sched.wake q).pc = s.sched.pc := by
      unfold Scheduler.wake
      split <;> rfl
    have hwindow : s.InWindow reader q → d.readRegion.emptyP = true := by
      intro hw
      by_contra hne
      exact hok hw (hfills (Bool.eq_false_iff.2 hne))
    refine ⟨hinv.step hs, h.held.step hinv hs (by simp), ?_, fun hp => hwindow (.inl hp), ?_, ?_⟩
    · intro t ht he
      have heff := Scheduler.effect_wake (e := .wake q) (s := s.sched) (t := t) q
      exact h.only t (heff.created ht) ((heff.engaged he).resolve_right (by simp))
    · intro _ hp
      exact hwindow (.inr (hpc ▸ hp))
    · intro ht hb
      have heff := Scheduler.effect_wake (e := .wake q) (s := s.sched) (t := reader) q
      exact absurd hb (h.not_blocked_wake (heff.created ht))
  · exact ⟨h.sched, h.held, h.only, fun hp => hregion ▸ h.tested hp,
      fun ht hp => hregion ▸ h.started ht hp, fun ht hb => hregion ▸ h.blocked ht hb⟩

theorem Inv.step (h : s.Inv reader q) {e : Event} (hok : s.Timely reader q e)
    (hs : s.step reader q e = some s') : s'.Inv reader q := by
  cases e with
  | sched e =>
    obtain ⟨hguard, hs⟩ := Option.ite_none_right_eq_some.1 hs
    obtain ⟨sched, hstep, rfl⟩ := Option.map_eq_some_iff.1 hs
    refine h.schedStep hstep rfl (fun t _ he => ?_) id
    rw [he] at hguard
    simp [usesQueue] at hguard
  | ioctl canonical =>
    obtain ⟨-, ⟨⟩⟩ := Option.ite_none_right_eq_some.1 hs
    exact ⟨h.sched, h.held, h.only, h.tested, h.started, h.blocked⟩
  | enter =>
    obtain ⟨hrun, ⟨⟩⟩ := Option.ite_none_right_eq_some.1 hs
    exact h.ofRun rfl hrun.2.1 (by simp)
  | test =>
    obtain ⟨hrun, ⟨⟩⟩ := Option.ite_none_right_eq_some.1 hs
    refine h.ofRun rfl hrun.2.1 fun hp => ?_
    by_contra hne
    simp [hne] at hp
  | wait =>
    obtain ⟨hrun, hs⟩ := Option.ite_none_right_eq_some.1 hs
    obtain ⟨sched, hstep, rfl⟩ := Option.map_eq_some_iff.1 hs
    exact h.schedStep hstep rfl (fun t ht _ => ⟨ht.trans hrun.1, h.tested hrun.2.2⟩) (by simp)
  | drain size =>
    obtain ⟨hrun, hs⟩ := Option.ite_none_right_eq_some.1 hs
    obtain ⟨r, -, rfl⟩ := Option.map_eq_some_iff.1 hs
    exact h.ofRun rfl hrun.2.1 (by simp)
  | inject bytes =>
    obtain ⟨⟨d, woke⟩, hinject, rfl⟩ := Option.map_eq_some_iff.1 hs
    exact h.inject hinject hok

end

/-- Where no input arrives between the reader's test and its `append`, the reader is
never asleep with bytes to read. -/
theorem no_lost_input {reader : Tid} {q : Nat} {s : ReaderSystem}
    (h : Reach Booted (TimelyStep reader q) s) : ¬s.LostInput reader q := by
  have hinv := h.invariant (I := Inv reader q) (fun _ hb => hb.inv)
    fun _ _ hinv ⟨_, hok, hs⟩ => hinv.step hok hs
  rintro ⟨ht, hne, hw, hst, -⟩
  obtain ⟨rs, ws, hsched⟩ := hinv.sched
  have hempty := hinv.blocked ht (hsched.blocked ht hw hst)
  rw [hempty] at hne
  cases hne

def atBoot : ReaderSystem := ⟨.atBoot, .opened, .outside⟩

theorem booted_atBoot : atBoot.Booted := ⟨Scheduler.booted_atBoot, rfl, rfl⟩

/-- A run from boot with thread 2 reading and the queue 0. -/
def runTimely (es : List Event) : Option ReaderSystem :=
  es.foldlM (fun s e => if s.Timely 2 0 e then s.step 2 0 e else none) atBoot

/-- The reader waits, a line comes, the reader gets it. -/
theorem no_lost_input_line :
    ∃ s, runTimely [.sched (.spawnInit 2 1 .dead), .sched .yield, .enter, .test, .wait,
        .sched .register, .sched .ioWait, .sched .switch, .inject [104, 105, 10],
        .sched .yield, .sched .resume, .test] = some s ∧
      s.pos = .sawData ∧ ¬s.LostInput 2 0 := by
  have hrun : (runTimely [.sched (.spawnInit 2 1 .dead), .sched .yield, .enter, .test, .wait,
      .sched .register, .sched .ioWait, .sched .switch, .inject [104, 105, 10],
      .sched .yield, .sched .resume, .test]).map ReaderSystem.pos = some .sawData := by
    decide +kernel
  obtain ⟨s, hs, hpos⟩ := Option.map_eq_some_iff.1 hrun
  exact ⟨s, hs, hpos, no_lost_input (Reach.foldlM
    (fun _ e _ hx => ⟨e, Option.ite_none_right_eq_some.1 hx⟩) (.init booted_atBoot) hs)⟩

/-- A line comes after the test and before the `append`. -/
theorem input_between_test_and_append : ∃ s, Reach Booted (Step 2 0) s ∧ s.LostInput 2 0 := by
  have hrun : ([Event.sched (.spawnInit 2 1 .dead), .sched .yield, .enter, .test,
      .inject [104, 105, 10], .wait, .sched .register, .sched .ioWait].foldlM (step 2 0) atBoot).map
      (fun s => (decide (2 ∈ s.sched.created), s.device.readRegion.emptyP, s.sched.pc 2,
        (s.sched.threads 2).state, (s.sched.queues.nodes 2).linked)) =
      some (true, false, .leaving (.io (.queue 0)), .ioWait, false) := by
    decide +kernel
  obtain ⟨s, hs, heq⟩ := Option.map_eq_some_iff.1 hrun
  simp only [Prod.mk.injEq, decide_eq_true_eq] at heq
  obtain ⟨hmem, hempty, hpc, hst, hlinked⟩ := heq
  refine ⟨s, Reach.foldlM (fun _ e _ hx => ⟨e, hx⟩) (.init booted_atBoot) hs, hmem, hempty,
    .inr (.inl hpc), hst, ?_⟩
  rintro ⟨rs, hrep, hr⟩
  rw [hrep.links.linked hr] at hlinked
  cases hlinked

end ReaderSystem

end Ulysses
