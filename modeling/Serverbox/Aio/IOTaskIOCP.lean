import Mathlib.Logic.Function.Basic
import Serverbox.Aio.IOTaskOperations
import Serverbox.Lib.Machine

/-!
# The operations of a task in IOCP

A task starts overlapped operations in its execution. An operation which has failed at once brings
its error in the event and gets no packet. Otherwise there will be a packet even if the operation
is complete already, and the task counts it, but only after the call. The scheduler may take
the packet before, and then the count is less than the number of the operations by one.

The scheduler puts the event of a packet to the pending events of the task. A task which sleeps
gets ready. A closed task gets ready for its final execution when all its operations are pending,
and otherwise the packet of the last of them makes it ready.

The tasks share nothing of it, so there is one task here. It is in the front queue from the moment
its push is sure, because the scheduler may take it from there at any time later. The heap of
the deadlines and the sockets are left out. The user locks and unlocks only the events which
the task does not hold, and `ProcessArgs` does that with those which were delivered.

Source: `src/mg/aio/IOCore_IOCP.cpp`, `src/mg/aio/IOTask_IOCP.cpp`, `src/mg/aio/IOTask.cpp`,
`src/mg/aio/IOCore.cpp`.

## Main definitions

* `IOTaskIOCP.machine`: a task from its first post on.

## Main results

* `IOTaskIOCP.packets_ok`: the operation count is right but for the operation whose call has
  just returned.
-/

namespace Serverbox

namespace IOTaskIOCP

/-- Where a task is: in the front queue, asleep, ready, executed by a worker, waiting for its last
packets after it was closed, and in its final execution. -/
inductive Place
  | front
  | asleep
  | ready
  | executed
  | closed
  | final
  deriving DecidableEq

/-- `IOTask` with its events. The packets of `inFlight` are to come. The operation of `window` was
given to the kernel by a call and is not counted. `failed` says whether an assertion has failed. -/
structure State (E : Type*) where
  ops : Operations E
  status : IOTaskStatus
  isClosed : Bool
  closeGuard : Bool
  place : Place
  locked : E → Bool
  inFlight : List E
  window : Option E
  failed : Bool

variable {E : Type*}

/-- A new task which is posted. -/
def State.new : State E := ⟨.new, .pending, false, false, .front, fun _ => false, [], none, false⟩

/-- An assertion. -/
def State.assert (s : State E) (p : Prop) [Decidable p] : State E :=
  { s with failed := s.failed || !decide p }

/-- The events which the task holds. -/
def State.held (s : State E) : List E := s.ops.held s.inFlight

/-- The operations which were started and not delivered are counted but for that of the window. -/
def State.uncounted (s : State E) : ℕ := s.window.toList.length

/-- `PostWakeup`. -/
def wakeup (s : State E) : State E :=
  match s.status with
  | .waiting => { s with status := .ready, place := .front }
  | .pending => { s with status := .ready }
  | _ => s

/-- `PostClose`. -/
def close (s : State E) : State E :=
  if s.closeGuard then s
  else
    let old := s.status
    let s := { s with status := .closing, closeGuard := true }
    let s := s.assert (old = .pending ∨ old = .ready ∨ old = .waiting)
    if old = .waiting then { s with place := .front } else s

/-- `Send`, `Recv`, `ConnectStart` or `Accept` up to the return of the system call, which has
started the operation or not. -/
def start (s : State E) (e : E) (isStarted : Bool) : State E :=
  if isStarted then
    { s with ops := s.ops.begin e, inFlight := e :: s.inFlight, window := some e }
  else s

/-- The ready events are taken from the pending ones, and the task is appended to the ready
ones. -/
def moveReady (s : State E) : State E := { s with ops := s.ops.makeReady, place := .ready }

/-- The same, after the assertions that the task has no ready events. -/
def pushReady (s : State E) : State E :=
  moveReady (s.assert (s.ops.readyEventCount = 0 ∧ s.ops.readyEvents = []))

/-- A closed task has got a packet. -/
def closedDo (s : State E) : State E :=
  let s := s.assert (s.ops.readyEventCount = 0)
  let s := s.assert (s.ops.pendingEventCount ≤ s.ops.operationCount)
  if s.ops.pendingEventCount ≠ s.ops.operationCount then s else pushReady s

/-- `PrivCloseDo`. -/
def closeDo (s : State E) : State E :=
  let s := s.assert (s.status = .closing ∧ s.closeGuard = true ∧ s.isClosed = false)
  { s with isClosed := true, status := .closed }

/-- `PrivDumpReadyEvents`. -/
def dumpReadyEvents (s : State E) : State E :=
  let s := s.assert (s.ops.readyEventCount ≤ s.ops.operationCount)
  { s with ops := s.ops.dumpReadyEvents }

/-- `PrivCloseEnd`. -/
def closeEnd (s : State E) : State E :=
  let s := s.assert (s.status = .closed)
  let s := s.assert (s.ops.pendingEventCount = 0 ∧ s.ops.pendingEvents = [])
  let s := s.assert (s.ops.readyEventCount = 0 ∧ s.ops.readyEvents = [])
  s.assert (s.ops.operationCount = 0)

section

variable [DecidableEq E]

/-- The rest of the start. -/
def operationStart (s : State E) (e : E) : State E :=
  { s with
    ops := s.ops.operationStart
    locked := Function.update s.locked e true
    window := none }

/-- The scheduler handles a packet. -/
def complete (s : State E) (e : E) : State E :=
  let s := { s with ops := s.ops.complete e, inFlight := s.inFlight.erase e }
  match s.status with
  | .waiting => pushReady { s with status := .ready }
  | .closed => closedDo s
  | _ => s

/-- The scheduler handles the task in the front queue. -/
def frontDo (s : State E) (isExpired : Bool) : State E :=
  let s := s.assert (s.ops.readyEventCount = 0 ∧ s.ops.readyEvents = [])
  if s.status = .pending ∧ s.ops.pendingEventCount = 0 ∧ isExpired = false then
    { s with status := .waiting, place := .asleep }
  else
    match s.status with
    | .pending => moveReady { s with status := .ready }
    | .closing =>
      let s := closeDo s
      if s.ops.operationCount ≠ s.ops.pendingEventCount then
        { s.assert (s.ops.pendingEventCount < s.ops.operationCount) with place := .closed }
      else moveReady s
    | _ => moveReady (s.assert (s.status ≠ .closed ∧ s.status ≠ .waiting))

/-- The scheduler handles a task whose deadline has passed. -/
def expiredDo (s : State E) : State E :=
  { s.assert (s.ops.pendingEventCount = 0) with status := .ready, place := .ready }

/-- `PrivExecute` of a worker, up to `OnEvent`. -/
def execute (s : State E) : State E :=
  let s := s.assert (s.status ≠ .pending)
  let s := dumpReadyEvents (if s.status = .ready then { s with status := .pending } else s)
  if s.isClosed then { closeEnd s with place := .final } else { s with place := .executed }

/-- The task is posted again in its final execution, and its next life begins. -/
def rePost (s : State E) : State E :=
  let s := s.assert (s.ops.operationCount = 0 ∧ s.ops.readyEventCount = 0 ∧
    s.ops.pendingEventCount = 0)
  { s with
    ops := { s.ops with started := [], delivered := [] }
    status := .pending
    isClosed := false
    closeGuard := false
    place := .front }

/-- What can happen to the task. -/
inductive Action (E : Type*)
  | wakeup
  | close
  | start (e : E) (isStarted : Bool)
  | operationStart
  | setLock (e : E) (isLocked : Bool)
  | ended
  | rePost
  | complete (e : E)
  | frontDo (isExpired : Bool)
  | expiredDo
  | execute
  deriving DecidableEq

/-- One step of the task. -/
def step (s : State E) : Action E → Option (State E)
  | .wakeup => some (wakeup s)
  | .close => some (close s)
  | .start e isStarted =>
    if s.place = .executed ∧ s.window = none ∧ s.locked e = false then some (start s e isStarted)
    else none
  | .operationStart => s.window.map (operationStart s)
  | .setLock e isLocked =>
    if e ∈ s.held then none else some { s with locked := Function.update s.locked e isLocked }
  | .ended =>
    if s.place = .executed ∧ s.window = none then some { s with place := .front } else none
  | .rePost => if s.place = .final then some (rePost s) else none
  | .complete e => if e ∈ s.inFlight then some (complete s e) else none
  | .frontDo isExpired => if s.place = .front then some (frontDo s isExpired) else none
  | .expiredDo => if s.status = .waiting then some (expiredDo s) else none
  | .execute => if s.place = .ready then some (execute s) else none

/-- A task from its first post on. -/
def machine : Machine (State E) (Action E) where
  init s := s = .new
  step := step

end

/-! ### The invariant -/

/-- What a task is like in its place. -/
def Place.Fits (p : Place) (s : State E) : Prop :=
  match p with
  | .front | .executed =>
    s.status ≠ .waiting ∧ s.status ≠ .closed ∧ s.ops.readyEvents = []
  | .asleep => s.status = .waiting ∧ s.ops.pendingEvents = [] ∧ s.ops.readyEvents = []
  | .ready => s.status ≠ .pending ∧ s.status ≠ .waiting ∧
    (s.status = .closed → s.inFlight = [] ∧ s.ops.pendingEvents = [])
  | .closed => s.status = .closed ∧ s.ops.readyEvents = [] ∧ s.inFlight ≠ []
  | .final => s.status = .closed ∧ s.inFlight = [] ∧ s.ops.pendingEvents = [] ∧
    s.ops.readyEvents = []

/-- The part of the invariant which does not depend on the place. -/
structure Accounted (s : State E) : Prop where
  ops : s.ops.Ok s.inFlight s.uncounted
  locked : ∀ e ∈ s.held, s.locked e = true ∨ s.window = some e
  isClosed : s.isClosed = true ↔ s.status = .closed
  guard : s.closeGuard = true ↔ s.status = .closing ∨ s.status = .closed
  failed : s.failed = false

/-- The invariant. -/
structure Inv (s : State E) : Prop extends Accounted s where
  fits : s.place.Fits s
  window : s.place ≠ .executed → s.window = none

/-- An assertion which holds does nothing. -/
theorem State.assert_of {s : State E} {p : Prop} [Decidable p] (hp : p) : s.assert p = s := by
  rw [State.assert, decide_eq_true hp, Bool.not_true, Bool.or_false]

namespace Accounted

variable {s : State E} {e : E}

/-- All the operations are counted but for that of the window. -/
theorem ops_zero (h : Accounted s) (hw : s.window = none) : s.ops.Ok s.inFlight 0 := by
  have hops := h.ops
  rwa [State.uncounted, hw] at hops

/-- The task gets ready, with its pending events. -/
theorem moveReady (h : Accounted s) (hr : s.ops.readyEvents = []) (hw : s.window = none)
    (hs : s.status ≠ .pending ∧ s.status ≠ .waiting)
    (hc : s.status = .closed → s.inFlight = []) : Inv (IOTaskIOCP.moveReady s) := by
  refine ⟨⟨h.ops.makeReady hr, fun u hu => h.locked u ?_, h.isClosed, h.guard, h.failed⟩,
    ⟨hs.1, hs.2, fun hsc => ⟨hc hsc, rfl⟩⟩, fun _ => hw⟩
  rwa [State.held, ← Operations.Ok.held_makeReady s.ops s.inFlight hr]

/-- A closed task stays where it is while the kernel has operations of it. -/
theorem closedDo (h : Accounted s) (hr : s.ops.readyEvents = []) (hw : s.window = none) :
    IOTaskIOCP.closedDo s = if s.inFlight = [] then IOTaskIOCP.moveReady s else s := by
  have hops := h.ops_zero hw
  have hzero := hops.ready_eq_zero hr
  have hle : s.ops.pendingEventCount ≤ s.ops.operationCount := by
    have := hops.le
    omega
  rw [IOTaskIOCP.closedDo, State.assert_of hzero, State.assert_of hle, pushReady,
    State.assert_of ⟨hzero, hr⟩, ite_not]
  exact if_congr (eq_comm.trans (hops.operationCount_eq_iff hr)) rfl rfl

/-- The worker takes the ready events. -/
theorem dumpReadyEvents_eq (h : Accounted s) (hw : s.window = none) :
    IOTaskIOCP.dumpReadyEvents s = { s with ops := s.ops.dumpReadyEvents } := by
  have hle : s.ops.readyEventCount ≤ s.ops.operationCount := by
    have := (h.ops_zero hw).le
    omega
  rw [IOTaskIOCP.dumpReadyEvents, State.assert_of hle]

theorem dumpReadyEvents (h : Accounted s) (hw : s.window = none) :
    Accounted (IOTaskIOCP.dumpReadyEvents s) := by
  rw [h.dumpReadyEvents_eq hw]
  refine ⟨?_, fun u hu => h.locked u ?_, h.isClosed, h.guard, h.failed⟩
  · rw [State.uncounted, hw]
    exact (h.ops_zero hw).dumpReadyEvents
  · rw [State.held, Operations.mem_held] at hu ⊢
    exact hu.imp_right (Or.imp_right nofun)

theorem complete [DecidableEq E] (h : Accounted s) (he : e ∈ s.inFlight) :
    Accounted { s with ops := s.ops.complete e, inFlight := s.inFlight.erase e } := by
  have hheld := Operations.Ok.held_complete s.ops he
  exact ⟨h.ops.complete he, fun u hu => h.locked u (hheld.mem_iff.mp hu), h.isClosed, h.guard,
    h.failed⟩

/-- The assertions of the end of a closed task hold. -/
theorem closeEnd (h : Accounted s) (hw : s.window = none) (hs : s.status = .closed)
    (hin : s.inFlight = []) (hp : s.ops.pendingEvents = []) (hr : s.ops.readyEvents = []) :
    IOTaskIOCP.closeEnd s = s := by
  have hops := h.ops_zero hw
  rw [hin] at hops
  have hpending : s.ops.pendingEventCount = 0 ∧ s.ops.pendingEvents = [] :=
    ⟨hops.pending.trans (congrArg _ hp), hp⟩
  have hready : s.ops.readyEventCount = 0 ∧ s.ops.readyEvents = [] := ⟨hops.ready_eq_zero hr, hr⟩
  rw [IOTaskIOCP.closeEnd, State.assert_of hs, State.assert_of hpending, State.assert_of hready,
    State.assert_of (hops.operationCount_eq_zero hp hr)]

end Accounted

namespace Inv

variable {s s' : State E} {e : E}

theorem new : Inv (.new : State E) where
  ops := .new
  fits := ⟨nofun, nofun, rfl⟩
  window _ := rfl
  locked _ he := by cases he
  isClosed := ⟨nofun, nofun⟩
  guard := ⟨nofun, by rintro (h | h) <;> cases h⟩
  failed := rfl

/-- What a task is like in a place where it is. -/
theorem fits_at (h : Inv s) {p : Place} (hp : s.place = p) : p.Fits s := hp ▸ h.fits

/-- The task sleeps exactly when it waits. -/
theorem asleep (h : Inv s) (hs : s.status = .waiting) : s.place = .asleep := by
  have hf := h.fits
  cases hp : s.place with
  | asleep => rfl
  | front | executed => exact absurd hs (h.fits_at hp).1
  | ready => exact absurd hs (h.fits_at hp).2.1
  | closed | final =>
    have hc := (h.fits_at hp).1
    rw [hs] at hc
    cases hc

/-- A task which sleeps is woken up or closed. -/
theorem rouse (h : Inv s) (hs : s.status = .waiting) {x : IOTaskStatus} {b : Bool}
    (hx : x = .ready ∨ x = .closing) (hb : b = true ↔ x = .closing) :
    Inv { s with status := x, closeGuard := b, place := .front } := by
  obtain ⟨-, -, hr⟩ := h.fits_at (h.asleep hs)
  refine ⟨⟨h.ops, h.locked, ?_, ?_, h.failed⟩, ⟨?_, ?_, hr⟩, fun _ => ?_⟩
  · rw [h.isClosed, hs]
    rcases hx with rfl | rfl <;> exact ⟨nofun, nofun⟩
  · rw [hb]
    refine ⟨.inl, Or.rec id fun hc => ?_⟩
    rcases hx with rfl | rfl <;> cases hc
  · rcases hx with rfl | rfl <;> nofun
  · rcases hx with rfl | rfl <;> nofun
  · exact h.window (by rw [h.asleep hs]; nofun)

/-- The status of a task which does not sleep changes while it stays where it is. -/
theorem turn (h : Inv s) (hs : s.status ≠ .waiting) (hc : s.status ≠ .closed) {x : IOTaskStatus}
    {b : Bool} (hx : x = .ready ∨ x = .closing) (hb : b = true ↔ x = .closing) :
    Inv { s with status := x, closeGuard := b } := by
  have hx' : x ≠ .pending ∧ x ≠ .waiting ∧ x ≠ .closed := by
    rcases hx with rfl | rfl <;> exact ⟨nofun, nofun, nofun⟩
  refine ⟨⟨h.ops, h.locked, ?_, ?_, h.failed⟩, ?_, h.window⟩
  · rw [h.isClosed]
    exact iff_of_false hc hx'.2.2
  · rw [hb]
    exact ⟨.inl, Or.rec id fun hxc => absurd hxc hx'.2.2⟩
  · change s.place.Fits _
    cases hp : s.place with
    | front | executed => exact ⟨hx'.2.1, hx'.2.2, (h.fits_at hp).2.2⟩
    | asleep => exact absurd (h.fits_at hp).1 hs
    | ready => exact ⟨hx'.1, hx'.2.1, fun hxc => absurd hxc hx'.2.2⟩
    | closed | final => exact absurd (h.fits_at hp).1 hc

/-- The guard of a task which is not closed does not change when it is woken up. -/
theorem guard_ready (h : Inv s) (hg : s.status ≠ .closing) (hc : s.status ≠ .closed) :
    s.closeGuard = true ↔ IOTaskStatus.ready = .closing := by
  rw [h.guard]
  exact iff_of_false (not_or.mpr ⟨hg, hc⟩) nofun

theorem wakeup (h : Inv s) : Inv (IOTaskIOCP.wakeup s) := by
  rw [IOTaskIOCP.wakeup]
  split
  · rename_i hs
    exact h.rouse hs (.inl rfl) (h.guard_ready (by rw [hs]; nofun) (by rw [hs]; nofun))
  · rename_i hs
    exact h.turn (by rw [hs]; nofun) (by rw [hs]; nofun) (.inl rfl)
      (h.guard_ready (by rw [hs]; nofun) (by rw [hs]; nofun))
  · exact h

theorem close (h : Inv s) : Inv (IOTaskIOCP.close s) := by
  rw [IOTaskIOCP.close]
  split
  · exact h
  · rename_i hg
    rw [h.guard, not_or] at hg
    have hold : s.status = .pending ∨ s.status = .ready ∨ s.status = .waiting := by
      cases hs : s.status <;> simp_all only [reduceCtorEq, or_true, true_or, not_true, and_false,
        false_and]
    dsimp only
    rw [State.assert_of hold]
    split
    · rename_i hs
      exact h.rouse hs (.inr rfl) (iff_of_true rfl rfl)
    · rename_i hs
      exact h.turn hs hg.2 (.inr rfl) (iff_of_true rfl rfl)

/-- The worker gives an operation to the kernel. -/
theorem start (h : Inv s) (hp : s.place = .executed) (hw : s.window = none)
    (he : s.locked e = false) (isStarted : Bool) : Inv (IOTaskIOCP.start s e isStarted) := by
  rw [IOTaskIOCP.start]
  split
  · have hnot : e ∉ s.held := by
      intro hmem
      rcases h.locked e hmem with hl | hl
      · rw [he] at hl
        cases hl
      · rw [hw] at hl
        cases hl
    obtain ⟨h1, h2, h3⟩ := h.fits_at hp
    refine ⟨⟨(h.ops_zero hw).begin hnot, fun u hu => ?_, h.isClosed, h.guard, h.failed⟩, ?_,
      fun hne => absurd hp hne⟩
    · rcases List.mem_cons.mp hu with rfl | hu
      · exact .inr rfl
      · exact (h.locked u hu).imp_right fun hu' => by rw [hw] at hu'; cases hu'
    · change s.place.Fits _
      rw [hp]
      exact ⟨h1, h2, h3⟩
  · exact h

theorem ended (h : Inv s) (hp : s.place = .executed) (hw : s.window = none) :
    Inv { s with place := .front } :=
  ⟨⟨h.ops, h.locked, h.isClosed, h.guard, h.failed⟩, h.fits_at hp, fun _ => hw⟩

theorem rePost (h : Inv s) (hp : s.place = .final) : Inv (IOTaskIOCP.rePost s) := by
  obtain ⟨-, hin, hpe, hr⟩ := h.fits_at hp
  have hw : s.window = none := h.window (by rw [hp]; nofun)
  have hops := h.ops_zero hw
  rw [hin] at hops
  have hzero : s.ops.operationCount = 0 ∧ s.ops.readyEventCount = 0 ∧
      s.ops.pendingEventCount = 0 := by
    rw [hops.ready, hops.pending, hpe, hr]
    exact ⟨hops.operationCount_eq_zero hpe hr, rfl, rfl⟩
  rw [IOTaskIOCP.rePost, State.assert_of hzero]
  refine ⟨⟨?_, h.locked, ⟨nofun, nofun⟩, ⟨nofun, Or.rec nofun nofun⟩, h.failed⟩,
    ⟨nofun, nofun, hr⟩, fun _ => hw⟩
  rw [State.uncounted, hin, hw]
  exact hops.renew hpe hr

theorem expiredDo (h : Inv s) (hs : s.status = .waiting) : Inv (IOTaskIOCP.expiredDo s) := by
  have hp := h.asleep hs
  obtain ⟨-, hpe, hr⟩ := h.fits_at hp
  have hzero : s.ops.pendingEventCount = 0 := by rw [h.ops.pending, hpe]; rfl
  have hwoken := h.rouse hs (.inl rfl) (h.guard_ready (by rw [hs]; nofun) (by rw [hs]; nofun))
  rw [IOTaskIOCP.expiredDo, State.assert_of hzero]
  refine ⟨⟨h.ops, h.locked, hwoken.isClosed, hwoken.guard, h.failed⟩, ⟨nofun, nofun, nofun⟩,
    fun _ => h.window (by rw [hp]; nofun)⟩

theorem frontDo (h : Inv s) (hp : s.place = .front) (isExpired : Bool) :
    Inv (IOTaskIOCP.frontDo s isExpired) := by
  obtain ⟨hwait, hclosed, hr⟩ := h.fits_at hp
  have hw : s.window = none := h.window (by rw [hp]; nofun)
  have hops := h.ops_zero hw
  rw [IOTaskIOCP.frontDo, State.assert_of ⟨hops.ready_eq_zero hr, hr⟩]
  dsimp only
  split
  · rename_i hs
    obtain ⟨hs, hpe, -⟩ := hs
    refine ⟨⟨h.ops, h.locked, ?_, ?_, h.failed⟩, ⟨rfl, ?_, hr⟩, fun _ => hw⟩
    · rw [h.isClosed, hs]
      exact ⟨nofun, nofun⟩
    · rw [h.guard, hs]
      exact ⟨Or.rec nofun nofun, Or.rec nofun nofun⟩
    · exact List.length_eq_zero_iff.mp (hops.pending ▸ hpe)
  · split
    · rename_i hs
      have hready := h.turn hwait hclosed (.inl rfl)
        (h.guard_ready (by rw [hs]; nofun) (by rw [hs]; nofun))
      exact hready.toAccounted.moveReady hr hw ⟨nofun, nofun⟩ nofun
    · rename_i hs
      have hguard := h.guard.mpr (.inl hs)
      have hopen : s.isClosed = false := by
        rw [← Bool.not_eq_true, h.isClosed]
        exact hclosed
      have hc : Accounted { s with isClosed := true, status := .closed } :=
        ⟨h.ops, h.locked, iff_of_true rfl rfl, iff_of_true hguard (.inr rfl), h.failed⟩
      rw [closeDo, State.assert_of ⟨hs, hguard, hopen⟩]
      dsimp only
      split
      · rename_i hne
        have hlt : s.ops.pendingEventCount < s.ops.operationCount := by
          have := hops.le
          omega
        rw [State.assert_of hlt]
        refine ⟨⟨hc.ops, hc.locked, hc.isClosed, hc.guard, hc.failed⟩, ⟨rfl, hr, ?_⟩, fun _ => hw⟩
        exact fun hnil => hne ((hops.operationCount_eq_iff hr).mpr hnil)
      · rename_i heq
        refine hc.moveReady hr hw ⟨nofun, nofun⟩ fun _ => ?_
        exact (hops.operationCount_eq_iff hr).mp (not_not.mp heq)
    · rename_i hpend _
      rw [State.assert_of ⟨hclosed, hwait⟩]
      exact h.toAccounted.moveReady hr hw ⟨hpend, hwait⟩ fun hsc => absurd hsc hclosed

/-- The execution starts. -/
theorem execute (h : Inv s) (hp : s.place = .ready) : Inv (IOTaskIOCP.execute s) := by
  obtain ⟨hpend, hwait, hempty⟩ := h.fits_at hp
  have hw : s.window = none := h.window (by rw [hp]; nofun)
  rw [IOTaskIOCP.execute, State.assert_of hpend]
  dsimp only
  by_cases hs : s.status = .ready
  · have hopen : s.isClosed = false := by
      rw [← Bool.not_eq_true, h.isClosed, hs]
      nofun
    have hturned : Accounted { s with status := .pending } := by
      refine ⟨h.ops, h.locked, ?_, ?_, h.failed⟩
      · rw [h.isClosed, hs]
        exact ⟨nofun, nofun⟩
      · rw [h.guard, hs]
        exact ⟨Or.rec nofun nofun, Or.rec nofun nofun⟩
    have hd := hturned.dumpReadyEvents hw
    rw [hturned.dumpReadyEvents_eq hw] at hd
    rw [if_pos hs, hturned.dumpReadyEvents_eq hw, if_neg (by rw [hopen]; exact Bool.false_ne_true)]
    exact ⟨⟨hd.ops, hd.locked, hd.isClosed, hd.guard, hd.failed⟩, ⟨nofun, nofun, rfl⟩, fun _ => hw⟩
  · have hd := h.toAccounted.dumpReadyEvents hw
    rw [h.toAccounted.dumpReadyEvents_eq hw] at hd
    rw [if_neg hs, h.toAccounted.dumpReadyEvents_eq hw]
    split
    · rename_i hc
      have hsc := h.isClosed.mp hc
      obtain ⟨hin, hpe⟩ := hempty hsc
      rw [hd.closeEnd hw hsc hin hpe rfl]
      exact ⟨⟨hd.ops, hd.locked, hd.isClosed, hd.guard, hd.failed⟩, ⟨hsc, hin, hpe, rfl⟩,
        fun _ => hw⟩
    · rename_i hc
      have hsc : s.status ≠ .closed := fun hsc => hc (h.isClosed.mpr hsc)
      exact ⟨⟨hd.ops, hd.locked, hd.isClosed, hd.guard, hd.failed⟩, ⟨hwait, hsc, rfl⟩, nofun⟩

variable [DecidableEq E]

theorem operationStart (h : Inv s) (hw : s.window = some e) :
    Inv (IOTaskIOCP.operationStart s e) := by
  have hops := h.ops
  rw [State.uncounted, hw] at hops
  refine ⟨⟨hops.operationStart, fun u hu => .inl ?_, h.isClosed, h.guard, h.failed⟩, ?_,
    fun _ => rfl⟩
  · by_cases hue : u = e
    · rw [hue]
      exact Function.update_self ..
    · refine (Function.update_of_ne hue _ _).trans ((h.locked u hu).resolve_right fun hu' => hue ?_)
      rw [hw] at hu'
      exact (Option.some.inj hu').symm
  · have hp : s.place = .executed := by
      by_contra hne
      rw [h.window hne] at hw
      cases hw
    change s.place.Fits _
    rw [hp]
    exact h.fits_at hp

/-- The user locks or unlocks an event of its own. -/
theorem setLock (h : Inv s) (he : e ∉ s.held) (b : Bool) :
    Inv { s with locked := Function.update s.locked e b } := by
  refine ⟨⟨h.ops, fun u hu => ?_, h.isClosed, h.guard, h.failed⟩, h.fits_at rfl, h.window⟩
  have hue : u ≠ e := by
    rintro rfl
    exact he hu
  exact (h.locked u hu).imp_left (Function.update_of_ne hue _ _).trans

/-- The event of a packet is put to the pending ones, but the task stays where it is. -/
theorem keepPending (h : Inv s) (he : e ∈ s.inFlight) (hs : s.status ≠ .waiting)
    (hc : s.status = .closed → s.inFlight.erase e ≠ []) :
    Inv { s with ops := s.ops.complete e, inFlight := s.inFlight.erase e } := by
  refine ⟨h.toAccounted.complete he, ?_, h.window⟩
  change s.place.Fits _
  cases hp : s.place with
  | front | executed => exact h.fits_at hp
  | asleep => exact absurd (h.fits_at hp).1 hs
  | ready =>
    obtain ⟨h1, h2, h3⟩ := h.fits_at hp
    refine ⟨h1, h2, fun hsc => ?_⟩
    rw [(h3 hsc).1] at he
    cases he
  | closed =>
    obtain ⟨h1, h2, -⟩ := h.fits_at hp
    exact ⟨h1, h2, hc h1⟩
  | final =>
    rw [(h.fits_at hp).2.1] at he
    cases he

theorem complete (h : Inv s) (he : e ∈ s.inFlight) : Inv (IOTaskIOCP.complete s e) := by
  rw [IOTaskIOCP.complete]
  dsimp only
  split
  · rename_i hs
    have hp := h.asleep hs
    obtain ⟨-, -, hr⟩ := h.fits_at hp
    have hready : (s.ops.complete e).readyEventCount = 0 ∧ (s.ops.complete e).readyEvents = [] :=
      ⟨h.ops.ready_eq_zero hr, hr⟩
    have hwoken := h.rouse hs (.inl rfl) (h.guard_ready (by rw [hs]; nofun) (by rw [hs]; nofun))
    rw [pushReady, State.assert_of hready]
    refine (hwoken.toAccounted.complete he).moveReady hr ?_ ⟨nofun, nofun⟩ nofun
    exact h.window (by rw [hp]; nofun)
  · rename_i hs
    have hp : s.place = .closed := by
      cases hp : s.place with
      | closed => rfl
      | front | executed => exact absurd hs (h.fits_at hp).2.1
      | asleep => exact absurd (hs.symm.trans (h.fits_at hp).1) nofun
      | ready =>
        rw [((h.fits_at hp).2.2 hs).1] at he
        cases he
      | final =>
        rw [(h.fits_at hp).2.1] at he
        cases he
    obtain ⟨-, hr, -⟩ := h.fits_at hp
    have hw : s.window = none := h.window (by rw [hp]; nofun)
    have hc := h.toAccounted.complete he
    have hdo := hc.closedDo hr hw
    rw [hdo]
    split
    · rename_i hnil
      exact hc.moveReady hr hw (by rw [hs]; exact ⟨nofun, nofun⟩) fun _ => hnil
    · rename_i hne
      exact h.keepPending he (by rw [hs]; nofun) fun _ => hne
  · rename_i hs hc
    exact h.keepPending he hs fun hsc => absurd hsc hc

theorem step {a : Action E} (h : Inv s) (hs : IOTaskIOCP.step s a = some s') : Inv s' := by
  cases a with
  | wakeup => exact Option.some.inj hs ▸ h.wakeup
  | close => exact Option.some.inj hs ▸ h.close
  | start e isStarted =>
    obtain ⟨⟨hp, hw, he⟩, rfl⟩ := Option.ite_none_right_eq_some.mp hs |>.imp_right Option.some.inj
    exact h.start hp hw he isStarted
  | operationStart =>
    obtain ⟨e, hw, rfl⟩ := Option.map_eq_some_iff.mp hs
    exact h.operationStart hw
  | setLock e isLocked =>
    obtain ⟨he, rfl⟩ := Option.ite_none_left_eq_some.mp hs |>.imp_right Option.some.inj
    exact h.setLock he isLocked
  | ended =>
    obtain ⟨⟨hp, hw⟩, rfl⟩ := Option.ite_none_right_eq_some.mp hs |>.imp_right Option.some.inj
    exact h.ended hp hw
  | rePost =>
    obtain ⟨hp, rfl⟩ := Option.ite_none_right_eq_some.mp hs |>.imp_right Option.some.inj
    exact h.rePost hp
  | complete e =>
    obtain ⟨he, rfl⟩ := Option.ite_none_right_eq_some.mp hs |>.imp_right Option.some.inj
    exact h.complete he
  | frontDo isExpired =>
    obtain ⟨hp, rfl⟩ := Option.ite_none_right_eq_some.mp hs |>.imp_right Option.some.inj
    exact h.frontDo hp isExpired
  | expiredDo =>
    obtain ⟨hw, rfl⟩ := Option.ite_none_right_eq_some.mp hs |>.imp_right Option.some.inj
    exact h.expiredDo hw
  | execute =>
    obtain ⟨hp, rfl⟩ := Option.ite_none_right_eq_some.mp hs |>.imp_right Option.some.inj
    exact h.execute hp

end Inv

variable [DecidableEq E]

/-- The invariant holds in every run. -/
theorem inv {s : State E} (h : machine.Reachable s) : Inv s := by
  refine machine.invariant (P := Inv) ?_ (fun s a s' hi hs => hi.step hs) h
  rintro _ rfl
  exact .new

/-- **IOCP operations**: in every run no assertion fails, and the operation count of a task is the
number of its operations which were started and not given to it, but for one whose call has just
returned in the worker. The pending and ready events are among them. In a final execution the count
is zero and there are no operations. The events which are held differ, and each event was delivered
as many times as it was started but for the operation which is held. -/
theorem packets_ok {as : List (Action E)} {s : State E} (h : machine.run .new as = some s) :
    s.failed = false ∧
    s.ops.operationCount + s.uncounted = s.held.length ∧
    s.uncounted ≤ 1 ∧ (s.place ≠ .executed → s.uncounted = 0) ∧
    s.ops.pendingEventCount + s.ops.readyEventCount ≤ s.ops.operationCount + s.uncounted ∧
    (s.place = .final → s.ops.operationCount = 0 ∧ s.held = []) ∧
    s.held.Nodup ∧
    ∀ e, s.ops.started.count e = s.held.count e + s.ops.delivered.count e := by
  have hi := inv (Machine.Reachable.of_run (.init rfl) h)
  refine ⟨hi.failed, hi.ops.operations, ?_, fun hp => ?_, hi.ops.le, fun hp => ?_, hi.ops.nodup,
    fun e => ?_⟩
  · rw [State.uncounted]
    cases s.window with
    | none => exact Nat.zero_le 1
    | some e => exact Nat.le_refl 1
  · rw [State.uncounted, hi.window hp]
    rfl
  · obtain ⟨-, hin, hpe, hr⟩ := hi.fits_at hp
    have hops := hi.ops_zero (hi.window (by rw [hp]; nofun))
    rw [hin] at hops
    refine ⟨hops.operationCount_eq_zero hpe hr, ?_⟩
    rw [State.held, Operations.held, hin, hpe, hr]
    rfl
  · rw [hi.ops.history.count_eq, List.count_append]
    rfl

/-- A packet comes before the operation is counted. -/
def early : List (Action ℕ) :=
  [.wakeup, .frontDo false, .execute, .start 1 true, .complete 1]

theorem early_uncounted : ∃ s, machine.run .new early = some s ∧ s.held.length = 1 ∧
    s.ops.operationCount = 0 ∧ s.ops.pendingEventCount = 1 := by
  have hrun : ((machine.run .new early).map fun s : State ℕ =>
      (s.held.length, s.ops.operationCount, s.ops.pendingEventCount)) = some (1, 0, 1) := by
    decide +kernel
  simp only [Option.map_eq_some_iff, Prod.mk.injEq] at hrun
  exact hrun

/-- A task is closed when one operation has failed at once and two are in the kernel. -/
def closing : List (Action ℕ) :=
  [.wakeup, .frontDo false, .execute, .start 3 false, .start 1 true, .complete 1, .operationStart,
    .start 2 true, .operationStart, .close, .ended, .frontDo false, .complete 2, .execute]

theorem closing_final : ∃ s, machine.run .new closing = some s ∧ s.place = .final ∧
    s.ops.operationCount = 0 ∧ s.ops.delivered.count 2 = 1 := by
  have hrun : ((machine.run .new closing).map fun s : State ℕ =>
      (s.place, s.ops.started.count 2)) = some (.final, 1) := by
    decide +kernel
  simp only [Option.map_eq_some_iff, Prod.mk.injEq] at hrun
  obtain ⟨s, hs, hp, hstarted⟩ := hrun
  obtain ⟨-, -, -, -, -, hfinal, -, hcount⟩ := packets_ok hs
  obtain ⟨hzero, hheld⟩ := hfinal hp
  have htwo := hcount 2
  rw [hstarted, hheld, List.count_nil] at htwo
  exact ⟨s, hs, hp, hzero, by omega⟩

end IOTaskIOCP

end Serverbox
