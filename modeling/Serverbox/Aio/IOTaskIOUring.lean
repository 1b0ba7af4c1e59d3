import Mathlib.Logic.Function.Basic
import Serverbox.Aio.IOTaskOperations
import Serverbox.Lib.Machine

/-!
# The operations of a task in io_uring

A task starts operations in its execution. Their events go to a list of the task, to a list of the
core when the task comes through the front queue, and to the kernel. The count of the task has
all of them. The scheduler puts a completed event to the pending events of the task, and a task
which sleeps gets ready.

A closed task which has operations must not get its final execution. When it comes through the
front queue the scheduler starts one more operation with its cancel event, which makes the kernel
complete the others, and the task waits in the scheduler. The last completion makes it ready.

The tasks share only the list of the core, whose events go to the kernel in the order of the list,
so there is one task here and its events in that list. The task is in the front queue from the
moment its push is sure, because the scheduler may take it from there at any time later. The heap
of the deadlines, the sockets and the results of the operations are left out. The user locks and
unlocks only the events which the task does not hold, and `ProcessArgs` does that with those which
were delivered.

Source: `src/mg/aio/IOCore_iouring.cpp`, `src/mg/aio/IOTask_iouring.cpp`, `src/mg/aio/IOTask.cpp`,
`src/mg/aio/IOCore.cpp`.

## Main definitions

* `IOTaskIOUring.machine`: a task from its first post on.

## Main results

* `IOTaskIOUring.completions_ok`: the operation count is right, and a closed task has no operations
  in the kernel.
-/

namespace Serverbox

namespace IOTaskIOUring

/-- `IOEvent` of a task: one of its user, and its own cancel event. -/
inductive IOEvent (E : Type*)
  | user (e : E)
  | cancel
  deriving DecidableEq

/-- Where a task is: in the front queue, asleep, ready, executed by a worker, waiting for its last
completions after the cancel was started, and in its final execution. -/
inductive Place
  | front
  | asleep
  | ready
  | executed
  | cancelled
  | final
  deriving DecidableEq

/-- `IOTask` with its events. The lists are `myToSubmitEvents` of the task, those of its events
which are in `myToSubmitEvents` of the core, and those which the kernel has. `failed` says whether
an assertion has failed. -/
structure State (E : Type*) where
  ops : Operations (IOEvent E)
  status : IOTaskStatus
  isClosed : Bool
  closeGuard : Bool
  place : Place
  locked : IOEvent E → Bool
  toSubmit : List (IOEvent E)
  coreToSubmit : List (IOEvent E)
  inFlight : List (IOEvent E)
  failed : Bool

variable {E : Type*}

/-- A new task which is posted. -/
def State.new : State E :=
  ⟨.new, .pending, false, false, .front, fun _ => false, [], [], [], false⟩

/-- An assertion. -/
def State.assert (s : State E) (p : Prop) [Decidable p] : State E :=
  { s with failed := s.failed || !decide p }

/-- The events of the operations which are not complete. -/
def State.out (s : State E) : List (IOEvent E) := s.inFlight ++ s.coreToSubmit ++ s.toSubmit

/-- The events which the task holds. -/
def State.held (s : State E) : List (IOEvent E) := s.ops.held s.out

/-- `PostWakeup`. -/
def wakeup (s : State E) : State E :=
  match s.status with
  | .waiting => { s with status := .ready, place := .front }
  | .pending => { s with status := .ready }
  | _ => s

/-- `PostClose`. -/
def close (s : State E) : State E :=
  if s.closeGuard then s
  else
    let old := s.status
    let s := { s with status := .closing, closeGuard := true }
    let s := s.assert (old = .pending ∨ old = .ready ∨ old = .waiting)
    if old = .waiting then { s with place := .front } else s

/-- The ready events are taken from the pending ones, and the task is appended to the ready
ones. -/
def moveReady (s : State E) : State E := { s with ops := s.ops.makeReady, place := .ready }

/-- The same, after the assertions that the task has no ready events. -/
def pushReady (s : State E) : State E :=
  moveReady (s.assert (s.ops.readyEventCount = 0 ∧ s.ops.readyEvents = []))

/-- `PrivCloseDo`. -/
def closeDo (s : State E) : State E :=
  let s := s.assert (s.status = .closing ∧ s.closeGuard = true ∧ s.isClosed = false)
  { s with isClosed := true, status := .closed }

/-- `PrivDumpReadyEvents`. -/
def dumpReadyEvents (s : State E) : State E :=
  let s := s.assert (s.ops.readyEventCount ≤ s.ops.operationCount)
  { s with ops := s.ops.dumpReadyEvents }

/-- `PrivCloseEnd`. -/
def closeEnd (s : State E) : State E :=
  let s := s.assert (s.status = .closed)
  let s := s.assert (s.ops.pendingEventCount = 0 ∧ s.ops.pendingEvents = [])
  let s := s.assert (s.ops.readyEventCount = 0 ∧ s.ops.readyEvents = [])
  let s := s.assert (s.ops.operationCount = 0)
  s.assert (s.toSubmit = [])

section

variable [DecidableEq E]

/-- `Send`, `Recv`, `ConnectStart` or `Accept`. -/
def start (s : State E) (e : E) : State E :=
  { s with
    ops := (s.ops.begin (.user e)).operationStart
    toSubmit := s.toSubmit ++ [IOEvent.user e]
    locked := Function.update s.locked (.user e) true }

/-- The scheduler starts the cancel of the operations. -/
def cancel (s : State E) : State E :=
  { s with
    ops := (s.ops.begin .cancel).operationStart
    coreToSubmit := s.coreToSubmit ++ [IOEvent.cancel]
    locked := Function.update s.locked .cancel true
    place := .cancelled }

/-- The scheduler handles a completion. -/
def complete (s : State E) (e : IOEvent E) : State E :=
  let s := { s with ops := s.ops.complete e, inFlight := s.inFlight.erase e }
  match s.status with
  | .waiting => pushReady { s with status := .ready }
  | .pending | .ready => s.assert (e ≠ .cancel)
  | _ =>
    let s := s.assert (s.status = .closing)
    if s.locked .cancel = false then s.assert (e ≠ .cancel)
    else if s.ops.pendingEventCount < s.ops.operationCount then s
    else
      let s := s.assert (s.ops.operationCount = s.ops.pendingEventCount)
      pushReady (closeDo s)

/-- The events of the task go to the list of the core. -/
def moveToSubmit (s : State E) : State E :=
  { s with coreToSubmit := s.coreToSubmit ++ s.toSubmit, toSubmit := [] }

/-- The scheduler decides what the task does next. -/
def dispatch (s : State E) (isExpired : Bool) : State E :=
  if s.status = .pending ∧ s.ops.pendingEventCount = 0 ∧ isExpired = false then
    { s with status := .waiting, place := .asleep }
  else
    match s.status with
    | .pending => moveReady { s with status := .ready }
    | .closing =>
      let s := s.assert (s.locked .cancel = false)
      if s.ops.pendingEventCount = s.ops.operationCount then moveReady (closeDo s) else cancel s
    | _ => moveReady (s.assert (s.status ≠ .closed ∧ s.status ≠ .waiting))

/-- The scheduler handles the task in the front queue. -/
def frontDo (s : State E) (isExpired : Bool) : State E :=
  let s := s.assert (s.ops.readyEventCount = 0 ∧ s.ops.readyEvents = [])
  dispatch (moveToSubmit s) isExpired

/-- The scheduler handles a task whose deadline has passed. -/
def expiredDo (s : State E) : State E :=
  { s.assert (s.ops.pendingEventCount = 0) with status := .ready, place := .ready }

/-- `PrivExecute` of a worker, up to `OnEvent`. -/
def execute (s : State E) : State E :=
  let s := s.assert (s.status ≠ .pending)
  let s := dumpReadyEvents (if s.status = .ready then { s with status := .pending } else s)
  if s.isClosed then
    { closeEnd s with locked := Function.update s.locked .cancel false, place := .final }
  else { s with place := .executed }

/-- The task is posted again in its final execution, and its next life begins. -/
def rePost (s : State E) : State E :=
  let s := s.assert (s.ops.operationCount = 0 ∧ s.ops.readyEventCount = 0 ∧
    s.ops.pendingEventCount = 0)
  { s with
    ops := { s.ops with started := [], delivered := [] }
    status := .pending
    isClosed := false
    closeGuard := false
    place := .front }

/-- What can happen to the task. -/
inductive Action (E : Type*)
  | wakeup
  | close
  | start (e : E)
  | setLock (e : E) (isLocked : Bool)
  | ended
  | rePost
  | submit
  | complete (e : IOEvent E)
  | frontDo (isExpired : Bool)
  | expiredDo
  | execute
  deriving DecidableEq

/-- One step of the task. -/
def step (s : State E) : Action E → Option (State E)
  | .wakeup => some (wakeup s)
  | .close => some (close s)
  | .start e =>
    if s.place = .executed ∧ s.locked (.user e) = false then some (start s e) else none
  | .setLock e isLocked =>
    if IOEvent.user e ∈ s.held then none
    else some { s with locked := Function.update s.locked (.user e) isLocked }
  | .ended => if s.place = .executed then some { s with place := .front } else none
  | .rePost => if s.place = .final then some (rePost s) else none
  | .submit =>
    match s.coreToSubmit with
    | [] => none
    | e :: l => some { s with coreToSubmit := l, inFlight := e :: s.inFlight }
  | .complete e => if e ∈ s.inFlight then some (complete s e) else none
  | .frontDo isExpired => if s.place = .front then some (frontDo s isExpired) else none
  | .expiredDo => if s.status = .waiting then some (expiredDo s) else none
  | .execute => if s.place = .ready then some (execute s) else none

/-- A task from its first post on. -/
def machine : Machine (State E) (Action E) where
  init s := s = .new
  step := step

end

/-! ### The invariant -/

/-- The number of the cancels of this life. -/
def State.cancels [DecidableEq E] (s : State E) : ℕ := s.ops.started.count .cancel

/-- What a task is like in its place. -/
def Place.Fits [DecidableEq E] (p : Place) (s : State E) : Prop :=
  match p with
  | .front | .executed =>
    s.status ≠ .waiting ∧ s.status ≠ .closed ∧ s.ops.readyEvents = [] ∧ s.cancels = 0
  | .asleep => s.status = .waiting ∧ s.ops.pendingEvents = [] ∧ s.ops.readyEvents = [] ∧
    s.cancels = 0
  | .ready => s.status ≠ .pending ∧ s.status ≠ .waiting ∧
    (s.status ≠ .closed → s.cancels = 0) ∧
    (s.status = .closed → s.out = [] ∧ s.ops.pendingEvents = [])
  | .cancelled => s.status = .closing ∧ s.ops.readyEvents = [] ∧ s.out ≠ [] ∧
    s.locked .cancel = true
  | .final => s.status = .closed ∧ s.out = [] ∧ s.ops.pendingEvents = [] ∧
    s.ops.readyEvents = [] ∧ s.locked .cancel = false

/-- The part of the invariant which does not depend on the place. -/
structure Accounted [DecidableEq E] (s : State E) : Prop where
  ops : s.ops.Ok s.out 0
  locked : ∀ e ∈ s.held, s.locked e = true
  isClosed : s.isClosed = true ↔ s.status = .closed
  guard : s.closeGuard = true ↔ s.status = .closing ∨ s.status = .closed
  once : s.cancels ≤ 1
  cancel : s.cancels = 0 → s.locked .cancel = false
  failed : s.failed = false

/-- The invariant. -/
structure Inv [DecidableEq E] (s : State E) : Prop extends Accounted s where
  fits : s.place.Fits s

/-- An assertion which holds does nothing. -/
theorem State.assert_of {s : State E} {p : Prop} [Decidable p] (hp : p) : s.assert p = s := by
  rw [State.assert, decide_eq_true hp, Bool.not_true, Bool.or_false]

namespace Accounted

variable [DecidableEq E] {s : State E} {e : IOEvent E}

/-- The cancel event is not in use when there was no cancel in this life. -/
theorem ne_cancel (h : Accounted s) (hz : s.cancels = 0) (he : e ∈ s.held) : e ≠ .cancel := by
  rintro rfl
  have hcount := h.ops.history.count_eq (.cancel : IOEvent E)
  rw [List.count_append] at hcount
  have hpos : 0 < s.held.count .cancel := List.count_pos_iff.mpr he
  change s.cancels = s.held.count .cancel + _ at hcount
  omega

/-- The task gets ready, with its pending events. -/
theorem moveReady (h : Accounted s) (hr : s.ops.readyEvents = [])
    (hs : s.status ≠ .pending ∧ s.status ≠ .waiting) (hz : s.status ≠ .closed → s.cancels = 0)
    (hc : s.status = .closed → s.out = []) : Inv (IOTaskIOUring.moveReady s) := by
  refine ⟨⟨h.ops.makeReady hr, fun u hu => h.locked u ?_, h.isClosed, h.guard, h.once, h.cancel,
    h.failed⟩, ⟨hs.1, hs.2, hz, fun hsc => ⟨hc hsc, rfl⟩⟩⟩
  rwa [State.held, ← Operations.Ok.held_makeReady s.ops s.out hr]

/-- The scheduler closes the task. -/
theorem closeDo (h : Accounted s) (hs : s.status = .closing) :
    IOTaskIOUring.closeDo s = { s with isClosed := true, status := .closed } ∧
      Accounted (IOTaskIOUring.closeDo s) := by
  have hguard := h.guard.mpr (.inl hs)
  have hopen : s.isClosed = false := by
    rw [← Bool.not_eq_true, h.isClosed, hs]
    nofun
  have hdo : IOTaskIOUring.closeDo s = { s with isClosed := true, status := .closed } := by
    rw [IOTaskIOUring.closeDo, State.assert_of ⟨hs, hguard, hopen⟩]
  rw [hdo]
  exact ⟨rfl, h.ops, h.locked, iff_of_true rfl rfl, iff_of_true hguard (.inr rfl), h.once, h.cancel,
    h.failed⟩

/-- A closing task without operations gets ready for its final execution. -/
theorem finish (h : Accounted s) (hs : s.status = .closing) (hr : s.ops.readyEvents = [])
    (hout : s.out = []) : Inv (IOTaskIOUring.moveReady (IOTaskIOUring.closeDo s)) := by
  obtain ⟨hdo, hc⟩ := h.closeDo hs
  rw [hdo] at hc ⊢
  exact hc.moveReady hr ⟨nofun, nofun⟩ (absurd rfl) fun _ => hout

/-- The worker takes the ready events. -/
theorem dumpReadyEvents_eq (h : Accounted s) :
    IOTaskIOUring.dumpReadyEvents s = { s with ops := s.ops.dumpReadyEvents } := by
  have hle : s.ops.readyEventCount ≤ s.ops.operationCount := by
    have := h.ops.le
    omega
  rw [IOTaskIOUring.dumpReadyEvents, State.assert_of hle]

theorem dumpReadyEvents (h : Accounted s) :
    Accounted { s with ops := s.ops.dumpReadyEvents } := by
  refine ⟨h.ops.dumpReadyEvents, fun u hu => h.locked u ?_, h.isClosed, h.guard, h.once, h.cancel,
    h.failed⟩
  rw [State.held, Operations.mem_held] at hu ⊢
  exact hu.imp_right (Or.imp_right nofun)

theorem complete (h : Accounted s) (he : e ∈ s.inFlight) :
    Accounted { s with ops := s.ops.complete e, inFlight := s.inFlight.erase e } := by
  have hout : s.out.erase e = s.inFlight.erase e ++ s.coreToSubmit ++ s.toSubmit := by
    rw [State.out, List.append_assoc, List.erase_append_left _ he, List.append_assoc]
  have hmem : e ∈ s.out := by
    rw [State.out, List.append_assoc]
    exact List.mem_append_left _ he
  have hheld := Operations.Ok.held_complete s.ops hmem
  have hops := h.ops.complete hmem
  rw [hout] at hheld hops
  exact ⟨hops, fun u hu => h.locked u (hheld.mem_iff.mp hu), h.isClosed, h.guard, h.once, h.cancel,
    h.failed⟩

/-- The assertions of the end of a closed task hold. -/
theorem closeEnd (h : Accounted s) (hs : s.status = .closed) (hout : s.out = [])
    (hp : s.ops.pendingEvents = []) (hr : s.ops.readyEvents = []) :
    IOTaskIOUring.closeEnd s = s := by
  have hops := h.ops
  rw [hout] at hops
  have hpending : s.ops.pendingEventCount = 0 ∧ s.ops.pendingEvents = [] :=
    ⟨hops.pending.trans (congrArg _ hp), hp⟩
  have hready : s.ops.readyEventCount = 0 ∧ s.ops.readyEvents = [] := ⟨hops.ready_eq_zero hr, hr⟩
  rw [IOTaskIOUring.closeEnd, State.assert_of hs, State.assert_of hpending, State.assert_of hready,
    State.assert_of (hops.operationCount_eq_zero hp hr),
    State.assert_of (List.append_eq_nil_iff.mp hout).2]

end Accounted

namespace Inv

variable [DecidableEq E] {s s' : State E} {e : IOEvent E}

theorem new : Inv (.new : State E) where
  ops := .new
  locked _ he := by cases he
  isClosed := ⟨nofun, nofun⟩
  guard := ⟨nofun, by rintro (h | h) <;> cases h⟩
  once := Nat.zero_le 1
  cancel _ := rfl
  failed := rfl
  fits := ⟨nofun, nofun, rfl, rfl⟩

/-- What a task is like in a place where it is. -/
theorem fits_at (h : Inv s) {p : Place} (hp : s.place = p) : p.Fits s := hp ▸ h.fits

/-- The task sleeps exactly when it waits. -/
theorem asleep (h : Inv s) (hs : s.status = .waiting) : s.place = .asleep := by
  cases hp : s.place with
  | asleep => rfl
  | front | executed => exact absurd hs (h.fits_at hp).1
  | ready => exact absurd hs (h.fits_at hp).2.1
  | cancelled | final =>
    have hc := (h.fits_at hp).1
    rw [hs] at hc
    cases hc

/-- A task which sleeps is woken up or closed. -/
theorem rouse (h : Inv s) (hs : s.status = .waiting) {x : IOTaskStatus} {b : Bool}
    (hx : x = .ready ∨ x = .closing) (hb : b = true ↔ x = .closing) :
    Inv { s with status := x, closeGuard := b, place := .front } := by
  obtain ⟨-, -, hr, hz⟩ := h.fits_at (h.asleep hs)
  refine ⟨⟨h.ops, h.locked, ?_, ?_, h.once, h.cancel, h.failed⟩, ⟨?_, ?_, hr, hz⟩⟩
  · rw [h.isClosed, hs]
    rcases hx with rfl | rfl <;> exact ⟨nofun, nofun⟩
  · rw [hb]
    refine ⟨.inl, Or.rec id fun hc => ?_⟩
    rcases hx with rfl | rfl <;> cases hc
  · rcases hx with rfl | rfl <;> nofun
  · rcases hx with rfl | rfl <;> nofun

/-- The status of a task which does not sleep changes while it stays where it is. -/
theorem turn (h : Inv s) (hs : s.status ≠ .waiting) (hc : s.status ≠ .closed)
    (hg : s.status ≠ .closing) {x : IOTaskStatus} {b : Bool} (hx : x = .ready ∨ x = .closing)
    (hb : b = true ↔ x = .closing) : Inv { s with status := x, closeGuard := b } := by
  have hx' : x ≠ .pending ∧ x ≠ .waiting ∧ x ≠ .closed := by
    rcases hx with rfl | rfl <;> exact ⟨nofun, nofun, nofun⟩
  refine ⟨⟨h.ops, h.locked, ?_, ?_, h.once, h.cancel, h.failed⟩, ?_⟩
  · rw [h.isClosed]
    exact iff_of_false hc hx'.2.2
  · rw [hb]
    exact ⟨.inl, Or.rec id fun hxc => absurd hxc hx'.2.2⟩
  · change s.place.Fits _
    cases hp : s.place with
    | front | executed => exact ⟨hx'.2.1, hx'.2.2, (h.fits_at hp).2.2⟩
    | asleep => exact absurd (h.fits_at hp).1 hs
    | ready =>
      exact ⟨hx'.1, hx'.2.1, fun _ => (h.fits_at hp).2.2.1 hc, fun hxc => absurd hxc hx'.2.2⟩
    | cancelled => exact absurd (h.fits_at hp).1 hg
    | final => exact absurd (h.fits_at hp).1 hc

/-- The guard of a task which is not closed does not change when it is woken up. -/
theorem guard_ready (h : Inv s) (hg : s.status ≠ .closing) (hc : s.status ≠ .closed) :
    s.closeGuard = true ↔ IOTaskStatus.ready = .closing := by
  rw [h.guard]
  exact iff_of_false (not_or.mpr ⟨hg, hc⟩) nofun

theorem wakeup (h : Inv s) : Inv (IOTaskIOUring.wakeup s) := by
  rw [IOTaskIOUring.wakeup]
  split
  · rename_i hs
    exact h.rouse hs (.inl rfl) (h.guard_ready (by rw [hs]; nofun) (by rw [hs]; nofun))
  · rename_i hs
    exact h.turn (by rw [hs]; nofun) (by rw [hs]; nofun) (by rw [hs]; nofun) (.inl rfl)
      (h.guard_ready (by rw [hs]; nofun) (by rw [hs]; nofun))
  · exact h

theorem close (h : Inv s) : Inv (IOTaskIOUring.close s) := by
  rw [IOTaskIOUring.close]
  split
  · exact h
  · rename_i hg
    rw [h.guard, not_or] at hg
    have hold : s.status = .pending ∨ s.status = .ready ∨ s.status = .waiting := by
      cases hs : s.status <;> simp_all only [reduceCtorEq, or_true, true_or, not_true, and_false,
        false_and]
    dsimp only
    rw [State.assert_of hold]
    split
    · rename_i hs
      exact h.rouse hs (.inr rfl) (iff_of_true rfl rfl)
    · rename_i hs
      exact h.turn hs hg.2 hg.1 (.inr rfl) (iff_of_true rfl rfl)

/-- An event which is not locked is not held. -/
theorem not_held (h : Inv s) (he : s.locked e = false) : e ∉ s.held := by
  intro hmem
  rw [h.locked e hmem] at he
  cases he

/-- The events which are held are locked when one is added to them which was locked. -/
theorem locked_update {l : List (IOEvent E)} (h : Inv s) (hl : l.Perm (e :: s.held)) :
    ∀ u ∈ l, Function.update s.locked e true u = true := by
  intro u hu
  by_cases hue : u = e
  · rw [hue]
    exact Function.update_self ..
  · refine (Function.update_of_ne hue _ _).trans (h.locked u ?_)
    exact (List.mem_cons.mp (hl.mem_iff.mp hu)).resolve_left hue

/-- The worker starts an operation. -/
theorem start {e : E} (h : Inv s) (hp : s.place = .executed) (he : s.locked (.user e) = false) :
    Inv (IOTaskIOUring.start s e) := by
  have hne : IOEvent.cancel ≠ IOEvent.user e := nofun
  have hout : (IOTaskIOUring.start s e).out.Perm (IOEvent.user e :: s.out) := by
    change (s.inFlight ++ s.coreToSubmit ++ (s.toSubmit ++ [IOEvent.user e])).Perm _
    rw [← List.append_assoc]
    exact List.perm_append_singleton _ _
  have hops := (((h.ops.begin (h.not_held he)).operationStart).perm hout)
  have hcancel : (IOTaskIOUring.start s e).locked .cancel = s.locked .cancel := by
    change Function.update s.locked (.user e) true .cancel = _
    exact Function.update_of_ne hne _ _
  have hcancels : (IOTaskIOUring.start s e).cancels = s.cancels :=
    List.count_cons_of_ne hne.symm
  obtain ⟨h1, h2, h3, h4⟩ := h.fits_at hp
  refine ⟨⟨hops, h.locked_update ?_, h.isClosed, h.guard, hcancels ▸ h.once, fun hz => ?_,
    h.failed⟩, ?_⟩
  · exact (hout.append_right _).append_right _
  · exact hcancel.trans (h.cancel (hcancels ▸ hz))
  · change s.place.Fits _
    rw [hp]
    exact ⟨h1, h2, h3, hcancels ▸ h4⟩

/-- The scheduler starts the cancel of a task which has operations. -/
theorem startCancel (h : Inv s) (hs : s.status = .closing) (hr : s.ops.readyEvents = [])
    (hz : s.cancels = 0) : Inv (IOTaskIOUring.cancel s) := by
  have hout : (IOTaskIOUring.cancel s).out.Perm (IOEvent.cancel :: s.out) := by
    change (s.inFlight ++ (s.coreToSubmit ++ [IOEvent.cancel]) ++ s.toSubmit).Perm _
    rw [← List.append_assoc, List.append_assoc, List.singleton_append]
    exact List.perm_middle
  have hops := (((h.ops.begin (h.not_held (h.cancel hz))).operationStart).perm hout)
  have hcancels : (IOTaskIOUring.cancel s).cancels = 1 := by
    change (IOEvent.cancel :: s.ops.started).count IOEvent.cancel = 1
    rw [List.count_cons_self]
    exact congrArg (· + 1) hz
  have hlocked : (IOTaskIOUring.cancel s).locked .cancel = true := by
    change Function.update s.locked .cancel true .cancel = true
    exact Function.update_self ..
  refine ⟨⟨hops, h.locked_update ?_, h.isClosed, h.guard, Nat.le_of_eq hcancels, fun hz => ?_,
    h.failed⟩, ⟨hs, hr, ?_, hlocked⟩⟩
  · exact (hout.append_right _).append_right _
  · rw [hcancels] at hz
    cases hz
  · intro hnil
    rw [hnil] at hout
    exact absurd hout.nil_eq nofun

/-- The user locks or unlocks an event of its own. -/
theorem setLock {e : E} (h : Inv s) (he : .user e ∉ s.held) (b : Bool) :
    Inv { s with locked := Function.update s.locked (.user e) b } := by
  have hne : IOEvent.cancel ≠ IOEvent.user e := nofun
  have hcancel : Function.update s.locked (.user e) b .cancel = s.locked .cancel :=
    Function.update_of_ne hne _ _
  refine ⟨⟨h.ops, fun u hu => ?_, h.isClosed, h.guard, h.once, fun hz => ?_, h.failed⟩, ?_⟩
  · have hue : u ≠ .user e := by
      rintro rfl
      exact he hu
    exact (Function.update_of_ne hue _ _).trans (h.locked u hu)
  · exact hcancel.trans (h.cancel hz)
  · change s.place.Fits _
    cases hp : s.place with
    | front | asleep | ready | executed => exact h.fits_at hp
    | cancelled =>
      obtain ⟨h1, h2, h3, h4⟩ := h.fits_at hp
      exact ⟨h1, h2, h3, hcancel.trans h4⟩
    | final =>
      obtain ⟨h1, h2, h3, h4, h5⟩ := h.fits_at hp
      exact ⟨h1, h2, h3, h4, hcancel.trans h5⟩

theorem ended (h : Inv s) (hp : s.place = .executed) : Inv { s with place := .front } :=
  ⟨⟨h.ops, h.locked, h.isClosed, h.guard, h.once, h.cancel, h.failed⟩, h.fits_at hp⟩

theorem rePost (h : Inv s) (hp : s.place = .final) : Inv (IOTaskIOUring.rePost s) := by
  obtain ⟨-, hout, hpe, hr, hl⟩ := h.fits_at hp
  have hops := h.ops
  rw [hout] at hops
  have hzero : s.ops.operationCount = 0 ∧ s.ops.readyEventCount = 0 ∧
      s.ops.pendingEventCount = 0 := by
    rw [hops.ready, hops.pending, hpe, hr]
    exact ⟨hops.operationCount_eq_zero hpe hr, rfl, rfl⟩
  have hnew : ({ s.ops with started := [], delivered := [] } : Operations (IOEvent E)).Ok
      s.out 0 := by
    rw [hout]
    exact hops.renew hpe hr
  rw [IOTaskIOUring.rePost, State.assert_of hzero]
  exact ⟨⟨hnew, h.locked, ⟨nofun, nofun⟩, ⟨nofun, Or.rec nofun nofun⟩, Nat.zero_le 1, fun _ => hl,
    h.failed⟩, ⟨nofun, nofun, hr, rfl⟩⟩

/-- The events go on their way to the kernel. -/
theorem move (h : Inv s) (hops : s'.ops = s.ops) (hout : s'.out.Perm s.out)
    (hstatus : s'.status = s.status) (hclosed : s'.isClosed = s.isClosed)
    (hguard : s'.closeGuard = s.closeGuard) (hplace : s'.place = s.place)
    (hlocked : s'.locked = s.locked) (hfailed : s'.failed = s.failed) : Inv s' := by
  have hheld : s'.held.Perm s.held := by
    rw [State.held, hops]
    exact (hout.append_right _).append_right _
  have hnil : s'.out = [] ↔ s.out = [] := by
    rw [← List.length_eq_zero_iff, hout.length_eq, List.length_eq_zero_iff]
  have hcancels : s'.cancels = s.cancels := by rw [State.cancels, hops, State.cancels]
  refine ⟨⟨?_, fun u hu => ?_, ?_, ?_, ?_, ?_, ?_⟩, ?_⟩
  · rw [hops]
    exact h.ops.perm hout
  · rw [hlocked]
    exact h.locked u (hheld.mem_iff.mp hu)
  · rw [hclosed, hstatus]
    exact h.isClosed
  · rw [hguard, hstatus]
    exact h.guard
  · rw [hcancels]
    exact h.once
  · rw [hcancels, hlocked]
    exact h.cancel
  · rw [hfailed]
    exact h.failed
  · have hf := h.fits
    rw [hplace]
    cases hp : s.place <;> rw [hp] at hf <;>
      simpa only [Place.Fits, hstatus, hops, hlocked, hcancels, hnil, ne_eq] using hf

/-- The event of a completion is put to the pending ones, but the task stays where it is. -/
theorem keepPending (h : Inv s) (he : e ∈ s.inFlight) (hs : s.status ≠ .waiting)
    (hc : s.place = .cancelled → s.inFlight.erase e ++ s.coreToSubmit ++ s.toSubmit ≠ []) :
    Inv { s with ops := s.ops.complete e, inFlight := s.inFlight.erase e } := by
  have hempty : s.out ≠ [] := by
    intro hnil
    rw [State.out, List.append_assoc] at hnil
    rw [(List.append_eq_nil_iff.mp hnil).1] at he
    cases he
  refine ⟨h.toAccounted.complete he, ?_⟩
  change s.place.Fits _
  cases hp : s.place with
  | front | executed => exact h.fits_at hp
  | asleep => exact absurd (h.fits_at hp).1 hs
  | ready =>
    obtain ⟨h1, h2, h3, h4⟩ := h.fits_at hp
    exact ⟨h1, h2, h3, fun hsc => absurd (h4 hsc).1 hempty⟩
  | cancelled =>
    obtain ⟨h1, h2, -, h4⟩ := h.fits_at hp
    exact ⟨h1, h2, hc hp, h4⟩
  | final => exact absurd (h.fits_at hp).2.1 hempty

/-- A closing task whose cancel was started waits for it. -/
theorem cancelled (h : Inv s) (hs : s.status = .closing) (hl : s.locked .cancel = true) :
    s.place = .cancelled := by
  have hz : s.cancels ≠ 0 := by
    intro hz
    rw [h.cancel hz] at hl
    cases hl
  have hc : s.status ≠ .closed := by rw [hs]; nofun
  cases hp : s.place with
  | cancelled => rfl
  | front | executed => exact absurd (h.fits_at hp).2.2.2 hz
  | asleep => exact absurd (h.fits_at hp).2.2.2 hz
  | ready => exact absurd ((h.fits_at hp).2.2.1 hc) hz
  | final => exact absurd (h.fits_at hp).1 hc

/-- There was no cancel of a task which is not closed and whose cancel event is not locked. -/
theorem cancels_eq_zero (h : Inv s) (hc : s.status ≠ .closed) (hl : s.locked .cancel = false) :
    s.cancels = 0 := by
  cases hp : s.place with
  | front | executed => exact (h.fits_at hp).2.2.2
  | asleep => exact (h.fits_at hp).2.2.2
  | ready => exact (h.fits_at hp).2.2.1 hc
  | cancelled =>
    rw [(h.fits_at hp).2.2.2] at hl
    cases hl
  | final => exact absurd (h.fits_at hp).1 hc

/-- A task which is not closing has no cancel. -/
theorem cancels_eq_zero_of_ne (h : Inv s) (hc : s.status ≠ .closed) (hg : s.status ≠ .closing) :
    s.cancels = 0 := by
  refine h.cancels_eq_zero hc ?_
  by_contra hl
  rw [Bool.not_eq_false] at hl
  cases hp : s.place with
  | cancelled => exact hg (h.fits_at hp).1
  | front | executed => exact absurd (h.cancel (h.fits_at hp).2.2.2) (by rw [hl]; nofun)
  | asleep => exact absurd (h.cancel (h.fits_at hp).2.2.2) (by rw [hl]; nofun)
  | ready => exact absurd (h.cancel ((h.fits_at hp).2.2.1 hc)) (by rw [hl]; nofun)
  | final => exact hc (h.fits_at hp).1

/-- A task which has operations in the kernel is not closed. -/
theorem not_closed (h : Inv s) (he : e ∈ s.inFlight) : s.status ≠ .closed := by
  have hempty : s.out ≠ [] := by
    intro hnil
    rw [State.out, List.append_assoc] at hnil
    rw [(List.append_eq_nil_iff.mp hnil).1] at he
    cases he
  intro hs
  cases hp : s.place with
  | front | executed => exact (h.fits_at hp).2.1 hs
  | asleep | cancelled => exact absurd (hs.symm.trans (h.fits_at hp).1) nofun
  | ready => exact hempty ((h.fits_at hp).2.2.2 hs).1
  | final => exact hempty (h.fits_at hp).2.1

omit [DecidableEq E] in
theorem mem_held (he : e ∈ s.inFlight) : e ∈ s.held := by
  rw [State.held, Operations.mem_held, State.out, List.append_assoc]
  exact .inl (List.mem_append_left _ he)

theorem complete (h : Inv s) (he : e ∈ s.inFlight) : Inv (IOTaskIOUring.complete s e) := by
  have hclosed := h.not_closed he
  have hacc := h.toAccounted.complete he
  rw [IOTaskIOUring.complete]
  dsimp only
  split
  · rename_i hs
    obtain ⟨-, -, hr, hz⟩ := h.fits_at (h.asleep hs)
    have hready : (s.ops.complete e).readyEventCount = 0 ∧ (s.ops.complete e).readyEvents = [] :=
      ⟨h.ops.ready_eq_zero hr, hr⟩
    have hwoken := h.rouse hs (.inl rfl) (h.guard_ready (by rw [hs]; nofun) hclosed)
    rw [pushReady, State.assert_of hready]
    exact (hwoken.toAccounted.complete he).moveReady hr ⟨nofun, nofun⟩ (fun _ => hz) nofun
  · rename_i hs
    have hz := h.cancels_eq_zero_of_ne hclosed (by rw [hs]; nofun)
    rw [State.assert_of (h.ne_cancel hz (mem_held he))]
    refine h.keepPending he (by rw [hs]; nofun) fun hp => ?_
    exact absurd (hs.symm.trans (h.fits_at hp).1) nofun
  · rename_i hs
    have hz := h.cancels_eq_zero_of_ne hclosed (by rw [hs]; nofun)
    rw [State.assert_of (h.ne_cancel hz (mem_held he))]
    refine h.keepPending he (by rw [hs]; nofun) fun hp => ?_
    exact absurd (hs.symm.trans (h.fits_at hp).1) nofun
  · rename_i hw hp hr
    have hs : s.status = .closing := by
      cases hs : s.status with
      | closing => rfl
      | pending => exact absurd hs hp
      | waiting => exact absurd hs hw
      | ready => exact absurd hs hr
      | closed => exact absurd hs hclosed
    have hwait : s.status ≠ .waiting := by rw [hs]; nofun
    rw [State.assert_of hs]
    split
    · rename_i hl
      have hz := h.cancels_eq_zero hclosed hl
      rw [State.assert_of (h.ne_cancel hz (mem_held he))]
      refine h.keepPending he hwait fun hp => ?_
      exact absurd ((h.fits_at hp).2.2.2.symm.trans hl) nofun
    · rename_i hl
      have hpl := h.cancelled hs ((Bool.not_eq_false _).mp hl)
      have hre := (h.fits_at hpl).2.1
      have hiff := hacc.ops.operationCount_eq_iff hre
      split
      · rename_i hlt
        refine h.keepPending he hwait fun _ hnil => ?_
        exact absurd (hiff.mpr hnil) (Nat.ne_of_gt hlt)
      · rename_i hlt
        have heq : (s.ops.complete e).operationCount = (s.ops.complete e).pendingEventCount := by
          have hle := hacc.ops.le
          dsimp only at hle hlt
          omega
        have hready : (s.ops.complete e).readyEventCount = 0 ∧
            (s.ops.complete e).readyEvents = [] := ⟨h.ops.ready_eq_zero hre, hre⟩
        have hfinish := hacc.finish hs hre (hiff.mp heq)
        rw [(hacc.closeDo hs).1] at hfinish
        rw [State.assert_of heq, (hacc.closeDo hs).1, pushReady, State.assert_of hready]
        exact hfinish

/-- The scheduler decides what a task from the front queue does next. -/
theorem dispatch (h : Inv s) (hp : s.place = .front) (isExpired : Bool) :
    Inv (IOTaskIOUring.dispatch s isExpired) := by
  obtain ⟨hwait, hclosed, hr, hz⟩ := h.fits_at hp
  rw [IOTaskIOUring.dispatch]
  split
  · rename_i hs
    obtain ⟨hs, hpe, -⟩ := hs
    refine ⟨⟨h.ops, h.locked, ?_, ?_, h.once, h.cancel, h.failed⟩, ⟨rfl, ?_, hr, hz⟩⟩
    · rw [h.isClosed, hs]
      exact ⟨nofun, nofun⟩
    · rw [h.guard, hs]
      exact ⟨Or.rec nofun nofun, Or.rec nofun nofun⟩
    · exact List.length_eq_zero_iff.mp (h.ops.pending ▸ hpe)
  · split
    · rename_i hs
      have hg : s.status ≠ .closing := by rw [hs]; nofun
      have hready := h.turn hwait hclosed hg (.inl rfl) (h.guard_ready hg hclosed)
      exact hready.toAccounted.moveReady hr ⟨nofun, nofun⟩ (fun _ => hz) nofun
    · rename_i hs
      rw [State.assert_of (h.cancel hz)]
      dsimp only
      split
      · rename_i heq
        exact h.toAccounted.finish hs hr ((h.ops.operationCount_eq_iff hr).mp heq.symm)
      · exact h.startCancel hs hr hz
    · rename_i hpend _
      rw [State.assert_of ⟨hclosed, hwait⟩]
      exact h.toAccounted.moveReady hr ⟨hpend, hwait⟩ (fun _ => hz) fun hsc => absurd hsc hclosed

theorem frontDo (h : Inv s) (hp : s.place = .front) (isExpired : Bool) :
    Inv (IOTaskIOUring.frontDo s isExpired) := by
  obtain ⟨-, -, hr, -⟩ := h.fits_at hp
  have hready : s.ops.readyEventCount = 0 ∧ s.ops.readyEvents = [] := ⟨h.ops.ready_eq_zero hr, hr⟩
  have hout : (moveToSubmit s).out = s.out := by
    change s.inFlight ++ (s.coreToSubmit ++ s.toSubmit) ++ [] = _
    rw [List.append_nil, ← List.append_assoc]
    rfl
  rw [IOTaskIOUring.frontDo, State.assert_of hready]
  have hmoved : Inv (moveToSubmit s) := h.move rfl (.of_eq hout) rfl rfl rfl rfl rfl rfl
  exact hmoved.dispatch hp isExpired

/-- The core gives an event of its list to the kernel. -/
theorem submit (h : Inv s) {l : List (IOEvent E)} (hl : s.coreToSubmit = e :: l) :
    Inv { s with coreToSubmit := l, inFlight := e :: s.inFlight } := by
  refine h.move rfl ?_ rfl rfl rfl rfl rfl rfl
  change (e :: s.inFlight ++ l ++ s.toSubmit).Perm (s.inFlight ++ s.coreToSubmit ++ s.toSubmit)
  rw [hl]
  exact List.perm_middle.symm.append_right _

theorem expiredDo (h : Inv s) (hs : s.status = .waiting) : Inv (IOTaskIOUring.expiredDo s) := by
  obtain ⟨-, hpe, hr, hz⟩ := h.fits_at (h.asleep hs)
  have hzero : s.ops.pendingEventCount = 0 := by rw [h.ops.pending, hpe]; rfl
  have hwoken := h.rouse hs (.inl rfl) (h.guard_ready (by rw [hs]; nofun) (by rw [hs]; nofun))
  rw [IOTaskIOUring.expiredDo, State.assert_of hzero]
  exact ⟨⟨h.ops, h.locked, hwoken.isClosed, hwoken.guard, h.once, h.cancel, h.failed⟩,
    ⟨nofun, nofun, fun _ => hz, nofun⟩⟩

/-- The execution starts. -/
theorem execute (h : Inv s) (hp : s.place = .ready) : Inv (IOTaskIOUring.execute s) := by
  obtain ⟨hpend, hwait, hzero, hempty⟩ := h.fits_at hp
  rw [IOTaskIOUring.execute, State.assert_of hpend]
  dsimp only
  by_cases hs : s.status = .ready
  · have hopen : s.isClosed = false := by
      rw [← Bool.not_eq_true, h.isClosed, hs]
      nofun
    have hturned : Accounted { s with status := .pending } := by
      refine ⟨h.ops, h.locked, ?_, ?_, h.once, h.cancel, h.failed⟩
      · rw [h.isClosed, hs]
        exact ⟨nofun, nofun⟩
      · rw [h.guard, hs]
        exact ⟨Or.rec nofun nofun, Or.rec nofun nofun⟩
    have hd := hturned.dumpReadyEvents
    rw [if_pos hs, hturned.dumpReadyEvents_eq, if_neg (by rw [hopen]; exact Bool.false_ne_true)]
    exact ⟨⟨hd.ops, hd.locked, hd.isClosed, hd.guard, hd.once, hd.cancel, hd.failed⟩,
      ⟨nofun, nofun, rfl, hzero (by rw [hs]; nofun)⟩⟩
  · have hd := h.toAccounted.dumpReadyEvents
    rw [if_neg hs, h.toAccounted.dumpReadyEvents_eq]
    split
    · rename_i hc
      have hsc := h.isClosed.mp hc
      obtain ⟨hout, hpe⟩ := hempty hsc
      have hheld : s.ops.dumpReadyEvents.held s.out = [] := by
        rw [hout]
        exact congrArg (· ++ []) hpe
      have hlocked : Function.update s.locked .cancel false .cancel = false :=
        Function.update_self ..
      rw [hd.closeEnd hsc hout hpe rfl]
      refine ⟨⟨hd.ops, fun u hu => ?_, hd.isClosed, hd.guard, hd.once, fun _ => hlocked, hd.failed⟩,
        ⟨hsc, hout, hpe, rfl, hlocked⟩⟩
      change u ∈ s.ops.dumpReadyEvents.held s.out at hu
      rw [hheld] at hu
      cases hu
    · rename_i hc
      have hsc : s.status ≠ .closed := fun hsc => hc (h.isClosed.mpr hsc)
      exact ⟨⟨hd.ops, hd.locked, hd.isClosed, hd.guard, hd.once, hd.cancel, hd.failed⟩,
        ⟨hwait, hsc, rfl, hzero hsc⟩⟩

theorem step {a : Action E} (h : Inv s) (hs : IOTaskIOUring.step s a = some s') : Inv s' := by
  cases a with
  | wakeup => exact Option.some.inj hs ▸ h.wakeup
  | close => exact Option.some.inj hs ▸ h.close
  | start e =>
    obtain ⟨⟨hp, he⟩, rfl⟩ := Option.ite_none_right_eq_some.mp hs |>.imp_right Option.some.inj
    exact h.start hp he
  | setLock e isLocked =>
    obtain ⟨he, rfl⟩ := Option.ite_none_left_eq_some.mp hs |>.imp_right Option.some.inj
    exact h.setLock he isLocked
  | ended =>
    obtain ⟨hp, rfl⟩ := Option.ite_none_right_eq_some.mp hs |>.imp_right Option.some.inj
    exact h.ended hp
  | rePost =>
    obtain ⟨hp, rfl⟩ := Option.ite_none_right_eq_some.mp hs |>.imp_right Option.some.inj
    exact h.rePost hp
  | submit =>
    rw [IOTaskIOUring.step] at hs
    split at hs
    · cases hs
    · rename_i e l hl
      exact Option.some.inj hs ▸ h.submit hl
  | complete e =>
    obtain ⟨he, rfl⟩ := Option.ite_none_right_eq_some.mp hs |>.imp_right Option.some.inj
    exact h.complete he
  | frontDo isExpired =>
    obtain ⟨hp, rfl⟩ := Option.ite_none_right_eq_some.mp hs |>.imp_right Option.some.inj
    exact h.frontDo hp isExpired
  | expiredDo =>
    obtain ⟨hw, rfl⟩ := Option.ite_none_right_eq_some.mp hs |>.imp_right Option.some.inj
    exact h.expiredDo hw
  | execute =>
    obtain ⟨hp, rfl⟩ := Option.ite_none_right_eq_some.mp hs |>.imp_right Option.some.inj
    exact h.execute hp

/-- A closed task has no operations. -/
theorem out_of_closed (h : Inv s) (hs : s.status = .closed) : s.out = [] := by
  cases hp : s.place with
  | front | executed => exact absurd hs (h.fits_at hp).2.1
  | asleep | cancelled => exact absurd (hs.symm.trans (h.fits_at hp).1) nofun
  | ready => exact ((h.fits_at hp).2.2.2 hs).1
  | final => exact (h.fits_at hp).2.1

end Inv

variable [DecidableEq E]

/-- The invariant holds in every run. -/
theorem inv {s : State E} (h : machine.Reachable s) : Inv s := by
  refine machine.invariant (P := Inv) ?_ (fun s a s' hi hs => hi.step hs) h
  rintro _ rfl
  exact .new

/-- **io_uring operations**: in every run no assertion fails, and the operation count of a task is
the number of its operations which were started and not given to it, among which are the pending and
the ready events. A closed task, which gets its final execution, has no operations on the way to
the kernel or in it, and in the final execution the count is zero. The cancel is started at most
once in a life. The events which are held differ, and each event was delivered as many times as it
was started but for the operation which is held. -/
theorem completions_ok {as : List (Action E)} {s : State E} (h : machine.run .new as = some s) :
    s.failed = false ∧
    s.ops.operationCount = s.held.length ∧
    s.ops.pendingEventCount + s.ops.readyEventCount ≤ s.ops.operationCount ∧
    (s.status = .closed → s.toSubmit = [] ∧ s.coreToSubmit = [] ∧ s.inFlight = []) ∧
    (s.place = .final → s.status = .closed ∧ s.ops.operationCount = 0) ∧
    s.cancels ≤ 1 ∧
    s.held.Nodup ∧
    ∀ e, s.ops.started.count e = s.held.count e + s.ops.delivered.count e := by
  have hi := inv (Machine.Reachable.of_run (.init rfl) h)
  refine ⟨hi.failed, hi.ops.operations, hi.ops.le, fun hs => ?_, fun hp => ?_, hi.once,
    hi.ops.nodup, fun e => ?_⟩
  · obtain ⟨hleft, ht⟩ := List.append_eq_nil_iff.mp (hi.out_of_closed hs)
    obtain ⟨hf, hc⟩ := List.append_eq_nil_iff.mp hleft
    exact ⟨ht, hc, hf⟩
  · obtain ⟨hs, hout, hpe, hr, -⟩ := hi.fits_at hp
    have hops := hi.ops
    rw [hout] at hops
    exact ⟨hs, hops.operationCount_eq_zero hpe hr⟩
  · rw [hi.ops.history.count_eq, List.count_append]
    rfl

/-- A task is closed when it has two operations, one of which is complete before the cancel. -/
def cancelling : List (Action ℕ) :=
  [.wakeup, .frontDo false, .execute, .start 1, .start 2, .close, .ended, .frontDo false, .submit,
    .submit, .complete (.user 1), .submit, .complete .cancel, .complete (.user 2), .execute]

theorem cancelling_final : ∃ s, machine.run .new cancelling = some s ∧ s.place = .final ∧
    s.ops.operationCount = 0 ∧ s.inFlight = [] ∧ s.cancels = 1 ∧
      s.ops.delivered.count .cancel = 1 := by
  have hrun : ((machine.run .new cancelling).map fun s : State ℕ =>
      (s.place, s.cancels, s.held)) = some (.final, 1, []) := by
    decide +kernel
  simp only [Option.map_eq_some_iff, Prod.mk.injEq] at hrun
  obtain ⟨s, hs, hp, hcancels, hheld⟩ := hrun
  obtain ⟨-, -, -, hclosed, hfinal, -, -, hcount⟩ := completions_ok hs
  obtain ⟨hstatus, hzero⟩ := hfinal hp
  have hone := hcount .cancel
  rw [hheld, List.count_nil, Nat.zero_add] at hone
  exact ⟨s, hs, hp, hzero, (hclosed hstatus).2.2, hcancels, hone ▸ hcancels⟩

end IOTaskIOUring

end Serverbox
