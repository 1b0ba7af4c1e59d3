import Mathlib.Data.List.Perm.Subperm
import Mathlib.Data.List.Nodup

/-!
# The operations of a task

With IOCP and io_uring a task counts its operations. An operation is counted from its start until
its event is given to `OnEvent`. When the kernel completes it, its event goes to the pending
events, which belong to the scheduler. They become the ready events of the worker when the task gets
ready, and the worker takes them all and subtracts their number from the count.

The events of the operations which are not complete are a list here. With IOCP they are in the
kernel. With io_uring some are in the task and in the core before they are submitted.

Source: `src/mg/aio/IOTask_IOCP.cpp`, `src/mg/aio/IOTask_iouring.cpp`.

## Main definitions

* `Operations`: the counters of a task, its lists of events, and their history.
* `Operations.Ok`: the counters are right.
-/

namespace Serverbox

/-- `IOTaskStatus`. -/
inductive IOTaskStatus
  | pending
  | waiting
  | ready
  | closing
  | closed
  deriving DecidableEq

/-- The pending and ready events of `IOTask` with their numbers, and its operation count. The lists
`started` and `delivered` are the events of all the operations which were started in this life of
the task and of those whose completion was given to it. -/
structure Operations (E : Type*) where
  operationCount : ℕ
  pendingEvents : List E
  pendingEventCount : ℕ
  readyEvents : List E
  readyEventCount : ℕ
  started : List E
  delivered : List E

namespace Operations

variable {E : Type*}

/-- `PrivConstructPlatform`. -/
def new : Operations E := ⟨0, [], 0, [], 0, [], []⟩

/-- The kernel or the queue to it has got the operation of an event. -/
def begin (o : Operations E) (e : E) : Operations E := { o with started := e :: o.started }

/-- `OperationStart`. -/
def operationStart (o : Operations E) : Operations E :=
  { o with operationCount := o.operationCount + 1 }

/-- The scheduler has got a completion. -/
def complete (o : Operations E) (e : E) : Operations E :=
  { o with
    pendingEvents := o.pendingEvents ++ [e]
    pendingEventCount := o.pendingEventCount + 1 }

/-- The scheduler makes the pending events ready. -/
def makeReady (o : Operations E) : Operations E :=
  { o with
    readyEvents := o.pendingEvents
    readyEventCount := o.pendingEventCount
    pendingEvents := []
    pendingEventCount := 0 }

/-- `PrivDumpReadyEvents`. -/
def dumpReadyEvents (o : Operations E) : Operations E :=
  { o with
    operationCount := o.operationCount - o.readyEventCount
    readyEvents := []
    readyEventCount := 0
    delivered := o.delivered ++ o.readyEvents }

/-- The events of the operations which were started and not given to the task, where `out` are those
which are not complete. -/
def held (o : Operations E) (out : List E) : List E := out ++ o.pendingEvents ++ o.readyEvents

/-- The counters are right when the operations which are not complete are `out`, and `n` of those
started are not counted yet. -/
structure Ok (o : Operations E) (out : List E) (n : ℕ) : Prop where
  operations : o.operationCount + n = (o.held out).length
  pending : o.pendingEventCount = o.pendingEvents.length
  ready : o.readyEventCount = o.readyEvents.length
  nodup : (o.held out).Nodup
  history : o.started.Perm (o.held out ++ o.delivered)

theorem length_held (o : Operations E) (out : List E) : (o.held out).length =
    out.length + o.pendingEvents.length + o.readyEvents.length := by
  rw [held, List.length_append, List.length_append]

theorem mem_held {o : Operations E} {out : List E} {e : E} : e ∈ o.held out ↔
    e ∈ out ∨ e ∈ o.pendingEvents ∨ e ∈ o.readyEvents := by
  rw [held, List.mem_append, List.mem_append, or_assoc]

namespace Ok

variable {o : Operations E} {out out' : List E} {n : ℕ} {e : E}

theorem new : (Operations.new : Operations E).Ok [] 0 :=
  ⟨rfl, rfl, rfl, List.nodup_nil, .refl _⟩

/-- The pending and ready events are at most the operations. -/
theorem le (h : o.Ok out n) : o.pendingEventCount + o.readyEventCount ≤ o.operationCount + n := by
  rw [h.operations, length_held, h.pending, h.ready]
  omega

/-- The operations are moved on their way to the kernel. -/
theorem perm (h : o.Ok out n) (hp : out'.Perm out) : o.Ok out' n := by
  have hheld : (o.held out').Perm (o.held out) := (hp.append_right _).append_right _
  refine ⟨?_, h.pending, h.ready, hheld.nodup_iff.mpr h.nodup, ?_⟩
  · rw [hheld.length_eq, h.operations]
  · exact h.history.trans (hheld.symm.append_right _)

/-- An operation starts, whose event is not in use. -/
theorem begin (h : o.Ok out n) (he : e ∉ o.held out) : (o.begin e).Ok (e :: out) (n + 1) where
  operations := congrArg (· + 1) h.operations
  pending := h.pending
  ready := h.ready
  nodup := List.nodup_cons.mpr ⟨he, h.nodup⟩
  history := h.history.cons e

/-- A started operation is counted. -/
theorem operationStart (h : o.Ok out (n + 1)) : o.operationStart.Ok out n where
  operations := by
    have hops := h.operations
    change o.operationCount + 1 + n = (o.held out).length
    omega
  pending := h.pending
  ready := h.ready
  nodup := h.nodup
  history := h.history

/-- The events which are held stay the same when one of them is complete. -/
theorem held_complete [DecidableEq E] (o : Operations E) (he : e ∈ out) :
    ((o.complete e).held (out.erase e)).Perm (o.held out) := by
  have hout : (out.erase e ++ (o.pendingEvents ++ [e])).Perm (out ++ o.pendingEvents) := by
    rw [← List.append_assoc]
    refine (List.perm_append_singleton e _).trans ?_
    exact (List.perm_cons_erase he).symm.append_right _
  exact hout.append_right _

theorem complete [DecidableEq E] (h : o.Ok out n) (he : e ∈ out) :
    (o.complete e).Ok (out.erase e) n := by
  have hp := held_complete o he
  refine ⟨?_, ?_, h.ready, hp.nodup_iff.mpr h.nodup, ?_⟩
  · rw [hp.length_eq]
    exact h.operations
  · rw [Operations.complete, List.length_append, List.length_singleton, ← h.pending]
  · exact h.history.trans (hp.symm.append_right _)

theorem held_makeReady (o : Operations E) (out : List E) (hr : o.readyEvents = []) :
    o.makeReady.held out = o.held out := by
  simp only [held, makeReady, hr, List.append_nil]

theorem makeReady (h : o.Ok out n) (hr : o.readyEvents = []) : o.makeReady.Ok out n := by
  have hheld := held_makeReady o out hr
  refine ⟨?_, rfl, h.pending, ?_, ?_⟩
  · rw [hheld]
    exact h.operations
  · rw [hheld]
    exact h.nodup
  · rw [hheld]
    exact h.history

/-- The worker takes the ready events. -/
theorem dumpReadyEvents (h : o.Ok out 0) : o.dumpReadyEvents.Ok out 0 := by
  have hheld : o.dumpReadyEvents.held out ++ o.readyEvents = o.held out := by
    simp only [held, Operations.dumpReadyEvents, List.append_nil]
  have hlen := congrArg List.length hheld
  have hops := h.operations
  have hready := h.ready
  rw [List.length_append] at hlen
  refine ⟨?_, h.pending, rfl, ?_, ?_⟩
  · change o.operationCount - o.readyEventCount + 0 = _
    omega
  · exact (List.nodup_append.mp (hheld ▸ h.nodup)).1
  · refine h.history.trans ?_
    rw [← hheld, List.append_assoc]
    exact List.perm_append_comm.append_left _

/-- The next life of a task. -/
theorem renew (h : o.Ok [] 0) (hp : o.pendingEvents = []) (hr : o.readyEvents = []) :
    ({ o with started := [], delivered := [] } : Operations E).Ok [] 0 where
  operations := h.operations
  pending := h.pending
  ready := h.ready
  nodup := h.nodup
  history := by
    simp only [held, hp, hr, List.append_nil]
    exact .refl _

theorem ready_eq_zero (h : o.Ok out n) (hr : o.readyEvents = []) : o.readyEventCount = 0 := by
  rw [h.ready, hr]
  rfl

/-- When all which is held is pending, and only then, the numbers are equal. -/
theorem operationCount_eq_iff (h : o.Ok out 0) (hr : o.readyEvents = []) :
    o.operationCount = o.pendingEventCount ↔ out = [] := by
  have hops := h.operations
  rw [length_held, hr, List.length_nil, ← h.pending] at hops
  rw [← List.length_eq_zero_iff]
  omega

/-- All the events are complete and given to the task. -/
theorem operationCount_eq_zero (h : o.Ok [] 0) (hp : o.pendingEvents = [])
    (hr : o.readyEvents = []) : o.operationCount = 0 := by
  have hops := h.operations
  rw [length_held, hp, hr] at hops
  exact hops

end Ok

end Operations

end Serverbox
