import Mathlib.Data.Finset.Union
import Mathlib.Data.List.Induction
import Serverbox.Aio.IOCoreCount

/-!
# The life of a task in the epoll core

What happens to one `IOTask` of a core which works over epoll, whatever the threads and the other
tasks do. It is posted, pushed to the front queue, taken to the pending queue, falls asleep or
becomes ready, is executed and comes back; it may be woken up, and be asked to close, at any moment.
The kernel reports edges for its socket, `epoll_wait` returns them, the scheduler keeps them as
pending events and gives them to the worker as ready events.

`PrivCloseStart` and the exchange of the status in `PostClose` are two steps. The field `closeGuard`
of the core's task is set with the exchange, and the field `closeGuard` of `IOTask` is the flag of
the source, which is set first.

Source: `src/mg/aio/IOTask.cpp`, `src/mg/aio/IOTask_epoll.cpp`, `src/mg/aio/IOCore_epoll.cpp`.

## Main definitions

* `IOCoreEpoll.IOTask`: the fields of a task, its socket in the kernel, and its history.
* `IOCoreEpoll.Life`, `IOCoreEpoll.Life.Step`: the data of one task, and what can happen to it.
* `IOCoreEpoll.Life.Ok`: what holds at every moment of its life.

## Main results

* `IOCoreEpoll.Life.Step.ok`: the invariant of one task.
* `IOCoreEpoll.Life.Step.later`: no event and no wakeup is lost, and a task which is to be closed is
  executed at most once before.
* `IOCoreEpoll.Phase.counts`: the numbers of the calls in a history.
-/

namespace Serverbox

namespace IOCoreEpoll

open IOCoreCount (Status)

/-- The bits of an epoll mask. -/
inductive Event
  | epollIn
  | epollOut
  | epollPri
  | epollErr
  | epollHup
  deriving DecidableEq

/-- What happened to a task: it was posted, its `OnEvent` was called, with `IsClosed` and with the
events in the arguments, and its socket was closed in `PrivCloseDo`. -/
inductive Call
  | post
  | onEvent (isClosed : Bool) (args : Finset Event)
  | closeDo
  deriving DecidableEq

/-- An execution. -/
def Call.isEvent : Call → Bool
  | .onEvent _ _ => true
  | _ => false

/-- `MG_TIME_INFINITE`. -/
def timeInfinite : ℕ := 2 ^ 64 - 1

/-- The fields of `IOTask` which the core uses besides the status, and what epoll knows of its
socket: whether it has one, whether it is registered, which edges were not returned yet, and which
ones were returned and not handled. -/
structure IOTask where
  isInQueues : Bool
  isExpired : Bool
  closeGuard : Bool
  deadline : ℕ
  readyEvents : Finset Event
  pendingEvents : Finset Event
  socket : Bool
  registered : Bool
  edges : Finset Event
  returned : Finset Event
  log : List Call

/-- The constructor. -/
def IOTask.new : IOTask := ⟨false, false, false, timeInfinite, ∅, ∅, false, false, ∅, ∅, []⟩

namespace IOTask

variable (x : IOTask)

/-- The events which `epoll_wait` returned are merged into the pending ones. -/
@[simp] def merge : IOTask :=
  { x with pendingEvents := x.pendingEvents ∪ x.returned, returned := ∅ }

/-- The pending events become ready. -/
@[simp] def flush (isExpired : Bool) : IOTask :=
  { x with
    readyEvents := x.readyEvents ∪ x.pendingEvents
    pendingEvents := ∅
    isExpired := isExpired }

/-- `PrivKernelUnregister`, `PrivCloseDo` and the end of the dispatch of a closing task. -/
@[simp] def closeDo (isExpired : Bool) : IOTask :=
  { x with
    registered := false
    edges := ∅
    socket := false
    readyEvents := ∅
    pendingEvents := ∅
    isExpired := isExpired
    log := x.log ++ [Call.closeDo] }

/-- `PrivExecute` up to `OnEvent`. -/
@[simp] def execute (isClosed : Bool) : IOTask :=
  { x with
    isInQueues := false
    readyEvents := ∅
    deadline := timeInfinite
    log := x.log ++ [Call.onEvent isClosed x.readyEvents] }

/-- `SetDeadline`, and `Reschedule` with the deadline 0. -/
@[simp] def setDeadline (d : ℕ) : IOTask := { x with deadline := min d x.deadline }

end IOTask

/-- Where a task is. -/
inductive Place
  | outside
  | attached
  | posted
  | frontQueue
  | pendingQueue
  | asleep
  | woken
  | ready
  | readyQueue
  | executed
  deriving DecidableEq

/-- The places in which the task belongs to the core. -/
@[simp] def Place.inQueues : Place → Bool
  | .outside | .attached | .posted | .executed => false
  | _ => true

/-- The places from the registration of the socket to the final execution. -/
@[simp] def Place.counted : Place → Bool
  | .outside | .attached => false
  | _ => true

/-- The places from the decision to execute a task to its execution. -/
@[simp] def Place.dispatched : Place → Bool
  | .ready | .readyQueue => true
  | _ => false

/-- The data of one task: its place, its status and flags, whether it is in the waiting heap,
whether a thread is inside its `PostClose`, whether it is in the array of `epoll_wait`, and the
other fields. -/
structure Life where
  place : Place
  core : IOCoreCount.IOTask
  inHeap : Bool
  closing : Bool
  inEvs : Bool
  task : IOTask

namespace Life

/-- What can happen to a task. -/
inductive Step : Life → Life → Prop
  | attach {l : Life} (sock : Bool) (hp : l.place = .outside) (hs : l.core.status ≠ .closed) :
    Step l { l with
      place := .attached
      core := { l.core with sub := true }
      task := { l.task with socket := sock, log := l.task.log ++ [Call.post] } }
  | reuse {l : Life} (sock : Bool) (hp : l.place = .outside) (hs : l.core.status = .closed) :
    Step l { l with
      place := .attached
      core := ⟨.pending, true, false, false⟩
      task := { l.task with
        closeGuard := false, socket := sock, log := l.task.log ++ [Call.post] } }
  | postStart {l : Life} (hp : l.place = .attached) :
    Step l { l with
      place := .posted, task := { l.task with registered := l.task.registered || l.task.socket } }
  | post {l : Life} (hp : l.place = .posted) :
    Step l { l with place := .frontQueue, task := { l.task with isInQueues := true } }
  | wakeup {l : Life} (hs : l.core.status = .pending) :
    Step l { l with core := { l.core with status := .ready } }
  | wakeupAsleep {l : Life} (hs : l.core.status = .waiting) :
    Step l { l with place := .woken, core := { l.core with status := .ready } }
  | closeStart {l : Life} (hg : l.task.closeGuard = false) :
    Step l { l with closing := true, task := { l.task with closeGuard := true } }
  | close {l : Life} (hc : l.closing = true) (hs : l.core.status ≠ .waiting) :
    Step l { l with
      closing := false, core := { l.core with status := .closing, closeGuard := true } }
  | closeAsleep {l : Life} (hc : l.closing = true) (hs : l.core.status = .waiting) :
    Step l { l with
      place := .woken
      closing := false
      core := { l.core with status := .closing, closeGuard := true } }
  | rePost {l : Life} (hp : l.place = .woken) : Step l { l with place := .frontQueue }
  | takeFront {l : Life} (hp : l.place = .frontQueue) : Step l { l with place := .pendingQueue }
  | edge {l : Life} (e : Event) (hr : l.task.registered = true) :
    Step l { l with task := { l.task with edges := insert e l.task.edges } }
  | collect {l : Life} (mask : Finset Event) (hi : l.inEvs = false) (hm : mask ⊆ l.task.edges)
    (hne : mask.Nonempty) :
    Step l { l with
      inEvs := true
      task := { l.task with edges := l.task.edges \ mask, returned := mask } }
  | note {l : Life} (hi : l.inEvs = true) (hs : l.core.status ≠ .waiting) :
    Step l { l with inEvs := false, task := l.task.merge }
  | rouse {l : Life} (isExpired : Bool) (hi : l.inEvs = true) (hs : l.core.status = .waiting) :
    Step l { l with
      place := .ready
      core := { l.core with status := .ready }
      inHeap := false
      inEvs := false
      task := l.task.merge.flush isExpired }
  | sleep {l : Life} (hp : l.place = .pendingQueue) (hs : l.core.status = .pending)
    (he : l.task.pendingEvents = ∅) :
    Step l { l with
      place := .asleep
      core := { l.core with status := .waiting }
      inHeap := decide (l.task.deadline ≠ timeInfinite) }
  | dispatch {l : Life} (isExpired : Bool) (hp : l.place = .pendingQueue)
    (hs : l.core.status ≠ .closing) :
    Step l { l with
      place := .ready
      core := { l.core with
        status := if l.core.status = .pending then .ready else l.core.status }
      inHeap := false
      task := l.task.flush isExpired }
  | closeDo {l : Life} (isExpired : Bool) (hp : l.place = .pendingQueue)
    (hs : l.core.status = .closing) (hi : l.inEvs = false) :
    Step l { l with
      place := .ready
      core := { l.core with status := .closed, isClosed := true }
      inHeap := false
      task := l.task.closeDo isExpired }
  | expire {l : Life} (hs : l.core.status = .waiting) :
    Step l { l with
      place := .ready
      core := { l.core with status := .ready }
      inHeap := false
      task := { l.task with isExpired := true } }
  | unheap {l : Life} (hs : l.core.status ≠ .waiting) : Step l { l with inHeap := false }
  | pushReady {l : Life} (hp : l.place = .ready) : Step l { l with place := .readyQueue }
  | execute {l : Life} (hp : l.place = .readyQueue) (hc : l.core.isClosed = false) :
    Step l { l with
      place := .executed
      core := { l.core with
        status := if l.core.status = .ready then .pending else l.core.status }
      task := l.task.execute false }
  | final {l : Life} (hp : l.place = .readyQueue) (hc : l.core.isClosed = true) :
    Step l { l with
      place := .outside
      core := { l.core with
        status := if l.core.status = .ready then .pending else l.core.status
        sub := false }
      task := l.task.execute true }
  | setDeadline {l : Life} (d : ℕ) (hq : l.task.isInQueues = false) :
    Step l { l with task := l.task.setDeadline d }
  | save {l : Life} (e : Event) (hp : l.place = .executed) (hs : l.task.socket = true) :
    Step l { l with task := { l.task with readyEvents := insert e l.task.readyEvents } }
  | attachSocket {l : Life} (hp : l.place = .executed) (hs : l.task.socket = false) :
    Step l { l with task := { l.task with socket := true, registered := true } }
  | ended {l : Life} (hp : l.place = .executed) :
    Step l { l with place := .frontQueue, task := { l.task with isInQueues := true } }

/-- What is left of the events which the kernel reported: they were not returned by `epoll_wait`, or
are in its array, or pending, or ready and on the way to a worker. -/
def fresh (l : Life) : Finset Event :=
  l.task.edges ∪ l.task.returned ∪ l.task.pendingEvents ∪
    if l.place.dispatched then l.task.readyEvents else ∅

/-- The task is going to be executed: it was woken up, or is to be closed. -/
def Awake (l : Life) : Prop :=
  l.core.status = .ready ∨ l.core.status = .closing ∨
    l.core.status = .closed ∧ l.place.dispatched = true

end Life

/-- Where a task is in its history: not posted, posted, or with a closed socket and without the
final execution. -/
inductive Phase
  | outside
  | inside
  | closed
  deriving DecidableEq

/-- The calls which may happen in a phase. A closed task has one more execution, without events. -/
def Phase.next : Phase → Call → Option Phase
  | .outside, .post => some .inside
  | .inside, .onEvent false _ => some .inside
  | .inside, .closeDo => some .closed
  | .closed, .onEvent true args => if args = ∅ then some .outside else none
  | _, _ => none

/-- The phase after a history, `none` when a call should not have happened. -/
def Phase.after (log : List Call) : Option Phase := log.foldlM Phase.next .outside

theorem Phase.after_snoc {log : List Call} {p : Phase} (h : Phase.after log = some p)
    (call : Call) : Phase.after (log ++ [call]) = p.next call := by
  rw [after, List.foldlM_append, show log.foldlM Phase.next .outside = some p from h]
  simp

/-- A final execution. -/
def Call.isFinal : Call → Bool
  | .onEvent isClosed _ => isClosed
  | _ => false

/-- Each life has one closure of the socket and after it one final execution, and the last life may
be without them. -/
theorem Phase.counts {log : List Call} {p : Phase} (h : Phase.after log = some p) :
    log.count .post = log.countP Call.isFinal + (decide (p ≠ .outside)).toNat ∧
    log.count .closeDo = log.countP Call.isFinal + (decide (p = .closed)).toNat := by
  induction log using List.reverseRecOn generalizing p with
  | nil =>
    obtain rfl := Option.some.inj h
    exact ⟨rfl, rfl⟩
  | append_singleton log call ih =>
    rw [after, List.foldlM_append] at h
    obtain ⟨q, hq, h⟩ := Option.bind_eq_some_iff.mp h
    obtain ⟨hpost, hclose⟩ := ih hq
    have hnext : q.next call = some p := by simpa using h
    rw [List.count_append, List.count_append, List.countP_append, hpost, hclose]
    cases q <;> cases call <;> simp_all [next, Call.isFinal] <;> grind

namespace Life

/-- The phase of a task. -/
def phase (l : Life) : Phase :=
  if l.place = .outside then .outside else if l.core.status = .closed then .closed else .inside

/-- What the core's own invariant says of one task. -/
structure Core (l : Life) : Prop where
  asleep_iff : l.place = .asleep ↔ l.core.status = .waiting
  heap : l.inHeap = true → l.core.status ≠ .pending ∧
    (l.place = .asleep ∨ l.place = .woken ∨ l.place = .frontQueue ∨ l.place = .pendingQueue)

/-- What holds at every moment of the life of a task. -/
structure Ok (l : Life) : Prop where
  inQueues : l.task.isInQueues = l.place.inQueues
  guard : l.task.closeGuard = (l.core.closeGuard || l.closing)
  closing : l.closing = true → l.core.closeGuard = false
  closeGuard : l.core.closeGuard = true ↔ l.core.status = .closing ∨ l.core.status = .closed
  isClosed : l.core.isClosed = true ↔ l.core.status = .closed
  closed : l.core.status = .closed →
    l.task.socket = false ∧ (l.place = .outside ∨ l.place.dispatched = true)
  registered : l.task.registered = (l.task.socket && l.place.counted)
  outside : l.place = .outside → l.task.socket = false
  edges : l.task.edges.Nonempty → l.task.registered = true
  inEvs : l.inEvs = true → l.task.registered = true
  returned : l.task.returned.Nonempty → l.inEvs = true
  pending : l.task.pendingEvents.Nonempty → l.task.registered = true
  ready : l.task.readyEvents.Nonempty → l.task.socket = true
  attached : l.place = .attached → l.task.readyEvents = ∅
  asleep : l.place = .asleep → l.task.pendingEvents = ∅ ∧
    (l.task.deadline ≠ timeInfinite → l.inHeap = true)
  dispatched : l.place.dispatched = true → l.core.status = .ready ∨ l.core.status = .closing ∨
    l.core.status = .closed
  phase : Phase.after l.task.log = some l.phase

theorem Ok.new : Ok ⟨.outside, .new, false, false, false, .new⟩ := by
  constructor <;> simp [IOTask.new, IOCoreCount.IOTask.new, Life.phase, Phase.after]

variable {l l' : Life}

/-- A task which is dispatched has a status in which it does not sleep. -/
theorem Ok.not_waiting (ho : Ok l) (hd : l.place.dispatched = true) :
    l.core.status ≠ .waiting ∧ l.core.status ≠ .pending := by
  rcases ho.dispatched hd with hs | hs | hs <;> rw [hs] <;> exact ⟨nofun, nofun⟩

theorem Step.inQueues (h : Step l l') (hc : Core l) (ho : Ok l) :
    l'.task.isInQueues = l'.place.inQueues := by
  have hq := ho.inQueues
  have hw := hc.asleep_iff
  cases h <;> simp_all

theorem Step.guards (h : Step l l') (ho : Ok l) :
    l'.task.closeGuard = (l'.core.closeGuard || l'.closing) ∧
    (l'.closing = true → l'.core.closeGuard = false) := by
  have hg := ho.guard
  have hc := ho.closing
  have hs := ho.closeGuard
  cases h <;> simp_all

theorem Step.closeGuard (h : Step l l') (ho : Ok l) :
    (l'.core.closeGuard = true ↔ l'.core.status = .closing ∨ l'.core.status = .closed) ∧
    (l'.core.isClosed = true ↔ l'.core.status = .closed) := by
  have hs := ho.closeGuard
  have hc := ho.isClosed
  have hg := ho.closing
  cases h with
  | execute hp hc | final hp hc | dispatch e hp hs =>
    simp only
    split <;> simp_all
  | _ => simp_all

theorem Step.closed (h : Step l l') (hc : Core l) (ho : Ok l) (hs : l'.core.status = .closed) :
    l'.task.socket = false ∧ (l'.place = .outside ∨ l'.place.dispatched = true) := by
  have hd := ho.closed
  have hi := ho.isClosed
  have hw := hc.asleep_iff
  have hg := ho.closing
  have hcg := ho.closeGuard
  cases h with
  | execute hp hc | final hp hc | dispatch e hp hs =>
    simp only at hs
    split at hs <;> simp_all
  | _ => simp_all

theorem Step.registered (h : Step l l') (hc : Core l) (ho : Ok l) :
    l'.task.registered = (l'.task.socket && l'.place.counted) ∧
    (l'.place = .outside → l'.task.socket = false) := by
  have hr := ho.registered
  have ht := ho.outside
  have hw := hc.asleep_iff
  have hi := ho.isClosed
  have hd := ho.closed
  cases h <;> simp_all

theorem Step.edges (h : Step l l') (ho : Ok l) :
    (l'.task.edges.Nonempty → l'.task.registered = true) ∧
    (l'.inEvs = true → l'.task.registered = true) ∧
    (l'.task.returned.Nonempty → l'.inEvs = true) ∧
    (l'.task.pendingEvents.Nonempty → l'.task.registered = true) := by
  have he := ho.edges
  have hi := ho.inEvs
  have hr := ho.returned
  have hp := ho.pending
  cases h with
  | collect mask hi hm hne =>
    have hreg := he (hne.mono hm)
    simp_all
  | note hi hs | rouse e hi hs => simp_all [Finset.union_nonempty]
  | _ => simp_all

theorem Step.ready (h : Step l l') (ho : Ok l) (hr : l'.task.readyEvents.Nonempty) :
    l'.task.socket = true := by
  have hold := ho.ready
  have hp := ho.pending
  have hi := ho.inEvs
  have hret := ho.returned
  have hreg := ho.registered
  have ht := ho.outside
  cases h with
  | rouse e hi hs | dispatch e hp hs =>
    simp only [IOTask.merge, IOTask.flush, Finset.union_nonempty] at hr
    rcases hr with hr | hr <;> simp_all
  | _ => simp_all

theorem Step.attached (h : Step l l') (hc : Core l) (ho : Ok l) (hp : l'.place = .attached) :
    l'.task.readyEvents = ∅ := by
  have ha := ho.attached
  have hr := ho.ready
  have ht := ho.outside
  have hw := hc.asleep_iff
  have hi := ho.inEvs
  have hreg := ho.registered
  cases h with
  | attach sock hp hs | reuse sock hp hs =>
    by_contra hne
    have hsock := hr (Finset.nonempty_iff_ne_empty.mpr hne)
    simp_all
  | _ => simp_all

theorem Step.asleep (h : Step l l') (hc : Core l) (ho : Ok l) (hp : l'.place = .asleep) :
    l'.task.pendingEvents = ∅ ∧ (l'.task.deadline ≠ timeInfinite → l'.inHeap = true) := by
  have ha := ho.asleep
  have hw := hc.asleep_iff
  have hq := ho.inQueues
  cases h <;> simp_all

theorem Step.dispatched (h : Step l l') (ho : Ok l) (hc : Core l)
    (hd : l'.place.dispatched = true) :
    l'.core.status = .ready ∨ l'.core.status = .closing ∨ l'.core.status = .closed := by
  have hold := ho.dispatched
  have hw := hc.asleep_iff
  have hcl := ho.closed
  cases h with
  | dispatch e hp hs =>
    have hnw : l.core.status ≠ .waiting := fun he => by simp [hw.mpr he] at hp
    cases hst : l.core.status <;> simp_all
  | _ => simp_all

theorem Step.phase (h : Step l l') (hc : Core l) (ho : Ok l) :
    Phase.after l'.task.log = some l'.phase := by
  have hold := ho.phase
  have hw := hc.asleep_iff
  have hcl := ho.closed
  have hi := ho.isClosed
  have hr := ho.ready
  have hg := ho.closing
  have hcg := ho.closeGuard
  cases h with
  | attach sock hp hs | reuse sock hp hs | closeDo e hp hs hi =>
    simp_all [Phase.after_snoc hold, Life.phase, Phase.next]
  | final hp hc => simp_all [Phase.after_snoc hold, Life.phase, Phase.next]
  | execute hp hc =>
    have hne : ¬(if l.core.status = .ready then Status.pending else l.core.status) = .closed := by
      split <;> simp_all
    simp_all [Phase.after_snoc hold, Life.phase, Phase.next]
  | dispatch e hp hs =>
    have hne : ¬(if l.core.status = .pending then Status.ready else l.core.status) = .closed := by
      split <;> simp_all
    simp_all [Life.phase]
  | close hcl hs =>
    have hne : l.core.status ≠ .closed := fun he => by simp_all
    simp_all [Life.phase]
  | _ => simp_all [Life.phase]

/-- What can happen to a task keeps its invariant. -/
theorem Step.ok (h : Step l l') (hc : Core l) (ho : Ok l) : Ok l' where
  inQueues := h.inQueues hc ho
  guard := (h.guards ho).1
  closing := (h.guards ho).2
  closeGuard := (h.closeGuard ho).1
  isClosed := (h.closeGuard ho).2
  closed := h.closed hc ho
  registered := (h.registered hc ho).1
  outside := (h.registered hc ho).2
  edges := (h.edges ho).1
  inEvs := (h.edges ho).2.1
  returned := (h.edges ho).2.2.1
  pending := (h.edges ho).2.2.2
  ready := h.ready ho
  attached := h.attached hc ho
  asleep := h.asleep hc ho
  dispatched := h.dispatched ho hc
  phase := h.phase hc ho

/-- The history grows. An event which waits for the task goes on waiting, unless the task is
executed with it or its socket is closed. -/
theorem Step.log (h : Step l l') (hc : Core l) (ho : Ok l) : ∃ calls,
    l'.task.log = l.task.log ++ calls ∧ ∀ e ∈ l.fresh, e ∈ l'.fresh ∨ Call.closeDo ∈ calls ∨
      ∃ args, Call.onEvent false args ∈ calls ∧ e ∈ args := by
  have hw := hc.asleep_iff
  cases h with
  | attach sock hp hs | reuse sock hp hs =>
    exact ⟨[.post], rfl, fun e he => .inl (by simp_all [fresh])⟩
  | closeDo x hp hs hi =>
    exact ⟨[.closeDo], rfl, fun e he => .inr (.inl (List.mem_singleton_self _))⟩
  | execute hp hcl =>
    refine ⟨[.onEvent false l.task.readyEvents], rfl, fun e he => ?_⟩
    simp_all [fresh]
    tauto
  | final hp hcl =>
    -- A closed task has no socket, and so no events.
    have hsock := (ho.closed (ho.isClosed.mp hcl)).1
    have hr := ho.ready
    refine ⟨[.onEvent true l.task.readyEvents], rfl, fun e he => ?_⟩
    simp_all [fresh]
  | collect mask hi hm hne =>
    refine ⟨[], (List.append_nil _).symm, fun e he => .inl ?_⟩
    have hret : l.task.returned = ∅ := by
      by_contra hne
      exact absurd (ho.returned (Finset.nonempty_iff_ne_empty.mpr hne)) (by simp [hi])
    simp only [fresh, hret, Finset.union_empty, Finset.mem_union, Finset.mem_sdiff] at he ⊢
    tauto
  | note hi hs =>
    refine ⟨[], (List.append_nil _).symm, fun e he => .inl ?_⟩
    simp only [fresh, IOTask.merge, Finset.union_empty, Finset.mem_union] at he ⊢
    tauto
  | rouse x hi hs | dispatch x hp hs =>
    refine ⟨[], (List.append_nil _).symm, fun e he => .inl ?_⟩
    simp only [fresh, IOTask.merge, IOTask.flush, Place.dispatched, Finset.mem_union] at he ⊢
    simp_all
    tauto
  | expire hs =>
    refine ⟨[], (List.append_nil _).symm, fun e he => .inl ?_⟩
    simp_all [fresh]
    tauto
  | edge e hr =>
    refine ⟨[], (List.append_nil _).symm, fun e he => .inl ?_⟩
    simp only [fresh, Finset.mem_union, Finset.mem_insert] at he ⊢
    tauto
  | setDeadline d hq => exact ⟨[], (List.append_nil _).symm, fun e he => .inl he⟩
  | _ => exact ⟨[], (List.append_nil _).symm, fun e he => .inl (by simp_all [fresh])⟩

/-- A task which is awake stays so up to its next execution. -/
theorem Step.awake (h : Step l l') (hc : Core l) (ho : Ok l) (ha : l.Awake) :
    l'.Awake ∨ ∃ isClosed args, l'.task.log = l.task.log ++ [Call.onEvent isClosed args] := by
  have hw := hc.asleep_iff
  have hcl := ho.closed
  have hi := ho.isClosed
  cases h with
  | execute hp hcl' => exact .inr ⟨false, _, rfl⟩
  | final hp hcl' => exact .inr ⟨true, _, rfl⟩
  | _ => simp_all [Awake]

/-- A task which is to be closed is executed at most once before its socket is closed, and only if
it was on the way to a worker. -/
theorem Step.closing (h : Step l l') (hc : Core l) (ho : Ok l) (hs : l.core.status = .closing) :
    l'.core.status = .closed ∧ l'.place = .ready ∧ l'.task.log = l.task.log ++ [Call.closeDo] ∨
      l'.core.status = .closing ∧ (l.place.counted = true → l'.place.counted = true) ∧
      ∃ calls, l'.task.log = l.task.log ++ calls ∧
        calls.countP Call.isEvent + l'.place.dispatched.toNat ≤ l.place.dispatched.toNat := by
  have hw := hc.asleep_iff
  have hi := ho.isClosed
  have hg := ho.closeGuard
  have hcl := ho.closing
  cases h with
  | closeDo x hp hs hi => exact .inl ⟨rfl, rfl, rfl⟩
  | execute hp hcl =>
    exact .inr ⟨by simp [hs], fun _ => rfl, [.onEvent false l.task.readyEvents], rfl,
      by simp [hp]; rfl⟩
  | final hp hcl => exact absurd ((hi.mp hcl).symm.trans hs) (by decide)
  | attach sock hp hne =>
    refine .inr ⟨hs, fun hcounted => ?_, [.post], rfl, by simp [hp]; rfl⟩
    rw [hp] at hcounted
    cases hcounted
  | reuse sock hp hne => exact absurd (hne.symm.trans hs) (by decide)
  | _ => exact .inr (by simp_all)

/-- What happened to a task between two moments: its history grew by some calls, no event was lost,
no wakeup was, and a task which was to be closed was executed at most once before the closure. -/
def Later (l l' : Life) : Prop :=
  ∃ calls, l'.task.log = l.task.log ++ calls ∧
    (∀ e ∈ l.fresh, e ∈ l'.fresh ∨ Call.closeDo ∈ calls ∨
      ∃ args, Call.onEvent false args ∈ calls ∧ e ∈ args) ∧
    (l.Awake → l'.Awake ∨ ∃ isClosed args, Call.onEvent isClosed args ∈ calls) ∧
    (l.core.status = .closing → Call.closeDo ∈ calls ∨ l'.core.status = .closing ∧
      calls.countP Call.isEvent + l'.place.dispatched.toNat ≤ l.place.dispatched.toNat)

theorem Later.refl (l : Life) : Later l l :=
  ⟨[], (List.append_nil _).symm, fun _ he => .inl he, .inl, fun hs => .inr ⟨hs, by simp⟩⟩

theorem Later.trans {l₁ l₂ l₃ : Life} (h : Later l₁ l₂) (h' : Later l₂ l₃) : Later l₁ l₃ := by
  obtain ⟨calls, hlog, hfresh, hawake, hclosing⟩ := h
  obtain ⟨calls', hlog', hfresh', hawake', hclosing'⟩ := h'
  refine ⟨calls ++ calls', by rw [hlog', hlog, List.append_assoc], fun e he => ?_, fun ha => ?_,
    fun hs => ?_⟩
  · rcases hfresh e he with he | hc | ⟨args, hmem, hargs⟩
    · rcases hfresh' e he with he | hc | ⟨args, hmem, hargs⟩
      · exact .inl he
      · exact .inr (.inl (List.mem_append_right _ hc))
      · exact .inr (.inr ⟨args, List.mem_append_right _ hmem, hargs⟩)
    · exact .inr (.inl (List.mem_append_left _ hc))
    · exact .inr (.inr ⟨args, List.mem_append_left _ hmem, hargs⟩)
  · rcases hawake ha with ha | ⟨isClosed, args, hmem⟩
    · rcases hawake' ha with ha | ⟨isClosed, args, hmem⟩
      · exact .inl ha
      · exact .inr ⟨isClosed, args, List.mem_append_right _ hmem⟩
    · exact .inr ⟨isClosed, args, List.mem_append_left _ hmem⟩
  · rcases hclosing hs with hc | ⟨hs, hle⟩
    · exact .inl (List.mem_append_left _ hc)
    · rcases hclosing' hs with hc | ⟨hs, hle'⟩
      · exact .inl (List.mem_append_right _ hc)
      · refine .inr ⟨hs, ?_⟩
        rw [List.countP_append]
        omega

theorem Step.later (h : Step l l') (hc : Core l) (ho : Ok l) : Later l l' := by
  obtain ⟨calls, hlog, hfresh⟩ := h.log hc ho
  refine ⟨calls, hlog, hfresh, fun ha => ?_, fun hs => ?_⟩
  · refine (h.awake hc ho ha).imp_right ?_
    rintro ⟨isClosed, args, hlog'⟩
    rw [List.append_cancel_left (hlog.symm.trans hlog')]
    exact ⟨isClosed, args, List.mem_singleton_self _⟩
  · rcases h.closing hc ho hs with ⟨-, -, hlog'⟩ | ⟨hs', -, calls', hlog', hle⟩
    · rw [List.append_cancel_left (hlog.symm.trans hlog')]
      exact .inl (List.mem_singleton_self _)
    · rw [List.append_cancel_left (hlog.symm.trans hlog')]
      exact .inr ⟨hs', hle⟩

end Life

end IOCoreEpoll

end Serverbox
