import Mathlib.Data.List.Flatten
import Serverbox.Aio.IOTaskLife
import Serverbox.Lib.Census

/-!
# The epoll core and its workers

A worker of `IOCore` tries to become the scheduler, and when it is, makes rounds of scheduling until
there is something to execute. In a round it asks epoll for events without waiting, takes the front
queue, handles the events, the pending tasks and the expired ones, and gives the ready tasks to the
ready queue. When there are none it waits for epoll. Otherwise it frees the role, sends the ready
signal, executes tasks and waits for the ready signal.

Any number of workers and of other threads run here. A push to the front queue and the write to the
event descriptor after it are two steps. The kernel adds an edge to a registered socket at any
moment, and `epoll_wait` returns some of the edges of some of the sockets. A `poll` may return at
any moment too, as its result is ignored. The queues and the statuses are those of `IOCoreCount`.
The array of events, the timestamp and the list `ready` of the round are fields of the state: one
worker at a time is the scheduler, which is proved. Each `MG_BOX_ASSERT` and `MG_DEV_ASSERT` which
fails sets the flag `failed`, apart from those which say that a thread may call a method; such a
call is not made. The core is running all the time.

Source: `src/mg/aio/IOCore.cpp`, `src/mg/aio/IOCore_epoll.cpp`, `src/mg/aio/IOTask.cpp`,
`src/mg/aio/IOTask_epoll.cpp`, `src/mg/aio/IOTask.h`.

## Main definitions

* `IOCoreEpoll.Worker`, `IOCoreEpoll.State`: a worker, and the core with its threads.
* `IOCoreEpoll.work`, `IOCoreEpoll.machine`: the steps of the workers, and the whole system.
-/

namespace Serverbox

namespace IOCoreEpoll

variable {T Θ : Type*}

/-- What is constant: `myExecBatchSize`, `mySchedBatchSize` and the size of the array of events. -/
structure Config where
  execBatchSize : ℕ
  schedBatchSize : ℕ
  epollBatch : ℕ

/-- What a worker is going to do. -/
inductive Worker (T : Type*)
  | scheduleStart
  | epollWait
  | popFront
  | kernelDo
  | pendingDo (batch : ℕ)
  | waitingDo (batch : ℕ)
  | pushReady
  | checkReady
  | prepareWait
  | poll (until' : Option ℕ)
  | scheduleEnd
  | endSignal
  | pop (batch : ℕ)
  | onEvent (batch : ℕ) (t : T)
  | onFinal (batch : ℕ) (t : T)
  | signal (batch : ℕ)
  | waitReady
  deriving DecidableEq

/-- `IOCore` with all the threads: the tasks, the workers, the event descriptor, the flag of the
scheduler, the ready signal, the threads which are inside `PostClose` before the exchange of the
status, the number of threads which are about to write to the event descriptor, the array of events
and the timestamp of the scheduler, and the clock. -/
structure State (T Θ : Type*) where
  core : IOCoreCount.State T
  task : T → IOTask
  worker : Θ → Worker T
  eventFd : Bool
  isSchedulerWorking : Bool
  readySignal : Bool
  closers : List T
  signalers : ℕ
  evs : List T
  timestamp : ℕ
  now : ℕ
  failed : Bool

/-- A core which was started. -/
def State.new (now : ℕ) : State T Θ :=
  ⟨.new, fun _ => .new, fun _ => .scheduleStart, false, false, false, [], 0, [], 0, now, false⟩

/-- The next execution of a batch, or the end of the batch. -/
def Config.stop (c : Config) (batch : ℕ) : Worker T :=
  if batch = c.execBatchSize then .scheduleStart else .waitReady

/-- What a worker does after an execution. -/
def Config.next (c : Config) (batch : ℕ) : Worker T :=
  if batch + 1 < c.execBatchSize then .pop (batch + 1) else c.stop (batch + 1)

namespace State

/-- An assertion. -/
def assert (s : State T Θ) (b : Bool) : State T Θ := { s with failed := s.failed || !b }

variable [DecidableEq T]

/-- A task with new fields. -/
def set (s : State T Θ) (t : T) (x : IOTask) : State T Θ :=
  { s with task := Function.update s.task t x }

/-- A worker moves on. -/
def workAt [DecidableEq Θ] (s : State T Θ) (θ : Θ) (w : Worker T) : State T Θ :=
  { s with worker := Function.update s.worker θ w }

end State

section Steps

variable [DecidableEq T]

/-- `PrivAttach`, with a socket or without one. -/
def attach (s : State T Θ) (t : T) (sock : Bool) : Option (State T Θ) :=
  (IOCoreCount.step s.core (.attach t)).map fun core =>
    let x := s.task t
    let reused := decide ((s.core.task t).status = .closed)
    { (s.assert (!x.socket && (x.closeGuard || !reused))).set t { x with
        closeGuard := x.closeGuard && !reused, socket := sock, log := x.log ++ [Call.post] } with
      core := core }

/-- The assertions of `PrivKernelRegister`, and that `EPOLL_CTL_ADD` succeeds. -/
def mayRegister (x : IOTask) : Bool :=
  decide (x.readyEvents = ∅) && decide (x.pendingEvents = ∅) && !x.registered

/-- `PrivPostStart` up to `PrivPost`. -/
def postStart (s : State T Θ) (t : T) : Option (State T Θ) :=
  (IOCoreCount.step s.core (.postStart t)).map fun core =>
    let x := s.task t
    { (s.assert (!x.isInQueues && (!x.socket || mayRegister x))).set t
        { x with registered := x.registered || x.socket } with core := core }

/-- `PrivPost` up to the signal, which is sent when the front queue was empty. -/
def post (s : State T Θ) (t : T) : Option (State T Θ) :=
  (IOCoreCount.step s.core (.post t)).map fun core =>
    { (s.assert (!(s.task t).isInQueues)).set t { s.task t with isInQueues := true } with
      core := core
      signalers := if s.core.frontQueue = [] then s.signalers + 1 else s.signalers }

/-- `PrivRePost` up to the signal. -/
def rePost (s : State T Θ) (t : T) : Option (State T Θ) :=
  (IOCoreCount.step s.core (.rePost t)).map fun core =>
    { s.assert (s.task t).isInQueues with
      core := core
      signalers := if s.core.frontQueue = [] then s.signalers + 1 else s.signalers }

/-- `PrivPlatformSignal`. -/
def signal (s : State T Θ) : Option (State T Θ) :=
  if 0 < s.signalers then some { s with signalers := s.signalers - 1, eventFd := true } else none

/-- `PrivCloseStart`. -/
def closeStart (s : State T Θ) (t : T) : State T Θ :=
  if (s.task t).closeGuard then s
  else { s.set t { s.task t with closeGuard := true } with closers := t :: s.closers }

/-- The exchange of the status in `PostClose`. -/
def close (s : State T Θ) (t : T) : Option (State T Θ) :=
  let old := (s.core.task t).status
  if t ∈ s.closers then
    some { s.assert (decide (old = .pending ∨ old = .ready ∨ old = .waiting)) with
      core := IOCoreCount.close s.core t
      closers := s.closers.erase t }
  else none

/-- The kernel reports an event. -/
def edge (s : State T Θ) (t : T) (e : Event) : Option (State T Θ) :=
  let x := s.task t
  if x.registered then some (s.set t { x with edges := insert e x.edges }) else none

/-- `SetDeadline` and `Reschedule`. -/
def setDeadline (s : State T Θ) (t : T) (d : ℕ) : Option (State T Θ) :=
  if (s.task t).isInQueues then none else some (s.set t ((s.task t).setDeadline d))

/-- `SaveEventReadable` and `SaveEventWritable` in `OnEvent`. -/
def save (s : State T Θ) (t : T) (e : Event) : Option (State T Θ) :=
  let x := s.task t
  if x.socket then
    some ((s.assert (!x.isInQueues)).set t { x with readyEvents := insert e x.readyEvents })
  else none

/-- `AttachSocket` in `OnEvent`. -/
def attachSocket (s : State T Θ) (t : T) : Option (State T Θ) :=
  let x := s.task t
  if x.socket then none
  else some ((s.assert (!x.isInQueues && !(s.core.task t).isClosed && mayRegister x)).set t
    { x with socket := true, registered := true })

/-- A kernel event of a round. -/
def kernelDo (s : State T Θ) (t : T) (l : List T) : State T Θ :=
  let x := (s.task t).merge
  if (s.core.task t).status = .waiting then
    { s.set t (x.flush (decide (x.deadline ≤ s.timestamp))) with core := s.core.rouse t, evs := l }
  else
    { (s.assert (decide ((s.core.task t).status ≠ .closed))).set t x with evs := l }

/-- A pending task of a round. -/
def pendingDo (s : State T Θ) (t : T) (l : List T) : State T Θ :=
  let x := s.task t
  let y := s.core.task t
  let isExpired := decide (x.deadline ≤ s.timestamp)
  let hasEvents := decide (x.pendingEvents ≠ ∅) || isExpired
  let finite := decide (x.deadline ≠ timeInfinite)
  let s' := { s with core := IOCoreCount.pendingDo s.core t l hasEvents finite }
  if y.status = .pending ∧ hasEvents = false then
    s'.assert (finite || decide (t ∉ s.core.waitingQueue))
  else if y.status = .closing then
    (s'.assert (decide (x.registered = x.socket) && x.closeGuard && !y.isClosed)).set t
      (x.closeDo isExpired)
  else (s'.assert (decide (y.status ≠ .closed ∧ y.status ≠ .waiting))).set t (x.flush isExpired)

/-- An expired task of a round. -/
def expiredDo (s : State T Θ) (t : T) : State T Θ :=
  let x := s.task t
  let y := s.core.task t
  if y.status = .waiting then
    { (s.assert (decide (x.pendingEvents = ∅))).set t { x with isExpired := true } with
      core := s.core.rouse t }
  else
    { s.assert (decide (y.status ≠ .closed ∧ y.status ≠ .pending)) with
      core := { s.core with waitingQueue := s.core.waitingQueue.erase t } }

/-- A task which no other task of the heap has to precede. -/
def isTop (s : State T Θ) (t : T) : Bool :=
  decide (t ∈ s.core.waitingQueue) &&
    s.core.waitingQueue.all fun u => decide ((s.task t).deadline ≤ (s.task u).deadline)

variable [DecidableEq Θ]

/-- `PrivExecute` of the core up to `OnEvent`. -/
def execute (s : State T Θ) (θ : Θ) (batch : ℕ) (t : T) (l : List T) : State T Θ :=
  let x := s.task t
  let y := s.core.task t
  let ok := x.isInQueues && decide (y.status ≠ .pending) && y.sub &&
    (!y.isClosed || decide (y.status = .closed ∧ x.pendingEvents = ∅))
  ({ (s.assert ok).set t (x.execute y.isClosed) with
      core := IOCoreCount.execute s.core t l }).workAt θ
    (if y.isClosed then .onFinal batch t else .onEvent batch t)

/-- `epoll_wait` with the timeout 0, which returns events of the tasks of a list, and maybe the one
of the event descriptor. -/
def epollWait (c : Config) (s : State T Θ) (θ : Θ) (evs : List T) (mask : T → Finset Event)
    (fd : Bool) : Option (State T Θ) :=
  if s.worker θ = .epollWait ∧ evs.Nodup ∧ evs.length + fd.toNat ≤ c.epollBatch ∧
      (∀ t ∈ evs, mask t ≠ ∅ ∧ mask t ⊆ (s.task t).edges) ∧ (fd = true → s.eventFd = true) then
    some ({ s with
      evs := evs
      eventFd := s.eventFd && !fd
      task := fun t => if t ∈ evs then
        { s.task t with edges := (s.task t).edges \ mask t, returned := mask t } else s.task t
      }.workAt θ .popFront)
  else none

/-- The end of `OnEvent`, and the push of the task to the front queue. -/
def ended (c : Config) (s : State T Θ) (θ : Θ) (batch : ℕ) (t : T) : Option (State T Θ) :=
  (IOCoreCount.step s.core (.ended t)).map fun core =>
    ({ (s.assert (!(s.task t).isInQueues)).set t { s.task t with isInQueues := true } with
        core := core }).workAt θ
      (if s.core.frontQueue = [] then .signal batch else c.next batch)

/-- The step of a worker, when the top of the heap does not matter. -/
def work (c : Config) (s : State T Θ) (θ : Θ) : Option (State T Θ) :=
  match s.worker θ with
  | .scheduleStart =>
    if s.isSchedulerWorking then some (s.workAt θ (.pop 0))
    else some ({ s with isSchedulerWorking := true }.workAt θ .epollWait)
  | .epollWait => none
  | .popFront =>
    (IOCoreCount.step s.core .takeFront).map fun core =>
      { s with core := core, timestamp := s.now }.workAt θ .kernelDo
  | .kernelDo =>
    match s.evs with
    | [] => some (s.workAt θ (.pendingDo 0))
    | t :: l => some (kernelDo s t l)
  | .pendingDo batch =>
    match s.core.pendingQueue with
    | [] => some (s.workAt θ (.waitingDo 0))
    | t :: l =>
      if batch + 1 < c.schedBatchSize then
        some ((pendingDo s t l).workAt θ (.pendingDo (batch + 1)))
      else some (s.workAt θ (.waitingDo 0))
  | .waitingDo batch =>
    if s.core.waitingQueue = [] ∨ c.schedBatchSize ≤ batch + 1 then some (s.workAt θ .pushReady)
    else none
  | .pushReady =>
    (IOCoreCount.step s.core .pushReady).map fun core =>
      { s.assert (s.core.ready.all fun t => decide (t ∉ s.core.waitingQueue)) with
        core := core }.workAt θ .checkReady
  | .checkReady =>
    if s.core.readyQueue ≠ [] ∨ s.core.pendingQueue ≠ [] then some (s.workAt θ .scheduleEnd)
    else some (s.workAt θ .prepareWait)
  | .prepareWait => if s.core.waitingQueue = [] then some (s.workAt θ (.poll none)) else none
  | .poll _ => some (s.workAt θ .epollWait)
  | .scheduleEnd =>
    some ({ s.assert s.isSchedulerWorking with isSchedulerWorking := false }.workAt θ .endSignal)
  | .endSignal => some ({ s with readySignal := true }.workAt θ (.pop 0))
  | .pop batch =>
    match s.core.readyQueue with
    | [] => some (s.workAt θ (c.stop batch))
    | t :: l => some (execute s θ batch t l)
  | .onEvent batch t => ended c s θ batch t
  | .onFinal batch t =>
    (IOCoreCount.step s.core (.closed t)).map fun core =>
      { s with core := core }.workAt θ (c.next batch)
  | .signal batch => some ({ s with eventFd := true }.workAt θ (c.next batch))
  | .waitReady =>
    if s.readySignal then some ({ s with readySignal := false }.workAt θ .scheduleStart) else none

/-- `INT_MAX`. -/
def intMax : ℕ := 2 ^ 31 - 1

/-- The step of the scheduler at the top of the heap. -/
def top (c : Config) (s : State T Θ) (θ : Θ) (t : T) : Option (State T Θ) :=
  if isTop s t then
    match s.worker θ with
    | .waitingDo batch =>
      if batch + 1 < c.schedBatchSize then
        if s.timestamp < (s.task t).deadline then some (s.workAt θ .pushReady)
        else some ((expiredDo s t).workAt θ (.waitingDo (batch + 1)))
      else none
    | .prepareWait =>
      if (s.task t).deadline ≤ s.now then some (s.workAt θ .epollWait)
      else some (s.workAt θ (.poll (some (s.now + min ((s.task t).deadline - s.now) intMax))))
    | _ => none
  else none

end Steps

/-- What happens: the calls of `Post`, `PostWakeup` and `PostClose` step by step, the calls of
`SetDeadline`, `SaveEvent` and `AttachSocket`, the edges of the kernel, the clock, and the steps of
the workers. -/
inductive Action (T Θ : Type*)
  | attach (t : T) (sock : Bool)
  | postStart (t : T)
  | post (t : T)
  | wakeup (t : T)
  | rePost (t : T)
  | signal
  | closeStart (t : T)
  | close (t : T)
  | setDeadline (t : T) (d : ℕ)
  | save (θ : Θ) (e : Event)
  | attachSocket (θ : Θ)
  | edge (t : T) (e : Event)
  | tick
  | epollWait (θ : Θ) (evs : List T) (mask : T → Finset Event) (fd : Bool)
  | work (θ : Θ)
  | top (θ : Θ) (t : T)

/-- The task in the `OnEvent` of a worker, which is not the last one. -/
def Worker.event : Worker T → Option T
  | .onEvent _ t => some t
  | _ => none

/-- The task in the final `OnEvent` of a worker. -/
def Worker.final : Worker T → Option T
  | .onFinal _ t => some t
  | _ => none

variable [DecidableEq T] [DecidableEq Θ]

/-- One step of the core and of those who use it. -/
def step (c : Config) (s : State T Θ) : Action T Θ → Option (State T Θ)
  | .attach t sock => attach s t sock
  | .postStart t => postStart s t
  | .post t => post s t
  | .wakeup t => some { s with core := IOCoreCount.wakeup s.core t }
  | .rePost t => rePost s t
  | .signal => signal s
  | .closeStart t => some (closeStart s t)
  | .close t => close s t
  | .setDeadline t d => setDeadline s t d
  | .save θ e => (s.worker θ).event.bind fun t => save s t e
  | .attachSocket θ => (s.worker θ).event.bind fun t => attachSocket s t
  | .edge t e => edge s t e
  | .tick => some { s with now := s.now + 1 }
  | .epollWait θ evs mask fd => epollWait c s θ evs mask fd
  | .work θ => work c s θ
  | .top θ t => top c s θ t

/-- A core from its start on. -/
def machine (c : Config) : Machine (State T Θ) (Action T Θ) where
  init s := ∃ now, s = .new now
  step := step c

end IOCoreEpoll

end Serverbox
