import Mathlib.Algebra.Group.Nat.Defs
import Serverbox.Box.BinaryHeap
import Serverbox.Box.InterruptibleMutex
import Serverbox.Box.MultiConsumerQueue

/-!
# The task scheduler

`mg::sch::TaskScheduler` runs tasks in worker threads. Every task is first pushed to the front
queue. The worker which has taken the scheduler mutex, the scheduler, moves the tasks to the
pending list and on to the ready queue, or leaves them to sleep until their deadline, in the
waiting heap when the deadline is finite. A wakeup or a signal of a sleeping task pushes it to
the front queue again. All the workers pop the ready queue and execute what they get.

Every access to the status of a task, to the front queue and to the state word of a signal is a
step, and so is every step of the mutex and of the ready queue, which are the models of their
own modules. A step of the scheduler also makes the accesses to what only the scheduler uses:
its local variables, the pending list, the heap and the other fields of the tasks it holds. The
signals are their state words (`Signal.wordStep_of_step`). The reversal in `PopAll` belongs to
the exchange of the head. The clock moves on by itself.

The threads which are not workers, and the callbacks of the tasks in the workers, may call the
operations of the scheduler and of the tasks as their contracts allow: a task is configured and
posted only before its first post or after the start of its callback, by one thread at a time.
The start and the stop of the workers are left out, as are their statistics.

The history variables are the place of each task, whether it was woken since its last execution
began, the deadline and the timestamp with which it was last moved to the ready queue, and the
tasks with their deadlines in the order of the pushes to the front queue and of the moves to the
ready queue.

Source: `src/mg/sch/TaskScheduler.h`, `src/mg/sch/TaskScheduler.cpp`, `src/mg/sch/Task.h`,
`src/mg/sch/Task.cpp`, `src/mg/box/MultiProducerQueueIntrusive.h`.

## Main definitions

* `TaskScheduler.Task`, `TaskScheduler.State`: a task and the scheduler with all the threads.
* `TaskScheduler.call`: the steps of `Post`, `PostWakeup`, `PostSignal` and `IsEmpty`.
* `TaskScheduler.work`: the steps of `TaskSchedulerThread::Run`.
* `TaskScheduler.machine`: the transition system of any number of threads and tasks.
-/

namespace Serverbox

namespace TaskScheduler

variable {T Θ : Type*}

/-- `TaskStatus`. -/
inductive Status
  | pending
  | waiting
  | ready
  | signaled
  deriving DecidableEq

/-- `Task`, apart from the links of the lists and the index in the heap. -/
structure Task where
  status : Status
  inScheduler : Bool
  deadline : ℕ
  isExpired : Bool

/-- `Task::PrivCreate`. -/
def Task.new : Task := ⟨.pending, false, 0, false⟩

/-- `MG_TIME_INFINITE`. -/
def infinite : ℕ := 2 ^ 64 - 1

/-- The parameters: the ready queue, the largest number of tasks handled in a round of
scheduling, and the workers. -/
structure Config (T Θ : Type*) where
  queue : MultiConsumerQueue.Config T
  schedBatchSize : ℕ
  workers : List Θ

/-- Where a task is: outside of the scheduler, in the hands of a thread which is about to push it
to the front queue, in the front queue, in the pending list, in the hands of the scheduler which
has not decided on it yet, in its local list of ready tasks, in the ready queue, in the hands of
a worker before and after the exchange of its status, or asleep. -/
inductive Place (Θ : Type*)
  | outside
  | pushing (θ : Θ)
  | front
  | pending
  | taken (θ : Θ)
  | chosen (θ : Θ)
  | ready
  | popped (θ : Θ)
  | released (θ : Θ)
  | starting (θ : Θ)
  | asleep

/-- Where a thread is in a call of an operation. -/
inductive Call (T Θ : Type*)
  | idle
  | pushLoad (t : T)
  | pushCas (t : T) (old : Option T)
  | frontProbe
  | frontPublish
  | wakeupLoad (t : T)
  | wakeupCas (t : T) (old : Status)
  | signalExchange (t : T)
  | lock
  | interruptProbe
  | interruptPublish
  | getState (rest : List Θ)
  | readFront
  | readWaiting
  | readPending
  | readReady
  | unlock (isEmpty : Bool)
  | readyProbe (isEmpty : Bool)
  | readyPublish (isEmpty : Bool)
  | done (isEmpty : Bool)

/-- The local variables of a round of scheduling. -/
structure Round (T : Type*) where
  timestamp : ℕ
  batch : ℕ
  ready : List T

/-- Where a worker is in its loop. -/
inductive Work (T : Type*)
  | outside
  | attach
  | attaching
  | start
  | trySchedule
  | readTime
  | waitingTop (r : Round T)
  | waitingCas (r : Round T) (t : T)
  | frontPop (r : Round T)
  | pendingPop (r : Round T)
  | pendingSleep (r : Round T) (t : T)
  | waitingPush (r : Round T) (t : T)
  | pendingReady (r : Round T) (t : T)
  | transfer (l : List T)
  | transferring (l : List T)
  | flushing
  | checkReady
  | checkWaiting
  | sleepTimed (d : ℕ)
  | sleepingTimed (until_ : ℕ)
  | sleeping
  | unlock
  | readyProbe
  | readyPublish
  | pop (batch : ℕ)
  | popping (batch : ℕ)
  | execute (batch : ℕ) (t : T)
  | executeCas (batch : ℕ) (t : T)
  | executeStart (batch : ℕ) (t : T)
  | callback (batch : ℕ) (t : T)
  | storeIdle
  | waitReady

/-- `TaskScheduler` with its tasks, its workers and the threads which use it. -/
structure State (T Θ : Type*) where
  task : T → Task
  front : List T
  frontSignal : Signal.Word
  pending : List T
  waiting : BinaryHeap T
  readySignal : Signal.Word
  ready : MultiConsumerQueue.State T Θ
  mutex : InterruptibleMutex.State Θ
  running : Θ → Bool
  now : ℕ
  call : Θ → Call T Θ
  work : Θ → Work T
  failed : Bool
  place : T → Place Θ
  woken : T → Bool
  moved : T → Option (ℕ × ℕ)
  frontLog : List (T × ℕ)
  readyLog : List (T × ℕ)

variable [DecidableEq Θ]

/-- A scheduler whose workers are about to start, and tasks which were just created. -/
def State.new (c : Config T Θ) (now : ℕ) : State T Θ where
  task _ := .new
  front := []
  frontSignal := .empty
  pending := []
  waiting := .new
  readySignal := .empty
  ready := .new c.queue
  mutex := .new
  running _ := false
  now := now
  call _ := .idle
  work θ := if θ ∈ c.workers then .attach else .outside
  failed := false
  place _ := .outside
  woken _ := false
  moved _ := none
  frontLog := []
  readyLog := []

namespace State

/-- An assertion of the source. -/
def assert (s : State T Θ) (b : Bool) : State T Θ :=
  { s with failed := s.failed || !b }

/-- Move a thread in a call. -/
def callAt (s : State T Θ) (θ : Θ) (p : Call T Θ) : State T Θ :=
  { s with call := Function.update s.call θ p }

/-- Move a worker. -/
def workAt (s : State T Θ) (θ : Θ) (p : Work T) : State T Θ :=
  { s with work := Function.update s.work θ p }

/-- The order of the waiting heap, `Task::operator<=`. -/
def above (s : State T Θ) (t u : T) : Bool :=
  decide ((s.task t).deadline ≤ (s.task u).deadline)

variable [DecidableEq T]

/-- Change the fields of a task. -/
def modify (s : State T Θ) (t : T) (f : Task → Task) : State T Θ :=
  { s with task := Function.update s.task t (f (s.task t)) }

/-- A task is in another place from now on. -/
def move (s : State T Θ) (t : T) (p : Place Θ) : State T Θ :=
  { s with place := Function.update s.place t p }

end State

/-- The first exchange of `Signal::Send`. -/
def probe (w : Signal.Word) : Signal.Word :=
  if w = .empty then .probe else w

section Call

variable [DecidableEq T]

/-- `Post` up to the push. -/
def post (s : State T Θ) (θ : Θ) (t : T) : State T Θ :=
  (((s.assert !(s.task t).inScheduler).modify t fun x => { x with inScheduler := true }).move t
    (.pushing θ)).callAt θ (.pushLoad t)

/-- The exchange of `MultiProducerQueueIntrusive::PrivPushRange`, which may fail spuriously. The
front signal is sent when the queue was empty. -/
def pushCas (s : State T Θ) (θ : Θ) (t : T) (old : Option T) (spurious : Bool) : State T Θ :=
  if s.front.head? = old ∧ spurious = false then
    ({ s with
        front := t :: s.front
        frontLog := s.frontLog ++ [(t, (s.task t).deadline)] }.move t .front).callAt θ
      (if old.isNone then .frontProbe else .idle)
  else s.callAt θ (.pushCas t s.front.head?)

/-- The check of `PostWakeup` before its exchange. -/
def wakeupCheck (s : State T Θ) (θ : Θ) (t : T) : State T Θ :=
  let old := (s.task t).status
  s.callAt θ (if old = .signaled ∨ old = .ready then .idle else .wakeupCas t old)

/-- The exchange of `PostWakeup`, which may fail spuriously. -/
def wakeupCas (s : State T Θ) (θ : Θ) (t : T) (old : Status) (spurious : Bool) : State T Θ :=
  if (s.task t).status = old ∧ spurious = false then
    let s' := { s.modify t fun x => { x with status := .ready } with
      woken := Function.update s.woken t true }
    if old = .waiting then (s'.move t (.pushing θ)).callAt θ (.pushLoad t) else s'.callAt θ .idle
  else wakeupCheck s θ t

/-- The exchange of `PostSignal`. -/
def signalExchange (s : State T Θ) (θ : Θ) (t : T) : State T Θ :=
  let s' := s.modify t fun x => { x with status := .signaled }
  if (s.task t).status = .waiting then (s'.move t (.pushing θ)).callAt θ (.pushLoad t)
  else s'.callAt θ .idle

/-- `ReceiveSignal`; it returns true when the task was signaled. -/
def receiveSignal (s : State T Θ) (t : T) : State T Θ :=
  (s.assert !(s.task t).inScheduler).modify t fun x =>
    { x with status := if x.status = .signaled then .pending else x.status }

/-- `SetDeadline`, and with the current deadline in the argument `SetDelay` and so on. -/
def setDeadline (s : State T Θ) (t : T) (d : ℕ) : State T Θ :=
  (s.assert !(s.task t).inScheduler).modify t fun x => { x with deadline := d }

omit [DecidableEq T] in
/-- The next step of `PrivSchedulerLock` in the mutex; the interruptor sends the front signal. -/
def lock (c : Config T Θ) (s : State T Θ) (θ : Θ) : Option (State T Θ) :=
  match s.mutex.pc θ with
  | .lockWakeup => some (s.callAt θ .interruptProbe)
  | _ => (InterruptibleMutex.next s.mutex θ).map fun m =>
    { s with mutex := m }.callAt θ <|
      match m.pc θ with
      | .owner => .getState c.workers
      | _ => .lock

omit [DecidableEq T] in
/-- The interruptor returns to the mutex. -/
def interrupted (s : State T Θ) (θ : Θ) : Option (State T Θ) :=
  (InterruptibleMutex.next s.mutex θ).map fun m => { s with mutex := m }.callAt θ .lock

omit [DecidableEq T] in
/-- `IsEmpty` goes on to `PrivSchedulerUnlock`. -/
def callUnlock (s : State T Θ) (θ : Θ) (isEmpty : Bool) : Option (State T Θ) :=
  (InterruptibleMutex.step s.mutex (.call θ .unlock)).map fun m =>
    { s with mutex := m }.callAt θ (.unlock isEmpty)

omit [DecidableEq T] in
/-- The next step of the unlock of the mutex in `IsEmpty`. -/
def callUnlocking (s : State T Θ) (θ : Θ) (isEmpty : Bool) : Option (State T Θ) :=
  (InterruptibleMutex.next s.mutex θ).map fun m =>
    { s with mutex := m }.callAt θ <|
      match m.pc θ with
      | .idle => .readyProbe isEmpty
      | _ => .unlock isEmpty

/-- The next step of a thread in a call of an operation. -/
def call (c : Config T Θ) (s : State T Θ) (θ : Θ) (spurious : Bool) : Option (State T Θ) :=
  match s.call θ with
  | .idle => none
  | .pushLoad t =>
    some ((s.assert (s.task t).inScheduler).callAt θ (.pushCas t s.front.head?))
  | .pushCas t old => some (pushCas s θ t old spurious)
  | .frontProbe => some ({ s with frontSignal := probe s.frontSignal }.callAt θ
      (if s.frontSignal = Signal.Word.empty then .frontPublish else .idle))
  | .frontPublish => some ({ s with frontSignal := .signaled }.callAt θ .idle)
  | .wakeupLoad t => some (wakeupCheck s θ t)
  | .wakeupCas t old => some (wakeupCas s θ t old spurious)
  | .signalExchange t => some (signalExchange s θ t)
  | .lock => lock c s θ
  | .interruptProbe =>
    if s.frontSignal = Signal.Word.empty then
      some ({ s with frontSignal := .probe }.callAt θ .interruptPublish)
    else interrupted s θ
  | .interruptPublish => interrupted { s with frontSignal := .signaled } θ
  | .getState [] => some (s.callAt θ .readFront)
  | .getState (w :: rest) =>
    if s.running w then callUnlock s θ false else some (s.callAt θ (.getState rest))
  | .readFront =>
    if s.front.isEmpty then some (s.callAt θ .readWaiting) else callUnlock s θ false
  | .readWaiting =>
    if s.waiting.count = 0 then some (s.callAt θ .readPending) else callUnlock s θ false
  | .readPending =>
    if s.pending.isEmpty then some (s.callAt θ .readReady) else callUnlock s θ false
  | .readReady => callUnlock s θ (s.ready.count == 0)
  | .unlock isEmpty => callUnlocking s θ isEmpty
  | .readyProbe isEmpty => some ({ s with readySignal := probe s.readySignal }.callAt θ
      (if s.readySignal = Signal.Word.empty then .readyPublish isEmpty else .done isEmpty))
  | .readyPublish isEmpty => some ({ s with readySignal := .signaled }.callAt θ (.done isEmpty))
  | .done _ => none

end Call

section Work

variable [DecidableEq T]

omit [DecidableEq T] in
/-- `PrivSchedulerTryLock`. -/
def trySchedule (s : State T Θ) (θ : Θ) : Option (State T Θ) :=
  (InterruptibleMutex.next s.mutex θ).map fun m =>
    { s with mutex := m }.workAt θ <|
      match m.pc θ with
      | .owner => .readTime
      | _ => .pop 0

omit [DecidableEq T] in
/-- A worker calls `PrivSchedule`. -/
def callTrySchedule (s : State T Θ) (θ : Θ) : Option (State T Θ) :=
  (InterruptibleMutex.step s.mutex (.call θ .tryLock)).map fun m =>
    { s with mutex := m }.workAt θ .trySchedule

/-- The top of the heap is removed when its deadline has come. -/
def waitingTop (c : Config T Θ) (s : State T Θ) (θ : Θ) (r : Round T) : State T Θ :=
  match s.waiting.top with
  | none => s.workAt θ (.frontPop r)
  | some t =>
    if r.batch + 1 < c.schedBatchSize ∧ (s.task t).deadline ≤ r.timestamp then
      ({ s with waiting := (s.waiting.removeTop s.above).1 }.modify t fun x =>
        { x with isExpired := true }).workAt θ (.waitingCas { r with batch := r.batch + 1 } t)
    else s.workAt θ (.frontPop r)

/-- The local list of ready tasks grows. -/
def choose (s : State T Θ) (θ : Θ) (r : Round T) (t : T) : State T Θ :=
  { s.move t (.chosen θ) with
    moved := Function.update s.moved t (some ((s.task t).deadline, r.timestamp)) }

/-- The exchange of the status of an expired task. The one which was woken up or signaled is left
to the front queue. -/
def waitingCas (s : State T Θ) (θ : Θ) (r : Round T) (t : T) : State T Θ :=
  let old := (s.task t).status
  if old = .waiting then
    (choose (s.modify t fun x => { x with status := .ready }) θ r t).workAt θ
      (.waitingTop { r with ready := r.ready ++ [t] })
  else (s.assert (decide (old = .ready ∨ old = .signaled))).workAt θ (.waitingTop r)

omit [DecidableEq T] in
/-- `PopAll` of the front queue, the tasks being appended to the pending list. -/
def frontPop (s : State T Θ) (θ : Θ) (r : Round T) : State T Θ :=
  { s with
    pending := s.pending ++ s.front.reverse
    front := []
    place := fun t => match s.place t with
      | .front => .pending
      | p => p }.workAt θ (.pendingPop { r with batch := 0 })

/-- The first pending task is taken. -/
def pendingPop (c : Config T Θ) (s : State T Θ) (θ : Θ) (r : Round T) : State T Θ :=
  match s.pending with
  | [] => s.workAt θ (.transfer r.ready)
  | t :: rest =>
    if r.batch + 1 < c.schedBatchSize then
      let sleep := decide (r.timestamp < (s.task t).deadline)
      let r' := { r with batch := r.batch + 1 }
      (({ s with pending := rest }.modify t fun x => { x with isExpired := !sleep }).move t
        (.taken θ)).workAt θ (if sleep then .pendingSleep r' t else .pendingReady r' t)
    else s.workAt θ (.transfer r.ready)

/-- A task is removed from the heap, if it is there, and appended to the ready ones. -/
def collect (s : State T Θ) (θ : Θ) (r : Round T) (t : T) : State T Θ :=
  let s' :=
    if 0 ≤ s.waiting.index t then
      { s with waiting := (s.waiting.remove s.above t).1 }.assert (s.waiting.remove s.above t).2
    else s
  (choose s' θ r t).workAt θ (.pendingPop { r with ready := r.ready ++ [t] })

/-- The exchange of the status of a task whose deadline is in the future. -/
def pendingSleep (s : State T Θ) (θ : Θ) (r : Round T) (t : T) : State T Θ :=
  let old := (s.task t).status
  if old = .pending then
    let s' := (s.modify t fun x => { x with status := .waiting }).move t .asleep
    if (s.task t).deadline ≠ infinite then s'.workAt θ (.waitingPush r t)
    else (s'.assert (decide (s.waiting.index t = -1))).workAt θ (.pendingPop r)
  else collect (s.assert (decide (old = .ready ∨ old = .signaled))) θ r t

/-- A sleeping task is pushed to the heap. -/
def waitingPush (s : State T Θ) (θ : Θ) (r : Round T) (t : T) : State T Θ :=
  { s with waiting := s.waiting.push s.above t }.workAt θ (.pendingPop r)

/-- The exchange of the status of a task which is to be executed. -/
def pendingReady (s : State T Θ) (θ : Θ) (r : Round T) (t : T) : State T Θ :=
  let old := (s.task t).status
  let s' := s.modify t fun x => { x with status := if old = .pending then .ready else old }
  collect (s'.assert (decide (old = .pending ∨ old = .ready ∨ old = .signaled))) θ r t

omit [DecidableEq T] in
/-- A step of the ready queue. -/
def readyStep (c : Config T Θ) (s : State T Θ)
    (a : MultiConsumerQueue.Action T Θ) : Option (State T Θ) :=
  (MultiConsumerQueue.step c.queue s.ready a).map fun q => { s with ready := q }

/-- `PushPending` of the next ready task is called, or `FlushPending` after the last one. -/
def transfer (c : Config T Θ) (s : State T Θ) (θ : Θ) : List T → Option (State T Θ)
  | [] => (readyStep c s (.call .flushPending)).map fun s' => s'.workAt θ .flushing
  | t :: l => (readyStep c s (.call (.pushPending t))).map fun s' =>
    ({ s' with readyLog := s.readyLog ++ [(t, (s.task t).deadline)] }.move t .ready).workAt θ
      (.transferring l)

omit [DecidableEq T] in
/-- The next step of the producer of the ready queue, or its return. -/
def produce (c : Config T Θ) (s : State T Θ) (θ : Θ) (k : Work T) : Option (State T Θ) :=
  match s.ready.producer with
  | .done _ => (readyStep c s .ret).map fun s' => s'.workAt θ k
  | _ => readyStep c s .produce

omit [DecidableEq T] in
/-- A worker goes on to `PrivSchedulerUnlock`. -/
def workUnlock (s : State T Θ) (θ : Θ) : Option (State T Θ) :=
  (InterruptibleMutex.step s.mutex (.call θ .unlock)).map fun m =>
    { s with mutex := m }.workAt θ .unlock

omit [DecidableEq T] in
/-- The next step of the unlock of the mutex. -/
def workUnlocking (s : State T Θ) (θ : Θ) : Option (State T Θ) :=
  (InterruptibleMutex.next s.mutex θ).map fun m =>
    { s with mutex := m }.workAt θ <|
      match m.pc θ with
      | .idle => .readyProbe
      | _ => .unlock

omit [DecidableEq T] in
/-- The scheduler without ready tasks looks at the waiting ones: it sleeps until the first
deadline, for ever, or not at all. -/
def checkWaiting (s : State T Θ) (θ : Θ) : Option (State T Θ) :=
  match s.waiting.top with
  | none => some (s.workAt θ .sleeping)
  | some t =>
    if (s.task t).deadline > s.now then
      some (s.workAt θ (.sleepTimed ((s.task t).deadline - s.now)))
    else workUnlock s θ

omit [DecidableEq T] in
/-- `Receive` of the front signal by the sleeping scheduler; not enabled before it is set. -/
def receiveFront (s : State T Θ) (θ : Θ) : Option (State T Θ) :=
  if s.frontSignal = .signaled then workUnlock { s with frontSignal := .empty } θ else none

/-- The next step of a pop of the ready queue, or its return; a popped task goes to the hands of
the worker with the exchange of the read index. -/
def popping (c : Config T Θ) (s : State T Θ) (θ : Θ) (batch : ℕ) (spurious : Bool) :
    Option (State T Θ) :=
  match s.ready.consumer θ with
  | .done _ res => (readyStep c s (.popRet θ)).map fun s' =>
    s'.workAt θ <|
      match res with
      | none => .storeIdle
      | some t => .execute batch t
  | _ => (readyStep c s (.consume θ spurious)).map fun s' =>
    match s'.ready.consumer θ with
    | .popped _ t => s'.move t (.popped θ)
    | _ => s'

/-- `TaskScheduler::PrivExecute` up to the exchange of the status. -/
def execute (s : State T Θ) (θ : Θ) (batch : ℕ) (t : T) : State T Θ :=
  (((s.assert (s.task t).inScheduler).modify t fun x => { x with inScheduler := false }).move t
    (.released θ)).workAt θ (.executeCas batch t)

/-- The exchange of the status of a task which is about to be executed. -/
def executeCas (s : State T Θ) (θ : Θ) (batch : ℕ) (t : T) : State T Θ :=
  let old := (s.task t).status
  ({ (s.assert (decide (old = Status.ready ∨ old = Status.signaled))).modify t fun x =>
      { x with status := if old = Status.ready then .pending else old } with
      woken := Function.update s.woken t false }.move t (.starting θ)).workAt θ
    (.executeStart batch t)

/-- `Task::PrivExecute`. -/
def executeStart (s : State T Θ) (θ : Θ) (batch : ℕ) (t : T) : State T Θ :=
  (((s.assert !(s.task t).inScheduler).modify t fun x => { x with deadline := 0 }).move t
    .outside).workAt θ (.callback batch t)

omit [DecidableEq T] in
/-- A callback has returned; the worker takes care of the scheduling from time to time. -/
def executed (c : Config T Θ) (s : State T Θ) (θ : Θ) (batch : ℕ) : Option (State T Θ) :=
  if batch + 1 < c.queue.size then some (s.workAt θ (.pop (batch + 1)))
  else callTrySchedule s θ

/-- The next step of a worker. -/
def work (c : Config T Θ) (s : State T Θ) (θ : Θ) (spurious : Bool) : Option (State T Θ) :=
  match s.work θ with
  | .outside => none
  | .attach => (readyStep c s (.attach θ)).map fun s' => s'.workAt θ .attaching
  | .attaching => (readyStep c s (.consume θ spurious)).map fun s' => s'.workAt θ .start
  | .start => callTrySchedule { s with running := Function.update s.running θ true } θ
  | .trySchedule => trySchedule s θ
  | .readTime => some (s.workAt θ (.waitingTop ⟨s.now, 0, []⟩))
  | .waitingTop r => some (waitingTop c s θ r)
  | .waitingCas r t => some (waitingCas s θ r t)
  | .frontPop r => some (frontPop s θ r)
  | .pendingPop r => some (pendingPop c s θ r)
  | .pendingSleep r t => some (pendingSleep s θ r t)
  | .waitingPush r t => some (waitingPush s θ r t)
  | .pendingReady r t => some (pendingReady s θ r t)
  | .transfer l => transfer c s θ l
  | .transferring l => produce c s θ (.transfer l)
  | .flushing => produce c s θ .checkReady
  | .checkReady =>
    if s.ready.count = 0 ∧ s.pending = [] then some (s.workAt θ .checkWaiting) else workUnlock s θ
  | .checkWaiting => checkWaiting s θ
  | .sleepTimed d => some (s.workAt θ (.sleepingTimed (s.now + d)))
  | .sleepingTimed _ => receiveFront s θ
  | .sleeping => receiveFront s θ
  | .unlock => workUnlocking s θ
  | .readyProbe => some ({ s with readySignal := probe s.readySignal }.workAt θ
      (if s.readySignal = Signal.Word.empty then .readyPublish else .pop 0))
  | .readyPublish => some ({ s with readySignal := .signaled }.workAt θ (.pop 0))
  | .pop batch => (readyStep c s (.pop θ)).map fun s' => s'.workAt θ (.popping batch)
  | .popping batch => popping c s θ batch spurious
  | .execute batch t => some (execute s θ batch t)
  | .executeCas batch t => some (executeCas s θ batch t)
  | .executeStart batch t => some (executeStart s θ batch t)
  | .callback batch _ => executed c s θ batch
  | .storeIdle => some ({ s with running := Function.update s.running θ false }.workAt θ .waitReady)
  | .waitReady =>
    if s.readySignal = .signaled then some ({ s with readySignal := .empty }.workAt θ .start)
    else none

end Work

/-- The operations a thread may call. -/
inductive Op (T : Type*)
  | post (t : T)
  | postWakeup (t : T)
  | postSignal (t : T)
  | receiveSignal (t : T)
  | setDeadline (t : T) (d : ℕ)
  | isEmpty

/-- What can happen: the time passes, a thread calls an operation, makes its next step in it, or
leaves `IsEmpty`, a worker makes its next step, or the timed sleep of the scheduler ends. -/
inductive Action (T Θ : Type*)
  | tick (d : ℕ)
  | op (θ : Θ) (o : Op T)
  | call (θ : Θ) (spurious : Bool)
  | ret (θ : Θ)
  | work (θ : Θ) (spurious : Bool)
  | timeout (θ : Θ)

/-- A thread may call an operation when it is not a worker, or executes a callback. -/
def State.mayCall (s : State T Θ) (θ : Θ) : Bool :=
  (match s.work θ with
    | .outside => true
    | .callback _ _ => true
    | _ => false) &&
  match s.call θ with
  | .idle => true
  | _ => false

/-- The task belongs to its user, who may configure and post it. -/
def State.mayPost (s : State T Θ) (t : T) : Bool :=
  match s.place t with
  | .outside => true
  | _ => false

/-- A thread calls an operation. -/
def callOp [DecidableEq T] (s : State T Θ) (θ : Θ) : Op T → Option (State T Θ)
  | .post t => if s.mayPost t then some (post s θ t) else none
  | .postWakeup t => some (s.callAt θ (.wakeupLoad t))
  | .postSignal t => some (s.callAt θ (.signalExchange t))
  | .receiveSignal t => if s.mayPost t then some (receiveSignal s t) else none
  | .setDeadline t d => if s.mayPost t then some (setDeadline s t d) else none
  | .isEmpty => (InterruptibleMutex.step s.mutex (.call θ .lock)).map fun m =>
    { s with mutex := m }.callAt θ .lock

/-- One step of the scheduler and of the threads which use it. -/
def step [DecidableEq T] (c : Config T Θ) (s : State T Θ) : Action T Θ → Option (State T Θ)
  | .tick d => some { s with now := s.now + d }
  | .op θ o => if s.mayCall θ then callOp s θ o else none
  | .call θ spurious => call c s θ spurious
  | .ret θ => match s.call θ with
    | .done _ => some (s.callAt θ .idle)
    | _ => none
  | .work θ spurious => match s.call θ with
    | .idle => work c s θ spurious
    | _ => none
  | .timeout θ => match s.work θ with
    | .sleepingTimed _ => workUnlock s θ
    | _ => none

/-- Any number of tasks, of workers and of other threads, from the construction on. -/
def machine [DecidableEq T] (c : Config T Θ) : Machine (State T Θ) (Action T Θ) where
  init s := ∃ now, s = .new c now
  step := step c

end TaskScheduler

end Serverbox
