import Mathlib.Algebra.Group.Nat.Defs
import Mathlib.Logic.Function.Basic
import Serverbox.Lib.Machine
import Serverbox.Net.BufferLinkList

/-!
# The asynchronous TCP socket

`mg::aio::TCPSocketIFace` is split into a front half, which any thread may write, and a worker
half, which belongs to the worker executing the socket's task. `PostSendMove`, `PostRecv`,
`PostShutdown`, `PostConnect` and the others leave their work in the front half and wake the task
up; `PrivCtl` moves it into the worker half, and `PrivSend` hands it to the kernel. The socket may
be closed, opened again and posted again.

Any number of threads are in calls of the socket. A section under the socket's mutex is one step
when nothing in it touches the task; the sections of `PostConnect`, `PostWrap`, `PostTask`,
`PostShutdown` and `PostClose` hold the mutex over their operations on the task, which are
exchanges of its status, one step each. The task lives in an `IOCore`, of which the model has what
happens to one task: its status, and its way through the queues. What a callback of the user does
is any sequence of calls; what the kernel answers is any answer. A failed assertion ends the
program, so a step is enabled only when its assertions hold.

The queues are lists of links to the buffers of `Serverbox.BufferLinkList`, which other holders may
have, too: lists of other sockets take next links of buffers away. A call of `PostSend*` or `Send*`
has one or more links, or none at all.

History variables follow the sends: every such call has a number, the bytes of its links and the
list of the calls which had returned when it began; the links in the queues have the number of
their call; `wire` is what the kernel was handed, each byte with the number of its call, and `lost`
lists the calls of which bytes were thrown away by a close.

Source: `src/mg/aio/TCPSocketIFace.cpp`, `src/mg/aio/TCPSocket.cpp`, `src/mg/aio/IOTask.cpp`.

## Main definitions

* `TCPSocket.IOTask`: the task of a socket, as its own core sees it.
* `TCPSocket.State`, `TCPSocket.machine`: the socket and its transition system.
-/

namespace Serverbox

namespace TCPSocket

open BufferLinkList (Heap)

/-- `TCPSocketState`, without the state of an object which is not constructed. -/
inductive SocketState
  | new
  | empty
  | connecting
  | handshake
  | connected
  | closing
  | closed
  deriving DecidableEq

/-- `myState >= TCP_SOCKET_STATE_CLOSING`. -/
def SocketState.isClosing (st : SocketState) : Bool :=
  st = .closing || st = .closed

/-- `IOTaskStatus`. -/
inductive TaskStatus
  | pending
  | ready
  | waiting
  | closing
  | closed
  deriving DecidableEq

/-- Where the core has a task: not in the core, owed a push by the thread which won the exchange
of its status, in the front or pending queue, in the ready queue, with a worker, or asleep. -/
inductive Place (Θ : Type*)
  | outside
  | pushing
  | queued
  | readyQueue
  | executing (θ : Θ)
  | asleep
  deriving DecidableEq

/-- The task of the socket. `rescheduled` tells whether its deadline is 0. -/
structure IOTask (Θ : Type*) where
  status : TaskStatus
  closeGuard : Bool
  isClosed : Bool
  rescheduled : Bool
  place : Place Θ

/-- `TCPSocketCtl`: the control requests. A handshake is *set* before the connection and becomes
due after it. -/
structure Ctl where
  hasShutdown : Bool
  hasConnect : Bool
  hasAttach : Bool
  handshake : Bool
  deriving DecidableEq

/-- `TCPSocketCtl::TCPSocketCtl`. -/
def Ctl.new : Ctl := ⟨false, false, false, false⟩

/-- The assertions of `AddConnect` and `AddAttach`. -/
def Ctl.isFirst (c : Ctl) : Bool := !c.hasConnect && !c.hasAttach && !c.hasShutdown

/-- `TCPSocketCtl::MergeFrom`. -/
def Ctl.mergeFrom (c src : Ctl) : Ctl :=
  { c with
    hasShutdown := c.hasShutdown || src.hasShutdown
    hasConnect := c.hasConnect || src.hasConnect
    hasAttach := c.hasAttach || src.hasAttach }

/-- The assertions of `TCPSocketCtl::MergeFrom`. -/
def Ctl.canMerge (c src : Ctl) : Bool :=
  !src.handshake && !(c.hasAttach && src.hasAttach) && !(c.hasConnect && src.hasConnect)

/-- Where a worker is in the execution of the socket's task. -/
inductive Phase
  /-- Not executing this task. -/
  | none
  /-- Popped from the ready queue, before the exchange of the status. -/
  | popped
  /-- Before the check of the closed flag. -/
  | started
  /-- `ProcessArgs` failed; in `OnError`, before `ProtClose`. -/
  | failed
  /-- `ProcessArgs` failed; in `ProtClose`. -/
  | aborted
  /-- In the subscription's `OnEvent`, before `PrivCtl`. -/
  | event
  /-- In `PrivCtl`, which has taken the front requests and executes them. -/
  | ctl
  /-- In `PrivCtl`, before the exchange of the front receive size. -/
  | drained
  /-- In `PrivRecv` or `PrivSend`. -/
  | io
  /-- Back from `OnEvent`, before the task is posted again. -/
  | leaving
  /-- The last execution, before `ProtClose` clears the socket. -/
  | final
  /-- In `OnClose`. -/
  | onClose
  deriving DecidableEq

/-- User code runs in a callback of the socket. -/
def Phase.inCallback : Phase → Bool
  | event | failed | ctl | io | onClose => true
  | _ => false

/-- Where a thread is in a call of the socket. `k` is the send call which returns in the end, if
there is one. -/
inductive Call (B : Type*)
  | idle
  /-- In `PostSendMove` or `SendMove`. -/
  | send (c : ℕ) (links : List (Option B))
  /-- In `TCPSocket::Open`, behind `ProtOpen`. -/
  | opening
  /-- In the loop of `IOTask::PostWakeup`, which expects the status `old`. -/
  | wakeup (old : TaskStatus) (k : Option ℕ)
  /-- Before and after the exchange of the guard in `IOTask::PostClose`. -/
  | closeGuard
  | closeExchange
  /-- In `IOTask::Post`: before the exchange of the status, before the exchange of the guard, and
  before the push. -/
  | attach (wake : Bool)
  | attachGuard (wake : Bool)
  | attachPush (wake : Bool)

/-- The thread is in no call. -/
def Call.isIdle {B : Type*} : Call B → Bool
  | idle => true
  | _ => false

/-- The socket, its task, the buffers, and the threads in the calls of the socket. -/
structure State (Θ B : Type*) where
  heap : Heap B
  task : IOTask Θ
  mutex : Option Θ
  state : SocketState
  isRunning : Bool
  isReadyToStart : Bool
  wasHandshakeDone : Bool
  frontSendQueue : List (ℕ × Option B)
  frontRecvSize : ℕ
  frontCtl : Option Ctl
  sendQueue : List (ℕ × Option B)
  sendOffset : ℕ
  recvSize : ℕ
  ctl : Option Ctl
  phase : Θ → Phase
  call : Θ → Call B
  wire : List (ℕ × UInt8)
  calls : ℕ
  data : ℕ → List UInt8
  past : ℕ → List ℕ
  returned : List ℕ
  lost : List ℕ

variable {Θ B : Type*}

/-- `IOTask::IOTask`. -/
def IOTask.new : IOTask Θ := ⟨.pending, false, false, false, .outside⟩

/-- `TCPSocket::TCPSocket`. -/
def State.new (heap : Heap B) : State Θ B where
  heap := heap
  task := .new
  mutex := none
  state := .new
  isRunning := false
  isReadyToStart := false
  wasHandshakeDone := false
  frontSendQueue := []
  frontRecvSize := 0
  frontCtl := none
  sendQueue := []
  sendOffset := 0
  recvSize := 0
  ctl := none
  phase _ := .none
  call _ := .idle
  wire := []
  calls := 0
  data _ := []
  past _ := []
  returned := []
  lost := []

/-- The links or the bytes of a send call, each with the number of the call. -/
def tagged {α : Type*} (c : ℕ) (l : List α) : List (ℕ × α) := l.map (Prod.mk c)

/-- The bytes of the links of a queue. -/
def queueBytes (heap : Heap B) (q : List (ℕ × Option B)) : List (ℕ × UInt8) :=
  q.flatMap fun x => tagged x.1 (heap.content [x.2])

/-- The bytes of the send queue which are still to be handed to the kernel. -/
def State.unsent (s : State Θ B) : List (ℕ × UInt8) :=
  (queueBytes s.heap s.sendQueue).drop s.sendOffset

/-- A queue of which the first links were deleted, and the rest has these heads. -/
def withHeads (q : List (ℕ × Option B)) (heads : List (Option B)) : List (ℕ × Option B) :=
  ((q.drop (q.length - heads.length)).map Prod.fst).zip heads

variable [DecidableEq Θ]

/-- Move a thread inside its call. -/
def State.goto (s : State Θ B) (θ : Θ) (c : Call B) : State Θ B :=
  { s with call := Function.update s.call θ c }

/-- Move a worker inside its execution. -/
def State.moveTo (s : State Θ B) (θ : Θ) (p : Phase) : State Θ B :=
  { s with phase := Function.update s.phase θ p }

/-- The end of a call: the mutex is released if the call holds it, and a send call returns. -/
def State.finish (s : State Θ B) (θ : Θ) (k : Option ℕ) : State Θ B :=
  { s with
    call := Function.update s.call θ .idle
    mutex := if s.mutex = some θ then none else s.mutex
    returned := k.toList ++ s.returned }

/-- The assertion of a function. -/
def assert (b : Bool) {σ : Type*} (s : σ) : Option σ := if b then some s else none

omit [DecidableEq Θ] in
theorem assert_eq_some {b : Bool} {σ : Type*} {s s' : σ} :
    assert b s = some s' ↔ b = true ∧ s = s' := by
  cases b <;> simp [assert]

/-! ### The task -/

/-- One turn of the loop of `IOTask::PostWakeup`: the exchange of the status from `old` to ready.
The winner of a waiting task owes the push to the front queue. -/
def postWakeup (s : State Θ B) (θ : Θ) (old : TaskStatus) (k : Option ℕ) : State Θ B :=
  if s.task.status = old then
    if old = .waiting then
      { s with task := { s.task with status := .ready, place := .pushing } }.finish θ k
    else { s with task := { s.task with status := .ready } }.finish θ k
  else if s.task.status = .pending ∨ s.task.status = .waiting then
    s.goto θ (.wakeup s.task.status k)
  else s.finish θ k

/-- `IOTask::PrivCloseStart`. -/
def privCloseStart (s : State Θ B) (θ : Θ) : State Θ B :=
  if s.task.closeGuard then s.finish θ none
  else { s with task := { s.task with closeGuard := true } }.goto θ .closeExchange

/-- The exchange of the status in `IOTask::PostClose`. -/
def closeExchange (s : State Θ B) (θ : Θ) : Option (State Θ B) :=
  assert (s.task.status = .pending || s.task.status = .ready || s.task.status = .waiting)
    ({ s with task :=
      { s.task with
        status := .closing
        place := if s.task.status = TaskStatus.waiting then .pushing else s.task.place } }.finish
          θ none)

/-- The exchange of the status in `IOTask::PrivAttach`. A closed task is reused, in a callback of
its last execution only. -/
def privAttach (s : State Θ B) (θ : Θ) (wake : Bool) : Option (State Θ B) :=
  if s.task.status = .closed then
    assert ((s.phase θ).inCallback && s.task.isClosed)
      ({ s with task := { s.task with status := .pending, isClosed := false } }.goto θ
        (.attachGuard wake))
  else assert (!s.task.isClosed) (s.goto θ (.attachPush wake))

/-- The exchange of the guard in `IOTask::PrivAttach`. -/
def attachGuard (s : State Θ B) (θ : Θ) (wake : Bool) : Option (State Θ B) :=
  assert s.task.closeGuard
    ({ s with task := { s.task with closeGuard := false } }.goto θ (.attachPush wake))

/-- `IOCore::PrivPostStart`; `PostConnect` and `PostWrap` wake the task up next. -/
def attachPush (s : State Θ B) (θ : Θ) (wake : Bool) : State Θ B :=
  let s := { s with task := { s.task with place := .queued } }
  if wake then s.goto θ (.wakeup .waiting none) else s.finish θ none

/-- `myFrontQueue.Push` of the thread which owes it. -/
def push (s : State Θ B) : Option (State Θ B) :=
  assert (s.task.place = .pushing) { s with task := { s.task with place := .queued } }

/-- The scheduler takes the task from the front queue. It stays awake when it was woken up, when
it is closed, and when it has events or its deadline is over. -/
def dispatch (s : State Θ B) (hasEvents : Bool) : Option (State Θ B) :=
  assert (s.task.place = .queued)
    { s with task :=
      match s.task.status with
      | .pending =>
        if hasEvents || s.task.rescheduled then
          { s.task with status := .ready, place := .readyQueue }
        else { s.task with status := .waiting, place := .asleep }
      | .closing => { s.task with isClosed := true, status := .closed, place := .readyQueue }
      | _ => { s.task with place := .readyQueue } }

/-- The scheduler wakes a sleeping task up, for a kernel event or for its deadline. -/
def dispatchEvent (s : State Θ B) : Option (State Θ B) :=
  assert (s.task.status = .waiting)
    { s with task := { s.task with status := .ready, place := .readyQueue } }

/-! ### The calls of any thread -/

/-- The socket's mutex is free. -/
def State.unlocked (s : State Θ B) : Bool := s.mutex = none

/-- The beginning of `PostSendMove` or `SendMove`. -/
def sendBegin (s : State Θ B) (θ : Θ) (links : List (Option B)) : State Θ B :=
  { s with
    calls := s.calls + 1
    data := Function.update s.data s.calls (s.heap.content links)
    past := Function.update s.past s.calls s.returned }.goto θ (.send s.calls links)

/-- `SendMove`. -/
def sendMove (s : State Θ B) (θ : Θ) (c : ℕ) (links : List (Option B)) : State Θ B :=
  if s.task.isClosed then { s with lost := c :: s.lost }.finish θ (some c)
  else { s with sendQueue := s.sendQueue ++ tagged c links }.finish θ (some c)

/-- `PostSendMove`. -/
def postSendMove (s : State Θ B) (θ : Θ) (c : ℕ) (links : List (Option B)) :
    Option (State Θ B) :=
  if (s.phase θ).inCallback then some (sendMove s θ c links)
  else
    let t := { s with frontSendQueue := s.frontSendQueue ++ tagged c links }
    assert s.unlocked
      (if s.frontSendQueue.isEmpty then t.goto θ (.wakeup .waiting (some c))
        else t.finish θ (some c))

/-- `PostRecv`. -/
def postRecv (s : State Θ B) (θ : Θ) (size : ℕ) : State Θ B :=
  if (s.phase θ).inCallback then { s with recvSize := (s.recvSize + size) % 2 ^ 64 }
  else
    let t := { s with frontRecvSize := (s.frontRecvSize + size) % 2 ^ 64 }
    if s.frontRecvSize = 0 then t.goto θ (.wakeup .waiting none) else t

/-- `PostShutdown`. -/
def postShutdown (s : State Θ B) (θ : Θ) : Option (State Θ B) :=
  if s.state.isClosing then assert s.unlocked s
  else
    assert (s.unlocked && s.state != .new)
      ({ s with
        mutex := some θ
        frontCtl := some { s.frontCtl.getD .new with hasShutdown := true } }.goto θ
          (.wakeup .waiting none))

/-- `TCPSocketIFace::PostClose`. -/
def postClose (s : State Θ B) (θ : Θ) : Option (State Θ B) :=
  assert s.unlocked
    (if s.state.isClosing then s
    else if s.state = .new then { s with state := .closed }
    else { s with state := .closing, mutex := some θ }.goto θ .closeGuard)

/-- The assertions of `PostConnect`, `PostWrap` and `PostTask`. -/
def canStart (s : State Θ B) : Bool :=
  s.unlocked && (s.state = .closed || s.state = .new) && s.isReadyToStart && !s.isRunning

/-- `PostTask`. -/
def postTask (s : State Θ B) (θ : Θ) : Option (State Θ B) :=
  assert (canStart s)
    ({ s with
      isReadyToStart := false, isRunning := true, state := .empty, mutex := some θ }.goto θ
        (.attach false))

/-- `PostConnect` with `TCPSocketCtl::AddConnect`. -/
def postConnect (s : State Θ B) (θ : Θ) : Option (State Θ B) :=
  assert (canStart s && (s.frontCtl.getD .new).isFirst)
    ({ s with
      isReadyToStart := false, isRunning := true, state := .connecting, mutex := some θ
      frontCtl := some { s.frontCtl.getD .new with hasConnect := true } }.goto θ (.attach true))

/-- `PostWrap` with `TCPSocketCtl::AddAttach`. -/
def postWrap (s : State Θ B) (θ : Θ) : Option (State Θ B) :=
  assert (canStart s && (s.frontCtl.getD .new).isFirst)
    ({ s with
      isReadyToStart := false, isRunning := true, state := .connecting, mutex := some θ
      frontCtl := some { s.frontCtl.getD .new with hasAttach := true } }.goto θ (.attach true))

/-- `Connect`, which a callback calls. -/
def connect (s : State Θ B) (θ : Θ) : Option (State Θ B) :=
  if s.state = .closing then assert (s.unlocked && (s.phase θ).inCallback) s
  else
    assert (s.unlocked && (s.phase θ).inCallback && s.state = .empty && s.isRunning &&
        (s.frontCtl.getD .new).isFirst)
      { s with
        state := .connecting
        frontCtl := some { s.frontCtl.getD .new with hasConnect := true }
        task := { s.task with rescheduled := true } }

/-- `ProtOpen` in `TCPSocket::Open`, which resets the offset next. -/
def protOpen (s : State Θ B) (θ : Θ) : Option (State Θ B) :=
  assert (s.unlocked && s.recvSize = 0 && !s.wasHandshakeDone &&
      (s.state = .new || s.state = .closed) && !s.isRunning && !s.isReadyToStart)
    ({ s with isReadyToStart := true }.goto θ .opening)

/-- The rest of `TCPSocket::Open`, which holds no mutex. -/
def openEnd (s : State Θ B) (θ : Θ) : State Θ B := { s with sendOffset := 0 }.finish θ none

/-- `ProtPostHandshake`. -/
def protPostHandshake (s : State Θ B) : Option (State Θ B) :=
  assert (s.unlocked && (s.state = .new || s.state = .closed) && s.frontCtl.isNone &&
      s.isReadyToStart && !s.isRunning && !s.wasHandshakeDone)
    { s with frontCtl := some { Ctl.new with handshake := true } }

/-- The next step of the call a thread is in. -/
def next (s : State Θ B) (θ : Θ) : Option (State Θ B) :=
  match s.call θ with
  | .idle => none
  | .send c links => postSendMove s θ c links
  | .opening => some (openEnd s θ)
  | .wakeup old k => some (postWakeup s θ old k)
  | .closeGuard => some (privCloseStart s θ)
  | .closeExchange => closeExchange s θ
  | .attach wake => privAttach s θ wake
  | .attachGuard wake => attachGuard s θ wake
  | .attachPush wake => some (attachPush s θ wake)

/-! ### The worker -/

/-- What a worker does next, where the code has a choice: the answer of the kernel, or the way
the requests went. -/
inductive Choice
  | advance
  /-- The arguments of the execution hold an error. -/
  | fail
  /-- The requests are executed, and `ctl` is what is left of them. -/
  | requests (ctl : Option Ctl)
  /-- The kernel takes some bytes of the vectors, for which there is some room. -/
  | sent (room count : ℕ)
  /-- The kernel gives some bytes. -/
  | received
  /-- An error, or the end of the stream: `ProtClose`. -/
  | close
  | reschedule
  | handshakeStart
  | handshakeCommit

/-- `IOCore::PrivExecute` takes the task from the ready queue. -/
def pop (s : State Θ B) (θ : Θ) : Option (State Θ B) :=
  assert (s.task.place = .readyQueue && s.phase θ = .none && (s.call θ).isIdle)
    ({ s with task := { s.task with place := .executing θ } }.moveTo θ .popped)

/-- The exchange of the status in `IOCore::PrivExecute`. -/
def execute (s : State Θ B) (θ : Θ) : State Θ B :=
  { s with task := { s.task with
    status := if s.task.status = TaskStatus.ready then .pending else s.task.status } }.moveTo
      θ .started

/-- `IOTask::PrivExecute` and the beginning of `TCPSocket::OnEvent`. A closed task is out of the
core from here on. -/
def onEvent (s : State Θ B) (θ : Θ) (ok : Bool) : State Θ B :=
  let s := { s with task := { s.task with rescheduled := false } }
  if s.task.isClosed then { s with task := { s.task with place := .outside } }.moveTo θ .final
  else s.moveTo θ (if ok then .event else .failed)

/-- `ProtClose` of a task which is not closed. -/
def protClose (s : State Θ B) (θ : Θ) (p : Phase) : Option (State Θ B) :=
  assert (s.unlocked && s.isRunning && s.state != .new && s.state != .closed)
    (({ s with state := .closing }.goto θ .closeGuard).moveTo θ p)

/-- `ProtClose` of a closed task, up to `OnClose`. -/
def protCloseFinal (s : State Θ B) (θ : Θ) : Option (State Θ B) :=
  assert (s.unlocked && s.isRunning && s.state != .new)
    (if s.state = .closed then s.moveTo θ .none
    else
      { s with
        lost := (s.unsent ++ queueBytes s.heap s.frontSendQueue).map Prod.fst ++ s.lost
        frontSendQueue := []
        frontRecvSize := 0
        wasHandshakeDone := false
        isRunning := false
        state := .closed
        frontCtl := none
        sendQueue := []
        recvSize := 0
        ctl := none }.moveTo θ .onClose)

/-- The end of `PrivCtl` under the mutex: the front queue is appended to the send queue. -/
def drain (s : State Θ B) (θ : Θ) : State Θ B :=
  { s with
    sendQueue := s.sendQueue ++ s.frontSendQueue
    frontSendQueue := [] }.moveTo θ .drained

/-- The first section of `PrivCtl`. -/
def privCtl (s : State Θ B) (θ : Θ) : Option (State Θ B) :=
  match s.frontCtl, s.ctl with
  | none, none => assert s.unlocked (drain s θ)
  | none, some _ => assert s.unlocked (s.moveTo θ .ctl)
  | some f, none => assert s.unlocked ({ s with ctl := some f, frontCtl := none }.moveTo θ .ctl)
  | some f, some c =>
    assert (s.unlocked && c.canMerge f)
      ({ s with ctl := some (c.mergeFrom f), frontCtl := none }.moveTo θ .ctl)

/-- `Recv(myFrontRecvSize.ExchangeRelaxed(0))`. -/
def recvFront (s : State Θ B) (θ : Θ) : State Θ B :=
  { s with
    recvSize := (s.recvSize + s.frontRecvSize) % 2 ^ 64
    frontRecvSize := 0 }.moveTo θ .io

/-- `PrivHandshakeStart` and the state change of `PrivHandshakeCommit`. -/
def handshake (s : State Θ B) (old st : SocketState) (done : Bool) : Option (State Θ B) :=
  assert (s.unlocked && (s.state = old || s.state = .closing) && !s.wasHandshakeDone)
    { s with
      state := if s.state = old then st else s.state
      wasHandshakeDone := done }

variable [DecidableEq B]

omit [DecidableEq Θ] in
/-- `PrivSend` and `PrivSendCommit`: the empty prefix of the queue is skipped, the kernel takes some
of the bytes of the vectors, and these bytes are skipped. A send which is over in a later execution
is two of these steps, the first of which takes no byte. -/
def privSend (s : State Θ B) (room count : ℕ) : Option (State Θ B) :=
  let r := s.heap.skipEmptyPrefix (s.sendQueue.map Prod.snd) s.sendOffset
  let s := { s with
    heap := r.heap, sendQueue := withHeads s.sendQueue r.head, sendOffset := r.offset }
  if r.head = [] then some s
  else
    let v := (r.heap.buffersToIOVecsForWrite r.head r.offset room).1.flatten
    (assert (count ≤ v.length) ()).bind fun _ =>
      (r.heap.skipData r.head r.offset count).map fun l => { s with
        sendQueue := withHeads s.sendQueue l.1
        sendOffset := l.2
        wire := s.wire ++ (s.unsent.map Prod.fst).zip (v.take count) }

/-- The next step of a worker which is in no call. -/
def work (s : State Θ B) (θ : Θ) (ch : Choice) : Option (State Θ B) :=
  match s.phase θ, ch with
  | .popped, .advance => some (execute s θ)
  | .started, .advance => some (onEvent s θ true)
  | .started, .fail => some (onEvent s θ false)
  | .failed, .close => protClose s θ .aborted
  | .aborted, .advance => some (s.moveTo θ .leaving)
  | .event, .advance => privCtl s θ
  | .ctl, .requests c => assert s.unlocked (drain { s with ctl := c } θ)
  | .ctl, .handshakeStart => handshake s .connecting .handshake false
  | .ctl, .handshakeCommit => handshake s .handshake .connected true
  | .ctl, .close => protClose s θ .ctl
  | .ctl, .reschedule => some { s with task := { s.task with rescheduled := true } }
  | .drained, .advance => some (recvFront s θ)
  | .io, .sent room count => privSend s room count
  | .io, .received => some { s with recvSize := 0 }
  | .io, .close => protClose s θ .io
  | .io, .reschedule => some { s with task := { s.task with rescheduled := true } }
  | .io, .advance => some (s.moveTo θ .leaving)
  | .leaving, .advance =>
    some ({ s with task := { s.task with place := .pushing } }.moveTo θ .none)
  | .final, .advance => protCloseFinal s θ
  | .onClose, .advance => some (s.moveTo θ .none)
  | _, _ => none

/-! ### The machine -/

/-- The operations of the socket which any thread may call. -/
inductive Op (B : Type*)
  | send (links : List (Option B))
  | postRecv (size : ℕ)
  | postShutdown
  | postClose
  | postWakeup
  | postTask
  | postConnect
  | postWrap
  | connect
  | protOpen
  | protPostHandshake

/-- The beginning of an operation. -/
def call (s : State Θ B) (θ : Θ) : Op B → Option (State Θ B)
  | .send links => some (sendBegin s θ links)
  | .postRecv size => some (postRecv s θ size)
  | .postShutdown => postShutdown s θ
  | .postClose => postClose s θ
  | .postWakeup => some (s.goto θ (.wakeup .waiting none))
  | .postTask => postTask s θ
  | .postConnect => postConnect s θ
  | .postWrap => postWrap s θ
  | .connect => connect s θ
  | .protOpen => protOpen s θ
  | .protPostHandshake => protPostHandshake s

/-- One step of one party. -/
inductive Action (Θ B : Type*)
  /-- A thread outside the socket, or in a callback of it, begins an operation. -/
  | call (θ : Θ) (op : Op B)
  /-- A thread takes the next step of its call. -/
  | next (θ : Θ)
  /-- The thread which owes it pushes the task. -/
  | push
  | dispatch (hasEvents : Bool)
  | dispatchEvent
  | pop (θ : Θ)
  | work (θ : Θ) (ch : Choice)
  /-- `SkipEmptyPrefix` of another list takes the next link of a buffer away. -/
  | unlink (b : B)

/-- The steps of the socket and of its task, and of the other holders of the buffers. -/
def step (s : State Θ B) : Action Θ B → Option (State Θ B)
  | .call θ op =>
    if (s.call θ).isIdle ∧ (s.phase θ = .none ∨ (s.phase θ).inCallback) then call s θ op else none
  | .next θ => next s θ
  | .push => push s
  | .dispatch hasEvents => dispatch s hasEvents
  | .dispatchEvent => dispatchEvent s
  | .pop θ => pop s θ
  | .work θ ch => if (s.call θ).isIdle then work s θ ch else none
  | .unlink b => some { s with heap := s.heap.unlink b }

/-- A socket under any interleaving of its callers, its worker and its core, over any buffers. -/
def machine (Θ B : Type*) [DecidableEq Θ] [DecidableEq B] : Machine (State Θ B) (Action Θ B) where
  init s := ∃ heap, s = .new heap
  step := step

end TCPSocket

end Serverbox
