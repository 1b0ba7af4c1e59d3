import Mathlib.Logic.Basic
import Serverbox.Lib.Machine

/-!
# Closing a TCP server

`TCPServer` is bound, then it listens, and its task accepts clients in the workers of the core
until it is closed. `PostClose` of a listening server only starts the close: the state becomes
`CLOSING`, and the last execution of the task makes it `CLOSED`, forgets the subscription and
calls `OnClose`.

`PostClose` treats all the states but `LISTENING` alike. So a second call before the subscription
is forgotten fails the assertion that there is none. `Bind` does not take the mutex: a `PostClose`
between its check and its stores is undone by them. Here the server is modelled with its task and
all the threads which use it. The sections under the mutex are steps, and so are the check and the
two stores of `Bind`. The core is free in what it does with the task, as far as `IOTask` and
`IOCore` allow it: a task is executed by one worker at a time, and once more after it was closed by
the scheduler.

The history variables are the numbers of the bound sockets which were created and released, of
the calls of `OnClose`, and whether `Listen` was successful.

Source: `src/mg/aio/TCPServer.h`, `src/mg/aio/TCPServer.cpp`, `src/mg/aio/IOTask.cpp`,
`src/mg/aio/IOCore.cpp`.

## Main definitions

* `TCPServer.State`, `TCPServer.step`, `TCPServer.machine`: the server with its task.
* `TCPServer.Allowed`: the steps which respect a bind and a close in progress.
* `TCPServer.FairRun`: the workers and the scheduler go on.

## Main results

* `TCPServer.close_ok`: in a run of such steps nothing fails, `OnClose` is called once, the state
  stays `CLOSED`, and the socket is released once; any other step breaks this.
* `TCPServer.FairRun.onClose_called`: a server which is being closed calls `OnClose` in a fair run.
-/

namespace Serverbox

namespace TCPServer

/-- `TCPServerState`. -/
inductive ServerState
  | new
  | bound
  | listening
  | closing
  | closed
  deriving DecidableEq

/-- `IOTaskStatus`. -/
inductive Status
  | pending
  | waiting
  | ready
  | closing
  | closed
  deriving DecidableEq

/-- Where the task is: not posted yet, in a queue of the core, asleep, in a worker which accepts,
is in `OnAccept`, is in the last execution before the lock, after the unlock, or in `OnClose`, and
released by the core. -/
inductive Place
  | unposted
  | queues
  | asleep
  | event
  | onAccept
  | closeLock
  | closeSub
  | onClose
  | over
  deriving DecidableEq

/-- `IOTask`, as far as it concerns the close. -/
structure IOTask where
  status : Status
  closeGuard : Bool
  isClosed : Bool
  hasSocket : Bool
  place : Place
  deriving DecidableEq

/-- The constructor of `IOTask`. -/
def IOTask.new : IOTask := ⟨.pending, false, false, false, .unposted⟩

/-- `Post` with a server socket. -/
def IOTask.post (t : IOTask) : IOTask := { t with hasSocket := true, place := .queues }

/-- `PostWakeup`. -/
def IOTask.postWakeup (t : IOTask) : IOTask :=
  match t.status with
  | .waiting => { t with status := .ready, place := .queues }
  | .pending => { t with status := .ready }
  | _ => t

/-- `PostClose`. -/
def IOTask.postClose (t : IOTask) : IOTask :=
  if t.closeGuard then t
  else
    { t with
      closeGuard := true
      status := .closing
      place := if t.status = .waiting then .queues else t.place }

/-- Where the thread in `Bind` is: outside of it, after the check of the state, or after the store
of the new state. -/
inductive Binder
  | outside
  | calling
  | storing
  deriving DecidableEq

/-- `TCPServer`. The references from the outside are one, and it was destroyed or not. -/
structure State where
  state : ServerState
  binder : Binder
  sub : Bool
  boundSocket : Bool
  task : IOTask
  held : Bool
  destroyed : Bool
  failed : Bool
  created : ℕ
  released : ℕ
  onClose : ℕ
  listened : Bool
  deriving DecidableEq

/-- The constructor. -/
def State.new : State := ⟨.new, .outside, false, false, .new, true, false, false, 0, 0, 0, false⟩

/-- An assertion of the source. -/
def State.assert (s : State) (b : Bool) : State := { s with failed := s.failed || !b }

/-- `delete myBoundSocket`. -/
def State.deleteBound (s : State) : State :=
  { s with released := s.released + s.boundSocket.toNat, boundSocket := false }

/-- Where the task is from now on. -/
def State.moveTo (s : State) (p : Place) : State := { s with task := { s.task with place := p } }

/-- The outcome of `Accept`: it goes on in the background, there was nobody after all, a client,
or an error of the operating system. -/
inductive Accepted
  | started
  | nobody
  | peer
  | error
  deriving DecidableEq

/-- What can happen: the operations of the server, the loss of the references from the outside and
the destruction, what the core does with the task, and the steps of a worker in it. -/
inductive Action
  | bind
  | bound (ok : Bool)
  | bindEnd
  | listen (ok : Bool)
  | postClose
  | drop
  | destroy
  | sleep
  | wake
  | rouse
  | closeDo
  | execute
  | accept (r : Accepted)
  | accepted
  | closeLock
  | closeSub
  | closed
  deriving DecidableEq

/-- Somebody has a reference to the server, or is in a callback. -/
def State.mayCall (s : State) : Bool :=
  s.held || s.task.place == .onAccept || s.task.place == .onClose

/-- `Bind` up to the call of `SocketBind`. A failed assertion stops the program. -/
def bind (s : State) : Option State :=
  if s.state = .new then some { s with binder := .calling } else none

/-- `Bind` from the return of `SocketBind` to the store of the state. -/
def bound (s : State) (ok : Bool) : State :=
  if ok then { s with state := .bound, binder := .storing, created := s.created + 1 }
  else { s with binder := .outside }

/-- `Bind` stores the socket. -/
def bindEnd (s : State) : State := { s with boundSocket := true, binder := .outside }

/-- `Listen`. A failed assertion stops the program. -/
def listen (s : State) (ok : Bool) : Option State :=
  if s.state = .bound ∧ s.sub = false then
    some (if ok then
      { s with
        sub := true
        state := .listening
        boundSocket := false
        task := s.task.post.postWakeup
        listened := true }
      else s)
  else none

/-- `PostClose`. -/
def postClose (s : State) : State :=
  if s.state = .listening then { s with state := .closing, task := s.task.postClose }
  else ({ s with state := .closed }.assert !s.sub).deleteBound

/-- The destructor, when the last reference is gone. -/
def destroy (s : State) : State :=
  { (s.assert (decide (s.state = .closed ∨ s.state = .new) && !s.sub)).deleteBound with
    destroyed := true }

/-- `PrivCloseDo` of the task by the scheduler, which closes the socket. -/
def closeDo (s : State) : State :=
  { s with
    released := s.released + s.task.hasSocket.toNat
    task := { s.task with status := .closed, isClosed := true, hasSocket := false } }

/-- A worker takes the task. -/
def execute (s : State) : State :=
  { s with
    task := { s.task with
      status := if s.task.status = .ready then .pending else s.task.status
      place := if s.task.isClosed then .closeLock else .event } }

/-- `OnEvent` of a task which is not closed. -/
def accept (s : State) : Accepted → State
  | .started | .nobody => s.moveTo .queues
  | .peer => (s.assert s.sub).moveTo .onAccept
  | .error => (s.assert false).moveTo .queues

/-- The section under the mutex in `OnEvent` of the closed task. -/
def closeLock (s : State) : State :=
  { s.assert (decide (s.state = ServerState.closing)) with state := .closed }.moveTo .closeSub

/-- The subscription is forgotten, and its `OnClose` called. -/
def closeSub (s : State) : State :=
  { s.assert s.sub with sub := false, onClose := s.onClose + 1 }.moveTo .onClose

/-- One step of the server, of its task and of those who use it. `Bind` and `Listen` are called one
after the other, by somebody who keeps the server alive. -/
def step (s : State) (a : Action) : Option State :=
  if s.destroyed then none
  else match a with
    | .bind => if s.mayCall ∧ s.binder = .outside then bind s else none
    | .bound ok => if s.binder = .calling then some (bound s ok) else none
    | .bindEnd => if s.binder = .storing then some (bindEnd s) else none
    | .listen ok => if s.mayCall ∧ s.binder = .outside then listen s ok else none
    | .postClose => if s.mayCall then some (postClose s) else none
    | .drop => if s.held ∧ s.binder = .outside then some { s with held := false } else none
    | .destroy =>
      if s.held = false ∧ s.binder = .outside ∧
          (s.task.place = .unposted ∨ s.task.place = .over) then some (destroy s)
      else none
    | .sleep =>
      if s.task.place = .queues ∧ s.task.status = .pending then
        some { s with task := { s.task with status := .waiting, place := .asleep } }
      else none
    | .wake =>
      if s.task.place = .asleep ∧ s.task.status = .waiting then
        some { s with task := { s.task with status := .ready, place := .queues } }
      else none
    | .rouse =>
      if s.task.place = .queues ∧ s.task.status = .pending then
        some { s with task := { s.task with status := .ready } }
      else none
    | .closeDo =>
      if s.task.place = .queues ∧ s.task.status = .closing then some (closeDo s) else none
    | .execute =>
      if s.task.place = .queues ∧ s.task.status ≠ .pending ∧ s.task.status ≠ .waiting then
        some (execute s)
      else none
    | .accept r => if s.task.place = .event then some (accept s r) else none
    | .accepted => if s.task.place = .onAccept then some (s.moveTo .queues) else none
    | .closeLock => if s.task.place = .closeLock then some (closeLock s) else none
    | .closeSub => if s.task.place = .closeSub then some (closeSub s) else none
    | .closed => if s.task.place = .onClose then some (s.moveTo .over) else none

/-- A server from its construction on. -/
def machine : Machine State Action where
  init s := s = .new
  step := step

/-- The steps which respect a bind and a close in progress and the contract: `Bind` does not succeed
after a `PostClose` which came since its check, nobody calls `PostClose` between its two stores, nor
from the start of the close until the subscription is forgotten, a server which is only bound is not
destroyed without `PostClose`, and the operating system is able to accept. -/
def Allowed (s : State) : Action → Prop
  | .bound ok => ok = true → s.state = .new
  | .postClose => s.binder ≠ .storing ∧ (s.sub = true → s.state = .listening)
  | .destroy => s.state ≠ .bound
  | .accept r => r ≠ .error
  | _ => True

instance (s : State) (a : Action) : Decidable (Allowed s a) := by
  cases a <;> unfold Allowed <;> infer_instance

/-! ### The shape of the reachable states -/

/-- The task while the server is closing or before. -/
structure Open (t : IOTask) : Prop where
  place : t.place = .queues ∨ t.place = .asleep ∨ t.place = .event ∨ t.place = .onAccept ∨
    t.place = .closeLock
  asleep : t.place = .asleep ↔ t.status = .waiting
  socket : t.hasSocket = !t.isClosed
  closed : t.isClosed = true ↔ t.status = .closed
  final : t.place = .closeLock → t.isClosed = true
  executed : t.place = .event ∨ t.place = .onAccept → t.isClosed = false
  guard : t.closeGuard = true ↔ t.status = .closing ∨ t.status = .closed

/-- The stages of the life of a server. -/
inductive Shape : ServerState → Binder → (sub bound listened : Bool) → IOTask → Prop
  | new : Shape .new .outside false false false .new
  | calling : Shape .new .calling false false false .new
  | storing : Shape .bound .storing false false false .new
  | bound : Shape .bound .outside false true false .new
  | unused : Shape .closed .outside false false false .new
  | refused : Shape .closed .calling false false false .new
  | listening {t : IOTask} (ht : Open t) (hg : t.closeGuard = false) :
    Shape .listening .outside true false true t
  | closing {t : IOTask} (ht : Open t) (hg : t.closeGuard = true) :
    Shape .closing .outside true false true t
  | closeSub {t : IOTask} (hp : t.place = .closeSub) (hs : t.hasSocket = false) :
    Shape .closed .outside true false true t
  | closed {t : IOTask} (hp : t.place = .onClose ∨ t.place = .over) (hs : t.hasSocket = false) :
    Shape .closed .outside false false true t

/-- The invariant of the allowed runs. -/
structure Inv (s : State) : Prop where
  shape : Shape s.state s.binder s.sub s.boundSocket s.listened s.task
  failed : s.failed = false
  onClose : s.onClose =
    (s.listened && decide (s.task.place = .onClose ∨ s.task.place = .over)).toNat
  created : s.created = s.released + s.boundSocket.toNat + s.task.hasSocket.toNat +
    (decide (s.binder = .storing)).toNat
  once : s.created ≤ 1
  unbound : s.state = .new → s.created = 0
  destroyed : s.destroyed = true → s.boundSocket = false ∧ s.task.hasSocket = false ∧
    s.binder = .outside ∧ (s.listened = true → s.task.place = .over)

namespace Inv

variable {s s' : State} {a : Action}

theorem new : Inv .new := by
  refine ⟨.new, rfl, rfl, rfl, ?_, fun _ => rfl, nofun⟩
  exact Nat.zero_le 1

/-- A step of the core or of a worker which changes nothing but the task. -/
theorem task (h : Inv s) {t : IOTask} (hopen : Open t) (hd : s.destroyed = false)
    (hs : s.task.place ≠ .closeSub ∧ s.task.place ≠ .onClose ∧ s.task.place ≠ .over ∧
      s.task.place ≠ .unposted) (hguard : t.closeGuard = s.task.closeGuard)
    (hsock : t.hasSocket = s.task.hasSocket) : Inv { s with task := t } where
  shape := by
    obtain ⟨st, binder, sub, bound, u, held, destroyed, failed, created, released, onClose,
      listened⟩ := s
    obtain ⟨h₁, h₂, h₃, h₄⟩ := hs
    have hshape := h.shape
    dsimp only at *
    cases hshape with
    | listening ht hg => exact .listening hopen (hguard.trans hg)
    | closing ht hg => exact .closing hopen (hguard.trans hg)
    | closeSub hp _ => exact absurd hp h₁
    | closed hp _ => exact (hp.elim h₂ h₃).elim
    | new | calling | storing | bound | unused | refused => exact absurd rfl h₄
  failed := h.failed
  onClose := by
    have hp := hopen.place
    have hc := h.onClose
    obtain ⟨h₁, h₂, h₃, h₄⟩ := hs
    have hno : ¬ (t.place = .onClose ∨ t.place = .over) := by
      rintro (he | he) <;> simp [he] at hp
    simpa [h₂, h₃, hno] using hc
  created := by rw [hsock]; exact h.created
  once := h.once
  unbound := h.unbound
  destroyed hdes := absurd (hd.symm.trans hdes) nofun

/-- Where the task is when it is open. -/
theorem opened (h : Inv s) (hs : s.task.place ≠ .closeSub ∧ s.task.place ≠ .onClose ∧
    s.task.place ≠ .over ∧ s.task.place ≠ .unposted) :
    Open s.task ∧ s.sub = true ∧ (s.state = .listening ∨ s.state = .closing) := by
  obtain ⟨st, binder, sub, bound, u, held, destroyed, failed, created, released, onClose,
    listened⟩ := s
  obtain ⟨h₁, h₂, h₃, h₄⟩ := hs
  have hshape := h.shape
  dsimp only at *
  cases hshape with
  | listening ht hg => exact ⟨ht, rfl, .inl rfl⟩
  | closing ht hg => exact ⟨ht, rfl, .inr rfl⟩
  | closeSub hp _ => exact absurd hp h₁
  | closed hp _ => exact (hp.elim h₂ h₃).elim
  | new | calling | storing | bound | unused | refused => exact absurd rfl h₄

theorem bind (h : Inv s) (hd : s.destroyed = false) (hb : s.binder = .outside)
    (hs : TCPServer.bind s = some s') : Inv s' := by
  obtain ⟨st, binder, sub, bound, u, held, destroyed, failed, created, released, onClose,
    listened⟩ := s
  obtain ⟨hshape, hf, ho, hc, h₁, hu, hdes⟩ := h
  simp only [TCPServer.bind, Option.ite_none_right_eq_some, Option.some.injEq] at hs
  dsimp only at *
  obtain ⟨rfl, rfl⟩ := hs
  subst hb
  cases hshape
  exact ⟨.calling, hf, ho, hc, h₁, hu, fun he => absurd (hd.symm.trans he) Bool.false_ne_true⟩

theorem bound (h : Inv s) {ok : Bool} (hd : s.destroyed = false) (hb : s.binder = .calling)
    (ha : ok = true → s.state = .new) : Inv (TCPServer.bound s ok) := by
  obtain ⟨st, binder, sub, bound, u, held, destroyed, failed, created, released, onClose,
    listened⟩ := s
  obtain ⟨hshape, hf, ho, hc, h₁, hu, hdes⟩ := h
  unfold TCPServer.bound
  dsimp only at *
  subst hb
  have hundead (p : Prop) (he : destroyed = true) : p :=
    absurd (hd.symm.trans he) Bool.false_ne_true
  cases ok with
  | false =>
    cases hshape with
    | calling => exact ⟨.new, hf, ho, hc, h₁, hu, hundead _⟩
    | refused => exact ⟨.unused, hf, ho, hc, h₁, hu, hundead _⟩
  | true =>
    obtain rfl := ha rfl
    have hzero : created = 0 := hu rfl
    cases hshape
    refine ⟨.storing, hf, ho, ?_, ?_, (fun he => by cases he), hundead _⟩
    · show created + 1 = released + 0 + 0 + 1
      simp only [hzero] at hc ⊢
      simp only [Bool.toNat_false, IOTask.new] at hc
      omega
    · show created + 1 ≤ 1
      omega

theorem bindEnd (h : Inv s) (hd : s.destroyed = false) (hb : s.binder = .storing) :
    Inv (TCPServer.bindEnd s) := by
  obtain ⟨st, binder, sub, bound, u, held, destroyed, failed, created, released, onClose,
    listened⟩ := s
  obtain ⟨hshape, hf, ho, hc, h₁, hu, hdes⟩ := h
  unfold TCPServer.bindEnd
  dsimp only at *
  subst hb
  cases hshape
  refine ⟨.bound, hf, ho, ?_, h₁, (fun he => by cases he),
    fun he => absurd (hd.symm.trans he) Bool.false_ne_true⟩
  simpa [IOTask.new] using hc

theorem listen (h : Inv s) {ok : Bool} (hd : s.destroyed = false) (hb : s.binder = .outside)
    (hs : TCPServer.listen s ok = some s') : Inv s' := by
  obtain ⟨st, binder, sub, bound, u, held, destroyed, failed, created, released, onClose,
    listened⟩ := s
  obtain ⟨hshape, hf, ho, hc, h₁, hu, hdes⟩ := h
  simp only [TCPServer.listen, Option.ite_none_right_eq_some, Option.some.injEq] at hs
  dsimp only at *
  obtain ⟨⟨rfl, rfl⟩, rfl⟩ := hs
  subst hb
  cases hshape
  cases ok with
  | false => exact ⟨.bound, hf, ho, hc, h₁, hu, hdes⟩
  | true =>
    refine ⟨.listening ?_ rfl, hf, ho, hc, h₁, nofun, fun he => absurd (hd.symm.trans he) nofun⟩
    constructor <;> simp [IOTask.new, IOTask.post, IOTask.postWakeup]

theorem postClose_open {t : IOTask} (ht : Open t) (hg : t.closeGuard = false) :
    Open t.postClose ∧ t.postClose.closeGuard = true ∧ t.postClose.hasSocket = t.hasSocket := by
  have hclosed : t.isClosed = false := by
    have := ht.closed
    have := ht.guard
    cases hc : t.isClosed <;> simp_all
  have hplace := ht.place
  have hfinal := ht.final
  have hasleep := ht.asleep
  have hsock := ht.socket
  unfold IOTask.postClose
  rw [if_neg (by simp [hg])]
  refine ⟨?_, rfl, rfl⟩
  by_cases hw : t.status = .waiting
  · constructor <;> simp_all
  · constructor <;> simp_all

theorem postClose (h : Inv s) (hd : s.destroyed = false) (hb : s.binder ≠ .storing)
    (ha : s.sub = true → s.state = .listening) : Inv (postClose s) := by
  obtain ⟨st, binder, sub, bound, u, held, destroyed, failed, created, released, onClose,
    listened⟩ := s
  obtain ⟨hshape, hf, ho, hc, h₁, hu, hdes⟩ := h
  unfold TCPServer.postClose
  dsimp only at *
  cases hshape with
  | listening ht hg =>
    obtain ⟨hopen, hguard, hsock⟩ := postClose_open ht hg
    rw [if_pos rfl]
    refine ⟨.closing hopen hguard, hf, ?_, ?_, h₁, nofun, fun he => absurd (hd.symm.trans he) nofun⟩
    · have hp := ht.place
      have hp' := hopen.place
      dsimp only
      rw [ho]
      congr 2
      grind
    · rw [hsock]
      exact hc
  | closing ht hg | closeSub hp hs => exact absurd (ha rfl) nofun
  | storing => exact absurd rfl hb
  | new | bound | unused =>
    rw [if_neg nofun]
    refine ⟨.unused, ?_, ho, ?_, h₁, nofun, fun he => absurd (hd.symm.trans he) nofun⟩
    · simp [State.assert, State.deleteBound, hf]
    · simp [State.assert, State.deleteBound, hc]
  | calling | refused =>
    rw [if_neg (by simp)]
    refine ⟨.refused, ?_, ho, ?_, h₁, (fun he => by cases he),
      fun he => absurd (hd.symm.trans he) Bool.false_ne_true⟩
    · simp [State.assert, State.deleteBound, hf]
    · simp [State.assert, State.deleteBound, hc]
  | closed hp hs =>
    rw [if_neg nofun]
    refine ⟨.closed hp hs, ?_, ho, ?_, h₁, nofun, fun he => absurd (hd.symm.trans he) nofun⟩
    · simp [State.assert, State.deleteBound, hf]
    · simp [State.assert, State.deleteBound, hc]

theorem destroy (h : Inv s) (ha : s.state ≠ .bound) (hb : s.binder = .outside)
    (hp : s.task.place = .unposted ∨ s.task.place = .over) : Inv (destroy s) := by
  obtain ⟨st, binder, sub, bound, u, held, destroyed, failed, created, released, onClose,
    listened⟩ := s
  obtain ⟨hshape, hf, ho, hc, h₁, hu, hdes⟩ := h
  unfold TCPServer.destroy
  dsimp only at *
  subst hb
  cases hshape with
  | bound => exact absurd rfl ha
  | listening ht hg | closing ht hg =>
    have := ht.place
    rcases hp with hp | hp <;> simp [hp] at this
  | closeSub hp' hs => rcases hp with hp | hp <;> simp [hp] at hp'
  | new => exact ⟨.new, by simp [State.assert, State.deleteBound, hf], ho,
      by simpa [State.assert, State.deleteBound] using hc, h₁, hu, fun _ => ⟨rfl, rfl, rfl, nofun⟩⟩
  | unused => exact ⟨.unused, by simp [State.assert, State.deleteBound, hf], ho,
      by simpa [State.assert, State.deleteBound] using hc, h₁, hu, fun _ => ⟨rfl, rfl, rfl, nofun⟩⟩
  | closed hp' hs =>
    have hover : u.place = .over := by
      rcases hp with hp | hp
      · simp [hp] at hp'
      · exact hp
    exact ⟨.closed hp' hs, by simp [State.assert, State.deleteBound, hf], ho,
      by simpa [State.assert, State.deleteBound] using hc, h₁, hu,
      fun _ => ⟨rfl, hs, rfl, fun _ => hover⟩⟩

theorem closeDo (h : Inv s) (hd : s.destroyed = false) (hp : s.task.place = .queues)
    (hst : s.task.status = .closing) : Inv (closeDo s) := by
  have hplace : s.task.place ≠ .closeSub ∧ s.task.place ≠ .onClose ∧ s.task.place ≠ .over ∧
      s.task.place ≠ .unposted := by simp [hp]
  obtain ⟨hopen, -, -⟩ := h.opened hplace
  have hclosed : s.task.isClosed = false := by
    have := hopen.closed
    cases hc : s.task.isClosed <;> simp_all
  have hsock : s.task.hasSocket = true := by rw [hopen.socket, hclosed]; rfl
  have hguard : s.task.closeGuard = true := hopen.guard.mpr (.inl hst)
  obtain ⟨st, binder, sub, bound, u, held, destroyed, failed, created, released, onClose,
    listened⟩ := s
  obtain ⟨hshape, hf, ho, hc, h₁, hu, hdes⟩ := h
  unfold TCPServer.closeDo
  dsimp only at *
  have hopen' : Open { u with status := .closed, isClosed := true, hasSocket := false } := by
    constructor <;> simp [hp, hguard]
  refine ⟨?_, hf, ho, ?_, h₁, hu, fun he => absurd (hd.symm.trans he) nofun⟩
  · cases hshape with
    | listening ht hg => exact absurd (hg.symm.trans hguard) nofun
    | closing ht hg => exact .closing hopen' hg
    | closeSub hp' _ => exact absurd hp' hplace.1
    | closed hp' _ => exact (hp'.elim hplace.2.1 hplace.2.2.1).elim
    | new | calling | storing | bound | unused | refused => exact absurd rfl hplace.2.2.2
  · rw [hsock] at hc ⊢
    simpa [Nat.add_assoc, Nat.add_comm, Nat.add_left_comm] using hc

theorem execute (h : Inv s) (hd : s.destroyed = false) (hp : s.task.place = .queues)
    (hst : s.task.status ≠ .pending ∧ s.task.status ≠ .waiting) : Inv (execute s) := by
  have hplace : s.task.place ≠ .closeSub ∧ s.task.place ≠ .onClose ∧ s.task.place ≠ .over ∧
      s.task.place ≠ .unposted := by simp [hp]
  obtain ⟨hopen, -, -⟩ := h.opened hplace
  refine h.task ?_ hd hplace rfl rfl
  have hclosed := hopen.closed
  have hguard := hopen.guard
  have hsock := hopen.socket
  cases hstatus : s.task.status with
  | pending => exact absurd hstatus hst.1
  | waiting => exact absurd hstatus hst.2
  | ready | closing | closed => constructor <;> simp_all

/-- The task is still open when it goes from one place to another one. -/
theorem moveTo (h : Inv s) (hd : s.destroyed = false) {p q : Place} (hp : s.task.place = p)
    (hfrom : p = .event ∨ p = .onAccept) (hto : q = .queues ∨ q = .onAccept) :
    Inv (s.moveTo q) := by
  have hplace : s.task.place ≠ .closeSub ∧ s.task.place ≠ .onClose ∧ s.task.place ≠ .over ∧
      s.task.place ≠ .unposted := by rcases hfrom with rfl | rfl <;> simp [hp]
  obtain ⟨hopen, -, -⟩ := h.opened hplace
  refine h.task ?_ hd hplace rfl rfl
  have hclosed := hopen.closed
  have hguard := hopen.guard
  have hsock := hopen.socket
  have hex := hopen.executed
  have hasleep := hopen.asleep
  rcases hfrom with rfl | rfl <;> rcases hto with rfl | rfl <;> constructor <;> simp_all

theorem accept (h : Inv s) {r : Accepted} (hd : s.destroyed = false) (hp : s.task.place = .event)
    (hr : r ≠ .error) : Inv (accept s r) := by
  have hplace : s.task.place ≠ .closeSub ∧ s.task.place ≠ .onClose ∧ s.task.place ≠ .over ∧
      s.task.place ≠ .unposted := by simp [hp]
  obtain ⟨-, hsub, -⟩ := h.opened hplace
  have hassert : s.assert s.sub = s := by
    have hfail : (s.failed || !s.sub) = s.failed := by rw [hsub, Bool.not_true, Bool.or_false]
    rw [State.assert, hfail]
  cases r with
  | error => exact absurd rfl hr
  | started | nobody => exact h.moveTo hd hp (.inl rfl) (.inl rfl)
  | peer =>
    rw [TCPServer.accept, hassert]
    exact h.moveTo hd hp (.inl rfl) (.inr rfl)

theorem closeLock (h : Inv s) (hd : s.destroyed = false) (hp : s.task.place = .closeLock) :
    Inv (closeLock s) := by
  obtain ⟨st, binder, sub, bound, u, held, destroyed, failed, created, released, onClose,
    listened⟩ := s
  obtain ⟨hshape, hf, ho, hc, h₁, hu, hdes⟩ := h
  unfold TCPServer.closeLock
  dsimp only at *
  cases hshape with
  | closing ht hg =>
    have hsock : u.hasSocket = false := by rw [ht.socket, ht.final hp]; rfl
    refine ⟨.closeSub rfl hsock, ?_, ?_, hc, h₁, nofun, fun he => absurd (hd.symm.trans he) nofun⟩
    · simp [State.assert, State.moveTo, hf]
    · simpa [State.assert, State.moveTo, hp] using ho
  | listening ht hg =>
    have hguard := ht.guard.mpr (.inr (ht.closed.mp (ht.final hp)))
    exact absurd (hg.symm.trans hguard) nofun
  | closeSub hp' _ => exact absurd (hp.symm.trans hp') nofun
  | closed hp' _ => simp [hp] at hp'
  | new | calling | storing | bound | unused | refused => cases hp

theorem closeSub (h : Inv s) (hd : s.destroyed = false) (hp : s.task.place = .closeSub) :
    Inv (closeSub s) := by
  obtain ⟨st, binder, sub, bound, u, held, destroyed, failed, created, released, onClose,
    listened⟩ := s
  obtain ⟨hshape, hf, ho, hc, h₁, hu, hdes⟩ := h
  unfold TCPServer.closeSub
  dsimp only at *
  cases hshape with
  | closeSub hp' hs =>
    refine ⟨.closed (.inl rfl) hs, ?_, ?_, hc, h₁, nofun, fun he => absurd (hd.symm.trans he) nofun⟩
    · simp [State.assert, State.moveTo, hf]
    · simp [State.assert, State.moveTo, hp] at ho ⊢
      exact ho
  | listening ht hg | closing ht hg =>
    have := ht.place
    simp [hp] at this
  | closed hp' _ => simp [hp] at hp'
  | new | calling | storing | bound | unused | refused => cases hp

theorem closed (h : Inv s) (hd : s.destroyed = false) (hp : s.task.place = .onClose) :
    Inv (s.moveTo .over) := by
  obtain ⟨st, binder, sub, bound, u, held, destroyed, failed, created, released, onClose,
    listened⟩ := s
  obtain ⟨hshape, hf, ho, hc, h₁, hu, hdes⟩ := h
  unfold State.moveTo
  dsimp only at *
  cases hshape with
  | closed hp' hs =>
    refine ⟨.closed (.inr rfl) hs, hf, ?_, hc, h₁, nofun, fun he => absurd (hd.symm.trans he) nofun⟩
    simpa [hp] using ho
  | listening ht hg | closing ht hg =>
    have := ht.place
    simp [hp] at this
  | closeSub hp' _ => exact absurd (hp.symm.trans hp') nofun
  | new | calling | storing | bound | unused | refused => cases hp

/-- An allowed step keeps the invariant. -/
theorem step (h : Inv s) (ha : Allowed s a) (hs : TCPServer.step s a = some s') : Inv s' := by
  unfold TCPServer.step at hs
  rw [Option.ite_none_left_eq_some] at hs
  obtain ⟨hd, hs⟩ := hs
  rw [Bool.not_eq_true] at hd
  cases a with
  | bind =>
    simp only [Option.ite_none_right_eq_some] at hs
    exact h.bind hd hs.1.2 hs.2
  | bound ok =>
    simp only [Option.ite_none_right_eq_some, Option.some.injEq] at hs
    exact hs.2 ▸ h.bound hd hs.1 ha
  | bindEnd =>
    simp only [Option.ite_none_right_eq_some, Option.some.injEq] at hs
    exact hs.2 ▸ h.bindEnd hd hs.1
  | listen ok =>
    simp only [Option.ite_none_right_eq_some] at hs
    exact h.listen hd hs.1.2 hs.2
  | postClose =>
    simp only [Option.ite_none_right_eq_some, Option.some.injEq] at hs
    exact hs.2 ▸ h.postClose hd ha.1 ha.2
  | drop =>
    simp only [Option.ite_none_right_eq_some, Option.some.injEq] at hs
    exact hs.2 ▸ ⟨h.shape, h.failed, h.onClose, h.created, h.once, h.unbound, h.destroyed⟩
  | destroy =>
    simp only [Option.ite_none_right_eq_some, Option.some.injEq] at hs
    exact hs.2 ▸ h.destroy ha hs.1.2.1 hs.1.2.2
  | closeDo =>
    simp only [Option.ite_none_right_eq_some, Option.some.injEq] at hs
    exact hs.2 ▸ h.closeDo hd hs.1.1 hs.1.2
  | execute =>
    simp only [Option.ite_none_right_eq_some, Option.some.injEq] at hs
    exact hs.2 ▸ h.execute hd hs.1.1 hs.1.2
  | accept r =>
    simp only [Option.ite_none_right_eq_some, Option.some.injEq] at hs
    exact hs.2 ▸ h.accept hd hs.1 ha
  | accepted =>
    simp only [Option.ite_none_right_eq_some, Option.some.injEq] at hs
    exact hs.2 ▸ h.moveTo hd hs.1 (.inr rfl) (.inl rfl)
  | closeLock =>
    simp only [Option.ite_none_right_eq_some, Option.some.injEq] at hs
    exact hs.2 ▸ h.closeLock hd hs.1
  | closeSub =>
    simp only [Option.ite_none_right_eq_some, Option.some.injEq] at hs
    exact hs.2 ▸ h.closeSub hd hs.1
  | closed =>
    simp only [Option.ite_none_right_eq_some, Option.some.injEq] at hs
    exact hs.2 ▸ h.closed hd hs.1
  | sleep | wake | rouse =>
    simp only [Option.ite_none_right_eq_some, Option.some.injEq] at hs
    obtain ⟨⟨hp, hst⟩, rfl⟩ := hs
    have hplace : s.task.place ≠ .closeSub ∧ s.task.place ≠ .onClose ∧ s.task.place ≠ .over ∧
        s.task.place ≠ .unposted := by simp [hp]
    obtain ⟨hopen, -, -⟩ := h.opened hplace
    refine h.task ?_ hd hplace rfl rfl
    have hclosed := hopen.closed
    have hguard := hopen.guard
    have hsock := hopen.socket
    constructor <;> simp_all

end Inv

/-- The invariant holds in every allowed run. -/
theorem inv {s : State} (h : machine.ReachableBy Allowed s) : Inv s := by
  refine machine.invariant_by (P := Inv) ?_ (fun s a s' hi ha hs => hi.step ha hs) h
  rintro _ rfl
  exact .new

/-! ### The close -/

section Close

variable {s s' : State} {a : Action}

/-- A server in `Bind` which is not new any more was closed since. -/
theorem Inv.closed_of_calling (h : Inv s) (hb : s.binder = .calling) (hne : s.state ≠ .new) :
    s.state = .closed := by
  obtain ⟨st, binder, sub, bound, u, held, destroyed, failed, created, released, onClose,
    listened⟩ := s
  have hshape := h.shape
  dsimp only at *
  subst hb
  cases hshape with
  | calling => exact absurd rfl hne
  | refused => rfl

/-- Between the two stores of `Bind` the socket is of nobody. -/
theorem Inv.of_storing (h : Inv s) (hb : s.binder = .storing) :
    s.state = .bound ∧ s.boundSocket = false ∧ s.created = s.released + 1 := by
  obtain ⟨st, binder, sub, bound, u, held, destroyed, failed, created, released, onClose,
    listened⟩ := s
  have hshape := h.shape
  have hc := h.created
  dsimp only at *
  subst hb
  cases hshape
  exact ⟨rfl, rfl, by simpa [IOTask.new] using hc⟩

/-- Nothing allowed brings a closed server back. -/
theorem step_closed (ha : Allowed s a) (hs : step s a = some s') (hc : s.state = .closed) :
    s'.state = .closed := by
  unfold step at hs
  rw [Option.ite_none_left_eq_some] at hs
  replace hs := hs.2
  cases a with
  | bind => simp [bind, hc] at hs
  | bound ok =>
    simp only [Option.ite_none_right_eq_some, Option.some.injEq] at hs
    cases ok with
    | false => exact hs.2 ▸ hc
    | true => exact absurd (hc.symm.trans (ha rfl)) (by simp)
  | listen ok => simp [listen, hc] at hs
  | postClose =>
    simp only [Option.ite_none_right_eq_some, Option.some.injEq] at hs
    rw [← hs.2, postClose, if_neg (by simp [hc])]
    rfl
  | accept r =>
    simp only [Option.ite_none_right_eq_some, Option.some.injEq] at hs
    rw [← hs.2]
    cases r <;> exact hc
  | closeLock =>
    simp only [Option.ite_none_right_eq_some, Option.some.injEq] at hs
    rw [← hs.2]
    rfl
  | bindEnd | drop | destroy | sleep | wake | rouse | closeDo | execute | accepted | closeSub
  | closed =>
    simp only [Option.ite_none_right_eq_some, Option.some.injEq] at hs
    rw [← hs.2]
    exact hc

/-- A step which is not allowed fails an assertion, or brings a closed server back, or closes it
without its socket. -/
theorem Inv.broken_of_not_allowed (h : Inv s) (hs : TCPServer.step s a = some s')
    (ha : ¬ Allowed s a) :
    s'.failed = true ∨ s.state = .closed ∧ s'.state = .bound ∨
      s'.state = .closed ∧ s'.released ≠ s'.created := by
  unfold TCPServer.step at hs
  rw [Option.ite_none_left_eq_some] at hs
  replace hs := hs.2
  cases a with
  | bound ok =>
    simp only [Option.ite_none_right_eq_some, Option.some.injEq] at hs
    obtain ⟨hok, hne⟩ : ok = true ∧ s.state ≠ .new := by
      simpa only [Allowed, Classical.not_imp] using ha
    obtain ⟨hb, rfl⟩ := hs
    exact .inr (.inl ⟨h.closed_of_calling hb hne, by rw [hok]; rfl⟩)
  | postClose =>
    simp only [Option.ite_none_right_eq_some, Option.some.injEq] at hs
    rcases not_and_or.mp ha with hb | ha
    · obtain ⟨hst, hsub, hrel⟩ := h.of_storing (not_not.mp hb)
      refine .inr (.inr ?_)
      rw [← hs.2, TCPServer.postClose, if_neg (by simp [hst])]
      refine ⟨rfl, ?_⟩
      simp [State.assert, State.deleteBound, hsub, hrel]
    · obtain ⟨hsub, hne⟩ : s.sub = true ∧ s.state ≠ .listening := by
        simpa only [Classical.not_imp] using ha
      rw [← hs.2, TCPServer.postClose, if_neg hne]
      simp [State.assert, State.deleteBound, hsub]
  | destroy =>
    simp only [Option.ite_none_right_eq_some, Option.some.injEq] at hs
    have hb : s.state = .bound := not_not.mp ha
    rw [← hs.2]
    simp [TCPServer.destroy, State.assert, State.deleteBound, hb]
  | accept r =>
    simp only [Option.ite_none_right_eq_some, Option.some.injEq] at hs
    obtain rfl : r = .error := not_not.mp ha
    rw [← hs.2]
    simp [TCPServer.accept, State.assert, State.moveTo]
  | _ => exact absurd trivial ha

theorem Inv.onClose_le (h : Inv s) : s.onClose ≤ 1 := by
  rw [h.onClose]
  exact Bool.toNat_le _

/-- A closed server has called `OnClose` or is about to, if it was listening, and has released its
socket. -/
theorem Inv.of_closed (h : Inv s) (hc : s.state = .closed) :
    (s.listened = true → s.sub = false → s.onClose = 1) ∧ s.released = s.created := by
  obtain ⟨st, binder, sub, bound, u, held, destroyed, failed, created, released, onClose,
    listened⟩ := s
  obtain ⟨hshape, hf, ho, hcreated, h₁, hu, hdes⟩ := h
  dsimp only at *
  subst hc
  cases hshape with
  | unused | refused => exact ⟨nofun, by simpa [IOTask.new] using hcreated.symm⟩
  | closeSub hp hs => exact ⟨fun _ => nofun, by simpa [hs] using hcreated.symm⟩
  | closed hp hs => exact ⟨fun _ _ => by simpa [hp] using ho, by simpa [hs] using hcreated.symm⟩

/-! ### The end of a close -/

/-- The server is being closed, or its subscription is not forgotten yet. -/
def State.Ends (s : State) : Prop := s.sub = true ∧ s.state ≠ .listening

/-- How far the task of such a server is from `OnClose`. -/
def State.way (s : State) : ℕ :=
  match s.task.place with
  | .event => 5
  | .onAccept => 4
  | .queues => 3
  | .closeLock => 2
  | .closeSub => 1
  | _ => 0

/-- The steps of a worker. -/
def Action.ofWorker : Action → Bool
  | .execute | .accept _ | .accepted | .closeLock | .closeSub | .closed => true
  | _ => false

/-- A run of allowed steps without an end, in which the system may also stand still. The workers do
not stop in the task for ever, and the scheduler closes the task at last when it is again and again
in a queue after `PostClose`. -/
structure FairRun (f : ℕ → State) : Prop where
  run : ∀ i, f (i + 1) = f i ∨ ∃ a, Allowed (f i) a ∧ step (f i) a = some (f (i + 1))
  worker : ∀ i, (∀ j ≥ i, ∃ a, a.ofWorker ∧ (step (f j) a).isSome) →
    ∃ j ≥ i, ∃ a, a.ofWorker ∧ Allowed (f j) a ∧ step (f j) a = some (f (j + 1))
  scheduler : ∀ i, (∀ j ≥ i, ∃ k ≥ j, (step (f k) .closeDo).isSome) →
    ∃ j ≥ i, step (f j) .closeDo = some (f (j + 1))

/-- The task of a server which is being closed: open and not asleep, or about to call `OnClose`. -/
theorem Inv.ends (h : Inv s) (he : s.Ends) :
    s.destroyed = false ∧ s.binder = .outside ∧
    (s.state = .closing ∧ Open s.task ∧ s.task.closeGuard = true ∨
      s.state = .closed ∧ s.task.place = .closeSub) := by
  obtain ⟨st, binder, sub, bound, u, held, destroyed, failed, created, released, onClose,
    listened⟩ := s
  obtain ⟨hsub, hne⟩ := he
  have hshape := h.shape
  have hdes := h.destroyed
  dsimp only at *
  subst hsub
  cases hshape with
  | listening ht hg => exact absurd rfl hne
  | closing ht hg =>
    refine ⟨?_, rfl, .inl ⟨rfl, ht, hg⟩⟩
    by_contra hd
    have hplace := ht.place
    simp [(hdes (by simpa using hd)).2.2.2 rfl] at hplace
  | closeSub hp hs =>
    refine ⟨?_, rfl, .inr ⟨rfl, hp⟩⟩
    by_contra hd
    exact absurd (hp.symm.trans ((hdes (by simpa using hd)).2.2.2 rfl)) (by simp)

/-- A worker is in the task, or it may take it. -/
theorem Inv.worker_enabled (h : Inv s) (he : s.Ends) :
    ∃ a, a.ofWorker ∧ (TCPServer.step s a).isSome := by
  obtain ⟨hd, -, ⟨-, hopen, hguard⟩ | ⟨-, hp⟩⟩ := h.ends he
  · have hstatus := hopen.guard.mp hguard
    have hnot : s.task.status ≠ .pending ∧ s.task.status ≠ .waiting := by
      rcases hstatus with hst | hst <;> simp [hst]
    rcases hopen.place with hp | hp | hp | hp | hp
    · exact ⟨.execute, rfl, by simp [TCPServer.step, hd, hp, hnot]⟩
    · exact absurd (hopen.asleep.mp hp) hnot.2
    · exact ⟨.accept .started, rfl, by simp [TCPServer.step, hd, hp]⟩
    · exact ⟨.accepted, rfl, by simp [TCPServer.step, hd, hp]⟩
    · exact ⟨.closeLock, rfl, by simp [TCPServer.step, hd, hp]⟩
  · exact ⟨.closeSub, rfl, by simp [TCPServer.step, hd, hp]⟩

/-- What is left of the close after a step: a step which is not of a worker lets the task where it
is, and a worker comes closer to `OnClose` unless it takes a task which the scheduler has not closed
yet. -/
theorem Inv.ends_step (h : Inv s) (he : s.Ends) (ha : Allowed s a)
    (hs : TCPServer.step s a = some s') :
    (a.ofWorker = false → s'.Ends ∧ s'.task.place = s.task.place ∧
      (s.task.isClosed = true → s'.task.isClosed = true)) ∧
    (a.ofWorker = true → s'.task.isClosed = s.task.isClosed ∧
      (s.task.place = .closeSub ∧ s'.task.place = .onClose ∨
        s'.Ends ∧ s.task.place ≠ .closeSub ∧
          (s'.way < s.way ∨ s.task.place = .queues ∧ s.task.isClosed = false))) := by
  obtain ⟨hd, hb, hstage⟩ := h.ends he
  obtain ⟨hsub, hne⟩ := he
  have hplace : s.task.place ≠ .unposted ∧ s.task.place ≠ .over ∧ s.task.place ≠ .onClose ∧
      s.task.place ≠ .asleep ∧ s.state ≠ .new ∧
      (s.task.place = .queues → s.task.status ≠ .pending) := by
    rcases hstage with ⟨hst, hopen, hguard⟩ | ⟨hst, hp⟩
    · have hstatus := hopen.guard.mp hguard
      have hasleep := hopen.asleep
      have hp := hopen.place
      refine ⟨?_, ?_, ?_, ?_, by simp [hst], ?_⟩ <;> intro hno
      · simp [hno] at hp
      · simp [hno] at hp
      · simp [hno] at hp
      · simp [hasleep.mp hno] at hstatus
      · intro hpending
        simp [hpending] at hstatus
    · simp [hp, hst]
  obtain ⟨h₁, h₂, h₃, h₄, h₅, h₆⟩ := hplace
  unfold TCPServer.step at hs
  rw [if_neg (by simp [hd])] at hs
  cases a with
  | bind => simp [TCPServer.bind, h₅] at hs
  | bound ok | bindEnd => simp [hb] at hs
  | listen ok => simp [TCPServer.listen, hsub] at hs
  | postClose => exact absurd (ha.2 hsub) hne
  | destroy => simp [h₁, h₂] at hs
  | wake => simp [h₄] at hs
  | closed => simp [h₃] at hs
  | drop | closeDo =>
    simp only [Option.ite_none_right_eq_some, Option.some.injEq] at hs
    obtain ⟨-, rfl⟩ := hs
    exact ⟨fun _ => ⟨⟨hsub, hne⟩, rfl, by simp [TCPServer.closeDo]⟩, by simp [Action.ofWorker]⟩
  | sleep | rouse =>
    simp only [Option.ite_none_right_eq_some, Option.some.injEq] at hs
    exact absurd hs.1.2 (h₆ hs.1.1)
  | execute =>
    simp only [Option.ite_none_right_eq_some, Option.some.injEq] at hs
    obtain ⟨⟨hp, -⟩, rfl⟩ := hs
    refine ⟨by simp [Action.ofWorker], fun _ => ⟨rfl, .inr ⟨⟨hsub, hne⟩, by simp [hp], ?_⟩⟩⟩
    cases hc : s.task.isClosed with
    | false => exact .inr ⟨hp, rfl⟩
    | true => exact .inl (by simp [State.way, TCPServer.execute, hc, hp])
  | accept r =>
    simp only [Option.ite_none_right_eq_some, Option.some.injEq] at hs
    obtain ⟨hp, rfl⟩ := hs
    refine ⟨by simp [Action.ofWorker], fun _ => ?_⟩
    cases r <;>
      exact ⟨rfl, .inr ⟨⟨hsub, hne⟩, by simp [hp],
        .inl (by simp [State.way, TCPServer.accept, State.moveTo, hp])⟩⟩
  | accepted =>
    simp only [Option.ite_none_right_eq_some, Option.some.injEq] at hs
    obtain ⟨hp, rfl⟩ := hs
    exact ⟨by simp [Action.ofWorker], fun _ => ⟨rfl, .inr ⟨⟨hsub, hne⟩, by simp [hp],
      .inl (by simp [State.way, State.moveTo, hp])⟩⟩⟩
  | closeLock =>
    simp only [Option.ite_none_right_eq_some, Option.some.injEq] at hs
    obtain ⟨hp, rfl⟩ := hs
    have hne' : (TCPServer.closeLock s).state ≠ .listening := by
      simp [TCPServer.closeLock, State.moveTo]
    exact ⟨by simp [Action.ofWorker], fun _ => ⟨rfl, .inr ⟨⟨hsub, hne'⟩, by simp [hp],
      .inl (by simp [State.way, TCPServer.closeLock, State.moveTo, hp])⟩⟩⟩
  | closeSub =>
    simp only [Option.ite_none_right_eq_some, Option.some.injEq] at hs
    obtain ⟨hp, rfl⟩ := hs
    exact ⟨by simp [Action.ofWorker], fun _ => ⟨rfl, .inl ⟨hp, rfl⟩⟩⟩

/-- After the close `OnClose` was called. -/
theorem Inv.served (h : Inv s) (hp : s.task.place = .onClose ∨ s.task.place = .over) :
    s.state = .closed ∧ s.binder = .outside ∧ s.onClose = 1 := by
  obtain ⟨st, binder, sub, bound, u, held, destroyed, failed, created, released, onClose,
    listened⟩ := s
  obtain ⟨hshape, -, ho, -, -, -, -⟩ := h
  dsimp only at *
  cases hshape with
  | new | calling | storing | bound | unused | refused => simp [IOTask.new] at hp
  | listening ht hg | closing ht hg =>
    have hplace := ht.place
    rcases hp with hp | hp <;> simp [hp] at hplace
  | closeSub hp' hs => simp [hp'] at hp
  | closed hp' hs => exact ⟨rfl, rfl, by simpa [hp] using ho⟩

/-- A closed task is executed no more. -/
theorem Inv.served_step (h : Inv s) (hp : s.task.place = .onClose ∨ s.task.place = .over)
    (hs : TCPServer.step s a = some s') : s'.task.place = .onClose ∨ s'.task.place = .over := by
  obtain ⟨hc, hb, -⟩ := h.served hp
  unfold TCPServer.step at hs
  rw [Option.ite_none_left_eq_some] at hs
  replace hs := hs.2
  cases a with
  | bind => simp [TCPServer.bind, hc] at hs
  | bound ok | bindEnd => simp [hb] at hs
  | listen ok => simp [TCPServer.listen, hc] at hs
  | postClose =>
    simp only [Option.ite_none_right_eq_some, Option.some.injEq] at hs
    rw [← hs.2, TCPServer.postClose, if_neg (by simp [hc])]
    exact hp
  | drop | destroy =>
    simp only [Option.ite_none_right_eq_some, Option.some.injEq] at hs
    exact hs.2 ▸ hp
  | closed =>
    simp only [Option.ite_none_right_eq_some, Option.some.injEq] at hs
    exact hs.2 ▸ .inr rfl
  | sleep | wake | rouse | closeDo | execute | accept r | accepted | closeLock | closeSub =>
    rcases hp with hp | hp <;> simp [hp] at hs

namespace FairRun

variable {f : ℕ → State} {i : ℕ}

theorem reachable (h : FairRun f) (hr : machine.ReachableBy Allowed (f 0)) (i : ℕ) :
    machine.ReachableBy Allowed (f i) := by
  induction i with
  | zero => exact hr
  | succ i ih =>
    rcases h.run i with he | ⟨a, ha, hs⟩
    · exact he ▸ ih
    · exact ih.step ha hs

/-- While the task is not taken by a worker before the scheduler has closed it, the way to `OnClose`
gets shorter. -/
theorem nearer (h : FairRun f) (hr : machine.ReachableBy Allowed (f 0)) {P Q : State → Prop}
    (hends : ∀ s, P s → s.Ends ∧ (s.task.place = .queues → s.task.isClosed = true))
    (hnext : ∀ j, P (f j) → P (f (j + 1)) ∨ Q (f (j + 1))) (hP : P (f i)) :
    ∃ k ≥ i, Q (f k) := by
  have hinv (j : ℕ) : Inv (f j) := inv (h.reachable hr j)
  refine @Machine.eventually_of_rank _ _ _ Nat.lt_wfRel.wf f P Q State.way (fun j hj => ?_)
    (fun j hstay => ?_) i hP
  · refine (hnext j hj).symm.imp_right fun hj' => ⟨hj', ?_⟩
    rcases h.run j with hsame | ⟨a, ha, hs⟩
    · rw [hsame]
      exact .inl rfl
    · obtain ⟨hother, hworker⟩ := (hinv j).ends_step (hends _ hj).1 ha hs
      cases hw : a.ofWorker with
      | false =>
        refine .inl ?_
        rw [State.way, (hother hw).2.1, State.way]
      | true =>
        obtain ⟨-, ⟨hp, hp'⟩ | ⟨-, -, hlt | ⟨hp, hclosed⟩⟩⟩ := hworker hw
        · exact .inr (by simp [State.way, hp, hp', WellFoundedRelation.rel])
        · exact .inr hlt
        · exact absurd ((hends _ hj).2 hp) (by simp [hclosed])
  · obtain ⟨k, hk, a, hw, ha, hs⟩ := h.worker j fun k hk =>
      (hinv k).worker_enabled (hends _ (hstay k hk)).1
    obtain ⟨hkends, hqueues⟩ := hends _ (hstay k hk)
    refine ⟨k, hk, ?_⟩
    obtain ⟨-, ⟨hp, hp'⟩ | ⟨-, -, hlt | ⟨hp, hclosed⟩⟩⟩ :=
      ((hinv k).ends_step hkends ha hs).2 hw
    · simp [State.way, hp, hp']
    · exact Nat.ne_of_lt hlt
    · exact absurd (hqueues hp) (by simp [hclosed])

/-- The scheduler closes the task of a server which is being closed. -/
theorem task_closed (h : FairRun f) (hr : machine.ReachableBy Allowed (f 0)) (he : (f i).Ends) :
    ∃ k ≥ i, (f k).Ends ∧ ((f k).task.isClosed = true ∨ (f k).task.place = .closeSub) := by
  have hi (j : ℕ) : Inv (f j) := inv (h.reachable hr j)
  by_contra hno
  have hopen : ∀ j ≥ i, (f j).Ends ∧ (f j).task.isClosed = false ∧
      (f j).task.place ≠ .closeSub := by
    intro j hj
    have hends : (f j).Ends := by
      induction hj with
      | refl => exact he
      | @step j hj ih =>
        rcases h.run j with hsame | ⟨a, ha, hs⟩
        · exact hsame ▸ ih
        · obtain ⟨hother, hworker⟩ := (hi j).ends_step ih ha hs
          cases hw : a.ofWorker with
          | false => exact (hother hw).1
          | true =>
            rcases (hworker hw).2 with ⟨hp, -⟩ | ⟨hends, -⟩
            · exact absurd ⟨j, hj, ih, .inr hp⟩ hno
            · exact hends
    refine ⟨hends, ?_, fun hp => hno ⟨j, hj, hends, .inr hp⟩⟩
    cases hc : (f j).task.isClosed with
    | false => rfl
    | true => exact absurd ⟨j, hj, hends, .inl hc⟩ hno
  -- a worker puts the task back into a queue again and again
  have hqueues : ∀ j ≥ i, ∃ k ≥ j, (f k).task.place = .queues := by
    intro j hj
    by_contra hnq
    have hout : ∀ k ≥ j, (f k).Ends ∧ (f k).task.place ≠ .queues := fun k hk =>
      ⟨(hopen k (Nat.le_trans hj hk)).1, fun hp => hnq ⟨k, hk, hp⟩⟩
    obtain ⟨k, hk, hno⟩ := h.nearer hr (P := fun s => s.Ends ∧ s.task.place ≠ .queues)
      (Q := fun s => ¬ (s.Ends ∧ s.task.place ≠ .queues))
      (fun s hs => ⟨hs.1, fun hp => absurd hp hs.2⟩) (fun k _ => Classical.em _)
      (hout j (Nat.le_refl j))
    exact hno (hout k hk)
  obtain ⟨j, hj, hs⟩ := h.scheduler i fun j hj => by
    obtain ⟨k, hk, hp⟩ := hqueues j hj
    obtain ⟨hends, hclosed, hne⟩ := hopen k (Nat.le_trans hj hk)
    refine ⟨k, hk, ?_⟩
    obtain ⟨hd, -, ⟨-, ht, hg⟩ | ⟨-, hp'⟩⟩ := (hi k).ends hends
    · have hst : (f k).task.status = .closing :=
        (ht.guard.mp hg).resolve_right fun hst => by simp [ht.closed.mpr hst] at hclosed
      simp [TCPServer.step, hd, hp, hst]
    · exact absurd hp' hne
  have hclosed := (hopen (j + 1) (Nat.le_succ_of_le hj)).2.1
  unfold TCPServer.step at hs
  rw [Option.ite_none_left_eq_some] at hs
  simp only [Option.ite_none_right_eq_some, Option.some.injEq] at hs
  rw [← hs.2.2] at hclosed
  cases hclosed

/-- A server which is being closed calls `OnClose`. -/
theorem onClose_called (h : FairRun f) (hr : machine.ReachableBy Allowed (f 0)) (he : (f i).Ends) :
    ∃ k ≥ i, ∀ j ≥ k, (f j).state = .closed ∧ (f j).onClose = 1 := by
  have hinv (j : ℕ) : Inv (f j) := inv (h.reachable hr j)
  obtain ⟨k₀, hk₀, hlast⟩ := h.task_closed hr he
  have hnext (j : ℕ) (hj : (f j).Ends ∧
        ((f j).task.isClosed = true ∨ (f j).task.place = .closeSub)) :
      ((f (j + 1)).Ends ∧
        ((f (j + 1)).task.isClosed = true ∨ (f (j + 1)).task.place = .closeSub)) ∨
      ((f (j + 1)).task.place = .onClose ∨ (f (j + 1)).task.place = .over) := by
    rcases h.run j with hsame | ⟨a, ha, hs⟩
    · exact .inl (hsame.symm ▸ hj)
    · obtain ⟨hother, hworker⟩ := (hinv j).ends_step hj.1 ha hs
      cases hw : a.ofWorker with
      | false =>
        obtain ⟨hends, hplace, hclosed⟩ := hother hw
        exact .inl ⟨hends, hj.2.imp hclosed hplace.trans⟩
      | true =>
        obtain ⟨hclosed, ⟨-, hp⟩ | ⟨hends, hne, -⟩⟩ := hworker hw
        · exact .inr (.inl hp)
        · exact .inl ⟨hends, .inl (hclosed.trans (hj.2.resolve_right hne))⟩
  obtain ⟨k, hk, hp⟩ := h.nearer hr
    (P := fun s => s.Ends ∧ (s.task.isClosed = true ∨ s.task.place = .closeSub))
    (Q := fun s => s.task.place = .onClose ∨ s.task.place = .over)
    (fun s hs => ⟨hs.1, fun hp => hs.2.resolve_right (by simp [hp])⟩) hnext hlast
  have hafter (j : ℕ) (hj : k ≤ j) : (f j).task.place = .onClose ∨ (f j).task.place = .over := by
    induction hj with
    | refl => exact hp
    | @step j _ ih =>
      rcases h.run j with hsame | ⟨a, ha, hs⟩
      · exact hsame ▸ ih
      · exact (hinv j).served_step ih hs
  refine ⟨k, Nat.le_trans hk₀ hk, fun j hj => ?_⟩
  obtain ⟨hc, -, ho⟩ := (hinv j).served (hafter j hj)
  exact ⟨hc, ho⟩

end FairRun

/-- In a run of allowed steps no assertion fails, `OnClose` is called once for a server which was
listening and never otherwise, the bound socket is released once, and the state stays `CLOSED`; just
the steps which are not allowed break it. A server which is being closed calls `OnClose`. -/
theorem close_ok (h : machine.ReachableBy Allowed s) :
    s.failed = false ∧ s.onClose ≤ 1 ∧ (0 < s.onClose → s.listened = true) ∧
    (s.state = .closed → s.listened = true → s.sub = false → s.onClose = 1) ∧
    (s.destroyed = true → s.listened = true → s.onClose = 1) ∧
    s.created ≤ 1 ∧ s.released ≤ s.created ∧
    (s.state = .closed ∨ s.destroyed = true → s.released = s.created) ∧
    (∀ a s', machine.step s a = some s' → (Allowed s a ↔
      s'.failed = false ∧ (s.state = .closed → s'.state = .closed) ∧
        (s'.state = .closed → s'.released = s'.created))) ∧
    ∀ f, FairRun f → f 0 = s → s.sub = true ∧ s.state ≠ .listening →
      ∃ k, ∀ j ≥ k, (f j).state = .closed ∧ (f j).onClose = 1 := by
  have hi := inv h
  refine ⟨hi.failed, hi.onClose_le, fun hpos => ?_, fun hc => (hi.of_closed hc).1,
    fun hd hl => ?_, hi.once, ?_, ?_, fun a s' hs => ⟨fun ha => ?_, fun hok => ?_⟩,
    fun f hf h0 he => ?_⟩
  · by_contra hne
    have hzero := hi.onClose
    rw [Bool.not_eq_true] at hne
    rw [hne, Bool.false_and, Bool.toNat_false] at hzero
    omega
  · have hover := (hi.destroyed hd).2.2.2 hl
    simpa [hl, hover] using hi.onClose
  · rw [hi.created]
    omega
  · rintro (hc | hd)
    · exact (hi.of_closed hc).2
    · obtain ⟨hb, hsock, hout, -⟩ := hi.destroyed hd
      have hcreated := hi.created
      rw [hb, hsock, hout] at hcreated
      exact hcreated.symm
  · have hi' := hi.step ha hs
    exact ⟨hi'.failed, step_closed ha hs, fun hc => (hi'.of_closed hc).2⟩
  · by_contra ha
    rcases hi.broken_of_not_allowed hs ha with hf | ⟨hc, hb⟩ | ⟨hc, hne⟩
    · exact absurd hok.1 (by simp [hf])
    · exact absurd (hok.2.1 hc) (by simp [hb])
    · exact hne (hok.2.2 hc)
  · subst h0
    obtain ⟨k, -, hk⟩ := hf.onClose_called h he
    exact ⟨k, hk⟩

/-- A server which listens, is closed once, and is destroyed. -/
def closedOnce : List Action :=
  [.bind, .bound true, .bindEnd, .listen true, .postClose, .closeDo, .execute, .closeLock,
    .closeSub, .closed, .postClose, .drop, .destroy]

/-- The close in it by the scheduler and a worker, after which nothing happens. -/
def closeRun (i : ℕ) : State :=
  (machine.run .new (closedOnce.take (5 + min i 5))).getD .new

theorem closeRun_of_ge {i : ℕ} (h : 5 ≤ i) : closeRun i = closeRun 5 := by
  rw [closeRun, Nat.min_eq_right h]
  rfl

theorem closeRun_fair : FairRun closeRun where
  run i := by
    have hstep : ∀ i < 5, ∃ a ∈ closedOnce, Allowed (closeRun i) a ∧
        step (closeRun i) a = some (closeRun (i + 1)) := by
      decide +kernel
    rcases Nat.lt_or_ge i 5 with hi | hi
    · obtain ⟨a, -, ha, hs⟩ := hstep i hi
      exact .inr ⟨a, ha, hs⟩
    · exact .inl ((closeRun_of_ge (Nat.le_succ_of_le hi)).trans (closeRun_of_ge hi).symm)
  worker i hall := by
    obtain ⟨a, hw, hs⟩ := hall (i + 5) (Nat.le_add_right i 5)
    rw [closeRun_of_ge (Nat.le_add_left 5 i)] at hs
    have hp : (closeRun 5).task.place = .over := by decide +kernel
    cases a <;> simp [Action.ofWorker] at hw <;> simp [step, hp] at hs
  scheduler i hall := by
    obtain ⟨k, hk, hs⟩ := hall (i + 5) (Nat.le_add_right i 5)
    rw [closeRun_of_ge (Nat.le_trans (Nat.le_add_left 5 i) hk)] at hs
    have hp : (closeRun 5).task.place = .over := by decide +kernel
    simp [step, hp] at hs

theorem closedOnce_ok :
    (∃ s, machine.ReachableBy Allowed s ∧ s.destroyed = true ∧ s.failed = false ∧ s.onClose = 1 ∧
      s.released = 1) ∧
    (closeRun 0).state = .closing ∧ ∃ k, ∀ j ≥ k, (closeRun j).onClose = 1 := by
  have hrun : (machine.runBy Allowed .new closedOnce).map
      (fun s => (s.destroyed, s.listened, s.created)) = some (true, true, 1) := by
    decide +kernel
  simp only [Option.map_eq_some_iff, Prod.mk.injEq] at hrun
  obtain ⟨s, hs, hd, hl, hc⟩ := hrun
  have hr : machine.ReachableBy Allowed s := .of_runBy (.init rfl) hs
  obtain ⟨hf, -, -, -, honce, -, -, hrel, -⟩ := close_ok hr
  have hclose : machine.runBy Allowed .new (closedOnce.take 5) = some (closeRun 0) := by
    decide +kernel
  have hr₀ : machine.ReachableBy Allowed (closeRun 0) := .of_runBy (.init rfl) hclose
  obtain ⟨k, hk⟩ := (close_ok hr₀).2.2.2.2.2.2.2.2.2 closeRun closeRun_fair rfl (by decide +kernel)
  exact ⟨⟨s, hr, hd, hf, honce hd hl, (hrel (.inr hd)).trans hc⟩, by decide +kernel,
    k, fun j hj => (hk j hj).2⟩

/-- `PostClose` is called twice in a row. -/
theorem closedTwice_fails : ¬ ∀ s, machine.Reachable s → s.failed = false := by
  intro hall
  have hrun : (machine.run .new [.bind, .bound true, .bindEnd, .listen true, .postClose,
      .postClose]).map (fun s => s.failed) = some true := by
    decide +kernel
  obtain ⟨s, hs, hf⟩ := Option.map_eq_some_iff.mp hrun
  have := hall s (.of_run (.init rfl) hs)
  rw [hf] at this
  cases this

/-- `PostClose` is called between the check of `Bind` and its stores: the state leaves `CLOSED`. -/
theorem closedInBind_reopens : ∃ s s', machine.Reachable s ∧
    machine.step s (.bound true) = some s' ∧ s.state = .closed ∧ s'.state = .bound := by
  have hrun : (machine.run .new [.bind, .postClose]).map
      (fun s => (s.state, (machine.step s (.bound true)).map fun s' => s'.state)) =
        some (.closed, some .bound) := by
    decide +kernel
  simp only [Option.map_eq_some_iff, Prod.mk.injEq] at hrun
  obtain ⟨s, hs, hc, s', hstep, hb⟩ := hrun
  exact ⟨s, s', .of_run (.init rfl) hs, hstep, hc, hb⟩

end Close

end TCPServer

end Serverbox
