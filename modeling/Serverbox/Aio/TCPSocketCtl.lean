import Mathlib.Data.List.Nodup
import Serverbox.Lib.Machine

/-!
# The sockets of TCPSocketCtl

A control object of a TCP socket gets an OS socket with a connect request or with an attach one. A
connect without a socket creates one. The requests are put to the front object by the user and
merged to the one of the worker. The task takes the socket over when it is attached to the task, and
closes it when the task is closed. The control object closes the socket which it still has
when the connect fails or when the object is deleted.

The task attaches the socket in `ConnectStart`. With epoll and kqueue this is done when `connect`
has not failed, and with io_uring always. With IOCP `ConnectEx` needs an attached socket, and if it
fails at once the task has got the socket. `ConnectStart` which creates a socket looks at that,
but `DoConnect` does not do so with the socket of the user.

The handles of the sockets are never used again here, and the execution of the requests is one
step, because only the front object is changed in the meantime. Its results are those of the
system calls. The errors, the events of the task and the assertions which are not about
sockets are left out.

Source: `src/mg/aio/TCPSocketCtl.cpp`, `src/mg/aio/TCPSocketIFace.cpp`, `src/mg/aio/IOTask.cpp`,
`src/mg/aio/IOTask_IOCP.cpp`, `src/mg/aio/IOTask_epoll.cpp`, `src/mg/aio/IOTask_kqueue.cpp`,
`src/mg/aio/IOTask_iouring.cpp`.

## Main definitions

* `SocketCtl.machine`: a TCP socket with its control objects and its task.

## Main results

* `SocketCtl.closed_once`: each socket is closed once unless a `ConnectEx` with a given socket
  fails at once.
-/

namespace Serverbox

namespace SocketCtl

/-- The implementations of `IOCore`. -/
inductive Platform
  | epoll
  | kqueue
  | iocp
  | iouring
  deriving DecidableEq

/-- What `ConnectStart` with a socket does: it fails before the task has got the socket, or after
that, the connect is done, or is started. -/
inductive Start
  | failed
  | failedAttached
  | done
  | started
  deriving DecidableEq

/-- What `ConnectStart` of a platform can do. -/
def Start.on : Platform → Start → Bool
  | .epoll, r | .kqueue, r => r ≠ .failedAttached
  | .iocp, r => r ≠ .done
  | .iouring, r => r = .started

/-- The state of a connect after a call: its event is locked, or it has failed or is done. -/
inductive Outcome
  | pending
  | failed
  | done
  deriving DecidableEq

variable {S : Type*}

/-- `TCPSocketCtl`. The domain request and the handshake are there or not. -/
structure TCPSocketCtl (S : Type*) where
  hasShutdown : Bool
  hasConnect : Bool
  connectIsStarted : Bool
  connectDomain : Bool
  connectSocket : Option S
  hasAttach : Bool
  attachSocket : Option S
  hasHandshake : Bool
  handshake : Bool

/-- The constructor. -/
def TCPSocketCtl.new : TCPSocketCtl S :=
  ⟨false, false, false, false, none, false, none, false, false⟩

/-- `IsIdle`. -/
def TCPSocketCtl.isIdle (c : TCPSocketCtl S) : Bool :=
  !c.hasShutdown && !c.hasConnect && !c.hasAttach && !c.hasHandshake && !c.handshake

/-- The sockets which a control object has. -/
def TCPSocketCtl.sockets (c : TCPSocketCtl S) : List S :=
  c.connectSocket.toList ++ c.attachSocket.toList

/-- The sockets which are closed by the destructor. -/
def TCPSocketCtl.destroyed (c : TCPSocketCtl S) : List S :=
  (if c.hasConnect then c.connectSocket.toList else []) ++
    if c.hasAttach then c.attachSocket.toList else []

/-- `MergeFrom`. -/
def TCPSocketCtl.mergeFrom (c src : TCPSocketCtl S) : TCPSocketCtl S :=
  let c := if src.hasShutdown then { c with hasShutdown := true } else c
  let c :=
    if src.hasAttach then { c with hasAttach := true, attachSocket := src.attachSocket } else c
  if src.hasConnect then
    { c with
      hasConnect := true
      connectDomain := src.connectDomain
      connectSocket := src.connectSocket }
  else c

/-- The TCP socket: not posted or after its final execution, posted without a request, posted with a
request, and closed by the scheduler. -/
inductive Phase
  | new
  | empty
  | requested
  | closed
  deriving DecidableEq

/-- `TCPSocketIFace` with its control objects and the socket of its task. The lists are all
the sockets which were given to it or created, and all the closed ones. -/
structure State (S : Type*) where
  phase : Phase
  frontCtl : Option (TCPSocketCtl S)
  ctl : Option (TCPSocketCtl S)
  socket : Option S
  handed : List S
  closed : List S
  failed : Bool

/-- A new TCP socket. -/
def State.new : State S := ⟨.new, none, none, none, [], [], false⟩

/-- An assertion. -/
def State.assert (s : State S) (p : Prop) [Decidable p] : State S :=
  { s with failed := s.failed || !decide p }

/-- The front control object, which is created when there is none. -/
def State.front (s : State S) : TCPSocketCtl S := s.frontCtl.getD .new

/-- The control object of the worker, or a new one. -/
def State.current (s : State S) : TCPSocketCtl S := s.ctl.getD .new

/-- The sockets which are not closed. -/
def State.owned (s : State S) : List S := s.front.sockets ++ s.current.sockets ++ s.socket.toList

/-- `AddConnect`. -/
def addConnect (s : State S) (given : Option S) (isDomain : Bool) : State S :=
  let c := s.front
  let s := s.assert (c.hasConnect = false ∧ c.hasAttach = false ∧ c.connectSocket = none)
  { s with
    frontCtl := some { c with
      hasConnect := true
      connectSocket := given
      connectDomain := isDomain }
    handed := given.toList ++ s.handed
    phase := .requested }

/-- `AddAttach`. -/
def addAttach (s : State S) (x : S) : State S :=
  let c := s.front
  let s := s.assert (c.hasConnect = false ∧ c.hasAttach = false)
  { s with
    frontCtl := some { c with hasAttach := true, attachSocket := some x }
    handed := x :: s.handed
    phase := .requested }

/-- `AddShutdown` and `AddHandshake`. -/
def addOther (s : State S) (hasShutdown handshake : Bool) : State S :=
  let c := s.front
  { s with frontCtl := some { c with
      hasShutdown := c.hasShutdown || hasShutdown
      handshake := c.handshake || handshake } }

/-- The front control object is given to the worker. -/
def takeFront (s : State S) : State S :=
  match s.frontCtl, s.ctl with
  | none, _ => s
  | some src, none => { s with frontCtl := none, ctl := some src }
  | some src, some c =>
    let s := s.assert (src.hasAttach = true → c.hasAttach = false)
    let s := s.assert (src.hasConnect = true → c.hasConnect = false ∧ src.connectIsStarted = false)
    { s with frontCtl := none, ctl := some (c.mergeFrom src) }

/-- `DoShutdown`. -/
def doShutdown (s : State S) (c : TCPSocketCtl S) : State S :=
  if c.hasShutdown && !c.hasConnect then { s with ctl := some { c with hasShutdown := false } }
  else s

/-- `DoAttach`. -/
def doAttach (s : State S) (c : TCPSocketCtl S) : State S :=
  if c.hasAttach then
    let s := s.assert (c.hasConnect = false ∧ s.socket = none)
    { s with
      ctl := some { c with hasAttach := false, attachSocket := none, hasHandshake := true }
      socket := c.attachSocket }
  else s

/-- `PrivEndConnect`. -/
def endConnect (s : State S) (c : TCPSocketCtl S) : State S :=
  { s with
    ctl := some { c with
      connectDomain := false
      connectSocket := none
      connectIsStarted := false
      hasConnect := false }
    closed := c.connectSocket.toList ++ s.closed }

/-- The results of the calls in one execution of the requests: whether the connect is delayed,
the result of the domain request if there is one, the socket created by `SocketCreate`, the results
of `ConnectStart` and `ConnectUpdate`, and whether the handshake has ended. -/
structure Results (S : Type*) where
  isDelayed : Bool
  resolved : Option Bool
  created : Option S
  start : Start
  update : Outcome
  handshakeEnds : Bool
  deriving DecidableEq

/-- `ConnectStart` with a socket. -/
def connectStart (s : State S) (x : S) : Start → State S × Outcome
  | .failed => (s, .failed)
  | .failedAttached => ({ s with socket := some x }, .failed)
  | .done => ({ s with socket := some x }, .done)
  | .started => ({ s with socket := some x }, .pending)

/-- `ConnectStart` which creates a socket. -/
def connectStartHost (s : State S) (r : Results S) : State S × Outcome :=
  match r.created with
  | none => (s, .failed)
  | some x =>
    let (s, o) := connectStart { s with handed := x :: s.handed } x r.start
    if o = .failed ∧ s.socket.isNone then ({ s with closed := x :: s.closed }, o) else (s, o)

/-- The connect of `DoConnect` is started or updated. -/
def connectTask (s : State S) (c : TCPSocketCtl S) (r : Results S) : State S × Outcome :=
  if s.socket.isSome then (s, r.update)
  else
    match c.connectSocket with
    | some x => connectStart s x r.start
    | none => connectStartHost s r

/-- The end of `DoConnect`. -/
def connectEnd (s : State S) (c : TCPSocketCtl S) : Outcome → State S
  | .pending => { s with ctl := some { c with connectSocket := none } }
  | .failed => endConnect s c
  | .done => endConnect s { c with connectSocket := none, hasHandshake := true }

/-- `DoConnect`. -/
def doConnect (s : State S) (c : TCPSocketCtl S) (r : Results S) : State S :=
  if c.hasConnect then
    let s := s.assert (c.hasAttach = false)
    let c := { c with connectIsStarted := true }
    if r.isDelayed then { s with ctl := some c }
    else
      match if c.connectDomain then r.resolved else some true with
      | none => { s with ctl := some c }
      | some false => endConnect s { c with connectDomain := false }
      | some true =>
        let c := { c with connectDomain := false }
        let (s, o) := connectTask s c r
        connectEnd s c o
  else s

/-- `DoHandshake`. -/
def doHandshake (s : State S) (c : TCPSocketCtl S) (r : Results S) : State S :=
  if c.hasHandshake && (!c.handshake || r.handshakeEnds) then
    { s with ctl := some { c with hasHandshake := false, handshake := false } }
  else s

/-- The last step of `PrivCtl`. -/
def dropIdle (s : State S) (c : TCPSocketCtl S) : State S :=
  if c.isIdle then { s with ctl := none, closed := c.destroyed ++ s.closed } else s

/-- A step of `PrivCtl` with the control object of the worker, if there is one. -/
def withCtl (f : State S → TCPSocketCtl S → State S) (s : State S) : State S :=
  match s.ctl with
  | none => s
  | some c => f s c

/-- `PrivCtl`. -/
def privCtl (s : State S) (r : Results S) : State S :=
  let s := takeFront s
  let s := withCtl doShutdown s
  let s := withCtl doAttach s
  let s := withCtl (doConnect · · r) s
  let s := withCtl (doHandshake · · r) s
  withCtl dropIdle s

/-- `PrivCloseDo` of the task. -/
def closeDo (s : State S) : State S :=
  { s with phase := .closed, closed := s.socket.toList ++ s.closed, socket := none }

/-- The final execution deletes the control objects. -/
def final (s : State S) : State S :=
  { s with
    phase := .new
    closed := s.front.destroyed ++ s.current.destroyed ++ s.closed
    frontCtl := none
    ctl := none }

/-- What can happen: `PostConnect` and `Connect`, `PostWrap`, `PostTask`, `PostShutdown` and
`ProtPostHandshake`, an execution of the requests, the close of the task, and the final
execution. -/
inductive Action (S : Type*)
  | connect (given : Option S) (isDomain : Bool)
  | attach (x : S)
  | postTask
  | other (hasShutdown handshake : Bool)
  | privCtl (r : Results S)
  | closeDo
  | final
  deriving DecidableEq

variable [DecidableEq S]

/-- One step. A socket which is given or created is a new one. -/
def step (p : Platform) (s : State S) : Action S → Option (State S)
  | .connect given isDomain =>
    if (s.phase = .new ∨ s.phase = .empty) ∧ ∀ x ∈ given, x ∉ s.handed then
      some (addConnect s given isDomain)
    else none
  | .attach x => if s.phase = .new ∧ x ∉ s.handed then some (addAttach s x) else none
  | .postTask => if s.phase = .new then some { s with phase := .empty } else none
  | .other hasShutdown handshake => some (addOther s hasShutdown handshake)
  | .privCtl r =>
    if (s.phase = .empty ∨ s.phase = .requested) ∧ r.start.on p = true ∧
        ∀ x ∈ r.created, x ∉ s.handed then
      some (privCtl s r)
    else none
  | .closeDo => if s.phase = .empty ∨ s.phase = .requested then some (closeDo s) else none
  | .final => if s.phase = .closed then some (final s) else none

/-- A TCP socket from its construction on. -/
def machine (p : Platform) : Machine (State S) (Action S) where
  init s := s = .new
  step := step p

/-- No `ConnectEx` with a socket of the user fails at once. -/
def Allowed (s : State S) : Action S → Prop
  | .privCtl r =>
    r.start = .failedAttached → s.front.connectSocket = none ∧ s.current.connectSocket = none
  | _ => True

instance (s : State S) (a : Action S) : Decidable (Allowed s a) := by
  cases a <;> unfold Allowed <;> infer_instance

/-! ### The invariant -/

/-- The number of the requests which bring a socket. -/
def TCPSocketCtl.requests (c : TCPSocketCtl S) : ℕ := c.hasConnect.toNat + c.hasAttach.toNat

/-- A control object has sockets only with requests. -/
structure TCPSocketCtl.Ok (c : TCPSocketCtl S) : Prop where
  connect : c.hasConnect = false → c.connectSocket = none
  attach : c.hasAttach = false → c.attachSocket = none

/-- The invariant. -/
structure Inv (s : State S) : Prop where
  count : ∀ x, s.closed.count x + s.owned.count x = s.handed.count x
  once : ∀ x, s.handed.count x ≤ 1
  front : s.front.Ok
  current : s.current.Ok
  started : s.front.connectIsStarted = false
  requests : s.front.requests + s.current.requests ≤ 1
  socket : s.socket ≠ none →
    s.front.requests = 0 ∧ s.current.hasAttach = false ∧ s.current.connectSocket = none
  idle : s.phase = .new ∨ s.phase = .empty →
    s.front.requests = 0 ∧ s.current.requests = 0 ∧ s.socket = none
  closed : s.phase = .closed → s.socket = none
  failed : s.failed = false

omit [DecidableEq S] in
/-- An assertion which holds does nothing. -/
theorem State.assert_of {s : State S} {p : Prop} [Decidable p] (hp : p) : s.assert p = s := by
  rw [State.assert, decide_eq_true hp, Bool.not_true, Bool.or_false]

namespace TCPSocketCtl

omit [DecidableEq S]

variable {c : TCPSocketCtl S}

theorem requests_eq_zero : c.requests = 0 ↔ c.hasConnect = false ∧ c.hasAttach = false := by
  rw [requests, Nat.add_eq_zero_iff, Bool.toNat_eq_zero, Bool.toNat_eq_zero]

theorem ok_new : (new : TCPSocketCtl S).Ok := ⟨fun _ => rfl, fun _ => rfl⟩

/-- The destructor closes all the sockets. -/
theorem Ok.destroyed (h : c.Ok) : c.destroyed = c.sockets := by
  rw [TCPSocketCtl.destroyed, sockets]
  cases hc : c.hasConnect with
  | false => cases ha : c.hasAttach <;> simp [h.connect hc, h.attach, ha]
  | true => cases ha : c.hasAttach <;> simp [h.attach, ha]

/-- A control object without requests has no sockets. -/
theorem Ok.sockets_eq_nil (h : c.Ok) (hz : c.requests = 0) : c.sockets = [] := by
  obtain ⟨hc, ha⟩ := requests_eq_zero.mp hz
  rw [sockets, h.connect hc, h.attach ha]
  rfl

end TCPSocketCtl

namespace Inv

variable {s s' : State S} {c d : TCPSocketCtl S}

theorem new : Inv (.new : State S) where
  count _ := rfl
  once _ := Nat.zero_le 1
  front := TCPSocketCtl.ok_new
  current := TCPSocketCtl.ok_new
  started := rfl
  requests := Nat.zero_le 1
  socket h := absurd rfl h
  idle _ := ⟨rfl, rfl, rfl⟩
  closed _ := rfl
  failed := rfl

omit [DecidableEq S] in
theorem current_of (hc : s.ctl = some c) : s.current = c := by
  rw [State.current, hc]
  rfl

/-- Where the sockets are. -/
theorem count_owned (s : State S) (x : S) : s.owned.count x = s.front.connectSocket.toList.count x +
    s.front.attachSocket.toList.count x + s.current.connectSocket.toList.count x +
      s.current.attachSocket.toList.count x + s.socket.toList.count x := by
  simp only [State.owned, TCPSocketCtl.sockets, List.count_append]
  omega

/-- The worker changes its control object and the socket of the task. -/
theorem update (h : Inv s) (hphase : s'.phase = s.phase) (hp : s.phase ≠ .closed)
    (hfront : s'.front = s.front) (hfailed : s'.failed = s.failed) (hc : s'.current.Ok)
    (hreq : s'.current.requests ≤ s.current.requests)
    (hcount : ∀ x, s'.closed.count x + s'.owned.count x = s'.handed.count x)
    (honce : ∀ x, s'.handed.count x ≤ 1)
    (hsocket : s'.socket ≠ none → (s.socket ≠ none ∨ s.current.requests ≠ 0) ∧
      s'.current.hasAttach = false ∧ s'.current.connectSocket = none) : Inv s' := by
  have hreqs := h.requests
  refine ⟨hcount, honce, hfront ▸ h.front, hc, hfront ▸ h.started, ?_, fun hs => ?_, fun hi => ?_,
    fun hcl => absurd (hphase ▸ hcl) hp, hfailed ▸ h.failed⟩
  · rw [hfront]
    omega
  · obtain ⟨hold, ha, hn⟩ := hsocket hs
    refine ⟨?_, ha, hn⟩
    rw [hfront]
    rcases hold with hold | hold
    · exact (h.socket hold).1
    · omega
  · rw [hphase] at hi
    obtain ⟨hf, hz, hn⟩ := h.idle hi
    refine ⟨hfront ▸ hf, by omega, ?_⟩
    by_contra hs
    rcases (hsocket hs).1 with hold | hold
    · exact hold hn
    · exact hold hz

/-- The control object changes, but not its sockets. -/
theorem setCtl (h : Inv s) (hp : s.phase ≠ .closed) (hc : s.ctl = some c)
    (hcon : d.hasConnect = c.hasConnect) (hatt : d.hasAttach = c.hasAttach)
    (hcs : d.connectSocket = c.connectSocket) (has : d.attachSocket = c.attachSocket) :
    Inv { s with ctl := some d } := by
  have hcur := current_of hc
  have hok := h.current
  rw [hcur] at hok
  refine h.update rfl hp rfl rfl ⟨fun hn => ?_, fun hn => ?_⟩ ?_ (fun x => ?_) h.once fun hs => ?_
  · exact hcs.trans (hok.connect (hcon ▸ hn))
  · exact has.trans (hok.attach (hatt ▸ hn))
  · rw [hcur]
    change d.hasConnect.toNat + d.hasAttach.toNat ≤ _
    rw [hcon, hatt]
    exact Nat.le_refl _
  · have hx := h.count x
    rw [count_owned, hcur, ← hcs, ← has] at hx
    rw [count_owned]
    exact hx
  · obtain ⟨-, ha, hn⟩ := h.socket hs
    rw [hcur] at ha hn
    exact ⟨.inl hs, hatt.trans ha, hcs.trans hn⟩

/-- A step of the worker with its control object, if there is one. -/
theorem withCtl {f : State S → TCPSocketCtl S → State S} (h : Inv s)
    (hf : ∀ c, s.ctl = some c → Inv (f s c)) : Inv (SocketCtl.withCtl f s) := by
  rw [SocketCtl.withCtl]
  split
  · exact h
  · rename_i c hc
    exact hf c hc

theorem doShutdown (h : Inv s) (hp : s.phase ≠ .closed) (hc : s.ctl = some c) :
    Inv (SocketCtl.doShutdown s c) := by
  rw [SocketCtl.doShutdown]
  split
  · exact h.setCtl hp hc rfl rfl rfl rfl
  · exact h

theorem doHandshake (h : Inv s) (hp : s.phase ≠ .closed) (hc : s.ctl = some c) (r : Results S) :
    Inv (SocketCtl.doHandshake s c r) := by
  rw [SocketCtl.doHandshake]
  split
  · exact h.setCtl hp hc rfl rfl rfl rfl
  · exact h

theorem dropIdle (h : Inv s) (hp : s.phase ≠ .closed) (hc : s.ctl = some c) :
    Inv (SocketCtl.dropIdle s c) := by
  rw [SocketCtl.dropIdle]
  split
  · rename_i hidle
    simp only [TCPSocketCtl.isIdle, Bool.and_eq_true, Bool.not_eq_true'] at hidle
    obtain ⟨⟨⟨⟨-, hcon⟩, hatt⟩, -⟩, -⟩ := hidle
    have hcur := current_of hc
    have hok := h.current
    rw [hcur] at hok
    have hcs := hok.connect hcon
    have has := hok.attach hatt
    refine h.update rfl hp rfl rfl TCPSocketCtl.ok_new (Nat.zero_le _) (fun x => ?_) h.once
      fun hs => ?_
    · have hx := h.count x
      rw [count_owned, hcur, hcs, has] at hx
      rw [count_owned, hok.destroyed, TCPSocketCtl.sockets, hcs, has]
      exact hx
    · exact ⟨.inl hs, rfl, rfl⟩
  · exact h

/-- A control object with a connect has no attach. -/
theorem not_attach (h : Inv s) (hc : s.ctl = some c) (hcon : c.hasConnect = true) :
    c.hasAttach = false := by
  have hreq := h.requests
  rw [current_of hc, TCPSocketCtl.requests, TCPSocketCtl.requests, hcon, Bool.toNat_true] at hreq
  rw [← Bool.toNat_eq_zero]
  omega

/-- A control object with an attach has no connect. -/
theorem not_connect (h : Inv s) (hc : s.ctl = some c) (hatt : c.hasAttach = true) :
    c.hasConnect = false := by
  have hreq := h.requests
  rw [current_of hc, TCPSocketCtl.requests, TCPSocketCtl.requests, hatt, Bool.toNat_true] at hreq
  rw [← Bool.toNat_eq_zero]
  omega

theorem doAttach (h : Inv s) (hp : s.phase ≠ .closed) (hc : s.ctl = some c) :
    Inv (SocketCtl.doAttach s c) := by
  rw [SocketCtl.doAttach]
  split
  · rename_i hatt
    have hcur := current_of hc
    have hok := h.current
    rw [hcur] at hok
    have hcon := h.not_connect hc hatt
    have hnone : s.socket = none := by
      by_contra hs
      have ha := (h.socket hs).2.1
      rw [hcur, hatt] at ha
      cases ha
    have hcs := hok.connect hcon
    dsimp only
    rw [State.assert_of ⟨hcon, hnone⟩]
    refine h.update rfl hp rfl rfl ⟨fun _ => hcs, fun _ => rfl⟩ ?_ (fun x => ?_) h.once fun hs => ?_
    · rw [hcur]
      exact Nat.add_le_add_left (Nat.zero_le _) _
    · have hx := h.count x
      rw [count_owned, hcur, hnone] at hx
      rw [count_owned]
      change s.closed.count x + (s.front.connectSocket.toList.count x +
        s.front.attachSocket.toList.count x + c.connectSocket.toList.count x +
          ([] : List S).count x + c.attachSocket.toList.count x) = _
      simp only [Option.toList_none, List.count_nil] at hx ⊢
      omega
    · refine ⟨.inr ?_, rfl, hcs⟩
      rw [hcur, TCPSocketCtl.requests, hatt]
      simp
  · exact h

/-- The connect ends, and its socket is closed if the control object still has it. -/
theorem endConnect (h : Inv s) (hp : s.phase ≠ .closed) (hc : s.ctl = some c)
    (hatt : d.hasAttach = c.hasAttach) (hcs : d.connectSocket = c.connectSocket)
    (has : d.attachSocket = c.attachSocket) : Inv (SocketCtl.endConnect s d) := by
  have hcur := current_of hc
  have hok := h.current
  rw [hcur] at hok
  refine h.update rfl hp rfl rfl ⟨fun _ => rfl, fun hn => ?_⟩ ?_ (fun x => ?_) h.once fun hs => ?_
  · exact has.trans (hok.attach (hatt ▸ hn))
  · rw [hcur]
    change false.toNat + d.hasAttach.toNat ≤ c.hasConnect.toNat + c.hasAttach.toNat
    rw [hatt]
    exact Nat.add_le_add_right (Nat.zero_le _) _
  · have hx := h.count x
    rw [count_owned, hcur, ← hcs, ← has] at hx
    rw [count_owned]
    change (d.connectSocket.toList ++ s.closed).count x + (s.front.connectSocket.toList.count x +
      s.front.attachSocket.toList.count x + ([] : List S).count x + d.attachSocket.toList.count x +
        s.socket.toList.count x) = s.handed.count x
    rw [List.count_append, List.count_nil]
    omega
  · obtain ⟨-, ha, -⟩ := h.socket hs
    rw [hcur] at ha
    exact ⟨.inl hs, hatt.trans ha, rfl⟩

/-- A new socket is handed once. -/
theorem count_fresh {l : List S} {x : S} (hl : ∀ y, l.count y ≤ 1) (hx : x ∉ l) (y : S) :
    (x :: l).count y ≤ 1 := by
  by_cases hxy : x = y
  · have hzero := List.count_eq_zero_of_not_mem hx
    rw [← hxy, List.count_cons_self]
    omega
  · rw [List.count_cons_of_ne hxy]
    exact hl y

/-- The control object of a connect after its start or update. -/
def taken (c : TCPSocketCtl S) : Outcome → TCPSocketCtl S
  | .failed => c
  | _ => { c with connectSocket := none }

theorem connectEnd {o : Outcome} (hp : s.phase ≠ .closed)
    (h : Inv { s with ctl := some (taken c o) }) : Inv (SocketCtl.connectEnd s c o) := by
  cases o with
  | pending => exact h
  | failed => exact h.endConnect (d := c) hp rfl rfl rfl rfl
  | done =>
    exact h.endConnect (d := { c with connectSocket := none, hasHandshake := true }) hp rfl rfl rfl
      rfl

/-- The task has got a socket from the control object or a created one. -/
theorem taskHas (h : Inv s) (hp : s.phase ≠ .closed) (hc : s.ctl = some c)
    (hcon : c.hasConnect = true) (hnone : s.socket = none) {x : S}
    (hx : c.connectSocket = some x ∧ s'.handed = s.handed ∨
      c.connectSocket = none ∧ s'.handed = x :: s.handed ∧ x ∉ s.handed)
    (hphase : s'.phase = s.phase) (hfront : s'.frontCtl = s.frontCtl)
    (hfailed : s'.failed = s.failed) (hclosed : s'.closed = s.closed) (hs' : s'.socket = some x)
    (hc' : s'.ctl = some { c with connectSocket := none }) : Inv s' := by
  have hcur := current_of hc
  have hcur' := current_of hc'
  have hok := h.current
  have hatt := h.not_attach hc hcon
  rw [hcur] at hok
  have hfront' : s'.front = s.front := by rw [State.front, hfront, State.front]
  refine h.update hphase hp hfront' hfailed ?_ ?_ (fun y => ?_) (fun y => ?_) fun _ => ⟨.inr ?_, ?_⟩
  · rw [hcur']
    exact ⟨fun _ => rfl, hok.attach⟩
  · rw [hcur, hcur']
    exact Nat.le_refl _
  · have hy := h.count y
    rw [count_owned, hcur, hnone] at hy
    rw [count_owned, hcur', hfront', hs', hclosed]
    simp only [Option.toList_none, Option.toList_some, List.count_nil, List.count_singleton] at hy ⊢
    rcases hx with ⟨hx, hh⟩ | ⟨hx, hh, -⟩
    · rw [hx] at hy
      rw [hh]
      simp only [Option.toList_some, List.count_singleton] at hy
      omega
    · rw [hx] at hy
      rw [hh, List.count_cons]
      simp only [Option.toList_none, List.count_nil] at hy
      omega
  · rcases hx with ⟨-, hh⟩ | ⟨-, hh, hfresh⟩
    · rw [hh]
      exact h.once y
    · rw [hh]
      exact count_fresh h.once hfresh y
  · rw [hcur, TCPSocketCtl.requests, hcon]
    simp
  · rw [hcur']
    exact ⟨hatt, rfl⟩

/-- The connect is started or updated. -/
theorem connectTask (h : Inv { s with ctl := some c }) (hp : s.phase ≠ .closed)
    (hcon : c.hasConnect = true) (r : Results S) (hcreated : ∀ x ∈ r.created, x ∉ s.handed)
    (hok : r.start = .failedAttached → c.connectSocket = none) :
    Inv { (SocketCtl.connectTask s c r).1 with
      ctl := some (taken c (SocketCtl.connectTask s c r).2) } ∧
    (SocketCtl.connectTask s c r).1.phase = s.phase := by
  rw [SocketCtl.connectTask]
  split
  · -- the connect was started before, and the task has the socket
    rename_i hsome
    refine ⟨?_, rfl⟩
    have hs : s.socket ≠ none := by
      intro hn
      rw [hn] at hsome
      cases hsome
    have hcs : c.connectSocket = none := (h.socket hs).2.2
    have htaken : taken c r.update = c := by
      cases hu : r.update with
      | failed => rfl
      | pending | done =>
        change { c with connectSocket := none } = c
        rw [← hcs]
    rw [htaken]
    exact h
  · rename_i hnone
    rw [Option.not_isSome_iff_eq_none] at hnone
    split
    · rename_i x hx
      cases hst : r.start with
      | failed => exact ⟨h, rfl⟩
      | failedAttached => exact absurd (hx.symm.trans (hok hst)) nofun
      | done | started =>
        exact ⟨h.taskHas (c := c) hp rfl hcon hnone (.inl ⟨hx, rfl⟩) rfl rfl rfl rfl rfl rfl, rfl⟩
    · rename_i hcs
      rw [connectStartHost]
      split
      · exact ⟨h, rfl⟩
      · rename_i x hx
        have hfresh := hcreated x hx
        have htaken : { c with connectSocket := none } = c := by rw [← hcs]
        cases hst : r.start with
        | failed =>
          have hif : Outcome.failed = .failed ∧ s.socket.isNone = true :=
            ⟨rfl, by rw [hnone]; rfl⟩
          dsimp only [connectStart]
          rw [if_pos hif]
          refine ⟨h.update rfl hp rfl rfl ?_ ?_ (fun y => ?_) (fun y => ?_) fun hs => ?_, rfl⟩
          · exact h.current
          · exact Nat.le_refl _
          · have hy := h.count y
            rw [count_owned] at hy
            change s.closed.count y + (s.front.connectSocket.toList.count y +
              s.front.attachSocket.toList.count y + c.connectSocket.toList.count y +
                c.attachSocket.toList.count y + s.socket.toList.count y) = s.handed.count y at hy
            rw [count_owned]
            change (x :: s.closed).count y + (s.front.connectSocket.toList.count y +
              s.front.attachSocket.toList.count y + c.connectSocket.toList.count y +
                c.attachSocket.toList.count y + s.socket.toList.count y) = (x :: s.handed).count y
            rw [List.count_cons, List.count_cons]
            omega
          · exact count_fresh h.once hfresh y
          · exact absurd hnone hs
        | failedAttached | done | started =>
          dsimp only [connectStart]
          rw [if_neg (by simp)]
          refine ⟨h.taskHas (c := c) hp rfl hcon hnone (.inr ⟨hcs, rfl, hfresh⟩) rfl rfl rfl rfl
            rfl ?_, rfl⟩
          first | exact congrArg some htaken.symm | rfl

theorem doConnect (h : Inv s) (hp : s.phase ≠ .closed) (hc : s.ctl = some c) (r : Results S)
    (hcreated : ∀ x ∈ r.created, x ∉ s.handed)
    (hok : r.start = .failedAttached → c.connectSocket = none) :
    Inv (SocketCtl.doConnect s c r) := by
  rw [SocketCtl.doConnect]
  split
  · rename_i hcon
    have hatt := h.not_attach hc hcon
    dsimp only
    rw [State.assert_of hatt]
    split
    · exact h.setCtl hp hc rfl rfl rfl rfl
    · split
      · exact h.setCtl hp hc rfl rfl rfl rfl
      · exact h.endConnect hp hc rfl rfl rfl
      · have hset := h.setCtl (d := { c with connectIsStarted := true, connectDomain := false })
          hp hc rfl rfl rfl rfl
        obtain ⟨hinv, hphase⟩ := hset.connectTask hp hcon r hcreated hok
        exact connectEnd (by rw [hphase]; exact hp) hinv
  · exact h

omit [DecidableEq S] in
theorem toNat_or {a b : Bool} (h : a.toNat + b.toNat ≤ 1) : (a || b).toNat = a.toNat + b.toNat := by
  revert h
  cases a <;> cases b <;> decide

/-- One of two requests brings its socket. -/
theorem count_ite {a b : Bool} {o o' : Option S} (x : S) (h : a.toNat + b.toNat ≤ 1)
    (ho : a = false → o = none) (ho' : b = false → o' = none) :
    (if a then o else o').toList.count x = o.toList.count x + o'.toList.count x := by
  cases a with
  | false =>
    rw [ho rfl, Option.toList_none, List.count_nil, Nat.zero_add]
    rfl
  | true =>
    have hb : b = false := by
      rw [Bool.toNat_true] at h
      rw [← Bool.toNat_eq_zero]
      omega
    rw [ho' hb]
    rfl

/-- The requests of the front control object are taken over. -/
theorem take (h : Inv s) (hp : s.phase ≠ .closed)
    (hcon : c.hasConnect = (s.front.hasConnect || s.current.hasConnect))
    (hatt : c.hasAttach = (s.front.hasAttach || s.current.hasAttach))
    (hcs : c.connectSocket =
      if s.front.hasConnect then s.front.connectSocket else s.current.connectSocket)
    (has : c.attachSocket =
      if s.front.hasAttach then s.front.attachSocket else s.current.attachSocket) :
    Inv { s with frontCtl := none, ctl := some c } := by
  have hreq := h.requests
  simp only [TCPSocketCtl.requests] at hreq
  have hsum : c.requests = s.front.requests + s.current.requests := by
    simp only [TCPSocketCtl.requests]
    rw [hcon, hatt, toNat_or (by omega), toNat_or (by omega)]
    omega
  refine ⟨fun x => ?_, h.once, TCPSocketCtl.ok_new, ⟨fun hn => ?_, fun hn => ?_⟩, rfl, ?_,
    fun hs => ?_, fun hi => ?_, fun hc => absurd hc hp, h.failed⟩
  · have hx := h.count x
    rw [count_owned] at hx
    rw [count_owned]
    change s.closed.count x + (([] : List S).count x + ([] : List S).count x +
      c.connectSocket.toList.count x + c.attachSocket.toList.count x + s.socket.toList.count x) =
        s.handed.count x
    have hconnect : c.connectSocket.toList.count x = s.front.connectSocket.toList.count x +
        s.current.connectSocket.toList.count x := by
      rw [hcs]
      exact count_ite x (by omega) h.front.connect h.current.connect
    have hattach : c.attachSocket.toList.count x = s.front.attachSocket.toList.count x +
        s.current.attachSocket.toList.count x := by
      rw [has]
      exact count_ite x (by omega) h.front.attach h.current.attach
    rw [List.count_nil]
    omega
  · rw [current_of rfl] at hn ⊢
    rw [hcon, Bool.or_eq_false_iff] at hn
    rw [hcs, hn.1]
    exact h.current.connect hn.2
  · rw [current_of rfl] at hn ⊢
    rw [hatt, Bool.or_eq_false_iff] at hn
    rw [has, hn.1]
    exact h.current.attach hn.2
  · change 0 + c.requests ≤ 1
    rw [Nat.zero_add, hsum]
    exact h.requests
  · obtain ⟨hf, ha, hn⟩ := h.socket hs
    obtain ⟨hf1, hf2⟩ := TCPSocketCtl.requests_eq_zero.mp hf
    refine ⟨rfl, ?_, ?_⟩
    · change c.hasAttach = false
      rw [hatt, hf2, ha]
      rfl
    · change c.connectSocket = none
      rw [hcs, hf1]
      exact hn
  · obtain ⟨hf, hc, hs⟩ := h.idle hi
    refine ⟨rfl, ?_, hs⟩
    change c.requests = 0
    rw [hsum, hf, hc]

/-- The front control object is given to the worker. -/
theorem takeFront (h : Inv s) (hp : s.phase ≠ .closed) : Inv (SocketCtl.takeFront s) := by
  rw [SocketCtl.takeFront]
  split
  · exact h
  · rename_i src hsrc hc
    have hf : s.front = src := by rw [State.front, hsrc]; rfl
    have hcur : s.current = .new := by rw [State.current, hc]; rfl
    refine h.take hp ?_ ?_ ?_ ?_ <;> rw [hf, hcur]
    · exact (Bool.or_false _).symm
    · exact (Bool.or_false _).symm
    · split
      · rfl
      · rename_i hn
        exact hf ▸ h.front.connect (hf ▸ Bool.not_eq_true _ ▸ hn)
    · split
      · rfl
      · rename_i hn
        exact hf ▸ h.front.attach (hf ▸ Bool.not_eq_true _ ▸ hn)
  · rename_i src c hsrc hc
    have hf : s.front = src := by rw [State.front, hsrc]; rfl
    have hcur := current_of hc
    have hreq := h.requests
    rw [hf, hcur, TCPSocketCtl.requests, TCPSocketCtl.requests] at hreq
    have hattach : src.hasAttach = true → c.hasAttach = false := by
      intro ha
      rw [ha, Bool.toNat_true] at hreq
      rw [← Bool.toNat_eq_zero]
      omega
    have hconnect : src.hasConnect = true →
        c.hasConnect = false ∧ src.connectIsStarted = false := by
      intro hcon
      rw [hcon, Bool.toNat_true] at hreq
      rw [← Bool.toNat_eq_zero]
      exact ⟨by omega, hf ▸ h.started⟩
    rw [State.assert_of hattach]
    dsimp only
    rw [State.assert_of hconnect]
    refine h.take hp ?_ ?_ ?_ ?_ <;> rw [hf, hcur, TCPSocketCtl.mergeFrom] <;>
      cases src.hasShutdown <;> cases src.hasAttach <;> cases src.hasConnect <;> rfl

/-- What the steps before the connect keep. -/
def Keeps (s s' : State S) : Prop :=
  s'.phase = s.phase ∧ s'.handed = s.handed ∧
    (s.current.connectSocket = none → s'.current.connectSocket = none)

omit [DecidableEq S] in
theorem keeps_withCtl {f : State S → TCPSocketCtl S → State S}
    (hf : ∀ c, s.ctl = some c → Keeps s (f s c)) : Keeps s (SocketCtl.withCtl f s) := by
  rw [SocketCtl.withCtl]
  split
  · exact ⟨rfl, rfl, id⟩
  · rename_i c hc
    exact hf c hc

omit [DecidableEq S] in
theorem keeps_doShutdown (hc : s.ctl = some c) : Keeps s (SocketCtl.doShutdown s c) := by
  rw [SocketCtl.doShutdown]
  split
  · exact ⟨rfl, rfl, fun hn => by rwa [current_of hc] at hn⟩
  · exact ⟨rfl, rfl, id⟩

omit [DecidableEq S] in
theorem keeps_doAttach (hc : s.ctl = some c) : Keeps s (SocketCtl.doAttach s c) := by
  rw [SocketCtl.doAttach]
  split
  · exact ⟨rfl, rfl, fun hn => by rwa [current_of hc] at hn⟩
  · exact ⟨rfl, rfl, id⟩

omit [DecidableEq S] in
theorem phase_doConnect (s : State S) (c : TCPSocketCtl S) (r : Results S) :
    (SocketCtl.doConnect s c r).phase = s.phase := by
  have hstart : ∀ (t : State S) (x : S) (st : Start), (connectStart t x st).1.phase = t.phase := by
    intro t x st
    cases st <;> rfl
  have htask : ∀ (t : State S) (c : TCPSocketCtl S),
      (SocketCtl.connectTask t c r).1.phase = t.phase := by
    intro t c
    rw [SocketCtl.connectTask]
    split
    · rfl
    · split
      · exact hstart t _ _
      · rw [connectStartHost]
        split
        · rfl
        · dsimp only
          split <;> exact hstart _ _ _
  have hend : ∀ (t : State S) (c : TCPSocketCtl S) (o : Outcome),
      (SocketCtl.connectEnd t c o).phase = t.phase := by
    intro t c o
    cases o <;> rfl
  rw [SocketCtl.doConnect]
  split
  · dsimp only
    split
    · rfl
    · split
      · rfl
      · rfl
      · exact (hend _ _ _).trans (htask _ _)
  · rfl

omit [DecidableEq S] in
/-- The object of the worker has the socket of the front one after the merge. -/
theorem given_takeFront (hf : s.front.connectSocket = none)
    (hc : s.current.connectSocket = none) :
    (SocketCtl.takeFront s).current.connectSocket = none := by
  rw [SocketCtl.takeFront]
  split
  · exact hc
  · rename_i src hsrc _
    rw [State.front, hsrc] at hf
    exact hf
  · rename_i src c hsrc hctl
    rw [State.front, hsrc] at hf
    rw [current_of hctl] at hc
    change (c.mergeFrom src).connectSocket = none
    rw [TCPSocketCtl.mergeFrom]
    cases src.hasShutdown <;> cases src.hasAttach <;> cases src.hasConnect <;>
      first | exact hc | exact hf

omit [DecidableEq S] in
theorem keeps_takeFront (s : State S) : (SocketCtl.takeFront s).phase = s.phase ∧
    (SocketCtl.takeFront s).handed = s.handed := by
  rw [SocketCtl.takeFront]
  split <;> exact ⟨rfl, rfl⟩

theorem privCtl (h : Inv s) (hp : s.phase ≠ .closed) (r : Results S)
    (hcreated : ∀ x ∈ r.created, x ∉ s.handed)
    (hok : r.start = .failedAttached → s.front.connectSocket = none ∧
      s.current.connectSocket = none) : Inv (SocketCtl.privCtl s r) := by
  obtain ⟨hp1, hh1⟩ := keeps_takeFront s
  have h1 := h.takeFront hp
  rw [SocketCtl.privCtl]
  generalize htake : SocketCtl.takeFront s = s1 at *
  have hok1 : r.start = .failedAttached → s1.current.connectSocket = none := by
    intro hr
    rw [← htake]
    exact given_takeFront (hok hr).1 (hok hr).2
  rw [← hp1] at hp
  have h2 := h1.withCtl fun c hc => h1.doShutdown hp hc
  obtain ⟨hp2, hh2, hn2⟩ := keeps_withCtl fun c hc => keeps_doShutdown (s := s1) hc
  generalize SocketCtl.withCtl SocketCtl.doShutdown s1 = s2 at *
  rw [← hp2] at hp
  have h3 := h2.withCtl fun c hc => h2.doAttach hp hc
  obtain ⟨hp3, hh3, hn3⟩ := keeps_withCtl fun c hc => keeps_doAttach (s := s2) hc
  generalize SocketCtl.withCtl SocketCtl.doAttach s2 = s3 at *
  rw [← hp3] at hp
  have h4 : Inv (SocketCtl.withCtl (SocketCtl.doConnect · · r) s3) := by
    refine h3.withCtl fun c hc => h3.doConnect hp hc r ?_ fun hr => ?_
    · rw [hh3, hh2, hh1]
      exact hcreated
    · have hn := hn3 (hn2 (hok1 hr))
      rwa [current_of hc] at hn
  have hp4 : (SocketCtl.withCtl (SocketCtl.doConnect · · r) s3).phase = s3.phase := by
    rw [SocketCtl.withCtl]
    split
    · rfl
    · exact phase_doConnect s3 _ r
  generalize SocketCtl.withCtl (SocketCtl.doConnect · · r) s3 = s4 at *
  rw [← hp4] at hp
  have h5 := h4.withCtl (f := (SocketCtl.doHandshake · · r)) fun c hc => h4.doHandshake hp hc r
  have hp5 : (SocketCtl.withCtl (SocketCtl.doHandshake · · r) s4).phase = s4.phase := by
    rw [SocketCtl.withCtl]
    split
    · rfl
    · rw [SocketCtl.doHandshake]
      split <;> rfl
  rw [← hp5] at hp
  exact h5.withCtl fun c hc => h5.dropIdle hp hc

theorem addConnect (h : Inv s) (hp : s.phase = .new ∨ s.phase = .empty) {given : Option S}
    (hg : ∀ x ∈ given, x ∉ s.handed) (isDomain : Bool) :
    Inv (SocketCtl.addConnect s given isDomain) := by
  obtain ⟨hf, hc, hs⟩ := h.idle hp
  obtain ⟨hf1, hf2⟩ := TCPSocketCtl.requests_eq_zero.mp hf
  have hcs := h.front.connect hf1
  rw [SocketCtl.addConnect, State.assert_of ⟨hf1, hf2, hcs⟩]
  refine ⟨fun x => ?_, fun x => ?_, ⟨nofun, fun hn => h.front.attach hn⟩, h.current, h.started, ?_,
    fun hn => absurd hs hn, Or.rec nofun nofun, nofun, h.failed⟩
  · have hx := h.count x
    rw [count_owned, hcs, Option.toList_none, List.count_nil] at hx
    rw [count_owned]
    change s.closed.count x + (given.toList.count x + s.front.attachSocket.toList.count x +
      s.current.connectSocket.toList.count x + s.current.attachSocket.toList.count x +
        s.socket.toList.count x) = (given.toList ++ s.handed).count x
    rw [List.count_append]
    omega
  · cases given with
    | none => exact h.once x
    | some y => exact count_fresh h.once (hg y rfl) x
  · change true.toNat + s.front.hasAttach.toNat + s.current.requests ≤ 1
    rw [hf2, hc]
    exact Nat.le_refl 1

theorem addAttach (h : Inv s) (hp : s.phase = .new) {x : S} (hx : x ∉ s.handed) :
    Inv (SocketCtl.addAttach s x) := by
  obtain ⟨hf, hc, hs⟩ := h.idle (.inl hp)
  obtain ⟨hf1, hf2⟩ := TCPSocketCtl.requests_eq_zero.mp hf
  have has := h.front.attach hf2
  rw [SocketCtl.addAttach, State.assert_of ⟨hf1, hf2⟩]
  refine ⟨fun y => ?_, count_fresh h.once hx, ⟨fun hn => h.front.connect hn, nofun⟩, h.current,
    h.started, ?_, fun hn => absurd hs hn, Or.rec nofun nofun, nofun, h.failed⟩
  · have hy := h.count y
    rw [count_owned, has, Option.toList_none, List.count_nil] at hy
    rw [count_owned]
    change s.closed.count y + (s.front.connectSocket.toList.count y + [x].count y +
      s.current.connectSocket.toList.count y + s.current.attachSocket.toList.count y +
        s.socket.toList.count y) = (x :: s.handed).count y
    simp only [List.count_cons, List.count_nil]
    omega
  · change s.front.hasConnect.toNat + true.toNat + s.current.requests ≤ 1
    rw [hf1, hc]
    exact Nat.le_refl 1

theorem addOther (h : Inv s) (hasShutdown handshake : Bool) :
    Inv (SocketCtl.addOther s hasShutdown handshake) :=
  ⟨fun x => h.count x, h.once, ⟨h.front.connect, h.front.attach⟩, h.current, h.started, h.requests,
    h.socket, h.idle, h.closed, h.failed⟩

theorem postTask (h : Inv s) (hp : s.phase = .new) : Inv { s with phase := .empty } :=
  ⟨h.count, h.once, h.front, h.current, h.started, h.requests, h.socket,
    fun _ => h.idle (.inl hp), nofun, h.failed⟩

theorem closeDo (h : Inv s) : Inv (SocketCtl.closeDo s) := by
  refine ⟨fun x => ?_, h.once, h.front, h.current, h.started, h.requests, fun hn => absurd rfl hn,
    Or.rec nofun nofun, fun _ => rfl, h.failed⟩
  have hx := h.count x
  rw [count_owned] at hx
  rw [count_owned]
  change (s.socket.toList ++ s.closed).count x + (s.front.connectSocket.toList.count x +
    s.front.attachSocket.toList.count x + s.current.connectSocket.toList.count x +
      s.current.attachSocket.toList.count x + ([] : List S).count x) = s.handed.count x
  rw [List.count_append, List.count_nil]
  omega

theorem final (h : Inv s) (hp : s.phase = .closed) : Inv (SocketCtl.final s) := by
  have hs := h.closed hp
  refine ⟨fun x => ?_, h.once, TCPSocketCtl.ok_new, TCPSocketCtl.ok_new, rfl, Nat.zero_le 1,
    fun hn => absurd hs hn, fun _ => ⟨rfl, rfl, hs⟩, nofun, h.failed⟩
  have hx := h.count x
  rw [State.owned, hs] at hx
  change (s.front.destroyed ++ s.current.destroyed ++ s.closed).count x + s.socket.toList.count x =
    s.handed.count x
  rw [h.front.destroyed, h.current.destroyed, hs]
  simp only [List.count_append, Option.toList_none, List.count_nil] at hx ⊢
  omega

theorem step {p : Platform} {a : Action S} (h : Inv s) (ha : Allowed s a)
    (hs : SocketCtl.step p s a = some s') : Inv s' := by
  cases a with
  | connect given isDomain =>
    obtain ⟨⟨hp, hg⟩, rfl⟩ := Option.ite_none_right_eq_some.mp hs |>.imp_right Option.some.inj
    exact h.addConnect hp hg isDomain
  | attach x =>
    obtain ⟨⟨hp, hx⟩, rfl⟩ := Option.ite_none_right_eq_some.mp hs |>.imp_right Option.some.inj
    exact h.addAttach hp hx
  | postTask =>
    obtain ⟨hp, rfl⟩ := Option.ite_none_right_eq_some.mp hs |>.imp_right Option.some.inj
    exact h.postTask hp
  | other hasShutdown handshake => exact Option.some.inj hs ▸ h.addOther hasShutdown handshake
  | privCtl r =>
    obtain ⟨⟨hp, -, hc⟩, rfl⟩ := Option.ite_none_right_eq_some.mp hs |>.imp_right Option.some.inj
    refine h.privCtl ?_ r hc ha
    rcases hp with hp | hp <;> rw [hp] <;> nofun
  | closeDo =>
    obtain ⟨-, rfl⟩ := Option.ite_none_right_eq_some.mp hs |>.imp_right Option.some.inj
    exact h.closeDo
  | final =>
    obtain ⟨hp, rfl⟩ := Option.ite_none_right_eq_some.mp hs |>.imp_right Option.some.inj
    exact h.final hp

end Inv

/-- The invariant holds in every run without a failed `ConnectEx` with a socket of the user. -/
theorem inv {p : Platform} {s : State S} (h : (machine p).ReachableBy Allowed s) : Inv s := by
  refine (machine p).invariant_by (P := Inv) ?_ (fun s a s' hi ha hs => hi.step ha hs) h
  rintro _ rfl
  exact .new

/-- The steps of the platforms other than IOCP are all allowed. -/
theorem allowed_of_ne {p : Platform} {s s' : State S} {a : Action S} (hp : p ≠ .iocp)
    (hs : step p s a = some s') : Allowed s a := by
  cases a with
  | privCtl r =>
    intro hr
    obtain ⟨⟨-, hon, -⟩, -⟩ := Option.ite_none_right_eq_some.mp hs
    rw [hr] at hon
    cases p with
    | iocp => exact absurd rfl hp
    | epoll | kqueue | iouring => cases hon
  | connect | attach | postTask | other | closeDo | final => trivial

/-- **Socket ownership**: in every run without a `ConnectEx` which fails at once with a socket of
the user, each socket which was given or created is closed once, or is not closed and is owned once,
by a control object or by the task. After a final execution all of them are closed. With the other
platforms this is so in every run. -/
theorem closed_once {p : Platform} {s : State S} (h : (machine p).ReachableBy Allowed s) :
    s.failed = false ∧ s.handed.Nodup ∧
    (∀ x, x ∈ s.handed → s.closed.count x + s.owned.count x = 1) ∧
    (∀ x, x ∉ s.handed → x ∉ s.closed ∧ x ∉ s.owned) ∧
    (s.phase = .new → ∀ x, x ∈ s.handed → s.closed.count x = 1) ∧
    ∀ a s', (machine p).step s a = some s' → p ≠ .iocp → Allowed s a := by
  have hi := inv h
  have hnodup : s.handed.Nodup := List.nodup_iff_count_le_one.mpr hi.once
  have hone : ∀ x, x ∈ s.handed → s.closed.count x + s.owned.count x = 1 := by
    intro x hx
    rw [hi.count, List.count_eq_one_of_mem hnodup hx]
  refine ⟨hi.failed, hnodup, hone, fun x hx => ?_, fun hp x hx => ?_,
    fun a s' hs hp => allowed_of_ne hp hs⟩
  · have hcount := hi.count x
    rw [List.count_eq_zero_of_not_mem hx] at hcount
    rw [← List.count_eq_zero, ← List.count_eq_zero]
    omega
  · obtain ⟨hf, hc, hs⟩ := hi.idle (.inl hp)
    have howned : s.owned = [] := by
      rw [State.owned, hi.front.sockets_eq_nil hf, hi.current.sockets_eq_nil hc, hs]
      rfl
    have hx1 := hone x hx
    rwa [howned, List.count_nil, Nat.add_zero] at hx1

/-- A connect with a domain fails later, and the TCP socket is opened again with an attach. -/
def reopened : List (Action ℕ) :=
  [.connect (some 7) true, .privCtl ⟨false, none, none, .failed, .pending, false⟩,
    .privCtl ⟨false, some true, none, .started, .pending, false⟩,
    .privCtl ⟨false, none, none, .failed, .failed, false⟩, .closeDo, .final, .attach 8,
    .privCtl ⟨false, none, none, .failed, .pending, true⟩, .closeDo, .final]

theorem reopened_once : ∃ s, (machine .iocp).ReachableBy Allowed s ∧ s.closed.count 7 = 1 ∧
    s.closed.count 8 = 1 := by
  have hrun : (((machine .iocp).runBy Allowed .new reopened).map fun s : State ℕ =>
      (s.phase, s.handed)) = some (.new, [8, 7]) := by
    decide +kernel
  simp only [Option.map_eq_some_iff, Prod.mk.injEq] at hrun
  obtain ⟨s, hs, hp, hhanded⟩ := hrun
  have hr : (machine .iocp).ReachableBy Allowed s := .of_runBy (.init rfl) hs
  obtain ⟨-, -, -, -, hone, -⟩ := closed_once hr
  refine ⟨s, hr, hone hp 7 ?_, hone hp 8 ?_⟩ <;> rw [hhanded] <;> decide

/-- `ConnectEx` fails at once with the socket of the user, and the task is closed after that. -/
theorem failedAttached_twice : ∃ s, (machine .iocp).run (.new : State ℕ) [.connect (some 7) false,
    .privCtl ⟨false, none, none, .failedAttached, .pending, false⟩, .closeDo, .final] = some s ∧
    s.closed.count 7 = 2 := by
  have hrun : (((machine .iocp).run (.new : State ℕ) [.connect (some 7) false,
      .privCtl ⟨false, none, none, .failedAttached, .pending, false⟩, .closeDo, .final]).map
        fun s : State ℕ => s.closed.count 7) = some 2 := by
    decide +kernel
  simp only [Option.map_eq_some_iff] at hrun
  exact hrun

end SocketCtl

end Serverbox
