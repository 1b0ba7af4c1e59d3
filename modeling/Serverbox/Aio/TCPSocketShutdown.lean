import Serverbox.Aio.TCPSocketCtl

/-!
# A requested shutdown of a TCP socket

`PostShutdown` puts a request to the front control object, which the worker merges into its own one
and executes before the attach, the connect and the handshake. A shutdown waits for a connect which
is pending, because a socket which is not connected can't be shut down, and the task is rescheduled
when the connect is done. A shutdown of an empty socket does nothing.

The shutdown does not wait for an attach which is pending. And `Connect` inside the worker fails
an assertion when a shutdown has come to the front object before, although `PostShutdown` may be
made on an empty socket. The results are about the runs without the latter.

The control objects are those of `SocketCtl`. Beside them there are the closing of the socket, the
OS sockets which were shut down, and whether the task has been woken up or rescheduled
since its last execution. The assertions are those of the control objects which are about a
shutdown or a merge.

Source: `src/mg/aio/TCPSocketCtl.cpp`, `src/mg/aio/TCPSocketIFace.cpp`.

## Main definitions

* `SocketShutdown.machine`: a TCP socket with its control objects, and what is shut down.
* `SocketShutdown.tidy`: the same without a connect of the worker while a shutdown waits in front.
* `SocketShutdown.State.Due`: a shutdown which is to be performed.

## Main results

* `SocketShutdown.shutdown_kept`: a shutdown is requested until it is performed, or the socket is
  closing.
-/

namespace Serverbox

namespace SocketShutdown

open SocketCtl (TCPSocketCtl Platform Start Outcome Phase Results takeFront doShutdown doAttach
  doConnect doHandshake dropIdle withCtl)

variable {S : Type*}

/-- `TCPSocketIFace`: the control objects, `TCP_SOCKET_STATE_CLOSING`, the sockets on which
`SocketShutdown` was called, and whether an execution is to come. -/
structure State (S : Type*) where
  base : SocketCtl.State S
  closing : Bool
  shut : List S
  wakeup : Bool
  failed : Bool

/-- A new TCP socket. -/
def State.new : State S := ⟨.new, false, [], false, false⟩

/-- An assertion. -/
def State.assert (s : State S) (b : Bool) : State S := { s with failed := s.failed || !b }

/-- `PostShutdown` while the socket is not closing. -/
def postShutdown (s : State S) : State S :=
  { s with base := SocketCtl.addOther s.base true false, wakeup := true }

/-- `PrivCtl`, for the results of the system calls. -/
def privCtl (s : State S) (r : Results S) (shutdownFails : Bool) : State S :=
  let b := s.base
  let s := s.assert (b.frontCtl.isNone || b.ctl.isNone ||
    (!b.front.hasHandshake && !b.front.handshake))
  let b₁ := takeFront b
  -- `DoShutdown` looks at the socket of the task
  let sock := if b₁.current.hasShutdown && !b₁.current.hasConnect then b₁.socket else none
  let b₃ := withCtl doAttach (withCtl doShutdown b₁)
  let b₄ := withCtl (doConnect · · r) b₃
  let isEnded := b₃.current.hasConnect && !b₄.current.hasConnect
  -- a connect which has ended well has started the handshake
  let isDone := isEnded && !b₃.current.hasHandshake && b₄.current.hasHandshake
  let b₅ := withCtl (doHandshake · · r) b₄
  { base := withCtl dropIdle b₅
    closing := s.closing || sock.isSome && shutdownFails || isEnded && !isDone
    shut := sock.toList ++ s.shut
    wakeup := isDone || b₄.current.hasHandshake && !b₅.current.hasHandshake
    failed := s.failed }

/-- What can happen: `PostConnect` and `Connect`, `PostWrap`, `PostTask`, `ProtPostHandshake`,
`PostShutdown`, `PostClose`, an execution of the requests, the close of the task, and the final
execution. -/
inductive Action (S : Type*)
  | connect (given : Option S) (isDomain : Bool)
  | attach (x : S)
  | postTask
  | postHandshake
  | postShutdown
  | postClose
  | privCtl (r : Results S) (shutdownFails : Bool)
  | closeDo
  | final
  deriving DecidableEq

section Machine

variable [DecidableEq S]

/-- One step. A closing socket ignores `Connect`, `PostShutdown` and another `PostClose`. -/
def step (p : Platform) (s : State S) : Action S → Option (State S)
  | .connect given isDomain =>
    if s.closing then (if s.base.phase = .empty then some s else none)
    else (SocketCtl.step p s.base (.connect given isDomain)).map fun b =>
      { s.assert !s.base.front.hasShutdown with base := b, wakeup := true }
  | .attach x => (SocketCtl.step p s.base (.attach x)).map fun b =>
    { s.assert !s.base.front.hasShutdown with base := b, wakeup := true }
  | .postTask => (SocketCtl.step p s.base .postTask).map fun b => { s with base := b }
  | .postHandshake =>
    if s.base.phase = .new ∧ s.base.frontCtl = none then
      some { s with base := SocketCtl.addOther s.base false true }
    else none
  | .postShutdown =>
    if s.base.phase = .new then none else some (if s.closing then s else postShutdown s)
  | .postClose =>
    if s.base.phase = .new then some s else some { s with closing := true, wakeup := true }
  | .privCtl r shutdownFails => (SocketCtl.step p s.base (.privCtl r)).map fun _ =>
    privCtl s r shutdownFails
  | .closeDo =>
    if s.closing then (SocketCtl.step p s.base .closeDo).map fun b => { s with base := b } else none
  | .final => (SocketCtl.step p s.base .final).map fun b => { s with base := b, closing := false }

/-- A TCP socket from its construction on. -/
def machine (p : Platform) : Machine (State S) (Action S) where
  init s := s = .new
  step := step p

/-- No connect is made inside the worker while a shutdown waits in the front object. -/
def Tidy (s : State S) : Action S → Prop
  | .connect _ _ => s.closing = false → s.base.front.hasShutdown = false
  | _ => True

instance (s : State S) (a : Action S) : Decidable (Tidy s a) := by
  cases a <;> unfold Tidy <;> infer_instance

/-- The TCP socket without such a connect. -/
def tidy (p : Platform) : Machine (State S) (Action S) where
  init s := s = .new
  step s a := if Tidy s a then step p s a else none

end Machine

/-- A shutdown is requested. -/
def State.requested (s : State S) : Bool := s.base.front.hasShutdown || s.base.current.hasShutdown

/-- A connect is requested or in progress. -/
def State.connecting (s : State S) : Bool := s.base.front.hasConnect || s.base.current.hasConnect

/-- A shutdown is requested, and waits for a connect or for the next execution. -/
def State.Due (s : State S) : Prop :=
  s.requested = true ∧ s.closing = false ∧
    (s.connecting = true ∨ s.base.socket.isSome = true ∧ s.wakeup = true)

/-- What the control objects have of the requests. -/
structure Fits (b : SocketCtl.State S) : Prop where
  front : b.front.hasConnect = true → b.front.hasAttach = false
  current : b.current.hasConnect = true → b.current.hasAttach = false
  connects : b.front.hasConnect = true → b.current.hasConnect = false
  attaches : b.front.hasAttach = true → b.current.hasAttach = false
  first : b.front.hasConnect = true → b.current.hasAttach = false
  second : b.front.hasAttach = true → b.current.hasConnect = false
  frontSocket : b.front.hasConnect = false → b.front.connectSocket = none
  started : b.front.connectIsStarted = false
  attach : b.front.hasAttach = true ∨ b.current.hasAttach = true → b.socket = none
  failed : b.failed = false

/-! ### The stages of an execution -/

section Stages

variable {b : SocketCtl.State S} {c : TCPSocketCtl S} {r : Results S}

/-- What an execution has of the requests after the front object was taken: those of the
worker's object, and the socket. -/
structure Stage (b : SocketCtl.State S) (phase : Phase) (isShut isConn isAtt : Bool)
    (socket : Option S) : Prop where
  front : b.frontCtl = none
  phase : b.phase = phase
  shutdown : b.current.hasShutdown = isShut
  connect : b.current.hasConnect = isConn
  attach : b.current.hasAttach = isAtt
  socket : b.socket = socket
  failed : b.failed = false

theorem current_of (hc : b.ctl = some c) : b.current = c := by
  rw [SocketCtl.State.current, hc]
  rfl

theorem current_none (hc : b.ctl = none) : b.current = .new := by
  rw [SocketCtl.State.current, hc]
  rfl

/-- The front object is taken. -/
theorem stage_takeFront (h : Fits b) : Stage (takeFront b) b.phase
    (b.front.hasShutdown || b.current.hasShutdown) (b.front.hasConnect || b.current.hasConnect)
    (b.front.hasAttach || b.current.hasAttach) b.socket := by
  rw [takeFront]
  split
  case h_1 hf =>
    have hnew : b.front = .new := by rw [SocketCtl.State.front, hf]; rfl
    rw [hnew]
    exact ⟨hf, rfl, rfl, rfl, rfl, rfl, h.failed⟩
  case h_2 src hf hc =>
    have hsrc : b.front = src := by rw [SocketCtl.State.front, hf]; rfl
    rw [hsrc, current_none hc]
    exact ⟨rfl, rfl, (Bool.or_false _).symm, (Bool.or_false _).symm, (Bool.or_false _).symm, rfl,
      h.failed⟩
  case h_3 src c hf hc =>
    have hsrc : b.front = src := by rw [SocketCtl.State.front, hf]; rfl
    obtain ⟨-, -, hcc, haa, -, -, -, hst, -, hfailed⟩ := h
    rw [hsrc, current_of hc] at hcc haa
    rw [hsrc] at hst
    rw [SocketCtl.State.assert_of haa]
    dsimp only
    rw [SocketCtl.State.assert_of fun hs => ⟨hcc hs, hst⟩, hsrc, current_of hc]
    refine ⟨rfl, rfl, ?_, ?_, ?_, rfl, hfailed⟩ <;>
      rw [current_of (c := c.mergeFrom src) rfl, TCPSocketCtl.mergeFrom] <;>
      cases src.hasShutdown <;> cases src.hasAttach <;> cases src.hasConnect <;> simp

/-- A stage without an object of the worker. -/
theorem Stage.none {phase : Phase} {x y z : Bool} {o : Option S} (h : Stage b phase x y z o)
    (hc : b.ctl = none) : x = false ∧ y = false ∧ z = false := by
  have hn := current_none hc
  exact ⟨by rw [← h.shutdown, hn]; rfl, by rw [← h.connect, hn]; rfl, by rw [← h.attach, hn]; rfl⟩

/-- `DoShutdown`. -/
theorem Stage.doShutdown {phase : Phase} {x y z : Bool} {o : Option S}
    (h : Stage b phase x y z o) : Stage (withCtl doShutdown b) phase (x && y) y z o := by
  rw [withCtl]
  split
  case h_1 hc =>
    obtain ⟨rfl, rfl, rfl⟩ := h.none hc
    exact h
  case h_2 c hc =>
    have hcur := current_of hc
    obtain ⟨hf, hp, hs, hcon, ha, ho, hfailed⟩ := h
    rw [hcur] at hs hcon ha
    rw [SocketCtl.doShutdown]
    subst hs hcon ha
    cases hx : c.hasShutdown <;> cases hy : c.hasConnect <;>
      simp only [Bool.and_true, Bool.and_false, Bool.not_true, Bool.not_false, if_true,
        Bool.false_eq_true, if_false] <;>
      constructor <;> simp_all [SocketCtl.State.current]

/-- `DoAttach`. -/
theorem Stage.doAttach {phase : Phase} {x y z : Bool} {o : Option S} (h : Stage b phase x y z o)
    (hz : z = true → y = false ∧ o = .none) :
    ∃ o', Stage (withCtl doAttach b) phase x y false o' ∧ (z = false → o' = o) := by
  rw [withCtl]
  split
  case h_1 hc =>
    obtain ⟨rfl, rfl, rfl⟩ := h.none hc
    exact ⟨o, h, fun _ => rfl⟩
  case h_2 c hc =>
    have hcur := current_of hc
    obtain ⟨hf, hp, hs, hcon, ha, ho, hfailed⟩ := h
    rw [hcur] at hs hcon ha
    rw [SocketCtl.doAttach]
    subst hs hcon ha
    cases hx : c.hasAttach with
    | false =>
      refine ⟨o, ?_, fun _ => rfl⟩
      constructor <;> simp_all [SocketCtl.State.current]
    | true =>
      obtain ⟨hy, rfl⟩ := hz hx
      rw [if_pos rfl, SocketCtl.State.assert_of ⟨hy, ho⟩]
      exact ⟨c.attachSocket, ⟨hf, hp, rfl, rfl, rfl, rfl, hfailed⟩, by rintro ⟨⟩⟩

/-- `ConnectStart` and `ConnectUpdate` leave the control objects alone, and a connect which is
done has a socket. -/
theorem connectTask_frame (b : SocketCtl.State S) (c : TCPSocketCtl S) (r : Results S) :
    (SocketCtl.connectTask b c r).1.frontCtl = b.frontCtl ∧
      (SocketCtl.connectTask b c r).1.phase = b.phase ∧
      (SocketCtl.connectTask b c r).1.failed = b.failed ∧
      ((SocketCtl.connectTask b c r).2 = .done →
        (SocketCtl.connectTask b c r).1.socket.isSome = true) := by
  have hstart : ∀ (t : SocketCtl.State S) (x : S) (st : Start),
      (SocketCtl.connectStart t x st).1.frontCtl = t.frontCtl ∧
        (SocketCtl.connectStart t x st).1.phase = t.phase ∧
        (SocketCtl.connectStart t x st).1.failed = t.failed ∧
        ((SocketCtl.connectStart t x st).2 = .done →
          (SocketCtl.connectStart t x st).1.socket.isSome = true) := fun t x st => by
    cases st <;> exact ⟨rfl, rfl, rfl, fun hd => by first | rfl | cases hd⟩
  rw [SocketCtl.connectTask]
  split
  case isTrue hs => exact ⟨rfl, rfl, rfl, fun _ => hs⟩
  case isFalse =>
    split
    · exact hstart b _ _
    · rw [SocketCtl.connectStartHost]
      split
      · exact ⟨rfl, rfl, rfl, by rintro ⟨⟩⟩
      · rename_i x hx
        have hst := hstart { b with handed := x :: b.handed } x r.start
        dsimp only
        split
        · rename_i ho
          exact ⟨hst.1, hst.2.1, hst.2.2.1, fun hd => by rw [hd] at ho; cases ho.1⟩
        · exact hst

/-- `DoConnect`. -/
theorem Stage.doConnect {phase : Phase} {x y z : Bool} {o : Option S} (h : Stage b phase x y z o)
    (hy : y = true → z = false) :
    ∃ y' o', Stage (withCtl (doConnect · · r) b) phase x y' z o' ∧
      (y = false → y' = false ∧ o' = o ∧
        (withCtl (doConnect · · r) b).current.hasHandshake = b.current.hasHandshake) ∧
      (y = true → y' = false → b.current.hasHandshake = false →
        (withCtl (doConnect · · r) b).current.hasHandshake = true → o'.isSome = true) := by
  rw [withCtl]
  split
  case h_1 hc =>
    obtain ⟨rfl, rfl, rfl⟩ := h.none hc
    exact ⟨false, o, h, fun _ => ⟨rfl, rfl, rfl⟩, by rintro ⟨⟩⟩
  case h_2 c hc =>
    have hcur := current_of hc
    obtain ⟨hf, hp, hs, hcon, ha, ho, hfailed⟩ := h
    rw [hcur] at hs hcon ha
    subst hs hcon ha ho
    rw [SocketCtl.doConnect]
    obtain hconn | hconn := (Bool.eq_false_or_eq_true c.hasConnect).symm
    · rw [if_neg (by rw [hconn]; exact Bool.false_ne_true)]
      refine ⟨false, b.socket, ?_, fun _ => ⟨rfl, rfl, rfl⟩, fun he => ?_⟩
      · constructor <;> simp_all
      · rw [hconn] at he
        cases he
    · have hne : ∀ {p : Prop}, c.hasConnect = false → p := fun he => by
        rw [hconn] at he
        cases he
      rw [if_pos hconn, SocketCtl.State.assert_of (hy hconn)]
      dsimp only
      split
      · exact ⟨true, b.socket, ⟨hf, hp, rfl, hconn, rfl, rfl, hfailed⟩, hne, fun _ => by rintro ⟨⟩⟩
      · split
        · exact ⟨true, b.socket, ⟨hf, hp, rfl, hconn, rfl, rfl, hfailed⟩, hne, fun _ =>
            by rintro ⟨⟩⟩
        · refine ⟨false, b.socket, ⟨hf, hp, rfl, rfl, rfl, rfl, hfailed⟩, hne, fun _ _ hn hd => ?_⟩
          rw [hcur] at hn
          exact (Bool.false_ne_true (hn.symm.trans hd)).elim
        · obtain ⟨hf', hp', hfl', hdone⟩ := connectTask_frame b
            { c with connectIsStarted := true, connectDomain := false } r
          generalize SocketCtl.connectTask b
            { c with connectIsStarted := true, connectDomain := false } r = q at *
          obtain ⟨t, out⟩ := q
          dsimp only at *
          cases out with
          | pending =>
            exact ⟨true, t.socket, ⟨hf'.trans hf, hp'.trans hp, rfl, hconn, rfl, rfl,
              hfl'.trans hfailed⟩, hne, fun _ => by rintro ⟨⟩⟩
          | failed =>
            refine ⟨false, t.socket, ⟨hf'.trans hf, hp'.trans hp, rfl, rfl, rfl, rfl,
              hfl'.trans hfailed⟩, hne, fun _ _ hn hd => ?_⟩
            rw [hcur] at hn
            exact (Bool.false_ne_true (hn.symm.trans hd)).elim
          | done =>
            exact ⟨false, t.socket, ⟨hf'.trans hf, hp'.trans hp, rfl, rfl, rfl, rfl,
              hfl'.trans hfailed⟩, hne, fun _ _ _ _ => hdone rfl⟩

/-- `DoHandshake`. -/
theorem Stage.doHandshake {phase : Phase} {x y z : Bool} {o : Option S}
    (h : Stage b phase x y z o) : Stage (withCtl (doHandshake · · r) b) phase x y z o := by
  rw [withCtl]
  split
  case h_1 hc => exact h
  case h_2 c hc =>
    have hcur := current_of hc
    obtain ⟨hf, hp, hs, hcon, ha, ho, hfailed⟩ := h
    rw [hcur] at hs hcon ha
    rw [SocketCtl.doHandshake]
    split
    · exact ⟨hf, hp, hs, hcon, ha, ho, hfailed⟩
    · exact ⟨hf, hp, hcur ▸ hs, hcur ▸ hcon, hcur ▸ ha, ho, hfailed⟩

/-- The end of `PrivCtl`. -/
theorem Stage.dropIdle {phase : Phase} {x y z : Bool} {o : Option S}
    (h : Stage b phase x y z o) : Stage (withCtl dropIdle b) phase x y z o := by
  rw [withCtl]
  split
  case h_1 hc => exact h
  case h_2 c hc =>
    have hcur := current_of hc
    obtain ⟨hf, hp, hs, hcon, ha, ho, hfailed⟩ := h
    rw [hcur] at hs hcon ha
    rw [SocketCtl.dropIdle]
    split
    · rename_i hidle
      simp only [TCPSocketCtl.isIdle, Bool.and_eq_true, Bool.not_eq_true'] at hidle
      obtain ⟨⟨⟨⟨h₁, h₂⟩, h₃⟩, -⟩, -⟩ := hidle
      exact ⟨hf, hp, h₁.symm.trans hs, h₂.symm.trans hcon, h₃.symm.trans ha, ho, hfailed⟩
    · exact ⟨hf, hp, hcur ▸ hs, hcur ▸ hcon, hcur ▸ ha, ho, hfailed⟩

end Stages

/-- An attach is requested. -/
def State.attaching (s : State S) : Bool := s.base.front.hasAttach || s.base.current.hasAttach

/-- What an execution does with a shutdown: it is performed when no connect is pending and there is
a socket, is dropped when there is none, and waits for the connect otherwise. -/
theorem privCtl_spec {s : State S} (h : Fits s.base) (r : Results S) (shutdownFails : Bool) :
    ∃ y o, Stage (privCtl s r shutdownFails).base s.base.phase (s.requested && s.connecting) y false
        o ∧
      (s.connecting = false → y = false ∧ (s.attaching = false → o = s.base.socket) ∧
        (privCtl s r shutdownFails).shut =
          (if s.requested then s.base.socket else none).toList ++ s.shut) ∧
      (s.connecting = true → (privCtl s r shutdownFails).shut = s.shut ∧
        (y = false → (privCtl s r shutdownFails).closing = true ∨
          o.isSome = true ∧ (privCtl s r shutdownFails).wakeup = true)) ∧
      (privCtl s r shutdownFails).failed = (s.assert (s.base.frontCtl.isNone || s.base.ctl.isNone ||
        (!s.base.front.hasHandshake && !s.base.front.handshake))).failed ∧
      (s.closing = true → (privCtl s r shutdownFails).closing = true) := by
  have h₁ := stage_takeFront h
  rw [show (s.base.front.hasShutdown || s.base.current.hasShutdown) = s.requested from rfl,
    show (s.base.front.hasConnect || s.base.current.hasConnect) = s.connecting from rfl,
    show (s.base.front.hasAttach || s.base.current.hasAttach) = s.attaching from rfl] at h₁
  have hexcl : s.attaching = true → s.connecting = false := fun ha => by
    have := h.front
    have := h.current
    have := h.first
    have := h.second
    grind [State.attaching, State.connecting]
  have hsocket : s.attaching = true → s.base.socket = none := fun ha =>
    h.attach (by simpa [State.attaching] using ha)
  have h₂ := h₁.doShutdown
  obtain ⟨o₃, h₃, ho₃⟩ := h₂.doAttach fun ha => ⟨hexcl ha, hsocket ha⟩
  obtain ⟨y, o, h₄, hidle, hdone⟩ := h₃.doConnect (r := r) fun _ => rfl
  refine ⟨y, o, h₄.doHandshake.dropIdle, fun hc => ⟨(hidle hc).1, fun ha => ?_, ?_⟩,
    fun hc => ⟨?_, fun hy => ?_⟩, rfl, fun hcl => ?_⟩
  · rw [(hidle hc).2.1, ho₃ ha]
  · simp only [privCtl, h₁.shutdown, h₁.connect, h₁.socket, hc, State.assert]
    cases s.requested <;> rfl
  · simp only [privCtl, h₁.shutdown, h₁.connect, hc, State.assert]
    cases s.requested <;> rfl
  · simp only [privCtl, h₁.shutdown, h₁.connect, h₃.connect, h₄.connect, hc, hy, State.assert]
    cases hh₃ : (withCtl doAttach (withCtl doShutdown (takeFront s.base))).current.hasHandshake with
    | true => exact .inl (by simp)
    | false =>
      cases hh₄ : (withCtl (doConnect · · r) (withCtl doAttach (withCtl doShutdown
        (takeFront s.base)))).current.hasHandshake with
      | false => exact .inl (by simp)
      | true => exact .inr ⟨hdone hc hy hh₃ hh₄, by simp⟩
  · simp [privCtl, State.assert, hcl]

/-- The invariant. -/
structure Inv (s : State S) : Prop where
  fits : Fits s.base
  idle : s.base.phase = .new ∨ s.base.phase = .empty →
    s.connecting = false ∧ s.attaching = false ∧ s.base.socket = none
  fresh : s.base.phase = .new → s.base.ctl = none ∧ s.requested = false ∧ s.closing = false
  closed : s.base.phase = .closed → s.closing = true ∧ s.base.socket = none
  worker : s.base.current.hasShutdown = true → s.base.current.hasConnect = true ∨
    s.closing = true ∨ s.base.socket.isSome = true ∧ s.wakeup = true
  woken : s.base.front.hasShutdown = true → s.wakeup = true
  front : s.base.front.hasHandshake = false
  handshake : s.base.front.handshake = true → s.base.ctl = none
  failed : s.failed = false

namespace Inv

variable {s s' : State S}

theorem new : Inv (.new : State S) := by
  refine ⟨⟨by rintro ⟨⟩, by rintro ⟨⟩, by rintro ⟨⟩, by rintro ⟨⟩,
    by rintro ⟨⟩, by rintro ⟨⟩, fun _ => rfl, rfl, fun _ => rfl, rfl⟩,
    fun _ => ⟨rfl, rfl, rfl⟩, fun _ => ⟨rfl, rfl, rfl⟩, by rintro ⟨⟩, by rintro ⟨⟩,
    by rintro ⟨⟩, rfl, by rintro ⟨⟩, rfl⟩

/-- The assertion of `MergeFrom` holds. -/
theorem merge (h : Inv s) : (s.base.frontCtl.isNone || s.base.ctl.isNone ||
    (!s.base.front.hasHandshake && !s.base.front.handshake)) = true := by
  have hf := h.front
  have hh := h.handshake
  cases hk : s.base.front.handshake with
  | false => simp [hf]
  | true => simp [hh hk]

/-- An execution. -/
theorem privCtl (h : Inv s) (hp : s.base.phase = .empty ∨ s.base.phase = .requested) (r : Results S)
    (shutdownFails : Bool) : Inv (SocketShutdown.privCtl s r shutdownFails) := by
  obtain ⟨y, o, hst, hno, hyes, hfailed, hcl⟩ := privCtl_spec h.fits r shutdownFails
  generalize SocketShutdown.privCtl s r shutdownFails = t at *
  have hfront : t.base.front = .new := by rw [SocketCtl.State.front, hst.front]; rfl
  have hconn : t.connecting = y := by
    rw [State.connecting, hfront, hst.connect]
    exact Bool.false_or y
  have hatt : t.attaching = false := by
    rw [State.attaching, hfront, hst.attach]
    rfl
  constructor
  · refine ⟨?_, fun _ => hst.attach, ?_, ?_, ?_, ?_, ?_, ?_, fun ha => ?_, hst.failed⟩
    case refine_8 =>
      rw [hst.attach, hfront] at ha
      rcases ha with ha | ha <;> cases ha
    all_goals
      rw [hfront]
      first | rfl | exact fun _ => rfl | rintro ⟨⟩
  · intro hph
    rw [hst.phase] at hph
    obtain ⟨hc, ha, hs⟩ := h.idle hph
    exact ⟨hconn.trans (hno hc).1, hatt, by rw [hst.socket, (hno hc).2.1 ha, hs]⟩
  · intro hph
    rw [hst.phase] at hph
    rcases hp with hp | hp <;> rw [hp] at hph <;> cases hph
  · intro hph
    rw [hst.phase] at hph
    rcases hp with hp | hp <;> rw [hp] at hph <;> cases hph
  · intro hs
    rw [hst.shutdown, Bool.and_eq_true] at hs
    cases hy : y with
    | true => exact .inl (hst.connect.trans hy)
    | false =>
      rcases (hyes hs.2).2 hy with hc | ⟨ho, hw⟩
      · exact .inr (.inl hc)
      · exact .inr (.inr ⟨by rw [hst.socket]; exact ho, hw⟩)
  · rw [hfront]
    rintro ⟨⟩
  · rw [hfront]
    rfl
  · rw [hfront]
    rintro ⟨⟩
  · rw [hfailed, h.merge]
    simp [State.assert, h.failed]

/-- A request of the user is put to the front object. -/
theorem request (h : Inv s) (hp : s.base.phase = .new ∨ s.base.phase = .empty)
    (front : TCPSocketCtl S)
    (hb : s'.base = { s.base with
      frontCtl := some front
      phase := .requested
      handed := s'.base.handed })
    (hc : s'.closing = s.closing) (hw : s'.wakeup = true) (hf : s'.failed = false)
    (hkeep : front.hasShutdown = s.base.front.hasShutdown ∧
      front.connectIsStarted = s.base.front.connectIsStarted ∧
      front.hasHandshake = s.base.front.hasHandshake ∧ front.handshake = s.base.front.handshake)
    (hone : front.hasConnect = true → front.hasAttach = false)
    (hsock : front.hasConnect = false → front.connectSocket = none) : Inv s' := by
  obtain ⟨hcon, hatt, hsocket⟩ := h.idle hp
  simp only [State.connecting, State.attaching, Bool.or_eq_false_iff] at hcon hatt
  obtain ⟨hks, hkst, hkh, hkk⟩ := hkeep
  have hfront : s'.base.front = front := by rw [hb]; rfl
  have hcur : s'.base.current = s.base.current := by rw [hb]; rfl
  have hphase : s'.base.phase = .requested := by rw [hb]
  refine ⟨⟨?_, ?_, ?_, ?_, ?_, ?_, ?_, ?_, fun _ => ?_, ?_⟩, fun hph => ?_, fun hph => ?_,
    fun hph => ?_, fun hsh => ?_, fun _ => hw, ?_, fun hk => ?_, hf⟩
  · rwa [hfront]
  · rw [hcur, hcon.2]
    rintro ⟨⟩
  · rw [hcur]
    exact fun _ => hcon.2
  · rw [hcur]
    exact fun _ => hatt.2
  · rw [hcur]
    exact fun _ => hatt.2
  · rw [hcur]
    exact fun _ => hcon.2
  · rwa [hfront]
  · rw [hfront, hkst]
    exact h.fits.started
  · rw [hb]
    exact hsocket
  · rw [hb]
    exact h.fits.failed
  · rw [hphase] at hph
    rcases hph with hph | hph <;> cases hph
  · rw [hphase] at hph
    cases hph
  · rw [hphase] at hph
    cases hph
  · rw [hcur] at hsh
    rcases h.worker hsh with hc' | hc' | ⟨hs', -⟩
    · rw [hcon.2] at hc'
      cases hc'
    · exact .inr (.inl (hc.trans hc'))
    · rw [hsocket] at hs'
      cases hs'
  · rw [hfront, hkh]
    exact h.front
  · rw [hfront, hkk] at hk
    rw [hb]
    exact h.handshake hk

/-- `PostShutdown` and `ProtPostHandshake`. -/
theorem other (h : Inv s) (hasShutdown handshake : Bool)
    (hs : hasShutdown = true → s.base.phase ≠ .new ∧ s'.wakeup = true)
    (hh : handshake = true → s.base.ctl = none)
    (hb : s'.base = SocketCtl.addOther s.base hasShutdown handshake)
    (hc : s'.closing = s.closing) (hw : s.wakeup = true → s'.wakeup = true)
    (hf : s'.failed = s.failed) : Inv s' := by
  have hctl : s'.base.ctl = s.base.ctl := by rw [hb]; rfl
  have hcur : s'.base.current = s.base.current := by rw [hb]; rfl
  have hcon : s'.connecting = s.connecting := by rw [State.connecting, hb]; rfl
  have hatt : s'.attaching = s.attaching := by rw [State.attaching, hb]; rfl
  obtain ⟨h₁, h₂, h₃, h₄, h₅, h₆, h₇, h₈, h₉, h₁₀⟩ := h.fits
  refine ⟨?_, ?_, fun hp => ?_, ?_, fun hsh => ?_, fun hsh => ?_, ?_, fun hk => ?_,
    hf.trans h.failed⟩
  · rw [hb]
    exact ⟨h₁, h₂, h₃, h₄, h₅, h₆, h₇, h₈, h₉, h₁₀⟩
  · rw [hcon, hatt, hb]
    exact h.idle
  · have hp' : s.base.phase = .new := by rw [hb] at hp; exact hp
    obtain ⟨hn, hr, hcl⟩ := h.fresh hp'
    refine ⟨hctl.trans hn, ?_, hc.trans hcl⟩
    have hns : hasShutdown = false := by
      by_contra hne
      exact (hs (Bool.not_eq_false _ ▸ hne)).1 hp'
    rw [State.requested, hcur, hb]
    show ((s.base.front.hasShutdown || hasShutdown) || s.base.current.hasShutdown) = false
    rw [hns, Bool.or_false]
    exact hr
  · rw [hc, hb]
    exact h.closed
  · rw [hcur] at hsh ⊢
    rcases h.worker hsh with hc' | hc' | ⟨hs', hw'⟩
    · exact .inl hc'
    · exact .inr (.inl (hc.trans hc'))
    · exact .inr (.inr ⟨by rw [hb]; exact hs', hw hw'⟩)
  · rw [hb] at hsh
    rcases Bool.or_eq_true _ _ ▸ hsh with hs' | hs'
    · exact hw (h.woken hs')
    · exact (hs hs').2
  · rw [hb]
    exact h.front
  · rw [hctl]
    rw [hb] at hk
    rcases Bool.or_eq_true _ _ ▸ hk with hk | hk
    · exact h.handshake hk
    · exact hh hk

variable [DecidableEq S] {p : Platform} {a : Action S}

theorem step (h : Inv s) (ha : Tidy s a) (hs : SocketShutdown.step p s a = some s') : Inv s' := by
  cases a with
  | connect given isDomain =>
    simp only [SocketShutdown.step] at hs
    split at hs
    case isTrue =>
      split at hs <;> cases hs
      exact h
    case isFalse hcl =>
      have hclosing : s.closing = false := Bool.not_eq_true _ ▸ hcl
      obtain ⟨b, hb, rfl⟩ := Option.map_eq_some_iff.mp hs
      simp only [SocketCtl.step] at hb
      split at hb
      case isFalse => cases hb
      case isTrue hp =>
        cases hb
        obtain ⟨hcon, hatt, -⟩ := h.idle hp.1
        simp only [State.connecting, State.attaching, Bool.or_eq_false_iff] at hcon hatt
        have hassert : s.base.front.hasConnect = false ∧ s.base.front.hasAttach = false ∧
            s.base.front.connectSocket = none := ⟨hcon.1, hatt.1, h.fits.frontSocket hcon.1⟩
        have hsh := ha hclosing
        rw [SocketCtl.addConnect, SocketCtl.State.assert_of hassert]
        refine h.request hp.1 ({ s.base.front with
          hasConnect := true
          connectSocket := given
          connectDomain := isDomain }) rfl rfl rfl ?_ ⟨rfl, rfl, rfl, rfl⟩ (fun _ => hatt.1)
          (by rintro ⟨⟩)
        simp [State.assert, h.failed, hsh]
  | attach x =>
    obtain ⟨b, hb, rfl⟩ := Option.map_eq_some_iff.mp hs
    simp only [SocketCtl.step] at hb
    split at hb
    case isFalse => cases hb
    case isTrue hp =>
      cases hb
      obtain ⟨hcon, hatt, -⟩ := h.idle (.inl hp.1)
      simp only [State.connecting, State.attaching, Bool.or_eq_false_iff] at hcon hatt
      have hsh : s.base.front.hasShutdown = false := by
        have hr := (h.fresh hp.1).2.1
        rw [State.requested, Bool.or_eq_false_iff] at hr
        exact hr.1
      rw [SocketCtl.addAttach, SocketCtl.State.assert_of ⟨hcon.1, hatt.1⟩]
      refine h.request (.inl hp.1) ({ s.base.front with
        hasAttach := true
        attachSocket := some x }) rfl rfl rfl ?_ ⟨rfl, rfl, rfl, rfl⟩ (fun hc => ?_)
        h.fits.frontSocket
      · simp [State.assert, h.failed, hsh]
      · rw [hcon.1] at hc
        cases hc
  | postTask =>
    obtain ⟨b, hb, rfl⟩ := Option.map_eq_some_iff.mp hs
    simp only [SocketCtl.step] at hb
    split at hb
    case isFalse => cases hb
    case isTrue hp =>
      cases hb
      obtain ⟨h₁, h₂, h₃, h₄, h₅, h₆, h₇, h₈, h₉, h₁₀⟩ := h.fits
      exact ⟨⟨h₁, h₂, h₃, h₄, h₅, h₆, h₇, h₈, h₉, h₁₀⟩, fun _ => h.idle (.inl hp), by rintro ⟨⟩,
        by rintro ⟨⟩, h.worker, h.woken, h.front, h.handshake, h.failed⟩
  | postHandshake =>
    simp only [SocketShutdown.step] at hs
    split at hs
    case isFalse => cases hs
    case isTrue hp =>
      cases hs
      exact h.other false true (by rintro ⟨⟩) (fun _ => (h.fresh hp.1).1) rfl rfl id rfl
  | postShutdown =>
    simp only [SocketShutdown.step] at hs
    split at hs
    case isTrue => cases hs
    case isFalse hp =>
      cases hs
      split
      · exact h
      · exact h.other true false (fun _ => ⟨hp, rfl⟩) (by rintro ⟨⟩) rfl rfl (fun _ => rfl) rfl
  | postClose =>
    simp only [SocketShutdown.step] at hs
    split at hs
    case isTrue =>
      cases hs
      exact h
    case isFalse hp =>
      cases hs
      exact ⟨h.fits, h.idle, fun he => absurd he hp, fun he => ⟨rfl, (h.closed he).2⟩,
        fun _ => .inr (.inl rfl), fun _ => rfl, h.front, h.handshake, h.failed⟩
  | privCtl r shutdownFails =>
    obtain ⟨b, hb, rfl⟩ := Option.map_eq_some_iff.mp hs
    simp only [SocketCtl.step] at hb
    split at hb
    case isFalse => cases hb
    case isTrue hp => exact h.privCtl hp.1 r shutdownFails
  | closeDo =>
    simp only [SocketShutdown.step] at hs
    split at hs
    case isFalse => cases hs
    case isTrue hcl =>
      obtain ⟨b, hb, rfl⟩ := Option.map_eq_some_iff.mp hs
      simp only [SocketCtl.step] at hb
      split at hb <;> cases hb
      obtain ⟨h₁, h₂, h₃, h₄, h₅, h₆, h₇, h₈, -, h₁₀⟩ := h.fits
      exact ⟨⟨h₁, h₂, h₃, h₄, h₅, h₆, h₇, h₈, fun _ => rfl, h₁₀⟩,
        fun he => (by rcases he with he | he <;> cases he), by rintro ⟨⟩, fun _ => ⟨hcl, rfl⟩,
        fun _ => .inr (.inl hcl), h.woken, h.front, h.handshake, h.failed⟩
  | final =>
    obtain ⟨b, hb, rfl⟩ := Option.map_eq_some_iff.mp hs
    simp only [SocketCtl.step] at hb
    split at hb
    case isFalse => cases hb
    case isTrue hp =>
      cases hb
      have hsocket := (h.closed hp).2
      exact ⟨⟨by rintro ⟨⟩, by rintro ⟨⟩, by rintro ⟨⟩, by rintro ⟨⟩,
        by rintro ⟨⟩, by rintro ⟨⟩, fun _ => rfl, rfl, fun _ => hsocket,
        h.fits.failed⟩, fun _ => ⟨rfl, rfl, hsocket⟩, fun _ => ⟨rfl, rfl, rfl⟩,
        by rintro ⟨⟩, by rintro ⟨⟩,
        by rintro ⟨⟩, rfl, by rintro ⟨⟩, h.failed⟩

end Inv

variable [DecidableEq S] {p : Platform} {s s' : State S} {a : Action S}

theorem tidy_step (hs : (tidy p).step s a = some s') : Tidy s a ∧ step p s a = some s' := by
  simp only [tidy] at hs
  split at hs
  · exact ⟨‹_›, hs⟩
  · cases hs

theorem inv (h : (tidy p).Reachable s) : Inv s := by
  refine Machine.invariant (fun s hs => ?_) (fun s a s' hi hs => ?_) h
  · rw [show s = .new from hs]
    exact .new
  · obtain ⟨ht, hs⟩ := tidy_step hs
    exact hi.step ht hs

/-- The socket begins to close, or is shut down. -/
def Settles (s s' : State S) : Prop :=
  s'.closing = true ∨ ∃ x, s.base.socket = some x ∧ s'.shut = x :: s.shut

/-- A shutdown which is due stays so, or is performed, or the socket begins to close. -/
theorem Inv.due_step (h : Inv s) (hd : s.Due) (hs : SocketShutdown.step p s a = some s') :
    Settles s s' ∨ s'.Due := by
  obtain ⟨hreq, hcl, hwait⟩ := hd
  have hidle : s.base.phase = .new ∨ s.base.phase = .empty → False := fun hp => by
    obtain ⟨hc, -, hn⟩ := h.idle hp
    rcases hwait with hw | ⟨hw, -⟩
    · rw [hc] at hw
      cases hw
    · rw [hn] at hw
      cases hw
  cases a with
  | connect given isDomain =>
    simp only [SocketShutdown.step, hcl, Bool.false_eq_true, if_false] at hs
    obtain ⟨b, hb, -⟩ := Option.map_eq_some_iff.mp hs
    simp only [SocketCtl.step] at hb
    split at hb
    · exact (hidle (And.left ‹_›)).elim
    · cases hb
  | attach x =>
    obtain ⟨b, hb, -⟩ := Option.map_eq_some_iff.mp hs
    simp only [SocketCtl.step] at hb
    split at hb
    · exact (hidle (.inl (And.left ‹_›))).elim
    · cases hb
  | postTask =>
    obtain ⟨b, hb, -⟩ := Option.map_eq_some_iff.mp hs
    simp only [SocketCtl.step] at hb
    split at hb
    · exact (hidle (.inl ‹_›)).elim
    · cases hb
  | postHandshake =>
    simp only [SocketShutdown.step] at hs
    split at hs
    · exact (hidle (.inl (And.left ‹_›))).elim
    · cases hs
  | postShutdown =>
    simp only [SocketShutdown.step, hcl, Bool.false_eq_true, if_false] at hs
    split at hs <;> cases hs
    refine .inr ⟨?_, hcl, hwait.imp_right fun ⟨hw, _⟩ => ⟨hw, rfl⟩⟩
    show ((s.base.front.hasShutdown || true) || s.base.current.hasShutdown) = true
    rw [Bool.or_true, Bool.true_or]
  | postClose =>
    simp only [SocketShutdown.step] at hs
    split at hs
    · exact (hidle (.inl ‹_›)).elim
    · cases hs
      exact .inl (.inl rfl)
  | privCtl r shutdownFails =>
    obtain ⟨b, -, rfl⟩ := Option.map_eq_some_iff.mp hs
    obtain ⟨y, o, hst, hno, hyes, -, -⟩ := privCtl_spec h.fits r shutdownFails
    generalize SocketShutdown.privCtl s r shutdownFails = t at *
    cases hc : s.connecting with
    | false =>
      obtain ⟨hw, -⟩ := hwait.resolve_left (by rw [hc]; exact Bool.false_ne_true)
      obtain ⟨x, hx⟩ := Option.isSome_iff_exists.mp hw
      obtain ⟨-, -, hshut⟩ := hno hc
      rw [hreq, if_pos rfl, hx] at hshut
      exact .inl (.inr ⟨x, hx, hshut⟩)
    | true =>
      by_cases hcl' : t.closing = true
      · exact .inl (.inl hcl')
      · have hfront : t.base.front = .new := by rw [SocketCtl.State.front, hst.front]; rfl
        have hreq' : t.requested = true := by
          rw [State.requested, hst.shutdown, hreq, hc]
          exact Bool.or_true _
        refine .inr ⟨hreq', Bool.not_eq_true _ ▸ hcl', ?_⟩
        cases hy : y with
        | true =>
          refine .inl ?_
          rw [State.connecting, hst.connect, hy]
          exact Bool.or_true _
        | false =>
          rw [hst.socket]
          exact .inr (((hyes hc).2 hy).resolve_left hcl')
  | closeDo =>
    simp only [SocketShutdown.step, hcl] at hs
    cases hs
  | final =>
    obtain ⟨b, hb, -⟩ := Option.map_eq_some_iff.mp hs
    simp only [SocketCtl.step] at hb
    split at hb
    · rw [(h.closed ‹_›).1] at hcl
      cases hcl
    · cases hb

/-- **A requested shutdown waits for the connect.** In every reachable state no assertion has
failed. A `PostShutdown` on a running socket which is connecting or connected is requested then,
and after every run from there it is still requested, for a connect or for an execution which is to
come, unless the run has passed the shutdown of the socket or the socket has begun to close.
The shutdown of a connected socket is performed by the next execution, and an empty socket has
nothing to shut down. -/
theorem shutdown_kept (h : (tidy p).Reachable s) :
    (s.failed = false ∧ s.base.failed = false) ∧
    (s.base.phase ≠ .new → s.closing = false →
      ∃ s₁, step p s .postShutdown = some s₁ ∧ s₁.requested = true ∧
        (s.connecting = true ∨ s.base.socket.isSome = true → s₁.Due ∧
          ∀ as s₂, (tidy p).run s₁ as = some s₂ →
            (tidy p).Passes Settles s₁ as ∨ s₂.Due)) ∧
    (∀ r fails s', step p s (.privCtl r fails) = some s' → s.connecting = false →
      (∀ x, s.base.socket = some x → s.requested = true → s'.shut = x :: s.shut) ∧
        (s.base.phase = .empty → s'.requested = false ∧ s'.shut = s.shut)) := by
  have hi := inv h
  refine ⟨⟨hi.failed, hi.fits.failed⟩, fun hp hcl => ?_, fun r fails s' hs hcon => ?_⟩
  · have hs : step p s .postShutdown = some (postShutdown s) := by
      simp only [step, hcl, hp, if_false, Bool.false_eq_true]
    have hreq : (postShutdown s).requested = true := by
      show ((s.base.front.hasShutdown || true) || s.base.current.hasShutdown) = true
      rw [Bool.or_true, Bool.true_or]
    refine ⟨_, hs, hreq, fun hw => ?_⟩
    have hdue : (postShutdown s).Due := ⟨hreq, hcl, hw.imp_right fun hw => ⟨hw, rfl⟩⟩
    refine ⟨hdue, fun as s₂ hrun => ?_⟩
    have hreach : (tidy p).Reachable (postShutdown s) := h.step (a := .postShutdown) (by
      simp only [tidy, Tidy, if_true, hs])
    refine (tidy p).run_history (H := fun as t =>
      (tidy p).Passes Settles (postShutdown s) as ∨ t.Due) (.inr hdue)
      (fun as a t t' hr ht hst => ?_) hrun
    rw [Machine.passes_snoc hr hst]
    rcases ht with ht | ht
    · exact .inl (.inl ht)
    · exact ((inv (hreach.of_run hr)).due_step ht (tidy_step hst).2).imp_left .inr
  · obtain ⟨b, -, rfl⟩ := Option.map_eq_some_iff.mp hs
    obtain ⟨y, o, hst, hno, -, -, -⟩ := privCtl_spec hi.fits r fails
    obtain ⟨-, -, hshut⟩ := hno hcon
    refine ⟨fun x hx hreq => ?_, fun hp => ⟨?_, ?_⟩⟩
    · rw [hshut, hreq, if_pos rfl, hx]
      rfl
    · have hfront : (privCtl s r fails).base.front = .new := by
        rw [SocketCtl.State.front, hst.front]
        rfl
      rw [State.requested, hfront, hst.shutdown, hcon, Bool.and_false]
      rfl
    · rw [hshut, (hi.idle (.inr hp)).2.2, ite_self]
      rfl

/-- A connect with a created socket is started, or has come to an end. -/
def results (created : Option ℕ) (update : Outcome) : Results ℕ :=
  ⟨false, none, created, .started, update, true⟩

/-- A connect which is started inside the worker. -/
def connectingRun : List (Action ℕ) :=
  [.postTask, .connect none false, .privCtl (results (some 1) .pending) false]

/-- The connect is done, and the task is executed once more. -/
def connectedRun : List (Action ℕ) := List.replicate 2 (.privCtl (results none .done) false)

/-- A shutdown which is requested during the connect is due, and the socket is shut down by the
second execution from there. -/
theorem shutdown_kept_connecting : ∃ s s₁ s₂ : State ℕ,
    (tidy .epoll).run .new connectingRun = some s ∧ s.connecting = true ∧ s.failed = false ∧
    step .epoll s .postShutdown = some s₁ ∧ s₁.Due ∧
    (tidy .epoll).run s₁ connectedRun = some s₂ ∧ s₂.shut = [1] ∧
    ((tidy .epoll).Passes Settles s₁ connectedRun ∨ s₂.Due) := by
  have hrun : (((tidy .epoll).run (.new : State ℕ) connectingRun).map fun s =>
      (s.connecting, s.closing, decide (s.base.phase = .new))) = some (true, false, false) := by
    decide +kernel
  have hrun' : ((((tidy .epoll).run (.new : State ℕ) connectingRun).bind fun s =>
      step .epoll s .postShutdown).bind fun s =>
        ((tidy .epoll).run s connectedRun).map (·.shut)) = some [1] := by
    decide +kernel
  simp only [Option.map_eq_some_iff, Prod.mk.injEq, decide_eq_false_iff_not] at hrun
  obtain ⟨s, hs, hcon, hcl, hp⟩ := hrun
  obtain ⟨⟨hf, -⟩, hpost, -⟩ := shutdown_kept (p := .epoll) (.of_run (.init rfl) hs)
  obtain ⟨s₁, hs₁, -, hdue⟩ := hpost hp hcl
  rw [hs, Option.bind_some, hs₁, Option.bind_some, Option.map_eq_some_iff] at hrun'
  obtain ⟨s₂, hs₂, hshut⟩ := hrun'
  exact ⟨s, s₁, s₂, hs, hcon, hf, hs₁, (hdue (.inl hcon)).1, hs₂, hshut,
    (hdue (.inl hcon)).2 _ _ hs₂⟩

/-- A shutdown of an empty socket does not stay requested: the next execution of the worker finds
no socket. -/
theorem shutdown_dropped : ¬ ∀ s : State ℕ, (machine .epoll).Reachable s → s.base.phase ≠ .new →
    s.closing = false → ∀ s₁, step .epoll s .postShutdown = some s₁ → ∀ as s₂,
    (machine .epoll).run s₁ as = some s₂ →
    s₂.failed = false ∧ ((machine .epoll).Passes Settles s₁ as ∨ s₂.requested = true) := by
  intro hkept
  have hstep : (machine .epoll).step (.new : State ℕ) .postTask =
      some { (.new : State ℕ) with base := { (SocketCtl.State.new) with phase := .empty } } := rfl
  obtain ⟨-, hpass | hreq⟩ := hkept _ ((Machine.Reachable.init rfl).step hstep) (by rintro ⟨⟩)
    rfl _ rfl
    ([] ++ [Action.privCtl (results none .pending) false]) _ rfl
  · rw [Machine.passes_snoc (Machine.run_nil _ _) rfl] at hpass
    rcases hpass with hpass | hcl | ⟨x, hx, -⟩
    · exact Machine.not_passes_nil _ hpass
    · cases hcl
    · cases hx
  · cases hreq

-- a connect of the worker after a shutdown of the empty socket fails an assertion
example : ((machine .epoll).run (.new : State ℕ) [.postTask, .postShutdown,
    .connect none false]).map (·.failed) = some true := by
  decide +kernel

-- a shutdown does not wait for an attach which is pending
example : ((machine .epoll).run (.new : State ℕ) [.attach 7, .postShutdown,
    .privCtl (results none .pending) false]).map (fun s => (s.base.socket, s.requested, s.shut)) =
      some (some 7, false, []) := by
  decide +kernel

end SocketShutdown

end Serverbox
