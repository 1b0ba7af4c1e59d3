import Serverbox.Net.BufferStreamFifo

/-!
# Receiving in an SSL socket

`SSLSocket` reads encrypted bytes into the reserved buffers of its stream `myEncRecvQueue`, hands
the buffers with data over to the SSL library, and gives the decrypted bytes to its user. While
nothing is requested and the handshake is done it expects that stream to be empty.

`EnsureWriteSize` reserves as many buffers as the request needs, and `PopData` takes only those
into which something was read. So the stream is empty after a read if and only if the read has
reached the last reserved buffer, and which size a read has is up to the remote side.

Here the receiver is modelled with all which can happen to it: the requests of its user, the
answers of the kernel, the results of the decryption, the handshake, and the close and reopening.
A failed assertion and a null pointer which is followed are `none`.

The history variable is the number of the reserved buffers, as the sizes of the requests and of the
reads determine it.

Source: `src/mg/aio/SSLSocket.cpp`, `src/mg/aio/TCPSocketIFace.cpp`, `src/mg/aio/IOTask.h`,
`src/mg/aio/IOTask.cpp`, `src/mg/aio/IOTask_epoll.cpp`.

## Main definitions

* `SSLSocket.State`, `SSLSocket.exec`, `SSLSocket.machine`: the receiver.
* `SSLSocket.Allowed`: the steps at which no buffer is left reserved without a request.

## Main results

* `SSLSocket.recv_ok`: in a run of such steps no assertion fails; at any other step one does.
-/

namespace Serverbox

namespace BufferStream

/-- The number of buffers for a size. -/
def buffersFor (size : ℕ) : ℕ := (size + theBufferCopySize - 1) / theBufferCopySize

theorem theBufferCopySize_eq : theBufferCopySize = 984 := rfl

variable {D : Bool} {J : ℕ → ℕ → UInt8} {s s' : BufferStream} {rd em : List Buffer}

theorem Copies.sum_capacity {l : List Buffer} (h : Copies l) :
    (l.map Buffer.capacity).sum = l.length * theBufferCopySize := by
  rw [List.map_congr_left h, List.map_const', List.sum_replicate_nat]

theorem Shape.wsize_copies (h : s.Shape [] em) (hc : Copies em) :
    s.wsize = em.length * theBufferCopySize := by
  rw [h.wsize, ← h.blank.sum_capacity, hc.sum_capacity]
  exact Nat.zero_add _

/-- `EnsureWriteSize` of a stream without data. -/
theorem Shape.ensureCopies (h : s.Shape [] em) (hc : Copies em) (size : ℕ) :
    ∃ s' em', BufferStream.ensureWriteSize D J s size = some s' ∧ s'.Shape [] em' ∧ Copies em' ∧
      em'.length = max em.length (buffersFor size) := by
  obtain ⟨s', l, hs', hle, hlt, hl, h'⟩ := h.ensureWriteSize (D := D) (J := J) size
  refine ⟨s', em ++ l, hs', h', hc.append hl, ?_⟩
  have hwsize := h'.wsize_copies (hc.append hl)
  have hlen : (em ++ l).length = em.length + l.length := List.length_append
  have hnil : l = [] → l.length = 0 := fun he => by rw [he]; rfl
  by_cases hold : size ≤ s.wsize
  · -- nothing is reserved, as there is enough
    have hsame : BufferStream.ensureWriteSize D J s size = some s := by
      simp [BufferStream.ensureWriteSize, hold]
    obtain rfl : s = s' := Option.some.inj (hsame.symm.trans hs')
    have hwsize₀ := h.wsize_copies hc
    rw [buffersFor, theBufferCopySize_eq] at *
    omega
  · have hwsize₀ := h.wsize_copies hc
    have hne : l ≠ [] := by
      rintro rfl
      rw [List.append_nil] at hwsize
      omega
    have hlt := hlt.resolve_left hne
    rw [buffersFor, theBufferCopySize_eq] at *
    omega

theorem buffersPropagateOnWrite_capacity {l l' : List Buffer} {n : ℕ} {p : Option ℕ}
    (h : buffersPropagateOnWrite l n = some (l', p)) :
    l'.map Buffer.capacity = l.map Buffer.capacity := by
  have hfill : ∀ (b : Buffer) (k : ℕ), (b.fill k).capacity = b.capacity := by
    intro b k
    simp only [Buffer.capacity, Buffer.fill_data, Buffer.fill_room, List.length_append,
      List.length_take, List.length_drop]
    omega
  induction l generalizing l' n p with
  | nil =>
    cases n with
    | zero => obtain ⟨rfl, -⟩ := Prod.mk.inj (Option.some.inj h); rfl
    | succ n => cases h
  | cons b l ih =>
    cases n with
    | zero => obtain ⟨rfl, -⟩ := Prod.mk.inj (Option.some.inj h); rfl
    | succ n =>
      simp only [buffersPropagateOnWrite] at h
      split at h
      · obtain ⟨rfl, -⟩ := Prod.mk.inj (Option.some.inj h)
        rw [List.map_cons, List.map_cons, hfill]
      · split at h
        · obtain ⟨rfl, -⟩ := Prod.mk.inj (Option.some.inj h)
          rw [List.map_cons, List.map_cons, hfill]
        · obtain ⟨⟨l₁, p₁⟩, hl₁, he⟩ := Option.map_eq_some_iff.mp h
          obtain ⟨rfl, -⟩ := Prod.mk.inj he
          rw [List.map_cons, List.map_cons, hfill, ih hl₁]

/-- The receiver stores bytes in the reserved buffers. -/
theorem Shape.receiveCopies (h : s.Shape [] em) (hc : Copies em) {x l : List Buffer}
    (hs : s.head = x ++ l) (bytes : List UInt8) : ∃ em',
    ({ s with head := x ++ buffersReceive l bytes } : BufferStream).Shape [] em' ∧
      Copies em' ∧ em'.length = em.length := by
  have hkey : (x ++ buffersReceive l bytes).map key = s.head.map key := by
    rw [hs, List.map_append, List.map_append, buffersReceive_key]
  have hhead : s.head = em := h.head
  have hlen : (x ++ buffersReceive l bytes).length = em.length := by
    rw [← hhead, ← List.length_map, hkey, List.length_map]
  refine ⟨x ++ buffersReceive l bytes, ?_, ?_, hlen⟩
  · simpa using h.of_key hkey
  · intro b hb
    obtain ⟨c, hcm, hck⟩ := List.mem_map.mp (hkey ▸ List.mem_map_of_mem hb)
    simp only [key, Prod.mk.injEq] at hck
    rw [Buffer.capacity, ← hck.2.1, ← hck.2.2]
    exact hc c (hhead ▸ hcm)

theorem checked_eq (hs : checked D s = some s') : s' = s := by
  obtain ⟨-, -, he⟩ := Option.bind_eq_some_iff.mp hs
  exact (Option.some.inj he).symm

/-- `PropagateWritePos` changes no capacity. -/
theorem propagateWritePos_capacity {size : ℕ} {before l : List Buffer}
    (hchain : s.chainFrom s.wpos = some (before, l)) (hhead : s.head = before ++ l)
    (hs : propagateWritePos D s size = some s') :
    s'.head.map Buffer.capacity = s.head.map Buffer.capacity ∧ s'.wsize = s.wsize - size := by
  simp only [propagateWritePos, hchain, Option.bind_eq_bind, Option.bind_some] at hs
  obtain ⟨-, -, hs⟩ := Option.bind_eq_some_iff.mp hs
  obtain ⟨⟨l', p⟩, hl, hs⟩ := Option.bind_eq_some_iff.mp hs
  obtain ⟨w, hw, hs⟩ := Option.bind_eq_some_iff.mp hs
  have hcap : (before ++ l').map Buffer.capacity = s.head.map Buffer.capacity := by
    rw [hhead, List.map_append, List.map_append, buffersPropagateOnWrite_capacity hl]
  have hwsize : w = s.wsize - size := by
    rw [sub] at hw
    split at hw
    · exact (Option.some.inj hw).symm
    · cases hw
  split at hs
  · obtain ⟨-, -, hs⟩ := Option.bind_eq_some_iff.mp hs
    rw [checked_eq hs]
    exact ⟨hcap, hwsize⟩
  · obtain ⟨⟨_, b, after⟩, -, hs⟩ := Option.bind_eq_some_iff.mp hs
    dsimp only at hs
    split at hs
    · obtain ⟨c, -, hs⟩ := Option.bind_eq_some_iff.mp hs
      obtain ⟨-, -, hs⟩ := Option.bind_eq_some_iff.mp hs
      rw [checked_eq hs]
      exact ⟨hcap, hwsize⟩
    · rw [checked_eq hs]
      exact ⟨hcap, hwsize⟩

/-- The chain at the write position of a stream without data. -/
theorem Shape.chain_copies (h : s.Shape [] em) : s.chainFrom s.wpos = some ([], em) := by
  have hhead : s.head = em := h.head
  have hwpos : s.wpos = firstAddr em := h.wpos
  cases em with
  | nil => rw [hwpos, firstAddr_nil, chainFrom, hhead]
  | cons b em =>
    rw [hwpos, firstAddr_cons, chainFrom, h.linked.split (x := []) hhead]
    rfl

/-- `PropagateWritePos` of the bytes which were read, and `PopData`. -/
theorem Shape.commitCopies (h : s.Shape [] em) (hc : Copies em) {size : ℕ} (hpos : 0 < size)
    (hle : size ≤ s.wsize) : ∃ s₁ rd s' em', BufferStream.propagateWritePos D s size = some s₁ ∧
      BufferStream.popData D s₁ = some (rd, s') ∧ s'.Shape [] em' ∧ Copies em' ∧
      em'.length = em.length - buffersFor size := by
  obtain ⟨s₁, rd, em', hs₁, h₁, hbytes⟩ := h.propagateWritePos (D := D) hle (.inl hpos)
  obtain ⟨s', hs', h'⟩ := h₁.popData (D := D)
  have hhead : s.head = em := h.head
  obtain ⟨hcap, hwsize⟩ := propagateWritePos_capacity h.chain_copies hhead hs₁
  rw [h₁.head, hhead] at hcap
  have hc₁ : Copies (rd ++ em') := by
    intro b hb
    obtain ⟨c, hcm, hck⟩ := List.mem_map.mp (hcap ▸ List.mem_map_of_mem hb)
    exact hck ▸ hc c hcm
  have hc' : Copies em' := (List.forall_mem_append.mp hc₁).2
  refine ⟨s₁, rd, s', em', hs₁, hs', h', hc', ?_⟩
  -- the last buffer with data has room for less than a buffer
  have hroom : (lastRoom rd).length < theBufferCopySize := by
    rcases List.eq_nil_or_concat rd with rfl | ⟨x, b, rfl⟩
    · rw [lastRoom_nil, theBufferCopySize_eq]
      decide
    · rw [List.concat_eq_append] at *
      have hb : b.capacity = theBufferCopySize := hc₁ b (by simp)
      have hdata : 0 < b.data.length := List.length_pos_iff.mpr (h₁.written b (by simp))
      rw [lastRoom_append_cons, lastRoom_singleton, ← hb, Buffer.capacity]
      omega
  have hold := h.wsize_copies hc
  have hnew := h₁.wsize
  rw [← h₁.blank.sum_capacity, hc'.sum_capacity] at hnew
  rw [buffersFor, theBufferCopySize_eq] at *
  omega

end BufferStream

namespace SSLSocket

open BufferStream

/-! ### The receiver -/

/-- `theIOVecMaxCount`. -/
def theIOVecMaxCount : ℕ := 128

/-- What an `IOEvent` has inside when it is not empty. -/
inductive Result
  | bytes (count : ℕ)
  | error
  deriving DecidableEq

/-- `IOEvent`. -/
structure IOEvent where
  isLocked : Bool
  result : Option Result
  deriving DecidableEq

/-- The receiving half of an `SSLSocket`. The operation is in flight when the kernel, or the task,
has the event. -/
structure State where
  encRecvQueue : BufferStream
  recvQueue : BufferStream
  recvSize : ℕ
  recvEvent : IOEvent
  wasHandshakeDone : Bool
  inFlight : Bool
  reserved : ℕ
  deriving DecidableEq

/-- The constructor. -/
def State.new : State := ⟨.new, .new, 0, ⟨true, none⟩, false, false, 0⟩

/-- What the kernel has for the socket. There are no bytes at the end of the stream. -/
inductive Received
  | bytes (l : List UInt8)
  | error

/-- The answer to `recvmsg`. -/
inductive Answer
  | later
  | now (r : Received)

/-- The result of a decryption and what the user does with it in `OnRecv`: whether the library has
an error, the decrypted buffers, how many bytes the user reads, and how many it requests. -/
structure Decrypted where
  error : Bool
  output : List (List UInt8 × List UInt8)
  filled : ∀ b ∈ output, b.1 ≠ []
  read : ℕ
  recv : ℕ

/-- What can happen: a request of the user, an execution of `PrivRecv`, the end of an operation in
flight with the readiness of the socket or with a result, `PrivEnableIO`, `PrivHandshakeCommit`, and
`ProtClose` of the closed task. -/
inductive Action
  | recv (size : ℕ)
  | privRecv (first : Decrypted) (answer : Answer) (second : Decrypted)
  | ready
  | complete (r : Received)
  | unlockEvent
  | handshake
  | close

/-- `ProtOnRecvError`. The event stays locked. -/
def State.protOnRecvError (s : State) : State :=
  { s with recvEvent := { s.recvEvent with isLocked := true } }

variable (debug : Bool) (junk : ℕ → ℕ → UInt8)

/-- `PrivRecvCommit`. -/
def privRecvCommit (s : State) (byteCount : ℕ) (d : Decrypted) : Option State :=
  if byteCount = 0 then some s
  else do
    let q ← s.encRecvQueue.propagateWritePos debug byteCount
    let (_, q) ← q.popData debug
    let r ← s.recvQueue.writeRef debug d.output
    let s' : State := { s with
      encRecvQueue := q, recvQueue := r, recvSize := 0,
      reserved := s.reserved - buffersFor byteCount }
    if d.error then some s'.protOnRecvError
    else if r.head ≠ [] then do
      let r ← r.skipData debug (min d.read r.rsize)
      some { s' with recvQueue := r, recvSize := d.recv % 2 ^ 64 }
    else some { s' with recvSize := s.recvSize }

/-- `PrivRecvEventConsume`. -/
def privRecvEventConsume (s : State) (d : Decrypted) : Option (State × Bool) :=
  if s.recvEvent.isLocked then some (s, false)
  else match s.recvEvent.result with
    | none => some (s, true)
    | some .error => some ({ s with recvEvent := ⟨false, none⟩ }.protOnRecvError, false)
    | some (.bytes byteCount) => do
      let s' ← privRecvCommit debug { s with recvEvent := ⟨false, none⟩ } byteCount d
      some (s', !s'.recvEvent.isLocked)

/-- The size of the buffers which `BuffersToIOVecsForRead` gives to the kernel. -/
def offered (l : List Buffer) : ℕ :=
  ((l.take theIOVecMaxCount).map fun b => b.capacity - b.pos).sum

/-- The kernel stores as many bytes as the buffers have room for. -/
def received (s : State) (r : Received) : Option State :=
  match r with
  | .error => some { s with recvEvent := ⟨false, some .error⟩, inFlight := false }
  | .bytes l => do
    let (before, chain) ← s.encRecvQueue.chainFrom s.encRecvQueue.wpos
    let got := l.take (offered chain)
    some { s with
      encRecvQueue := { s.encRecvQueue with head := before ++ buffersReceive chain got }
      recvEvent := ⟨false, some (.bytes got.length)⟩
      inFlight := false }

/-- `IOTask::Recv`. -/
def taskRecv (s : State) (answer : Answer) : Option State := do
  let (_, b, after) ← s.encRecvQueue.deref s.encRecvQueue.wpos
  devAssert debug (b.capacity > b.pos)
  devAssert debug ((after.take (theIOVecMaxCount - 1)).all fun c => c.pos = 0 ∧ c.capacity > 0)
  if s.recvEvent.isLocked then none
  else match answer with
    | .later => some { s with recvEvent := ⟨true, none⟩, inFlight := true }
    | .now r => received s r

/-- `PrivRecv`. -/
def privRecv (s : State) (first : Decrypted) (answer : Answer) (second : Decrypted) :
    Option State := do
  let (s, goOn) ← privRecvEventConsume debug s first
  if goOn = false then some s
  else if s.recvSize = 0 ∧ s.wasHandshakeDone = true then
    if s.encRecvQueue.head = [] then some s else none
  else
    let size := if s.recvSize = 0 then theBufferCopySize else s.recvSize
    let q ← s.encRecvQueue.ensureWriteSize debug junk size
    let s ← taskRecv debug { s with
      encRecvQueue := q, reserved := max s.reserved (buffersFor size) } answer
    let (s, _) ← privRecvEventConsume debug s second
    some s

/-- What the rest of the program and the kernel admit. -/
def enabled (s : State) : Action → Bool
  | .ready | .complete _ => s.inFlight
  | .unlockEvent => s.recvEvent.isLocked && !s.inFlight
  | .handshake => !s.wasHandshakeDone
  | _ => true

/-- The execution of one action, `none` when an assertion fails. -/
def exec (s : State) : Action → Option State
  | .recv size => some { s with recvSize := (s.recvSize + size) % 2 ^ 64 }
  | .privRecv first answer second => privRecv debug junk s first answer second
  | .ready => some { s with recvEvent := ⟨false, none⟩, inFlight := false }
  | .complete r => received s r
  | .unlockEvent => some { s with recvEvent := { s.recvEvent with isLocked := false } }
  | .handshake => some { s with wasHandshakeDone := true }
  | .close => do
    let r ← s.recvQueue.clear debug
    some { s with
      recvQueue := r, recvSize := 0, recvEvent := ⟨true, none⟩, wasHandshakeDone := false,
      inFlight := false }

/-- A receiver from the construction of its socket on. -/
def machine : Machine State Action where
  init s := s = .new
  step s a := if enabled s a then exec debug junk s a else none

variable {D : Bool} {J : ℕ → ℕ → UInt8}

/-- The size which is requested when the event of a state is consumed. -/
def State.requested (s : State) (d : Decrypted) : ℕ :=
  match s.recvEvent.result with
  | some (.bytes byteCount) =>
    if byteCount ≠ 0 ∧ (d.output ≠ [] ∨ s.recvQueue.head ≠ []) then d.recv % 2 ^ 64 else s.recvSize
  | _ => s.recvSize

/-- The number of reserved buffers which are left when the event of a state is consumed. -/
def State.left (s : State) : ℕ :=
  match s.recvEvent.result with
  | some (.bytes byteCount) => s.reserved - buffersFor byteCount
  | _ => s.reserved

/-- `PrivRecv` goes on after it has consumed the event: it is not locked, and there is no error. -/
def State.goesOn (s : State) (d : Decrypted) : Prop :=
  s.recvEvent.isLocked = false ∧
    match s.recvEvent.result with
    | none => True
    | some .error => False
    | some (.bytes byteCount) => byteCount = 0 ∨ d.error = false

/-- The steps at which no buffer is left reserved, when nothing is requested and the handshake is
done: the last read has reached the last buffer reserved for it. -/
def Allowed (s : State) : Action → Prop
  | .privRecv first _ _ =>
    s.goesOn first → s.requested first = 0 → s.wasHandshakeDone = true → s.left = 0
  | _ => True

instance (s : State) (d : Decrypted) : Decidable (s.goesOn d) := by
  unfold State.goesOn
  split <;> infer_instance

instance (s : State) (a : Action) : Decidable (Allowed s a) := by
  cases a <;> unfold Allowed <;> infer_instance

/-! ### The invariant -/

/-- The invariant of the allowed runs. -/
structure Inv (s : State) : Prop where
  enc : ∃ em, s.encRecvQueue.Shape [] em ∧ Copies em ∧ em.length = s.reserved
  recv : s.recvQueue.Inv
  bytes : ∀ n, s.recvEvent.result = some (.bytes n) → n ≤ s.reserved * theBufferCopySize
  locked : s.recvEvent.isLocked = true → s.recvEvent.result = none
  inFlight : s.inFlight = true → s.recvEvent.isLocked = true ∧ 0 < s.reserved

namespace Inv

variable {s s' : State} {a : Action}

theorem new : Inv .new where
  enc := ⟨[], new_shape, Copies.nil, rfl⟩
  recv := ⟨[], [], new_shape⟩
  bytes _ hn := by cases hn
  locked _ := rfl
  inFlight hf := by cases hf

/-- The event is empty, and the operation is not in flight, or in flight with it. -/
theorem emptied (h : Inv s) {l f : Bool} (hf : f = true → l = true ∧ 0 < s.reserved) :
    Inv { s with recvEvent := ⟨l, none⟩, inFlight := f } where
  enc := h.enc
  recv := h.recv
  bytes _ hn := by cases hn
  locked _ := rfl
  inFlight := hf

theorem not_inFlight (h : Inv s) (hl : s.recvEvent.isLocked = false) : s.inFlight = false := by
  by_contra hf
  rw [Bool.not_eq_false] at hf
  rw [(h.inFlight hf).1] at hl
  cases hl

/-- The stream is empty if and only if no buffer is reserved. -/
theorem head_length (h : Inv s) : s.encRecvQueue.head.length = s.reserved := by
  obtain ⟨em, hshape, -, hlen⟩ := h.enc
  rw [hshape.head, List.nil_append, hlen]

/-- The stream of the user is empty after `WriteRef` if and only if it was and there is nothing
new. -/
theorem writeRef (h : Inv s) (d : Decrypted) : ∃ r, s.recvQueue.writeRef D d.output = some r ∧
    r.Inv ∧ (r.head ≠ [] ↔ d.output ≠ [] ∨ s.recvQueue.head ≠ []) := by
  obtain ⟨rd, em, hshape⟩ := h.recv
  obtain ⟨r, rd', em', hr, hr', hbytes⟩ := hshape.writeRef (D := D) d.filled
  refine ⟨r, hr, ⟨rd', em', hr'⟩, ?_⟩
  by_cases hout : d.output = []
  · have hsame : s.recvQueue.writeRef D d.output = some s.recvQueue := by
      rw [hout]
      rfl
    rw [Option.some.inj (hr.symm.trans hsame)]
    simp [hout]
  · obtain ⟨b, l, hbl⟩ := List.exists_cons_of_ne_nil hout
    have hb : b.1 ≠ [] := d.filled b (by rw [hbl]; exact List.mem_cons_self)
    refine iff_of_true (fun hnil => ?_) (.inl hout)
    rw [hr'.head] at hnil
    rw [(List.append_eq_nil_iff.mp hnil).1, hbl] at hbytes
    simp [hb] at hbytes

/-- `PrivRecvCommit`. -/
theorem privRecvCommit (h : Inv s) (hl : s.recvEvent.isLocked = false) {n : ℕ}
    (hn : s.recvEvent.result = some (.bytes n)) (d : Decrypted) :
    ∃ s', SSLSocket.privRecvCommit D { s with recvEvent := ⟨false, none⟩ } n d = some s' ∧
      Inv s' ∧ s'.wasHandshakeDone = s.wasHandshakeDone ∧
      (s'.recvEvent.isLocked = false ↔ s.goesOn d) ∧
      (s.goesOn d → s'.recvSize = s.requested d ∧ s'.reserved = s.left) := by
  have hf := h.not_inFlight hl
  have hgoes : s.goesOn d ↔ n = 0 ∨ d.error = false := by simp [State.goesOn, hl, hn]
  have hleft : s.left = s.reserved - buffersFor n := by simp [State.left, hn]
  have hreq : s.requested d = if n ≠ 0 ∧ (d.output ≠ [] ∨ s.recvQueue.head ≠ []) then
      d.recv % 2 ^ 64 else s.recvSize := by simp [State.requested, hn]
  rw [SSLSocket.privRecvCommit, hgoes, hleft, hreq]
  by_cases hzero : n = 0
  · -- the end of the stream
    subst hzero
    refine ⟨_, if_pos rfl, ?_, rfl, by simp, fun _ => ?_⟩
    · exact h.emptied (l := false) (f := s.inFlight) (by simp [hf])
    · simp [buffersFor, theBufferCopySize_eq]
  rw [if_neg hzero]
  obtain ⟨em, hshape, hcopies, hlen⟩ := h.enc
  have hle : n ≤ s.encRecvQueue.wsize := by
    rw [hshape.wsize_copies hcopies, hlen]
    exact h.bytes n hn
  obtain ⟨q₁, rd, q, em', hq₁, hq, hq', hcopies', hlen'⟩ :=
    hshape.commitCopies (D := D) hcopies (Nat.pos_of_ne_zero hzero) hle
  obtain ⟨r, hr, hrinv, hrhead⟩ := h.writeRef (D := D) d
  simp only [hq₁, hq, hr, Option.bind_eq_bind, Option.bind_some]
  have henc : ∃ em, q.Shape [] em ∧ Copies em ∧ em.length = s.reserved - buffersFor n :=
    ⟨em', hq', hcopies', by rw [hlen', hlen]⟩
  by_cases herr : d.error = true
  · rw [if_pos herr]
    refine ⟨_, rfl, ⟨henc, hrinv, nofun, fun _ => rfl, ?_⟩, rfl, ?_, ?_⟩
    · exact fun hfl => absurd (hf.symm.trans hfl) Bool.false_ne_true
    · simp [State.protOnRecvError, hzero, herr]
    · simp [hzero, herr]
  rw [if_neg herr]
  rw [Bool.not_eq_true] at herr
  by_cases hdata : r.head = []
  · rw [if_neg (not_not.mpr hdata)]
    have hnone : ¬ (d.output ≠ [] ∨ s.recvQueue.head ≠ []) := hrhead.not.mp (not_not.mpr hdata)
    refine ⟨_, rfl, ⟨henc, hrinv, nofun, fun _ => rfl, ?_⟩, rfl, ?_, fun _ => ⟨?_, rfl⟩⟩
    · exact fun hfl => absurd (hf.symm.trans hfl) Bool.false_ne_true
    · simp [herr]
    · rw [if_neg fun hc => hnone hc.2]
  · rw [if_pos hdata]
    obtain ⟨rd₁, em₁, hr₁⟩ := hrinv
    obtain ⟨r', rd₂, em₂, hr', hr₂, -⟩ :=
      hr₁.skipData (D := D) (Nat.min_le_right d.read r.rsize)
    rw [hr', Option.bind_some]
    refine ⟨_, rfl, ⟨henc, ⟨_, _, hr₂⟩, nofun, fun _ => rfl, ?_⟩, rfl, ?_, fun _ => ⟨?_, rfl⟩⟩
    · exact fun hfl => absurd (hf.symm.trans hfl) Bool.false_ne_true
    · simp [herr]
    · rw [if_pos ⟨hzero, hrhead.mp hdata⟩]

/-- `PrivRecvEventConsume`. -/
theorem privRecvEventConsume (h : Inv s) (d : Decrypted) :
    ∃ s' goOn, SSLSocket.privRecvEventConsume D s d = some (s', goOn) ∧ Inv s' ∧
      s'.wasHandshakeDone = s.wasHandshakeDone ∧ (goOn = true ↔ s.goesOn d) ∧
      (goOn = true ↔ s'.recvEvent.isLocked = false) ∧
      (s.goesOn d → s'.recvSize = s.requested d ∧ s'.reserved = s.left) := by
  rw [SSLSocket.privRecvEventConsume]
  by_cases hl : s.recvEvent.isLocked = true
  · rw [if_pos hl]
    refine ⟨s, false, rfl, h, rfl, ?_, ?_, ?_⟩ <;> simp [State.goesOn, hl]
  rw [if_neg hl]
  rw [Bool.not_eq_true] at hl
  cases hr : s.recvEvent.result with
  | none =>
    refine ⟨s, true, rfl, h, rfl, ?_, ?_, ?_⟩ <;>
      simp [State.goesOn, State.requested, State.left, hl, hr]
  | some r =>
    cases r with
    | error =>
      refine ⟨_, false, rfl, ?_, rfl, ?_, ?_, ?_⟩
      · refine h.emptied (l := true) (f := s.inFlight) fun hf => ?_
        exact absurd ((h.not_inFlight hl).symm.trans hf) Bool.false_ne_true
      all_goals simp [State.goesOn, State.protOnRecvError, hr]
    | bytes n =>
      obtain ⟨s', hs', hinv, hdone, hlock, hsize⟩ := h.privRecvCommit (D := D) hl hr d
      refine ⟨s', !s'.recvEvent.isLocked, by simp [hs'], hinv, hdone, ?_, ?_, hsize⟩
      · rw [Bool.not_eq_true', hlock]
      · rw [Bool.not_eq_true']

theorem sum_take_le (l : List Buffer) (k : ℕ) :
    ((l.take k).map fun b => b.capacity - b.pos).sum ≤ (l.map Buffer.capacity).sum := by
  induction l generalizing k with
  | nil => simp
  | cons b l ih =>
    cases k with
    | zero => simp
    | succ k =>
      have hl := ih k
      simp only [List.take_succ_cons, List.map_cons, List.sum_cons]
      omega

/-- The kernel gives an answer. -/
theorem received (h : Inv s) (r : Received) : ∃ s', SSLSocket.received s r = some s' ∧ Inv s' := by
  obtain ⟨em, hshape, hcopies, hlen⟩ := h.enc
  cases r with
  | error => exact ⟨_, rfl, ⟨⟨em, hshape, hcopies, hlen⟩, h.recv, nofun, nofun, nofun⟩⟩
  | bytes l =>
    rw [SSLSocket.received, hshape.chain_copies]
    obtain ⟨em', hshape', hcopies', hlen'⟩ :=
      hshape.receiveCopies hcopies (x := []) hshape.head (l.take (offered em))
    refine ⟨_, rfl, ⟨⟨em', hshape', hcopies', hlen'.trans hlen⟩, h.recv, ?_, nofun, nofun⟩⟩
    rintro n hn
    obtain rfl : (l.take (offered em)).length = n := by simpa using hn
    have hoffered : offered em ≤ em.length * theBufferCopySize := by
      rw [← hcopies.sum_capacity]
      exact sum_take_le em theIOVecMaxCount
    rw [List.length_take, ← hlen]
    exact (Nat.min_le_left _ _).trans hoffered

/-- `IOTask::Recv` with reserved buffers. -/
theorem taskRecv (h : Inv s) (hl : s.recvEvent.isLocked = false) (hpos : 0 < s.reserved)
    (answer : Answer) : ∃ s', SSLSocket.taskRecv D s answer = some s' ∧ Inv s' := by
  obtain ⟨em, hshape, hcopies, hlen⟩ := h.enc
  obtain ⟨b, l, rfl⟩ := List.exists_cons_of_length_pos (hlen ▸ hpos)
  obtain ⟨⟨hdata, hroom⟩, hblank⟩ := blank_cons.mp hshape.blank
  have hderef : s.encRecvQueue.deref s.encRecvQueue.wpos = some ([], b, l) := by
    have hwpos : s.encRecvQueue.wpos = some b.addr := hshape.wpos
    rw [hwpos]
    exact hshape.linked.deref (x := []) hshape.head
  have hfirst : b.capacity > b.pos := b.pos_lt_capacity.mpr hroom
  have hrest :
      ((l.take (theIOVecMaxCount - 1)).all fun c => c.pos = 0 ∧ c.capacity > 0) = true := by
    simp only [List.all_eq_true, decide_eq_true_eq]
    intro c hc
    obtain ⟨hd, hr⟩ := hblank c (List.mem_of_mem_take hc)
    have hlt := c.pos_lt_capacity.mpr hr
    exact ⟨c.pos_eq_zero.mpr hd, by omega⟩
  simp only [SSLSocket.taskRecv, hderef, Option.bind_eq_bind, Option.bind_some,
    devAssert_true hfirst, devAssert_true hrest, hl]
  cases answer with
  | later => exact ⟨_, rfl, h.emptied (l := true) (f := true) fun _ => ⟨rfl, hpos⟩⟩
  | now r => exact h.received r

/-- `PrivRecv` fails if and only if the step is not allowed. -/
theorem privRecv (h : Inv s) (first : Decrypted) (answer : Answer) (second : Decrypted) :
    (Allowed s (.privRecv first answer second) →
      ∃ s', SSLSocket.privRecv D J s first answer second = some s' ∧ Inv s') ∧
    (¬ Allowed s (.privRecv first answer second) →
      SSLSocket.privRecv D J s first answer second = none) := by
  obtain ⟨s₁, goOn, hs₁, h₁, hdone, hgo, hlock, hsize⟩ :=
    h.privRecvEventConsume (D := D) first
  simp only [SSLSocket.privRecv, hs₁, Option.bind_eq_bind, Option.bind_some]
  cases goOn with
  | false =>
    have hnot : ¬ s.goesOn first := hgo.not.mp Bool.false_ne_true
    exact ⟨fun _ => ⟨s₁, rfl, h₁⟩, fun hn => absurd (fun hg => absurd hg hnot) hn⟩
  | true =>
    obtain ⟨hreq, hleft⟩ := hsize (hgo.mp rfl)
    have hempty : s₁.encRecvQueue.head = [] ↔ s.left = 0 := by
      rw [← hleft, ← h₁.head_length, List.length_eq_zero_iff]
    have hallowed : Allowed s (.privRecv first answer second) ↔
        (s₁.recvSize = 0 ∧ s₁.wasHandshakeDone = true → s₁.encRecvQueue.head = []) := by
      rw [hempty, hreq, hdone]
      exact ⟨fun ha hc => ha (hgo.mp rfl) hc.1 hc.2, fun ha _ hr hd => ha ⟨hr, hd⟩⟩
    rw [hallowed, if_neg Bool.true_eq_false.mp]
    by_cases hcond : s₁.recvSize = 0 ∧ s₁.wasHandshakeDone = true
    · simp only [if_pos hcond]
      refine ⟨fun ha => ⟨s₁, if_pos (ha hcond), h₁⟩, fun hn => if_neg fun he => hn fun _ => he⟩
    · simp only [if_neg hcond]
      refine ⟨fun _ => ?_, fun hn => absurd (fun hc => absurd hc hcond) hn⟩
      obtain ⟨em, hshape, hcopies, hlen⟩ := h₁.enc
      obtain ⟨q, em', hq, hq', hcopies', hlen'⟩ := hshape.ensureCopies (D := D) (J := J)
        hcopies (if s₁.recvSize = 0 then theBufferCopySize else s₁.recvSize)
      have hpos : 0 < buffersFor
          (if s₁.recvSize = 0 then theBufferCopySize else s₁.recvSize) := by
        rw [buffersFor, theBufferCopySize_eq]
        split <;> omega
      have h₂ : Inv { s₁ with
          encRecvQueue := q
          reserved := max s₁.reserved (buffersFor
            (if s₁.recvSize = 0 then theBufferCopySize else s₁.recvSize)) } :=
        ⟨⟨em', hq', hcopies', by rw [hlen', hlen]⟩, h₁.recv,
          fun n hn => (h₁.bytes n hn).trans (Nat.mul_le_mul_right _ (Nat.le_max_left _ _)),
          h₁.locked, fun hf => ⟨(h₁.inFlight hf).1, lt_of_lt_of_le hpos (Nat.le_max_right _ _)⟩⟩
      obtain ⟨s₃, hs₃, h₃⟩ := h₂.taskRecv (D := D) (hlock.mp rfl)
        (lt_of_lt_of_le hpos (Nat.le_max_right _ _)) answer
      obtain ⟨s₄, goOn, hs₄, h₄, -⟩ := h₃.privRecvEventConsume (D := D) second
      refine ⟨s₄, ?_, h₄⟩
      rw [hq, Option.bind_some, hs₃, Option.bind_some, hs₄, Option.bind_some]

end Inv

variable {s : State}

theorem exec_ok (h : Inv s) {a : Action} (hen : enabled s a = true) :
    (Allowed s a → ∃ s', exec D J s a = some s' ∧ Inv s') ∧
      (¬ Allowed s a → exec D J s a = none) := by
  cases a with
  | recv size =>
    exact ⟨fun _ => ⟨_, rfl, ⟨h.enc, h.recv, h.bytes, h.locked, h.inFlight⟩⟩,
      fun hn => absurd trivial hn⟩
  | privRecv first answer second => exact h.privRecv first answer second
  | ready =>
    exact ⟨fun _ => ⟨_, rfl, h.emptied (l := false) (f := false) nofun⟩,
      fun hn => absurd trivial hn⟩
  | complete r => exact ⟨fun _ => h.received r, fun hn => absurd trivial hn⟩
  | unlockEvent =>
    obtain ⟨hl, hf⟩ : s.recvEvent.isLocked = true ∧ s.inFlight = false := by
      simpa [enabled] using hen
    refine ⟨fun _ => ⟨_, rfl, ⟨h.enc, h.recv, h.bytes, nofun, fun hfl => ?_⟩⟩,
      fun hn => absurd trivial hn⟩
    exact absurd (hf.symm.trans hfl) Bool.false_ne_true
  | handshake =>
    exact ⟨fun _ => ⟨_, rfl, ⟨h.enc, h.recv, h.bytes, h.locked, h.inFlight⟩⟩,
      fun hn => absurd trivial hn⟩
  | close =>
    obtain ⟨r, hr, hr'⟩ := clear_spec (D := D) s.recvQueue
    have hexec : exec D J s .close = some { s with
        recvQueue := r, recvSize := 0, recvEvent := ⟨true, none⟩, wasHandshakeDone := false,
        inFlight := false } := by
      rw [exec, hr]
      rfl
    exact ⟨fun _ => ⟨_, hexec, ⟨h.enc, ⟨[], [], hr'⟩, nofun, fun _ => rfl, nofun⟩⟩,
      fun hn => absurd trivial hn⟩

theorem inv (h : (machine D J).ReachableBy Allowed s) : Inv s := by
  refine (machine D J).invariant_by (P := Inv) ?_ (fun s a s' hi ha hs => ?_) h
  · rintro _ rfl
    exact .new
  · obtain ⟨hen, hs⟩ := Option.ite_none_right_eq_some.mp hs
    obtain ⟨s₁, hs₁, h₁⟩ := (exec_ok hi hen).1 ha
    exact Option.some.inj (hs₁.symm.trans hs) ▸ h₁

/-- **Receiving in an SSL socket**, in both builds: in a run of allowed steps the stream has as
many buffers as the history says, no assertion fails at a step which is allowed, and the
assertion of `PrivRecv` fails at every step which is not. -/
theorem recv_ok (h : (machine D J).ReachableBy Allowed s) :
    s.encRecvQueue.head.length = s.reserved ∧
      ∀ a, enabled s a = true → ((exec D J s a).isSome = true ↔ Allowed s a) := by
  have hi := inv h
  refine ⟨hi.head_length, fun a hen => ⟨fun hs => ?_, fun ha => ?_⟩⟩
  · by_contra hn
    rw [(exec_ok hi hen).2 hn] at hs
    cases hs
  · obtain ⟨s', hs', -⟩ := (exec_ok (D := D) (J := J) hi hen).1 ha
    rw [hs']
    rfl

/-- The decryption gives the byte 7, which the user reads. It requests nothing more. -/
def seven : Decrypted := ⟨false, [([7], [])], by simp, 1, 0⟩

/-- A connected socket whose user requests some bytes, and gets fewer. -/
def requestedAndRead (size : ℕ) (bytes : List UInt8) : List Action :=
  [.unlockEvent, .handshake, .recv size, .privRecv seven (.now (.bytes bytes)) seven]

theorem requestedAndRead_ok : ∃ s, (machine false fun _ _ => 0).ReachableBy Allowed s ∧
    s.encRecvQueue.head = [] ∧
    (exec false (fun _ _ => 0) s (.privRecv seven .later seven)).isSome = true := by
  have hrun : ((machine false fun _ _ => 0).runBy Allowed .new
      (requestedAndRead 900 [1, 2, 3])).map
        (fun s => (s.encRecvQueue.head, decide (Allowed s (.privRecv seven .later seven)))) =
      some ([], true) := by
    decide +kernel
  simp only [Option.map_eq_some_iff, Prod.mk.injEq, decide_eq_true_eq] at hrun
  obtain ⟨s, hs, hempty, hallowed⟩ := hrun
  have h : (machine false fun _ _ => 0).ReachableBy Allowed s := .of_runBy (.init rfl) hs
  exact ⟨s, h, hempty, ((recv_ok h).2 _ rfl).mpr hallowed⟩

/-- After a request of three buffers and a read into the first of them, the next execution of the
task fails the assertion. -/
theorem requestedAndRead_fails : ∃ s, (machine false fun _ _ => 0).run .new
      (requestedAndRead 2000 (List.replicate 100 1)) = some s ∧
    s.recvSize = 0 ∧ s.wasHandshakeDone = true ∧ s.encRecvQueue.head.length = 2 ∧
    enabled s (.privRecv seven .later seven) = true ∧
    exec false (fun _ _ => 0) s (.privRecv seven .later seven) = none := by
  have hrun : ((machine false fun _ _ => 0).run .new
      (requestedAndRead 2000 (List.replicate 100 1))).map
        (fun s => (s.recvSize, s.wasHandshakeDone, s.encRecvQueue.head.length,
          enabled s (.privRecv seven .later seven),
          (exec false (fun _ _ => 0) s (.privRecv seven .later seven)).isNone)) =
      some (0, true, 2, true, true) := by
    decide +kernel
  simp only [Option.map_eq_some_iff, Prod.mk.injEq, Option.isNone_iff_eq_none] at hrun
  exact hrun

end SSLSocket

end Serverbox
