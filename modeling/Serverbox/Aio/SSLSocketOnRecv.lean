import Serverbox.Aio.SSLSocketRecv

/-!
# The receive callbacks of an SSL socket

A read which gives no application data, such as a service record of SSL, should not be visible to
the user of an `SSLSocket`: the comment in `PrivRecvCommit` says that the reading goes on until data
comes. Whether it came is judged from `IsEmpty` of the stream of the user, which tells whether the
stream has any buffer. The stream can have some before the read: with data which the user has left
there, or with free space behind the data which the user has read.

The receiver is that of `Serverbox.SSLSocket`. The history has the readable size at each call of
`OnRecv`, and the request which should be active: that of the user, until data comes or the socket
fails or closes.

Source: `src/mg/aio/SSLSocket.cpp`, `src/mg/net/Buffer.h`, `src/mg/net/Buffer.cpp`.

## Main definitions

* `SSLSocket.History`, `SSLSocket.tracedMachine`: the receiver with its history.
* `SSLSocket.Clean`: the steps at which a read without data finds no buffer in the stream.

## Main results

* `SSLSocket.onRecv_ok`: in a run of such steps `OnRecv` has something to read, and the request
  stays active.
-/

namespace Serverbox

namespace SSLSocket

open BufferStream

/-- The readable sizes at the calls of `OnRecv`, and the request which should be active. -/
structure History where
  calls : List ℕ
  owed : ℕ
  deriving DecidableEq

/-- The receiver and its history. -/
structure Traced where
  socket : State
  history : History
  deriving DecidableEq

variable (debug : Bool) (junk : ℕ → ℕ → UInt8)

/-- `PrivRecv` up to the second event, `none` when it has returned before. -/
def privRecvStart (s : State) (first : Decrypted) (answer : Answer) : Option State := do
  let (s, goOn) ← privRecvEventConsume debug s first
  if goOn = false then none
  else if s.recvSize = 0 ∧ s.wasHandshakeDone = true then none
  else
    let size := if s.recvSize = 0 then theBufferCopySize else s.recvSize
    let q ← s.encRecvQueue.ensureWriteSize debug junk size
    taskRecv debug { s with
      encRecvQueue := q, reserved := max s.reserved (buffersFor size) } answer

/-- What `PrivRecvCommit` adds to the history. -/
def History.commit (h : History) (s : State) (byteCount : ℕ) (d : Decrypted) : History :=
  if byteCount = 0 then h
  else if d.error then { h with owed := 0 }
  else match s.recvQueue.writeRef debug d.output with
    | none => h
    | some r =>
      ⟨if r.head ≠ [] then h.calls ++ [r.rsize] else h.calls,
        if d.output ≠ [] then d.recv % 2 ^ 64 else h.owed⟩

/-- What `PrivRecvEventConsume` adds to the history. -/
def History.consume (h : History) (s : State) (d : Decrypted) : History :=
  if s.recvEvent.isLocked then h
  else match s.recvEvent.result with
    | some (.bytes byteCount) => h.commit debug s byteCount d
    | _ => h

/-- The history after an action. -/
def History.act (h : History) (s : State) : Action → History
  | .recv size => { h with owed := (h.owed + size) % 2 ^ 64 }
  | .privRecv first answer second =>
    let h := h.consume debug s first
    match privRecvStart debug junk s first answer with
    | some s => h.consume debug s second
    | none => h
  | .close => { h with owed := 0 }
  | _ => h

/-- The receiver with its history. -/
def tracedMachine : Machine Traced Action where
  init t := t = ⟨.new, [], 0⟩
  step t a := ((machine debug junk).step t.socket a).map fun s =>
    ⟨s, t.history.act debug junk t.socket a⟩

/-- If the event has a read without data, then the stream of the user has no buffer. -/
def CleanRead (s : State) (d : Decrypted) : Prop :=
  match s.recvEvent.result with
  | some (.bytes n) => s.recvEvent.isLocked = false → n ≠ 0 → d.error = false →
      d.output = [] → s.recvQueue.head = []
  | _ => True

/-- Each read without data finds no buffer in the stream of the user. -/
def Clean (t : Traced) : Action → Prop
  | .privRecv first answer second => CleanRead t.socket first ∧
      match privRecvStart debug junk t.socket first answer with
      | some s => CleanRead s second
      | none => True
  | _ => True

instance (s : State) (d : Decrypted) : Decidable (CleanRead s d) := by
  dsimp only [CleanRead]
  rcases s.recvEvent.result with _ | r
  · infer_instance
  · cases r <;> infer_instance

instance (t : Traced) : (a : Action) → Decidable (Clean debug junk t a)
  | .privRecv first answer second =>
    have : (o : Option State) → Decidable (match o with
        | some s => CleanRead s second
        | none => True)
      | some s => inferInstanceAs (Decidable (CleanRead s second))
      | none => inferInstanceAs (Decidable True)
    have := this (privRecvStart debug junk t.socket first answer)
    inferInstanceAs (Decidable (CleanRead t.socket first ∧ _))
  | .recv _ | .ready | .complete _ | .unlockEvent | .handshake | .close =>
    inferInstanceAs (Decidable True)

/-- `OnRecv` had something to read, and the request is active. -/
structure Tracks (h : History) (s : State) : Prop where
  calls : ∀ n ∈ h.calls, 1 ≤ n
  owed : s.recvSize = h.owed

variable {D : Bool} {J : ℕ → ℕ → UInt8} {s s' : State} {h : History}

/-- `PrivRecv` goes on with the second event. -/
theorem privRecv_cases {first second : Decrypted} {answer : Answer}
    (hs : privRecv D J s first answer second = some s') :
    (privRecvStart D J s first answer = none ∧
      ∃ goOn, privRecvEventConsume D s first = some (s', goOn)) ∨
    ∃ s₁ s₂ goOn goOn₂, privRecvEventConsume D s first = some (s₁, goOn) ∧
      privRecvStart D J s first answer = some s₂ ∧
      privRecvEventConsume D s₂ second = some (s', goOn₂) := by
  rw [privRecv] at hs
  obtain ⟨⟨s₁, goOn⟩, hs₁, hs⟩ := Option.bind_eq_some_iff.mp hs
  rw [privRecvStart, hs₁]
  simp only [Option.bind_eq_bind, Option.bind_some]
  dsimp only at hs
  split at hs
  case isTrue hgo =>
    rw [if_pos hgo]
    exact .inl ⟨rfl, goOn, by rw [← Option.some.inj hs]⟩
  case isFalse hgo =>
    rw [if_neg hgo]
    split at hs
    case isTrue hidle =>
      rw [if_pos hidle]
      split at hs
      · exact .inl ⟨rfl, goOn, by rw [← Option.some.inj hs]⟩
      · cases hs
    case isFalse hidle =>
      rw [if_neg hidle]
      obtain ⟨q, hq, hs⟩ := Option.bind_eq_some_iff.mp hs
      obtain ⟨s₂, hs₂, hs⟩ := Option.bind_eq_some_iff.mp hs
      obtain ⟨⟨s₃, goOn₂⟩, hs₃, hs⟩ := Option.bind_eq_some_iff.mp hs
      obtain rfl := Option.some.inj hs
      refine .inr ⟨s₁, s₂, goOn, goOn₂, rfl, ?_, hs₃⟩
      rw [hq, Option.bind_some]
      exact hs₂

/-- The answer of the kernel does not change the request. -/
theorem received_recvSize {r : Received} (hs : received s r = some s') :
    s'.recvSize = s.recvSize ∧ s'.recvQueue = s.recvQueue := by
  cases r with
  | error =>
    obtain rfl := Option.some.inj hs
    exact ⟨rfl, rfl⟩
  | bytes l =>
    obtain ⟨⟨before, chain⟩, -, hs⟩ := Option.bind_eq_some_iff.mp hs
    obtain rfl := Option.some.inj hs
    exact ⟨rfl, rfl⟩

theorem taskRecv_recvSize {answer : Answer} (hs : taskRecv D s answer = some s') :
    s'.recvSize = s.recvSize ∧ s'.recvQueue = s.recvQueue := by
  unfold taskRecv at hs
  obtain ⟨⟨_, b, after⟩, -, hs⟩ := Option.bind_eq_some_iff.mp hs
  obtain ⟨-, -, hs⟩ := Option.bind_eq_some_iff.mp hs
  obtain ⟨-, -, hs⟩ := Option.bind_eq_some_iff.mp hs
  split at hs
  · cases hs
  · cases answer with
    | later =>
      obtain rfl := Option.some.inj hs
      exact ⟨rfl, rfl⟩
    | now r => exact received_recvSize hs

/-- The state before the second event has the request and the stream which the first event has
left. -/
theorem privRecvStart_recvSize {first : Decrypted} {answer : Answer} {s₁ s₂ : State}
    {goOn : Bool} (hs₁ : privRecvEventConsume D s first = some (s₁, goOn))
    (hs₂ : privRecvStart D J s first answer = some s₂) :
    s₂.recvSize = s₁.recvSize ∧ s₂.recvQueue = s₁.recvQueue := by
  rw [privRecvStart, hs₁] at hs₂
  simp only [Option.bind_eq_bind, Option.bind_some] at hs₂
  split at hs₂
  · cases hs₂
  split at hs₂
  · cases hs₂
  obtain ⟨q, -, hs₂⟩ := Option.bind_eq_some_iff.mp hs₂
  have := taskRecv_recvSize hs₂
  exact this

/-- **One read.** -/
theorem Tracks.commit (ht : Tracks h s) (hq : s.recvQueue.Inv) {n : ℕ} {d : Decrypted}
    (hclean : n ≠ 0 → d.error = false → d.output = [] → s.recvQueue.head = [])
    (hs : privRecvCommit D s n d = some s') :
    Tracks (h.commit D s n d) s' ∧ s'.recvQueue.Inv := by
  rw [privRecvCommit] at hs
  rw [History.commit]
  by_cases hzero : n = 0
  · rw [if_pos hzero] at hs ⊢
    obtain rfl := Option.some.inj hs
    exact ⟨ht, hq⟩
  rw [if_neg hzero] at hs ⊢
  obtain ⟨q₁, -, hs⟩ := Option.bind_eq_some_iff.mp hs
  obtain ⟨⟨_, q⟩, -, hs⟩ := Option.bind_eq_some_iff.mp hs
  obtain ⟨rd, em, hshape⟩ := hq
  obtain ⟨r, rd', em', hr, hr', hbytes⟩ := hshape.writeRef (D := D) d.filled
  obtain ⟨r₁, hr₁, hs⟩ := Option.bind_eq_some_iff.mp hs
  obtain rfl := Option.some.inj (hr.symm.trans hr₁)
  by_cases herr : d.error = true
  · rw [if_pos herr] at hs ⊢
    obtain rfl := Option.some.inj hs
    exact ⟨⟨ht.calls, rfl⟩, rd', em', hr'⟩
  rw [if_neg herr] at hs ⊢
  rw [hr]
  rw [Bool.not_eq_true] at herr
  by_cases hout : d.output = []
  · -- No data came, and the stream has no buffer.
    have hsame : r = s.recvQueue := by
      rw [hout] at hr
      exact (Option.some.inj hr).symm
    have hhead : r.head = [] := hsame ▸ hclean hzero herr hout
    rw [if_neg (not_not.mpr hhead)] at hs
    obtain rfl := Option.some.inj hs
    refine ⟨⟨?_, ?_⟩, rd', em', hr'⟩
    · simpa [hhead] using ht.calls
    · simpa [hout] using ht.owed
  · -- Data came, and it is readable.
    obtain ⟨b, l, hbl⟩ := List.exists_cons_of_ne_nil hout
    have hb : b.1 ≠ [] := d.filled b (by rw [hbl]; exact List.mem_cons_self)
    have hpos : 1 ≤ r.rsize := by
      have := List.length_pos_iff.mpr hb
      rw [hr'.rsize, hbytes, hbl, List.flatMap_cons]
      simp only [List.length_append]
      omega
    have hhead : r.head ≠ [] := by
      intro hnil
      have hrd : rd' = [] := (List.append_eq_nil_iff.mp (hr'.head.symm.trans hnil)).1
      rw [hr'.rsize, hrd] at hpos
      exact absurd hpos (by simp)
    rw [if_pos hhead] at hs
    obtain ⟨r', hskip, hs⟩ := Option.bind_eq_some_iff.mp hs
    obtain ⟨r₂, rd₂, em₂, hr₂, hshape₂, -⟩ :=
      hr'.skipData (D := D) (Nat.min_le_right d.read r.rsize)
    obtain rfl := Option.some.inj (hr₂.symm.trans hskip)
    obtain rfl := Option.some.inj hs
    refine ⟨⟨?_, ?_⟩, rd₂, em₂, hshape₂⟩
    · simp only [if_pos hhead, List.mem_append, List.mem_singleton]
      rintro m (hm | rfl)
      · exact ht.calls m hm
      · exact hpos
    · simp [hout]

/-- One event. -/
theorem Tracks.consume (ht : Tracks h s) (hq : s.recvQueue.Inv) {d : Decrypted} {goOn : Bool}
    (hclean : CleanRead s d) (hs : privRecvEventConsume D s d = some (s', goOn)) :
    Tracks (h.consume D s d) s' ∧ s'.recvQueue.Inv := by
  rw [privRecvEventConsume] at hs
  rw [History.consume]
  by_cases hl : s.recvEvent.isLocked = true
  · rw [if_pos hl] at hs ⊢
    obtain ⟨rfl, -⟩ := Prod.mk.inj (Option.some.inj hs)
    exact ⟨ht, hq⟩
  rw [if_neg hl] at hs ⊢
  rw [Bool.not_eq_true] at hl
  cases hr : s.recvEvent.result with
  | none =>
    rw [hr] at hs
    obtain ⟨rfl, -⟩ := Prod.mk.inj (Option.some.inj hs)
    exact ⟨ht, hq⟩
  | some r =>
    rw [hr] at hs
    cases r with
    | error =>
      obtain ⟨rfl, -⟩ := Prod.mk.inj (Option.some.inj hs)
      exact ⟨⟨ht.calls, ht.owed⟩, hq⟩
    | bytes n =>
      obtain ⟨s₁, hs₁, hs⟩ := Option.bind_eq_some_iff.mp hs
      obtain ⟨rfl, -⟩ := Prod.mk.inj (Option.some.inj hs)
      have ht' : Tracks h { s with recvEvent := ⟨false, none⟩ } := ⟨ht.calls, ht.owed⟩
      simp only [CleanRead, hr] at hclean
      exact ht'.commit hq (hclean hl) hs₁

/-- One action. -/
theorem Tracks.act (ht : Tracks h s) (hq : s.recvQueue.Inv) {a : Action}
    (hclean : Clean D J ⟨s, h⟩ a) (hs : exec D J s a = some s') :
    Tracks (h.act D J s a) s' ∧ s'.recvQueue.Inv := by
  cases a with
  | recv size =>
    obtain rfl := Option.some.inj hs
    exact ⟨⟨ht.calls, by simp only [History.act, ht.owed]⟩, hq⟩
  | privRecv first answer second =>
    obtain ⟨hfirst, hsecond⟩ := hclean
    obtain ⟨hnone, goOn, hs₁⟩ | ⟨s₁, s₂, goOn, goOn₂, hs₁, hs₂, hs₃⟩ := privRecv_cases hs
    · simp only [History.act, hnone]
      exact ht.consume hq hfirst hs₁
    · obtain ⟨ht₁, hq₁⟩ := ht.consume hq hfirst hs₁
      obtain ⟨hsize, hqueue⟩ := privRecvStart_recvSize hs₁ hs₂
      have ht₂ : Tracks (h.consume D s first) s₂ := ⟨ht₁.calls, hsize.trans ht₁.owed⟩
      simp only [hs₂] at hsecond
      simp only [History.act, hs₂]
      exact ht₂.consume (hqueue ▸ hq₁) hsecond hs₃
  | ready =>
    obtain rfl := Option.some.inj hs
    exact ⟨⟨ht.calls, ht.owed⟩, hq⟩
  | complete r =>
    obtain ⟨hsize, hqueue⟩ := received_recvSize hs
    exact ⟨⟨ht.calls, hsize.trans ht.owed⟩, hqueue ▸ hq⟩
  | unlockEvent =>
    obtain rfl := Option.some.inj hs
    exact ⟨⟨ht.calls, ht.owed⟩, hq⟩
  | handshake =>
    obtain rfl := Option.some.inj hs
    exact ⟨⟨ht.calls, ht.owed⟩, hq⟩
  | close =>
    obtain ⟨r, hr, hs⟩ := Option.bind_eq_some_iff.mp hs
    obtain rfl := Option.some.inj hs
    obtain ⟨r', hr', hshape⟩ := clear_spec (D := D) s.recvQueue
    obtain rfl := Option.some.inj (hr'.symm.trans hr)
    exact ⟨⟨ht.calls, rfl⟩, [], [], hshape⟩

/-- **The receive callbacks.** In every run in which each read without data finds no buffer in the
stream of the user, `OnRecv` has at least one readable byte at each call, and the request of the
user is active until data comes, or the socket fails or closes. -/
theorem onRecv_ok {t : Traced} (ht : (tracedMachine D J).ReachableBy (Clean D J) t) :
    (∀ n ∈ t.history.calls, 1 ≤ n) ∧ t.socket.recvSize = t.history.owed := by
  have hmain : Tracks t.history t.socket ∧ t.socket.recvQueue.Inv := by
    refine (tracedMachine D J).invariant_by
      (P := fun t => Tracks t.history t.socket ∧ t.socket.recvQueue.Inv) ?_ ?_ ht
    · rintro _ rfl
      exact ⟨⟨by simp, rfl⟩, [], [], new_shape⟩
    · rintro ⟨s, h⟩ a t' ⟨htracks, hq⟩ hclean hs
      obtain ⟨s', hs', rfl⟩ := Option.map_eq_some_iff.mp hs
      obtain ⟨-, hs'⟩ := Option.ite_none_right_eq_some.mp hs'
      exact htracks.act hq hclean hs'
  exact ⟨hmain.1.calls, hmain.1.owed⟩

/-- The decryption gives no application data. The user reads nothing and requests nothing. -/
def service : Decrypted := ⟨false, [], by simp, 0, 0⟩

/-- A service record and then data. -/
theorem onRecv_ok_service : ∃ t : Traced,
    (tracedMachine false fun _ _ => 0).ReachableBy (Clean false fun _ _ => 0) t ∧
      t.history = ⟨[1], 0⟩ ∧ t.socket.recvSize = t.history.owed := by
  obtain ⟨t, ht, hhistory⟩ : ∃ t, (tracedMachine false fun _ _ => 0).runBy
      (Clean false fun _ _ => 0) ⟨.new, [], 0⟩
      [.unlockEvent, .handshake, .recv 900, .privRecv seven (.now (.bytes [1, 2, 3])) service,
        .privRecv seven (.now (.bytes [4, 5])) seven] = some t ∧ t.history = ⟨[1], 0⟩ :=
    Option.map_eq_some_iff.mp (by decide +kernel)
  have h : (tracedMachine false fun _ _ => 0).ReachableBy (Clean false fun _ _ => 0) t :=
    .of_runBy (.init rfl) ht
  exact ⟨t, h, hhistory, (onRecv_ok h).2⟩

/-- The decryption gives the byte 7 in a buffer with free space. The user reads it and requests 100
more bytes. -/
def sevenAndMore : Decrypted where
  error := false
  output := [([7], List.replicate 983 0)]
  filled b hb := by
    rw [List.mem_singleton.mp hb]
    exact List.cons_ne_nil 7 []
  read := 1
  recv := 100

/-- Data and then a service record: `OnRecv` is called with nothing to read, and the request is
forgotten. -/
theorem onRecv_empty : ∃ t : Traced, (tracedMachine false fun _ _ => 0).Reachable t ∧
    t.history.calls = [1, 0] ∧ t.history.owed = 100 ∧ t.socket.recvSize = 0 := by
  obtain ⟨t, ht, hrest⟩ : ∃ t, (tracedMachine false fun _ _ => 0).run ⟨.new, [], 0⟩
      [.unlockEvent, .handshake, .recv 100, .privRecv seven (.now (.bytes [1, 2, 3])) sevenAndMore,
        .privRecv seven (.now (.bytes [4, 5])) service] = some t ∧
      (t.history.calls, t.history.owed, t.socket.recvSize) = ([1, 0], 100, 0) :=
    Option.map_eq_some_iff.mp (by decide +kernel)
  obtain ⟨hcalls, hrest⟩ := Prod.mk.inj hrest
  obtain ⟨howed, hsize⟩ := Prod.mk.inj hrest
  exact ⟨t, .of_run (.init rfl) ht, hcalls, howed, hsize⟩

end SSLSocket

end Serverbox
