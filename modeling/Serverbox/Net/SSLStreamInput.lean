import Mathlib.Data.List.Chain
import Serverbox.Net.SSLStreamOutput

/-!
# The application input of the encrypted stream

`AppendAppInputCopy` writes its bytes directly when nothing is kept, and keeps a copy of them when
the handshake is not over, when older bytes are kept, or when OpenSSL postpones the write. The kept
bytes are written by whole buffers at the start of the next calls.

The stream of `Serverbox.SSLStream` is extended by the history of its attempts to write, with the
bytes which are given to OpenSSL, and by the bytes which were appended. OpenSSL answers a write with
a full success, or asks to repeat it; a handshake may also fail, and then the stream is closing.

Source: `src/mg/net/SSLStreamOpenSSL.cpp`.

## Main definitions

* `SSLStream.Input`: the stream with its input, and its methods.
* `SSLStream.retried`: the answers after which a write is repeated.

## Main results

* `SSLStream.Input.step_stream`: the steps are those of the stream.
* `SSLStream.input_kept`: nothing is lost, repeated or reordered.
-/

namespace Serverbox

namespace SSLStream

/-- The bytes which a chain keeps. -/
def Chain.content (l : Chain) : List UInt8 := l.flatMap Prod.fst

/-- An attempt to write some bytes, and whether it has succeeded. -/
structure Attempt where
  data : List UInt8
  ok : Bool
  deriving DecidableEq

/-- The stream, the bytes which were appended, and the attempts to write, in their order. -/
structure Input where
  stream : State
  appended : List UInt8
  attempts : List Attempt

namespace Input

/-- The bytes of the successful writes. -/
def written (t : Input) : List UInt8 := (t.attempts.filter Attempt.ok).flatMap Attempt.data

/-- `PrivAppWrite` of some bytes. -/
def appWrite (t : Input) (data : List UInt8) : ℤ × Input :=
  let r := t.stream.appWrite
  (r.1, { t with stream := r.2, attempts := t.attempts ++ [⟨data, 0 < r.1⟩] })

/-- The loop of `PrivFlushAppInput`. -/
def flushLoop : Chain → Input → Bool × Input
  | [], t => (true, { t with stream := { t.stream with appInput := [] } })
  | (bytes, room) :: l, t =>
    let s : State := { t.stream with appInput := (bytes, room) :: l }
    if Chain.readSize s.appInput = 0 then (true, { t with stream := s })
    else
      let r := ({ t with stream := s.assert (bytes ≠ []) } : Input).appWrite bytes
      if r.1 < 0 then (false, r.2)
      else if r.1 = 0 then (true, r.2)
      else if room = 0 then flushLoop l r.2
      else (true, { r.2 with
        stream := ({ r.2.stream with appInput := ([], room) :: l } : State).assert
          (Chain.readSize l = 0) })

/-- `PrivUpdate`. -/
def privUpdate (t : Input) : Bool × Input :=
  if t.stream.state = .connected then flushLoop t.stream.appInput t
  else
    let r := t.stream.privUpdate
    (r.1, { t with stream := r.2 })

/-- `AppendAppInputCopy`. -/
def appendAppInputCopy (t : Input) (data : List UInt8) : Input :=
  let t := { t with appended := t.appended ++ data }
  let r := t.privUpdate
  if r.1 = false then
    let s := r.2.stream.assert (r.2.stream.state ≠ .connected)
    if s.state = .new then { r.2 with stream := s }
    else if s.state.closes then { r.2 with stream := s }
    else { r.2 with stream := (s.assert (s.state = .connecting)).store data }
  else if r.2.stream.appInput ≠ [] then { r.2 with stream := r.2.stream.store data }
  else
    let w := r.2.appWrite data
    if w.1 = 0 then { w.2 with stream := w.2.stream.store data } else w.2

end Input

/-- The calls: some bytes are appended, or none. -/
abbrev InputCall := Option (List UInt8) × List Answer

namespace Input

/-- A call with the answers of OpenSSL. -/
def call (t : Input) (c : InputCall) : Input :=
  let t := { t with stream := { t.stream with answers := c.2 } }
  match c.1 with
  | none => t.privUpdate.2
  | some data => t.appendAppInputCopy data

/-- One call; not enabled when the answers are not those to what the stream asks. -/
def step (t : Input) (c : InputCall) : Option Input :=
  let t' := t.call c
  if t'.stream.answers = [] ∧ t'.stream.fits = true then some t' else none

/-- A stream on which `Connect` was just called. -/
def connected : Input := ⟨State.init.connect, [], []⟩

/-- Any appends and updates of a stream after `Connect`. -/
def machine : Machine Input InputCall where
  init t := t = connected
  step := step

end Input

/-- Success, or a request to repeat the call. -/
def Answer.calm : Answer → Bool
  | done | failed .wantRead | failed .wantWrite => true
  | _ => false

/-- Every call of OpenSSL succeeds or is to be repeated, unless the handshake fails. -/
def retried (t : Input) (c : InputCall) : Bool :=
  c.2.all Answer.calm || (t.stream.state = .connecting && match c.2 with
    | .failed err :: _ => !(Answer.failed err).calm
    | _ => false)

/-- An attempt after a postponed one starts with the bytes of this one, as far as they fit into a
buffer. -/
def Resumed (attempts : List Attempt) : Prop :=
  attempts.IsChain fun a b => a.ok = false → a.data.take Chain.capacity <+: b.data

variable {t t' : Input} {c : InputCall} {s : State} {l : Chain} {data : List UInt8}

/-! ### The steps of the stream -/

namespace Input

theorem flushLoop_stream (l : Chain) (t : Input) :
    (flushLoop l t).1 = (State.flushLoop l t.stream).1 ∧
      (flushLoop l t).2.stream = (State.flushLoop l t.stream).2 := by
  induction l generalizing t with
  | nil => exact ⟨rfl, rfl⟩
  | cons b l ih =>
    obtain ⟨bytes, room⟩ := b
    rw [flushLoop, State.flushLoop]
    dsimp only [appWrite]
    split
    · exact ⟨rfl, rfl⟩
    · split
      · exact ⟨rfl, rfl⟩
      · split
        · exact ⟨rfl, rfl⟩
        · split
          · exact ih _
          · exact ⟨rfl, rfl⟩

theorem privUpdate_stream (t : Input) : t.privUpdate.1 = t.stream.privUpdate.1 ∧
    t.privUpdate.2.stream = t.stream.privUpdate.2 := by
  unfold privUpdate
  split
  · rename_i hs
    have := flushLoop_stream t.stream.appInput t
    unfold State.privUpdate
    rw [hs]
    exact this
  · exact ⟨rfl, rfl⟩

theorem appendAppInputCopy_stream (t : Input) (data : List UInt8) :
    (t.appendAppInputCopy data).stream = t.stream.appendAppInputCopy data := by
  have hupdate := privUpdate_stream { t with appended := t.appended ++ data }
  rcases hr : ({ t with appended := t.appended ++ data } : Input).privUpdate with ⟨b, t₁⟩
  rw [hr] at hupdate
  have hs : t.stream.privUpdate = (b, t₁.stream) := Prod.ext hupdate.1.symm hupdate.2.symm
  unfold appendAppInputCopy State.appendAppInputCopy
  dsimp only
  rw [hr, hs]
  dsimp only
  split
  · split
    · rfl
    · split <;> rfl
  · split
    · rfl
    · by_cases hw : t₁.stream.appWrite.1 = 0
      · rw [if_pos hw, if_pos (show (t₁.appWrite data).1 = 0 from hw)]
        rfl
      · rw [if_neg hw, if_neg (show ¬ (t₁.appWrite data).1 = 0 from hw)]
        rfl

/-- The input follows the stream: its steps are steps of the stream. -/
theorem step_stream (h : step t c = some t') : SSLStream.step t.stream
    (match c.1 with
      | none => .update
      | some data => .appendAppInputCopy data, c.2) = some t'.stream := by
  unfold step at h
  dsimp only at h
  split at h
  · rename_i hc
    obtain ⟨hans, hfits⟩ := hc
    obtain rfl := Option.some.inj h
    obtain ⟨op, answers⟩ := c
    unfold SSLStream.step
    cases op with
    | none =>
      have hrun : (t.call (none, answers)).stream =
          Method.update.run { t.stream with answers } := (privUpdate_stream _).2
      rw [hrun] at hans hfits ⊢
      exact if_pos ⟨rfl, hans, hfits⟩
    | some data =>
      have hrun : (t.call (some data, answers)).stream =
          (Method.appendAppInputCopy data).run { t.stream with answers } :=
        appendAppInputCopy_stream _ data
      rw [hrun] at hans hfits ⊢
      exact if_pos ⟨rfl, hans, hfits⟩
  · cases h

end Input

/-! ### Chains -/

namespace Chain

theorem content_fresh {n : ℕ} (h : data.length ≤ n) : content (fresh n data) = data := by
  induction n generalizing data with
  | zero =>
    rw [List.length_eq_zero_iff.mp (Nat.le_zero.mp h)]
    rfl
  | succ n ih =>
    rw [fresh]
    split
    · rename_i hnil
      rw [hnil]
      rfl
    · have hlen : (data.drop capacity).length ≤ n := by
        have hcap : 0 < capacity := by decide
        rw [List.length_drop]
        omega
      have := ih hlen
      simp only [content, List.flatMap_cons] at this ⊢
      rw [this, List.take_append_drop]

theorem content_writeCopy (l : Chain) (data : List UInt8) :
    content (l.writeCopy data) = content l ++ data := by
  fun_induction writeCopy l data with
  | case1 data => exact content_fresh (Nat.le_refl _)
  | case2 bytes room data =>
    have := content_fresh (Nat.le_refl (data.drop room).length)
    simp only [content, List.flatMap_cons, List.flatMap_nil, List.append_nil] at this ⊢
    rw [this, List.append_assoc, List.take_append_drop]
  | case3 b l data hl ih =>
    simp only [content, List.flatMap_cons] at ih ⊢
    rw [ih, List.append_assoc]

/-- The bytes are at the beginning of the chain, as far as they fit into a buffer. -/
def Starts (l : Chain) (data : List UInt8) : Prop :=
  data = [] ∨ ∃ b l', l = b :: l' ∧ data.take capacity <+: b.1

theorem starts_fresh (data : List UInt8) : Starts (writeCopy [] data) data := by
  rw [writeCopy]
  cases data with
  | nil => exact .inl rfl
  | cons a data =>
    rw [List.length_cons, fresh, if_neg (List.cons_ne_nil a data)]
    exact .inr ⟨_, _, rfl, List.prefix_rfl⟩

theorem Starts.writeCopy {d : List UInt8} (h : Starts l d) (data : List UInt8) :
    Starts (l.writeCopy data) d := by
  rcases h with rfl | ⟨b, l', rfl, hb⟩
  · exact .inl rfl
  · cases l' with
    | nil => exact .inr ⟨_, _, rfl, hb.trans (List.prefix_append _ _)⟩
    | cons c l' => exact .inr ⟨b, _, rfl, hb⟩

end Chain

/-! ### The invariant -/

/-- What holds as long as the stream is not closing. -/
structure Kept (t : Input) : Prop where
  wf : t.stream.appInput.Wf
  bytes : t.written ++ t.stream.appInput.content = t.appended
  resumed : Resumed t.attempts
  next : ∀ a ∈ t.attempts.getLast?, a.ok = false → t.stream.appInput.Starts a.data

/-- The history does not depend on the rest of the stream. -/
theorem Kept.congr (h : Kept t) (hs : s.appInput = t.stream.appInput) :
    Kept { t with stream := s } := by
  obtain ⟨hwf, hbytes, hresumed, hnext⟩ := h
  rw [← hs] at hwf hbytes hnext
  exact ⟨hwf, hbytes, hresumed, hnext⟩

/-- A write which is answered calmly succeeds or is postponed. -/
theorem Input.appWrite_calm (h : t.stream.answers.all Answer.calm = true) (data : List UInt8) :
    ∃ s : State, s.state = t.stream.state ∧ s.appInput = t.stream.appInput ∧
      s.answers.all Answer.calm = true ∧
      (t.appWrite data = (0, { t with stream := s, attempts := t.attempts ++ [⟨data, false⟩] }) ∨
        t.appWrite data =
          (1, { t with stream := s, attempts := t.attempts ++ [⟨data, true⟩] })) := by
  have hask := ask_cases { t.stream with late := t.stream.late || t.stream.fatal }
  unfold Input.appWrite State.appWrite State.dataCall
  obtain ⟨a, l, hl, he⟩ | he := hask
  · have hl : t.stream.answers = a :: l := hl
    rw [hl, List.all_cons, Bool.and_eq_true] at h
    rw [he]
    cases a with
    | done =>
      exact ⟨{ t.stream with late := t.stream.late || t.stream.fatal, answers := l }, rfl, rfl, h.2,
        .inr rfl⟩
    | failed err =>
      cases err with
      | wantRead | wantWrite =>
        exact ⟨{ t.stream with late := t.stream.late || t.stream.fatal, answers := l }, rfl, rfl,
          h.2, .inl rfl⟩
      | zeroReturn | fatal code => cases h.1
    | quiet | unasked => cases h.1
  · rw [he]
    exact ⟨{ t.stream with late := t.stream.late || t.stream.fatal, fits := false }, rfl, rfl, h,
      .inr rfl⟩

theorem Input.written_append (t : Input) (s : State) (appended : List UInt8) (a : Attempt) :
    ({ stream := s, appended, attempts := t.attempts ++ [a] } : Input).written =
      t.written ++ if a.ok then a.data else [] := by
  unfold Input.written
  dsimp only
  rw [List.filter_append, List.flatMap_append]
  by_cases ha : a.ok = true
  · rw [if_pos ha, List.filter_cons_of_pos ha]
    simp
  · rw [if_neg ha, List.filter_cons_of_neg ha]
    simp

/-- An attempt which starts with the bytes that are to be repeated. -/
theorem Resumed.snoc {attempts : List Attempt} (h : Resumed attempts) {a : Attempt}
    (hlast : ∀ b ∈ attempts.getLast?, b.ok = false → b.data.take Chain.capacity <+: a.data) :
    Resumed (attempts ++ [a]) := by
  refine List.isChain_append.mpr ⟨h, List.isChain_singleton a, fun b hb c hc => ?_⟩
  obtain rfl : a = c := by simpa using hc
  exact hlast b hb

/-- The last attempt is the one which was added. -/
theorem forall_getLast?_snoc {P : Attempt → Prop} {attempts : List Attempt} {b : Attempt}
    (h : P b) : ∀ a ∈ (attempts ++ [b]).getLast?, P a := by
  intro a ha
  rw [List.getLast?_append_of_ne_nil _ (List.cons_ne_nil _ _)] at ha
  exact Option.some.inj ha ▸ h

/-- When nothing is kept there is nothing to be repeated. -/
theorem Kept.snoc_of_nil (h : Kept t) (hempty : t.stream.appInput = []) (a : Attempt) :
    Resumed (t.attempts ++ [a]) := by
  refine h.resumed.snoc fun b hb hok => ?_
  rcases h.next b hb hok with hnil | ⟨c, l', hc, -⟩
  · rw [hnil, List.take_nil]
    exact List.nil_prefix
  · rw [hempty] at hc
    cases hc

/-- The first bytes of the chain are written. -/
theorem Kept.starts (h : Kept t) {bytes : List UInt8} {room : ℕ} {l : Chain}
    (hl : t.stream.appInput = (bytes, room) :: l) :
    ∀ b ∈ t.attempts.getLast?, b.ok = false → b.data.take Chain.capacity <+: bytes := by
  intro b hb hok
  rcases h.next b hb hok with hnil | ⟨c, l', hc, hpre⟩
  · rw [hnil, List.take_nil]
    exact List.nil_prefix
  · rw [hl] at hc
    obtain rfl := (List.cons.inj hc).1
    exact hpre

/-- The loop which writes the kept bytes. -/
theorem Kept.flushLoop (l : Chain)
    (h : Kept { t with stream := { t.stream with appInput := l } })
    (hcalm : t.stream.answers.all Answer.calm = true) :
    (Input.flushLoop l t).1 = true ∧ Kept (Input.flushLoop l t).2 ∧
      (Input.flushLoop l t).2.stream.state = t.stream.state ∧
      (Input.flushLoop l t).2.stream.answers.all Answer.calm = true ∧
      (Input.flushLoop l t).2.appended = t.appended := by
  induction l generalizing t with
  | nil => exact ⟨rfl, h, rfl, hcalm, rfl⟩
  | cons b l ih =>
    obtain ⟨bytes, room⟩ := b
    rw [Input.flushLoop]
    dsimp only
    split
    · exact ⟨rfl, h, rfl, hcalm, rfl⟩
    · rename_i hsize
      have hstarts : ∀ b ∈ t.attempts.getLast?, b.ok = false →
          b.data.take Chain.capacity <+: bytes := h.starts rfl
      obtain ⟨s, hstate, happ, hans, hcall | hcall⟩ := Input.appWrite_calm (t := { t with
        stream := ({ t.stream with appInput := (bytes, room) :: l } : State).assert
          (decide (bytes ≠ [])) }) hcalm bytes
      · -- the write is postponed
        have hpost : Kept { t with stream := s, attempts := t.attempts ++ [⟨bytes, false⟩] } := by
          refine ⟨?_, ?_, h.resumed.snoc hstarts, forall_getLast?_snoc fun _ =>
            .inr ⟨_, _, happ, List.take_prefix _ _⟩⟩
          · dsimp only
            rw [happ]
            exact h.wf
          · dsimp only
            rw [happ, Input.written_append, if_neg Bool.false_ne_true, List.append_nil]
            exact h.bytes
        rw [hcall]
        exact ⟨rfl, hpost, hstate, hans, rfl⟩
      · -- the buffer is written
        obtain ⟨-, hlast, hwf⟩ := h.wf
        have hdone : ∀ (c : Chain), c.Wf → Chain.content c = Chain.content l →
            Kept { t with
              stream := { s with appInput := c }
              attempts := t.attempts ++ [⟨bytes, true⟩] } := fun c hc hcontent => by
          refine ⟨hc, ?_, h.resumed.snoc hstarts, forall_getLast?_snoc nofun⟩
          dsimp only
          rw [hcontent, Input.written_append, if_pos rfl, List.append_assoc]
          exact h.bytes
        rw [hcall]
        by_cases hroom : room = 0
        · subst hroom
          have hrest := ih (t := { t with
            stream := s, attempts := t.attempts ++ [⟨bytes, true⟩] }) (hdone l hwf rfl) hans
          simp only [Int.reduceLT, if_false, one_ne_zero, if_true]
          exact ⟨hrest.1, hrest.2.1, hrest.2.2.1.trans hstate, hrest.2.2.2⟩
        · -- the buffer with free bytes is the last one
          have hl : l = [] := by
            by_contra hl
            exact hroom (hlast hl)
          subst hl
          have hkept := hdone [([], room)] ⟨fun he => absurd he hroom, nofun, trivial⟩ rfl
          simp only [Int.reduceLT, if_false, one_ne_zero, hroom]
          exact ⟨trivial, hkept.congr rfl, hstate, hans, trivial⟩

/-! ### A stream which is closing stays so -/

theorem close_closes (e : ℕ) : (s.close e).state.closes = true := by
  unfold State.close
  dsimp only
  by_cases hc : s.state = .closed
  · rw [if_pos (show (s.assert (decide (e ≠ 0))).state = .closed from hc)]
    exact Stage.closes_iff.mpr (.inr hc)
  · rw [if_neg (show ¬ (s.assert (decide (e ≠ 0))).state = .closed from hc)]
    repeat' split
    all_goals rfl

theorem checkError_closes (a : Answer) (h : s.state.closes = true) :
    (s.checkError a).2.state.closes = true := by
  cases a with
  | failed err =>
    cases err with
    | wantRead | wantWrite => exact h
    | zeroReturn => rfl
    | fatal code => exact close_closes code
  | done | quiet | unasked => exact h

theorem appWrite_closes (h : s.state.closes = true) : s.appWrite.2.state.closes = true := by
  have hcall := dataCall_state s
  unfold State.appWrite
  split
  · rename_i u hu
    rw [hu] at hcall
    exact hcall ▸ h
  · rename_i a u _ hu
    rw [hu] at hcall
    have hcheck := checkError_closes (s := u) a (hcall ▸ h)
    split <;> rename_i r <;> simpa [r] using hcheck

theorem privUpdate_closes (h : s.state.closes = true) : s.privUpdate.2.state.closes = true := by
  unfold State.privUpdate
  split
  · rename_i hs
    rw [hs] at h
    cases h
  · exact h
  · have hask := ask_state (s.assert (decide (s.appInput = [])))
    split <;> rename_i u hu <;> rw [hu] at hask
    · rfl
    · exact hask ▸ h
    · exact checkError_closes _ (hask ▸ h)
  · exact h
  · rename_i hs
    rw [hs] at h
    cases h

/-- A handshake which fails closes the stream. -/
theorem privUpdate_fails {err : Error} {l : List Answer} (hs : s.state = .connecting)
    (hl : s.answers = .failed err :: l) (herr : (Answer.failed err).calm = false) :
    s.privUpdate.2.state.closes = true := by
  have hcall : (s.assert (decide (s.error = 0))).dataCall = (.failed err,
      { s.assert (decide (s.error = 0)) with late := s.late || s.fatal, answers := l }) := by
    rw [State.dataCall, State.ask]
    simp only [State.assert, hl]
  unfold State.privUpdate
  rw [hs]
  dsimp only
  rw [hcall]
  cases err with
  | wantRead | wantWrite => cases herr
  | zeroReturn => rfl
  | fatal code => exact close_closes code

/-! ### Calls -/

theorem Kept.privUpdate (h : Kept t)
    (hopen : t.stream.state = .connecting ∨ t.stream.state = .connected)
    (hcalm : t.stream.answers.all Answer.calm = true) :
    t.privUpdate.1 = true ∧ Kept t.privUpdate.2 ∧
      (t.privUpdate.2.stream.state = .connecting ∨ t.privUpdate.2.stream.state = .connected) ∧
      t.privUpdate.2.stream.answers.all Answer.calm = true ∧
      t.privUpdate.2.appended = t.appended := by
  unfold Input.privUpdate
  by_cases hs : t.stream.state = .connected
  · rw [if_pos hs]
    obtain ⟨htrue, hkept, hstate, hans, happended⟩ := Kept.flushLoop t.stream.appInput h hcalm
    exact ⟨htrue, hkept, .inr (hstate.trans hs), hans, happended⟩
  · rw [if_neg hs]
    have hs := hopen.resolve_right hs
    have hask := ask_cases ({ t.stream.assert (decide (t.stream.error = 0)) with
      late := t.stream.late || t.stream.fatal } : State)
    have hset : ∀ u : State, u.state = .connecting → (u.setState .connected).appInput = u.appInput ∧
        (u.setState .connected).answers = u.answers := fun u hu => by
      simp [State.setState, State.assert, hu, Stage.closes]
    unfold State.privUpdate State.dataCall
    rw [hs]
    dsimp only
    obtain ⟨a, l, hl, he⟩ | he := hask
    · have hl : t.stream.answers = a :: l := hl
      rw [hl, List.all_cons, Bool.and_eq_true] at hcalm
      rw [show ({ t.stream.assert (decide (t.stream.error = 0)) with
        late := (t.stream.assert (decide (t.stream.error = 0))).late ||
          (t.stream.assert (decide (t.stream.error = 0))).fatal } : State).ask = _ from he]
      cases a with
      | done =>
        obtain ⟨happ, hans⟩ := hset { t.stream.assert (decide (t.stream.error = 0)) with
          late := t.stream.late || t.stream.fatal, answers := l } hs
        exact ⟨rfl, h.congr happ, .inr rfl, (congrArg (·.all Answer.calm) hans).trans hcalm.2, rfl⟩
      | failed err =>
        cases err with
        | wantRead | wantWrite => exact ⟨rfl, h.congr rfl, .inl hs, hcalm.2, rfl⟩
        | zeroReturn | fatal code => cases hcalm.1
      | quiet | unasked => cases hcalm.1
    · rw [show ({ t.stream.assert (decide (t.stream.error = 0)) with
        late := (t.stream.assert (decide (t.stream.error = 0))).late ||
          (t.stream.assert (decide (t.stream.error = 0))).fatal } : State).ask = _ from he]
      obtain ⟨happ, hans⟩ := hset { t.stream.assert (decide (t.stream.error = 0)) with
        late := t.stream.late || t.stream.fatal, fits := false } hs
      exact ⟨rfl, h.congr happ, .inr rfl, (congrArg (·.all Answer.calm) hans).trans hcalm, rfl⟩

/-- The loop does not depend on the bytes which were appended. -/
theorem Input.flushLoop_appended (l : Chain) (t : Input) (appended : List UInt8) :
    Input.flushLoop l { t with appended } =
      ((Input.flushLoop l t).1, { (Input.flushLoop l t).2 with appended }) := by
  induction l generalizing t with
  | nil => rfl
  | cons b l ih =>
    obtain ⟨bytes, room⟩ := b
    rw [Input.flushLoop, Input.flushLoop]
    dsimp only [Input.appWrite]
    split
    · rfl
    · split
      · rfl
      · split
        · rfl
        · split
          · exact ih ((({ t with stream := ({ t.stream with
              appInput := (bytes, room) :: l } : State).assert (decide (bytes ≠ [])) } :
                Input).appWrite bytes).2)
          · rfl

/-- The bytes count as appended when they are written or kept. -/
theorem Input.privUpdate_appended (t : Input) (appended : List UInt8) :
    Input.privUpdate { t with appended } =
      (t.privUpdate.1, { t.privUpdate.2 with appended }) := by
  unfold Input.privUpdate
  dsimp only
  split
  · exact Input.flushLoop_appended _ t appended
  · rfl

/-- Some bytes are kept behind those which were kept before. -/
theorem Kept.store (h : Kept t) {data appended : List UInt8}
    (happended : appended = t.appended ++ data) :
    Kept { t with stream := t.stream.store data, appended } := by
  refine ⟨h.wf.writeCopy data, ?_, h.resumed, fun a ha hok => (h.next a ha hok).writeCopy data⟩
  have hbytes := h.bytes
  show t.written ++ Chain.content (t.stream.appInput.writeCopy data) = appended
  rw [Chain.content_writeCopy, ← List.append_assoc, hbytes, happended]

/-- An open stream keeps its input over an append. -/
theorem Kept.append (h : Kept t)
    (hopen : t.stream.state = .connecting ∨ t.stream.state = .connected)
    (hcalm : t.stream.answers.all Answer.calm = true) (data : List UInt8) :
    Kept (t.appendAppInputCopy data) ∧
      ((t.appendAppInputCopy data).stream.state = .connecting ∨
        (t.appendAppInputCopy data).stream.state = .connected) := by
  obtain ⟨htrue, hkept, hopen', hcalm', hsame⟩ := h.privUpdate hopen hcalm
  unfold Input.appendAppInputCopy
  dsimp only
  rw [Input.privUpdate_appended, htrue]
  simp only [Bool.true_eq_false, if_false]
  by_cases hempty : t.privUpdate.2.stream.appInput = []
  · rw [if_neg (not_not.mpr hempty)]
    obtain ⟨s, hstate, happ, hans, hcall | hcall⟩ := Input.appWrite_calm (t := {
      t.privUpdate.2 with appended := t.appended ++ data }) hcalm' data
    · -- the write is postponed, and the bytes are kept
      rw [hcall]
      simp only [if_true]
      have happ : s.appInput = [] := happ.trans hempty
      have hbytes := hkept.bytes
      rw [hempty] at hbytes
      refine ⟨⟨?_, ?_, hkept.snoc_of_nil hempty _, forall_getLast?_snoc fun hok => ?_⟩, ?_⟩
      · show (s.appInput.writeCopy data).Wf
        rw [happ]
        exact Chain.Wf.writeCopy (show Chain.Wf [] from trivial) data
      · refine (congrArg (· ++ Chain.content (s.appInput.writeCopy data))
          (Input.written_append t.privUpdate.2 s (t.appended ++ data) ⟨data, false⟩)).trans ?_
        show (_ ++ if false = true then data else []) ++ _ = _
        rw [if_neg Bool.false_ne_true, List.append_nil, Chain.content_writeCopy, happ, ← hsame,
          ← hbytes]
        simp [Chain.content]
      · show Chain.Starts (s.appInput.writeCopy data) data
        rw [happ]
        exact Chain.starts_fresh data
      · show s.state = .connecting ∨ s.state = .connected
        rw [hstate]
        exact hopen'
    · -- the bytes are written directly
      rw [hcall]
      simp only [one_ne_zero, if_false]
      have hbytes := hkept.bytes
      rw [hempty] at hbytes
      refine ⟨⟨?_, ?_, hkept.snoc_of_nil hempty _, forall_getLast?_snoc fun hok => ?_⟩, ?_⟩
      · dsimp only
        rw [happ]
        exact hkept.wf
      · refine (congrArg (· ++ Chain.content s.appInput)
          (Input.written_append t.privUpdate.2 s (t.appended ++ data) ⟨data, true⟩)).trans ?_
        show (_ ++ if true = true then data else []) ++ _ = _
        rw [if_pos rfl, show s.appInput = [] from happ.trans hempty, ← hsame, ← hbytes]
        simp [Chain.content]
      · cases hok
      · show s.state = .connecting ∨ s.state = .connected
        rw [hstate]
        exact hopen'
  · rw [if_pos hempty]
    exact ⟨hkept.store (by rw [hsame]), hopen'⟩

theorem append_closes (h : t.stream.privUpdate.2.state.closes = true) (data : List UInt8) :
    (t.appendAppInputCopy data).stream.state.closes = true := by
  rw [Input.appendAppInputCopy_stream]
  unfold State.appendAppInputCopy
  dsimp only
  split
  · have hnew : ¬ (t.stream.privUpdate.2.assert
        (decide (t.stream.privUpdate.2.state ≠ .connected))).state = .new := fun hn => by
      have hn : t.stream.privUpdate.2.state = .new := hn
      rw [hn] at h
      cases h
    rw [if_neg hnew]
    split
    · exact h
    · exact h
  · split
    · exact h
    · split <;> exact appWrite_closes h

/-- A stream which is not closing keeps its input. -/
def Kept.OrCloses (t : Input) : Prop :=
  t.stream.state.closes = true ∨
    (t.stream.state = .connecting ∨ t.stream.state = .connected) ∧ Kept t

theorem Kept.OrCloses.step (h : Kept.OrCloses t) (hretried : retried t c = true)
    (hstep : Input.step t c = some t') : Kept.OrCloses t' := by
  unfold Input.step at hstep
  dsimp only at hstep
  split at hstep
  · obtain rfl := Option.some.inj hstep
    obtain ⟨op, answers⟩ := c
    set u : Input := { t with stream := { t.stream with answers } } with hu
    have hcloses : u.stream.privUpdate.2.state.closes = true →
        Kept.OrCloses (t.call (op, answers)) := fun hc => by
      cases op with
      | none =>
        refine .inl ?_
        show u.privUpdate.2.stream.state.closes = true
        rw [(Input.privUpdate_stream u).2]
        exact hc
      | some data => exact .inl (append_closes (t := u) hc data)
    rcases h with hc | ⟨hopen, hkept⟩
    · exact hcloses (privUpdate_closes (s := u.stream) hc)
    unfold retried at hretried
    rw [Bool.or_eq_true, Bool.and_eq_true] at hretried
    rcases hretried with hcalm | ⟨hconnecting, hfails⟩
    · have hkept' : Kept u := hkept.congr rfl
      have hcalm : u.stream.answers.all Answer.calm = true := hcalm
      cases op with
      | none =>
        obtain ⟨-, hk, ho, -⟩ := hkept'.privUpdate hopen hcalm
        exact .inr ⟨ho, hk⟩
      | some data =>
        obtain ⟨hk, ho⟩ := hkept'.append hopen hcalm data
        exact .inr ⟨ho, hk⟩
    · have hconnecting : t.stream.state = .connecting := by simpa using hconnecting
      cases answers with
      | nil => cases hfails
      | cons a l =>
        cases a with
        | failed err =>
          exact hcloses (privUpdate_fails (s := u.stream) hconnecting rfl (by simpa using hfails))
        | done | quiet | unasked => cases hfails
  · cases hstep

/-- The application input of a stream after `Connect`: nothing is lost, repeated or reordered. -/
theorem input_kept (h : Input.machine.ReachableBy (fun t c => retried t c = true) t)
    (hopen : t.stream.state.closes = false) :
    t.written ++ t.stream.appInput.content = t.appended ∧ Resumed t.attempts := by
  have hinit : ∀ u, Input.machine.init u → Kept.OrCloses u := by
    rintro u rfl
    refine .inr ⟨.inl rfl, ⟨trivial, rfl, List.isChain_nil, nofun⟩⟩
  obtain hc | ⟨-, hkept⟩ := Machine.invariant_by hinit
    (fun _ _ _ hk hr hs => Kept.OrCloses.step hk hr hs) h
  · rw [hopen] at hc
    cases hc
  · exact ⟨hkept.bytes, hkept.resumed⟩

/-- Bytes which are kept during the handshake, a write which is postponed, and bytes behind it. -/
theorem input_kept_sample : ∃ t : Input, t.stream.state.closes = false ∧
    (t.written ++ t.stream.appInput.content = t.appended ∧ Resumed t.attempts) ∧
    t.written = [1, 2] ∧ t.appended = [1, 2, 3, 4] := by
  obtain ⟨t, ht, hdata⟩ : ∃ t, Input.machine.runBy (fun t c => retried t c = true) .connected
      [(some [1], [.failed .wantRead, .failed .wantWrite]), (some [2], [.done]),
        (some [3], [.done]), (some [4], [.failed .wantWrite])] = some t ∧
      (t.stream.state, t.written, t.appended) = (.connected, [1, 2], [1, 2, 3, 4]) :=
    Option.map_eq_some_iff.mp (by decide +kernel)
  simp only [Prod.mk.injEq] at hdata
  have hopen : t.stream.state.closes = false := by rw [hdata.1]; rfl
  exact ⟨t, hopen, input_kept (.of_runBy (.init rfl) ht) hopen, hdata.2⟩

/-- A long write is postponed, and the next attempt has only the bytes of the first buffer. -/
theorem long_write_resumed_short : ∃ t a b,
    Input.machine.ReachableBy (fun t c => retried t c = true) t ∧ t.attempts = [a, b] ∧
      a.ok = false ∧ ¬ a.data <+: b.data := by
  obtain ⟨t, ht, hdata⟩ : ∃ t, Input.machine.runBy (fun t c => retried t c = true) .connected
      [(none, [.done]), (some (List.replicate 985 7), [.failed .wantWrite]),
        (none, [.failed .wantWrite])] = some t ∧
      t.attempts = [⟨List.replicate 985 7, false⟩, ⟨List.replicate 984 7, false⟩] :=
    Option.map_eq_some_iff.mp (by decide +kernel)
  refine ⟨t, _, _, .of_runBy (.init rfl) ht, hdata, rfl, fun hpre => ?_⟩
  have hlen := hpre.length_le
  simp only [List.length_replicate] at hlen
  omega

end SSLStream

end Serverbox
