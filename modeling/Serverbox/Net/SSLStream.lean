import Mathlib.Algebra.GroupWithZero.Nat
import Mathlib.Algebra.Order.Group.Nat
import Mathlib.Data.List.Count
import Serverbox.Lib.Machine

/-!
# The encrypted stream over OpenSSL

`mg::net::SSLStreamOpenSSL` drives one `SSL` object of OpenSSL. Each method may call OpenSSL several
times, and every answer may move the state of the stream: the handshake ends, the peer has closed,
a fatal error has happened. The application input which can not be encrypted yet is kept in a
buffer stream, to which it is only copied, and is skipped by whole buffers.

The answers of OpenSSL are a list given with the call of a method, which it reads to the end. An
answer carries the class of the error when the stream asks for it with `SSL_get_error`. What
OpenSSL documents about the answers is checked by `fits`: the return codes of a shutdown, and a
nonzero code of a fatal error. The bytes in the network streams and in the output are left out,
since no branch depends on them.

The history variables are whether a fatal error was answered and whether a data call was made after
that.

Source: `src/mg/net/SSLStreamOpenSSL.h`, `src/mg/net/SSLStreamOpenSSL.cpp`.

## Main definitions

* `SSLStream.update`, `SSLStream.connect`, `SSLStream.shutdown`, `SSLStream.appendAppInputCopy`,
  `SSLStream.popAppOutput`, `SSLStream.popNetOutput`: the methods.
* `SSLStream.machine`: any calls of the methods, with any answers of OpenSSL.
* `SSLStream.orderly`: the calls which do not meet a close of the peer twice.

## Main results

* `SSLStream.orderly_runs`: the state only advances, nothing unencrypted is kept once the stream is
  closing, no data call follows a fatal error, and no assertion fails.
-/

namespace Serverbox

namespace SSLStream

/-- `SSLStreamOpenSSLState`. -/
inductive Stage
  | new
  | connecting
  | connected
  | closing
  | closed
  deriving DecidableEq

/-- The order of the states. -/
def Stage.rank : Stage → ℕ
  | new => 0
  | connecting => 1
  | connected => 2
  | closing => 3
  | closed => 4

/-- `IsClosingOrClosed`. -/
def Stage.closes (st : Stage) : Bool := st = closing || st = closed

/-- The classes of errors, `SSL_get_error`; a fatal one carries the code which the stream keeps. -/
inductive Error
  | wantRead
  | wantWrite
  | zeroReturn
  | fatal (code : ℕ)
  deriving DecidableEq

/-- An answer of OpenSSL: success, the code 0 of a shutdown, a failure whose class is asked for,
and one whose class is not. -/
inductive Answer
  | done
  | quiet
  | failed (err : Error)
  | unasked
  deriving DecidableEq

/-- The buffers of the application input: the bytes to be read and the number of free bytes. -/
abbrev Chain := List (List UInt8 × ℕ)

namespace Chain

/-- `GetReadSize`. -/
def readSize (l : Chain) : ℕ := (l.map fun b => b.1.length).sum

/-- The capacity of a new buffer. -/
def capacity : ℕ := 1024 - 40

/-- New buffers with the given bytes, of which there are at most as many as the first argument. -/
def fresh : ℕ → List UInt8 → Chain
  | 0, _ => []
  | n + 1, data =>
    if data = [] then [] else
    (data.take capacity, capacity - data.length) :: fresh n (data.drop capacity)

/-- `WriteCopy`. -/
def writeCopy : Chain → List UInt8 → Chain
  | [], data => fresh data.length data
  | [(bytes, room)], data =>
    (bytes ++ data.take room, room - data.length) ::
      fresh (data.drop room).length (data.drop room)
  | b :: l, data => b :: writeCopy l data

/-- Only the last buffer may have free bytes, and a buffer without them has bytes to be read. -/
def Wf : Chain → Prop
  | [] => True
  | (bytes, room) :: l => (room = 0 → bytes ≠ []) ∧ (l ≠ [] → room = 0) ∧ Wf l

theorem fresh_wf (n : ℕ) (data : List UInt8) : Wf (fresh n data) := by
  induction n generalizing data with
  | zero => trivial
  | succ n ih =>
    rw [fresh]
    split
    · trivial
    · rename_i hne
      have hpos : 0 < data.length := List.length_pos_iff.mpr hne
      refine ⟨fun _ ht => ?_, fun hmore => ?_, ih _⟩
      · have hcap : 0 < capacity := by decide
        have := congrArg List.length ht
        simp only [List.length_take, List.length_nil] at this
        omega
      · have hdrop : data.drop capacity ≠ [] := fun hd => by
          rw [hd] at hmore
          cases n <;> simp [fresh] at hmore
        have hlen : capacity < data.length := by
          by_contra hle
          exact hdrop (List.drop_eq_nil_iff.mpr (Nat.not_lt.mp hle))
        exact Nat.sub_eq_zero_of_le hlen.le

theorem Wf.writeCopy {l : Chain} (h : l.Wf) (data : List UInt8) : (l.writeCopy data).Wf := by
  fun_induction Chain.writeCopy l data with
  | case1 data => exact fresh_wf _ _
  | case2 bytes room data =>
    refine ⟨fun hroom hnil => ?_, fun hmore => ?_, fresh_wf _ _⟩
    · obtain ⟨hb, ht⟩ := List.append_eq_nil_iff.mp hnil
      have hroom' : room ≠ 0 := fun he => h.1 he hb
      have := congrArg List.length ht
      simp only [List.length_take, List.length_nil] at this
      omega
    · have hdrop : data.drop room ≠ [] := fun hd => hmore (by rw [hd]; rfl)
      have hlen : room < data.length := by
        by_contra hle
        exact hdrop (List.drop_eq_nil_iff.mpr (Nat.not_lt.mp hle))
      exact Nat.sub_eq_zero_of_le hlen.le
  | case3 b l data hl ih =>
    obtain ⟨hb, hlast, hrest⟩ := h
    exact ⟨hb, fun _ => hlast (by rintro rfl; exact hl b.1 b.2 rfl rfl), ih hrest⟩

end Chain

/-- `SSLStreamOpenSSL`, the answers of OpenSSL which are still to come, and the history. -/
structure State where
  state : Stage
  error : ℕ
  appInput : Chain
  failed : Bool
  answers : List Answer
  fits : Bool
  fatal : Bool
  late : Bool

/-- The constructor. -/
def State.init : State := ⟨.new, 0, [], false, [], true, false, false⟩

namespace State

/-- An assertion of the source. -/
def assert (s : State) (b : Bool) : State := { s with failed := s.failed || !b }

/-- OpenSSL gives an answer. -/
def ask (s : State) : Answer × State :=
  match s.answers with
  | a :: l => (a, { s with answers := l })
  | [] => (.done, { s with fits := false })

/-- A documented property of an answer. -/
def documented (s : State) (b : Bool) : State := { s with fits := s.fits && b }

/-- `PrivSetState`. -/
def setState (s : State) (st : Stage) : State :=
  let s := s.assert (s.state ≠ st)
  let s := if s.state.closes then s.assert (s.appInput = []) else s
  let s := if st.closes then { s with appInput := [] } else s
  { s with state := st }

/-- `PrivClose`. -/
def close (s : State) (err : ℕ) : State :=
  let s := s.assert (err ≠ 0)
  if s.state = .closed then s
  else
    let s := if s.error = 0 then { s with error := err } else s
    if s.state = .closing then (s.assert (s.appInput = [])).setState .closed
    else
      match s.ask with
      | (.quiet, s) => s.setState .closing
      | (a, s) => (s.documented (a = .done || a = .unasked)).setState .closed

/-- `PrivCheckError` after an answer. -/
def checkError (s : State) : Answer → Bool × State
  | .failed .wantRead | .failed .wantWrite => (true, s)
  | .failed .zeroReturn => (true, s.setState .closing)
  | .failed (.fatal code) => (false, ({ s with fatal := true }.documented (code ≠ 0)).close code)
  | _ => (true, s.documented false)

/-- `SSL_do_handshake`, `SSL_write_ex` or `SSL_read`. -/
def dataCall (s : State) : Answer × State := { s with late := s.late || s.fatal }.ask

/-- `PrivAppWrite`: -1, 0 or 1. -/
def appWrite (s : State) : ℤ × State :=
  match s.dataCall with
  | (.done, s) => (1, s)
  | (a, s) =>
    match s.checkError a with
    | (true, s) => (0, s)
    | (false, s) => (-1, s)

/-- The loop of `PrivFlushAppInput`. A buffer which was written is skipped: it stays at the head
when it has free bytes. -/
def flushLoop : Chain → State → Bool × State
  | [], s => (true, { s with appInput := [] })
  | (bytes, room) :: l, s =>
    let s := { s with appInput := (bytes, room) :: l }
    if Chain.readSize s.appInput = 0 then (true, s)
    else
      let r := (s.assert (bytes ≠ [])).appWrite
      if r.1 < 0 then (false, r.2)
      else if r.1 = 0 then (true, r.2)
      else if room = 0 then flushLoop l r.2
      else (true, { r.2 with appInput := ([], room) :: l }.assert (Chain.readSize l = 0))

/-- `PrivUpdate`. -/
def privUpdate (s : State) : Bool × State :=
  match s.state with
  | .connected => flushLoop s.appInput s
  | .new => (false, s)
  | .closing =>
    match (s.assert (s.appInput = [])).ask with
    | (.done, s) => (false, s.setState .closed)
    | (.quiet, s) => (false, s)
    | (a, s) => (false, (s.checkError a).2)
  | .closed => (false, s)
  | .connecting =>
    match (s.assert (s.error = 0)).dataCall with
    | (.done, s) => (true, s.setState .connected)
    | (a, s) => s.checkError a

/-- `Update`. -/
def update (s : State) : Bool × State :=
  let r := s.privUpdate
  (r.1 || r.2.error = 0, r.2)

/-- `Connect`. -/
def connect (s : State) : State :=
  ((s.assert (s.state = .new)).assert (s.appInput = [])).setState .connecting

/-- `Shutdown`. -/
def shutdown (s : State) : State :=
  if s.state = .new then s.setState .closed
  else if s.state = .closing then s
  else
    match (s.assert (s.state = .connecting || s.state = .connected)).ask with
    | (.quiet, s) => s.setState .closing
    | (.done, s) => s.setState .closed
    | (a, s) => (s.checkError a).2

/-- `myAppInput.WriteCopy`. -/
def store (s : State) (data : List UInt8) : State :=
  { s with appInput := s.appInput.writeCopy data }

/-- `AppendAppInputCopy`. -/
def appendAppInputCopy (s : State) (data : List UInt8) : State :=
  let r := s.privUpdate
  if r.1 = false then
    let s := r.2.assert (r.2.state ≠ .connected)
    if s.state = .new then s
    else if s.state.closes then s
    else (s.assert (s.state = .connecting)).store data
  else if r.2.appInput ≠ [] then r.2.store data
  else
    let w := r.2.appWrite
    if w.1 = 0 then w.2.store data else w.2

/-- The loop of `PopAppOutput`, over the answers which are to come. -/
def readLoop : List Answer → State → State
  | [], s => s.documented false
  | a :: l, s =>
    let s := { s with late := s.late || s.fatal, answers := l }
    if a = .done then readLoop l s else (s.checkError a).2

/-- `PopAppOutput`. -/
def popAppOutput (s : State) : State :=
  let r := s.privUpdate
  if r.1 then readLoop r.2.answers r.2 else r.2

/-- `PopNetOutput`. -/
def popNetOutput (s : State) : State := s.privUpdate.2

end State

/-- The methods. -/
inductive Method
  | update
  | connect
  | shutdown
  | appendAppInputCopy (data : List UInt8)
  | popAppOutput
  | appendNetInput
  | popNetOutput

/-- The call of a method. -/
def Method.run : Method → State → State
  | update, s => s.update.2
  | connect, s => s.connect
  | shutdown, s => s.shutdown
  | appendAppInputCopy data, s => s.appendAppInputCopy data
  | popAppOutput, s => s.popAppOutput
  | appendNetInput, s => s
  | popNetOutput, s => s.popNetOutput

/-- A stream is connected once, when it is new. -/
def Method.allowed (s : State) : Method → Bool
  | connect => s.state = .new
  | _ => true

/-- One call with the answers of OpenSSL; not enabled when these are not the answers to what the
stream asks. -/
def step (s : State) (a : Method × List Answer) : Option State :=
  let s' := a.1.run { s with answers := a.2 }
  if a.1.allowed s = true ∧ s'.answers = [] ∧ s'.fits = true then some s' else none

/-- Any calls on a stream, with any answers. -/
def machine : Machine State (Method × List Answer) where
  init s := s = .init
  step := step

/-- The close of the peer. -/
def zero : Answer := .failed .zeroReturn

/-- A write with this answer leaves nothing to be kept. -/
def Answer.settles : Answer → Bool
  | done | failed (.fatal _) => true
  | _ => false

/-- The calls which do not meet the defects: a closed stream is not shut down, the close of the
peer is not answered again when the stream is closing already, and when it is answered to an append
of some bytes, then these are written or a fatal error follows. -/
def orderly (s : State) (a : Method × List Answer) : Bool :=
  decide (a.2.count zero + (if s.state = .closing then 1 else 0) ≤ 1) &&
  match a.1 with
  | .shutdown => decide (s.state ≠ .closed)
  | .appendAppInputCopy data => decide (data = [] ∨ zero ∉ a.2 ∨
      ∃ x ∈ a.2.getLast?, x.settles = true)
  | _ => true

/-- What holds inside of a call before the stream reacts to a fatal error. -/
structure Base (s : State) : Prop where
  failed : s.fits = true → s.failed = false
  late : s.late = false
  kept : s.state.closes = true → s.appInput = []

/-- What holds between the calls, and inside of them. -/
structure Inv (s : State) : Prop extends Base s where
  new : s.state = .new → s.appInput = []
  fatal : s.fatal = true → s.state.closes = true
  error : s.error ≠ 0 → s.state.closes = true
  chain : s.appInput.Wf

/-- The close of the peer comes at most once more. -/
def Budget (s : State) : Prop :=
  s.answers.count zero + (if s.state = .closing then 1 else 0) ≤ 1

/-- What holds before a data call. -/
structure Flight (s : State) : Prop extends Inv s where
  budget : Budget s
  live : s.fatal = false
  stage : s.state = .connecting ∨ s.state = .connected ∨ s.state = .closing

/-- The answers which are to come settle the bytes which are being appended, if the peer closes. -/
def Settled (data : List UInt8) (s : State) : Prop :=
  s.fits = true → data ≠ [] → s.state = .closing ∨ zero ∈ s.answers →
    ∃ x ∈ s.answers.getLast?, x.settles = true

variable {s : State} {d : List UInt8} {a : Answer} {l : List Answer}

theorem Stage.closes_iff {st : Stage} : st.closes = true ↔ st = .closing ∨ st = .closed := by
  cases st <;> decide

/-- The stream is closing or closed from now on. -/
theorem Base.setState (h : Base s) {c : Stage} (hne : s.state ≠ c) (hc : c.closes = true) :
    Inv (s.setState c) ∧ (s.setState c).state = c ∧ (s.setState c).appInput = [] ∧
      (s.setState c).answers = s.answers ∧ (s.setState c).fatal = s.fatal ∧
      (s.setState c).fits = s.fits := by
  have hassert : (s.assert (decide (s.state ≠ c))).failed = s.failed := by
    simp [State.assert, hne]
  by_cases hs : s.state.closes = true
  · have hkept := h.kept hs
    simp only [State.setState, State.assert, hs, hc, if_true]
    refine ⟨⟨⟨fun hf => ?_, h.late, fun _ => rfl⟩, fun _ => rfl, fun _ => hc, fun _ => hc, trivial⟩,
      by trivial⟩
    simp [h.failed hf, hne, hkept]
  · simp only [State.setState, State.assert, hs, hc, if_true, Bool.false_eq_true, if_false]
    refine ⟨⟨⟨fun hf => ?_, h.late, fun _ => rfl⟩, fun _ => rfl, fun _ => hc, fun _ => hc, trivial⟩,
      by trivial⟩
    simp [h.failed hf, hne]

/-- The stream takes an answer. -/
theorem ask_cases (s : State) : (∃ a l, s.answers = a :: l ∧ s.ask = (a, { s with answers := l })) ∨
    s.ask = (.done, { s with fits := false }) := by
  unfold State.ask
  cases hl : s.answers with
  | nil => exact .inr rfl
  | cons a l => exact .inl ⟨a, l, rfl, rfl⟩

theorem Base.ask (h : Base s) : Base s.ask.2 ∧ s.ask.2.state = s.state := by
  obtain ⟨a, l, -, he⟩ | he := ask_cases s <;> rw [he]
  · exact ⟨⟨h.failed, h.late, h.kept⟩, rfl⟩
  · exact ⟨⟨nofun, h.late, h.kept⟩, rfl⟩

theorem Base.documented (h : Base s) (b : Bool) : Base (s.documented b) where
  failed hf := h.failed (by simp [State.documented] at hf; exact hf.1)
  late := h.late
  kept := h.kept

theorem Base.assert (h : Base s) {b : Bool} (hb : s.fits = true → b = true) :
    Base (s.assert b) where
  failed hf := by
    have hf' : s.fits = true := hf
    simp [State.assert, h.failed hf', hb hf']
  late := h.late
  kept := h.kept

/-- A fatal error closes the stream. -/
theorem Base.close (h : Base s) {e : ℕ} (herr : s.fits = true → e ≠ 0)
    (hne : s.state ≠ .closed) :
    Inv (s.close e) ∧ (s.close e).state.closes = true ∧
      s.state.rank ≤ (s.close e).state.rank := by
  have h₁ : Base (s.assert (decide (e ≠ 0))) := h.assert fun hf => by simpa using herr hf
  obtain ⟨t, ht, hst, hdef⟩ : ∃ t, Base t ∧ t.state = s.state ∧
      (if (s.assert (decide (e ≠ 0))).error = 0 then
        { s.assert (decide (e ≠ 0)) with error := e }
      else s.assert (decide (e ≠ 0))) = t := by
    refine ⟨_, ?_, ?_, rfl⟩ <;> split
    · exact ⟨h₁.failed, h₁.late, h₁.kept⟩
    · exact h₁
    · rfl
    · rfl
  have hne' : (s.assert (decide (e ≠ 0))).state ≠ .closed := hne
  unfold State.close
  simp only [hne', if_false, hdef]
  by_cases hc : t.state = .closing
  · rw [if_pos hc]
    have hbase : Base (t.assert (decide (t.appInput = []))) := ht.assert fun _ => by
      simpa using ht.kept (by rw [hc]; rfl)
    obtain ⟨hinv, hstate, -⟩ := hbase.setState (c := .closed)
      (show t.state ≠ .closed by rw [hc]; decide) rfl
    rw [hstate]
    exact ⟨hinv, rfl, by cases s.state <;> decide⟩
  · rw [if_neg hc]
    have hask := ht.ask
    split
    · rename_i u hu
      rw [hu] at hask
      obtain ⟨hbase, hs'⟩ := hask
      obtain ⟨hinv, hstate, -⟩ := hbase.setState (c := .closing) (by rw [hs']; exact hc) rfl
      rw [hstate]
      refine ⟨hinv, rfl, ?_⟩
      rw [← hst]
      rw [← hst] at hne
      revert hne
      cases t.state <;> decide
    · rename_i b u _ hu
      rw [hu] at hask
      obtain ⟨hbase, hs'⟩ := hask
      obtain ⟨hinv, hstate, -⟩ := (hbase.documented (b = .done || b = .unasked)).setState
        (c := .closed) (show u.state ≠ .closed by rw [hs', hst]; exact hne) rfl
      rw [hstate]
      exact ⟨hinv, rfl, by cases s.state <;> decide⟩

/-- The class of an error: to be tried again, the close of the peer, or fatal. -/
theorem Inv.checkError (h : Inv s) (hne : s.state ≠ .closed) (hz : a = zero → s.state ≠ .closing) :
    Inv (s.checkError a).2 ∧ s.state.rank ≤ (s.checkError a).2.state.rank ∧
    ((s.checkError a).1 = false → (s.checkError a).2.state.closes = true) ∧
    ((s.checkError a).1 = true → (s.checkError a).2.fatal = s.fatal ∧
      (s.checkError a).2.answers = s.answers ∧
      ((s.checkError a).2.fits = true → s.fits = true ∧ a.settles = false) ∧
      (a ≠ zero ∧ (s.checkError a).2.state = s.state ∧
          (s.checkError a).2.appInput = s.appInput ∨
        a = zero ∧ (s.checkError a).2.state = .closing)) := by
  cases a with
  | failed err =>
    cases err with
    | wantRead | wantWrite =>
      exact ⟨h, le_rfl, nofun, fun _ => ⟨rfl, rfl, fun hf => ⟨hf, rfl⟩,
        .inl ⟨by decide, rfl, rfl⟩⟩⟩
    | zeroReturn =>
      obtain ⟨hinv, hstate, -, hans, hfatal, hfits⟩ :=
        h.toBase.setState (c := .closing) (hz rfl) rfl
      refine ⟨hinv, ?_, nofun, fun _ => ⟨hfatal, hans, fun hf => ⟨hfits ▸ hf, rfl⟩,
        .inr ⟨rfl, hstate⟩⟩⟩
      show s.state.rank ≤ (s.setState .closing).state.rank
      rw [hstate]
      revert hne
      cases s.state <;> decide
    | fatal code =>
      have hbase : Base ({ s with fatal := true }.documented (decide (code ≠ 0))) :=
        (⟨h.failed, h.late, h.kept⟩ : Base { s with fatal := true }).documented _
      obtain ⟨hinv, hcloses, hrank⟩ := hbase.close (e := code)
        (fun hf => by simp [State.documented] at hf; exact hf.2) hne
      exact ⟨hinv, hrank, fun _ => hcloses, nofun⟩
  | done | quiet | unasked =>
    refine ⟨⟨h.toBase.documented false, h.new, h.fatal, h.error, h.chain⟩, le_rfl, nofun,
      fun _ => ⟨rfl, rfl, fun hf => ?_, .inl ⟨by decide, rfl, rfl⟩⟩⟩
    simp [State.checkError, State.documented] at hf

/-- The answers of OpenSSL do not matter between the calls. -/
theorem Inv.withAnswers (h : Inv s) (l : List Answer) : Inv { s with answers := l } :=
  ⟨⟨h.failed, h.late, h.kept⟩, h.new, h.fatal, h.error, h.chain⟩

theorem Inv.unfit (h : Inv s) : Inv { s with fits := false } :=
  ⟨⟨nofun, h.late, h.kept⟩, h.new, h.fatal, h.error, h.chain⟩

theorem Inv.assert (h : Inv s) {b : Bool} (hb : s.fits = true → b = true) : Inv (s.assert b) :=
  ⟨h.toBase.assert hb, h.new, h.fatal, h.error, h.chain⟩

/-- A stream which is not closing has met no fatal error. -/
theorem Inv.open (h : Inv s) (hc : s.state.closes = false) : s.fatal = false ∧ s.error = 0 := by
  constructor
  · by_contra hf
    rw [h.fatal (by simpa using hf)] at hc
    cases hc
  · by_contra he
    rw [h.error he] at hc
    cases hc

/-- A data call takes an answer. -/
theorem Flight.dataCall (h : Flight s) :
    (∃ a l, s.answers = a :: l ∧ s.dataCall = (a, { s with answers := l })) ∨
      s.dataCall = (.done, { s with fits := false }) := by
  have hlate : (s.late || s.fatal) = s.late := by rw [h.live, Bool.or_false]
  rw [State.dataCall, hlate]
  exact ask_cases s

theorem Budget.tail (h : Budget s) (hl : s.answers = a :: l) :
    Budget { s with answers := l } ∧ (a = zero → s.state ≠ .closing) := by
  unfold Budget at *
  rw [hl, List.count_cons] at h
  refine ⟨?_, fun ha hc => ?_⟩
  · dsimp only
    split at h <;> omega
  · simp [ha, hc] at h

/-- A data call before the end of the list keeps the bytes settled. -/
theorem Settled.tail {s' : State} (h : Settled d s) (hl : s.answers = a :: s'.answers)
    (hfits : s'.fits = true → s.fits = true)
    (hs' : s'.state = .closing → a = zero) : Settled d s' := by
  intro hf hne hclose
  have hzero : zero ∈ s.answers := by
    rw [hl, List.mem_cons]
    exact hclose.imp (fun hc => (hs' hc).symm) id
  obtain ⟨x, hx, hset⟩ := h (hfits hf) hne (.inr hzero)
  refine ⟨x, ?_, hset⟩
  rw [hl] at hx
  cases hl' : s'.answers with
  | nil =>
    rw [hl'] at hx hclose
    obtain rfl : a = x := by simpa using hx
    rw [hs' (hclose.resolve_right List.not_mem_nil)] at hset
    cases hset
  | cons b l =>
    rwa [hl', List.getLast?_cons_cons] at hx

/-- A data call may be followed by another one, unless there is a fatal error. -/
theorem Flight.checkError (h : Flight s) (hl : s.answers = a :: l) :
    ∃ t, ({ s with answers := l } : State).checkError a = t ∧ Inv t.2 ∧
      s.state.rank ≤ t.2.state.rank ∧ (t.1 = false → t.2.state.closes = true) ∧
      (t.1 = true → Flight t.2 ∧ s.answers = a :: t.2.answers ∧
        (t.2.fits = true → s.fits = true ∧ a.settles = false) ∧
        (a ≠ zero ∧ t.2.state = s.state ∨ a = zero ∧ t.2.state = .closing)) := by
  have hne : s.state ≠ .closed := by rcases h.stage with hs | hs | hs <;> rw [hs] <;> decide
  obtain ⟨hbudget, hz⟩ := h.budget.tail hl
  obtain ⟨hinv, hrank, hfalse, htrue⟩ := (h.toInv.withAnswers l).checkError (a := a) hne hz
  refine ⟨_, rfl, hinv, hrank, hfalse, fun ht => ?_⟩
  obtain ⟨hfatal, hans, hfits, hcase⟩ := htrue ht
  refine ⟨⟨hinv, ?_, ?_, ?_⟩, ?_, hfits, hcase.imp (fun hc => ⟨hc.1, hc.2.1⟩) id⟩
  · have hb := h.budget
    unfold Budget at hb hbudget ⊢
    rw [hans]
    rcases hcase with ⟨-, hs, -⟩ | ⟨ha, hs⟩
    · rw [hs]
      exact hbudget
    · rw [hl, ha, List.count_cons_self] at hb
      rw [hs, if_pos rfl]
      dsimp only
      omega
  · rw [hfatal]
    exact h.live
  · rcases hcase with ⟨-, hs, -⟩ | ⟨-, hs⟩ <;> rw [hs]
    · exact h.stage
    · exact .inr (.inr rfl)
  · rw [hans]
    exact hl

/-- The stream writes some bytes. -/
theorem Flight.appWrite (h : Flight s) : Inv s.appWrite.2 ∧
    s.state.rank ≤ s.appWrite.2.state.rank ∧
    (s.appWrite.1 < 0 → s.appWrite.2.state.closes = true) ∧
    (0 ≤ s.appWrite.1 → Flight s.appWrite.2) ∧
    (s.appWrite.1 = 0 → ∃ a, s.answers = a :: s.appWrite.2.answers ∧
      (s.appWrite.2.fits = true → s.fits = true ∧ a.settles = false) ∧
      (a ≠ zero ∧ s.appWrite.2.state = s.state ∨ a = zero ∧ s.appWrite.2.state = .closing)) ∧
    (0 < s.appWrite.1 → s.appWrite.2.state = s.state ∧ s.appWrite.2.appInput = s.appInput ∧
      ((∃ a, s.answers = a :: s.appWrite.2.answers) ∧ s.appWrite.2.fits = s.fits ∨
        s.appWrite.2.fits = false)) := by
  obtain ⟨a, l, hl, he⟩ | he := h.dataCall
  · by_cases hdone : a = .done
    · subst hdone
      have happ : s.appWrite = (1, { s with answers := l }) := by rw [State.appWrite, he]
      have hinv := h.toInv.withAnswers l
      rw [happ]
      exact ⟨hinv, le_rfl, fun h => by simp at h,
        fun _ => ⟨hinv, (h.budget.tail hl).1, h.live, h.stage⟩,
        fun h => by simp at h, fun _ => ⟨rfl, rfl, .inl ⟨⟨_, hl⟩, rfl⟩⟩⟩
    · obtain ⟨⟨b, t⟩, hr, hinv, hrank, hfalse, htrue⟩ := h.checkError hl
      have happ : s.appWrite = (if b then 0 else -1, t) := by
        rw [State.appWrite, he]
        cases a <;> first | exact absurd rfl hdone | (cases b <;> simp [hr])
      rw [happ]
      cases b with
      | false =>
        exact ⟨hinv, hrank, fun _ => hfalse rfl, fun h => by simp at h,
          fun h => by simp at h, fun h => by simp at h⟩
      | true =>
        obtain ⟨hflight, hans, hfits, hcase⟩ := htrue rfl
        exact ⟨hinv, hrank, fun h => by simp at h, fun _ => hflight,
          fun _ => ⟨a, hans, hfits, hcase⟩, fun h => by simp at h⟩
  · have happ : s.appWrite = (1, { s with fits := false }) := by rw [State.appWrite, he]
    rw [happ]
    exact ⟨h.toInv.unfit, le_rfl, fun h => by simp at h,
      fun _ => ⟨h.toInv.unfit, h.budget, h.live, h.stage⟩,
      fun h => by simp at h, fun _ => ⟨rfl, rfl, .inr rfl⟩⟩

/-- The stream writes the kept bytes. -/
theorem Flight.flushLoop (c : Chain) (h : Flight { s with appInput := c })
    (hs : s.state = .connected) : Inv (State.flushLoop c s).2 ∧
    s.state.rank ≤ (State.flushLoop c s).2.state.rank ∧
    ((State.flushLoop c s).1 = false → (State.flushLoop c s).2.state.closes = true) ∧
    ((State.flushLoop c s).1 = true → Flight (State.flushLoop c s).2 ∧
      (Settled d s → Settled d (State.flushLoop c s).2)) := by
  induction c generalizing s with
  | nil => exact ⟨h.toInv, le_rfl, nofun, fun _ => ⟨h, id⟩⟩
  | cons b l ih =>
    obtain ⟨bytes, room⟩ := b
    rw [State.flushLoop]
    by_cases hsize : Chain.readSize ((bytes, room) :: l) = 0
    · simp only [hsize, if_true]
      exact ⟨h.toInv, le_rfl, nofun, fun _ => ⟨h, id⟩⟩
    simp only [hsize, if_false]
    obtain ⟨hbytes, hlast, hwf⟩ := h.chain
    have hread : bytes ≠ [] := by
      rintro rfl
      by_cases hl : l = []
      · exact hsize (by rw [hl]; rfl)
      · exact hbytes (hlast hl) rfl
    have hflight :
        Flight ({ s with appInput := (bytes, room) :: l }.assert (decide (bytes ≠ []))) :=
      ⟨⟨h.toBase.assert fun _ => by simpa using hread, h.new, h.fatal, h.error, h.chain⟩, h.budget,
        h.live, h.stage⟩
    obtain ⟨hinv, hrank, hneg, hnonneg, hwait, hdone⟩ := hflight.appWrite
    generalize ({ s with appInput := (bytes, room) :: l }.assert
      (decide (bytes ≠ []))).appWrite = r at *
    by_cases hlt : r.1 < 0
    · rw [if_pos hlt]
      exact ⟨hinv, hrank, fun _ => hneg hlt, nofun⟩
    rw [if_neg hlt]
    have hr := hnonneg (Int.not_lt.mp hlt)
    by_cases hzero : r.1 = 0
    · rw [if_pos hzero]
      refine ⟨hinv, hrank, nofun, fun _ => ⟨hr, fun hset => ?_⟩⟩
      obtain ⟨a, hans, hfits, hcase⟩ := hwait hzero
      refine hset.tail hans (fun hf => (hfits hf).1) fun hc => ?_
      rcases hcase with ⟨-, hstate⟩ | ⟨ha, -⟩
      · have : s.state = .closing := hstate.symm.trans hc
        rw [hs] at this
        cases this
      · exact ha
    rw [if_neg hzero]
    obtain ⟨hstate, happ, hans⟩ := hdone (by omega)
    have hstate' : r.2.state = .connected := hstate.trans hs
    have hsettled : Settled d s → Settled d r.2 := fun hset => by
      rcases hans with ⟨⟨a, ha⟩, hf⟩ | hf
      · refine hset.tail ha (fun hfit => hf ▸ hfit) fun hc => ?_
        rw [hstate'] at hc
        cases hc
      · intro hfit
        rw [hf] at hfit
        cases hfit
    by_cases hroom : room = 0
    · rw [if_pos hroom]
      have hflight' : Flight { r.2 with appInput := l } := by
        refine ⟨⟨⟨hr.failed, hr.late, fun hc => ?_⟩, fun hn => ?_, hr.fatal, hr.error, hwf⟩,
          hr.budget, hr.live, hr.stage⟩
        · have hc' : r.2.state.closes = true := hc
          rw [hstate'] at hc'
          cases hc'
        · have hn' : r.2.state = .new := hn
          rw [hstate'] at hn'
          cases hn'
      obtain ⟨hinv', hrank', hfalse, htrue⟩ := ih hflight' hstate'
      exact ⟨hinv', hrank.trans hrank', hfalse, fun ht => ⟨(htrue ht).1,
        fun hset => (htrue ht).2 (hsettled hset)⟩⟩
    · rw [if_neg hroom]
      -- the buffer with free bytes is the last one
      have hl : l = [] := by
        by_contra hl
        exact hroom (hlast hl)
      subst hl
      have hinv' : Inv ({ r.2 with appInput := [([], room)] }.assert
          (decide (Chain.readSize [] = 0))) := by
        have hbase : Base { r.2 with appInput := [([], room)] } := by
          refine ⟨hr.failed, hr.late, fun hc => ?_⟩
          have hc' : r.2.state.closes = true := hc
          rw [hstate'] at hc'
          cases hc'
        refine ⟨hbase.assert fun _ => rfl, fun hn => ?_, hr.fatal, hr.error,
          ⟨fun he => absurd he hroom, fun hne => absurd rfl hne, trivial⟩⟩
        · have hn' : r.2.state = .new := hn
          rw [hstate'] at hn'
          cases hn'
      exact ⟨hinv', hrank, nofun, fun _ => ⟨⟨hinv', hr.budget, hr.live, hr.stage⟩, hsettled⟩⟩

/-- The handshake starts or ends. -/
theorem Inv.advance (h : Inv s) (hopen : s.state.closes = false) {c : Stage}
    (hst : c.closes = false) (hne : s.state ≠ c) (hnew : c ≠ .new) :
    Inv (s.setState c) ∧ s.setState c = { s with state := c } := by
  have he : s.setState c = { s with state := c } := by
    simp [State.setState, State.assert, hopen, hst, hne]
  obtain ⟨hfatal, herror⟩ := h.open hopen
  refine ⟨?_, he⟩
  rw [he]
  refine ⟨⟨h.failed, h.late, fun hc => ?_⟩, fun hn => absurd hn hnew, fun hf => ?_, fun hn => ?_,
    h.chain⟩
  · exact absurd (hst.symm.trans hc) Bool.false_ne_true
  · exact absurd (hfatal.symm.trans hf) Bool.false_ne_true
  · exact absurd herror hn

/-- The start of every method. -/
theorem Inv.privUpdate (h : Inv s) (hb : Budget s) : Inv s.privUpdate.2 ∧
    s.state.rank ≤ s.privUpdate.2.state.rank ∧
    (s.privUpdate.1 = false → s.privUpdate.2.state = .new ∨ s.privUpdate.2.state.closes = true) ∧
    (s.privUpdate.1 = true → Flight s.privUpdate.2 ∧
      (Settled d s → Settled d s.privUpdate.2)) := by
  unfold State.privUpdate
  split
  · rename_i hs
    obtain ⟨hinv, hrank, hfalse, htrue⟩ := Flight.flushLoop (d := d) s.appInput
      (⟨h, hb, (h.open (by rw [hs]; rfl)).1, .inr (.inl hs)⟩ : Flight s) hs
    exact ⟨hinv, hrank, fun hf => .inr (hfalse hf), htrue⟩
  · rename_i hs
    exact ⟨h, le_rfl, fun _ => .inl hs, nofun⟩
  · rename_i hs
    have hcloses : s.state.closes = true := by rw [hs]; rfl
    have hassert : Inv (s.assert (decide (s.appInput = []))) :=
      h.assert fun _ => by simpa using h.kept hcloses
    have hne : s.state ≠ .closed := by rw [hs]; decide
    rcases ask_cases (s.assert (decide (s.appInput = []))) with ⟨a, l, hl, he⟩ | he
    · have hinv := hassert.withAnswers l
      rw [he]
      split
      · obtain ⟨hinv', hstate, -⟩ := hinv.toBase.setState (c := .closed) hne rfl
        rename_i heq
        obtain ⟨rfl, rfl⟩ := Prod.mk.inj heq
        refine ⟨hinv', ?_, fun _ => .inr ?_, nofun⟩ <;> dsimp only <;> rw [hstate]
        · rw [hs]
          decide
        · rfl
      · rename_i heq
        obtain ⟨rfl, rfl⟩ := Prod.mk.inj heq
        exact ⟨hinv, le_rfl, fun _ => .inr hcloses, nofun⟩
      · rename_i heq
        obtain ⟨rfl, rfl⟩ := Prod.mk.inj heq
        have hz : a = zero → s.state ≠ .closing := (hb.tail hl).2
        obtain ⟨hinv', hrank, hfalse, htrue⟩ := hinv.checkError hne hz
        refine ⟨hinv', hrank, fun _ => .inr ?_, nofun⟩
        have hrank' : Stage.rank .closing ≤
            (({ s.assert (decide (s.appInput = [])) with answers := l } : State).checkError
              a).2.state.rank := by
          have hst : ({ s.assert (decide (s.appInput = [])) with answers := l } : State).state =
            .closing := hs
          rw [← hst]
          exact hrank
        revert hrank'
        generalize (({ s.assert (decide (s.appInput = [])) with answers := l } : State).checkError
          a).2.state = st
        cases st <;> decide
    · rw [he]
      obtain ⟨hinv', hstate, -⟩ := hassert.unfit.toBase.setState (c := .closed) hne rfl
      refine ⟨hinv', ?_, fun _ => .inr ?_, nofun⟩ <;> dsimp only <;> rw [hstate]
      · rw [hs]
        decide
      · rfl
  · rename_i hs
    exact ⟨h, le_rfl, fun _ => .inr (by rw [hs]; rfl), nofun⟩
  · rename_i hs
    obtain ⟨hlive, herror⟩ := h.open (by rw [hs]; rfl)
    have hflight : Flight (s.assert (decide (s.error = 0))) :=
      ⟨h.assert fun _ => by simpa using herror, hb, hlive, .inl hs⟩
    obtain ⟨a, l, hl, he⟩ | he := hflight.dataCall
    · have hl' : s.answers = a :: l := hl
      rw [he]
      split
      · rename_i heq
        obtain ⟨rfl, rfl⟩ := Prod.mk.inj heq
        obtain ⟨hinv, hset⟩ := (hflight.toInv.withAnswers l).advance (c := .connected)
          (show s.state.closes = false by rw [hs]; rfl) rfl
          (show s.state ≠ .connected by rw [hs]; decide) (by decide)
        refine ⟨hinv, ?_, nofun, fun _ => ⟨⟨hinv, ?_, ?_, ?_⟩, fun hsettled => ?_⟩⟩ <;>
          dsimp only <;> rw [hset]
        · rw [hs]
          exact (by decide : Stage.connecting.rank ≤ Stage.connected.rank)
        · have hb' := (hb.tail hl').1
          unfold Budget at hb' ⊢
          dsimp only at hb' ⊢
          rw [hs] at hb'
          simpa using hb'
        · exact hlive
        · exact .inr (.inl rfl)
        · exact hsettled.tail hl' id nofun
      · rename_i heq
        obtain ⟨rfl, rfl⟩ := Prod.mk.inj heq
        obtain ⟨t, ht, hinv, hrank, hfalse, htrue⟩ := hflight.checkError hl
        rw [ht]
        refine ⟨hinv, hrank, fun hf => .inr (hfalse hf), fun htt => ?_⟩
        obtain ⟨hflight', hans, hfits, hcase⟩ := htrue htt
        refine ⟨hflight', fun hsettled => hsettled.tail hans (fun hf => (hfits hf).1) fun hc => ?_⟩
        rcases hcase with ⟨-, hst⟩ | ⟨ha, -⟩
        · have : s.state = .closing := hst.symm.trans hc
          rw [hs] at this
          cases this
        · exact ha
    · rw [he]
      obtain ⟨hinv, hset⟩ := hflight.toInv.unfit.advance (c := .connected)
        (show s.state.closes = false by rw [hs]; rfl) rfl
        (show s.state ≠ .connected by rw [hs]; decide) (by decide)
      refine ⟨hinv, ?_, nofun, fun _ => ⟨⟨hinv, ?_, ?_, ?_⟩, fun hsettled => ?_⟩⟩ <;>
        dsimp only <;> rw [hset]
      · rw [hs]
        exact (by decide : Stage.connecting.rank ≤ Stage.connected.rank)
      · unfold Budget at hb ⊢
        rw [hs] at hb
        simpa [State.assert] using hb
      · exact hlive
      · exact .inr (.inl rfl)
      · exact nofun

/-- The loop of the reads. -/
theorem Flight.readLoop (h : Flight s) (hl : s.answers = l) : Inv (State.readLoop l s) ∧
    s.state.rank ≤ (State.readLoop l s).state.rank := by
  induction l generalizing s with
  | nil =>
    exact ⟨⟨h.toBase.documented false, h.new, h.fatal, h.error, h.chain⟩, le_rfl⟩
  | cons a l ih =>
    have hlate : (s.late || s.fatal) = s.late := by rw [h.live, Bool.or_false]
    rw [State.readLoop, hlate]
    by_cases hdone : a = .done
    · simp only [hdone, if_true]
      exact ih (s := { s with answers := l })
        ⟨h.toInv.withAnswers l, (h.budget.tail hl).1, h.live, h.stage⟩ rfl
    · simp only [hdone, if_false]
      obtain ⟨t, ht, hinv, hrank, -⟩ := h.checkError hl
      rw [show ({ s with answers := l } : State).checkError a = t from ht]
      exact ⟨hinv, hrank⟩

theorem Inv.popAppOutput (h : Inv s) (hb : Budget s) :
    Inv s.popAppOutput ∧ s.state.rank ≤ s.popAppOutput.state.rank := by
  obtain ⟨hinv, hrank, -, htrue⟩ := h.privUpdate (d := []) hb
  unfold State.popAppOutput
  dsimp only
  split
  · rename_i ht
    obtain ⟨hloop, hrank'⟩ := (htrue ht).1.readLoop rfl
    exact ⟨hloop, hrank.trans hrank'⟩
  · exact ⟨hinv, hrank⟩

/-- A stream which is not closing keeps the bytes. -/
theorem Inv.store (h : Inv s) (hnew : s.state ≠ .new)
    (hc : s.state.closes = true → d = []) : Inv (s.store d) := by
  refine ⟨⟨h.failed, h.late, fun hcl => ?_⟩, fun hn => absurd hn hnew, h.fatal, h.error,
    h.chain.writeCopy d⟩
  have hcl' : s.state.closes = true := hcl
  show s.appInput.writeCopy d = []
  rw [h.kept hcl', hc hcl']
  rfl

theorem privUpdate_closing (hs : s.state = .closing) : s.privUpdate.1 = false := by
  unfold State.privUpdate
  rw [hs]
  dsimp only
  split <;> rfl

theorem Inv.appendAppInputCopy (h : Inv s) (hb : Budget s)
    (hsettled : s.state ≠ .closing → Settled d s)
    (hans : (s.appendAppInputCopy d).answers = []) (hfits : (s.appendAppInputCopy d).fits) :
    Inv (s.appendAppInputCopy d) ∧
      s.state.rank ≤ (s.appendAppInputCopy d).state.rank := by
  obtain ⟨hinv, hrank, hfalse, htrue⟩ := h.privUpdate (d := d) hb
  have hclosing := privUpdate_closing (s := s)
  revert hans hfits
  unfold State.appendAppInputCopy
  generalize s.privUpdate = r at *
  dsimp only
  split
  · rename_i hr
    intro hans hfits
    have hne : r.2.state ≠ .connected := by
      rcases hfalse hr with hst | hst
      · rw [hst]
        decide
      · rintro hst'
        rw [hst'] at hst
        cases hst
    have hassert : Inv (r.2.assert (decide (r.2.state ≠ .connected))) :=
      hinv.assert fun _ => by simpa using hne
    split
    · exact ⟨hassert, hrank⟩
    split
    · exact ⟨hassert, hrank⟩
    · rename_i hnew hclose
      rcases hfalse hr with hst | hst
      · exact absurd hst hnew
      · exact absurd hst hclose
  · rename_i hr
    obtain ⟨hflight, hset⟩ := htrue (by simpa using hr)
    have hnew : r.2.state ≠ .new := by
      rcases hflight.stage with hst | hst | hst <;> rw [hst] <;> decide
    split
    · rename_i hkept
      intro hans hfits
      exact ⟨hinv.store hnew fun hc => absurd (hinv.kept hc) hkept, hrank⟩
    · obtain ⟨hinv', hrank', -, hnonneg, hwait, -⟩ := hflight.appWrite
      split
      · rename_i hzero
        obtain ⟨a, ha, hf, hcase⟩ := hwait hzero
        intro hans hfits
        have hans' : r.2.appWrite.2.answers = [] := hans
        obtain ⟨hrfits, hunsettled⟩ := hf hfits
        have hflight' := hnonneg (by rw [hzero])
        have hnew' : r.2.appWrite.2.state ≠ .new := by
          rcases hflight'.stage with hst | hst | hst <;> rw [hst] <;> decide
        refine ⟨hinv'.store hnew' fun hc => ?_, hrank.trans hrank'⟩
        by_contra hdata
        -- the answer to the write is the last one, and it has left the bytes to be kept
        have hstate : r.2.appWrite.2.state = .closing := by
          rcases hflight'.stage with hst | hst | hst
          · rw [hst] at hc
            cases hc
          · rw [hst] at hc
            cases hc
          · exact hst
        rw [hans'] at ha
        obtain ⟨x, hx, hxs⟩ := hset (hsettled fun hst => hr (hclosing hst)) hrfits hdata (by
          rcases hcase with ⟨-, hst⟩ | ⟨hz, -⟩
          · exact .inl (hst.symm.trans hstate)
          · exact .inr (by rw [ha, hz]; exact List.mem_singleton_self _))
        rw [ha] at hx
        obtain rfl : a = x := by simpa using hx
        rw [hunsettled] at hxs
        cases hxs
      · intro hans hfits
        exact ⟨hinv', hrank.trans hrank'⟩

theorem Inv.shutdown (h : Inv s) (hc : s.state ≠ .closed) :
    Inv s.shutdown ∧ s.state.rank ≤ s.shutdown.state.rank := by
  unfold State.shutdown
  split
  · rename_i hs
    obtain ⟨hinv, hstate, -⟩ := h.toBase.setState (c := .closed) hc rfl
    rw [hstate]
    exact ⟨hinv, by cases s.state <;> decide⟩
  split
  · exact ⟨h, le_rfl⟩
  rename_i hnew hclosing
  have hopen : s.state = .connecting ∨ s.state = .connected := by
    revert hnew hclosing hc
    cases s.state <;> decide
  have hassert : Inv (s.assert (s.state = .connecting || s.state = .connected)) :=
    h.assert fun _ => by simpa using hopen
  have hrank : ∀ st : Stage, st.closes = true → s.state.rank ≤ st.rank := by
    intro st hst
    rcases hopen with hs | hs <;> rw [hs] <;> revert hst <;> cases st <;> decide
  rcases ask_cases (s.assert (s.state = .connecting || s.state = .connected)) with
    ⟨a, l, hl, he⟩ | he
  · have hinv := hassert.withAnswers l
    rw [he]
    split
    · rename_i heq
      obtain ⟨rfl, rfl⟩ := Prod.mk.inj heq
      obtain ⟨hinv', hstate, -⟩ := hinv.toBase.setState (c := .closing) hclosing rfl
      rw [hstate]
      exact ⟨hinv', hrank _ rfl⟩
    · rename_i heq
      obtain ⟨rfl, rfl⟩ := Prod.mk.inj heq
      obtain ⟨hinv', hstate, -⟩ := hinv.toBase.setState (c := .closed) hc rfl
      rw [hstate]
      exact ⟨hinv', hrank _ rfl⟩
    · rename_i heq
      obtain ⟨rfl, rfl⟩ := Prod.mk.inj heq
      obtain ⟨hinv', hrank', -⟩ := hinv.checkError hc fun _ => hclosing
      exact ⟨hinv', hrank'⟩
  · rw [he]
    obtain ⟨hinv', hstate, -⟩ := hassert.unfit.toBase.setState (c := .closed) hc rfl
    dsimp only
    rw [hstate]
    exact ⟨hinv', hrank _ rfl⟩

theorem Inv.connect (h : Inv s) (hs : s.state = .new) :
    Inv s.connect ∧ s.state.rank ≤ s.connect.state.rank := by
  have hassert : Inv ((s.assert (s.state = .new)).assert
      (decide ((s.assert (s.state = .new)).appInput = []))) :=
    (h.assert fun _ => by simpa using hs).assert fun _ => decide_eq_true (h.new hs)
  obtain ⟨hinv, hset⟩ := hassert.advance (c := .connecting)
    (show s.state.closes = false by rw [hs]; rfl) rfl
    (show s.state ≠ .connecting by rw [hs]; decide) (by decide)
  refine ⟨hinv, ?_⟩
  rw [hs]
  exact Nat.zero_le _

/-- An orderly call keeps the invariant, and the state does not go back. -/
theorem Inv.step {s' : State} {a : Method × List Answer} (h : Inv s) (hstep : step s a = some s')
    (horder : orderly s a = true) : Inv s' ∧ s'.fits = true ∧ s.state.rank ≤ s'.state.rank := by
  obtain ⟨m, l⟩ := a
  unfold SSLStream.step at hstep
  simp only [Option.ite_none_right_eq_some] at hstep
  obtain ⟨⟨hallowed, hans, hfits⟩, hs'⟩ := hstep
  obtain rfl := Option.some.inj hs'
  simp only [orderly, Bool.and_eq_true, decide_eq_true_eq] at horder
  obtain ⟨hb, hm⟩ := horder
  have hinv := h.withAnswers l
  have hbudget : Budget { s with answers := l } := hb
  suffices hrun : Inv (m.run { s with answers := l }) ∧
      s.state.rank ≤ (m.run { s with answers := l }).state.rank from ⟨hrun.1, hfits, hrun.2⟩
  cases m with
  | update | popNetOutput =>
    obtain ⟨hinv', hrank, -⟩ := hinv.privUpdate (d := []) hbudget
    exact ⟨hinv', hrank⟩
  | connect =>
    exact hinv.connect (by simpa [Method.allowed] using hallowed)
  | shutdown => exact hinv.shutdown (by simpa using hm)
  | appendAppInputCopy d =>
    refine hinv.appendAppInputCopy hbudget (fun hclosing hf hne hz => ?_) hans hfits
    have hm' : d = [] ∨ zero ∉ l ∨ ∃ x ∈ l.getLast?, x.settles = true := by simpa using hm
    exact (hm'.resolve_left hne).resolve_left (not_not_intro (hz.resolve_left hclosing))
  | popAppOutput => exact hinv.popAppOutput hbudget
  | appendNetInput => exact ⟨hinv, le_rfl⟩

theorem inv_init : Inv .init :=
  ⟨⟨fun _ => rfl, rfl, nofun⟩, fun _ => rfl, nofun, fun h => absurd rfl h, trivial⟩

/-- **The state machine of the stream.** In every run of orderly calls the state only advances,
nothing unencrypted is kept once the stream is closing, no data call is made after a fatal error,
and no assertion fails. -/
theorem orderly_runs {s : State} (h : machine.ReachableBy (fun s a => orderly s a = true) s) :
    (s.failed = false ∧ s.late = false ∧ (s.state.closes = true → s.appInput = [])) ∧
      ∀ a s', step s a = some s' → orderly s a = true → s.state.rank ≤ s'.state.rank := by
  have hinv : Inv s ∧ s.fits = true := by
    refine machine.invariant_by (P := fun s => Inv s ∧ s.fits = true) ?_ ?_ h
    · rintro s rfl
      exact ⟨inv_init, rfl⟩
    · rintro s a s' ⟨hs, -⟩ horder hstep
      obtain ⟨hs', hfits, -⟩ := hs.step hstep horder
      exact ⟨hs', hfits⟩
  exact ⟨⟨hinv.1.failed hinv.2, hinv.1.late, hinv.1.kept⟩,
    fun a s' hstep horder => (hinv.1.step hstep horder).2.2⟩

/-- A handshake, a write, and the close of the peer during the next write. -/
theorem orderly_runs_sample : ∃ s : State, s.state = .closing ∧ s.failed = false ∧ s.late = false ∧
    (s.state.closes = true → s.appInput = []) := by
  obtain ⟨s, hs, hclosing⟩ : ∃ s, machine.runBy (fun s a => orderly s a = true) .init
      [(.connect, []), (.update, [.failed .wantRead]),
        (.appendAppInputCopy [1, 2], [.failed .wantRead, .failed .wantRead]), (.update, [.done]),
        (.popAppOutput, [.done, .done, .failed .wantRead]),
        (.appendAppInputCopy [3], []), (.popAppOutput, [zero, .failed .wantRead])] = some s ∧
      s.state = .closing :=
    Option.map_eq_some_iff.mp (by decide +kernel)
  obtain ⟨h, -⟩ := orderly_runs (.of_runBy (.init rfl) hs)
  exact ⟨s, hclosing, h⟩

/-- A new stream which is shut down twice: the second call fails the assertion of the state. -/
theorem shutdown_twice : ∃ s, machine.Reachable s ∧ s.failed = true := by
  obtain ⟨s, hs, hfailed⟩ : ∃ s,
      machine.run .init [(.shutdown, []), (.shutdown, [.done])] = some s ∧ s.failed = true :=
    Option.map_eq_some_iff.mp (by decide +kernel)
  exact ⟨s, Machine.Reachable.of_run (.init rfl) hs, hfailed⟩

end SSLStream

end Serverbox
