import Mathlib.Data.Fintype.Basic
import Serverbox.Aio.TCPSocketPlaces

/-!
# The posted work of a socket is not lost

A post wakes the task of the socket up only when it finds its own front data empty. So the front
data of a running socket must never be left behind by an execution, or by the end of one life of
the socket, without a wakeup on its way. Within one life this holds: an execution which drains
the front data began after the exchange which made the task pending, and an execution which does
not drain it closes the socket. A life which ends clears the front data, but data posted
afterwards stays there while its wakeup finds the task closed and does nothing; `PostConnect` and
`PostWrap` wake the reopened task up, `PostTask` does not.

## Main definitions

* `TCPSocket.Posted`: the three kinds of posted work.
* `TCPSocket.State.Served`: the task is going to look at the work.
* `TCPSocket.KeepsPosted`: the condition on `PostTask`.

## Main results

* `TCPSocket.posted_served`: in every run of steps which meet the condition, the posted work of a
  running socket is served.
* `TCPSocket.posted_lost`: it is not served in every run.
-/

namespace Serverbox

namespace TCPSocket

open BufferLinkList (Heap)

variable {Θ B : Type*}

/-- The kinds of work which are posted to the front half of the socket. -/
inductive Posted
  | send
  | recv
  | ctl
  deriving DecidableEq

/-- There is front data of a kind. -/
def State.has (s : State Θ B) : Posted → Bool
  | .send => !s.frontSendQueue.isEmpty
  | .recv => s.frontRecvSize != 0
  | .ctl => s.frontCtl.isSome

/-- An execution in this phase has yet to drain the front data of a kind, or to clear it. -/
@[grind] def Phase.before : Phase → Posted → Bool
  | popped, _ | started, _ | failed, _ | aborted, _ | event, _ | final, _ => true
  | ctl, k => k ≠ .ctl
  | drained, k => k = .recv
  | none, _ | io, _ | leaving, _ | onClose, _ => false

/-- The task is in a queue of the core or with a worker, and is going to be executed from there,
or it is executed and the front data of the kind is not drained yet. -/
def State.Served (s : State Θ B) (k : Posted) : Prop :=
  (s.task.place ≠ .outside ∧ s.task.place ≠ .asleep ∧
      (s.task.status ≠ .pending ∨ s.task.rescheduled)) ∨
    ∃ θ, (s.phase θ).before k

/-- A thread is in a call of the socket. The close which the worker itself makes in `ProtClose`
is a part of the execution; it does not hold the mutex. -/
def State.Posting (s : State Θ B) : Prop :=
  ∃ θ, match s.call θ with
    | .idle | .opening => False
    | .closeGuard | .closeExchange => s.mutex = some θ
    | _ => True

/-- A thread is in `IOTask::PostWakeup`. -/
@[grind] def Call.isWakeup : Call B → Bool
  | wakeup _ _ => true
  | _ => false

/-- `PostTask` puts its task into the core with no posted work, or with a task which is awake, or
before the wakeup of a post which is not over. `Connect` is called while the worker still has the
task: not in `OnClose`, after the socket has been posted again. -/
def KeepsPosted (s : State Θ B) : Action Θ B → Prop
  | .next θ =>
    match s.call θ with
    | .attach false => (∀ k, s.has k = false) ∨ s.task.status = .ready ∨
      s.task.status = .closing ∨ ∃ θ', (s.call θ').isWakeup
    | _ => True
  | .call θ .connect => s.task.place = .executing θ
  | _ => True

instance (s : State Θ B) : Decidable (∀ k, s.has k = false) :=
  decidable_of_iff (s.has .send = false ∧ s.has .recv = false ∧ s.has .ctl = false)
    ⟨fun h k => by cases k <;> simp [h], fun h => ⟨h .send, h .recv, h .ctl⟩⟩

instance [Fintype Θ] [DecidableEq Θ] (s : State Θ B) :
    (a : Action Θ B) → Decidable (KeepsPosted s a)
  | .next θ =>
    have attach (p : Prop) [Decidable p] : (c : Call B) → Decidable (match c with
        | .attach false => p
        | _ => True)
      | .attach false => inferInstanceAs (Decidable p)
      | .attach true | .idle | .send _ _ | .opening | .wakeup _ _ | .closeGuard | .closeExchange
      | .attachGuard _ | .attachPush _ => inferInstanceAs (Decidable True)
    attach _ (s.call θ)
  | .call θ .connect => inferInstanceAs (Decidable (s.task.place = .executing θ))
  | .call _ (.send _) | .call _ (.postRecv _) | .call _ .postShutdown | .call _ .postClose
  | .call _ .postWakeup | .call _ .postTask | .call _ .postConnect | .call _ .postWrap
  | .call _ .protOpen | .call _ .protPostHandshake
  | .push | .dispatch _ | .dispatchEvent | .pop _ | .work _ _ | .unlink _ =>
    inferInstanceAs (Decidable True)

/-! ### The invariant -/

/-- A thread in this call is going to wake the task up, or to close it. -/
@[grind] def Call.wakes : Call B → Bool
  | wakeup _ _ | attach _ => true
  | attachGuard wake | attachPush wake => wake
  | _ => false

theorem Call.wakes_of_isIdle {cl : Call B} (h : cl.isIdle = true) : cl.wakes = false := by
  cases cl <;> simp_all [isIdle, wakes]

/-- The task is awake, or closed. -/
@[grind] def IOTask.isAwake (t : IOTask Θ) : Bool :=
  (t.status ≠ .pending && t.status ≠ .waiting) || t.rescheduled

/-- The task is awake, or an execution is going to drain the front data of a kind, or a thread is
going to wake the task up or to close it. -/
@[grind] def State.Awaited (s : State Θ B) (k : Posted) : Prop :=
  s.task.isAwake = true ∨ (∃ θ, (s.phase θ).before k = true) ∨ (∃ θ, (s.call θ).wakes = true) ∨
    ∃ θ, s.call θ = .closeExchange ∧ s.mutex = some θ

/-- Who is closing the task, and that a task which was rescheduled does not fall asleep. -/
structure Closes (s : State Θ B) : Prop where
  guard : s.task.closeGuard = true → s.task.status = .closing ∨ s.task.status = .closed ∨
    (∃ θ, s.call θ = .closeExchange) ∨ ∃ θ wake, s.call θ = .attachGuard wake
  closing : ∀ θ, (s.call θ).closing = true → s.mutex = some θ ∨ s.task.place = .executing θ
  aborted : ∀ θ, s.phase θ = .aborted → s.task.closeGuard = true ∨ s.call θ = .closeGuard
  rescheduled : s.task.place = .asleep → s.task.rescheduled = false

/-- No front data of a running socket is left behind. -/
structure Keeps (s : State Θ B) : Prop where
  closes : Closes s
  kept : ∀ k, s.isRunning = true → s.has k = true → s.Awaited k

/-- The invariant of the socket and its task. -/
structure Live (s : State Θ B) : Prop where
  placed : Placed s
  keeps : Keeps s

theorem live_new (heap : Heap B) : Live (State.new heap : State Θ B) where
  placed := placed_new heap
  keeps := ⟨by constructor <;> simp [State.new, IOTask.new, Call.closing],
    fun k hr => by simp [State.new] at hr⟩

variable [DecidableEq Θ] {s s' : State Θ B} {θ : Θ}

/-! ### Changes of one part of the state -/

omit [DecidableEq Θ] in
/-- The front data change: new data of a kind must be awaited. -/
theorem Live.front (h : Live s) {t : State Θ B} (htask : t.task = s.task)
    (hmutex : t.mutex = s.mutex) (hrun : t.isRunning = s.isRunning) (hstate : t.state = s.state)
    (hphase : t.phase = s.phase) (hcall : t.call = s.call)
    (hk : ∀ k, t.has k = true → s.has k = true ∨ s.isRunning = false ∨ s.Awaited k) : Live t := by
  have hw : ∀ k, s.Awaited k → t.Awaited k := fun k hw => by
    rwa [State.Awaited, htask, hphase, hcall, hmutex]
  refine ⟨h.placed.congr ?_ ?_ ?_ hmutex hrun hstate hphase hcall, ?_⟩
  iterate 3 rw [htask]
  obtain ⟨⟨h1, h2, h3, h4⟩, hd⟩ := h.keeps
  refine ⟨⟨?_, ?_, ?_, ?_⟩, ?_⟩
  case refine_5 =>
    intro k hr hkt
    rw [hrun] at hr
    rcases hk k hkt with hks | hks | hks
    · exact hw k (hd k hr hks)
    · exact absurd hr (by simp [hks])
    · exact hw k hks
  all_goals simpa only [htask, hmutex, hrun, hstate, hphase, hcall]

omit [DecidableEq Θ] in
/-- Nothing of the front half, the task, the threads or the state changes. -/
theorem Live.congr (h : Live s) {t : State Θ B} (htask : t.task = s.task)
    (hmutex : t.mutex = s.mutex) (hrun : t.isRunning = s.isRunning) (hstate : t.state = s.state)
    (hhas : t.has = s.has) (hphase : t.phase = s.phase) (hcall : t.call = s.call) : Live t :=
  h.front htask hmutex hrun hstate hphase hcall fun _ hk => .inl (hhas ▸ hk)

omit [DecidableEq Θ] in
/-- The state of the socket changes, and does not become the state of a socket at rest. -/
theorem Live.setState (h : Live s) (st : SocketState) (hst : st ≠ .new ∧ st ≠ .closed) :
    Live { s with state := st } where
  placed := h.placed.setState st hst
  keeps := ⟨{ h.keeps.closes with }, h.keeps.kept⟩

omit [DecidableEq Θ] in
/-- The worker which has the task reschedules it. -/
theorem Live.reschedule (h : Live s) (hp : s.task.place = .executing θ) :
    Live { s with task := { s.task with rescheduled := true } } where
  placed := h.placed.congr rfl rfl rfl rfl rfl rfl rfl rfl
  keeps := ⟨{ h.keeps.closes with rescheduled := fun ha => absurd (hp.symm.trans ha) (by simp) },
    fun _ _ _ => .inl (by simp [IOTask.isAwake])⟩

/-- A thread goes on from one plain call to another. -/
theorem Live.goto (h : Live s) (cl : Call B) (hp : (s.call θ).isPlain) (hc : cl.isPlain)
    (he : ∀ old k, cl = .wakeup old k → old = .pending ∨ old = .waiting)
    (hw : (s.call θ).wakes = true → cl.wakes = true) : Live (s.goto θ cl) := by
  refine ⟨h.placed.goto cl hp hc he, ?_⟩
  obtain ⟨g, hg, hv, hu, hu'⟩ := updated s.call θ cl
  simp only [State.goto, hg]
  refine ⟨?_, ?_⟩
  · obtain ⟨h1, h2, h3, h4⟩ := h.keeps.closes
    have hz := h.placed.asleep
    have hx := h.placed.executing
    have ha := h.placed.attaching
    constructor <;> grind -ring -linarith
  · intro j hr hd
    have hw := h.keeps.kept j
    cases j <;> simp only [State.has] at hd hw <;> grind -ring -linarith

/-- A plain call ends; the task is awake if the call was going to wake it up. -/
theorem Live.finish (h : Live s) {k : Option ℕ} (hp : (s.call θ).isPlain)
    (hw : (s.call θ).wakes = true → s.task.isAwake = true) : Live (s.finish θ k) := by
  refine ⟨h.placed.finish hp, ?_⟩
  obtain ⟨g, hg, hv, hu, hu'⟩ := updated s.call θ .idle
  simp only [State.finish, hg]
  refine ⟨?_, ?_⟩
  · obtain ⟨h1, h2, h3, h4⟩ := h.keeps.closes
    have hz := h.placed.asleep
    have hx := h.placed.executing
    have ha := h.placed.attaching
    constructor <;> grind -ring -linarith
  · intro j hr hd
    have hq := h.keeps.kept j
    cases j <;> simp only [State.has] at hd hq <;> grind -ring -linarith

/-- A busy worker goes on: the data it does not drain any more are waited for otherwise. -/
theorem Live.moveTo (h : Live s) {p : Phase} (hq : (s.phase θ).isBusy) (hp : p.isBusy)
    (hne : p ≠ .aborted) (hk : ∀ k, s.has k = true → (s.phase θ).before k = true →
      p.before k = true ∨ s.task.isAwake = true ∨
        ∃ θ', s.call θ' = .closeExchange ∧ s.mutex = some θ') : Live (s.moveTo θ p) := by
  refine ⟨h.placed.moveTo hq hp, ?_⟩
  obtain ⟨g, hg, hv, hu, hu'⟩ := updated s.phase θ p
  simp only [State.moveTo, hg]
  refine ⟨?_, ?_⟩
  · obtain ⟨h1, h2, h3, h4⟩ := h.keeps.closes
    have hz := h.placed.asleep
    have hx := h.placed.executing
    have ha := h.placed.attaching
    constructor <;> grind -ring -linarith
  · intro j hr hd
    have hw := h.keeps.kept j
    have hj := hk j
    cases j <;> simp only [State.has] at hd hw hj <;> grind -ring -linarith

/-! ### The task -/

omit [DecidableEq Θ] in
theorem Live.dispatchEvent (h : Live s) (hs : TCPSocket.dispatchEvent s = some s') :
    Live s' := by
  refine ⟨h.placed.dispatchEvent hs, ?_⟩
  obtain ⟨hp, rfl⟩ := assert_eq_some.mp hs
  refine ⟨?_, ?_⟩
  · obtain ⟨h1, h2, h3, h4⟩ := h.keeps.closes
    have hz := h.placed.asleep
    have hx := h.placed.executing
    have ha := h.placed.attaching
    constructor <;> grind -ring -linarith
  · intro j hr hd
    have hw := h.keeps.kept j
    cases j <;> simp only [State.has] at hd hw <;> grind -ring -linarith

theorem Live.push (h : Live s) (hs : TCPSocket.push s = some s') : Live s' := by
  refine ⟨h.placed.push hs, ?_⟩
  obtain ⟨hp, rfl⟩ := assert_eq_some.mp hs
  refine ⟨?_, ?_⟩
  · obtain ⟨h1, h2, h3, h4⟩ := h.keeps.closes
    have hz := h.placed.asleep
    have hx := h.placed.executing
    have ha := h.placed.attaching
    constructor <;> grind -ring -linarith
  · intro j hr hd
    have hw := h.keeps.kept j
    cases j <;> simp only [State.has] at hd hw <;> grind -ring -linarith

theorem Live.dispatch (h : Live s) {hasEvents : Bool}
    (hs : TCPSocket.dispatch s hasEvents = some s') : Live s' := by
  refine ⟨h.placed.dispatch hs, ?_⟩
  obtain ⟨hp, rfl⟩ := assert_eq_some.mp hs
  refine ⟨?_, ?_⟩
  · obtain ⟨h1, h2, h3, h4⟩ := h.keeps.closes
    have hz := h.placed.asleep
    have hx := h.placed.executing
    have ha := h.placed.attaching
    constructor <;> grind -ring -linarith
  · intro j hr hd
    have hw := h.keeps.kept j
    cases j <;> simp only [State.has] at hd hw <;> grind -ring -linarith

theorem Live.pop (h : Live s) (hs : TCPSocket.pop s θ = some s') : Live s' := by
  refine ⟨h.placed.pop hs, ?_⟩
  obtain ⟨hp, rfl⟩ := assert_eq_some.mp hs
  simp only [Bool.and_eq_true, decide_eq_true_eq] at hp
  obtain ⟨⟨hp, hph⟩, hi⟩ := hp
  obtain ⟨g, hg, hv, hu, hu'⟩ := updated s.phase θ .popped
  simp only [State.moveTo, hg]
  refine ⟨?_, ?_⟩
  · obtain ⟨h1, h2, h3, h4⟩ := h.keeps.closes
    have hz := h.placed.asleep
    have hx := h.placed.executing
    have ha := h.placed.attaching
    constructor <;> grind -ring -linarith
  · intro j hr hd
    have hw := h.keeps.kept j
    cases j <;> simp only [State.has] at hd hw <;> grind -ring -linarith

/-! ### The calls -/

omit [DecidableEq Θ] in
/-- The exchange of the status of a task which sleeps or is pending. -/
theorem Live.wake (h : Live s) {place : Place Θ}
    (hs : s.task.status = .waiting ∧ place = .pushing ∨
      s.task.status = .pending ∧ place = s.task.place) :
    Live { s with task := { s.task with status := .ready, place := place } } := by
  refine ⟨h.placed.wake hs, ?_, ?_⟩
  · obtain ⟨h1, h2, h3, h4⟩ := h.keeps.closes
    have hz := h.placed.asleep
    have hx := h.placed.executing
    have ha := h.placed.attaching
    constructor <;> grind -ring -linarith
  · intro j hr hd
    have hw := h.keeps.kept j
    cases j <;> simp only [State.has] at hd hw <;> grind -ring -linarith

theorem Live.postWakeup (h : Live s) {old : TaskStatus} {k : Option ℕ}
    (hc : s.call θ = .wakeup old k) : Live (TCPSocket.postWakeup s θ old k) := by
  have hp : (s.call θ).isPlain := by rw [hc]; rfl
  have he := h.placed.expects θ old k hc
  unfold TCPSocket.postWakeup
  split
  case isTrue hst =>
    split
    case isTrue hwait =>
      exact Live.finish (h.wake (.inl ⟨hst.trans hwait, rfl⟩)) hp fun _ => by
        simp [IOTask.isAwake]
    case isFalse hwait =>
      exact Live.finish (h.wake (.inr ⟨hst.trans (he.resolve_right hwait), rfl⟩)) hp fun _ => by
        simp [IOTask.isAwake]
  case isFalse =>
    split
    case isTrue hst =>
      exact h.goto _ hp rfl (fun _ _ h => by cases h; exact hst) fun _ => rfl
    case isFalse hst => exact h.finish hp fun _ => by simpa [IOTask.isAwake] using Or.inl hst

theorem Live.privCloseStart (h : Live s) (hc : s.call θ = .closeGuard) :
    Live (TCPSocket.privCloseStart s θ) := by
  refine ⟨h.placed.privCloseStart hc, ?_⟩
  obtain ⟨g, hg, hv, hu, hu'⟩ := updated s.call θ .idle
  obtain ⟨g₁, hg₁, hv₁, hu₁, hu₁'⟩ := updated s.call θ .closeExchange
  unfold TCPSocket.privCloseStart
  split <;> simp only [State.goto, State.finish, hg, hg₁]
  all_goals
    refine ⟨?_, ?_⟩
    · obtain ⟨h1, h2, h3, h4⟩ := h.keeps.closes
      have hz := h.placed.asleep
      have hx := h.placed.executing
      have ha := h.placed.attaching
      constructor <;> grind -ring -linarith
    · intro j hr hd
      have hw := h.keeps.kept j
      cases j <;> simp only [State.has] at hd hw <;> grind -ring -linarith

theorem Live.closeExchange (h : Live s) (hc : s.call θ = .closeExchange)
    (hs : TCPSocket.closeExchange s θ = some s') : Live s' := by
  refine ⟨h.placed.closeExchange hc hs, ?_⟩
  obtain ⟨g, hg, hv, hu, hu'⟩ := updated s.call θ .idle
  obtain ⟨hp, rfl⟩ := assert_eq_some.mp hs
  simp only [State.finish, hg]
  refine ⟨?_, ?_⟩
  · obtain ⟨h1, h2, h3, h4⟩ := h.keeps.closes
    have hz := h.placed.asleep
    have hx := h.placed.executing
    have ha := h.placed.attaching
    constructor <;> grind -ring -linarith
  · intro j hr hd
    have hw := h.keeps.kept j
    cases j <;> simp only [State.has] at hd hw <;> grind -ring -linarith

/-- `PostTask` does not wake the task up, so the condition is needed here. -/
theorem Live.privAttach (h : Live s) {wake : Bool} (hc : s.call θ = .attach wake)
    (hk : wake = false →
      (s.frontSendQueue = [] ∧ s.frontRecvSize = 0 ∧ s.frontCtl = none) ∨
        s.task.status = .ready ∨ s.task.status = .closing ∨ ∃ θ' old k, s.call θ' = .wakeup old k)
    (hs : TCPSocket.privAttach s θ wake = some s') : Live s' := by
  refine ⟨h.placed.privAttach hc hs, ?_⟩
  obtain ⟨g, hg, hv, hu, hu'⟩ := updated s.call θ (.attachGuard wake)
  obtain ⟨g₁, hg₁, hv₁, hu₁, hu₁'⟩ := updated s.call θ (.attachPush wake)
  unfold TCPSocket.privAttach at hs
  split at hs <;> obtain ⟨hp, rfl⟩ := assert_eq_some.mp hs <;> simp only [State.goto, hg, hg₁]
  all_goals
    refine ⟨?_, ?_⟩
    · obtain ⟨h1, h2, h3, h4⟩ := h.keeps.closes
      have hz := h.placed.asleep
      have hx := h.placed.executing
      have ha := h.placed.attaching
      constructor <;> grind -ring -linarith
    · intro j hr hd
      have hw := h.keeps.kept j
      cases j <;> simp only [State.has] at hd hw <;> grind -ring -linarith

theorem Live.attachGuard (h : Live s) {wake : Bool} (hc : s.call θ = .attachGuard wake)
    (hs : TCPSocket.attachGuard s θ wake = some s') : Live s' := by
  refine ⟨h.placed.attachGuard hc hs, ?_⟩
  obtain ⟨g, hg, hv, hu, hu'⟩ := updated s.call θ (.attachPush wake)
  obtain ⟨hp, rfl⟩ := assert_eq_some.mp hs
  simp only [State.goto, hg]
  refine ⟨?_, ?_⟩
  · obtain ⟨h1, h2, h3, h4⟩ := h.keeps.closes
    have hz := h.placed.asleep
    have hx := h.placed.executing
    have ha := h.placed.attaching
    constructor <;> grind -ring -linarith
  · intro j hr hd
    have hw := h.keeps.kept j
    cases j <;> simp only [State.has] at hd hw <;> grind -ring -linarith

theorem Live.attachPush (h : Live s) {wake : Bool} (hc : s.call θ = .attachPush wake) :
    Live (TCPSocket.attachPush s θ wake) := by
  refine ⟨h.placed.attachPush hc, ?_⟩
  obtain ⟨g, hg, hv, hu, hu'⟩ := updated s.call θ .idle
  obtain ⟨g₁, hg₁, hv₁, hu₁, hu₁'⟩ := updated s.call θ (.wakeup .waiting none)
  unfold TCPSocket.attachPush
  split <;> simp only [State.goto, State.finish, hg, hg₁]
  all_goals
    refine ⟨?_, ?_⟩
    · obtain ⟨h1, h2, h3, h4⟩ := h.keeps.closes
      have hz := h.placed.asleep
      have hx := h.placed.executing
      have ha := h.placed.attaching
      constructor <;> grind -ring -linarith
    · intro j hr hd
      have hw := h.keeps.kept j
      cases j <;> simp only [State.has] at hd hw <;> grind -ring -linarith

theorem Live.postSendMove (h : Live s) {c : ℕ} {links : List (Option B)}
    (hc : s.call θ = .send c links) (hs : TCPSocket.postSendMove s θ c links = some s') :
    Live s' := by
  have hp : (s.call θ).isPlain := by rw [hc]; rfl
  have hw : (s.call θ).wakes = false := by rw [hc]; rfl
  unfold TCPSocket.postSendMove at hs
  split at hs
  · obtain rfl := Option.some.inj hs
    unfold sendMove
    split
    all_goals
      refine Live.finish ?_ hp (by simp [hw])
      exact h.congr rfl rfl rfl rfl rfl rfl rfl
  · obtain ⟨-, rfl⟩ := assert_eq_some.mp hs
    split
    case isTrue =>
      -- the queue was empty, and this thread is going to wake the task up
      refine (h.goto (.wakeup .waiting (some c)) hp rfl ?_ fun _ => rfl).front rfl rfl rfl rfl
        rfl rfl ?_
      · exact fun _ _ h => by cases h; exact .inr rfl
      · exact fun k _ => .inr (.inr (.inr (.inr (.inl ⟨θ, by simp [State.goto, Call.wakes]⟩))))
    case isFalse hne =>
      refine Live.finish ?_ hp (by simp [hw])
      refine h.front rfl rfl rfl rfl rfl rfl fun k hk => .inl ?_
      cases k with
      | send => simpa [State.has] using hne
      | recv => exact hk
      | ctl => exact hk

theorem Live.openEnd (h : Live s) (hc : s.call θ = .opening) : Live (TCPSocket.openEnd s θ) := by
  refine Live.finish ?_ (by rw [hc]; rfl) (by simp [hc, Call.wakes])
  exact h.congr rfl rfl rfl rfl rfl rfl rfl

/-- A thread begins to wake the task up. -/
theorem Live.postWakeupBegin (h : Live s) (hi : (s.call θ).isIdle) :
    Live (s.goto θ (.wakeup .waiting none)) :=
  h.goto _ (Call.isPlain_of_isIdle hi) rfl (fun _ _ h => by cases h; exact .inr rfl) fun _ => rfl

theorem Live.postRecv (h : Live s) (hi : (s.call θ).isIdle) (size : ℕ) :
    Live (TCPSocket.postRecv s θ size) := by
  unfold TCPSocket.postRecv
  split
  · exact h.congr rfl rfl rfl rfl rfl rfl rfl
  · split
    case isTrue =>
      refine (h.postWakeupBegin hi).front rfl rfl rfl rfl rfl rfl fun k _ => .inr (.inr ?_)
      exact .inr (.inr (.inl ⟨θ, by simp [State.goto, Call.wakes]⟩))
    case isFalse hne =>
      refine h.front rfl rfl rfl rfl rfl rfl fun k hk => .inl ?_
      cases k with
      | send => exact hk
      | recv => simpa [State.has] using hne
      | ctl => exact hk

omit [DecidableEq Θ] in
/-- A thread takes the mutex. -/
theorem Live.lock (h : Live s) (hm : s.mutex = none) : Live { s with mutex := some θ } := by
  refine ⟨h.placed.lock hm, ?_, ?_⟩
  · obtain ⟨h1, h2, h3, h4⟩ := h.keeps.closes
    have hz := h.placed.asleep
    have hx := h.placed.executing
    have ha := h.placed.attaching
    constructor <;> grind -ring -linarith
  · intro j hr hd
    have hw := h.keeps.kept j
    cases j <;> simp only [State.has] at hd hw <;> grind -ring -linarith

theorem Live.postShutdown (h : Live s) (hi : (s.call θ).isIdle)
    (hs : TCPSocket.postShutdown s θ = some s') : Live s' := by
  unfold TCPSocket.postShutdown at hs
  split at hs <;> obtain ⟨hp, rfl⟩ := assert_eq_some.mp hs
  · exact h
  · simp only [State.unlocked, Bool.and_eq_true, decide_eq_true_eq] at hp
    refine ((h.lock hp.1).postWakeupBegin (θ := θ) hi).front rfl rfl rfl rfl rfl rfl
      fun k _ => .inr (.inr ?_)
    exact .inr (.inr (.inl ⟨θ, by simp [State.goto, Call.wakes]⟩))

/-- A thread begins to close the task: under the mutex, or as the worker which has it. -/
theorem Live.closeBegin (h : Live s) (hi : (s.call θ).isIdle)
    (hh : s.mutex = some θ ∨ s.task.place = .executing θ) : Live (s.goto θ .closeGuard) := by
  refine ⟨h.placed.closeBegin hi, ?_⟩
  obtain ⟨g, hg, hv, hu, hu'⟩ := updated s.call θ .closeGuard
  simp only [State.goto, hg]
  refine ⟨?_, ?_⟩
  · obtain ⟨h1, h2, h3, h4⟩ := h.keeps.closes
    have hz := h.placed.asleep
    have hx := h.placed.executing
    have ha := h.placed.attaching
    constructor <;> grind -ring -linarith [Call.isIdle]
  · intro j hr hd
    have hw := h.keeps.kept j
    cases j <;> simp only [State.has] at hd hw <;> grind -ring -linarith [Call.isIdle]

theorem Live.postClose (h : Live s) (hi : (s.call θ).isIdle)
    (hs : TCPSocket.postClose s θ = some s') : Live s' := by
  obtain ⟨hp, rfl⟩ := assert_eq_some.mp hs
  simp only [State.unlocked, decide_eq_true_eq] at hp
  split
  · exact h
  · split
    case isTrue hnew =>
      -- a socket which was never posted is not running
      have hrun : s.isRunning = false := by
        by_contra hr
        exact (h.placed.state (by simpa using hr)).1 hnew
      exact ⟨{ h.placed with state := fun hr => absurd hr (by simp [hrun]) },
        { h.keeps.closes with }, h.keeps.kept⟩
    case isFalse => exact (((h.lock hp).setState _ (by simp)).closeBegin (θ := θ) hi (.inl rfl))

theorem Live.post (h : Live s) (hi : (s.call θ).isIdle) (hstart : canStart s = true)
    {wake : Bool} {st : SocketState} (hst : st ≠ .new ∧ st ≠ .closed) (c : Option Ctl) :
    Live ({ s with
      isReadyToStart := false, isRunning := true, state := st, mutex := some θ
      frontCtl := c }.goto θ (.attach wake)) := by
  refine ⟨h.placed.post hstart hst c, ?_⟩
  simp only [canStart, State.unlocked, Bool.and_eq_true, Bool.or_eq_true, decide_eq_true_eq,
    Bool.not_eq_true'] at hstart
  obtain ⟨⟨⟨hm, hst'⟩, hr⟩, hrun⟩ := hstart
  obtain ⟨g, hg, hv, hu, hu'⟩ := updated s.call θ (.attach wake)
  simp only [State.goto, hg]
  refine ⟨?_, ?_⟩
  · obtain ⟨h1, h2, h3, h4⟩ := h.keeps.closes
    have hz := h.placed.asleep
    have hx := h.placed.executing
    have ha := h.placed.attaching
    constructor <;> grind -ring -linarith [Call.isIdle]
  · intro j hr hd
    have hw := h.keeps.kept j
    cases j <;> simp only [State.has] at hd hw <;> grind -ring -linarith [Call.isIdle]

omit [DecidableEq Θ] in
theorem Live.connect (h : Live s) (hp : s.task.place = .executing θ)
    (hs : TCPSocket.connect s θ = some s') : Live s' := by
  unfold TCPSocket.connect at hs
  split at hs <;> obtain ⟨-, rfl⟩ := assert_eq_some.mp hs
  · exact h
  · refine ((h.reschedule hp).setState .connecting (by simp)).front rfl rfl rfl rfl rfl rfl
      fun _ _ => .inr (.inr (.inl ?_))
    simp [IOTask.isAwake]

theorem Live.protOpen (h : Live s) (hi : (s.call θ).isIdle)
    (hs : TCPSocket.protOpen s θ = some s') : Live s' := by
  obtain ⟨-, rfl⟩ := assert_eq_some.mp hs
  refine Live.goto ?_ _ (Call.isPlain_of_isIdle hi) rfl (by simp) fun hw => ?_
  · exact h.congr rfl rfl rfl rfl rfl rfl rfl
  · exact absurd hw (by simp [Call.wakes_of_isIdle hi])

omit [DecidableEq Θ] in
theorem Live.protPostHandshake (h : Live s) (hs : TCPSocket.protPostHandshake s = some s') :
    Live s' := by
  obtain ⟨hp, rfl⟩ := assert_eq_some.mp hs
  simp only [Bool.and_eq_true, Bool.not_eq_true'] at hp
  exact h.front rfl rfl rfl rfl rfl rfl fun _ _ => .inr (.inl hp.1.2)

/-! ### The worker -/

theorem Live.execute (h : Live s) (hp : s.phase θ = .popped) : Live (TCPSocket.execute s θ) := by
  refine ⟨h.placed.execute hp, ?_⟩
  obtain ⟨g, hg, hv, hu, hu'⟩ := updated s.phase θ .started
  simp only [TCPSocket.execute, State.moveTo, hg]
  refine ⟨?_, ?_⟩
  · obtain ⟨h1, h2, h3, h4⟩ := h.keeps.closes
    have hz := h.placed.asleep
    have hx := h.placed.executing
    have ha := h.placed.attaching
    constructor <;> grind -ring -linarith
  · intro j hr hd
    have hw := h.keeps.kept j
    cases j <;> simp only [State.has] at hd hw <;> grind -ring -linarith

theorem Live.onEvent (h : Live s) (hi : (s.call θ).isIdle) (hp : s.phase θ = .started)
    (ok : Bool) :
    Live (TCPSocket.onEvent s θ ok) := by
  refine ⟨h.placed.onEvent hp ok, ?_⟩
  obtain ⟨g, hg, hv, hu, hu'⟩ := updated s.phase θ .final
  obtain ⟨g₁, hg₁, hv₁, hu₁, hu₁'⟩ := updated s.phase θ (if ok then .event else .failed)
  simp only [TCPSocket.onEvent, State.moveTo, hg, hg₁]
  split
  all_goals
    refine ⟨?_, ?_⟩
    · obtain ⟨h1, h2, h3, h4⟩ := h.keeps.closes
      have hz := h.placed.asleep
      have hx := h.placed.executing
      have ha := h.placed.attaching
      constructor <;> grind -ring -linarith [Call.isIdle]
    · intro j hr hd
      have hw := h.keeps.kept j
      cases j <;> simp only [State.has] at hd hw <;> grind -ring -linarith [Call.isIdle]

/-- `ProtClose`, from a phase which goes on in it. -/
theorem Live.protClose (h : Live s) (hi : (s.call θ).isIdle) {p : Phase}
    (hp : s.phase θ = p ∨ s.phase θ = .failed ∧ p = .aborted) (hh : p.isBusy = true)
    (hs : TCPSocket.protClose s θ p = some s') : Live s' := by
  refine ⟨h.placed.protClose hi hp hh hs, ?_⟩
  obtain ⟨hc, rfl⟩ := assert_eq_some.mp hs
  simp only [Bool.and_eq_true] at hc
  obtain ⟨g, hg, hv, hu, hu'⟩ := updated s.phase θ p
  obtain ⟨g₁, hg₁, hv₁, hu₁, hu₁'⟩ := updated s.call θ .closeGuard
  simp only [State.moveTo, State.goto, hg, hg₁]
  refine ⟨?_, ?_⟩
  · obtain ⟨h1, h2, h3, h4⟩ := h.keeps.closes
    have hz := h.placed.asleep
    have hx := h.placed.executing
    have ha := h.placed.attaching
    constructor <;> grind -ring -linarith [Call.isIdle]
  · intro j hr hd
    have hw := h.keeps.kept j
    rcases hp with rfl | ⟨hp, rfl⟩ <;>
    cases j <;> simp only [State.has] at hd hw <;> grind -ring -linarith [Call.isIdle]

theorem Live.protCloseFinal (h : Live s) (hp : s.phase θ = .final)
    (hs : TCPSocket.protCloseFinal s θ = some s') : Live s' := by
  refine ⟨h.placed.protCloseFinal hp hs, ?_⟩
  obtain ⟨hc, rfl⟩ := assert_eq_some.mp hs
  obtain ⟨g, hg, hv, hu, hu'⟩ := updated s.phase θ .onClose
  simp only [State.moveTo, hg]
  split
  all_goals
    refine ⟨?_, ?_⟩
    · obtain ⟨h1, h2, h3, h4⟩ := h.keeps.closes
      have hz := h.placed.asleep
      have hx := h.placed.executing
      have ha := h.placed.attaching
      constructor <;> grind -ring -linarith
    · intro j hr hd
      have hw := h.keeps.kept j
      have hst := h.placed.state
      cases j <;> simp only [State.has] at hd hw <;> grind -ring -linarith

theorem Live.drain (h : Live s) (hp : s.phase θ = .ctl ∨ s.phase θ = .event ∧ s.frontCtl = none) :
    Live (TCPSocket.drain s θ) := by
  unfold TCPSocket.drain
  refine Live.moveTo ?_ ?_ rfl (by simp) ?_
  · refine h.front rfl rfl rfl rfl rfl rfl fun k hk => ?_
    cases k <;> simp_all [State.has]
  · rcases hp with hp | hp <;> simp [hp, Phase.isBusy]
  · intro k hk hb
    cases k <;> rcases hp with hp | hp <;> simp_all [State.has, Phase.before]

theorem Live.privCtl (h : Live s) (hp : s.phase θ = .event)
    (hs : TCPSocket.privCtl s θ = some s') : Live s' := by
  unfold TCPSocket.privCtl at hs
  split at hs <;> obtain ⟨hc, rfl⟩ := assert_eq_some.mp hs
  case h_1 hf hct => exact h.drain (.inr ⟨hp, hf⟩)
  all_goals
    refine Live.moveTo ?_ (by simp [hp, Phase.isBusy]) rfl (by simp) fun k hk hb => ?_
    · refine h.front rfl rfl rfl rfl rfl rfl fun k hk => ?_
      cases k <;> simp_all [State.has]
    · cases k <;> simp_all [State.has, Phase.before]

theorem Live.recvFront (h : Live s) (hp : s.phase θ = .drained) :
    Live (TCPSocket.recvFront s θ) := by
  unfold TCPSocket.recvFront
  refine Live.moveTo ?_ (by simp [hp, Phase.isBusy]) rfl (by simp) fun k hk hb => ?_
  · refine h.front rfl rfl rfl rfl rfl rfl fun k hk => ?_
    cases k <;> simp_all [State.has]
  · cases k <;> simp_all [State.has, Phase.before]

omit [DecidableEq Θ] in
theorem Live.handshake (h : Live s) {old st : SocketState} {done : Bool}
    (hst : st ≠ .new ∧ st ≠ .closed) (hs : TCPSocket.handshake s old st done = some s') :
    Live s' := by
  obtain ⟨-, rfl⟩ := assert_eq_some.mp hs
  split
  · exact (h.setState _ hst).congr rfl rfl rfl rfl rfl rfl rfl
  · exact h.congr rfl rfl rfl rfl rfl rfl rfl

/-! ### The steps -/

/-- The worker leaves an execution which failed. The guard is set, so the task is closed, or a
thread in `PostClose` is about to close it. -/
theorem Live.abort (h : Live s) (hi : (s.call θ).isIdle) (hp : s.phase θ = .aborted) :
    Live (s.moveTo θ .leaving) := by
  refine h.moveTo (by simp [hp, Phase.isBusy]) rfl (by simp) fun k _ _ => .inr ?_
  obtain ⟨hg, hcl, ha, -⟩ := h.keeps.closes
  have hx := h.placed.executing
  have hat := h.placed.attaching
  grind -ring -linarith [Call.isIdle]

/-- The worker is back from `OnClose`. -/
theorem Live.exit (h : Live s) (hp : s.phase θ = .onClose) : Live (s.moveTo θ .none) := by
  refine ⟨h.placed.exit hp, ?_⟩
  obtain ⟨g, hg, hv, hu, hu'⟩ := updated s.phase θ .none
  simp only [State.moveTo, hg]
  refine ⟨?_, ?_⟩
  · obtain ⟨h1, h2, h3, h4⟩ := h.keeps.closes
    have hz := h.placed.asleep
    have hx := h.placed.executing
    have ha := h.placed.attaching
    constructor <;> grind -ring -linarith
  · intro j hr hd
    have hw := h.keeps.kept j
    cases j <;> simp only [State.has] at hd hw <;> grind -ring -linarith

/-- The worker posts the task again. -/
theorem Live.repost (h : Live s) (hi : (s.call θ).isIdle) (hp : s.phase θ = .leaving) :
    Live ({ s with task := { s.task with place := .pushing } }.moveTo θ .none) := by
  refine ⟨h.placed.repost hp, ?_⟩
  obtain ⟨g, hg, hv, hu, hu'⟩ := updated s.phase θ .none
  simp only [State.moveTo, hg]
  refine ⟨?_, ?_⟩
  · obtain ⟨h1, h2, h3, h4⟩ := h.keeps.closes
    have hz := h.placed.asleep
    have hx := h.placed.executing
    have ha := h.placed.attaching
    constructor <;> grind -ring -linarith [Call.isIdle]
  · intro j hr hd
    have hw := h.keeps.kept j
    cases j <;> simp only [State.has] at hd hw <;> grind -ring -linarith [Call.isIdle]

variable [DecidableEq B]

omit [DecidableEq Θ] in
/-- `PrivSend` is about the send queue only. -/
theorem Live.privSend (h : Live s) {room count : ℕ}
    (hs : TCPSocket.privSend s room count = some s') : Live s' := by
  rw [TCPSocket.privSend] at hs
  dsimp only at hs
  split at hs
  · obtain rfl := Option.some.inj hs
    exact h.congr rfl rfl rfl rfl rfl rfl rfl
  · obtain ⟨-, -, hs⟩ := Option.bind_eq_some_iff.mp hs
    obtain ⟨-, -, rfl⟩ := Option.map_eq_some_iff.mp hs
    exact h.congr rfl rfl rfl rfl rfl rfl rfl

/-- The next step of a worker. -/
theorem Live.work (h : Live s) (hi : (s.call θ).isIdle) {ch : Choice}
    (hs : TCPSocket.work s θ ch = some s') : Live s' := by
  unfold TCPSocket.work at hs
  split at hs
  case h_1 hp =>
    obtain rfl := Option.some.inj hs
    exact h.execute hp
  case h_2 hp | h_3 hp =>
    obtain rfl := Option.some.inj hs
    exact h.onEvent hi hp _
  case h_4 hp => exact h.protClose hi (.inr ⟨hp, rfl⟩) rfl hs
  case h_5 hp =>
    obtain rfl := Option.some.inj hs
    exact h.abort hi hp
  case h_6 hp => exact h.privCtl hp hs
  case h_7 c hp =>
    obtain ⟨-, rfl⟩ := assert_eq_some.mp hs
    exact Live.drain (h.congr rfl rfl rfl rfl rfl rfl rfl) (.inl hp)
  case h_8 hp | h_9 hp => exact h.handshake (by simp) hs
  case h_10 hp | h_15 hp => exact h.protClose hi (.inl hp) rfl hs
  case h_11 hp =>
    obtain rfl := Option.some.inj hs
    exact h.reschedule ((h.placed.executing θ).mp (by rw [hp]; rfl))
  case h_12 hp =>
    obtain rfl := Option.some.inj hs
    exact h.recvFront hp
  case h_13 => exact h.privSend hs
  case h_14 hp =>
    obtain rfl := Option.some.inj hs
    exact h.congr rfl rfl rfl rfl rfl rfl rfl
  case h_16 hp =>
    obtain rfl := Option.some.inj hs
    exact h.reschedule ((h.placed.executing θ).mp (by rw [hp]; rfl))
  case h_17 hp =>
    obtain rfl := Option.some.inj hs
    exact h.moveTo (by simp [hp, Phase.isBusy]) rfl (by simp) (by simp [hp, Phase.before])
  case h_18 hp =>
    obtain rfl := Option.some.inj hs
    exact h.repost hi hp
  case h_19 hp => exact h.protCloseFinal hp hs
  case h_20 hp =>
    obtain rfl := Option.some.inj hs
    exact h.exit hp
  case h_21 => cases hs

omit [DecidableEq Θ] [DecidableEq B] in
theorem State.has_false (h : ∀ k, s.has k = false) :
    s.frontSendQueue = [] ∧ s.frontRecvSize = 0 ∧ s.frontCtl = none :=
  ⟨by simpa [State.has] using h .send, by simpa [State.has] using h .recv,
    by simpa [State.has] using h .ctl⟩

omit [DecidableEq B] in
/-- The next step of a call. -/
theorem Live.next (h : Live s) (hk : KeepsPosted s (.next θ))
    (hs : TCPSocket.next s θ = some s') : Live s' := by
  rw [TCPSocket.next] at hs
  split at hs
  case h_1 => cases hs
  case h_2 hc => exact h.postSendMove hc hs
  case h_3 hc =>
    obtain rfl := Option.some.inj hs
    exact h.openEnd hc
  case h_4 hc =>
    obtain rfl := Option.some.inj hs
    exact h.postWakeup hc
  case h_5 hc =>
    obtain rfl := Option.some.inj hs
    exact h.privCloseStart hc
  case h_6 hc => exact h.closeExchange hc hs
  case h_7 wake hc =>
    refine h.privAttach hc (fun hwake => ?_) hs
    subst hwake
    rw [KeepsPosted, hc] at hk
    rcases hk with hk | hk | hk | ⟨θ', hk⟩
    · exact .inl (State.has_false hk)
    · exact .inr (.inl hk)
    · exact .inr (.inr (.inl hk))
    · refine .inr (.inr (.inr ⟨θ', ?_⟩))
      revert hk
      cases s.call θ' <;> simp [Call.isWakeup]
  case h_8 hc => exact h.attachGuard hc hs
  case h_9 hc =>
    obtain rfl := Option.some.inj hs
    exact h.attachPush hc

omit [DecidableEq B] in
/-- The beginning of an operation. -/
theorem Live.call (h : Live s) (hi : (s.call θ).isIdle) {op : Op B}
    (hk : KeepsPosted s (.call θ op)) (hs : TCPSocket.call s θ op = some s') : Live s' := by
  cases op with
  | send links =>
    obtain rfl := Option.some.inj hs
    unfold sendBegin
    refine Live.goto ?_ _ (Call.isPlain_of_isIdle hi) rfl (by simp) fun hw => ?_
    · exact h.congr rfl rfl rfl rfl rfl rfl rfl
    · exact absurd hw (by simp [Call.wakes_of_isIdle hi])
  | postRecv size =>
    obtain rfl := Option.some.inj hs
    exact h.postRecv hi size
  | postShutdown => exact h.postShutdown hi hs
  | postClose => exact h.postClose hi hs
  | postWakeup =>
    obtain rfl := Option.some.inj hs
    exact h.postWakeupBegin hi
  | postTask =>
    obtain ⟨hp, rfl⟩ := assert_eq_some.mp hs
    exact h.post hi hp (by simp) s.frontCtl
  | postConnect | postWrap =>
    obtain ⟨hp, rfl⟩ := assert_eq_some.mp hs
    exact h.post hi (Bool.and_eq_true _ _ ▸ hp).1 (by simp) _
  | connect => exact h.connect hk hs
  | protOpen => exact h.protOpen hi hs
  | protPostHandshake => exact h.protPostHandshake hs

/-- Every step which meets the condition keeps the invariant. -/
theorem Live.step (h : Live s) {a : Action Θ B} (hk : KeepsPosted s a)
    (hs : TCPSocket.step s a = some s') : Live s' := by
  cases a with
  | call θ op =>
    rw [TCPSocket.step] at hs
    split at hs
    case isTrue hi => exact h.call hi.1 hk hs
    case isFalse => cases hs
  | next θ => exact h.next hk hs
  | push => exact h.push hs
  | dispatch hasEvents => exact h.dispatch hs
  | dispatchEvent => exact h.dispatchEvent hs
  | pop θ => exact h.pop hs
  | work θ ch =>
    rw [TCPSocket.step] at hs
    split at hs
    case isTrue hi => exact h.work hi hs
    case isFalse => cases hs
  | unlink b =>
    obtain rfl := Option.some.inj hs
    exact h.congr rfl rfl rfl rfl rfl rfl rfl

theorem live {s : State Θ B} (h : (machine Θ B).ReachableBy KeepsPosted s) : Live s := by
  refine Machine.invariant_by (P := Live) ?_ (fun s a s' hl hk hs => hl.step hk hs) h
  rintro s ⟨heap, rfl⟩
  exact live_new heap

/-- **The posted work of a running socket is not lost**, after any closes and reopenings, in every
run whose steps meet the condition. -/
theorem posted_served {s : State Θ B} (h : (machine Θ B).ReachableBy KeepsPosted s)
    (hrun : s.isRunning = true) (hcalls : ¬ s.Posting) (k : Posted) (hk : s.has k = true) :
    s.Served k := by
  have hl := live h
  have hno : ∀ θ, (s.call θ).wakes = false ∧ (s.call θ).attaching = false ∧
      ¬ (s.call θ = .closeExchange ∧ s.mutex = some θ) := by
    intro θ
    have hθ : ¬ _ := fun hp => hcalls ⟨θ, hp⟩
    revert hθ
    cases hc : s.call θ <;> simp_all [Call.wakes, Call.attaching]
  rcases hl.keeps.kept k hrun hk with hw | hw | ⟨θ, hw⟩ | ⟨θ, hw⟩
  · by_cases hp : s.task.place = .outside
    · -- out of the core while running: the last execution is about to clear the socket
      obtain ⟨θ, ha⟩ | ⟨θ, hf⟩ := hl.placed.placed hrun hp
      · exact absurd ha (by simp [(hno θ).2.1])
      · exact .inr ⟨θ, by rw [hf]; rfl⟩
    · simp only [IOTask.isAwake, Bool.or_eq_true, Bool.and_eq_true, decide_eq_true_eq] at hw
      refine .inl ⟨hp, fun ha => ?_, hw.imp And.left id⟩
      rcases hw with hw | hw
      · exact hw.2 (hl.placed.asleep.mpr ha)
      · exact absurd hw (by simp [hl.keeps.closes.rescheduled ha])
  · exact .inr hw
  · exact absurd hw (by simp [(hno θ).1])
  · exact absurd hw (hno θ).2.2

/-- A buffer of one byte. -/
def byteHeap : Heap Unit := ⟨fun _ => [1], fun _ => none, fun _ => 0, by simp⟩

/-- A socket is posted, sleeps, is closed by another thread, and its worker is in `OnClose`. -/
def closedRun : List (Action Bool Unit) :=
  [.call false .protOpen, .next false, .call false .postTask, .next false, .next false,
    .dispatch false, .call false .postClose, .next false, .next false, .push, .dispatch false,
    .pop true, .work true .advance, .work true .advance, .work true .advance]

/-- `OnClose` opens the socket and posts it again; the scheduler puts its task to sleep. -/
def reopenRun : List (Action Bool Unit) :=
  [.call true .protOpen, .next true, .call true .postTask, .next true, .next true, .next true,
    .work true .advance, .dispatch false]

/-- A send of another thread, up to its return. -/
def postRun : List (Action Bool Unit) := [.call false (.send [some ()]), .next false, .next false]

theorem posting_of_isIdle {s : State Bool Unit} (hf : (s.call false).isIdle)
    (ht : (s.call true).isIdle) : ¬ s.Posting := by
  rintro ⟨θ, hθ⟩
  cases θ with
  | false =>
    revert hf hθ
    cases s.call false <;> simp [Call.isIdle]
  | true =>
    revert ht hθ
    cases s.call true <;> simp [Call.isIdle]

theorem posted_served_reopened : ∃ s, (machine Bool Unit).runBy KeepsPosted (.new byteHeap)
    (closedRun ++ reopenRun ++ postRun) = some s ∧ s.has .send = true ∧ s.Served .send := by
  obtain ⟨s, hs, hw⟩ : ∃ s, (machine Bool Unit).runBy KeepsPosted (.new byteHeap)
      (closedRun ++ reopenRun ++ postRun) = some s ∧
      (s.isRunning, s.has .send, (s.call false).isIdle, (s.call true).isIdle) =
        (true, true, true, true) :=
    Option.map_eq_some_iff.mp (by decide +kernel)
  simp only [Prod.mk.injEq] at hw
  obtain ⟨hr, hk, hf, ht⟩ := hw
  exact ⟨s, hs, hk, posted_served (Machine.ReachableBy.of_runBy (.init ⟨_, rfl⟩) hs) hr
    (posting_of_isIdle hf ht) .send hk⟩

/-- **Posted work is lost by a reopening**: data posted after the close and before `PostTask` found
the task closed, and nothing wakes it up. -/
theorem posted_lost : ¬ ∀ s : State Bool Unit, (machine Bool Unit).Reachable s →
    s.isRunning = true → ¬ s.Posting → ∀ k, s.has k = true → s.Served k := by
  intro hall
  obtain ⟨s, hs, hw⟩ : ∃ s, (machine Bool Unit).run (.new byteHeap)
      (closedRun ++ postRun ++ reopenRun) = some s ∧
      (s.isRunning && s.has .send && (s.call false).isIdle && (s.call true).isIdle &&
        s.task.place = .asleep && s.phase false = .none && s.phase true = .none) = true :=
    Option.map_eq_some_iff.mp (by decide +kernel)
  simp only [Bool.and_eq_true, decide_eq_true_eq] at hw
  obtain ⟨⟨⟨⟨⟨⟨hr, hk⟩, hf⟩, ht⟩, hp⟩, hpf⟩, hpt⟩ := hw
  rcases hall s (Machine.Reachable.of_run (.init ⟨_, rfl⟩) hs) hr (posting_of_isIdle hf ht) .send hk
    with ⟨-, hp', -⟩ | ⟨θ, hθ⟩
  · exact hp' hp
  · cases θ with
    | false => exact absurd hθ (by simp [hpf, Phase.before])
    | true => exact absurd hθ (by simp [hpt, Phase.before])

end TCPSocket

end Serverbox
