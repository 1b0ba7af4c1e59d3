import Serverbox.Aio.TCPSocket

/-!
# Where the task of a socket is

The task of a socket is out of the core, in one of the core's queues, asleep, or with one worker.
What its place says about its status, about the threads and about the socket is kept by every step:
a socket which does not run has its task out of the core, and while a thread puts the task back
into the core, or a worker makes the last execution, no one else has it.

Source: `src/mg/aio/TCPSocketIFace.cpp`, `src/mg/aio/IOTask.cpp`.

## Main definitions

* `TCPSocket.Placed`: the invariant.

## Main results

* `TCPSocket.Placed.step`: every step keeps it.
-/

namespace Serverbox

namespace TCPSocket

open BufferLinkList (Heap)

variable {Θ B : Type*}

/-- The worker has the task. -/
@[grind] def Phase.holds : Phase → Bool
  | none | final | onClose => false
  | _ => true

/-- A thread is in `IOTask::Post`. -/
@[grind] def Call.attaching : Call B → Bool
  | attach _ | attachGuard _ | attachPush _ => true
  | _ => false

/-- A thread is in `IOTask::Post`, and the task is not closed any more. -/
@[grind] def Call.attached : Call B → Bool
  | attachGuard _ | attachPush _ => true
  | _ => false

@[grind →] theorem Call.attaching_of_attached {cl : Call B} (h : cl.attached = true) :
    cl.attaching = true := by
  cases cl <;> simp_all [attached, attaching]

/-- A thread is in `IOTask::PostClose`. -/
@[grind] def Call.closing : Call B → Bool
  | closeGuard | closeExchange => true
  | _ => false

/-- A call which is neither a post of the task nor a close. -/
@[grind] def Call.isPlain : Call B → Bool
  | idle | send _ _ | opening | wakeup _ _ => true
  | _ => false

theorem Call.isPlain_of_isIdle {cl : Call B} (h : cl.isIdle = true) : cl.isPlain = true := by
  cases cl <;> simp_all [isIdle, isPlain]

@[grind →] theorem Call.of_isPlain {cl : Call B} (h : cl.isPlain = true) :
    cl.attaching = false ∧ cl.attached = false ∧ cl.closing = false := by
  cases cl <;> simp_all [isPlain, attaching, attached, closing]

/-- An execution which has found the task open, and has not put it back. -/
@[grind] def Phase.isBusy : Phase → Bool
  | failed | aborted | event | ctl | drained | io | leaving => true
  | _ => false

@[grind →] theorem Phase.of_isBusy {p : Phase} (h : p.isBusy = true) :
    p.holds = true ∧ p ≠ .popped ∧ p ≠ .started ∧ p ≠ .final ∧ p ≠ .onClose := by
  cases p <;> simp_all [isBusy, holds]

/-- Where the task is, and what this says about its status and about the socket. -/
structure Placed (s : State Θ B) : Prop where
  asleep : s.task.status = .waiting ↔ s.task.place = .asleep
  executing : ∀ θ, (s.phase θ).holds = true ↔ s.task.place = .executing θ
  closed : s.task.isClosed = true ↔ s.task.status = .closed
  closed_place : s.task.status = .closed → s.task.place = .outside ∨ s.task.place = .readyQueue ∨
    ∃ θ, s.task.place = .executing θ ∧ (s.phase θ = .popped ∨ s.phase θ = .started)
  readyQueue : s.task.place = .readyQueue → s.task.status ≠ .pending
  attaching : ∀ θ, (s.call θ).attaching → s.task.place = .outside ∧ s.isRunning = true ∧
    s.mutex = some θ ∧ ∀ θ', s.phase θ' ≠ .final
  attached : ∀ θ, (s.call θ).attached = true → s.task.status ≠ .closed
  final : ∀ θ, s.phase θ = .final → s.task.place = .outside ∧ s.isRunning = true ∧
    s.task.isClosed = true
  unique : ∀ θ θ', s.phase θ = .final → s.phase θ' = .final → θ = θ'
  onClose : s.isRunning = false → ∀ θ, s.phase θ = .onClose → s.task.isClosed = true
  resting : s.isRunning = false → s.task.place = .outside
  placed : s.isRunning = true → s.task.place = .outside →
    (∃ θ, (s.call θ).attaching = true) ∨ ∃ θ, s.phase θ = .final
  state : s.isRunning = true → s.state ≠ .new ∧ s.state ≠ .closed
  expects : ∀ θ old k, s.call θ = .wakeup old k → old = .pending ∨ old = .waiting

theorem placed_new (heap : Heap B) : Placed (State.new heap : State Θ B) := by
  constructor <;> simp [State.new, IOTask.new, Phase.holds, Call.attaching, Call.attached]

variable [DecidableEq Θ] {s s' : State Θ B} {θ : Θ}

/-- `Function.update` as an equation for every argument, in both directions. -/
theorem updated {α : Type*} (f : Θ → α) (θ : Θ) (v : α) : ∃ g, Function.update f θ v = g ∧
    g θ = v ∧ (∀ x, g x = if x = θ then v else f x) ∧ ∀ x, f x = if x = θ then f θ else g x := by
  refine ⟨_, rfl, Function.update_self .., fun x => Function.update_apply f θ v x, fun x => ?_⟩
  rcases eq_or_ne x θ with rfl | hne
  · simp
  · simp [hne]

namespace Placed

/-! ### Changes of one part of the state -/

omit [DecidableEq Θ] in
/-- The status and the place of the task, the threads and the life of the socket stay. -/
theorem congr (h : Placed s) {t : State Θ B} (hstatus : t.task.status = s.task.status)
    (hplace : t.task.place = s.task.place) (hclosed : t.task.isClosed = s.task.isClosed)
    (hmutex : t.mutex = s.mutex) (hrun : t.isRunning = s.isRunning) (hstate : t.state = s.state)
    (hphase : t.phase = s.phase) (hcall : t.call = s.call) : Placed t := by
  obtain ⟨h1, h2, h3, h4, h5, h6, h7, h8, h9, h10, h11, h12, h13, h14⟩ := h
  constructor <;> simpa only [hstatus, hplace, hclosed, hmutex, hrun, hstate, hphase, hcall]

omit [DecidableEq Θ] in
/-- The state of the socket changes, and does not become the state of a socket at rest. -/
theorem setState (h : Placed s) (st : SocketState) (hst : st ≠ .new ∧ st ≠ .closed) :
    Placed { s with state := st } :=
  { h with state := fun _ => hst }

/-- A thread goes on from one plain call to another. -/
theorem goto (h : Placed s) (cl : Call B) (hp : (s.call θ).isPlain) (hc : cl.isPlain)
    (he : ∀ old k, cl = .wakeup old k → old = .pending ∨ old = .waiting) :
    Placed (s.goto θ cl) := by
  obtain ⟨g, hg, hv, hu, hu'⟩ := updated s.call θ cl
  simp only [State.goto, hg]
  obtain ⟨h1, h2, h3, h4, h5, h6, h7, h8, h9, h10, h11, h12, h13, h14⟩ := h
  constructor <;> grind -ring -linarith

/-- A plain call ends. -/
theorem finish (h : Placed s) {k : Option ℕ} (hp : (s.call θ).isPlain) :
    Placed (s.finish θ k) := by
  obtain ⟨g, hg, hv, hu, hu'⟩ := updated s.call θ .idle
  simp only [State.finish, hg]
  obtain ⟨h1, h2, h3, h4, h5, h6, h7, h8, h9, h10, h11, h12, h13, h14⟩ := h
  constructor <;> grind -ring -linarith

/-- A busy worker goes on. -/
theorem moveTo (h : Placed s) {p : Phase} (hq : (s.phase θ).isBusy) (hp : p.isBusy) :
    Placed (s.moveTo θ p) := by
  obtain ⟨g, hg, hv, hu, hu'⟩ := updated s.phase θ p
  simp only [State.moveTo, hg]
  obtain ⟨h1, h2, h3, h4, h5, h6, h7, h8, h9, h10, h11, h12, h13, h14⟩ := h
  constructor <;> grind -ring -linarith

/-! ### The task -/

omit [DecidableEq Θ] in
theorem dispatchEvent (h : Placed s) (hs : TCPSocket.dispatchEvent s = some s') : Placed s' := by
  obtain ⟨hp, rfl⟩ := assert_eq_some.mp hs
  obtain ⟨h1, h2, h3, h4, h5, h6, h7, h8, h9, h10, h11, h12, h13, h14⟩ := h
  constructor <;> grind -ring -linarith

theorem push (h : Placed s) (hs : TCPSocket.push s = some s') : Placed s' := by
  obtain ⟨hp, rfl⟩ := assert_eq_some.mp hs
  obtain ⟨h1, h2, h3, h4, h5, h6, h7, h8, h9, h10, h11, h12, h13, h14⟩ := h
  constructor <;> grind -ring -linarith

theorem dispatch (h : Placed s) {hasEvents : Bool}
    (hs : TCPSocket.dispatch s hasEvents = some s') : Placed s' := by
  obtain ⟨hp, rfl⟩ := assert_eq_some.mp hs
  obtain ⟨h1, h2, h3, h4, h5, h6, h7, h8, h9, h10, h11, h12, h13, h14⟩ := h
  constructor <;> grind -ring -linarith

theorem pop (h : Placed s) (hs : TCPSocket.pop s θ = some s') : Placed s' := by
  obtain ⟨hp, rfl⟩ := assert_eq_some.mp hs
  simp only [Bool.and_eq_true, decide_eq_true_eq] at hp
  obtain ⟨⟨hp, hph⟩, -⟩ := hp
  obtain ⟨g, hg, hv, hu, hu'⟩ := updated s.phase θ .popped
  simp only [State.moveTo, hg]
  obtain ⟨h1, h2, h3, h4, h5, h6, h7, h8, h9, h10, h11, h12, h13, h14⟩ := h
  constructor <;> grind -ring -linarith

/-! ### The calls -/

omit [DecidableEq Θ] in
/-- The exchange of the status of a task which sleeps or is pending. -/
theorem wake (h : Placed s) {place : Place Θ}
    (hs : s.task.status = .waiting ∧ place = .pushing ∨
      s.task.status = .pending ∧ place = s.task.place) :
    Placed { s with task := { s.task with status := .ready, place := place } } := by
  obtain ⟨h1, h2, h3, h4, h5, h6, h7, h8, h9, h10, h11, h12, h13, h14⟩ := h
  constructor <;> grind -ring -linarith

theorem postWakeup (h : Placed s) {old : TaskStatus} {k : Option ℕ}
    (hc : s.call θ = .wakeup old k) : Placed (TCPSocket.postWakeup s θ old k) := by
  have hp : (s.call θ).isPlain := by rw [hc]; rfl
  have he := h.expects θ old k hc
  unfold TCPSocket.postWakeup
  split
  case isTrue hst =>
    split
    case isTrue hwait => exact (h.wake (.inl ⟨hst.trans hwait, rfl⟩)).finish hp
    case isFalse hwait => exact (h.wake (.inr ⟨hst.trans (he.resolve_right hwait), rfl⟩)).finish hp
  case isFalse =>
    split
    case isTrue hst => exact h.goto _ hp rfl fun _ _ h => by cases h; exact hst
    case isFalse => exact h.finish hp

theorem privCloseStart (h : Placed s) (hc : s.call θ = .closeGuard) :
    Placed (TCPSocket.privCloseStart s θ) := by
  obtain ⟨g, hg, hv, hu, hu'⟩ := updated s.call θ .idle
  obtain ⟨g₁, hg₁, hv₁, hu₁, hu₁'⟩ := updated s.call θ .closeExchange
  unfold TCPSocket.privCloseStart
  obtain ⟨h1, h2, h3, h4, h5, h6, h7, h8, h9, h10, h11, h12, h13, h14⟩ := h
  split <;> simp only [State.goto, State.finish, hg, hg₁] <;> constructor <;>
    grind -ring -linarith

theorem closeExchange (h : Placed s) (hc : s.call θ = .closeExchange)
    (hs : TCPSocket.closeExchange s θ = some s') : Placed s' := by
  obtain ⟨g, hg, hv, hu, hu'⟩ := updated s.call θ .idle
  obtain ⟨hp, rfl⟩ := assert_eq_some.mp hs
  simp only [State.finish, hg]
  obtain ⟨h1, h2, h3, h4, h5, h6, h7, h8, h9, h10, h11, h12, h13, h14⟩ := h
  constructor <;> grind -ring -linarith

theorem privAttach (h : Placed s) {wake : Bool} (hc : s.call θ = .attach wake)
    (hs : TCPSocket.privAttach s θ wake = some s') : Placed s' := by
  obtain ⟨g, hg, hv, hu, hu'⟩ := updated s.call θ (.attachGuard wake)
  obtain ⟨g₁, hg₁, hv₁, hu₁, hu₁'⟩ := updated s.call θ (.attachPush wake)
  unfold TCPSocket.privAttach at hs
  obtain ⟨h1, h2, h3, h4, h5, h6, h7, h8, h9, h10, h11, h12, h13, h14⟩ := h
  split at hs <;> obtain ⟨hp, rfl⟩ := assert_eq_some.mp hs <;>
    simp only [State.goto, hg, hg₁] <;> constructor <;> grind -ring -linarith

theorem attachGuard (h : Placed s) {wake : Bool} (hc : s.call θ = .attachGuard wake)
    (hs : TCPSocket.attachGuard s θ wake = some s') : Placed s' := by
  obtain ⟨g, hg, hv, hu, hu'⟩ := updated s.call θ (.attachPush wake)
  obtain ⟨hp, rfl⟩ := assert_eq_some.mp hs
  simp only [State.goto, hg]
  obtain ⟨h1, h2, h3, h4, h5, h6, h7, h8, h9, h10, h11, h12, h13, h14⟩ := h
  constructor <;> grind -ring -linarith

theorem attachPush (h : Placed s) {wake : Bool} (hc : s.call θ = .attachPush wake) :
    Placed (TCPSocket.attachPush s θ wake) := by
  obtain ⟨g, hg, hv, hu, hu'⟩ := updated s.call θ .idle
  obtain ⟨g₁, hg₁, hv₁, hu₁, hu₁'⟩ := updated s.call θ (.wakeup .waiting none)
  unfold TCPSocket.attachPush
  obtain ⟨h1, h2, h3, h4, h5, h6, h7, h8, h9, h10, h11, h12, h13, h14⟩ := h
  split <;> simp only [State.goto, State.finish, hg, hg₁] <;> constructor <;>
    grind -ring -linarith

theorem postSendMove (h : Placed s) {c : ℕ} {links : List (Option B)}
    (hc : s.call θ = .send c links) (hs : TCPSocket.postSendMove s θ c links = some s') :
    Placed s' := by
  have hp : (s.call θ).isPlain := by rw [hc]; rfl
  unfold TCPSocket.postSendMove at hs
  split at hs
  · obtain rfl := Option.some.inj hs
    unfold sendMove
    split
    all_goals
      refine Placed.finish ?_ hp
      exact h.congr rfl rfl rfl rfl rfl rfl rfl rfl
  · obtain ⟨-, rfl⟩ := assert_eq_some.mp hs
    split
    · refine Placed.goto ?_ _ hp rfl fun _ _ h => by cases h; exact .inr rfl
      exact h.congr rfl rfl rfl rfl rfl rfl rfl rfl
    · refine Placed.finish ?_ hp
      exact h.congr rfl rfl rfl rfl rfl rfl rfl rfl

/-- The next step of a call. -/
theorem next (h : Placed s) (hs : TCPSocket.next s θ = some s') : Placed s' := by
  rw [TCPSocket.next] at hs
  split at hs
  case h_1 => cases hs
  case h_2 hc => exact h.postSendMove hc hs
  case h_3 hc =>
    obtain rfl := Option.some.inj hs
    refine Placed.finish ?_ (by rw [hc]; rfl)
    exact h.congr rfl rfl rfl rfl rfl rfl rfl rfl
  case h_4 hc =>
    obtain rfl := Option.some.inj hs
    exact h.postWakeup hc
  case h_5 hc =>
    obtain rfl := Option.some.inj hs
    exact h.privCloseStart hc
  case h_6 hc => exact h.closeExchange hc hs
  case h_7 hc => exact h.privAttach hc hs
  case h_8 hc => exact h.attachGuard hc hs
  case h_9 hc =>
    obtain rfl := Option.some.inj hs
    exact h.attachPush hc

/-- A thread begins to wake the task up. -/
theorem postWakeupBegin (h : Placed s) (hi : (s.call θ).isIdle) :
    Placed (s.goto θ (.wakeup .waiting none)) :=
  h.goto _ (Call.isPlain_of_isIdle hi) rfl fun _ _ h => by cases h; exact .inr rfl

omit [DecidableEq Θ] in
/-- A thread takes the mutex. -/
theorem lock (h : Placed s) (hm : s.mutex = none) : Placed { s with mutex := some θ } := by
  obtain ⟨h1, h2, h3, h4, h5, h6, h7, h8, h9, h10, h11, h12, h13, h14⟩ := h
  constructor <;> grind -ring -linarith

/-- A thread begins to close the task. -/
theorem closeBegin (h : Placed s) (hi : (s.call θ).isIdle) : Placed (s.goto θ .closeGuard) := by
  obtain ⟨g, hg, hv, hu, hu'⟩ := updated s.call θ .closeGuard
  simp only [State.goto, hg]
  obtain ⟨h1, h2, h3, h4, h5, h6, h7, h8, h9, h10, h11, h12, h13, h14⟩ := h
  constructor <;> grind -ring -linarith [Call.isIdle]

theorem postClose (h : Placed s) (hi : (s.call θ).isIdle)
    (hs : TCPSocket.postClose s θ = some s') : Placed s' := by
  obtain ⟨hp, rfl⟩ := assert_eq_some.mp hs
  simp only [State.unlocked, decide_eq_true_eq] at hp
  split
  · exact h
  · split
    case isTrue hnew =>
      -- a socket which was never posted is not running
      have hrun : s.isRunning = false := by
        by_contra hr
        exact (h.state (by simpa using hr)).1 hnew
      exact { h with state := fun hr => absurd hr (by simp [hrun]) }
    case isFalse => exact ((h.lock hp).setState _ (by simp)).closeBegin hi

/-- A thread posts the task of a socket which does not run. -/
theorem post (h : Placed s) (hstart : canStart s = true) {wake : Bool} {st : SocketState}
    (hst : st ≠ .new ∧ st ≠ .closed) (c : Option Ctl) :
    Placed ({ s with
      isReadyToStart := false, isRunning := true, state := st, mutex := some θ
      frontCtl := c }.goto θ (.attach wake)) := by
  simp only [canStart, State.unlocked, Bool.and_eq_true, Bool.or_eq_true, decide_eq_true_eq,
    Bool.not_eq_true'] at hstart
  obtain ⟨⟨⟨hm, hst'⟩, hr⟩, hrun⟩ := hstart
  obtain ⟨g, hg, hv, hu, hu'⟩ := updated s.call θ (.attach wake)
  simp only [State.goto, hg]
  obtain ⟨h1, h2, h3, h4, h5, h6, h7, h8, h9, h10, h11, h12, h13, h14⟩ := h
  constructor <;> grind -ring -linarith

/-- The beginning of an operation. -/
theorem call (h : Placed s) (hi : (s.call θ).isIdle) {op : Op B}
    (hs : TCPSocket.call s θ op = some s') : Placed s' := by
  have hp := Call.isPlain_of_isIdle hi
  cases op with
  | send links =>
    obtain rfl := Option.some.inj hs
    refine Placed.goto ?_ _ hp rfl (by simp)
    exact h.congr rfl rfl rfl rfl rfl rfl rfl rfl
  | postRecv size =>
    obtain rfl := Option.some.inj hs
    unfold postRecv
    split
    · exact h.congr rfl rfl rfl rfl rfl rfl rfl rfl
    · split
      · refine Placed.postWakeupBegin ?_ hi
        exact h.congr rfl rfl rfl rfl rfl rfl rfl rfl
      · exact h.congr rfl rfl rfl rfl rfl rfl rfl rfl
  | postShutdown =>
    rw [TCPSocket.call, postShutdown] at hs
    split at hs <;> obtain ⟨hm, rfl⟩ := assert_eq_some.mp hs
    · exact h
    · simp only [State.unlocked, Bool.and_eq_true, decide_eq_true_eq] at hm
      refine Placed.postWakeupBegin ?_ hi
      exact (h.lock hm.1).congr rfl rfl rfl rfl rfl rfl rfl rfl
  | postClose => exact h.postClose hi hs
  | postWakeup =>
    obtain rfl := Option.some.inj hs
    exact h.postWakeupBegin hi
  | postTask =>
    obtain ⟨hc, rfl⟩ := assert_eq_some.mp hs
    exact h.post hc (by simp) s.frontCtl
  | postConnect | postWrap =>
    obtain ⟨hc, rfl⟩ := assert_eq_some.mp hs
    exact h.post (Bool.and_eq_true _ _ ▸ hc).1 (by simp) _
  | connect =>
    rw [TCPSocket.call, connect] at hs
    split at hs <;> obtain ⟨-, rfl⟩ := assert_eq_some.mp hs
    · exact h
    · exact (h.setState .connecting (by simp)).congr rfl rfl rfl rfl rfl rfl rfl rfl
  | protOpen =>
    obtain ⟨-, rfl⟩ := assert_eq_some.mp hs
    refine Placed.goto ?_ _ hp rfl (by simp)
    exact h.congr rfl rfl rfl rfl rfl rfl rfl rfl
  | protPostHandshake =>
    obtain ⟨-, rfl⟩ := assert_eq_some.mp hs
    exact h.congr rfl rfl rfl rfl rfl rfl rfl rfl

/-! ### The worker -/

theorem execute (h : Placed s) (hp : s.phase θ = .popped) : Placed (TCPSocket.execute s θ) := by
  obtain ⟨g, hg, hv, hu, hu'⟩ := updated s.phase θ .started
  simp only [TCPSocket.execute, State.moveTo, hg]
  obtain ⟨h1, h2, h3, h4, h5, h6, h7, h8, h9, h10, h11, h12, h13, h14⟩ := h
  constructor <;> grind -ring -linarith

theorem onEvent (h : Placed s) (hp : s.phase θ = .started) (ok : Bool) :
    Placed (TCPSocket.onEvent s θ ok) := by
  obtain ⟨g, hg, hv, hu, hu'⟩ := updated s.phase θ .final
  obtain ⟨g₁, hg₁, hv₁, hu₁, hu₁'⟩ := updated s.phase θ (if ok then .event else .failed)
  simp only [TCPSocket.onEvent, State.moveTo, hg, hg₁]
  obtain ⟨h1, h2, h3, h4, h5, h6, h7, h8, h9, h10, h11, h12, h13, h14⟩ := h
  split <;> constructor <;> grind -ring -linarith

/-- `ProtClose`, from a phase which goes on in it. -/
theorem protClose (h : Placed s) (hi : (s.call θ).isIdle) {p : Phase}
    (hp : s.phase θ = p ∨ s.phase θ = .failed ∧ p = .aborted) (hh : p.isBusy = true)
    (hs : TCPSocket.protClose s θ p = some s') : Placed s' := by
  obtain ⟨-, rfl⟩ := assert_eq_some.mp hs
  refine ((h.setState .closing (by simp)).closeBegin hi).moveTo ?_ hh
  rcases hp with rfl | ⟨hp, rfl⟩
  · exact hh
  · show (s.phase θ).isBusy = true
    rw [hp]
    rfl

theorem protCloseFinal (h : Placed s) (hp : s.phase θ = .final)
    (hs : TCPSocket.protCloseFinal s θ = some s') : Placed s' := by
  obtain ⟨hc, rfl⟩ := assert_eq_some.mp hs
  obtain ⟨g, hg, hv, hu, hu'⟩ := updated s.phase θ .onClose
  simp only [State.moveTo, hg]
  obtain ⟨h1, h2, h3, h4, h5, h6, h7, h8, h9, h10, h11, h12, h13, h14⟩ := h
  split <;> constructor <;> grind -ring -linarith

/-- The worker is back from `OnClose`. -/
theorem exit (h : Placed s) (hp : s.phase θ = .onClose) : Placed (s.moveTo θ .none) := by
  obtain ⟨g, hg, hv, hu, hu'⟩ := updated s.phase θ .none
  simp only [State.moveTo, hg]
  obtain ⟨h1, h2, h3, h4, h5, h6, h7, h8, h9, h10, h11, h12, h13, h14⟩ := h
  constructor <;> grind -ring -linarith

/-- The worker posts the task again. -/
theorem repost (h : Placed s) (hp : s.phase θ = .leaving) :
    Placed ({ s with task := { s.task with place := .pushing } }.moveTo θ .none) := by
  obtain ⟨g, hg, hv, hu, hu'⟩ := updated s.phase θ .none
  simp only [State.moveTo, hg]
  obtain ⟨h1, h2, h3, h4, h5, h6, h7, h8, h9, h10, h11, h12, h13, h14⟩ := h
  constructor <;> grind -ring -linarith

theorem drain (h : Placed s) (hp : (s.phase θ).isBusy) : Placed (TCPSocket.drain s θ) := by
  refine Placed.moveTo ?_ hp rfl
  exact h.congr rfl rfl rfl rfl rfl rfl rfl rfl

theorem privCtl (h : Placed s) (hp : s.phase θ = .event)
    (hs : TCPSocket.privCtl s θ = some s') : Placed s' := by
  have hb : (s.phase θ).isBusy := by rw [hp]; rfl
  unfold TCPSocket.privCtl at hs
  split at hs <;> obtain ⟨-, rfl⟩ := assert_eq_some.mp hs
  · exact h.drain hb
  all_goals
    refine Placed.moveTo ?_ hb rfl
    exact h.congr rfl rfl rfl rfl rfl rfl rfl rfl

omit [DecidableEq Θ] in
theorem handshake (h : Placed s) {old st : SocketState} {done : Bool}
    (hst : st ≠ .new ∧ st ≠ .closed) (hs : TCPSocket.handshake s old st done = some s') :
    Placed s' := by
  obtain ⟨-, rfl⟩ := assert_eq_some.mp hs
  split
  · exact (h.setState _ hst).congr rfl rfl rfl rfl rfl rfl rfl rfl
  · exact h.congr rfl rfl rfl rfl rfl rfl rfl rfl

variable [DecidableEq B]

omit [DecidableEq Θ] in
/-- `PrivSend` is about the send queue only. -/
theorem privSend (h : Placed s) {room count : ℕ} (hs : TCPSocket.privSend s room count = some s') :
    Placed s' := by
  rw [TCPSocket.privSend] at hs
  dsimp only at hs
  split at hs
  · obtain rfl := Option.some.inj hs
    exact h.congr rfl rfl rfl rfl rfl rfl rfl rfl
  · obtain ⟨-, -, hs⟩ := Option.bind_eq_some_iff.mp hs
    obtain ⟨-, -, rfl⟩ := Option.map_eq_some_iff.mp hs
    exact h.congr rfl rfl rfl rfl rfl rfl rfl rfl

/-- The next step of a worker. -/
theorem work (h : Placed s) (hi : (s.call θ).isIdle) {ch : Choice}
    (hs : TCPSocket.work s θ ch = some s') : Placed s' := by
  unfold TCPSocket.work at hs
  split at hs
  case h_1 hp =>
    obtain rfl := Option.some.inj hs
    exact h.execute hp
  case h_2 hp | h_3 hp =>
    obtain rfl := Option.some.inj hs
    exact h.onEvent hp _
  case h_4 hp => exact h.protClose hi (.inr ⟨hp, rfl⟩) rfl hs
  case h_6 hp => exact h.privCtl hp hs
  case h_7 hp =>
    obtain ⟨-, rfl⟩ := assert_eq_some.mp hs
    refine Placed.drain ?_ (by simp [hp, Phase.isBusy])
    exact h.congr rfl rfl rfl rfl rfl rfl rfl rfl
  case h_8 | h_9 => exact h.handshake (by simp) hs
  case h_10 hp | h_15 hp => exact h.protClose hi (.inl hp) rfl hs
  case h_13 => exact h.privSend hs
  case h_18 hp =>
    obtain rfl := Option.some.inj hs
    exact h.repost hp
  case h_19 hp => exact h.protCloseFinal hp hs
  case h_20 hp =>
    obtain rfl := Option.some.inj hs
    exact h.exit hp
  case h_21 => cases hs
  case h_11 | h_14 | h_16 =>
    obtain rfl := Option.some.inj hs
    exact h.congr rfl rfl rfl rfl rfl rfl rfl rfl
  case h_5 hp | h_12 hp | h_17 hp =>
    obtain rfl := Option.some.inj hs
    refine Placed.moveTo ?_ (by simp [hp, Phase.isBusy]) rfl
    exact h.congr rfl rfl rfl rfl rfl rfl rfl rfl

/-- Every step keeps the invariant. -/
theorem step (h : Placed s) {a : Action Θ B} (hs : TCPSocket.step s a = some s') : Placed s' := by
  cases a with
  | call θ op =>
    rw [TCPSocket.step] at hs
    split at hs
    case isTrue hi => exact h.call hi.1 hs
    case isFalse => cases hs
  | next θ => exact h.next hs
  | push => exact h.push hs
  | dispatch hasEvents => exact h.dispatch hs
  | dispatchEvent => exact h.dispatchEvent hs
  | pop θ => exact h.pop hs
  | work θ ch =>
    rw [TCPSocket.step] at hs
    split at hs
    case isTrue hi => exact h.work hi hs
    case isFalse => cases hs
  | unlink b =>
    obtain rfl := Option.some.inj hs
    exact h.congr rfl rfl rfl rfl rfl rfl rfl rfl

end Placed

end TCPSocket

end Serverbox
