import Mathlib.Algebra.Group.Nat.Defs
import Serverbox.Box.BinaryHeap

/-!
# A scheduling round over epoll and over kqueue

`IOCore::PrivScheduleDo` exists once for each kernel interface. The rounds over epoll and kqueue
have the same three loops: over the kernel events, over the pending tasks, and over the expired
tasks of the waiting heap. They differ in how they represent the events of a task: epoll has a bit
mask, into which new bits are merged with OR, and kqueue two flags and an error code, of which
`Merge` keeps the older one. Moreover kqueue reports the readable and the writable events of one
descriptor one by one.

So the rounds are one function here, over the operations on the events, and the two back ends are
this function with their own operations. The kernel events are an argument, and so are the time and
the bound of the loops. A failed assertion is `none`; those of `MG_DEV_ASSERT` exist only in a debug
build. The wait at the end of a round without ready tasks changes nothing and is left out.

A second kernel event of a task in one round finds the task `READY` and stays among the pending
events until the task comes back. So the ready events are the same only if the first events are.

Source: `src/mg/aio/IOCore_epoll.cpp`, `src/mg/aio/IOCore_kqueue.cpp`, `src/mg/aio/IOTask.h`,
`src/mg/aio/IOTask.cpp`, `src/mg/box/Error.cpp`.

## Main definitions

* `IOCore.privScheduleDo`: a round; `IOCore.epoll`, `IOCore.kqueue`: its two back ends.
* `IOCore.Agrees`: two cores which differ only in where the events of a ready task are.
* `IOCore.SameEvents`: the kernel reports the same through the two interfaces.

## Main results

* `IOCore.privScheduleDo_agrees`: the two rounds agree.
-/

namespace Serverbox

namespace IOCore

variable {T ε E : Type}

/-! ### The events of a task -/

/-- The operations on the events of a task: no events, `IsEmpty`, an event of the kernel added to
the pending events, and the pending events merged into the ready ones. -/
structure Backend (ε E : Type) where
  empty : ε
  isEmpty : ε → Bool
  note : ε → E → Option ε
  merge : ε → ε → ε

/-- The mask of `epoll_event`. -/
def epoll : Backend (BitVec 32) (BitVec 32) :=
  ⟨0, fun p => p == 0, fun p events => some (p ||| events), fun r p => r ||| p⟩

/-- `IOKqueueEvents`. The code 0 is `ERR_BOX_NONE`. -/
structure IOKqueueEvents where
  hasRead : Bool
  hasWrite : Bool
  error : ℕ
  deriving DecidableEq

/-- `IOKqueueEvents::Merge`. -/
def IOKqueueEvents.merge (r events : IOKqueueEvents) : IOKqueueEvents where
  hasRead := r.hasRead || events.hasRead
  hasWrite := r.hasWrite || events.hasWrite
  error := if r.error = 0 ∧ events.error ≠ 0 then events.error else r.error

/-- `IOKqueueEvents::IsEmpty`. -/
def IOKqueueEvents.isEmpty (p : IOKqueueEvents) : Bool :=
  !p.hasRead && !p.hasWrite && p.error == 0

/-- The filters of `kevent`. -/
inductive Filter
  | read
  | write
  | user
  deriving DecidableEq

/-- `kevent`: its filter, the flags `EV_ERROR` and `EV_EOF`, and the data. -/
structure Kevent where
  filter : Filter
  error : Bool
  eof : Bool
  data : ℕ
  deriving DecidableEq

/-- `ErrorCodeFromErrno`, which depends on the platform. Each of its branches returns a code of the
system or of the network errors. -/
structure ErrorCodes where
  fromErrno : ℕ → ℕ
  sys_le : ∀ n, 1000 ≤ fromErrno n

/-- One `kevent` in the pending events. -/
def IOKqueueEvents.note (codes : ErrorCodes) (p : IOKqueueEvents) (ev : Kevent) :
    Option IOKqueueEvents := do
  let p ← match ev.filter with
    | .read => some { p with hasRead := true }
    | .write => some { p with hasWrite := true }
    | .user => none
  let p := if ev.error then { p with error := codes.fromErrno ev.data } else p
  some (if ev.eof then { p with hasRead := true } else p)

/-- The events of kqueue. -/
def kqueue (codes : ErrorCodes) : Backend IOKqueueEvents Kevent :=
  ⟨⟨false, false, 0⟩, IOKqueueEvents.isEmpty, IOKqueueEvents.note codes, IOKqueueEvents.merge⟩

/-! ### The round -/

/-- `IOTaskStatus`. -/
inductive Status
  | pending
  | waiting
  | ready
  | closing
  | closed
  deriving DecidableEq

/-- `IOTask`, as far as the scheduler is concerned with it. -/
structure IOTask (ε : Type) where
  status : Status
  pendingEvents : ε
  readyEvents : ε
  deadline : ℕ
  isExpired : Bool
  closeGuard : Bool
  isClosed : Bool
  hasSocket : Bool
  deriving DecidableEq

/-- `MG_TIME_INFINITE`. -/
def timeInfinite : ℕ := 2 ^ 64 - 1

/-- `MG_DEV_ASSERT`, which only a debug build compiles. -/
def devAssert (debug : Bool) (cond : Bool) : Option Unit :=
  if debug = true → cond = true then some () else none

section Task

variable (B : Backend ε E) (debug : Bool) (timestamp : ℕ)

/-- A kernel event, and whether the task gets ready. -/
def IOTask.kernelDo (t : IOTask ε) (e : E) : Option (IOTask ε × Bool) := do
  let pendingEvents ← B.note t.pendingEvents e
  if t.status = .waiting then
    some ({ t with
      status := .ready
      readyEvents := B.merge t.readyEvents pendingEvents
      pendingEvents := B.empty
      isExpired := decide (timestamp ≥ t.deadline) }, true)
  else
    devAssert debug (t.status ≠ .closed)
    some ({ t with pendingEvents }, false)

/-- `PrivKernelUnregister`, `PrivCloseDo` and the end of the task's events. -/
def IOTask.closeDo (t : IOTask ε) : Option (IOTask ε) :=
  if t.closeGuard = true ∧ t.isClosed = false then
    some { t with
      isClosed := true
      hasSocket := false
      status := .closed
      readyEvents := B.empty }
  else none

/-- A pending task which goes to the ready queue, with the status which was found. -/
def IOTask.dispatch (t : IOTask ε) (oldState : Status) (isExpired : Bool) : Option (IOTask ε) := do
  let t ← if oldState = .closing then t.closeDo B
    else do
      devAssert debug (oldState ≠ .closed ∧ oldState ≠ .waiting)
      some { t with readyEvents := B.merge t.readyEvents t.pendingEvents }
  some { t with pendingEvents := B.empty, isExpired }

/-- A pending task, and whether it gets ready. -/
def IOTask.pendingDo (t : IOTask ε) : Option (IOTask ε × Bool) :=
  let isExpired := decide (timestamp ≥ t.deadline)
  if !B.isEmpty t.pendingEvents || isExpired then do
    devAssert debug (t.status ≠ .closed)
    let woken : IOTask ε := { t with
      status := if t.status = .pending then .ready else t.status }
    let t' ← woken.dispatch B debug t.status isExpired
    some (t', true)
  else if t.status = .pending then some ({ t with status := .waiting }, false)
  else (t.dispatch B debug t.status isExpired).map fun t' => (t', true)

/-- An expired task of the waiting heap, and whether it gets ready. -/
def IOTask.expiredDo (t : IOTask ε) : Option (IOTask ε × Bool) :=
  if t.status = .waiting then do
    devAssert debug (B.isEmpty t.pendingEvents)
    some ({ t with status := .ready, isExpired := true }, true)
  else do
    devAssert debug (t.status ≠ .closed ∧ t.status ≠ .pending)
    some (t, false)

end Task

/-- `IOCore`, as far as the scheduler is concerned with it, and its tasks. -/
structure Core (T ε : Type) where
  front : List T
  pending : List T
  waiting : BinaryHeap T
  readyQueue : List T
  task : T → IOTask ε

/-- The order of the waiting heap. -/
def Core.above (c : Core T ε) (t u : T) : Bool :=
  decide ((c.task t).deadline ≤ (c.task u).deadline)

variable [DecidableEq T]

/-- A task with new fields. -/
def Core.set (c : Core T ε) (t : T) (x : IOTask ε) : Core T ε :=
  { c with task := Function.update c.task t x }

/-- A task which gets ready is removed from the waiting heap. -/
def Core.removeWaiting (c : Core T ε) (t : T) : Option (Core T ε) :=
  if c.waiting.index t ≥ 0 then
    let r := c.waiting.remove c.above t
    if r.2 then some { c with waiting := r.1 } else none
  else some c

variable (B : Backend ε E) (debug : Bool) (timestamp : ℕ)

/-- The loop over the kernel events. An event without a task only wakes up the scheduler. -/
def kernelLoop (c : Core T ε) (ready : List T) :
    List (Option T × E) → Option (Core T ε × List T)
  | [] => some (c, ready)
  | (none, _) :: evs => kernelLoop c ready evs
  | (some t, e) :: evs =>
    match (c.task t).kernelDo B debug timestamp e with
    | none => none
    | some (x, false) => kernelLoop (c.set t x) ready evs
    | some (x, true) =>
      match (c.set t x).removeWaiting t with
      | none => none
      | some c => kernelLoop c (ready ++ [t]) evs

/-- The loop over the pending tasks, which makes at most as many rounds as the first argument
says. -/
def pendingLoop : ℕ → Core T ε → List T → Option (Core T ε × List T)
  | 0, c, ready => some (c, ready)
  | rounds + 1, c, ready =>
    match c.pending with
    | [] => some (c, ready)
    | t :: pending =>
      match (c.task t).pendingDo B debug timestamp with
      | none => none
      | some (x, true) =>
        match ({ c with pending }.set t x).removeWaiting t with
        | none => none
        | some c => pendingLoop rounds c (ready ++ [t])
      | some (x, false) =>
        let c := { c with pending }.set t x
        if x.deadline ≠ timeInfinite then
          pendingLoop rounds { c with waiting := c.waiting.push c.above t } ready
        else
          match devAssert debug (c.waiting.index t = -1) with
          | none => none
          | some () => pendingLoop rounds c ready

/-- The loop over the expired tasks, which makes at most as many rounds as the first argument
says. -/
def waitingLoop : ℕ → Core T ε → List T → Option (Core T ε × List T)
  | 0, c, ready => some (c, ready)
  | rounds + 1, c, ready =>
    match c.waiting.top with
    | none => some (c, ready)
    | some t =>
      if (c.task t).deadline > timestamp then some (c, ready)
      else
        let c := { c with waiting := (c.waiting.removeTop c.above).1 }
        match (c.task t).expiredDo B debug with
        | none => none
        | some (x, go) => waitingLoop rounds (c.set t x) (if go then ready ++ [t] else ready)

/-- `PrivScheduleDo`, with the batch size, the time and the kernel events. The loops have the
condition `++batch < maxBatch`. -/
def privScheduleDo (maxBatch : ℕ) (evs : List (Option T × E)) (c : Core T ε) :
    Option (Core T ε × Bool) := do
  let (c, ready) ← kernelLoop B debug timestamp
    { c with front := [], pending := c.pending ++ c.front } [] evs
  let (c, ready) ← pendingLoop B debug timestamp (maxBatch - 1) c ready
  let (c, ready) ← waitingLoop B debug timestamp (maxBatch - 1) c ready
  devAssert debug (ready.all fun t => c.waiting.index t = -1)
  let c := { c with readyQueue := c.readyQueue ++ ready }
  some (c, !c.readyQueue.isEmpty || !c.pending.isEmpty)

/-! ### What the events mean -/

/-- `EPOLLIN`, `EPOLLOUT` and `EPOLLERR`. -/
def epollIn : BitVec 32 := 1

@[inherit_doc epollIn]
def epollOut : BitVec 32 := 4

@[inherit_doc epollIn]
def epollErr : BitVec 32 := 8

/-- A bit when a flag is set. -/
def bit (b : Bool) (m : BitVec 32) : BitVec 32 := if b then m else 0

/-- The mask of the events of kqueue. -/
def IOKqueueEvents.mask (p : IOKqueueEvents) : BitVec 32 :=
  bit p.hasRead epollIn ||| bit p.hasWrite epollOut ||| bit (p.error != 0) epollErr

/-- The mask of a `kevent`. -/
def Kevent.mask (ev : Kevent) : BitVec 32 :=
  bit (ev.filter == .read || ev.eof) epollIn ||| bit (ev.filter == .write) epollOut |||
    bit ev.error epollErr

/-- The masks of the events of a back end, and which events of the kernel it knows. -/
structure Masks (B : Backend ε E) where
  mask : ε → BitVec 32
  evMask : E → BitVec 32
  known : E → Bool
  empty : mask B.empty = 0
  isEmpty : ∀ p, B.isEmpty p = true ↔ mask p = 0
  merge : ∀ r p, mask (B.merge r p) = mask r ||| mask p
  note : ∀ p e, known e = true → ∃ p', B.note p e = some p' ∧ mask p' = mask p ||| evMask e

/-- The masks of epoll. -/
def epollMasks : Masks epoll where
  mask p := p
  evMask e := e
  known _ := true
  empty := rfl
  isEmpty p := by simp [epoll]
  merge _ _ := rfl
  note p e _ := ⟨p ||| e, rfl, rfl⟩

/-- The masks of kqueue, which knows the filters it has registered for a task. -/
def kqueueMasks (codes : ErrorCodes) : Masks (kqueue codes) where
  mask := IOKqueueEvents.mask
  evMask := Kevent.mask
  known ev := ev.filter != .user
  empty := by simp [kqueue, IOKqueueEvents.mask, bit]
  isEmpty p := by
    obtain ⟨r, w, e⟩ := p
    by_cases he : e = 0 <;> cases r <;> cases w <;>
      simp [kqueue, IOKqueueEvents.isEmpty, IOKqueueEvents.mask, bit, he, epollIn, epollOut,
        epollErr]
  merge r p := by
    obtain ⟨r₁, w₁, e₁⟩ := r
    obtain ⟨r₂, w₂, e₂⟩ := p
    by_cases he₁ : e₁ = 0 <;> by_cases he₂ : e₂ = 0 <;> cases r₁ <;> cases w₁ <;> cases r₂ <;>
      cases w₂ <;> simp [kqueue, IOKqueueEvents.merge, IOKqueueEvents.mask, bit, he₁, he₂,
        epollIn, epollOut, epollErr]
  note p ev hknown := by
    obtain ⟨r, w, e⟩ := p
    obtain ⟨f, err, eof, data⟩ := ev
    have hcode : codes.fromErrno data ≠ 0 := by
      have := codes.sys_le data
      omega
    by_cases he : e = 0 <;> cases f <;> cases err <;> cases eof <;> cases r <;> cases w <;>
      simp [kqueue, IOKqueueEvents.note, IOKqueueEvents.mask, Kevent.mask, bit, he, hcode,
        epollIn, epollOut, epollErr] at hknown ⊢

/-- The tasks of some kernel events. -/
def tasks (evs : List (Option T × E)) : List T := evs.filterMap Prod.fst

/-- The first occurrences of the elements which meet a condition. -/
def firsts (P : T → Bool) : List T → List T
  | [] => []
  | t :: l => if P t then t :: firsts (fun u => P u && u != t) l else firsts P l

variable {B : Backend ε E} (m : Masks B)

/-- All which the kernel reports about a task. -/
def allMask (t : T) : List (Option T × E) → BitVec 32
  | [] => 0
  | (u, e) :: evs => if u = some t then m.evMask e ||| allMask t evs else allMask t evs

/-- What the kernel reports about a task first. -/
def firstMask (t : T) : List (Option T × E) → Option (BitVec 32)
  | [] => none
  | (u, e) :: evs => if u = some t then some (m.evMask e) else firstMask t evs

variable {ε₁ ε₂ E₁ E₂ : Type} {B₁ : Backend ε₁ E₁} {B₂ : Backend ε₂ E₂} (m₁ : Masks B₁)
  (m₂ : Masks B₂)

/-- The kernel reports the same through two interfaces: the tasks in the same order of their first
events, and for each task the same events altogether. -/
structure SameEvents (evs : List (Option T × E₁)) (evs' : List (Option T × E₂)) : Prop where
  known : (∀ x ∈ evs, m₁.known x.2 = true) ∧ ∀ x ∈ evs', m₂.known x.2 = true
  order : firsts (fun _ => true) (tasks evs) = firsts (fun _ => true) (tasks evs')
  all : ∀ t, allMask m₁ t evs = allMask m₂ t evs'

/-- Two tasks with the same fields and altogether the same events, which are at the same places
unless the task is ready. Under a further condition its ready events are the same anyway. -/
structure Like (P : Prop) (x : IOTask ε₁) (y : IOTask ε₂) : Prop where
  status : x.status = y.status
  deadline : x.deadline = y.deadline
  isExpired : x.isExpired = y.isExpired
  closeGuard : x.closeGuard = y.closeGuard
  isClosed : x.isClosed = y.isClosed
  hasSocket : x.hasSocket = y.hasSocket
  union : m₁.mask x.readyEvents ||| m₁.mask x.pendingEvents =
    m₂.mask y.readyEvents ||| m₂.mask y.pendingEvents
  exact : x.status ≠ .ready → m₁.mask x.readyEvents = m₂.mask y.readyEvents ∧
    m₁.mask x.pendingEvents = m₂.mask y.pendingEvents
  ready : P → m₁.mask x.readyEvents = m₂.mask y.readyEvents

/-- Two cores which differ only in where the events of a ready task are, with the tasks for which
the ready events are the same anyway. -/
structure Agrees (X : T → Prop) (c : Core T ε₁) (d : Core T ε₂) : Prop where
  front : c.front = d.front
  pending : c.pending = d.pending
  waiting : c.waiting = d.waiting
  readyQueue : c.readyQueue = d.readyQueue
  task : ∀ t, Like m₁ m₂ (X t) (c.task t) (d.task t)

/-! ### The tasks and the heap -/

variable {m₁ m₂} {P : Prop} {X : T → Prop}

section Task

variable {x : IOTask ε₁} {y : IOTask ε₂} {D : Bool} {τ : ℕ}

/-- The dispatch of a pending task brings its events together. -/
theorem Like.dispatch (h : Like m₁ m₂ P x y) (oldState : Status) (isExpired : Bool) :
    Option.Rel (Like m₁ m₂ True) (x.dispatch B₁ D oldState isExpired)
      (y.dispatch B₂ D oldState isExpired) := by
  rw [IOTask.dispatch, IOTask.dispatch]
  split
  · rw [IOTask.closeDo, IOTask.closeDo, h.closeGuard, h.isClosed]
    split
    · refine .some ⟨rfl, h.deadline, rfl, rfl, rfl, rfl, ?_, fun _ => ?_, fun _ => ?_⟩
      all_goals simp only [m₁.empty, m₂.empty, and_self]
    · exact .none
  · cases devAssert D (decide (oldState ≠ .closed ∧ oldState ≠ .waiting)) with
    | none => exact .none
    | some u =>
      have hunion := h.union
      refine .some ⟨h.status, h.deadline, rfl, h.closeGuard, h.isClosed, h.hasSocket, ?_,
        fun _ => ?_, fun _ => ?_⟩
      all_goals simp only [m₁.merge, m₂.merge, m₁.empty, m₂.empty, hunion, and_self]

/-- The outcome of a step of two tasks: the fields are alike, and both go to the ready queue or none
of them. -/
def LikeGo (m₁ : Masks B₁) (m₂ : Masks B₂) (P : Prop) (a : IOTask ε₁ × Bool)
    (b : IOTask ε₂ × Bool) : Prop :=
  Like m₁ m₂ P a.1 b.1 ∧ a.2 = b.2

theorem Like.weaken {Q : Prop} (h : Like m₁ m₂ P x y) (hQ : Q → P) : Like m₁ m₂ Q x y :=
  { h with ready := fun hq => h.ready (hQ hq) }

/-- A task which is not `PENDING` is dispatched whatever events it has. -/
theorem pendingDo_of_ne {B : Backend ε E} {x : IOTask ε} (hs : x.status ≠ .pending) :
    x.pendingDo B D τ =
      (x.dispatch B D x.status (decide (τ ≥ x.deadline))).map fun t => (t, true) := by
  rw [IOTask.pendingDo, if_neg hs, if_neg hs]
  split
  · by_cases hclosed : x.status = .closed ∧ D = true
    · simp [IOTask.dispatch, devAssert, hclosed]
    · have hassert : devAssert D (decide (x.status ≠ .closed)) = some () := by
        rw [devAssert, if_pos]
        exact fun hd => decide_eq_true fun hc => hclosed ⟨hc, hd⟩
      simp only [hassert, Option.bind_eq_bind, Option.bind_some]
      cases x.dispatch B D x.status (decide (τ ≥ x.deadline)) <;> rfl
  · rfl

theorem Like.pendingDo (h : Like m₁ m₂ P x y) :
    Option.Rel (LikeGo m₁ m₂ P) (x.pendingDo B₁ D τ)
      (y.pendingDo B₂ D τ) := by
  -- the events of a pending task are at the same places
  have hempty : x.status = .pending → B₁.isEmpty x.pendingEvents = B₂.isEmpty y.pendingEvents := by
    intro hs
    have hexact := (h.exact (by rw [hs]; decide)).2
    rw [Bool.eq_iff_iff, m₁.isEmpty, m₂.isEmpty, hexact]
  have hready : ∀ {x' : IOTask ε₁} {y' : IOTask ε₂} (hl : Like m₁ m₂ P x' y') (o : Status)
      (b : Bool),
      Option.Rel (LikeGo m₁ m₂ P) ((x'.dispatch B₁ D o b).map fun t => (t, true))
        ((y'.dispatch B₂ D o b).map fun t => (t, true)) := by
    intro x' y' hl o b
    have hrel := hl.dispatch (D := D) o b
    cases hx : x'.dispatch B₁ D o b <;> cases hy : y'.dispatch B₂ D o b <;>
      rw [hx, hy] at hrel
    · exact .none
    · cases hrel
    · cases hrel
    · cases hrel with
      | some hrel => exact .some ⟨hrel.weaken fun _ => trivial, rfl⟩
  by_cases hs : x.status = .pending
  · have hsy : y.status = .pending := h.status ▸ hs
    obtain ⟨hr, hp⟩ := h.exact (by rw [hs]; decide)
    rw [IOTask.pendingDo, IOTask.pendingDo, hempty hs, h.deadline, if_pos hs, if_pos hs, if_pos hsy,
      if_pos hsy, hs, hsy]
    split
    · have hassert : devAssert D (decide (Status.pending ≠ .closed)) = some () := by
        simp [devAssert]
      simp only [hassert, Option.bind_eq_bind, Option.bind_some]
      have hwoken : Like m₁ m₂ P { x with status := .ready } { y with status := .ready } :=
        ⟨rfl, h.deadline, h.isExpired, h.closeGuard, h.isClosed, h.hasSocket, h.union,
          fun hne => absurd rfl hne, h.ready⟩
      have hrel := hready hwoken .pending (decide (τ ≥ y.deadline))
      rw [h.deadline, Option.map_eq_bind, Option.map_eq_bind] at hrel
      exact hrel
    · exact .some ⟨⟨rfl, rfl, h.isExpired, h.closeGuard, h.isClosed, h.hasSocket, h.union,
        fun _ => ⟨hr, hp⟩, fun _ => hr⟩, rfl⟩
  · rw [pendingDo_of_ne hs, pendingDo_of_ne (h.status ▸ hs), h.status, h.deadline]
    exact hready h _ _

theorem Like.expiredDo (h : Like m₁ m₂ P x y) :
    Option.Rel (LikeGo m₁ m₂ P) (x.expiredDo B₁ D) (y.expiredDo B₂ D) := by
  rw [IOTask.expiredDo, IOTask.expiredDo, ← h.status]
  by_cases hs : x.status = .waiting
  · obtain ⟨hr, hp⟩ := h.exact (by rw [hs]; decide)
    have hempty : B₁.isEmpty x.pendingEvents = B₂.isEmpty y.pendingEvents := by
      rw [Bool.eq_iff_iff, m₁.isEmpty, m₂.isEmpty, hp]
    rw [if_pos hs, if_pos hs, hempty]
    cases devAssert D (B₂.isEmpty y.pendingEvents) with
    | none => exact .none
    | some u =>
      exact .some ⟨⟨rfl, h.deadline, rfl, h.closeGuard, h.isClosed, h.hasSocket, h.union,
        fun _ => ⟨hr, hp⟩, fun _ => hr⟩, rfl⟩
  · rw [if_neg hs, if_neg hs]
    cases devAssert D (decide (x.status ≠ .closed ∧ x.status ≠ .pending)) with
    | none => exact .none
    | some u => exact .some ⟨h, rfl⟩

end Task

section Loops

variable {c : Core T ε₁} {d : Core T ε₂} {D : Bool} {τ : ℕ}

omit [DecidableEq T] in
theorem Agrees.above (h : Agrees m₁ m₂ X c d) : c.above = d.above := by
  funext t u
  rw [Core.above, Core.above, (h.task t).deadline, (h.task u).deadline]

theorem Agrees.set (h : Agrees m₁ m₂ X c d) {t : T} {x : IOTask ε₁} {y : IOTask ε₂}
    (hl : Like m₁ m₂ (X t) x y) : Agrees m₁ m₂ X (c.set t x) (d.set t y) := by
  refine ⟨h.front, h.pending, h.waiting, h.readyQueue, fun u => ?_⟩
  by_cases hu : u = t
  · subst hu
    simpa [Core.set] using hl
  · simpa [Core.set, hu] using h.task u

theorem Agrees.removeWaiting (h : Agrees m₁ m₂ X c d) (t : T) :
    Option.Rel (Agrees m₁ m₂ X) (c.removeWaiting t) (d.removeWaiting t) := by
  rw [Core.removeWaiting, Core.removeWaiting, h.above, h.waiting]
  split
  · dsimp only
    split
    · exact .some ⟨h.front, h.pending, rfl, h.readyQueue, h.task⟩
    · exact .none
  · exact .some h

/-- The outcome of a loop over two cores: they agree, and the same tasks go to the ready queue. -/
def AgreesGo (m₁ : Masks B₁) (m₂ : Masks B₂) (X : T → Prop) (a : Core T ε₁ × List T)
    (b : Core T ε₂ × List T) : Prop :=
  Agrees m₁ m₂ X a.1 b.1 ∧ a.2 = b.2

theorem Agrees.pendingLoop (rounds : ℕ) (h : Agrees m₁ m₂ X c d) (ready : List T) :
    Option.Rel (AgreesGo m₁ m₂ X) (IOCore.pendingLoop B₁ D τ rounds c ready)
      (IOCore.pendingLoop B₂ D τ rounds d ready) := by
  induction rounds generalizing c d ready with
  | zero => exact .some ⟨h, rfl⟩
  | succ rounds ih =>
    rw [IOCore.pendingLoop, IOCore.pendingLoop, h.pending]
    cases hp : d.pending with
    | nil => exact .some ⟨h, rfl⟩
    | cons t pending =>
      dsimp only
      have hrel := (h.task t).pendingDo (D := D) (τ := τ)
      cases hx : (c.task t).pendingDo B₁ D τ <;>
        cases hy : (d.task t).pendingDo B₂ D τ <;> rw [hx, hy] at hrel
      · exact .none
      · cases hrel
      · cases hrel
      rename_i a b
      obtain ⟨x, go⟩ := a
      obtain ⟨y, go'⟩ := b
      obtain ⟨hl, rfl⟩ : Like m₁ m₂ (X t) x y ∧ go = go' := by cases hrel; assumption
      have h₀ : Agrees m₁ m₂ X { c with pending } { d with pending } :=
        ⟨h.front, rfl, h.waiting, h.readyQueue, h.task⟩
      have h₁ := h₀.set hl
      cases go with
      | true =>
        have hrem := h₁.removeWaiting t
        dsimp only
        cases hx' : ({ c with pending }.set t x).removeWaiting t <;>
          cases hy' : ({ d with pending }.set t y).removeWaiting t <;> rw [hx', hy'] at hrem
        · exact .none
        · cases hrem
        · cases hrem
        · exact ih (by cases hrem; assumption) _
      | false =>
        dsimp only
        rw [hl.deadline, h₁.waiting, h₁.above]
        split
        · refine ih ?_ _
          exact ⟨h₁.front, h₁.pending, rfl, h₁.readyQueue, h₁.task⟩
        · cases devAssert D (decide ((({ d with pending }.set t y).waiting.index t) = -1)) with
          | none => exact .none
          | some u => exact ih h₁ _

theorem Agrees.waitingLoop (rounds : ℕ) (h : Agrees m₁ m₂ X c d) (ready : List T) :
    Option.Rel (AgreesGo m₁ m₂ X) (IOCore.waitingLoop B₁ D τ rounds c ready)
      (IOCore.waitingLoop B₂ D τ rounds d ready) := by
  induction rounds generalizing c d ready with
  | zero => exact .some ⟨h, rfl⟩
  | succ rounds ih =>
    rw [IOCore.waitingLoop, IOCore.waitingLoop, h.waiting]
    cases ht : d.waiting.top with
    | none => exact .some ⟨h, rfl⟩
    | some t =>
      dsimp only
      rw [(h.task t).deadline, h.above]
      split
      · exact .some ⟨h, rfl⟩
      · have h₁ : Agrees m₁ m₂ X { c with waiting := (d.waiting.removeTop d.above).1 }
            { d with waiting := (d.waiting.removeTop d.above).1 } :=
          ⟨h.front, h.pending, rfl, h.readyQueue, h.task⟩
        have hrel := (h.task t).expiredDo (D := D)
        cases hx : (c.task t).expiredDo B₁ D <;>
          cases hy : (d.task t).expiredDo B₂ D <;> rw [hx, hy] at hrel
        · exact .none
        · cases hrel
        · cases hrel
        rename_i a b
        obtain ⟨x, go⟩ := a
        obtain ⟨y, go'⟩ := b
        obtain ⟨hl, rfl⟩ : Like m₁ m₂ (X t) x y ∧ go = go' := by cases hrel; assumption
        exact ih (h₁.set hl) _

end Loops

/-! ### The kernel events -/

section Kernel

theorem mem_of_mem_firsts {P : T → Bool} {l : List T} {t : T} (h : t ∈ firsts P l) :
    P t = true ∧ t ∈ l := by
  induction l generalizing P with
  | nil => cases h
  | cons u l ih =>
    rw [firsts] at h
    split at h
    · rename_i hu
      rcases List.mem_cons.mp h with rfl | h
      · exact ⟨hu, List.mem_cons_self⟩
      · obtain ⟨hP, hl⟩ := ih h
        exact ⟨(Bool.and_eq_true_iff.mp hP).1, List.mem_cons_of_mem _ hl⟩
    · exact ⟨(ih h).1, List.mem_cons_of_mem _ (ih h).2⟩

theorem mem_firsts {P : T → Bool} {l : List T} {t : T} (hP : P t = true) (hl : t ∈ l) :
    t ∈ firsts P l := by
  induction l generalizing P with
  | nil => cases hl
  | cons u l ih =>
    rw [firsts]
    by_cases hu : t = u
    · subst hu
      rw [if_pos hP]
      exact List.mem_cons_self
    · have hl := (List.mem_cons.mp hl).resolve_left hu
      split
      · exact List.mem_cons_of_mem _ (ih (by simp [hP, hu]) hl)
      · exact ih hP hl

/-- The first occurrences under a stronger condition are among those under a weaker one. -/
theorem firsts_filter {P Q : T → Bool} (l : List T) (h : ∀ t, P t = true → Q t = true) :
    firsts P l = (firsts Q l).filter P := by
  induction l generalizing P Q with
  | nil => rfl
  | cons u l ih =>
    rw [firsts, firsts]
    by_cases hP : P u = true
    · have hstep : firsts (fun v => P v && v != u) l =
          (firsts (fun v => Q v && v != u) l).filter fun v => P v && v != u :=
        ih fun v hv => by
          rw [Bool.and_eq_true_iff] at hv ⊢
          exact ⟨h v hv.1, hv.2⟩
      rw [if_pos hP, if_pos (h u hP), List.filter_cons_of_pos hP, hstep]
      refine congrArg _ (List.filter_congr fun v hv => ?_)
      rw [(Bool.and_eq_true_iff.mp (mem_of_mem_firsts hv).1).2, Bool.and_true]
    · rw [if_neg hP]
      split
      · rw [List.filter_cons_of_neg hP]
        refine ih fun v hv => ?_
        have hne : v ≠ u := by
          rintro rfl
          exact hP hv
        simp [h v hv, hne]
      · exact ih h

variable {m : Masks B} {evs : List (Option T × E)} {t : T}

omit [DecidableEq T] in
@[simp] theorem tasks_cons_none (e : E) : tasks ((none, e) :: evs) = tasks evs := rfl

omit [DecidableEq T] in
@[simp] theorem tasks_cons_some (t : T) (e : E) : tasks ((some t, e) :: evs) = t :: tasks evs := rfl

theorem firstMask_of_mem (h : t ∈ tasks evs) : ∃ a, firstMask m t evs = some a := by
  induction evs with
  | nil => cases h
  | cons ev evs ih =>
    obtain ⟨u, e⟩ := ev
    rw [firstMask]
    split
    · exact ⟨_, rfl⟩
    · rename_i hne
      cases u with
      | none => exact ih h
      | some u =>
        rw [tasks_cons_some, List.mem_cons] at h
        exact ih (h.resolve_left fun he => hne (congrArg some he.symm))

/-- Removals from the waiting heap, one after the other. -/
def removes (above : T → T → Bool) : List T → BinaryHeap T → Option (BinaryHeap T)
  | [], w => some w
  | t :: l, w =>
    if w.index t ≥ 0 then
      let r := w.remove above t
      if r.2 then removes above l r.1 else none
    else removes above l w

/-- What the kernel events make of one task. -/
structure Noted (m : Masks B) (τ : ℕ) (evs : List (Option T × E)) (t : T)
    (x x' : IOTask ε) : Prop where
  status : x'.status = if x.status = .waiting ∧ t ∈ tasks evs then .ready else x.status
  isExpired : x'.isExpired =
    if x.status = .waiting ∧ t ∈ tasks evs then decide (τ ≥ x.deadline) else x.isExpired
  deadline : x'.deadline = x.deadline
  closeGuard : x'.closeGuard = x.closeGuard
  isClosed : x'.isClosed = x.isClosed
  hasSocket : x'.hasSocket = x.hasSocket
  union : m.mask x'.readyEvents ||| m.mask x'.pendingEvents =
    m.mask x.readyEvents ||| m.mask x.pendingEvents ||| allMask m t evs
  idle : ¬ (x.status = .waiting ∧ t ∈ tasks evs) → m.mask x'.readyEvents = m.mask x.readyEvents ∧
    m.mask x'.pendingEvents = m.mask x.pendingEvents ||| allMask m t evs
  first : x.status = .waiting → ∀ a, firstMask m t evs = some a →
    m.mask x'.readyEvents = m.mask x.readyEvents ||| (m.mask x.pendingEvents ||| a)

/-- A closed task among the kernel events fails an assertion of a debug build. -/
def ClosedEvent (D : Bool) (c : Core T ε) (evs : List (Option T × E)) : Prop :=
  D = true ∧ ∃ t ∈ tasks evs, (c.task t).status = .closed

/-- The tasks which the kernel events wake up. -/
def woken (c : Core T ε) (evs : List (Option T × E)) : List T :=
  firsts (fun t => decide ((c.task t).status = .waiting)) (tasks evs)

variable {D : Bool} {τ : ℕ} {c : Core T ε} {x : IOTask ε} {e : E}

theorem kernelDo_waiting (hk : m.known e = true) (hs : x.status = .waiting) :
    ∃ x', x.kernelDo B D τ e = some (x', true) ∧ x'.status = .ready ∧
      x'.isExpired = decide (τ ≥ x.deadline) ∧ x'.deadline = x.deadline ∧
      x'.closeGuard = x.closeGuard ∧ x'.isClosed = x.isClosed ∧ x'.hasSocket = x.hasSocket ∧
      m.mask x'.readyEvents = m.mask x.readyEvents ||| (m.mask x.pendingEvents ||| m.evMask e) ∧
      m.mask x'.pendingEvents = 0 := by
  obtain ⟨p, hp, hmask⟩ := m.note x.pendingEvents e hk
  refine ⟨{ x with
    status := .ready, readyEvents := B.merge x.readyEvents p, pendingEvents := B.empty,
    isExpired := decide (τ ≥ x.deadline) }, ?_, rfl, rfl, rfl, rfl, rfl, rfl, ?_, m.empty⟩
  · simp only [IOTask.kernelDo, hp, Option.bind_eq_bind, Option.bind_some, if_pos hs]
  · rw [m.merge, hmask]

theorem kernelDo_other (hk : m.known e = true) (hs : x.status ≠ .waiting) :
    ∃ p, m.mask p = m.mask x.pendingEvents ||| m.evMask e ∧ x.kernelDo B D τ e =
      if D = true ∧ x.status = .closed then none
      else some ({ x with pendingEvents := p }, false) := by
  obtain ⟨p, hp, hmask⟩ := m.note x.pendingEvents e hk
  refine ⟨p, hmask, ?_⟩
  simp only [IOTask.kernelDo, hp, Option.bind_eq_bind, Option.bind_some, if_neg hs]
  cases D <;> by_cases hclosed : x.status = .closed <;> simp [devAssert, hclosed]

namespace Noted

variable {x₁ x' : IOTask ε}

/-- An event of another task, or without a task. -/
theorem skip {v : Option T} (hv : v ≠ some t) (h : Noted m τ evs t x x') :
    Noted m τ ((v, e) :: evs) t x x' := by
  have hmem : t ∈ tasks ((v, e) :: evs) ↔ t ∈ tasks evs := by
    cases v with
    | none => rfl
    | some u =>
      rw [tasks_cons_some, List.mem_cons]
      exact or_iff_right fun he => hv (congrArg some he.symm)
  have hall : allMask m t ((v, e) :: evs) = allMask m t evs := if_neg hv
  have hfirst : firstMask m t ((v, e) :: evs) = firstMask m t evs := if_neg hv
  exact {
    status := by simp only [hmem]; exact h.status
    isExpired := by simp only [hmem]; exact h.isExpired
    deadline := h.deadline
    closeGuard := h.closeGuard
    isClosed := h.isClosed
    hasSocket := h.hasSocket
    union := by rw [hall]; exact h.union
    idle := by rw [hmem, hall]; exact h.idle
    first := by rw [hfirst]; exact h.first }

/-- The first event of a waiting task. -/
theorem wake (hs : x.status = .waiting) (hs₁ : x₁.status = .ready)
    (he : x₁.isExpired = decide (τ ≥ x.deadline)) (hd : x₁.deadline = x.deadline)
    (hg : x₁.closeGuard = x.closeGuard) (hc : x₁.isClosed = x.isClosed)
    (ho : x₁.hasSocket = x.hasSocket)
    (hr : m.mask x₁.readyEvents = m.mask x.readyEvents ||| (m.mask x.pendingEvents ||| m.evMask e))
    (hp : m.mask x₁.pendingEvents = 0) (h : Noted m τ evs t x₁ x') :
    Noted m τ ((some t, e) :: evs) t x x' := by
  have hno : ¬ (x₁.status = .waiting ∧ t ∈ tasks evs) := fun hw => by
    rw [hs₁] at hw
    cases hw.1
  have hyes : x.status = .waiting ∧ t ∈ tasks ((some t, e) :: evs) := ⟨hs, List.mem_cons_self⟩
  have hall : allMask m t ((some t, e) :: evs) = m.evMask e ||| allMask m t evs := if_pos rfl
  have hfirst : firstMask m t ((some t, e) :: evs) = some (m.evMask e) := if_pos rfl
  have hzero : ∀ a : BitVec 32, 0 ||| a = a := fun a => BitVec.zero_or
  obtain ⟨hr', hp'⟩ := h.idle hno
  exact {
    status := by rw [if_pos hyes, h.status, if_neg hno, hs₁]
    isExpired := by rw [if_pos hyes, h.isExpired, if_neg hno, he]
    deadline := h.deadline.trans hd
    closeGuard := h.closeGuard.trans hg
    isClosed := h.isClosed.trans hc
    hasSocket := h.hasSocket.trans ho
    union := by rw [hr', hp', hr, hp, hall, hzero]; ac_rfl
    idle := fun hn => absurd hyes hn
    first := by
      intro _ a ha
      rw [hr', hr, Option.some.inj (hfirst.symm.trans ha)] }

/-- An event of a task which is not waiting. -/
theorem keep (hs : x.status ≠ .waiting) {p : ε}
    (hp : m.mask p = m.mask x.pendingEvents ||| m.evMask e)
    (h : Noted m τ evs t { x with pendingEvents := p } x') :
    Noted m τ ((some t, e) :: evs) t x x' := by
  have hno : ∀ {Q : Prop}, ¬ (x.status = .waiting ∧ Q) := fun hw => hs hw.1
  have hall : allMask m t ((some t, e) :: evs) = m.evMask e ||| allMask m t evs := if_pos rfl
  obtain ⟨hr', hp'⟩ := h.idle hno
  exact {
    status := by rw [if_neg hno, h.status, if_neg hno]
    isExpired := by rw [if_neg hno, h.isExpired, if_neg hno]
    deadline := h.deadline
    closeGuard := h.closeGuard
    isClosed := h.isClosed
    hasSocket := h.hasSocket
    union := by rw [hr', hp', hp, hall]; ac_rfl
    idle := fun _ => ⟨hr', by rw [hp', hp, hall, BitVec.or_assoc]⟩
    first := fun hw => absurd hw hs }

end Noted

/-- A task is removed from the heap like the first one of a list. -/
theorem removeWaiting_spec (c : Core T ε) (t : T) (l : List T) :
    (c.removeWaiting t = none ∧ removes c.above (t :: l) c.waiting = none) ∨
      ∃ w, c.removeWaiting t = some { c with waiting := w } ∧
        removes c.above (t :: l) c.waiting = removes c.above l w := by
  rw [Core.removeWaiting, removes]
  by_cases hi : c.waiting.index t ≥ 0
  · rw [if_pos hi, if_pos hi]
    by_cases hr : (c.waiting.remove c.above t).2 = true
    · exact .inr ⟨_, if_pos hr, if_pos hr⟩
    · exact .inl ⟨if_neg hr, if_neg hr⟩
  · exact .inr ⟨_, if_neg hi, if_neg hi⟩

omit [DecidableEq T] in
theorem above_congr {c d : Core T ε} (h : ∀ t, (c.task t).deadline = (d.task t).deadline) :
    c.above = d.above := by
  funext t u
  rw [Core.above, Core.above, h t, h u]

theorem task_set_ne {v : T} (hv : v ≠ t) (w : BinaryHeap T) :
    ({ c.set t x with waiting := w } : Core T ε).task v = c.task v :=
  Function.update_of_ne hv _ _

theorem task_set_self (c : Core T ε) (t : T) (x : IOTask ε) (w : BinaryHeap T) :
    ({ c.set t x with waiting := w } : Core T ε).task t = x :=
  Function.update_self ..

theorem above_set (hd : x.deadline = (c.task t).deadline) (w : BinaryHeap T) :
    ({ c.set t x with waiting := w } : Core T ε).above = c.above := by
  refine above_congr fun v => ?_
  by_cases hv : v = t
  · rw [hv, task_set_self, hd]
  · rw [task_set_ne hv]

/-- An event which makes its task ready is not one of a closed task, and the ones after it are
of the same closed tasks. -/
theorem closedEvent_wake (hs : (c.task t).status = .waiting) (hx : x.status = .ready)
    (w : BinaryHeap T) : ClosedEvent D ({ c.set t x with waiting := w } : Core T ε) evs ↔
      ClosedEvent D c ((some t, e) :: evs) := by
  refine and_congr_right fun _ => ⟨?_, ?_⟩
  · rintro ⟨v, hv, hvs⟩
    have hvt : v ≠ t := by
      rintro rfl
      rw [task_set_self, hx] at hvs
      cases hvs
    exact ⟨v, List.mem_cons_of_mem _ hv, by rwa [task_set_ne hvt] at hvs⟩
  · rintro ⟨v, hv, hvs⟩
    have hvt : v ≠ t := by
      rintro rfl
      rw [hs] at hvs
      cases hvs
    exact ⟨v, (List.mem_cons.mp hv).resolve_left hvt, by rwa [task_set_ne hvt]⟩

/-- A task which an event makes ready is the first of the woken ones. -/
theorem woken_wake (hs : (c.task t).status = .waiting) (hx : x.status = .ready)
    (w : BinaryHeap T) : woken c ((some t, e) :: evs) =
      t :: woken ({ c.set t x with waiting := w } : Core T ε) evs := by
  rw [woken, tasks_cons_some, firsts, if_pos (decide_eq_true hs), woken]
  refine congrArg (fun P => t :: firsts P (tasks evs)) (funext fun v => ?_)
  by_cases hv : v = t
  · dsimp only
    rw [hv, task_set_self, hx]
    simp
  · dsimp only
    rw [task_set_ne hv]
    simp [hv]

theorem kernelLoop_spec (hk : ∀ x ∈ evs, m.known x.2 = true) (ready : List T) :
    (kernelLoop B D τ c ready evs = none ∧
      (ClosedEvent D c evs ∨ removes c.above (woken c evs) c.waiting = none)) ∨
    ∃ c' w, kernelLoop B D τ c ready evs = some (c', ready ++ woken c evs) ∧
      ¬ ClosedEvent D c evs ∧ removes c.above (woken c evs) c.waiting = some w ∧
      c'.front = c.front ∧ c'.pending = c.pending ∧ c'.readyQueue = c.readyQueue ∧
      c'.waiting = w ∧ ∀ t, Noted m τ evs t (c.task t) (c'.task t) := by
  induction evs generalizing c ready with
  | nil =>
    refine .inr ⟨c, c.waiting, by simp [kernelLoop, woken, tasks, firsts], ?_, rfl, rfl, rfl, rfl,
      rfl, fun t => ?_⟩
    · rintro ⟨-, t, ht, -⟩
      cases ht
    · have hno : ¬ ((c.task t).status = .waiting ∧ t ∈ tasks ([] : List (Option T × E))) :=
        fun h => by cases h.2
      exact ⟨(if_neg hno).symm, (if_neg hno).symm, rfl, rfl, rfl, rfl, by simp [allMask],
        fun _ => ⟨rfl, by simp [allMask]⟩, nofun⟩
  | cons ev evs ih =>
    have hk' : ∀ x ∈ evs, m.known x.2 = true := fun x hx => hk x (List.mem_cons_of_mem _ hx)
    have hk₀ := hk ev List.mem_cons_self
    obtain ⟨u, e⟩ := ev
    cases u with
    | none =>
      rcases ih (c := c) hk' ready with ⟨hnone, hfail⟩ | ⟨c', w, hsome, hno, hw, h₁, h₂, h₃, h₄, hn⟩
      · exact .inl ⟨hnone, hfail⟩
      · exact .inr ⟨c', w, hsome, hno, hw, h₁, h₂, h₃, h₄, fun t => (hn t).skip nofun⟩
    | some t =>
      by_cases hs : (c.task t).status = .waiting
      · obtain ⟨x, hx, hs₁, he, hd, hg, hc, ho, hr, hp⟩ :=
          kernelDo_waiting (m := m) (τ := τ) (D := D) hk₀ hs
        have hloop : kernelLoop B D τ c ready ((some t, e) :: evs) =
            ((c.set t x).removeWaiting t).bind fun c =>
              kernelLoop B D τ c (ready ++ [t]) evs := by
          rw [kernelLoop, hx]
          dsimp only
          cases (c.set t x).removeWaiting t <;> rfl
        rw [hloop]
        rcases removeWaiting_spec (c.set t x) t (woken (c.set t x) evs) with
          ⟨hrem, hfail⟩ | ⟨w, hrem, hrest⟩
        · refine .inl ⟨by rw [hrem]; rfl, .inr ?_⟩
          rw [woken_wake hs hs₁ (c.set t x).waiting]
          rw [← above_set hd (c.set t x).waiting]
          exact hfail
        · rw [hrem, Option.bind_some]
          have hrest' : removes c.above (woken c ((some t, e) :: evs)) c.waiting =
              removes c.above (woken ({ c.set t x with waiting := w } : Core T ε) evs) w := by
            rw [woken_wake hs hs₁ w, ← above_set hd (c.set t x).waiting]
            exact hrest
          rcases ih (c := { c.set t x with waiting := w }) hk' (ready ++ [t]) with
            ⟨hnone, hfail⟩ | ⟨c', w', hsome, hno, hw, h₁, h₂, h₃, h₄, hn⟩
          · refine .inl ⟨hnone, hfail.imp (closedEvent_wake hs hs₁ w).mp fun hf => ?_⟩
            rw [hrest', ← above_set hd w]
            exact hf
          · refine .inr ⟨c', w', ?_, (closedEvent_wake hs hs₁ w).not.mp hno, ?_, h₁, h₂, h₃, h₄,
              fun v => ?_⟩
            · rw [hsome, woken_wake hs hs₁ w, List.append_assoc, List.singleton_append]
            · rw [hrest', ← above_set hd w]
              exact hw
            · by_cases hv : v = t
              · subst hv
                have hnv := hn v
                rw [task_set_self] at hnv
                exact hnv.wake hs hs₁ he hd hg hc ho hr hp
              · have hnv := hn v
                rw [task_set_ne hv] at hnv
                exact hnv.skip fun he => hv (Option.some.inj he).symm
      · obtain ⟨p, hmask, hx⟩ :=
          kernelDo_other (m := m) (τ := τ) (D := D) hk₀ hs
        rw [kernelLoop, hx]
        by_cases hclosed : D = true ∧ (c.task t).status = .closed
        · rw [if_pos hclosed]
          exact .inl ⟨rfl, .inl ⟨hclosed.1, t, List.mem_cons_self, hclosed.2⟩⟩
        · rw [if_neg hclosed]
          dsimp only
          have htask : ∀ {v : T}, v ≠ t →
              (c.set t { c.task t with pendingEvents := p }).task v = c.task v :=
            fun hv => Function.update_of_ne hv _ _
          have hself : (c.set t { c.task t with pendingEvents := p }).task t =
              { c.task t with pendingEvents := p } := Function.update_self ..
          have hstatus : ∀ v, ((c.set t { c.task t with pendingEvents := p }).task v).status =
              (c.task v).status := by
            intro v
            by_cases hv : v = t
            · rw [hv, hself]
            · rw [htask hv]
          have habove : (c.set t { c.task t with pendingEvents := p }).above = c.above := by
            refine above_congr fun v => ?_
            by_cases hv : v = t
            · rw [hv, hself]
            · rw [htask hv]
          have hwoken : woken c ((some t, e) :: evs) =
              woken (c.set t { c.task t with pendingEvents := p }) evs := by
            rw [woken, tasks_cons_some, firsts, if_neg (by simpa using hs), woken]
            simp only [hstatus]
          have hevent : ClosedEvent D (c.set t { c.task t with pendingEvents := p }) evs ↔
              ClosedEvent D c ((some t, e) :: evs) := by
            refine and_congr_right fun hd => ?_
            simp only [hstatus, tasks_cons_some, List.mem_cons, exists_eq_or_imp]
            exact (or_iff_right fun hc => hclosed ⟨hd, hc⟩).symm
          rw [hwoken, ← habove]
          rcases ih (c := c.set t { c.task t with pendingEvents := p }) hk' ready with
            ⟨hnone, hfail⟩ | ⟨c', w, hsome, hno, hw, h₁, h₂, h₃, h₄, hn⟩
          · exact .inl ⟨hnone, hfail.imp_left hevent.mp⟩
          · refine .inr ⟨c', w, hsome, hevent.not.mp hno, hw, h₁, h₂, h₃, h₄, fun v => ?_⟩
            by_cases hv : v = t
            · subst hv
              have hnv := hn v
              rw [hself] at hnv
              exact hnv.keep hs hmask
            · have hnv := hn v
              rw [htask hv] at hnv
              exact hnv.skip fun he => hv (Option.some.inj he).symm

end Kernel

/-! ### The rounds -/

variable {c : Core T ε₁} {d : Core T ε₂} {evs : List (Option T × E₁)} {evs' : List (Option T × E₂)}
  {D : Bool} {τ : ℕ}

theorem SameEvents.mem (h : SameEvents m₁ m₂ evs evs') (t : T) :
    t ∈ tasks evs ↔ t ∈ tasks evs' := by
  constructor <;> intro ht
  · exact (mem_of_mem_firsts (h.order ▸ mem_firsts rfl ht)).2
  · exact (mem_of_mem_firsts (h.order ▸ mem_firsts rfl ht)).2

theorem Agrees.woken (h : Agrees m₁ m₂ X c d) (hev : SameEvents m₁ m₂ evs evs') :
    IOCore.woken c evs = IOCore.woken d evs' := by
  have hfilter : ∀ (P : T → Bool) (l : List T), firsts P l = (firsts (fun _ => true) l).filter P :=
    fun P l => firsts_filter l fun _ _ => rfl
  rw [IOCore.woken, IOCore.woken, hfilter, hev.order, ← hfilter]
  simp only [(h.task _).status]

theorem Agrees.closedEvent (h : Agrees m₁ m₂ X c d) (hev : SameEvents m₁ m₂ evs evs') :
    ClosedEvent D c evs ↔ ClosedEvent D d evs' := by
  refine and_congr_right fun _ => exists_congr fun t => ?_
  rw [hev.mem, (h.task t).status]

/-- The tasks whose ready events are the same after the kernel events: the first event is the same,
or it does not wake the task up. -/
def SameFirst (m₁ : Masks B₁) (m₂ : Masks B₂) (c : Core T ε₁) (evs : List (Option T × E₁))
    (evs' : List (Option T × E₂)) (t : T) : Prop :=
  (c.task t).status = .waiting → firstMask m₁ t evs = firstMask m₂ t evs'

theorem Like.noted {t : T} {x x' : IOTask ε₁} {y y' : IOTask ε₂} (h : Like m₁ m₂ P x y)
    (hev : SameEvents m₁ m₂ evs evs') (hx : Noted m₁ τ evs t x x')
    (hy : Noted m₂ τ evs' t y y') :
    Like m₁ m₂ (P ∧ (x.status = .waiting → firstMask m₁ t evs = firstMask m₂ t evs')) x' y' := by
  have hwoken : x.status = .waiting ∧ t ∈ tasks evs ↔ y.status = .waiting ∧ t ∈ tasks evs' := by
    rw [h.status, hev.mem]
  refine ⟨?_, ?_, ?_, ?_, ?_, ?_, ?_, fun hne => ?_, fun ⟨hP, hfirst⟩ => ?_⟩
  · rw [hx.status, hy.status, h.status]
    simp only [hev.mem]
  · rw [hx.deadline, hy.deadline, h.deadline]
  · rw [hx.isExpired, hy.isExpired, h.status, h.deadline, h.isExpired]
    simp only [hev.mem]
  · rw [hx.closeGuard, hy.closeGuard, h.closeGuard]
  · rw [hx.isClosed, hy.isClosed, h.isClosed]
  · rw [hx.hasSocket, hy.hasSocket, h.hasSocket]
  · rw [hx.union, hy.union, h.union, hev.all]
  · -- the task was not woken up, so the places of its events are the same
    have hno : ¬ (x.status = .waiting ∧ t ∈ tasks evs) :=
      fun hw => hne (hx.status.trans (if_pos hw))
    have hs : x.status ≠ .ready := fun hr => hne ((hx.status.trans (if_neg hno)).trans hr)
    obtain ⟨hr, hp⟩ := h.exact hs
    obtain ⟨hxr, hxp⟩ := hx.idle hno
    obtain ⟨hyr, hyp⟩ := hy.idle (hwoken.not.mp hno)
    exact ⟨by rw [hxr, hyr, hr], by rw [hxp, hyp, hp, hev.all]⟩
  · by_cases hw : x.status = .waiting ∧ t ∈ tasks evs
    · obtain ⟨hr, hp⟩ := h.exact (by rw [hw.1]; decide)
      obtain ⟨a, ha⟩ := firstMask_of_mem (m := m₁) hw.2
      rw [hx.first hw.1 a ha, hy.first (hwoken.mp hw).1 a ((hfirst hw.1).symm.trans ha), hr, hp]
    · rw [(hx.idle hw).1, (hy.idle (hwoken.not.mp hw)).1, h.ready hP]

theorem Agrees.kernelLoop (h : Agrees m₁ m₂ X c d) (hev : SameEvents m₁ m₂ evs evs')
    (ready : List T) : Option.Rel (AgreesGo m₁ m₂ fun t => X t ∧ SameFirst m₁ m₂ c evs evs' t)
      (IOCore.kernelLoop B₁ D τ c ready evs)
      (IOCore.kernelLoop B₂ D τ d ready evs') := by
  have hwoken := h.woken hev
  rcases kernelLoop_spec (D := D) (τ := τ) (c := c) hev.known.1 ready with
    ⟨hc, hfail⟩ | ⟨c', w, hc, hno, hw, h₁, h₂, h₃, h₄, hn⟩ <;>
  rcases kernelLoop_spec (D := D) (τ := τ) (c := d) hev.known.2 ready with
    ⟨hd, hfail'⟩ | ⟨d', w', hd, hno', hw', h₁', h₂', h₃', h₄', hn'⟩ <;> rw [hc, hd]
  · exact .none
  · rw [h.closedEvent hev, hwoken, h.above, h.waiting, hw'] at hfail
    exact absurd (hfail.resolve_right nofun) hno'
  · rw [← h.closedEvent hev, ← hwoken, ← h.above, ← h.waiting, hw] at hfail'
    exact absurd (hfail'.resolve_right nofun) hno
  · rw [h.above, hwoken, h.waiting] at hw
    refine .some ⟨⟨?_, ?_, ?_, ?_, fun t => (h.task t).noted hev (hn t) (hn' t)⟩, ?_⟩
    · rw [h₁, h₁', h.front]
    · rw [h₂, h₂', h.pending]
    · rw [h₄, h₄', Option.some.inj (hw.symm.trans hw')]
    · rw [h₃, h₃', h.readyQueue]
    · rw [hwoken]

/-- One step of a round after two loops which agree. -/
theorem rel_bind {α β γ δ : Type*} {R : α → β → Prop} {S : γ → δ → Prop} {x : Option α}
    {y : Option β} {f : α → Option γ} {g : β → Option δ} (h : Option.Rel R x y)
    (hfg : ∀ a b, R a b → Option.Rel S (f a) (g b)) : Option.Rel S (x.bind f) (y.bind g) := by
  cases h with
  | none => exact .none
  | some h => exact hfg _ _ h

theorem Agrees.privScheduleDo (h : Agrees m₁ m₂ X c d) (hev : SameEvents m₁ m₂ evs evs')
    (maxBatch : ℕ) :
    Option.Rel (fun a b => Agrees m₁ m₂ (fun t => X t ∧ SameFirst m₁ m₂ c evs evs' t) a.1 b.1 ∧
        a.2 = b.2)
      (IOCore.privScheduleDo B₁ D τ maxBatch evs c)
      (IOCore.privScheduleDo B₂ D τ maxBatch evs' d) := by
  have h₀ : Agrees m₁ m₂ X { c with front := [], pending := c.pending ++ c.front }
      { d with front := [], pending := d.pending ++ d.front } :=
    ⟨rfl, by rw [h.pending, h.front], h.waiting, h.readyQueue, h.task⟩
  refine rel_bind (h₀.kernelLoop hev []) fun a b hab => ?_
  obtain ⟨c₁, ready⟩ := a
  obtain ⟨d₁, ready'⟩ := b
  obtain ⟨h₁, rfl⟩ := hab
  refine rel_bind (h₁.pendingLoop (maxBatch - 1) ready) fun a b hab => ?_
  obtain ⟨c₂, ready⟩ := a
  obtain ⟨d₂, ready'⟩ := b
  obtain ⟨h₂, rfl⟩ := hab
  refine rel_bind (h₂.waitingLoop (maxBatch - 1) ready) fun a b hab => ?_
  obtain ⟨c₃, ready⟩ := a
  obtain ⟨d₃, ready'⟩ := b
  obtain ⟨h₃, rfl⟩ := hab
  dsimp only
  rw [h₃.waiting, h₃.readyQueue, h₃.pending]
  cases devAssert D (ready.all fun t => decide (d₃.waiting.index t = -1)) with
  | none => exact .none
  | some u => exact .some ⟨⟨h₃.front, rfl, rfl, rfl, h₃.task⟩, rfl⟩

/-- **The rounds over epoll and over kqueue agree**, when the kernel reports the same through both:
they fail together or leave the same queues, heaps and tasks, and each task has altogether the
same events. They are at the same places unless the task is ready, and the ready events of a ready
task are the same when its first event was. -/
theorem privScheduleDo_agrees (codes : ErrorCodes) {c : Core T (BitVec 32)}
    {d : Core T IOKqueueEvents} {evs : List (Option T × BitVec 32)}
    {kevs : List (Option T × Kevent)} (h : Agrees epollMasks (kqueueMasks codes) X c d)
    (hev : SameEvents epollMasks (kqueueMasks codes) evs kevs) (debug : Bool)
    (timestamp maxBatch : ℕ) :
    Option.Rel (fun a b => Agrees epollMasks (kqueueMasks codes)
        (fun t => X t ∧ SameFirst epollMasks (kqueueMasks codes) c evs kevs t) a.1 b.1 ∧ a.2 = b.2)
      (privScheduleDo epoll debug timestamp maxBatch evs c)
      (privScheduleDo (kqueue codes) debug timestamp maxBatch kevs d) :=
  h.privScheduleDo hev maxBatch

/-- A core with one task, which waits forever. -/
def waitingCore (empty : ε) : Core Unit ε where
  front := []
  pending := []
  waiting := .new
  readyQueue := []
  task _ := ⟨.waiting, empty, empty, timeInfinite, false, false, false, true⟩

/-- All errors are `ERR_SYS`. -/
def errSys : ErrorCodes := ⟨fun _ => 1000, fun _ => Nat.le_refl _⟩

theorem waitingCore_agrees : Agrees epollMasks (kqueueMasks errSys) (fun _ => True)
    (waitingCore epoll.empty) (waitingCore (kqueue errSys).empty) :=
  ⟨rfl, rfl, rfl, rfl, fun ⟨⟩ => ⟨rfl, rfl, rfl, rfl, rfl, rfl, by decide, fun _ => by decide,
    fun _ => by decide⟩⟩

/-- The socket of the task is readable and writable. -/
def epollEvents : List (Option Unit × BitVec 32) := [(some (), epollIn ||| epollOut)]

@[inherit_doc epollEvents]
def kqueueEvents : List (Option Unit × Kevent) :=
  [(some (), ⟨.read, false, false, 0⟩), (some (), ⟨.write, false, false, 0⟩)]

theorem events_same : SameEvents epollMasks (kqueueMasks errSys) epollEvents kqueueEvents :=
  ⟨⟨fun _ _ => rfl, by decide⟩, rfl, fun ⟨⟩ => by decide⟩

theorem privScheduleDo_agrees_both : ∃ a b,
    privScheduleDo epoll true 0 2 epollEvents (waitingCore epoll.empty) = some a ∧
    privScheduleDo (kqueue errSys) true 0 2 kqueueEvents (waitingCore (kqueue errSys).empty) =
      some b ∧
    a.1.readyQueue = [()] ∧ b.1.readyQueue = [()] ∧
    (a.1.task ()).readyEvents ||| (a.1.task ()).pendingEvents =
      (b.1.task ()).readyEvents.mask ||| (b.1.task ()).pendingEvents.mask := by
  have hrun : (privScheduleDo epoll true 0 2 epollEvents (waitingCore epoll.empty)).map
      (fun a => a.1.readyQueue) = some [()] := by
    decide +kernel
  obtain ⟨a, ha, hready⟩ := Option.map_eq_some_iff.mp hrun
  have hrel := privScheduleDo_agrees errSys waitingCore_agrees events_same true 0 2
  rw [ha] at hrel
  cases hb : privScheduleDo (kqueue errSys) true 0 2 kqueueEvents
      (waitingCore (kqueue errSys).empty) with
  | none =>
    rw [hb] at hrel
    cases hrel
  | some b =>
    rw [hb] at hrel
    obtain ⟨hagree, -⟩ : Agrees epollMasks (kqueueMasks errSys) _ a.1 b.1 ∧ a.2 = b.2 := by
      cases hrel
      assumption
    exact ⟨a, b, ha, rfl, hready, hagree.readyQueue ▸ hready, (hagree.task ()).union⟩

/-- The readiness for writing stays among the pending events of kqueue. -/
theorem readyEvents_differ :
    Agrees epollMasks (kqueueMasks errSys) (fun _ => True) (waitingCore epoll.empty)
      (waitingCore (kqueue errSys).empty) ∧
    SameEvents epollMasks (kqueueMasks errSys) epollEvents kqueueEvents ∧
    ((privScheduleDo epoll true 0 2 epollEvents (waitingCore epoll.empty)).map fun a =>
      (a.1.task ()).readyEvents) = some (epollIn ||| epollOut) ∧
    ((privScheduleDo (kqueue errSys) true 0 2 kqueueEvents
      (waitingCore (kqueue errSys).empty)).map fun b =>
        ((b.1.task ()).readyEvents.mask, (b.1.task ()).pendingEvents.mask)) =
      some (epollIn, epollOut) :=
  ⟨waitingCore_agrees, events_same, by decide +kernel, by decide +kernel⟩

end IOCore

end Serverbox
