import Serverbox.Net.DomainToIPProgress

/-!
# The domain request of a TCP socket

`TCPSocketCtlDomainRequest` is shared by the TCP socket which connects to a domain and by the
resolver, whose callback is bound to it. The owner polls it with `Update`, and gives it up with
`Cancel`, or deletes it after `Update` has returned true. Whichever of the two is the second one at
the mutex of the request deletes it, and the pointer to the task tells which one that is.

The request is put together with the whole resolver, in which any number of other requests are
posted, resolved and cancelled, and which calls the callback of this one with the answer to its
context. The resolver makes no other step before the callback has returned. A call of the mutex is
one step, and so is each part of a call which is in a critical section of either mutex. An access to
the request after it was freed is a failed assertion.

The history variables are the context which was posted for the request, whether `Update` has
returned true, whether `Cancel` was at the mutex and whether it had been there before the callback
was, and the numbers of the wakeups and of the deletions.

Source: `src/mg/aio/TCPSocketCtl.cpp`, `src/mg/net/DomainToIP.cpp`.

## Main definitions

* `DomainRequest.result`: what the callback stores.
* `DomainRequest.machine`: the request with its owner and the resolver.
* `DomainRequest.Inv`: the invariant.

## Main results

* `DomainRequest.inv`: the invariant holds in every reachable state.
-/

namespace Serverbox

namespace DomainRequest

open DomainToIP (Answer Request timeInfinite)

/-- The families of the addresses which the resolver returns. -/
inductive Family
  | ipv4
  | ipv6
  deriving DecidableEq

/-- `mg::net::Host` which is set. -/
structure Host (A : Type*) where
  family : Family
  addr : A
  port : ℕ
  deriving DecidableEq

/-- The endpoints of a domain: `Process` returns an error when there are none. -/
abbrev Endpoints (A : Type*) := {l : List (Host A) // l ≠ []}

/-- The errors which are stored: the two of the resolver itself, one of `getaddrinfo`, and
the one for a domain without an address of the family. -/
inductive Error (E : Type*)
  | timeout
  | cancel
  | resolve (e : E)
  | addrNotAvail
  deriving DecidableEq

variable {ρ Θ A E : Type*}

/-- The host which the callback takes. -/
def findHost (family : Option Family) (l : Endpoints A) : Option (Host A) :=
  match family with
  | none => some (l.1.head l.2)
  | some f => l.1.find? fun h => h.family == f

/-- What `PrivOnDomainResolve` stores. -/
def result (family : Option Family) (port : ℕ) :
    Answer (Except E (Endpoints A)) → Option (Host A) × Option (Error E)
  | .timeout => (none, some .timeout)
  | .cancel => (none, some .cancel)
  | .done (.error e) => (none, some (.resolve e))
  | .done (.ok l) => match findHost family l with
    | some h => (some { h with port := port }, none)
    | none => (none, some .addrNotAvail)

/-- A host or an error is stored, and not both. -/
theorem result_xor (family : Option Family) (port : ℕ) (a : Answer (Except E (Endpoints A))) :
    (result family port a).1.isSome = !(result family port a).2.isSome := by
  rcases a with (e | l) | _ | _
  · rfl
  · simp only [result]
    cases findHost family l <;> rfl
  · rfl
  · rfl

/-- The two threads at the mutex of the request. -/
inductive Party
  | owner
  | resolver
  deriving DecidableEq

/-- Where the owner is in its calls: between them, in the first `Update` or in another one, in
`Cancel` with the mutex locked, with the task dropped, with the request cancelled, before the
deletion, and when it is through with the request. -/
inductive Owner
  | idle
  | posting
  | updating
  | cancelling
  | dropped
  | unlocking
  | left
  | deleting
  | deleted
  deriving DecidableEq

/-- Where the resolver is in `PrivOnDomainResolve`. -/
inductive Callback (ε : Type*)
  | none
  | called (a : Answer ε)
  | stored
  | locked
  | woken
  | deleting
  | returned
  | deleted
  deriving DecidableEq

/-- The resolver is in the callback. -/
def Callback.isRunning {ε : Type*} : Callback ε → Bool
  | called _ | stored | locked | woken | deleting => true
  | none | returned | deleted => false

/-- `TCPSocketCtlDomainRequest` with its owner and the resolver. -/
structure State (ρ Θ A E : Type*) where
  net : DomainToIP.State ρ Θ (Except E (Endpoints A))
  context : Option ρ
  isSent : Bool
  task : Bool
  mutex : Option Party
  host : Option (Host A)
  error : Option (Error E)
  owner : Owner
  callback : Callback (Except E (Endpoints A))
  told : Bool
  cancelled : Bool
  entered : Option Bool
  wakes : ℕ
  frees : ℕ
  failed : Bool

/-- The constructor of the request, with the resolver as it is. -/
def State.new (n : DomainToIP.State ρ Θ (Except E (Endpoints A))) : State ρ Θ A E where
  net := n
  context := none
  isSent := false
  task := true
  mutex := none
  host := none
  error := none
  owner := .idle
  callback := .none
  told := false
  cancelled := false
  entered := none
  wakes := 0
  frees := 0
  failed := false

namespace State

/-- An assertion. -/
def assert (s : State ρ Θ A E) (b : Bool) : State ρ Θ A E :=
  { s with failed := s.failed || !b }

/-- An access to the request. -/
def touch (s : State ρ Θ A E) : State ρ Θ A E := s.assert (s.frees == 0)

/-- `myMutex.Lock()`. -/
def lock (s : State ρ Θ A E) (p : Party) : Option (State ρ Θ A E) :=
  if s.mutex = none then some { s.touch with mutex := some p } else none

/-- `myMutex.Unlock()`. -/
def unlock (s : State ρ Θ A E) (p : Party) : State ρ Θ A E :=
  { s.touch.assert (s.mutex == some p) with mutex := none }

variable [DecidableEq ρ] [DecidableEq Θ]

/-- `delete`, with the destructors of the mutex and of the handle. -/
def destroy (s : State ρ Θ A E) (θ : Θ) : State ρ Θ A E :=
  { s.touch.assert (s.mutex == none) with
    net := (DomainToIP.drop s.net θ).getD s.net
    frees := s.frees + 1 }

end State

/-- The answer with which the callback of a context was called by a step of the resolver. -/
def invoked {ε : Type*} (n n' : DomainToIP.State ρ Θ ε) (c : ρ) : Option (Answer ε) :=
  if (n.context c).answers.length < (n'.context c).answers.length then
    (n'.context c).answers.getLast?
  else none

section Machine

variable [DecidableEq ρ] [DecidableEq Θ]

/-- `Update` up to the end of its first step: the post of the request before the lock of the
resolver, or the lock of the request. -/
def update (θ : Θ) (s : State ρ Θ A E) (c : ρ) : Option (State ρ Θ A E) :=
  if s.owner = .idle then
    if s.isSent then (s.lock .owner).map fun s' => { s' with owner := .updating }
    else (DomainToIP.post s.net θ c timeInfinite).map fun n => { s.touch with
      isSent := true
      net := n
      context := some c
      owner := .posting }
  else none

/-- `Cancel` up to the end of its first step: the deletion of a request which was not sent, or the
lock. -/
def cancel (θ : Θ) (s : State ρ Θ A E) : Option (State ρ Θ A E) :=
  if s.owner = .idle then
    if s.isSent then
      (s.lock .owner).map fun s' => { s' with owner := .cancelling, cancelled := true }
    else some { s.touch.destroy θ with owner := .deleted, cancelled := true }
  else none

/-- The owner takes the result and deletes the request. -/
def finish (θ : Θ) (s : State ρ Θ A E) : Option (State ρ Θ A E) :=
  if s.owner = .idle ∧ s.told then some { s.touch.destroy θ with owner := .deleted } else none

/-- The next step of the call in which the owner is. -/
def proceed (θ : Θ) (s : State ρ Θ A E) : Option (State ρ Θ A E) :=
  match s.owner with
  | .posting => (DomainToIP.postLocked s.net θ).map fun n => { s with net := n, owner := .idle }
  | .updating => some { s.unlock .owner with told := s.told || !s.task, owner := .idle }
  | .cancelling =>
    if s.task then
      (DomainToIP.cancel s.net θ).map fun n =>
        { s.touch with task := false, net := n, owner := .dropped }
    else some { s.unlock .owner with owner := .deleting }
  | .dropped => (DomainToIP.cancelLocked s.net θ).map fun n =>
    { s with net := n, owner := .unlocking }
  | .unlocking => some { s.unlock .owner with owner := .left }
  | .deleting => some { s.destroy θ with owner := .deleted }
  | .idle | .left | .deleted => none

/-- The next step of `PrivOnDomainResolve`. -/
def onDomainResolve (θ : Θ) (family : Option Family) (port : ℕ) (s : State ρ Θ A E) :
    Option (State ρ Θ A E) :=
  match s.callback with
  | .called a =>
    let r := result family port a
    some { s.touch.assert (r.1.isSome || r.2.isSome) with
      host := r.1
      error := r.2
      callback := .stored }
  | .stored => (s.lock .resolver).map fun s' =>
    { s' with callback := .locked, entered := some s.cancelled }
  | .locked =>
    if s.task then some { s.touch with wakes := s.wakes + 1, callback := .woken }
    else some { s.unlock .resolver with callback := .deleting }
  | .woken => some { s.unlock .resolver with task := false, callback := .returned }
  | .deleting => some { s.destroy θ with callback := .deleted }
  | .none | .returned | .deleted => none

/-- A step of the resolver outside of the callback. -/
def resolve (s : State ρ Θ A E) (b : DomainToIP.Action ρ Θ (Except E (Endpoints A))) :
    Option (State ρ Θ A E) :=
  (DomainToIP.step s.net b).map fun n =>
    match s.context.bind (invoked s.net n) with
    | some a => { s with net := n, callback := .called a }
    | none => { s with net := n }

/-- The steps of the resolver which are not made for this request: those of its thread, which
is not in the callback, and those of the other handles. -/
def Foreign (θ : Θ) (s : State ρ Θ A E) :
    DomainToIP.Action ρ Θ (Except E (Endpoints A)) → Prop
  | .work _ _ | .wake => s.callback.isRunning = false
  | .post θ' _ _ | .postLocked θ' | .cancel θ' | .cancelLocked θ' | .drop θ' => θ' ≠ θ

instance (θ : Θ) (s : State ρ Θ A E) (b : DomainToIP.Action ρ Θ (Except E (Endpoints A))) :
    Decidable (Foreign θ s b) := by
  unfold Foreign
  split <;> infer_instance

/-- What can happen: a call of the owner begins or goes on, the callback goes on, the
resolver makes a step. -/
inductive Action (ρ Θ A E : Type*)
  | update (c : ρ)
  | cancel
  | finish
  | proceed
  | onDomainResolve
  | resolve (b : DomainToIP.Action ρ Θ (Except E (Endpoints A)))

/-- One step. -/
def step (θ : Θ) (family : Option Family) (port : ℕ) (s : State ρ Θ A E) :
    Action ρ Θ A E → Option (State ρ Θ A E)
  | .update c => update θ s c
  | .cancel => cancel θ s
  | .finish => finish θ s
  | .proceed => proceed θ s
  | .onDomainResolve => onDomainResolve θ family port s
  | .resolve b => if Foreign θ s b then resolve s b else none

/-- The request with its owner and the resolver, which may have been at work before. -/
def machine (ρ A E : Type*) {Θ : Type*} [DecidableEq ρ] [DecidableEq Θ] (θ : Θ)
    (family : Option Family) (port : ℕ) : Machine (State ρ Θ A E) (Action ρ Θ A E) where
  init s := ∃ n, (DomainToIP.machine ρ Θ _).Reachable n ∧ n.request θ = .none ∧ s = .new n
  step := step θ family port

end Machine

/-- The request of the handle while the owner is somewhere. -/
@[grind] def Owner.request (c : ρ) : Owner → Request ρ
  | posting => .posting c
  | dropped => .cancelling c
  | unlocking | left | deleted => .none
  | idle | updating | cancelling | deleting => .holds c

/-- The owner has the mutex. -/
@[grind] def Owner.locks : Owner → Bool
  | updating | cancelling | dropped | unlocking => true
  | idle | posting | left | deleting | deleted => false

/-- The owner has dropped the task. -/
@[grind] def Owner.isDropped : Owner → Bool
  | dropped | unlocking | left => true
  | idle | posting | updating | cancelling | deleting | deleted => false

/-- The owner has not begun to cancel the request. -/
@[grind] def Owner.keeps : Owner → Bool
  | idle | posting | updating => true
  | cancelling | dropped | unlocking | left | deleting | deleted => false

namespace Callback

variable {ε : Type*}

/-- The resolver has the mutex. -/
@[grind] def locks : Callback ε → Bool
  | locked | woken => true
  | none | called _ | stored | deleting | returned | deleted => false

/-- The result is not stored yet. -/
@[grind] def isEarly : Callback ε → Bool
  | none | called _ => true
  | stored | locked | woken | deleting | returned | deleted => false

/-- The callback is over, and the owner has the request. -/
@[grind] def isReturned : Callback ε → Bool
  | returned => true
  | none | called _ | stored | locked | woken | deleting | deleted => false

/-- The callback has freed the request. -/
@[grind] def isDeleted : Callback ε → Bool
  | deleted => true
  | none | called _ | stored | locked | woken | deleting | returned => false

/-- The callback has found the task. -/
@[grind] def hasWoken : Callback ε → Bool
  | woken | returned => true
  | none | called _ | stored | locked | deleting | deleted => false

/-- The callback has found no task. -/
@[grind] def isLate : Callback ε → Bool
  | deleting | deleted => true
  | none | called _ | stored | locked | woken | returned => false

end Callback

/-- What the steps of the two threads have left of the request. -/
structure Fits (s : State ρ Θ A E) : Prop where
  not_both : s.owner.locks = true → s.callback.locks = false
  mutex : s.mutex = if s.owner.locks then some .owner
    else if s.callback.locks then some .resolver else none
  task : s.task = !(s.owner.isDropped || s.callback.isReturned)
  woken : s.callback.hasWoken = true → s.owner.isDropped = false
  late : s.callback.isLate = true → s.owner = .left
  deleting : s.owner = .deleting → s.callback = .returned
  deleted : s.owner = .deleted → s.callback = .returned ∨ s.callback = .none ∧ s.isSent = false
  keeps : s.owner.keeps = true → s.cancelled = false
  cancels : s.owner = .cancelling ∨ s.owner.isDropped = true → s.cancelled = true
  told : s.told = true → s.callback = .returned
  entered : s.entered = match s.callback with
    | .none | .called _ | .stored => none
    | .locked => some s.owner.isDropped
    | .woken | .returned => some false
    | .deleting | .deleted => some true
  wakes : s.wakes = s.callback.hasWoken.toNat
  frees : s.frees = (s.owner == .deleted).toNat + s.callback.isDeleted.toNat

namespace State

variable {s : State ρ Θ A E}

@[simp] theorem assert_true (s : State ρ Θ A E) : s.assert true = s := by
  cases s
  simp [assert]

/-- The request is not accessed after it was freed. -/
theorem touch_eq (h : s.frees = 0) : s.touch = s := by
  rw [touch, h]
  exact assert_true s

theorem lock_eq (h : s.frees = 0) {p : Party} :
    s.lock p = if s.mutex = none then some { s with mutex := some p } else none := by
  rw [lock, touch_eq h]

theorem lock_cases {p : Party} {s' : State ρ Θ A E} (hs : s.lock p = some s') :
    s.mutex = none ∧ s' = { s.touch with mutex := some p } := by
  rw [lock] at hs
  split at hs
  · exact ⟨‹_›, (Option.some.inj hs).symm⟩
  · cases hs

theorem unlock_eq (h : s.frees = 0) {p : Party} (hm : s.mutex = some p) :
    s.unlock p = { s with mutex := none } := by
  simp [unlock, touch_eq h, assert, hm]

theorem destroy_eq [DecidableEq ρ] [DecidableEq Θ] (h : s.frees = 0) (hm : s.mutex = none)
    (θ : Θ) : s.destroy θ =
      { s with net := (DomainToIP.drop s.net θ).getD s.net, frees := 1 } := by
  simp [destroy, touch_eq h, assert, hm, h]

end State

namespace Fits

variable {s : State ρ Θ A E} {n : DomainToIP.State ρ Θ (Except E (Endpoints A))} {c : ρ}

theorem new : Fits (.new n : State ρ Θ A E) := by
  constructor <;> first | rfl | exact fun _ => rfl | exact nofun

/-- The request is there for the two threads. -/
theorem alive (h : Fits s) (ho : s.owner ≠ .deleted)
    (hc : s.callback.isDeleted = false) : s.frees = 0 := by
  have := h.frees
  simp_all

/-- The request is there for the owner. -/
theorem alive_owner (h : Fits s) (ho : s.owner ≠ .deleted) (hl : s.owner ≠ .left) :
    s.frees = 0 := by
  refine h.alive ho ?_
  cases hc : s.callback <;> first | rfl | exact absurd (h.late (by rw [hc]; rfl)) hl

theorem alive_at (h : Fits s) {o : Owner} (ho : s.owner = o) (hd : o ≠ .deleted)
    (hl : o ≠ .left) : s.frees = 0 :=
  h.alive_owner (ho ▸ hd) (ho ▸ hl)

/-- `Update` and `Cancel` of a request which was sent. -/
theorem lockOwner (h : Fits s) (ho : s.owner = .idle) (hm : s.mutex = none) (b : Bool) :
    Fits { s with
      mutex := some .owner
      owner := if b then .cancelling else .updating
      cancelled := b || s.cancelled } := by
  cases b <;> cases hc : s.callback <;> grind -linarith [Fits]

/-- A step of the resolver outside of the callback. -/
theorem resolved (h : Fits s) : Fits { s with net := n } := by
  grind -linarith [Fits]

/-- The first `Update`. -/
theorem post (h : Fits s) (ho : s.owner = .idle) (hn : s.callback = .none) :
    Fits { s with isSent := true, net := n, context := some c, owner := .posting } := by
  grind -linarith [Fits]

/-- The end of the first `Update`. -/
theorem postLocked (h : Fits s) (ho : s.owner = .posting) :
    Fits { s with net := n, owner := .idle } := by
  cases hc : s.callback <;> grind -linarith [Fits]

/-- The end of another `Update`. -/
theorem updated (h : Fits s) (ho : s.owner = .updating) :
    Fits { s with mutex := none, told := s.told || !s.task, owner := .idle } := by
  cases hc : s.callback <;> grind -linarith [Fits]

/-- `Cancel` before the callback. -/
theorem drop (h : Fits s) (ho : s.owner = .cancelling) (ht : s.task = true) :
    Fits { s with task := false, net := n, owner := .dropped } := by
  cases hc : s.callback <;> grind -linarith [Fits]

/-- `Cancel` after the callback. -/
theorem late_cancel (h : Fits s) (ho : s.owner = .cancelling) (ht : s.task = false) :
    Fits { s with mutex := none, owner := .deleting } := by
  cases hc : s.callback <;> grind -linarith [Fits]

/-- The request is cancelled in the resolver. -/
theorem cancelLocked (h : Fits s) (ho : s.owner = .dropped) :
    Fits { s with net := n, owner := .unlocking } := by
  cases hc : s.callback <;> grind -linarith [Fits]

/-- The end of `Cancel` before the callback. -/
theorem leave (h : Fits s) (ho : s.owner = .unlocking) :
    Fits { s with mutex := none, owner := .left } := by
  cases hc : s.callback <;> grind -linarith [Fits]

/-- The owner deletes the request. -/
theorem destroy (h : Fits s) (ho : s.owner = .deleting ∨ s.owner = .idle ∧
    (s.told = true ∨ s.callback = .none ∧ s.isSent = false)) (b : Bool) :
    Fits { s with net := n, frees := 1, owner := .deleted, cancelled := b } := by
  cases hc : s.callback <;> grind -linarith [Fits]

/-- The callback is called. -/
theorem called (h : Fits s) (hc : s.callback = .none) (hs : s.isSent = true)
    (a : Answer (Except E (Endpoints A))) : Fits { s with net := n, callback := .called a } := by
  cases ho : s.owner <;> grind -linarith [Fits]

/-- The callback stores the result. -/
theorem stored (h : Fits s) {a : Answer (Except E (Endpoints A))} (hc : s.callback = .called a)
    (x : Option (Host A)) (e : Option (Error E)) :
    Fits { s with host := x, error := e, callback := .stored } := by
  cases ho : s.owner <;> grind -linarith [Fits]

/-- The callback locks the request. -/
theorem lockResolver (h : Fits s) (hc : s.callback = .stored) (hm : s.mutex = none) :
    Fits { s with
      mutex := some .resolver
      callback := .locked
      entered := some s.cancelled } := by
  cases ho : s.owner <;> grind -linarith [Fits]

/-- The callback wakes the task up. -/
theorem wake (h : Fits s) (hc : s.callback = .locked) (ht : s.task = true) :
    Fits { s with wakes := s.wakes + 1, callback := .woken } := by
  cases ho : s.owner <;> grind -linarith [Fits]

/-- The callback is late. -/
theorem late_callback (h : Fits s) (hc : s.callback = .locked) (ht : s.task = false) :
    Fits { s with mutex := none, callback := .deleting } := by
  cases ho : s.owner <;> grind -linarith [Fits]

/-- The end of a callback in time. -/
theorem returned (h : Fits s) (hc : s.callback = .woken) :
    Fits { s with mutex := none, task := false, callback := .returned } := by
  cases ho : s.owner <;> grind -linarith [Fits]

/-- The callback deletes the request. -/
theorem destroyLate (h : Fits s) (hc : s.callback = .deleting) :
    Fits { s with net := n, frees := 1, callback := .deleted } := by
  cases ho : s.owner <;> grind -linarith [Fits]

end Fits

section Resolver

variable {ε : Type*} {n n' : DomainToIP.State ρ Θ ε} {c : ρ} {θ : Θ}

/-- A request in the line has no answer yet. -/
theorem answers_of_line (h : DomainToIP.Inv n) (hc : c ∈ n.line) : (n.context c).answers = [] := by
  have hans := (h.ok c).answers_eq
  rcases h.mem_line.mp hc with hj | hj <;> rw [show (n.context c).job = _ from hj] at hans <;>
    exact List.length_eq_zero_iff.mp hans

/-- A request which is being posted has no answer yet. -/
theorem answers_of_posting (h : DomainToIP.Inv n) (hc : n.request θ = .posting c) :
    (n.context c).answers = [] := by
  have hans := (h.ok c).answers_eq
  rw [show (n.context c).job = _ from (h.posting c).mpr ⟨θ, hc⟩] at hans
  exact List.length_eq_zero_iff.mp hans

/-- A request which was answered has one answer. -/
theorem answers_of_answered (h : DomainToIP.Inv n) (hj : n.job c = .answered) :
    ∃ a, (n.context c).answers = [a] := by
  have hans := (h.ok c).answers_eq
  rw [show (n.context c).job = _ from hj] at hans
  exact List.length_eq_one_iff.mp hans

theorem invoked_eq_none (h : (n'.context c).answers = (n.context c).answers) :
    invoked n n' c = none := by
  simp [invoked, h]

theorem invoked_eq_some (h : (n.context c).answers = []) {a : Answer ε}
    (h' : (n'.context c).answers = [a]) : invoked n n' c = some a := by
  simp [invoked, h, h']

variable [DecidableEq ρ]

/-- The thread of the resolver leaves the handles alone. -/
theorem work_request {now : ℕ} {res : ε} (hs : DomainToIP.work n now res = some n') :
    n'.request = n.request := by
  have htop : n.touchTop.request = n.request := by
    unfold DomainToIP.State.touchTop
    split <;> rfl
  unfold DomainToIP.work at hs
  split at hs <;> (try split at hs) <;> (try split at hs) <;> cases hs <;>
    first | rfl | exact htop

variable [DecidableEq Θ]

/-- A request keeps its answer. -/
theorem answers_step (h : DomainToIP.Inv n) {b : DomainToIP.Action ρ Θ ε}
    (hs : DomainToIP.step n b = some n') {a : Answer ε} (ha : (n.context c).answers = [a]) :
    (n'.context c).answers = [a] := by
  have hcreated : n.Created c := fun hnone => by
    have hans := (h.ok c).answers_eq
    rw [show (n.context c).job = _ from hnone, ha] at hans
    cases hans
  have hle : (n'.context c).answers.length ≤ 1 := by
    rw [((h.step hs).ok c).answers_eq]
    cases (n'.context c).job <;> decide
  obtain ⟨l, hl⟩ := DomainToIP.answers_kept hs hcreated
  rw [ha] at hl
  cases l with
  | nil => simpa using hl.symm
  | cons x l =>
    rw [← hl] at hle
    simp at hle

omit [DecidableEq ρ] [DecidableEq Θ] in
theorem signal_request (t : DomainToIP.State ρ Θ ε) : t.signal.request = t.request := by
  unfold DomainToIP.State.signal
  split <;> rfl

theorem drop_request {θ' : Θ} (hs : DomainToIP.drop n θ' = some n') :
    n'.request = Function.update n.request θ' .none := by
  unfold DomainToIP.drop at hs
  split at hs <;> cases hs
  rfl

theorem post_request {θ' : Θ} {d : ρ} {deadline : ℕ}
    (hs : DomainToIP.post n θ' d deadline = some n') :
    n'.request = Function.update n.request θ' (.posting d) := by
  unfold DomainToIP.post at hs
  split at hs
  · split at hs
    · cases hs
      rfl
    · obtain ⟨t, ht, rfl⟩ := Option.map_eq_some_iff.mp hs
      show Function.update t.request θ' _ = _
      rw [drop_request ht, Function.update_idem]
    · cases hs
  · cases hs

theorem postLocked_request {θ' : Θ} (hs : DomainToIP.postLocked n θ' = some n') :
    ∃ d, n.request θ' = .posting d ∧ n'.request = Function.update n.request θ' (.holds d) := by
  unfold DomainToIP.postLocked at hs
  split at hs
  case h_1 d hd =>
    refine ⟨d, hd, ?_⟩
    split at hs <;> cases hs <;> first | rfl | exact signal_request _
  case h_2 => cases hs

theorem postLocked_job {θ' : Θ} (hd : n.request θ' = .posting c)
    (hs : DomainToIP.postLocked n θ' = some n') : n'.job c = .queued := by
  simp only [DomainToIP.postLocked, hd, Option.some.injEq] at hs
  have hcon : n'.context c = { n.context c with job := .queued } := by
    rw [← hs]
    split
    · rw [DomainToIP.signal_context]
      exact Function.update_self ..
    · exact Function.update_self ..
  rw [DomainToIP.State.job, hcon]

theorem cancel_request {θ' : Θ} (hs : DomainToIP.cancel n θ' = some n') :
    ∃ d, n.request θ' = .holds d ∧ n'.request = Function.update n.request θ' (.cancelling d) := by
  unfold DomainToIP.cancel at hs
  split at hs <;> cases hs
  exact ⟨_, ‹_›, rfl⟩

theorem cancelLocked_request {θ' : Θ} (hs : DomainToIP.cancelLocked n θ' = some n') :
    ∃ d, n.request θ' = .cancelling d ∧ n'.request = Function.update n.request θ' .none := by
  unfold DomainToIP.cancelLocked at hs
  split at hs
  case h_1 d hd =>
    refine ⟨d, hd, ?_⟩
    split at hs <;> cases hs <;> first | rfl | exact signal_request _
  case h_2 => cases hs

/-- The handle of a request is destroyed with it. -/
theorem destroy_net (h : DomainToIP.Inv n)
    (hr : n.request θ = .none ∨ ∃ c, n.request θ = .holds c) :
    DomainToIP.Inv ((DomainToIP.drop n θ).getD n) ∧
      ((DomainToIP.drop n θ).getD n).request θ = .none ∧
      ∀ c a, (n.context c).answers = [a] →
        (((DomainToIP.drop n θ).getD n).context c).answers = [a] := by
  rcases hr with hr | ⟨c, hr⟩
  · have hd : DomainToIP.drop n θ = none := by rw [DomainToIP.drop, hr]
    rw [hd]
    exact ⟨h, hr, fun _ _ => id⟩
  · obtain ⟨n', hd⟩ : ∃ n', DomainToIP.drop n θ = some n' := by simp [DomainToIP.drop, hr]
    have hs : DomainToIP.step n (.drop θ) = some n' := hd
    rw [hd]
    exact ⟨h.step hs, by simp [drop_request hd], fun _ _ => answers_step h hs⟩

/-- The others leave the handle of the request alone. -/
theorem foreign_request {s : State ρ Θ A E}
    {b : DomainToIP.Action ρ Θ (Except E (Endpoints A))} {n' : DomainToIP.State ρ Θ _}
    (hb : Foreign θ s b) (hs : DomainToIP.step s.net b = some n') :
    n'.request θ = s.net.request θ := by
  have hupdate : ∀ {θ'} {r : Request ρ}, θ' ≠ θ → n'.request = Function.update s.net.request θ' r →
      n'.request θ = s.net.request θ := fun hne hr => by
    rw [hr, Function.update_of_ne hne.symm]
  cases b with
  | post θ' d deadline => exact hupdate hb (post_request hs)
  | postLocked θ' =>
    obtain ⟨d, -, hr⟩ := postLocked_request hs
    exact hupdate hb hr
  | cancel θ' =>
    obtain ⟨d, -, hr⟩ := cancel_request hs
    exact hupdate hb hr
  | cancelLocked θ' =>
    obtain ⟨d, -, hr⟩ := cancelLocked_request hs
    exact hupdate hb hr
  | drop θ' => exact hupdate hb (drop_request hs)
  | work now res => rw [work_request hs]
  | wake =>
    simp only [DomainToIP.step] at hs
    split at hs <;> cases hs
    rfl

end Resolver

/-- What the resolver has of a request which was sent, with the given context. -/
structure Sent (θ : Θ) (family : Option Family) (port : ℕ) (s : State ρ Θ A E) (c : ρ) :
    Prop where
  context : s.context = some c
  request : s.net.request θ = s.owner.request c
  waits : s.callback = .none → s.owner = .posting ∨ c ∈ s.net.line
  called : ∀ a, s.callback = .called a → (s.net.context c).answers = [a]
  stored : s.callback.isEarly = false → ∃ a, (s.net.context c).answers = [a] ∧
    (s.host, s.error) = result family port a

/-- A step of the owner. -/
theorem Sent.of_owner {θ : Θ} {family : Option Family} {port : ℕ} {s s' : State ρ Θ A E} {c : ρ}
    (hc : Sent θ family port s c) (hcon : s'.context = s.context)
    (hcall : s'.callback = s.callback) (hres : (s'.host, s'.error) = (s.host, s.error))
    (hreq : s'.net.request θ = s'.owner.request c)
    (hline : s.callback = .none → s'.owner = .posting ∨ c ∈ s'.net.line)
    (hans : ∀ a, (s.net.context c).answers = [a] → (s'.net.context c).answers = [a]) :
    Sent θ family port s' c where
  context := hcon.trans hc.context
  request := hreq
  waits he := hline (hcall ▸ he)
  called a ha := hans a (hc.called a (hcall ▸ ha))
  stored he := by
    obtain ⟨a, ha, hr⟩ := hc.stored (hcall ▸ he)
    exact ⟨a, hans a ha, hres.trans hr⟩

/-- The callback is called with an answer. -/
theorem Sent.answered {θ : Θ} {family : Option Family} {port : ℕ} {s : State ρ Θ A E} {c : ρ}
    (hc : Sent θ family port s c) (hcall : s.callback ≠ .none) :
    ∃ a, (s.net.context c).answers = [a] := by
  cases he : s.callback with
  | none => exact absurd he hcall
  | called a => exact ⟨a, hc.called a he⟩
  | _ =>
    obtain ⟨a, ha, -⟩ := hc.stored (by rw [he]; rfl)
    exact ⟨a, ha⟩

/-- The invariant. -/
structure Inv (θ : Θ) (family : Option Family) (port : ℕ) (s : State ρ Θ A E) : Prop where
  fits : Fits s
  net : DomainToIP.Inv s.net
  unsent : s.isSent = false → s.context = none ∧ s.net.request θ = .none ∧ s.callback = .none ∧
    (s.owner = .idle ∨ s.owner = .deleted)
  sent : s.isSent = true → ∃ c, Sent θ family port s c
  not_failed : s.failed = false

namespace Inv

variable [DecidableEq ρ] [DecidableEq Θ] {θ : Θ} {family : Option Family} {port : ℕ}
  {s s' : State ρ Θ A E} {c : ρ}

/-- A step of the resolver. -/
theorem resolve (h : Inv θ family port s)
    {b : DomainToIP.Action ρ Θ (Except E (Endpoints A))} (hb : Foreign θ s b)
    (hs : DomainRequest.resolve s b = some s') : Inv θ family port s' := by
  obtain ⟨n, hn, hs'⟩ := Option.map_eq_some_iff.mp hs
  have hnet := h.net.step hn
  have hrequest := foreign_request hb hn
  cases hsent : s.isSent with
  | false =>
    obtain ⟨hcon, hreq, hcall, howner⟩ := h.unsent hsent
    have hinv : s.context.bind (invoked s.net n) = none := by rw [hcon, Option.bind_none]
    rw [hinv] at hs'
    subst hs'
    refine ⟨h.fits.resolved, hnet, fun _ => ⟨hcon, hrequest.trans hreq, hcall, howner⟩,
      fun hne => ?_, h.not_failed⟩
    rw [hsent] at hne
    cases hne
  | true =>
    obtain ⟨c, hc⟩ := h.sent hsent
    have hreq := hrequest.trans hc.request
    have hunsent : ∀ {p : Prop}, s.isSent = false → p := fun he => by
      rw [hsent] at he
      cases he
    have hinv : s.context.bind (invoked s.net n) = invoked s.net n c := by
      rw [hc.context, Option.bind_some]
    rw [hinv] at hs'
    -- the callback is not called again
    have hkeep : (n.context c).answers = (s.net.context c).answers →
        (s.callback = .none → s.owner = .posting ∨ c ∈ n.line) → Inv θ family port s' := by
      intro hans hline
      rw [invoked_eq_none hans] at hs'
      subst hs'
      exact ⟨h.fits.resolved, hnet, hunsent, fun _ => ⟨c, hc.context, hreq, hline,
        fun a ha => hans.trans (hc.called a ha), fun he => hans ▸ hc.stored he⟩, h.not_failed⟩
    by_cases hcall : s.callback = .none
    · rcases hc.waits hcall with hpost | hline
      · have hp : s.net.request θ = .posting c := by rw [hc.request, hpost]; rfl
        refine hkeep ?_ fun _ => .inl hpost
        rw [answers_of_posting hnet (hrequest.trans hp), answers_of_posting h.net hp]
      · have hnil := answers_of_line h.net hline
        have hstay : c ∈ n.line → Inv θ family port s' := fun hline' =>
          hkeep (by rw [answers_of_line hnet hline', hnil]) fun _ => .inr hline'
        by_cases hwork : ∃ now res, b = .work now res
        · obtain ⟨now, res, rfl⟩ := hwork
          rcases h.net.turn_work hn hline with hj | ⟨hline', -⟩
          · obtain ⟨a, ha⟩ := answers_of_answered hnet hj
            rw [invoked_eq_some hnil ha] at hs'
            subst hs'
            exact ⟨h.fits.called hcall hsent a, hnet, hunsent, fun _ => ⟨c, hc.context, hreq, nofun,
              fun a' ha' => by cases ha'; exact ha, nofun⟩, h.not_failed⟩
          · exact hstay hline'
        · exact hstay (h.net.turn_other hn (fun now res he => hwork ⟨now, res, he⟩) hline).1
    · obtain ⟨a, ha⟩ := hc.answered hcall
      exact hkeep (by rw [answers_step h.net hn ha, ha]) fun he => absurd he hcall

omit [DecidableEq ρ] [DecidableEq Θ] in
/-- `Update` and `Cancel` lock the request. -/
theorem lockOwner (h : Inv θ family port s) (ho : s.owner = .idle) (hsent : s.isSent = true)
    (hm : s.mutex = none) (b : Bool) : Inv θ family port { s with
      mutex := some .owner
      owner := if b then .cancelling else .updating
      cancelled := b || s.cancelled } := by
  obtain ⟨c, hc⟩ := h.sent hsent
  refine ⟨h.fits.lockOwner ho hm b, h.net, fun he => (nomatch hsent.symm.trans he), fun _ => ⟨c,
    hc.of_owner rfl rfl rfl ?_ (fun he => .inr ?_) fun _ => id⟩, h.not_failed⟩
  · rw [hc.request, ho]
    cases b <;> rfl
  · exact (hc.waits he).resolve_left (by rw [ho]; exact nofun)

/-- `Update` begins. -/
theorem update (h : Inv θ family port s) (hs : DomainRequest.update θ s c = some s') :
    Inv θ family port s' := by
  unfold DomainRequest.update at hs
  split at hs
  case isFalse => cases hs
  case isTrue ho =>
    have hfrees : s.frees = 0 := h.fits.alive_at ho (by decide) (by decide)
    cases hsent : s.isSent with
    | false =>
      obtain ⟨hcon, hreq, hcall, -⟩ := h.unsent hsent
      rw [if_neg (by rw [hsent]; exact Bool.false_ne_true), State.touch_eq hfrees] at hs
      obtain ⟨n, hn, rfl⟩ := Option.map_eq_some_iff.mp hs
      have hstep : DomainToIP.step s.net (.post θ c timeInfinite) = some n := hn
      exact ⟨h.fits.post ho hcall, h.net.step hstep, nofun, fun _ => ⟨c, rfl,
        by simp [post_request hn, Owner.request], fun _ => .inl rfl,
        fun a ha => (nomatch hcall.symm.trans ha),
        fun he => (nomatch (hcall ▸ he : Callback.isEarly .none = false))⟩, h.not_failed⟩
    | true =>
      rw [if_pos hsent, State.lock_eq hfrees] at hs
      obtain ⟨t, ht, rfl⟩ := Option.map_eq_some_iff.mp hs
      split at ht <;> cases ht
      exact h.lockOwner ho hsent ‹_› false

/-- The owner deletes the request. -/
theorem destroy (h : Inv θ family port s) (ho : s.owner = .deleting ∨ s.owner = .idle ∧
    (s.told = true ∨ s.callback = .none ∧ s.isSent = false)) (b : Bool) :
    Inv θ family port { s.destroy θ with owner := .deleted, cancelled := b } := by
  have hfrees : s.frees = 0 := by
    refine h.fits.alive_owner ?_ ?_ <;> rcases ho with ho | ⟨ho, -⟩ <;> rw [ho] <;> exact nofun
  have hmutex : s.mutex = none := by
    have hm := h.fits.mutex
    have hcall : s.callback.locks = false := by
      rcases ho with ho | ⟨-, ho | ⟨ho, -⟩⟩
      · rw [h.fits.deleting ho]
        rfl
      · rw [h.fits.told ho]
        rfl
      · rw [ho]
        rfl
    have howner : s.owner.locks = false := by rcases ho with ho | ⟨ho, -⟩ <;> rw [ho] <;> rfl
    rw [hm, howner, hcall]
    rfl
  rw [State.destroy_eq hfrees hmutex]
  obtain hsent | hsent := (Bool.eq_false_or_eq_true s.isSent).symm
  · obtain ⟨hcon, hreq, hcall, -⟩ := h.unsent hsent
    obtain ⟨hnet, hreq', -⟩ := destroy_net (θ := θ) h.net (.inl hreq)
    refine ⟨h.fits.destroy ho b, hnet, fun _ => ⟨hcon, hreq', hcall, .inr rfl⟩,
      fun he => ?_, h.not_failed⟩
    cases hsent.symm.trans he
  · obtain ⟨c, hc⟩ := h.sent hsent
    have hreq : s.net.request θ = .holds c := by
      rw [hc.request]
      rcases ho with ho | ⟨ho, -⟩ <;> rw [ho] <;> rfl
    obtain ⟨hnet, hreq', hans⟩ := destroy_net h.net (.inr ⟨c, hreq⟩)
    refine ⟨h.fits.destroy ho b, hnet, fun he => ?_, fun _ => ⟨c,
      hc.of_owner rfl rfl rfl hreq' (fun he => ?_) (hans c)⟩, h.not_failed⟩
    · cases hsent.symm.trans he
    rcases ho with ho | ⟨-, ho | ⟨-, ho⟩⟩
    · rw [h.fits.deleting ho] at he
      cases he
    · rw [h.fits.told ho] at he
      cases he
    · rw [hsent] at ho
      cases ho

/-- `Cancel` begins. -/
theorem cancel (h : Inv θ family port s) (hs : DomainRequest.cancel θ s = some s') :
    Inv θ family port s' := by
  unfold DomainRequest.cancel at hs
  split at hs
  case isFalse => cases hs
  case isTrue ho =>
    have hfrees : s.frees = 0 := h.fits.alive_at ho (by decide) (by decide)
    cases hsent : s.isSent with
    | false =>
      obtain ⟨-, -, hcall, -⟩ := h.unsent hsent
      rw [if_neg (by rw [hsent]; exact Bool.false_ne_true), State.touch_eq hfrees] at hs
      cases hs
      exact h.destroy (.inr ⟨ho, .inr ⟨hcall, hsent⟩⟩) true
    | true =>
      rw [if_pos hsent, State.lock_eq hfrees] at hs
      obtain ⟨t, ht, rfl⟩ := Option.map_eq_some_iff.mp hs
      split at ht <;> cases ht
      exact h.lockOwner ho hsent ‹_› true

/-- The owner takes the result. -/
theorem finish (h : Inv θ family port s) (hs : DomainRequest.finish θ s = some s') :
    Inv θ family port s' := by
  unfold DomainRequest.finish at hs
  split at hs
  case isFalse => cases hs
  case isTrue ho =>
    have hfrees : s.frees = 0 := h.fits.alive_at ho.1 (by decide) (by decide)
    cases hs
    rw [State.touch_eq hfrees]
    exact h.destroy (.inr ⟨ho.1, .inl ho.2⟩) s.cancelled

/-- The owner makes a step in the resolver. -/
theorem advance (h : Inv θ family port s) {n : DomainToIP.State ρ Θ (Except E (Endpoints A))}
    {b : DomainToIP.Action ρ Θ (Except E (Endpoints A))} (hn : DomainToIP.step s.net b = some n)
    (hb : ∀ now res, b ≠ .work now res) (hsent : s.isSent = true) (ho : s.owner ≠ .posting)
    (hs : s' = { s with net := n, owner := s'.owner, task := s'.task })
    (hreq : ∀ c, s.net.request θ = s.owner.request c → n.request θ = s'.owner.request c)
    (hfits : Fits s') : Inv θ family port s' := by
  obtain ⟨c, hc⟩ := h.sent hsent
  rw [hs] at hfits ⊢
  exact ⟨hfits, h.net.step hn, fun he => (nomatch hsent.symm.trans he), fun _ => ⟨c,
    hc.of_owner rfl rfl rfl (hreq c hc.request)
      (fun he => .inr (h.net.turn_other hn hb ((hc.waits he).resolve_left ho)).1)
      fun _ => answers_step h.net hn⟩, h.not_failed⟩

omit [DecidableEq ρ] [DecidableEq Θ] in
theorem isSent_of (h : Inv θ family port s) (ho : s.owner ≠ .idle) (ho' : s.owner ≠ .deleted) :
    s.isSent = true := by
  by_contra hne
  exact (h.unsent (Bool.not_eq_true _ ▸ hne)).2.2.2.elim ho ho'

omit [DecidableEq ρ] [DecidableEq Θ] in
theorem isSent_of_callback (h : Inv θ family port s) (hcall : s.callback ≠ .none) :
    s.isSent = true := by
  by_contra hne
  exact hcall (h.unsent (Bool.not_eq_true _ ▸ hne)).2.2.1

omit [DecidableEq ρ] [DecidableEq Θ] in
/-- The owner unlocks the request. -/
theorem unlockOwner (h : Inv θ family port s) (ho : s.owner.locks = true)
    (hs : s' = { s with mutex := none, owner := s'.owner, told := s'.told })
    (hreq : ∀ c : ρ, s'.owner.request c = s.owner.request c)
    (hfits : Fits s') : Inv θ family port s' := by
  have hsent : s.isSent = true := by
    refine h.isSent_of ?_ ?_ <;> intro he <;> rw [he] at ho <;> cases ho
  obtain ⟨c, hc⟩ := h.sent hsent
  rw [hs] at hfits ⊢
  refine ⟨hfits, h.net, fun he => (nomatch hsent.symm.trans he), fun _ => ⟨c,
    hc.of_owner rfl rfl rfl (hc.request.trans (hreq c).symm) (fun he => .inr ?_) fun _ => id⟩,
    h.not_failed⟩
  exact (hc.waits he).resolve_left fun he => by rw [he] at ho; cases ho

/-- The owner goes on. -/
theorem proceed (h : Inv θ family port s) (hs : DomainRequest.proceed θ s = some s') :
    Inv θ family port s' := by
  have hmutex : s.owner.locks = true → s.mutex = some .owner := fun ho => by
    rw [h.fits.mutex, ho]
    rfl
  unfold DomainRequest.proceed at hs
  split at hs
  case h_1 ho =>
    have hsent := h.isSent_of (by rw [ho]; exact nofun) (by rw [ho]; exact nofun)
    obtain ⟨c, hc⟩ := h.sent hsent
    obtain ⟨n, hn, rfl⟩ := Option.map_eq_some_iff.mp hs
    have hpost : s.net.request θ = .posting c := by rw [hc.request, ho]; rfl
    have hstep : DomainToIP.step s.net (.postLocked θ) = some n := hn
    obtain ⟨d, hd, hr⟩ := postLocked_request hn
    obtain rfl : c = d := Request.posting.inj (hpost.symm.trans hd)
    have hline : c ∈ n.line := (h.net.step hstep).mem_line.mpr (.inr (postLocked_job hpost hn))
    exact ⟨h.fits.postLocked ho, h.net.step hstep, fun he => (nomatch hsent.symm.trans he),
      fun _ => ⟨c, hc.of_owner rfl rfl rfl (by simp [hr, Owner.request]) (fun _ => .inr hline)
        fun _ => answers_step h.net hstep⟩, h.not_failed⟩
  case h_2 ho =>
    have hfrees : s.frees = 0 := h.fits.alive_at ho (by decide) (by decide)
    rw [State.unlock_eq hfrees (hmutex (by rw [ho]; rfl))] at hs
    cases hs
    exact h.unlockOwner (by rw [ho]; rfl) rfl (fun c => by rw [ho]; rfl) (h.fits.updated ho)
  case h_3 ho =>
    have hfrees : s.frees = 0 := h.fits.alive_at ho (by decide) (by decide)
    split at hs
    case isTrue ht =>
      rw [State.touch_eq hfrees] at hs
      obtain ⟨n, hn, rfl⟩ := Option.map_eq_some_iff.mp hs
      have hstep : DomainToIP.step s.net (.cancel θ) = some n := hn
      obtain ⟨d, hd, hr⟩ := cancel_request hn
      refine h.advance hstep nofun (h.isSent_of (by rw [ho]; exact nofun) (by rw [ho]; exact nofun))
        (by rw [ho]; exact nofun) rfl (fun c hc => ?_) (h.fits.drop ho ht)
      rw [ho] at hc
      obtain rfl : d = c := Request.holds.inj (hd.symm.trans hc)
      simp [hr, Owner.request]
    case isFalse ht =>
      rw [State.unlock_eq hfrees (hmutex (by rw [ho]; rfl))] at hs
      cases hs
      exact h.unlockOwner (by rw [ho]; rfl) rfl (fun c => by rw [ho]; rfl)
        (h.fits.late_cancel ho (Bool.not_eq_true _ ▸ ht))
  case h_4 ho =>
    obtain ⟨n, hn, rfl⟩ := Option.map_eq_some_iff.mp hs
    have hstep : DomainToIP.step s.net (.cancelLocked θ) = some n := hn
    obtain ⟨d, -, hr⟩ := cancelLocked_request hn
    exact h.advance hstep nofun (h.isSent_of (by rw [ho]; exact nofun) (by rw [ho]; exact nofun))
      (by rw [ho]; exact nofun) rfl (fun c hc => by simp [hr, Owner.request])
      (h.fits.cancelLocked ho)
  case h_5 ho =>
    have hfrees : s.frees = 0 := h.fits.alive_at ho (by decide) (by decide)
    rw [State.unlock_eq hfrees (hmutex (by rw [ho]; rfl))] at hs
    cases hs
    exact h.unlockOwner (by rw [ho]; rfl) rfl (fun c => by rw [ho]; rfl) (h.fits.leave ho)
  case h_6 ho =>
    cases hs
    exact h.destroy (.inl ho) s.cancelled
  all_goals cases hs

omit [DecidableEq ρ] [DecidableEq Θ] in
/-- A step of the callback which leaves the resolver alone. -/
theorem callback (h : Inv θ family port s) (hcall : s.callback.isEarly = false)
    (hs : s' = { s with
      mutex := s'.mutex
      task := s'.task
      callback := s'.callback
      entered := s'.entered
      wakes := s'.wakes }) (hcall' : s'.callback.isEarly = false) (hfits : Fits s') :
    Inv θ family port s' := by
  have hsent : s.isSent = true :=
    h.isSent_of_callback fun he => by rw [he] at hcall; cases hcall
  obtain ⟨c, hc⟩ := h.sent hsent
  rw [hs] at hfits ⊢
  exact ⟨hfits, h.net, fun he => (nomatch hsent.symm.trans he), fun _ => ⟨c, hc.context, hc.request,
    fun he => (nomatch (he ▸ hcall' : Callback.isEarly .none = false)),
    fun a he => (nomatch (he ▸ hcall' : Callback.isEarly (.called a) = false)),
    fun _ => hc.stored hcall⟩, h.not_failed⟩

/-- The callback goes on. -/
theorem onDomainResolve (h : Inv θ family port s)
    (hs : DomainRequest.onDomainResolve θ family port s = some s') : Inv θ family port s' := by
  have hfrees : s.callback.isRunning = true → s.frees = 0 := fun hrun => by
    refine h.fits.alive (fun ho => ?_) ?_
    · rcases h.fits.deleted ho with he | ⟨he, -⟩ <;> rw [he] at hrun <;> cases hrun
    · cases he : s.callback <;> first | rfl | (rw [he] at hrun; cases hrun)
  have hmutex : s.callback.locks = true → s.mutex = some .resolver := fun hl => by
    rw [h.fits.mutex, hl]
    cases ho : s.owner.locks with
    | false => rfl
    | true => rw [h.fits.not_both ho] at hl; cases hl
  unfold DomainRequest.onDomainResolve at hs
  split at hs
  case h_1 a hc =>
    have hxor := result_xor (E := E) family port a
    have hsome : ((result family port a).1.isSome || (result family port a).2.isSome) = true := by
      rw [hxor]
      cases (result family port a).2.isSome <;> rfl
    dsimp only at hs
    rw [State.touch_eq (hfrees (by rw [hc]; rfl)), hsome, State.assert_true] at hs
    cases hs
    obtain ⟨c, hcs⟩ := h.sent (h.isSent_of_callback (by rw [hc]; exact nofun))
    exact ⟨h.fits.stored hc _ _, h.net,
      fun he => (nomatch (h.isSent_of_callback (by rw [hc]; exact nofun)).symm.trans he),
      fun _ => ⟨c, hcs.context, hcs.request, nofun, nofun, fun _ => ⟨a, hcs.called a hc, rfl⟩⟩,
      h.not_failed⟩
  case h_2 hc =>
    rw [State.lock_eq (hfrees (by rw [hc]; rfl))] at hs
    obtain ⟨t, ht, rfl⟩ := Option.map_eq_some_iff.mp hs
    split at ht <;> cases ht
    exact h.callback (by rw [hc]; rfl) rfl rfl (h.fits.lockResolver hc ‹_›)
  case h_3 hc =>
    split at hs
    case isTrue ht =>
      rw [State.touch_eq (hfrees (by rw [hc]; rfl))] at hs
      cases hs
      exact h.callback (by rw [hc]; rfl) rfl rfl (h.fits.wake hc ht)
    case isFalse ht =>
      rw [State.unlock_eq (hfrees (by rw [hc]; rfl)) (hmutex (by rw [hc]; rfl))] at hs
      cases hs
      exact h.callback (by rw [hc]; rfl) rfl rfl
        (h.fits.late_callback hc (Bool.not_eq_true _ ▸ ht))
  case h_4 hc =>
    rw [State.unlock_eq (hfrees (by rw [hc]; rfl)) (hmutex (by rw [hc]; rfl))] at hs
    cases hs
    exact h.callback (by rw [hc]; rfl) rfl rfl (h.fits.returned hc)
  case h_5 hc =>
    have ho : s.owner = .left := h.fits.late (by rw [hc]; rfl)
    have hm : s.mutex = none := by rw [h.fits.mutex, ho, hc]; rfl
    rw [State.destroy_eq (hfrees (by rw [hc]; rfl)) hm] at hs
    cases hs
    obtain ⟨c, hcs⟩ := h.sent (h.isSent_of_callback (by rw [hc]; exact nofun))
    have hreq : s.net.request θ = .none := by rw [hcs.request, ho]; rfl
    obtain ⟨hnet, hreq', hans⟩ := destroy_net h.net (.inl hreq)
    obtain ⟨a, ha, hr⟩ := hcs.stored (by rw [hc]; rfl)
    refine ⟨h.fits.destroyLate hc, hnet,
      fun he => (nomatch (h.isSent_of_callback (by rw [hc]; exact nofun)).symm.trans he),
      fun _ => ⟨c, hcs.context, ?_, nofun, nofun, fun _ => ⟨a, hans c a ha, hr⟩⟩, h.not_failed⟩
    show _ = s.owner.request c
    rw [ho]
    exact hreq'
  all_goals cases hs

theorem step {a : Action ρ Θ A E} (h : Inv θ family port s)
    (hs : DomainRequest.step θ family port s a = some s') : Inv θ family port s' := by
  cases a with
  | update c => exact h.update hs
  | cancel => exact h.cancel hs
  | finish => exact h.finish hs
  | proceed => exact h.proceed hs
  | onDomainResolve => exact h.onDomainResolve hs
  | resolve b =>
    simp only [DomainRequest.step] at hs
    split at hs
    · exact h.resolve ‹_› hs
    · cases hs

end Inv

theorem inv [DecidableEq ρ] [DecidableEq Θ] {θ : Θ} {family : Option Family} {port : ℕ}
    {s : State ρ Θ A E} (h : (machine ρ A E θ family port).Reachable s) : Inv θ family port s := by
  refine Machine.invariant (fun s hs => ?_) (fun _ _ _ hi hs => hi.step hs) h
  obtain ⟨n, hn, hr, rfl⟩ := hs
  exact ⟨.new, DomainToIP.inv hn, fun _ => ⟨rfl, hr, rfl, .inl rfl⟩, nofun, rfl⟩

end DomainRequest

end Serverbox
