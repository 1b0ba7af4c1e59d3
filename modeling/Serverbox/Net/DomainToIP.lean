import Mathlib.Algebra.Group.Nat.Defs
import Serverbox.Box.BinaryHeap
import Serverbox.Lib.Machine

/-!
# The resolver of domain names

`DomainToIPAsync` posts a request to the only worker, which resolves the requests one after another
in batches, and answers the ones whose deadline is over with a timeout and the ones which were
cancelled with a cancellation. A request has two references: one of its handle, which a cancellation
takes with it, and one of the worker.

A critical section of `myMutex` is one step, and so is every callback and every release of a
reference. The names of the requests are never used again, so that an access to a deleted one is a
failed assertion.

The history variables of a request are the answers given to it, the number of its references which
were released, and what became of either of them.

Source: `src/mg/net/DomainToIP.cpp`.

## Main definitions

* `DomainToIP.Context`, `DomainToIP.State`: a request, and the resolver with the handles.
* `DomainToIP.work`: the steps of the worker.
* `DomainToIP.post` and so on: the steps of the clients.
* `DomainToIP.machine`: the transition system of the worker and any number of handles.
-/

namespace Serverbox

namespace DomainToIP

variable {ρ Θ ε : Type*}

/-- `MG_TIME_INFINITE`. -/
def timeInfinite : ℕ := 2 ^ 64 - 1

/-- What a callback gets: what the resolution gave, or an error of the resolver. -/
inductive Answer (ε : Type*)
  | done (res : ε)
  | timeout
  | cancel
  deriving DecidableEq

/-- What became of the reference of the worker. -/
inductive Job
  | none
  | posting
  | queued
  | resolving
  | answered
  | released
  deriving DecidableEq

/-- What became of the reference of the handle. -/
inductive Grip
  | none
  | held
  | cancelling
  | queued
  | dropping
  | released
  deriving DecidableEq

/-- `DomainToIPContext`; its index is in the heap. -/
structure Context (ε : Type*) where
  deadline : ℕ
  isCancelled : Bool
  ref : ℕ
  deleted : Bool
  answers : List (Answer ε)
  releases : ℕ
  job : Job
  grip : Grip

/-- `DomainToIPRequest`, and what its owner is doing with it: a post before the request is in the
queue, or a cancellation before it is in the queue of these. -/
inductive Request (ρ : Type*)
  | none
  | holds (c : ρ)
  | posting (c : ρ)
  | cancelling (c : ρ)
  deriving DecidableEq

/-- Where the worker is in its code. -/
inductive Worker (ρ : Type*)
  | main
  | expire (ts : ℕ)
  | timedOut (c : ρ) (ts : ℕ)
  | batch (n : ℕ)
  | process (c : ρ) (n : ℕ)
  | processed (c : ρ) (n : ℕ)
  | front
  | waiting
  | woken
  | accept (front cancel : List ρ)
  | cancelled (c : ρ) (cancel : List ρ)
  | dropping (c : ρ) (cancel : List ρ)
  deriving DecidableEq

/-- `DomainToIPWorker`, with the requests and their handles. -/
structure State (ρ Θ ε : Type*) where
  context : ρ → Context ε
  main : List ρ
  mainHeap : BinaryHeap ρ
  front : List ρ
  frontCancel : List ρ
  worker : Worker ρ
  request : Θ → Request ρ
  failed : Bool

/-- `DomainToIPWorker::DomainToIPWorker`, before there are any requests. -/
def State.new : State ρ Θ ε where
  context _ := ⟨0, false, 0, false, [], 0, .none, .none⟩
  main := []
  mainHeap := .new
  front := []
  frontCancel := []
  worker := .main
  request _ := .none
  failed := false

namespace State

/-- `DomainToIPContext::operator<=`. -/
def above (s : State ρ Θ ε) (c d : ρ) : Bool :=
  decide ((s.context c).deadline ≤ (s.context d).deadline)

/-- An assertion of the source. -/
def assert (s : State ρ Θ ε) (b : Bool) : State ρ Θ ε :=
  { s with failed := s.failed || !b }

/-- An access to a request. -/
def touch (s : State ρ Θ ε) (c : ρ) : State ρ Θ ε :=
  s.assert !(s.context c).deleted

/-- Move the worker. -/
def goto (s : State ρ Θ ε) (w : Worker ρ) : State ρ Θ ε :=
  { s with worker := w }

/-- `myCond.Signal()`. -/
def signal (s : State ρ Θ ε) : State ρ Θ ε :=
  match s.worker with
  | .waiting => s.goto .woken
  | _ => s

variable [DecidableEq ρ] [DecidableEq Θ]

/-- Change the fields of a request. -/
def modify (s : State ρ Θ ε) (c : ρ) (f : Context ε → Context ε) : State ρ Θ ε :=
  { s with context := Function.update s.context c (f (s.context c)) }

/-- Change a handle. -/
def setRequest (s : State ρ Θ ε) (θ : Θ) (r : Request ρ) : State ρ Θ ε :=
  { s with request := Function.update s.request θ r }

/-- `PrivUnref`, with what became of the references. -/
def unref (s : State ρ Θ ε) (c : ρ) (f : Context ε → Context ε) : State ρ Θ ε :=
  ((s.touch c).assert (decide (0 < (s.context c).ref))).modify c fun x =>
    { f x with ref := x.ref - 1, deleted := x.ref - 1 == 0, releases := x.releases + 1 }

/-- The worker drops its reference. -/
def unrefJob (s : State ρ Θ ε) (c : ρ) : State ρ Θ ε :=
  s.unref c fun x => { x with job := .released }

/-- The reference of the handle is dropped. -/
def unrefGrip (s : State ρ Θ ε) (c : ρ) : State ρ Θ ε :=
  s.unref c fun x => { x with grip := .released }

/-- The callback is invoked: `ReturnEndpoints`, `ReturnError`. -/
def answer (s : State ρ Θ ε) (c : ρ) (a : Answer ε) : State ρ Θ ε :=
  ((s.touch c).assert (decide (s.mainHeap.index c < 0))).modify c fun x =>
    { x with answers := x.answers ++ [a], job := .answered }

/-- The worker takes the queues of the clients under the lock. -/
def take (s : State ρ Θ ε) : State ρ Θ ε :=
  { s with front := [], frontCancel := [] }.goto (.accept s.front s.frontCancel)

/-- The worker looks at the request with the first deadline. -/
def touchTop (s : State ρ Θ ε) : State ρ Θ ε :=
  match s.mainHeap.top with
  | some c => s.touch c
  | none => s

/-- The deadline until which the worker may sleep. -/
def wakeup (s : State ρ Θ ε) : ℕ :=
  match s.mainHeap.top with
  | some c => (s.context c).deadline
  | none => timeInfinite

end State

variable [DecidableEq ρ] [DecidableEq Θ]

/-- The next step of the worker: `PrivProcessMain` and `PrivProcessFront`, for the given time and
the given result of a resolution. -/
def work (s : State ρ Θ ε) (now : ℕ) (res : ε) : Option (State ρ Θ ε) :=
  match s.worker with
  | .main => some (s.goto (if s.main = [] then .front else .expire now))
  | .expire ts => match s.mainHeap.top with
    | none => some (s.assert false)
    | some c =>
      if (s.context c).deadline ≤ ts then
        some (({ s.touch c with
          mainHeap := (s.mainHeap.removeTop s.above).1
          main := s.main.erase c }.answer c .timeout).goto (.timedOut c ts))
      else some ((s.touch c).goto (.batch 10))
  | .timedOut c ts => some ((s.unrefJob c).goto (if s.main = [] then .front else .expire ts))
  | .batch n => match s.main, n with
    | c :: l, n + 1 =>
      let r := s.mainHeap.remove s.above c
      some ((({ s.touch c with main := l, mainHeap := r.1 }.assert r.2).modify c fun x =>
        { x with job := .resolving }).goto (.process c n))
    | _, _ => some (s.goto .front)
  | .process c n => some ((s.answer c (.done res)).goto (.processed c n))
  | .processed c n => some ((s.unrefJob c).goto (.batch n))
  | .front =>
    if s.main = [] ∧ s.front = [] ∧ s.frontCancel = [] ∧
        (s.wakeup = timeInfinite ∨ now < s.wakeup) then some (s.touchTop.goto .waiting)
    else some s.touchTop.take
  | .waiting => none
  | .woken => some s.take
  | .accept (c :: f) k => some ({ s.touch c with
      main := s.main ++ [c]
      mainHeap := s.mainHeap.push s.above c }.goto (.accept f k))
  | .accept [] (c :: k) =>
    if 0 ≤ s.mainHeap.index c then
      let r := s.mainHeap.remove s.above c
      some (((({ s.touch c with main := s.main.erase c, mainHeap := r.1 }.assert r.2).answer c
        .cancel).modify c fun x => { x with grip := .dropping }).goto (.cancelled c k))
    else some (((s.touch c).modify c fun x => { x with grip := .dropping }).goto (.dropping c k))
  | .accept [] [] => some (s.goto .main)
  | .cancelled c k => some ((s.unrefJob c).goto (.dropping c k))
  | .dropping c k => some ((s.unrefGrip c).goto (.accept [] k))

/-- A new request, with a reference of its handle and one of the worker. -/
def create (s : State ρ Θ ε) (θ : Θ) (c : ρ) (deadline : ℕ) : State ρ Θ ε :=
  (s.modify c fun _ => ⟨deadline, false, 2, false, [], 0, .posting, .held⟩).setRequest θ
    (.posting c)

/-- `DomainToIPRequest::~DomainToIPRequest`. -/
def drop (s : State ρ Θ ε) (θ : Θ) : Option (State ρ Θ ε) :=
  match s.request θ with
  | .holds c => some ((s.unrefGrip c).setRequest θ .none)
  | _ => none

/-- `Post` up to the lock: the handle drops its old request and gets a new one. -/
def post (s : State ρ Θ ε) (θ : Θ) (c : ρ) (deadline : ℕ) : Option (State ρ Θ ε) :=
  if (s.context c).job = .none then
    match s.request θ with
    | .none => some (create s θ c deadline)
    | .holds _ => (drop s θ).map fun s' => create s' θ c deadline
    | _ => none
  else none

/-- `Post` under the lock. -/
def postLocked (s : State ρ Θ ε) (θ : Θ) : Option (State ρ Θ ε) :=
  match s.request θ with
  | .posting c =>
    let s' := ({ s.touch c with front := s.front ++ [c] }.modify c fun x =>
      { x with job := .queued }).setRequest θ (.holds c)
    some (if s.front = [] then s'.signal else s')
  | _ => none

/-- `Cancel` up to the lock. -/
def cancel (s : State ρ Θ ε) (θ : Θ) : Option (State ρ Θ ε) :=
  match s.request θ with
  | .holds c => some ((((s.touch c).assert !(s.context c).isCancelled).modify c fun x =>
      { x with isCancelled := true, grip := .cancelling }).setRequest θ (.cancelling c))
  | _ => none

/-- `Cancel` under the lock. -/
def cancelLocked (s : State ρ Θ ε) (θ : Θ) : Option (State ρ Θ ε) :=
  match s.request θ with
  | .cancelling c =>
    let s' := ({ s.touch c with frontCancel := s.frontCancel ++ [c] }.modify c fun x =>
      { x with grip := .queued }).setRequest θ .none
    some (if s.frontCancel = [] then s'.signal else s')
  | _ => none

/-- What can happen: a step of the client which owns a handle, a step of the worker, and the end of
its sleep for another reason than a signal. -/
inductive Action (ρ Θ ε : Type*)
  | post (θ : Θ) (c : ρ) (deadline : ℕ)
  | postLocked (θ : Θ)
  | cancel (θ : Θ)
  | cancelLocked (θ : Θ)
  | drop (θ : Θ)
  | work (now : ℕ) (res : ε)
  | wake

/-- One step of the resolver. -/
def step (s : State ρ Θ ε) : Action ρ Θ ε → Option (State ρ Θ ε)
  | .post θ c deadline => post s θ c deadline
  | .postLocked θ => postLocked s θ
  | .cancel θ => cancel s θ
  | .cancelLocked θ => cancelLocked s θ
  | .drop θ => drop s θ
  | .work now res => work s now res
  | .wake => match s.worker with
    | .waiting => some (s.goto .woken)
    | _ => none

/-- The worker and any number of handles, from the construction of the worker on. -/
def machine (ρ Θ ε : Type*) [DecidableEq ρ] [DecidableEq Θ] :
    Machine (State ρ Θ ε) (Action ρ Θ ε) where
  init s := s = .new
  step := step

end DomainToIP

end Serverbox
