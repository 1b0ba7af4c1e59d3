import Mathlib.Logic.Function.Basic
import Serverbox.Box.Mutex
import Serverbox.Lib.Machine

/-!
# The signal

`mg::box::Signal` delivers a flag between threads. Its state word is empty, probed by a sender
which has not taken the lock yet, or signaled. Any number of threads may be inside `Send`,
`Receive`, `ReceiveBlocking` and `ReceiveTimed`; every access to the state word, to the lock and
to the condition variable is a step of its own.

Three history variables count what happened: `sends` the exchanges done by `Send`, `raised` those
of them which raised a new signal, `receipts` the successful receipts. The signals are numbered
in the order in which they were raised, and a thread in `Send` or back from a successful
receive remembers the number of its signal.

Source: `src/mg/box/Signal.h`, `src/mg/box/Signal.cpp`.

## Main definitions

* `Signal.State`: the signal with the program counters of all the threads.
* `Signal.sendCas`, `Signal.sendExchange`, `Signal.sendNotify`: the steps of `Send`.
* `Signal.tryReceive`: the exchange of `Receive`, shared by the three ways to receive.
* `Signal.machine`: the transition system of any number of senders and receivers.
-/

namespace Serverbox

namespace Signal

variable {Θ : Type*}

/-- The state word of the signal. -/
inductive Word
  | empty
  | probe
  | signaled
  deriving DecidableEq

/-- Which of the two sleeping receives a thread is in. -/
inductive Mode
  | blocking
  | timed
  deriving DecidableEq

/-- Where a thread is in the code of the signal. A receive ends with `some n` when it returned
true and consumed signal number `n`, with `none` when it returned false. -/
inductive Pc
  | idle
  | sendCas
  | sendLock (n : ℕ)
  | sendExchange (n : ℕ)
  | sendNotify
  | sendUnlock
  | receive
  | fast (m : Mode)
  | lock (m : Mode)
  | check (m : Mode)
  | wait (m : Mode)
  | waiting (m : Mode)
  | woken (m : Mode)
  | recheck
  | unlock (rc : Option ℕ)
  | done (rc : Option ℕ)
  deriving DecidableEq

/-- The signal: the state word, the lock, the threads blocked on the condition variable, and the
program counters. `failed` tells whether an assertion of the source has failed. -/
structure State (Θ : Type*) where
  word : Word
  lock : Mutex Θ
  cond : List Θ
  pc : Θ → Pc
  failed : Bool
  raised : ℕ
  sends : ℕ
  receipts : ℕ

/-- `Signal::Signal`, with all the threads outside. -/
def State.new : State Θ where
  word := .empty
  lock := .ofHolder none
  cond := []
  pc _ := .idle
  failed := false
  raised := 0
  sends := 0
  receipts := 0

/-- The operations a thread may call. -/
inductive Op
  | send
  | receive
  | receiveBlocking
  | receiveTimed

/-- The first step of an operation. -/
@[simp] def Op.entry : Op → Pc
  | send => .sendCas
  | receive => .receive
  | receiveBlocking => .fast .blocking
  | receiveTimed => .fast .timed

variable [DecidableEq Θ]

/-- Move the program counter of a thread. -/
def State.goto (s : State Θ) (θ : Θ) (p : Pc) : State Θ :=
  { s with pc := Function.update s.pc θ p }

/-- An assertion of the source. -/
def State.assert (s : State Θ) (b : Bool) : State Θ :=
  { s with failed := s.failed || !b }

/-- Take the lock; not enabled while another thread holds it. -/
def acquire (s : State Θ) (θ : Θ) (p : Pc) : Option (State Θ) :=
  (s.lock.lock θ).map fun r => ({ s with lock := r.1 }.assert r.2).goto θ p

/-- Release the lock. -/
def release (s : State Θ) (θ : Θ) (p : Pc) : State Θ :=
  let r := s.lock.unlock θ
  ({ s with lock := r.1 }.assert r.2).goto θ p

/-- The exchange of `Send` from empty to probe. -/
def sendCas (s : State Θ) (θ : Θ) : State Θ :=
  let s := { s with sends := s.sends + 1 }
  if s.word = .empty then
    { s with word := .probe, raised := s.raised + 1 }.goto θ (.sendLock (s.raised + 1))
  else s.goto θ .idle

/-- The exchange of `Send` to signaled, under the lock. -/
def sendExchange (s : State Θ) (θ : Θ) : State Θ :=
  ({ s with word := .signaled }.assert (decide (s.word = Word.probe))).goto θ .sendNotify

/-- A blocked thread starts to run again. -/
@[simp, grind] def Pc.wake : Pc → Pc
  | .waiting m => .woken m
  | p => p

/-- `myCond.Signal()` of `Send`: one of the blocked threads, if there are any, is woken. -/
def sendNotify (s : State Θ) (θ : Θ) (pick : ℕ) : Option (State Θ) :=
  if s.cond = [] then some (s.goto θ .sendUnlock)
  else s.cond[pick]?.map fun w =>
    ({ s with cond := s.cond.erase w }.goto w (s.pc w).wake).goto θ .sendUnlock

/-- `Receive`: the exchange from signaled to empty, going on to `ok` or to `fail`. -/
def tryReceive (s : State Θ) (θ : Θ) (ok : Option ℕ → Pc) (fail : Pc) : State Θ :=
  if s.word = .signaled then
    { s with word := .empty, receipts := s.receipts + 1 }.goto θ (ok (some s.raised))
  else s.goto θ fail

/-- `myCond.Wait` and `myCond.TimedWait` up to the sleep: the lock is given up and the thread
joins the blocked ones in one step. -/
def condWait (s : State Θ) (θ : Θ) (m : Mode) : State Θ :=
  let r := s.lock.condWait θ
  ({ s with lock := r.1, cond := s.cond ++ [θ] }.assert r.2).goto θ (.waiting m)

/-- The end of `myCond.Wait` and `myCond.TimedWait`: the lock is taken back. -/
def condRelock (s : State Θ) (θ : Θ) (p : Pc) : Option (State Θ) :=
  (s.lock.condRelock θ).map fun r => ({ s with lock := r.1 }.assert r.2).goto θ p

/-- The next step of a thread which runs. `pick` selects the thread which a notification wakes. -/
def next (s : State Θ) (θ : Θ) (pick : ℕ) : Option (State Θ) :=
  match s.pc θ with
  | .idle => none
  | .sendCas => some (sendCas s θ)
  | .sendLock n => acquire s θ (.sendExchange n)
  | .sendExchange _ => some (sendExchange s θ)
  | .sendNotify => sendNotify s θ pick
  | .sendUnlock => some (release s θ .idle)
  | .receive => some (tryReceive s θ .done (.done none))
  | .fast m => some (tryReceive s θ .done (.lock m))
  | .lock m => acquire s θ (.check m)
  | .check m => some (tryReceive s θ .unlock (.wait m))
  | .wait m => some (condWait s θ m)
  | .waiting _ => none
  | .woken .blocking => condRelock s θ (.check .blocking)
  | .woken .timed => condRelock s θ .recheck
  | .recheck => some (tryReceive s θ .unlock (.unlock none))
  | .unlock rc => some (release s θ (.done rc))
  | .done _ => none

/-- What can happen to the signal: a thread calls an operation, makes its next step, is woken by
a timeout or spuriously, or leaves a finished receive. -/
inductive Action (Θ : Type*)
  | call (θ : Θ) (op : Op)
  | next (θ : Θ) (pick : ℕ)
  | wake (θ : Θ)
  | ret (θ : Θ)

/-- One step of the signal and the threads in it. -/
def step (s : State Θ) : Action Θ → Option (State Θ)
  | .call θ op => if s.pc θ = .idle then some (s.goto θ op.entry) else none
  | .next θ pick => Signal.next s θ pick
  | .wake θ =>
    match s.pc θ with
    | .waiting m => some ({ s with cond := s.cond.erase θ }.goto θ (.woken m))
    | _ => none
  | .ret θ =>
    match s.pc θ with
    | .done _ => some (s.goto θ .idle)
    | _ => none

/-- Any number of threads which send and receive one signal, from its construction on. -/
def machine (Θ : Type*) [DecidableEq Θ] : Machine (State Θ) (Action Θ) where
  init s := s = .new
  step := step

end Signal

end Serverbox
