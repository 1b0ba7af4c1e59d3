import Serverbox.Box.Signal

/-!
# The interruptible mutex

`mg::box::InterruptibleMutex` is taken and freed by one exchange of its state word while nobody
waits. A thread which finds it taken joins a list of waiters under an internal lock; the first
one to join calls the interruptor, which is to wake up an owner that sleeps. `Unlock` hands the
ownership directly to the first waiter through the waiter's own signal.

Every access to the state word is a step, and so is every operation on the internal lock, on the
list of waiters and on the signals of the waiters. A signal is kept as its state word, on which
`Send` acts with two exchanges (`Signal.wordStep_of_step`). A thread stands for one session from
a call of `Lock` or `TryLock` to the end of the matching `Unlock`.

The history variables are the threads in the order in which they joined the waiters, in which
`Unlock` chose them, and in which they woke up as owners.

Source: `src/mg/box/InterruptibleMutex.h`, `src/mg/box/InterruptibleMutex.cpp`.

## Main definitions

* `InterruptibleMutex.State`: the mutex with the program counters of all the threads.
* `InterruptibleMutex.lockFetchOr`, `InterruptibleMutex.unlockPop` and so on: the steps.
* `InterruptibleMutex.machine`: the transition system of any number of threads.
-/

namespace Serverbox

namespace InterruptibleMutex

variable {Θ : Type*}

/-- The state word: the flags `INTERRUPTIBLE_MUTEX_TAKEN` and `INTERRUPTIBLE_MUTEX_HAS_WAITERS`. -/
structure Word where
  taken : Bool
  hasWaiters : Bool
  deriving DecidableEq

/-- Where a thread is in the code of the mutex. -/
inductive Pc (Θ : Type*)
  | idle
  | owner
  | tryLock
  | lockTry
  | lockAcquire
  | lockFetchOr
  | lockExchange
  | lockOwned
  | lockWakeup
  | lockAppend
  | lockRelease
  | lockWait
  | lockWoken
  | unlockCas
  | unlockAcquire
  | unlockPop
  | unlockAnd (w : Θ)
  | unlockSend (w : Θ)
  | unlockPublish (w : Θ)
  | unlockRelease

/-- The mutex: the state word, the internal lock, the waiters and the signal of each of them, and
the program counters. `failed` tells whether an assertion of the source has failed. -/
structure State (Θ : Type*) where
  word : Word
  lock : Mutex Θ
  waiters : List Θ
  signal : Θ → Signal.Word
  pc : Θ → Pc Θ
  failed : Bool
  enqueued : List Θ
  handed : List Θ
  granted : List Θ

/-- `InterruptibleMutex::InterruptibleMutex`, with all the threads outside. -/
def State.new : State Θ where
  word := ⟨false, false⟩
  lock := .ofHolder none
  waiters := []
  signal _ := .empty
  pc _ := .idle
  failed := false
  enqueued := []
  handed := []
  granted := []

variable [DecidableEq Θ]

/-- Move the program counter of a thread. -/
def State.goto (s : State Θ) (θ : Θ) (p : Pc Θ) : State Θ :=
  { s with pc := Function.update s.pc θ p }

/-- An assertion of the source. -/
def State.assert (s : State Θ) (b : Bool) : State Θ :=
  { s with failed := s.failed || !b }

/-- Set the state word of the signal of a waiter. -/
def State.setSignal (s : State Θ) (w : Θ) (x : Signal.Word) : State Θ :=
  { s with signal := Function.update s.signal w x }

/-- Take the internal lock; not enabled while another thread holds it. -/
def acquire (s : State Θ) (θ : Θ) (p : Pc Θ) : Option (State Θ) :=
  (s.lock.lock θ).map fun r => ({ s with lock := r.1 }.assert r.2).goto θ p

/-- Release the internal lock. -/
def release (s : State Θ) (θ : Θ) (p : Pc Θ) : State Θ :=
  let r := s.lock.unlock θ
  ({ s with lock := r.1 }.assert r.2).goto θ p

/-- `TryLock`: the exchange of a free mutex to a taken one. -/
def tryLock (s : State Θ) (θ : Θ) (fail : Pc Θ) : State Θ :=
  if s.word = ⟨false, false⟩ then { s with word := ⟨true, false⟩ }.goto θ .owner
  else s.goto θ fail

/-- `Lock` announces a waiter. If the mutex turns out to be free there is no other one; else the
thread prepares its own signal, and is to interrupt the owner when it is the first to wait. -/
def lockFetchOr (s : State Θ) (θ : Θ) : State Θ :=
  let s' := { s with word := { s.word with hasWaiters := true } }
  if s.word.taken = false then (s'.assert s.waiters.isEmpty).goto θ .lockExchange
  else (s'.setSignal θ .empty).goto θ (if s.waiters.isEmpty then .lockWakeup else .lockAppend)

/-- `Lock` takes a mutex which it found free under the internal lock. -/
def lockExchange (s : State Θ) (θ : Θ) : State Θ :=
  ({ s with word := ⟨true, false⟩ }.assert (decide (s.word = Word.mk false true))).goto θ .lockOwned

/-- `Lock` joins the waiters. -/
def lockAppend (s : State Θ) (θ : Θ) : State Θ :=
  { s with waiters := s.waiters ++ [θ], enqueued := s.enqueued ++ [θ] }.goto θ .lockRelease

/-- `Lock` waits for its signal; not enabled before it is set. -/
def lockWait (s : State Θ) (θ : Θ) : Option (State Θ) :=
  if s.signal θ = .signaled then
    some (({ s with granted := s.granted ++ [θ] }.setSignal θ .empty).goto θ .lockWoken)
  else none

/-- The last assertion of `Lock`. -/
def lockWoken (s : State Θ) (θ : Θ) : State Θ :=
  (s.assert s.word.taken).goto θ .owner

/-- `Unlock` frees a mutex nobody waits for. -/
def unlockCas (s : State Θ) (θ : Θ) : State Θ :=
  if s.word = ⟨true, false⟩ then { s with word := ⟨false, false⟩ }.goto θ .idle
  else (s.assert (decide (s.word = Word.mk true true))).goto θ .unlockAcquire

/-- `Unlock` pops the first waiter. -/
def unlockPop (s : State Θ) (θ : Θ) : Option (State Θ) :=
  match s.waiters with
  | [] => some (s.assert false)
  | w :: ws => some ({ s with waiters := ws, handed := s.handed ++ [w] }.goto θ (.unlockAnd w))

/-- `Unlock` clears the flag of the waiters when it popped the last one. -/
def unlockAnd (s : State Θ) (θ w : Θ) : State Θ :=
  let s' := if s.waiters.isEmpty then { s with word := { s.word with hasWaiters := false } } else s
  (s'.assert (s.word.taken && s.word.hasWaiters)).goto θ (.unlockSend w)

/-- `Unlock` signals the waiter: the first exchange of `Signal::Send`. -/
def unlockSend (s : State Θ) (θ w : Θ) : State Θ :=
  if s.signal w = .empty then (s.setSignal w .probe).goto θ (.unlockPublish w)
  else s.goto θ .unlockRelease

/-- The second exchange of `Signal::Send`. -/
def unlockPublish (s : State Θ) (θ w : Θ) : State Θ :=
  ((s.setSignal w .signaled).assert (decide (s.signal w = Signal.Word.probe))).goto θ .unlockRelease

/-- The next step of a thread. -/
def next (s : State Θ) (θ : Θ) : Option (State Θ) :=
  match s.pc θ with
  | .idle => none
  | .owner => none
  | .tryLock => some (tryLock s θ .idle)
  | .lockTry => some (tryLock s θ .lockAcquire)
  | .lockAcquire => acquire s θ .lockFetchOr
  | .lockFetchOr => some (lockFetchOr s θ)
  | .lockExchange => some (lockExchange s θ)
  | .lockOwned => some (release s θ .owner)
  | .lockWakeup => some (s.goto θ .lockAppend)
  | .lockAppend => some (lockAppend s θ)
  | .lockRelease => some (release s θ .lockWait)
  | .lockWait => lockWait s θ
  | .lockWoken => some (lockWoken s θ)
  | .unlockCas => some (unlockCas s θ)
  | .unlockAcquire => acquire s θ .unlockPop
  | .unlockPop => unlockPop s θ
  | .unlockAnd w => some (unlockAnd s θ w)
  | .unlockSend w => some (unlockSend s θ w)
  | .unlockPublish w => some (unlockPublish s θ w)
  | .unlockRelease => some (release s θ .idle)

/-- The operations a thread may call. -/
inductive Op
  | lock
  | tryLock
  | unlock
  deriving DecidableEq

/-- What can happen to the mutex: a thread calls an operation or makes its next step. -/
inductive Action (Θ : Type*)
  | call (θ : Θ) (op : Op)
  | next (θ : Θ)

/-- One step of the mutex. Only the owner unlocks it. -/
def step (s : State Θ) : Action Θ → Option (State Θ)
  | .call θ .lock => match s.pc θ with
    | .idle => some (s.goto θ .lockTry)
    | _ => none
  | .call θ .tryLock => match s.pc θ with
    | .idle => some (s.goto θ .tryLock)
    | _ => none
  | .call θ .unlock => match s.pc θ with
    | .owner => some (s.goto θ .unlockCas)
    | _ => none
  | .next θ => InterruptibleMutex.next s θ

/-- Any number of threads which lock and unlock one mutex, from its construction on. -/
def machine (Θ : Type*) [DecidableEq Θ] : Machine (State Θ) (Action Θ) where
  init s := s = .new
  step := step

end InterruptibleMutex

end Serverbox
