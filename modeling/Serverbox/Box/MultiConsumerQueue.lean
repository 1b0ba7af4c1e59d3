import Mathlib.Data.Int.Notation
import Mathlib.Logic.Function.Basic
import Serverbox.Lib.Machine

/-!
# The multi-consumer queue

`mg::box::MCQBaseQueue` is a doubly linked list of blocks, the sub-queues, each a bounded array
with a read index for the consumers, and a flush and a write index for the only producer. The
producer fills the block `wpos` and goes on to the next one; every consumer stays in a block
until it is exhausted. A block which is read up and left by its last consumer is unlinked, reset
and appended to the tail.

Every load, store and exchange of data which is shared outside the lock is a step of its own. A
critical section of `myLock` is one step: what it accesses is protected by the lock, or belongs
to a block that no other thread refers to. The stores of the producer to cells behind the flush
index are made together with the update of its own fields, and before the exchange which follows:
nobody else reads these fields. In `FlushPending` the update stands behind the exchange, which
`Serverbox.Box.MultiConsumerQueueFlush` has as a step of its own; it is simulated by this queue. A
load of a cell which was not written since its block was reset counts as a failed assertion.

The history variables are the items of all the pushes called so far, the number of them made
visible, the items popped in the order of the exchanges of the read indices, and in each block
the number of items in front of it and the cells written since its last reset.

Source: `src/mg/box/MultiConsumerQueueBase.h`, `src/mg/box/MultiConsumerQueueBase.cpp`.

## Main definitions

* `MultiConsumerQueue.SubQueue`, `MultiConsumerQueue.State`: a block and the queue.
* `MultiConsumerQueue.SubQueue.push` and so on: the operations of the producer on a block.
* `MultiConsumerQueue.collect`: `PrivGarbageCollectLocked`.
* `MultiConsumerQueue.produce`, `MultiConsumerQueue.consume`: the steps of the producer and of a
  consumer.
* `MultiConsumerQueue.machine`: the transition system of one producer and any number of consumers.
-/

namespace Serverbox

namespace MultiConsumerQueue

variable {α Θ : Type*}

/-- The size of the sub-queues, and what is in the memory of a new one. -/
structure Config (α : Type*) where
  size : ℕ
  size_pos : 0 < size
  junk : ℕ → ℕ → Option α

/-- `MCQBaseSubQueue`. Cells hold an item or null. -/
structure SubQueue (α : Type*) where
  readIndex : ℕ
  flushIndex : ℕ
  writeIndex : ℕ
  firstPending : Option α
  cell : ℕ → Option α
  consumerCount : ℕ
  prev : Option ℕ
  next : Option ℕ
  base : ℕ
  written : ℕ → Bool

namespace SubQueue

/-- A store to a cell. -/
def store (q : SubQueue α) (i : ℕ) (x : Option α) : SubQueue α :=
  { q with cell := Function.update q.cell i x, written := Function.update q.written i true }

/-- `MCQBaseSubQueue::Reset`. -/
def reset (q : SubQueue α) : SubQueue α :=
  { q with
    readIndex := 0
    flushIndex := 0
    writeIndex := 0
    written := fun _ => false }.store 0 none

/-- The assertions of `MCQBaseSubQueue::Reset`. -/
def resettable (c : Config α) (q : SubQueue α) : Bool :=
  q.consumerCount == 0 && q.prev.isNone && q.next.isNone && q.readIndex == c.size &&
    q.writeIndex == c.size && q.flushIndex == c.size && q.firstPending.isNone

/-- `MCQBaseSubQueue::MCQBaseSubQueue`, for the block of the given name. -/
def new (c : Config α) (b : ℕ) : SubQueue α :=
  reset
    { readIndex := c.size
      flushIndex := c.size
      writeIndex := c.size
      firstPending := none
      cell := c.junk b
      consumerCount := 0
      prev := none
      next := none
      base := 0
      written := fun _ => false }

/-- What a push or a flush of a block leaves to be done: the item which the exchange makes
visible, its cell, and the truth value of the assertion made so far. -/
structure Publish (α : Type*) where
  cell : ℕ
  item : α
  ok : Bool

/-- `MCQBaseSubQueue::Push` up to its exchange, `none` when the block is full. -/
def push (c : Config α) (q : SubQueue α) (x : α) : Option (SubQueue α × Publish α) :=
  let windex := q.writeIndex
  let findex := q.flushIndex
  if windex = c.size then none
  else
    let q' := { q.store (windex + 1) none with
      writeIndex := windex + 1
      flushIndex := windex + 1 }
    match q.firstPending with
    | some old =>
      some ({ q'.store windex (some x) with firstPending := none },
        ⟨findex, old, decide (findex < windex)⟩)
    | none => some (q', ⟨findex, x, true⟩)

/-- `MCQBaseSubQueue::PushPending`, `none` when the block is full. -/
def pushPending (c : Config α) (q : SubQueue α) (x : α) : Option (SubQueue α) :=
  let windex := q.writeIndex
  if windex = c.size then none
  else if q.firstPending.isNone then
    some { q with firstPending := some x, writeIndex := windex + 1 }
  else some { q.store windex (some x) with writeIndex := windex + 1 }

/-- `MCQBaseSubQueue::FlushPending` up to its exchange, with the stores behind it, `none` when
nothing is pending. -/
def flushPending (q : SubQueue α) : Option (SubQueue α × Publish α) :=
  q.firstPending.map fun y =>
    ({ q.store q.writeIndex none with firstPending := none, flushIndex := q.writeIndex },
      ⟨q.flushIndex, y, decide (q.flushIndex < q.writeIndex)⟩)

end SubQueue

/-- What the producer does after it flushed the block in which it writes: it returns, or goes on
to the next block with an item for which there was no room. -/
inductive Cont (α : Type*)
  | ret (becameNotEmpty : Bool)
  | push (x : α) (becameNotEmpty : Bool)
  | pushPending (x : α) (becameNotEmpty : Bool)

/-- Where the producer is in the code of the queue. -/
inductive Producer (α : Type*)
  | idle
  | push (x : α)
  | subPush (x : α) (becameNotEmpty : Bool)
  | pushPending (x : α)
  | flush (x : Option α)
  | subFlush (k : Cont α)
  | publish (p : SubQueue.Publish α) (k : Cont α)
  | nextWpos (k : Cont α)
  | pushAgain (x : α) (becameNotEmpty : Bool)
  | pushPendingAgain (x : α) (becameNotEmpty : Bool)
  | reserve (n : ℕ)
  | done (becameNotEmpty : Bool)

/-- Where a consumer is in the code of the queue, with the block it is attached to. -/
inductive Consumer (α : Type*)
  | detached
  | attach
  | idle (b : ℕ)
  | loadIndex (b : ℕ)
  | loadCell (b r : ℕ)
  | casIndex (b r : ℕ) (x : α)
  | exhausted (b : ℕ)
  | popped (b : ℕ) (x : α)
  | done (b : ℕ) (res : Option α)
  | detach (b : ℕ)
  deriving DecidableEq

/-- `MCQBaseQueue`, the blocks being named by numbers, with the producer and the consumers. -/
structure State (α Θ : Type*) where
  block : ℕ → SubQueue α
  allocated : ℕ
  count : ℤ
  pendingCount : ℕ
  subQueueCount : ℕ
  consumerCount : ℤ
  head : ℕ
  wpos : ℕ
  tail : ℕ
  producer : Producer α
  consumer : Θ → Consumer α
  failed : Bool
  pushed : List α
  visible : ℕ
  popped : List α

/-- `MCQBaseQueue::MCQBaseQueue`, with all the consumers detached. -/
def State.new (c : Config α) : State α Θ where
  block b := SubQueue.new c b
  allocated := 1
  count := 0
  pendingCount := 0
  subQueueCount := 1
  consumerCount := 0
  head := 0
  wpos := 0
  tail := 0
  producer := .idle
  consumer _ := .detached
  failed := false
  pushed := []
  visible := 0
  popped := []

namespace State

/-- An assertion of the source. -/
def assert (s : State α Θ) (b : Bool) : State α Θ :=
  { s with failed := s.failed || !b }

/-- Change the fields of a block. -/
def modify (s : State α Θ) (b : ℕ) (f : SubQueue α → SubQueue α) : State α Θ :=
  { s with block := Function.update s.block b (f (s.block b)) }

/-- Move the producer. -/
def produceAt (s : State α Θ) (p : Producer α) : State α Θ :=
  { s with producer := p }

variable [DecidableEq Θ]

/-- Move a consumer. -/
def consumeAt (s : State α Θ) (θ : Θ) (p : Consumer α) : State α Θ :=
  { s with consumer := Function.update s.consumer θ p }

end State

/-- Create a block and append it to the tail of the list. -/
def appendBlock (c : Config α) (s : State α Θ) : State α Θ :=
  let b := s.allocated
  let s' := { s with allocated := b + 1, subQueueCount := s.subQueueCount + 1, tail := b }
  (s'.modify b fun _ => { SubQueue.new c b with prev := some s.tail }).modify s.tail fun q =>
    { q with next := some b }

/-- Append a number of new blocks. -/
def appendBlocks (c : Config α) : ℕ → State α Θ → State α Θ
  | 0, s => s
  | n + 1, s => appendBlocks c n (appendBlock c s)

/-- `MCQBaseQueue::Reserve` under the lock. -/
def reserve (c : Config α) (s : State α Θ) (n : ℕ) : State α Θ :=
  appendBlocks c (n / c.size + (if n % c.size ≠ 0 then 1 else 0) - s.subQueueCount) s

/-- `MCQBaseQueue::PrivNextWpos`. -/
def nextWpos (c : Config α) (s : State α Θ) : State α Θ :=
  let q := s.block s.wpos
  let s := s.assert (s.pendingCount == 0 && q.flushIndex == c.size)
  let moveTo (s : State α Θ) (b : ℕ) : State α Θ :=
    { s with wpos := b }.modify b fun q' => { q' with base := q.base + c.size }
  match q.next with
  | some b => moveTo s b
  | none => moveTo (appendBlock c s) (appendBlock c s).tail

/-- Unlink a block from its neighbours; `n` is the next one. -/
def unlink (s : State α Θ) (b n : ℕ) : State α Θ :=
  let s' := match (s.block b).prev with
    | none => { s.assert (b == s.head) with head := n }.modify n fun q => { q with prev := none }
    | some p => (s.modify p fun q => { q with next := some n }).modify n fun q =>
      { q with prev := some p }
  s'.modify b fun q => { q with next := none, prev := none }

/-- `MCQBaseQueue::PrivGarbageCollectLocked`. -/
def collect (c : Config α) (s : State α Θ) (b : ℕ) : State α Θ :=
  let q := s.block b
  if b = s.wpos then s
  else if q.consumerCount ≠ 0 then s
  else if q.readIndex < c.size then s
  else
    match q.next with
    | none => s.assert false
    | some n =>
      let s := unlink s b n
      let s := (s.assert ((s.block b).resettable c)).modify b SubQueue.reset
      let s := s.modify s.tail fun q => { q with next := some b }
      { s.modify b fun q => { q with prev := some s.tail } with tail := b }

/-- What the producer does after a flush. -/
def Cont.next : Cont α → Producer α
  | ret bne => .done bne
  | push x bne => .nextWpos (.push x bne)
  | pushPending x bne => .nextWpos (.pushPending x bne)

/-- The producer leaves the slow path of a push: the second try in the next block. -/
def Cont.again : Cont α → Producer α
  | ret bne => .done bne
  | push x bne => .pushAgain x bne
  | pushPending x bne => .pushPendingAgain x bne

/-- The producer has prepared an exchange in its block. -/
def publishing (s : State α Θ) (r : SubQueue α × SubQueue.Publish α) (k : Cont α) : State α Θ :=
  ((s.modify s.wpos fun _ => r.1).assert r.2.ok).produceAt (.publish r.2 k)

/-- The exchange which makes the items of the block visible. -/
def publish (s : State α Θ) (p : SubQueue.Publish α) (k : Cont α) : State α Θ :=
  let q := s.block s.wpos
  (({ s with visible := q.base + q.flushIndex }.modify s.wpos fun q =>
    q.store p.cell (some p.item)).assert (q.cell p.cell).isNone).produceAt k.next

/-- The next step of the producer. -/
def produce (c : Config α) (s : State α Θ) : Option (State α Θ) :=
  let q := s.block s.wpos
  match s.producer with
  | .idle => none
  | .push x =>
    let bne := s.count == 0
    some ({ s with count := s.count + (s.pendingCount + 1), pendingCount := 0 }.produceAt
      (.subPush x bne))
  | .subPush x bne =>
    match q.push c x with
    | some r => some (publishing s r (.ret bne))
    | none => some (s.produceAt (.subFlush (.push x bne)))
  | .pushPending x =>
    match q.pushPending c x with
    | some q' => some ({ s.modify s.wpos fun _ => q' with
        pendingCount := s.pendingCount + 1 }.produceAt (.done false))
    | none => some (s.produceAt (.flush (some x)))
  | .flush x =>
    let k := fun bne => match x with
      | none => .ret bne
      | some x => .pushPending x bne
    if s.pendingCount = 0 then some (s.produceAt (k false).next)
    else
      let bne := s.count == 0
      some ({ s with count := s.count + s.pendingCount, pendingCount := 0 }.produceAt
        (.subFlush (k bne)))
  | .subFlush k =>
    match q.flushPending with
    | some r => some (publishing s r k)
    | none => some (s.produceAt k.next)
  | .publish p k => some (publish s p k)
  | .nextWpos k => some ((nextWpos c s).produceAt k.again)
  | .pushAgain x bne =>
    match q.push c x with
    | some r => some (publishing s r (.ret bne))
    | none => some (s.produceAt (.done bne))
  | .pushPendingAgain x bne =>
    match q.pushPending c x with
    | some q' => some ({ s.modify s.wpos fun _ => q' with
        pendingCount := s.pendingCount + 1 }.produceAt (.done bne))
    | none => some ({ s with pendingCount := s.pendingCount + 1 }.produceAt (.done bne))
  | .reserve n => some ((reserve c s n).produceAt (.done false))
  | .done _ => none

variable [DecidableEq Θ]

/-- A consumer goes on with the read index it has got. -/
def withIndex (c : Config α) (s : State α Θ) (θ : Θ) (b r : ℕ) : State α Θ :=
  s.consumeAt θ (if r = c.size then .exhausted b else .loadCell b r)

/-- A consumer loads the cell at the read index. -/
def loadCell (s : State α Θ) (θ : Θ) (b r : ℕ) : State α Θ :=
  let q := s.block b
  (s.assert (q.written r)).consumeAt θ <|
    match q.cell r with
    | none => .done b none
    | some x => .casIndex b r x

/-- A consumer tries to exchange the read index; the weak exchange may fail spuriously. -/
def casIndex (c : Config α) (s : State α Θ) (θ : Θ) (b r : ℕ) (x : α) (spurious : Bool) :
    State α Θ :=
  if (s.block b).readIndex = r ∧ spurious = false then
    ({ s with popped := s.popped ++ [x] }.modify b fun q =>
      { q with readIndex := r + 1 }).consumeAt θ (.popped b x)
  else withIndex c s θ b (s.block b).readIndex

/-- A consumer leaves its exhausted block under the lock, or finds out that there is no other. -/
def leave (c : Config α) (s : State α Θ) (θ : Θ) (b : ℕ) : State α Θ :=
  if b = s.wpos then s.consumeAt θ (.done b none)
  else
    let s' := collect c (s.modify b fun q => { q with consumerCount := q.consumerCount - 1 }) b
    match (s.block b).next with
    | none => s'.assert false
    | some n =>
      (s'.modify n fun q => { q with consumerCount := q.consumerCount + 1 }).consumeAt θ
        (.loadIndex n)

/-- The next step of a consumer. -/
def consume (c : Config α) (s : State α Θ) (θ : Θ) (spurious : Bool) : Option (State α Θ) :=
  match s.consumer θ with
  | .detached => none
  | .attach => some ((s.modify s.head fun q =>
      { q with consumerCount := q.consumerCount + 1 }).consumeAt θ (.idle s.head))
  | .idle _ => none
  | .loadIndex b => some (withIndex c s θ b (s.block b).readIndex)
  | .loadCell b r => some (loadCell s θ b r)
  | .casIndex b r x => some (casIndex c s θ b r x spurious)
  | .exhausted b => some (leave c s θ b)
  | .popped b x => some ({ s with count := s.count - 1 }.consumeAt θ (.done b (some x)))
  | .done _ _ => none
  | .detach b =>
    some ((collect c (s.modify b fun q => { q with consumerCount := q.consumerCount - 1 }) b
      ).consumeAt θ .detached)

/-- The operations of the producer. -/
inductive Op (α : Type*)
  | push (x : α)
  | pushPending (x : α)
  | flushPending
  | reserve (n : ℕ)

/-- The producer calls an operation. -/
def call (s : State α Θ) : Op α → State α Θ
  | .push x => { s with pushed := s.pushed ++ [x] }.produceAt (.push x)
  | .pushPending x => { s with pushed := s.pushed ++ [x] }.produceAt (.pushPending x)
  | .flushPending => s.produceAt (.flush none)
  | .reserve n => s.produceAt (.reserve n)

/-- What can happen to the queue: the producer calls an operation, makes its next step or leaves
a finished operation, and so does a consumer. -/
inductive Action (α Θ : Type*)
  | call (op : Op α)
  | produce
  | ret
  | attach (θ : Θ)
  | pop (θ : Θ)
  | detach (θ : Θ)
  | consume (θ : Θ) (spurious : Bool)
  | popRet (θ : Θ)

/-- One step of the queue. -/
def step (c : Config α) (s : State α Θ) : Action α Θ → Option (State α Θ)
  | .call op => match s.producer with
    | .idle => some (call s op)
    | _ => none
  | .produce => produce c s
  | .ret => match s.producer with
    | .done _ => some (s.produceAt .idle)
    | _ => none
  | .attach θ => match s.consumer θ with
    | .detached => some ({ s with consumerCount := s.consumerCount + 1 }.consumeAt θ .attach)
    | _ => none
  | .pop θ => match s.consumer θ with
    | .idle b => some (s.consumeAt θ (.loadIndex b))
    | _ => none
  | .detach θ => match s.consumer θ with
    | .idle b =>
      some ({ s with consumerCount := s.consumerCount - 1 }.consumeAt θ (.detach b))
    | _ => none
  | .consume θ spurious => consume c s θ spurious
  | .popRet θ => match s.consumer θ with
    | .done b _ => some (s.consumeAt θ (.idle b))
    | _ => none

/-- One producer and any number of consumers, from the construction of the queue on. -/
def machine (c : Config α) (Θ : Type*) [DecidableEq Θ] : Machine (State α Θ) (Action α Θ) where
  init s := s = .new c
  step := step c

end MultiConsumerQueue

end Serverbox
