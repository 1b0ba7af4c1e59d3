import Serverbox.Box.MultiConsumerQueue
import Serverbox.Lib.Census
import Serverbox.Lib.DoublyLinked
import Mathlib.Data.List.Chain

/-!
# The invariant of the multi-consumer queue

The blocks form a list: the ones before `wpos`, which are full; `wpos`, in which the producer
writes; the ones after it, which are reset. The base of a block is the position of its first
item among all the pushed ones, and the read indices of all the blocks are determined by the
number of items popped so far.

## Main definitions

* `MultiConsumerQueue.Chain`: the list of the blocks.
* `MultiConsumerQueue.Data`: what the blocks hold.
* `MultiConsumerQueue.Writing`: the block in which the producer writes, at every program point
  of the producer.
* `MultiConsumerQueue.Consumers`: where the consumers are.
* `MultiConsumerQueue.Inv`: the invariant.
-/

namespace Serverbox

namespace MultiConsumerQueue

open DoublyLinked

variable {α Θ : Type*}

/-- The list of the blocks: the ones before `wpos` and the ones after it. -/
structure Chain (s : State α Θ) (before after : List ℕ) : Prop where
  linked : Seg (fun b => (s.block b).next) (fun b => (s.block b).prev) none
    (before ++ s.wpos :: after) none
  nodup : (before ++ s.wpos :: after).Nodup
  allocated : ∀ b ∈ before ++ s.wpos :: after, b < s.allocated
  head_eq : (before ++ [s.wpos]).head? = some s.head
  tail_eq : (s.wpos :: after).getLast? = some s.tail
  subQueueCount_eq : s.subQueueCount = (before ++ s.wpos :: after).length

/-- A block which is filled up with visible items. -/
structure SubQueue.Full (c : Config α) (q : SubQueue α) (pushed : List α) : Prop where
  flushIndex_eq : q.flushIndex = c.size
  writeIndex_eq : q.writeIndex = c.size
  firstPending_eq : q.firstPending = none
  cells : ∀ i < c.size, q.cell i = pushed[q.base + i]? ∧ q.written i = true

/-- A block which is reset. -/
structure SubQueue.Fresh (q : SubQueue α) : Prop where
  readIndex_eq : q.readIndex = 0
  flushIndex_eq : q.flushIndex = 0
  writeIndex_eq : q.writeIndex = 0
  firstPending_eq : q.firstPending = none
  cell_eq : q.cell 0 = none
  written_eq : q.written 0 = true

/-- The item of a push which is not stored in a block yet. -/
def Cont.holding : Cont α → List α
  | ret _ => []
  | push x _ | pushPending x _ => [x]

/-- The item of a push which is not stored in a block yet. -/
def Producer.holding : Producer α → List α
  | idle | reserve _ | done _ => []
  | push x | subPush x _ | pushPending x | pushAgain x _ | pushPendingAgain x _ => [x]
  | flush x => x.toList
  | subFlush k | publish _ k | nextWpos k => k.holding

/-- The producer goes on to the next block after the flush. -/
def Cont.moves : Cont α → Bool
  | ret _ => false
  | push _ _ | pushPending _ _ => true

/-- The front of the pending items at every program point of the producer: the first one is
saved in the block, or in the hands of the producer just before the exchange. -/
def Front (q : SubQueue α) (pushed : List α) (visible : ℕ) : Producer α → Prop
  | .publish p _ => q.base + p.cell = visible ∧ visible < q.base + q.writeIndex ∧
      pushed[visible]? = some p.item ∧ q.firstPending = none ∧ q.flushIndex = q.writeIndex ∧
      q.cell q.writeIndex = none ∧ q.written q.writeIndex = true
  | _ => q.base + q.flushIndex = visible ∧
      q.firstPending = if visible < q.base + q.writeIndex then pushed[visible]? else none

/-- The number of pending items at every program point of the producer, and when its block is
full or reset. -/
def Phase (c : Config α) (q : SubQueue α) (visible pendingCount : ℕ) : Producer α → Prop
  | .idle | .push _ | .pushPending _ | .flush none | .reserve _ | .done _ =>
    pendingCount + visible = q.base + q.writeIndex
  | .flush (some _) => pendingCount + visible = q.base + q.writeIndex ∧ q.writeIndex = c.size
  | .subPush _ _ => pendingCount = 0
  | .subFlush k | .publish _ k => pendingCount = 0 ∧ (k.moves = true → q.writeIndex = c.size)
  | .nextWpos _ => pendingCount = 0 ∧ visible = q.base + q.writeIndex ∧ q.writeIndex = c.size
  | .pushAgain _ _ | .pushPendingAgain _ _ =>
    pendingCount = 0 ∧ q.writeIndex = 0 ∧ visible = q.base

/-- The block in which the producer writes. -/
structure Writing (c : Config α) (q : SubQueue α) (pushed : List α) (visible pendingCount : ℕ)
    (p : Producer α) : Prop where
  writeIndex_le : q.writeIndex ≤ c.size
  base_le : q.base ≤ visible
  visible_le : visible ≤ q.base + q.writeIndex
  cells : ∀ i, q.base + i < visible → q.cell i = pushed[q.base + i]? ∧ q.written i = true
  null : q.cell (visible - q.base) = none ∧ q.written (visible - q.base) = true
  pending : ∀ i, visible < q.base + i → i < q.writeIndex →
    q.cell i = pushed[q.base + i]? ∧ q.written i = true
  stored : ∃ l, pushed = l ++ p.holding ∧ l.length = q.base + q.writeIndex
  front : Front q pushed visible p
  phase : Phase c q visible pendingCount p

/-- What the blocks hold. -/
structure Data (c : Config α) (s : State α Θ) (before after : List ℕ) : Prop where
  popped_le : s.popped.length ≤ s.visible
  popped_eq : s.popped = s.pushed.take s.popped.length
  full : ∀ b ∈ before, (s.block b).Full c s.pushed
  writing : Writing c (s.block s.wpos) s.pushed s.visible s.pendingCount s.producer
  fresh : ∀ b ∈ after, (s.block b).Fresh
  spaced : (before ++ [s.wpos]).Pairwise fun a b => (s.block a).base + c.size ≤ (s.block b).base
  dense : (before ++ [s.wpos]).IsChain fun a b =>
    (s.block b).base ≤ max s.popped.length ((s.block a).base + c.size)
  reached : ∀ b ∈ (before ++ [s.wpos]).head?, (s.block b).base ≤ s.popped.length
  read : ∀ b ∈ before ++ [s.wpos],
    (s.block b).readIndex = min c.size (s.popped.length - (s.block b).base)

/-- The block to which a consumer is attached. -/
def Consumer.block : Consumer α → Option ℕ
  | detached | attach => none
  | idle b | loadIndex b | loadCell b _ | casIndex b _ _ | exhausted b | popped b _ | done b _
  | detach b => some b

/-- What a consumer knows at its program point. -/
def Consumer.Knows (c : Config α) (s : State α Θ) : Consumer α → Prop
  | loadCell b r => r < c.size ∧ r ≤ (s.block b).readIndex
  | casIndex b r x => r < c.size ∧ (s.block b).base + r < s.visible ∧
      s.pushed[(s.block b).base + r]? = some x
  | exhausted b => (s.block b).readIndex = c.size
  | _ => True

/-- Where the consumers are. -/
structure Consumers (c : Config α) (s : State α Θ) (before after : List ℕ) : Prop where
  attached : ∀ θ b, (s.consumer θ).block = some b →
    b ∈ before ++ [s.wpos] ∧ (s.block b).base ≤ s.popped.length
  knows : ∀ θ, (s.consumer θ).Knows c s
  counted : ∀ b ∈ before ++ s.wpos :: after,
    Census (fun θ => (s.consumer θ).block = some b) (s.block b).consumerCount

/-- The invariant of the queue, for the given blocks before and after `wpos`. -/
structure InvAt (c : Config α) (s : State α Θ) (before after : List ℕ) : Prop where
  chain : Chain s before after
  data : Data c s before after
  consumers : Consumers c s before after
  not_failed : s.failed = false

/-- The invariant of the queue. -/
def Inv (c : Config α) (s : State α Θ) : Prop :=
  ∃ before after, InvAt c s before after

section Store

variable (q : SubQueue α) (i j : ℕ) (x : Option α)

@[simp] theorem SubQueue.store_cell :
    (q.store i x).cell j = if j = i then x else q.cell j := by
  simp [SubQueue.store, Function.update_apply]

@[simp] theorem SubQueue.store_written :
    (q.store i x).written j = if j = i then true else q.written j := by
  simp [SubQueue.store, Function.update_apply]

@[simp] theorem SubQueue.store_base : (q.store i x).base = q.base := rfl
@[simp] theorem SubQueue.store_readIndex : (q.store i x).readIndex = q.readIndex := rfl
@[simp] theorem SubQueue.store_flushIndex : (q.store i x).flushIndex = q.flushIndex := rfl
@[simp] theorem SubQueue.store_writeIndex : (q.store i x).writeIndex = q.writeIndex := rfl
@[simp] theorem SubQueue.store_next : (q.store i x).next = q.next := rfl
@[simp] theorem SubQueue.store_prev : (q.store i x).prev = q.prev := rfl
@[simp] theorem SubQueue.store_consumerCount :
    (q.store i x).consumerCount = q.consumerCount := rfl
@[simp] theorem SubQueue.store_firstPending :
    (q.store i x).firstPending = q.firstPending := rfl

end Store

section Modify

variable (s : State α Θ) (b x : ℕ) (f : SubQueue α → SubQueue α)

@[simp] theorem State.modify_block :
    (s.modify b f).block x = if x = b then f (s.block b) else s.block x := by
  simp [State.modify, Function.update_apply]

@[simp] theorem State.modify_wpos : (s.modify b f).wpos = s.wpos := rfl
@[simp] theorem State.modify_head : (s.modify b f).head = s.head := rfl
@[simp] theorem State.modify_tail : (s.modify b f).tail = s.tail := rfl
@[simp] theorem State.modify_allocated : (s.modify b f).allocated = s.allocated := rfl
@[simp] theorem State.modify_producer : (s.modify b f).producer = s.producer := rfl
@[simp] theorem State.modify_consumer : (s.modify b f).consumer = s.consumer := rfl
@[simp] theorem State.modify_failed : (s.modify b f).failed = s.failed := rfl
@[simp] theorem State.modify_pushed : (s.modify b f).pushed = s.pushed := rfl
@[simp] theorem State.modify_visible : (s.modify b f).visible = s.visible := rfl
@[simp] theorem State.modify_popped : (s.modify b f).popped = s.popped := rfl
@[simp] theorem State.modify_count : (s.modify b f).count = s.count := rfl
@[simp] theorem State.modify_pendingCount :
    (s.modify b f).pendingCount = s.pendingCount := rfl
@[simp] theorem State.modify_subQueueCount :
    (s.modify b f).subQueueCount = s.subQueueCount := rfl

end Modify

/-- Two blocks are the same apart from their links and the counts of their consumers. -/
structure SubQueue.Same (q q' : SubQueue α) : Prop where
  readIndex : q'.readIndex = q.readIndex
  flushIndex : q'.flushIndex = q.flushIndex
  writeIndex : q'.writeIndex = q.writeIndex
  firstPending : q'.firstPending = q.firstPending
  cell : q'.cell = q.cell
  base : q'.base = q.base
  written : q'.written = q.written

theorem SubQueue.Same.refl (q : SubQueue α) : Same q q := ⟨rfl, rfl, rfl, rfl, rfl, rfl, rfl⟩

variable {c : Config α} {s s' : State α Θ} {before after : List ℕ}

/-- The list of the blocks depends on their links only. -/
theorem Chain.congr (h : Chain s before after)
    (hn : ∀ b, (s'.block b).next = (s.block b).next)
    (hp : ∀ b, (s'.block b).prev = (s.block b).prev) (hw : s'.wpos = s.wpos)
    (hh : s'.head = s.head) (ht : s'.tail = s.tail) (ha : s'.allocated = s.allocated)
    (hc : s'.subQueueCount = s.subQueueCount) : Chain s' before after where
  linked := by
    rw [hw]
    exact h.linked.congr (fun b _ => hn b) fun b _ => hp b
  nodup := hw ▸ h.nodup
  allocated := by
    rw [hw, ha]
    exact h.allocated
  head_eq := by rw [hw, hh, h.head_eq]
  tail_eq := by rw [hw, ht, h.tail_eq]
  subQueueCount_eq := by rw [hw, hc, h.subQueueCount_eq]

theorem Front.congr {q q' : SubQueue α} {pushed : List α} {visible : ℕ} {p : Producer α}
    (h : Front q pushed visible p) (hs : q.Same q') : Front q' pushed visible p := by
  cases p <;> simp only [Front] at h ⊢ <;>
    rw [hs.base, hs.writeIndex, hs.flushIndex, hs.firstPending]
  case publish =>
    rw [hs.cell, hs.written]
    exact h
  all_goals exact h

theorem Phase.congr {q q' : SubQueue α} {visible pending : ℕ} {p : Producer α}
    (h : Phase c q visible pending p) (hs : q.Same q') : Phase c q' visible pending p := by
  cases p with
  | flush x => cases x <;> simpa only [Phase, hs.base, hs.writeIndex] using h
  | _ => simpa only [Phase, hs.base, hs.writeIndex] using h

/-- The state of the block in which the producer writes depends on its data only. -/
theorem Writing.congr {q q' : SubQueue α} {pushed : List α} {visible pending : ℕ}
    {p : Producer α} (h : Writing c q pushed visible pending p) (hs : q.Same q') :
    Writing c q' pushed visible pending p := by
  obtain ⟨h₁, h₂, h₃, h₄, h₅, h₆, h₇, h₈, h₉⟩ := h
  refine ⟨?_, ?_, ?_, ?_, ?_, ?_, ?_, h₈.congr hs, h₉.congr hs⟩
  · rwa [hs.writeIndex]
  · rwa [hs.base]
  · rwa [hs.base, hs.writeIndex]
  · rwa [hs.base, hs.cell, hs.written]
  · rwa [hs.base, hs.cell, hs.written]
  · rwa [hs.base, hs.writeIndex, hs.cell, hs.written]
  · rwa [hs.base, hs.writeIndex]

theorem SubQueue.Full.congr {q q' : SubQueue α} {pushed : List α} (h : q.Full c pushed)
    (hs : q.Same q') : q'.Full c pushed := by
  obtain ⟨h₁, h₂, h₃, h₄⟩ := h
  refine ⟨hs.flushIndex.trans h₁, hs.writeIndex.trans h₂, hs.firstPending.trans h₃, ?_⟩
  rwa [hs.base, hs.cell, hs.written]

theorem SubQueue.Fresh.congr {q q' : SubQueue α} (h : q.Fresh) (hs : q.Same q') : q'.Fresh := by
  obtain ⟨h₁, h₂, h₃, h₄, h₅, h₆⟩ := h
  exact ⟨hs.readIndex.trans h₁, hs.flushIndex.trans h₂, hs.writeIndex.trans h₃,
    hs.firstPending.trans h₄, by rw [hs.cell, h₅], by rw [hs.written, h₆]⟩

theorem mem_chain_of_mem_used {b : ℕ} (hb : b ∈ before ++ [s.wpos]) :
    b ∈ before ++ s.wpos :: after := by
  simp only [List.mem_append, List.mem_cons, List.not_mem_nil, or_false] at hb ⊢
  exact hb.imp_right .inl

/-- What the blocks hold depends on the data of the blocks in the list only. -/
theorem Data.congr (h : Data c s before after) (hw : s'.wpos = s.wpos)
    (hd : ∀ b ∈ before ++ s.wpos :: after, (s.block b).Same (s'.block b))
    (hpush : s'.pushed = s.pushed) (hv : s'.visible = s.visible) (hpop : s'.popped = s.popped)
    (hprod : s'.producer = s.producer) (hpend : s'.pendingCount = s.pendingCount) :
    Data c s' before after := by
  have hused : ∀ b ∈ before ++ [s.wpos], (s.block b).Same (s'.block b) := fun b hb =>
    hd b (mem_chain_of_mem_used hb)
  constructor
  · rw [hpop, hv]
    exact h.popped_le
  · rw [hpop, hpush]
    exact h.popped_eq
  · rw [hpush]
    exact fun b hb => (h.full b hb).congr (hused b (List.mem_append_left _ hb))
  · rw [hw, hpush, hv, hpend, hprod]
    exact h.writing.congr (hused s.wpos (by simp))
  · exact fun b hb => (h.fresh b hb).congr (hd b (by simp [hb]))
  · rw [hw]
    refine h.spaced.imp_of_mem fun ha hb hle => ?_
    rwa [(hused _ ha).base, (hused _ hb).base]
  · rw [hw, hpop]
    refine h.dense.imp_of_mem_imp fun a b ha hb hle => ?_
    rwa [(hused a ha).base, (hused b hb).base]
  · rw [hw, hpop]
    intro b hb
    rw [(hused b (List.mem_of_mem_head? hb)).base]
    exact h.reached b hb
  · rw [hw, hpop]
    intro b hb
    rw [(hused b hb).base, (hused b hb).readIndex]
    exact h.read b hb

end MultiConsumerQueue

end Serverbox
