import Mathlib.Data.Int.Order.Basic
import Serverbox.Box.MultiConsumerQueueOrder

/-!
# The count of the items

The count of the multi-consumer queue is increased by the producer before it makes the items
visible, and decreased by a consumer after it has taken its item. So it is never less than the
number of the visible items which were not popped. An operation of the producer returns whether the
count was zero just before it was increased, and then it finds no visible item which was not popped
when it makes the first of its items visible.

## Main definitions

* `MultiConsumerQueue.Counted`: what the count consists of.
* `MultiConsumerQueue.Drained`: every visible item was popped and subtracted from the count.
* `MultiConsumerQueue.Told`: what an operation in progress has done since its call.

## Main results

* `MultiConsumerQueue.count_law`: the bounds of the count, and what the operations return.
* `MultiConsumerQueue.in_hand_missed`: an operation returns false though there was no visible item
  to be popped, since the count was not decreased yet.
-/

namespace Serverbox

namespace MultiConsumerQueue

variable {α Θ : Type*} {c : Config α} {s s' : State α Θ} {before after : List ℕ}

/-- A consumer has taken an item which it has not subtracted from the count yet. -/
def Consumer.inHand : Consumer α → Bool
  | popped _ _ => true
  | _ => false

/-- The number of items which were given to the producer but added neither to the count nor to the
pending count. -/
def Cont.uncounted : Cont α → ℕ
  | ret _ | push _ _ => 0
  | pushPending _ _ => 1

/-- The number of items which were given to the producer but added neither to the count nor to the
pending count. -/
def Producer.uncounted : Producer α → ℕ
  | idle | reserve _ | done _ | subPush _ _ | pushAgain _ _ => 0
  | push _ | pushPending _ | pushPendingAgain _ _ => 1
  | flush x => x.toList.length
  | subFlush k | publish _ k | nextWpos k => k.uncounted

/-- What the operation in progress will return. -/
def Cont.result : Cont α → Bool
  | ret bne | push _ bne | pushPending _ bne => bne

/-- What the operation in progress will return, once it is known. -/
def Producer.result : Producer α → Option Bool
  | idle | push _ | pushPending _ | flush _ | reserve _ => none
  | subPush _ bne | pushAgain _ bne | pushPendingAgain _ bne | done bne => some bne
  | subFlush k | publish _ k | nextWpos k => some k.result

/-- The operation in progress is bound to make an item visible, for the given numbers of the visible
and of the pushed items. -/
def Producer.Owes (visible pushed : ℕ) : Producer α → Prop
  | subPush _ _ | pushAgain _ _ | publish _ _ | subFlush (.push _ _) | nextWpos (.push _ _) => True
  | subFlush k => visible + k.holding.length < pushed
  | _ => False

/-- Every visible item was popped, and none of them is in the hands of a consumer. -/
structure Drained (s : State α Θ) : Prop where
  popped : s.popped.length = s.visible
  hands : ∀ θ, (s.consumer θ).inHand = false

/-- The count consists of the items which were pushed and counted but not popped, and of the items
in the hands of consumers. -/
def Counted (s : State α Θ) : Prop :=
  ∃ n : ℕ, Census (fun θ => (s.consumer θ).inHand = true) n ∧
    s.count + s.pendingCount + s.producer.uncounted + s.popped.length = s.pushed.length + n

/-- What a step of the producer does to the count. -/
theorem produce_count (hs : produce c s = some s') :
    s'.count + s'.pendingCount + s'.producer.uncounted =
      s.count + s.pendingCount + s.producer.uncounted := by
  unfold produce at hs
  cases hp : s.producer with
  | idle | done _ => simp [hp] at hs
  | push x =>
    simp only [hp, Option.some.injEq] at hs
    subst hs
    simp only [State.produceAt, Producer.uncounted]
    push_cast
    omega
  | publish p k =>
    simp only [hp, Option.some.injEq] at hs
    subst hs
    cases k <;> rfl
  | nextWpos k =>
    simp only [hp, Option.some.injEq] at hs
    subst hs
    have hframe : (nextWpos c s).count = s.count ∧
        (nextWpos c s).pendingCount = s.pendingCount := by
      simp only [nextWpos]
      cases (s.block s.wpos).next <;> exact ⟨rfl, rfl⟩
    simp only [State.produceAt, hframe.1, hframe.2]
    cases k <;> rfl
  | reserve n =>
    simp only [hp, Option.some.injEq] at hs
    subst hs
    obtain ⟨-, hpend, hcount, -⟩ := appendBlocks_frame c
      (n / c.size + (if n % c.size ≠ 0 then 1 else 0) - s.subQueueCount) s
    simp only [State.produceAt, reserve, hpend, hcount]
    rfl
  | subPush x bne | pushAgain x bne =>
    simp only [hp] at hs
    split at hs <;> cases hs <;> rfl
  | pushPending x | pushPendingAgain x bne =>
    simp only [hp] at hs
    split at hs <;> cases hs
    all_goals
      simp only [State.produceAt, State.modify, Producer.uncounted, Option.toList_some,
        List.length_singleton, Int.natCast_add]
    all_goals omega
  | flush x =>
    simp only [hp] at hs
    split at hs
    · cases hs
      cases x <;> rfl
    · cases hs
      cases x <;> simp [State.produceAt, Producer.uncounted, Cont.uncounted]
  | subFlush k =>
    simp only [hp] at hs
    split at hs <;> cases hs <;> cases k <;> rfl

variable [DecidableEq Θ]

/-- What a step of a consumer leaves, and what it does to the count. -/
theorem consume_count {θ : Θ} {spurious : Bool} (hs : consume c s θ spurious = some s') :
    (s'.producer = s.producer ∧ s'.pushed = s.pushed ∧ s'.visible = s.visible ∧
      s'.pendingCount = s.pendingCount) ∧ s.popped.length ≤ s'.popped.length ∧
    s'.count + s'.popped.length + (s.consumer θ).inHand.toNat =
      s.count + s.popped.length + (s'.consumer θ).inHand.toNat ∧
    s'.count ≤ s.count := by
  unfold consume at hs
  cases hc : s.consumer θ with
  | detached | idle _ | done _ _ => simp [hc] at hs
  | attach =>
    simp only [hc, Option.some.injEq] at hs
    subst hs
    exact ⟨⟨rfl, rfl, rfl, rfl⟩, le_refl s.popped.length,
      by simp [Consumer.inHand, State.consumeAt, State.modify], le_refl s.count⟩
  | popped b x =>
    simp only [hc, Option.some.injEq] at hs
    subst hs
    refine ⟨⟨rfl, rfl, rfl, rfl⟩, le_refl s.popped.length, ?_, ?_⟩
    · simp [Consumer.inHand, State.consumeAt]
      omega
    · show s.count - 1 ≤ s.count
      omega
  | loadIndex b =>
    simp only [hc, Option.some.injEq, withIndex] at hs
    subst hs
    refine ⟨⟨rfl, rfl, rfl, rfl⟩, le_rfl, ?_, le_rfl⟩
    simp only [State.consumeAt_consumer, if_true]
    split <;> rfl
  | loadCell b r =>
    simp only [hc, Option.some.injEq, loadCell] at hs
    subst hs
    refine ⟨⟨rfl, rfl, rfl, rfl⟩, le_rfl, ?_, le_rfl⟩
    simp only [State.consumeAt_consumer, if_true]
    split <;> rfl
  | casIndex b r x =>
    simp only [hc, Option.some.injEq, casIndex, withIndex] at hs
    split at hs <;> subst hs
    · refine ⟨⟨rfl, rfl, rfl, rfl⟩, by simp [State.consumeAt, State.modify], ?_, le_rfl⟩
      simp [Consumer.inHand, State.consumeAt, State.modify]
      omega
    · refine ⟨⟨rfl, rfl, rfl, rfl⟩, le_rfl, ?_, le_rfl⟩
      simp only [State.consumeAt_consumer, if_true]
      split <;> rfl
  | exhausted b =>
    simp only [hc, Option.some.injEq, leave] at hs
    have hrec := recycles_collect c (s.modify b fun q =>
      { q with consumerCount := q.consumerCount - 1 }) b
    split at hs
    · subst hs
      exact ⟨⟨rfl, rfl, rfl, rfl⟩, le_rfl, by simp [Consumer.inHand, State.consumeAt], le_rfl⟩
    · have hframe : ∀ t : State α Θ, t.producer = (collect c (s.modify b fun q =>
          { q with consumerCount := q.consumerCount - 1 }) b).producer → t.pushed = _ →
          t.visible = _ → t.pendingCount = _ → t.popped = _ → t.count = _ →
          (t.consumer θ).inHand = false → _ := fun t h₁ h₂ h₃ h₄ h₅ h₆ h₇ =>
        (⟨⟨h₁.trans hrec.producer, h₂.trans hrec.pushed, h₃.trans hrec.visible,
          h₄.trans hrec.pendingCount⟩, (congrArg List.length (h₅.trans hrec.popped)).ge, by
            rw [h₅.trans hrec.popped, h₆.trans hrec.count, h₇]; rfl,
          (h₆.trans hrec.count).le⟩ : (t.producer = s.producer ∧ t.pushed = s.pushed ∧
            t.visible = s.visible ∧ t.pendingCount = s.pendingCount) ∧
            s.popped.length ≤ t.popped.length ∧
            t.count + t.popped.length + (Consumer.exhausted (α := α) b).inHand.toNat =
              s.count + s.popped.length + (t.consumer θ).inHand.toNat ∧ t.count ≤ s.count)
      split at hs <;> subst hs
      · refine hframe _ rfl rfl rfl rfl rfl rfl ?_
        simp [State.assert, hrec.consumer, hc, Consumer.inHand]
      · refine hframe _ rfl rfl rfl rfl rfl rfl ?_
        simp [Consumer.inHand]
  | detach b =>
    simp only [hc, Option.some.injEq] at hs
    have hrec := recycles_collect c (s.modify b fun q =>
      { q with consumerCount := q.consumerCount - 1 }) b
    subst hs
    refine ⟨⟨hrec.producer, hrec.pushed, hrec.visible, hrec.pendingCount⟩,
      (congrArg List.length hrec.popped).ge, ?_, hrec.count.le⟩
    simp only [State.consumeAt_consumer, if_true, State.consumeAt_popped, hrec.popped]
    show (collect c _ b).count + _ + _ = _
    rw [hrec.count]
    rfl

omit [DecidableEq Θ] in
/-- The items which are not visible are pending or in the hands of the producer. -/
theorem InvAt.uncounted_le (h : InvAt c s before after) :
    s.visible + s.pendingCount + s.producer.uncounted ≤ s.pushed.length ∧
      (s.producer.result = none →
        s.visible + s.pendingCount + s.producer.uncounted = s.pushed.length) := by
  have hw := h.data.writing
  have hv := hw.visible_le
  have hp := hw.phase
  obtain ⟨l, hl, hlen⟩ := hw.stored
  have hlen' : s.pushed.length =
      (s.block s.wpos).base + (s.block s.wpos).writeIndex + s.producer.holding.length := by
    rw [hl, List.length_append, hlen]
  have hcont : ∀ k : Cont α, k.uncounted ≤ k.holding.length := fun k => by
    cases k <;> simp [Cont.uncounted, Cont.holding]
  cases hprod : s.producer with
  | idle | push _ | pushPending _ | reserve _ | done _ =>
    rw [hprod] at hp hlen'
    simp only [Phase] at hp
    simp only [Producer.holding, List.length_nil, List.length_singleton] at hlen'
    simp only [Producer.uncounted]
    omega
  | flush x =>
    rw [hprod] at hp hlen'
    have : s.pendingCount + s.visible =
        (s.block s.wpos).base + (s.block s.wpos).writeIndex := by
      cases x with
      | none => exact hp
      | some x => exact hp.1
    simp only [Producer.holding] at hlen'
    simp only [Producer.uncounted]
    omega
  | subPush _ _ | pushAgain _ _ | pushPendingAgain _ _ =>
    rw [hprod] at hp hlen'
    simp only [Phase] at hp
    simp only [Producer.holding, List.length_singleton] at hlen'
    simp only [Producer.uncounted, Producer.result, reduceCtorEq, false_imp_iff, and_true]
    omega
  | subFlush k | publish _ k | nextWpos k =>
    rw [hprod] at hp hlen'
    have := hcont k
    simp only [Phase] at hp
    simp only [Producer.holding] at hlen'
    simp only [Producer.uncounted, Producer.result, reduceCtorEq, false_imp_iff, and_true]
    omega

/-- A consumer which moves between places where it holds no item leaves the count. -/
theorem Counted.consumeAt (h : Counted s) {θ : Θ} {p : Consumer α} {n : ℤ}
    (hθ : (s.consumer θ).inHand = false) (hp : p.inHand = false) :
    Counted ({ s with consumerCount := n }.consumeAt θ p) := by
  obtain ⟨m, hcensus, hm⟩ := h
  refine ⟨m, hcensus.congr fun θ' => ?_, hm⟩
  rw [State.consumeAt_consumer]
  split
  · rename_i he
    rw [he, hθ, hp]
  · exact Iff.rfl

theorem Counted.step {a : Action α Θ} (h : Counted s)
    (hs : MultiConsumerQueue.step c s a = some s') : Counted s' := by
  cases a with
  | call op =>
    simp only [MultiConsumerQueue.step] at hs
    split at hs
    · rename_i hidle
      cases hs
      obtain ⟨n, hcensus, hn⟩ := h
      refine ⟨n, ?_, ?_⟩
      · cases op <;> exact hcensus
      · rw [hidle] at hn
        simp only [Producer.uncounted] at hn
        cases op <;> simp only [call, State.produceAt, Producer.uncounted, List.length_append,
          List.length_singleton, Option.toList_none, List.length_nil] <;> omega
    · cases hs
  | produce =>
    obtain ⟨n, hcensus, hn⟩ := h
    obtain ⟨hpush, hpop⟩ := produce_history hs
    refine ⟨n, by rwa [produce_consumer hs], ?_⟩
    have := produce_count hs
    rw [hpush, hpop]
    omega
  | ret =>
    simp only [MultiConsumerQueue.step] at hs
    split at hs
    · rename_i hdone
      cases hs
      obtain ⟨n, hcensus, hn⟩ := h
      refine ⟨n, hcensus, ?_⟩
      rw [hdone] at hn
      exact hn
    · cases hs
  | attach θ | pop θ | detach θ | popRet θ =>
    simp only [MultiConsumerQueue.step] at hs
    split at hs
    · rename_i hθ
      cases hs
      exact h.consumeAt (by rw [hθ]; rfl) rfl
    · cases hs
  | consume θ spurious =>
    obtain ⟨n, hcensus, hn⟩ := h
    obtain ⟨⟨hprod, hpush, -, hpend⟩, -, hcount, -⟩ := consume_count hs
    obtain ⟨n', hcensus', hn'⟩ := hcensus.move (g := fun θ => (s'.consumer θ).inHand) (θ := θ)
      fun θ' hne => by rw [consume_consumer hs hne]
    refine ⟨n', hcensus', ?_⟩
    rw [hprod, hpush, hpend]
    omega

theorem counted (h : (machine c Θ).Reachable s) : Counted s := by
  refine Machine.invariant (fun s hs => ?_) (fun _ _ _ hi hs => hi.step hs) h
  subst hs
  exact ⟨0, .zero fun θ => by simp [State.new, Consumer.inHand], rfl⟩

omit [DecidableEq Θ] in
/-- The count is the number of the visible items which were not popped, together with the items in
the hands of consumers and what the operation in progress has already added to it. -/
theorem Counted.count_eq (h : Counted s) (hi : InvAt c s before after) :
    ∃ n : ℕ, Census (fun θ => (s.consumer θ).inHand = true) n ∧
      (s.visible : ℤ) + n ≤ s.count + s.popped.length ∧
      (s.producer.result = none → (s.visible : ℤ) + n = s.count + s.popped.length) := by
  obtain ⟨n, hcensus, hn⟩ := h
  obtain ⟨hle, heq⟩ := hi.uncounted_le
  refine ⟨n, hcensus, by omega, fun hr => ?_⟩
  have := heq hr
  omega

omit [DecidableEq Θ] in
/-- Nothing is left, and nothing is on its way out, when the count is zero. -/
theorem Counted.drained (h : Counted s) (hi : InvAt c s before after) (hz : s.count = 0) :
    Drained s := by
  obtain ⟨n, hcensus, hle, -⟩ := h.count_eq hi
  have := hi.data.popped_le
  obtain rfl : n = 0 := by omega
  exact ⟨by omega, fun θ => by simpa using hcensus.eq_zero θ⟩

omit [DecidableEq Θ] in
/-- Before an operation adds its items to the count, the count is zero only if nothing is left. -/
theorem Counted.count_eq_zero (h : Counted s) (hi : InvAt c s before after)
    (hr : s.producer.result = none) : s.count = 0 ↔ Drained s := by
  refine ⟨h.drained hi, fun hd => ?_⟩
  obtain ⟨n, ⟨l, -, hmem, rfl⟩, -, heq⟩ := h.count_eq hi
  have hnil : l = [] := List.eq_nil_iff_forall_not_mem.mpr fun θ hθ => by
    have hin : (s.consumer θ).inHand = true := (hmem θ).mp hθ
    rw [hd.hands θ] at hin
    cases hin
  have := heq hr
  have := hd.popped
  rw [hnil, List.length_nil] at *
  omega

omit [DecidableEq Θ] in
/-- The producer returns by an action of its own. -/
theorem produce_ne_idle (hs : produce c s = some s') : s'.producer ≠ .idle := by
  have hnext : ∀ k : Cont α, k.next ≠ .idle := fun k => by cases k <;> rintro ⟨⟩
  have hagain : ∀ k : Cont α, k.again ≠ .idle := fun k => by cases k <;> rintro ⟨⟩
  unfold produce at hs
  cases hp : s.producer with
  | idle | done _ => simp [hp] at hs
  | push _ | reserve _ =>
    simp only [hp, Option.some.injEq] at hs
    exact hs ▸ by rintro ⟨⟩
  | publish _ k =>
    simp only [hp, Option.some.injEq] at hs
    exact hs ▸ hnext k
  | nextWpos k =>
    simp only [hp, Option.some.injEq] at hs
    exact hs ▸ hagain k
  | subPush _ _ | pushPending _ | pushAgain _ _ | pushPendingAgain _ _ =>
    simp only [hp] at hs
    split at hs <;> cases hs <;> rintro ⟨⟩
  | flush _ | subFlush _ =>
    simp only [hp] at hs
    split at hs <;> cases hs <;> first | exact hnext _ | rintro ⟨⟩

omit [DecidableEq Θ] in
/-- Until its result is known, an operation shows nothing. Its result is whether the count is zero
just before the operation adds its items, and false if it adds none. -/
theorem InvAt.produce_decides (h : InvAt c s before after)
    (hs : MultiConsumerQueue.produce c s = some s') (hr : s.producer.result = none) :
    s'.visible = s.visible ∧
      ((s'.producer.result = none ∨ s'.producer.result = some false) ∧ s'.count = s.count ∨
        s'.producer.result = some (s.count == 0) ∧ s.count < s'.count ∧
          s'.producer.Owes s'.visible s'.pushed.length) := by
  have hle := h.uncounted_le.2 hr
  unfold MultiConsumerQueue.produce at hs
  cases hp : s.producer with
  | idle => simp [hp] at hs
  | done _ | subPush _ _ | subFlush _ | publish _ _ | nextWpos _ | pushAgain _ _
  | pushPendingAgain _ _ => simp [hp, Producer.result] at hr
  | push x =>
    simp only [hp, Option.some.injEq] at hs
    subst hs
    refine ⟨rfl, .inr ⟨rfl, ?_, trivial⟩⟩
    show s.count < s.count + (s.pendingCount + 1)
    omega
  | pushPending x =>
    simp only [hp] at hs
    split at hs <;> cases hs
    · exact ⟨rfl, .inl ⟨.inr rfl, rfl⟩⟩
    · exact ⟨rfl, .inl ⟨.inl rfl, rfl⟩⟩
  | flush x =>
    rw [hp] at hle
    simp only [hp] at hs
    split at hs
    · cases hs
      refine ⟨rfl, .inl ⟨.inr ?_, rfl⟩⟩
      cases x <;> rfl
    · rename_i hpend
      cases hs
      refine ⟨rfl, .inr ⟨?_, ?_, ?_⟩⟩
      · cases x <;> rfl
      · show s.count < s.count + s.pendingCount
        omega
      · cases x with
        | none =>
          show s.visible + 0 < s.pushed.length
          simp only [Producer.uncounted, Option.toList_none, List.length_nil] at hle
          omega
        | some x =>
          show s.visible + 1 < s.pushed.length
          simp only [Producer.uncounted, Option.toList_some, List.length_singleton] at hle
          omega
  | reserve n =>
    simp only [hp, Option.some.injEq] at hs
    subst hs
    obtain ⟨-, -, hcount, -⟩ := appendBlocks_frame c
      (n / c.size + (if n % c.size ≠ 0 then 1 else 0) - s.subQueueCount) s
    exact ⟨appendBlocks_visible c _ s, .inl ⟨.inr rfl, hcount⟩⟩

omit [DecidableEq Θ] in
/-- Once its result is known, an operation leaves the count, and shows what it owes. -/
theorem InvAt.produce_decided (h : InvAt c s before after)
    (hs : MultiConsumerQueue.produce c s = some s') {bne : Bool}
    (hr : s.producer.result = some bne) :
    s'.producer.result = some bne ∧ s'.count = s.count ∧
      (s'.visible = s.visible ∧ (s.producer.Owes s.visible s.pushed.length →
          s'.producer.Owes s'.visible s'.pushed.length) ∨
        s.visible < s'.visible) := by
  have hw := h.data.writing
  have hnext : ∀ k : Cont α, k.next.result = some k.result := fun k => by cases k <;> rfl
  have hagain : ∀ k : Cont α, k.again.result = some k.result := fun k => by cases k <;> rfl
  unfold MultiConsumerQueue.produce at hs
  cases hp : s.producer with
  | idle | push _ | pushPending _ | flush _ | reserve _ => simp [hp, Producer.result] at hr
  | done _ => simp [hp] at hs
  | subPush x b =>
    rw [hp] at hr
    simp only [hp] at hs
    split at hs <;> cases hs <;> exact ⟨hr, rfl, .inl ⟨rfl, fun _ => trivial⟩⟩
  | subFlush k =>
    rw [hp] at hr hw
    simp only [hp] at hs
    split at hs
    · cases hs
      exact ⟨hr, rfl, .inl ⟨rfl, fun _ => trivial⟩⟩
    · rename_i hflush
      cases hs
      refine ⟨(hnext k).trans hr, rfl, .inl ⟨rfl, fun ho => ?_⟩⟩
      -- nothing is pending in the block, so that only an item of a push can be owed
      have hv := Saved.eq_of_none hw.front hw (by simpa [SubQueue.flushPending] using hflush)
      obtain ⟨l, hl, hlen⟩ := hw.stored
      have hlen' := congrArg List.length hl
      rw [List.length_append, hlen] at hlen'
      cases k with
      | push x b => trivial
      | ret b | pushPending x b =>
        have ho' : s.visible + _ < s.pushed.length := ho
        simp only [Producer.holding] at hlen'
        omega
  | publish p k =>
    rw [hp] at hr hw
    simp only [hp, Option.some.injEq] at hs
    subst hs
    obtain ⟨-, hlt, -, -, hflush, -⟩ := hw.front
    refine ⟨(hnext k).trans hr, rfl, .inr ?_⟩
    show s.visible < (s.block s.wpos).base + (s.block s.wpos).flushIndex
    omega
  | nextWpos k =>
    rw [hp] at hr
    simp only [hp, Option.some.injEq] at hs
    subst hs
    have hcount : (MultiConsumerQueue.nextWpos c s).count = s.count := by
      simp only [MultiConsumerQueue.nextWpos]
      cases (s.block s.wpos).next <;> rfl
    refine ⟨(hagain k).trans hr, hcount, .inl ⟨nextWpos_visible c s, fun ho => ?_⟩⟩
    cases k with
    | push x b => trivial
    | ret b | pushPending x b => exact ho.elim
  | pushAgain x b =>
    rw [hp] at hr hw
    obtain ⟨-, hzero, -⟩ := hw.phase
    simp only [hp] at hs
    split at hs
    · cases hs
      exact ⟨hr, rfl, .inl ⟨rfl, fun _ => trivial⟩⟩
    · rename_i hfull
      -- there is room in the block which was just begun
      have := SubQueue.push_eq_none hfull
      have := c.size_pos
      omega
  | pushPendingAgain x b =>
    rw [hp] at hr
    simp only [hp] at hs
    split at hs <;> cases hs <;> exact ⟨hr, rfl, .inl ⟨rfl, fun ho => ho.elim⟩⟩

/-- What the other threads do while an operation is in progress. -/
theorem step_frame {a : Action α Θ} (hs : step c s a = some s') (hidle : s.producer ≠ .idle)
    (hret : a ≠ .ret) (hprod : a ≠ .produce) :
    (s'.producer = s.producer ∧ s'.pushed = s.pushed ∧ s'.visible = s.visible) ∧
      s.popped.length ≤ s'.popped.length ∧ s'.count ≤ s.count := by
  cases a with
  | call op =>
    simp only [step] at hs
    cases hs
  | produce => exact absurd rfl hprod
  | ret => exact absurd rfl hret
  | attach θ | pop θ | detach θ | popRet θ =>
    simp only [step] at hs
    split at hs <;> cases hs
    exact ⟨⟨rfl, rfl, rfl⟩, le_refl s.popped.length, le_refl s.count⟩
  | consume θ spurious =>
    obtain ⟨⟨hprod, hpush, hvis, -⟩, hpop, -, hcount⟩ := consume_count hs
    exact ⟨⟨hprod, hpush, hvis⟩, hpop, hcount⟩

/-- A step which adds to the count when nothing is left. -/
def Fills (s s' : State α Θ) : Prop := s.count < s'.count ∧ Drained s

/-- A step which makes items visible when there is no other visible item but the popped ones, for
the number of the visible items when the operation began. -/
def Shows (v : ℕ) (s s' : State α Θ) : Prop :=
  s.visible < s'.visible ∧ s.visible = v ∧ s.popped.length = s.visible

/-- What an operation has done since its call, with its result once it is known. -/
structure Told (c : Config α) (s₁ : State α Θ) (as : List (Action α Θ)) (t : State α Θ) : Prop where
  busy : t.producer ≠ .idle
  undecided : t.producer.result = none →
    t.visible = s₁.visible ∧ ¬ (machine c Θ).Passes Fills s₁ as
  decided : ∀ bne, t.producer.result = some bne →
    (bne = true ↔ (machine c Θ).Passes Fills s₁ as) ∧
    (bne = true → (machine c Θ).Passes (Shows s₁.visible) s₁ as ∨
      t.visible = s₁.visible ∧ t.popped.length = t.visible ∧
        t.producer.Owes t.visible t.pushed.length)

theorem Told.step {s₁ t t' : State α Θ} {as : List (Action α Θ)} {a : Action α Θ}
    (h : Told c s₁ as t) (hreach : (machine c Θ).Reachable t)
    (hrun : (machine c Θ).run s₁ as = some t) (hs : (machine c Θ).step t a = some t')
    (hret : a ≠ .ret) : Told c s₁ (as ++ [a]) t' := by
  obtain ⟨before, after, hi⟩ := inv hreach
  have hi' : t'.popped.length ≤ t'.visible := (inv (hreach.step hs)).elim fun _ h =>
    h.elim fun _ h => h.data.popped_le
  have hfills := Machine.passes_snoc (R := Fills) hrun hs
  have hshows := Machine.passes_snoc (R := Shows s₁.visible) hrun hs
  by_cases hprod : a = .produce
  · subst hprod
    have hs' : MultiConsumerQueue.produce c t = some t' := hs
    obtain ⟨hpush, hpop⟩ := produce_history hs'
    refine ⟨produce_ne_idle hs', fun hr => ?_, fun bne hr => ?_⟩
    · cases hres : t.producer.result with
      | none =>
        obtain ⟨hv, hnone⟩ := h.undecided hres
        obtain ⟨hvis, ⟨-, hcount⟩ | ⟨hr', -⟩⟩ := hi.produce_decides hs' hres
        · exact ⟨hvis.trans hv, fun hp => (hfills.mp hp).elim hnone fun hf => hf.1.ne hcount.symm⟩
        · rw [hr] at hr'
          cases hr'
      | some b =>
        have := (hi.produce_decided hs' hres).1
        rw [hr] at this
        cases this
    · cases hres : t.producer.result with
      | none =>
        obtain ⟨hv, hnone⟩ := h.undecided hres
        obtain ⟨hvis, ⟨hr', hcount⟩ | ⟨hr', hcount, howes⟩⟩ := hi.produce_decides hs' hres
        · obtain rfl : bne = false := by
            rw [hr] at hr'
            simpa using hr'
          refine ⟨⟨by rintro ⟨⟩, fun hp => ?_⟩, by rintro ⟨⟩⟩
          exact ((hfills.mp hp).elim hnone fun hf => hf.1.ne hcount.symm).elim
        · obtain rfl : bne = (t.count == 0) := by
            rw [hr] at hr'
            simpa using hr'
          have hzero := (counted hreach).count_eq_zero hi hres
          rw [beq_iff_eq, hfills, hzero]
          refine ⟨⟨fun hd => .inr ⟨hcount, hd⟩, fun hp => ?_⟩, fun hd => .inr ⟨hvis.trans hv, ?_⟩⟩
          · exact hp.elim (fun hp => (hnone hp).elim) And.right
          · rw [hpop, hvis]
            exact ⟨hd.popped, by rwa [hvis] at howes⟩
      | some b =>
        obtain ⟨hr', hcount, hvis⟩ := hi.produce_decided hs' hres
        obtain rfl : b = bne := by
          rw [hr] at hr'
          simpa using hr'.symm
        obtain ⟨hiff, hshown⟩ := h.decided b hres
        have hnot : ¬ Fills t t' := fun hf => hf.1.ne hcount.symm
        rw [hfills, or_iff_left hnot, hshows]
        refine ⟨hiff, fun hb => ?_⟩
        rcases hshown hb with hp | ⟨hv, hpopped, howes⟩
        · exact .inl (.inl hp)
        · rcases hvis with ⟨hvis, hkeep⟩ | hlt
          · exact .inr ⟨hvis.trans hv, by rw [hpop, hpopped, hvis], hkeep howes⟩
          · exact .inl (.inr ⟨hlt, hv, hpopped⟩)
  · obtain ⟨⟨hp, hpush, hvis⟩, hpop, hcount⟩ := step_frame hs h.busy hret hprod
    have hnot : ¬ Fills t t' := fun hf => (lt_of_lt_of_le hf.1 hcount).false
    refine ⟨hp ▸ h.busy, fun hr => ?_, fun bne hr => ?_⟩
    · rw [hp] at hr
      rw [hfills, or_iff_left hnot, hvis]
      exact h.undecided hr
    · rw [hp] at hr
      obtain ⟨hiff, hshown⟩ := h.decided bne hr
      rw [hfills, or_iff_left hnot, hshows]
      refine ⟨hiff, fun hb => ?_⟩
      rcases hshown hb with hpass | ⟨hv, hpopped, howes⟩
      · exact .inl (.inl hpass)
      · exact .inr ⟨hvis.trans hv, by omega, by rwa [hp, hvis, hpush]⟩

/-- An operation begins with nothing done. -/
theorem Told.call {s₁ : State α Θ} {op : Op α} (hs : (machine c Θ).step s (.call op) = some s₁) :
    Told c s₁ [] s₁ := by
  have hstart : s₁.producer ≠ .idle ∧ s₁.producer.result = none := by
    simp only [machine, MultiConsumerQueue.step] at hs
    split at hs <;> cases hs
    cases op <;> exact ⟨by rintro ⟨⟩, rfl⟩
  refine ⟨hstart.1, fun _ => ⟨rfl, Machine.not_passes_nil s₁⟩, fun bne hr => ?_⟩
  rw [hstart.2] at hr
  cases hr

/-- **The counting law of the multi-consumer queue.** In every reachable state the count is neither
negative nor less than the number of the visible items which were not popped, and nothing is left
when it is zero. Every operation which is called there and runs to its end, whatever the consumers
do in the meantime, returns true if and only if nothing was left, not even in the hands of a
consumer, just before it added its items to the count; and then it makes an item visible, all the
other visible items being popped just before it does so first. -/
theorem count_law (h : (machine c Θ).Reachable s) :
    (0 ≤ s.count ∧ (s.visible : ℤ) - s.popped.length ≤ s.count ∧ (s.count = 0 → Drained s)) ∧
    ∀ op s₁ as s' bne, (machine c Θ).step s (.call op) = some s₁ →
      (machine c Θ).run s₁ as = some s' → .ret ∉ as → s'.producer = .done bne →
      (bne = true ↔ (machine c Θ).Passes Fills s₁ as) ∧
      (bne = true → (machine c Θ).Passes (Shows s₁.visible) s₁ as) := by
  obtain ⟨before, after, hi⟩ := inv h
  have hcounted := counted h
  refine ⟨?_, fun op s₁ as s' bne hcall hrun hret hdone => ?_⟩
  · obtain ⟨n, -, hle, -⟩ := hcounted.count_eq hi
    have := hi.data.popped_le
    exact ⟨by omega, by omega, hcounted.drained hi⟩
  · have htold : .ret ∉ as → Told c s₁ as s' :=
      Machine.run_history (H := fun as t => .ret ∉ as → Told c s₁ as t) (fun _ => .call hcall)
        (fun as a t t' hrun ih hs hret => by
          rw [List.mem_append, List.mem_singleton, not_or] at hret
          exact (ih hret.1).step ((h.step hcall).of_run hrun) hrun hs (Ne.symm hret.2)) hrun
    obtain ⟨hiff, hshown⟩ := (htold hret).decided bne (by rw [hdone]; rfl)
    refine ⟨hiff, fun hb => (hshown hb).resolve_right fun ⟨_, _, howes⟩ => ?_⟩
    rw [hdone] at howes
    exact howes

deriving instance DecidableEq for SubQueue.Publish, Cont, Producer

/-- The first push. -/
theorem count_law_first : ∃ s₁ s',
    (machine tiny Unit).step (.new tiny) (.call (.push 1)) = some s₁ ∧
    (machine tiny Unit).run s₁ [.produce, .produce, .produce] = some s' ∧
    s'.producer = .done true ∧
    (machine tiny Unit).Passes Fills s₁ [.produce, .produce, .produce] ∧
    (machine tiny Unit).Passes (Shows s₁.visible) s₁ [.produce, .produce, .produce] := by
  have hrun : (((machine tiny Unit).step (.new tiny) (.call (.push 1))).bind fun s₁ =>
      ((machine tiny Unit).run s₁ [.produce, .produce, .produce]).map fun s' => s'.producer) =
        some (.done true) := by
    decide +kernel
  simp only [Option.bind_eq_some_iff, Option.map_eq_some_iff] at hrun
  obtain ⟨s₁, hs₁, s', hs', hd⟩ := hrun
  obtain ⟨hiff, hshown⟩ := (count_law (.init rfl)).2 (.push 1) s₁ _ s' true hs₁ hs' (by simp) hd
  exact ⟨s₁, s', hs₁, hs', hd, hiff.mp rfl, hshown rfl⟩

/-- A consumer has popped the only item and not subtracted it from the count yet. -/
def inHandRun (θ : Θ) : List (Action ℕ Θ) :=
  [.attach θ, .consume θ false, .call (.push 1), .produce, .produce, .produce, .ret,
    .pop θ, .consume θ false, .consume θ false, .consume θ false]

/-- A push which makes its item visible, no other visible item being left, and returns false. -/
theorem in_hand_missed : ∃ s s₁ s', (machine tiny Unit).run (.new tiny) (inHandRun ()) = some s ∧
    (machine tiny Unit).step s (.call (.push 2)) = some s₁ ∧
    (machine tiny Unit).run s₁ (List.replicate 6 .produce) = some s' ∧
    s'.producer = .done false ∧
    (machine tiny Unit).Passes (Shows s₁.visible) s₁ (List.replicate 6 .produce) := by
  have hrun : (((machine tiny Unit).run (.new tiny) (inHandRun ())).bind fun s =>
      ((machine tiny Unit).step s (.call (.push 2))).bind fun s₁ =>
      ((machine tiny Unit).run s₁ (List.replicate 5 .produce)).bind fun t =>
      ((machine tiny Unit).step t .produce).map fun s' =>
        (s₁.visible, t.visible, t.popped.length, s'.visible, s'.producer)) =
          some (1, 1, 1, 2, .done false) := by
    decide +kernel
  simp only [Option.bind_eq_some_iff, Option.map_eq_some_iff, Prod.mk.injEq] at hrun
  obtain ⟨s, hs, s₁, hs₁, t, ht, s', hs', h₁, h₂, h₃, h₄, hd⟩ := hrun
  refine ⟨s, s₁, s', hs, hs₁, Machine.run_snoc_eq_some.mpr ⟨t, ht, hs'⟩, hd, ?_⟩
  exact ⟨List.replicate 5 .produce, .produce, [], t, s', rfl, ht, hs', by omega, by omega, by omega⟩

end MultiConsumerQueue

end Serverbox
