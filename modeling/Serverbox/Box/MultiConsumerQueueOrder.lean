import Serverbox.Box.MultiConsumerQueueConsume

/-!
# The order of the multi-consumer queue

Whatever the size of the blocks and the interleaving, the items are popped in the order in which
they were pushed, and a pop comes back with nothing only if there was nothing to be popped.

## Main results

* `MultiConsumerQueue.pops_in_order`: nothing is lost, duplicated or reordered.
-/

namespace Serverbox

namespace MultiConsumerQueue

variable {α Θ : Type*} [DecidableEq Θ] {c : Config α} {s s' : State α Θ} {before after : List ℕ}

omit [DecidableEq Θ] in
/-- The items which are not visible while the producer is outside are the pending ones. -/
theorem InvAt.length_pushed (h : InvAt c s before after) (hp : s.producer = .idle) :
    s.pushed.length = s.visible + s.pendingCount := by
  have hw := h.data.writing
  rw [hp] at hw
  obtain ⟨l, hl, hlen⟩ := hw.stored
  have hphase : s.pendingCount + s.visible = _ := hw.phase
  rw [hl]
  simp only [Producer.holding, List.append_nil]
  omega

omit [DecidableEq Θ] in
/-- A block which is read up holds no visible item any more when it is the one of the producer. -/
theorem InvAt.read_up (h : InvAt c s before after)
    (hr : (s.block s.wpos).readIndex = c.size) : s.popped.length = s.visible := by
  have hread := h.data.read s.wpos (by simp)
  have hw := h.data.writing
  have := hw.visible_le
  have := hw.writeIndex_le
  have := h.data.popped_le
  have := c.size_pos
  omega

omit [DecidableEq Θ] in
theorem nextWpos_consumer (c : Config α) (s : State α Θ) :
    (nextWpos c s).consumer = s.consumer := by
  simp only [nextWpos]
  cases (s.block s.wpos).next <;> rfl

omit [DecidableEq Θ] in
theorem produce_consumer (hs : produce c s = some s') : s'.consumer = s.consumer := by
  unfold produce at hs
  cases hp : s.producer with
  | idle | done _ => simp [hp] at hs
  | push _ | publish _ _ =>
    simp only [hp, Option.some.injEq] at hs
    exact hs ▸ rfl
  | nextWpos k =>
    simp only [hp, Option.some.injEq] at hs
    exact hs ▸ nextWpos_consumer c s
  | reserve n =>
    simp only [hp, Option.some.injEq] at hs
    exact hs ▸ (appendBlocks_frame c _ s).2.2.2
  | subPush _ _ | pushPending _ | flush _ | subFlush _ | pushAgain _ _ | pushPendingAgain _ _ =>
    simp only [hp] at hs
    split at hs <;> cases hs <;> rfl

/-- The step of a consumer leaves the other ones where they are. -/
theorem consume_consumer {θ θ' : Θ} {spurious : Bool} (hs : consume c s θ' spurious = some s')
    (hne : θ ≠ θ') : s'.consumer θ = s.consumer θ := by
  unfold consume at hs
  cases hc : s.consumer θ' with
  | detached | idle _ | done _ _ => simp [hc] at hs
  | attach | popped _ _ =>
    simp only [hc, Option.some.injEq] at hs
    simp [← hs, hne]
  | loadIndex b =>
    simp only [hc, Option.some.injEq] at hs
    simp [← hs, withIndex, hne]
  | loadCell b r =>
    simp only [hc, Option.some.injEq] at hs
    simp [← hs, loadCell, State.assert, hne]
  | casIndex b r x =>
    simp only [hc, Option.some.injEq, casIndex, withIndex] at hs
    split at hs <;> simp [← hs, hne]
  | exhausted b =>
    simp only [hc, Option.some.injEq, leave] at hs
    split at hs
    · simp [← hs, hne]
    · split at hs
      · simp [← hs, State.assert, (recycles_collect c _ b).consumer]
      · simp [← hs, (recycles_collect c _ b).consumer, hne]
  | detach b =>
    simp only [hc, Option.some.injEq] at hs
    simp [← hs, (recycles_collect c _ b).consumer, hne]

/-- The item which a consumer has got by the exchange of the read index. -/
def Consumer.hand : Consumer α → List α
  | popped _ x => [x]
  | done _ (some x) => [x]
  | _ => []

omit [DecidableEq Θ] in
theorem appendBlocks_history (c : Config α) (n : ℕ) (s : State α Θ) :
    (appendBlocks c n s).pushed = s.pushed ∧ (appendBlocks c n s).popped = s.popped := by
  induction n generalizing s with
  | zero => exact ⟨rfl, rfl⟩
  | succ n ih => exact ih (appendBlock c s)

omit [DecidableEq Θ] in
theorem nextWpos_visible (c : Config α) (s : State α Θ) : (nextWpos c s).visible = s.visible := by
  simp only [nextWpos]
  cases (s.block s.wpos).next <;> rfl

omit [DecidableEq Θ] in
theorem appendBlocks_visible (c : Config α) (n : ℕ) (s : State α Θ) :
    (appendBlocks c n s).visible = s.visible := by
  induction n generalizing s with
  | zero => rfl
  | succ n ih => exact ih (appendBlock c s)

omit [DecidableEq Θ] in
/-- A push takes effect at its call, and no item is popped by the producer. -/
theorem produce_history (hs : produce c s = some s') :
    s'.pushed = s.pushed ∧ s'.popped = s.popped := by
  unfold produce at hs
  cases hp : s.producer with
  | idle | done _ => simp [hp] at hs
  | push _ | publish _ _ =>
    simp only [hp, Option.some.injEq] at hs
    exact hs ▸ ⟨rfl, rfl⟩
  | nextWpos k =>
    simp only [hp, Option.some.injEq] at hs
    subst hs
    simp only [nextWpos]
    cases (s.block s.wpos).next <;> exact ⟨rfl, rfl⟩
  | reserve n =>
    simp only [hp, Option.some.injEq] at hs
    exact hs ▸ appendBlocks_history c _ s
  | subPush _ _ | pushPending _ | flush _ | subFlush _ | pushAgain _ _ | pushPendingAgain _ _ =>
    simp only [hp] at hs
    split at hs <;> cases hs <;> exact ⟨rfl, rfl⟩

/-- A consumer gets an item with the exchange of the read index, and keeps it until its pop
returns. -/
theorem consume_hand {θ : Θ} {spurious : Bool} (hs : consume c s θ spurious = some s') :
    s'.pushed = s.pushed ∧
      ((∃ b x, s'.consumer θ = .popped b x ∧ (s.consumer θ).hand = [] ∧
          s'.popped = s.popped ++ [x]) ∨
        (∀ b x, s'.consumer θ ≠ .popped b x) ∧ s'.popped = s.popped ∧
          (s'.consumer θ).hand = (s.consumer θ).hand) := by
  unfold consume at hs
  cases hc : s.consumer θ with
  | detached | idle _ | done _ _ => simp [hc] at hs
  | attach =>
    simp only [hc, Option.some.injEq] at hs
    subst hs
    exact ⟨rfl, .inr ⟨by simp, rfl, by simp [Consumer.hand]⟩⟩
  | popped b x =>
    simp only [hc, Option.some.injEq] at hs
    subst hs
    exact ⟨rfl, .inr ⟨by simp, rfl, by simp [Consumer.hand]⟩⟩
  | loadIndex b =>
    simp only [hc, Option.some.injEq, withIndex] at hs
    subst hs
    refine ⟨rfl, .inr ⟨?_, rfl, ?_⟩⟩ <;> simp only [State.consumeAt_consumer, if_true] <;> split <;>
      simp [Consumer.hand]
  | loadCell b r =>
    simp only [hc, Option.some.injEq, loadCell] at hs
    subst hs
    refine ⟨rfl, .inr ⟨?_, rfl, ?_⟩⟩ <;> simp only [State.consumeAt_consumer, if_true] <;> split <;>
      simp [Consumer.hand]
  | casIndex b r x =>
    simp only [hc, Option.some.injEq, casIndex, withIndex] at hs
    split at hs <;> subst hs
    · exact ⟨rfl, .inl ⟨b, x, by simp, rfl, by simp⟩⟩
    · refine ⟨rfl, .inr ⟨?_, rfl, ?_⟩⟩ <;> simp only [State.consumeAt_consumer, if_true] <;>
        split <;> simp [Consumer.hand]
  | exhausted b =>
    simp only [hc, Option.some.injEq, leave] at hs
    have hrec := recycles_collect c (s.modify b fun q =>
      { q with consumerCount := q.consumerCount - 1 }) b
    split at hs
    · subst hs
      exact ⟨rfl, .inr ⟨by simp, rfl, by simp [Consumer.hand]⟩⟩
    · split at hs <;> subst hs
      · exact ⟨hrec.pushed, .inr ⟨by simp [State.assert, hrec.consumer, hc], hrec.popped,
          by simp [State.assert, hrec.consumer, hc]⟩⟩
      · exact ⟨hrec.pushed, .inr ⟨by simp, hrec.popped, by simp [Consumer.hand]⟩⟩
  | detach b =>
    simp only [hc, Option.some.injEq] at hs
    have hrec := recycles_collect c (s.modify b fun q =>
      { q with consumerCount := q.consumerCount - 1 }) b
    subst hs
    exact ⟨hrec.pushed, .inr ⟨by simp, hrec.popped, by simp [Consumer.hand]⟩⟩

/-- At the step which lets a pop come back with nothing there is nothing to be popped. -/
theorem Inv.popped_of_null {a : Action α Θ} {θ : Θ} (h : Inv c s)
    (hs : MultiConsumerQueue.step c s a = some s') (hn : ∀ b, s.consumer θ ≠ .done b none) {b : ℕ}
    (hd : s'.consumer θ = .done b none) : s.popped.length = s.visible := by
  obtain ⟨before, after, h⟩ := h
  have hmove : ∀ {θ' : Θ} {p : Consumer α} {n : ℤ}, p ≠ .done b none →
      some ({ s with consumerCount := n }.consumeAt θ' p) ≠ some s' := fun {θ' p n} hp he => by
    rw [← Option.some.inj he, State.consumeAt_consumer] at hd
    split at hd
    · exact hp hd
    · exact hn b hd
  cases a with
  | call op =>
    simp only [MultiConsumerQueue.step] at hs
    split at hs
    · cases hs
      cases op <;> exact absurd hd (hn b)
    · cases hs
  | produce => exact absurd ((produce_consumer hs) ▸ hd) (hn b)
  | ret =>
    simp only [MultiConsumerQueue.step] at hs
    split at hs
    · cases hs
      exact absurd hd (hn b)
    · cases hs
  | attach θ' | pop θ' | detach θ' | popRet θ' =>
    simp only [MultiConsumerQueue.step] at hs
    split at hs
    · exact absurd hs (hmove (by rintro ⟨⟩))
    · cases hs
  | consume θ' spurious =>
    have hs' : MultiConsumerQueue.consume c s θ' spurious = some s' := hs
    obtain rfl : θ = θ' := by
      by_contra hne
      exact hn b ((consume_consumer hs' hne).symm.trans hd)
    unfold MultiConsumerQueue.consume at hs'
    cases hc : s.consumer θ with
    | detached | idle _ | done _ _ => simp [hc] at hs'
    | attach | popped _ _ | detach _ =>
      simp only [hc, Option.some.injEq] at hs'
      simp [← hs'] at hd
    | loadIndex b' =>
      simp only [hc, Option.some.injEq, withIndex] at hs'
      simp only [← hs', State.consumeAt_consumer, if_true] at hd
      split at hd <;> cases hd
    | casIndex b' r x =>
      simp only [hc, Option.some.injEq, casIndex, withIndex] at hs'
      split at hs'
      · simp [← hs'] at hd
      · simp only [← hs', State.consumeAt_consumer, if_true] at hd
        split at hd <;> cases hd
    | loadCell b' r =>
      obtain ⟨-, ⟨hv, hcell⟩ | ⟨-, -, -, he⟩⟩ := h.cell_eq hc
      · -- a cell in front of the visible position holds an item
        have hlen := h.data.writing.visible_le_length
        rw [List.getElem?_eq_getElem (by omega)] at hcell
        simp only [hc, Option.some.injEq, loadCell, hcell] at hs'
        simp [← hs'] at hd
      · exact he
    | exhausted b' =>
      have hr := h.consumers.knows θ
      rw [hc] at hr
      simp only [hc, Option.some.injEq, leave] at hs'
      split at hs'
      · rename_i hw
        exact h.read_up (hw ▸ hr)
      · split at hs'
        · rw [← hs'] at hd
          have : s.consumer θ = .done b none := by
            simp [← hd, State.assert, (recycles_collect c _ b').consumer]
          exact absurd this (hn b)
        · simp [← hs'] at hd

/-- **The order of the multi-consumer queue.** In every reachable state, for any size of the
blocks and any number of consumers: the items which were popped, in the order of the exchanges of
the read indices, are the first ones of the visible items, in the order of the pushes; all the
pushed items are visible apart from those of an operation in progress and the pending ones; no
assertion has failed; and from the call of a pop on, whatever the other threads do, it comes back
with nothing only after a moment at which all the visible items were popped. -/
theorem pops_in_order (h : (machine c Θ).Reachable s) :
    s.popped <+: s.pushed.take s.visible ∧
    (s.visible ≤ s.pushed.length ∧
      (s.producer = .idle → s.pushed.length = s.visible + s.pendingCount)) ∧
    s.failed = false ∧
    ∀ θ s₁ as s' b, (machine c Θ).step s (.pop θ) = some s₁ → (machine c Θ).run s₁ as = some s' →
      s'.consumer θ = .done b none → ∃ as₁ as₂ t, as = as₁ ++ as₂ ∧
        (machine c Θ).run s₁ as₁ = some t ∧ t.popped.length = t.visible := by
  obtain ⟨before, after, hi⟩ := inv h
  refine ⟨?_, ⟨hi.data.writing.visible_le_length, hi.length_pushed⟩, hi.not_failed,
    fun θ s₁ as s' b hs hr hd => ?_⟩
  · rw [hi.data.popped_eq]
    exact List.take_prefix_take_left hi.data.popped_le
  · have hstart : ¬ ∃ b, s₁.consumer θ = .done b none := by
      rintro ⟨b', hb'⟩
      simp only [machine, step] at hs
      split at hs
      · rw [← Option.some.inj hs] at hb'
        simp at hb'
      · cases hs
    obtain ⟨as₁, a, as₂, t, t', rfl, hrun, hstep, ht, b', ht'⟩ :=
      Machine.run_crossing (P := fun t => ∃ b, t.consumer θ = .done b none) hr hstart ⟨b, hd⟩
    refine ⟨as₁, a :: as₂, t, rfl, hrun, ?_⟩
    exact (inv ((h.step hs).of_run hrun)).popped_of_null hstep (fun b he => ht ⟨b, he⟩) ht'

/-- Blocks of one item; the memory of a new block holds something. -/
def tiny : Config ℕ where
  size := 1
  size_pos := Nat.zero_lt_one
  junk _ _ := some 0

/-- Two pushes into two blocks, and two pops which recycle the first block. -/
def twoBlocksRun (θ : Θ) : List (Action ℕ Θ) :=
  [.attach θ, .consume θ false, .call (.push 1), .produce, .produce, .produce, .ret,
    .call (.push 2), .produce, .produce, .produce, .produce, .produce, .produce, .ret,
    .pop θ, .consume θ false, .consume θ false, .consume θ false, .consume θ false, .popRet θ,
    .pop θ, .consume θ false, .consume θ false, .consume θ false, .consume θ false,
    .consume θ false, .consume θ false, .popRet θ]

/-- A queue from which everything was popped, and a pop which finds nothing more. -/
theorem pops_in_order_two_blocks :
    ∃ s s₁ s', (machine tiny Unit).run (.new tiny) (twoBlocksRun ()) = some s ∧
      (machine tiny Unit).step s (.pop ()) = some s₁ ∧
      (machine tiny Unit).run s₁ [.consume () false, .consume () false] = some s' ∧
      (s.popped = [1, 2] ∧ s.head = 1 ∧ s.tail = 0 ∧ s'.consumer () = .done 1 none) ∧
      s.popped <+: s.pushed.take s.visible ∧ s.failed = false ∧
      ∃ as₁ as₂ t, [.consume () false, .consume () false] = as₁ ++ as₂ ∧
        (machine tiny Unit).run s₁ as₁ = some t ∧ t.popped.length = t.visible := by
  have hrun : (((machine tiny Unit).run (.new tiny) (twoBlocksRun ())).bind fun s =>
      ((machine tiny Unit).step s (.pop ())).bind fun s₁ =>
      ((machine tiny Unit).run s₁ [.consume () false, .consume () false]).map fun s' =>
        (s.popped, s.head, s.tail, s'.consumer ())) = some ([1, 2], 1, 0, .done 1 none) := by
    decide +kernel
  simp only [Option.bind_eq_some_iff, Option.map_eq_some_iff, Prod.mk.injEq] at hrun
  obtain ⟨s, hs, s₁, hs₁, s', hs', he⟩ := hrun
  obtain ⟨hp, -, hf, hn⟩ := pops_in_order (.of_run (.init rfl) hs)
  exact ⟨s, s₁, s', hs, hs₁, hs', he, hp, hf, hn () s₁ _ s' 1 hs₁ hs' he.2.2.2⟩

end MultiConsumerQueue

end Serverbox
