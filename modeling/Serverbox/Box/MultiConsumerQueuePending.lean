import Serverbox.Box.MultiConsumerQueueOrder

/-!
# The pending items of the multi-consumer queue

The first pending item of a block is kept aside, and the other ones are stored behind the flush
index. An item of `PushPending` gets visible with the next exchange of the producer: of a `Push`, of
a `FlushPending`, or of the flush which `PushPending` makes when its block is full. Before that
exchange the cell at the flush index is null, so consumers stop there, whatever the block held in
its former life.

Source: `src/mg/box/MultiConsumerQueueBase.cpp`.

## Main definitions

* `MultiConsumerQueue.noFlush`: the steps which are not those of a flush.
* `MultiConsumerQueue.flushes`: the operations which flush.
* `MultiConsumerQueue.Reaches`: the blocks which consumers can reach.

## Main results

* `MultiConsumerQueue.pending_visibility`: when pending items can be popped, and what consumers can
  load.
-/

namespace Serverbox

namespace MultiConsumerQueue

variable {α Θ : Type*} {c : Config α} {s s' : State α Θ} {before after : List ℕ}

/-! ### The terminator -/

/-- The cell at the flush index is null. -/
def SubQueue.Terminated (q : SubQueue α) : Prop :=
  q.cell q.flushIndex = none ∧ q.written q.flushIndex = true

/-- All the blocks are terminated. -/
def Terminated (s : State α Θ) : Prop := ∀ b, (s.block b).Terminated

theorem SubQueue.terminated_reset (q : SubQueue α) : q.reset.Terminated := by
  simp [SubQueue.Terminated, SubQueue.reset]

theorem SubQueue.terminated_push {q : SubQueue α} {x : α} {r} (h : q.push c x = some r) :
    r.1.Terminated := by
  unfold SubQueue.push at h
  dsimp only at h
  split at h
  · cases h
  · split at h <;> obtain rfl := Option.some.inj h <;> simp [SubQueue.Terminated]

theorem SubQueue.terminated_flushPending {q : SubQueue α} {r} (h : q.flushPending = some r) :
    r.1.Terminated := by
  obtain ⟨y, -, rfl⟩ := Option.map_eq_some_iff.mp h
  simp [SubQueue.Terminated]

theorem SubQueue.Terminated.pushPending {q q' : SubQueue α} {x : α} (hq : q.Terminated)
    (hlt : q.firstPending.isSome = true → q.flushIndex < q.writeIndex)
    (h : q.pushPending c x = some q') : q'.Terminated := by
  unfold SubQueue.pushPending at h
  dsimp only at h
  split at h
  · cases h
  · split at h <;> obtain rfl := Option.some.inj h
    · exact hq
    · rename_i hsome
      have := hlt (by simpa [Option.isSome_iff_ne_none] using hsome)
      have hne : q.flushIndex ≠ q.writeIndex := by omega
      simp only [SubQueue.Terminated, SubQueue.store_flushIndex, SubQueue.store_cell,
        SubQueue.store_written, if_neg hne]
      exact hq

theorem Terminated.modify (h : Terminated s) (b : ℕ) (f : SubQueue α → SubQueue α)
    (hf : (f (s.block b)).Terminated) : Terminated (s.modify b f) := fun x => by
  rw [State.modify_block]
  split
  · exact hf
  · exact h x

/-- Blocks are linked. -/
theorem Terminated.link (h : Terminated s) (b : ℕ) (f : SubQueue α → SubQueue α)
    (hf : ∀ q : SubQueue α, q.Terminated → (f q).Terminated) : Terminated (s.modify b f) :=
  h.modify b f (hf _ (h b))

theorem Terminated.appendBlock (h : Terminated s) : Terminated (appendBlock c s) := by
  unfold MultiConsumerQueue.appendBlock
  dsimp only
  refine Terminated.link (Terminated.modify ?_ _ _ ?_) _ _ fun _ hq => hq
  · exact h
  · exact (SubQueue.new c s.allocated).terminated_reset

theorem Terminated.appendBlocks (h : Terminated s) (n : ℕ) : Terminated (appendBlocks c n s) := by
  induction n generalizing s with
  | zero => exact h
  | succ n ih => exact ih h.appendBlock

theorem Terminated.nextWpos (h : Terminated s) : Terminated (nextWpos c s) := by
  unfold MultiConsumerQueue.nextWpos
  dsimp only
  split
  · exact Terminated.link (by exact h) _ _ fun _ hq => hq
  · refine Terminated.link ?_ _ _ fun _ hq => hq
    exact Terminated.appendBlock (s := s.assert _) h

theorem Terminated.unlink (h : Terminated s) (b n : ℕ) : Terminated (unlink s b n) := by
  unfold MultiConsumerQueue.unlink
  dsimp only
  refine Terminated.link ?_ _ _ fun _ hq => hq
  split
  · exact Terminated.link (by exact h) _ _ fun _ hq => hq
  · rename_i p _
    have hprev := h.link p (fun q => { q with next := some n }) fun _ hq => hq
    exact hprev.link n (fun q => { q with prev := some p }) fun _ hq => hq

theorem Terminated.collect (h : Terminated s) (b : ℕ) : Terminated (collect c s b) := by
  unfold MultiConsumerQueue.collect
  dsimp only
  split
  · exact h
  · split
    · exact h
    · split
      · exact h
      · split
        · exact h
        · rename_i n _
          have hunlink := h.unlink b n
          generalize MultiConsumerQueue.unlink s b n = u at hunlink ⊢
          have hreset : Terminated
              ((u.assert ((u.block b).resettable c)).modify b SubQueue.reset) :=
            hunlink.link b SubQueue.reset fun q _ => q.terminated_reset
          have htail := hreset.link u.tail (fun q => { q with next := some b }) fun _ hq => hq
          exact htail.link b (fun q => { q with prev := some u.tail }) fun _ hq => hq

/-- The saved item of a block is in front of the write index. -/
theorem Writing.flushIndex_lt {q : SubQueue α} {pushed : List α} {visible pending : ℕ}
    {p : Producer α} (h : Writing c q pushed visible pending p)
    (hp : ∀ pb k, p ≠ .publish pb k) (hsome : q.firstPending.isSome = true) :
    q.flushIndex < q.writeIndex := by
  have hfront : q.base + q.flushIndex = visible ∧
      q.firstPending = if visible < q.base + q.writeIndex then pushed[visible]? else none := by
    have := h.front
    cases p <;> first | exact this | exact absurd rfl (hp _ _)
  obtain ⟨hflush, hfirst⟩ := hfront
  rw [hfirst] at hsome
  split at hsome
  · omega
  · cases hsome

/-- The producer keeps the blocks terminated. -/
theorem Terminated.produce (h : Terminated s) (hi : InvAt c s before after)
    (hs : produce c s = some s') : Terminated s' := by
  have hw := hi.data.writing
  unfold MultiConsumerQueue.produce at hs
  cases hp : s.producer with
  | idle | done _ => simp [hp] at hs
  | push x =>
    simp only [hp, Option.some.injEq] at hs
    exact hs ▸ h
  | subPush x bne =>
    simp only [hp] at hs
    split at hs <;> obtain rfl := Option.some.inj hs
    · rename_i r hr
      exact h.modify s.wpos (fun _ => r.1) (SubQueue.terminated_push hr)
    · exact h
  | pushPending x =>
    simp only [hp] at hs
    split at hs <;> obtain rfl := Option.some.inj hs
    · rename_i q' hq'
      exact h.modify s.wpos (fun _ => q')
        ((h s.wpos).pushPending (hw.flushIndex_lt (by rw [hp]; nofun)) hq')
    · exact h
  | flush x =>
    simp only [hp] at hs
    split at hs <;> obtain rfl := Option.some.inj hs <;> exact h
  | subFlush k =>
    simp only [hp] at hs
    split at hs <;> obtain rfl := Option.some.inj hs
    · rename_i r hr
      exact h.modify s.wpos (fun _ => r.1) (SubQueue.terminated_flushPending hr)
    · exact h
  | publish p k =>
    simp only [hp, Option.some.injEq] at hs
    subst hs
    have hfront := hw.front
    rw [hp] at hfront
    obtain ⟨hcell, hlt, -, -, hflush, -⟩ := hfront
    have hne : (s.block s.wpos).flushIndex ≠ p.cell := by omega
    refine h.modify s.wpos (fun q => q.store p.cell (some p.item)) ?_
    simp only [SubQueue.Terminated, SubQueue.store_flushIndex, SubQueue.store_cell,
      SubQueue.store_written, if_neg hne]
    exact h s.wpos
  | nextWpos k =>
    simp only [hp, Option.some.injEq] at hs
    subst hs
    exact h.nextWpos
  | pushAgain x bne =>
    simp only [hp] at hs
    split at hs <;> obtain rfl := Option.some.inj hs
    · rename_i r hr
      exact h.modify s.wpos (fun _ => r.1) (SubQueue.terminated_push hr)
    · exact h
  | pushPendingAgain x bne =>
    simp only [hp] at hs
    split at hs <;> obtain rfl := Option.some.inj hs
    · rename_i q' hq'
      exact h.modify s.wpos (fun _ => q')
        ((h s.wpos).pushPending (hw.flushIndex_lt (by rw [hp]; nofun)) hq')
    · exact h
  | reserve n =>
    simp only [hp, Option.some.injEq] at hs
    subst hs
    exact h.appendBlocks _

variable [DecidableEq Θ]

/-- The consumers keep the blocks terminated. -/
theorem Terminated.consume (h : Terminated s) {θ : Θ} {spurious : Bool}
    (hs : consume c s θ spurious = some s') : Terminated s' := by
  unfold MultiConsumerQueue.consume at hs
  cases hc : s.consumer θ with
  | detached | idle _ | done _ _ => simp [hc] at hs
  | attach =>
    simp only [hc, Option.some.injEq] at hs
    subst hs
    exact h.link s.head (fun q => { q with consumerCount := q.consumerCount + 1 }) fun _ hq => hq
  | loadIndex b | loadCell b r | popped b x =>
    simp only [hc, Option.some.injEq] at hs
    subst hs
    exact h
  | casIndex b r x =>
    simp only [hc, Option.some.injEq, casIndex] at hs
    split at hs <;> subst hs
    · exact h.modify b (fun q => { q with readIndex := r + 1 }) (h b)
    · exact h
  | exhausted b =>
    simp only [hc, Option.some.injEq, leave] at hs
    have hcollect := (h.modify b (fun q => { q with consumerCount := q.consumerCount - 1 })
      (h b)).collect (c := c) b
    split at hs
    · subst hs
      exact h
    · split at hs <;> subst hs
      · exact hcollect
      · rename_i n _
        exact hcollect.modify n (fun q => { q with consumerCount := q.consumerCount + 1 })
          (hcollect n)
  | detach b =>
    simp only [hc, Option.some.injEq] at hs
    subst hs
    exact (h.modify b (fun q => { q with consumerCount := q.consumerCount - 1 })
      (h b)).collect (c := c) b

theorem Terminated.step {a : Action α Θ} (h : Terminated s) (hi : Inv c s)
    (hs : MultiConsumerQueue.step c s a = some s') : Terminated s' := by
  obtain ⟨before, after, hi⟩ := hi
  cases a with
  | call op =>
    simp only [MultiConsumerQueue.step] at hs
    split at hs
    · cases hs
      cases op <;> exact h
    · cases hs
  | produce => exact h.produce hi hs
  | consume θ spurious => exact h.consume hs
  | ret | attach θ | pop θ | detach θ | popRet θ =>
    simp only [MultiConsumerQueue.step] at hs
    split at hs
    · cases hs
      exact h
    · cases hs

/-- In every reachable state the blocks are terminated. -/
theorem terminated (h : (machine c Θ).Reachable s) : Terminated s := by
  induction h with
  | init h =>
    obtain rfl : _ = State.new c := h
    exact fun b => SubQueue.terminated_reset _
  | step h hs ih => exact ih.step (inv h) hs

omit [DecidableEq Θ] in
/-- The cells of a block up to the flush index are initialised. -/
theorem InvAt.initialised (h : InvAt c s before after) (ht : Terminated s) {b i : ℕ}
    (hb : b ∈ before ++ s.wpos :: after) (hi : i ≤ (s.block b).flushIndex) :
    (s.block b).written i = true := by
  rcases Nat.eq_or_lt_of_le hi with rfl | hlt
  · exact (ht b).2
  rcases List.mem_append.mp hb with hb | hb
  · have hfull := h.data.full b hb
    exact (hfull.cells i (hfull.flushIndex_eq ▸ hlt)).2
  rcases List.mem_cons.mp hb with rfl | hb
  · have hw := h.data.writing
    have hle : (s.block s.wpos).flushIndex ≤ (s.block s.wpos).writeIndex := by
      have hfront := hw.front
      have hvisible := hw.visible_le
      cases hp : s.producer <;> rw [hp] at hfront <;> simp only [Front] at hfront <;> omega
    rcases Nat.lt_trichotomy ((s.block s.wpos).base + i) s.visible with hv | hv | hv
    · exact (hw.cells i hv).2
    · rw [show i = s.visible - (s.block s.wpos).base by omega]
      exact hw.null.2
    · exact (hw.pending i hv (by omega)).2
  · have hflush := (h.data.fresh b hb).flushIndex_eq
    omega

/-- The blocks which consumers can reach: those to which they are attached, and those which follow
the first one. -/
def Reaches (s : State α Θ) (b : ℕ) : Prop :=
  (∃ θ, (s.consumer θ).block = some b) ∨
    Relation.ReflTransGen (fun b n => (s.block b).next = some n) s.head b

omit [DecidableEq Θ] in
/-- The blocks which consumers can reach are in the list. -/
theorem InvAt.mem_of_reaches (h : InvAt c s before after) {b : ℕ} (hb : Reaches s b) :
    b ∈ before ++ s.wpos :: after := by
  rcases hb with ⟨θ, hθ⟩ | hpath
  · exact mem_chain_of_mem_used (h.consumers.attached θ b hθ).1
  · induction hpath with
    | refl => exact mem_chain_of_mem_used (List.mem_of_mem_head? h.chain.head_eq)
    | tail _ hnext ih =>
      rename_i b n _
      obtain ⟨l₁, l₂, hl⟩ := List.append_of_mem ih
      have hlinked := h.chain.linked
      rw [hl] at hlinked ⊢
      have hn := hlinked.mid.2
      rw [hnext, Option.or_none] at hn
      exact List.mem_append_right _ (List.mem_cons_of_mem _ (List.mem_of_mem_head? hn.symm))

/-! ### The visible items -/

/-- A consumer does nothing with the producer. -/
theorem consume_producer {θ : Θ} {spurious : Bool} (hs : consume c s θ spurious = some s') :
    s'.producer = s.producer ∧ s'.visible = s.visible := by
  unfold consume at hs
  cases hc : s.consumer θ with
  | detached | idle _ | done _ _ => simp [hc] at hs
  | attach | popped _ _ | loadIndex _ | loadCell _ _ =>
    simp only [hc, Option.some.injEq] at hs
    exact hs ▸ ⟨rfl, rfl⟩
  | casIndex b r x =>
    simp only [hc, Option.some.injEq, casIndex] at hs
    split at hs <;> exact hs ▸ ⟨rfl, rfl⟩
  | exhausted b =>
    simp only [hc, Option.some.injEq, leave] at hs
    have hrec := recycles_collect c (s.modify b fun q =>
      { q with consumerCount := q.consumerCount - 1 }) b
    split at hs
    · exact hs ▸ ⟨rfl, rfl⟩
    · split at hs <;> exact hs ▸ ⟨hrec.producer, hrec.visible⟩
  | detach b =>
    simp only [hc, Option.some.injEq] at hs
    have hrec := recycles_collect c (s.modify b fun q =>
      { q with consumerCount := q.consumerCount - 1 }) b
    exact hs ▸ ⟨hrec.producer, hrec.visible⟩

omit [DecidableEq Θ] in
/-- An exchange makes everything visible but the item for which there was no room. -/
theorem InvAt.publish_visible (h : InvAt c s before after) {p : SubQueue.Publish α} {k : Cont α}
    (hp : s.producer = .publish p k) :
    (MultiConsumerQueue.publish s p k).visible + k.holding.length = s.pushed.length := by
  have hw := h.data.writing
  obtain ⟨l, hl, hlen⟩ := hw.stored
  have hfront := hw.front
  rw [hp] at hl hfront
  obtain ⟨-, -, -, -, hflush, -⟩ := hfront
  show (s.block s.wpos).base + (s.block s.wpos).flushIndex + _ = _
  rw [hl, List.length_append, hlen, hflush]
  rfl

/-- The steps which flush nothing, after a pending push of the item of the given position: no `Push`
and no `FlushPending` is called, and no later `PushPending` finds its block full. -/
def noFlush (c : Config α) (n : ℕ) (s : State α Θ) : Action α Θ → Bool
  | .call (.push _) | .call .flushPending => false
  | .produce => match s.producer with
    | .pushPending _ => (s.block s.wpos).writeIndex != c.size || s.pushed.length == n + 1
    | _ => true
  | _ => true

/-- The item of the given position is pending, and the producer does not flush it. -/
def Hidden (n : ℕ) (x : α) (s : State α Θ) : Prop :=
  s.visible ≤ n ∧ s.pushed[n]? = some x ∧ match s.producer with
    | .idle | .reserve _ | .done _ | .pushPending _ => True
    | .flush (some _) | .subFlush (.pushPending _ _) | .publish _ (.pushPending _ _)
    | .nextWpos (.pushPending _ _) | .pushPendingAgain _ _ => s.pushed.length = n + 1
    | _ => False

omit [DecidableEq Θ] in
/-- A pending item stays hidden. -/
theorem Hidden.produce {n : ℕ} {x : α} (h : Hidden n x s) (hi : InvAt c s before after)
    (hc : noFlush c n s (.produce : Action α Θ) = true) (hs : produce c s = some s') :
    Hidden n x s' := by
  obtain ⟨hvisible, hpushed, hproducer⟩ := h
  unfold noFlush at hc
  unfold MultiConsumerQueue.produce at hs
  cases hp : s.producer with
  | idle | done _ => simp [hp] at hs
  | push _ | subPush _ _ | pushAgain _ _ => simp [hp] at hproducer
  | pushPending x =>
    simp only [hp] at hs hc
    split at hs <;> obtain rfl := Option.some.inj hs
    · exact ⟨hvisible, hpushed, trivial⟩
    · rename_i hfull
      have hsize := SubQueue.pushPending_eq_none hfull
      refine ⟨hvisible, hpushed, ?_⟩
      simpa [hsize, State.produceAt] using hc
  | flush x =>
    cases x with
    | none => simp [hp] at hproducer
    | some x =>
      simp only [hp] at hs hproducer
      split at hs <;> obtain rfl := Option.some.inj hs <;>
        exact ⟨hvisible, hpushed, hproducer⟩
  | subFlush k =>
    cases k with
    | ret _ | push _ _ => simp [hp] at hproducer
    | pushPending x bne =>
      simp only [hp] at hs hproducer
      split at hs <;> obtain rfl := Option.some.inj hs <;>
        exact ⟨hvisible, hpushed, hproducer⟩
  | publish p k =>
    cases k with
    | ret _ | push _ _ => simp [hp] at hproducer
    | pushPending x bne =>
      have hlen := hi.publish_visible hp
      simp only [hp, Option.some.injEq] at hs hproducer
      subst hs
      refine ⟨?_, hpushed, hproducer⟩
      simp only [Cont.holding, List.length_singleton] at hlen
      omega
  | nextWpos k =>
    cases k with
    | ret _ | push _ _ => simp [hp] at hproducer
    | pushPending x bne =>
      have hhistory := produce_history (c := c) (s := s)
        (show MultiConsumerQueue.produce c s = some _ by unfold MultiConsumerQueue.produce; rw [hp])
      simp only [hp, Option.some.injEq] at hs hproducer
      subst hs
      refine ⟨?_, ?_, ?_⟩
      · exact (nextWpos_visible c s).le.trans hvisible
      · exact (congrArg (·[n]?) hhistory.1).trans hpushed
      · exact (congrArg List.length hhistory.1).trans hproducer
  | pushPendingAgain x bne =>
    simp only [hp] at hs hproducer
    split at hs <;> obtain rfl := Option.some.inj hs <;> exact ⟨hvisible, hpushed, trivial⟩
  | reserve m =>
    simp only [hp, Option.some.injEq] at hs
    subst hs
    refine ⟨?_, ?_, trivial⟩
    · exact (appendBlocks_visible c _ s).le.trans hvisible
    · exact (congrArg (·[n]?) (appendBlocks_history c _ s).1).trans hpushed

theorem Hidden.step {n : ℕ} {x : α} {a : Action α Θ} (h : Hidden n x s) (hi : Inv c s)
    (hc : noFlush c n s a = true) (hs : MultiConsumerQueue.step c s a = some s') :
    Hidden n x s' := by
  obtain ⟨before, after, hi⟩ := hi
  cases a with
  | call op =>
    obtain ⟨hvisible, hpushed, -⟩ := h
    simp only [MultiConsumerQueue.step] at hs
    split at hs
    · cases hs
      cases op with
      | push _ | flushPending => cases hc
      | pushPending x =>
        have hlt := (List.getElem?_eq_some_iff.mp hpushed).1
        exact ⟨hvisible, List.getElem?_append_left hlt ▸ hpushed, trivial⟩
      | reserve _ => exact ⟨hvisible, hpushed, trivial⟩
    · cases hs
  | produce => exact h.produce hi hc hs
  | ret =>
    obtain ⟨hvisible, hpushed, -⟩ := h
    simp only [MultiConsumerQueue.step] at hs
    split at hs
    · cases hs
      exact ⟨hvisible, hpushed, trivial⟩
    · cases hs
  | consume θ spurious =>
    obtain ⟨hproducer, hvisible⟩ := consume_producer hs
    have hpushed := (consume_hand hs).1
    unfold Hidden at h ⊢
    rwa [hproducer, hvisible, hpushed]
  | attach θ | pop θ | detach θ | popRet θ =>
    simp only [MultiConsumerQueue.step] at hs
    split at hs
    · cases hs
      exact h
    · cases hs

/-- A pending item stays hidden as long as nothing is flushed. -/
theorem pending_hidden (h : (machine c Θ).Reachable s) {x : α} {s₁ : State α Θ}
    {as : List (Action α Θ)} (hs : (machine c Θ).step s (.call (.pushPending x)) = some s₁)
    (hr : (machine c Θ).runBy (fun t a => noFlush c s.pushed.length t a = true) s₁ as = some s') :
    (machine c Θ).Reachable s' ∧ s'.visible ≤ s.pushed.length ∧
      s'.pushed[s.pushed.length]? = some x := by
  have hstart : Hidden s.pushed.length x s₁ := by
    obtain ⟨before, after, hi⟩ := inv h
    have hle := hi.data.writing.visible_le_length
    simp only [machine, step] at hs
    split at hs
    · cases hs
      refine ⟨hle, ?_, trivial⟩
      show (s.pushed ++ [x])[s.pushed.length]? = some x
      simp
    · cases hs
  have hreach := h.step hs
  clear hs h
  induction as generalizing s₁ with
  | nil =>
    obtain rfl := Option.some.inj hr
    exact ⟨hreach, hstart.1, hstart.2.1⟩
  | cons a as ih =>
    rw [Machine.runBy] at hr
    split at hr
    · rename_i hc
      obtain ⟨t, hstep, hr⟩ := Option.bind_eq_some_iff.mp hr
      exact ih hr (hstart.step (inv hreach) hc hstep) (hreach.step hstep)
    · cases hr

/-! ### The flushes -/

/-- The operations which flush. -/
def flushes : Op α → Bool
  | .push _ | .flushPending => true
  | _ => false

/-- The calls of the producer. -/
def Action.isCall : Action α Θ → Bool
  | .call _ => true
  | _ => false

/-- The producer is in an operation which makes the items up to the given position visible. -/
def Flushing (n : ℕ) (s : State α Θ) : Prop :=
  match s.producer with
  | .push _ | .flush none | .subPush _ _ | .subFlush (.ret _) | .subFlush (.push _ _)
  | .publish _ (.ret _) | .publish _ (.push _ _) | .nextWpos (.ret _) | .nextWpos (.push _ _)
  | .pushAgain _ _ => s.pushed.length = n
  | .flush (some _) | .subFlush (.pushPending _ _) | .publish _ (.pushPending _ _)
  | .nextWpos (.pushPending _ _) | .pushPendingAgain _ _ => s.pushed.length = n + 1
  | .idle | .done _ => n ≤ s.visible
  | _ => False

omit [DecidableEq Θ] in
theorem InvAt.stored_length (h : InvAt c s before after) :
    s.pushed.length =
      (s.block s.wpos).base + (s.block s.wpos).writeIndex + s.producer.holding.length := by
  obtain ⟨l, hl, hlen⟩ := h.data.writing.stored
  rw [hl, List.length_append, hlen]

omit [DecidableEq Θ] in
/-- A flush goes on until the items are visible. -/
theorem Flushing.produce {n : ℕ} (h : Flushing n s) (hi : InvAt c s before after)
    (hs : produce c s = some s') : Flushing n s' := by
  have hw := hi.data.writing
  have hstored := hi.stored_length
  unfold Flushing at h
  unfold MultiConsumerQueue.produce at hs
  cases hp : s.producer with
  | idle | done _ => simp [hp] at hs
  | pushPending _ | reserve _ => simp [hp] at h
  | push x =>
    simp only [hp, Option.some.injEq] at hs h
    exact hs ▸ h
  | subPush x bne =>
    simp only [hp] at hs h
    split at hs <;> obtain rfl := Option.some.inj hs <;> exact h
  | flush x =>
    have hphase := hw.phase
    rw [hp] at hphase hstored
    cases x with
    | none =>
      simp only [hp] at hs h
      simp only [Phase, Producer.holding, Option.toList_none, List.length_nil] at hphase hstored
      split at hs <;> obtain rfl := Option.some.inj hs
      · show n ≤ s.visible
        omega
      · exact h
    | some x =>
      simp only [hp] at hs h
      split at hs <;> obtain rfl := Option.some.inj hs <;> exact h
  | subFlush k =>
    have hfront := hw.front
    rw [hp] at hfront hstored
    cases k with
    | ret bne =>
      simp only [hp] at hs h
      split at hs <;> obtain rfl := Option.some.inj hs
      · exact h
      · rename_i hnone
        have hnone : (s.block s.wpos).firstPending = none := by
          simpa [SubQueue.flushPending] using hnone
        have hvisible := Saved.eq_of_none hfront (hp ▸ hw) hnone
        simp only [Producer.holding, Cont.holding, List.length_nil] at hstored
        show n ≤ s.visible
        omega
    | push x bne | pushPending x bne =>
      simp only [hp] at hs h
      split at hs <;> obtain rfl := Option.some.inj hs <;> exact h
  | publish p k =>
    have hlen := hi.publish_visible hp
    simp only [hp, Option.some.injEq] at hs
    subst hs
    cases k with
    | ret bne =>
      simp only [hp] at h
      simp only [Cont.holding, List.length_nil] at hlen
      show n ≤ (MultiConsumerQueue.publish s p (.ret bne)).visible
      omega
    | push x bne | pushPending x bne =>
      simp only [hp] at h
      exact h
  | nextWpos k =>
    have hhistory := produce_history (c := c) (s := s)
      (show MultiConsumerQueue.produce c s = some _ by unfold MultiConsumerQueue.produce; rw [hp])
    have hphase := hw.phase
    rw [hp] at hphase hstored
    simp only [hp, Option.some.injEq] at hs
    subst hs
    cases k with
    | ret bne =>
      simp only [hp] at h
      simp only [Phase, Producer.holding, Cont.holding, List.length_nil] at hphase hstored
      show n ≤ (nextWpos c s).visible
      rw [nextWpos_visible]
      omega
    | push x bne | pushPending x bne =>
      simp only [hp] at h
      exact (congrArg List.length hhistory.1).trans h
  | pushAgain x bne =>
    have hphase := hw.phase
    rw [hp] at hphase
    simp only [hp] at hs h
    split at hs <;> obtain rfl := Option.some.inj hs
    · exact h
    · rename_i hfull
      have hsize := SubQueue.push_eq_none hfull
      have hpos := c.size_pos
      obtain ⟨-, hzero, -⟩ := hphase
      omega
  | pushPendingAgain x bne =>
    have hphase := hw.phase
    rw [hp] at hphase hstored
    obtain ⟨-, hzero, hvisible⟩ := hphase
    simp only [Producer.holding, List.length_singleton] at hstored
    simp only [hp] at hs h
    have hle : n ≤ s.visible := by omega
    split at hs <;> obtain rfl := Option.some.inj hs <;> exact hle

theorem Flushing.step {n : ℕ} {a : Action α Θ} (h : Flushing n s) (hi : Inv c s)
    (hc : a.isCall = false) (hs : MultiConsumerQueue.step c s a = some s') : Flushing n s' := by
  obtain ⟨before, after, hi⟩ := hi
  cases a with
  | call op => cases hc
  | produce => exact h.produce hi hs
  | ret =>
    simp only [MultiConsumerQueue.step] at hs
    split at hs
    · rename_i hp
      cases hs
      unfold Flushing at h
      rw [hp] at h
      exact h
    · cases hs
  | consume θ spurious =>
    obtain ⟨hproducer, hvisible⟩ := consume_producer hs
    have hpushed := (consume_hand hs).1
    unfold Flushing at h ⊢
    rwa [hproducer, hvisible, hpushed]
  | attach θ | pop θ | detach θ | popRet θ =>
    simp only [MultiConsumerQueue.step] at hs
    split at hs
    · cases hs
      exact h
    · cases hs

/-- The items which are flushed are visible when the operation is over. -/
theorem Flushing.run {n : ℕ} (h : Flushing n s) (hreach : (machine c Θ).Reachable s)
    {as : List (Action α Θ)} (hcalls : ∀ a ∈ as, a.isCall = false)
    (hr : (machine c Θ).run s as = some s')
    (hdone : s'.producer = .idle ∨ ∃ bne, s'.producer = .done bne) : n ≤ s'.visible := by
  induction as generalizing s with
  | nil =>
    obtain rfl := Option.some.inj hr
    unfold Flushing at h
    obtain hp | ⟨bne, hp⟩ := hdone <;> rw [hp] at h <;> exact h
  | cons a as ih =>
    obtain ⟨t, hstep, hr⟩ := Option.bind_eq_some_iff.mp hr
    exact ih (h.step (inv hreach) (hcalls a List.mem_cons_self) hstep) (hreach.step hstep)
      (fun b hb => hcalls b (List.mem_cons_of_mem _ hb)) hr

/-! ### A consumer which runs alone -/

/-- A consumer goes on from an exhausted block to the next one, whose items come later. -/
theorem InvAt.leave_next (h : InvAt c s before after) {θ : Θ} {b : ℕ}
    (hc : s.consumer θ = .exhausted b) (hw : b ≠ s.wpos) :
    let s' := MultiConsumerQueue.leave c s θ b
    (∃ n, s'.consumer θ = .loadIndex n ∧ (s.block b).base + c.size ≤ (s'.block n).base) ∧
      (s'.block s'.wpos).base = (s.block s.wpos).base ∧
      (s.block b).base + c.size ≤ (s.block s.wpos).base ∧
      s'.popped = s.popped ∧ s'.visible = s.visible := by
  have hblock : (s.consumer θ).block = some b := by rw [hc]; rfl
  obtain ⟨hm, -⟩ := h.consumers.attached θ b hblock
  have hb : b ∈ before := (List.mem_append.mp hm).resolve_right fun hm => hw (by simpa using hm)
  have hlast := (List.pairwise_append.mp h.data.spaced).2.2 b hb s.wpos List.mem_cons_self
  obtain ⟨n, hnext, hnb, hn, hbase, -⟩ := h.next_block hb
  obtain ⟨_, _, -, hkept⟩ := (h.release hblock).collect (b := b) hm
  rw [collect_consumeAt] at hkept
  have hrec := recycles_collect c
    (s.modify b fun q => { q with consumerCount := q.consumerCount - 1 }) b
  have hleave : MultiConsumerQueue.leave c s θ b =
      ((MultiConsumerQueue.collect c (s.modify b fun q =>
        { q with consumerCount := q.consumerCount - 1 }) b).modify n fun q =>
          { q with consumerCount := q.consumerCount + 1 }).consumeAt θ (.loadIndex n) := by
    unfold MultiConsumerQueue.leave
    rw [if_neg hw]
    simp only [hnext]
  -- the blocks of the list which are not left stay as they are
  have hsame : ∀ x ∈ before ++ [s.wpos], x ≠ b →
      ((MultiConsumerQueue.leave c s θ b).block x).base = (s.block x).base := fun x hx hxb => by
    have hbaseₓ := (hkept x hx hxb).2.base
    simp only [State.consumeAt_block, State.modify_block, if_neg hxb] at hbaseₓ
    rw [hleave, State.consumeAt_block, State.modify_block]
    split
    · rename_i hxn
      subst hxn
      exact hbaseₓ
    · exact hbaseₓ
  have hwpos : (MultiConsumerQueue.leave c s θ b).wpos = s.wpos := by
    rw [hleave]
    exact hrec.wpos
  refine ⟨⟨n, ?_, ?_⟩, ?_, hlast, ?_, ?_⟩
  · rw [hleave, State.consumeAt_consumer, if_pos rfl]
  · rw [hsame n hn hnb]
    exact hbase
  · rw [hwpos]
    exact hsame s.wpos (by simp) (Ne.symm hw)
  · rw [hleave]
    exact hrec.popped
  · rw [hleave]
    exact hrec.visible

/-- A consumer which runs alone gets the next visible item. -/
theorem Inv.pop_next (h : Inv c s) {θ : Θ} {b : ℕ} (hc : s.consumer θ = .loadIndex b)
    (hlt : s.popped.length < s.visible) :
    ∃ k s' b' x, (machine c Θ).run s (List.replicate k (.consume θ false)) = some s' ∧
      s'.consumer θ = .popped b' x ∧ s'.popped.length = s.popped.length + 1 ∧
      s'.visible = s.visible := by
  -- the blocks up to that of the producer are left one after another
  induction hm : (s.block s.wpos).base - (s.block b).base using Nat.strong_induction_on
    generalizing s b with
  | _ m ih =>
  subst hm
  obtain ⟨before, after, hi⟩ := h
  have hloadIndex : (machine c Θ).step s (.consume θ false) =
      some (withIndex c s θ b (s.block b).readIndex) := by
    show consume c s θ false = _
    unfold consume
    rw [hc]
  have h₁ : Inv c (withIndex c s θ b (s.block b).readIndex) :=
    Inv.step (a := .consume θ false) ⟨before, after, hi⟩ hloadIndex
  by_cases hr : (s.block b).readIndex = c.size
  · have hw : b ≠ s.wpos := fun he => by
      have := hi.read_up (he ▸ hr)
      omega
    rw [withIndex, if_pos hr] at hloadIndex h₁
    obtain ⟨before₁, after₁, hi₁⟩ := h₁
    have hc₁ : (s.consumeAt θ (.exhausted b)).consumer θ = .exhausted b := by simp
    have hleave : (machine c Θ).step (s.consumeAt θ (.exhausted b)) (.consume θ false) =
        some (leave c (s.consumeAt θ (.exhausted b)) θ b) := by
      show consume c (s.consumeAt θ (.exhausted b)) θ false = _
      unfold consume
      rw [hc₁]
    obtain ⟨⟨n, hn, hbase⟩, hwbase, hle, hpopped, hvisible⟩ := hi₁.leave_next hc₁ hw
    have h₂ : Inv c (leave c (s.consumeAt θ (.exhausted b)) θ b) :=
      Inv.step (a := .consume θ false) ⟨before₁, after₁, hi₁⟩ hleave
    have hpos := c.size_pos
    have hbase : (s.block b).base + c.size ≤ _ := hbase
    have hwbase : _ = (s.block s.wpos).base := hwbase
    have hle : (s.block b).base + c.size ≤ (s.block s.wpos).base := hle
    obtain ⟨k, s', b', x, hrun, hpop, hlen, hv⟩ := ih _ (by rw [hwbase]; omega) h₂ hn
      (by rw [hpopped, hvisible]; exact hlt) rfl
    refine ⟨k + 2, s', b', x, ?_, hpop, ?_, ?_⟩
    · rw [List.replicate_succ, List.replicate_succ, Machine.run_cons, hloadIndex,
        Option.bind_some, Machine.run_cons, hleave]
      exact hrun
    · rw [hlen, hpopped]
      rfl
    · exact hv.trans hvisible
  · rw [withIndex, if_neg hr] at hloadIndex h₁
    set r := (s.block b).readIndex with hr'
    obtain ⟨before₁, after₁, hi₁⟩ := h₁
    have hc₁ : (s.consumeAt θ (.loadCell b r)).consumer θ = .loadCell b r := by simp
    obtain ⟨-, ⟨hv, hcell⟩ | ⟨-, -, -, hnone⟩⟩ := hi₁.cell_eq hc₁
    · have hlen : s.visible ≤ s.pushed.length := hi.data.writing.visible_le_length
      have hv : (s.block b).base + r < s.visible := hv
      obtain ⟨x, hx⟩ : ∃ x, s.pushed[(s.block b).base + r]? = some x :=
        ⟨_, List.getElem?_eq_getElem (by omega)⟩
      have hcell : (s.block b).cell r = some x := Eq.trans hcell hx
      have hload : (machine c Θ).step (s.consumeAt θ (.loadCell b r)) (.consume θ false) =
          some (((s.consumeAt θ (.loadCell b r)).assert ((s.block b).written r)).consumeAt θ
            (.casIndex b r x)) := by
        show consume c (s.consumeAt θ (.loadCell b r)) θ false = _
        unfold consume
        rw [hc₁]
        dsimp only
        unfold loadCell
        simp only [State.consumeAt_block, hcell]
      set t := ((s.consumeAt θ (.loadCell b r)).assert ((s.block b).written r)).consumeAt θ
        (.casIndex b r x) with ht
      set t' := ({ t with popped := t.popped ++ [x] }.modify b fun q =>
        { q with readIndex := r + 1 }).consumeAt θ (.popped b x) with ht'
      have hcas : (machine c Θ).step t (.consume θ false) = some t' := by
        show consume c t θ false = _
        have hc₂ : t.consumer θ = .casIndex b r x := by simp [ht]
        unfold consume
        rw [hc₂]
        dsimp only
        unfold casIndex
        rw [if_pos ⟨rfl, rfl⟩]
      refine ⟨3, t', b, x, ?_, ?_, ?_, ?_⟩
      · rw [List.replicate_succ, List.replicate_succ, List.replicate_succ, Machine.run_cons,
          hloadIndex, Option.bind_some, Machine.run_cons, hload, Option.bind_some,
          Machine.run_cons, hcas]
        rfl
      · simp [ht']
      · exact List.length_append
      · rfl
    · exact absurd hnone (Nat.ne_of_lt hlt)

/-- The steps of a consumer which runs alone. -/
def Action.pops (θ : Θ) : Action α Θ → Bool
  | .pop θ' | .consume θ' _ | .popRet θ' => θ' = θ
  | _ => false

/-- A consumer which runs alone gets all the visible items. -/
theorem pop_all (h : (machine c Θ).Reachable s) {θ : Θ} {b : ℕ} (hc : s.consumer θ = .idle b) :
    ∃ as s', (∀ a ∈ as, Action.pops θ a = true) ∧ (machine c Θ).run s as = some s' ∧
      s'.popped.length = s.visible := by
  -- one pop after another
  induction hm : s.visible - s.popped.length generalizing s b with
  | zero =>
    obtain ⟨before, after, hi⟩ := inv h
    have hle := hi.data.popped_le
    exact ⟨[], s, nofun, rfl, by omega⟩
  | succ m ih =>
    have hpop : (machine c Θ).step s (.pop θ) = some (s.consumeAt θ (.loadIndex b)) := by
      show MultiConsumerQueue.step c s (.pop θ) = _
      unfold MultiConsumerQueue.step
      simp only [hc]
    obtain ⟨k, t, b', x, hrun, ht, hlen, hvisible⟩ := (inv (h.step hpop)).pop_next (θ := θ) (b := b)
      (by simp) (show s.popped.length < s.visible by omega)
    have hlen : t.popped.length = s.popped.length + 1 := hlen
    have hvisible : t.visible = s.visible := hvisible
    have hdone : (machine c Θ).step t (.consume θ false) =
        some ({ t with count := t.count - 1 }.consumeAt θ (.done b' (some x))) := by
      show consume c t θ false = _
      unfold consume
      rw [ht]
    set t₁ := ({ t with count := t.count - 1 } : State α Θ).consumeAt θ (.done b' (some x)) with ht₁
    have hret : (machine c Θ).step t₁ (.popRet θ) = some (t₁.consumeAt θ (.idle b')) := by
      show MultiConsumerQueue.step c t₁ (.popRet θ) = _
      have hc₁ : t₁.consumer θ = .done b' (some x) := by simp [ht₁]
      unfold MultiConsumerQueue.step
      simp only [hc₁]
    have hreach := (((h.step hpop).of_run hrun).step hdone).step hret
    have hvisible₁ : (t₁.consumeAt θ (.idle b')).visible = s.visible := hvisible
    have hlen₁ : (t₁.consumeAt θ (.idle b')).popped.length = s.popped.length + 1 := hlen
    obtain ⟨as, s', hpops, hrun', hlen'⟩ := ih hreach (b := b') (by simp) (by
      rw [hvisible₁, hlen₁]
      omega)
    refine ⟨.pop θ :: (List.replicate k (Action.consume θ false) ++
      Action.consume θ false :: .popRet θ :: as), s', fun a ha => ?_, ?_, hlen'.trans hvisible₁⟩
    · simp only [List.mem_cons, List.mem_append, List.mem_replicate] at ha
      obtain rfl | ⟨-, rfl⟩ | rfl | rfl | ha := ha
      any_goals exact decide_eq_true rfl
      exact hpops a ha
    · rw [Machine.run_cons, hpop, Option.bind_some, Machine.run_append, hrun, Option.bind_some,
        Machine.run_cons, hdone, Option.bind_some, Machine.run_cons, hret, Option.bind_some]
      exact hrun'

/-- **Pending items.** In every reachable state, for any size of the blocks and any number of
consumers: an item of `PushPending` is not popped before a flush, that is before a `Push` or a
`FlushPending` is called or a later `PushPending` finds its block full; when a `Push` or a
`FlushPending` is over, all the items are visible, and when a `PushPending` which found its block
full is over, all the earlier ones; a consumer which runs alone gets all the visible items; and in
the blocks which consumers can reach the cells up to the flush index are initialised, and the one at
the flush index is null, as is the one which an exchange is about to fill. -/
theorem pending_visibility (h : (machine c Θ).Reachable s) :
    (∀ x s₁ as s', (machine c Θ).step s (.call (.pushPending x)) = some s₁ →
      (machine c Θ).runBy (fun t a => noFlush c s.pushed.length t a = true) s₁ as = some s' →
      s'.pushed[s.pushed.length]? = some x ∧ s'.popped.length ≤ s.pushed.length ∧
        s'.popped = s'.pushed.take s'.popped.length) ∧
    (∀ op s₁ as s', flushes op = true → (machine c Θ).step s (.call op) = some s₁ →
      (∀ a ∈ as, a.isCall = false) → (machine c Θ).run s₁ as = some s' →
      (s'.producer = .idle ∨ ∃ bne, s'.producer = .done bne) → s₁.pushed.length ≤ s'.visible) ∧
    (∀ x as s', s.producer = .flush (some x) → (∀ a ∈ as, a.isCall = false) →
      (machine c Θ).run s as = some s' →
      (s'.producer = .idle ∨ ∃ bne, s'.producer = .done bne) →
      s.pushed.length ≤ s'.visible + 1) ∧
    (∀ θ b, s.consumer θ = .idle b → ∃ as s', (∀ a ∈ as, Action.pops θ a = true) ∧
      (machine c Θ).run s as = some s' ∧ s'.popped.length = s.visible) ∧
    (∀ b, Reaches s b → (∀ i, (s.block b).readIndex ≤ i → i ≤ (s.block b).flushIndex →
      (s.block b).written i = true) ∧ (s.block b).cell (s.block b).flushIndex = none) ∧
    (∀ p k, s.producer = .publish p k → (s.block s.wpos).cell p.cell = none) ∧
    ∀ θ b r, s.consumer θ = .loadCell b r → (s.block b).written r = true := by
  have hterminated := terminated h
  obtain ⟨before, after, hi⟩ := inv h
  refine ⟨fun x s₁ as s' hs hr => ?_, fun op s₁ as s' hop hs hcalls hr hdone => ?_,
    fun x as s' hp hcalls hr hdone => ?_, fun θ b hc => pop_all h hc, fun b hb =>
    ⟨fun i _ hle => hi.initialised hterminated (hi.mem_of_reaches hb) hle, (hterminated b).1⟩,
    fun p k hp => ?_, fun θ b r hc => (hi.cell_eq hc).1⟩
  · obtain ⟨hreach, hvisible, hx⟩ := pending_hidden h hs hr
    obtain ⟨_, _, hi'⟩ := inv hreach
    exact ⟨hx, hi'.data.popped_le.trans hvisible, hi'.data.popped_eq⟩
  · refine Flushing.run ?_ (h.step hs) hcalls hr hdone
    simp only [machine, step] at hs
    split at hs
    · cases hs
      cases op with
      | push _ | flushPending => rfl
      | pushPending _ | reserve _ => cases hop
    · cases hs
  · have hlen := hi.stored_length
    rw [hp] at hlen
    simp only [Producer.holding, Option.toList_some, List.length_singleton] at hlen
    have hflushing : Flushing (s.pushed.length - 1) s := by
      unfold Flushing
      rw [hp]
      show s.pushed.length = s.pushed.length - 1 + 1
      omega
    have := hflushing.run h hcalls hr hdone
    omega
  · have hw := hi.data.writing
    have hfront := hw.front
    rw [hp] at hfront
    obtain ⟨hcell, -⟩ := hfront
    rw [show p.cell = s.visible - (s.block s.wpos).base by omega]
    exact hw.null.1

/-- A consumer, and a pending item in a block of one cell. -/
def pendingRun : List (Action ℕ Unit) :=
  [.attach (), .consume () false, .call (.pushPending 1), .produce, .ret]

/-- A second pending item, whose push flushes the first one, and a flush instead. -/
theorem pending_visibility_sample : ∃ s s₁ s' s₂ t,
    (machine tiny Unit).run (.new tiny) pendingRun = some s ∧ s.visible = 0 ∧
      (machine tiny Unit).step s (.call (.pushPending 2)) = some s₁ ∧
      (machine tiny Unit).runBy (fun t a => noFlush tiny s.pushed.length t a = true) s₁
        (List.replicate 6 Action.produce ++ [.ret]) = some s' ∧ s'.visible = 1 ∧
      s'.pushed[s.pushed.length]? = some 2 ∧ s'.popped.length ≤ s.pushed.length ∧
      (machine tiny Unit).step s (.call .flushPending) = some s₂ ∧
      (machine tiny Unit).run s₂ (List.replicate 3 Action.produce ++ [.ret]) = some t ∧
      s₂.pushed.length ≤ t.visible := by
  have hrun : (((machine tiny Unit).run (.new tiny) pendingRun).bind fun s =>
      ((machine tiny Unit).step s (.call (.pushPending 2))).bind fun s₁ =>
      ((machine tiny Unit).runBy (fun t a => noFlush tiny s.pushed.length t a = true) s₁
        (List.replicate 6 Action.produce ++ [.ret])).bind fun s' =>
      ((machine tiny Unit).step s (.call .flushPending)).bind fun s₂ =>
      ((machine tiny Unit).run s₂ (List.replicate 3 Action.produce ++ [.ret])).map fun t =>
        (s.visible, s'.visible, ((machine tiny Unit).step t (.call .flushPending)).isSome)) =
          some (0, 1, true) := by
    decide +kernel
  simp only [Option.bind_eq_some_iff, Option.map_eq_some_iff, Prod.mk.injEq] at hrun
  obtain ⟨s, hs, s₁, hs₁, s', hs', s₂, hs₂, t, ht, hv, hv', hidle⟩ := hrun
  have hidle : t.producer = .idle := by
    cases hp : t.producer <;> simp [machine, step, hp] at hidle ⊢
  obtain ⟨hhidden, hflush, -⟩ := pending_visibility (.of_run (.init rfl) hs)
  obtain ⟨hx, hlen, -⟩ := hhidden 2 s₁ _ s' hs₁ hs'
  refine ⟨s, s₁, s', s₂, t, hs, hv, hs₁, hs', hv', hx, hlen, hs₂, ht,
    hflush .flushPending s₂ _ t rfl hs₂ (fun a ha => ?_) ht (.inl hidle)⟩
  rcases List.mem_append.mp ha with ha | ha
  · rw [List.eq_of_mem_replicate ha]
    rfl
  · rw [List.mem_singleton.mp ha]
    rfl

end MultiConsumerQueue

end Serverbox
