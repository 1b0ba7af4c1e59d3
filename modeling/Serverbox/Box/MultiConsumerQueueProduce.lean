import Serverbox.Box.MultiConsumerQueueInvariant

/-!
# The producer of the multi-consumer queue

The steps which the producer makes in its own block keep the invariant of the queue.

## Main results

* `MultiConsumerQueue.InvAt.produce`: a step in the block of the producer keeps the list of the
  blocks and what the consumers know.
* `MultiConsumerQueue.Writing.push`, `MultiConsumerQueue.Writing.pushPending`,
  `MultiConsumerQueue.Writing.flushPending`, `MultiConsumerQueue.InvAt.publish`: the operations
  on the block.
-/

namespace Serverbox

namespace MultiConsumerQueue

variable {α Θ : Type*} {c : Config α} {s s' : State α Θ} {before after : List ℕ}

/-- What of a block does not belong to the producer is unchanged. -/
structure SubQueue.Outer (q q' : SubQueue α) : Prop where
  next : q'.next = q.next
  prev : q'.prev = q.prev
  consumerCount : q'.consumerCount = q.consumerCount
  base : q'.base = q.base
  readIndex : q'.readIndex = q.readIndex

theorem SubQueue.Outer.refl (q : SubQueue α) : Outer q q := ⟨rfl, rfl, rfl, rfl, rfl⟩

theorem SubQueue.store_outer (q : SubQueue α) (i : ℕ) (x : Option α) : q.Outer (q.store i x) :=
  ⟨rfl, rfl, rfl, rfl, rfl⟩

theorem SubQueue.push_outer {q : SubQueue α} {x : α} {r} (h : q.push c x = some r) :
    q.Outer r.1 := by
  unfold SubQueue.push at h
  by_cases hfull : q.writeIndex = c.size
  · simp [hfull] at h
  · rcases hfp : q.firstPending with _ | y <;>
      simp only [hfull, if_false, hfp, Option.some.injEq] at h <;> subst h <;>
      exact ⟨rfl, rfl, rfl, rfl, rfl⟩

theorem SubQueue.pushPending_outer {q q' : SubQueue α} {x : α}
    (h : q.pushPending c x = some q') : q.Outer q' := by
  unfold SubQueue.pushPending at h
  by_cases hfull : q.writeIndex = c.size
  · simp [hfull] at h
  · rcases hfp : q.firstPending with _ | y <;> simp [hfull, hfp] at h <;> subst h <;>
      exact ⟨rfl, rfl, rfl, rfl, rfl⟩

theorem SubQueue.flushPending_outer {q : SubQueue α} {r} (h : q.flushPending = some r) :
    q.Outer r.1 := by
  obtain ⟨y, -, rfl⟩ := Option.map_eq_some_iff.mp h
  exact ⟨rfl, rfl, rfl, rfl, rfl⟩

/-- A step of the producer in its block: everything else is unchanged, except for the items which
are pushed and which of them are visible. -/
structure Produces (s s' : State α Θ) : Prop where
  block : ∀ b ≠ s.wpos, s'.block b = s.block b
  outer : (s.block s.wpos).Outer (s'.block s.wpos)
  wpos : s'.wpos = s.wpos
  head : s'.head = s.head
  tail : s'.tail = s.tail
  allocated : s'.allocated = s.allocated
  subQueueCount : s'.subQueueCount = s.subQueueCount
  consumer : s'.consumer = s.consumer
  popped : s'.popped = s.popped
  pushed : s.pushed <+: s'.pushed
  visible : s.visible ≤ s'.visible

theorem getElem?_of_isPrefix {l l' : List α} (h : l <+: l') {i : ℕ} (hi : i < l.length) :
    l'[i]? = l[i]? := by
  obtain ⟨m, rfl⟩ := h
  exact List.getElem?_append_left hi

theorem Writing.visible_le_length {q : SubQueue α} {pushed : List α} {visible pending : ℕ}
    {p : Producer α} (h : Writing c q pushed visible pending p) : visible ≤ pushed.length := by
  obtain ⟨l, hl, hlen⟩ := h.stored
  have := h.visible_le
  rw [hl, List.length_append]
  omega

theorem Produces.chain (hp : Produces s s') (h : Chain s before after) :
    Chain s' before after := by
  refine h.congr (fun b => ?_) (fun b => ?_) hp.wpos hp.head hp.tail hp.allocated hp.subQueueCount
  · rcases eq_or_ne b s.wpos with rfl | hne
    · exact hp.outer.next
    · rw [hp.block b hne]
  · rcases eq_or_ne b s.wpos with rfl | hne
    · exact hp.outer.prev
    · rw [hp.block b hne]

theorem Produces.consumers (hp : Produces s s') (hlen : s.visible ≤ s.pushed.length)
    (h : Consumers c s before after) : Consumers c s' before after := by
  have hbase : ∀ b, (s'.block b).base = (s.block b).base := fun b => by
    rcases eq_or_ne b s.wpos with rfl | hne
    · exact hp.outer.base
    · rw [hp.block b hne]
  have hread : ∀ b, (s'.block b).readIndex = (s.block b).readIndex := fun b => by
    rcases eq_or_ne b s.wpos with rfl | hne
    · exact hp.outer.readIndex
    · rw [hp.block b hne]
  have hcount : ∀ b, (s'.block b).consumerCount = (s.block b).consumerCount := fun b => by
    rcases eq_or_ne b s.wpos with rfl | hne
    · exact hp.outer.consumerCount
    · rw [hp.block b hne]
  refine ⟨fun θ b hb => ?_, fun θ => ?_, fun b hb => ?_⟩
  · rw [hp.wpos, hp.popped, hbase]
    exact h.attached θ b (hp.consumer ▸ hb)
  · have hk := h.knows θ
    rw [hp.consumer]
    cases hc : s.consumer θ with
    | loadCell b r =>
      rw [hc] at hk
      exact ⟨hk.1, (hread b).symm ▸ hk.2⟩
    | casIndex b r x =>
      rw [hc] at hk
      obtain ⟨h₁, h₂, h₃⟩ := hk
      refine ⟨h₁, ?_, ?_⟩
      · rw [hbase]
        exact Nat.lt_of_lt_of_le h₂ hp.visible
      · rw [hbase, getElem?_of_isPrefix hp.pushed (Nat.lt_of_lt_of_le h₂ hlen), h₃]
    | exhausted b =>
      rw [hc] at hk
      exact (hread b).trans hk
    | _ => trivial
  · rw [hp.wpos] at hb
    rw [hp.consumer, hcount]
    exact h.counted b hb

theorem Produces.data (hp : Produces s s') (hch : Chain s before after)
    (h : Data c s before after)
    (hwr : Writing c (s'.block s.wpos) s'.pushed s'.visible s'.pendingCount s'.producer) :
    Data c s' before after := by
  obtain ⟨-, hnd, hdisj⟩ := List.nodup_append.mp hch.nodup
  have hbefore : ∀ b ∈ before, b ≠ s.wpos := fun b hb => hdisj b hb _ (by simp)
  have hafter : ∀ b ∈ after, b ≠ s.wpos := fun b hb he => (List.nodup_cons.mp hnd).1 (he ▸ hb)
  have hlen := h.writing.visible_le_length
  have hbase : ∀ b, (s'.block b).base = (s.block b).base := fun b => by
    rcases eq_or_ne b s.wpos with rfl | hne
    · exact hp.outer.base
    · rw [hp.block b hne]
  have hread : ∀ b, (s'.block b).readIndex = (s.block b).readIndex := fun b => by
    rcases eq_or_ne b s.wpos with rfl | hne
    · exact hp.outer.readIndex
    · rw [hp.block b hne]
  constructor
  · rw [hp.popped]
    exact Nat.le_trans h.popped_le hp.visible
  · obtain ⟨l, hl⟩ := hp.pushed
    have := h.popped_le
    rw [hp.popped, ← hl, List.take_append_of_le_length (by omega)]
    exact h.popped_eq
  · intro b hb
    rw [hp.block b (hbefore b hb)]
    refine { h.full b hb with cells := fun i hi => ?_ }
    -- the blocks before the one of the producer are visible to their ends
    have h₁ := (List.pairwise_append.mp h.spaced).2.2 b hb s.wpos (by simp)
    have h₂ := h.writing.base_le
    rw [getElem?_of_isPrefix hp.pushed (by omega)]
    exact (h.full b hb).cells i hi
  · rw [hp.wpos]
    exact hwr
  · intro b hb
    rw [hp.block b (hafter b hb)]
    exact h.fresh b hb
  · rw [hp.wpos]
    simpa only [hbase] using h.spaced
  · rw [hp.wpos, hp.popped]
    simpa only [hbase] using h.dense
  · rw [hp.wpos, hp.popped]
    simpa only [hbase] using h.reached
  · rw [hp.wpos, hp.popped]
    simpa only [hbase, hread] using h.read

/-- A step in the block of the producer keeps the invariant when the block is what it should be. -/
theorem InvAt.produce (h : InvAt c s before after) (hp : Produces s s')
    (hwr : Writing c (s'.block s.wpos) s'.pushed s'.visible s'.pendingCount s'.producer)
    (hf : s'.failed = false) : InvAt c s' before after :=
  ⟨hp.chain h.chain, hp.data h.chain h.data hwr,
    hp.consumers h.data.writing.visible_le_length h.consumers, hf⟩

/-- The front of the pending items while the producer is not about to exchange it. -/
def Saved (q : SubQueue α) (pushed : List α) (visible : ℕ) : Prop :=
  q.base + q.flushIndex = visible ∧
    q.firstPending = if visible < q.base + q.writeIndex then pushed[visible]? else none

section SubQueue

variable {q : SubQueue α} {pushed : List α} {visible pending : ℕ} {p : Producer α} {x : α}

/-- Nothing is pending in a block without a saved item. -/
theorem Saved.eq_of_none (h : Saved q pushed visible)
    (hw : Writing c q pushed visible pending p) (hn : q.firstPending = none) :
    visible = q.base + q.writeIndex := by
  by_contra hne
  have hle := hw.visible_le
  have hlt : visible < q.base + q.writeIndex := by omega
  obtain ⟨l, hl, hlen⟩ := hw.stored
  have hlen' : visible < pushed.length := by
    rw [hl, List.length_append]
    omega
  have := h.2
  rw [if_pos hlt, hn, List.getElem?_eq_getElem hlen'] at this
  cases this

theorem Saved.lt_of_some (h : Saved q pushed visible) {y : α} (hy : q.firstPending = some y) :
    visible < q.base + q.writeIndex ∧ pushed[visible]? = some y := by
  have := h.2
  rw [hy] at this
  split at this
  · exact ⟨‹_›, this.symm⟩
  · cases this

/-- The item in the hands of the producer is the first one which is not stored in the block. -/
theorem Writing.getElem?_holding (h : Writing c q pushed visible pending p)
    (hx : p.holding = [x]) : pushed[q.base + q.writeIndex]? = some x ∧
      ∃ l, pushed = l ++ [] ∧ l.length = q.base + (q.writeIndex + 1) := by
  obtain ⟨l, hl, hlen⟩ := h.stored
  rw [hx] at hl
  refine ⟨by simp [hl, ← hlen], pushed, by simp, ?_⟩
  rw [hl, List.length_append, hlen, List.length_singleton]
  omega

/-- A push which found room in the block is about to make its items visible. -/
theorem Writing.push (h : Writing c q pushed visible 0 p) (hs : Saved q pushed visible)
    (hx : p.holding = [x]) {r} (hr : q.push c x = some r) (bne : Bool) :
    Writing c r.1 pushed visible 0 (.publish r.2 (.ret bne)) ∧ r.2.ok = true := by
  obtain ⟨hlast, hstored⟩ := h.getElem?_holding hx
  have hsaved := hs.eq_of_none h
  obtain ⟨hle, hb, hvis, hcells, hnull, hpending, -, -, -⟩ := h
  have hfl := hs.1
  unfold SubQueue.push at hr
  by_cases hfull : q.writeIndex = c.size
  · simp [hfull] at hr
  rcases hfp : q.firstPending with _ | y
  · have hv := hsaved hfp
    simp only [hfull, if_false, hfp, Option.some.injEq] at hr
    subst hr
    refine ⟨⟨?_, hb, ?_, fun i hi => ?_, ?_, fun i hi hi' => ?_, hstored, ?_, ?_⟩, rfl⟩
    · exact Nat.lt_of_le_of_ne hle hfull
    · simp only [SubQueue.store_base]
      omega
    · have hne : i ≠ q.writeIndex + 1 := by
        simp only [SubQueue.store_base] at hi
        omega
      simpa [hne] using hcells i hi
    · have hne : visible - q.base ≠ q.writeIndex + 1 := by omega
      simpa [hne] using hnull
    · simp only [SubQueue.store_base] at hi hi'
      omega
    · refine ⟨hfl, ?_, ?_, hfp, rfl, ?_, ?_⟩ <;> simp [hv, hlast]
    · simp [Phase, Cont.moves]
  · obtain ⟨hlt, hy⟩ := hs.lt_of_some hfp
    simp only [hfull, if_false, hfp, Option.some.injEq] at hr
    subst hr
    refine ⟨⟨?_, hb, ?_, fun i hi => ?_, ?_, fun i hi hi' => ?_, hstored, ?_, ?_⟩, ?_⟩
    · exact Nat.lt_of_le_of_ne hle hfull
    · simp only [SubQueue.store_base, SubQueue.store_writeIndex]
      omega
    · simp only [SubQueue.store_base] at hi
      have hne : i ≠ q.writeIndex + 1 := by omega
      have hne' : i ≠ q.writeIndex := by omega
      simpa [hne, hne'] using hcells i hi
    · have hne : visible - q.base ≠ q.writeIndex + 1 := by omega
      have hne' : visible - q.base ≠ q.writeIndex := by omega
      simpa [hne, hne'] using hnull
    · simp only [SubQueue.store_base, SubQueue.store_writeIndex] at hi hi'
      have hne : i ≠ q.writeIndex + 1 := by omega
      rcases eq_or_ne i q.writeIndex with rfl | hne'
      · simpa using hlast.symm
      · simpa [hne, hne'] using hpending i hi (by omega)
    · refine ⟨hfl, ?_, hy, rfl, rfl, ?_, ?_⟩
      · simp only [SubQueue.store_base, SubQueue.store_writeIndex]
        omega
      · simp
      · simp
    · simp [Phase, Cont.moves]
    · simp only [decide_eq_true_eq]
      omega

/-- A pending push which found room in the block. -/
theorem Writing.pushPending (h : Writing c q pushed visible pending p)
    (hs : Saved q pushed visible) (hpend : pending + visible = q.base + q.writeIndex)
    (hx : p.holding = [x]) {q'} (hq : q.pushPending c x = some q') (bne : Bool) :
    Writing c q' pushed visible (pending + 1) (.done bne) := by
  obtain ⟨hlast, hstored⟩ := h.getElem?_holding hx
  have hsaved := hs.eq_of_none h
  obtain ⟨hle, hb, hvis, hcells, hnull, hpending, -, -, -⟩ := h
  have hfl := hs.1
  unfold SubQueue.pushPending at hq
  by_cases hfull : q.writeIndex = c.size
  · simp [hfull] at hq
  rcases hfp : q.firstPending with _ | y
  · have hv := hsaved hfp
    simp only [hfull, if_false, hfp, Option.isNone_none, if_true, Option.some.injEq] at hq
    subst hq
    refine ⟨Nat.lt_of_le_of_ne hle hfull, hb, ?_, hcells, hnull, fun i hi hi' => ?_, hstored,
      ⟨hfl, ?_⟩, ?_⟩
    · simp only
      omega
    · simp only at hi hi'
      omega
    · simp [hv, hlast]
    · simp only [Phase]
      omega
  · obtain ⟨hlt, hy⟩ := hs.lt_of_some hfp
    simp only [hfull, if_false, hfp, Option.isNone_some, Bool.false_eq_true, if_false,
      Option.some.injEq] at hq
    subst hq
    refine ⟨Nat.lt_of_le_of_ne hle hfull, hb, ?_, fun i hi => ?_, ?_, fun i hi hi' => ?_, hstored,
      ⟨hfl, ?_⟩, ?_⟩
    · simp only [SubQueue.store_base]
      omega
    · simp only [SubQueue.store_base] at hi
      have hne : i ≠ q.writeIndex := by omega
      simpa [hne] using hcells i hi
    · have hne : visible - q.base ≠ q.writeIndex := by omega
      simpa [hne] using hnull
    · simp only [SubQueue.store_base] at hi hi'
      rcases eq_or_ne i q.writeIndex with rfl | hne
      · simpa using hlast.symm
      · simpa [hne] using hpending i hi (by omega)
    · have hlt' : visible < q.base + (q.writeIndex + 1) := by omega
      simp [hlt', hfp, hy]
    · simp only [Phase, SubQueue.store_base]
      omega

/-- A flush of a block with pending items is about to make them visible. -/
theorem Writing.flushPending (h : Writing c q pushed visible 0 p) (hs : Saved q pushed visible)
    {k : Cont α} (hx : p.holding = k.holding) (hk : k.moves = true → q.writeIndex = c.size) {r}
    (hr : q.flushPending = some r) :
    Writing c r.1 pushed visible 0 (.publish r.2 k) ∧ r.2.ok = true := by
  obtain ⟨hle, hb, hvis, hcells, hnull, hpending, hstored, -, -⟩ := h
  have hfl := hs.1
  obtain ⟨y, hfp, rfl⟩ := Option.map_eq_some_iff.mp hr
  obtain ⟨hlt, hy⟩ := hs.lt_of_some hfp
  refine ⟨⟨hle, hb, hvis, fun i hi => ?_, ?_, fun i hi hi' => ?_, ?_, ?_, ?_⟩, ?_⟩
  · simp only [SubQueue.store_base] at hi
    have hne : i ≠ q.writeIndex := by omega
    simpa [hne] using hcells i hi
  · have hne : visible - q.base ≠ q.writeIndex := by omega
    simpa [hne] using hnull
  · simp only [SubQueue.store_base, SubQueue.store_writeIndex] at hi hi'
    have hne : i ≠ q.writeIndex := by omega
    simpa [hne] using hpending i hi hi'
  · obtain ⟨l, hl, hlen⟩ := hstored
    rw [hx] at hl
    exact ⟨l, hl, hlen⟩
  · exact ⟨hfl, hlt, hy, rfl, rfl, by simp, by simp⟩
  · simpa [Phase] using hk
  · simp only [decide_eq_true_eq]
    omega

/-- The exchange of the first pending item makes all the items of the block visible. -/
theorem Writing.publish {pb : SubQueue.Publish α} {k : Cont α}
    (h : Writing c q pushed visible pending (.publish pb k)) :
    Writing c (q.store pb.cell (some pb.item)) pushed (q.base + q.flushIndex) pending k.next ∧
      visible ≤ q.base + q.flushIndex ∧ q.cell pb.cell = none := by
  obtain ⟨hle, hb, hvis, hcells, hnull, hpending, hstored, hfront, hphase⟩ := h
  obtain ⟨hcell, hlt, hitem, hfp, hfl, hnull', hwritten⟩ := hfront
  obtain ⟨rfl, hk⟩ := hphase
  have hpb : pb.cell = visible - q.base := by omega
  refine ⟨⟨hle, ?_, ?_, fun i hi => ?_, ?_, fun i hi hi' => ?_, ?_, ?_, ?_⟩, ?_, ?_⟩
  · simp
  · simp only [SubQueue.store_base, SubQueue.store_writeIndex]
    omega
  · simp only [SubQueue.store_base] at hi
    rcases Nat.lt_trichotomy i pb.cell with hi' | rfl | hi'
    · have hne : i ≠ pb.cell := by omega
      simpa [hne] using hcells i (by omega)
    · simp [hcell, hitem]
    · have hne : i ≠ pb.cell := by omega
      simpa [hne] using hpending i (by omega) (by omega)
  · have hne : q.base + q.flushIndex - q.base ≠ pb.cell := by omega
    have he : q.base + q.flushIndex - q.base = q.writeIndex := by omega
    simp only [SubQueue.store_cell, SubQueue.store_base, SubQueue.store_written, if_neg hne]
    rw [he]
    exact ⟨hnull', hwritten⟩
  · simp only [SubQueue.store_base, SubQueue.store_writeIndex] at hi hi'
    omega
  · cases k <;> exact hstored
  · have hnlt : ¬ q.base + q.flushIndex < q.base + q.writeIndex := by omega
    cases k <;> exact ⟨rfl, hfp.trans (if_neg hnlt).symm⟩
  · cases k with
    | ret bne => simp [Phase, Cont.next, hfl]
    | push x bne | pushPending x bne => simpa [Phase, Cont.next, hfl] using hk rfl
  · omega
  · rw [hpb]
    exact hnull.1

end SubQueue

theorem Produces.of_eq (hb : s'.block = s.block) (hw : s'.wpos = s.wpos) (hh : s'.head = s.head)
    (ht : s'.tail = s.tail) (ha : s'.allocated = s.allocated)
    (hc : s'.subQueueCount = s.subQueueCount) (hcons : s'.consumer = s.consumer)
    (hpop : s'.popped = s.popped) (hpush : s.pushed <+: s'.pushed)
    (hv : s'.visible = s.visible) : Produces s s' :=
  ⟨fun b _ => by rw [hb], by rw [hb]; exact .refl _, hw, hh, ht, ha, hc, hcons, hpop, hpush,
    Nat.le_of_eq hv.symm⟩

/-- A step which moves the producer and changes its counters. -/
theorem InvAt.produceAt (h : InvAt c s before after) {p : Producer α} {n : ℕ} {k : ℤ}
    (hhold : p.holding = s.producer.holding)
    (hfront : Front (s.block s.wpos) s.pushed s.visible p)
    (hphase : Phase c (s.block s.wpos) s.visible n p) :
    InvAt c ({ s with count := k, pendingCount := n }.produceAt p) before after := by
  refine h.produce (.of_eq rfl rfl rfl rfl rfl rfl rfl rfl List.prefix_rfl rfl) ?_ h.not_failed
  obtain ⟨h₁, h₂, h₃, h₄, h₅, h₆, h₇, -, -⟩ := h.data.writing
  exact ⟨h₁, h₂, h₃, h₄, h₅, h₆, hhold ▸ h₇, hfront, hphase⟩

/-- A prepared exchange. -/
theorem InvAt.publishing (h : InvAt c s before after) {r} {k : Cont α}
    (hout : (s.block s.wpos).Outer r.1) (hpend : s.pendingCount = 0)
    (hr : Writing c r.1 s.pushed s.visible 0 (.publish r.2 k) ∧ r.2.ok = true) :
    InvAt c (publishing s r k) before after := by
  refine h.produce ⟨fun b hb => ?_, ?_, rfl, rfl, rfl, rfl, rfl, rfl, rfl, List.prefix_rfl,
    Nat.le_refl _⟩ ?_ ?_
  · simp [MultiConsumerQueue.publishing, State.assert, State.produceAt, hb]
  · simpa [MultiConsumerQueue.publishing, State.assert, State.produceAt] using hout
  · simpa [MultiConsumerQueue.publishing, State.assert, State.produceAt, hpend] using hr.1
  · simp [MultiConsumerQueue.publishing, State.assert, State.produceAt, h.not_failed, hr.2]

/-- The exchange of the producer. -/
theorem InvAt.publish (h : InvAt c s before after) {pb : SubQueue.Publish α} {k : Cont α}
    (hp : s.producer = .publish pb k) : InvAt c (publish s pb k) before after := by
  have hw := h.data.writing
  rw [hp] at hw
  obtain ⟨hw', hle, hnull⟩ := hw.publish
  refine h.produce ⟨fun b hb => ?_, ?_, rfl, rfl, rfl, rfl, rfl, rfl, rfl, List.prefix_rfl,
    hle⟩ ?_ ?_
  · simp [MultiConsumerQueue.publish, State.assert, State.produceAt, hb]
  · simpa [MultiConsumerQueue.publish, State.assert, State.produceAt] using
      SubQueue.store_outer _ _ _
  · simpa [MultiConsumerQueue.publish, State.assert, State.produceAt] using hw'
  · simp [MultiConsumerQueue.publish, State.assert, State.produceAt, h.not_failed, hnull]

/-- A pending push which found room in the block. -/
theorem InvAt.pushPending (h : InvAt c s before after) {x : α} {q' : SubQueue α} {bne : Bool}
    (hq : (s.block s.wpos).pushPending c x = some q')
    (hs : Saved (s.block s.wpos) s.pushed s.visible)
    (hpend : s.pendingCount + s.visible = (s.block s.wpos).base + (s.block s.wpos).writeIndex)
    (hx : s.producer.holding = [x]) :
    InvAt c ({ s.modify s.wpos fun _ => q' with
      pendingCount := s.pendingCount + 1 }.produceAt (.done bne)) before after := by
  refine h.produce ⟨fun b hb => ?_, ?_, rfl, rfl, rfl, rfl, rfl, rfl, rfl, List.prefix_rfl,
    Nat.le_refl _⟩ ?_ h.not_failed
  · simp [State.produceAt, hb]
  · simpa [State.produceAt] using SubQueue.pushPending_outer hq
  · simpa [State.produceAt] using h.data.writing.pushPending hs hpend hx hq bne

/-- The item of a push is in the hands of the producer from the call on. -/
theorem Writing.call {q : SubQueue α} {pushed : List α} {visible pending : ℕ} {x : α}
    {p : Producer α} (h : Writing c q pushed visible pending .idle)
    (hp : p = .push x ∨ p = .pushPending x) : Writing c q (pushed ++ [x]) visible pending p := by
  have hlen := h.visible_le_length
  obtain ⟨hle, hb, hvis, hcells, hnull, hpending, ⟨l, hl, hll⟩, hfront, hphase⟩ := h
  have hl : pushed = l := by simpa [Producer.holding] using hl
  subst hl
  refine ⟨hle, hb, hvis, fun i hi => ?_, hnull, fun i hi hi' => ?_, ?_, ?_, ?_⟩
  · rw [List.getElem?_append_left (by omega)]
    exact hcells i hi
  · rw [List.getElem?_append_left (by omega)]
    exact hpending i hi hi'
  · rcases hp with rfl | rfl <;> exact ⟨pushed, rfl, hll⟩
  · have hsaved : Saved q (pushed ++ [x]) visible := by
      refine ⟨hfront.1, hfront.2.trans ?_⟩
      split
      · rw [List.getElem?_append_left (by omega)]
      · rfl
    rcases hp with rfl | rfl <;> exact hsaved
  · rcases hp with rfl | rfl <;> exact hphase

/-- The producer calls an operation. -/
theorem InvAt.call (h : InvAt c s before after) (hp : s.producer = .idle) (op : Op α) :
    InvAt c (call s op) before after := by
  have hw := h.data.writing
  rw [hp] at hw
  cases op with
  | push x =>
    refine h.produce (.of_eq rfl rfl rfl rfl rfl rfl rfl rfl ⟨[x], rfl⟩ rfl) ?_ h.not_failed
    exact hw.call (.inl rfl)
  | pushPending x =>
    refine h.produce (.of_eq rfl rfl rfl rfl rfl rfl rfl rfl ⟨[x], rfl⟩ rfl) ?_ h.not_failed
    exact hw.call (.inr rfl)
  | flushPending =>
    exact h.produceAt (by simp [hp, Producer.holding]) hw.front hw.phase
  | reserve n =>
    exact h.produceAt (by simp [hp, Producer.holding]) hw.front hw.phase

/-- A push fails only in a full block. -/
theorem SubQueue.push_eq_none {q : SubQueue α} {x : α} (h : q.push c x = none) :
    q.writeIndex = c.size := by
  unfold SubQueue.push at h
  by_contra hfull
  rcases hfp : q.firstPending with _ | y <;> simp [hfull, hfp] at h

theorem SubQueue.pushPending_eq_none {q : SubQueue α} {x : α} (h : q.pushPending c x = none) :
    q.writeIndex = c.size := by
  unfold SubQueue.pushPending at h
  by_contra hfull
  rcases hfp : q.firstPending with _ | y <;> simp [hfull, hfp] at h

/-- The next step of the producer keeps the invariant unless it changes the list of the blocks. -/
theorem InvAt.produce_next (h : InvAt c s before after)
    (hs : MultiConsumerQueue.produce c s = some s')
    (hk : ∀ k, s.producer ≠ .nextWpos k) (hn : ∀ n, s.producer ≠ .reserve n) :
    InvAt c s' before after := by
  have hw := h.data.writing
  unfold MultiConsumerQueue.produce at hs
  cases hp : s.producer with
  | idle | done _ => simp [hp] at hs
  | nextWpos k => exact absurd hp (hk k)
  | reserve n => exact absurd hp (hn n)
  | push x =>
    rw [hp] at hw
    simp only [hp, Option.some.injEq] at hs
    subst hs
    exact h.produceAt (by simp [hp, Producer.holding]) hw.front rfl
  | subPush x bne =>
    rw [hp] at hw
    have hpend : s.pendingCount = 0 := hw.phase
    simp only [hp] at hs
    split at hs
    · rename_i r hr
      cases hs
      rw [hpend] at hw
      exact h.publishing (SubQueue.push_outer hr) hpend (hw.push hw.front rfl hr bne)
    · rename_i hr
      cases hs
      refine h.produceAt (by simp [hp, Producer.holding, Cont.holding]) hw.front ?_
      exact ⟨hpend, fun _ => SubQueue.push_eq_none hr⟩
  | pushPending x =>
    rw [hp] at hw
    simp only [hp] at hs
    split at hs
    · rename_i q' hq
      cases hs
      exact h.pushPending hq hw.front hw.phase (by simp [hp, Producer.holding])
    · rename_i hq
      cases hs
      refine h.produceAt (by simp [hp, Producer.holding]) hw.front ?_
      exact ⟨hw.phase, SubQueue.pushPending_eq_none hq⟩
  | flush x =>
    rw [hp] at hw
    simp only [hp] at hs
    have hphase : s.pendingCount + s.visible =
        (s.block s.wpos).base + (s.block s.wpos).writeIndex ∧
          (x ≠ none → (s.block s.wpos).writeIndex = c.size) := by
      have := hw.phase
      cases x with
      | none => exact ⟨this, fun hne => absurd rfl hne⟩
      | some x => exact ⟨this.1, fun _ => this.2⟩
    split at hs
    · rename_i hzero
      cases hs
      cases x with
      | none => exact h.produceAt (by simp [hp, Producer.holding, Cont.next]) hw.front hphase.1
      | some x =>
        refine h.produceAt (by simp [hp, Producer.holding, Cont.next, Cont.holding]) hw.front ?_
        exact ⟨hzero, by omega, hphase.2 (by simp)⟩
    · cases hs
      cases x with
      | none =>
        exact h.produceAt (by simp [hp, Producer.holding, Cont.holding]) hw.front
          ⟨rfl, by simp [Cont.moves]⟩
      | some x =>
        exact h.produceAt (by simp [hp, Producer.holding, Cont.holding]) hw.front
          ⟨rfl, fun _ => hphase.2 (by simp)⟩
  | subFlush k =>
    rw [hp] at hw
    obtain ⟨hpend, hfull⟩ := hw.phase
    simp only [hp] at hs
    split at hs
    · rename_i r hr
      cases hs
      rw [hpend] at hw
      exact h.publishing (SubQueue.flushPending_outer hr) hpend
        (hw.flushPending hw.front rfl hfull hr)
    · rename_i hr
      cases hs
      have hv := Saved.eq_of_none hw.front hw (by simpa [SubQueue.flushPending] using hr)
      cases k with
      | ret bne =>
        refine h.produceAt (by simp [hp, Producer.holding, Cont.next, Cont.holding]) hw.front ?_
        simp only [Phase, Cont.next]
        omega
      | push x bne | pushPending x bne =>
        refine h.produceAt (by simp [hp, Producer.holding, Cont.next, Cont.holding]) hw.front ?_
        exact ⟨hpend, hv, hfull rfl⟩
  | publish pb k =>
    simp only [hp, Option.some.injEq] at hs
    exact hs ▸ h.publish hp
  | pushAgain x bne =>
    rw [hp] at hw
    obtain ⟨hpend, hzero, hv⟩ := hw.phase
    simp only [hp] at hs
    split at hs
    · rename_i r hr
      cases hs
      rw [hpend] at hw
      exact h.publishing (SubQueue.push_outer hr) hpend (hw.push hw.front rfl hr bne)
    · rename_i hr
      have := SubQueue.push_eq_none hr
      have := c.size_pos
      omega
  | pushPendingAgain x bne =>
    rw [hp] at hw
    obtain ⟨hpend, hzero, hv⟩ := hw.phase
    simp only [hp] at hs
    split at hs
    · rename_i q' hq
      cases hs
      exact h.pushPending hq hw.front (by omega) (by simp [hp, Producer.holding])
    · rename_i hq
      have := SubQueue.pushPending_eq_none hq
      have := c.size_pos
      omega

end MultiConsumerQueue

end Serverbox
