import Serverbox.Box.MultiConsumerQueueCount
import Serverbox.Box.MultiConsumerQueueRecycle

/-!
# The stores of a flush

`MCQBaseSubQueue::FlushPending` exchanges the first pending item into its cell, which makes all the
pending items visible, and only then stores the new flush index and that nothing is pending any
more. Between the exchange and the stores a consumer can pop the items, and then its read index is
behind the flush index, against the order of the indexes which the header states.

`MultiConsumerQueue.machine` makes these stores with the preparation of the exchange, as those of
`Push`. Here they are steps of their own. Nobody but the producer reads what they write, so the
queue with these stores is simulated by the one without.

Source: `src/mg/box/MultiConsumerQueueBase.cpp`.

## Main definitions

* `MultiConsumerQueue.Stored`, `MultiConsumerQueue.storedMachine`: the queue with all the stores.
* `MultiConsumerQueue.Stored.early`: the queue as if they were made before the exchange.
* `MultiConsumerQueue.Stored.InTime`: no consumer pops an item between the exchange which made it
  visible and the store of the flush index.

## Main results

* `MultiConsumerQueue.stored_simulates`: the simulation.
* `MultiConsumerQueue.blocks_listed`: the list of the blocks, in every state reached in time.
* `MultiConsumerQueue.popped_before_stored`: the indices of a block are not in order in every state.
-/

namespace Serverbox

namespace MultiConsumerQueue

open DoublyLinked

variable {α Θ : Type*}

/-- `MCQBaseSubQueue::FlushPending` up to its exchange, `none` when nothing is pending. -/
def SubQueue.flushStart (q : SubQueue α) : Option (SubQueue α × Publish α) :=
  q.firstPending.map fun y =>
    (q.store q.writeIndex none, ⟨q.flushIndex, y, decide (q.flushIndex < q.writeIndex)⟩)

/-- The stores of `MCQBaseSubQueue::FlushPending` after its exchange. -/
def SubQueue.flushEnd (windex : ℕ) (q : SubQueue α) : SubQueue α :=
  { q with firstPending := none, flushIndex := windex }

/-- The stores of a flush are made, and the producer goes on. -/
def State.flushed (s : State α Θ) (windex : ℕ) (p : Producer α) : State α Θ :=
  (s.modify s.wpos (SubQueue.flushEnd windex)).produceAt p

/-- Where the producer is inside of `MCQBaseSubQueue::FlushPending`. -/
inductive Flush (α : Type*)
  | exchange (p : SubQueue.Publish α) (windex : ℕ)
  | stores (windex : ℕ)

/-- The queue, and the producer inside of `MCQBaseSubQueue::FlushPending`. -/
structure Stored (α Θ : Type*) where
  queue : State α Θ
  flush : Option (Flush α)

namespace Stored

/-- The exchange of a flush. -/
def exchange (s : State α Θ) (p : SubQueue.Publish α) (windex : ℕ) : State α Θ :=
  let q := s.block s.wpos
  ({ s with visible := q.base + windex }.modify s.wpos fun q =>
    q.store p.cell (some p.item)).assert (q.cell p.cell).isNone

/-- The next step of the producer. The ones of a flush of a block come instead of those of
`MultiConsumerQueue.produce`. -/
def produce (c : Config α) (s : Stored α Θ) : Option (Stored α Θ) :=
  let q := s.queue.block s.queue.wpos
  match s.flush, s.queue.producer with
  | none, .subFlush k =>
    match q.flushStart with
    | some r =>
      some ⟨(s.queue.modify s.queue.wpos fun _ => r.1).assert r.2.ok,
        some (.exchange r.2 q.writeIndex)⟩
    | none => some ⟨s.queue.produceAt k.next, none⟩
  | none, _ => (MultiConsumerQueue.produce c s.queue).map fun t => ⟨t, none⟩
  | some (.exchange p windex), .subFlush _ =>
    some ⟨exchange s.queue p windex, some (.stores windex)⟩
  | some (.stores windex), .subFlush k => some ⟨s.queue.flushed windex k.next, none⟩
  | some _, _ => none

variable [DecidableEq Θ]

/-- One step of the queue. -/
def step (c : Config α) (s : Stored α Θ) : Action α Θ → Option (Stored α Θ)
  | .produce => produce c s
  | a => (MultiConsumerQueue.step c s.queue a).map fun t => { s with queue := t }

end Stored

/-- One producer, whose flushes store after their exchange, and any number of consumers. -/
def storedMachine (c : Config α) (Θ : Type*) [DecidableEq Θ] :
    Machine (Stored α Θ) (Action α Θ) where
  init s := s = ⟨.new c, none⟩
  step := Stored.step c

/-- The queue as if the stores of a flush were made before its exchange. -/
def Stored.early (s : Stored α Θ) : State α Θ :=
  match s.flush, s.queue.producer with
  | some (.exchange p windex), .subFlush k => s.queue.flushed windex (.publish p k)
  | some (.stores windex), .subFlush k => s.queue.flushed windex k.next
  | _, _ => s.queue

section Flushed

variable {c : Config α} {s : State α Θ} {windex b : ℕ} {p : Producer α}
  {f : SubQueue α → SubQueue α}

theorem flushed_block (s : State α Θ) (windex : ℕ) (p : Producer α) (b : ℕ) :
    (s.flushed windex p).block b =
      if b = s.wpos then (s.block b).flushEnd windex else s.block b := by
  show (s.modify s.wpos (SubQueue.flushEnd windex)).block b = _
  rw [State.modify_block]
  split_ifs with hb
  · rw [hb]
  · rfl

/-- A change of a block does not meet the stores. -/
theorem flushed_modify (h : b = s.wpos → ∀ q, f (q.flushEnd windex) = (f q).flushEnd windex) :
    (s.flushed windex p).modify b f = (s.modify b f).flushed windex p := by
  have hblock : ((s.flushed windex p).modify b f).block =
      ((s.modify b f).flushed windex p).block := by
    funext x
    rw [State.modify_block, flushed_block, flushed_block, flushed_block, State.modify_wpos,
      State.modify_block]
    by_cases hx : x = b
    · subst hx
      by_cases hw : x = s.wpos
      · simp only [if_true, if_pos hw, h hw]
      · simp only [if_true, if_neg hw]
    · simp only [if_neg hx]
  have hrest : (s.flushed windex p).modify b f =
      { (s.modify b f).flushed windex p with
        block := ((s.flushed windex p).modify b f).block } := rfl
  rw [hrest, hblock]

theorem flushed_unlink (s : State α Θ) (windex : ℕ) (p : Producer α) (b n : ℕ) :
    unlink (s.flushed windex p) b n = (unlink s b n).flushed windex p := by
  have hprev : ((s.flushed windex p).block b).prev = (s.block b).prev := by
    rw [flushed_block]
    split_ifs <;> rfl
  unfold unlink
  rw [hprev]
  rcases (s.block b).prev with _ | m
  · show ((({ s.assert (b == s.head) with head := n } : State α Θ).flushed windex p).modify n
      fun q => { q with prev := none }).modify b
        (fun q => { q with next := none, prev := none }) = _
    rw [flushed_modify, flushed_modify]
    all_goals exact fun _ _ => rfl
  · dsimp only
    rw [flushed_modify, flushed_modify, flushed_modify]
    all_goals exact fun _ _ => rfl

/-- The recycling of a block does not meet the stores. -/
theorem flushed_collect (c : Config α) (s : State α Θ) (windex : ℕ) (p : Producer α) (b : ℕ) :
    collect c (s.flushed windex p) b = (collect c s b).flushed windex p := by
  unfold collect
  by_cases hw : b = s.wpos
  · rw [if_pos hw]
    exact if_pos hw
  have hb : (s.flushed windex p).block b = s.block b := by rw [flushed_block, if_neg hw]
  rw [if_neg hw, hb]
  refine (if_neg hw).trans ?_
  by_cases hc : (s.block b).consumerCount ≠ 0
  · rw [if_pos hc, if_pos hc]
  by_cases hr : (s.block b).readIndex < c.size
  · rw [if_neg hc, if_pos hr, if_neg hc, if_pos hr]
  rw [if_neg hc, if_neg hr, if_neg hc, if_neg hr]
  rcases (s.block b).next with _ | n
  · rfl
  · dsimp only
    have hwpos : (unlink s b n).wpos = s.wpos := (recycles_unlink s b n).wpos
    have hreset : ((unlink s b n).flushed windex p).block b = (unlink s b n).block b := by
      rw [flushed_block, hwpos, if_neg hw]
    rw [flushed_unlink, hreset]
    generalize hu : (unlink s b n).assert (((unlink s b n).block b).resettable c) = u
    have hu' : ((unlink s b n).flushed windex p).assert (((unlink s b n).block b).resettable c) =
        u.flushed windex p := hu ▸ rfl
    have hw' : b ≠ u.wpos := fun he => hw (he.trans (hu ▸ hwpos))
    rw [hu', flushed_modify fun he => absurd he hw', flushed_modify, flushed_modify]
    · rfl
    all_goals exact fun _ _ => rfl

variable [DecidableEq Θ]

/-- The step of a consumer does not meet the stores. -/
theorem flushed_consume (c : Config α) (s : State α Θ) (windex : ℕ) (p : Producer α) (θ : Θ)
    (spurious : Bool) : consume c (s.flushed windex p) θ spurious =
      (consume c s θ spurious).map fun t => t.flushed windex p := by
  have hread (b : ℕ) : ((s.flushed windex p).block b).readIndex = (s.block b).readIndex := by
    rw [flushed_block]
    split_ifs <;> rfl
  have hcell (b : ℕ) : ((s.flushed windex p).block b).cell = (s.block b).cell := by
    rw [flushed_block]
    split_ifs <;> rfl
  have hwritten (b : ℕ) : ((s.flushed windex p).block b).written = (s.block b).written := by
    rw [flushed_block]
    split_ifs <;> rfl
  have hnext (b : ℕ) : ((s.flushed windex p).block b).next = (s.block b).next := by
    rw [flushed_block]
    split_ifs <;> rfl
  have hcons : (s.flushed windex p).consumer θ = s.consumer θ := rfl
  unfold consume
  rw [hcons]
  cases s.consumer θ with
  | detached | idle b | done b x => rfl
  | attach =>
    show some (((s.flushed windex p).modify s.head _).consumeAt θ (.idle s.head)) = _
    rw [flushed_modify]
    · rfl
    · exact fun _ _ => rfl
  | loadIndex b =>
    simp only [hread]
    rfl
  | loadCell b r =>
    simp only [loadCell, hcell, hwritten]
    rfl
  | casIndex b r x =>
    simp only [casIndex, hread]
    split_ifs
    · show some ((({ s with popped := s.popped ++ [x] } : State α Θ).flushed windex p).modify b
        (fun q => { q with readIndex := r + 1 }) |>.consumeAt θ (.popped b x)) = _
      rw [flushed_modify]
      · rfl
      · exact fun _ _ => rfl
    · rfl
  | exhausted b =>
    simp only [leave, hnext]
    show some (if b = s.wpos then _ else _) = _
    split_ifs
    · rfl
    · rw [flushed_modify, flushed_collect]
      · rcases (s.block b).next with _ | n
        · rfl
        · dsimp only
          rw [flushed_modify]
          · rfl
          · exact fun _ _ => rfl
      · exact fun _ _ => rfl
  | popped b x => rfl
  | detach b =>
    show some ((collect c ((s.flushed windex p).modify b _) b).consumeAt θ .detached) = _
    rw [flushed_modify, flushed_collect]
    · rfl
    · exact fun _ _ => rfl

end Flushed

namespace Stored

variable [DecidableEq Θ] {c : Config α} {s s' : Stored α Θ} {a : Action α Θ}

/-- What the producer knows inside of a flush. -/
structure Inv (c : Config α) (s : Stored α Θ) : Prop where
  reach : (machine c Θ).Reachable s.early
  producer : ∀ f, s.flush = some f → ∃ k, s.queue.producer = .subFlush k
  exchange : ∀ p windex, s.flush = some (.exchange p windex) →
    (s.queue.block s.queue.wpos).flushIndex = p.cell
  stores : ∀ windex, s.flush = some (.stores windex) →
    (s.queue.block s.queue.wpos).flushIndex ≤ windex

/-- The steps which are not of the producer. -/
theorem step_other (ha : a ≠ .produce) (hs : Stored.step c s a = some s') :
    ∃ u, MultiConsumerQueue.step c s.queue a = some u ∧ s' = ⟨u, s.flush⟩ := by
  have hs' : (MultiConsumerQueue.step c s.queue a).map (fun u => (⟨u, s.flush⟩ : Stored α Θ)) =
      some s' := by
    cases a <;> first | exact absurd rfl ha | exact hs
  obtain ⟨u, hu, he⟩ := Option.map_eq_some_iff.mp hs'
  exact ⟨u, hu, he.symm⟩

/-- They leave the producer in its flush. -/
theorem other_producer {t u : State α Θ} {k : Cont α} (hk : t.producer = .subFlush k)
    (ha : a ≠ .produce) (hu : MultiConsumerQueue.step c t a = some u) :
    u.producer = .subFlush k := by
  rw [← hk]
  refine (step_frame hu (by simp [hk]) ?_ ha).1.1
  rintro rfl
  simp [MultiConsumerQueue.step, hk] at hu

/-- The steps of the consumers do not meet the stores. -/
theorem flushed_step {t : State α Θ} {u : State α Θ} {windex : ℕ} {p : Producer α}
    {k : Cont α} (hk : t.producer = .subFlush k) (ha : a ≠ .produce)
    (hs : MultiConsumerQueue.step c t a = some u) :
    MultiConsumerQueue.step c (t.flushed windex p) a = some (u.flushed windex p) := by
  cases a with
  | produce => exact absurd rfl ha
  | call op | ret => simp [MultiConsumerQueue.step, hk] at hs
  | attach θ | pop θ | detach θ | popRet θ =>
    have hcons : (t.flushed windex p).consumer θ = t.consumer θ := rfl
    simp only [MultiConsumerQueue.step, hcons] at hs ⊢
    split at hs <;> cases hs
    rfl
  | consume θ spurious =>
    simp only [MultiConsumerQueue.step] at hs ⊢
    rw [flushed_consume, hs]
    rfl

omit [DecidableEq Θ] in
/-- The preparation of a flush and its stores. -/
theorem early_start (t : State α Θ) (p : SubQueue.Publish α) (k : Cont α) :
    publishing t ({ (t.block t.wpos).store (t.block t.wpos).writeIndex none with
      firstPending := none, flushIndex := (t.block t.wpos).writeIndex }, p) k =
    ((t.modify t.wpos fun _ => (t.block t.wpos).store (t.block t.wpos).writeIndex none).assert
      p.ok).flushed (t.block t.wpos).writeIndex (.publish p k) := by
  unfold publishing State.flushed
  simp only [State.modify, State.assert, State.produceAt, Function.update_idem,
    Function.update_self]
  rfl

omit [DecidableEq Θ] in
/-- The exchange of a flush is that of the queue whose flushes store early. -/
theorem early_exchange (t : State α Θ) (p : SubQueue.Publish α) (windex : ℕ) (k : Cont α) :
    publish (t.flushed windex (.publish p k)) p k =
      (exchange t p windex).flushed windex k.next := by
  have hq : (t.flushed windex (.publish p k)).block t.wpos =
      (t.block t.wpos).flushEnd windex := by rw [flushed_block, if_pos rfl]
  unfold publish
  rw [show (t.flushed windex (.publish p k)).wpos = t.wpos from rfl, hq]
  show ((((({ t with visible := (t.block t.wpos).base + windex } : State α Θ).flushed windex
    (.publish p k)).modify t.wpos fun q => q.store p.cell (some p.item)).assert
      ((t.block t.wpos).cell p.cell).isNone).produceAt k.next) = _
  rw [flushed_modify]
  · rfl
  · exact fun _ _ => rfl

/-- **One step** is one of the queue whose flushes store early, or none. -/
theorem early_step (hi : ∀ f, s.flush = some f → ∃ k, s.queue.producer = .subFlush k)
    (hs : Stored.step c s a = some s') :
    s'.early = s.early ∨ MultiConsumerQueue.step c s.early a = some s'.early := by
  obtain ⟨t, flush⟩ := s
  by_cases ha : a = .produce
  · subst ha
    simp only [Stored.step, Stored.produce] at hs
    cases flush with
    | none =>
      cases hp : t.producer with
      | subFlush k =>
        simp only [hp] at hs
        refine .inr ?_
        cases hf : (t.block t.wpos).firstPending with
        | none =>
          simp only [SubQueue.flushStart, hf, Option.map_none, Option.some.injEq] at hs
          subst hs
          simp only [MultiConsumerQueue.step, MultiConsumerQueue.produce, early, hp,
            SubQueue.flushPending, hf, Option.map_none]
        | some y =>
          simp only [SubQueue.flushStart, hf, Option.map_some, Option.some.injEq] at hs
          subst hs
          have hp' : ((t.modify t.wpos fun _ => (t.block t.wpos).store (t.block t.wpos).writeIndex
              none).assert (decide ((t.block t.wpos).flushIndex < (t.block t.wpos).writeIndex))
              ).producer = .subFlush k := hp
          simp only [MultiConsumerQueue.step, MultiConsumerQueue.produce, early, hp, hp',
            SubQueue.flushPending, hf, Option.map_some]
          exact congrArg some (early_start t _ k)
      | _ =>
        simp only [hp] at hs
        obtain ⟨u, hu, rfl⟩ := Option.map_eq_some_iff.mp hs
        exact .inr hu
    | some f =>
      obtain ⟨k, hk⟩ := hi f rfl
      dsimp only at hk
      cases f with
      | exchange p windex =>
        simp only [hk, Option.some.injEq] at hs
        subst hs
        refine .inr ?_
        have hk' : (exchange t p windex).producer = .subFlush k := hk
        simp only [early, hk, hk']
        exact congrArg some (early_exchange t p windex k)
      | stores windex =>
        simp only [hk, Option.some.injEq] at hs
        subst hs
        refine .inl ?_
        simp only [early, hk]
  · obtain ⟨u, hu, rfl⟩ := step_other ha hs
    refine .inr ?_
    cases flush with
    | none => exact hu
    | some f =>
      obtain ⟨k, hk⟩ := hi f rfl
      dsimp only at hk
      have hprod := other_producer hk ha hu
      cases f with
      | exchange p windex | stores windex =>
        simp only [early, hk, hprod]
        exact flushed_step hk ha hu

omit [DecidableEq Θ] in
/-- The recycling of a block leaves what the producer knows of its own. -/
theorem collect_wpos {β : Type*} (g : SubQueue α → β)
    (hg : ∀ q n p, g { q with next := n, prev := p } = g q) (c : Config α) (s : State α Θ) (b : ℕ) :
    g ((collect c s b).block s.wpos) = g (s.block s.wpos) := by
  unfold collect
  by_cases hw : b = s.wpos
  · rw [if_pos hw]
  by_cases hc : (s.block b).consumerCount ≠ 0
  · rw [if_neg hw, if_pos hc]
  by_cases hr : (s.block b).readIndex < c.size
  · rw [if_neg hw, if_neg hc, if_pos hr]
  simp only [if_neg hw, if_neg hc, if_neg hr]
  rcases (s.block b).next with _ | n
  · rfl
  · have hu := unlink_field g hg s b n s.wpos
    dsimp only
    refine modify_field g (modify_field g ?_ fun q => hg q (some b) q.prev) fun q => hg q q.next _
    rw [State.modify_block, if_neg (Ne.symm hw)]
    exact hu

/-- A consumer changes nothing of the block of the producer but the read index. -/
theorem consume_wpos {β : Type*} (g : SubQueue α → β)
    (hg : ∀ q n p k, g { q with next := n, prev := p, consumerCount := k } = g q)
    {s t : State α Θ} {θ : Θ} {spurious : Bool} (hs : consume c s θ spurious = some t)
    (hcas : ∀ b r x, s.consumer θ = .casIndex b r x → b = s.wpos → (s.block b).readIndex = r →
      spurious = false → ∀ q, g { q with readIndex := r + 1 } = g q) :
    t.wpos = s.wpos ∧ g (t.block s.wpos) = g (s.block s.wpos) := by
  have hcount (f : ℕ → ℕ) (b : ℕ) : g ((s.modify b fun q =>
      { q with consumerCount := f q.consumerCount }).block s.wpos) = g (s.block s.wpos) :=
    modify_field g rfl fun q => hg q q.next q.prev (f q.consumerCount)
  have hrelease (b : ℕ) : (collect c (s.modify b fun q =>
        { q with consumerCount := q.consumerCount - 1 }) b).wpos = s.wpos ∧
      g ((collect c (s.modify b fun q =>
        { q with consumerCount := q.consumerCount - 1 }) b).block s.wpos) = g (s.block s.wpos) :=
    ⟨(recycles_collect c _ b).wpos,
      (collect_wpos g (fun q n p => hg q n p q.consumerCount) c _ b).trans (hcount (· - 1) b)⟩
  unfold consume at hs
  cases hc : s.consumer θ with
  | detached | idle b | done b x => simp [hc] at hs
  | attach =>
    simp only [hc, Option.some.injEq] at hs
    subst hs
    exact ⟨rfl, hcount (· + 1) s.head⟩
  | loadIndex b | loadCell b r | popped b x =>
    simp only [hc, Option.some.injEq] at hs
    subst hs
    exact ⟨rfl, rfl⟩
  | casIndex b r x =>
    simp only [hc, Option.some.injEq, casIndex] at hs
    split_ifs at hs with hr
    · subst hs
      refine ⟨rfl, ?_⟩
      rw [State.consumeAt_block, State.modify_block]
      split_ifs with hw
      · rw [hcas b r x hc hw.symm hr.1 hr.2, hw]
      · rfl
    · subst hs
      exact ⟨rfl, rfl⟩
  | exhausted b =>
    simp only [hc, Option.some.injEq, leave] at hs
    obtain ⟨hwpos, hfield⟩ := hrelease b
    split_ifs at hs
    · subst hs
      exact ⟨rfl, rfl⟩
    · split at hs
      · subst hs
        exact ⟨hwpos, hfield⟩
      · subst hs
        refine ⟨hwpos, ?_⟩
        rw [State.consumeAt_block]
        exact modify_field g hfield fun q => hg q q.next q.prev (q.consumerCount + 1)
  | detach b =>
    simp only [hc, Option.some.injEq] at hs
    subst hs
    exact hrelease b

/-- A step which is not of the producer changes nothing of its block but the read index. -/
theorem step_wpos {β : Type*} (g : SubQueue α → β)
    (hg : ∀ q n p k, g { q with next := n, prev := p, consumerCount := k } = g q)
    {s t : State α Θ} {k : Cont α} (hk : s.producer = .subFlush k) (ha : a ≠ .produce)
    (hs : MultiConsumerQueue.step c s a = some t)
    (hcas : ∀ θ spurious b r x, a = .consume θ spurious → s.consumer θ = .casIndex b r x →
      b = s.wpos → (s.block b).readIndex = r → spurious = false →
      ∀ q, g { q with readIndex := r + 1 } = g q) :
    t.wpos = s.wpos ∧ g (t.block s.wpos) = g (s.block s.wpos) := by
  cases a with
  | produce => exact absurd rfl ha
  | call op | ret => simp [MultiConsumerQueue.step, hk] at hs
  | attach θ | pop θ | detach θ | popRet θ =>
    simp only [MultiConsumerQueue.step] at hs
    split at hs <;> cases hs
    exact ⟨rfl, rfl⟩
  | consume θ spurious =>
    exact consume_wpos g hg hs fun b r x => hcas θ spurious b r x rfl

/-- The block of the producer before the exchange of a flush. -/
theorem Inv.publishing (hi : s.Inv c) {p : SubQueue.Publish α} {windex : ℕ}
    (hf : s.flush = some (.exchange p windex)) :
    (s.queue.block s.queue.wpos).readIndex ≤ p.cell ∧ p.cell ≤ windex ∧
      windex ≤ (s.queue.block s.queue.wpos).writeIndex := by
  obtain ⟨k, hk⟩ := hi.producer _ hf
  have he : s.early = s.queue.flushed windex (.publish p k) := by simp only [early, hf, hk]
  obtain ⟨before, after, h⟩ := inv hi.reach
  rw [he] at h
  have hwpos : (s.queue.flushed windex (.publish p k)).wpos = s.queue.wpos := rfl
  have hblock : (s.queue.flushed windex (.publish p k)).block s.queue.wpos =
      (s.queue.block s.queue.wpos).flushEnd windex := by rw [flushed_block, if_pos rfl]
  obtain ⟨hcell, hlt, -, -, hflush, -⟩ := h.data.writing.front
  have hread := h.data.read _ (List.mem_append_right before List.mem_cons_self)
  have hpopped := h.data.popped_le
  rw [hwpos, hblock] at hcell hlt hflush hread
  simp only [SubQueue.flushEnd] at hcell hlt hflush hread
  refine ⟨?_, ?_, hflush.le⟩
  · rw [hread]
    omega
  · omega

/-- **The invariant** is kept. -/
theorem Inv.step (hi : s.Inv c) (hs : Stored.step c s a = some s') : s'.Inv c := by
  have hreach : (machine c Θ).Reachable s'.early := by
    rcases early_step hi.producer hs with he | he
    · exact he ▸ hi.reach
    · exact hi.reach.step he
  have hpublish := @hi.publishing
  obtain ⟨t, flush⟩ := s
  by_cases ha : a = .produce
  · subst ha
    simp only [Stored.step, Stored.produce] at hs
    cases flush with
    | none =>
      cases hp : t.producer with
      | subFlush k =>
        simp only [hp] at hs
        cases hf : (t.block t.wpos).firstPending with
        | none =>
          simp only [SubQueue.flushStart, hf, Option.map_none, Option.some.injEq] at hs
          subst hs
          exact ⟨hreach, by simp, by simp, by simp⟩
        | some y =>
          simp only [SubQueue.flushStart, hf, Option.map_some, Option.some.injEq] at hs
          subst hs
          refine ⟨hreach, fun _ _ => ⟨k, hp⟩, fun p windex he => ?_, fun windex he => by cases he⟩
          obtain ⟨rfl, -⟩ := Flush.exchange.inj (Option.some.inj he)
          simp only [State.assert, State.modify_wpos, State.modify_block, if_true,
            SubQueue.store_flushIndex]
      | _ =>
        simp only [hp] at hs
        obtain ⟨u, -, rfl⟩ := Option.map_eq_some_iff.mp hs
        exact ⟨hreach, by simp, by simp, by simp⟩
    | some f =>
      obtain ⟨k, hk⟩ := hi.producer f rfl
      dsimp only at hk
      cases f with
      | exchange p windex =>
        simp only [hk, Option.some.injEq] at hs
        subst hs
        refine ⟨hreach, fun _ _ => ⟨k, hk⟩, fun p windex he => (by cases he), fun w he => ?_⟩
        obtain rfl := Flush.stores.inj (Option.some.inj he)
        have hflush := hi.exchange p windex rfl
        obtain ⟨-, hle, -⟩ := hpublish rfl
        simp only [Stored.exchange, State.assert, State.modify_wpos, State.modify_block, if_true,
          SubQueue.store_flushIndex]
        exact hflush.trans_le hle
      | stores windex =>
        simp only [hk, Option.some.injEq] at hs
        subst hs
        exact ⟨hreach, by simp, by simp, by simp⟩
  · obtain ⟨u, hu, rfl⟩ := step_other ha hs
    cases flush with
    | none => exact ⟨hreach, by simp, by simp, by simp⟩
    | some f =>
      obtain ⟨k, hk⟩ := hi.producer f rfl
      dsimp only at hk
      obtain ⟨hwpos, hflush⟩ := step_wpos (·.flushIndex) (fun _ _ _ _ => rfl) hk ha hu
        fun _ _ _ _ _ _ _ _ _ _ _ => rfl
      have hprod := other_producer hk ha hu
      refine ⟨hreach, fun _ _ => ⟨k, hprod⟩, fun p windex he => ?_, fun windex he => ?_⟩
      · dsimp only
        rw [hwpos, hflush]
        exact hi.exchange p windex he
      · dsimp only
        rw [hwpos, hflush]
        exact hi.stores windex he

/-- Between the exchange of a flush and its stores no consumer pops an item which the exchange has
made visible. -/
def InTime (s : Stored α Θ) : Action α Θ → Prop
  | .consume θ spurious =>
    match s.flush, s.queue.consumer θ with
    | some (.stores _), .casIndex b r _ =>
      b = s.queue.wpos → (s.queue.block b).readIndex = r → spurious = false →
        r < (s.queue.block b).flushIndex
    | _, _ => True
  | _ => True

instance (s : Stored α Θ) (a : Action α Θ) : Decidable (s.InTime a) := by
  unfold InTime
  split
  · split <;> infer_instance
  · infer_instance

/-- The flush index which is not stored yet is not behind the read index. -/
def Timely (s : Stored α Θ) : Prop :=
  ∀ windex, s.flush = some (.stores windex) →
    (s.queue.block s.queue.wpos).readIndex ≤ (s.queue.block s.queue.wpos).flushIndex

/-- A consumer pops an item of the block of the producer inside of a flush. -/
theorem step_cas {θ : Θ} {w b r : ℕ} {x : α} (hf : s.flush = some (.stores w))
    (hc : s.queue.consumer θ = .casIndex b r x) (hb : b = s.queue.wpos)
    (hr : (s.queue.block b).readIndex = r) (hs : Stored.step c s (.consume θ false) = some s') :
    s'.flush = some (.stores w) ∧ s'.queue.wpos = s.queue.wpos ∧
      (s'.queue.block s.queue.wpos).readIndex = r + 1 ∧
      (s'.queue.block s.queue.wpos).flushIndex = (s.queue.block s.queue.wpos).flushIndex := by
  obtain ⟨u, hu, rfl⟩ := Option.map_eq_some_iff.mp hs
  simp only [MultiConsumerQueue.step, consume, hc, casIndex, Option.some.injEq] at hu
  rw [if_pos ⟨hr, trivial⟩] at hu
  subst hu hb
  refine ⟨hf, rfl, ?_, ?_⟩
  · rw [State.consumeAt_block, State.modify_block, if_pos rfl]
  · rw [State.consumeAt_block, State.modify_block, if_pos rfl]

theorem Timely.step (h : s.Timely) (hi : s.Inv c) (ha : s.InTime a)
    (hs : Stored.step c s a = some s') : s'.Timely := by
  intro w hw
  by_cases hcas : ∃ θ b r x w, a = .consume θ false ∧ s.flush = some (.stores w) ∧
      s.queue.consumer θ = .casIndex b r x ∧ b = s.queue.wpos ∧ (s.queue.block b).readIndex = r
  · obtain ⟨θ, b, r, x, w', rfl, hf, hc, hb, hr⟩ := hcas
    obtain ⟨-, hwpos, hread, hflush⟩ := step_cas hf hc hb hr hs
    simp only [InTime, hf, hc] at ha
    rw [hwpos, hread, hflush, ← hb]
    exact ha hb hr trivial
  have hpublish := @hi.publishing
  obtain ⟨t, flush⟩ := s
  by_cases hprod : a = .produce
  · subst hprod
    simp only [Stored.step, Stored.produce] at hs
    cases flush with
    | none =>
      cases hp : t.producer with
      | subFlush k =>
        simp only [hp] at hs
        split at hs <;> cases hs <;> cases hw
      | _ =>
        simp only [hp] at hs
        obtain ⟨u, -, rfl⟩ := Option.map_eq_some_iff.mp hs
        cases hw
    | some f =>
      obtain ⟨k, hk⟩ := hi.producer f rfl
      dsimp only at hk
      cases f with
      | exchange p windex =>
        simp only [hk, Option.some.injEq] at hs
        subst hs
        have hflush : (t.block t.wpos).flushIndex = p.cell := hi.exchange p windex rfl
        obtain ⟨hle, -⟩ := hpublish rfl
        simp only [Stored.exchange, State.assert, State.modify_wpos, State.modify_block, if_true,
          SubQueue.store_flushIndex, SubQueue.store_readIndex, hflush]
        exact hle
      | stores windex =>
        simp only [hk, Option.some.injEq] at hs
        subst hs
        cases hw
  · obtain ⟨u, hu, rfl⟩ := step_other hprod hs
    dsimp only at hw
    subst hw
    obtain ⟨k, hk⟩ := hi.producer _ rfl
    obtain ⟨hwpos, hflush⟩ := step_wpos (·.flushIndex) (fun _ _ _ _ => rfl) hk hprod hu
      fun _ _ _ _ _ _ _ _ _ _ _ => rfl
    obtain ⟨-, hread⟩ := step_wpos (·.readIndex) (fun _ _ _ _ => rfl) hk hprod hu
      fun θ spurious b r x he hc hb hr hsp =>
        absurd ⟨θ, b, r, x, w, hsp ▸ he, rfl, hc, hb, hr⟩ hcas
    dsimp only
    rw [hwpos, hflush, hread]
    exact h w rfl

omit [DecidableEq Θ] in
theorem early_cases (s : Stored α Θ) :
    s.early = s.queue ∨ ∃ windex p, s.early = s.queue.flushed windex p := by
  unfold early
  split
  · exact .inr ⟨_, _, rfl⟩
  · exact .inr ⟨_, _, rfl⟩
  · exact .inl rfl

omit [DecidableEq Θ] in
/-- The fields which a flush does not store. -/
theorem early_field {β : Type*} (g : SubQueue α → β) (hg : ∀ q w, g (SubQueue.flushEnd w q) = g q)
    (s : Stored α Θ) (b : ℕ) : g (s.early.block b) = g (s.queue.block b) := by
  rcases s.early_cases with he | ⟨windex, p, he⟩
  · rw [he]
  · rw [he, flushed_block]
    split_ifs
    · exact hg _ _
    · rfl

omit [DecidableEq Θ] in
theorem early_block (s : Stored α Θ) {b : ℕ} (hb : b ≠ s.queue.wpos) :
    s.early.block b = s.queue.block b := by
  rcases s.early_cases with he | ⟨windex, p, he⟩
  · rw [he]
  · rw [he, flushed_block, if_neg hb]

omit [DecidableEq Θ] in
/-- What is not of a block is the same. -/
theorem early_eq (s : Stored α Θ) : s.early.wpos = s.queue.wpos ∧ s.early.head = s.queue.head ∧
    s.early.tail = s.queue.tail ∧ s.early.allocated = s.queue.allocated ∧
    s.early.subQueueCount = s.queue.subQueueCount ∧ s.early.consumer = s.queue.consumer ∧
    s.early.failed = s.queue.failed := by
  rcases s.early_cases with he | ⟨windex, p, he⟩ <;> rw [he] <;>
    exact ⟨rfl, rfl, rfl, rfl, rfl, rfl, rfl⟩

omit [DecidableEq Θ] in
/-- The list of the blocks is the same. -/
theorem chain_of_early {before after : List ℕ} (h : Chain s.early before after) :
    Chain s.queue before after := by
  obtain ⟨hwpos, hhead, htail, halloc, hcount, -, -⟩ := s.early_eq
  exact h.congr (fun b => (early_field (·.next) (fun _ _ => rfl) s b).symm)
    (fun b => (early_field (·.prev) (fun _ _ => rfl) s b).symm) hwpos.symm hhead.symm htail.symm
    halloc.symm hcount.symm

/-- The indices of the block of the producer. -/
theorem Inv.indices (hi : s.Inv c) (ht : s.Timely) :
    (s.queue.block s.queue.wpos).readIndex ≤ (s.queue.block s.queue.wpos).flushIndex ∧
      (s.queue.block s.queue.wpos).flushIndex ≤ (s.queue.block s.queue.wpos).writeIndex := by
  obtain ⟨before, after, h⟩ := inv hi.reach
  cases hf : s.flush with
  | none =>
    have he : s.early = s.queue := by
      obtain ⟨t, flush⟩ := s
      dsimp only at hf
      subst hf
      rfl
    rw [he] at h
    obtain ⟨h₁, h₂, -⟩ := h.indices (x := s.queue.wpos) (by simp)
    exact ⟨h₁, h₂⟩
  | some f =>
    cases f with
    | exchange p windex =>
      obtain ⟨h₁, h₂, h₃⟩ := hi.publishing hf
      rw [hi.exchange p windex hf]
      exact ⟨h₁, h₂.trans h₃⟩
    | stores windex =>
      refine ⟨ht windex hf, (hi.stores windex hf).trans ?_⟩
      obtain ⟨k, hk⟩ := hi.producer _ hf
      have he : s.early = s.queue.flushed windex k.next := by simp only [early, hf, hk]
      rw [he] at h
      obtain ⟨-, h₂, -⟩ := h.indices (x := s.queue.wpos) (List.mem_append_right _
        (List.mem_cons_self ..))
      rw [flushed_block, if_pos rfl] at h₂
      exact h₂

/-- A step which is not in time leaves the read index behind the flush index. -/
theorem behind_of_not_inTime (ha : ¬ s.InTime a) (hs : Stored.step c s a = some s') :
    (s'.queue.block s'.queue.wpos).flushIndex < (s'.queue.block s'.queue.wpos).readIndex := by
  cases a with
  | consume θ spurious =>
    simp only [InTime] at ha
    split at ha
    · rename_i w b r x hf hc
      simp only [Classical.not_imp] at ha
      obtain ⟨hb, hr, rfl, hlt⟩ := ha
      obtain ⟨-, hwpos, hread, hflush⟩ := step_cas hf hc hb hr hs
      rw [hwpos, hread, hflush, ← hb]
      omega
    · exact absurd trivial ha
  | _ => exact absurd trivial ha

end Stored

section Blocks

variable [DecidableEq Θ] {c : Config α} {s : Stored α Θ}

/-- The invariant holds in every reachable state. -/
theorem stored_inv (h : (storedMachine c Θ).Reachable s) : s.Inv c := by
  refine Machine.invariant (P := Stored.Inv c) ?_ (fun s a s' hi hs => hi.step hs) h
  rintro s rfl
  exact ⟨.init rfl, by simp, by simp, by simp⟩

variable (c Θ) in
/-- **The simulation.** The queue with all the stores is simulated by the one whose flushes store
early. -/
theorem stored_simulates :
    Machine.Simulates (storedMachine c Θ) (machine c Θ) (Stored.early (α := α)) where
  init s h := by
    subst h
    rfl
  step s a s' h hs := (Stored.early_step (stored_inv h).producer hs).imp_right fun he => ⟨a, he⟩

/-- **The list of the blocks.** In every state of a run in which no consumer pops an item between
the exchange which made it visible and the store of the flush index: the blocks met from the head on
by the next links are the ones before `wpos`, `wpos` and the ones after it, the last of them is the
tail, the previous links are inverse, and there are as many as are counted; every consumer is at or
before `wpos`, and each block counts its consumers; the indices of each block are in order; the
blocks before `wpos` are full, and those after it are reset; the next step recycles a block only
when it is read up, not `wpos`, and left by every consumer; and no assertion has failed. A step
which is not in time leaves the read index of `wpos` behind its flush index. -/
theorem blocks_listed (h : (storedMachine c Θ).ReachableBy Stored.InTime s) : ∃ before after,
    (Seg (fun b => (s.queue.block b).next) (fun b => (s.queue.block b).prev) none
        (before ++ s.queue.wpos :: after) none ∧
      (before ++ s.queue.wpos :: after).Nodup ∧
      (before ++ s.queue.wpos :: after).head? = some s.queue.head ∧
      (before ++ s.queue.wpos :: after).getLast? = some s.queue.tail ∧
      s.queue.subQueueCount = (before ++ s.queue.wpos :: after).length) ∧
    (∀ θ b, (s.queue.consumer θ).block = some b → b ∈ before ++ [s.queue.wpos]) ∧
    (∀ b ∈ before ++ s.queue.wpos :: after,
      Census (fun θ => (s.queue.consumer θ).block = some b) (s.queue.block b).consumerCount ∧
      (s.queue.block b).readIndex ≤ (s.queue.block b).flushIndex ∧
      (s.queue.block b).flushIndex ≤ (s.queue.block b).writeIndex ∧
      (s.queue.block b).writeIndex ≤ c.size) ∧
    (∀ b ∈ before, (s.queue.block b).flushIndex = c.size ∧ (s.queue.block b).writeIndex = c.size ∧
      (s.queue.block b).firstPending = none) ∧
    (∀ b ∈ after, (s.queue.block b).readIndex = 0 ∧ (s.queue.block b).flushIndex = 0 ∧
      (s.queue.block b).writeIndex = 0 ∧ (s.queue.block b).firstPending = none) ∧
    (∀ a s', (storedMachine c Θ).step s a = some s' →
      (∀ b ∈ before ++ s.queue.wpos :: after,
        (s'.queue.block b).readIndex < (s.queue.block b).readIndex →
        (s.queue.block b).readIndex = c.size ∧ b ≠ s.queue.wpos ∧
          ∀ θ, (s'.queue.consumer θ).block ≠ some b) ∧
      (¬ s.InTime a → (s'.queue.block s'.queue.wpos).flushIndex <
        (s'.queue.block s'.queue.wpos).readIndex)) ∧
    s.queue.failed = false := by
  have hi : s.Inv c ∧ s.Timely := by
    refine Machine.invariant_by (P := fun s => s.Inv c ∧ s.Timely) ?_
      (fun s a s' hi ha hs => ⟨hi.1.step hs, hi.2.step hi.1 ha hs⟩) h
    rintro s rfl
    exact ⟨stored_inv (.init rfl), by simp [Stored.Timely]⟩
  obtain ⟨hinv, htimely⟩ := hi
  obtain ⟨before, after, hat⟩ := inv hinv.reach
  obtain ⟨hwpos, -, -, -, -, hcons, hfailed⟩ := s.early_eq
  have hchain := Stored.chain_of_early hat.chain
  -- the blocks but that of the producer
  have hother : ∀ b ∈ before ++ after, b ≠ s.queue.wpos := by
    intro b hb he
    subst he
    exact (List.nodup_cons.mp (List.nodup_middle.mp hchain.nodup)).1 hb
  refine ⟨before, after, ⟨hchain.linked, hchain.nodup, ?_, ?_, hchain.subQueueCount_eq⟩,
    fun θ b hb => ?_, fun b hb => ?_, fun b hb => ?_, fun b hb => ?_,
    fun a s' hs => ⟨fun b hb hlt => ?_, fun ha => ?_⟩, ?_⟩
  · have hhead := hchain.head_eq
    cases before <;> exact hhead
  · rw [List.getLast?_append, hchain.tail_eq]
    rfl
  · rw [← hcons] at hb
    exact hwpos ▸ (hat.consumers.attached θ b hb).1
  · have hb' : b ∈ before ++ s.early.wpos :: after := hwpos.symm ▸ hb
    have hcensus := hat.consumers.counted b hb'
    rw [hcons, Stored.early_field (·.consumerCount) (fun _ _ => rfl)] at hcensus
    obtain ⟨h₁, h₂, h₃⟩ := hat.indices hb'
    rw [Stored.early_field (·.writeIndex) (fun _ _ => rfl)] at h₃
    by_cases hw : b = s.queue.wpos
    · subst hw
      obtain ⟨h₁, h₂⟩ := hinv.indices htimely
      exact ⟨hcensus, h₁, h₂, h₃⟩
    · rw [s.early_block hw] at h₁ h₂
      exact ⟨hcensus, h₁, h₂, h₃⟩
  · have hfull := hat.data.full b hb
    rw [s.early_block (hother b (List.mem_append_left _ hb))] at hfull
    exact ⟨hfull.flushIndex_eq, hfull.writeIndex_eq, hfull.firstPending_eq⟩
  · have hfresh := hat.data.fresh b hb
    rw [s.early_block (hother b (List.mem_append_right _ hb))] at hfresh
    exact ⟨hfresh.readIndex_eq, hfresh.flushIndex_eq, hfresh.writeIndex_eq,
      hfresh.firstPending_eq⟩
  · have hread (s : Stored α Θ) : (s.early.block b).readIndex = (s.queue.block b).readIndex :=
      Stored.early_field (·.readIndex) (fun _ _ => rfl) s b
    rcases Stored.early_step hinv.producer hs with he | he
    · rw [← hread s, ← hread s', he] at hlt
      exact absurd hlt (Nat.lt_irrefl _)
    · rw [← hread s, ← hread s'] at hlt
      obtain ⟨h₁, h₂, h₃⟩ := hat.step_readIndex he (hwpos.symm ▸ hb) hlt
      rw [hread] at h₁
      rw [hwpos] at h₂
      rw [s'.early_eq.2.2.2.2.2.1] at h₃
      exact ⟨h₁, h₂, h₃⟩
  · exact Stored.behind_of_not_inTime ha hs
  · exact hfailed ▸ hat.not_failed

/-- The first of two blocks was recycled, and is the last one now. -/
theorem blocks_listed_two_blocks : ∃ s : Stored ℕ Unit, s.queue.head = 1 ∧ s.queue.tail = 0 ∧
    ∃ before after, (before ++ s.queue.wpos :: after).head? = some s.queue.head ∧
      (before ++ s.queue.wpos :: after).getLast? = some s.queue.tail ∧
      s.queue.subQueueCount = (before ++ s.queue.wpos :: after).length := by
  obtain ⟨s, hs, hends⟩ : ∃ s, (storedMachine tiny Unit).runBy Stored.InTime ⟨.new tiny, none⟩
      (twoBlocksRun ()) = some s ∧ (s.queue.head, s.queue.tail) = (1, 0) :=
    Option.map_eq_some_iff.mp (by decide +kernel)
  obtain ⟨before, after, ⟨-, -, hhead, htail, hlength⟩, -⟩ :=
    blocks_listed (.of_runBy (.init rfl) hs)
  obtain ⟨h₁, h₀⟩ := Prod.mk.inj hends
  exact ⟨s, h₁, h₀, before, after, hhead, htail, hlength⟩

/-- A pending item is flushed, and popped before the flush index is stored. -/
def earlyPopRun : List (Action ℕ Unit) :=
  [.attach (), .consume () false, .call (.pushPending 1), .produce, .ret, .call .flushPending,
    .produce, .produce, .produce, .pop (), .consume () false, .consume () false, .consume () false]

/-- **The read index gets behind the flush index**, while the list of the blocks is not locked. -/
theorem popped_before_stored : ¬ ∀ s : Stored ℕ Unit, (storedMachine tiny Unit).Reachable s →
    (s.queue.block s.queue.wpos).readIndex ≤ (s.queue.block s.queue.wpos).flushIndex := by
  intro hall
  obtain ⟨s, hs, hindex⟩ : ∃ s, (storedMachine tiny Unit).run ⟨.new tiny, none⟩ earlyPopRun =
      some s ∧ ((s.queue.block s.queue.wpos).readIndex, (s.queue.block s.queue.wpos).flushIndex) =
        (1, 0) :=
    Option.map_eq_some_iff.mp (by decide +kernel)
  obtain ⟨hread, hflush⟩ := Prod.mk.inj hindex
  have hle := hall s (.of_run (.init rfl) hs)
  rw [hread, hflush] at hle
  exact absurd hle (by decide)


end Blocks

end MultiConsumerQueue

end Serverbox
