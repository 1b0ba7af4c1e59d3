import Serverbox.Box.MultiConsumerQueueOrder

/-!
# The recycling of the blocks

A block is recycled by the last consumer which leaves it, when it is read up and the producer has
gone on. This is the only way in which the read index of a block goes back.

## Main results

* `MultiConsumerQueue.collect_readIndex`: the read index of a block goes back only when the block is
  recycled.
* `MultiConsumerQueue.InvAt.step_readIndex`: a recycled block is read up, and left by every
  consumer.
* `MultiConsumerQueue.InvAt.indices`: the indices of a block are in order.
-/

namespace Serverbox

namespace MultiConsumerQueue

open DoublyLinked

variable {α Θ : Type*} {c : Config α} {s s' : State α Θ} {before after : List ℕ} {b x : ℕ}

/-- A change which leaves a field of the blocks. -/
theorem modify_field {β : Type*} (g : SubQueue α → β) {f : SubQueue α → SubQueue α} {v : β}
    (h : g (s.block x) = v) (hf : ∀ q, g (f q) = g q) : g ((s.modify b f).block x) = v := by
  rw [State.modify_block]
  split_ifs with hx
  · rw [hf, ← hx, h]
  · exact h

/-- A block which is unlinked keeps all its fields but the links. -/
theorem unlink_field {β : Type*} (g : SubQueue α → β)
    (hg : ∀ q n p, g { q with next := n, prev := p } = g q) (s : State α Θ) (b n x : ℕ) :
    g ((unlink s b n).block x) = g (s.block x) := by
  unfold unlink
  rcases (s.block b).prev with _ | p
  · dsimp only
    exact modify_field g (modify_field g rfl fun q => hg q q.next none) fun q => hg q none none
  · dsimp only
    refine modify_field g (modify_field g (modify_field g rfl fun q => ?_) fun q => ?_) fun q => ?_
    · exact hg q (some n) q.prev
    · exact hg q q.next (some p)
    · exact hg q none none

/-- The read index of a block goes back only when the block is recycled, which no consumer is
attached to, and then it was read up. -/
theorem collect_readIndex (c : Config α) (s : State α Θ) (b x : ℕ) :
    ((collect c s b).block x).consumerCount = (s.block x).consumerCount ∧
      (((collect c s b).block x).readIndex = (s.block x).readIndex ∨
        x = b ∧ b ≠ s.wpos ∧ (s.block b).consumerCount = 0 ∧
          c.size ≤ (s.block b).readIndex) := by
  unfold collect
  by_cases hw : b = s.wpos
  · rw [if_pos hw]
    exact ⟨rfl, .inl rfl⟩
  by_cases hc : (s.block b).consumerCount ≠ 0
  · rw [if_neg hw, if_pos hc]
    exact ⟨rfl, .inl rfl⟩
  by_cases hr : (s.block b).readIndex < c.size
  · rw [if_neg hw, if_neg hc, if_pos hr]
    exact ⟨rfl, .inl rfl⟩
  simp only [if_neg hw, if_neg hc, if_neg hr]
  rcases (s.block b).next with _ | n
  · exact ⟨rfl, .inl rfl⟩
  · have hr' := unlink_field (·.readIndex) (fun _ _ _ => rfl) s b n x
    have hc' := unlink_field (·.consumerCount) (fun _ _ _ => rfl) s b n x
    dsimp only
    refine ⟨modify_field (·.consumerCount) (modify_field (·.consumerCount)
      (modify_field (·.consumerCount) hc' fun _ => rfl) fun _ => rfl) fun _ => rfl, ?_⟩
    by_cases hx : x = b
    · exact .inr ⟨hx, hw, not_not.mp hc, Nat.not_lt.mp hr⟩
    · refine .inl (modify_field (·.readIndex) (modify_field (·.readIndex) ?_ fun _ => rfl)
        fun _ => rfl)
      rw [State.modify_block, if_neg hx]
      exact hr'

theorem appendBlock_readIndex (c : Config α) (s : State α Θ) (hx : x < s.allocated) :
    ((appendBlock c s).block x).readIndex = (s.block x).readIndex ∧
      x < (appendBlock c s).allocated := by
  refine ⟨?_, Nat.lt_succ_of_lt hx⟩
  have hne : x ≠ s.allocated := Nat.ne_of_lt hx
  simp only [appendBlock, State.modify_block]
  split_ifs <;> simp_all

theorem appendBlocks_readIndex (c : Config α) (n : ℕ) (s : State α Θ) (hx : x < s.allocated) :
    ((appendBlocks c n s).block x).readIndex = (s.block x).readIndex := by
  induction n generalizing s with
  | zero => rfl
  | succ n ih =>
    obtain ⟨hr, hx'⟩ := appendBlock_readIndex c s hx
    exact (ih _ hx').trans hr

/-- The producer leaves the read indices. -/
theorem produce_readIndex (hs : produce c s = some s') (hx : x < s.allocated) :
    (s'.block x).readIndex = (s.block x).readIndex := by
  have hmodify : ∀ q, (s.block s.wpos).Outer q →
      ((s.modify s.wpos fun _ => q).block x).readIndex = (s.block x).readIndex := fun q hq => by
    rw [State.modify_block]
    split_ifs with hw
    · rw [hq.readIndex, hw]
    · rfl
  unfold produce at hs
  cases hp : s.producer with
  | idle | done _ => simp [hp] at hs
  | push _ =>
    simp only [hp, Option.some.injEq] at hs
    exact hs ▸ rfl
  | publish p k =>
    simp only [hp, Option.some.injEq] at hs
    subst hs
    show (((({ s with visible := (s.block s.wpos).base + (s.block s.wpos).flushIndex } :
      State α Θ).modify s.wpos fun q => q.store p.cell (some p.item)).block x).readIndex) = _
    rw [State.modify_block]
    split_ifs with hw
    · rw [hw]
      rfl
    · rfl
  | nextWpos k =>
    simp only [hp, Option.some.injEq] at hs
    subst hs
    show ((nextWpos c s).block x).readIndex = _
    unfold nextWpos
    rcases hn : (s.block s.wpos).next with _ | n
    · simp only [hn]
      rw [State.modify_block]
      obtain ⟨hr, -⟩ := appendBlock_readIndex c
        (s.assert (s.pendingCount == 0 && (s.block s.wpos).flushIndex == c.size)) hx
      split_ifs with hxn
      · subst hxn
        exact hr
      · exact hr
    · simp only [hn]
      rw [State.modify_block]
      split_ifs with hxn
      · subst hxn
        rfl
      · rfl
  | reserve n =>
    simp only [hp, Option.some.injEq] at hs
    subst hs
    exact appendBlocks_readIndex c _ s hx
  | subPush x bne | pushAgain x bne =>
    simp only [hp] at hs
    split at hs
    · rename_i r hr
      cases hs
      exact hmodify r.1 (SubQueue.push_outer hr)
    · cases hs
      rfl
  | pushPending x | pushPendingAgain x bne =>
    simp only [hp] at hs
    split at hs
    · rename_i q' hq
      cases hs
      exact hmodify q' (SubQueue.pushPending_outer hq)
    · cases hs
      rfl
  | flush x =>
    simp only [hp] at hs
    split at hs <;> cases hs <;> rfl
  | subFlush k =>
    simp only [hp] at hs
    split at hs
    · rename_i r hr
      cases hs
      exact hmodify r.1 (SubQueue.flushPending_outer hr)
    · cases hs
      rfl

variable [DecidableEq Θ]

/-- A block which a consumer leaves and recycles has no other consumer. -/
theorem InvAt.recycle_left (h : InvAt c s before after) {θ : Θ} (hb : (s.consumer θ).block = some b)
    {t : State α Θ} (ht : t.consumer = Function.update s.consumer θ (t.consumer θ))
    (hθ : (t.consumer θ).block ≠ some b)
    (hzero : ((s.modify b fun q => { q with consumerCount := q.consumerCount - 1 }).block
      b).consumerCount = 0) (θ' : Θ) : (t.consumer θ').block ≠ some b := by
  by_cases he : θ' = θ
  · rwa [he]
  · have hrel := h.release hb
    have hcensus := hrel.consumers.counted b (mem_chain_of_mem_used (h.readIndex_eq hb).1)
    have hcount : (((s.modify b fun q =>
        { q with consumerCount := q.consumerCount - 1 }).consumeAt θ .detached).block
          b).consumerCount = 0 := hzero
    rw [hcount] at hcensus
    have hno := hcensus.eq_zero θ'
    rw [State.consumeAt_consumer, if_neg he] at hno
    rw [ht, Function.update_of_ne he]
    exact hno

/-- **One step.** Only a block which is read up, other than `wpos`, is recycled, and only when no
consumer is attached to it any more. -/
theorem InvAt.step_readIndex (h : InvAt c s before after) {a : Action α Θ}
    (hs : MultiConsumerQueue.step c s a = some s') (hx : x ∈ before ++ s.wpos :: after)
    (hlt : (s'.block x).readIndex < (s.block x).readIndex) :
    (s.block x).readIndex = c.size ∧ x ≠ s.wpos ∧ ∀ θ, (s'.consumer θ).block ≠ some x := by
  have hsame : (s'.block x).readIndex ≠ (s.block x).readIndex := Nat.ne_of_lt hlt
  have hle : (s.block x).readIndex ≤ c.size := by
    rcases List.mem_append.mp hx with hm | hm
    · rw [h.data.read x (List.mem_append_left _ hm)]
      exact Nat.min_le_left ..
    rcases List.mem_cons.mp hm with rfl | hm
    · rw [h.data.read s.wpos (by simp)]
      exact Nat.min_le_left ..
    · rw [(h.data.fresh x hm).readIndex_eq]
      exact Nat.zero_le _
  -- the consumer leaves the block `b`, and perhaps recycles it
  have hleave : ∀ (θ : Θ) (b : ℕ), (s.consumer θ).block = some b →
      s'.consumer = Function.update s.consumer θ (s'.consumer θ) →
      (s'.consumer θ).block ≠ some b →
      (s'.block x).readIndex = ((MultiConsumerQueue.collect c (s.modify b fun q =>
        { q with consumerCount := q.consumerCount - 1 }) b).block x).readIndex →
      (s.block x).readIndex = c.size ∧ x ≠ s.wpos ∧ ∀ θ, (s'.consumer θ).block ≠ some x := by
    intro θ b hb hcons hθ hread
    obtain ⟨-, hcol⟩ := collect_readIndex c (s.modify b fun q =>
      { q with consumerCount := q.consumerCount - 1 }) b x
    have hmod : ((s.modify b fun q => { q with consumerCount := q.consumerCount - 1 }).block
        x).readIndex = (s.block x).readIndex := modify_field (·.readIndex) rfl fun _ => rfl
    rcases hcol with hcol | ⟨rfl, hw, hzero, hsize⟩
    · exact absurd (hread.trans (hcol.trans hmod)) hsame
    · rw [hmod] at hsize
      exact ⟨Nat.le_antisymm hle hsize, hw, h.recycle_left hb hcons hθ hzero⟩
  cases a with
  | call op =>
    simp only [MultiConsumerQueue.step] at hs
    split at hs
    · cases hs
      cases op <;> exact absurd rfl hsame
    · cases hs
  | produce => exact absurd (produce_readIndex hs (h.chain.allocated x hx)) hsame
  | ret | attach _ | pop _ | detach _ | popRet _ =>
    simp only [MultiConsumerQueue.step] at hs
    split at hs
    · cases hs
      exact absurd rfl hsame
    · cases hs
  | consume θ spurious =>
    simp only [MultiConsumerQueue.step, consume] at hs
    cases hc : s.consumer θ with
    | detached | idle _ | done _ _ => simp [hc] at hs
    | attach =>
      simp only [hc, Option.some.injEq] at hs
      subst hs
      refine absurd ?_ hsame
      rw [State.consumeAt_block]
      exact modify_field (·.readIndex) rfl fun _ => rfl
    | loadIndex b | loadCell b r | popped b x =>
      simp only [hc, Option.some.injEq] at hs
      subst hs
      exact absurd rfl hsame
    | casIndex b r x =>
      simp only [hc, Option.some.injEq] at hs
      subst hs
      unfold MultiConsumerQueue.casIndex at hlt hsame
      split_ifs at hlt hsame with hr
      · rw [State.consumeAt_block, State.modify_block] at hlt
        split_ifs at hlt with hxb
        · rw [hxb, hr.1] at hlt
          exact absurd hlt (Nat.not_lt.mpr (Nat.le_succ r))
        · exact absurd hlt (Nat.lt_irrefl _)
      · exact absurd rfl hsame
    | detach b =>
      simp only [hc, Option.some.injEq] at hs
      subst hs
      have hrec := recycles_collect c
        (s.modify b fun q => { q with consumerCount := q.consumerCount - 1 }) b
      refine hleave θ b (by rw [hc]; rfl) ?_ ?_ rfl
      · show Function.update (MultiConsumerQueue.collect c _ b).consumer θ _ = _
        rw [hrec.consumer, State.consumeAt_consumer, if_pos rfl]
        rfl
      · rw [State.consumeAt_consumer, if_pos rfl]
        rintro ⟨⟩
    | exhausted b =>
      simp only [hc, Option.some.injEq] at hs
      subst hs
      have hblock : (s.consumer θ).block = some b := by rw [hc]; rfl
      have hrec := recycles_collect c
        (s.modify b fun q => { q with consumerCount := q.consumerCount - 1 }) b
      unfold MultiConsumerQueue.leave at hlt hsame hleave ⊢
      split_ifs at hlt hsame hleave ⊢ with hw
      · exact absurd rfl hsame
      have hb : b ∈ before := (List.mem_append.mp (h.readIndex_eq hblock).1).resolve_right
        fun hm => hw (by simpa using hm)
      obtain ⟨l₁, l₂, rfl⟩ := List.append_of_mem hb
      obtain ⟨n, l₃, hl₃⟩ : ∃ n l₃, l₂ ++ s.wpos :: after = n :: l₃ := by cases l₂ <;> simp
      have hlist : l₁ ++ b :: l₂ ++ s.wpos :: after = l₁ ++ b :: n :: l₃ := by simp [hl₃]
      have hnext : (s.block b).next = some n := by
        have := h.chain.linked
        rw [hlist] at this
        simpa using this.mid.2
      have hnb : n ≠ b := by
        have := h.chain.nodup
        rw [hlist] at this
        exact fun he => (List.nodup_cons.mp (List.nodup_append.mp this).2.1).1 (by simp [he])
      simp only [hnext] at hlt hsame hleave ⊢
      refine hleave θ b hblock ?_ ?_ ?_
      · show Function.update (MultiConsumerQueue.collect c _ b).consumer θ _ = _
        rw [hrec.consumer, State.consumeAt_consumer, if_pos rfl]
        rfl
      · rw [State.consumeAt_consumer, if_pos rfl]
        exact fun he => hnb (Option.some.inj he)
      · rw [State.consumeAt_block]
        exact modify_field (·.readIndex) rfl fun _ => rfl

omit [DecidableEq Θ] in
/-- The indices of the blocks are in order. -/
theorem InvAt.indices (h : InvAt c s before after) (hx : x ∈ before ++ s.wpos :: after) :
    (s.block x).readIndex ≤ (s.block x).flushIndex ∧
      (s.block x).flushIndex ≤ (s.block x).writeIndex ∧ (s.block x).writeIndex ≤ c.size := by
  rcases List.mem_append.mp hx with hm | hm
  · have hfull := h.data.full x hm
    rw [h.data.read x (List.mem_append_left _ hm), hfull.flushIndex_eq, hfull.writeIndex_eq]
    exact ⟨Nat.min_le_left .., le_rfl, le_rfl⟩
  rcases List.mem_cons.mp hm with rfl | hm
  · have hw := h.data.writing
    have hle := h.data.popped_le
    have hread := h.data.read s.wpos (by simp)
    have hflush : s.visible - (s.block s.wpos).base ≤ (s.block s.wpos).flushIndex ∧
        (s.block s.wpos).flushIndex ≤ (s.block s.wpos).writeIndex := by
      have hfront := hw.front
      have hvis := hw.visible_le
      cases hp : s.producer with
      | publish p k =>
        rw [hp] at hfront
        obtain ⟨-, -, -, -, hflush, -⟩ := hfront
        omega
      | _ =>
        rw [hp] at hfront
        have := hfront.1
        omega
    refine ⟨?_, hflush.2, hw.writeIndex_le⟩
    rw [hread]
    omega
  · have hfresh := h.data.fresh x hm
    rw [hfresh.readIndex_eq, hfresh.flushIndex_eq, hfresh.writeIndex_eq]
    exact ⟨le_rfl, le_rfl, Nat.zero_le _⟩

end MultiConsumerQueue

end Serverbox
