import Serverbox.Box.MultiConsumerQueueBlocks

/-!
# The consumers of the multi-consumer queue

The steps of the consumers keep the invariant of the queue, and the invariant holds in every
reachable state.

## Main results

* `MultiConsumerQueue.InvAt.loadCell`, `MultiConsumerQueue.InvAt.casIndex`: the two halves of a
  pop.
* `MultiConsumerQueue.InvAt.leave`: a consumer goes on to the next block.
* `MultiConsumerQueue.inv`: the invariant holds in every reachable state.
-/

namespace Serverbox

namespace MultiConsumerQueue

variable {α Θ : Type*} [DecidableEq Θ] {c : Config α} {s s' : State α Θ} {before after : List ℕ}

section ConsumeAt

variable (s : State α Θ) (θ θ' : Θ) (p : Consumer α)

@[simp] theorem State.consumeAt_consumer :
    (s.consumeAt θ p).consumer θ' = if θ' = θ then p else s.consumer θ' := by
  simp [State.consumeAt, Function.update_apply]

@[simp] theorem State.consumeAt_block : (s.consumeAt θ p).block = s.block := rfl
@[simp] theorem State.consumeAt_wpos : (s.consumeAt θ p).wpos = s.wpos := rfl
@[simp] theorem State.consumeAt_popped : (s.consumeAt θ p).popped = s.popped := rfl

end ConsumeAt

/-- A consumer moves within its block, the counters of the queue change. -/
theorem InvAt.consumeAt (h : InvAt c s before after) {θ : Θ} {p : Consumer α} {k n : ℤ}
    (hb : p.block = (s.consumer θ).block) (hk : p.Knows c s) :
    InvAt c ({ s with count := k, consumerCount := n }.consumeAt θ p) before after := by
  obtain ⟨hch, hd, hcons, hf⟩ := h
  have hblock : ∀ θ', ((s.consumeAt θ p).consumer θ').block = (s.consumer θ').block := fun θ' => by
    rw [State.consumeAt_consumer]
    split
    · rename_i he
      rw [he, hb]
    · rfl
  refine ⟨hch.congr (fun _ => rfl) (fun _ => rfl) rfl rfl rfl rfl rfl,
    hd.congr rfl (fun b _ => .refl _) rfl rfl rfl rfl rfl, ⟨fun θ' b hb' => ?_, fun θ' => ?_,
    fun b hb' => ?_⟩, hf⟩
  · exact hcons.attached θ' b ((hblock θ').symm.trans hb')
  · show ((s.consumeAt θ p).consumer θ').Knows c s
    rw [State.consumeAt_consumer]
    split
    · exact hk
    · exact hcons.knows θ'
  · exact (hcons.counted b hb').congr fun θ' => by
      rw [← hblock θ']
      rfl

/-- A consumer is attached to a block which the next item has reached. -/
theorem InvAt.acquire (h : InvAt c s before after) {θ : Θ} {b : ℕ} {p : Consumer α}
    (hb : b ∈ before ++ [s.wpos]) (hle : (s.block b).base ≤ s.popped.length)
    (hnone : (s.consumer θ).block = none) (hp : p = .idle b ∨ p = .loadIndex b) :
    InvAt c ((s.modify b fun q => { q with consumerCount := q.consumerCount + 1 }).consumeAt θ p)
      before after := by
  obtain ⟨hch, hd, hcons, hf⟩ := h
  have hpb : p.block = some b := by rcases hp with rfl | rfl <;> rfl
  have hsame : ∀ x, (s.block x).Same
      ((s.modify b fun q => { q with consumerCount := q.consumerCount + 1 }).block x) := fun x => by
    rw [State.modify_block]
    split
    · rename_i he
      subst he
      exact ⟨rfl, rfl, rfl, rfl, rfl, rfl, rfl⟩
    · exact .refl _
  refine ⟨hch.congr (fun x => ?_) (fun x => ?_) rfl rfl rfl rfl rfl,
    hd.congr rfl (fun x _ => hsame x) rfl rfl rfl rfl rfl, ⟨fun θ' x hx => ?_, fun θ' => ?_,
    fun x hx => ?_⟩, hf⟩
  · rw [State.consumeAt_block, State.modify_block]
    split <;> simp_all
  · rw [State.consumeAt_block, State.modify_block]
    split <;> simp_all
  · rw [State.consumeAt_block, (hsame x).base]
    rw [State.consumeAt_consumer] at hx
    split at hx
    · obtain rfl : b = x := Option.some.inj (hpb.symm.trans hx)
      exact ⟨hb, hle⟩
    · exact hcons.attached θ' x hx
  · rw [State.consumeAt_consumer]
    split
    · rcases hp with rfl | rfl <;> trivial
    · exact (hcons.knows θ').congr (fun x _ => hsame x) rfl rfl
  · rw [State.consumeAt_block, State.modify_block]
    have hother : ∀ θ' ≠ θ, (((s.modify b fun q =>
        { q with consumerCount := q.consumerCount + 1 }).consumeAt θ p).consumer θ').block =
        some x ↔ (s.consumer θ').block = some x := fun θ' hne => by simp [hne]
    split
    · rename_i he
      subst he
      exact (hcons.counted x hx).enter (θ := θ) (by simp [hnone]) (by simp [hpb]) hother
    · rename_i hne
      refine (hcons.counted x hx).congr fun θ' => ?_
      rcases eq_or_ne θ' θ with rfl | hθ
      · simp [hnone, hpb, Ne.symm hne]
      · exact hother θ' hθ

/-- A consumer leaves its block. -/
theorem InvAt.release (h : InvAt c s before after) {θ : Θ} {b : ℕ}
    (hb : (s.consumer θ).block = some b) :
    InvAt c ((s.modify b fun q => { q with consumerCount := q.consumerCount - 1 }).consumeAt θ
      .detached) before after := by
  obtain ⟨hch, hd, hcons, hf⟩ := h
  have hsame : ∀ x, (s.block x).Same
      ((s.modify b fun q => { q with consumerCount := q.consumerCount - 1 }).block x) := fun x => by
    rw [State.modify_block]
    split
    · rename_i he
      subst he
      exact ⟨rfl, rfl, rfl, rfl, rfl, rfl, rfl⟩
    · exact .refl _
  refine ⟨hch.congr (fun x => ?_) (fun x => ?_) rfl rfl rfl rfl rfl,
    hd.congr rfl (fun x _ => hsame x) rfl rfl rfl rfl rfl, ⟨fun θ' x hx => ?_, fun θ' => ?_,
    fun x hx => ?_⟩, hf⟩
  · rw [State.consumeAt_block, State.modify_block]
    split <;> simp_all
  · rw [State.consumeAt_block, State.modify_block]
    split <;> simp_all
  · rw [State.consumeAt_block, (hsame x).base]
    rw [State.consumeAt_consumer] at hx
    split at hx
    · cases hx
    · exact hcons.attached θ' x hx
  · rw [State.consumeAt_consumer]
    split
    · trivial
    · exact (hcons.knows θ').congr (fun x _ => hsame x) rfl rfl
  · rw [State.consumeAt_block, State.modify_block]
    have hother : ∀ θ' ≠ θ, (((s.modify b fun q =>
        { q with consumerCount := q.consumerCount - 1 }).consumeAt θ
          .detached).consumer θ').block = some x ↔
        (s.consumer θ').block = some x := fun θ' hne => by simp [hne]
    split
    · rename_i he
      subst he
      exact (hcons.counted x hx).leave (θ := θ) hb (by simp [Consumer.block]) hother
    · rename_i hne
      refine (hcons.counted x hx).congr fun θ' => ?_
      rcases eq_or_ne θ' θ with rfl | hθ
      · rw [State.consumeAt_consumer, if_pos rfl, hb]
        exact ⟨nofun, fun he => absurd (Option.some.inj he).symm hne⟩
      · exact hother θ' hθ

omit [DecidableEq Θ] in
/-- The recycling of a block keeps the invariant. -/
theorem InvAt.collect (h : InvAt c s before after) {b : ℕ} (hb : b ∈ before ++ [s.wpos]) :
    ∃ before' after', InvAt c (collect c s b) before' after' ∧
      ∀ x ∈ before ++ [s.wpos], x ≠ b →
        x ∈ before' ++ [s.wpos] ∧ (s.block x).Same ((collect c s b).block x) := by
  obtain ⟨before', after', hc⟩ := collect_spec h.chain h.data hb
  have hr := recycles_collect c s b
  refine ⟨before', after', ⟨hc.chain, hc.data, ⟨fun θ x hx => ?_, fun θ => ?_, fun x hx => ?_⟩,
    hc.failed.trans h.not_failed⟩, fun x hx hne => hc.kept x hx (.inl hne)⟩
  -- a block with a consumer is not recycled
  · rw [hr.consumer] at hx
    obtain ⟨hm, hle⟩ := h.consumers.attached θ x hx
    obtain ⟨hm', hs⟩ := hc.kept x hm (Decidable.or_iff_not_imp_left.mpr fun he => by
      rw [not_not.mp he] at hx
      have := (h.consumers.counted b (mem_chain_of_mem_used hb)).pos hx
      omega)
    rw [hr.wpos, hs.base, hr.popped]
    exact ⟨hm', hle⟩
  · rw [hr.consumer]
    refine (h.consumers.knows θ).congr (fun x hx => ?_) hr.visible hr.pushed
    refine (hc.kept x (h.consumers.attached θ x hx).1 ?_).2
    refine Decidable.or_iff_not_imp_left.mpr fun he => ?_
    rw [not_not.mp he] at hx
    have := (h.consumers.counted b (mem_chain_of_mem_used hb)).pos hx
    omega
  · rw [hr.consumer, hc.consumerCount]
    rw [hr.wpos] at hx
    exact h.consumers.counted x (hc.mem x hx)

omit [DecidableEq Θ] in
/-- The read index of the block of a consumer is that of the next item, or the size. -/
theorem InvAt.readIndex_eq (h : InvAt c s before after) {θ : Θ} {b : ℕ}
    (hb : (s.consumer θ).block = some b) :
    b ∈ before ++ [s.wpos] ∧ (s.block b).base ≤ s.popped.length ∧
      (s.block b).readIndex = min c.size (s.popped.length - (s.block b).base) := by
  obtain ⟨hm, hle⟩ := h.consumers.attached θ b hb
  exact ⟨hm, hle, h.data.read b hm⟩

theorem InvAt.withIndex (h : InvAt c s before after) {θ : Θ} {b : ℕ}
    (hb : (s.consumer θ).block = some b) :
    InvAt c (withIndex c s θ b (s.block b).readIndex) before after := by
  obtain ⟨-, -, hr⟩ := h.readIndex_eq hb
  unfold MultiConsumerQueue.withIndex
  split
  · rename_i he
    exact h.consumeAt hb.symm he
  · rename_i hne
    exact h.consumeAt hb.symm ⟨by omega, Nat.le_refl _⟩

omit [DecidableEq Θ] in
/-- A cell up to the read index holds an item, unless it is the next one of the block of the
producer and nothing more is visible. -/
theorem InvAt.cell_eq (h : InvAt c s before after) {θ : Θ} {b r : ℕ}
    (hc : s.consumer θ = .loadCell b r) :
    (s.block b).written r = true ∧
      ((s.block b).base + r < s.visible ∧ (s.block b).cell r = s.pushed[(s.block b).base + r]? ∨
        (s.block b).cell r = none ∧ b = s.wpos ∧ (s.block b).base + r = s.visible ∧
          s.popped.length = s.visible) := by
  obtain ⟨hm, hle, hr⟩ := h.readIndex_eq (θ := θ) (b := b) (by rw [hc]; rfl)
  have hk := h.consumers.knows θ
  rw [hc] at hk
  obtain ⟨hlt, hri⟩ := hk
  have hw := h.data.writing
  have hpop := h.data.popped_le
  rcases List.mem_append.mp hm with hm | hm
  · obtain ⟨hcell, hwritten⟩ := (h.data.full b hm).cells r hlt
    have hsp := (List.pairwise_append.mp h.data.spaced).2.2 b hm s.wpos (by simp)
    have := hw.base_le
    exact ⟨hwritten, .inl ⟨by omega, hcell⟩⟩
  · obtain rfl := List.mem_singleton.mp hm
    rcases Nat.lt_or_ge ((s.block s.wpos).base + r) s.visible with hv | hv
    · obtain ⟨hcell, hwritten⟩ := hw.cells r hv
      exact ⟨hwritten, .inl ⟨hv, hcell⟩⟩
    · have he : r = s.visible - (s.block s.wpos).base := by omega
      obtain ⟨hcell, hwritten⟩ := hw.null
      rw [← he] at hcell hwritten
      exact ⟨hwritten, .inr ⟨hcell, rfl, by omega, by omega⟩⟩

theorem InvAt.loadCell (h : InvAt c s before after) {θ : Θ} {b r : ℕ}
    (hc : s.consumer θ = .loadCell b r) : InvAt c (loadCell s θ b r) before after := by
  obtain ⟨hwritten, hcell⟩ := h.cell_eq hc
  have hk := h.consumers.knows θ
  rw [hc] at hk
  have hassert : s.assert true = s := by simp [State.assert]
  simp only [MultiConsumerQueue.loadCell, hwritten, hassert]
  cases hx : (s.block b).cell r with
  | none => exact h.consumeAt (by rw [hc]; rfl) trivial
  | some x =>
    refine h.consumeAt (by rw [hc]; rfl) ⟨hk.1, ?_⟩
    rcases hcell with ⟨hv, hcell⟩ | ⟨hcell, -⟩
    · exact ⟨hv, hcell.symm.trans hx⟩
    · cases hcell.symm.trans hx

/-- The exchange of the read index pops the next item. -/
theorem InvAt.casIndex (h : InvAt c s before after) {θ : Θ} {b r : ℕ} {x : α}
    (hc : s.consumer θ = .casIndex b r x) (spurious : Bool) :
    InvAt c (casIndex c s θ b r x spurious) before after := by
  have hblock : (s.consumer θ).block = some b := by rw [hc]; rfl
  unfold MultiConsumerQueue.casIndex
  split
  swap
  · exact h.withIndex hblock
  rename_i hcas
  obtain ⟨hm, hle, hr⟩ := h.readIndex_eq hblock
  obtain ⟨hch, hd, hcons, hf⟩ := h
  have hk := hcons.knows θ
  rw [hc] at hk
  obtain ⟨hlt, hv, hx⟩ := hk
  have hpos : s.popped.length = (s.block b).base + r := by
    have := hcas.1
    omega
  let t := ({ s with popped := s.popped ++ [x] }.modify b fun q =>
    { q with readIndex := r + 1 }).consumeAt θ (.popped b x)
  have hother : ∀ y ≠ b, t.block y = s.block y := fun y hy => by simp [t, hy]
  have hself : t.block b = { s.block b with readIndex := r + 1 } := by simp [t]
  have hbase : ∀ y, (t.block y).base = (s.block y).base := fun y => by
    rcases eq_or_ne y b with rfl | hy
    · rw [hself]
    · rw [hother y hy]
  have hlen : t.popped.length = s.popped.length + 1 := by simp [t]
  have hne : ∀ y ∈ after, y ≠ b := fun y hy he => by
    have hnd := hch.nodup
    have : before ++ s.wpos :: after = before ++ [s.wpos] ++ after := by simp
    rw [this] at hnd
    exact (List.nodup_append.mp hnd).2.2 b hm y hy he.symm
  have hfullcell : ∀ y, (s.block y).Full c s.pushed → (t.block y).Full c s.pushed := fun y hy => by
    rcases eq_or_ne y b with rfl | hyb
    · rw [hself]
      exact ⟨hy.1, hy.2, hy.3, hy.4⟩
    · rwa [hother y hyb]
  have hspaced : ∀ y ∈ before ++ [s.wpos], y ≠ b →
      (s.block y).base + c.size ≤ (s.block b).base ∨
        (s.block b).base + c.size ≤ (s.block y).base := by
    obtain ⟨l₁, l₂, hl⟩ := List.append_of_mem hm
    have hsp := hd.spaced
    rw [hl] at hsp ⊢
    intro y hy hyb
    obtain ⟨-, hsp₂, hsp₃⟩ := List.pairwise_append.mp hsp
    rcases List.mem_append.mp hy with hy | hy
    · exact .inl (hsp₃ y hy b (by simp))
    · exact .inr ((List.pairwise_cons.mp hsp₂).1 y ((List.mem_cons.mp hy).resolve_left hyb))
  refine ⟨hch.congr (fun y => ?_) (fun y => ?_) rfl rfl rfl rfl rfl, ?_, ?_, hf⟩
  · rcases eq_or_ne y b with rfl | hy
    · rw [hself]
    · rw [hother y hy]
  · rcases eq_or_ne y b with rfl | hy
    · rw [hself]
    · rw [hother y hy]
  · refine (⟨?_, ?_, fun y hy => hfullcell y (hd.full y hy), ?_, fun y hy => ?_, ?_, ?_, ?_, ?_⟩ :
      Data c t before after)
    · rw [hlen]
      show _ ≤ s.visible
      omega
    · show s.popped ++ [x] = s.pushed.take t.popped.length
      have hget := List.getElem?_eq_some_iff.mp hx
      rw [hlen, List.take_add_one, hpos, hx, ← hpos, ← hd.popped_eq]
      rfl
    · show Writing c (t.block s.wpos) s.pushed s.visible s.pendingCount s.producer
      rcases eq_or_ne s.wpos b with he | hy
      · rw [he, hself]
        have hw := he ▸ hd.writing
        exact ⟨hw.1, hw.2, hw.3, hw.4, hw.5, hw.6, hw.7, hw.8, hw.9⟩
      · rw [hother _ hy]
        exact hd.writing
    · rw [hother y (hne y hy)]
      exact hd.fresh y hy
    · show (before ++ [s.wpos]).Pairwise fun y z => (t.block y).base + c.size ≤ (t.block z).base
      simpa only [hbase] using hd.spaced
    · refine hd.dense.imp_of_mem_imp fun y z hy hz hyz => ?_
      rw [hbase, hbase, hlen]
      omega
    · intro y hy
      have := hd.reached y hy
      rw [hbase, hlen]
      omega
    · intro y hy
      have hr' := hd.read y hy
      rw [hbase, hlen]
      rcases eq_or_ne y b with rfl | hyb
      · rw [hself]
        simp only
        omega
      · rw [hother y hyb, hr']
        have := hspaced y hy hyb
        omega
  · refine ⟨fun θ' y hy => ?_, fun θ' => ?_, fun y hy => ?_⟩
    · have hy' : (s.consumer θ').block = some y := by
        rw [← hy]
        show _ = (t.consumer θ').block
        rw [State.consumeAt_consumer]
        split
        · rename_i he
          rw [he, hc]
          rfl
        · rfl
      obtain ⟨hm', hle'⟩ := hcons.attached θ' y hy'
      show _ ∧ (t.block y).base ≤ t.popped.length
      rw [hbase, hlen]
      exact ⟨hm', Nat.le_succ_of_le hle'⟩
    · show (t.consumer θ').Knows c t
      rw [State.consumeAt_consumer]
      split
      · trivial
      show (s.consumer θ').Knows c t
      have hk := hcons.knows θ'
      cases hc' : s.consumer θ' with
      | loadCell y r' =>
        rw [hc'] at hk
        refine ⟨hk.1, ?_⟩
        rcases eq_or_ne y b with rfl | hyb
        · rw [hself]
          exact Nat.le_trans hk.2 (by simp only; omega)
        · rw [hother y hyb]
          exact hk.2
      | casIndex y r' x' =>
        rw [hc'] at hk
        refine ⟨hk.1, ?_⟩
        rw [hbase]
        exact hk.2
      | exhausted y =>
        rw [hc'] at hk
        have hk' : (s.block y).readIndex = c.size := hk
        have hyb : y ≠ b := fun he => by
          rw [he] at hk'
          omega
        show (t.block y).readIndex = c.size
        rw [hother y hyb]
        exact hk
      | _ => trivial
    · have hcount : (t.block y).consumerCount = (s.block y).consumerCount := by
        rcases eq_or_ne y b with rfl | hyb
        · rw [hself]
        · rw [hother y hyb]
      show Census _ (t.block y).consumerCount
      rw [hcount]
      refine (hcons.counted y hy).congr fun θ' => ?_
      show (t.consumer θ').block = some y ↔ _
      rw [State.consumeAt_consumer]
      split
      · rename_i he
        rw [he, hc]
        rfl
      · rfl

/-- The recycling of a block does not depend on the consumers. -/
theorem collect_consumeAt (c : Config α) (s : State α Θ) (b : ℕ) (θ : Θ) (p : Consumer α) :
    collect c (s.consumeAt θ p) b = (collect c s b).consumeAt θ p := by
  unfold collect
  by_cases hw : b = s.wpos
  · simp [hw]
  by_cases hc : (s.block b).consumerCount ≠ 0
  · simp [hw, hc]
  by_cases hr : (s.block b).readIndex < c.size
  · simp [hw, hc, hr]
  simp only [State.consumeAt_block, State.consumeAt_wpos, hw, hc, hr, if_false]
  rcases (s.block b).next with _ | n
  · rfl
  · simp only [unlink, State.consumeAt_block]
    rcases (s.block b).prev with _ | p <;> rfl

omit [DecidableEq Θ] in
/-- A block before that of the producer has a next one, whose items come later. -/
theorem InvAt.next_block (h : InvAt c s before after) {b : ℕ} (hb : b ∈ before) :
    ∃ n, (s.block b).next = some n ∧ n ≠ b ∧ n ∈ before ++ [s.wpos] ∧
      (s.block b).base + c.size ≤ (s.block n).base ∧
      (s.block n).base ≤ max s.popped.length ((s.block b).base + c.size) := by
  obtain ⟨l₁, l₂, rfl⟩ := List.append_of_mem hb
  obtain ⟨n, l₃, hl₃⟩ : ∃ n l₃, l₂ ++ [s.wpos] = n :: l₃ := by cases l₂ <;> simp
  have hused : l₁ ++ b :: l₂ ++ [s.wpos] = l₁ ++ b :: n :: l₃ := by simp [hl₃]
  have hlist : l₁ ++ b :: l₂ ++ s.wpos :: after = l₁ ++ b :: n :: (l₃ ++ after) := by
    have : l₁ ++ b :: l₂ ++ s.wpos :: after = l₁ ++ b :: (l₂ ++ [s.wpos] ++ after) := by simp
    rw [this, hl₃]
    rfl
  refine ⟨n, ?_, ?_, by rw [hused]; simp, ?_, ?_⟩
  · have := h.chain.linked
    rw [hlist] at this
    simpa using this.mid.2
  · have := h.chain.nodup
    rw [hlist] at this
    exact fun he => (List.nodup_cons.mp (List.nodup_append.mp this).2.1).1 (by simp [he])
  · have hspaced := h.data.spaced
    rw [hused] at hspaced
    exact (List.pairwise_cons.mp (List.pairwise_append.mp hspaced).2.1).1 n List.mem_cons_self
  · have hdense := h.data.dense
    rw [hused] at hdense
    obtain ⟨-, hdense₂, -⟩ := List.isChain_append.mp hdense
    exact (List.isChain_cons_cons.mp hdense₂).1

/-- A consumer goes on to the next block, or finds none. -/
theorem InvAt.leave (h : InvAt c s before after) {θ : Θ} {b : ℕ}
    (hc : s.consumer θ = .exhausted b) :
    ∃ before' after', InvAt c (leave c s θ b) before' after' := by
  have hblock : (s.consumer θ).block = some b := by rw [hc]; rfl
  unfold MultiConsumerQueue.leave
  split
  · exact ⟨before, after, h.consumeAt (by rw [hc]; rfl) trivial⟩
  rename_i hw
  obtain ⟨hm, hle, hr⟩ := h.readIndex_eq hblock
  have hread : (s.block b).readIndex = c.size := by
    have := h.consumers.knows θ
    rwa [hc] at this
  have hb : b ∈ before := (List.mem_append.mp hm).resolve_right fun hm => hw (by simpa using hm)
  obtain ⟨n, hnext, hnb, hn, -, hdense⟩ := h.next_block hb
  have hbase : (s.block n).base ≤ s.popped.length := by
    have := c.size_pos
    omega
  simp only [hnext]
  have hrel := h.release hblock
  obtain ⟨before', after', h', hkept⟩ := hrel.collect (b := b) hm
  rw [collect_consumeAt] at h' hkept
  have hrec := recycles_collect c
    (s.modify b fun q => { q with consumerCount := q.consumerCount - 1 }) b
  obtain ⟨hm', hs⟩ := hkept n hn hnb
  have := h'.acquire (θ := θ) (b := n) (p := .loadIndex n) ?_ ?_ ?_ (.inr rfl)
  · refine ⟨before', after', ?_⟩
    simpa [State.consumeAt, State.modify] using this
  · rw [State.consumeAt_wpos, hrec.wpos]
    exact hm'
  · rw [hs.base, State.consumeAt_popped, hrec.popped]
    simpa [hnb] using hbase
  · simp [Consumer.block]

/-- The next step of a consumer keeps the invariant. -/
theorem InvAt.consume_next (h : InvAt c s before after) {θ : Θ} {spurious : Bool}
    (hs : consume c s θ spurious = some s') : Inv c s' := by
  unfold consume at hs
  cases hc : s.consumer θ with
  | detached | idle _ | done _ _ => simp [hc] at hs
  | attach =>
    simp only [hc, Option.some.injEq] at hs
    subst hs
    refine ⟨before, after, h.acquire ?_ ?_ (by rw [hc]; rfl) (.inl rfl)⟩
    · exact List.mem_of_head? h.chain.head_eq
    · exact h.data.reached _ h.chain.head_eq
  | loadIndex b =>
    simp only [hc, Option.some.injEq] at hs
    exact hs ▸ ⟨before, after, h.withIndex (by rw [hc]; rfl)⟩
  | loadCell b r =>
    simp only [hc, Option.some.injEq] at hs
    exact hs ▸ ⟨before, after, h.loadCell hc⟩
  | casIndex b r x =>
    simp only [hc, Option.some.injEq] at hs
    exact hs ▸ ⟨before, after, h.casIndex hc spurious⟩
  | exhausted b =>
    simp only [hc, Option.some.injEq] at hs
    exact hs ▸ h.leave hc
  | popped b x =>
    simp only [hc, Option.some.injEq] at hs
    exact hs ▸ ⟨before, after, h.consumeAt (by rw [hc]; rfl) trivial⟩
  | detach b =>
    simp only [hc, Option.some.injEq] at hs
    subst hs
    have hblock : (s.consumer θ).block = some b := by rw [hc]; rfl
    obtain ⟨before', after', h', -⟩ := (h.release hblock).collect (b := b)
      (h.readIndex_eq hblock).1
    rw [collect_consumeAt] at h'
    exact ⟨before', after', h'⟩

omit [DecidableEq Θ] in
theorem Inv.new (c : Config α) : Inv c (.new c : State α Θ) := by
  have hfresh := SubQueue.new_fresh c 0
  refine ⟨[], [], ⟨⟨?_, ?_, ?_, rfl, rfl, rfl⟩, ?_, ⟨?_, ?_, ?_⟩, rfl⟩⟩
  · exact (DoublyLinked.seg_singleton _ _ _).mpr ⟨rfl, rfl⟩
  · exact List.nodup_singleton _
  · intro b hb
    obtain rfl := List.mem_singleton.mp hb
    exact Nat.zero_lt_one
  · refine ⟨Nat.le_refl _, rfl, by simp, ?_, by simp, by simp, by simp, ?_, ?_⟩
    · refine ⟨Nat.zero_le _, Nat.le_refl _, Nat.le_refl _, fun i hi => ?_, ⟨hfresh.cell_eq,
        hfresh.written_eq⟩, fun i hi hi' => ?_, ⟨[], rfl, rfl⟩, ⟨rfl, rfl⟩, rfl⟩
      · exact absurd hi (Nat.not_lt_zero _)
      · exact absurd hi' (Nat.not_lt_zero _)
    · intro b hb
      obtain rfl : 0 = b := Option.some.inj hb
      exact Nat.le_refl _
    · intro b hb
      obtain rfl := List.mem_singleton.mp hb
      exact (Nat.min_zero _).symm
  · intro θ b hb
    cases hb
  · intro θ
    trivial
  · intro b hb
    obtain rfl := List.mem_singleton.mp hb
    exact .zero fun θ hθ => nomatch hθ

/-- Every step keeps the invariant. -/
theorem Inv.step {a : Action α Θ} (h : Inv c s) (hs : MultiConsumerQueue.step c s a = some s') :
    Inv c s' := by
  obtain ⟨before, after, h⟩ := h
  cases a with
  | call op =>
    simp only [MultiConsumerQueue.step] at hs
    split at hs
    · rename_i hp
      cases hs
      exact ⟨before, after, h.call hp op⟩
    · cases hs
  | produce =>
    have hs' : MultiConsumerQueue.produce c s = some s' := hs
    by_cases hk : ∃ k, s.producer = .nextWpos k
    · obtain ⟨k, hk⟩ := hk
      obtain ⟨after', h'⟩ := h.nextWpos hk
      simp only [MultiConsumerQueue.produce, hk, Option.some.injEq] at hs'
      exact hs' ▸ ⟨_, after', h'⟩
    by_cases hn : ∃ n, s.producer = .reserve n
    · obtain ⟨n, hn⟩ := hn
      obtain ⟨after', h'⟩ := h.reserve hn
      simp only [MultiConsumerQueue.produce, hn, Option.some.injEq] at hs'
      exact hs' ▸ ⟨_, after', h'⟩
    exact ⟨before, after, h.produce_next hs' (fun k he => hk ⟨k, he⟩) fun n he => hn ⟨n, he⟩⟩
  | ret =>
    simp only [MultiConsumerQueue.step] at hs
    split at hs
    · rename_i hp
      cases hs
      have hw := h.data.writing
      rw [hp] at hw
      exact ⟨before, after, h.produceAt (by rw [hp]; rfl) hw.front hw.phase⟩
    · cases hs
  | attach θ =>
    simp only [MultiConsumerQueue.step] at hs
    split at hs
    · rename_i hc
      cases hs
      exact ⟨before, after, h.consumeAt (by rw [hc]; rfl) trivial⟩
    · cases hs
  | pop θ =>
    simp only [MultiConsumerQueue.step] at hs
    split at hs
    · rename_i hc
      cases hs
      exact ⟨before, after, h.consumeAt (by rw [hc]; rfl) trivial⟩
    · cases hs
  | detach θ =>
    simp only [MultiConsumerQueue.step] at hs
    split at hs
    · rename_i hc
      cases hs
      exact ⟨before, after, h.consumeAt (by rw [hc]; rfl) trivial⟩
    · cases hs
  | consume θ spurious => exact h.consume_next hs
  | popRet θ =>
    simp only [MultiConsumerQueue.step] at hs
    split at hs
    · rename_i hc
      cases hs
      exact ⟨before, after, h.consumeAt (by rw [hc]; rfl) trivial⟩
    · cases hs

/-- The invariant holds in every reachable state. -/
theorem inv (h : (machine c Θ).Reachable s) : Inv c s := by
  refine Machine.invariant (fun t ht => ?_) (fun t a t' h hs => ?_) h
  · obtain rfl : t = .new c := ht
    exact Inv.new c
  · exact Inv.step h hs

end MultiConsumerQueue

end Serverbox
