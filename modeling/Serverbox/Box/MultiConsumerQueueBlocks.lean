import Serverbox.Box.MultiConsumerQueueProduce

/-!
# The blocks of the multi-consumer queue

The operations on the list of the blocks keep the invariant of the queue: a new block is appended,
the producer goes on to the next block, and a block which is read up and left by its last
consumer is recycled.

## Main results

* `MultiConsumerQueue.InvAt.appendBlock`, `MultiConsumerQueue.InvAt.reserve`: new blocks.
* `MultiConsumerQueue.InvAt.nextWpos`: `PrivNextWpos`.
* `MultiConsumerQueue.collect_spec`: `PrivGarbageCollectLocked`.
-/

namespace Serverbox

namespace MultiConsumerQueue

open DoublyLinked

variable {α Θ : Type*} {c : Config α} {s s' : State α Θ} {before after : List ℕ}

theorem SubQueue.new_fresh (c : Config α) (b : ℕ) : (SubQueue.new c b).Fresh := by
  constructor <;> simp [SubQueue.new, SubQueue.reset, SubQueue.store]

theorem SubQueue.Fresh.of_reset {q : SubQueue α} (h : q.firstPending = none) : q.reset.Fresh := by
  constructor <;> simp [SubQueue.reset, SubQueue.store, h]

theorem Consumer.Knows.congr {p : Consumer α} (h : p.Knows c s)
    (hs : ∀ b, p.block = some b → (s.block b).Same (s'.block b)) (hv : s'.visible = s.visible)
    (hp : s'.pushed = s.pushed) : p.Knows c s' := by
  cases p with
  | loadCell b r => exact ⟨h.1, (hs b rfl).readIndex ▸ h.2⟩
  | casIndex b r x =>
    have hbase := (hs b rfl).base
    exact ⟨h.1, by rw [hbase, hv]; exact h.2.1, by rw [hbase, hp]; exact h.2.2⟩
  | exhausted b => exact (hs b rfl).readIndex.trans h
  | _ => trivial

/-- The consumers keep their blocks while the list of the blocks changes around them. -/
theorem Consumers.congr {before' after' : List ℕ} (h : Consumers c s before after)
    (hc : s'.consumer = s.consumer) (hv : s'.visible = s.visible) (hp : s'.pushed = s.pushed)
    (hpop : s'.popped = s.popped)
    (hs : ∀ b ∈ before ++ [s.wpos], (s.block b).Same (s'.block b))
    (hused : ∀ b ∈ before ++ [s.wpos], b ∈ before' ++ [s'.wpos])
    (hcount : ∀ b ∈ before' ++ s'.wpos :: after',
      Census (fun θ => (s.consumer θ).block = some b) (s'.block b).consumerCount) :
    Consumers c s' before' after' := by
  refine ⟨fun θ b hb => ?_, fun θ => ?_, fun b hb => ?_⟩
  · obtain ⟨hm, hle⟩ := h.attached θ b (hc ▸ hb)
    rw [(hs b hm).base, hpop]
    exact ⟨hused b hm, hle⟩
  · rw [hc]
    exact (h.knows θ).congr (fun b hb => hs b (h.attached θ b hb).1) hv hp
  · rw [hc]
    exact hcount b hb

/-- A new block is appended. -/
theorem InvAt.appendBlock (h : InvAt c s before after) :
    InvAt c (appendBlock c s) before (after ++ [s.allocated]) := by
  obtain ⟨hch, hd, hcons, hf⟩ := h
  have hb : ∀ b ∈ before ++ s.wpos :: after, b ≠ s.allocated := fun b hb =>
    Nat.ne_of_lt (hch.allocated b hb)
  obtain ⟨l, hl⟩ := List.getLast?_eq_some_iff.mp hch.tail_eq
  have hlist : before ++ s.wpos :: after = (before ++ l) ++ [s.tail] := by simp [hl]
  have ht : s.tail ≠ s.allocated := hb s.tail (by simp [hlist])
  have hnd := hch.nodup
  rw [hlist] at hnd
  have hlt : ∀ b ∈ before ++ l, b ≠ s.tail := fun b hb =>
    (List.nodup_append.mp hnd).2.2 b hb s.tail (by simp)
  have hold : ∀ b ∈ before ++ s.wpos :: (after ++ [s.allocated]), b ≠ s.allocated →
      b ∈ before ++ s.wpos :: after := fun b hmem hne => by
    rw [← List.cons_append, ← List.append_assoc, List.mem_append, List.mem_singleton] at hmem
    exact hmem.resolve_right hne
  let t := MultiConsumerQueue.appendBlock c s
  have hnew : (t.block s.allocated) = { SubQueue.new c s.allocated with prev := some s.tail } := by
    simp [t, MultiConsumerQueue.appendBlock, ht.symm]
  have htail : (t.block s.tail) = { s.block s.tail with next := some s.allocated } := by
    simp [t, MultiConsumerQueue.appendBlock, ht]
  have hother : ∀ b, b ≠ s.tail → b ≠ s.allocated → t.block b = s.block b := fun b h₁ h₂ => by
    simp [t, MultiConsumerQueue.appendBlock, h₁, h₂]
  have hsame : ∀ b ∈ before ++ s.wpos :: after, (s.block b).Same (t.block b) := fun b hmem => by
    rcases eq_or_ne b s.tail with rfl | hne
    · rw [htail]
      exact ⟨rfl, rfl, rfl, rfl, rfl, rfl, rfl⟩
    · rw [hother b hne (hb b hmem)]
      exact .refl _
  have hcount : ∀ b ∈ before ++ s.wpos :: after,
      (t.block b).consumerCount = (s.block b).consumerCount := fun b hmem => by
    rcases eq_or_ne b s.tail with rfl | hne
    · rw [htail]
    · rw [hother b hne (hb b hmem)]
  refine ⟨⟨?_, ?_, ?_, hch.head_eq, ?_, ?_⟩, ?_, hcons.congr rfl rfl rfl rfl
    (fun b hm => hsame b (mem_chain_of_mem_used hm)) (fun b hm => hm) fun b hmem => ?_, hf⟩
  · have hlinked := hch.linked
    rw [hlist] at hlinked
    have : Seg (fun b => (t.block b).next) (fun b => (t.block b).prev) none
        (before ++ l ++ [s.tail] ++ [s.allocated]) none := by
      refine hlinked.append ?_ (by simp only [htail]) (fun b hm => ?_) (fun b hm => ?_)
      · simp [hnew, SubQueue.new, SubQueue.reset, SubQueue.store]
      · rw [hother b (hlt b hm) (hb b (by rw [hlist]; exact List.mem_append_left _ hm))]
      · rcases eq_or_ne b s.tail with rfl | hne
        · rw [htail]
        · rw [hother b hne (hb b (by rw [hlist]; exact hm))]
    rw [← hlist, List.append_assoc, List.cons_append] at this
    exact this
  · have : (before ++ s.wpos :: after ++ [s.allocated]).Nodup :=
      List.nodup_append.mpr ⟨hch.nodup, by simp, fun a ha b hb' => by
        rw [List.mem_singleton.mp hb']
        exact hb a ha⟩
    rw [List.append_assoc, List.cons_append] at this
    exact this
  · intro b hmem
    rcases eq_or_ne b s.allocated with rfl | hne
    · exact Nat.lt_succ_self _
    · exact Nat.lt_succ_of_lt (hch.allocated b (hold b hmem hne))
  · exact List.getLast?_concat (l := s.wpos :: after)
  · simp [MultiConsumerQueue.appendBlock, hch.subQueueCount_eq]
    omega
  · have hd' : Data c t before after := hd.congr rfl hsame rfl rfl rfl rfl rfl
    refine { hd' with fresh := fun b hmem => ?_ }
    rcases List.mem_append.mp hmem with hm | hm
    · exact hd'.fresh b hm
    · rw [List.mem_singleton.mp hm]
      refine (SubQueue.new_fresh c s.allocated).congr ?_
      show SubQueue.Same _ (t.block s.allocated)
      rw [hnew]
      exact ⟨rfl, rfl, rfl, rfl, rfl, rfl, rfl⟩
  · rcases eq_or_ne b s.allocated with rfl | hne
    · have hzero : (t.block s.allocated).consumerCount = 0 := by
        simp [hnew, SubQueue.new, SubQueue.reset, SubQueue.store]
      show Census _ (t.block s.allocated).consumerCount
      rw [hzero]
      refine .zero fun θ hθ => ?_
      exact Nat.lt_irrefl _ (hch.allocated _ (mem_chain_of_mem_used (hcons.attached θ _ hθ).1))
    · have hmem' := hold b hmem hne
      show Census _ (t.block b).consumerCount
      rw [hcount b hmem']
      exact hcons.counted b hmem'

/-- New blocks are appended. -/
theorem InvAt.appendBlocks (h : InvAt c s before after) (n : ℕ) :
    ∃ after', InvAt c (appendBlocks c n s) before after' := by
  induction n generalizing s after with
  | zero => exact ⟨after, h⟩
  | succ n ih => exact ih h.appendBlock

/-- The operation of the producer which appends blocks leaves everything else alone. -/
theorem appendBlocks_frame (c : Config α) (n : ℕ) (s : State α Θ) :
    (appendBlocks c n s).producer = s.producer ∧
      (appendBlocks c n s).pendingCount = s.pendingCount ∧
      (appendBlocks c n s).count = s.count ∧ (appendBlocks c n s).consumer = s.consumer := by
  induction n generalizing s with
  | zero => exact ⟨rfl, rfl, rfl, rfl⟩
  | succ n ih => exact ih (appendBlock c s)

theorem InvAt.reserve (h : InvAt c s before after) {n : ℕ} (hp : s.producer = .reserve n) :
    ∃ after', InvAt c ((reserve c s n).produceAt (.done false)) before after' := by
  obtain ⟨after', h'⟩ := h.appendBlocks (n / c.size + (if n % c.size ≠ 0 then 1 else 0) -
    s.subQueueCount)
  obtain ⟨hprod, hpend, -⟩ := appendBlocks_frame c (n / c.size + (if n % c.size ≠ 0 then 1 else 0) -
    s.subQueueCount) s
  have hw := h'.data.writing
  rw [hprod, hp] at hw
  refine ⟨after', h'.produceAt ?_ hw.front hw.phase⟩
  rw [hprod, hp]
  rfl

/-- The producer goes on to the next block. -/
theorem InvAt.moveTo {b : ℕ} {rest : List ℕ} (h : InvAt c s before (b :: rest)) {k : Cont α}
    (hp : s.producer = .nextWpos k) :
    InvAt c (({ s with wpos := b }.modify b fun q =>
      { q with base := (s.block s.wpos).base + c.size }).produceAt k.again)
      (before ++ [s.wpos]) rest := by
  obtain ⟨hch, hd, hcons, hf⟩ := h
  have hw := hd.writing
  rw [hp] at hw
  obtain ⟨hpend, hv, hfull⟩ := hw.phase
  obtain ⟨hnd₁, hnd₂, hdisj⟩ := List.nodup_append.mp hch.nodup
  have hne : ∀ x ∈ before ++ [s.wpos], x ≠ b := fun x hx => by
    rcases List.mem_append.mp hx with hx | hx
    · exact hdisj x hx b (by simp)
    · rw [List.mem_singleton.mp hx]
      exact fun he => (List.nodup_cons.mp hnd₂).1 (by simp [he])
  have hlist : (before ++ [s.wpos]) ++ b :: rest = before ++ s.wpos :: b :: rest := by simp
  have hchain : Chain { s with wpos := b } (before ++ [s.wpos]) rest := by
    refine ⟨?_, ?_, ?_, ?_, ?_, ?_⟩
    · exact hlist ▸ hch.linked
    · exact hlist ▸ hch.nodup
    · exact hlist ▸ hch.allocated
    · simpa using hch.head_eq
    · simpa using hch.tail_eq
    · exact hlist ▸ hch.subQueueCount_eq
  have hfresh := hd.fresh b (by simp)
  have hsaved : Saved (s.block s.wpos) s.pushed s.visible := hw.front
  have hle := hd.popped_le
  let t := ({ s with wpos := b }.modify b fun q =>
    { q with base := (s.block s.wpos).base + c.size }).produceAt k.again
  have hother : ∀ x ≠ b, t.block x = s.block x := fun x hx => by simp [t, State.produceAt, hx]
  have hnew : t.block b = { s.block b with base := (s.block s.wpos).base + c.size } := by
    simp [t, State.produceAt]
  have hwritten : Writing c (t.block b) s.pushed s.visible s.pendingCount k.again := by
    obtain ⟨h₁, h₂, h₃, h₄, h₅, h₆⟩ := hfresh
    obtain ⟨l, hl, hlen⟩ := hw.stored
    rw [hnew]
    refine ⟨?_, ?_, ?_, fun i hi => ?_, ?_, fun i hi hi' => ?_, ⟨l, ?_, ?_⟩, ?_, ?_⟩
    · simp [h₃]
    · simp only
      omega
    · simp only
      omega
    · simp only at hi
      omega
    · have : s.visible - ((s.block s.wpos).base + c.size) = 0 := by omega
      simp only [this]
      exact ⟨h₅, h₆⟩
    · simp only [h₃] at hi'
      omega
    · rw [hl]
      cases k <;> rfl
    · simp only
      omega
    · have hsv : Saved { s.block b with base := (s.block s.wpos).base + c.size } s.pushed
          s.visible := by
        refine ⟨?_, ?_⟩
        · simp only
          omega
        · simp only [h₄]
          rw [if_neg (by omega)]
      cases k <;> exact hsv
    · cases k <;> simp only [Phase, Cont.again] <;> omega
  refine ⟨hchain.congr (fun x => ?_) (fun x => ?_) rfl rfl rfl rfl rfl, ?_, ?_, hf⟩
  · rcases eq_or_ne x b with rfl | hx
    · show (t.block x).next = (s.block x).next
      rw [hnew]
    · exact congrArg SubQueue.next (hother x hx)
  · rcases eq_or_ne x b with rfl | hx
    · show (t.block x).prev = (s.block x).prev
      rw [hnew]
    · exact congrArg SubQueue.prev (hother x hx)
  · have hused : ∀ x ∈ before ++ [s.wpos], t.block x = s.block x := fun x hx =>
      hother x (hne x hx)
    have hbase : (t.block b).base = (s.block s.wpos).base + c.size := by rw [hnew]
    refine ⟨hle, hd.popped_eq, fun x hx => ?_, hwritten, fun x hx => ?_, ?_, ?_, ?_, ?_⟩
    · show SubQueue.Full c (t.block x) s.pushed
      rw [hused x hx]
      rcases List.mem_append.mp hx with hx' | hx'
      · exact hd.full x hx'
      · rw [List.mem_singleton.mp hx']
        refine ⟨?_, hfull, ?_, fun i hi => hw.cells i (by omega)⟩
        · have := hsaved.1
          omega
        · rw [hsaved.2, if_neg (by omega)]
    · show (t.block x).Fresh
      have hx' : x ≠ b := fun he => by
        have := (List.nodup_cons.mp (List.nodup_cons.mp hnd₂).2).1
        exact this (he ▸ hx)
      rw [hother x hx']
      exact hd.fresh x (by simp [hx])
    · show ((before ++ [s.wpos]) ++ [b]).Pairwise fun x y =>
        (t.block x).base + c.size ≤ (t.block y).base
      refine List.pairwise_append.mpr ⟨?_, by simp, fun x hx y hy => ?_⟩
      · refine hd.spaced.imp_of_mem fun hx hy hxy => ?_
        rwa [hused _ hx, hused _ hy]
      · rw [List.mem_singleton.mp hy, hused x hx, hbase]
        rcases List.mem_append.mp hx with hx' | hx'
        · have := (List.pairwise_append.mp hd.spaced).2.2 x hx' s.wpos (by simp)
          omega
        · rw [List.mem_singleton.mp hx']
    · show ((before ++ [s.wpos]) ++ [b]).IsChain fun x y =>
        (t.block y).base ≤ max s.popped.length ((t.block x).base + c.size)
      refine List.isChain_append.mpr ⟨?_, by simp, fun x hx y hy => ?_⟩
      · refine hd.dense.imp_of_mem_imp fun x y hx hy hxy => ?_
        rwa [hused x hx, hused y hy]
      · have hx' : x = s.wpos := by simpa [eq_comm] using hx
        have hy' : y = b := by simpa [eq_comm] using hy
        rw [hx', hy', hbase, hused s.wpos (by simp)]
        exact Nat.le_max_right _ _
    · show ∀ x ∈ ((before ++ [s.wpos]) ++ [b]).head?, (t.block x).base ≤ s.popped.length
      intro x hx
      have hx' : x ∈ (before ++ [s.wpos]).head? := by simpa using hx
      rw [hused x (List.mem_of_mem_head? hx')]
      exact hd.reached x hx'
    · show ∀ x ∈ (before ++ [s.wpos]) ++ [b],
        (t.block x).readIndex = min c.size (s.popped.length - (t.block x).base)
      intro x hx
      rcases List.mem_append.mp hx with hx' | hx'
      · rw [hused x hx']
        exact hd.read x hx'
      · rw [List.mem_singleton.mp hx', hbase, hnew]
        have := hfresh.readIndex_eq
        simp only
        omega
  · have hcount : ∀ x, (t.block x).consumerCount = (s.block x).consumerCount := fun x => by
      rcases eq_or_ne x b with rfl | hx
      · rw [hnew]
      · rw [hother x hx]
    refine hcons.congr rfl rfl rfl rfl (fun x hx => ?_) (fun x hx => List.mem_append_left _ hx)
      fun x hx => ?_
    · show SubQueue.Same (s.block x) (t.block x)
      rw [hother x (hne x hx)]
      exact .refl _
    · show Census _ (t.block x).consumerCount
      rw [hcount]
      exact hcons.counted x (hlist ▸ hx)

/-- `PrivNextWpos` keeps the invariant: its assertions hold. -/
theorem InvAt.nextWpos (h : InvAt c s before after) {k : Cont α}
    (hp : s.producer = .nextWpos k) :
    ∃ after', InvAt c ((nextWpos c s).produceAt k.again) (before ++ [s.wpos]) after' := by
  have hw := h.data.writing
  rw [hp] at hw
  obtain ⟨hpend, hv, hfull⟩ := hw.phase
  have hsaved : Saved (s.block s.wpos) s.pushed s.visible := hw.front
  have hok : (s.pendingCount == 0 && (s.block s.wpos).flushIndex == c.size) = true := by
    have := hsaved.1
    simp only [hpend, beq_self_eq_true, Bool.true_and, beq_iff_eq]
    omega
  have hassert : s.assert true = s := by simp [State.assert]
  obtain ⟨-, hnext⟩ := h.chain.linked.mid
  cases after with
  | nil =>
    have hnone : (s.block s.wpos).next = none := by simpa using hnext
    simp only [MultiConsumerQueue.nextWpos, hok, hassert, hnone]
    have hne : s.wpos ≠ s.allocated := Nat.ne_of_lt (h.chain.allocated s.wpos (by simp))
    have hbase : ((MultiConsumerQueue.appendBlock c s).block s.wpos).base =
        (s.block s.wpos).base := by
      simp only [MultiConsumerQueue.appendBlock, State.modify_block, hne, if_false]
      split <;> simp_all
    have := h.appendBlock.moveTo (k := k) hp
    rw [show (MultiConsumerQueue.appendBlock c s).wpos = s.wpos from rfl, hbase] at this
    exact ⟨[], this⟩
  | cons b rest =>
    have hsome : (s.block s.wpos).next = some b := by simpa using hnext
    simp only [MultiConsumerQueue.nextWpos, hok, hassert, hsome]
    exact ⟨rest, h.moveTo hp⟩

/-- What recycling a block does not change, apart from the list of the blocks. -/
structure Recycles (s s' : State α Θ) : Prop where
  wpos : s'.wpos = s.wpos
  count : s'.count = s.count
  pendingCount : s'.pendingCount = s.pendingCount
  producer : s'.producer = s.producer
  consumer : s'.consumer = s.consumer
  pushed : s'.pushed = s.pushed
  visible : s'.visible = s.visible
  popped : s'.popped = s.popped

theorem Recycles.refl (s : State α Θ) : Recycles s s := ⟨rfl, rfl, rfl, rfl, rfl, rfl, rfl, rfl⟩

theorem recycles_unlink (s : State α Θ) (b n : ℕ) : Recycles s (unlink s b n) := by
  unfold unlink
  rcases (s.block b).prev with _ | p <;> exact ⟨rfl, rfl, rfl, rfl, rfl, rfl, rfl, rfl⟩

theorem recycles_collect (c : Config α) (s : State α Θ) (b : ℕ) : Recycles s (collect c s b) := by
  unfold collect
  by_cases hw : b = s.wpos
  · simpa only [if_pos hw] using .refl s
  by_cases hc : (s.block b).consumerCount ≠ 0
  · simpa only [if_neg hw, if_pos hc] using .refl s
  by_cases hr : (s.block b).readIndex < c.size
  · simpa only [if_neg hw, if_neg hc, if_pos hr] using .refl s
  simp only [if_neg hw, if_neg hc, if_neg hr]
  rcases (s.block b).next with _ | n
  · exact ⟨rfl, rfl, rfl, rfl, rfl, rfl, rfl, rfl⟩
  · obtain ⟨h₁, h₂, h₃, h₄, h₅, h₆, h₇, h₈⟩ := recycles_unlink s b n
    exact ⟨h₁, h₂, h₃, h₄, h₅, h₆, h₇, h₈⟩

/-- The links around a block which is unlinked. -/
theorem unlink_eq {b n : ℕ} (hnb : n ≠ b) (hpb : (s.block b).prev ≠ some b)
    (hpn : (s.block b).prev ≠ some n) (hhead : (s.block b).prev = none → b = s.head) :
    unlink s b n = { s with
      block := fun x =>
        if x = b then { s.block b with next := none, prev := none }
        else { s.block x with
          next := if some x = (s.block b).prev then some n else (s.block x).next
          prev := if x = n then (s.block b).prev else (s.block x).prev }
      head := if (s.block b).prev = none then n else s.head } := by
  unfold unlink
  rcases hp : (s.block b).prev with _ | p
  · simp only [State.modify, State.assert, hhead hp, beq_self_eq_true, Bool.not_true, Bool.or_false,
      if_true]
    congr 1
    funext x
    rw [← hhead hp]
    rcases eq_or_ne x b with rfl | hxb
    · simp [hnb.symm]
    · rcases eq_or_ne x n with rfl | hxn <;> simp [*]
  · have h₁ : p ≠ b := fun he => hpb (he ▸ hp)
    have h₂ : p ≠ n := fun he => hpn (he ▸ hp)
    simp only [State.modify]
    congr 1
    funext x
    rcases eq_or_ne x b with rfl | hxb
    · simp [hnb.symm, h₁.symm]
    · rcases eq_or_ne x n with rfl | hxn
      · simp [hxb, h₂.symm]
      · rcases eq_or_ne x p with rfl | hxp <;> simp [*]

/-- The blocks after a block was recycled; the assertions hold. -/
theorem collect_eq {b n : ℕ} (hw : b ≠ s.wpos) (hcount : (s.block b).consumerCount = 0)
    (hread : (s.block b).readIndex = c.size) (hfull : (s.block b).Full c s.pushed)
    (hn : (s.block b).next = some n) (hnb : n ≠ b) (htb : s.tail ≠ b)
    (hpb : (s.block b).prev ≠ some b) (hpn : (s.block b).prev ≠ some n)
    (hpt : (s.block b).prev ≠ some s.tail) (hhead : (s.block b).prev = none → b = s.head) :
    collect c s b = { s with
      block := fun x =>
        if x = b then { (s.block b).reset with next := none, prev := some s.tail }
        else { s.block x with
          next := if x = s.tail then some b
            else if some x = (s.block b).prev then some n else (s.block x).next
          prev := if x = n then (s.block b).prev else (s.block x).prev }
      head := if (s.block b).prev = none then n else s.head
      tail := b } := by
  unfold collect
  simp only [if_neg hw, hcount, hread, lt_self_iff_false, if_false, ne_eq, not_true_eq_false, hn]
  rw [unlink_eq hnb hpb hpn hhead]
  have hok : ∀ q : SubQueue α, q = { s.block b with next := none, prev := none } →
      q.resettable c = true := by
    rintro q rfl
    obtain ⟨h₁, h₂, h₃, -⟩ := hfull
    simp [SubQueue.resettable, hcount, hread, h₁, h₂, h₃]
  rw [hok _ (by simp)]
  simp only [State.modify, State.assert, Bool.not_true, Bool.or_false]
  congr 1
  funext x
  rcases eq_or_ne x b with rfl | hxb
  · simp [SubQueue.reset, SubQueue.store, htb.symm]
  · rcases eq_or_ne x s.tail with rfl | hxt <;> simp [*]

/-- The next read position is behind a block which is read up, so nothing is missed when the
block before it is followed by the block after it. -/
theorem Data.dropBlock {b : ℕ} {l₁ l₂ after' : List ℕ} (h : Data c s (l₁ ++ b :: l₂) after)
    (hread : (s.block b).readIndex = c.size) (hw : s'.wpos = s.wpos)
    (hd : ∀ x ∈ l₁ ++ l₂ ++ [s.wpos], (s.block x).Same (s'.block x))
    (hfresh : ∀ x ∈ after', (s'.block x).Fresh) (hpush : s'.pushed = s.pushed)
    (hv : s'.visible = s.visible) (hpop : s'.popped = s.popped)
    (hprod : s'.producer = s.producer) (hpend : s'.pendingCount = s.pendingCount) :
    Data c s' (l₁ ++ l₂) after' := by
  have hlist : l₁ ++ b :: l₂ ++ [s.wpos] = l₁ ++ b :: (l₂ ++ [s.wpos]) := by simp
  have hsub : (l₁ ++ l₂ ++ [s.wpos]).Sublist (l₁ ++ b :: l₂ ++ [s.wpos]) := by
    rw [hlist, List.append_assoc]
    exact List.Sublist.append_left (List.sublist_cons_self _ _) _
  have hle : (s.block b).base + c.size ≤ s.popped.length := by
    have hr := h.read b (by simp)
    rw [hread] at hr
    have := c.size_pos
    omega
  obtain ⟨d, l₃, hd₃⟩ : ∃ d l₃, l₂ ++ [s.wpos] = d :: l₃ := by cases l₂ <;> simp
  have hdense := h.dense
  rw [hlist, hd₃] at hdense
  obtain ⟨hdense₁, hdense₂, hlink⟩ := List.isChain_append.mp hdense
  obtain ⟨hbd, hdense₃⟩ := List.isChain_cons_cons.mp hdense₂
  have hdle : (s.block d).base ≤ s.popped.length := by omega
  constructor
  · rw [hpop, hv]
    exact h.popped_le
  · rw [hpop, hpush]
    exact h.popped_eq
  · intro x hx
    rw [hpush]
    refine (h.full x ?_).congr (hd x (List.mem_append_left _ hx))
    rcases List.mem_append.mp hx with hx' | hx' <;> simp [hx']
  · rw [hw, hpush, hv, hpend, hprod]
    exact h.writing.congr (hd s.wpos (by simp))
  · exact hfresh
  · rw [hw]
    refine (h.spaced.sublist hsub).imp_of_mem fun hx hy hxy => ?_
    rwa [(hd _ hx).base, (hd _ hy).base]
  · rw [hw, hpop]
    have : (l₁ ++ l₂ ++ [s.wpos]).IsChain fun x y =>
        (s.block y).base ≤ max s.popped.length ((s.block x).base + c.size) := by
      rw [List.append_assoc, hd₃]
      refine List.isChain_append.mpr ⟨hdense₁, hdense₃, fun x _ y hy => ?_⟩
      have hy' : d = y := by simpa using hy
      rw [← hy']
      exact Nat.le_trans hdle (Nat.le_max_left _ _)
    refine this.imp_of_mem_imp fun x y hx hy hxy => ?_
    rwa [(hd x hx).base, (hd y hy).base]
  · rw [hw, hpop]
    intro x hx
    rw [(hd x (List.mem_of_mem_head? hx)).base]
    rw [List.append_assoc, hd₃] at hx
    rcases l₁ with _ | ⟨a, l₁⟩
    · have hx' : d = x := by simpa using hx
      rw [← hx']
      exact hdle
    · have hx' : a = x := by simpa using hx
      exact h.reached x (by simp [hx'])
  · rw [hw, hpop]
    intro x hx
    rw [(hd x hx).base, (hd x hx).readIndex]
    exact h.read x (hsub.subset hx)

/-- The list of the blocks before and after the recycling of a block. -/
structure Collected (c : Config α) (s s' : State α Θ) (b : ℕ)
    (before after before' after' : List ℕ) : Prop where
  chain : Chain s' before' after'
  data : Data c s' before' after'
  failed : s'.failed = s.failed
  consumerCount : ∀ x, (s'.block x).consumerCount = (s.block x).consumerCount
  kept : ∀ x ∈ before ++ [s.wpos], x ≠ b ∨ (s.block b).consumerCount ≠ 0 →
    x ∈ before' ++ [s.wpos] ∧ (s.block x).Same (s'.block x)
  mem : ∀ x ∈ before' ++ s.wpos :: after', x ∈ before ++ s.wpos :: after

theorem Collected.refl {b : ℕ} (hch : Chain s before after) (hd : Data c s before after) :
    Collected c s s b before after before after :=
  ⟨hch, hd, rfl, fun _ => rfl, fun _ hx _ => ⟨hx, .refl _⟩, fun _ hx => hx⟩

/-- `PrivGarbageCollectLocked`: the block is left alone, or moved to the end of the list. -/
theorem collect_spec (hch : Chain s before after) (hd : Data c s before after) {b : ℕ}
    (hb : b ∈ before ++ [s.wpos]) :
    ∃ before' after', Collected c s (collect c s b) b before after before' after' := by
  by_cases hw : b = s.wpos
  · exact ⟨before, after, by simpa only [collect, if_pos hw] using .refl hch hd⟩
  by_cases hc : (s.block b).consumerCount ≠ 0
  · exact ⟨before, after, by simpa only [collect, if_neg hw, if_pos hc] using .refl hch hd⟩
  by_cases hr : (s.block b).readIndex < c.size
  · exact ⟨before, after, by
      simpa only [collect, if_neg hw, if_neg hc, if_pos hr] using .refl hch hd⟩
  have hb' : b ∈ before := (List.mem_append.mp hb).resolve_right fun hm => hw (by simpa using hm)
  have hread : (s.block b).readIndex = c.size := by
    have := hd.read b hb
    omega
  obtain ⟨l₁, l₂, rfl⟩ := List.append_of_mem hb'
  obtain ⟨l, hl⟩ := List.getLast?_eq_some_iff.mp hch.tail_eq
  obtain ⟨d, l₃, hd₃⟩ : ∃ d l₃, l₂ ++ s.wpos :: after = d :: l₃ := by cases l₂ <;> simp
  have hlist : l₁ ++ b :: l₂ ++ s.wpos :: after = l₁ ++ b :: d :: l₃ := by simp [hd₃]
  have hlast : l₁ ++ d :: l₃ = l₁ ++ l₂ ++ l ++ [s.tail] := by
    rw [← hd₃, hl]
    simp
  have hlinked := hch.linked
  have hnd := hch.nodup
  rw [hlist] at hlinked hnd
  have hnd' : (l₁ ++ d :: l₃).Nodup :=
    hnd.sublist (List.Sublist.append_left (List.sublist_cons_self _ _) _)
  have hne : ∀ x ∈ l₁ ++ d :: l₃, x ≠ b := by
    have : (b :: (l₁ ++ d :: l₃)).Nodup := (List.perm_middle.nodup_iff).mp hnd
    exact fun x hx he => (List.nodup_cons.mp this).1 (he ▸ hx)
  obtain ⟨hprev, hnext⟩ := hlinked.mid
  rw [Option.or_none] at hprev
  have hmem₁ : ∀ x, (s.block b).prev = some x → x ∈ l₁ := fun x hx =>
    List.mem_of_getLast? (hprev.symm.trans hx)
  have hdisj : ∀ x ∈ l₁, ∀ y ∈ d :: l₃, x ≠ y := (List.nodup_append.mp hnd').2.2
  have htail : s.tail ∈ d :: l₃ := by
    rw [← hd₃, hl]
    simp
  have hhead : (s.block b).prev = none → b = s.head ∧ l₁ = [] := fun hp => by
    have hnil : l₁ = [] := List.getLast?_eq_none_iff.mp (hprev.symm.trans hp)
    have := hch.head_eq
    subst hnil
    exact ⟨by simpa using this, rfl⟩
  have heq := collect_eq (c := c) (s := s) (b := b) (n := d) hw (not_not.mp hc) hread
    (hd.full b hb') (by simpa using hnext) (hne d (by simp))
    (hne s.tail (List.mem_append_right _ htail))
    (fun hp => hne b (List.mem_append_left _ (hmem₁ b hp)) rfl)
    (fun hp => hdisj d (hmem₁ d hp) d (by simp) rfl)
    (fun hp => hdisj s.tail (hmem₁ s.tail hp) s.tail htail rfl) (fun hp => (hhead hp).1)
  obtain ⟨t, ht⟩ : ∃ t, t = collect c s b := ⟨_, rfl⟩
  rw [← ht] at heq ⊢
  have hblock : ∀ x ≠ b, t.block x = { s.block x with
      next := if x = s.tail then some b
        else if some x = (s.block b).prev then some d else (s.block x).next
      prev := if x = d then (s.block b).prev else (s.block x).prev } := fun x hx => by
    rw [heq]
    exact if_neg hx
  have hself : t.block b = { (s.block b).reset with next := none, prev := some s.tail } := by
    rw [heq]
    exact if_pos rfl
  have hsame : ∀ x ≠ b, (s.block x).Same (t.block x) := fun x hx => by
    rw [hblock x hx]
    exact ⟨rfl, rfl, rfl, rfl, rfl, rfl, rfl⟩
  have hwpos : t.wpos = s.wpos := by rw [heq]
  have hfinal : l₁ ++ l₂ ++ s.wpos :: (after ++ [b]) = l₁ ++ d :: l₃ ++ [b] := by
    rw [← hd₃]
    simp
  refine ⟨l₁ ++ l₂, after ++ [b], ⟨?_, ?_, ?_, ?_, ?_, ?_⟩, ?_, ?_, fun x => ?_, fun x hx hor => ?_,
    fun x hx => ?_⟩
  · rw [hwpos, hfinal, hlast]
    have hunlinked : Seg (fun x => if some x = l₁.getLast? then some d else (s.block x).next)
        (fun x => if x = d then l₁.getLast? else (s.block x).prev) none (l₁ ++ d :: l₃) none :=
      hlinked.unlink hnd (fun x _ => rfl) fun x _ => by simp
    rw [hlast] at hunlinked hne hnd'
    refine hunlinked.append ?_ ?_ (fun x hx => ?_) (fun x hx => ?_)
    · rw [DoublyLinked.seg_singleton, hself]
      exact ⟨rfl, rfl⟩
    · rw [hblock s.tail (hne s.tail (by simp))]
      exact if_pos rfl
    · have hxt : x ≠ s.tail := (List.nodup_append.mp hnd').2.2 x hx s.tail (by simp)
      rw [hblock x (hne x (List.mem_append_left _ hx))]
      simp only [if_neg hxt, hprev]
    · rw [hblock x (hne x hx)]
      simp only [hprev]
  · rw [hwpos, hfinal]
    exact List.nodup_append.mpr ⟨hnd', by simp, fun x hx y hy => by
      rw [List.mem_singleton.mp hy]
      exact hne x hx⟩
  · rw [hwpos, hfinal]
    intro x hx
    have hx' : x ∈ l₁ ++ b :: d :: l₃ := by
      simp only [List.mem_append, List.mem_cons, List.not_mem_nil, or_false] at hx ⊢
      tauto
    rw [heq]
    exact hch.allocated x (hlist ▸ hx')
  · rw [heq]
    have hh := hch.head_eq
    rcases l₁ with _ | ⟨a, l₁⟩
    · have hp : (s.block b).prev = none := hprev
      have hd' : (l₂ ++ [s.wpos]).head? = some d := by
        have := congrArg List.head? hd₃
        rw [List.head?_append] at this ⊢
        simpa using this
      simpa [hp] using hd'
    · have hp : (s.block b).prev ≠ none := by simp [hprev]
      simpa [hp] using hh
  · rw [hwpos, heq]
    exact List.getLast?_concat (l := s.wpos :: after)
  · rw [heq]
    have := hch.subQueueCount_eq
    simp only [List.length_append, List.length_cons, List.length_nil] at this ⊢
    omega
  · refine hd.dropBlock hread hwpos (fun x hx => hsame x (hne x ?_)) (fun x hx => ?_) ?_ ?_ ?_ ?_ ?_
    · rw [← hd₃]
      simp only [List.mem_append, List.mem_cons, List.not_mem_nil, or_false] at hx ⊢
      tauto
    · rcases List.mem_append.mp hx with hx | hx
      · refine (hd.fresh x hx).congr (hsame x (hne x ?_))
        rw [← hd₃]
        simp [hx]
      · rw [List.mem_singleton.mp hx, hself]
        exact (SubQueue.Fresh.of_reset (hd.full b hb').firstPending_eq).congr
          ⟨rfl, rfl, rfl, rfl, rfl, rfl, rfl⟩
    all_goals rw [heq]
  · rw [heq]
  · rcases eq_or_ne x b with rfl | hx
    · rw [hself]
      rfl
    · rw [hblock x hx]
  · have hxb : x ≠ b := hor.resolve_right fun hne => hc hne
    refine ⟨?_, hsame x hxb⟩
    simp only [List.mem_append, List.mem_cons, List.not_mem_nil, or_false] at hx ⊢
    tauto
  · simp only [List.mem_append, List.mem_cons, List.not_mem_nil, or_false] at hx ⊢
    tauto

end MultiConsumerQueue

end Serverbox
