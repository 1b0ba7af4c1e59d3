import Serverbox.Aio.IOCoreEpollDelivery

/-!
# The epoll core gets empty

`WaitEmpty` waits until the count of descriptors is zero. When all the tasks are to be closed and no
task is posted any more, each of them is executed for the last time and leaves the core, the workers
end the final executions, and the count comes to zero and stays there.

Source: `src/mg/aio/IOCore.cpp`.

## Main definitions

* `IOCoreEpoll.Closing`: a core to which no task is posted any more.

## Main results

* `IOCoreEpoll.count_comes_to_zero`: the count of descriptors comes to zero.
-/

namespace Serverbox

namespace IOCoreEpoll

variable {T Θ : Type*} [DecidableEq T] {c : Config} {s s' : State T Θ} {t : T} {θ : Θ}

namespace Life

variable {l l' : Life}

/-- A task which is in no place stays there, or is attached. -/
theorem Step.outside (h : Step l l') (hc : Core l) (hp : l.place = .outside) :
    l'.place = .outside ∨ l'.place = .attached := by
  have hw : l.core.status ≠ .waiting := fun hs => by
    have hasleep := hc.asleep_iff.mpr hs
    rw [hp] at hasleep
    cases hasleep
  cases h with
  | attach | reuse => exact .inr rfl
  | wakeupAsleep hs | closeAsleep _ hs | rouse _ _ hs | expire hs => exact absurd hs hw
  | postStart h | post h | rePost h | takeFront h | sleep h | dispatch _ h | closeDo _ h
  | pushReady h | execute h | ended h =>
    rw [hp] at h
    cases h
  | final => exact .inl rfl
  | _ => exact .inl hp

/-- The final execution takes the task out of all the places. -/
theorem Step.no_final (h : Step l l') (hp : l'.place ≠ .outside) : ∃ calls,
    l'.task.log = l.task.log ++ calls ∧ ∀ args, .onEvent true args ∉ calls := by
  cases h with
  | attach | reuse => exact ⟨[.post], rfl, by simp⟩
  | closeDo => exact ⟨[.closeDo], rfl, by simp⟩
  | execute => exact ⟨_, rfl, by simp⟩
  | final => exact absurd rfl hp
  | _ => exact ⟨[], (List.append_nil _).symm, by simp⟩

end Life

/-- A core to which no task is posted any more. -/
structure Closing [DecidableEq Θ] (c : Config) (f : ℕ → State T Θ) (i : ℕ) : Prop where
  fair : FairRun c f
  batch : 1 < c.schedBatchSize
  attached : ∀ k ≥ i, (f k).core.attached = []

namespace Closing

variable [DecidableEq Θ] {f : ℕ → State T Θ} {i : ℕ}

/-- A task which has left the core does not come back. -/
theorem gone (h : Closing c f i) {k : ℕ} (hk : i ≤ k) (ht : t ∉ (f k).core.lives) {m : ℕ}
    (hm : k ≤ m) : t ∉ (f m).core.lives := by
  have hout : ∀ n ≥ i, t ∉ (f n).core.lives → place (f n).core t = .outside := fun n hn hlives => by
    by_contra hne
    have hmem := (mem_lives_iff (h.fair.inv n).core).mpr hne
    rw [h.attached n hn, List.nil_append] at hmem
    exact hlives hmem
  induction hm with
  | refl => exact ht
  | @step m hm ih =>
    have hplace := hout m (hk.trans hm) ih
    have hnext : place (f (m + 1)).core t = .outside := by
      rcases h.fair.life_step m t with he | hstep
      · exact (congrArg Life.place he).trans hplace
      · refine (hstep.outside (life_core (h.fair.inv m).core t) hplace).resolve_right fun ha => ?_
        have hmem : t ∈ (f (m + 1)).core.attached := mem_of_place (p := .attached) ha (by decide)
        rw [h.attached (m + 1) (hk.trans (Nat.le_succ_of_le hm))] at hmem
        cases hmem
    intro hmem
    exact (mem_lives_iff (h.fair.inv (m + 1)).core).mp (List.mem_append_right _ hmem) hnext

/-- A task which is to be closed leaves the core. -/
theorem leaves [Nonempty Θ] (h : Closing c f i)
    (hs : ((f i).core.task t).status = .closing ∨ ((f i).core.task t).status = .closed) :
    ∃ k ≥ i, t ∉ (f k).core.lives := by
  by_contra hno
  have hlives : ∀ k ≥ i, t ∈ (f k).core.lives := fun k hk => by_contra fun hn => hno ⟨k, hk, hn⟩
  have hnone : ∀ k ≥ i, ∃ calls, ((f k).task t).log = ((f i).task t).log ++ calls ∧
      ∀ args, .onEvent true args ∉ calls := fun k hk => by
    induction hk with
    | refl => exact ⟨[], (List.append_nil _).symm, by simp⟩
    | @step k hk ih =>
      obtain ⟨calls, hlog, hcalls⟩ := ih
      rcases h.fair.life_step k t with he | hstep
      · exact ⟨calls, log_congr he hlog, hcalls⟩
      · have hout := (mem_lives_iff (h.fair.inv (k + 1)).core).mp
          (List.mem_append_right _ (hlives (k + 1) (Nat.le_succ_of_le hk)))
        obtain ⟨calls', hlog', hcalls'⟩ := hstep.no_final hout
        refine ⟨calls ++ calls', log_append hlog hlog', fun args hmem => ?_⟩
        exact (List.mem_append.mp hmem).elim (hcalls args) (hcalls' args)
  have hfinal : ∃ k ≥ i, ∃ calls args, ((f k).task t).log = ((f i).task t).log ++ calls ∧
      Call.onEvent true args ∈ calls := by
    rcases hs with hs | hs
    · obtain ⟨j, hj, hst, hready, -⟩ :=
        h.fair.closes h.batch ((h.fair.inv i).counted (hlives i (Nat.le_refl i))) hs
      obtain ⟨calls, hgrown, -⟩ := h.fair.later (Nat.le_succ_of_le hj) t
      obtain ⟨k, hk, calls', hlog⟩ := h.fair.final_served h.batch (by rw [hready]; rfl) hst
      refine ⟨k, (Nat.le_succ_of_le hj).trans hk, calls ++ Call.onEvent true ∅ :: calls', ∅, ?_,
        by simp⟩
      rw [hlog, show ((f (j + 1)).task t).log = _ from hgrown, List.append_assoc]
      rfl
    · have hout := (mem_lives_iff (h.fair.inv i).core).mp
        (List.mem_append_right _ (hlives i (Nat.le_refl i)))
      obtain ⟨k, hk, calls, hlog⟩ := h.fair.final_served h.batch
        ((((h.fair.inv i).ok t).closed hs).2.resolve_left hout) hs
      exact ⟨k, hk, _, ∅, hlog, by simp⟩
  obtain ⟨k, hk, calls, args, hlog, hmem⟩ := hfinal
  obtain ⟨calls', hlog', hcalls⟩ := hnone k hk
  rw [List.append_cancel_left (hlog.symm.trans hlog')] at hmem
  exact hcalls args hmem

/-- At last no task is left, but for the final executions. -/
theorem empties [Nonempty Θ] (h : Closing c f i) (hs : ∀ t ∈ (f i).core.lives,
      ((f i).core.task t).status = .closing ∨ ((f i).core.task t).status = .closed) :
    ∃ k ≥ i, ∀ m ≥ k, (f m).core.lives = [] := by
  have hall : ∀ l : List T, (∀ t ∈ l, t ∈ (f i).core.lives) →
      ∃ k ≥ i, ∀ t ∈ l, t ∉ (f k).core.lives := fun l hl => by
    induction l with
    | nil => exact ⟨i, Nat.le_refl i, by simp⟩
    | cons t l ih =>
      obtain ⟨k, hk, hgone⟩ := ih fun u hu => hl u (List.mem_cons_of_mem t hu)
      obtain ⟨j, hj, hleft⟩ := h.leaves (hs t (hl t List.mem_cons_self))
      refine ⟨max j k, hj.trans (Nat.le_max_left ..), fun u hu => ?_⟩
      rcases List.mem_cons.mp hu with rfl | hu
      · exact h.gone hj hleft (Nat.le_max_left ..)
      · exact h.gone hk (hgone u hu) (Nat.le_max_right ..)
  obtain ⟨k, hk, hgone⟩ := hall _ fun t ht => ht
  refine ⟨k, hk, fun m hm => List.eq_nil_iff_forall_not_mem.mpr fun t ht => ?_⟩
  by_cases hold : t ∈ (f i).core.lives
  · exact h.gone hk (hgone t hold) hm ht
  · exact h.gone (Nat.le_refl i) hold (hk.trans hm) ht

/-- Without posts the count does not grow. -/
theorem count_step (h : Closing c f i) {k : ℕ} (hk : i ≤ k) :
    (f (k + 1)).core.descriptorCount ≤ (f k).core.descriptorCount := by
  rcases h.fair.run k with he | ⟨a, ha⟩
  · rw [he]
  · rcases step_core ha with hcore | ⟨b, hb⟩
    · rw [hcore]
    · have hcount := IOCoreCount.step_count (h.fair.inv k).core hb
      have hpost : b.posts = false := Bool.eq_false_iff.mpr fun hp => by
        cases b with
        | postStart t =>
          obtain ⟨ht, -⟩ := Option.ite_none_right_eq_some.mp hb
          rw [h.attached k hk] at ht
          cases ht
        | _ => cases hp
      rw [hpost, Bool.toNat_false, Nat.add_zero] at hcount
      omega

end Closing

/-- **The core gets empty**: when no task is posted any more and all the tasks are to be closed, the
count of descriptors comes to zero, in every run in which no thread stops for ever. -/
theorem count_comes_to_zero [DecidableEq Θ] [Nonempty Θ] {f : ℕ → State T Θ} {i : ℕ}
    (h : FairRun c f) (hb : 1 < c.schedBatchSize) (hattached : ∀ k ≥ i, (f k).core.attached = [])
    (hs : ∀ t ∈ (f i).core.lives,
      ((f i).core.task t).status = .closing ∨ ((f i).core.task t).status = .closed) :
    ∃ k ≥ i, ∀ m ≥ k, (f m).core.descriptorCount = 0 := by
  have hclosing : Closing c f i := ⟨h, hb, hattached⟩
  obtain ⟨j, hj, hempty⟩ := hclosing.empties hs
  have hcount : ∀ k ≥ j, (f k).core.descriptorCount = (f k).core.final.length := fun k hk => by
    rw [(h.inv k).core.count, hempty k hk]
    exact Nat.zero_add _
  have hmono : ∀ k ≥ j, (f (k + 1)).core.descriptorCount ≤ (f k).core.descriptorCount :=
    fun k hk => hclosing.count_step (hj.trans hk)
  obtain ⟨k, hk, hzero⟩ : ∃ k ≥ j, (f k).core.descriptorCount = 0 := by
    by_contra hno
    refine not_drops (i := j) (r := fun k => (f k).core.descriptorCount) hmono fun k hk => ?_
    -- A worker ends a final execution.
    have hne : (f k).core.final ≠ [] := fun hnil => hno ⟨k, hk, by rw [hcount k hk, hnil]; rfl⟩
    obtain ⟨t, ht⟩ := List.exists_mem_of_ne_nil _ hne
    obtain ⟨l, -, hmem, hlen⟩ := (h.inv k).role.final t
    obtain ⟨θ, hθ⟩ := List.exists_mem_of_length_pos (hlen ▸ List.count_pos_iff.mpr ht)
    have hfinal := of_decide_eq_true ((hmem θ).mp hθ)
    cases hw : (f k).worker θ with
    | onFinal batch u =>
      rw [hw] at hfinal
      obtain rfl := Option.some.inj hfinal
      obtain ⟨m, hm, hsame, w, -, hnext⟩ := h.next_of_active hw rfl
      refine ⟨m, hm, ?_⟩
      cases hnext with
      | closed _ _ herase =>
        have hin := (h.inv m).mem_final (θ := θ) (t := u) (by rw [hsame]; rfl)
        have hpos := List.length_pos_of_mem hin
        rw [hcount m (hk.trans hm), hcount (m + 1) (Nat.le_succ_of_le (hk.trans hm)), herase,
          List.length_erase_of_mem hin]
        omega
    | _ =>
      rw [hw] at hfinal
      cases hfinal
  refine ⟨k, hj.trans hk, fun m hm => ?_⟩
  induction hm with
  | refl => exact hzero
  | @step m hm ih => exact Nat.le_zero.mp ((hmono m (hk.trans hm)).trans ih.le)

theorem count_comes_to_zero_shut : ∃ (f : ℕ → State ℕ Bool) (i : ℕ), FairRun sample f ∧
    (f i).core.lives = [1] ∧ ((f i).core.task 1).status = .closing ∧
    (∀ k ≥ i, (f k).core.attached = []) ∧
    ∃ k ≥ i, ∀ m ≥ k, (f m).core.descriptorCount = 0 := by
  obtain ⟨s, hs, hfair, -⟩ := still_fair shut (by decide +kernel)
  have hnone : ∀ k ≤ shut.length, blocked.length + 2 ≤ k →
      ((machine sample).run (.new 0) (shut.take k)).any
        (fun u => decide (u.core.attached = [])) = true := by
    decide +kernel
  have hattached : ∀ k ≥ blocked.length + 2,
      (still sample (.new 0) shut k).core.attached = [] := fun k hk => by
    rcases le_total k shut.length with hle | hle
    · exact still_of_run (P := fun u => u.core.attached = []) hs hle (hnone k hle hk)
    · have hlast := still_of_run (P := fun u => u.core.attached = []) hs le_rfl
        (hnone _ le_rfl (by decide))
      rw [still_last hs le_rfl] at hlast
      rw [still_last hs hle]
      exact hlast
  obtain ⟨hlives, hst⟩ := still_of_run (P := fun u => u.core.lives = [1] ∧
    (u.core.task 1).status = .closing) (i := blocked.length + 2) hs (by decide)
    (by decide +kernel)
  refine ⟨_, _, hfair, hlives, hst, hattached,
    count_comes_to_zero hfair (by decide) hattached fun t ht => ?_⟩
  rw [hlives] at ht
  exact .inl (List.mem_singleton.mp ht ▸ hst)

end IOCoreEpoll

end Serverbox
