import Serverbox.Sch.TaskSchedulerGuarantees

/-!
# No wakeup and no signal is lost

A task which was woken up or signaled is somewhere on its way to a worker; one which sleeps is in
no list, and in the waiting heap exactly when its deadline is finite, but for the moments in which
the scheduler moves it into the heap or out of it.

## Main definitions

* `TaskScheduler.Resting`: the sleeping tasks with a deadline are in the heap.
* `TaskScheduler.Rests`: what a step does to the sleeping tasks.

## Main results

* `TaskScheduler.wakeups_kept`: the places of the tasks of each status, and what a step does to
  a task which is ready or signaled.
* `TaskScheduler.ready_in_hand`: a ready task may be in a local list of the scheduler.
-/

namespace Serverbox

namespace TaskScheduler

variable {T Θ : Type*} [DecidableEq T] [DecidableEq Θ] {c : Config T Θ} {s s' : State T Θ} {θ : Θ}

/-- The task which the scheduler is moving into the heap or out of it. -/
def Work.moving : Work T → Option T
  | waitingPush _ t | waitingCas _ t => some t
  | _ => none

/-- A worker changes the tasks or the heap in its next step. -/
def Work.handles : Work T → Bool
  | waitingTop _ | waitingCas _ _ | pendingPop _ | pendingSleep _ _ | waitingPush _ _
  | pendingReady _ _ | execute _ _ | executeCas _ _ | executeStart _ _ => true
  | _ => false

section Steps

omit [DecidableEq T]

/-- A step which touches neither the tasks nor the heap. -/
structure Apart (s s' : State T Θ) (θ : Θ) : Prop where
  task : s'.task = s.task
  waiting : s'.waiting = s.waiting
  moving : (s'.work θ).moving = none

theorem Apart.workAt {t : State T Θ} {w : Work T} (ht : t.task = s.task)
    (hw : t.waiting = s.waiting) (hm : w.moving = none) : Apart s (t.workAt θ w) θ where
  task := ht
  waiting := hw
  moving := by rw [State.workAt_self, hm]

theorem Apart.workUnlock {t : State T Θ} (ht : t.task = s.task) (hw : t.waiting = s.waiting)
    (hs : workUnlock t θ = some s') : Apart s s' θ := by
  obtain ⟨m, -, rfl⟩ := Option.map_eq_some_iff.mp hs
  exact .workAt ht hw rfl

theorem Apart.callTrySchedule {t : State T Θ} (ht : t.task = s.task) (hw : t.waiting = s.waiting)
    (hs : callTrySchedule t θ = some s') : Apart s s' θ := by
  obtain ⟨m, -, rfl⟩ := Option.map_eq_some_iff.mp hs
  exact .workAt ht hw rfl

theorem Apart.produce {k : Work T} (hm : (s.work θ).moving = none) (hk : k.moving = none)
    (hs : produce c s θ k = some s') : Apart s s' θ := by
  unfold TaskScheduler.produce at hs
  split at hs
  · obtain ⟨t, ht, rfl⟩ := Option.map_eq_some_iff.mp hs
    obtain ⟨q, -, rfl⟩ := Option.map_eq_some_iff.mp ht
    exact .workAt rfl rfl hk
  · obtain ⟨q, -, rfl⟩ := Option.map_eq_some_iff.mp hs
    exact ⟨rfl, rfl, hm⟩

variable [DecidableEq T]

/-- The other steps of a worker leave the tasks and the heap as they are. -/
theorem work_apart {spurious : Bool} (hs : work c s θ spurious = some s')
    (hw : (s.work θ).handles = false) : Apart s s' θ := by
  unfold work at hs
  cases hwork : s.work θ with
  | outside => simp [hwork] at hs
  | waitingTop _ | waitingCas _ _ | pendingPop _ | pendingSleep _ _ | waitingPush _ _
  | pendingReady _ _ | execute _ _ | executeCas _ _ | executeStart _ _ =>
    rw [hwork] at hw
    cases hw
  | attach | attaching | pop _ =>
    simp only [hwork] at hs
    obtain ⟨t, ht, rfl⟩ := Option.map_eq_some_iff.mp hs
    obtain ⟨q, -, rfl⟩ := Option.map_eq_some_iff.mp ht
    exact .workAt rfl rfl rfl
  | start =>
    simp only [hwork] at hs
    exact .callTrySchedule (t := { s with running := Function.update s.running θ true }) rfl rfl hs
  | trySchedule | unlock =>
    simp only [hwork, trySchedule, workUnlocking] at hs
    obtain ⟨m, -, rfl⟩ := Option.map_eq_some_iff.mp hs
    refine .workAt rfl rfl ?_
    split <;> rfl
  | readTime | sleepTimed _ | storeIdle | readyPublish | frontPop r =>
    simp only [hwork, Option.some.injEq] at hs
    exact hs ▸ .workAt rfl rfl rfl
  | readyProbe =>
    simp only [hwork, Option.some.injEq] at hs
    subst hs
    refine .workAt rfl rfl ?_
    split <;> rfl
  | transfer l =>
    simp only [hwork] at hs
    cases l <;> obtain ⟨t, ht, rfl⟩ := Option.map_eq_some_iff.mp hs <;>
      obtain ⟨q, -, rfl⟩ := Option.map_eq_some_iff.mp ht <;> exact .workAt rfl rfl rfl
  | transferring _ | flushing =>
    simp only [hwork] at hs
    exact .produce (by rw [hwork]; rfl) rfl hs
  | checkReady =>
    simp only [hwork] at hs
    split at hs
    · cases hs
      exact .workAt rfl rfl rfl
    · exact .workUnlock rfl rfl hs
  | checkWaiting =>
    simp only [hwork, checkWaiting] at hs
    split at hs
    · cases hs
      exact .workAt rfl rfl rfl
    · split at hs
      · cases hs
        exact .workAt rfl rfl rfl
      · exact .workUnlock rfl rfl hs
  | sleepingTimed _ | sleeping =>
    simp only [hwork, receiveFront, Option.ite_none_right_eq_some] at hs
    exact .workUnlock (t := { s with frontSignal := .empty }) rfl rfl hs.2
  | popping batch =>
    simp only [hwork, popping] at hs
    split at hs
    · obtain ⟨t, ht, rfl⟩ := Option.map_eq_some_iff.mp hs
      obtain ⟨q, -, rfl⟩ := Option.map_eq_some_iff.mp ht
      refine .workAt rfl rfl ?_
      split <;> rfl
    · obtain ⟨t, ht, rfl⟩ := Option.map_eq_some_iff.mp hs
      obtain ⟨q, -, rfl⟩ := Option.map_eq_some_iff.mp ht
      have hmoving : (s.work θ).moving = none := by rw [hwork]; rfl
      split <;> exact ⟨rfl, rfl, hmoving⟩
  | callback batch t =>
    simp only [hwork, executed] at hs
    split at hs
    · cases hs
      exact .workAt rfl rfl rfl
    · exact .callTrySchedule rfl rfl hs
  | waitReady =>
    simp only [hwork, Option.ite_none_right_eq_some, Option.some.injEq] at hs
    obtain ⟨-, rfl⟩ := hs
    exact .workAt rfl rfl rfl

/-- The call of an operation moves no worker. -/
theorem callOp_work {o : Op T} (hs : callOp s θ o = some s') : s'.work = s.work := by
  cases o with
  | post t | receiveSignal t | setDeadline t d =>
    simp only [callOp, Option.ite_none_right_eq_some, Option.some.injEq] at hs
    obtain ⟨-, rfl⟩ := hs
    rfl
  | postWakeup t | postSignal t =>
    cases hs
    rfl
  | isEmpty =>
    obtain ⟨m, -, rfl⟩ := Option.map_eq_some_iff.mp hs
    rfl

omit [DecidableEq T] [DecidableEq Θ] in
/-- Nobody but the scheduler puts a task to sleep or changes the heap. -/
theorem Life.Step.asleep {l l' : Life Θ} (h : Life.Step false l l') :
    (l'.status = .waiting → l.status = .waiting) ∧ l'.inHeap = l.inHeap := by
  cases h with
  | executeCas θ hp | receive hp =>
    refine ⟨fun hs => ?_, rfl⟩
    dsimp only at hs
    split at hs
    · cases hs
    · exact hs
  | _ => exact ⟨fun hs => by simp_all, rfl⟩

end Steps

section Rests

/-- What a step of the thread `θ` does to the sleeping tasks and to the heap. -/
structure Rests (s s' : State T Θ) (θ : Θ) : Prop where
  asleep : ∀ t, (s'.task t).status = .waiting → (s.task t).status = .waiting ∨
    (s'.task t).deadline = infinite ∨ ∃ r, s'.work θ = .waitingPush r t
  heap : ∀ t ∈ s.waiting.data, (s'.task t).status = .waiting →
    t ∈ s'.waiting.data ∨ ∃ r, s'.work θ = .waitingCas r t
  left : ∀ t, (s.work θ).moving = some t → (s'.task t).status = .waiting → t ∈ s'.waiting.data
  finite : ∀ r t, s'.work θ = .waitingCas r t → (s'.task t).deadline ≠ infinite

omit [DecidableEq T] [DecidableEq Θ] in
/-- Nobody falls asleep, and nobody who sleeps leaves the heap. -/
theorem Rests.of_kept (hst : ∀ t, (s'.task t).status = .waiting → (s.task t).status = .waiting)
    (hheap : ∀ t ∈ s.waiting.data, (s'.task t).status = .waiting → t ∈ s'.waiting.data)
    (hm : (s.work θ).moving = none) (hm' : (s'.work θ).moving = none) : Rests s s' θ where
  asleep t ht := .inl (hst t ht)
  heap t ht hw := .inl (hheap t ht hw)
  left t ht := by
    rw [hm] at ht
    cases ht
  finite r t ht := by
    rw [ht] at hm'
    cases hm'

omit [DecidableEq T] [DecidableEq Θ] in
theorem Apart.rests (h : Apart s s' θ) (hm : (s.work θ).moving = none) : Rests s s' θ :=
  .of_kept (fun t ht => by rwa [h.task] at ht) (fun t ht _ => by rwa [h.waiting]) hm h.moving

omit [DecidableEq Θ] in
/-- The status of one task does not matter for the order of the heap. -/
theorem above_modify {t : T} (st : Status) :
    (s.modify t fun x => { x with status := st }).above = s.above := by
  funext a b
  simp only [State.above, State.modify, Function.update_apply]
  split <;> split <;> simp_all

/-- The other tasks stay in the heap when one is collected. -/
theorem Inv.collect_heap (h : Inv s) {u : State T Θ} {r : Round T} {t x : T}
    (hw : u.waiting = s.waiting) (ha : u.above = s.above) (hne : x ≠ t)
    (hx : x ∈ s.waiting.data) : x ∈ (TaskScheduler.collect u θ r t).waiting.data := by
  unfold TaskScheduler.collect
  by_cases hin : 0 ≤ u.waiting.index t
  · have hmem : t ∈ s.waiting.data := h.heap.indexed.index_nonneg_iff.mp (hw ▸ hin)
    obtain ⟨-, hperm, -⟩ := h.heap.remove (above_trans s) (above_total s) hmem
    rw [if_pos hin]
    have hrest : x ∈ (s.waiting.remove s.above t).1.data :=
      (List.mem_cons.mp (hperm.mem_iff.mpr hx)).resolve_left hne
    rw [← hw, ← ha] at hrest
    exact hrest
  · rw [if_neg hin]
    exact hw ▸ hx

/-- A task which is not asleep is collected. -/
theorem Inv.collect_rests (h : Inv s) {u : State T Θ} {r : Round T} {t : T}
    (hw : u.waiting = s.waiting) (ha : u.above = s.above)
    (hu : ∀ x, (u.task x).status = .waiting → (s.task x).status = .waiting ∧ x ≠ t)
    (hm : (s.work θ).moving = none) : Rests s (TaskScheduler.collect u θ r t) θ := by
  have htask : (TaskScheduler.collect u θ r t).task = u.task := by
    unfold TaskScheduler.collect
    split <;> rfl
  refine .of_kept (fun x hx => (hu x (htask ▸ hx)).1)
    (fun x hx hst => h.collect_heap hw ha (hu x (htask ▸ hst)).2 hx) hm ?_
  rw [TaskScheduler.collect, State.workAt_self]
  rfl

/-- A worker puts a task to sleep with its deadline in the heap. -/
theorem Inv.work_rests (h : Inv s) {spurious : Bool}
    (hs : TaskScheduler.work c s θ spurious = some s') :
    Rests s s' θ := by
  cases hh : (s.work θ).handles with
  | false =>
    refine (work_apart hs hh).rests ?_
    cases hwork : s.work θ <;> rw [hwork] at hh <;> first | rfl | cases hh
  | true =>
  have hknows := h.knows θ
  unfold TaskScheduler.work at hs
  cases hwork : s.work θ with
  | waitingTop r =>
    simp only [hwork, Option.some.injEq, waitingTop] at hs
    subst hs
    have hm : (s.work θ).moving = none := by rw [hwork]; rfl
    cases htop : s.waiting.top with
    | none => exact (Apart.workAt rfl rfl rfl).rests hm
    | some t =>
      dsimp only
      split
      · obtain ⟨-, hperm⟩ := h.heap.removeTop (above_trans s) (above_total s) htop
        have hin : t ∈ s.waiting.data := hperm.mem_iff.mp (List.mem_cons_self ..)
        have hstatus : ∀ x, ((s.modify t fun x => { x with isExpired := true }).task x).status =
            (s.task x).status := fun x => by
          simp only [State.modify, Function.update_apply]
          split <;> simp_all
        have hdeadline : ∀ x, ((s.modify t fun x => { x with isExpired := true }).task x).deadline =
            (s.task x).deadline := fun x => by
          simp only [State.modify, Function.update_apply]
          split <;> simp_all
        refine ⟨fun x hx => .inl ((hstatus x).symm.trans hx), fun x hx _ => ?_, fun x hx => ?_,
          fun r' x hx => ?_⟩
        · rcases List.mem_cons.mp (hperm.mem_iff.mpr hx) with rfl | hx
          · exact .inr ⟨_, State.workAt_self ..⟩
          · exact .inl hx
        · rw [hm] at hx
          cases hx
        · rw [State.workAt_self] at hx
          cases hx
          exact fun hd =>
            ((h.lives t).heap (h.inHeap_iff.mpr hin)).2.2 ((hdeadline t).symm.trans hd)
      · exact (Apart.workAt rfl rfl rfl).rests hm
  | waitingCas r t =>
    simp only [hwork, Option.some.injEq] at hs
    subst hs
    have hst : ∀ x, ((TaskScheduler.waitingCas s θ r t).task x).status = .waiting →
        (s.task x).status = .waiting ∧ x ≠ t := fun x hx => by
      unfold TaskScheduler.waitingCas at hx
      by_cases hxt : x = t
      · subst hxt
        by_cases hw : (s.task x).status = .waiting <;>
          simp [hw, choose, State.modify, State.move, State.workAt, State.assert] at hx
      · refine ⟨?_, hxt⟩
        dsimp only at hx
        split at hx <;>
          simpa [hxt, choose, State.modify, State.move, State.workAt, State.assert] using hx
    have hwaiting : (TaskScheduler.waitingCas s θ r t).waiting = s.waiting := by
      unfold TaskScheduler.waitingCas
      dsimp only
      split <;> rfl
    refine ⟨fun x hx => .inl (hst x hx).1, fun x hx _ => .inl (hwaiting ▸ hx), fun x hx hw => ?_,
      fun r' x hx => ?_⟩
    · rw [hwork] at hx
      cases hx
      exact absurd rfl (hst t hw).2
    · unfold TaskScheduler.waitingCas at hx
      dsimp only at hx
      split at hx <;> rw [State.workAt_self] at hx <;> cases hx
  | pendingPop r =>
    simp only [hwork, Option.some.injEq] at hs
    subst hs
    refine .of_kept (fun x hx => ?_) (fun x hx _ => ?_) (by rw [hwork]; rfl) ?_ <;>
      unfold TaskScheduler.pendingPop at *
    · split at hx
      · exact hx
      · split at hx
        · simp only [State.modify, State.move, State.workAt, Function.update_apply] at hx
          split at hx <;> simp_all
        · exact hx
    · split
      · exact hx
      · split <;> exact hx
    · split
      · rw [State.workAt_self]
        rfl
      · split
        · rw [State.workAt_self]
          split <;> rfl
        · rw [State.workAt_self]
          rfl
  | pendingSleep r t =>
    rw [hwork] at hknows
    simp only [hwork, Option.some.injEq, TaskScheduler.pendingSleep] at hs
    subst hs
    have hm : (s.work θ).moving = none := by rw [hwork]; rfl
    have hp : s.place t = .taken θ := hknows.place
    have hnot : (s.task t).status ≠ .waiting := fun hst => by
      have hasleep : s.place t = .asleep := (h.lives t).asleep_iff.mpr hst
      rw [hp] at hasleep
      cases hasleep
    split
    · rename_i hpend
      by_cases hinf : (s.task t).deadline ≠ infinite
      · rw [if_pos hinf]
        refine ⟨fun x hx => ?_, fun x hx _ => .inl hx, fun x hx => ?_, fun r' x hx => ?_⟩
        · by_cases hxt : x = t
          · subst hxt
            exact .inr (.inr ⟨r, State.workAt_self ..⟩)
          · exact .inl (by simpa [State.modify, State.move, State.workAt, hxt] using hx)
        · rw [hm] at hx
          cases hx
        · rw [State.workAt_self] at hx
          cases hx
      · rw [if_neg hinf]
        refine ⟨fun x hx => ?_, fun x hx _ => .inl hx, fun x hx => ?_, fun r' x hx => ?_⟩
        · by_cases hxt : x = t
          · subst hxt
            refine .inr (.inl ?_)
            simpa [State.modify, State.move, State.workAt, State.assert] using not_not.mp hinf
          · exact .inl (by
              simpa [State.modify, State.move, State.workAt, State.assert, hxt] using hx)
        · rw [hm] at hx
          cases hx
        · rw [State.workAt_self] at hx
          cases hx
    · refine h.collect_rests rfl rfl (fun x hx => ⟨hx, ?_⟩) hm
      rintro rfl
      exact hnot hx
  | waitingPush r t =>
    rw [hwork] at hknows
    simp only [hwork, Option.some.injEq] at hs
    subst hs
    have hnot : t ∉ s.waiting.data := fun hmem => by
      have hin : (life s t).inHeap = false := hknows.inHeap
      rw [h.inHeap_iff.mpr hmem] at hin
      cases hin
    obtain ⟨-, hperm⟩ := h.heap.push (above_trans s) (above_total s) hnot
    refine ⟨fun x hx => .inl hx, fun x hx _ => .inl (hperm.mem_iff.mpr (List.mem_cons_of_mem _ hx)),
      fun x hx _ => ?_, fun r' x hx => ?_⟩
    · rw [hwork] at hx
      cases hx
      exact hperm.mem_iff.mpr (List.mem_cons_self ..)
    · rw [TaskScheduler.waitingPush, State.workAt_self] at hx
      cases hx
  | pendingReady r t =>
    rw [hwork] at hknows
    simp only [hwork, Option.some.injEq, TaskScheduler.pendingReady] at hs
    subst hs
    have hp : s.place t = .taken θ := hknows.place
    have hnot : (s.task t).status ≠ .waiting := fun hst => by
      have hasleep : s.place t = .asleep := (h.lives t).asleep_iff.mpr hst
      rw [hp] at hasleep
      cases hasleep
    refine h.collect_rests rfl (above_modify _) (fun x hx => ?_) (by rw [hwork]; rfl)
    by_cases hxt : x = t
    · subst hxt
      simp only [State.modify, State.assert, Function.update_self] at hx
      split at hx
      · cases hx
      · exact absurd hx hnot
    · exact ⟨by simpa [State.modify, State.assert, hxt] using hx, hxt⟩
  | execute batch t =>
    simp only [hwork, Option.some.injEq, TaskScheduler.execute] at hs
    subst hs
    refine .of_kept (fun x hx => ?_) (fun x hx _ => hx) (by rw [hwork]; rfl) ?_
    · simp only [State.modify, State.move, State.workAt, State.assert, Function.update_apply] at hx
      split at hx <;> simp_all
    · rw [State.workAt_self]
      rfl
  | executeCas batch t =>
    simp only [hwork, Option.some.injEq, TaskScheduler.executeCas] at hs
    subst hs
    refine .of_kept (fun x hx => ?_) (fun x hx _ => hx) (by rw [hwork]; rfl) ?_
    · simp only [State.modify, State.move, State.workAt, State.assert, Function.update_apply] at hx
      split at hx
      · simp only at hx
        split at hx <;> simp_all
      · exact hx
    · rw [State.workAt_self]
      rfl
  | executeStart batch t =>
    simp only [hwork, Option.some.injEq, TaskScheduler.executeStart] at hs
    subst hs
    refine .of_kept (fun x hx => ?_) (fun x hx _ => hx) (by rw [hwork]; rfl) ?_
    · simp only [State.modify, State.move, State.workAt, State.assert, Function.update_apply] at hx
      split at hx <;> simp_all
    · rw [State.workAt_self]
      rfl
  | _ =>
    rw [hwork] at hh
    cases hh

omit [DecidableEq Θ] in
/-- A step of a thread outside of a round of scheduling puts nobody to sleep. -/
theorem Rests.of_effect (he : Effect false s s' θ) (h : Inv s)
    (hm : (s.work θ).moving = none) (hm' : (s'.work θ).moving = none) : Rests s s' θ := by
  have hkept : ∀ t, ((s'.task t).status = .waiting → (s.task t).status = .waiting) ∧
      (life s' t).inHeap = (life s t).inHeap := fun t => by
    rcases he.life t with hl | hl
    · exact ⟨fun hst => (congrArg Life.status hl).symm.trans hst, congrArg Life.inHeap hl⟩
    · exact hl.asleep
  refine .of_kept (fun t => (hkept t).1) (fun t ht _ => ?_) hm hm'
  rw [← he.heap.indexed.holds_iff]
  exact (hkept t).2.trans (h.inHeap_iff.mpr ht)

/-- A step moves one thread, and does to the sleeping tasks what this thread may do. -/
theorem step_rests (hr : (machine c).Reachable s) {a : Action T Θ}
    (hs : (machine c).step s a = some s') :
    (∃ d, s' = { s with now := s.now + d }) ∨ ∃ θ, Moves c s s' θ ∧ Rests s s' θ := by
  have h := inv hr
  have hns : ∀ {θ}, (s.work θ).mayCall = true → (s.work θ).schedules = false ∧
      (s.work θ).moving = none := fun {θ} hw => by
    cases hwork : s.work θ <;> rw [hwork] at hw <;> first | exact ⟨rfl, rfl⟩ | cases hw
  have hs' : step c s a = some s' := hs
  cases a with
  | tick d =>
    cases hs'
    exact .inl ⟨d, rfl⟩
  | op θ o =>
    simp only [step, Option.ite_none_right_eq_some] at hs'
    obtain ⟨hmay, hop⟩ := hs'
    have hm : Moves c s s' θ := callOp_moves (role hr θ) hmay hop
    obtain ⟨hcall, hw, -⟩ := (role hr θ).of_mayCall hmay
    obtain ⟨hsch, hmoving⟩ := hns hw
    refine .inr ⟨θ, hm, .of_effect (h.callOp hm hcall hsch hop) h hmoving ?_⟩
    rwa [callOp_work hop]
  | call θ spurious =>
    have hm := call_moves (role hr θ) hs'
    obtain ⟨hsch, hmoving⟩ := hns ((role hr θ).mayCall fun hc => by
      simp [step, call, hc] at hs')
    refine .inr ⟨θ, hm, .of_effect (h.call hm hsch hs') h hmoving ?_⟩
    rwa [(call_clock hs').2.1]
  | ret θ =>
    simp only [step] at hs'
    split at hs'
    · rename_i b hcall
      cases hs'
      have hrole := role hr θ
      rw [hcall] at hrole
      have hm : Moves c s (s.callAt θ .idle) θ := .callAt rfl rfl rfl rfl hrole.1 hrole.2
      exact .inr ⟨θ, hm, .of_kept (fun _ => id) (fun _ ht _ => ht) (hns hrole.1).2 (hns hrole.1).2⟩
    · cases hs'
  | work θ spurious =>
    simp only [step] at hs'
    split at hs'
    · rename_i hcall
      have hrole := role hr θ
      rw [hcall] at hrole
      exact .inr ⟨θ, work_moves hcall hrole hs', h.work_rests hs'⟩
    · cases hs'
  | timeout θ =>
    simp only [step] at hs'
    split at hs'
    · rename_i d hwork
      have hcall : s.call θ = .idle := by
        by_contra hne
        have := (role hr θ).mayCall hne
        simp [hwork, Work.mayCall] at this
      exact .inr ⟨θ, workUnlock_moves rfl rfl rfl rfl hcall hs',
        (Apart.workUnlock rfl rfl hs').rests (by rw [hwork]; rfl)⟩
    · cases hs'

/-- The sleeping tasks with a deadline are in the heap, or the scheduler is moving them. -/
structure Resting (s : State T Θ) : Prop where
  kept : ∀ t, (s.task t).status = .waiting → (s.task t).deadline ≠ infinite →
    t ∈ s.waiting.data ∨ ∃ θ, (s.work θ).moving = some t
  finite : ∀ θ r t, s.work θ = .waitingCas r t → (s.task t).deadline ≠ infinite

/-- A task keeps its deadline while it is neither in the hands of its user nor about to be. -/
theorem deadline_kept (hr : (machine c).Reachable s) {a : Action T Θ}
    (hs : (machine c).step s a = some s') {t : T} (ho : s.place t ≠ .outside)
    (hst : ∀ θ, s.place t ≠ .starting θ) : (s'.task t).deadline = (s.task t).deadline := by
  obtain he | ⟨k, hl⟩ := step_life hr hs t
  · exact congrArg Life.deadline he
  · exact hl.deadline_eq ho hst

/-- The sleeping tasks with a deadline are in the heap in every reachable state. -/
theorem resting (h : (machine c).Reachable s) : Resting s := by
  refine Machine.invariant_of (P := Resting) (fun _ h => h) (fun s hinit => ?_)
    (fun s a s' hr _ hrest hs => ?_) h
  · obtain ⟨now, rfl⟩ := hinit
    refine ⟨by rintro _ ⟨⟩, fun θ r t hw => ?_⟩
    simp only [State.new] at hw
    split at hw <;> cases hw
  have hinv := inv hr
  obtain ⟨d, rfl⟩ | ⟨θ, hm, hstep⟩ := step_rests hr hs
  · exact ⟨hrest.kept, hrest.finite⟩
  constructor
  · intro t hst hdl
    rcases hstep.asleep t hst with hold | hinf | ⟨r, hw⟩
    · have hp : s.place t = .asleep := (hinv.lives t).asleep_iff.mpr hold
      have hdl' : (s.task t).deadline ≠ infinite := by
        rwa [← deadline_kept hr hs (by rw [hp]; rintro ⟨⟩) (by rw [hp]; rintro _ ⟨⟩)]
      rcases hrest.kept t hold hdl' with hin | ⟨ψ, hψ⟩
      · exact (hstep.heap t hin hst).imp_right fun h => h.elim fun r hw => ⟨θ, by rw [hw]; rfl⟩
      · by_cases hne : ψ = θ
        · exact .inl (hstep.left t (hne ▸ hψ) hst)
        · exact .inr ⟨ψ, by rwa [hm.work_of_ne ψ hne]⟩
    · exact absurd hinf hdl
    · exact .inr ⟨θ, by rw [hw]; rfl⟩
  · intro ψ r t hw
    by_cases hne : ψ = θ
    · exact hstep.finite r t (hne ▸ hw)
    · rw [hm.work_of_ne ψ hne] at hw
      have hknows := hinv.knows ψ
      rw [hw] at hknows
      have hplace : s.place t = .asleep ∨ (∃ θ, s.place t = .pushing θ) ∨ s.place t = .front ∨
          s.place t = .pending := hknows.place
      rw [deadline_kept hr hs]
      · exact hrest.finite ψ r t hw
      · rintro hp
        simp [hp] at hplace
      · rintro χ hp
        simp [hp] at hplace

end Rests

section Signals

/-- A call does not take a signal away. -/
theorem Inv.call_signaled (h : Inv s) {spurious : Bool} {t : T}
    (hs : TaskScheduler.call c s θ spurious = some s') (hst : (s.task t).status = .signaled) :
    (s'.task t).status = .signaled := by
  unfold TaskScheduler.call at hs
  cases hcall : s.call θ with
  | idle | done _ => simp [hcall] at hs
  | pushLoad _ | frontProbe | frontPublish | wakeupLoad _ | readyProbe _ | readyPublish _ =>
    simp only [hcall, Option.some.injEq] at hs
    exact hs ▸ hst
  | pushCas u old =>
    simp only [hcall, Option.some.injEq, pushCas] at hs
    subst hs
    split <;> exact hst
  | wakeupCas u old =>
    simp only [hcall, Option.some.injEq, wakeupCas] at hs
    subst hs
    split
    · rename_i hok
      -- the wakeup expects a task which is not signaled
      have hne : t ≠ u := by
        rintro rfl
        have := h.wakeup θ t old hcall
        simp [← hok.1, hst] at this
      split <;> simpa [State.modify, State.move, State.callAt, hne] using hst
    · exact hst
  | signalExchange u =>
    simp only [hcall, Option.some.injEq, signalExchange] at hs
    subst hs
    split <;> simp only [State.modify, State.move, State.callAt, Function.update_apply] <;>
      split <;> first | rfl | exact hst
  | lock =>
    simp only [hcall, lock] at hs
    split at hs
    · cases hs
      exact hst
    · obtain ⟨m, -, rfl⟩ := Option.map_eq_some_iff.mp hs
      exact hst
  | interruptProbe =>
    simp only [hcall, interrupted] at hs
    split at hs
    · cases hs
      exact hst
    · obtain ⟨m, -, rfl⟩ := Option.map_eq_some_iff.mp hs
      exact hst
  | interruptPublish | readReady | unlock _ =>
    simp only [hcall, interrupted, callUnlocking] at hs
    obtain ⟨m, -, rfl⟩ := Option.map_eq_some_iff.mp hs
    exact hst
  | getState rest =>
    simp only [hcall] at hs
    cases rest with
    | nil =>
      cases hs
      exact hst
    | cons w rest =>
      simp only at hs
      split at hs
      · obtain ⟨m, -, rfl⟩ := Option.map_eq_some_iff.mp hs
        exact hst
      · cases hs
        exact hst
  | readFront | readWaiting | readPending =>
    simp only [hcall] at hs
    split at hs
    · cases hs
      exact hst
    · obtain ⟨m, -, rfl⟩ := Option.map_eq_some_iff.mp hs
      exact hst

/-- A worker does not take a signal away. -/
theorem work_signaled {spurious : Bool} {t : T} (hs : work c s θ spurious = some s')
    (hst : (s.task t).status = .signaled) : (s'.task t).status = .signaled := by
  cases hh : (s.work θ).handles with
  | false => rwa [(work_apart hs hh).task]
  | true =>
  have hcollect : ∀ (u : State T Θ) (r : Round T) (x : T), (u.task t).status = .signaled →
      ((collect u θ r x).task t).status = .signaled := fun u r x hu => by
    unfold collect
    dsimp only
    split <;> exact hu
  unfold work at hs
  cases hwork : s.work θ with
  | waitingTop r =>
    simp only [hwork, Option.some.injEq, waitingTop] at hs
    subst hs
    split
    · exact hst
    · split
      · simp only [State.modify, State.workAt, Function.update_apply]
        split <;> simp_all
      · exact hst
  | waitingCas r x =>
    simp only [hwork, Option.some.injEq, waitingCas] at hs
    subst hs
    split
    · have hne : t ≠ x := by
        rintro rfl
        simp_all
      simpa [choose, State.modify, State.move, State.workAt, hne] using hst
    · exact hst
  | pendingPop r =>
    simp only [hwork, Option.some.injEq, pendingPop] at hs
    subst hs
    split
    · exact hst
    · split
      · simp only [State.modify, State.move, State.workAt, Function.update_apply]
        split <;> simp_all
      · exact hst
  | pendingSleep r x =>
    simp only [hwork, Option.some.injEq, pendingSleep] at hs
    subst hs
    split
    · have hne : t ≠ x := by
        rintro rfl
        simp_all
      split <;> simpa [State.modify, State.move, State.workAt, State.assert, hne] using hst
    · exact hcollect _ r x hst
  | waitingPush r x =>
    simp only [hwork, Option.some.injEq] at hs
    exact hs ▸ hst
  | pendingReady r x =>
    simp only [hwork, Option.some.injEq, pendingReady] at hs
    subst hs
    refine hcollect _ r x ?_
    simp only [State.modify, State.assert, Function.update_apply]
    split <;> simp_all
  | execute batch x | executeCas batch x | executeStart batch x =>
    simp only [hwork, Option.some.injEq, execute, executeCas, executeStart] at hs
    subst hs
    simp only [State.modify, State.move, State.workAt, State.assert, Function.update_apply]
    split <;> simp_all
  | _ =>
    rw [hwork] at hh
    cases hh

/-- A signal is taken away by its receipt only. -/
theorem step_signaled (hr : (machine c).Reachable s) {a : Action T Θ} {t : T}
    (hs : (machine c).step s a = some s') (hst : (s.task t).status = .signaled) :
    (s'.task t).status = .signaled ∨ ∃ θ, a = .op θ (.receiveSignal t) := by
  have hs' : step c s a = some s' := hs
  cases a with
  | tick d =>
    cases hs'
    exact .inl hst
  | op θ o =>
    simp only [step, Option.ite_none_right_eq_some] at hs'
    cases o with
    | post u | setDeadline u d =>
      simp only [callOp, Option.ite_none_right_eq_some, Option.some.injEq] at hs'
      obtain ⟨-, -, rfl⟩ := hs'
      left
      simp only [post, setDeadline, State.modify, State.move, State.callAt, State.assert,
        Function.update_apply]
      split <;> simp_all
    | receiveSignal u =>
      simp only [callOp, Option.ite_none_right_eq_some, Option.some.injEq] at hs'
      obtain ⟨-, -, rfl⟩ := hs'
      by_cases hu : t = u
      · exact .inr ⟨θ, by rw [hu]⟩
      · left
        simpa [receiveSignal, State.modify, State.assert, hu] using hst
    | postWakeup u | postSignal u =>
      cases hs'.2
      exact .inl hst
    | isEmpty =>
      obtain ⟨m, -, rfl⟩ := Option.map_eq_some_iff.mp hs'.2
      exact .inl hst
  | call θ spurious => exact .inl ((inv hr).call_signaled hs' hst)
  | ret θ =>
    simp only [step] at hs'
    split at hs' <;> cases hs'
    exact .inl hst
  | work θ spurious =>
    simp only [step] at hs'
    split at hs'
    · exact .inl (work_signaled hs' hst)
    · cases hs'
  | timeout θ =>
    simp only [step] at hs'
    split at hs'
    · obtain ⟨m, -, rfl⟩ := Option.map_eq_some_iff.mp hs'
      exact .inl hst
    · cases hs'

end Signals

section Wakeups

omit [DecidableEq T] [DecidableEq Θ] in
/-- A ready or signaled task in the hands of the scheduler goes to the ready queue. -/
theorem Life.Step.hand {l l' : Life Θ} {k : Bool} (h : Life.Step k l l')
    (hst : l.status = .ready ∨ l.status = .signaled) :
    (l.place = .taken θ → l'.place = .taken θ ∨ l'.place = .chosen θ) ∧
    (l.place = .chosen θ → l'.place = .chosen θ ∨ l'.place = .ready) := by
  cases h <;> simp_all

/-- The scheduler appends a ready or signaled task to its local list in one step. -/
theorem collect_next (hr : (machine c).Reachable s) {t : T} {r : Round T}
    (hwork : s.work θ = .pendingSleep r t ∨ s.work θ = .pendingReady r t)
    (hst : (s.task t).status = .ready ∨ (s.task t).status = .signaled) :
    ∃ s', (machine c).step s (.work θ false) = some s' ∧
      s'.work θ = .pendingPop { r with ready := r.ready ++ [t] } := by
  have hcall : s.call θ = .idle := by
    by_contra hne
    have := (role hr θ).mayCall hne
    rcases hwork with hwork | hwork <;> simp [hwork, Work.mayCall] at this
  have hnot : (s.task t).status ≠ .pending := by
    rintro hp
    simp [hp] at hst
  have hcollect : ∀ u : State T Θ, (collect u θ r t).work θ =
      .pendingPop { r with ready := r.ready ++ [t] } := fun u => by
    rw [collect, State.workAt_self]
  rcases hwork with hwork | hwork
  · refine ⟨pendingSleep s θ r t, by simp [machine, step, hcall, work, hwork], ?_⟩
    simp only [pendingSleep, if_neg hnot]
    exact hcollect _
  · exact ⟨pendingReady s θ r t, by simp [machine, step, hcall, work, hwork], hcollect _⟩

/-- **No wakeup and no signal is lost.** In every reachable state, for any task: when it is in the
scheduler and ready or signaled, it is in the front queue, the pending list or the ready queue, or
a thread is about to push it to the front queue, or it is in the hands of the scheduler or of the
worker which has popped it. When it sleeps, it is in no list, and it is in the heap, or being moved
into it or out of it, if and only if its deadline is not infinite. It is in the heap if and only if
its index is not negative. The scheduler appends a ready or signaled task which it has taken from
the pending list to its list of ready tasks with its next step, whatever the deadline is, and it
stays in the hands of the scheduler until it is in the ready queue. A signal is taken away by
`ReceiveSignal` only. -/
theorem wakeups_kept (h : (machine c).Reachable s) (t : T) :
    ((s.task t).inScheduler = true →
      ((s.task t).status = .ready ∨ (s.task t).status = .signaled) →
      t ∈ s.front ∨ t ∈ s.pending ∨ t ∈ s.contents .ready ∨ ∃ θ, t ∈ s.contents (.pushing θ) ∨
        t ∈ s.contents (.taken θ) ∨ t ∈ s.contents (.chosen θ) ∨ t ∈ s.contents (.popped θ)) ∧
    ((s.task t).status = .waiting → (∀ p, t ∉ s.contents p) ∧
      ((t ∈ s.waiting.data ∨ ∃ θ, (s.work θ).moving = some t) ↔
        (s.task t).deadline ≠ infinite)) ∧
    (t ∈ s.waiting.data ↔ 0 ≤ s.waiting.index t) ∧
    (∀ θ r, s.work θ = .pendingSleep r t ∨ s.work θ = .pendingReady r t →
      ((s.task t).status = .ready ∨ (s.task t).status = .signaled) →
      ∃ s', (machine c).step s (.work θ false) = some s' ∧
        s'.work θ = .pendingPop { r with ready := r.ready ++ [t] }) ∧
    ∀ a s', (machine c).step s a = some s' →
      (((s.task t).status = .ready ∨ (s.task t).status = .signaled) → ∀ θ,
        (t ∈ s.contents (.taken θ) → t ∈ s'.contents (.taken θ) ∨ t ∈ s'.contents (.chosen θ)) ∧
        (t ∈ s.contents (.chosen θ) → t ∈ s'.contents (.chosen θ) ∨ t ∈ s'.contents .ready)) ∧
      ((s.task t).status = .signaled →
        (s'.task t).status = .signaled ∨ ∃ θ, a = .op θ (.receiveSignal t)) := by
  have hinv := inv h
  have hok := hinv.lives t
  refine ⟨fun hin hst => ?_, fun hst => ⟨fun p hp => ?_, fun hmove => ?_, fun hdl => ?_⟩,
    hinv.heap.indexed.index_nonneg_iff.symm, fun θ r hwork hst => collect_next h hwork hst,
    fun a s' hs => ⟨fun hst θ => ?_, fun hst => step_signaled h hs hst⟩⟩
  · have hinside : (s.place t).inside = true := hok.inScheduler_eq.symm.trans hin
    have hmem : ∀ p : Place Θ, p.Tracked → s.place t = p → t ∈ s.contents p :=
      fun p hp => (hinv.placed.mem_iff p hp t).mpr
    cases hp : s.place t with
    | outside | released θ | starting θ =>
      rw [hp] at hinside
      cases hinside
    | asleep =>
      have hwait : (s.task t).status = .waiting := hok.asleep_iff.mp hp
      simp [hwait] at hst
    | front => exact .inl (hmem .front trivial hp)
    | pending => exact .inr (.inl (hmem .pending trivial hp))
    | ready => exact .inr (.inr (.inl (hmem .ready trivial hp)))
    | pushing θ => exact .inr (.inr (.inr ⟨θ, .inl (hmem (.pushing θ) trivial hp)⟩))
    | taken θ => exact .inr (.inr (.inr ⟨θ, .inr (.inl (hmem (.taken θ) trivial hp))⟩))
    | chosen θ => exact .inr (.inr (.inr ⟨θ, .inr (.inr (.inl (hmem (.chosen θ) trivial hp)))⟩))
    | popped θ => exact .inr (.inr (.inr ⟨θ, .inr (.inr (.inr (hmem (.popped θ) trivial hp)))⟩))
  · have hasleep : s.place t = .asleep := hok.asleep_iff.mpr hst
    have htracked := State.tracked_of_mem hp
    obtain rfl : Place.asleep = p := hasleep.symm.trans ((hinv.placed.mem_iff p htracked t).mp hp)
    exact htracked
  · rcases hmove with hin | ⟨θ, hθ⟩
    · exact (hok.heap (hinv.inHeap_iff.mpr hin)).2.2
    · have hknows := hinv.knows θ
      cases hwork : s.work θ <;> rw [hwork] at hθ hknows <;> cases hθ
      · exact (resting h).finite θ _ t hwork
      · exact hknows.deadline
  · exact (resting h).kept t hst hdl
  · have hinv' := inv (h.step hs)
    have hplace := fun p hp => hinv.placed.mem_iff p hp t
    have hplace' := fun p hp => hinv'.placed.mem_iff p hp t
    have hhand : (s.place t = .taken θ → s'.place t = .taken θ ∨ s'.place t = .chosen θ) ∧
        (s.place t = .chosen θ → s'.place t = .chosen θ ∨ s'.place t = .ready) := by
      obtain he | ⟨k, hl⟩ := step_life h hs t
      · have hp : s'.place t = s.place t := congrArg Life.place he
        rw [hp]
        exact ⟨.inl, .inl⟩
      · exact hl.hand hst
    rw [hplace (.taken θ) trivial, hplace (.chosen θ) trivial, hplace' (.taken θ) trivial,
      hplace' (.chosen θ) trivial, hplace' .ready trivial]
    exact hhand

/-- A worker has popped the posted task and is about to mark it. -/
def handRun : List (Action Unit ℕ) :=
  Action.op 0 (.post ()) :: List.replicate 4 (.call 0 false) ++
    List.replicate 28 (Action.work 1 false)

theorem handRun_popped :
    ∃ s, (machine pair).run (.new pair 0) handRun = some s ∧ (s.task ()).inScheduler = true ∧
      (s.task ()).status = .ready ∧ () ∈ s.contents (.popped 1) := by
  have hrun : ((machine pair).run (.new pair 0) handRun).map (fun s =>
      (s.task ()).inScheduler && decide ((s.task ()).status = .ready) &&
        decide (() ∈ s.contents (.popped 1))) = some true := by
    decide +kernel
  obtain ⟨s, hs, hall⟩ := Option.map_eq_some_iff.mp hrun
  simp only [Bool.and_eq_true, decide_eq_true_eq] at hall
  exact ⟨s, hs, hall.1.1, hall.1.2, hall.2⟩

/-- The places of the ready task at the end of that run. -/
theorem wakeups_kept_pair :
    ∃ s, (machine pair).run (.new pair 0) handRun = some s ∧
      (() ∈ s.front ∨ () ∈ s.pending ∨ () ∈ s.contents .ready ∨ ∃ θ,
        () ∈ s.contents (.pushing θ) ∨ () ∈ s.contents (.taken θ) ∨ () ∈ s.contents (.chosen θ) ∨
          () ∈ s.contents (.popped θ)) := by
  obtain ⟨s, hs, hin, hst, -⟩ := handRun_popped
  exact ⟨s, hs, (wakeups_kept (.of_run (.init ⟨0, rfl⟩) hs) ()).1 hin (.inl hst)⟩

/-- A task which is in the scheduler and ready may be in no queue, with nobody about to push it:
a worker has popped it. -/
theorem ready_in_hand :
    ∃ s, (machine pair).run (.new pair 0) handRun = some s ∧ (s.task ()).inScheduler = true ∧
      (s.task ()).status = .ready ∧ () ∉ s.front ∧ () ∉ s.pending ∧ () ∉ s.contents .ready ∧
      ∀ θ, () ∉ s.contents (.pushing θ) ∧ () ∉ s.contents (.chosen θ) := by
  obtain ⟨s, hs, hin, hst, hpopped⟩ := handRun_popped
  have hinv : Inv s := inv (.of_run (.init ⟨0, rfl⟩) hs)
  have hnot : ∀ p, p ≠ .popped 1 → () ∉ s.contents p := fun p hne hp =>
    hne (hinv.placed.eq_of_mem (State.tracked_of_mem hp) trivial hp hpopped)
  exact ⟨s, hs, hin, hst, hnot .front (by rintro ⟨⟩), hnot .pending (by rintro ⟨⟩),
    hnot .ready (by rintro ⟨⟩),
    fun θ => ⟨hnot _ (by rintro ⟨⟩), hnot _ (by rintro ⟨⟩)⟩⟩

end Wakeups

end TaskScheduler

end Serverbox
