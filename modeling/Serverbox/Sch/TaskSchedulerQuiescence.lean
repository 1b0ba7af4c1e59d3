import Serverbox.Sch.TaskSchedulerPlaces

/-!
# The end of a signal

When `ReceiveSignal` has returned true, the calls of `PostSignal` which have made their exchange
do not touch the task any more, and neither do the workers until the task is posted again.

## Main definitions

* `TaskScheduler.State.Touches`: the steps which may read or write a task.

## Main results

* `TaskScheduler.receive_quiesces`: who may touch a task after a successful `ReceiveSignal`.
-/

namespace Serverbox

namespace TaskScheduler

variable {T Θ : Type*}

/-- The task of an operation. -/
def Op.task : Op T → Option T
  | post t | postWakeup t | postSignal t | receiveSignal t | setDeadline t _ => some t
  | isEmpty => none

/-- The task whose fields the next step of a call reads or writes. -/
def Call.task : Call T Θ → Option T
  | pushLoad t | pushCas t _ | wakeupLoad t | wakeupCas t _ | signalExchange t => some t
  | _ => none

/-- The task of a call of `PostWakeup` or `PostSignal` before the exchange of its status. -/
def Call.asking : Call T Θ → Option T
  | wakeupLoad t | wakeupCas t _ | signalExchange t => some t
  | _ => none

/-- The task which the next step of a worker is about. -/
def Work.task : Work T → Option T
  | waitingCas _ t | pendingSleep _ t | waitingPush _ t | pendingReady _ t | execute _ t
  | executeCas _ t | executeStart _ t => some t
  | _ => none

/-- The steps which may read or write a task or one of its links. The steps of a worker count as
accesses to all the tasks in the heap, in the lists and in the hands of the threads. -/
def State.Touches (s : State T Θ) (t : T) : Action T Θ → Prop
  | .tick _ | .ret _ => False
  | .op _ o => o.task = some t
  | .call θ _ => (s.call θ).task = some t
  | .work θ _ | .timeout θ =>
    (s.work θ).task = some t ∨ t ∈ s.waiting.data ∨ ∃ p, t ∈ s.contents p

theorem Call.task_eq {k : Call T Θ} {t : T} (h : k.task = some t) :
    t ∈ k.pushing ∨ k.asking = some t := by
  cases k with
  | pushLoad u | pushCas u old =>
    cases h
    exact .inl (List.mem_singleton.mpr rfl)
  | wakeupLoad u | wakeupCas u old | signalExchange u =>
    cases h
    exact .inr rfl
  | _ => cases h

variable [DecidableEq T] [DecidableEq Θ] {c : Config T Θ} {s s' : State T Θ} {θ : Θ} {t : T}

omit [DecidableEq T] in
theorem produce_call {w : Work T} (hs : produce c s θ w = some s') : s'.call = s.call := by
  unfold produce at hs
  split at hs
  · obtain ⟨t, ht, rfl⟩ := Option.map_eq_some_iff.mp hs
    obtain ⟨q, -, rfl⟩ := Option.map_eq_some_iff.mp ht
    rfl
  · obtain ⟨q, -, rfl⟩ := Option.map_eq_some_iff.mp hs
    rfl

theorem collect_call (s : State T Θ) (θ : Θ) (r : Round T) (t : T) :
    (collect s θ r t).call = s.call := by
  unfold collect
  by_cases hh : 0 ≤ s.waiting.index t
  · rw [if_pos hh]
    rfl
  · rw [if_neg hh]
    rfl

/-- A worker calls no operation while it works. -/
theorem work_call {spurious : Bool} (hs : work c s θ spurious = some s') : s'.call = s.call := by
  unfold work at hs
  cases hwork : s.work θ with
  | outside => simp [hwork] at hs
  | attach | attaching | pop _ =>
    simp only [hwork] at hs
    obtain ⟨t, ht, rfl⟩ := Option.map_eq_some_iff.mp hs
    obtain ⟨q, -, rfl⟩ := Option.map_eq_some_iff.mp ht
    rfl
  | start | trySchedule | unlock =>
    simp only [hwork] at hs
    obtain ⟨m, -, rfl⟩ := Option.map_eq_some_iff.mp hs
    rfl
  | readTime | frontPop _ | waitingPush _ _ | sleepTimed _ | readyProbe | readyPublish
  | execute _ _ | executeCas _ _ | executeStart _ _ | storeIdle =>
    simp only [hwork, Option.some.injEq] at hs
    exact hs ▸ rfl
  | waitingTop r =>
    simp only [hwork, Option.some.injEq, waitingTop] at hs
    subst hs
    split <;> [rfl; split <;> rfl]
  | waitingCas r t =>
    simp only [hwork, Option.some.injEq, waitingCas] at hs
    subst hs
    split <;> rfl
  | pendingPop r =>
    simp only [hwork, Option.some.injEq, pendingPop] at hs
    subst hs
    split <;> [rfl; split <;> rfl]
  | pendingSleep r t =>
    simp only [hwork, Option.some.injEq, pendingSleep] at hs
    subst hs
    split <;> [split <;> rfl; exact collect_call ..]
  | pendingReady r t =>
    simp only [hwork, Option.some.injEq] at hs
    exact hs ▸ collect_call ..
  | transfer l =>
    simp only [hwork] at hs
    cases l <;> obtain ⟨t, ht, rfl⟩ := Option.map_eq_some_iff.mp hs <;>
      obtain ⟨q, -, rfl⟩ := Option.map_eq_some_iff.mp ht <;> rfl
  | transferring _ | flushing =>
    simp only [hwork] at hs
    exact produce_call hs
  | checkReady =>
    simp only [hwork] at hs
    split at hs
    · cases hs
      rfl
    · obtain ⟨m, -, rfl⟩ := Option.map_eq_some_iff.mp hs
      rfl
  | checkWaiting =>
    simp only [hwork, checkWaiting] at hs
    split at hs
    · cases hs
      rfl
    · split at hs
      · cases hs
        rfl
      · obtain ⟨m, -, rfl⟩ := Option.map_eq_some_iff.mp hs
        rfl
  | sleepingTimed _ | sleeping =>
    simp only [hwork, receiveFront, Option.ite_none_right_eq_some] at hs
    obtain ⟨m, -, rfl⟩ := Option.map_eq_some_iff.mp hs.2
    rfl
  | popping batch =>
    simp only [hwork, popping] at hs
    split at hs
    · obtain ⟨t, ht, rfl⟩ := Option.map_eq_some_iff.mp hs
      obtain ⟨q, -, rfl⟩ := Option.map_eq_some_iff.mp ht
      rfl
    · obtain ⟨t, ht, rfl⟩ := Option.map_eq_some_iff.mp hs
      obtain ⟨q, -, rfl⟩ := Option.map_eq_some_iff.mp ht
      split <;> rfl
  | callback _ _ =>
    simp only [hwork, executed] at hs
    split at hs
    · cases hs
      rfl
    · obtain ⟨m, -, rfl⟩ := Option.map_eq_some_iff.mp hs
      rfl
  | waitReady =>
    simp only [hwork, Option.ite_none_right_eq_some, Option.some.injEq] at hs
    exact hs.2 ▸ rfl

omit [DecidableEq T] in
/-- A step of a call which names no task afterwards. -/
theorem callAt_task {u : State T Θ} {p : Call T Θ} (hp : p.pushing = []) (ha : p.asking = none) :
    (t ∈ ((u.callAt θ p).call θ).pushing → t ∈ (s.call θ).pushing ∨
      (s.call θ).asking = some t ∧ (s.task t).status = .waiting) ∧
      (((u.callAt θ p).call θ).asking = some t → (s.call θ).asking = some t) := by
  rw [State.callAt_self, hp, ha]
  exact ⟨by rintro ⟨⟩, by rintro ⟨⟩⟩

/-- A call goes on about the same task, and comes to push it only when it was about to, or when
its exchange finds the task asleep. -/
theorem call_task {spurious : Bool} (hs : call c s θ spurious = some s') :
    (t ∈ (s'.call θ).pushing → t ∈ (s.call θ).pushing ∨
      (s.call θ).asking = some t ∧ (s.task t).status = .waiting) ∧
      ((s'.call θ).asking = some t → (s.call θ).asking = some t) := by
  unfold call at hs
  cases hcall : s.call θ with
  | idle | done _ => simp [hcall] at hs
  | pushLoad u =>
    simp only [hcall, Option.some.injEq] at hs
    subst hs
    rw [State.callAt_self]
    exact ⟨.inl, by rintro ⟨⟩⟩
  | pushCas u old =>
    simp only [hcall, Option.some.injEq, pushCas] at hs
    subst hs
    rw [← hcall]
    split
    · split <;> exact callAt_task rfl rfl
    · rw [State.callAt_self, hcall]
      exact ⟨.inl, by rintro ⟨⟩⟩
  | wakeupLoad u =>
    simp only [hcall, Option.some.injEq, wakeupCheck] at hs
    subst hs
    rw [State.callAt_self]
    split
    · exact ⟨by rintro ⟨⟩, by rintro ⟨⟩⟩
    · exact ⟨by rintro ⟨⟩, id⟩
  | wakeupCas u old =>
    simp only [hcall, Option.some.injEq, wakeupCas, wakeupCheck] at hs
    subst hs
    split
    · rename_i hok
      split
      · rename_i hwait
        rw [State.callAt_self]
        refine ⟨fun hmem => .inr ?_, by rintro ⟨⟩⟩
        obtain rfl : t = u := List.mem_singleton.mp hmem
        exact ⟨rfl, hok.1.trans hwait⟩
      · rw [← hcall]
        exact callAt_task rfl rfl
    · rw [State.callAt_self]
      split
      · exact ⟨by rintro ⟨⟩, by rintro ⟨⟩⟩
      · exact ⟨by rintro ⟨⟩, id⟩
  | signalExchange u =>
    simp only [hcall, Option.some.injEq, signalExchange] at hs
    subst hs
    split
    · rename_i hwait
      rw [State.callAt_self]
      refine ⟨fun hmem => .inr ?_, by rintro ⟨⟩⟩
      obtain rfl : t = u := List.mem_singleton.mp hmem
      exact ⟨rfl, hwait⟩
    · rw [← hcall]
      exact callAt_task rfl rfl
  | frontProbe | readyProbe _ =>
    simp only [hcall, Option.some.injEq] at hs
    subst hs
    rw [← hcall]
    split <;> exact callAt_task rfl rfl
  | frontPublish | readyPublish _ =>
    simp only [hcall, Option.some.injEq] at hs
    subst hs
    rw [← hcall]
    exact callAt_task rfl rfl
  | lock =>
    simp only [hcall, lock] at hs
    rw [← hcall]
    split at hs
    · cases hs
      exact callAt_task rfl rfl
    · obtain ⟨m, -, rfl⟩ := Option.map_eq_some_iff.mp hs
      split <;> exact callAt_task rfl rfl
  | interruptProbe =>
    simp only [hcall, interrupted] at hs
    rw [← hcall]
    split at hs
    · cases hs
      exact callAt_task rfl rfl
    · obtain ⟨m, -, rfl⟩ := Option.map_eq_some_iff.mp hs
      exact callAt_task rfl rfl
  | interruptPublish | readReady =>
    simp only [hcall, interrupted, callUnlock] at hs
    obtain ⟨m, -, rfl⟩ := Option.map_eq_some_iff.mp hs
    rw [← hcall]
    exact callAt_task rfl rfl
  | getState rest =>
    simp only [hcall] at hs
    rw [← hcall]
    cases rest with
    | nil =>
      cases hs
      exact callAt_task rfl rfl
    | cons w rest =>
      simp only [callUnlock] at hs
      split at hs
      · obtain ⟨m, -, rfl⟩ := Option.map_eq_some_iff.mp hs
        exact callAt_task rfl rfl
      · cases hs
        exact callAt_task rfl rfl
  | readFront | readWaiting | readPending =>
    simp only [hcall, callUnlock] at hs
    rw [← hcall]
    split at hs
    · cases hs
      exact callAt_task rfl rfl
    · obtain ⟨m, -, rfl⟩ := Option.map_eq_some_iff.mp hs
      exact callAt_task rfl rfl
  | unlock b =>
    simp only [hcall, callUnlocking] at hs
    obtain ⟨m, -, rfl⟩ := Option.map_eq_some_iff.mp hs
    rw [State.callAt_self]
    split <;> exact ⟨by rintro ⟨⟩, by rintro ⟨⟩⟩

/-- A thread comes to a task with the call of an operation, or goes on with it. -/
theorem step_task (hr : (machine c).Reachable s) {a : Action T Θ}
    (hs : (machine c).step s a = some s') (ψ : Θ) :
    (t ∈ (s'.call ψ).pushing → t ∈ (s.call ψ).pushing ∨
      (s.call ψ).asking = some t ∧ (s.task t).status = .waiting ∨ a = .op ψ (.post t)) ∧
      ((s'.call ψ).asking = some t → (s.call ψ).asking = some t ∨
        ∃ o, a = .op ψ o ∧ o.task = some t) := by
  have same (he : s'.call ψ = s.call ψ) : (t ∈ (s'.call ψ).pushing → t ∈ (s.call ψ).pushing ∨
      (s.call ψ).asking = some t ∧ (s.task t).status = .waiting ∨ a = .op ψ (.post t)) ∧
      ((s'.call ψ).asking = some t → (s.call ψ).asking = some t ∨
        ∃ o, a = .op ψ o ∧ o.task = some t) := by
    rw [he]
    exact ⟨.inl, .inl⟩
  have hs' : step c s a = some s' := hs
  cases a with
  | tick d =>
    cases hs'
    exact same rfl
  | op θ o =>
    simp only [step, Option.ite_none_right_eq_some] at hs'
    obtain ⟨hmay, hop⟩ := hs'
    have hm : Moves c s s' θ := callOp_moves (role hr θ) hmay hop
    by_cases hne : ψ = θ
    swap
    · exact same (hm.call_of_ne ψ hne)
    subst hne
    cases o with
    | post u =>
      simp only [callOp, Option.ite_none_right_eq_some, Option.some.injEq] at hop
      obtain ⟨-, rfl⟩ := hop
      rw [post, State.callAt_self]
      refine ⟨fun h => .inr (.inr ?_), by rintro ⟨⟩⟩
      rw [List.mem_singleton.mp h]
    | postWakeup u | postSignal u =>
      cases hop
      rw [State.callAt_self]
      exact ⟨by rintro ⟨⟩, fun h => .inr ⟨_, rfl, h⟩⟩
    | receiveSignal u | setDeadline u d =>
      simp only [callOp, Option.ite_none_right_eq_some, Option.some.injEq] at hop
      obtain ⟨-, rfl⟩ := hop
      exact same rfl
    | isEmpty =>
      obtain ⟨m, -, rfl⟩ := Option.map_eq_some_iff.mp hop
      rw [State.callAt_self]
      exact ⟨by rintro ⟨⟩, by rintro ⟨⟩⟩
  | call θ spurious =>
    by_cases hne : ψ = θ
    · subst hne
      obtain ⟨hp, ha⟩ := call_task (t := t) hs'
      exact ⟨fun h => (hp h).imp_right .inl, fun h => .inl (ha h)⟩
    · exact same ((call_moves (role hr θ) hs').call_of_ne ψ hne)
  | ret θ =>
    simp only [step] at hs'
    split at hs'
    · cases hs'
      by_cases hne : ψ = θ
      · subst hne
        rw [State.callAt_self]
        exact ⟨by rintro ⟨⟩, by rintro ⟨⟩⟩
      · exact same (Function.update_of_ne hne _ _)
    · cases hs'
  | work θ spurious =>
    simp only [step] at hs'
    split at hs'
    · exact same (congrFun (work_call hs') ψ)
    · cases hs'
  | timeout θ =>
    simp only [step] at hs'
    split at hs'
    · obtain ⟨m, -, rfl⟩ := Option.map_eq_some_iff.mp hs'
      exact same rfl
    · cases hs'

/-- A task which belongs to its user stays there until it is posted. -/
theorem outside_step (hr : (machine c).Reachable s) {a : Action T Θ}
    (hs : (machine c).step s a = some s') (hout : s.place t = .outside)
    (hpost : ∀ ψ, a ≠ .op ψ (.post t)) : s'.place t = .outside := by
  have hok := (inv hr).lives t
  have hw : (life s t).status ≠ .waiting := fun hw => by
    have : s.place t = .asleep := hok.asleep_iff.mpr hw
    simp [hout] at this
  have hplace : (life s t).place = .outside := hout
  obtain he | ⟨k, hstep⟩ := step_life hr hs t
  · exact (congrArg Life.place he).trans hout
  change (life s' t).place = .outside
  generalize hl : life s' t = l at hstep
  cases hstep with
  | post ψ hp =>
    have hin : s'.place t = .pushing ψ := congrArg Life.place hl
    have hmem := ((inv (hr.step hs)).placed.mem_iff (.pushing ψ) trivial t).mpr hin
    rcases (step_task hr hs ψ).1 hmem with hmem | ⟨-, hst⟩ | ha
    · have : s.place t = .pushing ψ :=
        ((inv hr).placed.mem_iff (.pushing ψ) trivial t).mp hmem
      simp [hout] at this
    · exact absurd hst hw
    · exact absurd ha (hpost ψ)
  | wakeup _ | signal _ | receive _ | setDeadline _ _ => exact hplace
  | wakeupAsleep ψ hs | signalAsleep ψ hs | expire ψ ts hs => exact absurd hs hw
  | push ψ hp | pop ψ hp | execute ψ hp | executeCas ψ hp | drain hp | take ψ ts hp | sleep ψ hp
  | choose ψ ts hp | queue ψ hp => simp [hplace] at hp
  | executeStart ψ hp => rfl
  | insert _ _ _ | removeTop _ => exact hplace

/-- A thread whose call is past its exchange does not ask for the task in the same call again. -/
theorem asking_run (hr : (machine c).Reachable s) {as : List (Action T Θ)} {ψ : Θ}
    (hrun : (machine c).run s as = some s') (ha : (s.call ψ).asking ≠ some t)
    (hop : ∀ o, o.task = some t → .op ψ o ∉ as) : (s'.call ψ).asking ≠ some t := by
  induction as generalizing s with
  | nil => exact Option.some.inj hrun ▸ ha
  | cons a as ih =>
    obtain ⟨s₁, hs, hrun⟩ := (machine c).run_cons_eq_some.mp hrun
    refine ih (hr.step hs) hrun (fun h => ?_)
      fun o ho hmem => hop o ho (List.mem_cons_of_mem _ hmem)
    rcases (step_task hr hs ψ).2 h with h | ⟨o, rfl, ho⟩
    · exact ha h
    · exact hop o ho (List.mem_cons_self ..)

/-- A thread in a call about something else does not come to the task in this call. -/
theorem task_run (hr : (machine c).Reachable s) {as : List (Action T Θ)} {ψ : Θ}
    (hrun : (machine c).run s as = some s') (ha : (s.call ψ).task ≠ some t)
    (hop : ∀ o, .op ψ o ∉ as) : (s'.call ψ).task ≠ some t := by
  induction as generalizing s with
  | nil => exact Option.some.inj hrun ▸ ha
  | cons a as ih =>
    obtain ⟨s₁, hs, hrun⟩ := (machine c).run_cons_eq_some.mp hrun
    refine ih (hr.step hs) hrun (fun h => ha ?_) fun o hmem => hop o (List.mem_cons_of_mem _ hmem)
    have hpush : t ∈ (s.call ψ).pushing → (s.call ψ).task = some t := fun h => by
      cases hc : s.call ψ <;> simp [hc, Call.pushing] at h <;> simp [Call.task, h]
    have hask : (s.call ψ).asking = some t → (s.call ψ).task = some t := fun h => by
      cases hc : s.call ψ <;> simp [hc, Call.asking] at h <;> simp [Call.task, h]
    rcases Call.task_eq h with h | h
    · rcases (step_task hr hs ψ).1 h with h | ⟨h, -⟩ | rfl
      · exact hpush h
      · exact hask h
      · exact absurd (List.mem_cons_self ..) (hop _)
    · rcases (step_task hr hs ψ).2 h with h | ⟨o, rfl, -⟩
      · exact hask h
      · exact absurd (List.mem_cons_self ..) (hop o)

theorem outside_run (hr : (machine c).Reachable s) {as : List (Action T Θ)}
    (hrun : (machine c).run s as = some s') (hout : s.place t = .outside)
    (hpost : ∀ ψ, .op ψ (.post t) ∉ as) : s'.place t = .outside := by
  induction as generalizing s with
  | nil => exact Option.some.inj hrun ▸ hout
  | cons a as ih =>
    obtain ⟨s₁, hs, hrun⟩ := (machine c).run_cons_eq_some.mp hrun
    refine ih (hr.step hs) hrun (outside_step hr hs hout fun ψ he => ?_)
      fun ψ hmem => hpost ψ (List.mem_cons_of_mem _ hmem)
    exact hpost ψ (he ▸ List.mem_cons_self ..)

/-- Nobody holds a task which belongs to its user. -/
theorem not_held (h : (machine c).Reachable s) (hout : s.place t = .outside) :
    (∀ ψ, t ∉ (s.call ψ).pushing) ∧ (∀ ψ, (s.work ψ).task ≠ some t) ∧ t ∉ s.waiting.data ∧
      ∀ p, t ∉ s.contents p := by
  have hinv := inv h
  have hcontents : ∀ p, t ∉ s.contents p := fun p hmem => by
    have htr : p.Tracked := by cases p <;> trivial
    have hp : s.place t = p := (hinv.placed.mem_iff p htr t).mp hmem
    rw [← hp, hout] at htr
    exact htr
  refine ⟨fun ψ => hcontents (.pushing ψ), fun ψ hw => ?_, fun hmem => ?_, hcontents⟩
  · have hk := hinv.knows ψ
    cases hwork : s.work ψ with
    | waitingCas r u =>
      rw [hwork] at hk hw
      cases hw
      obtain ⟨hp, -⟩ := hk
      simp [life, hout] at hp
    | waitingPush r u =>
      rw [hwork] at hk hw
      cases hw
      obtain ⟨hp, -⟩ := hk
      simp [life, hout] at hp
    | pendingSleep r u | pendingReady r u =>
      rw [hwork] at hk hw
      cases hw
      obtain ⟨hp, -⟩ := hk
      simp [life, hout] at hp
    | execute b u =>
      rw [hwork] at hw
      cases hw
      exact hcontents (.popped ψ) (by simp [State.contents, hwork, Work.popped])
    | executeCas b u =>
      rw [hwork] at hw
      cases hw
      exact hcontents (.released ψ) (by simp [State.contents, hwork, Work.released])
    | executeStart b u =>
      rw [hwork] at hw
      cases hw
      exact hcontents (.starting ψ) (by simp [State.contents, hwork, Work.starting])
    | _ => simp [hwork, Work.task] at hw
  · exact ((hinv.lives t).not_dispatched (hinv.inHeap_iff.mpr hmem)).2.2 hout

/-- **The quiescence of a signal.** `ReceiveSignal` of a signaled task succeeds. From then on, in
every continuation: a `PostSignal` which has made its exchange before does not touch the task any
more; no step of a worker touches it until it is posted again; and if no other call about the task
is running, nobody but the callers of new operations on the task touches it. -/
theorem receive_quiesces (h : (machine c).Reachable s)
    (hs : (machine c).step s (.op θ (.receiveSignal t)) = some s')
    (hsig : (s.task t).status = .signaled) :
    (s'.task t).status = .pending ∧
    (∀ ψ u spurious u' bs, (machine c).Reachable u → u.call ψ = .signalExchange t →
      (machine c).step u (.call ψ spurious) = some u' → (machine c).run u' bs = some s →
      (∀ o, .op ψ o ∉ bs) → ∀ as s₁, (machine c).run s' as = some s₁ → (∀ o, .op ψ o ∉ as) →
        ∀ spurious', ¬ s₁.Touches t (.call ψ spurious')) ∧
    (∀ as s₁, (machine c).run s' as = some s₁ → (∀ ψ, .op ψ (.post t) ∉ as) →
      ∀ ψ spurious, ¬ s₁.Touches t (.work ψ spurious) ∧ ¬ s₁.Touches t (.timeout ψ)) ∧
    ((∀ ψ, (s'.call ψ).asking ≠ some t) → ∀ as s₁, (machine c).run s' as = some s₁ →
      (∀ ψ o, o.task = some t → .op ψ o ∉ as) → ∀ a, s₁.Touches t a →
        ∃ ψ o, a = .op ψ o ∧ o.task = some t) := by
  have hr' := h.step hs
  obtain ⟨hout, heq⟩ : s.place t = .outside ∧ s' = receiveSignal s t := by
    simp only [machine, step, callOp, Option.ite_none_right_eq_some, Option.some.injEq] at hs
    obtain ⟨-, hmay, rfl⟩ := hs
    refine ⟨?_, rfl⟩
    unfold State.mayPost at hmay
    split at hmay
    · assumption
    · cases hmay
  have hcall : s'.call = s.call := by rw [heq]; rfl
  have hout' : s'.place t = .outside := by rw [heq]; exact hout
  have hworkers : ∀ {as s₁}, (machine c).run s' as = some s₁ → (∀ ψ, .op ψ (.post t) ∉ as) →
      ∀ ψ, ¬ ((s₁.work ψ).task = some t ∨ t ∈ s₁.waiting.data ∨ ∃ p, t ∈ s₁.contents p) := by
    intro as s₁ hrun hpost ψ
    obtain ⟨-, hw, hheap, hcont⟩ := not_held (hr'.of_run hrun) (outside_run hr' hrun hout' hpost)
    rintro (hmem | hmem | ⟨p, hmem⟩)
    · exact hw ψ hmem
    · exact hheap hmem
    · exact hcont p hmem
  refine ⟨?_, ?_, fun as s₁ hrun hpost ψ _ => ⟨hworkers hrun hpost ψ, hworkers hrun hpost ψ⟩, ?_⟩
  · simp [heq, receiveSignal, State.modify, State.assert, hsig]
  · intro ψ u spurious u' bs hru hex hu hbs hops as s₁ hrun hops' spurious'
    have hask : (u'.call ψ).asking ≠ some t := fun ha => by
      have hu' : call c u ψ spurious = some u' := hu
      simp only [call, hex, Option.some.injEq, signalExchange] at hu'
      subst hu'
      split at ha <;> simp [Call.asking] at ha
    have hask' := asking_run (hru.step hu) hbs hask fun o _ => hops o
    refine task_run hr' hrun (fun htask => ?_) hops'
    rcases Call.task_eq htask with hp | ha
    · exact (not_held hr' hout').1 ψ hp
    · exact hask' (hcall ▸ ha)
  · intro hnone as s₁ hrun hops a hta
    have hpost : ∀ ψ, .op ψ (.post t) ∉ as := fun ψ => hops ψ _ rfl
    cases a with
    | tick _ | ret _ => exact hta.elim
    | op ψ o => exact ⟨ψ, o, rfl, hta⟩
    | work ψ _ | timeout ψ => exact absurd hta (hworkers hrun hpost ψ)
    | call ψ _ =>
      rcases Call.task_eq hta with hp | ha
      · exact absurd hp ((not_held (hr'.of_run hrun) (outside_run hr' hrun hout' hpost)).1 ψ)
      · exact absurd ha (asking_run hr' hrun (hnone ψ) (hops ψ))

/-- One worker and one task. -/
def solo : Config Unit Bool where
  queue := ⟨2, Nat.two_pos, fun _ _ => some ()⟩
  schedBatchSize := 2
  workers := [true]

/-- The task is posted, and `PostSignal` is called. -/
def soloPosted : List (Action Unit Bool) :=
  Action.op false (.post ()) :: List.replicate 4 (.call false false) ++
    [Action.op false (.postSignal ())]

/-- The worker schedules the task and starts its callback. -/
def soloWorks : List (Action Unit Bool) := List.replicate 31 (.work true false)

/-- The callback receives the signal. -/
theorem receive_quiesces_solo :
    ∃ u u' s s', (machine solo).run (.new solo 0) soloPosted = some u ∧
      (machine solo).step u (.call false false) = some u' ∧
      (machine solo).run u' soloWorks = some s ∧
      (machine solo).step s (.op true (.receiveSignal ())) = some s' ∧
      (s'.task ()).status = .pending ∧
      (∀ as s₁, (machine solo).run s' as = some s₁ → (∀ o, .op false o ∉ as) →
        ∀ spurious, ¬ s₁.Touches () (.call false spurious)) ∧
      ∀ as s₁, (machine solo).run s' as = some s₁ → (∀ ψ, .op ψ (.post ()) ∉ as) →
        ∀ ψ spurious, ¬ s₁.Touches () (.work ψ spurious) ∧ ¬ s₁.Touches () (.timeout ψ) := by
  have hrun : (((machine solo).run (.new solo 0) soloPosted).bind fun u =>
      ((machine solo).step u (.call false false)).bind fun u' =>
      ((machine solo).run u' soloWorks).bind fun s =>
      ((machine solo).step s (.op true (.receiveSignal ()))).map fun _ =>
        ((match u.call false with
          | .signalExchange _ => true
          | _ => false), decide ((s.task ()).status = .signaled))) = some (true, true) := by
    decide +kernel
  simp only [Option.bind_eq_some_iff, Option.map_eq_some_iff, Prod.mk.injEq,
    decide_eq_true_eq] at hrun
  obtain ⟨u, hu, u', hu', s, hs, s', hs', hcall, hsig⟩ := hrun
  have hru : (machine solo).Reachable u := .of_run (.init ⟨0, rfl⟩) hu
  have hcall' : u.call false = .signalExchange () := by
    split at hcall
    · assumption
    · cases hcall
  obtain ⟨hst, hps, hw, -⟩ := receive_quiesces ((hru.step hu').of_run hs) hs' hsig
  exact ⟨u, u', s, s', hu, hu', hs, hs', hst, hps false u false u' soloWorks hru hcall' hu' hs
    (by simp [soloWorks]), hw⟩

end TaskScheduler

end Serverbox
