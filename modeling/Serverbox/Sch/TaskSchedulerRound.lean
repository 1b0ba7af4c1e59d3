import Serverbox.Sch.TaskSchedulerWakeup

/-!
# What one round of scheduling gets done

`PrivSchedule` handles the expired tasks of the waiting heap and then the front tasks, in two
loops with the condition `++batch < maxBatch`. Here the tasks are counted which a round takes
from the heap and from the pending list, while all the other threads go on.

Each of the loops stops after `maxBatch - 1` tasks. So a round with the bound 1 handles nothing at
all, and such is the bound of one worker with sub-queues of the size 1.

Source: `src/mg/sch/TaskScheduler.cpp`.

## Main definitions

* `TaskScheduler.Config.start`: the bound which `Start` computes.
* `TaskScheduler.Polls`: the polling of a round, with the number of the tasks handled so far.

## Main results

* `TaskScheduler.round_handles`: the number of tasks handled by a round.
* `TaskScheduler.round_progress_iff`: when a round makes progress within the bound.
-/

namespace Serverbox

namespace TaskScheduler

variable {T Θ : Type*}

/-- `Start` with some workers. The product of two `uint32_t` wraps around. -/
def Config.start (queue : MultiConsumerQueue.Config T) (workers : List Θ) : Config T Θ :=
  ⟨queue, queue.size * workers.length % 2 ^ 32, workers⟩

/-- A worker is between the reading of the time and the end of the polling. -/
def Work.polling : Work T → Bool
  | waitingTop _ | waitingCas _ _ | frontPop _ | pendingPop _ | pendingSleep _ _
  | waitingPush _ _ | pendingReady _ _ => true
  | _ => false

/-- How many tasks of the heap have expired at the given time. -/
def State.expired (s : State T Θ) (timestamp : ℕ) : ℕ :=
  s.waiting.data.countP fun t => decide ((s.task t).deadline ≤ timestamp)

/-- How many tasks the worker takes to handle them when the first state becomes the second one:
from the heap in the first loop and from the pending list in the second one. -/
def taken (s s' : State T Θ) (θ : Θ) : ℕ :=
  match s.work θ with
  | .waitingTop _ => s.waiting.count - s'.waiting.count
  | .pendingPop _ => s.pending.length - s'.pending.length
  | _ => 0

/-- How long the pending list is after the front queue was appended to it. -/
def found (s s' : State T Θ) (θ : Θ) (m : ℕ) : ℕ :=
  match s.work θ with
  | .frontPop _ => s'.pending.length
  | _ => m

variable [DecidableEq T] [DecidableEq Θ] {c : Config T Θ} {s₀ s s' : State T Θ} {θ ψ : Θ}

/-- The worker `θ` polls from the state `s₀` on, while the others make steps too. The numbers are
the tasks handled so far and the length of the pending list at the beginning of the second
loop. -/
inductive Polls (c : Config T Θ) (θ : Θ) (s₀ : State T Θ) : ℕ → ℕ → State T Θ → Prop
  | start : Polls c θ s₀ 0 0 s₀
  | step {n m : ℕ} {s s' : State T Θ} {a : Action T Θ} (h : Polls c θ s₀ n m s)
    (hw : (s.work θ).polling = true) (hs : step c s a = some s') :
    Polls c θ s₀ (n + taken s s' θ) (found s s' θ m) s'

theorem Polls.reachable {n m : ℕ} (h : Polls c θ s₀ n m s) (hr : (machine c).Reachable s₀) :
    (machine c).Reachable s := by
  induction h with
  | start => exact hr
  | step _ _ hs ih => exact ih.step hs

/-! ### What the other threads leave -/

section Others

/-- The lists of the scheduler stay, and nothing leaves the front queue. -/
structure Kept (s s' : State T Θ) : Prop where
  pending : s'.pending = s.pending
  waiting : s'.waiting = s.waiting
  front : s.front.length ≤ s'.front.length

omit [DecidableEq T] [DecidableEq Θ] in
theorem Kept.rfl (s : State T Θ) : Kept s s := ⟨.refl _, .refl _, le_refl _⟩

omit [DecidableEq T] in
theorem Kept.callAt {u : State T Θ} {p : Call T Θ} (h : Kept s u) : Kept s (u.callAt ψ p) :=
  ⟨h.pending, h.waiting, h.front⟩

theorem pushCas_kept (s : State T Θ) (ψ : Θ) (t : T) (old : Option T) (spurious : Bool) :
    Kept s (pushCas s ψ t old spurious) := by
  unfold pushCas
  split
  · exact ⟨rfl, rfl, Nat.le_succ _⟩
  · exact (Kept.rfl s).callAt

omit [DecidableEq T] in
theorem wakeupCheck_kept (s : State T Θ) (ψ : Θ) (t : T) : Kept s (wakeupCheck s ψ t) :=
  (Kept.rfl s).callAt

theorem wakeupCas_kept (s : State T Θ) (ψ : Θ) (t : T) (old : Status) (spurious : Bool) :
    Kept s (wakeupCas s ψ t old spurious) := by
  unfold wakeupCas
  split
  · dsimp only
    split <;> exact ⟨rfl, rfl, le_refl _⟩
  · exact wakeupCheck_kept s ψ t

theorem signalExchange_kept (s : State T Θ) (ψ : Θ) (t : T) : Kept s (signalExchange s ψ t) := by
  unfold signalExchange
  dsimp only
  split <;> exact ⟨rfl, rfl, le_refl _⟩

omit [DecidableEq T] in
theorem callUnlock_kept {b : Bool} (hs : callUnlock s ψ b = some s') : Kept s s' := by
  obtain ⟨m, -, rfl⟩ := Option.map_eq_some_iff.mp hs
  exact ⟨rfl, rfl, le_refl _⟩

/-- A step in a call of an operation. -/
theorem call_kept {spurious : Bool} (hs : call c s ψ spurious = some s') : Kept s s' := by
  unfold call at hs
  cases hcall : s.call ψ with
  | idle | done _ => simp [hcall] at hs
  | pushLoad t | frontPublish | frontProbe | readyProbe _ | readyPublish _ =>
    simp only [hcall, Option.some.injEq] at hs
    exact hs ▸ ⟨rfl, rfl, le_refl _⟩
  | wakeupLoad t =>
    simp only [hcall, Option.some.injEq] at hs
    exact hs ▸ wakeupCheck_kept s ψ t
  | pushCas t old =>
    simp only [hcall, Option.some.injEq] at hs
    exact hs ▸ pushCas_kept s ψ t old spurious
  | wakeupCas t old =>
    simp only [hcall, Option.some.injEq] at hs
    exact hs ▸ wakeupCas_kept s ψ t old spurious
  | signalExchange t =>
    simp only [hcall, Option.some.injEq] at hs
    exact hs ▸ signalExchange_kept s ψ t
  | lock =>
    simp only [hcall, lock] at hs
    split at hs
    · cases hs
      exact ⟨rfl, rfl, le_refl _⟩
    · obtain ⟨m, -, rfl⟩ := Option.map_eq_some_iff.mp hs
      exact ⟨rfl, rfl, le_refl _⟩
  | interruptProbe =>
    simp only [hcall] at hs
    split at hs
    · cases hs
      exact ⟨rfl, rfl, le_refl _⟩
    · obtain ⟨m, -, rfl⟩ := Option.map_eq_some_iff.mp hs
      exact ⟨rfl, rfl, le_refl _⟩
  | interruptPublish =>
    simp only [hcall] at hs
    obtain ⟨m, -, rfl⟩ := Option.map_eq_some_iff.mp hs
    exact ⟨rfl, rfl, le_refl _⟩
  | getState l =>
    cases l with
    | nil =>
      simp only [hcall, Option.some.injEq] at hs
      exact hs ▸ ⟨rfl, rfl, le_refl _⟩
    | cons w rest =>
      simp only [hcall] at hs
      split at hs
      · exact callUnlock_kept hs
      · cases hs
        exact ⟨rfl, rfl, le_refl _⟩
  | readFront | readWaiting | readPending =>
    simp only [hcall] at hs
    split at hs
    · cases hs
      exact ⟨rfl, rfl, le_refl _⟩
    · exact callUnlock_kept hs
  | readReady =>
    simp only [hcall] at hs
    exact callUnlock_kept hs
  | unlock b =>
    simp only [hcall, callUnlocking] at hs
    obtain ⟨m, -, rfl⟩ := Option.map_eq_some_iff.mp hs
    exact ⟨rfl, rfl, le_refl _⟩

/-- The call of an operation. -/
theorem callOp_kept {o : Op T} (hs : callOp s ψ o = some s') : Kept s s' := by
  cases o with
  | post t | receiveSignal t | setDeadline t d =>
    simp only [callOp, Option.ite_none_right_eq_some, Option.some.injEq] at hs
    exact hs.2 ▸ ⟨rfl, rfl, le_refl _⟩
  | postWakeup t | postSignal t =>
    cases hs
    exact ⟨rfl, rfl, le_refl _⟩
  | isEmpty =>
    obtain ⟨m, -, rfl⟩ := Option.map_eq_some_iff.mp hs
    exact ⟨rfl, rfl, le_refl _⟩

omit [DecidableEq T] in
theorem callTrySchedule_kept (hs : callTrySchedule s ψ = some s') : Kept s s' := by
  obtain ⟨m, -, rfl⟩ := Option.map_eq_some_iff.mp hs
  exact ⟨rfl, rfl, le_refl _⟩

/-- A step of a worker which is not the scheduler. -/
theorem work_kept {spurious : Bool} (hw : (s.work ψ).schedules = false)
    (hs : work c s ψ spurious = some s') : Kept s s' := by
  unfold work at hs
  cases hwork : s.work ψ with
  | outside => simp [hwork] at hs
  | readTime | waitingTop _ | waitingCas _ _ | frontPop _ | pendingPop _ | pendingSleep _ _
  | waitingPush _ _ | pendingReady _ _ | transfer _ | transferring _ | flushing | checkReady
  | checkWaiting | sleepTimed _ | sleepingTimed _ | sleeping =>
    rw [hwork] at hw
    cases hw
  | attach | attaching | pop _ =>
    simp only [hwork] at hs
    obtain ⟨t, ht, rfl⟩ := Option.map_eq_some_iff.mp hs
    obtain ⟨q, -, rfl⟩ := Option.map_eq_some_iff.mp ht
    exact ⟨rfl, rfl, le_refl _⟩
  | start =>
    simp only [hwork] at hs
    obtain ⟨hp, hwait, hf⟩ := callTrySchedule_kept hs
    exact ⟨hp, hwait, hf⟩
  | trySchedule | unlock =>
    simp only [hwork, trySchedule, workUnlocking] at hs
    obtain ⟨m, -, rfl⟩ := Option.map_eq_some_iff.mp hs
    exact ⟨rfl, rfl, le_refl _⟩
  | storeIdle | readyPublish | readyProbe | execute _ _ | executeCas _ _ | executeStart _ _ =>
    simp only [hwork, Option.some.injEq] at hs
    exact hs ▸ ⟨rfl, rfl, le_refl _⟩
  | popping batch =>
    simp only [hwork, popping] at hs
    split at hs
    · obtain ⟨t, ht, rfl⟩ := Option.map_eq_some_iff.mp hs
      obtain ⟨q, -, rfl⟩ := Option.map_eq_some_iff.mp ht
      exact ⟨rfl, rfl, le_refl _⟩
    · obtain ⟨t, ht, rfl⟩ := Option.map_eq_some_iff.mp hs
      obtain ⟨q, -, rfl⟩ := Option.map_eq_some_iff.mp ht
      split <;> exact ⟨rfl, rfl, le_refl _⟩
  | callback batch t =>
    simp only [hwork, executed] at hs
    split at hs
    · cases hs
      exact ⟨rfl, rfl, le_refl _⟩
    · exact callTrySchedule_kept hs
  | waitReady =>
    simp only [hwork, Option.ite_none_right_eq_some, Option.some.injEq] at hs
    exact hs.2 ▸ ⟨rfl, rfl, le_refl _⟩

/-- A step is one of the scheduler in its round, or it keeps the lists and the place of the
scheduler in its loop. -/
theorem step_kept (hr : (machine c).Reachable s) {a : Action T Θ} (hs : step c s a = some s')
    (hw : (s.work θ).polling = true) :
    (∃ spurious, work c s θ spurious = some s') ∨
      Kept s s' ∧ s'.work θ = s.work θ ∧
        ∀ t ∈ s.waiting.data, (s'.task t).deadline = (s.task t).deadline := by
  have hsch : (s.work θ).schedules = true := by
    cases hwork : s.work θ <;> rw [hwork] at hw <;> first | rfl | cases hw
  have hother : ∀ {ψ}, (s.work ψ).schedules = false → ψ ≠ θ := by
    rintro ψ hψ rfl
    rw [hsch] at hψ
    cases hψ
  have hdeadline : Kept s s' →
      ∀ t ∈ s.waiting.data, (s'.task t).deadline = (s.task t).deadline := by
    intro hk t ht
    have hin : (life s' t).inHeap = true := by
      rw [(inv (hr.step hs)).inHeap_iff, hk.waiting]
      exact ht
    rcases step_life hr hs t with he | ⟨k, he⟩
    · exact congrArg Life.deadline he
    · exact he.deadline_of_inHeap ((inv hr).lives t) hin
  have hmay : ∀ {ψ}, (s.work ψ).mayCall = true → (s.work ψ).schedules = false := fun {ψ} h => by
    cases hwork : s.work ψ <;> rw [hwork] at h <;> first | rfl | cases h
  cases a with
  | tick d =>
    cases hs
    exact .inr ⟨⟨rfl, rfl, le_refl _⟩, rfl, fun _ _ => rfl⟩
  | op ψ o =>
    have hs' := hs
    simp only [step, Option.ite_none_right_eq_some] at hs'
    have hk := callOp_kept hs'.2
    have hm : Moves c s s' ψ := callOp_moves (role hr ψ) hs'.1 hs'.2
    exact .inr ⟨hk, hm.work_of_ne θ (hother (hmay ((role hr ψ).of_mayCall hs'.1).2.1)).symm,
      hdeadline hk⟩
  | call ψ spurious =>
    have hm := call_moves (role hr ψ) hs
    have hk := call_kept hs
    have hψ : (s.work ψ).mayCall = true := (role hr ψ).mayCall fun hc => by
      simp [step, TaskScheduler.call, hc] at hs
    exact .inr ⟨hk, hm.work_of_ne θ (hother (hmay hψ)).symm, hdeadline hk⟩
  | ret ψ =>
    have hs' := hs
    simp only [step] at hs'
    split at hs'
    · cases hs'
      exact .inr ⟨⟨rfl, rfl, le_refl _⟩, rfl, fun _ _ => rfl⟩
    · cases hs'
  | timeout ψ =>
    have hs' := hs
    simp only [step] at hs'
    split at hs'
    · rename_i d hwork
      have hψ : ψ = θ := scheduler_unique hr (by rw [hwork]; rfl) hsch
      subst hψ
      rw [hwork] at hw
      cases hw
    · cases hs'
  | work ψ spurious =>
    have hs' := hs
    simp only [step] at hs'
    split at hs'
    · rename_i hcall
      by_cases hψ : ψ = θ
      · exact .inl ⟨spurious, hψ ▸ hs'⟩
      · have hns : (s.work ψ).schedules = false := by
          by_contra hne
          exact hψ (scheduler_unique hr (by simpa using hne) hsch)
        have hrole := role hr ψ
        rw [hcall] at hrole
        have hk := work_kept hns hs'
        have hm := work_moves hcall hrole hs'
        exact .inr ⟨hk, hm.work_of_ne θ (Ne.symm hψ), hdeadline hk⟩
    · cases hs'

end Others

/-! ### What the scheduler does -/

section Counted

/-- What the numbers of a round are at each of its places, for a round which began in the state
`s₀` with the given time. -/
def Counted (c : Config T Θ) (s₀ : State T Θ) (ts n m : ℕ) (s : State T Θ) : Work T → Prop
  | .waitingTop r | .waitingCas r _ =>
    r.timestamp = ts ∧ r.batch = n ∧ n ≤ c.schedBatchSize - 1 ∧
      s.expired ts + n = s₀.expired ts ∧
      s₀.pending.length + s₀.front.length ≤ s.pending.length + s.front.length
  | .frontPop _ =>
    n = min (c.schedBatchSize - 1) (s₀.expired ts) ∧
      s₀.pending.length + s₀.front.length ≤ s.pending.length + s.front.length
  | .pendingPop r | .pendingSleep r _ | .waitingPush r _ | .pendingReady r _ =>
    n = min (c.schedBatchSize - 1) (s₀.expired ts) + r.batch ∧ r.batch ≤ c.schedBatchSize - 1 ∧
      s.pending.length + r.batch = m ∧ s₀.pending.length + s₀.front.length ≤ m
  | .transfer _ =>
    n = min (c.schedBatchSize - 1) (s₀.expired ts) + min (c.schedBatchSize - 1) m ∧
      s₀.pending.length + s₀.front.length ≤ m
  | _ => False

omit [DecidableEq T] [DecidableEq Θ] in
/-- The heap and the deadlines of what it holds decide which tasks have expired. -/
theorem expired_congr (hw : s'.waiting = s.waiting)
    (hd : ∀ t ∈ s.waiting.data, (s'.task t).deadline = (s.task t).deadline) (ts : ℕ) :
    s'.expired ts = s.expired ts := by
  unfold State.expired
  rw [hw]
  refine List.countP_congr fun t ht => ?_
  rw [hd t ht]

omit [DecidableEq T] [DecidableEq Θ] in
/-- The steps of the others do not disturb the counting. -/
theorem Counted.kept {ts n m : ℕ} (h : Counted c s₀ ts n m s (s.work θ)) (hk : Kept s s')
    (hd : ∀ t ∈ s.waiting.data, (s'.task t).deadline = (s.task t).deadline)
    (hw : s'.work θ = s.work θ) (hp : (s.work θ).polling = true) :
    Counted c s₀ ts (n + taken s s' θ) (found s s' θ m) s' (s'.work θ) := by
  have he := expired_congr hk.waiting hd ts
  have hf := hk.front
  have hlen : s'.pending.length = s.pending.length := congrArg List.length hk.pending
  have hcount : s.waiting.count - s'.waiting.count = 0 := by rw [hk.waiting, Nat.sub_self]
  rw [hw]
  unfold taken found
  cases hwork : s.work θ <;> rw [hwork] at h hp <;> try cases hp
  all_goals simp only [Counted] at h ⊢
  all_goals simp only [hcount, he, hlen, Nat.sub_self, Nat.add_zero]
  case waitingTop r | waitingCas r t =>
    obtain ⟨h₁, h₂, h₃, h₄, h₅⟩ := h
    exact ⟨h₁, h₂, h₃, h₄, by omega⟩
  case frontPop r => exact ⟨h.1, by omega⟩
  all_goals exact h

/-- The first loop takes a task off the top of the heap, or ends when there is no expired one or
the batch is full. -/
theorem Counted.waitingTop {ts n m : ℕ} {r : Round T} (hi : Inv s)
    (hwork : s.work θ = .waitingTop r) (h : Counted c s₀ ts n m s (s.work θ)) :
    Counted c s₀ ts (n + taken s (waitingTop c s θ r) θ)
      (found s (TaskScheduler.waitingTop c s θ r) θ m)
      (TaskScheduler.waitingTop c s θ r) ((TaskScheduler.waitingTop c s θ r).work θ) := by
  rw [hwork] at h
  obtain ⟨rfl, rfl, hle, he, hp⟩ := h
  unfold taken found
  rw [hwork]
  dsimp only
  unfold TaskScheduler.waitingTop
  cases htop : s.waiting.top with
  | none =>
    have hnil : s.waiting.data = [] := List.head?_eq_none_iff.mp htop
    have hzero : s.expired r.timestamp = 0 := by rw [State.expired, hnil, List.countP_nil]
    dsimp only
    rw [State.workAt_self]
    refine ⟨?_, hp⟩
    show r.batch + (s.waiting.count - s.waiting.count) = _
    omega
  | some t =>
    dsimp only
    by_cases hdue : r.batch + 1 < c.schedBatchSize ∧ (s.task t).deadline ≤ r.timestamp
    · obtain ⟨-, hperm⟩ := hi.heap.removeTop (above_trans s) (above_total s) htop
      have hlen : (s.waiting.removeTop s.above).1.count + 1 = s.waiting.count := by
        simpa [BinaryHeap.count] using hperm.length_eq
      have hexp : (s.waiting.removeTop s.above).1.data.countP
          (fun u => decide ((s.task u).deadline ≤ r.timestamp)) + 1 = s.expired r.timestamp := by
        rw [State.expired, ← hperm.countP_eq, List.countP_cons_of_pos]
        exact decide_eq_true hdue.2
      rw [if_pos hdue, State.workAt_self]
      have htask : ∀ u, ((s.modify t fun x => { x with isExpired := true }).task u).deadline =
          (s.task u).deadline := fun u => by
        simp only [State.modify, Function.update_apply]
        split
        · next hu => rw [hu]
        · rfl
      have hexp' : State.expired (({ s with waiting := (s.waiting.removeTop s.above).1 }.modify t
          fun x => { x with isExpired := true }).workAt θ
            (.waitingCas { r with batch := r.batch + 1 } t)) r.timestamp + 1 =
          s.expired r.timestamp := by
        rw [← hexp, State.expired]
        congr 1
        exact List.countP_congr fun u _ => by
          rw [decide_eq_true_iff, decide_eq_true_iff]
          exact (htask u) ▸ Iff.rfl
      refine ⟨rfl, ?_, ?_, ?_, hp⟩
      · show r.batch + 1 = r.batch + (s.waiting.count - (s.waiting.removeTop s.above).1.count)
        omega
      · show r.batch + (s.waiting.count - (s.waiting.removeTop s.above).1.count) ≤ _
        omega
      · show _ + (r.batch + (s.waiting.count - (s.waiting.removeTop s.above).1.count)) = _
        omega
    · rw [if_neg hdue, State.workAt_self]
      refine ⟨?_, hp⟩
      show r.batch + (s.waiting.count - s.waiting.count) = _
      by_cases hfull : r.batch + 1 < c.schedBatchSize
      · have hzero : s.expired r.timestamp = 0 := by
          rw [State.expired, List.countP_eq_zero]
          intro u hu
          have habove := hi.heap.top_above (above_trans s) (above_total s) htop hu
          simp only [State.above, decide_eq_true_eq] at habove ⊢
          omega
        omega
      · omega

/-- The status of an expired task decides whether it is dispatched at once. -/
theorem Counted.waitingCas {ts n m : ℕ} {r : Round T} {t : T} (hwork : s.work θ = .waitingCas r t)
    (h : Counted c s₀ ts n m s (s.work θ)) :
    Counted c s₀ ts n m (waitingCas s θ r t) ((TaskScheduler.waitingCas s θ r t).work θ) := by
  rw [hwork] at h
  unfold TaskScheduler.waitingCas
  dsimp only
  split
  · rw [State.workAt_self]
    obtain ⟨h₁, h₂, h₃, h₄, h₅⟩ := h
    refine ⟨h₁, h₂, h₃, ?_, h₅⟩
    rw [← h₄]
    have hd : ∀ u ∈ s.waiting.data,
        ((s.modify t fun x => { x with status := .ready }).task u).deadline =
          (s.task u).deadline := fun u _ => by
      simp only [State.modify, Function.update_apply]
      split
      · next hu => rw [hu]
      · rfl
    generalize hu : s.modify t (fun x => { x with status := Status.ready }) = u at hd
    have hw : u.waiting = s.waiting := by rw [← hu]; rfl
    exact congrArg (· + n) (expired_congr hw hd ts)
  · rw [State.workAt_self]
    exact h

omit [DecidableEq T] in
/-- The second loop begins with everything which is in the front queue by then. -/
theorem Counted.frontPop {ts n m : ℕ} {r : Round T} (hwork : s.work θ = .frontPop r)
    (h : Counted c s₀ ts n m s (s.work θ)) :
    Counted c s₀ ts n (frontPop s θ r).pending.length (TaskScheduler.frontPop s θ r)
      ((TaskScheduler.frontPop s θ r).work θ) := by
  rw [hwork] at h
  have hlen : (TaskScheduler.frontPop s θ r).pending.length =
      s.pending.length + s.front.length := by
    simp [TaskScheduler.frontPop, State.workAt]
  have hself : (TaskScheduler.frontPop s θ r).work θ = .pendingPop { r with batch := 0 } :=
    State.workAt_self ..
  rw [hself, hlen]
  exact ⟨h.1, Nat.zero_le _, hlen, h.2⟩

/-- The second loop takes the first pending task, or ends when there is none or the batch is
full. -/
theorem Counted.pendingPop {ts n m : ℕ} {r : Round T} (hwork : s.work θ = .pendingPop r)
    (h : Counted c s₀ ts n m s (s.work θ)) :
    Counted c s₀ ts (n + (s.pending.length - (pendingPop c s θ r).pending.length)) m
      (TaskScheduler.pendingPop c s θ r) ((TaskScheduler.pendingPop c s θ r).work θ) := by
  rw [hwork] at h
  obtain ⟨hn, hle, hm, hp⟩ := h
  unfold TaskScheduler.pendingPop
  cases hpend : s.pending with
  | nil =>
    have hzero : s.pending.length = 0 := by rw [hpend, List.length_nil]
    dsimp only
    rw [State.workAt_self]
    refine ⟨?_, hp⟩
    show n + ([].length - s.pending.length) = _
    simp only [List.length_nil, Nat.zero_sub]
    omega
  | cons t rest =>
    have hlen : s.pending.length = rest.length + 1 := by rw [hpend, List.length_cons]
    dsimp only
    split
    · rw [State.workAt_self]
      have hcount : n + ((t :: rest).length - rest.length) =
          min (c.schedBatchSize - 1) (s₀.expired ts) + (r.batch + 1) := by
        rw [List.length_cons]
        omega
      have hrest : rest.length + (r.batch + 1) = m := by omega
      have hbatch : r.batch + 1 ≤ c.schedBatchSize - 1 := by omega
      split
      · exact ⟨hcount, hbatch, hrest, hp⟩
      · exact ⟨hcount, hbatch, hrest, hp⟩
    · rw [State.workAt_self]
      refine ⟨?_, hp⟩
      show n + ((t :: rest).length - s.pending.length) = _
      rw [hpend, Nat.sub_self]
      omega

omit [DecidableEq T] [DecidableEq Θ] in
/-- Only the length of the pending list matters in the second loop. -/
theorem Counted.second {ts n m : ℕ} {u u' : State T Θ} {r r' : Round T}
    (h : Counted c s₀ ts n m u (.pendingPop r)) (hb : r'.batch = r.batch)
    (hp : u'.pending = u.pending) : Counted c s₀ ts n m u' (.pendingPop r') := by
  obtain ⟨h₁, h₂, h₃, h₄⟩ := h
  exact ⟨hb ▸ h₁, hb ▸ h₂, by rw [hb, hp, h₃], h₄⟩

theorem Counted.collect {ts n m : ℕ} {u : State T Θ} {r : Round T} {t : T}
    (h : Counted c s₀ ts n m u (.pendingPop r)) :
    Counted c s₀ ts n m (collect u θ r t) ((TaskScheduler.collect u θ r t).work θ) := by
  unfold TaskScheduler.collect
  rw [State.workAt_self]
  refine h.second rfl ?_
  dsimp only
  split <;> rfl

/-- A step of the scheduler in its round. -/
theorem Counted.work {ts n m : ℕ} {spurious : Bool} (hi : Inv s)
    (h : Counted c s₀ ts n m s (s.work θ)) (hp : (s.work θ).polling = true)
    (hs : work c s θ spurious = some s') :
    Counted c s₀ ts (n + taken s s' θ) (found s s' θ m) s' (s'.work θ) := by
  unfold TaskScheduler.work at hs
  cases hwork : s.work θ with
  | waitingTop r =>
    simp only [hwork, Option.some.injEq] at hs
    exact hs ▸ Counted.waitingTop hi hwork h
  | waitingCas r t =>
    simp only [hwork, Option.some.injEq] at hs
    simp only [taken, found, hwork, Nat.add_zero, ← hs]
    exact h.waitingCas hwork
  | frontPop r =>
    simp only [hwork, Option.some.injEq] at hs
    simp only [taken, found, hwork, Nat.add_zero, ← hs]
    exact h.frontPop hwork
  | pendingPop r =>
    simp only [hwork, Option.some.injEq] at hs
    simp only [taken, found, hwork, ← hs]
    exact h.pendingPop hwork
  | pendingSleep r t =>
    simp only [hwork, Option.some.injEq] at hs
    rw [hwork] at h
    simp only [taken, found, hwork, Nat.add_zero, ← hs]
    unfold pendingSleep
    dsimp only
    split
    · split <;> rw [State.workAt_self] <;> exact h
    · exact Counted.collect h
  | waitingPush r t =>
    simp only [hwork, Option.some.injEq] at hs
    rw [hwork] at h
    simp only [taken, found, hwork, Nat.add_zero, ← hs]
    unfold waitingPush
    rw [State.workAt_self]
    exact h
  | pendingReady r t =>
    simp only [hwork, Option.some.injEq] at hs
    rw [hwork] at h
    simp only [taken, found, hwork, Nat.add_zero, ← hs]
    exact Counted.collect h
  | _ =>
    rw [hwork] at hp
    cases hp

/-- The numbers of a round are right at every moment of it. -/
theorem Polls.counted {ts n m : ℕ} (h : Polls c θ s₀ n m s) (hr : (machine c).Reachable s₀)
    (hbegin : s₀.work θ = .waitingTop ⟨ts, 0, []⟩) : Counted c s₀ ts n m s (s.work θ) := by
  induction h with
  | start =>
    rw [hbegin]
    exact ⟨rfl, rfl, Nat.zero_le _, Nat.add_zero _, le_refl _⟩
  | step h hw hs ih =>
    have hr' := h.reachable hr
    obtain ⟨spurious, hwork⟩ | ⟨hk, hsame, hd⟩ := step_kept hr' hs hw
    · exact ih.work (inv hr') hw hwork
    · exact ih.kept hk hd hsame hw

end Counted

/-! ### A whole round -/

section Round

/-- Each of the two loops handles what it finds, but at most the bound minus one. -/
theorem round_handles {ts n m : ℕ} (hr : (machine c).Reachable s₀)
    (hbegin : s₀.work θ = .waitingTop ⟨ts, 0, []⟩) (h : Polls c θ s₀ n m s)
    (hend : (s.work θ).polling = false) :
    n = min (c.schedBatchSize - 1) (s₀.expired ts) + min (c.schedBatchSize - 1) m ∧
      s₀.pending.length + s₀.front.length ≤ m := by
  have hcount := h.counted hr hbegin
  cases hwork : s.work θ with
  | transfer l =>
    rw [hwork] at hcount
    exact hcount
  | waitingTop _ | waitingCas _ _ | frontPop _ | pendingPop _ | pendingSleep _ _
  | waitingPush _ _ | pendingReady _ _ =>
    rw [hwork] at hend
    cases hend
  | _ =>
    rw [hwork] at hcount
    exact False.elim hcount

/-- A round which finds something to do handles at least one task, and at most the bound, if and
only if the bound is at least 2 and the two loops together stay within it. -/
theorem round_progress_iff {queue : MultiConsumerQueue.Config T} {workers : List Θ} {ts n m : ℕ}
    (hr : (machine (.start queue workers)).Reachable s₀)
    (hbegin : s₀.work θ = .waitingTop ⟨ts, 0, []⟩) (h : Polls (.start queue workers) θ s₀ n m s)
    (hend : (s.work θ).polling = false) :
    ((s₀.front ≠ [] ∨ s₀.pending ≠ [] ∨ 0 < s₀.expired ts → 0 < n) ∧
        n ≤ (Config.start queue workers).schedBatchSize) ↔
      (s₀.front ≠ [] ∨ s₀.pending ≠ [] ∨ 0 < s₀.expired ts →
        2 ≤ (Config.start queue workers).schedBatchSize) ∧
      min ((Config.start queue workers).schedBatchSize - 1) (s₀.expired ts) +
        min ((Config.start queue workers).schedBatchSize - 1) m ≤
          (Config.start queue workers).schedBatchSize := by
  obtain ⟨hn, hm⟩ := round_handles hr hbegin h hend
  generalize (Config.start queue workers).schedBatchSize = b at *
  rw [← List.length_pos_iff, ← List.length_pos_iff]
  constructor
  · rintro ⟨hprogress, hbound⟩
    exact ⟨fun hsome => by have := hprogress hsome; omega, by omega⟩
  · rintro ⟨hprogress, hbound⟩
    exact ⟨fun hsome => by have := hprogress hsome; omega, by omega⟩

/-- The given number of steps of a worker, all of them within its round. -/
def pollFor (c : Config T Θ) (θ : Θ) : ℕ → State T Θ → Option (State T Θ)
  | 0, s => some s
  | k + 1, s =>
    if (s.work θ).polling then (step c s (.work θ false)).bind (pollFor c θ k) else none

/-- Such steps go on with the round. -/
theorem Polls.pollFor {n m k : ℕ} {s' : State T Θ} (h : Polls c θ s₀ n m s)
    (hsteps : TaskScheduler.pollFor c θ k s = some s') : ∃ n m, Polls c θ s₀ n m s' := by
  induction k generalizing n m s with
  | zero =>
    obtain rfl : s = s' := by simpa only [TaskScheduler.pollFor, Option.some.injEq] using hsteps
    exact ⟨n, m, h⟩
  | succ k ih =>
    simp only [TaskScheduler.pollFor, Option.ite_none_right_eq_some,
      Option.bind_eq_some_iff] at hsteps
    obtain ⟨hpolling, s₁, hstep, hsteps⟩ := hsteps
    exact ih (.step h hpolling hstep) hsteps

/-- One worker, and the bound of a round, which is also the size of the sub-queues. -/
def small (b : ℕ) (hb : 0 < b) : Config Unit Bool := .start ⟨b, hb, fun _ _ => some ()⟩ [true]

/-- The bound 1. -/
abbrev single : Config Unit Bool := small 1 Nat.one_pos

/-- The bound 2. -/
abbrev double : Config Unit Bool := small 2 Nat.two_pos

/-- The task is posted, and the worker begins a round. -/
def singleBegins : List (Action Unit Bool) :=
  Action.op false (.post ()) :: List.replicate 4 (.call false false) ++
    List.replicate 5 (Action.work true false)

/-- The first round of the worker, and whether it begins with an empty ready list and a posted
task, and is over after the given number of steps. -/
def firstRound (c : Config Unit Bool) (k : ℕ) : Option (Bool × Bool × Bool × ℕ) :=
  ((machine c).run (.new c 0) singleBegins).bind fun s₀ =>
    (pollFor c true k s₀).map fun s =>
      ((match s₀.work true with
        | .waitingTop r => decide (r.timestamp = 0 ∧ r.batch = 0 ∧ r.ready = [])
        | _ => false), decide (s₀.front ≠ []), (s.work true).polling, s₀.expired 0)

/-- The round of the worker with a small bound. -/
theorem small_round {b k : ℕ} {hb : 0 < b}
    (hrun : firstRound (small b hb) k = some (true, true, false, 0)) :
    ∃ s₀ s n m, (machine (small b hb)).Reachable s₀ ∧ s₀.work true = .waitingTop ⟨0, 0, []⟩ ∧
      s₀.front ≠ [] ∧ s₀.expired 0 = 0 ∧ Polls (small b hb) true s₀ n m s ∧
      (s.work true).polling = false := by
  simp only [firstRound, Option.bind_eq_some_iff, Option.map_eq_some_iff, Prod.mk.injEq,
    decide_eq_true_eq] at hrun
  obtain ⟨s₀, hr, s, hsteps, hbegin, hfront, hpolling, hexpired⟩ := hrun
  have hbegin' : s₀.work true = .waitingTop ⟨0, 0, []⟩ := by
    split at hbegin
    · rename_i r hwork
      obtain ⟨ts, b, l⟩ := r
      obtain ⟨rfl, rfl, rfl⟩ := of_decide_eq_true hbegin
      exact hwork
    · cases hbegin
  obtain ⟨n, m, hpolls⟩ := Polls.start.pollFor hsteps
  exact ⟨s₀, s, n, m, .of_run (.init ⟨0, rfl⟩) hr, hbegin', hfront, hexpired, hpolls, hpolling⟩

/-- The round with the bound 1. -/
theorem single_round : ∃ s₀ s n m, (machine single).Reachable s₀ ∧
    s₀.work true = .waitingTop ⟨0, 0, []⟩ ∧ s₀.front ≠ [] ∧ s₀.expired 0 = 0 ∧
    Polls single true s₀ n m s ∧ (s.work true).polling = false :=
  small_round (k := 3) (by decide +kernel)

/-- The round with the bound 2. -/
theorem double_round : ∃ s₀ s n m, (machine double).Reachable s₀ ∧
    s₀.work true = .waitingTop ⟨0, 0, []⟩ ∧ s₀.front ≠ [] ∧ s₀.expired 0 = 0 ∧
    Polls double true s₀ n m s ∧ (s.work true).polling = false :=
  small_round (k := 5) (by decide +kernel)

/-- A posted task is not touched by a round with the smallest bound. -/
theorem single_starves :
    ¬ ∀ (queue : MultiConsumerQueue.Config Unit) (workers : List Bool) (ts n m : ℕ)
      (s₀ s : State Unit Bool), workers ≠ [] → (machine (.start queue workers)).Reachable s₀ →
      s₀.work true = .waitingTop ⟨ts, 0, []⟩ → Polls (.start queue workers) true s₀ n m s →
      (s.work true).polling = false →
      (s₀.front ≠ [] ∨ s₀.pending ≠ [] ∨ 0 < s₀.expired ts → 0 < n) ∧
        n ≤ (Config.start queue workers).schedBatchSize := by
  intro hall
  obtain ⟨s₀, s, n, m, hr, hbegin, hfront, -, hpolls, hend⟩ := single_round
  have hpos := (hall _ [true] 0 n m s₀ s nofun hr hbegin hpolls hend).1 (.inl hfront)
  obtain ⟨hn, -⟩ := round_handles hr hbegin hpolls hend
  have hbound : single.schedBatchSize = 1 := rfl
  rw [hbound] at hn
  omega

/-- A posted task with the smallest bound, and with the next one, where the round handles it. -/
theorem single_progress_iff :
    (∃ s₀ s n m, (machine single).Reachable s₀ ∧
      s₀.work true = .waitingTop ⟨0, 0, []⟩ ∧ Polls single true s₀ n m s ∧
      (s.work true).polling = false ∧
      (((s₀.front ≠ [] ∨ s₀.pending ≠ [] ∨ 0 < s₀.expired 0 → 0 < n) ∧
          n ≤ single.schedBatchSize) ↔
        (s₀.front ≠ [] ∨ s₀.pending ≠ [] ∨ 0 < s₀.expired 0 → 2 ≤ single.schedBatchSize) ∧
        min (single.schedBatchSize - 1) (s₀.expired 0) + min (single.schedBatchSize - 1) m ≤
          single.schedBatchSize)) ∧
    ∃ s₀ s n m, (machine double).Reachable s₀ ∧
      s₀.work true = .waitingTop ⟨0, 0, []⟩ ∧ Polls double true s₀ n m s ∧
      (s.work true).polling = false ∧ s₀.front ≠ [] ∧ n = 1 ∧ n ≤ double.schedBatchSize := by
  constructor
  · obtain ⟨s₀, s, n, m, hr, hbegin, -, -, hpolls, hend⟩ := single_round
    exact ⟨s₀, s, n, m, hr, hbegin, hpolls, hend, round_progress_iff hr hbegin hpolls hend⟩
  · obtain ⟨s₀, s, n, m, hr, hbegin, hfront, hexpired, hpolls, hend⟩ := double_round
    have hbound : double.schedBatchSize = 2 := rfl
    have hwithin : min 1 (s₀.expired 0) + min 1 m ≤ 2 := by omega
    obtain ⟨hprogress, hn⟩ :=
      (round_progress_iff hr hbegin hpolls hend).2 ⟨fun _ => le_refl 2, hwithin⟩
    obtain ⟨hcount, -⟩ := round_handles hr hbegin hpolls hend
    have hpos := hprogress (.inl hfront)
    rw [hbound, hexpired] at hcount
    exact ⟨s₀, s, n, m, hr, hbegin, hpolls, hend, hfront, by omega, hn⟩

end Round

end TaskScheduler

end Serverbox
