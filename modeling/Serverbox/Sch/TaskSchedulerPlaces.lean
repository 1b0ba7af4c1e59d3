import Serverbox.Lib.Placement
import Serverbox.Sch.TaskLife
import Serverbox.Sch.TaskSchedulerRole

/-!
# The places of the tasks

The front queue, the pending list, the ready queue and the hands of the threads hold exactly the
tasks whose place they are, and every step of the scheduler does to each task what can happen in
its life.

## Main definitions

* `TaskScheduler.life`: the life of a task in a state of the scheduler.
* `TaskScheduler.State.contents`: the tasks which a place holds.
* `TaskScheduler.Knows`: what the scheduler knows of the task in its hands.
* `TaskScheduler.Inv`: the invariant.
* `TaskScheduler.Effect`: what a step does to the tasks.

## Main results

* `TaskScheduler.inv`: the invariant holds in every reachable state.
* `TaskScheduler.step_life`: a step does to each task nothing, or what can happen in its life.
-/

namespace Serverbox

/-- An element with an index is in the heap. -/
def BinaryHeap.holds {T : Type*} (h : BinaryHeap T) (x : T) : Bool := decide (0 ≤ h.index x)

theorem BinaryHeap.Indexed.holds_iff {T : Type*} [DecidableEq T] {h : BinaryHeap T}
    (hi : h.Indexed) {x : T} : h.holds x = true ↔ x ∈ h.data :=
  decide_eq_true_iff.trans hi.index_nonneg_iff

namespace TaskScheduler

variable {T Θ : Type*}

/-- The task which a thread is about to push to the front queue. -/
def Call.pushing : Call T Θ → List T
  | pushLoad t | pushCas t _ => [t]
  | _ => []

@[simp] theorem Call.pushing_idle : (idle : Call T Θ).pushing = [] := rfl

@[simp] theorem Call.pushing_pushLoad (t : T) : (pushLoad t : Call T Θ).pushing = [t] := rfl

@[simp] theorem Call.pushing_pushCas (t : T) (old : Option T) :
    (pushCas t old : Call T Θ).pushing = [t] := rfl

/-- The task which the scheduler has taken from the pending list. -/
def Work.taken : Work T → List T
  | pendingSleep _ t | pendingReady _ t => [t]
  | _ => []

/-- The tasks which are to be moved to the ready queue. -/
def Work.chosen : Work T → List T
  | waitingTop r | waitingCas r _ | frontPop r | pendingPop r | pendingSleep r _
  | waitingPush r _ | pendingReady r _ => r.ready
  | transfer l | transferring l => l
  | _ => []

/-- The task which a worker is about to execute. -/
def Work.popped : Work T → List T
  | execute _ t => [t]
  | _ => []

/-- The task whose status the worker is about to exchange. -/
def Work.released : Work T → List T
  | executeCas _ t => [t]
  | _ => []

/-- The task whose callback is about to start. -/
def Work.starting : Work T → List T
  | executeStart _ t => [t]
  | _ => []

/-- The tasks which a place holds. -/
def State.contents (s : State T Θ) : Place Θ → List T
  | .outside | .asleep => []
  | .pushing θ => (s.call θ).pushing
  | .front => s.front
  | .pending => s.pending
  | .taken θ => (s.work θ).taken
  | .chosen θ => (s.work θ).chosen
  | .ready => s.ready.pushed.drop s.ready.popped.length
  | .popped θ => (s.ready.consumer θ).hand ++ (s.work θ).popped
  | .released θ => (s.work θ).released
  | .starting θ => (s.work θ).starting

/-- The places whose tasks somebody holds. -/
def Place.Tracked : Place Θ → Prop
  | .outside | .asleep => False
  | _ => True

/-- The life of a task. -/
def life (s : State T Θ) (t : T) : Life Θ where
  place := s.place t
  status := (s.task t).status
  inScheduler := (s.task t).inScheduler
  deadline := (s.task t).deadline
  isExpired := (s.task t).isExpired
  inHeap := s.waiting.holds t
  woken := s.woken t
  moved := s.moved t

/-- What the scheduler knows of the task in its hands. -/
def Knows (f : T → Life Θ) (θ : Θ) : Work T → Prop
  | .waitingCas r t => (f t).Removed r.timestamp
  | .waitingPush _ t => (f t).Inserting
  | .pendingSleep r t => (f t).Taken θ r.timestamp true
  | .pendingReady r t => (f t).Taken θ r.timestamp false
  | _ => True

theorem Knows.of_not_schedules {f : T → Life Θ} {θ : Θ} {w : Work T} (hw : w.schedules = false) :
    Knows f θ w := by
  cases w <;> trivial

/-- The steps of the others do not change what the scheduler knows. -/
theorem Knows.step {f g : T → Life Θ} {θ : Θ} {w : Work T} (h : Knows f θ w)
    (ho : ∀ t, (f t).Ok) (hs : ∀ t, g t = f t ∨ Life.Step false (f t) (g t)) : Knows g θ w := by
  cases w with
  | waitingCas r t =>
    rcases hs t with he | hs
    · exact (congrArg (·.Removed r.timestamp) he).mpr h
    · exact Life.Removed.step h hs
  | waitingPush r t =>
    rcases hs t with he | hs
    · exact (congrArg (·.Inserting) he).mpr h
    · exact Life.Inserting.step h hs
  | pendingSleep r t =>
    rcases hs t with he | hs
    · exact (congrArg (·.Taken θ r.timestamp true) he).mpr h
    · exact Life.Taken.step h (ho t) hs
  | pendingReady r t =>
    rcases hs t with he | hs
    · exact (congrArg (·.Taken θ r.timestamp false) he).mpr h
    · exact Life.Taken.step h (ho t) hs
  | _ => trivial

/-- A task in the heap keeps its deadline. -/
theorem Life.Step.deadline_of_inHeap {k : Bool} {l l' : Life Θ} (h : Life.Step k l l') (ho : l.Ok)
    (hh : l'.inHeap = true) : l'.deadline = l.deadline := by
  cases h with
  | setDeadline d hp => exact absurd hp (ho.not_dispatched hh).2.2
  | executeStart θ hp => exact absurd hp ((ho.not_dispatched hh).2.1 θ)
  | _ => rfl

/-- The invariant. -/
structure Inv (s : State T Θ) : Prop where
  placed : Placed Place.Tracked s.place s.contents
  lives : ∀ t, (life s t).Ok
  heap : s.waiting.Wf s.above
  knows : ∀ θ, Knows (life s) θ (s.work θ)
  wakeup : ∀ θ t old, s.call θ = .wakeupCas t old → old = .pending ∨ old = .waiting

/-- What a step of the thread `θ` does to the tasks; `k` tells whether it is a step of the
scheduler. -/
structure Effect (k : Bool) (s s' : State T Θ) (θ : Θ) : Prop where
  scheduler : k = true → (s.work θ).schedules = true
  life : ∀ t, life s' t = life s t ∨ Life.Step k (life s t) (life s' t)
  placed : Placed Place.Tracked s'.place s'.contents
  heap : s'.waiting.Wf s.above
  knows : Knows (TaskScheduler.life s') θ (s'.work θ)
  wakeup : ∀ t old, s'.call θ = .wakeupCas t old → old = .pending ∨ old = .waiting

theorem Inv.inHeap_iff [DecidableEq T] {s : State T Θ} (h : Inv s) {t : T} :
    (life s t).inHeap = true ↔ t ∈ s.waiting.data :=
  h.heap.indexed.holds_iff

section Effect

variable [DecidableEq T] [DecidableEq Θ] {c : Config T Θ} {k : Bool} {s s' : State T Θ} {θ : Θ}

/-- The invariant is kept by what a step does. -/
theorem Inv.of_effect (h : Inv s) (hm : Moves c s s' θ) (he : Effect k s s' θ)
    (hu : ∀ θ' ≠ θ, (s.work θ).schedules = true → (s.work θ').schedules = false) : Inv s' where
  placed := he.placed
  lives t := by
    rcases he.life t with hl | hl
    · exact hl ▸ h.lives t
    · exact hl.ok (h.lives t)
  heap := by
    have hd : ∀ x ∈ s'.waiting.data, (s'.task x).deadline = (s.task x).deadline := fun x hx => by
      rcases he.life x with hl | hl
      · exact congrArg Life.deadline hl
      · exact hl.deadline_of_inHeap (h.lives x)
          (he.heap.indexed.holds_iff.mpr hx)
    exact he.heap.congr fun x hx y hy => by rw [State.above, State.above, hd x hx, hd y hy]
  knows θ' := by
    by_cases hne : θ' = θ
    · exact hne ▸ he.knows
    rw [hm.work_of_ne θ' hne]
    cases k with
    | false => exact (h.knows θ').step h.lives he.life
    | true => exact .of_not_schedules (hu θ' hne (he.scheduler rfl))
  wakeup θ' t old hcall := by
    by_cases hne : θ' = θ
    · exact he.wakeup t old (hne ▸ hcall)
    · exact h.wakeup θ' t old (hm.call_of_ne θ' hne ▸ hcall)

/-- What the thread `θ` and the containers hold is the same, except in two places. -/
structure Rest (s s' : State T Θ) (θ : Θ) (p q : Place Θ) : Prop where
  front : p ≠ .front → q ≠ .front → s'.front = s.front
  pending : p ≠ .pending → q ≠ .pending → s'.pending = s.pending
  ready : p ≠ .ready → q ≠ .ready → s'.ready.pushed.drop s'.ready.popped.length =
    s.ready.pushed.drop s.ready.popped.length
  pushing : p ≠ .pushing θ → q ≠ .pushing θ → (s'.call θ).pushing = (s.call θ).pushing
  taken : p ≠ .taken θ → q ≠ .taken θ → (s'.work θ).taken = (s.work θ).taken
  chosen : p ≠ .chosen θ → q ≠ .chosen θ → (s'.work θ).chosen = (s.work θ).chosen
  popped : p ≠ .popped θ → q ≠ .popped θ → (s'.ready.consumer θ).hand ++ (s'.work θ).popped =
    (s.ready.consumer θ).hand ++ (s.work θ).popped
  released : p ≠ .released θ → q ≠ .released θ → (s'.work θ).released = (s.work θ).released
  starting : p ≠ .starting θ → q ≠ .starting θ → (s'.work θ).starting = (s.work θ).starting

omit [DecidableEq T] in
theorem Rest.contents_eq {p q r : Place Θ} (h : Rest s s' θ p q) (hm : Moves c s s' θ)
    (hp : p ≠ r) (hq : q ≠ r) : s'.contents r = s.contents r := by
  cases r with
  | outside | asleep => rfl
  | front => exact h.front hp hq
  | pending => exact h.pending hp hq
  | ready => exact h.ready hp hq
  | pushing θ' =>
    by_cases hne : θ' = θ
    · subst hne
      exact h.pushing hp hq
    · exact congrArg Call.pushing (hm.call_of_ne θ' hne)
  | taken θ' =>
    by_cases hne : θ' = θ
    · subst hne
      exact h.taken hp hq
    · exact congrArg Work.taken (hm.work_of_ne θ' hne)
  | chosen θ' =>
    by_cases hne : θ' = θ
    · subst hne
      exact h.chosen hp hq
    · exact congrArg Work.chosen (hm.work_of_ne θ' hne)
  | popped θ' =>
    by_cases hne : θ' = θ
    · subst hne
      exact h.popped hp hq
    · simp only [State.contents, hm.work_of_ne θ' hne, hm.consumer_of_ne θ' hne]
  | released θ' =>
    by_cases hne : θ' = θ
    · subst hne
      exact h.released hp hq
    · exact congrArg Work.released (hm.work_of_ne θ' hne)
  | starting θ' =>
    by_cases hne : θ' = θ
    · subst hne
      exact h.starting hp hq
    · exact congrArg Work.starting (hm.work_of_ne θ' hne)

omit [DecidableEq T] in
/-- No task has moved. -/
theorem Inv.placed_rest (h : Inv s) (hm : Moves c s s' θ) (hr : Rest s s' θ .outside .outside)
    (hplace : s'.place = s.place) : Placed Place.Tracked s'.place s'.contents := by
  rw [hplace]
  refine h.placed.congr fun r ht => .of_eq (hr.contents_eq hm ?_ ?_) <;> rintro rfl <;> exact ht

/-- One task has moved. -/
theorem Inv.placed_move (h : Inv s) (hm : Moves c s s' θ) {t : T} {p q : Place Θ}
    (hp : s.place t = p) (hr : Rest s s' θ p q) (hplace : s'.place = Function.update s.place t q)
    (hne : p ≠ q) (hout : p.Tracked → (s.contents p).Perm (t :: s'.contents p))
    (hin : q.Tracked → (s'.contents q).Perm (t :: s.contents q)) :
    Placed Place.Tracked s'.place s'.contents := by
  subst hp
  rw [hplace]
  exact h.placed.move hne hout hin fun r _ hrp hrq => .of_eq (hr.contents_eq hm hrp.symm hrq.symm)

/-- The tasks, the heap and the lists have stood still. -/
structure Still (s s' : State T Θ) : Prop where
  task : s'.task = s.task
  front : s'.front = s.front
  pending : s'.pending = s.pending
  waiting : s'.waiting = s.waiting
  place : s'.place = s.place
  woken : s'.woken = s.woken
  moved : s'.moved = s.moved

omit [DecidableEq T] in
/-- A step which changes nothing about the tasks. -/
theorem Inv.quiet (h : Inv s) (hm : Moves c s s' θ) (hq : Still s s')
    (hr : Rest s s' θ .outside .outside) (hknows : Knows (life s) θ (s'.work θ))
    (hwakeup : ∀ t old, s'.call θ = .wakeupCas t old → old = .pending ∨ old = .waiting) :
    Effect false s s' θ := by
  have hlife : life s' = life s := funext fun t => by
    simp only [life, hq.task, hq.place, hq.waiting, hq.woken, hq.moved]
  exact {
    scheduler := nofun
    life := fun t => .inl (congrFun hlife t)
    placed := h.placed_rest hm hr hq.place
    heap := hq.waiting ▸ h.heap
    knows := hlife ▸ hknows
    wakeup := hwakeup }

omit [DecidableEq T] in
/-- A quiet step in a call. -/
theorem Inv.quiet_call (h : Inv s) (hm : Moves c s s' θ) (hq : Still s s')
    (hw : s'.work = s.work) (hr : s'.ready = s.ready)
    (hpush : (s'.call θ).pushing = (s.call θ).pushing) (hns : (s.work θ).schedules = false)
    (hwakeup : ∀ t old, s'.call θ = .wakeupCas t old → old = .pending ∨ old = .waiting) :
    Effect false s s' θ := by
  refine h.quiet hm hq ?_ (.of_not_schedules (hw ▸ hns)) hwakeup
  constructor <;> simp only [hw, hr, hpush, hq.front, hq.pending, implies_true]

omit [DecidableEq Θ] in
/-- What happens to one task and to nothing else. -/
theorem life_single {t : T} (hother : ∀ u ≠ t, life s' u = life s u)
    (hself : Life.Step k (life s t) (life s' t)) (u : T) :
    life s' u = life s u ∨ Life.Step k (life s u) (life s' u) := by
  by_cases hu : u = t
  · exact .inr (hu ▸ hself)
  · exact .inl (hother u hu)

/-- A task is posted. -/
theorem Inv.post (h : Inv s) {t : T} (hm : Moves c s (post s θ t) θ) (hcall : s.call θ = .idle)
    (hout : s.place t = .outside) (hwork : (s.work θ).schedules = false) :
    Effect false s (TaskScheduler.post s θ t) θ where
  scheduler := nofun
  life := by
    refine life_single (t := t) (fun u hu => ?_) ?_
    · simp [life, TaskScheduler.post, State.modify, State.move, State.callAt, State.assert, hu]
    · convert Life.Step.post (l := TaskScheduler.life s t) θ hout using 1
      simp [TaskScheduler.life, TaskScheduler.post, State.modify, State.move, State.callAt,
        State.assert]
  placed := by
    refine h.placed_move hm hout ?_ rfl (by simp) nofun fun _ => ?_
    · constructor <;>
        simp [TaskScheduler.post, State.modify, State.move, State.callAt, State.assert]
    · simp [TaskScheduler.post, State.contents, hcall]
  heap := h.heap
  knows := .of_not_schedules hwork
  wakeup t' old hc := by simp [TaskScheduler.post] at hc

/-- A task is pushed to the front queue. -/
theorem Inv.push (h : Inv s) {t : T} {old : Option T} {spurious : Bool}
    (hm : Moves c s (pushCas s θ t old spurious) θ) (hcall : s.call θ = .pushCas t old)
    (hns : (s.work θ).schedules = false) : Effect false s (pushCas s θ t old spurious) θ := by
  have hp : s.place t = .pushing θ :=
    (h.placed.mem_iff (.pushing θ) trivial t).mp (by simp [State.contents, hcall])
  unfold pushCas at hm ⊢
  by_cases hok : s.front.head? = old ∧ spurious = false
  · rw [if_pos hok] at hm ⊢
    have hpush : Call.pushing (if old.isNone then .frontProbe else .idle : Call T Θ) = [] := by
      split <;> rfl
    refine ⟨nofun, ?_, ?_, h.heap, .of_not_schedules hns, fun t' old' hc => ?_⟩
    · refine life_single (t := t) (fun u hu => ?_) ?_
      · simp [life, State.move, State.callAt, hu]
      · convert Life.Step.push (l := life s t) θ hp using 1
        simp [life, State.move, State.callAt]
    · refine h.placed_move hm hp ?_ rfl (by simp) (fun _ => ?_) fun _ => .refl _
      · constructor <;> simp [State.move, State.callAt]
      · simp only [State.contents, State.callAt_self, hpush]
        simp [hcall]
    · rw [State.callAt_self] at hc
      split at hc <;> cases hc
  · rw [if_neg hok] at hm ⊢
    refine h.quiet_call hm ⟨rfl, rfl, rfl, rfl, rfl, rfl, rfl⟩ rfl rfl ?_ hns fun t' old' hc => ?_
    · rw [State.callAt_self, hcall]
      rfl
    · rw [State.callAt_self] at hc
      cases hc

/-- A wakeup or a signal of a task which does not sleep. -/
theorem Inv.status (h : Inv s) {t : T} {st : Status} {w : T → Bool}
    (hm : Moves c s ({ s.modify t fun x => { x with status := st } with woken := w }.callAt θ .idle)
      θ) (hother : ∀ u ≠ t, w u = s.woken u)
    (hstep : Life.Step false (life s t) { life s t with status := st, woken := w t })
    (hcall : (s.call θ).pushing = []) (hns : (s.work θ).schedules = false) :
    Effect false s ({ s.modify t fun x => { x with status := st } with woken := w }.callAt θ .idle)
      θ where
  scheduler := nofun
  life := by
    refine life_single (t := t) (fun u hu => ?_) ?_
    · simp [TaskScheduler.life, State.modify, State.callAt, hu, hother u hu]
    · convert hstep using 1
      simp [TaskScheduler.life, State.modify, State.callAt]
  placed := by
    refine h.placed_rest hm ?_ rfl
    constructor <;> simp [State.modify, State.callAt, hcall]
  heap := h.heap
  knows := .of_not_schedules hns
  wakeup t' old hc := by simp at hc

/-- A wakeup or a signal of a sleeping task. -/
theorem Inv.statusAsleep (h : Inv s) {t : T} {st : Status} {w : T → Bool}
    (hm : Moves c s (({ s.modify t fun x => { x with status := st } with woken := w }.move t
      (.pushing θ)).callAt θ (.pushLoad t)) θ) (hother : ∀ u ≠ t, w u = s.woken u)
    (hwait : (s.task t).status = .waiting)
    (hstep : Life.Step false (life s t)
      { life s t with status := st, woken := w t, place := .pushing θ })
    (hcall : (s.call θ).pushing = []) (hns : (s.work θ).schedules = false) :
    Effect false s (({ s.modify t fun x => { x with status := st } with woken := w }.move t
      (.pushing θ)).callAt θ (.pushLoad t)) θ where
  scheduler := nofun
  life := by
    refine life_single (t := t) (fun u hu => ?_) ?_
    · simp [TaskScheduler.life, State.modify, State.move, State.callAt, hu, hother u hu]
    · convert hstep using 1
      simp [TaskScheduler.life, State.modify, State.move, State.callAt]
  placed := by
    refine h.placed_move hm ((h.lives t).asleep_iff.mpr hwait) ?_ rfl (by simp) nofun fun _ => ?_
    · constructor <;> simp [State.modify, State.move, State.callAt]
    · simp [State.contents, hcall]
  heap := h.heap
  knows := .of_not_schedules hns
  wakeup t' old hc := by simp at hc

omit [DecidableEq T] in
/-- The check before the exchange of a wakeup. -/
theorem Inv.wakeupCheck (h : Inv s) {t : T} (hm : Moves c s (wakeupCheck s θ t) θ)
    (hcall : (s.call θ).pushing = []) (hns : (s.work θ).schedules = false) :
    Effect false s (TaskScheduler.wakeupCheck s θ t) θ := by
  refine h.quiet_call hm ⟨rfl, rfl, rfl, rfl, rfl, rfl, rfl⟩ rfl rfl ?_ hns fun t' old hc => ?_
  · rw [TaskScheduler.wakeupCheck, State.callAt_self, hcall]
    split <;> rfl
  · rw [TaskScheduler.wakeupCheck, State.callAt_self] at hc
    split at hc
    · cases hc
    · rename_i hst
      cases hc
      cases hs : (s.task t).status <;> simp_all

omit [DecidableEq T] in
/-- A thread goes on in a call which names no task. -/
theorem Inv.quiet_to (h : Inv s) {t : State T Θ} {p : Call T Θ} (hm : Moves c s (t.callAt θ p) θ)
    (hq : Still s t) (hw : t.work = s.work) (hr : t.ready = s.ready)
    (hcall : (s.call θ).pushing = []) (hns : (s.work θ).schedules = false) (hp : p.pushing = [])
    (hp' : ∀ t old, p ≠ .wakeupCas t old) : Effect false s (t.callAt θ p) θ := by
  refine h.quiet_call hm ⟨hq.task, hq.front, hq.pending, hq.waiting, hq.place, hq.woken, hq.moved⟩
    hw hr ?_ hns fun t' old hc => ?_
  · rw [State.callAt_self, hcall, hp]
  · rw [State.callAt_self] at hc
    exact absurd hc (hp' t' old)

omit [DecidableEq T] in
/-- A thread in `IsEmpty` leaves the critical section. -/
theorem Inv.callUnlock (h : Inv s) {b : Bool} (hm : Moves c s s' θ)
    (hcall : (s.call θ).pushing = []) (hns : (s.work θ).schedules = false)
    (hs : callUnlock s θ b = some s') : Effect false s s' θ := by
  obtain ⟨m, -, rfl⟩ := Option.map_eq_some_iff.mp hs
  exact h.quiet_to hm ⟨rfl, rfl, rfl, rfl, rfl, rfl, rfl⟩ rfl rfl hcall hns rfl nofun

/-- A thread makes a step in a call. -/
theorem Inv.call (h : Inv s) (hm : Moves c s s' θ) (hns : (s.work θ).schedules = false)
    {spurious : Bool} (hs : call c s θ spurious = some s') : Effect false s s' θ := by
  unfold TaskScheduler.call at hs
  cases hcall : s.call θ with
  | idle | done _ => simp [hcall] at hs
  | pushLoad t =>
    simp only [hcall, Option.some.injEq] at hs
    subst hs
    refine h.quiet_call hm ⟨rfl, rfl, rfl, rfl, rfl, rfl, rfl⟩ rfl rfl ?_ hns fun t' old hc => ?_
    · rw [State.callAt_self, hcall]
      rfl
    · rw [State.callAt_self] at hc
      cases hc
  | pushCas t old =>
    simp only [hcall, Option.some.injEq] at hs
    subst hs
    exact h.push hm hcall hns
  | wakeupLoad t =>
    simp only [hcall, Option.some.injEq] at hs
    subst hs
    exact h.wakeupCheck hm (by rw [hcall]; rfl) hns
  | wakeupCas t old =>
    simp only [hcall, Option.some.injEq, wakeupCas] at hs
    subst hs
    split at hm <;> rename_i hok
    · rw [if_pos hok]
      have hother : ∀ u ≠ t, Function.update s.woken t true u = s.woken u :=
        fun u hu => Function.update_of_ne hu _ _
      by_cases hwait : old = .waiting
      · rw [if_pos hwait] at hm ⊢
        have hst : (s.task t).status = .waiting := hok.1.trans hwait
        refine h.statusAsleep hm hother hst ?_ (by rw [hcall]; rfl) hns
        rw [Function.update_self]
        exact .wakeupAsleep θ hst
      · rw [if_neg hwait] at hm ⊢
        have hst : (s.task t).status = .pending :=
          hok.1.trans ((h.wakeup θ t old hcall).resolve_right hwait)
        refine h.status hm hother ?_ (by rw [hcall]; rfl) hns
        rw [Function.update_self]
        exact .wakeup hst
    · rw [if_neg hok]
      exact h.wakeupCheck hm (by rw [hcall]; rfl) hns
  | signalExchange t =>
    simp only [hcall, Option.some.injEq, signalExchange] at hs
    subst hs
    by_cases hwait : (s.task t).status = .waiting
    · rw [if_pos hwait] at hm ⊢
      exact h.statusAsleep (w := s.woken) hm (fun _ _ => rfl) hwait (.signalAsleep θ hwait)
        (by rw [hcall]; rfl) hns
    · rw [if_neg hwait] at hm ⊢
      exact h.status (w := s.woken) hm (fun _ _ => rfl) (.signal hwait) (by rw [hcall]; rfl) hns
  | frontProbe | readyProbe _ =>
    simp only [hcall, Option.some.injEq] at hs
    subst hs
    refine h.quiet_to hm ⟨rfl, rfl, rfl, rfl, rfl, rfl, rfl⟩ rfl rfl (by rw [hcall]; rfl) hns ?_ ?_
    · split <;> rfl
    · split <;> rintro _ _ ⟨⟩
  | frontPublish | readyPublish _ =>
    simp only [hcall, Option.some.injEq] at hs
    subst hs
    exact h.quiet_to hm ⟨rfl, rfl, rfl, rfl, rfl, rfl, rfl⟩ rfl rfl (by rw [hcall]; rfl) hns rfl
      (by rintro _ _ ⟨⟩)
  | lock =>
    simp only [hcall, lock] at hs
    split at hs
    · cases hs
      exact h.quiet_to hm ⟨rfl, rfl, rfl, rfl, rfl, rfl, rfl⟩ rfl rfl (by rw [hcall]; rfl) hns rfl
        (by rintro _ _ ⟨⟩)
    · obtain ⟨m, -, rfl⟩ := Option.map_eq_some_iff.mp hs
      refine h.quiet_to hm ⟨rfl, rfl, rfl, rfl, rfl, rfl, rfl⟩ rfl rfl (by rw [hcall]; rfl) hns
        ?_ ?_
      · split <;> rfl
      · split <;> rintro _ _ ⟨⟩
  | interruptProbe =>
    simp only [hcall, interrupted] at hs
    split at hs
    · cases hs
      exact h.quiet_to hm ⟨rfl, rfl, rfl, rfl, rfl, rfl, rfl⟩ rfl rfl (by rw [hcall]; rfl) hns rfl
        (by rintro _ _ ⟨⟩)
    · obtain ⟨m, -, rfl⟩ := Option.map_eq_some_iff.mp hs
      exact h.quiet_to hm ⟨rfl, rfl, rfl, rfl, rfl, rfl, rfl⟩ rfl rfl (by rw [hcall]; rfl) hns rfl
        (by rintro _ _ ⟨⟩)
  | interruptPublish =>
    simp only [hcall, interrupted] at hs
    obtain ⟨m, -, rfl⟩ := Option.map_eq_some_iff.mp hs
    exact h.quiet_to hm ⟨rfl, rfl, rfl, rfl, rfl, rfl, rfl⟩ rfl rfl (by rw [hcall]; rfl) hns rfl
      (by rintro _ _ ⟨⟩)
  | getState rest =>
    simp only [hcall] at hs
    have hpush : (s.call θ).pushing = [] := by rw [hcall]; rfl
    cases rest with
    | nil =>
      cases hs
      exact h.quiet_to hm ⟨rfl, rfl, rfl, rfl, rfl, rfl, rfl⟩ rfl rfl hpush hns rfl
        (by rintro _ _ ⟨⟩)
    | cons w rest =>
      simp only at hs
      split at hs
      · exact h.callUnlock hm hpush hns hs
      · cases hs
        exact h.quiet_to hm ⟨rfl, rfl, rfl, rfl, rfl, rfl, rfl⟩ rfl rfl hpush hns rfl
          (by rintro _ _ ⟨⟩)
  | readFront | readWaiting | readPending =>
    simp only [hcall] at hs
    have hpush : (s.call θ).pushing = [] := by rw [hcall]; rfl
    split at hs
    · cases hs
      exact h.quiet_to hm ⟨rfl, rfl, rfl, rfl, rfl, rfl, rfl⟩ rfl rfl hpush hns rfl
        (by rintro _ _ ⟨⟩)
    · exact h.callUnlock hm hpush hns hs
  | readReady =>
    simp only [hcall] at hs
    exact h.callUnlock hm (by rw [hcall]; rfl) hns hs
  | unlock b =>
    simp only [hcall, callUnlocking] at hs
    obtain ⟨m, -, rfl⟩ := Option.map_eq_some_iff.mp hs
    refine h.quiet_to hm ⟨rfl, rfl, rfl, rfl, rfl, rfl, rfl⟩ rfl rfl (by rw [hcall]; rfl) hns ?_ ?_
    · split <;> rfl
    · split <;> rintro _ _ ⟨⟩

/-- A thread calls an operation. -/
theorem Inv.callOp (h : Inv s) {o : Op T} (hm : Moves c s s' θ) (hcall : s.call θ = .idle)
    (hns : (s.work θ).schedules = false) (hs : callOp s θ o = some s') : Effect false s s' θ := by
  have hout : ∀ {t}, s.mayPost t = true → s.place t = .outside := fun hmay => by
    unfold State.mayPost at hmay
    split at hmay
    · assumption
    · cases hmay
  have hpush : (s.call θ).pushing = [] := by rw [hcall]; rfl
  cases o with
  | post t =>
    simp only [TaskScheduler.callOp, Option.ite_none_right_eq_some, Option.some.injEq] at hs
    obtain ⟨hmay, rfl⟩ := hs
    exact h.post hm hcall (hout hmay) hns
  | postWakeup t | postSignal t =>
    cases hs
    exact h.quiet_to hm ⟨rfl, rfl, rfl, rfl, rfl, rfl, rfl⟩ rfl rfl hpush hns rfl
      (by rintro _ _ ⟨⟩)
  | receiveSignal t =>
    simp only [TaskScheduler.callOp, Option.ite_none_right_eq_some, Option.some.injEq] at hs
    obtain ⟨hmay, rfl⟩ := hs
    refine ⟨by rintro ⟨⟩, life_single (t := t) (fun u hu => ?_) ?_,
      h.placed_rest hm (by constructor <;> exact fun _ _ => rfl) rfl, h.heap, .of_not_schedules hns,
      fun t' old hc => ?_⟩
    · simp [life, receiveSignal, State.modify, State.assert, hu]
    · convert Life.Step.receive (l := life s t) (hout hmay) using 1
      simp [life, receiveSignal, State.modify, State.assert]
      rfl
    · have : s.call θ = .wakeupCas t' old := hc
      simp [hcall] at this
  | setDeadline t d =>
    simp only [TaskScheduler.callOp, Option.ite_none_right_eq_some, Option.some.injEq] at hs
    obtain ⟨hmay, rfl⟩ := hs
    refine ⟨by rintro ⟨⟩, life_single (t := t) (fun u hu => ?_) ?_,
      h.placed_rest hm (by constructor <;> exact fun _ _ => rfl) rfl, h.heap, .of_not_schedules hns,
      fun t' old hc => ?_⟩
    · simp [life, setDeadline, State.modify, State.assert, hu]
    · convert Life.Step.setDeadline (l := life s t) d (hout hmay) using 1
      simp [life, setDeadline, State.modify, State.assert]
    · have : s.call θ = .wakeupCas t' old := hc
      simp [hcall] at this
  | isEmpty =>
    obtain ⟨m, -, rfl⟩ := Option.map_eq_some_iff.mp hs
    exact h.quiet_to hm ⟨rfl, rfl, rfl, rfl, rfl, rfl, rfl⟩ rfl rfl hpush hns rfl
      (by rintro _ _ ⟨⟩)

/-- The tasks which a worker holds. -/
def Work.hands (w : Work T) : List T × List T × List T × List T × List T :=
  (w.taken, w.chosen, w.popped, w.released, w.starting)

omit [DecidableEq T] [DecidableEq Θ] in
theorem Work.hands_eq {w : Work T} {l₁ l₂ l₃ l₄ l₅ : List T} (h : w.hands = (l₁, l₂, l₃, l₄, l₅)) :
    w.taken = l₁ ∧ w.chosen = l₂ ∧ w.popped = l₃ ∧ w.released = l₄ ∧ w.starting = l₅ := by
  simpa only [Work.hands, Prod.mk.injEq] using h

omit [DecidableEq T] in
/-- A quiet step of a worker. -/
theorem Inv.quiet_work (h : Inv s) {t : State T Θ} {w : Work T} (hm : Moves c s (t.workAt θ w) θ)
    (hq : Still s t) (hc : t.call = s.call) (hr : t.ready = s.ready) (hidle : s.call θ = .idle)
    (hhands : w.hands = (s.work θ).hands) (hknows : Knows (life s) θ w) :
    Effect false s (t.workAt θ w) θ := by
  have hself : (t.workAt θ w).work θ = w := State.workAt_self ..
  have hcall : (t.workAt θ w).call θ = .idle := (congrFun hc θ).trans hidle
  obtain ⟨h₁, h₂, h₃, h₄, h₅⟩ := Work.hands_eq hhands
  refine h.quiet hm ⟨hq.task, hq.front, hq.pending, hq.waiting, hq.place, hq.woken, hq.moved⟩ ?_
    (by rwa [hself]) fun t' old hc => ?_
  · have hready : (t.workAt θ w).ready = s.ready := hr
    exact {
      front := fun _ _ => hq.front
      pending := fun _ _ => hq.pending
      ready := fun _ _ => by rw [hready]
      pushing := fun _ _ => by rw [hcall, hidle]
      taken := fun _ _ => by rw [hself, h₁]
      chosen := fun _ _ => by rw [hself, h₂]
      popped := fun _ _ => by rw [hself, hready, h₃]
      released := fun _ _ => by rw [hself, h₄]
      starting := fun _ _ => by rw [hself, h₅] }
  · rw [hcall] at hc
    cases hc

omit [DecidableEq T] [DecidableEq Θ] in
/-- The life of a task which a step does not touch. -/
theorem life_congr {u : T} (ht : s'.task u = s.task u) (hp : s'.place u = s.place u)
    (hh : s'.waiting.holds u = s.waiting.holds u) (hw : s'.woken u = s.woken u)
    (hm : s'.moved u = s.moved u) : life s' u = life s u := by
  simp only [life, ht, hp, hh, hw, hm]

/-- An element leaves the heap, and the other ones stay. -/
theorem holds_of_perm {h h' : BinaryHeap T} (hi : h.Indexed) (hi' : h'.Indexed) {t : T}
    (hperm : (t :: h'.data).Perm h.data) :
    h'.holds t = false ∧ ∀ u ≠ t, h'.holds u = h.holds u := by
  constructor
  · rw [← Bool.not_eq_true, hi'.holds_iff]
    exact (List.nodup_cons.mp (hperm.nodup_iff.mpr hi.nodup)).1
  · intro u hu
    rw [Bool.eq_iff_iff, hi'.holds_iff, hi.holds_iff, ← hperm.mem_iff, List.mem_cons]
    exact ⟨.inr, fun h => h.resolve_left hu⟩

omit [DecidableEq T] [DecidableEq Θ] in
theorem above_trans (s : State T Θ) ⦃a b d : T⦄ (h₁ : s.above a b = true)
    (h₂ : s.above b d = true) : s.above a d = true := by
  simp only [State.above, decide_eq_true_eq] at *
  omega

omit [DecidableEq T] [DecidableEq Θ] in
theorem above_total (s : State T Θ) (a b : T) (h : s.above a b = false) : s.above b a = true := by
  simp only [State.above, decide_eq_true_eq, decide_eq_false_iff_not] at *
  omega

/-- The top of the heap, whose deadline has come, is removed. -/
theorem Inv.removeTop (h : Inv s) {r : Round T} {t : T}
    (hm : Moves c s (({ s with waiting := (s.waiting.removeTop s.above).1 }.modify t fun x =>
      { x with isExpired := true }).workAt θ (.waitingCas r t)) θ)
    (hidle : s.call θ = .idle) (hschedules : (s.work θ).schedules = true)
    (hu : ∀ θ' ≠ θ, (s.work θ').schedules = false) (htaken : (s.work θ).taken = [])
    (hhands : (Work.waitingCas r t).hands = (s.work θ).hands)
    (ht : s.waiting.top = some t) (hd : (s.task t).deadline ≤ r.timestamp) :
    Effect true s (({ s with waiting := (s.waiting.removeTop s.above).1 }.modify t fun x =>
      { x with isExpired := true }).workAt θ (.waitingCas r t)) θ := by
  obtain ⟨hwf, hperm⟩ := h.heap.removeTop (above_trans s) (above_total s) ht
  obtain ⟨hself, hother⟩ := holds_of_perm h.heap.indexed hwf.indexed hperm
  have hin : (life s t).inHeap = true := h.inHeap_iff.mpr (hperm.mem_iff.mp (List.mem_cons_self ..))
  obtain ⟨hwait, hst, -⟩ := (h.lives t).heap hin
  have hlife : life (({ s with waiting := (s.waiting.removeTop s.above).1 }.modify t fun x =>
      { x with isExpired := true }).workAt θ (.waitingCas r t)) t =
      { life s t with inHeap := false, isExpired := true } := by
    simp [life, State.modify, State.workAt, hself]
  obtain ⟨h₁, h₂, h₃, h₄, h₅⟩ := Work.hands_eq hhands
  refine ⟨fun _ => hschedules, life_single (t := t) (fun u hne => ?_) (hlife ▸ .removeTop hin),
    h.placed_rest hm ?_ rfl, hwf, ?_, fun t' old hc => ?_⟩
  · exact life_congr (Function.update_of_ne hne _ _) rfl (hother u hne) rfl rfl
  · constructor <;> simp [State.modify, State.workAt, h₁, h₂, h₃, h₄, h₅]
  · rw [State.workAt_self]
    simp only [Knows, hlife]
    refine ⟨?_, hst, rfl, rfl, hd⟩
    cases hp : s.place t with
    | asleep => exact .inl hp
    | pushing θ' => exact .inr (.inl ⟨θ', hp⟩)
    | front => exact .inr (.inr (.inl hp))
    | pending => exact .inr (.inr (.inr hp))
    | taken θ' =>
      -- nobody has taken a task while the scheduler is here
      have hmem : t ∈ (s.work θ').taken := (h.placed.mem_iff (.taken θ') trivial t).mpr hp
      by_cases hne : θ' = θ
      · subst hne
        simp [htaken] at hmem
      · have := hu θ' hne
        cases hw : s.work θ' <;> simp [hw, Work.taken, Work.schedules] at hmem this
    | outside | chosen _ | ready | popped _ | released _ | starting _ =>
      simp [life, hp, Place.mayWait] at hwait
  · have : s.call θ = .wakeupCas t' old := hc
    simp [hidle] at this

/-- The exchange of the status of an expired task. -/
theorem Inv.waitingCas (h : Inv s) {r : Round T} {t : T} (hwork : s.work θ = .waitingCas r t)
    (hm : Moves c s (waitingCas s θ r t) θ) (hidle : s.call θ = .idle) :
    ∃ k, Effect k s (TaskScheduler.waitingCas s θ r t) θ := by
  have hknows := h.knows θ
  rw [hwork] at hknows
  obtain ⟨-, -, hheap, hexp, hdl⟩ := hknows
  unfold TaskScheduler.waitingCas at hm ⊢
  by_cases hst : (s.task t).status = .waiting
  · simp only [hst, if_true] at hm ⊢
    refine ⟨true, fun _ => by rw [hwork]; rfl, life_single (t := t) (fun u hne => ?_) ?_, ?_,
      h.heap, ?_, fun t' old hc => ?_⟩
    · exact life_congr (Function.update_of_ne hne _ _) (Function.update_of_ne hne _ _) rfl rfl
        (Function.update_of_ne hne _ _)
    · convert Life.Step.expire (l := life s t) θ r.timestamp hst hexp hheap hdl using 1
      simp [life, choose, State.modify, State.move, State.workAt]
    · refine h.placed_move hm ((h.lives t).asleep_iff.mpr hst) ?_ rfl (by simp)
        (by rintro ⟨⟩) fun _ => ?_
      · constructor <;> simp [choose, State.modify, State.move, State.workAt, hwork, Work.taken,
          Work.popped, Work.released, Work.starting]
      · simp only [State.contents, State.workAt_self, hwork, Work.chosen]
        exact List.perm_append_singleton _ _
    · rw [State.workAt_self]
      trivial
    · have : s.call θ = .wakeupCas t' old := hc
      simp [hidle] at this
  · simp only [hst, if_false] at hm ⊢
    exact ⟨false, h.quiet_work hm ⟨rfl, rfl, rfl, rfl, rfl, rfl, rfl⟩ rfl rfl hidle
      (by rw [hwork]; rfl) trivial⟩

omit [DecidableEq T] in
/-- The tasks of the front queue are appended to the pending list. -/
theorem Inv.frontPop (h : Inv s) {r : Round T} (hwork : s.work θ = .frontPop r)
    (hm : Moves c s (frontPop s θ r) θ) (hidle : s.call θ = .idle) :
    Effect true s (TaskScheduler.frontPop s θ r) θ := by
  classical
  have hplace : ∀ t, (TaskScheduler.frontPop s θ r).place t =
      if s.place t = .front then .pending else s.place t := fun t => by
    simp only [TaskScheduler.frontPop, State.workAt]
    cases s.place t <;> simp
  refine ⟨fun _ => by rw [hwork]; rfl, fun t => ?_, ?_, h.heap, ?_, fun t' old hc => ?_⟩
  · by_cases hf : s.place t = .front
    · right
      convert Life.Step.drain (l := life s t) hf using 1
      simp only [life, hplace, if_pos hf]
      rfl
    · exact .inl (life_congr rfl ((hplace t).trans (if_neg hf)) rfl rfl rfl)
  · have hrest : Rest s (TaskScheduler.frontPop s θ r) θ .front .pending := by
      constructor <;> simp [TaskScheduler.frontPop, State.workAt, hwork, Work.taken, Work.chosen,
        Work.popped, Work.released, Work.starting]
    rw [funext hplace]
    refine h.placed.pour trivial trivial (by simp) rfl ?_ fun p _ hp hq =>
      .of_eq (hrest.contents_eq hm hp.symm hq.symm)
    exact (List.reverse_perm s.front).append_left s.pending
  · have : (TaskScheduler.frontPop s θ r).work θ = .pendingPop { r with batch := 0 } :=
      State.workAt_self ..
    rw [this]
    trivial
  · have : s.call θ = .wakeupCas t' old := hc
    simp [hidle] at this

/-- The first pending task is taken. -/
theorem Inv.pendingPop (h : Inv s) {r : Round T} (hwork : s.work θ = .pendingPop r)
    (hm : Moves c s (pendingPop c s θ r) θ) (hidle : s.call θ = .idle) :
    ∃ k, Effect k s (TaskScheduler.pendingPop c s θ r) θ := by
  unfold TaskScheduler.pendingPop at hm ⊢
  cases hpend : s.pending with
  | nil =>
    simp only [hpend] at hm ⊢
    exact ⟨false, h.quiet_work hm ⟨rfl, rfl, rfl, rfl, rfl, rfl, rfl⟩ rfl rfl hidle
      (by rw [hwork]; rfl) trivial⟩
  | cons t rest =>
    simp only [hpend] at hm ⊢
    by_cases hbatch : r.batch + 1 < c.schedBatchSize
    swap
    · simp only [hbatch, if_false] at hm ⊢
      exact ⟨false, h.quiet_work hm ⟨rfl, rfl, rfl, rfl, rfl, rfl, rfl⟩ rfl rfl hidle
        (by rw [hwork]; rfl) trivial⟩
    simp only [hbatch, if_true] at hm ⊢
    have hp : s.place t = .pending :=
      (h.placed.mem_iff .pending trivial t).mp (by simp [State.contents, hpend])
    generalize hsleep : decide (r.timestamp < (s.task t).deadline) = sleep at hm ⊢
    generalize hw : (if sleep = true then
      Work.pendingSleep { r with batch := r.batch + 1 } t
      else .pendingReady { r with batch := r.batch + 1 } t) = w at hm ⊢
    have hhands : w.taken = [t] ∧ w.chosen = r.ready ∧ w.popped = [] ∧ w.released = [] ∧
        w.starting = [] := by
      subst hw
      cases sleep <;> exact ⟨rfl, rfl, rfl, rfl, rfl⟩
    have hlife : life ((({ s with pending := rest }.modify t fun x =>
        { x with isExpired := !sleep }).move t (.taken θ)).workAt θ w) t =
        { life s t with place := .taken θ, isExpired := !sleep } := by
      simp [life, State.modify, State.move, State.workAt]
    refine ⟨true, fun _ => by rw [hwork]; rfl, life_single (t := t) (fun u hne => ?_) ?_, ?_,
      h.heap, ?_, fun t' old hc => ?_⟩
    · exact life_congr (Function.update_of_ne hne _ _) (Function.update_of_ne hne _ _) rfl rfl rfl
    · rw [hlife, ← hsleep]
      exact .take θ r.timestamp hp
    · obtain ⟨h₁, h₂, h₃, h₄, h₅⟩ := Work.hands_eq (show (s.work θ).hands =
        ([], r.ready, [], [], []) by rw [hwork]; rfl)
      refine h.placed_move hm hp ?_ rfl (by simp) (fun _ => .of_eq hpend) fun _ => ?_
      · constructor <;> simp [State.modify, State.move, State.workAt, hhands, h₂, h₃, h₄, h₅]
      · simp [State.contents, hhands, h₁]
    · rw [State.workAt_self, ← hw]
      cases sleep with
      | true =>
        rw [if_pos rfl]
        exact (congrArg (·.Taken θ r.timestamp true) hlife).mpr ⟨rfl, rfl, hsleep.symm⟩
      | false =>
        rw [if_neg (by simp)]
        exact (congrArg (·.Taken θ r.timestamp false) hlife).mpr ⟨rfl, rfl, hsleep.symm⟩
    · have : s.call θ = .wakeupCas t' old := hc
      simp [hidle] at this

/-- The scheduler appends a task to its list of ready tasks. -/
theorem Inv.collect (h : Inv s) {r : Round T} {t : T} {u : State T Θ} (st : Status)
    (htask : u.task = Function.update s.task t { s.task t with status := st })
    (hu : Still { s with task := u.task } u) (hc : u.call = s.call) (hr : u.ready = s.ready)
    (hm : Moves c s (collect u θ r t) θ) (hidle : s.call θ = .idle)
    (hschedules : (s.work θ).schedules = true) (hp : s.place t = .taken θ)
    (hhands : (s.work θ).hands = ([t], r.ready, [], [], []))
    (hstep : Life.Step true (life s t) { life s t with
      place := .chosen θ, status := st, inHeap := false
      moved := some ((s.task t).deadline, r.timestamp) }) :
    Effect true s (TaskScheduler.collect u θ r t) θ := by
  have habove : u.above = s.above := by
    funext a b
    have hd : ∀ x, (u.task x).deadline = (s.task x).deadline := fun x => by
      rw [htask, Function.update_apply]
      split
      · rename_i hx
        rw [hx]
      · rfl
    simp only [State.above, hd]
  obtain ⟨hp', f, heq, hwf, hself, hother⟩ : ∃ hp' f,
      TaskScheduler.collect u θ r t = (choose { u with waiting := hp', failed := f } θ r t).workAt θ
        (.pendingPop { r with ready := r.ready ++ [t] }) ∧ hp'.Wf s.above ∧
      hp'.holds t = false ∧ ∀ x ≠ t, hp'.holds x = s.waiting.holds x := by
    unfold TaskScheduler.collect
    have hw : u.waiting = s.waiting := hu.waiting
    by_cases hin : 0 ≤ u.waiting.index t
    · have hmem : t ∈ s.waiting.data := h.heap.indexed.index_nonneg_iff.mp (hw ▸ hin)
      obtain ⟨hwf, hperm, -⟩ := h.heap.remove (above_trans s) (above_total s) hmem
      obtain ⟨hself, hother⟩ := holds_of_perm h.heap.indexed hwf.indexed hperm
      refine ⟨_, _, by rw [if_pos hin]; rfl, ?_⟩
      rw [habove, hw]
      exact ⟨hwf, hself, hother⟩
    · refine ⟨s.waiting, u.failed, by rw [if_neg hin, ← hw], h.heap, ?_, fun _ _ => rfl⟩
      exact decide_eq_false (hw ▸ hin)
  rw [heq] at hm ⊢
  obtain ⟨h₁, h₂, h₃, h₄, h₅⟩ := Work.hands_eq hhands
  have hut : ∀ x,
      u.task x = if x = t then { s.task t with status := st } else s.task x := fun x => by
    rw [htask, Function.update_apply]
  have hplace : u.place = s.place := hu.place
  have hwoken : u.woken = s.woken := hu.woken
  have hmoved : u.moved = s.moved := hu.moved
  have hfront : u.front = s.front := hu.front
  have hpend : u.pending = s.pending := hu.pending
  refine ⟨fun _ => hschedules, life_single (t := t) (fun x hne => ?_) ?_, ?_, hwf, ?_,
    fun t' old hc' => ?_⟩
  · simp [life, choose, State.move, State.workAt, hut, hplace, hwoken, hmoved, hother x hne, hne]
  · convert hstep using 1
    simp [life, choose, State.move, State.workAt, hut, hwoken, hself]
  · refine h.placed_move (q := .chosen θ) hm hp ?_
      (by simp [choose, State.move, State.workAt, hplace]) (by simp) (fun _ => ?_) fun _ => ?_
    · obtain ⟨-, -, g₃, g₄, g₅⟩ := Work.hands_eq (show (Work.pendingPop { r with
        ready := r.ready ++ [t] }).hands = ([], r.ready ++ [t], [], [], []) from rfl)
      constructor <;> simp [choose, State.move, State.workAt, h₃, h₄, h₅, g₃, g₄, g₅, hfront, hpend,
        hr, hc]
    · simp only [State.contents, State.workAt_self, h₁]
      exact .refl _
    · simp only [State.contents, State.workAt_self, h₂]
      exact List.perm_append_singleton _ _
  · rw [State.workAt_self]
    trivial
  · have : u.call θ = .wakeupCas t' old := hc'
    rw [hc, hidle] at this
    cases this

/-- The exchange of the status of a task whose deadline is in the future. -/
theorem Inv.pendingSleep (h : Inv s) {r : Round T} {t : T} (hwork : s.work θ = .pendingSleep r t)
    (hm : Moves c s (pendingSleep s θ r t) θ) (hidle : s.call θ = .idle) :
    Effect true s (TaskScheduler.pendingSleep s θ r t) θ := by
  have hknows := h.knows θ
  rw [hwork] at hknows
  obtain ⟨hp, hexp, hdl⟩ := hknows
  have hin : (life s t).status = .pending → (life s t).inHeap = false := fun hst => by
    by_contra hin
    exact ((h.lives t).heap (by simpa using hin)).2.1 hst
  unfold TaskScheduler.pendingSleep at hm ⊢
  by_cases hst : (s.task t).status = .pending
  · simp only [hst, if_true] at hm ⊢
    have hlife : ∀ (f : Bool) (w : Work T), life (({ s.modify t fun x =>
        { x with status := .waiting } with failed := f }.move t .asleep).workAt θ w) t =
        { life s t with place := .asleep, status := .waiting } := fun f w => by
      simp [life, State.modify, State.move, State.workAt]
    obtain ⟨f, w, heq, hw, hkn⟩ : ∃ f w, (if (s.task t).deadline ≠ infinite then
        ((s.modify t fun x => { x with status := .waiting }).move t .asleep).workAt θ
          (.waitingPush r t)
        else (((s.modify t fun x => { x with status := .waiting }).move t .asleep).assert
          (decide (s.waiting.index t = -1))).workAt θ (.pendingPop r)) =
        ({ s.modify t fun x => { x with status := .waiting } with failed := f }.move t
          .asleep).workAt θ w ∧ w.hands = ([], r.ready, [], [], []) ∧
        Knows (life (({ s.modify t fun x => { x with status := .waiting } with failed := f }.move t
          .asleep).workAt θ w)) θ w := by
      by_cases hinf : (s.task t).deadline ≠ infinite
      · refine ⟨s.failed, _, by rw [if_pos hinf]; rfl, rfl, ?_⟩
        exact (congrArg Life.Inserting (hlife _ _)).mpr ⟨.inl rfl, by simp, hin hst, hinf⟩
      · exact ⟨s.failed || !decide (s.waiting.index t = -1), .pendingPop r,
          by rw [if_neg hinf]; rfl, rfl, trivial⟩
    rw [heq] at hm ⊢
    obtain ⟨h₁, h₂, h₃, h₄, h₅⟩ := Work.hands_eq (show (s.work θ).hands =
      ([t], r.ready, [], [], []) by rw [hwork]; rfl)
    obtain ⟨g₁, g₂, g₃, g₄, g₅⟩ := Work.hands_eq hw
    refine ⟨fun _ => by rw [hwork]; rfl, life_single (t := t) (fun u hne => ?_)
      (hlife f w ▸ .sleep θ hp hst), ?_, h.heap, ?_, fun t' old hc => ?_⟩
    · exact life_congr (Function.update_of_ne hne _ _) (Function.update_of_ne hne _ _) rfl rfl rfl
    · refine h.placed_move hm hp ?_ rfl (by simp) (fun _ => ?_) (by rintro ⟨⟩)
      · constructor <;> simp [State.modify, State.move, State.workAt, h₂, h₃, h₄, h₅, g₂, g₃, g₄,
          g₅]
      · simp only [State.contents, State.workAt_self, h₁, g₁]
        exact .refl _
    · rw [State.workAt_self]
      exact hkn
    · have : s.call θ = .wakeupCas t' old := hc
      simp [hidle] at this
  · simp only [hst, if_false] at hm ⊢
    refine h.collect (s.task t).status ?_ ⟨rfl, rfl, rfl, rfl, rfl, rfl, rfl⟩ rfl rfl hm hidle
      (by rw [hwork]; rfl) hp (by rw [hwork]; rfl) ?_
    · exact (Function.update_eq_self t s.task).symm
    · convert Life.Step.choose (l := life s t) θ r.timestamp hp ?_ ?_ using 1
      · simp [life, hst]
      · have hlt : r.timestamp < (s.task t).deadline := of_decide_eq_true hdl.symm
        rw [hexp]
        exact (decide_eq_false (Nat.not_le.mpr hlt)).symm
      · exact fun hpend => absurd hpend hst

/-- A sleeping task is pushed to the heap. -/
theorem Inv.waitingPush (h : Inv s) {r : Round T} {t : T} (hwork : s.work θ = .waitingPush r t)
    (hm : Moves c s (waitingPush s θ r t) θ) (hidle : s.call θ = .idle) :
    Effect true s (TaskScheduler.waitingPush s θ r t) θ := by
  have hknows := h.knows θ
  rw [hwork] at hknows
  obtain ⟨hp, hst, hheap, hd⟩ := hknows
  have hnot : t ∉ s.waiting.data := fun hmem => by
    rw [← h.inHeap_iff, hheap] at hmem
    cases hmem
  obtain ⟨hwf, hperm⟩ := h.heap.push (above_trans s) (above_total s) hnot
  obtain ⟨-, hother⟩ := holds_of_perm hwf.indexed h.heap.indexed hperm.symm
  have hself : (s.waiting.push s.above t).holds t = true :=
    hwf.indexed.holds_iff.mpr (hperm.mem_iff.mpr (List.mem_cons_self ..))
  obtain ⟨h₁, h₂, h₃, h₄, h₅⟩ := Work.hands_eq (show (s.work θ).hands = ([], r.ready, [], [], []) by
    rw [hwork]; rfl)
  refine ⟨fun _ => by rw [hwork]; rfl, life_single (t := t) (fun u hne => ?_) ?_,
    h.placed_rest hm ?_ rfl, hwf, ?_, fun t' old hc => ?_⟩
  · exact life_congr rfl rfl (hother u hne).symm rfl rfl
  · convert Life.Step.insert (l := life s t) hp hst hd using 1
    simp [life, TaskScheduler.waitingPush, State.workAt, hself]
  · obtain ⟨g₁, g₂, g₃, g₄, g₅⟩ := Work.hands_eq (show (Work.pendingPop r).hands =
      ([], r.ready, [], [], []) from rfl)
    constructor <;> simp [TaskScheduler.waitingPush, State.workAt, h₁, h₂, h₃, h₄, h₅, g₁, g₂, g₃,
      g₄, g₅]
  · rw [TaskScheduler.waitingPush, State.workAt_self]
    trivial
  · have : s.call θ = .wakeupCas t' old := hc
    simp [hidle] at this

/-- The exchange of the status of a task which is to be executed. -/
theorem Inv.pendingReady (h : Inv s) {r : Round T} {t : T} (hwork : s.work θ = .pendingReady r t)
    (hm : Moves c s (pendingReady s θ r t) θ) (hidle : s.call θ = .idle) :
    Effect true s (TaskScheduler.pendingReady s θ r t) θ := by
  have hknows := h.knows θ
  rw [hwork] at hknows
  obtain ⟨hp, hexp, hdl⟩ := hknows
  have hle : (s.task t).deadline ≤ r.timestamp := by
    exact Nat.not_lt.mp (of_decide_eq_false hdl.symm)
  unfold TaskScheduler.pendingReady at hm ⊢
  refine h.collect (if (s.task t).status = .pending then .ready else (s.task t).status) rfl
    ⟨rfl, rfl, rfl, rfl, rfl, rfl, rfl⟩ rfl rfl hm hidle (by rw [hwork]; rfl) hp
    (by rw [hwork]; rfl) ?_
  refine .choose (l := life s t) θ r.timestamp hp ?_ fun _ => hle
  rw [hexp]
  exact (decide_eq_true hle).symm

omit [DecidableEq T] in
/-- A quiet step of a worker in the ready queue. -/
theorem Inv.quiet_ready (h : Inv s) (hm : Moves c s s' θ) (hq : Still s s') (hc : s'.call = s.call)
    (hidle : s.call θ = .idle)
    (hhist : s'.ready.pushed = s.ready.pushed ∧ s'.ready.popped = s.ready.popped)
    (hhand : (s'.ready.consumer θ).hand ++ (s'.work θ).popped =
      (s.ready.consumer θ).hand ++ (s.work θ).popped)
    (hhands : (s'.work θ).taken = (s.work θ).taken ∧ (s'.work θ).chosen = (s.work θ).chosen ∧
      (s'.work θ).released = (s.work θ).released ∧ (s'.work θ).starting = (s.work θ).starting)
    (hknows : Knows (life s) θ (s'.work θ)) : Effect false s s' θ := by
  obtain ⟨h₁, h₂, h₄, h₅⟩ := hhands
  refine h.quiet hm hq ?_ hknows fun t' old hc' => ?_
  · constructor <;> intro _ _
    · exact hq.front
    · exact hq.pending
    · rw [hhist.1, hhist.2]
    · rw [hc]
    · exact h₁
    · exact h₂
    · exact hhand
    · exact h₄
    · exact h₅
  · rw [hc, hidle] at hc'
    cases hc'

omit [DecidableEq T] in
/-- The producer of the ready queue makes a step. -/
theorem Inv.produce (h : Inv s) {w : Work T} (hm : Moves c s s' θ) (hidle : s.call θ = .idle)
    (hhands : w.hands = (s.work θ).hands) (hknows : Knows (life s) θ w)
    (hs : produce c s θ w = some s') : Effect false s s' θ := by
  unfold TaskScheduler.produce at hs
  split at hs
  · obtain ⟨t, ht, rfl⟩ := Option.map_eq_some_iff.mp hs
    obtain ⟨q, hq, rfl⟩ := Option.map_eq_some_iff.mp ht
    have hcons : q.consumer θ = s.ready.consumer θ := MultiConsumerQueue.step_consumer hq nofun
    obtain ⟨h₁, h₂, h₃, h₄, h₅⟩ := Work.hands_eq hhands
    refine h.quiet_ready hm ⟨rfl, rfl, rfl, rfl, rfl, rfl, rfl⟩ rfl hidle
      (MultiConsumerQueue.step_history hq nofun nofun) ?_ ?_ ?_
    · rw [State.workAt_self, h₃]
      exact congrArg (·.hand ++ _) hcons
    · rw [State.workAt_self]
      exact ⟨h₁, h₂, h₄, h₅⟩
    · rwa [State.workAt_self]
  · obtain ⟨q, hq, rfl⟩ := Option.map_eq_some_iff.mp hs
    have hcons : q.consumer θ = s.ready.consumer θ := MultiConsumerQueue.step_consumer hq nofun
    exact h.quiet_ready hm ⟨rfl, rfl, rfl, rfl, rfl, rfl, rfl⟩ rfl hidle
      (MultiConsumerQueue.step_history hq nofun nofun) (congrArg (·.hand ++ _) hcons)
      ⟨rfl, rfl, rfl, rfl⟩ (h.knows θ)

/-- A ready task is pushed to the ready queue. -/
theorem Inv.transfer (h : Inv s) {l : List T} (hwork : s.work θ = .transfer l)
    (hle : s.ready.popped.length ≤ s.ready.pushed.length) (hm : Moves c s s' θ)
    (hidle : s.call θ = .idle) (hs : transfer c s θ l = some s') : ∃ k, Effect k s s' θ := by
  cases l with
  | nil =>
    obtain ⟨t, ht, rfl⟩ := Option.map_eq_some_iff.mp hs
    obtain ⟨q, hq, rfl⟩ := Option.map_eq_some_iff.mp ht
    have hcons : q.consumer θ = s.ready.consumer θ := MultiConsumerQueue.step_consumer hq nofun
    refine ⟨false, h.quiet_ready hm ⟨rfl, rfl, rfl, rfl, rfl, rfl, rfl⟩ rfl hidle
      (MultiConsumerQueue.step_history hq (fun op ho => by cases ho; rfl) nofun) ?_ ?_ ?_⟩
    · rw [State.workAt_self, hwork]
      exact congrArg (·.hand ++ _) hcons
    · rw [State.workAt_self, hwork]
      exact ⟨rfl, rfl, rfl, rfl⟩
    · rw [State.workAt_self]
      trivial
  | cons t l =>
    obtain ⟨u, ht, rfl⟩ := Option.map_eq_some_iff.mp hs
    obtain ⟨q, hq, rfl⟩ := Option.map_eq_some_iff.mp ht
    have hcons : q.consumer θ = s.ready.consumer θ := MultiConsumerQueue.step_consumer hq nofun
    have hhist : q.pushed = s.ready.pushed ++ [t] ∧ q.popped = s.ready.popped := by
      simp only [MultiConsumerQueue.step] at hq
      split at hq <;> cases hq
      exact ⟨rfl, rfl⟩
    obtain ⟨h₁, h₂, h₃, h₄, h₅⟩ := Work.hands_eq (show (s.work θ).hands = ([], t :: l, [], [], [])
      by rw [hwork]; rfl)
    obtain ⟨g₁, g₂, g₃, g₄, g₅⟩ := Work.hands_eq (show (Work.transferring l).hands =
      ([], l, [], [], []) from rfl)
    have hp : s.place t = .chosen θ :=
      (h.placed.mem_iff (.chosen θ) trivial t).mp (by simp [State.contents, h₂])
    refine ⟨true, fun _ => by rw [hwork]; rfl, life_single (t := t) (fun x hne => ?_) ?_, ?_,
      h.heap, ?_, fun t' old hc => ?_⟩
    · exact life_congr rfl (Function.update_of_ne hne _ _) rfl rfl rfl
    · convert Life.Step.queue (l := life s t) θ hp using 1
      simp [life, State.move, State.workAt]
    · refine h.placed_move hm hp ?_ rfl (by simp) (fun _ => ?_) fun _ => ?_
      · constructor <;> simp [State.move, State.workAt, h₁, h₃, h₄, h₅, g₁, g₃, g₄, g₅, hcons]
      · simp only [State.contents, State.workAt_self, h₂, g₂]
        exact .refl _
      · have hready : ((({ s with ready := q, readyLog := s.readyLog ++
            [(t, (s.task t).deadline)] } : State T Θ).move t .ready).workAt θ
            (.transferring l)).contents .ready = s.contents .ready ++ [t] := by
          simp only [State.contents, State.workAt, State.move, hhist.1, hhist.2]
          exact List.drop_append_of_le_length hle
        rw [hready]
        exact List.perm_append_singleton _ _
    · rw [State.workAt_self]
      trivial
    · have : s.call θ = .wakeupCas t' old := hc
      simp [hidle] at this

/-- A step of a pop of the ready queue. -/
theorem Inv.popping (h : Inv s) {batch : ℕ} {spurious : Bool} (hwork : s.work θ = .popping batch)
    (hle : s'.ready.popped <+: s'.ready.pushed) (hm : Moves c s s' θ) (hidle : s.call θ = .idle)
    (hs : popping c s θ batch spurious = some s') : Effect false s s' θ := by
  obtain ⟨h₁, h₂, h₃, h₄, h₅⟩ := Work.hands_eq (show (s.work θ).hands = ([], [], [], [], [])
    by rw [hwork]; rfl)
  unfold TaskScheduler.popping at hs
  split at hs
  · rename_i b res hdone
    obtain ⟨u, hu, rfl⟩ := Option.map_eq_some_iff.mp hs
    obtain ⟨q, hq, rfl⟩ := Option.map_eq_some_iff.mp hu
    have hcons : q.consumer θ = .idle b := by
      simp only [MultiConsumerQueue.step, hdone, Option.some.injEq] at hq
      simp [← hq]
    refine h.quiet_ready hm ⟨rfl, rfl, rfl, rfl, rfl, rfl, rfl⟩ rfl hidle
      (MultiConsumerQueue.step_history hq (by rintro _ ⟨⟩) (by rintro _ _ ⟨⟩)) ?_ ?_ ?_
    · rw [State.workAt_self, hdone, h₃]
      change (q.consumer θ).hand ++ _ = _
      rw [hcons]
      cases res <;> rfl
    · rw [State.workAt_self, h₁, h₂, h₄, h₅]
      cases res <;> exact ⟨rfl, rfl, rfl, rfl⟩
    · rw [State.workAt_self]
      cases res <;> trivial
  · obtain ⟨u, hu, rfl⟩ := Option.map_eq_some_iff.mp hs
    obtain ⟨q, hq, rfl⟩ := Option.map_eq_some_iff.mp hu
    obtain ⟨hpushed, ⟨b, x, hcons, hhand, hpopped⟩ | ⟨hne, hpopped, hhand⟩⟩ :=
      MultiConsumerQueue.consume_hand hq
    · -- the exchange of the read index has succeeded
      simp only [hcons] at hm hle ⊢
      have hdrop : s.ready.pushed.drop s.ready.popped.length =
          x :: s.ready.pushed.drop (s.ready.popped.length + 1) := by
        obtain ⟨l, hl⟩ := hle
        have hl' : s.ready.popped ++ [x] ++ l = s.ready.pushed := by
          rw [← hpopped, ← hpushed]
          exact hl
        rw [← hl']
        simp
      have hp : s.place x = .ready :=
        (h.placed.mem_iff .ready trivial x).mp (by simp [State.contents, hdrop])
      refine ⟨by rintro ⟨⟩, life_single (t := x) (fun u hne => ?_) ?_, ?_, h.heap, ?_,
        fun t' old hc => ?_⟩
      · exact life_congr rfl (Function.update_of_ne hne _ _) rfl rfl rfl
      · convert Life.Step.pop (l := life s x) θ hp using 1
        simp [life, State.move]
      · refine h.placed_move hm hp ?_ rfl (by simp) (fun _ => ?_) fun _ => ?_
        · constructor <;> simp [State.move]
        · simp only [State.contents, State.move, hdrop, hpushed, hpopped, List.length_append,
            List.length_singleton]
          exact .refl _
        · simp only [State.contents, State.move, hcons, hhand, h₃]
          exact .refl _
      · have : s.work θ = .popping batch := hwork
        exact (congrArg (Knows _ θ) this).mpr trivial
      · have : s.call θ = .wakeupCas t' old := hc
        simp [hidle] at this
    · -- nothing was popped
      simp only at hm ⊢
      exact h.quiet_ready hm ⟨rfl, rfl, rfl, rfl, rfl, rfl, rfl⟩ rfl hidle ⟨hpushed, hpopped⟩
        (congrArg (· ++ _) hhand) ⟨rfl, rfl, rfl, rfl⟩ (h.knows θ)

/-- A task leaves the scheduler. -/
theorem Inv.execute (h : Inv s) {batch : ℕ} {t : T} (hwork : s.work θ = .execute batch t)
    (hm : Moves c s (execute s θ batch t) θ) (hidle : s.call θ = .idle) :
    Effect false s (TaskScheduler.execute s θ batch t) θ := by
  obtain ⟨h₁, h₂, h₃, h₄, h₅⟩ := Work.hands_eq (show (s.work θ).hands = ([], [], [t], [], [])
    by rw [hwork]; rfl)
  obtain ⟨g₁, g₂, g₃, g₄, g₅⟩ := Work.hands_eq (show (Work.executeCas batch t).hands =
    ([], [], [], [t], []) from rfl)
  have hp : s.place t = .popped θ :=
    (h.placed.mem_iff (.popped θ) trivial t).mp (by simp [State.contents, h₃])
  refine ⟨nofun, life_single (t := t) (fun u hne => ?_) ?_, ?_, h.heap, ?_, fun t' old hc => ?_⟩
  · exact life_congr (Function.update_of_ne hne _ _) (Function.update_of_ne hne _ _) rfl rfl rfl
  · convert Life.Step.execute (l := life s t) θ hp using 1
    simp [life, TaskScheduler.execute, State.assert, State.modify, State.move, State.workAt]
  · refine h.placed_move hm hp ?_ rfl (by simp) (fun _ => ?_) fun _ => ?_
    · constructor <;> simp [TaskScheduler.execute, State.assert, State.modify, State.move,
        State.workAt, h₁, h₂, h₅, g₁, g₂, g₅]
    · simp only [State.contents, TaskScheduler.execute, State.workAt_self, h₃, g₃, List.append_nil]
      exact List.perm_append_singleton _ _
    · simp only [State.contents, TaskScheduler.execute, State.workAt_self, h₄, g₄]
      exact .refl _
  · rw [TaskScheduler.execute, State.workAt_self]
    trivial
  · have : s.call θ = .wakeupCas t' old := hc
    simp [hidle] at this

/-- The exchange of the status of a task which is about to be executed. -/
theorem Inv.executeCas (h : Inv s) {batch : ℕ} {t : T} (hwork : s.work θ = .executeCas batch t)
    (hm : Moves c s (executeCas s θ batch t) θ) (hidle : s.call θ = .idle) :
    Effect false s (TaskScheduler.executeCas s θ batch t) θ := by
  obtain ⟨h₁, h₂, h₃, h₄, h₅⟩ := Work.hands_eq (show (s.work θ).hands = ([], [], [], [t], [])
    by rw [hwork]; rfl)
  obtain ⟨g₁, g₂, g₃, g₄, g₅⟩ := Work.hands_eq (show (Work.executeStart batch t).hands =
    ([], [], [], [], [t]) from rfl)
  have hp : s.place t = .released θ :=
    (h.placed.mem_iff (.released θ) trivial t).mp (by simp [State.contents, h₄])
  refine ⟨nofun, life_single (t := t) (fun u hne => ?_) ?_, ?_, h.heap, ?_, fun t' old hc => ?_⟩
  · exact life_congr (Function.update_of_ne hne _ _) (Function.update_of_ne hne _ _) rfl
      (Function.update_of_ne hne _ _) rfl
  · convert Life.Step.executeCas (l := life s t) θ hp using 1
    simp [life, TaskScheduler.executeCas, State.assert, State.modify, State.move, State.workAt]
    rfl
  · refine h.placed_move hm hp ?_ rfl (by simp) (fun _ => ?_) fun _ => ?_
    · constructor <;> simp [TaskScheduler.executeCas, State.assert, State.modify, State.move,
        State.workAt, h₁, h₂, h₃, g₁, g₂, g₃]
    · simp only [State.contents, TaskScheduler.executeCas, State.workAt_self, h₄, g₄]
      exact .refl _
    · simp only [State.contents, TaskScheduler.executeCas, State.workAt_self, h₅, g₅]
      exact .refl _
  · rw [TaskScheduler.executeCas, State.workAt_self]
    trivial
  · have : s.call θ = .wakeupCas t' old := hc
    simp [hidle] at this

/-- The callback of a task starts. -/
theorem Inv.executeStart (h : Inv s) {batch : ℕ} {t : T}
    (hwork : s.work θ = .executeStart batch t) (hm : Moves c s (executeStart s θ batch t) θ)
    (hidle : s.call θ = .idle) : Effect false s (TaskScheduler.executeStart s θ batch t) θ := by
  obtain ⟨h₁, h₂, h₃, h₄, h₅⟩ := Work.hands_eq (show (s.work θ).hands = ([], [], [], [], [t])
    by rw [hwork]; rfl)
  obtain ⟨g₁, g₂, g₃, g₄, g₅⟩ := Work.hands_eq (show (Work.callback batch t).hands =
    ([], [], [], [], []) from rfl)
  have hp : s.place t = .starting θ :=
    (h.placed.mem_iff (.starting θ) trivial t).mp (by simp [State.contents, h₅])
  refine ⟨nofun, life_single (t := t) (fun u hne => ?_) ?_, ?_, h.heap, ?_, fun t' old hc => ?_⟩
  · exact life_congr (Function.update_of_ne hne _ _) (Function.update_of_ne hne _ _) rfl rfl rfl
  · convert Life.Step.executeStart (l := life s t) θ hp using 1
    simp [life, TaskScheduler.executeStart, State.assert, State.modify, State.move, State.workAt]
  · refine h.placed_move hm hp ?_ rfl (by simp) (fun _ => ?_) nofun
    · constructor <;> simp [TaskScheduler.executeStart, State.assert, State.modify, State.move,
        State.workAt, h₁, h₂, h₃, h₄, g₁, g₂, g₃, g₄]
    · simp only [State.contents, TaskScheduler.executeStart, State.workAt_self, h₅, g₅]
      exact .refl _
  · rw [TaskScheduler.executeStart, State.workAt_self]
    trivial
  · have : s.call θ = .wakeupCas t' old := hc
    simp [hidle] at this

omit [DecidableEq T] in
/-- A worker calls `Unlock`. -/
theorem Inv.workUnlock (h : Inv s) {t : State T Θ} (hq : Still s t) (hc : t.call = s.call)
    (hr : t.ready = s.ready) (hm : Moves c s s' θ) (hidle : s.call θ = .idle)
    (hhands : (s.work θ).hands = ([], [], [], [], [])) (hs : workUnlock t θ = some s') :
    Effect false s s' θ := by
  obtain ⟨m, -, rfl⟩ := Option.map_eq_some_iff.mp hs
  exact h.quiet_work hm ⟨hq.task, hq.front, hq.pending, hq.waiting, hq.place, hq.woken, hq.moved⟩ hc
    hr hidle (by rw [hhands]; rfl) trivial

omit [DecidableEq T] in
/-- A worker calls `PrivSchedule`. -/
theorem Inv.callTrySchedule (h : Inv s) {t : State T Θ} (hq : Still s t) (hc : t.call = s.call)
    (hr : t.ready = s.ready) (hm : Moves c s s' θ) (hidle : s.call θ = .idle)
    (hhands : (s.work θ).hands = ([], [], [], [], [])) (hs : callTrySchedule t θ = some s') :
    Effect false s s' θ := by
  obtain ⟨m, -, rfl⟩ := Option.map_eq_some_iff.mp hs
  exact h.quiet_work hm ⟨hq.task, hq.front, hq.pending, hq.waiting, hq.place, hq.woken, hq.moved⟩ hc
    hr hidle (by rw [hhands]; rfl) trivial

end Effect

section Step

variable [DecidableEq T] [DecidableEq Θ] {c : Config T Θ} {s s' : State T Θ} {θ : Θ}

/-- A worker makes a step. -/
theorem Inv.work (hr : (machine c).Reachable s) (h : Inv s) (hm : Moves c s s' θ)
    (hidle : s.call θ = .idle) (hpopped : s'.ready.popped <+: s'.ready.pushed)
    (hle : s.ready.popped.length ≤ s.ready.pushed.length) {spurious : Bool}
    (hs : work c s θ spurious = some s') : ∃ k, Effect k s s' θ := by
  unfold TaskScheduler.work at hs
  cases hwork : s.work θ with
  | outside => simp [hwork] at hs
  | attach =>
    simp only [hwork] at hs
    obtain ⟨t, ht, rfl⟩ := Option.map_eq_some_iff.mp hs
    obtain ⟨q, hq, rfl⟩ := Option.map_eq_some_iff.mp ht
    have hhand : (q.consumer θ).hand = (s.ready.consumer θ).hand := by
      simp only [MultiConsumerQueue.step] at hq
      split at hq
      · rename_i hcons
        cases hq
        simp [hcons, MultiConsumerQueue.Consumer.hand]
      · cases hq
    refine ⟨false, h.quiet_ready hm ⟨rfl, rfl, rfl, rfl, rfl, rfl, rfl⟩ rfl hidle
      (MultiConsumerQueue.step_history hq (by rintro _ ⟨⟩) (by rintro _ _ ⟨⟩)) ?_ ?_ ?_⟩
    · rw [State.workAt_self, hwork]
      exact congrArg (· ++ _) hhand
    · rw [State.workAt_self, hwork]
      exact ⟨rfl, rfl, rfl, rfl⟩
    · rw [State.workAt_self]
      trivial
  | attaching =>
    simp only [hwork] at hs
    obtain ⟨t, ht, rfl⟩ := Option.map_eq_some_iff.mp hs
    obtain ⟨q, hq, rfl⟩ := Option.map_eq_some_iff.mp ht
    have hcons := consumer_of_attaching hr hwork
    simp only [MultiConsumerQueue.step, MultiConsumerQueue.consume, hcons, Option.some.injEq] at hq
    subst hq
    refine ⟨false, h.quiet_ready hm ⟨rfl, rfl, rfl, rfl, rfl, rfl, rfl⟩ rfl hidle ⟨rfl, rfl⟩
      ?_ ?_ ?_⟩
    · rw [State.workAt_self, hwork, hcons]
      simp [State.workAt, MultiConsumerQueue.Consumer.hand, Work.popped]
    · rw [State.workAt_self, hwork]
      exact ⟨rfl, rfl, rfl, rfl⟩
    · rw [State.workAt_self]
      trivial
  | pop batch =>
    simp only [hwork] at hs
    obtain ⟨t, ht, rfl⟩ := Option.map_eq_some_iff.mp hs
    obtain ⟨q, hq, rfl⟩ := Option.map_eq_some_iff.mp ht
    have hhand : (q.consumer θ).hand = (s.ready.consumer θ).hand := by
      simp only [MultiConsumerQueue.step] at hq
      split at hq
      · rename_i hcons
        cases hq
        simp [hcons, MultiConsumerQueue.Consumer.hand]
      · cases hq
    refine ⟨false, h.quiet_ready hm ⟨rfl, rfl, rfl, rfl, rfl, rfl, rfl⟩ rfl hidle
      (MultiConsumerQueue.step_history hq (by rintro _ ⟨⟩) (by rintro _ _ ⟨⟩)) ?_ ?_ ?_⟩
    · rw [State.workAt_self, hwork]
      exact congrArg (· ++ _) hhand
    · rw [State.workAt_self, hwork]
      exact ⟨rfl, rfl, rfl, rfl⟩
    · rw [State.workAt_self]
      trivial
  | start =>
    simp only [hwork] at hs
    exact ⟨false, h.callTrySchedule (t := { s with running := Function.update s.running θ true })
      ⟨rfl, rfl, rfl, rfl, rfl, rfl, rfl⟩ rfl rfl hm hidle (by rw [hwork]; rfl) hs⟩
  | trySchedule =>
    simp only [hwork, trySchedule] at hs
    obtain ⟨m, -, rfl⟩ := Option.map_eq_some_iff.mp hs
    refine ⟨false, h.quiet_work hm ⟨rfl, rfl, rfl, rfl, rfl, rfl, rfl⟩ rfl rfl hidle ?_ ?_⟩
    · rw [hwork]
      split <;> rfl
    · split <;> trivial
  | readTime | storeIdle =>
    simp only [hwork, Option.some.injEq] at hs
    subst hs
    exact ⟨false, h.quiet_work hm ⟨rfl, rfl, rfl, rfl, rfl, rfl, rfl⟩ rfl rfl hidle
      (by rw [hwork]; rfl) trivial⟩
  | waitingTop r =>
    simp only [hwork, Option.some.injEq, waitingTop] at hs
    subst hs
    cases htop : s.waiting.top with
    | none =>
      simp only [htop] at hm ⊢
      exact ⟨false, h.quiet_work hm ⟨rfl, rfl, rfl, rfl, rfl, rfl, rfl⟩ rfl rfl hidle
        (by rw [hwork]; rfl) trivial⟩
    | some t =>
      simp only [htop] at hm ⊢
      by_cases hdue : r.batch + 1 < c.schedBatchSize ∧ (s.task t).deadline ≤ r.timestamp
      · simp only [hdue, and_self, if_true] at hm ⊢
        have hsch : (s.work θ).schedules = true := by rw [hwork]; rfl
        refine ⟨true, h.removeTop hm hidle hsch (fun θ' hne => ?_) (by rw [hwork]; rfl)
          (by rw [hwork]; rfl) htop hdue.2⟩
        by_contra hsch'
        exact hne (scheduler_unique hr (by simpa using hsch') hsch)
      · simp only [hdue, if_false] at hm ⊢
        exact ⟨false, h.quiet_work hm ⟨rfl, rfl, rfl, rfl, rfl, rfl, rfl⟩ rfl rfl hidle
          (by rw [hwork]; rfl) trivial⟩
  | waitingCas r t =>
    simp only [hwork, Option.some.injEq] at hs
    subst hs
    exact h.waitingCas hwork hm hidle
  | frontPop r =>
    simp only [hwork, Option.some.injEq] at hs
    subst hs
    exact ⟨true, h.frontPop hwork hm hidle⟩
  | pendingPop r =>
    simp only [hwork, Option.some.injEq] at hs
    subst hs
    exact h.pendingPop hwork hm hidle
  | pendingSleep r t =>
    simp only [hwork, Option.some.injEq] at hs
    subst hs
    exact ⟨true, h.pendingSleep hwork hm hidle⟩
  | waitingPush r t =>
    simp only [hwork, Option.some.injEq] at hs
    subst hs
    exact ⟨true, h.waitingPush hwork hm hidle⟩
  | pendingReady r t =>
    simp only [hwork, Option.some.injEq] at hs
    subst hs
    exact ⟨true, h.pendingReady hwork hm hidle⟩
  | transfer l =>
    simp only [hwork] at hs
    exact h.transfer hwork hle hm hidle hs
  | transferring l =>
    simp only [hwork] at hs
    exact ⟨false, h.produce (w := .transfer l) hm hidle (by rw [hwork]; rfl) trivial hs⟩
  | flushing =>
    simp only [hwork] at hs
    exact ⟨false, h.produce (w := .checkReady) hm hidle (by rw [hwork]; rfl) trivial hs⟩
  | checkReady =>
    simp only [hwork] at hs
    split at hs
    · cases hs
      exact ⟨false, h.quiet_work hm ⟨rfl, rfl, rfl, rfl, rfl, rfl, rfl⟩ rfl rfl hidle
        (by rw [hwork]; rfl) trivial⟩
    · exact ⟨false, h.workUnlock ⟨rfl, rfl, rfl, rfl, rfl, rfl, rfl⟩ rfl rfl hm hidle
        (by rw [hwork]; rfl) hs⟩
  | checkWaiting =>
    simp only [hwork, checkWaiting] at hs
    split at hs
    · cases hs
      exact ⟨false, h.quiet_work hm ⟨rfl, rfl, rfl, rfl, rfl, rfl, rfl⟩ rfl rfl hidle
        (by rw [hwork]; rfl) trivial⟩
    · split at hs
      · cases hs
        exact ⟨false, h.quiet_work hm ⟨rfl, rfl, rfl, rfl, rfl, rfl, rfl⟩ rfl rfl hidle
          (by rw [hwork]; rfl) trivial⟩
      · exact ⟨false, h.workUnlock ⟨rfl, rfl, rfl, rfl, rfl, rfl, rfl⟩ rfl rfl hm hidle
          (by rw [hwork]; rfl) hs⟩
  | sleepTimed d =>
    simp only [hwork, Option.some.injEq] at hs
    subst hs
    exact ⟨false, h.quiet_work hm ⟨rfl, rfl, rfl, rfl, rfl, rfl, rfl⟩ rfl rfl hidle
      (by rw [hwork]; rfl) trivial⟩
  | sleepingTimed _ | sleeping =>
    simp only [hwork, receiveFront, Option.ite_none_right_eq_some] at hs
    exact ⟨false, h.workUnlock (t := { s with frontSignal := .empty })
      ⟨rfl, rfl, rfl, rfl, rfl, rfl, rfl⟩ rfl rfl hm hidle (by rw [hwork]; rfl) hs.2⟩
  | unlock =>
    simp only [hwork, workUnlocking] at hs
    obtain ⟨m, -, rfl⟩ := Option.map_eq_some_iff.mp hs
    refine ⟨false, h.quiet_work hm ⟨rfl, rfl, rfl, rfl, rfl, rfl, rfl⟩ rfl rfl hidle ?_ ?_⟩
    · rw [hwork]
      split <;> rfl
    · split <;> trivial
  | readyProbe =>
    simp only [hwork, Option.some.injEq] at hs
    subst hs
    refine ⟨false, h.quiet_work hm ⟨rfl, rfl, rfl, rfl, rfl, rfl, rfl⟩ rfl rfl hidle ?_ ?_⟩
    · rw [hwork]
      split <;> rfl
    · split <;> trivial
  | readyPublish =>
    simp only [hwork, Option.some.injEq] at hs
    subst hs
    exact ⟨false, h.quiet_work hm ⟨rfl, rfl, rfl, rfl, rfl, rfl, rfl⟩ rfl rfl hidle
      (by rw [hwork]; rfl) trivial⟩
  | popping batch =>
    simp only [hwork] at hs
    exact ⟨false, h.popping hwork hpopped hm hidle hs⟩
  | execute batch t =>
    simp only [hwork, Option.some.injEq] at hs
    subst hs
    exact ⟨false, h.execute hwork hm hidle⟩
  | executeCas batch t =>
    simp only [hwork, Option.some.injEq] at hs
    subst hs
    exact ⟨false, h.executeCas hwork hm hidle⟩
  | executeStart batch t =>
    simp only [hwork, Option.some.injEq] at hs
    subst hs
    exact ⟨false, h.executeStart hwork hm hidle⟩
  | callback batch t =>
    simp only [hwork, executed] at hs
    split at hs
    · cases hs
      exact ⟨false, h.quiet_work hm ⟨rfl, rfl, rfl, rfl, rfl, rfl, rfl⟩ rfl rfl hidle
        (by rw [hwork]; rfl) trivial⟩
    · exact ⟨false, h.callTrySchedule ⟨rfl, rfl, rfl, rfl, rfl, rfl, rfl⟩ rfl rfl hm hidle
        (by rw [hwork]; rfl) hs⟩
  | waitReady =>
    simp only [hwork, Option.ite_none_right_eq_some, Option.some.injEq] at hs
    obtain ⟨-, rfl⟩ := hs
    exact ⟨false, h.quiet_work hm ⟨rfl, rfl, rfl, rfl, rfl, rfl, rfl⟩ rfl rfl hidle
      (by rw [hwork]; rfl) trivial⟩

/-- The tasks are popped from the ready queue in the order in which they were pushed to it. -/
theorem popped_isPrefix (hr : (machine c).Reachable s) : s.ready.popped <+: s.ready.pushed := by
  obtain ⟨before, after, hi⟩ := MultiConsumerQueue.inv ((ready_simulates c).reachable hr)
  rw [hi.data.popped_eq]
  exact List.take_prefix ..

/-- A step moves one thread, and does to the tasks what this thread may do. -/
theorem step_effect (hr : (machine c).Reachable s) (h : Inv s) {a : Action T Θ}
    (hs : (machine c).step s a = some s') :
    (∃ d, s' = { s with now := s.now + d }) ∨ ∃ θ k, Moves c s s' θ ∧ Effect k s s' θ := by
  have hns : ∀ {θ}, (s.work θ).mayCall = true → (s.work θ).schedules = false := fun {θ} hw => by
    cases hwork : s.work θ <;> rw [hwork] at hw <;> first | rfl | cases hw
  have hs' : step c s a = some s' := hs
  cases a with
  | tick d =>
    cases hs'
    exact .inl ⟨d, rfl⟩
  | op θ o =>
    simp only [step, Option.ite_none_right_eq_some] at hs'
    obtain ⟨hmay, hop⟩ := hs'
    have hm : Moves c s s' θ := callOp_moves (role hr θ) hmay hop
    obtain ⟨hcall, hw, -⟩ := (role hr θ).of_mayCall hmay
    exact .inr ⟨θ, false, hm, h.callOp hm hcall (hns hw) hop⟩
  | call θ spurious =>
    have hm := call_moves (role hr θ) hs'
    have hw : (s.work θ).mayCall = true := (role hr θ).mayCall fun hc => by
      simp [step, TaskScheduler.call, hc] at hs'
    exact .inr ⟨θ, false, hm, h.call hm (hns hw) hs'⟩
  | ret θ =>
    simp only [step] at hs'
    split at hs'
    · rename_i b hcall
      cases hs'
      have hrole := role hr θ
      rw [hcall] at hrole
      have hm : Moves c s (s.callAt θ .idle) θ := .callAt rfl rfl rfl rfl hrole.1 hrole.2
      exact .inr ⟨θ, false, hm, h.quiet_to hm ⟨rfl, rfl, rfl, rfl, rfl, rfl, rfl⟩ rfl rfl
        (by rw [hcall]; rfl) (hns hrole.1) rfl (by rintro _ _ ⟨⟩)⟩
    · cases hs'
  | work θ spurious =>
    simp only [step] at hs'
    split at hs'
    · rename_i hcall
      have hrole := role hr θ
      rw [hcall] at hrole
      have hm := work_moves hcall hrole hs'
      obtain ⟨k, he⟩ := h.work hr hm hcall (popped_isPrefix (hr.step hs))
        (popped_isPrefix hr).length_le hs'
      exact .inr ⟨θ, k, hm, he⟩
    · cases hs'
  | timeout θ =>
    simp only [step] at hs'
    split at hs'
    · rename_i d hwork
      have hcall : s.call θ = .idle := by
        by_contra hne
        have := (role hr θ).mayCall hne
        simp [hwork, Work.mayCall] at this
      have hm : Moves c s s' θ := workUnlock_moves rfl rfl rfl rfl hcall hs'
      exact .inr ⟨θ, false, hm, h.workUnlock ⟨rfl, rfl, rfl, rfl, rfl, rfl, rfl⟩ rfl rfl hm hcall
        (by rw [hwork]; rfl) hs'⟩
    · cases hs'

omit [DecidableEq T] in
theorem Inv.new (c : Config T Θ) (now : ℕ) : Inv (.new c now : State T Θ) where
  placed := by
    have hcontents : ∀ p, (State.new c now : State T Θ).contents p = [] := fun p => by
      cases p with
      | taken θ | chosen θ | released θ | starting θ | popped θ =>
        simp only [State.contents, State.new]
        split <;> rfl
      | _ => rfl
    refine ⟨fun p _ => by simp [hcontents], fun p hp t => ?_⟩
    rw [hcontents]
    refine ⟨nofun, fun h => ?_⟩
    obtain rfl : Place.outside = p := h
    cases hp
  lives _ := .new
  heap := .new _
  knows θ := by
    simp only [State.new]
    split <;> trivial
  wakeup := nofun

/-- The invariant holds in every reachable state. -/
theorem inv (h : (machine c).Reachable s) : Inv s := by
  induction h with
  | init h =>
    obtain ⟨now, rfl⟩ := h
    exact .new c now
  | step hr hs ih =>
    obtain ⟨d, rfl⟩ | ⟨θ, k, hm, he⟩ := step_effect hr ih hs
    · exact ⟨ih.placed, ih.lives, ih.heap, ih.knows, ih.wakeup⟩
    · refine ih.of_effect hm he fun θ' hne hsch => ?_
      by_contra hsch'
      exact hne (scheduler_unique hr (by simpa using hsch') hsch)

/-- A step does to each task nothing, or what can happen in its life. -/
theorem step_life (hr : (machine c).Reachable s) {a : Action T Θ}
    (hs : (machine c).step s a = some s') (t : T) :
    life s' t = life s t ∨ ∃ k, Life.Step k (life s t) (life s' t) := by
  obtain ⟨d, rfl⟩ | ⟨θ, k, -, he⟩ := step_effect hr (inv hr) hs
  · exact .inl rfl
  · exact (he.life t).imp_right fun h => ⟨k, h⟩

end Step

end TaskScheduler

end Serverbox
