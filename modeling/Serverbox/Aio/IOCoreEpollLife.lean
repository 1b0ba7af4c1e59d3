import Serverbox.Aio.IOCoreEpollPlaces

/-!
# The invariant of the epoll core

Each step of the epoll core does to each task nothing, or what can happen in its life. The owner of
the scheduler role is the worker which set the flag, and the array of events and the list of ready
tasks are empty outside of its rounds. Each task which is executed is in the hands of one worker.

## Main definitions

* `IOCoreEpoll.life`: the life of a task in a state.
* `IOCoreEpoll.Role`: who is the scheduler, and who executes what.
* `IOCoreEpoll.Inv`: the invariant.

## Main results

* `IOCoreEpoll.core_refines`: the queues and the statuses change as in `IOCoreCount.machine`.
* `IOCoreEpoll.Inv.effect`: what a step does to each task.
* `IOCoreEpoll.inv`: the invariant holds in every reachable state.
-/

namespace Serverbox

namespace IOCoreEpoll

variable {T Θ : Type*} [DecidableEq T]

/-- The life of a task in a state of the core. -/
def life (s : State T Θ) (t : T) : Life where
  place := place s.core t
  core := s.core.task t
  inHeap := decide (t ∈ s.core.waitingQueue)
  closing := decide (t ∈ s.closers)
  inEvs := decide (t ∈ s.evs)
  task := s.task t

/-- The worker is the scheduler. -/
def Worker.schedules : Worker T → Bool
  | .epollWait | .popFront | .kernelDo | .pendingDo _ | .waitingDo _ | .pushReady | .checkReady
  | .prepareWait | .poll _ | .scheduleEnd => true
  | _ => false

/-- The array of events may have tasks. -/
def Worker.collected : Worker T → Bool
  | .popFront | .kernelDo => true
  | _ => false

/-- The list of ready tasks of the round may have tasks. -/
def Worker.gathers : Worker T → Bool
  | .kernelDo | .pendingDo _ | .waitingDo _ | .pushReady => true
  | _ => false

/-- Who is the scheduler, and who executes which task. -/
structure Role (s : State T Θ) : Prop where
  working : Census (fun θ => (s.worker θ).schedules = true) s.isSchedulerWorking.toNat
  evs : s.evs ≠ [] → ∃ θ, (s.worker θ).collected = true
  ready : s.core.ready ≠ [] → ∃ θ, (s.worker θ).gathers = true
  event : ∀ t, Census (fun θ => decide ((s.worker θ).event = some t) = true)
    (s.core.executed.count t)
  final : ∀ t, Census (fun θ => decide ((s.worker θ).final = some t) = true)
    (s.core.final.count t)

/-- The invariant. -/
structure Inv (s : State T Θ) : Prop where
  core : IOCoreCount.Inv s.core
  role : Role s
  ok : ∀ t, (life s t).Ok
  closers : s.closers.Nodup
  evs : s.evs.Nodup
  failed : s.failed = false

variable {c : Config} {s s' : State T Θ} {t u : T} {θ : Θ}

/-- The invariant of the core, for one task. -/
theorem life_core (h : IOCoreCount.Inv s.core) (t : T) : (life s t).Core where
  asleep_iff := (place_eq_iff h (p := .asleep) (by decide)).trans (h.asleep t)
  heap hheap := by
    obtain ⟨hs, hp⟩ := h.waiting t (of_decide_eq_true hheap)
    refine ⟨hs, hp.imp (place_eq h (p := .asleep)) (.imp (place_eq h (p := .woken))
      (.imp (place_eq h (p := .frontQueue)) (place_eq h (p := .pendingQueue))))⟩

/-! ### The queues and the statuses -/

section Core

variable [DecidableEq Θ]

theorem work_core (hs : work c s θ = some s') :
    s'.core = s.core ∨ ∃ b, IOCoreCount.step s.core b = some s'.core := by
  rw [work] at hs
  split at hs
  · split at hs <;> exact .inl (Option.some.inj hs ▸ rfl)
  · cases hs
  · obtain ⟨core, hcore, rfl⟩ := Option.map_eq_some_iff.mp hs
    exact .inr ⟨_, hcore⟩
  · split at hs
    · exact .inl (Option.some.inj hs ▸ rfl)
    · rename_i t l hl
      obtain rfl := Option.some.inj hs
      rw [kernelDo]
      dsimp only
      split
      · rename_i hw
        exact .inr ⟨.kernelDo t, if_pos hw⟩
      · exact .inl rfl
  · split at hs
    · exact .inl (Option.some.inj hs ▸ rfl)
    · rename_i t l hl
      split at hs
      · obtain rfl := Option.some.inj hs
        refine .inr ⟨.pendingDo (decide ((s.task t).pendingEvents ≠ ∅) ||
          decide ((s.task t).deadline ≤ s.timestamp)) (decide ((s.task t).deadline ≠ timeInfinite)),
          ?_⟩
        rw [IOCoreCount.step, hl, pendingDo]
        dsimp only
        split
        · rfl
        · split <;> rfl
      · exact .inl (Option.some.inj hs ▸ rfl)
  · obtain ⟨-, hs⟩ := Option.ite_none_right_eq_some.mp hs
    exact .inl (Option.some.inj hs ▸ rfl)
  · obtain ⟨core, hcore, rfl⟩ := Option.map_eq_some_iff.mp hs
    exact .inr ⟨_, hcore⟩
  · split at hs <;> exact .inl (Option.some.inj hs ▸ rfl)
  · obtain ⟨-, hs⟩ := Option.ite_none_right_eq_some.mp hs
    exact .inl (Option.some.inj hs ▸ rfl)
  · exact .inl (Option.some.inj hs ▸ rfl)
  · exact .inl (Option.some.inj hs ▸ rfl)
  · exact .inl (Option.some.inj hs ▸ rfl)
  · split at hs
    · exact .inl (Option.some.inj hs ▸ rfl)
    · rename_i t l hl
      obtain rfl := Option.some.inj hs
      refine .inr ⟨.execute, ?_⟩
      rw [IOCoreCount.step, hl]
      rfl
  · obtain ⟨core, hcore, rfl⟩ := Option.map_eq_some_iff.mp hs
    exact .inr ⟨_, hcore⟩
  · obtain ⟨core, hcore, rfl⟩ := Option.map_eq_some_iff.mp hs
    exact .inr ⟨_, hcore⟩
  · exact .inl (Option.some.inj hs ▸ rfl)
  · obtain ⟨-, hs⟩ := Option.ite_none_right_eq_some.mp hs
    exact .inl (Option.some.inj hs ▸ rfl)

omit [DecidableEq Θ] in
theorem isTop_iff : isTop s t = true ↔ t ∈ s.core.waitingQueue ∧
    ∀ u ∈ s.core.waitingQueue, (s.task t).deadline ≤ (s.task u).deadline := by
  simp only [isTop, Bool.and_eq_true, decide_eq_true_eq, List.all_eq_true]

theorem top_core (hs : top c s θ t = some s') :
    s'.core = s.core ∨ ∃ b, IOCoreCount.step s.core b = some s'.core := by
  obtain ⟨htop, hs⟩ := Option.ite_none_right_eq_some.mp hs
  split at hs
  · obtain ⟨-, hs⟩ := Option.ite_none_right_eq_some.mp hs
    split at hs
    · exact .inl (Option.some.inj hs ▸ rfl)
    · obtain rfl := Option.some.inj hs
      refine .inr ⟨.expiredDo t, ?_⟩
      rw [IOCoreCount.step, if_pos (isTop_iff.mp htop).1, expiredDo]
      dsimp only
      split <;> rfl
  · split at hs <;> exact .inl (Option.some.inj hs ▸ rfl)
  · cases hs

/-- The queues and the statuses change as in the core which counts its tasks. -/
theorem step_core {a : Action T Θ} (hs : step c s a = some s') :
    s'.core = s.core ∨ ∃ b, IOCoreCount.step s.core b = some s'.core := by
  cases a with
  | attach t sock =>
    obtain ⟨core, hcore, rfl⟩ := Option.map_eq_some_iff.mp hs
    exact .inr ⟨_, hcore⟩
  | postStart t | post t | rePost t =>
    obtain ⟨core, hcore, rfl⟩ := Option.map_eq_some_iff.mp hs
    exact .inr ⟨_, hcore⟩
  | wakeup t => exact .inr ⟨.wakeup t, Option.some.inj hs ▸ rfl⟩
  | signal | setDeadline t d | edge t e =>
    rw [step] at hs
    first
    | obtain ⟨-, hs⟩ := Option.ite_none_right_eq_some.mp hs
      exact .inl (Option.some.inj hs ▸ rfl)
    | obtain ⟨-, hs⟩ := Option.ite_none_left_eq_some.mp hs
      exact .inl (Option.some.inj hs ▸ rfl)
  | closeStart t =>
    obtain rfl := Option.some.inj hs
    rw [closeStart]
    split <;> exact .inl rfl
  | close t =>
    obtain ⟨-, hs⟩ := Option.ite_none_right_eq_some.mp hs
    exact .inr ⟨.close t, Option.some.inj hs ▸ rfl⟩
  | save θ e =>
    obtain ⟨t, -, hs⟩ := Option.bind_eq_some_iff.mp hs
    obtain ⟨-, hs⟩ := Option.ite_none_right_eq_some.mp hs
    exact .inl (Option.some.inj hs ▸ rfl)
  | attachSocket θ =>
    obtain ⟨t, -, hs⟩ := Option.bind_eq_some_iff.mp hs
    obtain ⟨-, hs⟩ := Option.ite_none_left_eq_some.mp hs
    exact .inl (Option.some.inj hs ▸ rfl)
  | tick => exact .inl (Option.some.inj hs ▸ rfl)
  | epollWait θ evs mask fd =>
    obtain ⟨-, hs⟩ := Option.ite_none_right_eq_some.mp hs
    exact .inl (Option.some.inj hs ▸ rfl)
  | work θ => exact work_core hs
  | top θ t => exact top_core hs

/-- **The epoll core refines the counting core**: the queues and the statuses change as there. -/
theorem core_refines (c : Config) :
    (machine c : Machine (State T Θ) _).Simulates IOCoreCount.machine State.core where
  init := by
    rintro _ ⟨now, rfl⟩
    rfl
  step _ _ _ _ hs := step_core hs

end Core

/-! ### The effect of a step on a task -/

/-- What a step does to the tasks. -/
structure Effect (s s' : State T Θ) : Prop where
  life : ∀ t, life s' t = life s t ∨ Life.Step (life s t) (life s' t)
  closers : s'.closers.Nodup
  evs : s'.evs.Nodup
  failed : s'.failed = false

omit [DecidableEq T] in
theorem assert_failed {b : Bool} (h : s.failed = false) (hb : b = true) :
    (s.assert b).failed = false := by
  rw [State.assert, h, hb]
  rfl

/-- A step which leaves the tasks alone. -/
theorem Effect.quiet (h : Inv s) (hcore : s'.core = s.core) (htask : s'.task = s.task)
    (hclosers : s'.closers = s.closers) (hevs : s'.evs = s.evs) (hfailed : s'.failed = s.failed) :
    Effect s s' where
  life t := .inl (by simp only [IOCoreEpoll.life, hcore, htask, hclosers, hevs])
  closers := hclosers ▸ h.closers
  evs := hevs ▸ h.evs
  failed := hfailed ▸ h.failed

/-- A step at one task, which may be moved. -/
theorem Effect.one {p : Place} {x : IOCoreCount.IOTask} {inHeap : Bool} {y : IOTask}
    (hm : Moves s.core s'.core t p x inHeap) (htask : s'.task = Function.update s.task t y)
    (hother : ∀ u ≠ t, (u ∈ s'.closers ↔ u ∈ s.closers) ∧ (u ∈ s'.evs ↔ u ∈ s.evs))
    (hclosers : s'.closers.Nodup) (hevs : s'.evs.Nodup) (hfailed : s'.failed = false)
    (hstep : Life.Step (IOCoreEpoll.life s t)
      ⟨p, x, inHeap, decide (t ∈ s'.closers), decide (t ∈ s'.evs), y⟩) : Effect s s' where
  life u := by
    by_cases hu : u = t
    · subst hu
      refine .inr ?_
      have hlife : IOCoreEpoll.life s' u =
          ⟨p, x, inHeap, decide (u ∈ s'.closers), decide (u ∈ s'.evs), y⟩ := by
        rw [IOCoreEpoll.life, hm.place, hm.task, hm.heap, htask, Function.update_self]
      exact hlife ▸ hstep
    · obtain ⟨hplace, hcore, hheap⟩ := hm.other u hu
      obtain ⟨hcl, hev⟩ := hother u hu
      refine .inl ?_
      simp only [IOCoreEpoll.life, hplace, hcore, hheap, hcl, hev, htask, Function.update_of_ne hu]
  closers := hclosers
  evs := hevs
  failed := hfailed

/-- A step at one task which is not moved, and whose status does not change. -/
theorem Effect.own {y : IOTask} (h : Inv s) (hcore : s'.core = s.core)
    (htask : s'.task = Function.update s.task t y)
    (hclosers : s'.closers = s.closers) (hevs : s'.evs = s.evs) (hfailed : s'.failed = false)
    (hstep : Life.Step (IOCoreEpoll.life s t) { IOCoreEpoll.life s t with task := y }) :
    Effect s s' := by
  have hm : Moves s.core s'.core t (place s.core t) (s.core.task t)
      (decide (t ∈ s.core.waitingQueue)) := by
    rw [hcore]
    exact .of_same rfl (Function.update_eq_self ..).symm rfl
  refine .one hm htask (fun u _ => by rw [hclosers, hevs]; exact ⟨.rfl, .rfl⟩)
    (hclosers ▸ h.closers) (hevs ▸ h.evs) hfailed ?_
  rw [hclosers, hevs]
  exact hstep

/-- A step which leaves the fields of the tasks alone. -/
theorem Effect.moved {p : Place} {x : IOCoreCount.IOTask} {inHeap : Bool} (h : Inv s)
    (hm : Moves s.core s'.core t p x inHeap) (htask : s'.task = s.task)
    (hclosers : s'.closers = s.closers) (hevs : s'.evs = s.evs) (hfailed : s'.failed = false)
    (hstep : Life.Step (IOCoreEpoll.life s t) { IOCoreEpoll.life s t with
      place := p, core := x, inHeap := inHeap }) : Effect s s' := by
  refine .one hm (htask.trans (Function.update_eq_self t s.task).symm)
    (fun u _ => by rw [hclosers, hevs]; exact ⟨.rfl, .rfl⟩) (hclosers ▸ h.closers) (hevs ▸ h.evs)
    hfailed ?_
  rw [hclosers, hevs]
  exact hstep

theorem Inv.attach {sock : Bool} (h : Inv s) (hs : attach s t sock = some s') : Effect s s' := by
  obtain ⟨core, hcore, rfl⟩ := Option.map_eq_some_iff.mp hs
  obtain ⟨x, hm, hout, hx⟩ := Moves.attach h.core hcore
  have hok := h.ok t
  have hsock : (s.task t).socket = false := hok.outside hout
  have hguard : (s.core.task t).status = .closed → (s.task t).closeGuard = true := fun hst => by
    rw [show (s.task t).closeGuard = _ from hok.guard, hok.closeGuard.mpr (.inr hst), Bool.true_or]
  refine .one hm rfl (fun u _ => ⟨.rfl, .rfl⟩) h.closers h.evs (assert_failed h.failed ?_) ?_
  · rw [hsock]
    by_cases hst : (s.core.task t).status = .closed
    · rw [hguard hst]
      rfl
    · simp [hst]
  · rcases hx with ⟨rfl, hst⟩ | ⟨rfl, hst⟩
    · simp only [decide_eq_false hst, Bool.not_false, Bool.and_true]
      exact .attach sock hout hst
    · simp only [hst, decide_true, Bool.not_true, Bool.and_false]
      exact .reuse sock hout hst

/-- A task which is not registered may be. -/
theorem Inv.mayRegister (h : Inv s) (hr : (s.task t).readyEvents = ∅)
    (hp : (s.task t).registered = false) : mayRegister (s.task t) = true := by
  have hpend : (s.task t).pendingEvents = ∅ := by
    by_contra hne
    have hreg := (h.ok t).pending (Finset.nonempty_iff_ne_empty.mpr hne)
    rw [show (life s t).task.registered = false from hp] at hreg
    cases hreg
  rw [IOCoreEpoll.mayRegister, hr, hpend, hp]
  rfl

/-- Where a task is tells whether it is in the queues. -/
theorem Inv.isInQueues (h : Inv s) {p : Place} (hp : place s.core t = p) :
    (s.task t).isInQueues = p.inQueues :=
  (h.ok t).inQueues.trans (congrArg Place.inQueues hp)

theorem Inv.postStart (h : Inv s) (hs : postStart s t = some s') : Effect s s' := by
  obtain ⟨core, hcore, rfl⟩ := Option.map_eq_some_iff.mp hs
  obtain ⟨hm, hp⟩ := Moves.postStart h.core hcore
  have hreg : (s.task t).registered = false := by
    rw [show (s.task t).registered = _ from (h.ok t).registered, show (life s t).place = _ from hp]
    exact Bool.and_false _
  refine .one hm rfl (fun u _ => ⟨.rfl, .rfl⟩) h.closers h.evs (assert_failed h.failed ?_)
    (.postStart hp)
  rw [h.isInQueues hp, h.mayRegister ((h.ok t).attached hp) hreg, Bool.or_true]
  rfl

theorem Inv.post (h : Inv s) (hs : post s t = some s') : Effect s s' := by
  obtain ⟨core, hcore, rfl⟩ := Option.map_eq_some_iff.mp hs
  obtain ⟨hm, hp⟩ := Moves.post h.core hcore
  refine .one hm rfl (fun u _ => ⟨.rfl, .rfl⟩) h.closers h.evs (assert_failed h.failed ?_)
    (.post hp)
  rw [h.isInQueues hp]
  rfl

theorem Inv.rePost (h : Inv s) (hs : rePost s t = some s') : Effect s s' := by
  obtain ⟨core, hcore, rfl⟩ := Option.map_eq_some_iff.mp hs
  obtain ⟨hm, hp⟩ := Moves.rePost h.core hcore
  refine .moved h hm rfl rfl rfl (assert_failed h.failed ?_) (.rePost hp)
  rw [h.isInQueues hp]
  rfl

theorem Inv.wakeup (h : Inv s) (t : T) :
    Effect s { s with core := IOCoreCount.wakeup s.core t } := by
  have h' := h.core.wakeup t
  rw [IOCoreCount.wakeup] at h' ⊢
  dsimp only at h' ⊢
  cases hst : (s.core.task t).status with
  | waiting =>
    rw [hst] at h'
    exact .moved h (.woken h' _ rfl) rfl rfl rfl h.failed (.wakeupAsleep hst)
  | pending => exact .moved h (.of_same rfl rfl rfl) rfl rfl rfl h.failed (.wakeup hst)
  | ready | closing | closed => exact .quiet h rfl rfl rfl rfl rfl

theorem Inv.closeStart (h : Inv s) (t : T) : Effect s (closeStart s t) := by
  rw [IOCoreEpoll.closeStart]
  split
  · exact .quiet h rfl rfl rfl rfl rfl
  · rename_i hg
    have hg := Bool.eq_false_iff.mpr hg
    have hnot : t ∉ s.closers := fun hm => by
      have hguard := (h.ok t).guard
      rw [show (life s t).closing = true from decide_eq_true hm, Bool.or_true] at hguard
      rw [show (life s t).task.closeGuard = false from hg] at hguard
      cases hguard
    refine .one (.of_same rfl (Function.update_eq_self ..).symm rfl) rfl
      (fun u hu => ⟨mem_cons_ne hu, .rfl⟩) (List.nodup_cons.mpr ⟨hnot, h.closers⟩) h.evs h.failed ?_
    simp only [List.mem_cons_self, decide_true]
    exact .closeStart hg

theorem Inv.close (h : Inv s) (hs : close s t = some s') : Effect s s' := by
  obtain ⟨hcl, hs⟩ := Option.ite_none_right_eq_some.mp hs
  obtain rfl := Option.some.inj hs
  have hok := h.ok t
  have hclosing : (life s t).closing = true := decide_eq_true hcl
  have hguard : (s.core.task t).closeGuard = false := hok.closing hclosing
  have hstatus : ¬((s.core.task t).status = .closing ∨ (s.core.task t).status = .closed) :=
    fun hst => by simpa using hguard.symm.trans (hok.closeGuard.mpr hst)
  have h' := h.core.close t
  have hnot : t ∉ s.closers.erase t := fun hm => (h.closers.mem_erase_iff.mp hm).1 rfl
  have hassert : decide ((s.core.task t).status = .pending ∨ (s.core.task t).status = .ready ∨
      (s.core.task t).status = .waiting) = true := by
    rw [decide_eq_true_eq]
    cases hst : (s.core.task t).status <;> simp_all
  rw [IOCoreCount.close] at h' ⊢
  dsimp only at h' ⊢
  rw [if_neg (by simp [hguard])] at h' ⊢
  split
  · rename_i hw
    rw [if_pos hw] at h'
    refine .one (.woken h' _ rfl) (Function.update_eq_self ..).symm
      (fun u hu => ⟨List.mem_erase_of_ne hu, .rfl⟩) (h.closers.erase t) h.evs
      (assert_failed h.failed hassert) ?_
    simp only [hnot, decide_false]
    exact .closeAsleep hclosing hw
  · rename_i hw
    refine .one (.of_same rfl rfl rfl) (Function.update_eq_self ..).symm
      (fun u hu => ⟨List.mem_erase_of_ne hu, .rfl⟩) (h.closers.erase t) h.evs
      (assert_failed h.failed hassert) ?_
    simp only [hnot, decide_false]
    exact .close hclosing hw

theorem Inv.edge {e : Event} (h : Inv s) (hs : edge s t e = some s') : Effect s s' := by
  obtain ⟨hr, hs⟩ := Option.ite_none_right_eq_some.mp hs
  obtain rfl := Option.some.inj hs
  exact .own h rfl rfl rfl rfl h.failed (.edge e hr)

theorem Inv.setDeadline {d : ℕ} (h : Inv s) (hs : setDeadline s t d = some s') : Effect s s' := by
  obtain ⟨hq, hs⟩ := Option.ite_none_left_eq_some.mp hs
  obtain rfl := Option.some.inj hs
  exact .own h rfl rfl rfl rfl h.failed (.setDeadline d (Bool.eq_false_iff.mpr hq))

theorem Inv.save {e : Event} (h : Inv s) (hp : place s.core t = .executed)
    (hs : save s t e = some s') : Effect s s' := by
  obtain ⟨hsock, hs⟩ := Option.ite_none_right_eq_some.mp hs
  obtain rfl := Option.some.inj hs
  refine .own h rfl rfl rfl rfl (assert_failed h.failed ?_) (.save e hp hsock)
  rw [h.isInQueues hp]
  rfl

theorem Inv.attachSocket (h : Inv s) (hp : place s.core t = .executed)
    (hs : attachSocket s t = some s') : Effect s s' := by
  obtain ⟨hsock, hs⟩ := Option.ite_none_left_eq_some.mp hs
  obtain rfl := Option.some.inj hs
  have hsock : (s.task t).socket = false := Bool.eq_false_iff.mpr hsock
  have hok := h.ok t
  have hready : (s.task t).readyEvents = ∅ := by
    by_contra hne
    have htrue := hok.ready (Finset.nonempty_iff_ne_empty.mpr hne)
    rw [show (life s t).task.socket = false from hsock] at htrue
    cases htrue
  have hreg : (s.task t).registered = false := by
    rw [show (s.task t).registered = _ from hok.registered,
      show (life s t).task.socket = _ from hsock, Bool.false_and]
  have hclosed : (s.core.task t).isClosed = false := by
    refine Bool.eq_false_iff.mpr fun hc => ?_
    rcases (hok.closed (hok.isClosed.mp hc)).2 with ho | hd
    · exact absurd (ho.symm.trans hp) (by decide)
    · rw [show (life s t).place = _ from hp] at hd
      cases hd
  refine .own h rfl rfl rfl rfl (assert_failed h.failed ?_) (.attachSocket hp hsock)
  rw [h.isInQueues hp, hclosed, h.mayRegister hready hreg]
  rfl

/-- A task in the array of events is not closed. -/
theorem Inv.not_closed (h : Inv s) (ht : t ∈ s.evs) : (s.core.task t).status ≠ .closed := by
  intro hst
  have hreg := (h.ok t).inEvs (decide_eq_true ht)
  rw [(h.ok t).registered, ((h.ok t).closed hst).1, Bool.false_and] at hreg
  cases hreg

theorem Inv.kernelDo (h : Inv s) {l : List T} (hl : s.evs = t :: l) :
    Effect s (kernelDo s t l) := by
  have ht : t ∈ s.evs := hl ▸ List.mem_cons_self
  have hin : (life s t).inEvs = true := decide_eq_true ht
  have hnodup := h.evs
  rw [hl, List.nodup_cons] at hnodup
  rw [IOCoreEpoll.kernelDo]
  dsimp only
  split
  · rename_i hw
    refine .one (.rouse h.core hw) rfl (fun u hu => ⟨.rfl, mem_tail_ne hl hu⟩) h.closers hnodup.2
      h.failed ?_
    simp only [State.set, hnodup.1, decide_false]
    exact .rouse _ hin hw
  · rename_i hw
    refine .one (.of_same rfl (Function.update_eq_self ..).symm rfl) rfl
      (fun u hu => ⟨.rfl, mem_tail_ne hl hu⟩) h.closers hnodup.2
      (assert_failed h.failed (decide_eq_true (h.not_closed ht))) ?_
    simp only [State.set, State.assert, hnodup.1, decide_false]
    exact .note hin hw

theorem Inv.pendingDo (h : Inv s) {l : List T} (hl : s.core.pendingQueue = t :: l)
    (hevs : s.evs = []) : Effect s (pendingDo s t l) := by
  have ht : t ∈ s.core.pendingQueue := hl ▸ List.mem_cons_self
  have hp : place s.core t = .pendingQueue := place_eq h.core (p := .pendingQueue) ht
  have hok := h.ok t
  have hw : (s.core.task t).status ≠ .waiting := fun hw => by
    have ha := (life_core h.core t).asleep_iff.mpr hw
    exact absurd (hp.symm.trans ha) (by decide)
  have hclosed : (s.core.task t).status ≠ .closed := fun hc => by
    rcases (hok.closed hc).2 with ho | hd
    · exact absurd (ho.symm.trans hp) (by decide)
    · rw [show (life s t).place = _ from hp] at hd
      cases hd
  have hin : (life s t).inEvs = false := by
    simp [life, hevs]
  unfold IOCoreEpoll.pendingDo
  extract_lets x y isExpired hasEvents finite s'
  split
  · -- The task falls asleep.
    rename_i hs
    have hpend : (s.task t).pendingEvents = ∅ := by
      by_contra hne
      have htrue : hasEvents = true := by simp [hasEvents, x, hne]
      exact absurd (htrue.symm.trans hs.2) (by decide)
    have hm := Moves.sleep h.core hl hs.1 finite
    rw [← hs.2] at hm
    refine .moved h hm rfl rfl rfl (assert_failed h.failed ?_) (.sleep hp hs.1 hpend)
    have hheap : t ∉ s.core.waitingQueue := fun ht => (h.core.waiting t ht).1 hs.1
    rw [decide_eq_true hheap, Bool.or_true]
  · rename_i hs
    split
    · rename_i hst
      refine .one (.closeDo h.core hl hasEvents finite hst) rfl (fun u _ => ⟨.rfl, .rfl⟩) h.closers
        h.evs (assert_failed h.failed ?_) (.closeDo _ hp hst hin)
      have hreg : (s.task t).registered = (s.task t).socket := by
        rw [show (s.task t).registered = _ from hok.registered, show (life s t).place = _ from hp]
        exact Bool.and_true _
      have hguard : (s.task t).closeGuard = true := by
        rw [show (s.task t).closeGuard = _ from hok.guard, hok.closeGuard.mpr (.inl hst),
          Bool.true_or]
      have hc : (s.core.task t).isClosed = false :=
        Bool.eq_false_iff.mpr fun hc => hclosed (hok.isClosed.mp hc)
      rw [hguard, hc, decide_eq_true hreg]
      rfl
    · rename_i hst
      exact .one (.dispatch h.core hl finite hs hst) rfl (fun u _ => ⟨.rfl, .rfl⟩) h.closers h.evs
        (assert_failed h.failed (decide_eq_true ⟨hclosed, hw⟩)) (.dispatch _ hp hst)

theorem Inv.expiredDo (h : Inv s) (ht : t ∈ s.core.waitingQueue) : Effect s (expiredDo s t) := by
  have hok := h.ok t
  obtain ⟨hpending, hp⟩ := (life_core h.core t).heap (decide_eq_true ht)
  rw [IOCoreEpoll.expiredDo]
  dsimp only
  split
  · rename_i hw
    have ha := (life_core h.core t).asleep_iff.mpr hw
    refine .one (.rouse h.core hw) rfl (fun u _ => ⟨.rfl, .rfl⟩) h.closers h.evs
      (assert_failed h.failed (decide_eq_true (hok.asleep ha).1)) (.expire hw)
  · rename_i hw
    refine .moved h (.expired h.core t) rfl rfl rfl (assert_failed h.failed ?_) (.unheap hw)
    refine decide_eq_true ⟨fun hc => ?_, hpending⟩
    rcases (hok.closed hc).2 with ho | hd
    · rw [ho] at hp
      simp at hp
    · rcases hp with hp | hp | hp | hp <;> rw [hp] at hd <;> cases hd

theorem Inv.execute [DecidableEq Θ] (h : Inv s) {l : List T} (hl : s.core.readyQueue = t :: l)
    (batch : ℕ) : Effect s (execute s θ batch t l) := by
  have ht : t ∈ s.core.readyQueue := hl ▸ List.mem_cons_self
  have hp : place s.core t = .readyQueue := place_eq h.core (p := .readyQueue) ht
  have hok := h.ok t
  have hd : (life s t).place.dispatched = true := congrArg Place.dispatched hp
  have hsub : (s.core.task t).sub = true := by
    rw [h.core.sub, ← flatMap_contents]
    exact List.mem_flatMap.mpr ⟨.readyQueue, by decide, mem_of_place hp (by decide)⟩
  have hassert : ((s.task t).isInQueues && decide ((s.core.task t).status ≠ .pending) &&
      (s.core.task t).sub && (!(s.core.task t).isClosed ||
        decide ((s.core.task t).status = .closed ∧ (s.task t).pendingEvents = ∅))) = true := by
    have hst : (s.core.task t).status ≠ .pending := (hok.not_waiting hd).2
    rw [h.isInQueues hp, decide_eq_true hst, hsub]
    cases hc : (s.core.task t).isClosed with
    | false => rfl
    | true =>
      have hst : (s.core.task t).status = .closed := hok.isClosed.mp hc
      have hpend : (s.task t).pendingEvents = ∅ := by
        by_contra hne
        have hreg := hok.pending (Finset.nonempty_iff_ne_empty.mpr hne)
        rw [hok.registered, (hok.closed hst).1, Bool.false_and] at hreg
        cases hreg
      rw [decide_eq_true ⟨hst, hpend⟩]
      rfl
  cases hc : (s.core.task t).isClosed with
  | false =>
    refine .one (.execute h.core hl hc) rfl (fun u _ => ⟨.rfl, .rfl⟩) h.closers h.evs
      (assert_failed h.failed hassert) ?_
    rw [hc]
    exact .execute hp hc
  | true =>
    refine .one (.final h.core hl hc) rfl (fun u _ => ⟨.rfl, .rfl⟩) h.closers h.evs
      (assert_failed h.failed hassert) ?_
    rw [hc]
    exact .final hp hc

theorem Inv.ended [DecidableEq Θ] {batch : ℕ} (h : Inv s) (hs : ended c s θ batch t = some s') :
    Effect s s' := by
  obtain ⟨core, hcore, rfl⟩ := Option.map_eq_some_iff.mp hs
  obtain ⟨hm, hp⟩ := Moves.ended h.core hcore
  refine .one hm rfl (fun u _ => ⟨.rfl, .rfl⟩) h.closers h.evs (assert_failed h.failed ?_)
    (.ended hp)
  rw [h.isInQueues hp]
  rfl

/-- A step which pours one queue into another one. -/
theorem Effect.pour {p q : Place} (h : Inv s) (hstep : ∀ l : Life, l.place = p →
      Life.Step l { l with place := q })
    (hplace : ∀ u, place s'.core u = if place s.core u = p then q else place s.core u)
    (hcore : s'.core.task = s.core.task) (hheap : s'.core.waitingQueue = s.core.waitingQueue)
    (htask : s'.task = s.task) (hclosers : s'.closers = s.closers) (hevs : s'.evs = s.evs)
    (hfailed : s'.failed = false) : Effect s s' where
  life t := by
    by_cases hp : place s.core t = p
    · refine .inr ?_
      have hlife : IOCoreEpoll.life s' t = { IOCoreEpoll.life s t with place := q } := by
        simp only [IOCoreEpoll.life, hplace, hp, if_true, hcore, hheap, htask, hclosers, hevs]
      rw [hlife]
      exact hstep _ hp
    · refine .inl ?_
      simp only [IOCoreEpoll.life, hplace, hp, if_false, hcore, hheap, htask, hclosers, hevs]
  closers := hclosers ▸ h.closers
  evs := hevs ▸ h.evs
  failed := hfailed

/-- The final execution ends. -/
theorem Inv.closed (h : Inv s) {core : IOCoreCount.State T}
    (hcore : IOCoreCount.step s.core (.closed t) = some core) (h' : s'.core = core)
    (htask : s'.task = s.task) (hclosers : s'.closers = s.closers) (hevs : s'.evs = s.evs)
    (hfailed : s'.failed = s.failed) : Effect s s' where
  life u := by
    obtain ⟨-, hs⟩ := Option.ite_none_right_eq_some.mp hcore
    obtain rfl := Option.some.inj hs
    refine .inl ?_
    have hp : place s'.core u = place s.core u := by
      rw [h']
      exact place_congr fun p => by cases p <;> exact .rfl
    rw [IOCoreEpoll.life, IOCoreEpoll.life, hp, htask, hclosers, hevs, h']
  closers := hclosers ▸ h.closers
  evs := hevs ▸ h.evs
  failed := hfailed ▸ h.failed

theorem Inv.epollWait [DecidableEq Θ] {evs : List T} {mask : T → Finset Event} {fd : Bool}
    (h : Inv s) (hnil : s.evs = []) (hs : epollWait c s θ evs mask fd = some s') :
    Effect s s' := by
  obtain ⟨⟨-, hnodup, -, hmask, -⟩, hs⟩ := Option.ite_none_right_eq_some.mp hs
  obtain rfl := Option.some.inj hs
  refine ⟨fun t => ?_, h.closers, hnodup, h.failed⟩
  by_cases ht : t ∈ evs
  · refine .inr ?_
    obtain ⟨hne, hsub⟩ := hmask t ht
    have hin : (life s t).inEvs = false := by simp [life, hnil]
    have hstep := Life.Step.collect (l := life s t) (mask t) hin hsub
      (Finset.nonempty_iff_ne_empty.mpr hne)
    simp only [life, State.workAt, ht, if_true, decide_true]
    exact hstep
  · refine .inl ?_
    simp only [life, State.workAt, ht, if_false, hnil, decide_false, List.not_mem_nil]

/-! ### The role of the scheduler -/

namespace Role

omit [DecidableEq T] in
theorem collected_schedules {w : Worker T} (hw : w.collected = true) : w.schedules = true := by
  cases w <;> first | rfl | cases hw

omit [DecidableEq T] in
theorem gathers_schedules {w : Worker T} (hw : w.gathers = true) : w.schedules = true := by
  cases w <;> first | rfl | cases hw

/-- One worker at a time is the scheduler. -/
theorem scheduler (h : Role s) {θ' : Θ} (hθ : (s.worker θ).schedules = true)
    (hθ' : (s.worker θ').schedules = true) : θ = θ' :=
  h.working.eq_of_le_one (Bool.toNat_le _) hθ hθ'

theorem evs_nil (h : Role s) (hθ : (s.worker θ).schedules = true)
    (hc : (s.worker θ).collected = false) : s.evs = [] := by
  by_contra hne
  obtain ⟨θ', hθ'⟩ := h.evs hne
  obtain rfl := h.scheduler hθ (collected_schedules hθ')
  rw [hc] at hθ'
  cases hθ'

theorem ready_nil (h : Role s) (hθ : (s.worker θ).schedules = true)
    (hg : (s.worker θ).gathers = false) : s.core.ready = [] := by
  by_contra hne
  obtain ⟨θ', hθ'⟩ := h.ready hne
  obtain rfl := h.scheduler hθ (gathers_schedules hθ')
  rw [hg] at hθ'
  cases hθ'

/-- The workers stay where they are. -/
theorem keep (h : Role s) (hw : s'.worker = s.worker)
    (hflag : s'.isSchedulerWorking = s.isSchedulerWorking) (hevs : s'.evs = s.evs)
    (hready : s'.core.ready = s.core.ready) (hexec : s'.core.executed = s.core.executed)
    (hfinal : s'.core.final = s.core.final) : Role s' where
  working := by rw [hw, hflag]; exact h.working
  evs := by rw [hw, hevs]; exact h.evs
  ready := by rw [hw, hready]; exact h.ready
  event := by rw [hw, hexec]; exact h.event
  final := by rw [hw, hfinal]; exact h.final

variable [DecidableEq Θ]

omit [DecidableEq T] in
/-- A property of the worker which moves on, or of another one. -/
theorem exists_update {P : Worker T → Bool} {w : Worker T} {b : Prop}
    (hw : s'.worker = Function.update s.worker θ w) (hold : b → ∃ θ, P (s.worker θ) = true)
    (h : P w = true ∨ b ∧ P (s.worker θ) = false) : ∃ θ, P (s'.worker θ) = true := by
  rcases h with hP | ⟨hb, hP⟩
  · exact ⟨θ, by rw [hw, Function.update_self, hP]⟩
  · obtain ⟨θ', hθ'⟩ := hold hb
    refine ⟨θ', ?_⟩
    rwa [hw, Function.update_of_ne]
    rintro rfl
    rw [hP] at hθ'
    cases hθ'

/-- A worker moves on. -/
theorem move (h : Role s) {w : Worker T} (hw : s'.worker = Function.update s.worker θ w)
    (hflag : s'.isSchedulerWorking.toNat + (s.worker θ).schedules.toNat =
      s.isSchedulerWorking.toNat + w.schedules.toNat)
    (hevs : s'.evs ≠ [] → w.collected = true ∨ s.evs ≠ [] ∧ (s.worker θ).collected = false)
    (hready : s'.core.ready ≠ [] →
      w.gathers = true ∨ s.core.ready ≠ [] ∧ (s.worker θ).gathers = false)
    (hevent : ∀ t, s'.core.executed.count t + (decide ((s.worker θ).event = some t)).toNat =
      s.core.executed.count t + (decide (w.event = some t)).toNat)
    (hfinal : ∀ t, s'.core.final.count t + (decide ((s.worker θ).final = some t)).toNat =
      s.core.final.count t + (decide (w.final = some t)).toNat) : Role s' where
  working := by
    obtain ⟨n, hn, heq⟩ := h.working.move (g := fun θ => (s'.worker θ).schedules) (θ := θ)
      fun θ' hne => by rw [hw, Function.update_of_ne hne]
    rw [hw, Function.update_self] at heq
    rwa [show s'.isSchedulerWorking.toNat = n by omega]
  evs hne := exists_update hw h.evs (hevs hne)
  ready hne := exists_update hw h.ready (hready hne)
  event t := by
    obtain ⟨n, hn, heq⟩ := (h.event t).move (g := fun θ => decide ((s'.worker θ).event = some t))
      (θ := θ) fun θ' hne => by rw [hw, Function.update_of_ne hne]
    rw [hw, Function.update_self] at heq
    have := hevent t
    rwa [show s'.core.executed.count t = n by omega]
  final t := by
    obtain ⟨n, hn, heq⟩ := (h.final t).move (g := fun θ => decide ((s'.worker θ).final = some t))
      (θ := θ) fun θ' hne => by rw [hw, Function.update_of_ne hne]
    rw [hw, Function.update_self] at heq
    have := hfinal t
    rwa [show s'.core.final.count t = n by omega]

/-- A worker moves on which neither takes a task nor leaves one. -/
theorem pass (h : Role s) {w : Worker T} (hw : s'.worker = Function.update s.worker θ w)
    (hflag : s'.isSchedulerWorking.toNat + (s.worker θ).schedules.toNat =
      s.isSchedulerWorking.toNat + w.schedules.toNat)
    (hevs : s'.evs ≠ [] → w.collected = true ∨ s.evs ≠ [] ∧ (s.worker θ).collected = false)
    (hready : s'.core.ready ≠ [] →
      w.gathers = true ∨ s.core.ready ≠ [] ∧ (s.worker θ).gathers = false)
    (hexec : s'.core.executed = s.core.executed) (hfinal : s'.core.final = s.core.final)
    (hevent : (s.worker θ).event = w.event) (hfin : (s.worker θ).final = w.final) : Role s' :=
  h.move hw hflag hevs hready (fun t => by rw [hexec, hevent]) fun t => by rw [hfinal, hfin]

end Role

/-- A worker which executes a task has it. -/
theorem Inv.executed (h : Inv s) (hθ : (s.worker θ).event = some t) :
    place s.core t = .executed :=
  place_eq h.core (p := .executed)
    (List.count_pos_iff.mp ((h.role.event t).pos (decide_eq_true hθ)))

/-- A worker which executes a task for the last time has it. -/
theorem Inv.mem_final (h : Inv s) (hθ : (s.worker θ).final = some t) : t ∈ s.core.final :=
  List.count_pos_iff.mp ((h.role.final t).pos (decide_eq_true hθ))

omit [DecidableEq T] in
theorem Config.stop_spec (c : Config) (batch : ℕ) : (c.stop batch : Worker T).schedules = false ∧
    (c.stop batch : Worker T).event = none ∧ (c.stop batch : Worker T).final = none ∧
    (c.stop batch : Worker T).collected = false ∧ (c.stop batch : Worker T).gathers = false := by
  rw [Config.stop]
  split <;> exact ⟨rfl, rfl, rfl, rfl, rfl⟩

omit [DecidableEq T] in
theorem Config.next_spec (c : Config) (batch : ℕ) : (c.next batch : Worker T).schedules = false ∧
    (c.next batch : Worker T).event = none ∧ (c.next batch : Worker T).final = none ∧
    (c.next batch : Worker T).collected = false ∧ (c.next batch : Worker T).gathers = false := by
  rw [Config.next]
  split
  · exact ⟨rfl, rfl, rfl, rfl, rfl⟩
  · exact c.stop_spec _

/-! ### The steps of a worker -/

section Work

variable [DecidableEq Θ]

/-- A worker which is not the scheduler moves on, and leaves the tasks alone. -/
theorem Inv.walk (h : Inv s) {w : Worker T} (hns : (s.worker θ).schedules = false)
    (hw : w.schedules = false) (hev : (s.worker θ).event = none) (hfin : (s.worker θ).final = none)
    (hev' : w.event = none) (hfin' : w.final = none)
    (hs' : s'.worker = Function.update s.worker θ w)
    (hflag : s'.isSchedulerWorking = s.isSchedulerWorking) (hcore : s'.core = s.core)
    (htask : s'.task = s.task) (hclosers : s'.closers = s.closers) (hevs : s'.evs = s.evs)
    (hfailed : s'.failed = s.failed) : Effect s s' ∧ Role s' := by
  refine ⟨.quiet h hcore htask hclosers hevs hfailed, h.role.pass hs' ?_ (fun hne => .inr ?_)
    (fun hne => .inr ?_) (by rw [hcore]) (by rw [hcore]) (hev.trans hev'.symm)
    (hfin.trans hfin'.symm)⟩
  · rw [hflag, hns, hw]
  · refine ⟨hevs ▸ hne, Bool.eq_false_iff.mpr fun hc => ?_⟩
    exact Bool.false_ne_true (hns.symm.trans (Role.collected_schedules hc))
  · refine ⟨hcore ▸ hne, Bool.eq_false_iff.mpr fun hc => ?_⟩
    exact Bool.false_ne_true (hns.symm.trans (Role.gathers_schedules hc))

/-- The scheduler moves on and leaves the tasks alone. -/
theorem Inv.round (h : Inv s) {w : Worker T} (hsch : (s.worker θ).schedules = true)
    (hev : (s.worker θ).event = none) (hfin : (s.worker θ).final = none)
    (hw : w.schedules = true) (hev' : w.event = none) (hfin' : w.final = none)
    (hs' : s'.worker = Function.update s.worker θ w)
    (hcol : s.evs = [] ∨ w.collected = true) (hgat : s.core.ready = [] ∨ w.gathers = true)
    (hflag : s'.isSchedulerWorking = s.isSchedulerWorking) (hcore : s'.core = s.core)
    (htask : s'.task = s.task) (hclosers : s'.closers = s.closers) (hevs : s'.evs = s.evs)
    (hfailed : s'.failed = s.failed) : Effect s s' ∧ Role s' := by
  refine ⟨.quiet h hcore htask hclosers hevs hfailed, h.role.pass hs' ?_ (fun hne => .inl ?_)
    (fun hne => .inl ?_) (by rw [hcore]) (by rw [hcore]) (hev.trans hev'.symm)
    (hfin.trans hfin'.symm)⟩
  · rw [hflag, hsch, hw]
  · exact hcol.resolve_left (hevs ▸ hne)
  · exact hgat.resolve_left (hcore ▸ hne)

theorem Inv.pop {batch : ℕ} (h : Inv s) (hw : s.worker θ = .pop batch)
    (hs : work c s θ = some s') : Effect s s' ∧ Role s' := by
  simp only [IOCoreEpoll.work, hw] at hs
  split at hs
  · obtain rfl := Option.some.inj hs
    obtain ⟨h₁, h₂, h₃, -, -⟩ := c.stop_spec (T := T) batch
    exact h.walk (by rw [hw]; rfl) h₁ (by rw [hw]; rfl) (by rw [hw]; rfl) h₂ h₃ rfl rfl rfl rfl rfl
      rfl rfl
  · rename_i t l hl
    obtain rfl := Option.some.inj hs
    obtain ⟨hready, hexec, hfin⟩ := execute_lists s.core t l
    refine ⟨h.execute hl batch, ?_⟩
    cases hc : (s.core.task t).isClosed with
    | false =>
      rw [hc] at hexec hfin
      have hworker : (IOCoreEpoll.execute s θ batch t l).worker =
          Function.update s.worker θ (.onEvent batch t) := by
        simp only [IOCoreEpoll.execute, State.workAt, hc]
        rfl
      refine h.role.move hworker (by rw [hw]; rfl) (fun hne => .inr ⟨hne, by rw [hw]; rfl⟩)
        (fun hne => .inr ⟨?_, by rw [hw]; rfl⟩) (fun u => ?_) (fun u => ?_)
      · exact hready ▸ hne
      · exact (congrArg (List.count u) hexec).trans (count_cons_decide ..) ▸ by rw [hw]; rfl
      · rw [hw]
        exact congrArg (· + 0) (congrArg (List.count u) hfin)
    | true =>
      rw [hc] at hexec hfin
      have hworker : (IOCoreEpoll.execute s θ batch t l).worker =
          Function.update s.worker θ (.onFinal batch t) := by
        simp only [IOCoreEpoll.execute, State.workAt, hc]
        rfl
      refine h.role.move hworker (by rw [hw]; rfl) (fun hne => .inr ⟨hne, by rw [hw]; rfl⟩)
        (fun hne => .inr ⟨?_, by rw [hw]; rfl⟩) (fun u => ?_) (fun u => ?_)
      · exact hready ▸ hne
      · rw [hw]
        exact congrArg (· + 0) (congrArg (List.count u) hexec)
      · exact (congrArg (List.count u) hfin).trans (count_cons_decide ..) ▸ by rw [hw]; rfl

theorem Inv.onEvent {batch : ℕ} (h : Inv s) (hw : s.worker θ = .onEvent batch t)
    (hs : IOCoreEpoll.ended c s θ batch t = some s') :
    Effect s s' ∧ Role s' := by
  refine ⟨h.ended hs, ?_⟩
  obtain ⟨core, hcore, rfl⟩ := Option.map_eq_some_iff.mp hs
  obtain ⟨ht, hcore⟩ := Option.ite_none_right_eq_some.mp hcore
  obtain rfl := Option.some.inj hcore
  have hnext : ∀ w : Worker T, w = (if s.core.frontQueue = [] then .signal batch
      else c.next batch) → w.schedules = false ∧ w.event = none ∧ w.final = none := by
    rintro w rfl
    split
    · exact ⟨rfl, rfl, rfl⟩
    · exact ⟨(c.next_spec batch).1, (c.next_spec batch).2.1, (c.next_spec batch).2.2.1⟩
  have hnext := hnext _ rfl
  refine h.role.move rfl ?_ (fun hne => .inr ⟨hne, by rw [hw]; rfl⟩)
    (fun hne => .inr ⟨hne, by rw [hw]; rfl⟩) (fun u => ?_) (fun u => ?_)
  · rw [hw, hnext.1]
    rfl
  · rw [hw, hnext.2.1]
    exact count_erase_decide ht u
  · rw [hw, hnext.2.2]
    rfl

theorem Inv.onFinal {batch : ℕ} (h : Inv s) (hw : s.worker θ = .onFinal batch t)
    (hs : work c s θ = some s') : Effect s s' ∧ Role s' := by
  simp only [IOCoreEpoll.work, hw] at hs
  obtain ⟨core, hcore, rfl⟩ := Option.map_eq_some_iff.mp hs
  refine ⟨h.closed hcore rfl rfl rfl rfl rfl, ?_⟩
  obtain ⟨ht, hcore⟩ := Option.ite_none_right_eq_some.mp hcore
  obtain rfl := Option.some.inj hcore
  obtain ⟨h₁, h₂, h₃, -, -⟩ := c.next_spec (T := T) batch
  refine h.role.move rfl ?_ (fun hne => .inr ⟨hne, by rw [hw]; rfl⟩)
    (fun hne => .inr ⟨hne, by rw [hw]; rfl⟩) (fun u => ?_) (fun u => ?_)
  · rw [hw, h₁]
    rfl
  · rw [hw, h₂]
    rfl
  · rw [hw, h₃]
    exact count_erase_decide ht u

/-- The scheduler moves on. -/
theorem Inv.rolls (h : Inv s) {w : Worker T} (hsch : (s.worker θ).schedules = true)
    (hev : (s.worker θ).event = none) (hfin : (s.worker θ).final = none)
    (hw : w.schedules = true) (hev' : w.event = none) (hfin' : w.final = none)
    (hs' : s'.worker = Function.update s.worker θ w)
    (hcol : s'.evs = [] ∨ w.collected = true) (hgat : s'.core.ready = [] ∨ w.gathers = true)
    (hflag : s'.isSchedulerWorking = s.isSchedulerWorking)
    (hexec : s'.core.executed = s.core.executed) (hfinal : s'.core.final = s.core.final) :
    Role s' := by
  refine h.role.pass hs' ?_ (fun hne => .inl ?_) (fun hne => .inl ?_) hexec hfinal
    (hev.trans hev'.symm) (hfin.trans hfin'.symm)
  · rw [hflag, hsch, hw]
  · exact hcol.resolve_left hne
  · exact hgat.resolve_left hne

theorem Inv.kernel (h : Inv s) (hw : s.worker θ = .kernelDo) (hs : work c s θ = some s') :
    Effect s s' ∧ Role s' := by
  simp only [IOCoreEpoll.work, hw] at hs
  split at hs
  · rename_i hl
    obtain rfl := Option.some.inj hs
    exact h.round (by rw [hw]; rfl) (by rw [hw]; rfl) (by rw [hw]; rfl) rfl rfl rfl rfl (.inl hl)
      (.inr rfl) rfl rfl rfl rfl rfl rfl
  · rename_i t l hl
    obtain rfl := Option.some.inj hs
    refine ⟨h.kernelDo hl, h.rolls (θ := θ) (w := .kernelDo) (by rw [hw]; rfl) (by rw [hw]; rfl)
      (by rw [hw]; rfl) rfl rfl rfl ?_ (.inr rfl) (.inr rfl) ?_ ?_ ?_⟩
    · rw [← hw, Function.update_eq_self]
      unfold IOCoreEpoll.kernelDo
      dsimp only
      split <;> rfl
    all_goals
      unfold IOCoreEpoll.kernelDo
      dsimp only
      split <;> rfl

omit [DecidableEq Θ] in
theorem pendingDo_keeps (s : State T Θ) (t : T) (l : List T) :
    (IOCoreEpoll.pendingDo s t l).worker = s.worker ∧
    (IOCoreEpoll.pendingDo s t l).evs = s.evs ∧
    (IOCoreEpoll.pendingDo s t l).isSchedulerWorking = s.isSchedulerWorking ∧
    (IOCoreEpoll.pendingDo s t l).core.executed = s.core.executed ∧
    (IOCoreEpoll.pendingDo s t l).core.final = s.core.final := by
  unfold IOCoreEpoll.pendingDo IOCoreCount.pendingDo
  dsimp only
  split
  · split <;> exact ⟨rfl, rfl, rfl, rfl, rfl⟩
  · split <;> split <;> exact ⟨rfl, rfl, rfl, rfl, rfl⟩

omit [DecidableEq Θ] in
theorem expiredDo_keeps (s : State T Θ) (t : T) :
    (IOCoreEpoll.expiredDo s t).worker = s.worker ∧
    (IOCoreEpoll.expiredDo s t).evs = s.evs ∧
    (IOCoreEpoll.expiredDo s t).isSchedulerWorking = s.isSchedulerWorking ∧
    (IOCoreEpoll.expiredDo s t).core.executed = s.core.executed ∧
    (IOCoreEpoll.expiredDo s t).core.final = s.core.final := by
  unfold IOCoreEpoll.expiredDo
  dsimp only
  split <;> exact ⟨rfl, rfl, rfl, rfl, rfl⟩

theorem Inv.pending {batch : ℕ} (h : Inv s) (hw : s.worker θ = .pendingDo batch)
    (hs : work c s θ = some s') : Effect s s' ∧ Role s' := by
  have hsch : (s.worker θ).schedules = true := by rw [hw]; rfl
  have hnil := h.role.evs_nil hsch (by rw [hw]; rfl)
  simp only [IOCoreEpoll.work, hw] at hs
  split at hs
  · obtain rfl := Option.some.inj hs
    exact h.round hsch (by rw [hw]; rfl) (by rw [hw]; rfl) rfl rfl rfl rfl (.inl hnil) (.inr rfl)
      rfl
      rfl rfl rfl rfl rfl
  · rename_i t l hl
    split at hs
    · obtain rfl := Option.some.inj hs
      obtain ⟨h₁, h₂, h₃, h₄, h₅⟩ := pendingDo_keeps s t l
      have he := h.pendingDo hl hnil
      refine ⟨⟨he.life, he.closers, he.evs, he.failed⟩, h.rolls (θ := θ) hsch (by rw [hw]; rfl)
        (by rw [hw]; rfl) rfl rfl rfl (congrArg (Function.update · θ _) h₁)
        (.inl (h₂.trans hnil)) (.inr rfl) h₃ h₄ h₅⟩
    · obtain rfl := Option.some.inj hs
      exact h.round hsch (by rw [hw]; rfl) (by rw [hw]; rfl) rfl rfl rfl rfl (.inl hnil) (.inr rfl)
        rfl rfl rfl rfl rfl rfl

theorem Inv.work (h : Inv s) (hs : work c s θ = some s') : Effect s s' ∧ Role s' := by
  cases hw : s.worker θ with
  | scheduleStart =>
    simp only [IOCoreEpoll.work, hw] at hs
    split at hs
    · obtain rfl := Option.some.inj hs
      exact h.walk (by rw [hw]; rfl) rfl (by rw [hw]; rfl) (by rw [hw]; rfl) rfl rfl rfl rfl rfl rfl
        rfl rfl rfl
    · rename_i hflag
      obtain rfl := Option.some.inj hs
      refine ⟨.quiet h rfl rfl rfl rfl rfl, h.role.pass rfl ?_ (fun hne => .inr ?_)
        (fun hne => .inr ?_) rfl rfl (by rw [hw]; rfl) (by rw [hw]; rfl)⟩
      · rw [hw, Bool.eq_false_iff.mpr hflag]
        rfl
      · exact ⟨hne, by rw [hw]; rfl⟩
      · exact ⟨hne, by rw [hw]; rfl⟩
  | epollWait =>
    simp only [IOCoreEpoll.work, hw] at hs
    cases hs
  | popFront =>
    simp only [IOCoreEpoll.work, hw] at hs
    obtain ⟨core, hcore, rfl⟩ := Option.map_eq_some_iff.mp hs
    have hplace := place_takeFront h.core hcore
    obtain rfl := Option.some.inj hcore
    exact ⟨.pour h (fun l hp => .takeFront hp) hplace rfl rfl rfl rfl rfl h.failed,
      h.rolls (by rw [hw]; rfl) (by rw [hw]; rfl) (by rw [hw]; rfl) rfl rfl rfl rfl (.inr rfl)
        (.inr rfl) rfl rfl rfl⟩
  | kernelDo => exact h.kernel hw hs
  | pendingDo batch => exact h.pending hw hs
  | waitingDo batch =>
    have hsch : (s.worker θ).schedules = true := by rw [hw]; rfl
    have hnil := h.role.evs_nil hsch (by rw [hw]; rfl)
    simp only [IOCoreEpoll.work, hw] at hs
    obtain ⟨-, hs⟩ := Option.ite_none_right_eq_some.mp hs
    obtain rfl := Option.some.inj hs
    exact h.round hsch (by rw [hw]; rfl) (by rw [hw]; rfl) rfl rfl rfl rfl (.inl hnil) (.inr rfl)
      rfl
      rfl rfl rfl rfl rfl
  | pushReady =>
    have hsch : (s.worker θ).schedules = true := by rw [hw]; rfl
    have hnil := h.role.evs_nil hsch (by rw [hw]; rfl)
    simp only [IOCoreEpoll.work, hw] at hs
    obtain ⟨core, hcore, rfl⟩ := Option.map_eq_some_iff.mp hs
    have hplace := place_pushReady h.core hcore
    obtain rfl := Option.some.inj hcore
    have hassert : (s.core.ready.all fun t => decide (t ∉ s.core.waitingQueue)) = true := by
      rw [List.all_eq_true]
      intro t ht
      refine decide_eq_true fun hm => ?_
      have hp : place s.core t = .ready := place_eq h.core (p := .ready) ht
      have hheap := ((life_core h.core t).heap (decide_eq_true hm)).2
      rw [show (life s t).place = _ from hp] at hheap
      simp at hheap
    exact ⟨.pour h (fun l hp => .pushReady hp) hplace rfl rfl rfl rfl rfl
        (assert_failed h.failed hassert),
      h.rolls hsch (by rw [hw]; rfl) (by rw [hw]; rfl) rfl rfl rfl rfl (.inl hnil) (.inl rfl) rfl
        rfl
        rfl⟩
  | checkReady =>
    have hsch : (s.worker θ).schedules = true := by rw [hw]; rfl
    have hnil := h.role.evs_nil hsch (by rw [hw]; rfl)
    have hready := h.role.ready_nil hsch (by rw [hw]; rfl)
    simp only [IOCoreEpoll.work, hw] at hs
    split at hs <;> obtain rfl := Option.some.inj hs <;>
      exact h.round hsch (by rw [hw]; rfl) (by rw [hw]; rfl) rfl rfl rfl rfl (.inl hnil)
        (.inl hready) rfl rfl rfl rfl rfl rfl
  | prepareWait =>
    have hsch : (s.worker θ).schedules = true := by rw [hw]; rfl
    have hnil := h.role.evs_nil hsch (by rw [hw]; rfl)
    have hready := h.role.ready_nil hsch (by rw [hw]; rfl)
    simp only [IOCoreEpoll.work, hw] at hs
    obtain ⟨-, hs⟩ := Option.ite_none_right_eq_some.mp hs
    obtain rfl := Option.some.inj hs
    exact h.round hsch (by rw [hw]; rfl) (by rw [hw]; rfl) rfl rfl rfl rfl (.inl hnil) (.inl hready)
      rfl rfl rfl rfl rfl rfl
  | poll until' =>
    have hsch : (s.worker θ).schedules = true := by rw [hw]; rfl
    have hnil := h.role.evs_nil hsch (by rw [hw]; rfl)
    have hready := h.role.ready_nil hsch (by rw [hw]; rfl)
    simp only [IOCoreEpoll.work, hw] at hs
    obtain rfl := Option.some.inj hs
    exact h.round hsch (by rw [hw]; rfl) (by rw [hw]; rfl) rfl rfl rfl rfl (.inl hnil) (.inl hready)
      rfl rfl rfl rfl rfl rfl
  | scheduleEnd =>
    have hsch : (s.worker θ).schedules = true := by rw [hw]; rfl
    have hnil := h.role.evs_nil hsch (by rw [hw]; rfl)
    have hready := h.role.ready_nil hsch (by rw [hw]; rfl)
    have hflag : s.isSchedulerWorking = true := by
      have hpos := h.role.working.pos hsch
      exact Bool.toNat_eq_one.mp (Nat.le_antisymm (Bool.toNat_le _) hpos)
    simp only [IOCoreEpoll.work, hw] at hs
    obtain rfl := Option.some.inj hs
    refine ⟨⟨fun t => .inl rfl, h.closers, h.evs, assert_failed h.failed hflag⟩,
      h.role.pass rfl ?_ (fun hne => absurd hnil hne) (fun hne => absurd hready hne) rfl rfl
        (by rw [hw]; rfl) (by rw [hw]; rfl)⟩
    rw [hflag, hw]
    rfl
  | endSignal =>
    simp only [IOCoreEpoll.work, hw] at hs
    obtain rfl := Option.some.inj hs
    exact h.walk (by rw [hw]; rfl) rfl (by rw [hw]; rfl) (by rw [hw]; rfl) rfl rfl rfl rfl rfl rfl
      rfl rfl rfl
  | signal batch =>
    simp only [IOCoreEpoll.work, hw] at hs
    obtain rfl := Option.some.inj hs
    obtain ⟨h₁, h₂, h₃, -, -⟩ := c.next_spec (T := T) batch
    exact h.walk (by rw [hw]; rfl) h₁ (by rw [hw]; rfl) (by rw [hw]; rfl) h₂ h₃ rfl rfl rfl rfl rfl
      rfl rfl
  | waitReady =>
    simp only [IOCoreEpoll.work, hw] at hs
    obtain ⟨-, hs⟩ := Option.ite_none_right_eq_some.mp hs
    obtain rfl := Option.some.inj hs
    exact h.walk (by rw [hw]; rfl) rfl (by rw [hw]; rfl) (by rw [hw]; rfl) rfl rfl rfl rfl rfl rfl
      rfl rfl rfl
  | pop batch => exact h.pop hw hs
  | onEvent batch t =>
    simp only [IOCoreEpoll.work, hw] at hs
    exact h.onEvent hw hs
  | onFinal batch t => exact h.onFinal hw hs

theorem Inv.top (h : Inv s) (hs : top c s θ t = some s') : Effect s s' ∧ Role s' := by
  obtain ⟨htop, hs⟩ := Option.ite_none_right_eq_some.mp hs
  cases hw : s.worker θ with
  | waitingDo batch =>
    have hsch : (s.worker θ).schedules = true := by rw [hw]; rfl
    have hnil := h.role.evs_nil hsch (by rw [hw]; rfl)
    simp only [hw] at hs
    obtain ⟨-, hs⟩ := Option.ite_none_right_eq_some.mp hs
    split at hs
    · obtain rfl := Option.some.inj hs
      exact h.round hsch (by rw [hw]; rfl) (by rw [hw]; rfl) rfl rfl rfl rfl (.inl hnil) (.inr rfl)
        rfl rfl rfl rfl rfl rfl
    · obtain rfl := Option.some.inj hs
      obtain ⟨h₁, h₂, h₃, h₄, h₅⟩ := expiredDo_keeps s t
      have he := h.expiredDo (isTop_iff.mp htop).1
      exact ⟨⟨he.life, he.closers, he.evs, he.failed⟩, h.rolls (θ := θ) hsch (by rw [hw]; rfl)
        (by rw [hw]; rfl) rfl rfl rfl (congrArg (Function.update · θ _) h₁)
        (.inl (h₂.trans hnil)) (.inr rfl) h₃ h₄ h₅⟩
  | prepareWait =>
    have hsch : (s.worker θ).schedules = true := by rw [hw]; rfl
    have hnil := h.role.evs_nil hsch (by rw [hw]; rfl)
    have hready := h.role.ready_nil hsch (by rw [hw]; rfl)
    simp only [hw] at hs
    split at hs <;> obtain rfl := Option.some.inj hs <;>
      exact h.round hsch (by rw [hw]; rfl) (by rw [hw]; rfl) rfl rfl rfl rfl (.inl hnil)
        (.inl hready) rfl rfl rfl rfl rfl rfl
  | _ =>
    simp only [hw] at hs
    cases hs

theorem Inv.wait {evs : List T} {mask : T → Finset Event} {fd : Bool} (h : Inv s)
    (hs : IOCoreEpoll.epollWait c s θ evs mask fd = some s') : Effect s s' ∧ Role s' := by
  have hw := (Option.ite_none_right_eq_some.mp hs).1.1
  have hsch : (s.worker θ).schedules = true := by rw [hw]; rfl
  refine ⟨h.epollWait (h.role.evs_nil hsch (by rw [hw]; rfl)) hs, ?_⟩
  have hready := h.role.ready_nil hsch (by rw [hw]; rfl)
  obtain ⟨-, hs⟩ := Option.ite_none_right_eq_some.mp hs
  obtain rfl := Option.some.inj hs
  exact h.rolls (θ := θ) hsch (by rw [hw]; rfl) (by rw [hw]; rfl) rfl rfl rfl rfl (.inr rfl)
    (.inl hready) rfl rfl rfl

end Work

section Step

variable [DecidableEq Θ]

/-- What a step does to the tasks and to the workers. -/
theorem Inv.effect {a : Action T Θ} (h : Inv s) (hs : step c s a = some s') :
    Effect s s' ∧ Role s' := by
  cases a with
  | attach t sock =>
    refine ⟨h.attach hs, ?_⟩
    obtain ⟨core, hcore, rfl⟩ := Option.map_eq_some_iff.mp hs
    obtain ⟨h₁, h₂, h₃⟩ := attach_lists hcore
    exact h.role.keep rfl rfl rfl h₁ h₂ h₃
  | postStart t =>
    refine ⟨h.postStart hs, ?_⟩
    obtain ⟨core, hcore, rfl⟩ := Option.map_eq_some_iff.mp hs
    obtain ⟨-, hcore⟩ := Option.ite_none_right_eq_some.mp hcore
    obtain rfl := Option.some.inj hcore
    exact h.role.keep rfl rfl rfl rfl rfl rfl
  | post t =>
    refine ⟨h.post hs, ?_⟩
    obtain ⟨core, hcore, rfl⟩ := Option.map_eq_some_iff.mp hs
    obtain ⟨-, hcore⟩ := Option.ite_none_right_eq_some.mp hcore
    obtain rfl := Option.some.inj hcore
    exact h.role.keep rfl rfl rfl rfl rfl rfl
  | wakeup t =>
    obtain rfl := Option.some.inj hs
    refine ⟨h.wakeup t, ?_⟩
    obtain ⟨h₁, h₂, h₃⟩ := wakeup_lists s.core t
    exact h.role.keep rfl rfl rfl h₁ h₂ h₃
  | rePost t =>
    refine ⟨h.rePost hs, ?_⟩
    obtain ⟨core, hcore, rfl⟩ := Option.map_eq_some_iff.mp hs
    obtain ⟨-, hcore⟩ := Option.ite_none_right_eq_some.mp hcore
    obtain rfl := Option.some.inj hcore
    exact h.role.keep rfl rfl rfl rfl rfl rfl
  | signal =>
    obtain ⟨-, hs⟩ := Option.ite_none_right_eq_some.mp hs
    obtain rfl := Option.some.inj hs
    exact ⟨.quiet h rfl rfl rfl rfl rfl, h.role.keep rfl rfl rfl rfl rfl rfl⟩
  | closeStart t =>
    obtain rfl := Option.some.inj hs
    refine ⟨h.closeStart t, ?_⟩
    rw [IOCoreEpoll.closeStart]
    split
    · exact h.role
    · exact h.role.keep rfl rfl rfl rfl rfl rfl
  | close t =>
    refine ⟨h.close hs, ?_⟩
    obtain ⟨-, hs⟩ := Option.ite_none_right_eq_some.mp hs
    obtain rfl := Option.some.inj hs
    obtain ⟨h₁, h₂, h₃⟩ := close_lists s.core t
    exact h.role.keep rfl rfl rfl h₁ h₂ h₃
  | setDeadline t d =>
    refine ⟨h.setDeadline hs, ?_⟩
    obtain ⟨-, hs⟩ := Option.ite_none_left_eq_some.mp hs
    obtain rfl := Option.some.inj hs
    exact h.role.keep rfl rfl rfl rfl rfl rfl
  | save θ e =>
    obtain ⟨t, ht, hs⟩ := Option.bind_eq_some_iff.mp hs
    refine ⟨h.save (h.executed ht) hs, ?_⟩
    obtain ⟨-, hs⟩ := Option.ite_none_right_eq_some.mp hs
    obtain rfl := Option.some.inj hs
    exact h.role.keep rfl rfl rfl rfl rfl rfl
  | attachSocket θ =>
    obtain ⟨t, ht, hs⟩ := Option.bind_eq_some_iff.mp hs
    refine ⟨h.attachSocket (h.executed ht) hs, ?_⟩
    obtain ⟨-, hs⟩ := Option.ite_none_left_eq_some.mp hs
    obtain rfl := Option.some.inj hs
    exact h.role.keep rfl rfl rfl rfl rfl rfl
  | edge t e =>
    refine ⟨h.edge hs, ?_⟩
    obtain ⟨-, hs⟩ := Option.ite_none_right_eq_some.mp hs
    obtain rfl := Option.some.inj hs
    exact h.role.keep rfl rfl rfl rfl rfl rfl
  | tick =>
    obtain rfl := Option.some.inj hs
    exact ⟨.quiet h rfl rfl rfl rfl rfl, h.role.keep rfl rfl rfl rfl rfl rfl⟩
  | epollWait θ evs mask fd => exact h.wait hs
  | work θ => exact h.work hs
  | top θ t => exact h.top hs

theorem Inv.step {a : Action T Θ} (h : Inv s) (hs : step c s a = some s') : Inv s' := by
  obtain ⟨he, hr⟩ := h.effect hs
  refine ⟨?_, hr, fun t => ?_, he.closers, he.evs, he.failed⟩
  · rcases step_core hs with hcore | ⟨b, hb⟩
    · exact hcore ▸ h.core
    · exact h.core.step hb
  · rcases he.life t with hl | hl
    · exact hl ▸ h.ok t
    · exact hl.ok (life_core h.core t) (h.ok t)

omit [DecidableEq Θ] in
theorem Inv.new (now : ℕ) : Inv (.new now : State T Θ) where
  core := .new
  role := {
    working := .zero fun _ => Bool.false_ne_true
    evs := fun hne => absurd rfl hne
    ready := fun hne => absurd rfl hne
    event := fun _ => .zero fun _ => Bool.false_ne_true
    final := fun _ => .zero fun _ => Bool.false_ne_true }
  ok _ := Life.Ok.new
  closers := .nil
  evs := .nil
  failed := rfl

/-- The invariant holds in every reachable state. -/
theorem inv (h : (machine c).Reachable s) : Inv s := by
  refine Machine.invariant (P := Inv) ?_ (fun s a s' hi hs => hi.step hs) h
  rintro _ ⟨now, rfl⟩
  exact .new now

end Step

end IOCoreEpoll

end Serverbox
