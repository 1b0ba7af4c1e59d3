import Serverbox.Aio.IOCoreEpollGuarantees

/-!
# The epoll core never falls asleep on work

The workers which have nothing to do wait for the ready signal, and one of them, the scheduler,
waits for epoll. When the role of the scheduler is free, the ready signal is set or a worker is
about to take the role or to set the signal. When the front queue has tasks, the event descriptor is
written or is about to be, or the scheduler is about to take the queue. The scheduler waits only
when there is nothing to execute, and not longer than up to the first deadline.

## Main definitions

* `IOCoreEpoll.Blocked`: a worker waits, and its wait does not end now.
* `IOCoreEpoll.Wakes`: the invariant.

## Main results

* `IOCoreEpoll.no_sleep`: when all the workers are blocked there is no work.
-/

namespace Serverbox

namespace IOCoreEpoll

variable {T Θ : Type*} [DecidableEq T] {c : Config} {s s' : State T Θ} {θ : Θ}

/-- The worker waits for the ready signal which is not set, or for epoll, which has no events, and
the time of its `poll` has not passed. -/
def Blocked (s : State T Θ) (θ : Θ) : Prop :=
  s.worker θ = .waitReady ∧ s.readySignal = false ∨
    ∃ until', s.worker θ = .poll until' ∧ s.eventFd = false ∧ (∀ t, (s.task t).edges = ∅) ∧
      ∀ d, until' = some d → s.now < d

/-- The worker is about to take the role of the scheduler, or to send the ready signal. -/
def Worker.elects : Worker T → Bool
  | .scheduleStart | .endSignal => true
  | _ => false

/-- The worker is about to write to the event descriptor, or to take the front queue. -/
def Worker.notices : Worker T → Bool
  | .signal _ | .popFront => true
  | _ => false

/-- The scheduler has found nothing to execute. -/
def Worker.idles : Worker T → Bool
  | .prepareWait | .poll _ => true
  | _ => false

/-- Who wakes up the workers. -/
structure Wakes (s : State T Θ) : Prop where
  role : s.isSchedulerWorking = true ∨ s.readySignal = true ∨ ∃ θ, (s.worker θ).elects = true
  front : s.core.frontQueue ≠ [] →
    s.eventFd = true ∨ 0 < s.signalers ∨ ∃ θ, (s.worker θ).notices = true
  round : ∀ θ, (s.worker θ).idles = true → s.core.pendingQueue = [] ∧ s.core.readyQueue = []
  poll : ∀ θ until', s.worker θ = .poll until' → ∀ t ∈ s.core.waitingQueue,
    ∃ d, until' = some d ∧ d ≤ (s.task t).deadline

/-- The heap and the deadlines of its tasks are the same. -/
def SameHeap (s s' : State T Θ) : Prop :=
  ∀ t ∈ s'.core.waitingQueue, t ∈ s.core.waitingQueue ∧ (s'.task t).deadline = (s.task t).deadline

omit [DecidableEq T] in
theorem SameHeap.of_eq (hheap : s'.core.waitingQueue = s.core.waitingQueue)
    (htask : ∀ t ∈ s.core.waitingQueue, (s'.task t).deadline = (s.task t).deadline) :
    SameHeap s s' :=
  fun t ht => ⟨hheap ▸ ht, htask t (hheap ▸ ht)⟩

omit [DecidableEq T] in
/-- The workers stay where they are. -/
theorem Wakes.client (h : Wakes s) (hw : s'.worker = s.worker)
    (hflag : s'.isSchedulerWorking = s.isSchedulerWorking) (hready : s'.readySignal = s.readySignal)
    (hfront : s'.core.frontQueue ≠ [] → s'.eventFd = true ∨ 0 < s'.signalers ∨
      s.core.frontQueue ≠ [] ∧ s'.eventFd = s.eventFd ∧ s'.signalers = s.signalers)
    (hpending : s'.core.pendingQueue = s.core.pendingQueue)
    (hqueue : s'.core.readyQueue = s.core.readyQueue) (hheap : SameHeap s s') : Wakes s' where
  role := by rw [hw, hflag, hready]; exact h.role
  front hne := by
    rcases hfront hne with he | hs | ⟨hold, he, hs⟩
    · exact .inl he
    · exact .inr (.inl hs)
    · rw [hw, he, hs]
      exact h.front hold
  round := by rw [hw, hpending, hqueue]; exact h.round
  poll θ until' hp t ht := by
    obtain ⟨hold, hd⟩ := hheap t ht
    rw [hd]
    exact h.poll θ until' (hw ▸ hp) t hold

omit [DecidableEq T] in
theorem Worker.idles_schedules {w : Worker T} (hw : w.idles = true) : w.schedules = true := by
  cases w <;> first | rfl | cases hw

/-- A worker moves on. -/
theorem Wakes.worker [DecidableEq Θ] (h : Wakes s) (hr : Role s) {w : Worker T}
    (hw : s'.worker = Function.update s.worker θ w)
    (hrole : s'.isSchedulerWorking = true ∨ s'.readySignal = true ∨ w.elects = true ∨
      s'.isSchedulerWorking = s.isSchedulerWorking ∧ s'.readySignal = s.readySignal ∧
        (s.worker θ).elects = false)
    (hfront : s'.core.frontQueue ≠ [] → s'.eventFd = true ∨ w.notices = true ∨
      s.core.frontQueue ≠ [] ∧ s'.eventFd = s.eventFd ∧ s'.signalers = s.signalers ∧
        (s.worker θ).notices = false)
    (hround : w.idles = true → s'.core.pendingQueue = [] ∧ s'.core.readyQueue = [])
    (hpoll : ∀ until', w = .poll until' → ∀ t ∈ s'.core.waitingQueue,
      ∃ d, until' = some d ∧ d ≤ (s'.task t).deadline)
    (hother : (s.worker θ).schedules = true ∨ s'.core.pendingQueue = s.core.pendingQueue ∧
      (s.core.readyQueue = [] → s'.core.readyQueue = []) ∧ SameHeap s s') : Wakes s' where
  role := by
    rcases hrole with hf | hs | he | ⟨hf, hs, hne⟩
    · exact .inl hf
    · exact .inr (.inl hs)
    · exact .inr (.inr ⟨θ, by rw [hw, Function.update_self, he]⟩)
    · rw [hf, hs]
      refine h.role.imp_right (.imp_right ?_)
      rintro ⟨θ', hθ'⟩
      refine ⟨θ', ?_⟩
      rwa [hw, Function.update_of_ne]
      rintro rfl
      exact Bool.false_ne_true (hne.symm.trans hθ')
  front hne := by
    rcases hfront hne with he | hn | ⟨hold, he, hs, hnot⟩
    · exact .inl he
    · exact .inr (.inr ⟨θ, by rw [hw, Function.update_self, hn]⟩)
    · rw [he, hs]
      refine (h.front hold).imp_right (.imp_right ?_)
      rintro ⟨θ', hθ'⟩
      refine ⟨θ', ?_⟩
      rwa [hw, Function.update_of_ne]
      rintro rfl
      exact Bool.false_ne_true (hnot.symm.trans hθ')
  round θ' hθ' := by
    by_cases heq : θ' = θ
    · subst heq
      rw [hw, Function.update_self] at hθ'
      exact hround hθ'
    · rw [hw, Function.update_of_ne heq] at hθ'
      rcases hother with hsch | ⟨hp, hq, -⟩
      · exact absurd (hr.scheduler (Worker.idles_schedules hθ') hsch) heq
      · obtain ⟨hp', hq'⟩ := h.round θ' hθ'
        exact ⟨hp.trans hp', hq hq'⟩
  poll θ' until' hp t ht := by
    by_cases heq : θ' = θ
    · subst heq
      rw [hw, Function.update_self] at hp
      exact hpoll until' hp t ht
    · rw [hw, Function.update_of_ne heq] at hp
      rcases hother with hsch | ⟨-, -, hheap⟩
      · exact absurd (hr.scheduler (θ := θ') (by rw [hp]; rfl) hsch) heq
      · obtain ⟨hold, hd⟩ := hheap t ht
        rw [hd]
        exact h.poll θ' until' hp t hold

/-- The deadline of a task which is not in the queues may change. -/
theorem Inv.sameHeap {x : T → IOTask} (h : Inv s) (hcore : s'.core.waitingQueue =
    s.core.waitingQueue) (htask : s'.task = x)
    (hx : ∀ t, (s.task t).isInQueues = true → (x t).deadline = (s.task t).deadline) :
    SameHeap s s' := by
  refine .of_eq hcore fun t ht => ?_
  rw [htask]
  refine hx t ?_
  have hplace := ((life_core h.core t).heap (decide_eq_true ht)).2
  rw [show (s.task t).isInQueues = _ from (h.ok t).inQueues]
  rcases hplace with hp | hp | hp | hp <;> rw [hp] <;> rfl

section Step

variable [DecidableEq Θ]

/-- A step of a worker which is not the scheduler. -/
theorem Wakes.walk (h : Wakes s) (hr : Role s) {w : Worker T}
    (hw : s'.worker = Function.update s.worker θ w) (hns : w.schedules = false)
    (hrole : s'.isSchedulerWorking = true ∨ s'.readySignal = true ∨ w.elects = true ∨
      s'.isSchedulerWorking = s.isSchedulerWorking ∧ s'.readySignal = s.readySignal ∧
        (s.worker θ).elects = false)
    (hfront : s'.core.frontQueue ≠ [] → s'.eventFd = true ∨ w.notices = true ∨
      s.core.frontQueue ≠ [] ∧ s'.eventFd = s.eventFd ∧ s'.signalers = s.signalers ∧
        (s.worker θ).notices = false)
    (hpending : s'.core.pendingQueue = s.core.pendingQueue)
    (hqueue : s.core.readyQueue = [] → s'.core.readyQueue = []) (hheap : SameHeap s s') :
    Wakes s' := by
  refine h.worker hr hw hrole hfront (fun hi => ?_) (fun until' hp => ?_)
    (.inr ⟨hpending, hqueue, hheap⟩)
  · rw [Worker.idles_schedules hi] at hns
    cases hns
  · rw [hp] at hns
    cases hns

omit [DecidableEq Θ] in
/-- The flag is set while a worker is the scheduler. -/
theorem Role.flag (hr : Role s) (hsch : (s.worker θ).schedules = true) :
    s.isSchedulerWorking = true :=
  Bool.toNat_eq_one.mp (Nat.le_antisymm (Bool.toNat_le _) (hr.working.pos hsch))

/-- A step of the scheduler, which goes on and does not come to its wait. -/
theorem Wakes.roll (h : Wakes s) (hr : Role s) {w : Worker T}
    (hw : s'.worker = Function.update s.worker θ w) (hsch : (s.worker θ).schedules = true)
    (hflag : s'.isSchedulerWorking = s.isSchedulerWorking)
    (hfront : s'.core.frontQueue ≠ [] → w.notices = true ∨
      s.core.frontQueue ≠ [] ∧ s'.eventFd = s.eventFd ∧ s'.signalers = s.signalers ∧
        (s.worker θ).notices = false)
    (hni : w.idles = false) : Wakes s' := by
  refine h.worker hr hw (.inl (hflag.trans (hr.flag hsch))) (fun hne => .inr (hfront hne))
    (fun hi => ?_) (fun until' hp => ?_) (.inl hsch)
  · rw [hni] at hi
    cases hi
  · rw [hp] at hni
    cases hni

omit [DecidableEq Θ] in
theorem kernelDo_same (s : State T Θ) (t : T) (l : List T) :
    (kernelDo s t l).worker = s.worker ∧
    (kernelDo s t l).isSchedulerWorking = s.isSchedulerWorking ∧
    (kernelDo s t l).core.frontQueue = s.core.frontQueue ∧
    (kernelDo s t l).eventFd = s.eventFd ∧ (kernelDo s t l).signalers = s.signalers := by
  unfold kernelDo
  dsimp only
  split <;> exact ⟨rfl, rfl, rfl, rfl, rfl⟩

omit [DecidableEq Θ] in
theorem pendingDo_same (s : State T Θ) (t : T) (l : List T) :
    (pendingDo s t l).core.frontQueue = s.core.frontQueue ∧
    (pendingDo s t l).eventFd = s.eventFd ∧ (pendingDo s t l).signalers = s.signalers := by
  unfold pendingDo IOCoreCount.pendingDo
  dsimp only
  split
  · split <;> exact ⟨rfl, rfl, rfl⟩
  · split <;> split <;> exact ⟨rfl, rfl, rfl⟩

omit [DecidableEq Θ] in
theorem expiredDo_same (s : State T Θ) (t : T) :
    (expiredDo s t).core.frontQueue = s.core.frontQueue ∧
    (expiredDo s t).eventFd = s.eventFd ∧ (expiredDo s t).signalers = s.signalers := by
  unfold expiredDo
  dsimp only
  split <;> exact ⟨rfl, rfl, rfl⟩

omit [DecidableEq Θ] in
theorem execute_same (s : IOCoreCount.State T) (t : T) (l : List T) :
    (IOCoreCount.execute s t l).frontQueue = s.frontQueue ∧
    (IOCoreCount.execute s t l).pendingQueue = s.pendingQueue ∧
    (IOCoreCount.execute s t l).waitingQueue = s.waitingQueue := by
  unfold IOCoreCount.execute
  dsimp only
  split <;> split <;> exact ⟨rfl, rfl, rfl⟩

omit [DecidableEq Θ] in
theorem attach_same {s s' : IOCoreCount.State T} {t : T}
    (hs : IOCoreCount.step s (.attach t) = some s') :
    s'.frontQueue = s.frontQueue ∧ s'.pendingQueue = s.pendingQueue ∧
    s'.readyQueue = s.readyQueue ∧ s'.waitingQueue = s.waitingQueue := by
  rw [IOCoreCount.step, IOCoreCount.attach] at hs
  dsimp only at hs
  split at hs
  · cases hs
  · split at hs
    · obtain ⟨-, hs⟩ := Option.ite_none_right_eq_some.mp hs
      exact Option.some.inj hs ▸ ⟨rfl, rfl, rfl, rfl⟩
    · obtain ⟨-, hs⟩ := Option.ite_none_left_eq_some.mp hs
      exact Option.some.inj hs ▸ ⟨rfl, rfl, rfl, rfl⟩

omit [DecidableEq Θ] in
theorem wakeup_same (s : IOCoreCount.State T) (t : T) :
    (IOCoreCount.wakeup s t).frontQueue = s.frontQueue ∧
    (IOCoreCount.wakeup s t).pendingQueue = s.pendingQueue ∧
    (IOCoreCount.wakeup s t).readyQueue = s.readyQueue ∧
    (IOCoreCount.wakeup s t).waitingQueue = s.waitingQueue := by
  unfold IOCoreCount.wakeup
  dsimp only
  split <;> exact ⟨rfl, rfl, rfl, rfl⟩

omit [DecidableEq Θ] in
theorem close_same (s : IOCoreCount.State T) (t : T) :
    (IOCoreCount.close s t).frontQueue = s.frontQueue ∧
    (IOCoreCount.close s t).pendingQueue = s.pendingQueue ∧
    (IOCoreCount.close s t).readyQueue = s.readyQueue ∧
    (IOCoreCount.close s t).waitingQueue = s.waitingQueue := by
  unfold IOCoreCount.close
  dsimp only
  split
  · exact ⟨rfl, rfl, rfl, rfl⟩
  · split <;> exact ⟨rfl, rfl, rfl, rfl⟩

omit [DecidableEq Θ] in
/-- A task gets new fields, and its deadline is the same. -/
theorem deadline_update {f : T → IOTask} {t : T} {x : IOTask} (hx : x.deadline = (f t).deadline)
    (u : T) : (Function.update f t x u).deadline = (f u).deadline := by
  by_cases hu : u = t
  · subst hu
    rw [Function.update_self, hx]
  · rw [Function.update_of_ne hu]

omit [DecidableEq T] [DecidableEq Θ] in
theorem SameHeap.refl (s : State T Θ) : SameHeap s s := fun _ ht => ⟨ht, rfl⟩

/-- A worker which is neither the scheduler nor about to do anything for the others moves on. -/
theorem Wakes.stroll (h : Wakes s) (hr : Role s) {w : Worker T}
    (hw : s'.worker = Function.update s.worker θ w) (hns : w.schedules = false)
    (helects : (s.worker θ).elects = false) (hnotices : (s.worker θ).notices = false)
    (hflag : s'.isSchedulerWorking = s.isSchedulerWorking) (hready : s'.readySignal = s.readySignal)
    (hfront : s'.core.frontQueue ≠ [] → w.notices = true ∨ s.core.frontQueue ≠ [])
    (hfd : s'.eventFd = s.eventFd) (hsig : s'.signalers = s.signalers)
    (hpending : s'.core.pendingQueue = s.core.pendingQueue)
    (hqueue : s.core.readyQueue = [] → s'.core.readyQueue = []) (hheap : SameHeap s s') :
    Wakes s' := by
  refine h.walk hr hw hns (.inr (.inr (.inr ⟨hflag, hready, helects⟩))) (fun hne => ?_) hpending
    hqueue hheap
  rcases hfront hne with hn | hold
  · exact .inr (.inl hn)
  · exact .inr (.inr ⟨hold, hfd, hsig, hnotices⟩)

theorem Wakes.pop {batch : ℕ} (h : Wakes s) (hi : Inv s) (hw : s.worker θ = .pop batch)
    (hs : work c s θ = some s') : Wakes s' := by
  simp only [IOCoreEpoll.work, hw] at hs
  split at hs
  · obtain rfl := Option.some.inj hs
    exact h.stroll hi.role rfl (c.stop_spec batch).1 (by rw [hw]; rfl) (by rw [hw]; rfl) rfl rfl
      .inr rfl rfl rfl id (.refl _)
  · rename_i t l hl
    obtain rfl := Option.some.inj hs
    refine h.stroll hi.role (θ := θ) rfl ?_ (by rw [hw]; rfl) (by rw [hw]; rfl) rfl rfl
      (fun hne => ?_) rfl rfl ?_ (fun hnil => ?_) ?_
    · split <;> rfl
    · exact .inr ((execute_same s.core t l).1 ▸ hne)
    · exact (execute_same s.core t l).2.1
    · rw [hl] at hnil
      cases hnil
    · refine .of_eq (execute_same s.core t l).2.2 fun u hu => ?_
      have hne : u ≠ t := by
        rintro rfl
        have hm : u ∈ s.core.readyQueue := hl ▸ List.mem_cons_self
        have hp : place s.core u = .readyQueue := place_eq hi.core (p := .readyQueue) hm
        have hheap := ((life_core hi.core u).heap (decide_eq_true hu)).2
        rw [show (life s u).place = _ from hp] at hheap
        simp at hheap
      exact congrArg IOTask.deadline (Function.update_of_ne hne ..)

/-- A round of the scheduler goes on. -/
theorem Wakes.rolls (h : Wakes s) (hr : Role s) {w : Worker T}
    (hw : s'.worker = Function.update s.worker θ w) (hsch : (s.worker θ).schedules = true)
    (hnotices : (s.worker θ).notices = false) (hni : w.idles = false)
    (hflag : s'.isSchedulerWorking = s.isSchedulerWorking)
    (hfront : s'.core.frontQueue = s.core.frontQueue) (hfd : s'.eventFd = s.eventFd)
    (hsig : s'.signalers = s.signalers) : Wakes s' :=
  h.roll hr hw hsch hflag
    (fun hne => .inr ⟨hfront ▸ hne, hfd, hsig, hnotices⟩) hni

/-- The scheduler has nothing to execute, and is going to wait for the deadlines. -/
theorem Wakes.idle (h : Wakes s) (hr : Role s) {w : Worker T}
    (hw : s' = s.workAt θ w) (hsch : (s.worker θ).schedules = true)
    (hnotices : (s.worker θ).notices = false)
    (hround : s.core.pendingQueue = [] ∧ s.core.readyQueue = [])
    (hpoll : ∀ until', w = .poll until' → ∀ t ∈ s.core.waitingQueue,
      ∃ d, until' = some d ∧ d ≤ (s.task t).deadline) : Wakes s' := by
  subst hw
  exact h.worker hr rfl (.inl (hr.flag hsch))
    (fun hne => .inr (.inr ⟨hne, rfl, rfl, hnotices⟩)) (fun _ => hround) hpoll (.inl hsch)

theorem Wakes.work (h : Wakes s) (hi : Inv s) (hs : work c s θ = some s') : Wakes s' := by
  have hr := hi.role
  cases hw : s.worker θ with
  | scheduleStart =>
    simp only [IOCoreEpoll.work, hw] at hs
    split at hs
    · rename_i hflag
      obtain rfl := Option.some.inj hs
      exact h.walk hr (w := .pop 0) rfl rfl (.inl hflag)
        (fun hne => .inr (.inr ⟨hne, rfl, rfl, by rw [hw]; rfl⟩)) rfl id (.refl _)
    · obtain rfl := Option.some.inj hs
      exact h.worker hr (w := .epollWait) rfl (.inl rfl)
        (fun hne => .inr (.inr ⟨hne, rfl, rfl, by rw [hw]; rfl⟩))
        (fun hi => absurd hi Bool.false_ne_true) (fun _ hp => by cases hp)
        (.inr ⟨rfl, id, .refl _⟩)
  | epollWait =>
    simp only [IOCoreEpoll.work, hw] at hs
    cases hs
  | popFront =>
    simp only [IOCoreEpoll.work, hw] at hs
    obtain ⟨core, hcore, rfl⟩ := Option.map_eq_some_iff.mp hs
    obtain rfl := Option.some.inj hcore
    exact h.roll hr (w := .kernelDo) rfl (by rw [hw]; rfl) rfl (fun hne => absurd rfl hne) rfl
  | kernelDo =>
    simp only [IOCoreEpoll.work, hw] at hs
    split at hs
    · obtain rfl := Option.some.inj hs
      exact h.rolls hr rfl (by rw [hw]; rfl) (by rw [hw]; rfl) rfl rfl rfl rfl rfl
    · rename_i t l hl
      obtain rfl := Option.some.inj hs
      obtain ⟨h₁, h₂, h₃, h₄, h₅⟩ := kernelDo_same s t l
      refine h.rolls hr (w := .kernelDo) (θ := θ) ?_ (by rw [hw]; rfl) (by rw [hw]; rfl) rfl h₂ h₃
        h₄ h₅
      rw [← hw, Function.update_eq_self, h₁]
  | pendingDo batch =>
    simp only [IOCoreEpoll.work, hw] at hs
    split at hs
    · obtain rfl := Option.some.inj hs
      exact h.rolls hr rfl (by rw [hw]; rfl) (by rw [hw]; rfl) rfl rfl rfl rfl rfl
    · rename_i t l hl
      split at hs
      · obtain rfl := Option.some.inj hs
        obtain ⟨h₁, -, h₃, -, -⟩ := pendingDo_keeps s t l
        obtain ⟨h₆, h₇, h₈⟩ := pendingDo_same s t l
        exact h.rolls hr (congrArg (Function.update · θ _) h₁) (by rw [hw]; rfl) (by rw [hw]; rfl)
          rfl h₃ h₆ h₇ h₈
      · obtain rfl := Option.some.inj hs
        exact h.rolls hr rfl (by rw [hw]; rfl) (by rw [hw]; rfl) rfl rfl rfl rfl rfl
  | waitingDo batch =>
    simp only [IOCoreEpoll.work, hw] at hs
    obtain ⟨-, hs⟩ := Option.ite_none_right_eq_some.mp hs
    obtain rfl := Option.some.inj hs
    exact h.rolls hr rfl (by rw [hw]; rfl) (by rw [hw]; rfl) rfl rfl rfl rfl rfl
  | pushReady =>
    simp only [IOCoreEpoll.work, hw] at hs
    obtain ⟨core, hcore, rfl⟩ := Option.map_eq_some_iff.mp hs
    obtain rfl := Option.some.inj hcore
    exact h.rolls hr rfl (by rw [hw]; rfl) (by rw [hw]; rfl) rfl rfl rfl rfl rfl
  | checkReady =>
    simp only [IOCoreEpoll.work, hw] at hs
    split at hs
    · obtain rfl := Option.some.inj hs
      exact h.rolls hr rfl (by rw [hw]; rfl) (by rw [hw]; rfl) rfl rfl rfl rfl rfl
    · rename_i hnone
      obtain ⟨hq, hp⟩ := not_or.mp hnone
      exact h.idle hr (Option.some.inj hs).symm (by rw [hw]; rfl) (by rw [hw]; rfl)
        ⟨not_not.mp hp, not_not.mp hq⟩ fun _ hp => by cases hp
  | prepareWait =>
    simp only [IOCoreEpoll.work, hw] at hs
    obtain ⟨hnil, hs⟩ := Option.ite_none_right_eq_some.mp hs
    refine h.idle hr (Option.some.inj hs).symm (by rw [hw]; rfl) (by rw [hw]; rfl)
      (h.round θ (by rw [hw]; rfl)) fun _ _ t ht => ?_
    rw [hnil] at ht
    cases ht
  | poll until' =>
    simp only [IOCoreEpoll.work, hw] at hs
    obtain rfl := Option.some.inj hs
    exact h.rolls hr rfl (by rw [hw]; rfl) (by rw [hw]; rfl) rfl rfl rfl rfl rfl
  | scheduleEnd =>
    simp only [IOCoreEpoll.work, hw] at hs
    obtain rfl := Option.some.inj hs
    exact h.worker hr (w := .endSignal) rfl (.inr (.inr (.inl rfl)))
      (fun hne => .inr (.inr ⟨hne, rfl, rfl, by rw [hw]; rfl⟩))
      (fun hi => absurd hi Bool.false_ne_true) (fun _ hp => by cases hp)
      (.inl (by rw [hw]; rfl))
  | endSignal =>
    simp only [IOCoreEpoll.work, hw] at hs
    obtain rfl := Option.some.inj hs
    exact h.walk hr (w := .pop 0) rfl rfl (.inr (.inl rfl))
      (fun hne => .inr (.inr ⟨hne, rfl, rfl, by rw [hw]; rfl⟩)) rfl id (.refl _)
  | pop batch => exact h.pop hi hw hs
  | onEvent batch t =>
    simp only [IOCoreEpoll.work, hw] at hs
    obtain ⟨core, hcore, rfl⟩ := Option.map_eq_some_iff.mp hs
    obtain ⟨ht, hcore⟩ := Option.ite_none_right_eq_some.mp hcore
    obtain rfl := Option.some.inj hcore
    refine h.stroll hr (θ := θ) rfl ?_ (by rw [hw]; rfl) (by rw [hw]; rfl) rfl rfl (fun _ => ?_)
      rfl rfl rfl id ?_
    · split
      · rfl
      · exact (c.next_spec batch).1
    · split
      · exact .inl rfl
      · exact .inr ‹_›
    · exact .of_eq rfl fun u _ => deadline_update (by rfl) u
  | onFinal batch t =>
    simp only [IOCoreEpoll.work, hw] at hs
    obtain ⟨core, hcore, rfl⟩ := Option.map_eq_some_iff.mp hs
    obtain ⟨ht, hcore⟩ := Option.ite_none_right_eq_some.mp hcore
    obtain rfl := Option.some.inj hcore
    exact h.stroll hr rfl (c.next_spec batch).1 (by rw [hw]; rfl) (by rw [hw]; rfl) rfl rfl .inr rfl
      rfl rfl id (.of_eq rfl fun _ _ => rfl)
  | signal batch =>
    simp only [IOCoreEpoll.work, hw] at hs
    obtain rfl := Option.some.inj hs
    exact h.walk hr rfl (c.next_spec batch).1 (.inr (.inr (.inr ⟨rfl, rfl, by rw [hw]; rfl⟩)))
      (fun _ => .inl rfl) rfl id (.refl _)
  | waitReady =>
    simp only [IOCoreEpoll.work, hw] at hs
    obtain ⟨-, hs⟩ := Option.ite_none_right_eq_some.mp hs
    obtain rfl := Option.some.inj hs
    exact h.walk hr (w := .scheduleStart) rfl rfl (.inr (.inr (.inl rfl)))
      (fun hne => .inr (.inr ⟨hne, rfl, rfl, by rw [hw]; rfl⟩)) rfl id (.refl _)

theorem Wakes.top (h : Wakes s) (hi : Inv s) (hs : top c s θ t = some s') : Wakes s' := by
  obtain ⟨htop, hs⟩ := Option.ite_none_right_eq_some.mp hs
  cases hw : s.worker θ with
  | waitingDo batch =>
    simp only [hw] at hs
    obtain ⟨-, hs⟩ := Option.ite_none_right_eq_some.mp hs
    split at hs
    · obtain rfl := Option.some.inj hs
      exact h.rolls hi.role rfl (by rw [hw]; rfl) (by rw [hw]; rfl) rfl rfl rfl rfl rfl
    · obtain rfl := Option.some.inj hs
      obtain ⟨h₁, -, h₃, -, -⟩ := expiredDo_keeps s t
      obtain ⟨h₆, h₇, h₈⟩ := expiredDo_same s t
      exact h.rolls hi.role (congrArg (Function.update · θ _) h₁) (by rw [hw]; rfl)
        (by rw [hw]; rfl) rfl h₃ h₆ h₇ h₈
  | prepareWait =>
    simp only [hw] at hs
    split at hs
    · obtain rfl := Option.some.inj hs
      exact h.rolls hi.role rfl (by rw [hw]; rfl) (by rw [hw]; rfl) rfl rfl rfl rfl rfl
    · rename_i hnow
      refine h.idle hi.role (Option.some.inj hs).symm (by rw [hw]; rfl) (by rw [hw]; rfl)
        (h.round θ (by rw [hw]; rfl)) fun until' hp u hu => ?_
      have hle := (isTop_iff.mp htop).2 u hu
      cases hp
      exact ⟨_, rfl, by omega⟩
  | _ =>
    simp only [hw] at hs
    cases hs

theorem Wakes.step {a : Action T Θ} (h : Wakes s) (hi : Inv s) (hs : step c s a = some s') :
    Wakes s' := by
  cases a with
  | attach t sock =>
    obtain ⟨core, hcore, rfl⟩ := Option.map_eq_some_iff.mp hs
    obtain ⟨h₁, h₂, h₃, h₄⟩ := attach_same hcore
    exact h.client rfl rfl rfl (fun hne => .inr (.inr ⟨h₁ ▸ hne, rfl, rfl⟩)) h₂ h₃
      (hi.sameHeap h₄ rfl fun u _ => deadline_update (by rfl) u)
  | postStart t =>
    obtain ⟨core, hcore, rfl⟩ := Option.map_eq_some_iff.mp hs
    obtain ⟨-, hcore⟩ := Option.ite_none_right_eq_some.mp hcore
    obtain rfl := Option.some.inj hcore
    exact h.client rfl rfl rfl (fun hne => .inr (.inr ⟨hne, rfl, rfl⟩)) rfl rfl
      (hi.sameHeap rfl rfl fun u _ => deadline_update (by rfl) u)
  | post t | rePost t =>
    obtain ⟨core, hcore, rfl⟩ := Option.map_eq_some_iff.mp hs
    obtain ⟨-, hcore⟩ := Option.ite_none_right_eq_some.mp hcore
    obtain rfl := Option.some.inj hcore
    refine h.client rfl rfl rfl (fun _ => ?_) rfl rfl ?_
    · by_cases hnil : s.core.frontQueue = []
      · exact .inr (.inl ((if_pos hnil).symm ▸ Nat.succ_pos _))
      · exact .inr (.inr ⟨hnil, rfl, if_neg hnil⟩)
    · first
      | exact hi.sameHeap rfl rfl fun u _ => deadline_update (by rfl) u
      | exact .of_eq rfl fun _ _ => rfl
  | wakeup t =>
    obtain rfl := Option.some.inj hs
    obtain ⟨h₁, h₂, h₃, h₄⟩ := wakeup_same s.core t
    exact h.client rfl rfl rfl (fun hne => .inr (.inr ⟨h₁ ▸ hne, rfl, rfl⟩)) h₂ h₃
      (.of_eq h₄ fun _ _ => rfl)
  | signal =>
    obtain ⟨-, hs⟩ := Option.ite_none_right_eq_some.mp hs
    obtain rfl := Option.some.inj hs
    exact h.client rfl rfl rfl (fun _ => .inl rfl) rfl rfl (.refl _)
  | closeStart t =>
    obtain rfl := Option.some.inj hs
    rw [IOCoreEpoll.closeStart]
    split
    · exact h
    · exact h.client rfl rfl rfl (fun hne => .inr (.inr ⟨hne, rfl, rfl⟩)) rfl rfl
        (hi.sameHeap rfl rfl fun u _ => deadline_update (by rfl) u)
  | close t =>
    obtain ⟨-, hs⟩ := Option.ite_none_right_eq_some.mp hs
    obtain rfl := Option.some.inj hs
    obtain ⟨h₁, h₂, h₃, h₄⟩ := close_same s.core t
    exact h.client rfl rfl rfl (fun hne => .inr (.inr ⟨h₁ ▸ hne, rfl, rfl⟩)) h₂ h₃
      (.of_eq h₄ fun _ _ => rfl)
  | setDeadline t d =>
    obtain ⟨hq, hs⟩ := Option.ite_none_left_eq_some.mp hs
    obtain rfl := Option.some.inj hs
    refine h.client rfl rfl rfl (fun hne => .inr (.inr ⟨hne, rfl, rfl⟩)) rfl rfl
      (hi.sameHeap rfl rfl fun u hu => ?_)
    -- The task of the call is not in the queues.
    have hne : u ≠ t := fun heq => hq (heq ▸ hu)
    exact congrArg IOTask.deadline (Function.update_of_ne hne ..)
  | save θ e =>
    obtain ⟨t, -, hs⟩ := Option.bind_eq_some_iff.mp hs
    obtain ⟨-, hs⟩ := Option.ite_none_right_eq_some.mp hs
    obtain rfl := Option.some.inj hs
    exact h.client rfl rfl rfl (fun hne => .inr (.inr ⟨hne, rfl, rfl⟩)) rfl rfl
      (hi.sameHeap rfl rfl fun u _ => deadline_update (by rfl) u)
  | attachSocket θ =>
    obtain ⟨t, -, hs⟩ := Option.bind_eq_some_iff.mp hs
    obtain ⟨-, hs⟩ := Option.ite_none_left_eq_some.mp hs
    obtain rfl := Option.some.inj hs
    exact h.client rfl rfl rfl (fun hne => .inr (.inr ⟨hne, rfl, rfl⟩)) rfl rfl
      (hi.sameHeap rfl rfl fun u _ => deadline_update (by rfl) u)
  | edge t e =>
    obtain ⟨-, hs⟩ := Option.ite_none_right_eq_some.mp hs
    obtain rfl := Option.some.inj hs
    exact h.client rfl rfl rfl (fun hne => .inr (.inr ⟨hne, rfl, rfl⟩)) rfl rfl
      (hi.sameHeap rfl rfl fun u _ => deadline_update (by rfl) u)
  | tick =>
    obtain rfl := Option.some.inj hs
    exact h.client rfl rfl rfl (fun hne => .inr (.inr ⟨hne, rfl, rfl⟩)) rfl rfl (.refl _)
  | epollWait θ evs mask fd =>
    obtain ⟨⟨hw, -⟩, hs⟩ := Option.ite_none_right_eq_some.mp hs
    obtain rfl := Option.some.inj hs
    exact h.roll hi.role (θ := θ) (w := .popFront) rfl (by rw [hw]; rfl) rfl (fun _ => .inl rfl) rfl
  | work θ => exact h.work hi hs
  | top θ t => exact h.top hi hs

omit [DecidableEq T] [DecidableEq Θ] in
theorem Wakes.new [Nonempty Θ] (now : ℕ) : Wakes (.new now : State T Θ) where
  role := .inr (.inr ⟨Classical.arbitrary Θ, rfl⟩)
  front hne := absurd rfl hne
  round _ hi := absurd hi Bool.false_ne_true
  poll _ _ hp := by cases hp

/-- Somebody wakes up the workers in every reachable state. -/
theorem wakes [Nonempty Θ] (h : (machine c).Reachable s) : Wakes s := by
  refine Machine.invariant_of (P := Wakes) (Q := Inv) (fun _ => inv) ?_
    (fun s a s' hi _ hw hs => hw.step hi hs) h
  rintro _ ⟨now, rfl⟩
  exact .new now

end Step

/-! ### The results -/

section Results

variable [DecidableEq Θ]

omit [DecidableEq T] [DecidableEq Θ] in
/-- A blocked scheduler waits for epoll. -/
theorem Blocked.schedules (h : Blocked s θ) (hsch : (s.worker θ).schedules = true) :
    ∃ until', s.worker θ = .poll until' ∧ s.eventFd = false ∧ (∀ t, (s.task t).edges = ∅) ∧
      ∀ d, until' = some d → s.now < d := by
  rcases h with ⟨hw, -⟩ | hpoll
  · rw [hw] at hsch
    cases hsch
  · exact hpoll

omit [DecidableEq T] [DecidableEq Θ] in
theorem Blocked.quiet (h : Blocked s θ) : (s.worker θ).elects = false ∧
    (s.worker θ).notices = false ∧ (s.worker θ).event = none := by
  rcases h with ⟨hw, -⟩ | ⟨until', hw, -⟩ <;> rw [hw] <;> exact ⟨rfl, rfl, rfl⟩

omit [DecidableEq Θ] in
/-- The flag is set by a scheduler. -/
theorem Role.exists_scheduler (h : Role s) (hf : s.isSchedulerWorking = true) :
    ∃ θ, (s.worker θ).schedules = true := by
  obtain ⟨l, -, hmem, hlen⟩ := h.working
  rw [hf] at hlen
  obtain ⟨θ, hθ⟩ := List.exists_mem_of_length_pos (Nat.lt_of_lt_of_eq Nat.zero_lt_one hlen.symm)
  exact ⟨θ, (hmem θ).mp hθ⟩

omit [DecidableEq Θ] in
/-- When all the workers are blocked one of them is the scheduler, which waits for epoll. -/
theorem Wakes.poller [Nonempty Θ] (h : Wakes s) (hr : Role s) (hb : ∀ θ, Blocked s θ) :
    ∃ θ, (s.worker θ).schedules = true := by
  have hflag : s.isSchedulerWorking = true := by
    rcases h.role with hf | hs | ⟨θ, hθ⟩
    · exact hf
    · by_contra hf
      rcases hb (Classical.arbitrary Θ) with ⟨-, hr⟩ | ⟨until', hw, -⟩
      · exact Bool.false_ne_true (hr.symm.trans hs)
      · exact hf (hr.flag (θ := Classical.arbitrary Θ) (by rw [hw]; rfl))
    · exact absurd hθ (by rw [(hb θ).quiet.1]; exact Bool.false_ne_true)
  exact hr.exists_scheduler hflag

/-- **No sleep on work**: when all the workers are blocked and no thread is about to write to the
event descriptor, each task which was posted is with a thread which is about to push it to the front
queue, or sleeps, and then it has no new events and its deadline has not passed. Events which were
saved in an earlier execution and not cleared may still be there; `fresh` leaves them out. -/
theorem no_sleep [Nonempty Θ] (h : (machine c).Reachable s) (hb : ∀ θ, Blocked s θ)
    (hs : s.signalers = 0) :
    (∃ θ until', s.worker θ = .poll until') ∧
    ∀ t ∈ s.core.lives, t ∈ s.core.posted ∨ t ∈ s.core.woken ∨
      t ∈ s.core.asleep ∧ (life s t).fresh = ∅ ∧
        ((s.task t).deadline = timeInfinite ∨ s.now < (s.task t).deadline) := by
  have hi := inv h
  have hwakes := wakes h
  obtain ⟨θ, hsch⟩ := hwakes.poller hi.role hb
  obtain ⟨until', hw, hfd, hedges, huntil⟩ := (hb θ).schedules hsch
  obtain ⟨hpending, hqueue⟩ := hwakes.round θ (by rw [hw]; rfl)
  have hevs := hi.role.evs_nil hsch (by rw [hw]; rfl)
  have hready := hi.role.ready_nil hsch (by rw [hw]; rfl)
  have hfront : s.core.frontQueue = [] := by
    by_contra hne
    rcases hwakes.front hne with he | hpos | ⟨θ', hθ'⟩
    · exact Bool.false_ne_true (hfd.symm.trans he)
    · exact hpos.ne' hs
    · exact Bool.false_ne_true ((hb θ').quiet.2.1.symm.trans hθ')
  have hexec : s.core.executed = [] := by
    refine List.eq_nil_iff_forall_not_mem.mpr fun t ht => ?_
    obtain ⟨l, -, hmem, hlen⟩ := hi.role.event t
    obtain ⟨θ', hθ'⟩ := List.exists_mem_of_length_pos (hlen ▸ List.count_pos_iff.mpr ht)
    have hevent := of_decide_eq_true ((hmem θ').mp hθ')
    rw [(hb θ').quiet.2.2] at hevent
    cases hevent
  refine ⟨⟨θ, until', hw⟩, fun t ht => ?_⟩
  rw [IOCoreCount.Inv.mem_lives, hfront, hpending, hready, hqueue, hexec] at ht
  simp only [List.not_mem_nil, or_false, false_or] at ht
  rcases ht with hp | ha | hwoken
  · exact .inl hp
  · refine .inr (.inr ⟨ha, ?_, ?_⟩)
    · have hp : place s.core t = .asleep := place_eq hi.core (p := .asleep) ha
      have hreturned : (s.task t).returned = ∅ := by
        by_contra hne
        have hin := (hi.ok t).returned (Finset.nonempty_iff_ne_empty.mpr hne)
        exact List.not_mem_nil (hevs ▸ of_decide_eq_true hin)
      rw [Life.fresh, show (life s t).task.edges = _ from hedges t,
        show (life s t).task.returned = _ from hreturned, ((hi.ok t).asleep hp).1,
        show (life s t).place = _ from hp]
      rfl
    · by_cases hd : (s.task t).deadline = timeInfinite
      · exact .inl hd
      · have hheap := ((hi.ok t).asleep (place_eq hi.core (p := .asleep) ha)).2 hd
        obtain ⟨d, hd, hle⟩ := hwakes.poll θ until' hw t (of_decide_eq_true hheap)
        exact .inr (Nat.lt_of_lt_of_le (huntil d hd) hle)
  · exact .inr (.inl hwoken)

end Results

/-! ### A run -/

/-- The other worker finds the role taken and nothing to execute, and waits. -/
def blocked : List (Action ℕ Bool) := slept ++ [Action.work true, .work true]

/-- A task which is in no place has no edges. -/
theorem Inv.no_edges (h : Inv s)
    (hl : ∀ t ∈ s.core.attached ++ s.core.lives, (s.task t).edges = ∅) (t : T) :
    (s.task t).edges = ∅ := by
  by_contra hne
  have hreg := (h.ok t).edges (Finset.nonempty_iff_ne_empty.mpr hne)
  refine hne (hl t ((mem_lives_iff h.core).mpr fun hp => ?_))
  rw [(h.ok t).registered, show (life s t).place = _ from hp] at hreg
  simp at hreg

/-- One worker waits for epoll, and the other one for the ready signal. -/
theorem blocked_of_workers {s : State ℕ Bool} (hfalse : s.worker false = .poll none)
    (htrue : s.worker true = .waitReady) (hready : s.readySignal = false)
    (hfd : s.eventFd = false) (hedges : ∀ t, (s.task t).edges = ∅) (θ : Bool) : Blocked s θ := by
  cases θ with
  | false => exact .inr ⟨none, hfalse, hfd, hedges, fun _ hd => by cases hd⟩
  | true => exact .inl ⟨htrue, hready⟩

theorem no_sleep_blocked : ∃ s : State ℕ Bool, (machine sample).Reachable s ∧
    s.core.lives = [1] ∧ (∀ θ, Blocked s θ) ∧ 1 ∈ s.core.asleep ∧ (life s 1).fresh = ∅ := by
  have hrun : ((machine sample).run (.new 0) blocked).map (fun s =>
      (s.worker false, s.worker true, s.readySignal, s.eventFd, s.signalers)) =
        some (.poll none, .waitReady, false, false, 0) := by
    decide +kernel
  have hlives : ((machine sample).run (.new 0) blocked).map (fun s =>
      (s.core.lives, s.core.attached, s.core.posted, s.core.woken, (s.task 1).edges)) =
        some ([1], [], [], [], ∅) := by
    decide +kernel
  simp only [Option.map_eq_some_iff, Prod.mk.injEq] at hrun hlives
  obtain ⟨s, hs, hfalse, htrue, hready, hfd, hsig⟩ := hrun
  obtain ⟨s', hs', hl, hattached, hposted, hwoken, hedge⟩ := hlives
  obtain rfl := Option.some.inj (hs.symm.trans hs')
  have hreach := reachable_of_run hs
  have hedges := (inv hreach).no_edges fun t ht => by
    rw [hl, hattached] at ht
    exact List.mem_singleton.mp ht ▸ hedge
  have hb := blocked_of_workers hfalse htrue hready hfd hedges
  obtain ⟨-, hall⟩ := no_sleep hreach hb hsig
  rcases hall 1 (hl ▸ List.mem_singleton_self 1) with hp | hw | ⟨ha, hfresh, -⟩
  · rw [hposted] at hp
    cases hp
  · rw [hwoken] at hw
    cases hw
  · exact ⟨s, hreach, hl, hb, ha, hfresh⟩

end IOCoreEpoll

end Serverbox
