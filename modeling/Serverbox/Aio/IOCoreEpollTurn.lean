import Serverbox.Aio.IOCoreEpollSleep

/-!
# The control flow of a worker of the epoll core

Where a worker goes in one step, what the step finds in the queues and what it does to the signals.
The steps of the other threads leave the worker where it is.

## Main definitions

* `IOCoreEpoll.Next`: from where to where a worker goes.
* `IOCoreEpoll.Turn`, `IOCoreEpoll.Aside`: a step of a worker, and of another thread.

## Main results

* `IOCoreEpoll.turn_or_aside`: each step is one of them.
-/

namespace Serverbox

namespace IOCoreEpoll

variable {T Θ : Type*} [DecidableEq T] {c : Config} {s s' : State T Θ} {t : T} {θ : Θ}

/-- Where a worker goes in its step, and what its step finds or does. -/
inductive Next (c : Config) (s s' : State T Θ) : Worker T → Worker T → Prop
  | elected (h : s.isSchedulerWorking = false) : Next c s s' .scheduleStart .epollWait
  | notElected (h : s.isSchedulerWorking = true) : Next c s s' .scheduleStart (.pop 0)
  | epollWait : Next c s s' .epollWait .popFront
  | popFront (h : s'.evs = s.evs) (hf : s'.core.frontQueue = []) (ht : s'.timestamp = s.now) :
    Next c s s' .popFront .kernelDo
  | kernelDo (h : s'.evs.length < s.evs.length) : Next c s s' .kernelDo .kernelDo
  | kernelEnd : Next c s s' .kernelDo (.pendingDo 0)
  | pendingDo (batch : ℕ) (t : T) (h : s.core.pendingQueue = t :: s'.core.pendingQueue)
    (hb : batch + 1 < c.schedBatchSize) : Next c s s' (.pendingDo batch) (.pendingDo (batch + 1))
  | pendingEnd (batch : ℕ) (h : s.core.pendingQueue = [] ∨ c.schedBatchSize ≤ batch + 1) :
    Next c s s' (.pendingDo batch) (.waitingDo 0)
  | waitingDo (batch : ℕ) (t : T) (hb : batch + 1 < c.schedBatchSize) (ht : isTop s t = true)
    (hw : s'.core.waitingQueue = s.core.waitingQueue.erase t) :
    Next c s s' (.waitingDo batch) (.waitingDo (batch + 1))
  | waitingEnd (batch : ℕ) (h : c.schedBatchSize ≤ batch + 1 ∨
      ∀ u ∈ s.core.waitingQueue, s.timestamp < (s.task u).deadline) :
    Next c s s' (.waitingDo batch) .pushReady
  | pushReady : Next c s s' .pushReady .checkReady
  | ready (h : s.core.readyQueue ≠ [] ∨ s.core.pendingQueue ≠ []) :
    Next c s s' .checkReady .scheduleEnd
  | idle (hr : s.core.readyQueue = []) (hp : s.core.pendingQueue = []) :
    Next c s s' .checkReady .prepareWait
  | expired : Next c s s' .prepareWait .epollWait
  | poll (until' : Option ℕ) : Next c s s' .prepareWait (.poll until')
  | polled (until' : Option ℕ) : Next c s s' (.poll until') .epollWait
  | scheduleEnd : Next c s s' .scheduleEnd .endSignal
  | endSignal (h : s'.readySignal = true) : Next c s s' .endSignal (.pop 0)
  | onEvent (batch : ℕ) (t : T) (h : s.core.readyQueue = t :: s'.core.readyQueue) :
    Next c s s' (.pop batch) (.onEvent batch t)
  | onFinal (batch : ℕ) (t : T) (h : s.core.readyQueue = t :: s'.core.readyQueue) :
    Next c s s' (.pop batch) (.onFinal batch t)
  | stop (batch : ℕ) (h : s.core.readyQueue = []) : Next c s s' (.pop batch) (c.stop batch)
  | notify (batch : ℕ) (t : T) : Next c s s' (.onEvent batch t) (.signal batch)
  | ended (batch : ℕ) (t : T) : Next c s s' (.onEvent batch t) (c.next batch)
  | closed (batch : ℕ) (t : T) (h : s'.core.final = s.core.final.erase t) :
    Next c s s' (.onFinal batch t) (c.next batch)
  | signal (batch : ℕ) (h : s'.eventFd = true) : Next c s s' (.signal batch) (c.next batch)
  | woken (h : s.readySignal = true) : Next c s s' .waitReady .scheduleStart

section Step

variable [DecidableEq Θ]

omit [DecidableEq Θ] in
theorem kernelDo_rest (s : State T Θ) (t : T) (l : List T) :
    (kernelDo s t l).evs = l ∧ (kernelDo s t l).readySignal = s.readySignal ∧
    (kernelDo s t l).now = s.now ∧ (kernelDo s t l).timestamp = s.timestamp ∧
    ∀ u ∈ (kernelDo s t l).core.waitingQueue, u ∈ s.core.waitingQueue := by
  unfold kernelDo
  dsimp only
  split
  · exact ⟨rfl, rfl, rfl, rfl, fun u hu => List.mem_of_mem_erase hu⟩
  · exact ⟨rfl, rfl, rfl, rfl, fun u hu => hu⟩

omit [DecidableEq Θ] in
theorem pendingDo_rest (s : State T Θ) (t : T) (l : List T) :
    (pendingDo s t l).core.pendingQueue = l ∧
    (pendingDo s t l).readySignal = s.readySignal ∧ (pendingDo s t l).now = s.now ∧
    (pendingDo s t l).timestamp = s.timestamp := by
  unfold pendingDo IOCoreCount.pendingDo
  dsimp only
  split
  · split <;> exact ⟨rfl, rfl, rfl, rfl⟩
  · split <;> split <;> exact ⟨rfl, rfl, rfl, rfl⟩

omit [DecidableEq Θ] in
/-- A task which falls asleep has a deadline after the start of the round. -/
theorem pendingDo_heap (s : State T Θ) (t : T) (l : List T) :
    ∀ u ∈ (pendingDo s t l).core.waitingQueue,
      u ∈ s.core.waitingQueue ∨ s.timestamp < (s.task u).deadline := by
  have hcore : (pendingDo s t l).core = IOCoreCount.pendingDo s.core t l
      (decide ((s.task t).pendingEvents ≠ ∅) || decide ((s.task t).deadline ≤ s.timestamp))
      (decide ((s.task t).deadline ≠ timeInfinite)) := by
    unfold pendingDo
    dsimp only
    split
    · rfl
    · split <;> rfl
  rw [hcore, IOCoreCount.pendingDo]
  dsimp only
  intro u hu
  split at hu
  · rename_i hnone
    have hlate : s.timestamp < (s.task t).deadline := by
      have h := (Bool.or_eq_false_iff.mp hnone.2).2
      exact Nat.not_le.mp (of_decide_eq_false h)
    split at hu
    · rcases List.mem_cons.mp hu with rfl | hu
      · exact .inr hlate
      · exact .inl hu
    · exact .inl hu
  · exact .inl (List.mem_of_mem_erase hu)

omit [DecidableEq Θ] in
theorem expiredDo_rest (s : State T Θ) (t : T) :
    (expiredDo s t).readySignal = s.readySignal ∧ (expiredDo s t).now = s.now ∧
    (expiredDo s t).timestamp = s.timestamp ∧
    (expiredDo s t).core.waitingQueue = s.core.waitingQueue.erase t := by
  unfold expiredDo
  dsimp only
  split <;> exact ⟨rfl, rfl, rfl, rfl⟩

omit [DecidableEq Θ] in
theorem count_pendingDo (s : IOCoreCount.State T) (t : T) (l : List T) (hasEvents finite : Bool) :
    (IOCoreCount.pendingDo s t l hasEvents finite).pendingQueue = l ∧
    (IOCoreCount.pendingDo s t l hasEvents finite).readyQueue = s.readyQueue := by
  unfold IOCoreCount.pendingDo
  dsimp only
  split <;> exact ⟨rfl, rfl⟩

omit [DecidableEq Θ] in
theorem execute_queue (s : IOCoreCount.State T) (t : T) (l : List T) :
    (IOCoreCount.execute s t l).readyQueue = l := by
  unfold IOCoreCount.execute
  dsimp only
  split <;> split <;> rfl

/-- A step of a worker. -/
structure Turn (c : Config) (s s' : State T Θ) (θ : Θ) (w : Worker T) : Prop where
  worker : s'.worker = Function.update s.worker θ w
  next : Next c s s' (s.worker θ) w
  eventFd : s.eventFd = true → s'.eventFd = true ∨ w = .popFront
  readySignal : s.readySignal = true → s'.readySignal = true ∨ w = .scheduleStart
  evs : (s.worker θ).schedules = false → s'.evs = s.evs
  heap : ∀ u ∈ s'.core.waitingQueue,
    u ∈ s.core.waitingQueue ∨ s.timestamp < (s.task u).deadline
  clock : s'.now = s.now ∧ (s'.timestamp = s.timestamp ∨ s'.timestamp = s.now)

/-- A worker moves on, and leaves the signals, the heap and the times as they are. -/
theorem Turn.quiet {w : Worker T} (hw : s'.worker = Function.update s.worker θ w)
    (hnext : Next c s s' (s.worker θ) w) (hfd : s'.eventFd = s.eventFd)
    (hready : s'.readySignal = s.readySignal) (hevs : s'.evs = s.evs)
    (hheap : s'.core.waitingQueue = s.core.waitingQueue) (hnow : s'.now = s.now)
    (htime : s'.timestamp = s.timestamp) : Turn c s s' θ w where
  worker := hw
  next := hnext
  eventFd he := .inl (hfd.trans he)
  readySignal hr := .inl (hready.trans hr)
  evs _ := hevs
  heap _ hu := .inl (hheap ▸ hu)
  clock := ⟨hnow, .inl htime⟩

theorem turn_work (hs : work c s θ = some s') : ∃ w, Turn c s s' θ w := by
  cases hw : s.worker θ with
  | scheduleStart =>
    simp only [IOCoreEpoll.work, hw] at hs
    split at hs <;> obtain rfl := Option.some.inj hs
    · exact ⟨_, .quiet rfl (hw ▸ .notElected ‹_›) rfl rfl rfl rfl rfl rfl⟩
    · exact ⟨_, .quiet rfl (hw ▸ .elected (Bool.eq_false_iff.mpr ‹_›)) rfl rfl rfl rfl rfl rfl⟩
  | epollWait =>
    simp only [IOCoreEpoll.work, hw] at hs
    cases hs
  | popFront =>
    simp only [IOCoreEpoll.work, hw] at hs
    obtain ⟨core, hcore, rfl⟩ := Option.map_eq_some_iff.mp hs
    obtain rfl := Option.some.inj hcore
    exact ⟨_, rfl, hw ▸ .popFront rfl rfl rfl, .inl, .inl, fun _ => rfl, fun _ => .inl, rfl,
      .inr rfl⟩
  | kernelDo =>
    simp only [IOCoreEpoll.work, hw] at hs
    split at hs
    · obtain rfl := Option.some.inj hs
      exact ⟨_, .quiet rfl (hw ▸ .kernelEnd) rfl rfl rfl rfl rfl rfl⟩
    · rename_i t l hl
      obtain rfl := Option.some.inj hs
      obtain ⟨h₁, -, -, h₄, -⟩ := kernelDo_same s t l
      obtain ⟨hevs, hready, hnow, htime, hheap⟩ := kernelDo_rest s t l
      refine ⟨.kernelDo, ?_, ?_, fun he => .inl (h₄.trans he), fun hr => .inl (hready.trans hr),
        fun hns => ?_, fun u hu => .inl (hheap u hu), hnow, .inl htime⟩
      · rw [h₁, ← hw, Function.update_eq_self]
      · rw [hw]
        refine .kernelDo ?_
        rw [hevs, hl]
        exact Nat.lt_succ_self _
      · rw [hw] at hns
        cases hns
  | pendingDo batch =>
    simp only [IOCoreEpoll.work, hw] at hs
    split at hs
    · obtain rfl := Option.some.inj hs
      exact ⟨_, .quiet rfl (hw ▸ .pendingEnd _ (.inl ‹_›)) rfl rfl rfl rfl rfl rfl⟩
    · rename_i t l hl
      split at hs
      · obtain rfl := Option.some.inj hs
        obtain ⟨hqueue, hready, hnow, htime⟩ := pendingDo_rest s t l
        refine ⟨.pendingDo (batch + 1), ?_, ?_,
          fun he => .inl ((pendingDo_same s t l).2.1.trans he), fun hr => .inl (hready.trans hr),
          fun hns => ?_, pendingDo_heap s t l, hnow, .inl htime⟩
        · exact congrArg (Function.update · θ _) (pendingDo_keeps s t l).1
        · rw [hw]
          exact .pendingDo _ t (hl.trans (congrArg _ hqueue.symm)) ‹_›
        · rw [hw] at hns
          cases hns
      · obtain rfl := Option.some.inj hs
        exact ⟨_, .quiet rfl (hw ▸ .pendingEnd _ (.inr (Nat.not_lt.mp ‹_›))) rfl rfl rfl rfl rfl
          rfl⟩
  | waitingDo batch =>
    simp only [IOCoreEpoll.work, hw] at hs
    obtain ⟨hend, hs⟩ := Option.ite_none_right_eq_some.mp hs
    obtain rfl := Option.some.inj hs
    have hlate : s.core.waitingQueue = [] →
        ∀ u ∈ s.core.waitingQueue, s.timestamp < (s.task u).deadline := fun hnil u hu => by
      rw [hnil] at hu
      cases hu
    exact ⟨_, .quiet rfl (hw ▸ .waitingEnd _ (hend.symm.imp_right hlate)) rfl rfl rfl rfl rfl rfl⟩
  | pushReady =>
    simp only [IOCoreEpoll.work, hw] at hs
    obtain ⟨core, hcore, rfl⟩ := Option.map_eq_some_iff.mp hs
    obtain rfl := Option.some.inj hcore
    exact ⟨_, .quiet rfl (hw ▸ .pushReady) rfl rfl rfl rfl rfl rfl⟩
  | checkReady =>
    simp only [IOCoreEpoll.work, hw] at hs
    split at hs <;> obtain rfl := Option.some.inj hs
    · exact ⟨_, .quiet rfl (hw ▸ .ready ‹_›) rfl rfl rfl rfl rfl rfl⟩
    · rename_i hnone
      obtain ⟨hq, hp⟩ := not_or.mp hnone
      exact ⟨_, .quiet rfl (hw ▸ .idle (not_not.mp hq) (not_not.mp hp)) rfl rfl rfl rfl rfl rfl⟩
  | prepareWait =>
    simp only [IOCoreEpoll.work, hw] at hs
    obtain ⟨-, hs⟩ := Option.ite_none_right_eq_some.mp hs
    obtain rfl := Option.some.inj hs
    exact ⟨_, .quiet rfl (hw ▸ .poll _) rfl rfl rfl rfl rfl rfl⟩
  | poll until' =>
    simp only [IOCoreEpoll.work, hw] at hs
    obtain rfl := Option.some.inj hs
    exact ⟨_, .quiet rfl (hw ▸ .polled _) rfl rfl rfl rfl rfl rfl⟩
  | scheduleEnd =>
    simp only [IOCoreEpoll.work, hw] at hs
    obtain rfl := Option.some.inj hs
    exact ⟨_, .quiet rfl (hw ▸ .scheduleEnd) rfl rfl rfl rfl rfl rfl⟩
  | endSignal =>
    simp only [IOCoreEpoll.work, hw] at hs
    obtain rfl := Option.some.inj hs
    exact ⟨_, rfl, hw ▸ .endSignal rfl, .inl, fun _ => .inl rfl, fun _ => rfl, fun _ => .inl, rfl,
      .inl rfl⟩
  | pop batch =>
    simp only [IOCoreEpoll.work, hw] at hs
    split at hs
    · obtain rfl := Option.some.inj hs
      exact ⟨_, .quiet rfl (hw ▸ .stop _ ‹_›) rfl rfl rfl rfl rfl rfl⟩
    · rename_i t l hl
      obtain rfl := Option.some.inj hs
      have hq : s.core.readyQueue = t :: (IOCoreEpoll.execute s θ batch t l).core.readyQueue :=
        hl.trans (congrArg _ (execute_queue s.core t l).symm)
      refine ⟨_, .quiet rfl ?_ rfl rfl rfl (execute_same s.core t l).2.2 rfl rfl⟩
      rw [hw]
      split
      · exact .onFinal _ _ hq
      · exact .onEvent _ _ hq
  | onEvent batch t =>
    simp only [IOCoreEpoll.work, hw] at hs
    obtain ⟨core, hcore, rfl⟩ := Option.map_eq_some_iff.mp hs
    obtain ⟨-, hcore⟩ := Option.ite_none_right_eq_some.mp hcore
    obtain rfl := Option.some.inj hcore
    refine ⟨_, .quiet rfl ?_ rfl rfl rfl rfl rfl rfl⟩
    rw [hw]
    split
    · exact .notify _ _
    · exact .ended _ _
  | onFinal batch t =>
    simp only [IOCoreEpoll.work, hw] at hs
    obtain ⟨core, hcore, rfl⟩ := Option.map_eq_some_iff.mp hs
    obtain ⟨-, hcore⟩ := Option.ite_none_right_eq_some.mp hcore
    obtain rfl := Option.some.inj hcore
    exact ⟨_, .quiet rfl (hw ▸ .closed _ _ rfl) rfl rfl rfl rfl rfl rfl⟩
  | signal batch =>
    simp only [IOCoreEpoll.work, hw] at hs
    obtain rfl := Option.some.inj hs
    exact ⟨_, rfl, hw ▸ .signal _ rfl, fun _ => .inl rfl, .inl, fun _ => rfl, fun _ => .inl, rfl,
      .inl rfl⟩
  | waitReady =>
    simp only [IOCoreEpoll.work, hw] at hs
    obtain ⟨hr, hs⟩ := Option.ite_none_right_eq_some.mp hs
    obtain rfl := Option.some.inj hs
    exact ⟨_, rfl, hw ▸ .woken hr, .inl, fun _ => .inr rfl, fun _ => rfl, fun _ => .inl, rfl,
      .inl rfl⟩

theorem turn_top (hs : top c s θ t = some s') : ∃ w, Turn c s s' θ w := by
  obtain ⟨htop, hs⟩ := Option.ite_none_right_eq_some.mp hs
  cases hw : s.worker θ with
  | waitingDo batch =>
    simp only [hw] at hs
    obtain ⟨hb, hs⟩ := Option.ite_none_right_eq_some.mp hs
    split at hs <;> obtain rfl := Option.some.inj hs
    · have hlate : s.timestamp < (s.task t).deadline := ‹_›
      have hall : ∀ u ∈ s.core.waitingQueue, s.timestamp < (s.task u).deadline := fun u hu =>
        Nat.lt_of_lt_of_le hlate ((isTop_iff.mp htop).2 u hu)
      exact ⟨_, .quiet rfl (hw ▸ .waitingEnd _ (.inr hall)) rfl rfl rfl rfl rfl rfl⟩
    · obtain ⟨hready, hnow, htime, hheap⟩ := expiredDo_rest s t
      refine ⟨.waitingDo (batch + 1), ?_, hw ▸ .waitingDo _ t hb htop hheap,
        fun he => .inl ((expiredDo_same s t).2.1.trans he), fun hr => .inl (hready.trans hr),
        fun hns => ?_, fun u hu => .inl ?_, hnow, .inl htime⟩
      · exact congrArg (Function.update · θ _) (expiredDo_keeps s t).1
      · rw [hw] at hns
        cases hns
      · exact List.mem_of_mem_erase (hheap ▸ hu)
  | prepareWait =>
    simp only [hw] at hs
    split at hs <;> obtain rfl := Option.some.inj hs
    · exact ⟨_, .quiet rfl (hw ▸ .expired) rfl rfl rfl rfl rfl rfl⟩
    · exact ⟨_, .quiet rfl (hw ▸ .poll _) rfl rfl rfl rfl rfl rfl⟩
  | _ =>
    simp only [hw] at hs
    cases hs

/-- The steps of a worker. -/
def Action.mine (θ : Θ) : Action T Θ → Prop
  | .epollWait θ' _ _ _ | .work θ' | .top θ' _ => θ' = θ
  | _ => False

/-- What a step of a worker does. -/
theorem turn {a : Action T Θ} (hs : step c s a = some s') (ha : a.mine θ) :
    ∃ w, Turn c s s' θ w := by
  cases a with
  | epollWait θ' evs mask fd =>
    obtain rfl : θ' = θ := ha
    obtain ⟨⟨hw, -⟩, hs⟩ := Option.ite_none_right_eq_some.mp hs
    obtain rfl := Option.some.inj hs
    refine ⟨_, rfl, hw ▸ .epollWait, fun _ => .inr rfl, .inl, fun hns => ?_, fun _ => .inl, rfl,
      .inl rfl⟩
    rw [hw] at hns
    cases hns
  | work θ' =>
    obtain rfl : θ' = θ := ha
    exact turn_work hs
  | top θ' t =>
    obtain rfl : θ' = θ := ha
    exact turn_top hs
  | _ => exact ha.elim

/-- What a step which is not one of a worker leaves as it is. -/
structure Aside (s s' : State T Θ) : Prop where
  worker : s'.worker = s.worker
  evs : s'.evs = s.evs
  readySignal : s'.readySignal = s.readySignal
  eventFd : s.eventFd = true → s'.eventFd = true
  heap : s'.core.waitingQueue = s.core.waitingQueue
  timestamp : s'.timestamp = s.timestamp
  now : s.now ≤ s'.now

theorem aside {a : Action T Θ} (hs : step c s a = some s') (ha : ∀ θ, ¬ a.mine θ) :
    Aside s s' := by
  cases a with
  | attach t sock =>
    obtain ⟨core, hcore, rfl⟩ := Option.map_eq_some_iff.mp hs
    exact ⟨rfl, rfl, rfl, id, (attach_same hcore).2.2.2, rfl, le_rfl⟩
  | postStart t | post t | rePost t =>
    obtain ⟨core, hcore, rfl⟩ := Option.map_eq_some_iff.mp hs
    obtain ⟨-, hcore⟩ := Option.ite_none_right_eq_some.mp hcore
    exact Option.some.inj hcore ▸ ⟨rfl, rfl, rfl, id, rfl, rfl, le_rfl⟩
  | wakeup t =>
    exact Option.some.inj hs ▸ ⟨rfl, rfl, rfl, id, (wakeup_same s.core t).2.2.2, rfl, le_rfl⟩
  | tick => exact Option.some.inj hs ▸ ⟨rfl, rfl, rfl, id, rfl, rfl, Nat.le_succ _⟩
  | signal =>
    obtain ⟨-, hs⟩ := Option.ite_none_right_eq_some.mp hs
    exact Option.some.inj hs ▸ ⟨rfl, rfl, rfl, fun _ => rfl, rfl, rfl, le_rfl⟩
  | closeStart t =>
    obtain rfl := Option.some.inj hs
    rw [IOCoreEpoll.closeStart]
    split <;> exact ⟨rfl, rfl, rfl, id, rfl, rfl, le_rfl⟩
  | close t =>
    obtain ⟨-, hs⟩ := Option.ite_none_right_eq_some.mp hs
    exact Option.some.inj hs ▸ ⟨rfl, rfl, rfl, id, (close_same s.core t).2.2.2, rfl, le_rfl⟩
  | edge t e =>
    obtain ⟨-, hs⟩ := Option.ite_none_right_eq_some.mp hs
    exact Option.some.inj hs ▸ ⟨rfl, rfl, rfl, id, rfl, rfl, le_rfl⟩
  | setDeadline t d =>
    obtain ⟨-, hs⟩ := Option.ite_none_left_eq_some.mp hs
    exact Option.some.inj hs ▸ ⟨rfl, rfl, rfl, id, rfl, rfl, le_rfl⟩
  | save θ e =>
    obtain ⟨t, -, hs⟩ := Option.bind_eq_some_iff.mp hs
    obtain ⟨-, hs⟩ := Option.ite_none_right_eq_some.mp hs
    exact Option.some.inj hs ▸ ⟨rfl, rfl, rfl, id, rfl, rfl, le_rfl⟩
  | attachSocket θ =>
    obtain ⟨t, -, hs⟩ := Option.bind_eq_some_iff.mp hs
    obtain ⟨-, hs⟩ := Option.ite_none_left_eq_some.mp hs
    exact Option.some.inj hs ▸ ⟨rfl, rfl, rfl, id, rfl, rfl, le_rfl⟩
  | epollWait θ evs mask fd => exact absurd rfl (ha θ)
  | work θ => exact absurd rfl (ha θ)
  | top θ t => exact absurd rfl (ha θ)

/-- A step is one of a worker, or of nobody of them. -/
theorem turn_or_aside {a : Action T Θ} (hs : step c s a = some s') :
    (∃ θ w, Turn c s s' θ w) ∨ Aside s s' := by
  by_cases hclient : ∀ θ, ¬ a.mine θ
  · exact .inr (aside hs hclient)
  · obtain ⟨θ, hθ⟩ := not_forall_not.mp hclient
    exact .inl ⟨θ, turn hs hθ⟩

/-- A worker stays where it is in the steps of the others. -/
theorem other_worker {a : Action T Θ} (hs : step c s a = some s') (ha : ¬ a.mine θ) :
    s'.worker θ = s.worker θ := by
  by_cases hclient : ∀ θ', ¬ a.mine θ'
  · rw [(aside hs hclient).worker]
  · obtain ⟨θ', hθ'⟩ := not_forall_not.mp hclient
    obtain ⟨w, hturn⟩ := turn hs hθ'
    rw [hturn.worker, Function.update_of_ne]
    rintro rfl
    exact ha hθ'

/-- The array of events is the one of the scheduler. -/
theorem other_evs {a : Action T Θ} (hr : Role s) (hs : step c s a = some s') (ha : ¬ a.mine θ)
    (hsch : (s.worker θ).schedules = true) : s'.evs = s.evs := by
  by_cases hclient : ∀ θ', ¬ a.mine θ'
  · exact (aside hs hclient).evs
  · obtain ⟨θ', hθ'⟩ := not_forall_not.mp hclient
    obtain ⟨w, hturn⟩ := turn hs hθ'
    refine hturn.evs (Bool.eq_false_iff.mpr fun hsch' => ?_)
    obtain rfl := hr.scheduler hsch hsch'
    exact ha hθ'

end Step

end IOCoreEpoll

end Serverbox
