import Mathlib.Data.Nat.Find
import Serverbox.Aio.IOCoreEpollTurn

/-!
# The epoll core serves its tasks

A run without an end is fair when each worker which is not blocked makes a step at last, and so does
each thread which is about to push a task to the front queue or to write to the event descriptor.
Such a run starts a round again and again as long as there is something to do. Otherwise each worker
would come to its wait, and the write to the event descriptor or the ready signal would end one of
the waits.

A round takes the front queue, the first pending task and the ready tasks. So a task which was woken
up or is to be closed goes on from place to place, and comes to a worker.

## Main definitions

* `IOCoreEpoll.FairRun`: a run in which no thread stops for ever.
* `IOCoreEpoll.Place.way`: how far a task is from its execution.

## Main results

* `IOCoreEpoll.FairRun.round`: the rounds go on.
* `IOCoreEpoll.wakeup_served`, `IOCoreEpoll.close_served`: a wakeup and a close are served.
-/

namespace Serverbox

namespace IOCoreEpoll

variable {T Θ : Type*} [DecidableEq T] {c : Config} {s s' : State T Θ} {t : T} {θ : Θ}

/-! ### Runs without an end -/

/-- The worker makes a step. -/
def Steps [DecidableEq Θ] (c : Config) (f : ℕ → State T Θ) (θ : Θ) (i : ℕ) : Prop :=
  ∃ a, Action.mine θ a ∧ (machine c).step (f i) a = some (f (i + 1))

/-- A run without an end, in which the system may also stand still. A worker which is not blocked
makes a step at last, and so does a thread which is about to write to the event descriptor or to
push a task to the front queue. -/
structure FairRun [DecidableEq Θ] (c : Config) (f : ℕ → State T Θ) : Prop where
  init : (machine c).Reachable (f 0)
  run : ∀ i, f (i + 1) = f i ∨ ∃ a, (machine c).step (f i) a = some (f (i + 1))
  worker : ∀ θ i, (∀ j ≥ i, ¬ Blocked (f j) θ) → ∃ j ≥ i, Steps c f θ j
  signal : ∀ i, (∀ j ≥ i, 0 < (f j).signalers) → ∃ j ≥ i, signal (f j) = some (f (j + 1))
  post : ∀ t i, (∀ j ≥ i, t ∈ (f j).core.posted) → ∃ j ≥ i, post (f j) t = some (f (j + 1))
  rePost : ∀ t i, (∀ j ≥ i, t ∈ (f j).core.woken) → ∃ j ≥ i, rePost (f j) t = some (f (j + 1))

/-- The worker waits, maybe blocked. -/
def Worker.waits : Worker T → Bool
  | .waitReady | .poll _ => true
  | _ => false

omit [DecidableEq T] in
theorem Blocked.waits (h : Blocked s θ) : (s.worker θ).waits = true := by
  rcases h with ⟨hw, -⟩ | ⟨until', hw, -⟩ <;> rw [hw] <;> rfl

/-- How many steps a worker makes at most before it starts a round, tries to become the scheduler,
or waits for the ready signal. -/
def Worker.turns (c : Config) (n : ℕ) : Worker T → ℕ
  | .scheduleStart | .waitReady => 0
  | .popFront => 2 * c.schedBatchSize + 3 * c.execBatchSize + 31 + n
  | .kernelDo => 2 * c.schedBatchSize + 3 * c.execBatchSize + 30 + n
  | .pendingDo batch => c.schedBatchSize + 3 * c.execBatchSize + 20 + (c.schedBatchSize - batch)
  | .waitingDo batch => 3 * c.execBatchSize + 15 + (c.schedBatchSize - batch)
  | .pushReady => 3 * c.execBatchSize + 14
  | .checkReady => 3 * c.execBatchSize + 13
  | .prepareWait => 3 * c.execBatchSize + 12
  | .poll _ => 3 * c.execBatchSize + 11
  | .epollWait => 3 * c.execBatchSize + 10
  | .scheduleEnd => 3 * c.execBatchSize + 5
  | .endSignal => 3 * c.execBatchSize + 4
  | .pop batch => 3 * (c.execBatchSize - batch) + 3
  | .onEvent batch _ | .onFinal batch _ => 3 * (c.execBatchSize - batch) + 2
  | .signal batch => 3 * (c.execBatchSize - batch) + 1

omit [DecidableEq T] in
/-- The number does not depend on the events but for the scheduler. -/
theorem Worker.turns_evs {w : Worker T} {evs evs' : List T}
    (h : w.schedules = true → evs' = evs) : w.turns c evs'.length = w.turns c evs.length := by
  cases hsch : w.schedules with
  | true => rw [h hsch]
  | false => cases w <;> first | rfl | cases hsch

/-- A worker starts a round, tries to become the scheduler, or waits for the ready signal. -/
def Worker.rests : Worker T → Bool
  | .popFront | .scheduleStart | .waitReady => true
  | _ => false

omit [DecidableEq T] in
theorem Config.stop_rests (c : Config) (batch : ℕ) : (c.stop batch : Worker T).rests = true := by
  rw [Config.stop]
  split <;> rfl

omit [DecidableEq T] in
theorem Config.next_turns (c : Config) (batch n : ℕ) : (c.next batch : Worker T).rests = true ∨
    (c.next batch : Worker T).turns c n < 3 * (c.execBatchSize - batch) + 1 := by
  rw [Config.next]
  split
  · refine .inr ?_
    rw [Worker.turns]
    omega
  · exact .inl (c.stop_rests _)

theorem Next.turns {w w' : Worker T} (h : Next c s s' w w') (hs : w ≠ .scheduleStart)
    (hw : w ≠ .waitReady) :
    w'.rests = true ∨ w'.turns c s'.evs.length < w.turns c s.evs.length := by
  cases h with
  | elected | notElected => exact absurd rfl hs
  | woken => exact absurd rfl hw
  | epollWait => exact .inl rfl
  | popFront he =>
    refine .inr ?_
    rw [he, Worker.turns, Worker.turns]
    omega
  | stop batch hq => exact .inl (c.stop_rests _)
  | ended batch t | closed batch t =>
    refine (c.next_turns batch s'.evs.length).imp_right fun hlt => ?_
    rw [Worker.turns]
    omega
  | signal batch he => exact c.next_turns batch _
  | _ =>
    refine .inr ?_
    rw [Worker.turns, Worker.turns]
    omega

namespace FairRun

variable [DecidableEq Θ] {f : ℕ → State T Θ} {i j : ℕ}

theorem reachable (h : FairRun c f) (i : ℕ) : (machine c).Reachable (f i) := by
  induction i with
  | zero => exact h.init
  | succ i ih =>
    rcases h.run i with he | ⟨a, ha⟩
    · exact he ▸ ih
    · exact ih.step ha

theorem inv (h : FairRun c f) (i : ℕ) : Inv (f i) := IOCoreEpoll.inv (h.reachable i)

/-- A worker stays where it is up to its next step. -/
theorem stay (h : FairRun c f) (d : ℕ) (hno : ∀ e < d, ¬ Steps c f θ (i + e)) :
    (f (i + d)).worker θ = (f i).worker θ ∧
      (((f i).worker θ).schedules = true → (f (i + d)).evs = (f i).evs) := by
  induction d with
  | zero => exact ⟨rfl, fun _ => rfl⟩
  | succ d ih =>
    obtain ⟨hw, hevs⟩ := ih fun e he => hno e (Nat.lt_succ_of_lt he)
    rcases h.run (i + d) with he | ⟨a, ha⟩
    · rw [← Nat.add_assoc, he]
      exact ⟨hw, hevs⟩
    · have hmine : ¬ a.mine θ := fun hm => hno d (Nat.lt_succ_self d) ⟨a, hm, ha⟩
      rw [← Nat.add_assoc]
      refine ⟨(other_worker ha hmine).trans hw, fun hsch => ?_⟩
      exact (other_evs (h.inv _).role ha hmine (hw ▸ hsch)).trans (hevs hsch)

/-- The next step of a worker which is not blocked for ever. -/
theorem turn (h : FairRun c f) (hb : (∀ j ≥ i, (f j).worker θ = (f i).worker θ) →
      ∃ j ≥ i, ∀ k ≥ j, ¬ Blocked (f k) θ) :
    ∃ j ≥ i, (f j).worker θ = (f i).worker θ ∧
      (((f i).worker θ).schedules = true → (f j).evs = (f i).evs) ∧
      ∃ w, Turn c (f j) (f (j + 1)) θ w := by
  classical
  by_cases hex : ∃ d, Steps c f θ (i + d)
  · obtain ⟨hw, hevs⟩ := h.stay (Nat.find hex) fun e he => Nat.find_min hex he
    obtain ⟨a, hm, ha⟩ := Nat.find_spec hex
    exact ⟨i + Nat.find hex, Nat.le_add_right _ _, hw, hevs, IOCoreEpoll.turn ha hm⟩
  · have hall : ∀ j ≥ i, ¬ Steps c f θ j := fun j hj hs => by
      obtain ⟨d, rfl⟩ := Nat.exists_eq_add_of_le hj
      exact hex ⟨d, hs⟩
    obtain ⟨j, hj, hnb⟩ := hb fun j hj => by
      obtain ⟨d, rfl⟩ := Nat.exists_eq_add_of_le hj
      exact (h.stay d fun e _ => hall _ (Nat.le_add_right _ _)).1
    obtain ⟨k, hk, hs⟩ := h.worker θ j hnb
    exact absurd hs (hall k (hj.trans hk))

/-- The next step of a worker which does not wait. -/
theorem turn_of_active (h : FairRun c f) (hw : ((f i).worker θ).waits = false) :
    ∃ j ≥ i, (f j).worker θ = (f i).worker θ ∧
      (((f i).worker θ).schedules = true → (f j).evs = (f i).evs) ∧
      ∃ w, Turn c (f j) (f (j + 1)) θ w := by
  refine h.turn fun hsame => ⟨i, Nat.le_refl i, fun k hk hb => ?_⟩
  rw [← hsame k hk, hb.waits] at hw
  cases hw

theorem next_of_active {w : Worker T} (h : FairRun c f) (hw : (f i).worker θ = w)
    (ha : w.waits = false) :
    ∃ j ≥ i, (f j).worker θ = w ∧
      ∃ w', (f (j + 1)).worker = Function.update (f j).worker θ w' ∧
        Next c (f j) (f (j + 1)) w w' := by
  obtain ⟨j, hj, hsame, -, w', hturn⟩ := h.turn_of_active (i := i) (θ := θ) (by rw [hw, ha])
  have hnext := hturn.next
  rw [hsame, hw] at hnext
  exact ⟨j, hj, hsame.trans hw, w', hturn.worker, hnext⟩

end FairRun

/-! ### The rounds go on -/

/-- There is a task for the scheduler or the workers. -/
def Busy (s : State T Θ) : Prop :=
  s.core.frontQueue ≠ [] ∨ s.core.pendingQueue ≠ [] ∨ s.core.readyQueue ≠ []

/-- The kernel has an event, or the deadline of a task which waits has passed. -/
def Alarm (s : State T Θ) : Prop :=
  (∃ t, (s.task t).edges ≠ ∅) ∨ ∃ t ∈ s.core.waitingQueue, (s.task t).deadline ≤ s.now

omit [DecidableEq T] in
/-- The wait for epoll ends. -/
theorem Alarm.not_blocked (h : Alarm s) (hw : Wakes s) {until' : Option ℕ}
    (hp : s.worker θ = .poll until') : ¬ Blocked s θ := by
  rintro (⟨hwait, -⟩ | ⟨until'', hp', -, hedges, huntil⟩)
  · rw [hp] at hwait
    cases hwait
  · rcases h with ⟨t, ht⟩ | ⟨t, ht, hd⟩
    · exact ht (hedges t)
    · obtain ⟨d, hsome, hle⟩ := hw.poll θ until'' hp' t ht
      exact absurd (huntil d hsome) (Nat.not_lt.mpr (hle.trans hd))

/-- From a moment on there is something to do, and no round is started. -/
structure Stuck [DecidableEq Θ] (c : Config) (f : ℕ → State T Θ) (i : ℕ) : Prop where
  fair : FairRun c f
  busy : (∀ k ≥ i, Busy (f k)) ∨ ∀ k ≥ i, Alarm (f k)
  quiet : ∀ k ≥ i, ∀ θ, (f k).worker θ ≠ .popFront

namespace Stuck

variable [DecidableEq Θ] {f : ℕ → State T Θ} {i j : ℕ}

/-- The event descriptor is read at the start of a round only. -/
theorem eventFd (h : Stuck c f i) (hj : i ≤ j) (he : (f j).eventFd = true) {k : ℕ} (hk : j ≤ k) :
    (f k).eventFd = true := by
  induction hk with
  | refl => exact he
  | @step k hk ih =>
    rcases h.fair.run k with heq | ⟨a, ha⟩
    · rw [Nat.succ_eq_add_one, heq]
      exact ih
    · rcases turn_or_aside ha with ⟨θ, w, hturn⟩ | haside
      · refine (hturn.eventFd ih).resolve_right fun hw => ?_
        refine h.quiet (k + 1) ((hj.trans hk).trans (Nat.le_succ k)) θ ?_
        rw [hturn.worker, Function.update_self, hw]
      · exact haside.eventFd ih

/-- The event descriptor is written when the scheduler waits. -/
theorem notified [Nonempty Θ] (h : Stuck c f i) (hbusy : ∀ k ≥ i, Busy (f k)) (hj : i ≤ j)
    (hp : ∀ k ≥ j, ∃ until', (f k).worker θ = .poll until') :
    ∃ k ≥ j, (f k).eventFd = true := by
  by_contra hno
  have hfd : ∀ k ≥ j, (f k).eventFd = false := fun k hk =>
    Bool.eq_false_iff.mpr fun he => hno ⟨k, hk, he⟩
  have hsignalers : ∀ k ≥ j, 0 < (f k).signalers := fun k hk => by
    have hwakes := wakes (h.fair.reachable k)
    obtain ⟨until', hw⟩ := hp k hk
    obtain ⟨hpending, hready⟩ := hwakes.round θ (by rw [hw]; rfl)
    have hfront : (f k).core.frontQueue ≠ [] := by
      rcases hbusy k (hj.trans hk) with hf | hf | hf
      · exact hf
      · exact absurd hpending hf
      · exact absurd hready hf
    rcases hwakes.front hfront with he | hs | ⟨θ', hθ'⟩
    · exact absurd (he.symm.trans (hfd k hk)) Bool.noConfusion
    · exact hs
    · cases hw' : (f k).worker θ' with
      | signal batch =>
        obtain ⟨m, hm, -, w, -, hnext⟩ := h.fair.next_of_active hw' rfl
        cases hnext with
        | signal _ he =>
          exact absurd (he.symm.trans (hfd (m + 1) ((hk.trans hm).trans (Nat.le_succ m))))
            Bool.noConfusion
      | popFront => exact absurd hw' (h.quiet k (hj.trans hk) θ')
      | _ =>
        rw [hw'] at hθ'
        cases hθ'
  obtain ⟨k, hk, hs⟩ := h.fair.signal j hsignalers
  obtain ⟨-, hs⟩ := Option.ite_none_right_eq_some.mp hs
  have he : (f (k + 1)).eventFd = true := Option.some.inj hs ▸ rfl
  exact absurd (he.symm.trans (hfd (k + 1) (hk.trans (Nat.le_succ k)))) Bool.noConfusion

/-- The next step of a worker which does not wait for the ready signal. -/
theorem turn [Nonempty Θ] (h : Stuck c f i) (hj : i ≤ j) (hw : (f j).worker θ ≠ .waitReady) :
    ∃ k ≥ j, (f k).worker θ = (f j).worker θ ∧
      (((f j).worker θ).schedules = true → (f k).evs = (f j).evs) ∧
      ∃ w, Turn c (f k) (f (k + 1)) θ w := by
  refine h.fair.turn fun hsame => ?_
  cases hw' : (f j).worker θ with
  | waitReady => exact absurd hw' hw
  | poll until' =>
    have hpoll : ∀ k ≥ j, (f k).worker θ = .poll until' := fun k hk => (hsame k hk).trans hw'
    rcases h.busy with hbusy | halarm
    · obtain ⟨k, hk, he⟩ := h.notified hbusy hj fun k hk => ⟨until', hpoll k hk⟩
      refine ⟨k, hk, fun m hm hb => ?_⟩
      have hfd := h.eventFd (hj.trans hk) he hm
      rcases hb with ⟨hwait, -⟩ | ⟨-, -, hno, -⟩
      · exact absurd (hwait.symm.trans (hpoll m (hk.trans hm))) (by simp)
      · exact absurd (hfd.symm.trans hno) Bool.noConfusion
    · exact ⟨j, Nat.le_refl j, fun m hm =>
        (halarm m (hj.trans hm)).not_blocked (wakes (h.fair.reachable m)) (hpoll m hm)⟩
  | _ =>
    refine ⟨j, Nat.le_refl j, fun k hk hb => ?_⟩
    have hwaits := hb.waits
    rw [hsame k hk, hw'] at hwaits
    cases hwaits

/-- Each worker comes to try to become the scheduler, or to wait for the ready signal. -/
theorem ends [Nonempty Θ] (h : Stuck c f i) (θ : Θ) (hj : i ≤ j) :
    ∃ k ≥ j, (f k).worker θ = .scheduleStart ∨ (f k).worker θ = .waitReady := by
  induction hn : ((f j).worker θ).turns c (f j).evs.length using Nat.strong_induction_on
    generalizing j with
  | _ n ih =>
    by_cases hstart : (f j).worker θ = .scheduleStart
    · exact ⟨j, Nat.le_refl j, .inl hstart⟩
    · by_cases hwait : (f j).worker θ = .waitReady
      · exact ⟨j, Nat.le_refl j, .inr hwait⟩
      · obtain ⟨k, hk, hsame, hevs, w, hturn⟩ := h.turn hj hwait
        have hk' : i ≤ k + 1 := (hj.trans hk).trans (Nat.le_succ k)
        have hw : (f (k + 1)).worker θ = w := by rw [hturn.worker, Function.update_self]
        rcases hturn.next.turns (hsame ▸ hstart) (hsame ▸ hwait) with hr | hlt
        · refine ⟨k + 1, hk.trans (Nat.le_succ k), ?_⟩
          rw [hw]
          cases w with
          | popFront => exact absurd hw (h.quiet (k + 1) hk' θ)
          | scheduleStart => exact .inl rfl
          | waitReady => exact .inr rfl
          | _ => cases hr
        · rw [hsame, Worker.turns_evs hevs, hn] at hlt
          obtain ⟨m, hm, hend⟩ := ih _ hlt hk' (by rw [hw])
          exact ⟨m, (hk.trans (Nat.le_succ k)).trans hm, hend⟩

/-- No worker is going to ask epoll. -/
theorem not_epollWait [Nonempty Θ] (h : Stuck c f i) (hj : i ≤ j) :
    (f j).worker θ ≠ .epollWait := fun hw => by
  obtain ⟨k, hk, hsame, -, w, hturn⟩ := h.turn (θ := θ) hj (by rw [hw]; simp)
  have hnext := hturn.next
  rw [hsame, hw] at hnext
  cases hnext with
  | epollWait =>
    refine h.quiet (k + 1) ((hj.trans hk).trans (Nat.le_succ k)) θ ?_
    rw [hturn.worker, Function.update_self]

/-- No worker becomes the scheduler. -/
theorem not_schedules [Nonempty Θ] (h : Stuck c f i) (hj : i ≤ j)
    (hns : ((f j).worker θ).schedules = false) {k : ℕ} (hk : j ≤ k) :
    ((f k).worker θ).schedules = false := by
  induction hk with
  | refl => exact hns
  | @step k hk ih =>
    rcases h.fair.run k with heq | ⟨a, ha⟩
    · rw [Nat.succ_eq_add_one, heq]
      exact ih
    · by_cases hmine : a.mine θ
      · obtain ⟨w, hturn⟩ := IOCoreEpoll.turn ha hmine
        have hw : (f (k + 1)).worker θ = w := by rw [hturn.worker, Function.update_self]
        rw [Nat.succ_eq_add_one, hw]
        have hnext := hturn.next
        generalize hw₀ : (f k).worker θ = w₀ at hnext ih
        cases hnext with
        | elected => exact absurd hw (h.not_epollWait ((hj.trans hk).trans (Nat.le_succ k)))
        | stop => exact (c.stop_spec _).1
        | ended | closed | signal => exact (c.next_spec _).1
        | notElected | endSignal | onEvent | onFinal | notify | woken => rfl
        | _ => cases ih
      · rw [Nat.succ_eq_add_one, other_worker ha hmine]
        exact ih

/-- At last there is no scheduler. -/
theorem no_scheduler [Nonempty Θ] (h : Stuck c f i) :
    ∃ k ≥ i, ∀ m ≥ k, ∀ θ, ((f m).worker θ).schedules = false := by
  by_cases hex : ∃ θ, ((f i).worker θ).schedules = true
  · obtain ⟨θ₀, hθ₀⟩ := hex
    obtain ⟨k, hk, hend⟩ := h.ends θ₀ (Nat.le_refl i)
    refine ⟨k, hk, fun m hm θ => ?_⟩
    by_cases hθ : θ = θ₀
    · subst hθ
      refine h.not_schedules hk ?_ hm
      rcases hend with hw | hw <;> rw [hw] <;> rfl
    · refine h.not_schedules (Nat.le_refl i) (Bool.eq_false_iff.mpr fun hsch => ?_) (hk.trans hm)
      exact hθ ((h.fair.inv i).role.scheduler hsch hθ₀)
  · exact ⟨i, Nat.le_refl i, fun m hm θ =>
      h.not_schedules (Nat.le_refl i) (Bool.eq_false_iff.mpr fun hsch => hex ⟨θ, hsch⟩) hm⟩

theorem contra [Nonempty Θ] (h : Stuck c f i) : False := by
  obtain ⟨k, hk, hnone⟩ := h.no_scheduler
  have hflag : ∀ m ≥ k, (f m).isSchedulerWorking = false := fun m hm =>
    Bool.eq_false_iff.mpr fun hf => by
      obtain ⟨θ, hθ⟩ := (h.fair.inv m).role.exists_scheduler hf
      exact Bool.false_ne_true ((hnone m hm θ).symm.trans hθ)
  -- A worker which tries to become the scheduler would be the one.
  have hstart : ∀ m ≥ k, ∀ θ, (f m).worker θ ≠ .scheduleStart := fun m hm θ hw => by
    obtain ⟨n, hn, hsame, -, w, hturn⟩ := h.turn (θ := θ) (hk.trans hm) (by rw [hw]; simp)
    have hnext := hturn.next
    rw [hsame, hw] at hnext
    cases hnext with
    | elected =>
      refine h.not_epollWait (j := n + 1) (θ := θ) (by omega) ?_
      rw [hturn.worker, Function.update_self]
    | notElected hf => exact Bool.false_ne_true ((hflag n (hm.trans hn)).symm.trans hf)
  obtain ⟨m, hm, hready⟩ : ∃ m ≥ k, (f m).readySignal = true := by
    rcases (wakes (h.fair.reachable k)).role with hf | hs | ⟨θ, hθ⟩
    · exact Bool.false_ne_true ((hflag k (Nat.le_refl k)).symm.trans hf) |>.elim
    · exact ⟨k, Nat.le_refl k, hs⟩
    · cases hw : (f k).worker θ with
      | scheduleStart => exact (hstart k (Nat.le_refl k) θ hw).elim
      | endSignal =>
        obtain ⟨n, hn, hsame, -, w, hturn⟩ := h.turn (θ := θ) hk (by rw [hw]; simp)
        have hnext := hturn.next
        rw [hsame, hw] at hnext
        cases hnext with
        | endSignal hs => exact ⟨n + 1, by omega, hs⟩
      | _ =>
        rw [hw] at hθ
        cases hθ
  have hstays : ∀ n ≥ m, (f n).readySignal = true := fun n hn => by
    induction hn with
    | refl => exact hready
    | @step n hn ih =>
      rcases h.fair.run n with heq | ⟨a, ha⟩
      · rw [Nat.succ_eq_add_one, heq]
        exact ih
      · rcases turn_or_aside ha with ⟨θ, w, hturn⟩ | haside
        · refine (hturn.readySignal ih).resolve_right fun hw => ?_
          refine hstart (n + 1) ((hm.trans hn).trans (Nat.le_succ n)) θ ?_
          rw [hturn.worker, Function.update_self, hw]
        · exact haside.readySignal.trans ih
  -- Some worker waits for the ready signal, which is set.
  obtain ⟨n, hn, hw | hw⟩ := h.ends (Classical.arbitrary Θ) (hk.trans hm)
  · exact hstart n (hm.trans hn) _ hw
  · obtain ⟨p, hp, hsame, -, w, hturn⟩ := h.fair.turn (θ := Classical.arbitrary Θ) (i := n)
      fun hsame => ⟨n, Nat.le_refl n, fun p hp hb => by
        rcases hb with ⟨-, hr⟩ | ⟨until', hw', -⟩
        · exact Bool.false_ne_true (hr.symm.trans (hstays p (hn.trans hp)))
        · rw [hsame p hp, hw] at hw'
          cases hw'⟩
    have hnext := hturn.next
    rw [hsame, hw] at hnext
    cases hnext with
    | woken =>
      refine hstart (p + 1) (by omega) (Classical.arbitrary Θ) ?_
      rw [hturn.worker, Function.update_self]

end Stuck

/-- While there is something to do, rounds are started. -/
theorem FairRun.round [DecidableEq Θ] [Nonempty Θ] {f : ℕ → State T Θ} {i : ℕ} (h : FairRun c f)
    (hbusy : (∀ k ≥ i, Busy (f k)) ∨ ∀ k ≥ i, Alarm (f k)) :
    ∃ k ≥ i, ∃ θ, (f k).worker θ = .popFront := by
  by_contra hno
  exact Stuck.contra ⟨h, hbusy, fun k hk θ hw => hno ⟨k, hk, θ, hw⟩⟩

/-! ### The way of a task to a worker -/

/-- A queue gets longer at its end, or loses its first element. -/
def Slides (l l' : List T) : Prop := (∃ m, l' = l ++ m) ∨ ∃ t, l = t :: l'

theorem Slides.idxOf_le {l l' : List T} (h : Slides l l') (hn : l.Nodup) (ht : t ∈ l)
    (ht' : t ∈ l') : l'.idxOf t ≤ l.idxOf t := by
  rcases h with ⟨m, rfl⟩ | ⟨u, rfl⟩
  · exact Nat.le_of_eq (List.idxOf_append_of_mem ht)
  · have hne : u ≠ t := fun he => (List.nodup_cons.mp hn).1 (he ▸ ht')
    rw [List.idxOf_cons_ne _ hne]
    exact Nat.le_succ _

/-- A number which does not grow gets smaller only so many times. -/
theorem not_drops {r : ℕ → ℕ} {i : ℕ} (hmono : ∀ k ≥ i, r (k + 1) ≤ r k)
    (hdrop : ∀ j ≥ i, ∃ k ≥ j, r (k + 1) < r k) : False := by
  have hle : ∀ j ≥ i, ∀ k ≥ j, r k ≤ r j := fun j hj k hk => by
    induction hk with
    | refl => exact Nat.le_refl _
    | @step k hk ih => exact (hmono k (hj.trans hk)).trans ih
  have hlow : ∀ n, ∀ j ≥ i, r j = n → False := fun n => by
    induction n using Nat.strong_induction_on with
    | _ n ih =>
      intro j hj hn
      obtain ⟨k, hk, hlt⟩ := hdrop j hj
      have hj' := hle j hj k hk
      exact ih (r (k + 1)) (by omega) (k + 1) (by omega) rfl
  exact hlow _ i (Nat.le_refl i) rfl

/-- A task does not stay in a queue whose first element is taken again and again. -/
theorem Slides.leaves {q : ℕ → List T} {i : ℕ} (hslides : ∀ k, Slides (q k) (q (k + 1)))
    (hnodup : ∀ k, (q k).Nodup) (hpop : ∀ j ≥ i, ∃ k ≥ j, ∃ x, q k = x :: q (k + 1)) :
    ∃ k ≥ i, t ∉ q k := by
  by_contra hno
  have hmem : ∀ k ≥ i, t ∈ q k := fun k hk => by_contra fun hn => hno ⟨k, hk, hn⟩
  refine not_drops (i := i) (r := fun k => (q k).idxOf t) (fun k hk => ?_) (fun j hj => ?_)
  · exact (hslides k).idxOf_le (hnodup k) (hmem k hk) (hmem (k + 1) (Nat.le_succ_of_le hk))
  · obtain ⟨k, hk, x, hx⟩ := hpop j hj
    refine ⟨k, hk, ?_⟩
    have hne : x ≠ t := fun he => (List.nodup_cons.mp (hx ▸ hnodup k)).1
      (he ▸ hmem (k + 1) (Nat.le_succ_of_le (hj.trans hk)))
    rw [hx, List.idxOf_cons_ne _ hne]
    exact Nat.lt_succ_self _

/-- What a step does to the queues of the scheduler and of the workers. -/
theorem count_slides {s s' : IOCoreCount.State T} {b : IOCoreCount.Action T}
    (hs : IOCoreCount.step s b = some s') :
    Slides s.pendingQueue s'.pendingQueue ∧ Slides s.readyQueue s'.readyQueue := by
  have hrefl : ∀ l : List T, Slides l l := fun l => .inl ⟨[], (List.append_nil l).symm⟩
  cases b with
  | attach t =>
    obtain ⟨-, h₂, h₃, -⟩ := attach_same hs
    rw [h₂, h₃]
    exact ⟨hrefl _, hrefl _⟩
  | postStart t | post t | rePost t | kernelDo t | ended t | closed t =>
    obtain ⟨-, hs⟩ := Option.ite_none_right_eq_some.mp hs
    exact Option.some.inj hs ▸ ⟨hrefl _, hrefl _⟩
  | wakeup t =>
    obtain rfl := Option.some.inj hs
    obtain ⟨-, h₂, h₃, -⟩ := wakeup_same s t
    rw [h₂, h₃]
    exact ⟨hrefl _, hrefl _⟩
  | close t =>
    obtain rfl := Option.some.inj hs
    obtain ⟨-, h₂, h₃, -⟩ := close_same s t
    rw [h₂, h₃]
    exact ⟨hrefl _, hrefl _⟩
  | takeFront =>
    obtain rfl := Option.some.inj hs
    exact ⟨.inl ⟨_, rfl⟩, hrefl _⟩
  | pendingDo hasEvents finite =>
    rw [IOCoreCount.step] at hs
    split at hs
    · cases hs
    · rename_i t l hl
      obtain rfl := Option.some.inj hs
      obtain ⟨h₁, h₂⟩ := count_pendingDo s t l hasEvents finite
      rw [h₁, h₂]
      exact ⟨.inr ⟨t, hl⟩, hrefl _⟩
  | expiredDo t =>
    obtain ⟨-, hs⟩ := Option.ite_none_right_eq_some.mp hs
    split at hs <;> exact Option.some.inj hs ▸ ⟨hrefl _, hrefl _⟩
  | pushReady =>
    obtain rfl := Option.some.inj hs
    exact ⟨hrefl _, .inl ⟨_, rfl⟩⟩
  | execute =>
    rw [IOCoreCount.step] at hs
    split at hs
    · cases hs
    · rename_i t l hl
      obtain rfl := Option.some.inj hs
      rw [execute_queue, (execute_same s t l).2.1]
      exact ⟨hrefl _, .inr ⟨t, hl⟩⟩

theorem Inv.queues_nodup (h : Inv s) :
    s.core.pendingQueue.Nodup ∧ s.core.readyQueue.Nodup := by
  have hcount : ∀ l : List T, (∀ t, l.count t ≤ (s.core.attached ++ s.core.lives).count t) →
      l.Nodup := fun l hl => List.nodup_iff_count_le_one.mpr fun t =>
    (hl t).trans (List.nodup_iff_count_le_one.mp h.core.nodup t)
  constructor <;> refine hcount _ fun t => ?_ <;>
    simp only [IOCoreCount.State.lives, List.count_append] <;> omega

namespace FairRun

variable [DecidableEq Θ] {f : ℕ → State T Θ} {i : ℕ}

theorem slides (h : FairRun c f) (k : ℕ) :
    Slides (f k).core.pendingQueue (f (k + 1)).core.pendingQueue ∧
    Slides (f k).core.readyQueue (f (k + 1)).core.readyQueue := by
  have hrefl : ∀ l : List T, Slides l l := fun l => .inl ⟨[], (List.append_nil l).symm⟩
  rcases h.run k with he | ⟨a, ha⟩
  · rw [he]
    exact ⟨hrefl _, hrefl _⟩
  · rcases step_core ha with hcore | ⟨b, hb⟩
    · rw [hcore]
      exact ⟨hrefl _, hrefl _⟩
    · exact count_slides hb

/-- Where a worker comes when its steps bring it nearer. -/
theorem reaches (h : FairRun c f) {A B : Worker T → Prop} (hA : ∀ w, A w → w.waits = false)
    (hstep : ∀ k ≥ i, ∀ w w', A w → Next c (f k) (f (k + 1)) w w' → B w' ∨
      A w' ∧ w'.turns c (f (k + 1)).evs.length < w.turns c (f k).evs.length)
    {j : ℕ} (hj : i ≤ j) (hw : A ((f j).worker θ)) : ∃ k ≥ j, B ((f k).worker θ) := by
  induction hn : ((f j).worker θ).turns c (f j).evs.length using Nat.strong_induction_on
    generalizing j with
  | _ n ih =>
    obtain ⟨k, hk, hsame, hevs, w, hturn⟩ := h.turn_of_active (hA _ hw)
    have hw' : (f (k + 1)).worker θ = w := by rw [hturn.worker, Function.update_self]
    rcases hstep k (hj.trans hk) _ _ (hsame ▸ hw) hturn.next with hB | ⟨hA', hlt⟩
    · exact ⟨k + 1, hk.trans (Nat.le_succ k), hw' ▸ hB⟩
    · rw [hsame, Worker.turns_evs hevs, hn] at hlt
      obtain ⟨m, hm, hB⟩ := ih _ hlt (j := k + 1) ((hj.trans hk).trans (Nat.le_succ k))
        (hw' ▸ hA') (by rw [hw'])
      exact ⟨m, (hk.trans (Nat.le_succ k)).trans hm, hB⟩

/-- The pending tasks are handled in each round. -/
theorem pending_taken [Nonempty Θ] (h : FairRun c f) (hb : 1 < c.schedBatchSize)
    (hne : ∀ k ≥ i, (f k).core.pendingQueue ≠ []) :
    ∃ k ≥ i, ∃ x, (f k).core.pendingQueue = x :: (f (k + 1)).core.pendingQueue := by
  obtain ⟨j, hj, θ, hw⟩ := h.round (.inl fun k hk => .inr (.inl (hne k hk)))
  obtain ⟨k, hk, hw⟩ := h.reaches (A := fun w => w = .popFront ∨ w = .kernelDo)
    (B := fun w => w = .pendingDo 0) (by rintro w (rfl | rfl) <;> rfl) (fun k _ w w' hA hn => by
      have hlt := hn.turns (by rintro rfl; simp at hA) (by rintro rfl; simp at hA)
      cases hn with
      | popFront => exact .inr ⟨.inr rfl, hlt.resolve_left (by simp [Worker.rests])⟩
      | kernelDo => exact .inr ⟨.inr rfl, hlt.resolve_left (by simp [Worker.rests])⟩
      | kernelEnd => exact .inl rfl
      | _ => simp at hA) (Nat.le_refl j) (.inl hw)
  obtain ⟨m, hm, -, w, -, hnext⟩ := h.next_of_active hw rfl
  have hm' : i ≤ m := hj.trans (hk.trans hm)
  cases hnext with
  | pendingDo _ x hx => exact ⟨m, hm', x, hx⟩
  | pendingEnd _ hend =>
    rcases hend with hnil | hle
    · exact absurd hnil (hne m hm')
    · omega

/-- The worker is in a round which has found something to execute, or goes to the ready queue. -/
def Worker.rolls : Worker T → Bool
  | .popFront | .kernelDo | .pendingDo _ | .waitingDo _ | .pushReady | .checkReady | .scheduleEnd
  | .endSignal => true
  | _ => false

/-- The ready tasks are taken after each round. -/
theorem ready_taken [Nonempty Θ] (h : FairRun c f)
    (hne : ∀ k ≥ i, (f k).core.readyQueue ≠ []) :
    ∃ k ≥ i, ∃ x, (f k).core.readyQueue = x :: (f (k + 1)).core.readyQueue := by
  obtain ⟨j, hj, θ, hw⟩ := h.round (.inl fun k hk => .inr (.inr (hne k hk)))
  obtain ⟨k, hk, hw⟩ := h.reaches (A := fun w => Worker.rolls w = true)
    (B := fun w => w = .pop 0) (fun w hA => by cases w <;> first | rfl | cases hA)
    (fun k hk w w' hA hn => by
      have hlt := hn.turns (by rintro rfl; cases hA) (by rintro rfl; cases hA)
      cases hn with
      | endSignal => exact .inl rfl
      | idle hr => exact absurd hr (hne k hk)
      | popFront | kernelDo | kernelEnd | pendingDo | pendingEnd | waitingDo | waitingEnd
      | pushReady | ready | scheduleEnd => exact .inr ⟨rfl, hlt.resolve_left Bool.false_ne_true⟩
      | _ => cases hA) hj (by rw [hw]; rfl)
  obtain ⟨m, hm, -, w, -, hnext⟩ := h.next_of_active hw rfl
  have hm' : i ≤ m := hj.trans (hk.trans hm)
  cases hnext with
  | onEvent _ x hx | onFinal _ x hx => exact ⟨m, hm', x, hx⟩
  | stop _ hnil => exact absurd hnil (hne m hm')

/-! ### No place is for ever -/

/-- A worker ends an execution. -/
theorem leaves_executed (h : FairRun c f) (hp : ∀ k ≥ i, place (f k).core t = .executed) :
    False := by
  have hevent : ∀ k ≥ i, ∃ θ, ((f k).worker θ).event = some t := fun k hk => by
    obtain ⟨l, -, hmem, hlen⟩ := (h.inv k).role.event t
    have hpos := List.count_pos_iff.mpr (mem_of_place (hp k hk) (by decide))
    obtain ⟨θ, hθ⟩ := List.exists_mem_of_length_pos (Nat.lt_of_lt_of_eq hpos hlen.symm)
    exact ⟨θ, of_decide_eq_true ((hmem θ).mp hθ)⟩
  obtain ⟨θ, hθ⟩ := hevent i (Nat.le_refl i)
  cases hw : (f i).worker θ with
  | onEvent batch u =>
    rw [hw] at hθ
    obtain rfl := Option.some.inj hθ
    obtain ⟨j, hj, hsame, w, hworker, hnext⟩ := h.next_of_active hw rfl
    have hnone : w.event = none := by
      cases hnext with
      | notify => rfl
      | ended => exact (c.next_spec _).2.1
    -- Another worker would have the task together with this one.
    obtain ⟨θ', hθ'⟩ := hevent (j + 1) (hj.trans (Nat.le_succ j))
    rw [hworker] at hθ'
    by_cases he : θ' = θ
    · rw [he, Function.update_self, hnone] at hθ'
      cases hθ'
    · rw [Function.update_of_ne he] at hθ'
      have hone : (f j).core.executed.count u ≤ 1 := by
        have := (h.inv j).core.count_le_one u
        omega
      refine he (((h.inv j).role.event u).eq_of_le_one hone (decide_eq_true hθ') ?_)
      rw [hsame]
      exact decide_eq_true rfl
  | _ =>
    rw [hw] at hθ
    cases hθ

/-- A thread pushes the task which it has. -/
theorem leaves_posted (h : FairRun c f) (hp : ∀ k ≥ i, place (f k).core t = .posted) : False := by
  obtain ⟨j, hj, hs⟩ := h.post t i fun k hk =>
    mem_of_place (p := .posted) (hp k hk) (by decide)
  obtain ⟨core, hcore, he⟩ := Option.map_eq_some_iff.mp hs
  have hplace : place (f (j + 1)).core t = .frontQueue := by
    rw [← he]
    exact (Moves.post (h.inv j).core hcore).1.place
  rw [hp (j + 1) (Nat.le_succ_of_le hj)] at hplace
  cases hplace

theorem leaves_woken (h : FairRun c f) (hp : ∀ k ≥ i, place (f k).core t = .woken) : False := by
  obtain ⟨j, hj, hs⟩ := h.rePost t i fun k hk =>
    mem_of_place (p := .woken) (hp k hk) (by decide)
  obtain ⟨core, hcore, he⟩ := Option.map_eq_some_iff.mp hs
  have hplace : place (f (j + 1)).core t = .frontQueue := by
    rw [← he]
    exact (Moves.rePost (h.inv j).core hcore).1.place
  rw [hp (j + 1) (Nat.le_succ_of_le hj)] at hplace
  cases hplace

/-- A round takes the whole front queue. -/
theorem leaves_frontQueue [Nonempty Θ] (h : FairRun c f)
    (hp : ∀ k ≥ i, place (f k).core t = .frontQueue) : False := by
  have hmem : ∀ k ≥ i, t ∈ (f k).core.frontQueue := fun k hk =>
    mem_of_place (p := .frontQueue) (hp k hk) (by decide)
  obtain ⟨j, hj, θ, hw⟩ := h.round (.inl fun k hk => .inl (List.ne_nil_of_mem (hmem k hk)))
  obtain ⟨k, hk, -, w, -, hnext⟩ := h.next_of_active hw rfl
  cases hnext with
  | popFront _ hnil =>
    have ht := hmem (k + 1) (Nat.le_succ_of_le (hj.trans hk))
    rw [hnil] at ht
    cases ht

theorem leaves_pendingQueue [Nonempty Θ] (h : FairRun c f) (hb : 1 < c.schedBatchSize)
    (hp : ∀ k ≥ i, place (f k).core t = .pendingQueue) : False := by
  have hmem : ∀ k ≥ i, t ∈ (f k).core.pendingQueue := fun k hk =>
    mem_of_place (p := .pendingQueue) (hp k hk) (by decide)
  obtain ⟨k, hk, hno⟩ := Slides.leaves (t := t) (fun k => (h.slides k).1)
    (fun k => (h.inv k).queues_nodup.1) fun j hj =>
      h.pending_taken hb fun k hk => List.ne_nil_of_mem (hmem k (hj.trans hk))
  exact hno (hmem k hk)

/-- The round of the scheduler comes to its end, and the ready tasks are pushed. -/
theorem leaves_ready (h : FairRun c f) (hp : ∀ k ≥ i, place (f k).core t = .ready) : False := by
  have hmem : ∀ k ≥ i, t ∈ (f k).core.ready := fun k hk =>
    mem_of_place (p := .ready) (hp k hk) (by decide)
  obtain ⟨θ, hθ⟩ := (h.inv i).role.ready (List.ne_nil_of_mem (hmem i (Nat.le_refl i)))
  obtain ⟨k, hk, hw⟩ := h.reaches (A := fun w => Worker.gathers w = true)
    (B := fun w => w = .checkReady) (fun w hA => by cases w <;> first | rfl | cases hA)
    (fun k _ w w' hA hn => by
      have hlt := hn.turns (by rintro rfl; cases hA) (by rintro rfl; cases hA)
      cases hn with
      | pushReady => exact .inl rfl
      | kernelDo | kernelEnd | pendingDo | pendingEnd | waitingDo | waitingEnd =>
        exact .inr ⟨rfl, hlt.resolve_left Bool.false_ne_true⟩
      | _ => cases hA) (Nat.le_refl i) hθ
  have hnil := (h.inv k).role.ready_nil (θ := θ) (by rw [hw]; rfl) (by rw [hw]; rfl)
  have ht := hmem k hk
  rw [hnil] at ht
  cases ht

theorem leaves_readyQueue [Nonempty Θ] (h : FairRun c f)
    (hp : ∀ k ≥ i, place (f k).core t = .readyQueue) : False := by
  have hmem : ∀ k ≥ i, t ∈ (f k).core.readyQueue := fun k hk =>
    mem_of_place (p := .readyQueue) (hp k hk) (by decide)
  obtain ⟨k, hk, hno⟩ := Slides.leaves (t := t) (fun k => (h.slides k).2)
    (fun k => (h.inv k).queues_nodup.2) fun j hj =>
      h.ready_taken fun k hk => List.ne_nil_of_mem (hmem k (hj.trans hk))
  exact hno (hmem k hk)

end FairRun

/-! ### The way of a task -/

/-- How far a task is from its execution. -/
def Place.way : Place → ℕ
  | .outside => 0
  | .attached => 1
  | .asleep => 2
  | .readyQueue => 3
  | .ready => 4
  | .pendingQueue => 5
  | .frontQueue => 6
  | .woken => 7
  | .posted => 8
  | .executed => 9

/-- A task comes nearer to its execution with each step which moves it, or is woken up. -/
theorem Life.Step.way {l l' : Life} (h : Life.Step l l') (hp : l.place.counted = true) :
    (∃ isClosed args, l'.task.log = l.task.log ++ [Call.onEvent isClosed args]) ∨
      l'.place.counted = true ∧ (l'.place = l.place ∨ l'.place.way < l.place.way ∨
        l.core.status = .waiting ∧ l'.Awake) := by
  cases h with
  | execute hp hcl => exact .inl ⟨false, _, rfl⟩
  | final hp hcl => exact .inl ⟨true, _, rfl⟩
  | attach sock hout | reuse sock hout | postStart hout =>
    rw [hout] at hp
    cases hp
  | wakeupAsleep hs | rouse _ _ hs | expire hs => exact .inr ⟨rfl, .inr (.inr ⟨hs, .inl rfl⟩)⟩
  | closeAsleep _ hs => exact .inr ⟨rfl, .inr (.inr ⟨hs, .inr (.inl rfl)⟩)⟩
  | post hout | rePost hout | takeFront hout | sleep hout | dispatch _ hout | closeDo _ hout
  | pushReady hout | ended hout => exact .inr ⟨rfl, .inr (.inl (by rw [hout]; simp [Place.way]))⟩
  | _ => exact .inr ⟨hp, .inl rfl⟩

theorem Life.Awake.not_waiting {l : Life} (h : l.Awake) : l.core.status ≠ .waiting := by
  rcases h with hs | hs | ⟨hs, -⟩ <;> rw [hs] <;> decide

/-- A task which was posted and is going to be executed, after a history. -/
structure Coming (s : State T Θ) (t : T) (log : List Call) : Prop where
  awake : (life s t).Awake
  counted : (life s t).place.counted = true
  log : ∃ calls, (s.task t).log = log ++ calls

/-- The task was executed after a history. -/
def Served (s : State T Θ) (t : T) (log : List Call) : Prop :=
  ∃ calls isClosed args, (s.task t).log = log ++ calls ∧ Call.onEvent isClosed args ∈ calls

/-- A history grows once more. -/
theorem log_append {log calls calls' : List Call} (hlog : (s.task t).log = log ++ calls)
    (hlog' : (life s' t).task.log = (life s t).task.log ++ calls') :
    (s'.task t).log = log ++ (calls ++ calls') := by
  rw [← List.append_assoc, ← hlog]
  exact hlog'

theorem log_congr {log : List Call} (he : life s' t = life s t) (hlog : (s.task t).log = log) :
    (s'.task t).log = log :=
  (congrArg (fun l => l.task.log) he).trans hlog

/-- The end of a history, when a step makes an execution. -/
theorem Served.of_life {log calls : List Call} (hlog : (s.task t).log = log ++ calls)
    (hex : ∃ isClosed args, (life s' t).task.log =
      (life s t).task.log ++ [Call.onEvent isClosed args]) : Served s' t log := by
  obtain ⟨isClosed, args, hlog'⟩ := hex
  exact ⟨calls ++ [Call.onEvent isClosed args], isClosed, args, log_append hlog hlog', by simp⟩

namespace FairRun

variable [DecidableEq Θ] {f : ℕ → State T Θ} {i : ℕ} {log : List Call}

theorem life_step (h : FairRun c f) (k : ℕ) (t : T) :
    life (f (k + 1)) t = life (f k) t ∨ Life.Step (life (f k) t) (life (f (k + 1)) t) := by
  rcases h.run k with he | ⟨a, ha⟩
  · exact .inl (by rw [he])
  · exact ((h.inv k).effect ha).1.life t

/-- What happened to a task between two moments. -/
theorem later (h : FairRun c f) {k : ℕ} (hk : i ≤ k) (t : T) :
    (life (f i) t).Later (life (f k) t) := by
  induction hk with
  | refl => exact .refl _
  | @step k hk ih =>
    rcases h.life_step k t with he | hstep
    · rw [Nat.succ_eq_add_one, he]
      exact ih
    · exact ih.trans (hstep.later (life_core (h.inv k).core t) ((h.inv k).ok t))

theorem coming_step (h : FairRun c f) (k : ℕ) (hcoming : Coming (f k) t log) :
    Served (f (k + 1)) t log ∨ Coming (f (k + 1)) t log ∧
      (place (f (k + 1)).core t = place (f k).core t ∨
        (place (f (k + 1)).core t).way < (place (f k).core t).way) := by
  obtain ⟨hawake, hcounted, calls, hlog⟩ := hcoming
  rcases h.life_step k t with he | hstep
  · exact .inr ⟨⟨he ▸ hawake, he ▸ hcounted, calls, log_congr he hlog⟩,
      .inl (congrArg Life.place he)⟩
  · have hc := life_core (h.inv k).core t
    have ho := (h.inv k).ok t
    rcases hstep.awake hc ho hawake with hawake' | hex
    · rcases hstep.way hcounted with hex | ⟨hcounted', hway⟩
      · exact .inl (.of_life hlog hex)
      · obtain ⟨calls', hlog', -⟩ := hstep.log hc ho
        refine .inr ⟨⟨hawake', hcounted', _, log_append hlog hlog'⟩, hway.imp_right fun hway => ?_⟩
        exact hway.resolve_right fun hs => hawake.not_waiting hs.1
    · exact .inl (.of_life hlog hex)

/-- A task does not stay in one place, unless it sleeps. -/
theorem leaves [Nonempty Θ] (h : FairRun c f) (hb : 1 < c.schedBatchSize)
    (hcounted : (place (f i).core t).counted = true)
    (hasleep : ¬ ∀ k ≥ i, place (f k).core t = .asleep) :
    ∃ k ≥ i, place (f (k + 1)).core t ≠ place (f k).core t := by
  by_contra hno
  have hsame : ∀ k ≥ i, place (f k).core t = place (f i).core t := fun k hk => by
    induction hk with
    | refl => rfl
    | @step k hk ih => exact (by_contra fun hne => hno ⟨k, hk, hne⟩ : _ = _).trans ih
  cases hp : place (f i).core t with
  | outside | attached =>
    rw [hp] at hcounted
    cases hcounted
  | asleep => exact hasleep fun k hk => (hsame k hk).trans hp
  | executed => exact h.leaves_executed fun k hk => (hsame k hk).trans hp
  | posted => exact h.leaves_posted fun k hk => (hsame k hk).trans hp
  | woken => exact h.leaves_woken fun k hk => (hsame k hk).trans hp
  | frontQueue => exact h.leaves_frontQueue fun k hk => (hsame k hk).trans hp
  | pendingQueue => exact h.leaves_pendingQueue hb fun k hk => (hsame k hk).trans hp
  | ready => exact h.leaves_ready fun k hk => (hsame k hk).trans hp
  | readyQueue => exact h.leaves_readyQueue fun k hk => (hsame k hk).trans hp

/-- A task which is going to be executed is executed. -/
theorem served [Nonempty Θ] (h : FairRun c f) (hb : 1 < c.schedBatchSize)
    (hcoming : Coming (f i) t log) : ∃ k ≥ i, Served (f k) t log := by
  refine @Machine.eventually_of_rank _ _ (fun p q => p.way < q.way)
    (InvImage.wf Place.way Nat.lt_wfRel.wf) f (fun s => Coming s t log) (fun s => Served s t log)
    (fun s => place s.core t) (fun k hk => h.coming_step k hk) (fun k hk => ?_) i hcoming
  obtain ⟨hawake, hcounted, -⟩ := hk k (Nat.le_refl k)
  refine h.leaves hb hcounted fun hsleep => hawake.not_waiting ?_
  exact (life_core (h.inv k).core t).asleep_iff.mp (hsleep k (Nat.le_refl k))

end FairRun

theorem Inv.counted (h : Inv s) (ht : t ∈ s.core.lives) : (life s t).place.counted = true := by
  have hout := (mem_lives_iff h.core).mp (List.mem_append_right _ ht)
  cases hp : (life s t).place with
  | outside => exact absurd hp hout
  | attached =>
    have ha : t ∈ s.core.attached := mem_of_place (p := .attached) hp (by decide)
    exact absurd ht (List.disjoint_of_nodup_append h.core.nodup ha)
  | _ => rfl

theorem Coming.start (ha : (life s t).Awake) (hp : (life s t).place.counted = true) :
    Coming s t (s.task t).log := ⟨ha, hp, [], (List.append_nil _).symm⟩

/-- **A wakeup is served**: after `PostWakeup` of a task which was posted the task is executed, in
every run in which no thread stops for ever. -/
theorem wakeup_served [DecidableEq Θ] [Nonempty Θ] {f : ℕ → State T Θ} {i : ℕ} (h : FairRun c f)
    (hb : 1 < c.schedBatchSize) (ht : t ∈ (f i).core.lives)
    (hs : (machine c).step (f i) (.wakeup t) = some (f (i + 1))) :
    ∃ k > i, ∃ calls isClosed args, ((f k).task t).log = ((f i).task t).log ++ calls ∧
      Call.onEvent isClosed args ∈ calls := by
  have he : { f i with core := IOCoreCount.wakeup (f i).core t } = f (i + 1) := Option.some.inj hs
  have hlives : t ∈ (f (i + 1)).core.lives := by
    rw [← he, IOCoreCount.wakeup]
    dsimp only
    split
    · exact IOCoreCount.Inv.mem_lives.mpr (by simp)
    · exact ht
    · exact ht
  have hcounted := (h.inv (i + 1)).counted hlives
  have hawake : (life (f (i + 1)) t).Awake := by
    by_cases hclosed : ((f i).core.task t).status = .closed
    · have hst : (life (f (i + 1)) t).core.status = .closed := by
        rw [← he]
        simp [life, IOCoreCount.wakeup, hclosed]
      refine .inr (.inr ⟨hst, ((((h.inv (i + 1)).ok t).closed hst).2).resolve_left fun hout => ?_⟩)
      rw [hout] at hcounted
      cases hcounted
    · rw [← he]
      exact (wakeup_status (f i).core hclosed).imp_right .inl
  obtain ⟨k, hk, calls, isClosed, args, hlog, hmem⟩ :=
    h.served hb (.start hawake hcounted)
  refine ⟨k, hk, calls, isClosed, args, hlog.trans ?_, hmem⟩
  rw [← he]

/-- What follows the closure of the socket in a history. -/
theorem Phase.after_closed {log calls : List Call} {p : Phase}
    (h : Phase.after log = some .closed) (h' : Phase.after (log ++ calls) = some p)
    (hne : calls ≠ []) : ∃ calls', calls = .onEvent true ∅ :: calls' := by
  rw [Phase.after, List.foldlM_append, show log.foldlM Phase.next .outside = _ from h] at h'
  cases calls with
  | nil => exact absurd rfl hne
  | cons call calls' =>
    rw [Option.bind_eq_bind, Option.bind_some, List.foldlM_cons] at h'
    obtain ⟨q, hq, -⟩ := Option.bind_eq_some_iff.mp h'
    cases call with
    | onEvent isClosed args =>
      cases isClosed with
      | true =>
        obtain ⟨rfl, -⟩ := Option.ite_none_right_eq_some.mp hq
        exact ⟨calls', rfl⟩
      | false => cases hq
    | post | closeDo => cases hq

/-- A task which is to be closed comes to the closure of its socket. -/
theorem FairRun.closes [DecidableEq Θ] [Nonempty Θ] {f : ℕ → State T Θ} {i : ℕ} (h : FairRun c f)
    (hb : 1 < c.schedBatchSize) (hp : (life (f i) t).place.counted = true)
    (hs : (life (f i) t).core.status = .closing) :
    ∃ k ≥ i, (life (f (k + 1)) t).core.status = .closed ∧
      (life (f (k + 1)) t).place = .ready ∧
      ((f (k + 1)).task t).log = ((f k).task t).log ++ [Call.closeDo] := by
  by_contra hno
  have hall : ∀ k ≥ i, (life (f k) t).place.counted = true ∧
      (life (f k) t).core.status = .closing ∧
      ∃ calls, ((f k).task t).log = ((f i).task t).log ++ calls ∧
        calls.countP Call.isEvent + (life (f k) t).place.dispatched.toNat ≤
          (life (f i) t).place.dispatched.toNat := fun k hk => by
    induction hk with
    | refl => exact ⟨hp, hs, [], (List.append_nil _).symm, by simp⟩
    | @step k hk ih =>
      obtain ⟨hcounted, hst, calls, hlog, hle⟩ := ih
      rcases h.life_step k t with he | hstep
      · refine ⟨he ▸ hcounted, he ▸ hst, calls, log_congr he hlog, ?_⟩
        rw [Nat.succ_eq_add_one, he]
        exact hle
      · rcases hstep.closing (life_core (h.inv k).core t) ((h.inv k).ok t) hst with
          ⟨hcl, hready, hlog'⟩ | ⟨hst', hkeep, calls', hlog', hle'⟩
        · exact absurd ⟨k, hk, hcl, hready, hlog'⟩ hno
        · refine ⟨hkeep hcounted, hst', calls ++ calls', log_append hlog hlog', ?_⟩
          rw [List.countP_append, Nat.succ_eq_add_one]
          omega
  -- It would be executed twice before the closure.
  obtain ⟨j, hj, calls₁, isClosed₁, args₁, hlog₁, hmem₁⟩ :=
    h.served hb (.start (.inr (.inl hs)) hp)
  obtain ⟨hcounted, hst, -⟩ := hall j hj
  obtain ⟨k, hk, calls₂, isClosed₂, args₂, hlog₂, hmem₂⟩ :=
    h.served hb (.start (.inr (.inl hst)) hcounted)
  obtain ⟨-, -, calls, hlog, hle⟩ := hall k (hj.trans hk)
  rw [hlog₂, hlog₁, List.append_assoc] at hlog
  rw [← List.append_cancel_left hlog, List.countP_append] at hle
  have h₁ : 0 < calls₁.countP Call.isEvent := List.countP_pos_iff.mpr ⟨_, hmem₁, rfl⟩
  have h₂ : 0 < calls₂.countP Call.isEvent := List.countP_pos_iff.mpr ⟨_, hmem₂, rfl⟩
  have hone := Bool.toNat_le (life (f i) t).place.dispatched
  omega

/-- A task whose socket is closed is executed for the last time. -/
theorem FairRun.final_served [DecidableEq Θ] [Nonempty Θ] {f : ℕ → State T Θ} {i : ℕ}
    (h : FairRun c f) (hb : 1 < c.schedBatchSize)
    (hp : (life (f i) t).place.dispatched = true)
    (hs : (life (f i) t).core.status = .closed) :
    ∃ k ≥ i, ∃ calls, ((f k).task t).log = ((f i).task t).log ++ Call.onEvent true ∅ :: calls := by
  have hcounted : (life (f i) t).place.counted = true := by
    cases hplace : (life (f i) t).place <;> rw [hplace] at hp <;> first | rfl | cases hp
  obtain ⟨k, hk, calls, isClosed, args, hlog, hmem⟩ :=
    h.served hb (.start (.inr (.inr ⟨hs, hp⟩)) hcounted)
  have hphase := ((h.inv i).ok t).phase
  have hout : (life (f i) t).place ≠ .outside := fun hout => by
    rw [hout] at hp
    cases hp
  rw [Life.phase, if_neg hout, if_pos hs] at hphase
  have hafter := ((h.inv k).ok t).phase
  rw [show (life (f k) t).task.log = _ from hlog] at hafter
  obtain ⟨calls', rfl⟩ := Phase.after_closed hphase hafter (List.ne_nil_of_mem hmem)
  exact ⟨k, hk, calls', hlog⟩

/-- **A close is served**: a task whose status is `CLOSING` loses its socket and is then executed
for the last time, in every run in which no thread stops for ever. -/
theorem close_served [DecidableEq Θ] [Nonempty Θ] {f : ℕ → State T Θ} {i : ℕ} (h : FairRun c f)
    (hb : 1 < c.schedBatchSize) (ht : t ∈ (f i).core.lives)
    (hs : ((f i).core.task t).status = .closing) :
    ∃ k ≥ i, ∃ calls calls', ((f k).task t).log =
      ((f i).task t).log ++ calls ++ Call.closeDo :: .onEvent true ∅ :: calls' := by
  obtain ⟨j, hj, hst, hready, hlog⟩ := h.closes hb ((h.inv i).counted ht) hs
  obtain ⟨k, hk, calls', hlog'⟩ := h.final_served (i := j + 1) hb (by rw [hready]; rfl) hst
  obtain ⟨calls, hgrown, -⟩ := h.later hj t
  refine ⟨k, hj.trans ((Nat.le_succ j).trans hk), calls, calls', ?_⟩
  rw [hlog', hlog, show ((f j).task t).log = _ from hgrown, List.append_assoc, List.append_assoc,
    List.append_assoc]
  rfl

/-! ### Runs which come to a rest -/

section Still

variable [DecidableEq Θ] {as : List (Action T Θ)}

/-- The states of a run, and after it the last one, in which the clock goes on. -/
def still (c : Config) (s : State T Θ) (as : List (Action T Θ)) (i : ℕ) : State T Θ :=
  let u := ((machine c).run s (as.take i)).getD s
  { u with now := u.now + (i - as.length) }

theorem run_still (hr : (machine c).run s as = some s') {i : ℕ} (hi : i ≤ as.length) :
    (machine c).run s (as.take i) = some (still c s as i) := by
  rw [← List.take_append_drop i as, Machine.run_append] at hr
  obtain ⟨u, hu, -⟩ := Option.bind_eq_some_iff.mp hr
  rw [still, hu, Option.getD_some, Nat.sub_eq_zero_of_le hi]
  rfl

theorem still_step (hr : (machine c).run s as = some s') {i : ℕ} {a : Action T Θ}
    (ha : as[i]? = some a) :
    (machine c).step (still c s as i) a = some (still c s as (i + 1)) := by
  have hi : i < as.length := (List.getElem?_eq_some_iff.mp ha).1
  have hnext := run_still hr hi
  rw [List.take_add_one, ha, Option.toList_some, Machine.run_snoc_eq_some] at hnext
  obtain ⟨u, hu, hs⟩ := hnext
  obtain rfl := Option.some.inj ((run_still hr hi.le).symm.trans hu)
  exact hs

theorem still_last (hr : (machine c).run s as = some s') {i : ℕ} (hi : as.length ≤ i) :
    still c s as i = { s' with now := s'.now + (i - as.length) } := by
  rw [still, List.take_of_length_le hi, hr, Option.getD_some]

/-- The clock goes on. -/
theorem still_now (hr : (machine c).run s as = some s') (n : ℕ) :
    ∃ k, n ≤ (still c s as k).now := by
  refine ⟨as.length + n, ?_⟩
  rw [still_last hr (Nat.le_add_right ..), Nat.add_sub_cancel_left]
  exact Nat.le_add_left ..

/-- A run is fair when nobody has a step at its end. -/
theorem FairRun.of_still (h : (machine c).Reachable s) (hr : (machine c).run s as = some s')
    (hb : ∀ n θ, Blocked { s' with now := n } θ) (hs : s'.signalers = 0)
    (hp : s'.core.posted = []) (hw : s'.core.woken = []) : FairRun c (still c s as) where
  init := h.of_run (run_still hr (Nat.zero_le _))
  run i := by
    cases ha : as[i]? with
    | none =>
      have hle := List.getElem?_eq_none_iff.mp ha
      refine .inr ⟨.tick, ?_⟩
      rw [still_last hr hle, still_last hr (Nat.le_succ_of_le hle), Nat.succ_sub hle]
      rfl
    | some a => exact .inr ⟨a, still_step hr ha⟩
  worker θ i hno := by
    have hnb := hno _ (Nat.le_max_left i as.length)
    rw [still_last hr (Nat.le_max_right ..)] at hnb
    exact absurd (hb _ θ) hnb
  signal i hno := by
    have hpos := hno _ (Nat.le_max_left i as.length)
    rw [still_last hr (Nat.le_max_right ..)] at hpos
    exact absurd hs hpos.ne'
  post t i hno := by
    have ht := hno _ (Nat.le_max_left i as.length)
    rw [still_last hr (Nat.le_max_right ..), hp] at ht
    cases ht
  rePost t i hno := by
    have ht := hno _ (Nat.le_max_left i as.length)
    rw [still_last hr (Nat.le_max_right ..), hw] at ht
    cases ht

end Still

/-- One worker waits for epoll, the other one for the ready signal, and no thread has a task. -/
def rests (s : State ℕ Bool) : Bool :=
  decide (s.worker false = .poll none) && decide (s.worker true = .waitReady) &&
    !s.readySignal && !s.eventFd && decide (s.signalers = 0) && s.core.posted.isEmpty &&
    s.core.woken.isEmpty &&
    (s.core.attached ++ s.core.lives).all fun t => decide ((s.task t).edges = ∅)

theorem still_fair (as : List (Action ℕ Bool))
    (h : ((machine sample).run (.new 0) as).any rests = true) :
    ∃ s, (machine sample).run (.new 0) as = some s ∧ FairRun sample (still sample (.new 0) as) ∧
      ∀ t, (s.task t).edges = ∅ := by
  obtain ⟨s, hs, hrest⟩ := Option.any_eq_true _ _ |>.mp h
  simp only [rests, Bool.and_eq_true, decide_eq_true_eq, Bool.not_eq_true', List.isEmpty_iff,
    List.all_eq_true] at hrest
  obtain ⟨⟨⟨⟨⟨⟨⟨hfalse, htrue⟩, hready⟩, hfd⟩, hsig⟩, hposted⟩, hwoken⟩, hedges⟩ := hrest
  have hedges := (inv (reachable_of_run hs)).no_edges hedges
  exact ⟨s, hs, .of_still (.init ⟨0, rfl⟩) hs
    (fun n => blocked_of_workers hfalse htrue hready hfd hedges) hsig hposted hwoken, hedges⟩

/-- A moment of a run. -/
theorem still_of_run [DecidableEq Θ] {as : List (Action T Θ)} {P : State T Θ → Prop}
    [DecidablePred P] {i : ℕ} (hr : (machine c).run s as = some s') (hi : i ≤ as.length)
    (h : ((machine c).run s (as.take i)).any (fun u => decide (P u)) = true) :
    P (still c s as i) := by
  obtain ⟨u, hu, hP⟩ := Option.any_eq_true _ _ |>.mp h
  obtain rfl := Option.some.inj ((run_still hr hi).symm.trans hu)
  exact of_decide_eq_true hP

/-- The task is woken up when all the workers wait, and they wait again after its execution. -/
def roused : List (Action ℕ Bool) := blocked ++ [Action.wakeup 1] ++ rewoken ++ works 5

theorem wakeup_served_roused : ∃ (f : ℕ → State ℕ Bool) (i : ℕ), FairRun sample f ∧
    1 ∈ (f i).core.lives ∧ (machine sample).step (f i) (.wakeup 1) = some (f (i + 1)) ∧
    ∃ k > i, ∃ calls isClosed args, ((f k).task 1).log = ((f i).task 1).log ++ calls ∧
      Call.onEvent isClosed args ∈ calls := by
  obtain ⟨s, hs, hfair, -⟩ := still_fair roused (by decide +kernel)
  have hstep := still_step hs (i := blocked.length) (a := .wakeup 1) rfl
  have hmem := still_of_run (P := fun u => 1 ∈ u.core.lives) (i := blocked.length) hs (by decide)
    (by decide +kernel)
  exact ⟨_, _, hfair, hmem, hstep, wakeup_served hfair (by decide) hmem hstep⟩

/-- The task is closed when all the workers wait. -/
def shut : List (Action ℕ Bool) :=
  blocked ++ [Action.closeStart 1, .close 1, .rePost 1, .signal, .work false,
    .epollWait false [] (fun _ => ∅) true] ++ works 14 ++
    [Action.epollWait false [] (fun _ => ∅) false] ++ works 7

theorem close_served_shut : ∃ (f : ℕ → State ℕ Bool) (i : ℕ), FairRun sample f ∧
    1 ∈ (f i).core.lives ∧ ((f i).core.task 1).status = .closing ∧
    ∃ k ≥ i, ∃ calls calls', ((f k).task 1).log =
      ((f i).task 1).log ++ calls ++ Call.closeDo :: .onEvent true ∅ :: calls' := by
  obtain ⟨s, hs, hfair, -⟩ := still_fair shut (by decide +kernel)
  obtain ⟨hlives, hst⟩ := still_of_run (P := fun u => 1 ∈ u.core.lives ∧
    (u.core.task 1).status = .closing) (i := blocked.length + 2) hs (by decide)
    (by decide +kernel)
  exact ⟨_, _, hfair, hlives, hst, close_served hfair (by decide) hlives hst⟩

end IOCoreEpoll

end Serverbox
