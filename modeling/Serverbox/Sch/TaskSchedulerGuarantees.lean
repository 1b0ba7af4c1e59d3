import Serverbox.Sch.TaskSchedulerPlaces

/-!
# What the task scheduler guarantees to its tasks

A task of the scheduler is in one place at a time until its callback starts, and it is moved to
the ready queue before its deadline only when somebody has asked for it.

## Main definitions

* `TaskScheduler.State.dispatching`: the tasks between their pop from the ready queue and the
  start of their callbacks.

## Main results

* `TaskScheduler.single_place`: a task is in one place only.
* `TaskScheduler.deadlines`: when a task may be moved to the ready queue, and whether it is
  expired when it is executed.
-/

namespace Serverbox

namespace TaskScheduler

variable {T Θ : Type*} [DecidableEq T] [DecidableEq Θ] {c : Config T Θ} {s s' : State T Θ} {θ : Θ}

section SinglePlace

omit [DecidableEq T] [DecidableEq Θ] in
/-- The tasks which a worker has popped and whose callbacks it has not started yet. -/
def State.dispatching (s : State T Θ) (θ : Θ) : List T :=
  s.contents (.popped θ) ++ s.contents (.released θ) ++ s.contents (.starting θ)

omit [DecidableEq T] [DecidableEq Θ] in
theorem State.mem_dispatching {t : T} (h : t ∈ s.dispatching θ) :
    ∃ p, t ∈ s.contents p ∧ (p = .popped θ ∨ p = .released θ ∨ p = .starting θ) := by
  simp only [State.dispatching, List.mem_append] at h
  rcases h with (h | h) | h
  · exact ⟨_, h, .inl rfl⟩
  · exact ⟨_, h, .inr (.inl rfl)⟩
  · exact ⟨_, h, .inr (.inr rfl)⟩

omit [DecidableEq T] [DecidableEq Θ] in
theorem State.tracked_of_mem {p : Place Θ} {t : T} (h : t ∈ s.contents p) : p.Tracked := by
  cases p <;> trivial

/-- **A task is in one place only.** In every reachable state, for any workers, tasks and threads:
no place holds a task twice and no two places hold the same task, so that its link belongs to one
list and its callback is about to be started by one worker; and a task in the waiting heap is
asleep, or about to be pushed to the front queue, or in it, or in the pending list, or was just
taken from there. -/
theorem single_place (h : (machine c).Reachable s) :
    (∀ p, (s.contents p).Nodup) ∧ (∀ p q t, t ∈ s.contents p → t ∈ s.contents q → p = q) ∧
    (∀ θ ψ t, t ∈ s.dispatching θ → t ∈ s.dispatching ψ → θ = ψ) ∧
    s.waiting.data.Nodup ∧
    ∀ t ∈ s.waiting.data, ∀ p, t ∈ s.contents p →
      (∃ θ, p = .pushing θ) ∨ p = .front ∨ p = .pending ∨ ∃ θ, p = .taken θ := by
  have hinv := inv h
  have hunique : ∀ p q t, t ∈ s.contents p → t ∈ s.contents q → p = q := fun p q t hp hq =>
    hinv.placed.eq_of_mem (State.tracked_of_mem hp) (State.tracked_of_mem hq) hp hq
  refine ⟨fun p => ?_, hunique, fun θ ψ t hθ hψ => ?_, hinv.heap.indexed.nodup,
    fun t ht p hp => ?_⟩
  · by_cases hp : p.Tracked
    · exact hinv.placed.nodup p hp
    · cases p <;> first | exact List.nodup_nil | exact absurd trivial hp
  · obtain ⟨p, hp, hpθ⟩ := State.mem_dispatching hθ
    obtain ⟨q, hq, hqψ⟩ := State.mem_dispatching hψ
    have := hunique p q t hp hq
    rcases hpθ with rfl | rfl | rfl <;> rcases hqψ with rfl | rfl | rfl <;> cases this <;> rfl
  · have hplace : s.place t = p :=
      (hinv.placed.mem_iff p (State.tracked_of_mem hp) t).mp hp
    have hwait : (s.place t).mayWait = true :=
      ((hinv.lives t).heap (hinv.inHeap_iff.mpr ht)).1
    rw [hplace] at hwait
    cases p with
    | pushing θ => exact .inl ⟨θ, rfl⟩
    | front => exact .inr (.inl rfl)
    | pending => exact .inr (.inr (.inl rfl))
    | taken θ => exact .inr (.inr (.inr ⟨θ, rfl⟩))
    | outside | asleep => cases hp
    | chosen _ | ready | popped _ | released _ | starting _ => cases hwait

/-- Two workers and one task. -/
def pair : Config Unit ℕ where
  queue := ⟨2, Nat.two_pos, fun _ _ => some ()⟩
  schedBatchSize := 2
  workers := [1, 2]

/-- A callback posts its own task again, and the other worker executes it meanwhile. -/
def pairRun : List (Action Unit ℕ) :=
  Action.op 0 (.post ()) :: List.replicate 4 (.call 0 false) ++
    List.replicate 31 (Action.work 1 false) ++
    Action.op 1 (.post ()) :: List.replicate 3 (.call 1 false) ++
    List.replicate 30 (Action.work 2 false)

/-- A task which was posted again by its own callback is executed by two workers at once. -/
theorem executed_twice :
    ∃ s, (machine pair).run (.new pair 0) pairRun = some s ∧
      (∃ batch, s.work 1 = .callback batch ()) ∧ ∃ batch, s.work 2 = .callback batch () := by
  have hrun : ((machine pair).run (.new pair 0) pairRun).map (fun s =>
      ((match s.work 1 with
        | .callback _ _ => true
        | _ => false),
       (match s.work 2 with
        | .callback _ _ => true
        | _ => false))) = some (true, true) := by
    decide +kernel
  simp only [Option.map_eq_some_iff, Prod.mk.injEq] at hrun
  obtain ⟨s, hs, h₁, h₂⟩ := hrun
  refine ⟨s, hs, ?_, ?_⟩
  · split at h₁
    · exact ⟨_, ‹_›⟩
    · cases h₁
  · split at h₂
    · exact ⟨_, ‹_›⟩
    · cases h₂

/-- The invariant at the end of that run. -/
theorem single_place_pair :
    ∃ s, (machine pair).run (.new pair 0) pairRun = some s ∧
      ∀ p q t, t ∈ s.contents p → t ∈ s.contents q → p = q := by
  have hrun : ((machine pair).run (.new pair 0) pairRun).isSome = true := by decide +kernel
  obtain ⟨s, hs⟩ := Option.isSome_iff_exists.mp hrun
  exact ⟨s, hs, (single_place (.of_run (.init ⟨0, rfl⟩) hs)).2.1⟩

end SinglePlace

section Deadlines

omit [DecidableEq T] [DecidableEq Θ] in
/-- The timestamp of the round of scheduling in which a worker is. -/
def Work.timestamp : Work T → Option ℕ
  | waitingTop r | waitingCas r _ | frontPop r | pendingPop r | pendingSleep r _
  | waitingPush r _ | pendingReady r _ => some r.timestamp
  | _ => none

/-- What a step of the worker `θ` does to the timestamps. -/
structure Clock (s s' : State T Θ) (θ : Θ) : Prop where
  now : s'.now = s.now
  moved : ∀ t, s'.moved t = s.moved t ∨
    ∃ d ts, s'.moved t = some (d, ts) ∧ (s.work θ).timestamp = some ts
  timestamp : ∀ ts, (s'.work θ).timestamp = some ts →
    (s.work θ).timestamp = some ts ∨ ts = s.now

omit [DecidableEq T] in
/-- A worker moves and stays in its round or leaves it. -/
theorem Clock.workAt {t : State T Θ} {w : Work T} (hn : t.now = s.now) (hm : t.moved = s.moved)
    (hw : w.timestamp = none ∨ w.timestamp = (s.work θ).timestamp) : Clock s (t.workAt θ w) θ where
  now := hn
  moved u := .inl (congrFun hm u)
  timestamp ts h := by
    rw [State.workAt_self] at h
    rcases hw with hw | hw
    · rw [hw] at h
      cases h
    · exact .inl (hw ▸ h)

/-- The scheduler chooses a task. -/
theorem Clock.choose {u : State T Θ} {r : Round T} {t : T} {w : Work T} (hn : u.now = s.now)
    (hm : u.moved = s.moved) (hr : (s.work θ).timestamp = some r.timestamp)
    (hw : w.timestamp = some r.timestamp) : Clock s ((choose u θ r t).workAt θ w) θ where
  now := hn
  moved x := by
    by_cases hx : x = t
    · subst hx
      exact .inr ⟨_, _, Function.update_self .., hr⟩
    · refine .inl ((Function.update_of_ne hx _ _).trans (congrFun hm x))
  timestamp ts h := by
    rw [State.workAt_self, hw] at h
    exact .inl (hr.trans h)

theorem Clock.collect {u : State T Θ} {r : Round T} {t : T} (hn : u.now = s.now)
    (hm : u.moved = s.moved) (hr : (s.work θ).timestamp = some r.timestamp) :
    Clock s (collect u θ r t) θ := by
  unfold TaskScheduler.collect
  by_cases hh : 0 ≤ u.waiting.index t
  · rw [if_pos hh]
    exact .choose hn hm hr rfl
  · rw [if_neg hh]
    exact .choose hn hm hr rfl

omit [DecidableEq T] in
theorem Clock.produce {w : Work T} (hw : w.timestamp = none) (hs : produce c s θ w = some s') :
    Clock s s' θ := by
  unfold TaskScheduler.produce at hs
  split at hs
  · obtain ⟨t, ht, rfl⟩ := Option.map_eq_some_iff.mp hs
    obtain ⟨q, -, rfl⟩ := Option.map_eq_some_iff.mp ht
    exact .workAt rfl rfl (.inl hw)
  · obtain ⟨q, -, rfl⟩ := Option.map_eq_some_iff.mp hs
    exact ⟨rfl, fun _ => .inl rfl, fun _ => .inl⟩

/-- A worker takes its timestamp at the beginning of a round, and moves tasks with it. -/
theorem work_clock {spurious : Bool} (hs : work c s θ spurious = some s') : Clock s s' θ := by
  unfold work at hs
  cases hwork : s.work θ with
  | outside => simp [hwork] at hs
  | attach | attaching | pop _ =>
    simp only [hwork] at hs
    obtain ⟨t, ht, rfl⟩ := Option.map_eq_some_iff.mp hs
    obtain ⟨q, -, rfl⟩ := Option.map_eq_some_iff.mp ht
    exact .workAt rfl rfl (.inl rfl)
  | start =>
    simp only [hwork, callTrySchedule] at hs
    obtain ⟨m, -, rfl⟩ := Option.map_eq_some_iff.mp hs
    exact .workAt rfl rfl (.inl rfl)
  | trySchedule | unlock =>
    simp only [hwork, trySchedule, workUnlocking] at hs
    obtain ⟨m, -, rfl⟩ := Option.map_eq_some_iff.mp hs
    refine .workAt rfl rfl (.inl ?_)
    split <;> rfl
  | readTime =>
    simp only [hwork, Option.some.injEq] at hs
    subst hs
    refine ⟨rfl, fun _ => .inl rfl, fun ts h => ?_⟩
    rw [State.workAt_self] at h
    exact .inr (Option.some.inj h).symm
  | sleepTimed _ | execute _ _ | executeCas _ _ | executeStart _ _ | storeIdle | readyPublish =>
    simp only [hwork, Option.some.injEq] at hs
    subst hs
    exact .workAt rfl rfl (.inl rfl)
  | readyProbe =>
    simp only [hwork, Option.some.injEq] at hs
    subst hs
    refine .workAt rfl rfl (.inl ?_)
    split <;> rfl
  | frontPop r | waitingPush r t =>
    simp only [hwork, Option.some.injEq] at hs
    subst hs
    exact .workAt rfl rfl (.inr (by rw [hwork]; rfl))
  | waitingTop r =>
    simp only [hwork, Option.some.injEq, waitingTop] at hs
    subst hs
    split <;> [skip; split] <;> exact .workAt rfl rfl (.inr (by rw [hwork]; rfl))
  | waitingCas r t =>
    simp only [hwork, Option.some.injEq, waitingCas] at hs
    subst hs
    split
    · exact .choose rfl rfl (by rw [hwork]; rfl) rfl
    · exact .workAt rfl rfl (.inr (by rw [hwork]; rfl))
  | pendingPop r =>
    simp only [hwork, Option.some.injEq, pendingPop] at hs
    subst hs
    split
    · exact .workAt rfl rfl (.inl rfl)
    · split
      · refine .workAt rfl rfl (.inr ?_)
        rw [hwork]
        split <;> rfl
      · exact .workAt rfl rfl (.inl rfl)
  | pendingSleep r t =>
    simp only [hwork, Option.some.injEq, pendingSleep] at hs
    subst hs
    split
    · split <;> exact .workAt rfl rfl (.inr (by rw [hwork]; rfl))
    · exact .collect rfl rfl (by rw [hwork]; rfl)
  | pendingReady r t =>
    simp only [hwork, Option.some.injEq] at hs
    exact hs ▸ .collect rfl rfl (by rw [hwork]; rfl)
  | transfer l =>
    simp only [hwork] at hs
    cases l <;> obtain ⟨t, ht, rfl⟩ := Option.map_eq_some_iff.mp hs <;>
      obtain ⟨q, -, rfl⟩ := Option.map_eq_some_iff.mp ht <;> exact .workAt rfl rfl (.inl rfl)
  | transferring _ | flushing =>
    simp only [hwork] at hs
    exact .produce rfl hs
  | checkReady =>
    simp only [hwork, workUnlock] at hs
    split at hs
    · cases hs
      exact .workAt rfl rfl (.inl rfl)
    · obtain ⟨m, -, rfl⟩ := Option.map_eq_some_iff.mp hs
      exact .workAt rfl rfl (.inl rfl)
  | checkWaiting =>
    simp only [hwork, checkWaiting, workUnlock] at hs
    split at hs
    · cases hs
      exact .workAt rfl rfl (.inl rfl)
    · split at hs
      · cases hs
        exact .workAt rfl rfl (.inl rfl)
      · obtain ⟨m, -, rfl⟩ := Option.map_eq_some_iff.mp hs
        exact .workAt rfl rfl (.inl rfl)
  | sleepingTimed _ | sleeping =>
    simp only [hwork, receiveFront, workUnlock, Option.ite_none_right_eq_some] at hs
    obtain ⟨m, -, rfl⟩ := Option.map_eq_some_iff.mp hs.2
    exact .workAt rfl rfl (.inl rfl)
  | popping batch =>
    simp only [hwork, popping] at hs
    split at hs
    · obtain ⟨t, ht, rfl⟩ := Option.map_eq_some_iff.mp hs
      obtain ⟨q, -, rfl⟩ := Option.map_eq_some_iff.mp ht
      refine .workAt rfl rfl (.inl ?_)
      split <;> rfl
    · obtain ⟨t, ht, rfl⟩ := Option.map_eq_some_iff.mp hs
      obtain ⟨q, -, rfl⟩ := Option.map_eq_some_iff.mp ht
      split <;> exact ⟨rfl, fun _ => .inl rfl, fun _ => .inl⟩
  | callback _ _ =>
    simp only [hwork, executed, callTrySchedule] at hs
    split at hs
    · cases hs
      exact .workAt rfl rfl (.inl rfl)
    · obtain ⟨m, -, rfl⟩ := Option.map_eq_some_iff.mp hs
      exact .workAt rfl rfl (.inl rfl)
  | waitReady =>
    simp only [hwork, Option.ite_none_right_eq_some, Option.some.injEq] at hs
    obtain ⟨-, rfl⟩ := hs
    exact .workAt rfl rfl (.inl rfl)

/-- A call leaves the clock, the workers and the timestamps of the tasks alone. -/
theorem call_clock {spurious : Bool} (hs : call c s θ spurious = some s') :
    s'.now = s.now ∧ s'.work = s.work ∧ s'.moved = s.moved := by
  unfold call at hs
  cases hcall : s.call θ with
  | idle | done _ => simp [hcall] at hs
  | pushLoad _ | frontProbe | frontPublish | wakeupLoad _ | readyProbe _ | readyPublish _ =>
    simp only [hcall, Option.some.injEq] at hs
    exact hs ▸ ⟨rfl, rfl, rfl⟩
  | pushCas u old =>
    simp only [hcall, Option.some.injEq, pushCas] at hs
    subst hs
    split <;> exact ⟨rfl, rfl, rfl⟩
  | wakeupCas u old =>
    simp only [hcall, Option.some.injEq, wakeupCas] at hs
    subst hs
    split <;> [split; skip] <;> exact ⟨rfl, rfl, rfl⟩
  | signalExchange u =>
    simp only [hcall, Option.some.injEq, signalExchange] at hs
    subst hs
    split <;> exact ⟨rfl, rfl, rfl⟩
  | lock =>
    simp only [hcall, lock] at hs
    split at hs
    · cases hs
      exact ⟨rfl, rfl, rfl⟩
    · obtain ⟨m, -, rfl⟩ := Option.map_eq_some_iff.mp hs
      exact ⟨rfl, rfl, rfl⟩
  | interruptProbe =>
    simp only [hcall, interrupted] at hs
    split at hs
    · cases hs
      exact ⟨rfl, rfl, rfl⟩
    · obtain ⟨m, -, rfl⟩ := Option.map_eq_some_iff.mp hs
      exact ⟨rfl, rfl, rfl⟩
  | interruptPublish | readReady | unlock _ =>
    simp only [hcall, interrupted, callUnlock, callUnlocking] at hs
    obtain ⟨m, -, rfl⟩ := Option.map_eq_some_iff.mp hs
    exact ⟨rfl, rfl, rfl⟩
  | getState rest =>
    simp only [hcall] at hs
    cases rest with
    | nil =>
      cases hs
      exact ⟨rfl, rfl, rfl⟩
    | cons w rest =>
      simp only [callUnlock] at hs
      split at hs
      · obtain ⟨m, -, rfl⟩ := Option.map_eq_some_iff.mp hs
        exact ⟨rfl, rfl, rfl⟩
      · cases hs
        exact ⟨rfl, rfl, rfl⟩
  | readFront | readWaiting | readPending =>
    simp only [hcall, callUnlock] at hs
    split at hs
    · cases hs
      exact ⟨rfl, rfl, rfl⟩
    · obtain ⟨m, -, rfl⟩ := Option.map_eq_some_iff.mp hs
      exact ⟨rfl, rfl, rfl⟩

omit [DecidableEq T] [DecidableEq Θ] in
/-- The timestamps have been taken. -/
structure Timely (s : State T Θ) : Prop where
  round : ∀ θ ts, (s.work θ).timestamp = some ts → ts ≤ s.now
  moved : ∀ t d ts, s.moved t = some (d, ts) → ts ≤ s.now

/-- The timestamps of the rounds and of the tasks are not in the future. -/
theorem timely (h : (machine c).Reachable s) : Timely s := by
  refine Machine.invariant_of (P := Timely) (fun _ h => h) (fun s hinit => ?_)
    (fun s a s' hr _ ht hs => ?_) h
  · obtain ⟨now, rfl⟩ := hinit
    refine ⟨fun θ ts h => ?_, nofun⟩
    simp only [State.new] at h
    split at h <;> cases h
  have same : s'.now = s.now → s'.work = s.work → s'.moved = s.moved → Timely s' :=
    fun hn hw hm => ⟨fun θ ts h => hn ▸ ht.round θ ts (hw ▸ h),
      fun t d ts h => hn ▸ ht.moved t d ts (hm ▸ h)⟩
  have hs' : step c s a = some s' := hs
  cases a with
  | tick d =>
    cases hs'
    exact ⟨fun θ ts h => (ht.round θ ts h).trans (Nat.le_add_right ..),
      fun t d ts h => (ht.moved t d ts h).trans (Nat.le_add_right ..)⟩
  | op θ o =>
    simp only [step, Option.ite_none_right_eq_some] at hs'
    cases o with
    | post t | receiveSignal t | setDeadline t d =>
      simp only [callOp, Option.ite_none_right_eq_some, Option.some.injEq] at hs'
      obtain ⟨-, -, rfl⟩ := hs'
      exact same rfl rfl rfl
    | postWakeup t | postSignal t =>
      cases hs'.2
      exact same rfl rfl rfl
    | isEmpty =>
      obtain ⟨m, -, rfl⟩ := Option.map_eq_some_iff.mp hs'.2
      exact same rfl rfl rfl
  | call θ spurious =>
    obtain ⟨hn, hw, hm⟩ := call_clock hs'
    exact same hn hw hm
  | ret θ =>
    simp only [step] at hs'
    split at hs' <;> cases hs'
    exact same rfl rfl rfl
  | work θ spurious =>
    simp only [step] at hs'
    split at hs'
    · rename_i hcall
      have hrole := role hr θ
      rw [hcall] at hrole
      have hm := work_moves hcall hrole hs'
      have hc := work_clock hs'
      refine ⟨fun θ' ts h => ?_, fun t d ts h => ?_⟩
      · rw [hc.now]
        by_cases hne : θ' = θ
        · subst hne
          rcases hc.timestamp ts h with h | rfl
          · exact ht.round _ _ h
          · exact le_rfl
        · exact ht.round θ' ts (hm.work_of_ne θ' hne ▸ h)
      · rw [hc.now]
        rcases hc.moved t with he | ⟨d', ts', he, hts⟩
        · exact ht.moved t d ts (he ▸ h)
        · obtain ⟨-, rfl⟩ : d' = d ∧ ts' = ts := by simpa [he] using h
          exact ht.round θ _ hts
    · cases hs'
  | timeout θ =>
    simp only [step] at hs'
    split at hs'
    · rename_i d hwork
      obtain ⟨m, -, rfl⟩ := Option.map_eq_some_iff.mp hs'
      refine ⟨fun θ' ts h => ?_, ht.moved⟩
      by_cases hne : θ' = θ
      · subst hne
        rw [State.workAt_self] at h
        cases h
      · have : (s.work θ').timestamp = some ts := by
          rwa [← show ({ s with mutex := m }.workAt θ .unlock : State T Θ).work θ' = s.work θ' from
            Function.update_of_ne hne _ _]
        exact ht.round θ' ts this
    · cases hs'

/-- **Deadlines.** In every run: a task comes to the ready queue only when its deadline was not
later than a moment which has passed, or when it was woken up since the beginning of its previous
execution, or when it has a signal which was not received; and when it is executed, it is expired
if and only if its deadline was not later than the timestamp of the round of scheduling which
moved it to the ready queue, and so it stays until it is posted again. -/
theorem deadlines (h : (machine c).Reachable s) :
    (∀ a s' t, (machine c).step s a = some s' → s.place t ≠ .ready → s'.place t = .ready →
      (s.task t).deadline ≤ s.now ∨ s.woken t = true ∨ (s.task t).status = .signaled) ∧
    (∀ θ batch t, s.work θ = .executeStart batch t →
      ∃ ts, s.moved t = some ((s.task t).deadline, ts) ∧ ts ≤ s.now ∧
        ((s.task t).isExpired = true ↔ (s.task t).deadline ≤ ts)) ∧
    ∀ t d ts, s.place t = .outside → s.moved t = some (d, ts) →
      ((s.task t).isExpired = true ↔ d ≤ ts) := by
  have hinv := inv h
  have htime := timely h
  refine ⟨fun a s' t hs hne hready => ?_, fun θ batch t hwork => ?_, fun t d ts hout hm => ?_⟩
  · have hok := hinv.lives t
    have hreason : (life s t).place.dispatched = true → (s.task t).deadline ≤ s.now ∨
        s.woken t = true ∨ (s.task t).status = .signaled := fun hd => by
      obtain ⟨ts, hts, -⟩ := hok.moved (.inl hd)
      exact (hok.reason hd _ ts hts).imp_left fun hle => hle.trans (htime.moved t _ ts hts)
    obtain he | ⟨k, hstep⟩ := step_life h hs t
    · exact absurd ((congrArg Life.place he).symm.trans hready) hne
    · have hplace : (life s' t).place = .ready := hready
      have hplace' : (life s t).place ≠ .ready := hne
      generalize life s' t = l at hstep hplace
      cases hstep with
      | queue θ hp => exact hreason (by rw [hp]; rfl)
      | wakeup _ | signal _ | receive _ | setDeadline _ _ | insert _ _ _ | removeTop _ =>
        exact absurd hplace hplace'
      | _ => cases hplace
  · have hp : s.place t = .starting θ := (hinv.placed.mem_iff (.starting θ) trivial t).mp (by
      simp [State.contents, hwork, Work.starting])
    obtain ⟨ts, hts, he⟩ := (hinv.lives t).moved (.inr ⟨θ, hp⟩)
    have he' : (s.task t).isExpired = decide ((s.task t).deadline ≤ ts) := he
    exact ⟨ts, hts, htime.moved t _ ts hts, by rw [he', decide_eq_true_iff]⟩
  · have he : (s.task t).isExpired = decide (d ≤ ts) := (hinv.lives t).expired hout d ts hm
    rw [he, decide_eq_true_iff]

/-- A task is posted with a deadline, for which the scheduler falls asleep, and which passes. -/
def deadlineRun : List (Action Unit ℕ) :=
  Action.op 0 (.setDeadline () 5) :: .op 0 (.post ()) :: List.replicate 4 (.call 0 false) ++
    List.replicate 17 (Action.work 1 false) ++
    Action.tick 5 :: .timeout 1 :: List.replicate 37 (.work 1 false)

/-- A task whose deadline has passed is about to be executed. -/
theorem deadlines_pair :
    ∃ s batch, (machine pair).run (.new pair 0) deadlineRun = some s ∧
      s.work 1 = .executeStart batch () ∧ (s.task ()).deadline = 5 ∧
      ∃ ts, s.moved () = some (5, ts) ∧ ts ≤ s.now ∧
        ((s.task ()).isExpired = true ↔ 5 ≤ ts) := by
  have hrun : ((machine pair).run (.new pair 0) deadlineRun).map
      (fun s => ((s.work 1).starting, (s.task ()).deadline)) = some ([()], 5) := by
    decide +kernel
  obtain ⟨s, hs, hrest⟩ := Option.map_eq_some_iff.mp hrun
  obtain ⟨hwork, hdeadline⟩ := Prod.mk.inj hrest
  have hr : (machine pair).Reachable s := .of_run (.init ⟨0, rfl⟩) hs
  cases hwork' : s.work 1 with
  | executeStart batch t =>
    have hmoved := (deadlines hr).2.1 1 batch () hwork'
    rw [hdeadline] at hmoved
    exact ⟨s, batch, hs, hwork', hdeadline, hmoved⟩
  | _ =>
    rw [hwork'] at hwork
    cases hwork

end Deadlines

end TaskScheduler

end Serverbox
