import Serverbox.Sch.TaskScheduler

/-!
# The life of a task

What happens to one task in the scheduler, whatever the threads and the other tasks do: it is
posted, moved on, put to sleep, woken up, signaled and executed. Only the owner of the scheduler
role makes the steps of a round of scheduling.

## Main definitions

* `TaskScheduler.Life`: the data of one task.
* `TaskScheduler.Life.Step`: what can happen to it; the first argument tells whether this is a
  step of the scheduler.
* `TaskScheduler.Life.Ok`: what holds at every moment of its life.

## Main results

* `TaskScheduler.Life.Step.ok`: the invariant of one task.
* `TaskScheduler.Life.Step.signaled`: a signal is lost by its receipt only.
* `TaskScheduler.Life.Removed.step`, `TaskScheduler.Life.Inserting.step`: what the scheduler knows
  of a task which it moves out of the heap or into it.
-/

namespace Serverbox

namespace TaskScheduler

variable {T Θ : Type*}

/-- The data of one task: its place, its fields, whether it is in the waiting heap, and its
history. -/
structure Life (Θ : Type*) where
  place : Place Θ
  status : Status
  inScheduler : Bool
  deadline : ℕ
  isExpired : Bool
  inHeap : Bool
  woken : Bool
  moved : Option (ℕ × ℕ)

namespace Life

/-- What can happen to a task. -/
inductive Step : Bool → Life Θ → Life Θ → Prop
  | post {l : Life Θ} (θ : Θ) (hp : l.place = .outside) :
    Step false l { l with place := .pushing θ, inScheduler := true }
  | push {l : Life Θ} (θ : Θ) (hp : l.place = .pushing θ) : Step false l { l with place := .front }
  | wakeup {l : Life Θ} (hs : l.status = .pending) :
    Step false l { l with status := .ready, woken := true }
  | wakeupAsleep {l : Life Θ} (θ : Θ) (hs : l.status = .waiting) :
    Step false l { l with status := .ready, woken := true, place := .pushing θ }
  | signal {l : Life Θ} (hs : l.status ≠ .waiting) : Step false l { l with status := .signaled }
  | signalAsleep {l : Life Θ} (θ : Θ) (hs : l.status = .waiting) :
    Step false l { l with status := .signaled, place := .pushing θ }
  | receive {l : Life Θ} (hp : l.place = .outside) :
    Step false l { l with status := if l.status = .signaled then .pending else l.status }
  | setDeadline {l : Life Θ} (d : ℕ) (hp : l.place = .outside) :
    Step false l { l with deadline := d }
  | pop {l : Life Θ} (θ : Θ) (hp : l.place = .ready) : Step false l { l with place := .popped θ }
  | execute {l : Life Θ} (θ : Θ) (hp : l.place = .popped θ) :
    Step false l { l with place := .released θ, inScheduler := false }
  | executeCas {l : Life Θ} (θ : Θ) (hp : l.place = .released θ) :
    Step false l { l with
      place := .starting θ
      status := if l.status = .ready then .pending else l.status
      woken := false }
  | executeStart {l : Life Θ} (θ : Θ) (hp : l.place = .starting θ) :
    Step false l { l with place := .outside, deadline := 0 }
  | drain {l : Life Θ} (hp : l.place = .front) : Step true l { l with place := .pending }
  | take {l : Life Θ} (θ : Θ) (ts : ℕ) (hp : l.place = .pending) :
    Step true l { l with place := .taken θ, isExpired := !decide (ts < l.deadline) }
  | sleep {l : Life Θ} (θ : Θ) (hp : l.place = .taken θ) (hs : l.status = .pending) :
    Step true l { l with place := .asleep, status := .waiting }
  | insert {l : Life Θ} (hp : l.place = .asleep ∨ (∃ θ, l.place = .pushing θ) ∨ l.place = .front)
    (hs : l.status ≠ .pending) (hd : l.deadline ≠ infinite) : Step true l { l with inHeap := true }
  | choose {l : Life Θ} (θ : Θ) (ts : ℕ) (hp : l.place = .taken θ)
    (he : l.isExpired = decide (l.deadline ≤ ts)) (hs : l.status = .pending → l.deadline ≤ ts) :
    Step true l { l with
      place := .chosen θ
      status := if l.status = .pending then .ready else l.status
      inHeap := false
      moved := some (l.deadline, ts) }
  | removeTop {l : Life Θ} (hp : l.inHeap = true) :
    Step true l { l with inHeap := false, isExpired := true }
  | expire {l : Life Θ} (θ : Θ) (ts : ℕ) (hs : l.status = .waiting) (he : l.isExpired = true)
    (hh : l.inHeap = false) (hd : l.deadline ≤ ts) :
    Step true l { l with
      place := .chosen θ
      status := .ready
      moved := some (l.deadline, ts) }
  | queue {l : Life Θ} (θ : Θ) (hp : l.place = .chosen θ) : Step true l { l with place := .ready }

end Life

/-- The places from the decision to execute a task to the exchange of its status. -/
def Place.dispatched : Place Θ → Bool
  | .chosen _ | .ready | .popped _ | .released _ => true
  | _ => false

/-- The places in which a task can be in the heap at the same time. -/
def Place.mayWait : Place Θ → Bool
  | .asleep | .pushing _ | .front | .pending | .taken _ => true
  | _ => false

/-- The places in which the task belongs to the scheduler. -/
def Place.inside : Place Θ → Bool
  | .outside | .released _ | .starting _ => false
  | _ => true

namespace Life

/-- What holds at every moment. A sleeping task has the status `WAITING`, and no other one has;
a task in the heap has been put to sleep and is not back in the ready queue; a dispatched task is
ready or signaled; only a wakeup or the dispatch makes a task ready; a dispatched task was moved
for a reason, and it is expired when its deadline had come. -/
structure Ok (l : Life Θ) : Prop where
  asleep_iff : l.place = .asleep ↔ l.status = .waiting
  inScheduler_eq : l.inScheduler = l.place.inside
  heap : l.inHeap = true → l.place.mayWait = true ∧ l.status ≠ .pending ∧ l.deadline ≠ infinite
  dispatched : l.place.dispatched = true → l.status = .ready ∨ l.status = .signaled
  woken : l.status = .ready → l.place.dispatched = true ∨ l.woken = true
  moved : l.place.dispatched = true ∨ (∃ θ, l.place = .starting θ) →
    ∃ ts, l.moved = some (l.deadline, ts) ∧ l.isExpired = decide (l.deadline ≤ ts)
  reason : l.place.dispatched = true → ∀ d ts, l.moved = some (d, ts) →
    d ≤ ts ∨ l.woken = true ∨ l.status = .signaled
  expired : l.place = .outside → ∀ d ts, l.moved = some (d, ts) → l.isExpired = decide (d ≤ ts)

theorem Ok.new : Ok (⟨.outside, .pending, false, 0, false, false, false, none⟩ : Life Θ) := by
  constructor <;> simp [Place.inside, Place.dispatched]

variable {l l' : Life Θ} {k : Bool}

theorem Step.asleep_iff (h : Step k l l') (h₁ : l.place = .asleep ↔ l.status = .waiting) :
    l'.place = .asleep ↔ l'.status = .waiting := by
  cases h with
  | choose θ ts hp =>
    have hw : l.status ≠ .waiting := fun hw => by simp [h₁.mpr hw] at hp
    simp only [reduceCtorEq, false_iff]
    split <;> simp_all
  | receive hp | executeCas θ hp =>
    have hw : l.status ≠ .waiting := fun hw => by simp [h₁.mpr hw] at hp
    simp only [hp, reduceCtorEq, false_iff]
    split <;> simp_all
  | _ => simp_all

theorem Step.inScheduler_eq (h : Step k l l') (ho : Ok l) : l'.inScheduler = l'.place.inside := by
  have h₂ := ho.inScheduler_eq
  cases h with
  | wakeupAsleep θ hs | signalAsleep θ hs | expire θ ts hs =>
    rw [ho.asleep_iff.mpr hs] at h₂
    simpa [Place.inside] using h₂
  | wakeup _ | signal _ | insert _ _ _ | removeTop _ | setDeadline _ _ | receive _ => exact h₂
  | _ => simp_all [Place.inside]

theorem Step.heap (h : Step k l l') (ho : Ok l) (hh : l'.inHeap = true) :
    l'.place.mayWait = true ∧ l'.status ≠ .pending ∧ l'.deadline ≠ infinite := by
  have h₃ := ho.heap
  cases h with
  | wakeup _ | signal _ | wakeupAsleep _ _ | signalAsleep _ _ => simp_all [Place.mayWait]
  | insert hp hs hd =>
    refine ⟨?_, hs, hd⟩
    obtain hp | ⟨θ, hp⟩ | hp := hp <;> rw [hp] <;> rfl
  | _ => simp_all [Place.mayWait]

theorem Step.dispatched (h : Step k l l') (ho : Ok l) (hd : l'.place.dispatched = true) :
    l'.status = .ready ∨ l'.status = .signaled := by
  have h₄ := ho.dispatched
  cases h with
  | choose θ ts hp =>
    have hw : l.status ≠ .waiting := fun hw => by simp [ho.asleep_iff.mpr hw] at hp
    cases hl : l.status <;> simp_all
  | wakeup _ | signal _ | insert _ _ _ | removeTop _ => simp_all
  | _ => simp_all [Place.dispatched]

theorem Step.woken (h : Step k l l') (ho : Ok l) (hs : l'.status = .ready) :
    l'.place.dispatched = true ∨ l'.woken = true := by
  have h₅ := ho.woken
  cases h with
  | executeCas θ hp =>
    simp only at hs
    split at hs <;> simp_all
  | receive hp =>
    simp only at hs
    split at hs <;> simp_all
  | _ => simp_all [Place.dispatched]

/-- A task which may be in the heap has not been dispatched. -/
theorem Ok.not_dispatched (ho : Ok l) (hh : l.inHeap = true) :
    l.place.dispatched = false ∧ (∀ θ, l.place ≠ .starting θ) ∧ l.place ≠ .outside := by
  have hwait := (ho.heap hh).1
  refine ⟨?_, fun θ hp => ?_, fun hp => ?_⟩
  · cases hl : l.place <;> simp_all [Place.mayWait, Place.dispatched]
  · simp [hp, Place.mayWait] at hwait
  · simp [hp, Place.mayWait] at hwait

theorem Step.moved (h : Step k l l') (ho : Ok l)
    (hd : l'.place.dispatched = true ∨ ∃ θ, l'.place = .starting θ) :
    ∃ ts, l'.moved = some (l'.deadline, ts) ∧ l'.isExpired = decide (l'.deadline ≤ ts) := by
  have h₆ := ho.moved
  cases h with
  | removeTop hh =>
    obtain ⟨hnd, hns, -⟩ := ho.not_dispatched hh
    rcases hd with hd | ⟨θ, hθ⟩
    · simp [hnd] at hd
    · exact absurd hθ (hns θ)
  | choose θ ts hp he => exact ⟨ts, rfl, he⟩
  | expire θ ts hs he hh hdl => exact ⟨ts, rfl, by simp [he, hdl]⟩
  | wakeup _ | signal _ | insert _ _ _ => exact h₆ hd
  | pop θ hp | execute θ hp | executeCas θ hp | queue θ hp =>
    exact h₆ (.inl (by rw [hp]; rfl))
  | _ => simp_all [Place.dispatched]

theorem Step.reason (h : Step k l l') (ho : Ok l) (hd : l'.place.dispatched = true) {d ts : ℕ}
    (hm : l'.moved = some (d, ts)) : d ≤ ts ∨ l'.woken = true ∨ l'.status = .signaled := by
  have h₇ := ho.reason
  cases h with
  | choose θ t hp he hs =>
    obtain ⟨rfl, rfl⟩ : l.deadline = d ∧ t = ts := by simpa using hm
    by_cases hpend : l.status = .pending
    · exact .inl (hs hpend)
    have hw : l.status ≠ .waiting := fun hw => by simp [ho.asleep_iff.mpr hw] at hp
    simp only [if_neg hpend]
    cases hl : l.status with
    | pending => exact absurd hl hpend
    | waiting => exact absurd hl hw
    | ready => exact .inr (.inl ((ho.woken hl).resolve_left (by simp [hp, Place.dispatched])))
    | signaled => exact .inr (.inr rfl)
  | expire θ t hs he hh hdl =>
    obtain ⟨rfl, rfl⟩ : l.deadline = d ∧ t = ts := by simpa using hm
    exact .inl hdl
  | wakeup _ | wakeupAsleep _ _ => exact .inr (.inl rfl)
  | signal _ | signalAsleep _ _ => exact .inr (.inr rfl)
  | pop θ hp | execute θ hp | queue θ hp => exact h₇ (by rw [hp]; rfl) d ts hm
  | insert _ _ _ | removeTop _ => exact h₇ hd d ts hm
  | receive hp | setDeadline d hp => simp [hp, Place.dispatched] at hd
  | _ => simp [Place.dispatched] at hd

theorem Step.expired (h : Step k l l') (ho : Ok l) (hout : l'.place = .outside) {d ts : ℕ}
    (hm : l'.moved = some (d, ts)) : l'.isExpired = decide (d ≤ ts) := by
  have h₈ := ho.expired
  cases h with
  | executeStart θ hp =>
    obtain ⟨ts', hts, he⟩ := ho.moved (.inr ⟨θ, hp⟩)
    obtain ⟨rfl, rfl⟩ : l.deadline = d ∧ ts' = ts := by simpa [hts] using hm
    exact he
  | removeTop hh => exact absurd hout (ho.not_dispatched hh).2.2
  | wakeup _ | signal _ | insert _ _ _ | receive _ | setDeadline _ _ => exact h₈ hout d ts hm
  | _ => simp at hout

/-- Whatever happens to a task keeps the invariant. -/
theorem Step.ok (h : Step k l l') (ho : Ok l) : Ok l' where
  asleep_iff := h.asleep_iff ho.asleep_iff
  inScheduler_eq := h.inScheduler_eq ho
  heap := h.heap ho
  dispatched := h.dispatched ho
  woken := h.woken ho
  moved := h.moved ho
  reason hd _ _ := h.reason ho hd
  expired hout _ _ := h.expired ho hout

/-- A signal stays until it is received by the owner of the task. -/
theorem Step.signaled (h : Step k l l') (hs : l.status = .signaled) :
    l'.status = .signaled ∨
      l.place = .outside ∧ l' = { l with status := .pending } := by
  cases h with
  | receive hp => exact .inr ⟨hp, by rw [if_pos hs]⟩
  | wakeup hp | wakeupAsleep θ hp | signalAsleep θ hp | sleep θ _ hp | expire θ ts hp =>
    simp [hs] at hp
  | executeCas θ hp | choose θ ts hp => exact .inl (by simp [hs])
  | _ => exact .inl (by simp_all)

/-- The deadline of a task which is in the hands of the scheduler or in the heap does not
change. -/
theorem Step.deadline_eq (h : Step k l l') (ho : l.place ≠ .outside)
    (hst : ∀ θ, l.place ≠ .starting θ) : l'.deadline = l.deadline := by
  cases h with
  | setDeadline d hp => exact absurd hp ho
  | executeStart θ hp => exact absurd hp (hst θ)
  | _ => rfl

theorem Ok.mayWait (h : Ok l) (hh : l.inHeap = true) :
    l.place ≠ .outside ∧ ∀ θ, l.place ≠ .starting θ := by
  have := (h.heap hh).1
  refine ⟨fun hp => ?_, fun θ hp => ?_⟩ <;> simp [hp, Place.mayWait] at this

/-- The scheduler has removed the task from the heap and has not looked at its status yet. -/
structure Removed (ts : ℕ) (l : Life Θ) : Prop where
  place : l.place = .asleep ∨ (∃ θ, l.place = .pushing θ) ∨ l.place = .front ∨ l.place = .pending
  status : l.status ≠ .pending
  inHeap : l.inHeap = false
  isExpired : l.isExpired = true
  deadline : l.deadline ≤ ts

/-- The scheduler has put the task to sleep and is about to insert it into the heap. -/
structure Inserting (l : Life Θ) : Prop where
  place : l.place = .asleep ∨ (∃ θ, l.place = .pushing θ) ∨ l.place = .front
  status : l.status ≠ .pending
  inHeap : l.inHeap = false
  deadline : l.deadline ≠ infinite

/-- The scheduler `θ` has taken the task from the pending list and compared its deadline. -/
structure Taken (θ : Θ) (ts : ℕ) (sleep : Bool) (l : Life Θ) : Prop where
  place : l.place = .taken θ
  isExpired : l.isExpired = !sleep
  deadline : sleep = decide (ts < l.deadline)

/-- Only a step of the scheduler changes what it knows of a removed task. -/
theorem Removed.step {ts : ℕ} (h : Removed ts l) (hs : Step false l l') : Removed ts l' := by
  obtain ⟨hp, hst, hh, he, hd⟩ := h
  cases hs with
  | wakeup _ | signal _ => exact ⟨hp, by simp, hh, he, hd⟩
  | wakeupAsleep θ _ | signalAsleep θ _ => exact ⟨.inr (.inl ⟨θ, rfl⟩), by simp, hh, he, hd⟩
  | push θ _ => exact ⟨.inr (.inr (.inl rfl)), hst, hh, he, hd⟩
  | _ => simp_all

/-- Only a step of the scheduler changes what it knows of a task to be inserted. -/
theorem Inserting.step (h : Inserting l) (hs : Step false l l') : Inserting l' := by
  obtain ⟨hp, hst, hh, hd⟩ := h
  cases hs with
  | wakeup _ | signal _ => exact ⟨hp, by simp, hh, hd⟩
  | wakeupAsleep θ _ | signalAsleep θ _ => exact ⟨.inr (.inl ⟨θ, rfl⟩), by simp, hh, hd⟩
  | push θ _ => exact ⟨.inr (.inr rfl), hst, hh, hd⟩
  | _ => simp_all

/-- Only a step of the scheduler changes what it knows of a taken task. -/
theorem Taken.step {θ : Θ} {ts : ℕ} {sleep : Bool} (h : Taken θ ts sleep l) (ho : Ok l)
    (hs : Step false l l') : Taken θ ts sleep l' := by
  obtain ⟨hp, he, hd⟩ := h
  have hw : l.status ≠ .waiting := fun hw => by simp [ho.asleep_iff.mpr hw] at hp
  cases hs with
  | wakeup _ | signal _ => exact ⟨hp, he, hd⟩
  | wakeupAsleep _ h | signalAsleep _ h => exact absurd h hw
  | _ => simp_all

end Life

end TaskScheduler

end Serverbox
