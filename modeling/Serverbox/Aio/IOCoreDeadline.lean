import Mathlib.Algebra.Group.Nat.Defs
import Serverbox.Aio.IOCoreCount

/-!
# The deadlines of the tasks

A task keeps one deadline, which is infinite at the start of each execution. `SetDeadline` makes it
smaller, and `Reschedule` sets it to 0. The scheduler compares it with the time of its round in
three places: at a kernel event, for a pending task, and for a task of the waiting heap. There it
also writes `myIsExpired`, which is read in the next execution.

The core is that of `Serverbox.IOCoreCount`, which has the statuses and the queues. Here each task
has its deadline and its pending events too, and the scheduler reads them where it did choose there.
The history of a task is what was asked for since the start of its previous execution, and what the
scheduler found when it has put the task into the list of ready tasks. `SetDeadline` and
`Reschedule` are methods for the worker which executes the task. The clock does not reach
`MG_TIME_INFINITE`.

The doc of `IsExpired` says that it is false for a task which had no deadline. After `Reschedule` it
is true.

Source: `src/mg/aio/IOTask.h`, `src/mg/aio/IOTask.cpp`, `src/mg/aio/IOCore.cpp`,
`src/mg/aio/IOCore_epoll.cpp`.

## Main definitions

* `IOCoreDeadline.State`, `IOCoreDeadline.machine`: the core, the deadlines and the executions.
* `IOCoreDeadline.Timer.passed`: a deadline was set and has passed.

## Main results

* `IOCoreDeadline.expired_iff`: when `IsExpired` means that a deadline has passed, and why a task is
  executed.
-/

namespace Serverbox

namespace IOCoreDeadline

open IOCoreCount (Status)

variable {T : Type*}

/-- `MG_TIME_INFINITE`. -/
def timeInfinite : ℕ := 2 ^ 64 - 1

/-- The fields of `IOTask` for the scheduler, and what happened since the start of the previous
execution: the least deadline which was set, whether the task was rescheduled, woken up, got an
event of the kernel which the scheduler did not take yet, or one which it took, and the time of the
round in which the task was put into the ready list. -/
structure Timer where
  deadline : ℕ
  isExpired : Bool
  pendingEvents : BitVec 32
  asked : Option ℕ
  rescheduled : Bool
  woken : Bool
  noted : Bool
  got : Bool
  round : ℕ
  deriving DecidableEq

namespace Timer

/-- The constructor. -/
def new : Timer := ⟨timeInfinite, false, 0, none, false, false, false, false, 0⟩

/-- `SetDeadline`. -/
def setDeadline (x : Timer) (deadline : ℕ) : Timer :=
  { x with
    deadline := if deadline < x.deadline then deadline else x.deadline
    asked := some (match x.asked with
      | none => deadline
      | some d => min d deadline) }

/-- `Reschedule`. -/
def reschedule (x : Timer) : Timer := { x with deadline := 0, rescheduled := true }

/-- An event of the kernel is added. -/
def note (x : Timer) (events : BitVec 32) : Timer :=
  { x with pendingEvents := x.pendingEvents ||| events, noted := true }

/-- The scheduler takes the events and checks the deadline. -/
def dispatch (x : Timer) (timestamp : ℕ) : Timer :=
  { x with
    pendingEvents := 0
    isExpired := decide (timestamp ≥ x.deadline)
    got := x.noted
    noted := false
    round := timestamp }

/-- The scheduler takes the task from the waiting heap. -/
def expire (x : Timer) (timestamp : ℕ) : Timer :=
  { x with isExpired := true, got := false, round := timestamp }

/-- The start of an execution. -/
def execute (x : Timer) : Timer :=
  { x with deadline := timeInfinite, asked := none, rescheduled := false, woken := false }

/-- A deadline was set, and it has passed when the scheduler made the task ready. -/
def passed (x : Timer) : Prop := ∃ d, x.asked = some d ∧ d ≤ x.round

end Timer

/-- An execution: its task, whether it is the final one, whether the task was closed, and the timer
at its start. -/
structure Execution (T : Type*) where
  task : T
  isFinal : Bool
  closed : Bool
  timer : Timer

/-- The core, the timers of its tasks, the time of the round, and the started executions. -/
structure State (T : Type*) where
  core : IOCoreCount.State T
  timer : T → Timer
  timestamp : ℕ
  executions : List (Execution T)

/-- A core without tasks. -/
def State.new : State T := ⟨.new, fun _ => .new, 0, []⟩

/-- What the threads can do: the steps of the core which do not depend on deadlines and events;
`PostWakeup`, `SetDeadline` and `Reschedule`; the scheduler starts a round, handles a kernel event,
the first pending task, or the top of the waiting heap; a worker starts an execution. -/
inductive Action (T : Type*)
  | plain (a : IOCoreCount.Action T)
  | wakeup (t : T)
  | setDeadline (t : T) (deadline : ℕ)
  | reschedule (t : T)
  | startRound (timestamp : ℕ)
  | kernelDo (t : T) (events : BitVec 32)
  | pendingDo
  | expiredDo (t : T)
  | execute
  deriving DecidableEq

/-- The steps of the core which are not among the others. -/
def isPlain : IOCoreCount.Action T → Bool
  | .attach _ | .postStart _ | .post _ | .close _ | .rePost _ | .pushReady | .ended _ | .closed _ =>
    true
  | _ => false

variable [DecidableEq T]

/-- A task with a new timer. -/
def State.set (s : State T) (t : T) (x : Timer) : State T :=
  { s with timer := Function.update s.timer t x }

/-- The task is executed, and it was not posted again. -/
def inWorker (s : State T) (t : T) : Bool :=
  decide (t ∈ s.core.executed ∨ t ∈ s.core.final ∧ t ∉ s.core.attached ++ s.core.lives)

/-- The scheduler has to execute the task for its events or its deadline. -/
def hasEvents (s : State T) (t : T) : Bool :=
  (s.timer t).pendingEvents != 0 || decide (s.timestamp ≥ (s.timer t).deadline)

/-- One step. -/
def step (s : State T) : Action T → Option (State T)
  | .plain a =>
    if isPlain a then (IOCoreCount.step s.core a).map fun c => { s with core := c } else none
  | .wakeup t =>
    let x := s.timer t
    (IOCoreCount.step s.core (.wakeup t)).map fun c =>
      { s.set t { x with woken := x.woken || (s.core.task t).status != .closed } with core := c }
  | .setDeadline t deadline =>
    if inWorker s t ∧ deadline ≤ timeInfinite then some (s.set t ((s.timer t).setDeadline deadline))
    else none
  | .reschedule t => if inWorker s t then some (s.set t (s.timer t).reschedule) else none
  | .startRound timestamp =>
    if timestamp < timeInfinite then
      (IOCoreCount.step s.core .takeFront).map fun c => { s with core := c, timestamp }
    else none
  | .kernelDo t events =>
    let x := (s.timer t).note events
    if (s.core.task t).status = .waiting then
      (IOCoreCount.step s.core (.kernelDo t)).map fun c =>
        { s.set t (x.dispatch s.timestamp) with core := c }
    else some (s.set t x)
  | .pendingDo =>
    match s.core.pendingQueue with
    | [] => none
    | t :: _ =>
      let x := s.timer t
      let events := hasEvents s t
      (IOCoreCount.step s.core (.pendingDo events (decide (x.deadline ≠ timeInfinite)))).map
        fun c =>
          if (s.core.task t).status = .pending ∧ events = false then { s with core := c }
          else { s.set t (x.dispatch s.timestamp) with core := c }
  | .expiredDo t =>
    let x := s.timer t
    if x.deadline ≤ s.timestamp ∧ ∀ u ∈ s.core.waitingQueue, x.deadline ≤ (s.timer u).deadline then
      (IOCoreCount.step s.core (.expiredDo t)).map fun c =>
        if (s.core.task t).status = .waiting then
          { s.set t (x.expire s.timestamp) with core := c }
        else { s with core := c }
    else none
  | .execute =>
    match s.core.readyQueue with
    | [] => none
    | t :: _ =>
      let x := s.core.task t
      (IOCoreCount.step s.core .execute).map fun c =>
        { s.set t (s.timer t).execute with
          core := c
          executions := s.executions ++ [⟨t, x.isClosed, x.closeGuard, s.timer t⟩] }

/-- A core from its construction on. -/
def machine : Machine (State T) (Action T) where
  init s := s = .new
  step := step

/-! ### The invariant -/

/-- The deadline of a timer is the one which was asked for. -/
def Timer.Kept (x : Timer) : Prop :=
  x.deadline = if x.rescheduled = true then 0 else x.asked.getD timeInfinite

/-- What the scheduler has found when it made a task ready. Whether the task is closed is not what
the scheduler saw: `closed` is the guard of the close as it is now, and at the start of an execution
as it is then. -/
structure Timer.Dispatched (x : Timer) (closed : Bool) : Prop where
  isExpired : x.isExpired = decide (x.deadline ≤ x.round)
  round : x.round < timeInfinite
  cause : x.woken = true ∨ closed = true ∨ x.got = true ∨ x.deadline ≤ x.round

/-- The tasks which were made ready and are not executed yet. -/
def readied (c : IOCoreCount.State T) : List T := c.ready ++ c.readyQueue

/-- The guard of a task which is closing is set. -/
def Guarded (x : IOCoreCount.IOTask) : Prop :=
  x.status = .closing ∨ x.status = .closed → x.closeGuard = true

/-- What holds of one task. -/
structure Sound (s : State T) (t : T) : Prop where
  kept : (s.timer t).Kept
  ready : t ∈ readied s.core → (s.timer t).Dispatched (s.core.task t).closeGuard
  awake : (s.core.task t).status = .ready → t ∈ readied s.core ∨ (s.timer t).woken = true
  guarded : Guarded (s.core.task t)
  noted : (s.timer t).pendingEvents ≠ 0 → (s.timer t).noted = true

/-- The invariant. -/
structure Inv (s : State T) : Prop where
  core : IOCoreCount.Inv s.core
  timestamp : s.timestamp < timeInfinite
  task : ∀ t, Sound s t
  executions : ∀ e ∈ s.executions, e.timer.Kept ∧ e.timer.Dispatched e.closed

variable {s s' : State T} {c c' : IOCoreCount.State T} {t u : T} {x : Timer}

/-- A task which is somewhere else is not ready. -/
theorem not_readied (h : IOCoreCount.Inv c)
    (ht : t ∈ c.pendingQueue ∨ t ∈ c.asleep ∨ t ∈ c.executed) :
    t ∉ readied c := fun hr => by
  have hone := h.count_le_one t
  rw [readied, List.mem_append] at hr
  simp only [← List.count_pos_iff] at hr ht
  omega

omit [DecidableEq T] in
/-- A ready task is alive. -/
theorem mem_lives_of_readied (ht : t ∈ readied c) : t ∈ c.lives := by
  rw [IOCoreCount.Inv.mem_lives]
  have := List.mem_append.mp ht
  tauto

omit [DecidableEq T] in
/-- A step which leaves the timers alone, and makes no task ready. -/
theorem Sound.congr (h : Sound s t) (htimer : s'.timer t = s.timer t)
    (hready : t ∈ readied s'.core ↔ t ∈ readied s.core)
    (hstatus : (s'.core.task t).status = .ready → (s.core.task t).status = .ready)
    (hguard : t ∈ readied s.core → (s.core.task t).closeGuard = true →
      (s'.core.task t).closeGuard = true)
    (hguarded : Guarded (s'.core.task t)) : Sound s' t := by
  refine ⟨htimer ▸ h.kept, fun ht => ?_, fun hs => ?_, hguarded, htimer ▸ h.noted⟩
  · have ht := hready.mp ht
    obtain ⟨hexpired, hround, hcause⟩ := h.ready ht
    rw [htimer]
    refine ⟨hexpired, hround, ?_⟩
    rcases hcause with hw | hc | hrest
    · exact .inl hw
    · exact .inr (.inl (hguard ht hc))
    · exact .inr (.inr hrest)
  · rw [htimer, hready]
    exact h.awake (hstatus hs)

/-- The plain steps of the core. -/
theorem plain_cases (h : IOCoreCount.Inv c) {a : IOCoreCount.Action T} (ha : isPlain a = true)
    (hs : IOCoreCount.step c a = some c') (t : T) (hguarded : Guarded (c.task t)) :
    (t ∈ readied c' ↔ t ∈ readied c) ∧
      ((c'.task t).status = .ready → (c.task t).status = .ready) ∧
      (t ∈ readied c → (c.task t).closeGuard = true → (c'.task t).closeGuard = true) ∧
      Guarded (c'.task t) := by
  cases a with
  | attach u =>
    rw [IOCoreCount.step, IOCoreCount.attach] at hs
    dsimp only at hs
    split at hs
    · cases hs
    · rename_i hsub
      have hdead : u ∉ readied c := fun hr => by
        rw [h.sub] at hsub
        exact hsub (List.mem_append_right _ (mem_lives_of_readied hr))
      split at hs
      · obtain ⟨-, hs⟩ := Option.ite_none_right_eq_some.mp hs
        obtain rfl := Option.some.inj hs
        by_cases htu : t = u
        · subst htu
          refine ⟨Iff.rfl, ?_, fun hr => absurd hr hdead, ?_⟩
          · show (Function.update c.task t _ t).status = _ → _
            rw [Function.update_self]
            rintro ⟨⟩
          · show Guarded (Function.update c.task t _ t)
            rw [Function.update_self]
            rintro (hc | hc) <;> cases hc
        · have htask := IOCoreCount.Inv.set_ne c ⟨.pending, true, false, false⟩ htu
          exact ⟨Iff.rfl, fun hr => htask ▸ hr, fun _ hg => htask.symm ▸ hg, htask.symm ▸ hguarded⟩
      · split at hs
        · cases hs
        · obtain rfl := Option.some.inj hs
          by_cases htu : t = u
          · subst htu
            have htask := IOCoreCount.Inv.set_self c t { c.task t with sub := true }
            exact ⟨Iff.rfl, fun hr => by rwa [show _ = _ from htask] at hr,
              fun hr => absurd hr hdead, htask.symm ▸ hguarded⟩
          · have htask := IOCoreCount.Inv.set_ne c { c.task u with sub := true } htu
            exact ⟨Iff.rfl, fun hr => htask ▸ hr, fun _ hg => htask.symm ▸ hg,
              htask.symm ▸ hguarded⟩
  | close u =>
    obtain rfl := Option.some.inj hs
    unfold IOCoreCount.close
    dsimp only
    split
    · exact ⟨Iff.rfl, id, fun _ => id, hguarded⟩
    · have htask : ∀ d : IOCoreCount.State T, d.task = (c.set u { c.task u with
          status := .closing, closeGuard := true }).task →
          ((d.task t).status = .ready → (c.task t).status = .ready) ∧
            ((c.task t).closeGuard = true → (d.task t).closeGuard = true) ∧ Guarded (d.task t) := by
        intro d hd
        rw [hd]
        by_cases htu : t = u
        · subst htu
          rw [IOCoreCount.Inv.set_self]
          exact ⟨by rintro ⟨⟩, fun _ => rfl, fun _ => rfl⟩
        · rw [IOCoreCount.Inv.set_ne _ _ htu]
          exact ⟨id, id, hguarded⟩
      split
      · obtain ⟨h₁, h₂, h₃⟩ := htask { c.set u { c.task u with
          status := .closing, closeGuard := true } with
          asleep := c.asleep.erase u, woken := u :: c.woken } rfl
        exact ⟨Iff.rfl, h₁, fun _ => h₂, h₃⟩
      · obtain ⟨h₁, h₂, h₃⟩ := htask _ rfl
        exact ⟨Iff.rfl, h₁, fun _ => h₂, h₃⟩
  | postStart u | post u | rePost u | ended u | closed u =>
    obtain ⟨-, hs⟩ := Option.ite_none_right_eq_some.mp hs
    obtain rfl := Option.some.inj hs
    exact ⟨Iff.rfl, id, fun _ => id, hguarded⟩
  | pushReady =>
    obtain rfl := Option.some.inj hs
    refine ⟨?_, id, fun _ => id, hguarded⟩
    simp only [readied, List.nil_append, List.mem_append]
    exact or_comm
  | wakeup | takeFront | kernelDo | pendingDo | expiredDo | execute => cases ha

/-! ### Timers -/

namespace Timer

theorem Kept.setDeadline (h : x.Kept) {deadline : ℕ} (hd : deadline ≤ timeInfinite) :
    (x.setDeadline deadline).Kept := by
  unfold Kept at h ⊢
  unfold Timer.setDeadline
  dsimp only
  rw [h]
  by_cases hr : x.rescheduled = true
  · rw [if_pos hr, if_pos hr, if_neg (Nat.not_lt_zero _)]
  · rw [if_neg hr, if_neg hr]
    cases x.asked with
    | none =>
      dsimp only [Option.getD_none, Option.getD_some]
      split <;> omega
    | some d =>
      dsimp only [Option.getD_some]
      split <;> omega

theorem Kept.reschedule (_ : x.Kept) : x.reschedule.Kept := rfl

theorem Kept.dispatch (h : x.Kept) (timestamp : ℕ) : (x.dispatch timestamp).Kept := h

theorem Kept.execute (_ : x.Kept) : x.execute.Kept := rfl

/-- A task is made ready for a reason. -/
theorem Dispatched.of_dispatch {timestamp : ℕ} {closed : Bool} (ht : timestamp < timeInfinite)
    (hcause : x.woken = true ∨ closed = true ∨ x.noted = true ∨ x.deadline ≤ timestamp) :
    (x.dispatch timestamp).Dispatched closed :=
  ⟨rfl, ht, hcause⟩

end Timer

/-! ### Steps -/

/-- A step at one task. -/
theorem Inv.change (h : Inv s) (t : T) (hcore : IOCoreCount.Inv s'.core)
    (htimestamp : s'.timestamp < timeInfinite)
    (hne : ∀ u ≠ t, s'.timer u = s.timer u ∧ s'.core.task u = s.core.task u ∧
      (u ∈ readied s'.core ↔ u ∈ readied s.core))
    (hself : Sound s' t)
    (hexecutions : ∀ e ∈ s'.executions, e.timer.Kept ∧ e.timer.Dispatched e.closed) : Inv s' := by
  refine ⟨hcore, htimestamp, fun u => ?_, hexecutions⟩
  by_cases hu : u = t
  · exact hu ▸ hself
  · obtain ⟨htimer, htask, hready⟩ := hne u hu
    exact (h.task u).congr htimer hready (fun hs => htask ▸ hs) (fun _ hg => htask.symm ▸ hg)
      (htask.symm ▸ (h.task u).guarded)

/-- A timer changes, and the core does not. -/
theorem Inv.timer (h : Inv s) (hself : Sound (s.set t x) t) : Inv (s.set t x) :=
  h.change t h.core h.timestamp
    (fun _ hu => ⟨Function.update_of_ne hu _ _, rfl, Iff.rfl⟩) hself h.executions

theorem set_timer (s : State T) (t : T) (x : Timer) : (s.set t x).timer t = x :=
  Function.update_self ..

/-- A task which is executed is not in the list of ready tasks. -/
theorem not_readied_of_inWorker (h : Inv s) (ht : inWorker s t = true) : t ∉ readied s.core := by
  rcases of_decide_eq_true ht with he | ⟨-, hdead⟩
  · exact not_readied h.core (.inr (.inr he))
  · exact fun hr => hdead (List.mem_append_right _ (mem_lives_of_readied hr))

theorem Inv.plain (h : Inv s) {a : IOCoreCount.Action T} (ha : isPlain a = true)
    (hs : IOCoreCount.step s.core a = some c) : Inv { s with core := c } := by
  refine ⟨h.core.step hs, h.timestamp, fun t => ?_, h.executions⟩
  obtain ⟨hready, hstatus, hguard, hguarded⟩ := plain_cases h.core ha hs t (h.task t).guarded
  exact (h.task t).congr rfl hready hstatus hguard hguarded

/-- The worker which executes a task sets its deadline. -/
theorem Inv.inWorker (h : Inv s) (ht : inWorker s t = true) (hkept : x.Kept)
    (hwoken : x.woken = (s.timer t).woken)
    (hnoted : x.pendingEvents = (s.timer t).pendingEvents ∧ x.noted = (s.timer t).noted) :
    Inv (s.set t x) := by
  have hready := not_readied_of_inWorker h ht
  refine h.timer ⟨?_, fun hr => absurd hr hready, fun hs => ?_, (h.task t).guarded, ?_⟩
  · rw [set_timer]
    exact hkept
  · rw [set_timer, hwoken]
    exact (h.task t).awake hs
  · rw [set_timer, hnoted.1, hnoted.2]
    exact (h.task t).noted

theorem Inv.wakeup (h : Inv s) (hs : IOCoreCount.step s.core (.wakeup t) = some c) :
    Inv { s.set t { s.timer t with
      woken := (s.timer t).woken || (s.core.task t).status != .closed } with core := c } := by
  have hcore := h.core.step hs
  obtain rfl := Option.some.inj hs
  have hold := h.task t
  have hcases : (∀ u, u ∈ readied (IOCoreCount.wakeup s.core t) ↔ u ∈ readied s.core) ∧
      (∀ u ≠ t, (IOCoreCount.wakeup s.core t).task u = s.core.task u) ∧
      (((IOCoreCount.wakeup s.core t).task t) = s.core.task t ∨
        (s.core.task t).status ≠ .closed ∧
          (IOCoreCount.wakeup s.core t).task t = { s.core.task t with status := .ready }) := by
    unfold IOCoreCount.wakeup
    dsimp only
    split
    · rename_i hw
      exact ⟨fun _ => Iff.rfl, fun u hu => IOCoreCount.Inv.set_ne _ _ hu,
        .inr ⟨by rw [hw]; decide, IOCoreCount.Inv.set_self ..⟩⟩
    · rename_i hp
      exact ⟨fun _ => Iff.rfl, fun u hu => IOCoreCount.Inv.set_ne _ _ hu,
        .inr ⟨by rw [hp]; decide, IOCoreCount.Inv.set_self ..⟩⟩
    · exact ⟨fun _ => Iff.rfl, fun _ _ => rfl, .inl rfl⟩
  obtain ⟨hready, hne, hself⟩ := hcases
  refine h.change t hcore h.timestamp
    (fun u hu => ⟨Function.update_of_ne hu _ _, hne u hu, hready u⟩) ?_ h.executions
  refine ⟨?_, fun hr => ?_, fun hst => ?_, ?_, ?_⟩
  · show Timer.Kept ((s.set t _).timer t)
    rw [set_timer]
    exact hold.kept
  · show Timer.Dispatched ((s.set t _).timer t) _
    rw [set_timer]
    obtain ⟨hexpired, hround, hcause⟩ := hold.ready ((hready t).mp hr)
    refine ⟨hexpired, hround, ?_⟩
    rcases hcause with hw | hc | hrest
    · exact .inl (Bool.or_eq_true_iff.mpr (.inl hw))
    · refine .inr (.inl ?_)
      rcases hself with hsame | ⟨-, hsame⟩ <;> exact hsame.symm ▸ hc
    · exact .inr (.inr hrest)
  · refine .inr ?_
    show ((s.set t _).timer t).woken = true
    rw [set_timer]
    have hclosed : (s.core.task t).status ≠ .closed := by
      rcases hself with hsame | ⟨hc, -⟩
      · intro hc
        rw [show (IOCoreCount.wakeup s.core t).task t = _ from hsame, hc] at hst
        cases hst
      · exact hc
    simp [hclosed]
  · show Guarded ((IOCoreCount.wakeup s.core t).task t)
    rcases hself with hsame | ⟨-, hsame⟩
    · exact hsame.symm ▸ hold.guarded
    · rw [hsame]
      rintro (hc | hc) <;> cases hc
  · show ((s.set t _).timer t).pendingEvents ≠ 0 → ((s.set t _).timer t).noted = true
    rw [set_timer]
    exact hold.noted

/-- The scheduler makes a task ready which sleeps. -/
theorem Inv.rouse (h : Inv s) (hw : (s.core.task t).status = .waiting) (hkept : x.Kept)
    (hready : x.Dispatched (s.core.task t).closeGuard)
    (hnoted : x.pendingEvents ≠ 0 → x.noted = true) :
    Inv { s.set t x with core := s.core.rouse t } := by
  have htask : (s.core.rouse t).task t = { s.core.task t with status := .ready } :=
    IOCoreCount.Inv.set_self ..
  have hmem : ∀ u, u ∈ readied (s.core.rouse t) ↔ u = t ∨ u ∈ readied s.core := fun u => by
    show u ∈ s.core.ready ++ [t] ++ s.core.readyQueue ↔ _
    simp only [readied, List.mem_append, List.mem_singleton]
    tauto
  refine h.change t (h.core.rouse hw) h.timestamp
    (fun u hu => ⟨Function.update_of_ne hu _ _, IOCoreCount.Inv.set_ne _ _ hu,
      (hmem u).trans (or_iff_right hu)⟩) ⟨?_, fun _ => ?_, fun _ => ?_, ?_, ?_⟩ h.executions
  · show Timer.Kept ((s.set t x).timer t)
    rwa [set_timer]
  · show Timer.Dispatched ((s.set t x).timer t) ((s.core.rouse t).task t).closeGuard
    rwa [set_timer, htask]
  · exact .inl ((hmem t).mpr (.inl rfl))
  · show Guarded ((s.core.rouse t).task t)
    rw [htask]
    rintro (hc | hc) <;> cases hc
  · show ((s.set t x).timer t).pendingEvents ≠ 0 → ((s.set t x).timer t).noted = true
    rwa [set_timer]

/-- A pending task does not sleep. -/
theorem not_waiting (h : IOCoreCount.Inv c) (ht : t ∈ c.pendingQueue) :
    (c.task t).status ≠ .waiting := fun hw => by
  have hasleep := (h.asleep t).mpr hw
  have hone := h.count_le_one t
  rw [← List.count_pos_iff] at ht hasleep
  omega

/-- Why a pending task goes to the list of ready tasks. -/
theorem Inv.pending_cause (h : Inv s) (ht : t ∈ s.core.pendingQueue)
    (hgo : ¬ ((s.core.task t).status = .pending ∧ hasEvents s t = false)) :
    (s.timer t).woken = true ∨ (s.core.task t).closeGuard = true ∨ (s.timer t).noted = true ∨
      (s.timer t).deadline ≤ s.timestamp := by
  have hold := h.task t
  by_cases hevents : hasEvents s t = false
  · cases hst : (s.core.task t).status with
    | pending => exact absurd ⟨hst, hevents⟩ hgo
    | waiting => exact absurd hst (not_waiting h.core ht)
    | ready => exact .inl ((hold.awake hst).resolve_left (not_readied h.core (.inl ht)))
    | closing => exact .inr (.inl (hold.guarded (.inl hst)))
    | closed => exact .inr (.inl (hold.guarded (.inr hst)))
  · rw [Bool.not_eq_false, hasEvents, Bool.or_eq_true, decide_eq_true_eq] at hevents
    rcases hevents with hevents | hexpired
    · exact .inr (.inr (.inl (hold.noted (by simpa using hevents))))
    · exact .inr (.inr (.inr hexpired))

/-- A pending task goes to sleep. -/
theorem Inv.sleep (h : Inv s) {l : List T} (hl : s.core.pendingQueue = t :: l) {finite : Bool}
    (hsleep : (s.core.task t).status = .pending ∧ hasEvents s t = false) :
    Inv { s with core := IOCoreCount.pendingDo s.core t l (hasEvents s t) finite } := by
  have hcore := h.core.pendingDo hl (hasEvents s t) finite
  have hold := h.task t
  unfold IOCoreCount.pendingDo at hcore ⊢
  dsimp only at hcore ⊢
  rw [if_pos hsleep] at hcore ⊢
  have htask := IOCoreCount.Inv.set_self { s.core with pendingQueue := l } t
    { s.core.task t with status := .waiting }
  refine h.change t hcore h.timestamp
    (fun u hu => ⟨rfl, IOCoreCount.Inv.set_ne _ _ hu, Iff.rfl⟩) (hold.congr rfl Iff.rfl ?_ ?_ ?_)
    h.executions
  · intro hs
    rw [show _ = _ from htask] at hs
    cases hs
  · intro _ hg
    rw [show _ = _ from htask]
    exact hg
  · rw [show _ = _ from htask]
    rintro (hc | hc) <;> cases hc

/-- What the core does with a pending task which goes to the list of ready tasks. -/
theorem dispatch_cases (l : List T) (finite : Bool) {events : Bool}
    (hgo : ¬ ((c.task t).status = .pending ∧ events = false)) :
    (∀ u, u ∈ readied (IOCoreCount.pendingDo c t l events finite) ↔ u = t ∨ u ∈ readied c) ∧
      (∀ u ≠ t, (IOCoreCount.pendingDo c t l events finite).task u = c.task u) ∧
      ((IOCoreCount.pendingDo c t l events finite).task t).closeGuard = (c.task t).closeGuard ∧
      (((IOCoreCount.pendingDo c t l events finite).task t).status = .closing ∨
        ((IOCoreCount.pendingDo c t l events finite).task t).status = .closed →
          (c.task t).status = .closing ∨ (c.task t).status = .closed) := by
  unfold IOCoreCount.pendingDo
  dsimp only
  rw [if_neg hgo]
  refine ⟨fun u => ?_, fun u hu => IOCoreCount.Inv.set_ne _ _ hu, ?_, ?_⟩
  · show u ∈ c.ready ++ [t] ++ c.readyQueue ↔ _
    simp only [readied, List.mem_append, List.mem_singleton]
    tauto
  · show (Function.update c.task t _ t).closeGuard = _
    rw [Function.update_self]
    split <;> rfl
  · show (Function.update c.task t _ t).status = _ ∨ (Function.update c.task t _ t).status = _ → _
    rw [Function.update_self]
    split
    · rintro (hc | hc) <;> cases hc
    · rename_i hst
      exact fun _ => .inl hst
    · exact id

/-- A pending task is made ready. -/
theorem Inv.dispatch (h : Inv s) {l : List T} (hl : s.core.pendingQueue = t :: l) {finite : Bool}
    (hgo : ¬ ((s.core.task t).status = .pending ∧ hasEvents s t = false)) :
    Inv { s.set t ((s.timer t).dispatch s.timestamp) with
      core := IOCoreCount.pendingDo s.core t l (hasEvents s t) finite } := by
  have hcore := h.core.pendingDo hl (hasEvents s t) finite
  have hold := h.task t
  have hcause := h.pending_cause (hl ▸ List.mem_cons_self) hgo
  obtain ⟨hmem, hne, hguard, hclosing⟩ :=
    dispatch_cases l finite hgo
  refine h.change t hcore h.timestamp
    (fun u hu => ⟨Function.update_of_ne hu _ _, hne u hu, (hmem u).trans (or_iff_right hu)⟩)
    ⟨?_, fun _ => ?_, fun _ => .inl ((hmem t).mpr (.inl rfl)), fun hc => ?_, ?_⟩ h.executions
  · show Timer.Kept ((s.set t _).timer t)
    rw [set_timer]
    exact hold.kept.dispatch s.timestamp
  · show Timer.Dispatched ((s.set t _).timer t) _
    rw [set_timer]
    exact .of_dispatch h.timestamp (hguard.symm ▸ hcause)
  · exact hguard.trans (hold.guarded (hclosing hc))
  · show ((s.set t _).timer t).pendingEvents ≠ 0 → _
    rw [set_timer]
    exact fun hne => absurd rfl hne

/-- A worker starts an execution. -/
theorem Inv.execute (h : Inv s) {l : List T} (hl : s.core.readyQueue = t :: l) :
    Inv { s.set t (s.timer t).execute with
      core := IOCoreCount.execute s.core t l
      executions := s.executions ++
        [⟨t, (s.core.task t).isClosed, (s.core.task t).closeGuard, s.timer t⟩] } := by
  have hcore := h.core.execute hl
  have hold := h.task t
  have hone := h.core.count_le_one t
  have hmem : ∀ u, u ∈ readied (IOCoreCount.execute s.core t l) ↔
      u ∈ s.core.ready ++ l := fun u => by
    unfold IOCoreCount.execute
    dsimp only
    split <;> split <;> exact Iff.rfl
  have hne : ∀ u ≠ t, (IOCoreCount.execute s.core t l).task u = s.core.task u := fun u hu => by
    unfold IOCoreCount.execute
    dsimp only
    split <;> split <;> exact IOCoreCount.Inv.set_ne _ _ hu
  have hself : ((IOCoreCount.execute s.core t l).task t).status ≠ .ready ∧
      Guarded ((IOCoreCount.execute s.core t l).task t) := by
    have hx : ((IOCoreCount.execute s.core t l).task t).closeGuard = (s.core.task t).closeGuard ∧
        ((IOCoreCount.execute s.core t l).task t).status =
          if (s.core.task t).status = .ready then .pending else (s.core.task t).status := by
      unfold IOCoreCount.execute
      dsimp only
      split <;> split <;> rename_i hst <;>
        simp [IOCoreCount.State.set, hst]
    constructor
    · rw [hx.2]
      split
      · rintro ⟨⟩
      · assumption
    · intro hc
      rw [hx.1]
      rw [hx.2] at hc
      split at hc
      · rcases hc with hc | hc <;> cases hc
      · exact hold.guarded hc
  have hout : t ∉ s.core.ready ++ l := fun hr => by
    rw [hl, List.count_cons_self] at hone
    rw [List.mem_append, ← List.count_pos_iff, ← List.count_pos_iff] at hr
    omega
  have hin : t ∈ readied s.core := List.mem_append_right _ (hl ▸ List.mem_cons_self)
  refine h.change t hcore h.timestamp (fun u hu => ⟨Function.update_of_ne hu _ _, hne u hu, ?_⟩)
    ⟨?_, fun hr => absurd ((hmem t).mp hr) hout, fun hs => absurd hs hself.1, hself.2, ?_⟩ ?_
  · rw [show _ ↔ _ from hmem u, readied, hl, List.mem_append, List.mem_append, List.mem_cons]
    exact or_congr_right (or_iff_right hu).symm
  · show Timer.Kept ((s.set t _).timer t)
    rw [set_timer]
    exact hold.kept.execute
  · show ((s.set t _).timer t).pendingEvents ≠ 0 → ((s.set t _).timer t).noted = true
    rw [set_timer]
    exact hold.noted
  · intro e he
    rcases List.mem_append.mp he with he | he
    · exact h.executions e he
    · obtain rfl := List.mem_singleton.mp he
      exact ⟨hold.kept, hold.ready hin⟩

/-- Every step keeps the invariant. -/
theorem Inv.step {a : Action T} (h : Inv s) (hs : IOCoreDeadline.step s a = some s') : Inv s' := by
  cases a with
  | plain a =>
    obtain ⟨ha, hs⟩ := Option.ite_none_right_eq_some.mp hs
    obtain ⟨c, hc, rfl⟩ := Option.map_eq_some_iff.mp hs
    exact h.plain ha hc
  | wakeup t =>
    rw [IOCoreDeadline.step] at hs
    obtain ⟨c, hc, rfl⟩ := Option.map_eq_some_iff.mp hs
    exact h.wakeup hc
  | setDeadline t d =>
    obtain ⟨⟨ht, hd⟩, hs⟩ := Option.ite_none_right_eq_some.mp hs
    obtain rfl := Option.some.inj hs
    exact h.inWorker ht ((h.task t).kept.setDeadline hd) rfl ⟨rfl, rfl⟩
  | reschedule t =>
    obtain ⟨ht, hs⟩ := Option.ite_none_right_eq_some.mp hs
    obtain rfl := Option.some.inj hs
    exact h.inWorker ht (h.task t).kept.reschedule rfl ⟨rfl, rfl⟩
  | startRound timestamp =>
    obtain ⟨ht, hs⟩ := Option.ite_none_right_eq_some.mp hs
    obtain ⟨c, hc, rfl⟩ := Option.map_eq_some_iff.mp hs
    have hcore := h.core.step hc
    obtain rfl := Option.some.inj hc
    exact ⟨hcore, ht, fun t => (h.task t).congr rfl Iff.rfl id (fun _ => id) (h.task t).guarded,
      h.executions⟩
  | kernelDo t events =>
    rw [IOCoreDeadline.step] at hs
    dsimp only at hs
    split at hs
    · rename_i hw
      obtain ⟨c, hc, rfl⟩ := Option.map_eq_some_iff.mp hs
      obtain ⟨-, hc⟩ := Option.ite_none_right_eq_some.mp hc
      obtain rfl := Option.some.inj hc
      exact h.rouse hw (h.task t).kept (.of_dispatch h.timestamp (.inr (.inr (.inl rfl))))
        (fun hne => absurd rfl hne)
    · obtain rfl := Option.some.inj hs
      have hold := h.task t
      refine h.timer ⟨?_, fun hr => ?_, fun hst => ?_, hold.guarded, fun _ => ?_⟩ <;>
        rw [set_timer]
      · exact hold.kept
      · obtain ⟨hexpired, hround, hcause⟩ := hold.ready hr
        exact ⟨hexpired, hround, hcause⟩
      · exact hold.awake hst
      · rfl
  | pendingDo =>
    rw [IOCoreDeadline.step] at hs
    split at hs
    · cases hs
    · rename_i t l hl
      obtain ⟨c, hc, rfl⟩ := Option.map_eq_some_iff.mp hs
      rw [IOCoreCount.step, hl] at hc
      obtain rfl := Option.some.inj hc
      split
      · rename_i hsleep
        exact h.sleep hl hsleep
      · rename_i hgo
        exact h.dispatch hl hgo
  | expiredDo t =>
    obtain ⟨⟨hexpired, -⟩, hs⟩ := Option.ite_none_right_eq_some.mp hs
    obtain ⟨c, hc, rfl⟩ := Option.map_eq_some_iff.mp hs
    obtain ⟨-, hc⟩ := Option.ite_none_right_eq_some.mp hc
    split
    · rename_i hw
      rw [if_pos hw] at hc
      obtain rfl := Option.some.inj hc
      exact h.rouse hw (h.task t).kept
        ⟨(decide_eq_true hexpired).symm, h.timestamp, .inr (.inr (.inr hexpired))⟩ (h.task t).noted
    · rename_i hw
      rw [if_neg hw] at hc
      obtain rfl := Option.some.inj hc
      exact ⟨h.core.expired t, h.timestamp, fun u =>
        (h.task u).congr rfl Iff.rfl id (fun _ => id) (h.task u).guarded, h.executions⟩
  | execute =>
    rw [IOCoreDeadline.step] at hs
    split at hs
    · cases hs
    · rename_i t l hl
      obtain ⟨c, hc, rfl⟩ := Option.map_eq_some_iff.mp hs
      rw [IOCoreCount.step, hl] at hc
      obtain rfl := Option.some.inj hc
      exact h.execute hl

omit [DecidableEq T] in
theorem Inv.new : Inv (.new : State T) where
  core := .new
  timestamp := (by decide : 0 < timeInfinite)
  task _ := ⟨rfl, fun hr => (List.not_mem_nil hr).elim, by rintro ⟨⟩,
    (by rintro (hc | hc) <;> cases hc), fun hne => absurd rfl hne⟩
  executions e he := (List.not_mem_nil he).elim

/-- A deadline which has passed was set, or the task was rescheduled. -/
theorem Timer.Kept.le_iff (h : x.Kept) (hround : x.round < timeInfinite) :
    x.deadline ≤ x.round ↔ x.rescheduled = true ∨ x.passed := by
  rw [h, Timer.passed]
  by_cases hr : x.rescheduled = true
  · rw [if_pos hr]
    exact ⟨fun _ => .inl hr, fun _ => Nat.zero_le _⟩
  · rw [if_neg hr]
    cases x.asked with
    | none => simp [hr, hround]
    | some d => simp [hr]

/-- In every execution, `IsExpired` means that a deadline has passed if and only if the task was not
rescheduled or a deadline has passed. The task was woken up or closed, got an event of the kernel,
was rescheduled, or a deadline has passed. -/
theorem expired_iff (h : machine.Reachable s) {e : Execution T} (he : e ∈ s.executions) :
    (e.isFinal = false → ((e.timer.isExpired = true ↔ e.timer.passed) ↔
      (e.timer.rescheduled = true → e.timer.passed))) ∧
      (e.timer.woken = true ∨ e.closed = true ∨ e.timer.got = true ∨ e.timer.rescheduled = true ∨
        e.timer.passed) := by
  have hinv : Inv s := by
    refine machine.invariant (P := Inv) ?_ (fun s a s' hi hs => hi.step hs) h
    rintro _ rfl
    exact .new
  obtain ⟨hkept, hexpired, hround, hcause⟩ := hinv.executions e he
  have hle := hkept.le_iff hround
  refine ⟨fun _ => ?_, ?_⟩
  · rw [hexpired, decide_eq_true_eq, hle]
    tauto
  · rw [hle] at hcause
    exact hcause

/-- A task is posted and woken up, and it reschedules itself in its first execution. -/
def rescheduled : List (Action ℕ) :=
  [.plain (.attach 1), .plain (.postStart 1), .plain (.post 1), .wakeup 1, .startRound 5,
    .pendingDo, .plain .pushReady, .execute, .reschedule 1, .plain (.ended 1), .startRound 6,
    .pendingDo, .plain .pushReady, .execute]

theorem expired_iff_sample : ∃ (s : State ℕ) (e : Execution ℕ), e ∈ s.executions ∧
    e.timer.round = 6 ∧ (e.isFinal = false → ((e.timer.isExpired = true ↔ e.timer.passed) ↔
      (e.timer.rescheduled = true → e.timer.passed))) ∧
      (e.timer.woken = true ∨ e.closed = true ∨ e.timer.got = true ∨ e.timer.rescheduled = true ∨
        e.timer.passed) := by
  obtain ⟨s, hs, hround⟩ : ∃ s, machine.run .new rescheduled = some s ∧
      s.executions.getLast?.map (fun e => e.timer.round) = some 6 :=
    Option.map_eq_some_iff.mp (by decide +kernel)
  obtain ⟨e, he, hround⟩ := Option.map_eq_some_iff.mp hround
  have hmem := List.mem_of_getLast? he
  exact ⟨s, e, hmem, hround, expired_iff (.of_run (.init rfl) hs) hmem⟩

/-- A task which was rescheduled and has no deadline is expired. -/
theorem rescheduled_expired : ∃ (s : State ℕ) (e : Execution ℕ), machine.Reachable s ∧
    e ∈ s.executions ∧ e.isFinal = false ∧ e.timer.asked = none ∧ e.timer.isExpired = true := by
  obtain ⟨s, hs, hlast⟩ : ∃ s, machine.run .new rescheduled = some s ∧
      s.executions.getLast?.map (fun e => (e.isFinal, e.timer.asked, e.timer.isExpired)) =
        some (false, none, true) :=
    Option.map_eq_some_iff.mp (by decide +kernel)
  obtain ⟨e, he, hdata⟩ := Option.map_eq_some_iff.mp hlast
  simp only [Prod.mk.injEq] at hdata
  exact ⟨s, e, .of_run (.init rfl) hs, List.mem_of_getLast? he, hdata⟩

end IOCoreDeadline

end Serverbox
