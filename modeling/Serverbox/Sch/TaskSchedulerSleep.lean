import Mathlib.Data.BitVec
import Serverbox.Box.BinaryHeap

/-!
# The timed sleep of the scheduler

A scheduler without ready and pending tasks sleeps on its front signal until the first deadline of
the waiting heap. The remaining time goes through `Signal::ReceiveTimed` and
`ConditionVariable::TimedWait` to `std::condition_variable_any::wait_for`, as unsigned milliseconds
of 64 bits. There it becomes `std::chrono::milliseconds`, whose count is signed, and then
nanoseconds, again signed, to which the time of the steady clock is added.

Nothing on the way cuts the time, while the rounds of `IOCore` do so, and `ToPointFromNow`
saturates. From half of the range on the count is negative, so that the scheduler does not sleep at
all. Long before that the nanoseconds overflow, by themselves or with the time of the clock.

Source: `src/mg/sch/TaskScheduler.cpp`, `src/mg/box/Signal.cpp`,
`src/mg/box/ConditionVariable.cpp`, `src/mg/box/Time.h`.

## Main definitions

* `TaskSchedulerSleep.privScheduleSleep`: the end of `PrivSchedule`.
* `TaskSchedulerSleep.Sleep.Sound`: the wait is representable, positive and not too long.

## Main results

* `TaskSchedulerSleep.privScheduleSleep_sound_iff`: when the wait is sound.
-/

namespace Serverbox

namespace TaskSchedulerSleep

/-! ### Time limits -/

/-- `MG_TIME_INFINITE`. -/
def timeInfinite : BitVec 64 := -1

/-- `TimeLimit`. -/
inductive TimeLimit
  | none
  | duration (value : BitVec 64)
  | point (value : BitVec 64)
  deriving DecidableEq

/-- `TimeDuration::ToPointFromNow`, at the time `timestamp`. -/
def durationToPoint (value timestamp : BitVec 64) : BitVec 64 :=
  if timestamp ≥ -1 - value then timeInfinite else value + timestamp

/-- `TimeLimit::ToPointFromNow`, `none` for the failed assertion. -/
def TimeLimit.toPointFromNow (limit : TimeLimit) (timestamp : BitVec 64) : Option (BitVec 64) :=
  match limit with
  | .point value => some value
  | .duration value => some (durationToPoint value timestamp)
  | .none => Option.none

/-- `TimeLimit::ToDurationFromNow`, `none` for the failed assertion. -/
def TimeLimit.toDurationFromNow (limit : TimeLimit) (timestamp : BitVec 64) :
    Option (BitVec 64) :=
  match limit with
  | .duration value => some value
  | .point value =>
    if value = timeInfinite then some timeInfinite
    else if timestamp ≥ value then some 0
    else some (value - timestamp)
  | .none => Option.none

/-! ### The sleep -/

/-- What the scheduler does in its sleep: nothing, as there is something to do already or the
signal is received; a wait without a timeout; or a wait for some `std::chrono::milliseconds`. -/
inductive Sleep
  | no
  | blocking
  | timed (milliseconds : BitVec 64)
  | failed
  deriving DecidableEq

/-- `ConditionVariable::TimedWait`, at the time `timestamp`. -/
def timedWait (limit : TimeLimit) (timestamp : BitVec 64) : Sleep :=
  match limit.toDurationFromNow timestamp with
  | some timeout => .timed timeout
  | none => .failed

/-- `Signal::ReceiveTimed`: the signal is tried without the lock and with it. -/
def receiveTimed (received receivedLocked : Bool) (limit : TimeLimit) (timestamp : BitVec 64) :
    Sleep :=
  if received then .no
  else if receivedLocked then .no
  else timedWait limit timestamp

/-- `TaskScheduler`, as far as the sleep is concerned with it. -/
structure Scheduler (T : Type*) where
  queueWaiting : BinaryHeap T
  deadline : T → BitVec 64

variable {T : Type*}

/-- The end of `PrivSchedule` without ready and pending tasks. The two times are those of
`PrivSchedule` and of `TimedWait`. -/
def privScheduleSleep (received receivedLocked : Bool) (s : Scheduler T)
    (timestamp later : BitVec 64) : Sleep :=
  match s.queueWaiting.top with
  | some t =>
    let deadline := s.deadline t
    if deadline > timestamp then
      receiveTimed received receivedLocked (.duration (deadline - timestamp)) later
    else .no
  | none => if received then .no else .blocking

/-- The nanoseconds of a count of milliseconds, before they are stored. -/
def nanoseconds (count : ℤ) : ℤ := count * 1000000

/-- The signed number of 64 bits can be stored. -/
def fits (n : ℤ) : Prop := -2 ^ 63 ≤ n ∧ n < 2 ^ 63

/-- The count which `wait_for` gets is not negative, its nanoseconds do not overflow, neither by
themselves nor when they are added to those of the clock, it is positive, and it is not longer than
the remaining time. The clock is `std::chrono::steady_clock::now()`, a signed number too. -/
def Sleep.Sound (s : Scheduler T) (t : T) (timestamp clock : BitVec 64) : Sleep → Prop
  | .no => True
  | .blocking => False
  | .failed => False
  | .timed milliseconds => 0 ≤ milliseconds.toInt ∧ fits (nanoseconds milliseconds.toInt) ∧
      fits (clock.toInt + nanoseconds milliseconds.toInt) ∧
      0 < milliseconds.toInt ∧
      milliseconds.toInt ≤ (s.deadline t).toNat - timestamp.toNat

/-- A duration survives as it is until the standard library. -/
theorem privScheduleSleep_eq {s : Scheduler T} {t : T} {timestamp : BitVec 64}
    (received receivedLocked : Bool) (later : BitVec 64) (ht : s.queueWaiting.top = some t)
    (hdeadline : timestamp < s.deadline t) :
    privScheduleSleep received receivedLocked s timestamp later =
      if received then .no
      else if receivedLocked then .no
      else .timed (s.deadline t - timestamp) := by
  simp only [privScheduleSleep, ht, gt_iff_lt, hdeadline, if_true]
  rfl

/-- The end of the wait can be stored as long as it is less than some 292 years after the zero of
the clock. -/
theorem timed_sound_iff {s : Scheduler T} {t : T} {timestamp clock : BitVec 64}
    (hdeadline : timestamp < s.deadline t) :
    (Sleep.timed (s.deadline t - timestamp)).Sound s t timestamp clock ↔
      max 0 clock.toInt + nanoseconds ((s.deadline t).toNat - timestamp.toNat) < 2 ^ 63 := by
  have hlt := BitVec.lt_def.1 hdeadline
  have hnat : (s.deadline t - timestamp).toNat = (s.deadline t).toNat - timestamp.toNat :=
    BitVec.toNat_sub_of_le (BitVec.le_of_lt hdeadline)
  have hbound := (s.deadline t).isLt
  have hclock : -2 ^ 63 ≤ clock.toInt := BitVec.le_toInt clock
  have hint := BitVec.toInt_eq_toNat_cond (s.deadline t - timestamp)
  rw [hnat] at hint
  simp only [Sleep.Sound, fits, nanoseconds, hint]
  -- The count is the remaining time in the lower half of the range, and negative in the upper.
  split <;> omega

/-- For every heap, every time and every time of the steady clock, and a first deadline which is
later, the wait is sound if and only if the signal was received, or the nanoseconds of the clock and
of the remaining time can be added. -/
theorem privScheduleSleep_sound_iff (received receivedLocked : Bool) (s : Scheduler T) (t : T)
    (timestamp later clock : BitVec 64) (ht : s.queueWaiting.top = some t)
    (hdeadline : timestamp < s.deadline t) :
    (privScheduleSleep received receivedLocked s timestamp later).Sound s t timestamp clock ↔
      (received = false → receivedLocked = false →
        max 0 clock.toInt + nanoseconds ((s.deadline t).toNat - timestamp.toNat) < 2 ^ 63) := by
  rw [privScheduleSleep_eq received receivedLocked later ht hdeadline]
  cases received with
  | true => simp [Sleep.Sound]
  | false =>
    cases receivedLocked with
    | true => simp [Sleep.Sound]
    | false => simpa using timed_sound_iff hdeadline

/-- A scheduler with one waiting task. -/
def oneTask (deadline : BitVec 64) : Scheduler Unit where
  queueWaiting := ⟨[()], fun _ => 0⟩
  deadline := fun _ => deadline

/-- A task whose deadline is five milliseconds away, an hour after the start of the system. -/
theorem privScheduleSleep_sound_iff_five :
    (oneTask 15).queueWaiting.top = some () ∧ (10 : BitVec 64) < (oneTask 15).deadline () ∧
      (privScheduleSleep false false (oneTask 15) 10 10).Sound (oneTask 15) () 10 3600000000000 :=
  ⟨rfl, by decide,
    (privScheduleSleep_sound_iff false false (oneTask 15) () 10 10 3600000000000 rfl
      (by decide)).mpr fun _ _ => by decide⟩

/-- A deadline just below `MG_TIME_INFINITE`: the count is negative. -/
theorem privScheduleSleep_forever :
    privScheduleSleep false false (oneTask 18446744073709551614) 1000 1000 =
        .timed 18446744073709550614 ∧
      (18446744073709550614 : BitVec 64).toInt = -1002 ∧
      ¬(privScheduleSleep false false (oneTask 18446744073709551614) 1000 1000).Sound
        (oneTask 18446744073709551614) () 1000 3600000000000 := by
  have hsleep : privScheduleSleep false false (oneTask 18446744073709551614) 1000 1000 =
      .timed 18446744073709550614 := by decide
  have hint : (18446744073709550614 : BitVec 64).toInt = -1002 := by decide
  refine ⟨hsleep, hint, ?_⟩
  rw [hsleep]
  rintro ⟨hnonneg, -⟩
  rw [hint] at hnonneg
  omega

end TaskSchedulerSleep

end Serverbox
