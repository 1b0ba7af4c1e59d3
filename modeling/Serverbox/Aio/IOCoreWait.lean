import Mathlib.Data.BitVec
import Serverbox.Box.BinaryHeap

/-!
# The wait at the end of a scheduling round

A round of the scheduler without ready tasks waits for events of the kernel, and not longer than
until the first deadline of the waiting heap. The deadlines have 64 bits, and the timeouts of the
kernel have less: `poll` of the epoll, kqueue and io_uring back ends takes an `int`, which is
infinite when it is negative, and `GetQueuedCompletionStatusEx` of the IOCP back end takes a
`DWORD`, which is infinite when all its bits are set.

The first three back ends have the same text. That of IOCP cuts the durations above `INFINITE`, and
so a duration of exactly `INFINITE` milliseconds stays and means no timeout at all.

Source: `src/mg/aio/IOCore_epoll.cpp`, `src/mg/aio/IOCore_kqueue.cpp`,
`src/mg/aio/IOCore_iouring.cpp`, `src/mg/aio/IOCore_IOCP.cpp`.

## Main definitions

* `IOCoreWait.privScheduleWait`: what a round without ready tasks does.
* `IOCoreWait.Verdict.Sound`: the wait is finite, positive and not too long.

## Main results

* `IOCoreWait.privScheduleWait_sound_iff`: when the wait is sound.
-/

namespace Serverbox

namespace IOCoreWait

/-- The back ends of `IOCore`. -/
inductive Backend
  | epoll
  | kqueue
  | ioUring
  | iocp
  deriving DecidableEq

/-- A wait of the kernel: the `int` of `poll`, or the `DWORD` of `GetQueuedCompletionStatusEx`. -/
inductive Wait
  | poll (timeout : BitVec 32)
  | completion (timeout : BitVec 32)
  deriving DecidableEq

/-- The round waits, or the next step starts at once. -/
inductive Verdict
  | again
  | wait (w : Wait)
  deriving DecidableEq

/-- `INT_MAX`. -/
def intMax : BitVec 64 := 2147483647

/-- `INFINITE`. -/
def infinite : BitVec 64 := 4294967295

/-- The timeout as the kernel reads it. -/
def Wait.millis : Wait → ℤ
  | .poll timeout => timeout.toInt
  | .completion timeout => timeout.toNat

/-- The kernel waits for ever. -/
def Wait.isInfinite : Wait → Prop
  | .poll timeout => timeout.toInt < 0
  | .completion timeout => timeout = infinite.setWidth 32

/-- The wait over epoll, kqueue and io_uring when there is a deadline. -/
def pollWait (timestamp deadline : BitVec 64) : Verdict :=
  if timestamp ≥ deadline then .again
  else
    let duration := deadline - timestamp
    let duration := if duration > intMax then intMax else duration
    .wait (.poll (duration.setWidth 32))

/-- The wait over IOCP when there is a deadline. -/
def completionWait (timestamp deadline : BitVec 64) : Verdict :=
  if timestamp ≥ deadline then .again
  else
    let duration := deadline - timestamp
    let duration := if duration > infinite then infinite - 1 else duration
    .wait (.completion (duration.setWidth 32))

/-- `IOCore`, as far as the wait is concerned with it. -/
structure Core (T : Type*) where
  waiting : BinaryHeap T
  deadline : T → BitVec 64
  isRunning : Bool

variable {T : Type*}

/-- The end of `PrivScheduleDo`, with the time which it takes. -/
def privScheduleWait (B : Backend) (c : Core T) (timestamp : BitVec 64) : Verdict :=
  match c.waiting.top with
  | some t =>
    match B with
    | .epoll | .kqueue | .ioUring => pollWait timestamp (c.deadline t)
    | .iocp => completionWait timestamp (c.deadline t)
  | none =>
    if c.isRunning then
      match B with
      | .epoll | .kqueue | .ioUring => .wait (.poll (-1))
      | .iocp => .wait (.completion (infinite.setWidth 32))
    else .again

/-- The task which the loop over the expired tasks takes first. -/
def expiredTop (c : Core T) (timestamp : BitVec 64) : Option T :=
  match c.waiting.top with
  | none => none
  | some t => if c.deadline t > timestamp then none else some t

/-- The wait is finite, lasts a millisecond at least, and ends before the deadline of the task. If
there is no wait, then the next step finds the task expired, as the clock does not go back. -/
def Verdict.Sound (c : Core T) (timestamp : BitVec 64) (t : T) : Verdict → Prop
  | .again => ∀ later, timestamp ≤ later → expiredTop c later = some t
  | .wait w => ¬w.isInfinite ∧ 0 ≤ w.millis ∧ 1 ≤ w.millis ∧
      w.millis ≤ (c.deadline t).toNat - timestamp.toNat

section Kinds

variable {c : Core T} {t : T} {timestamp : BitVec 64}

/-- A deadline which has passed is found by the next step. -/
theorem Verdict.Sound.again (ht : c.waiting.top = some t) (h : c.deadline t ≤ timestamp) :
    Verdict.Sound c timestamp t .again := by
  intro later hlater
  have hpast : ¬c.deadline t > later := by
    simp only [gt_iff_lt, BitVec.not_lt]
    exact BitVec.le_trans h hlater
  simp [expiredTop, ht, hpast]

/-- The remaining time as a difference of numbers. -/
theorem toNat_remaining {deadline : BitVec 64} (h : ¬timestamp ≥ deadline) :
    (deadline - timestamp).toNat = deadline.toNat - timestamp.toNat ∧
      timestamp.toNat < deadline.toNat := by
  simp only [ge_iff_le, BitVec.not_le] at h
  exact ⟨BitVec.toNat_sub_of_le (BitVec.le_of_lt h), BitVec.lt_def.1 h⟩

/-- Half of the range of an `int` is cut off, and the rest is positive. -/
theorem pollWait_sound (ht : c.waiting.top = some t) :
    (pollWait timestamp (c.deadline t)).Sound c timestamp t := by
  unfold pollWait
  split
  case isTrue h => exact .again ht h
  case isFalse h =>
    obtain ⟨hduration, hlt⟩ := toNat_remaining h
    dsimp only
    split
    case isTrue hcut =>
      have hmax : (intMax.setWidth 32).toInt = 2147483647 := by decide
      have := BitVec.lt_def.1 hcut
      have hnat : intMax.toNat = 2147483647 := by decide
      simp only [Verdict.Sound, Wait.isInfinite, Wait.millis, hmax]
      omega
    case isFalse hcut =>
      have hle := BitVec.le_def.1 (BitVec.not_lt.1 hcut)
      have hnat : intMax.toNat = 2147483647 := by decide
      have hint : ((c.deadline t - timestamp).setWidth 32).toInt =
          ((c.deadline t).toNat - timestamp.toNat : ℕ) := by
        rw [BitVec.toInt_eq_toNat_cond, BitVec.toNat_setWidth, hduration]
        rw [Nat.mod_eq_of_lt (by omega), if_pos (by omega)]
      simp only [Verdict.Sound, Wait.isInfinite, Wait.millis, hint]
      omega

/-- The one duration which is neither cut nor finite. -/
theorem completionWait_sound_iff (ht : c.waiting.top = some t) :
    (completionWait timestamp (c.deadline t)).Sound c timestamp t ↔
      (c.deadline t).toNat ≠ timestamp.toNat + (2 ^ 32 - 1) := by
  have hnat : infinite.toNat = 4294967295 := by decide
  unfold completionWait
  split
  case isTrue h =>
    refine iff_of_true (.again ht h) ?_
    have := BitVec.le_def.1 h
    omega
  case isFalse h =>
    obtain ⟨hduration, hlt⟩ := toNat_remaining h
    dsimp only
    split
    case isTrue hcut =>
      have := BitVec.lt_def.1 hcut
      have hmax : ((infinite - 1).setWidth 32).toNat = 4294967294 := by decide
      have hne : (infinite - 1).setWidth 32 ≠ infinite.setWidth 32 := by decide
      simp only [Verdict.Sound, Wait.isInfinite, Wait.millis, hmax, hne, not_false_eq_true,
        true_and]
      omega
    case isFalse hcut =>
      have hle := BitVec.le_def.1 (BitVec.not_lt.1 hcut)
      have hmod : ((c.deadline t - timestamp).setWidth 32).toNat =
          (c.deadline t).toNat - timestamp.toNat := by
        rw [BitVec.toNat_setWidth, hduration, Nat.mod_eq_of_lt (by omega)]
      have hinf : (c.deadline t - timestamp).setWidth 32 = infinite.setWidth 32 ↔
          (c.deadline t).toNat = timestamp.toNat + (2 ^ 32 - 1) := by
        rw [← BitVec.toNat_inj, hmod]
        have : (infinite.setWidth 32).toNat = 4294967295 := by decide
        omega
      simp only [Verdict.Sound, Wait.isInfinite, Wait.millis, hmod, hinf]
      omega

end Kinds

/-- For every back end, heap and time the wait is sound, except for a deadline which is exactly
`INFINITE` milliseconds away over IOCP. -/
theorem privScheduleWait_sound_iff (B : Backend) (c : Core T) (t : T) (timestamp : BitVec 64)
    (ht : c.waiting.top = some t) :
    (privScheduleWait B c timestamp).Sound c timestamp t ↔
      (B = .iocp → (c.deadline t).toNat ≠ timestamp.toNat + (2 ^ 32 - 1)) := by
  unfold privScheduleWait
  rw [ht]
  cases B with
  | epoll => exact iff_of_true (pollWait_sound ht) nofun
  | kqueue => exact iff_of_true (pollWait_sound ht) nofun
  | ioUring => exact iff_of_true (pollWait_sound ht) nofun
  | iocp => exact (completionWait_sound_iff ht).trans (by simp)

/-- A core with one waiting task. -/
def oneTask (deadline : BitVec 64) : Core Unit where
  waiting := ⟨[()], fun _ => 0⟩
  deadline := fun _ => deadline
  isRunning := true

/-- A task whose deadline is five milliseconds away. -/
theorem privScheduleWait_sound_iff_five :
    (oneTask 15).waiting.top = some () ∧
      ((privScheduleWait .iocp (oneTask 15) 10).Sound (oneTask 15) 10 () ↔
        (Backend.iocp = .iocp →
          ((oneTask 15).deadline ()).toNat ≠ (10 : BitVec 64).toNat + (2 ^ 32 - 1))) :=
  ⟨rfl, privScheduleWait_sound_iff .iocp (oneTask 15) () 10 rfl⟩

/-- The deadline is `INFINITE` milliseconds away: the core over IOCP sleeps for ever. -/
theorem privScheduleWait_infinite :
    privScheduleWait .iocp (oneTask 4294968295) 1000 =
        .wait (.completion (infinite.setWidth 32)) ∧
      ¬(privScheduleWait .iocp (oneTask 4294968295) 1000).Sound (oneTask 4294968295) 1000 () := by
  have hwait : privScheduleWait .iocp (oneTask 4294968295) 1000 =
      .wait (.completion (infinite.setWidth 32)) := by decide
  refine ⟨hwait, ?_⟩
  rw [hwait]
  exact fun h => h.1 rfl

end IOCoreWait

end Serverbox
