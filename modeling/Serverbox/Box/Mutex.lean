import Mathlib.Data.Nat.Notation
import Mathlib.Data.Option.Basic

/-!
# The mutex

`mg::box::Mutex` keeps, beside the OS mutex `myHandle`, the thread which owns it and how many
times it locked it. A condition variable resets and restores both when it gives the mutex up and
takes it back. Each operation returns the new mutex with the truth value of the assertions that
the source makes in it; an operation which blocks is not enabled.

Source: `src/mg/box/Mutex.h`, `src/mg/box/Mutex.cpp`, `src/mg/box/ConditionVariable.cpp`.

## Main definitions

* `Mutex.lock`, `Mutex.unlock`: locking and unlocking.
* `Mutex.condWait`, `Mutex.condRelock`: what `ConditionVariable::Wait` does to the mutex before
  and after the sleep.
* `Mutex.ofHolder`: the mutex which is free, or locked once by one thread.
-/

namespace Serverbox

/-- The mutex: the holder of the OS mutex, and the owner and the depth recorded beside it. -/
structure Mutex (Θ : Type*) where
  handle : Option Θ
  owner : Option Θ
  count : ℕ
  deriving DecidableEq

namespace Mutex

variable {Θ : Type*} [DecidableEq Θ]

/-- The mutex nobody holds, or the one locked once by the given thread. -/
def ofHolder : Option Θ → Mutex Θ
  | none => ⟨none, none, 0⟩
  | some θ => ⟨some θ, some θ, 1⟩

/-- `Mutex::Lock`: take the OS mutex, or lock it once more by its owner. -/
def lock (m : Mutex Θ) (θ : Θ) : Option (Mutex Θ × Bool) :=
  if m.handle = none then some (⟨some θ, some θ, 1⟩, m.count == 0)
  else if m.owner = some θ then some ({ m with count := m.count + 1 }, decide (0 < m.count))
  else none

/-- `Mutex::Unlock`. -/
def unlock (m : Mutex Θ) (θ : Θ) : Mutex Θ × Bool :=
  if m.count = 1 then (⟨none, none, 0⟩, m.owner == some θ)
  else ({ m with count := m.count - 1 }, m.owner == some θ && decide (1 < m.count))

/-- The part of `ConditionVariable::Wait` before the sleep: the mutex is given up. -/
def condWait (m : Mutex Θ) (θ : Θ) : Mutex Θ × Bool :=
  (⟨none, none, 0⟩, m.owner == some θ && m.count == 1)

/-- The part of `ConditionVariable::Wait` after the sleep: the mutex is taken back. -/
def condRelock (m : Mutex Θ) (θ : Θ) : Option (Mutex Θ × Bool) :=
  if m.handle = none then some (⟨some θ, some θ, 1⟩, m.owner == none && m.count == 0) else none

omit [DecidableEq Θ] in
@[simp] theorem handle_ofHolder (h : Option Θ) : (ofHolder h).handle = h := by
  cases h <;> rfl

/-- Locking succeeds on a free mutex, and the assertion of it holds. -/
theorem lock_ofHolder_none (θ : Θ) : (ofHolder none).lock θ = some (ofHolder (some θ), true) := rfl

/-- A thread blocks on a mutex locked by another one. -/
theorem lock_ofHolder_of_ne {θ θ' : Θ} (h : θ' ≠ θ) : (ofHolder (some θ')).lock θ = none := by
  simp [lock, ofHolder, h]

theorem unlock_ofHolder (θ : Θ) : (ofHolder (some θ)).unlock θ = (ofHolder none, true) := by
  simp [unlock, ofHolder]

theorem condWait_ofHolder (θ : Θ) : (ofHolder (some θ)).condWait θ = (ofHolder none, true) := by
  simp [condWait, ofHolder]

/-- Taking the mutex back after a sleep needs it free, and the assertions then hold. -/
theorem condRelock_ofHolder (h : Option Θ) (θ : Θ) :
    (ofHolder h).condRelock θ = if h = none then some (ofHolder (some θ), true) else none := by
  cases h <;> rfl

end Mutex

end Serverbox
