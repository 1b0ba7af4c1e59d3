import Serverbox.Box.InterruptibleMutexInvariant

/-!
# The ownership of the interruptible mutex

What the interruptible mutex guarantees to the threads which lock it, read off its invariant.

## Main definitions

* `InterruptibleMutex.Pc.waiting`: the thread waits for the ownership, or is about to.

## Main results

* `InterruptibleMutex.tryLock_succeeds`: `TryLock` succeeds only while nobody waits.
* `InterruptibleMutex.unlock_frees`: `Unlock` frees the mutex only while nobody waits.
* `InterruptibleMutex.ownership`: mutual exclusion, the order of the waiters, the flags of the
  state word and the assertions.
-/

namespace Serverbox

namespace InterruptibleMutex

variable {Θ : Type*}

/-- The thread has found the mutex taken, and was not given it yet. -/
def Pc.waiting : Pc Θ → Bool
  | lockWakeup | lockAppend | lockRelease | lockWait => true
  | _ => false

variable {s s' : State Θ} {θ : Θ}

/-- Nobody waits while the state word is free. -/
theorem Inv.not_waiting (h : Inv s) (hw : s.word = ⟨false, false⟩) (θ : Θ) :
    (s.pc θ).waiting = false := by
  obtain ⟨hwait, hlags, -, hchosen⟩ := h.nobody_waits hw
  have hg := hlags θ
  cases hp : s.pc θ <;> simp [Pc.waiting, hp] at hg ⊢
  · simpa [hwait] using h.lockRelease θ hp
  · simpa [hwait, hchosen] using h.lockWait θ hp

/-- The chosen waiters have all woken up, except possibly the last one. -/
theorem Inv.granted_isPrefix (h : Inv s) : s.granted <+: s.handed := by
  by_cases hc : ∃ w, s.Chosen w
  · obtain ⟨w, hw⟩ := hc
    exact ⟨[w], (h.handed_of_chosen w hw).symm⟩
  · have heq : s.handed = s.granted := h.handed_eq fun w hw => hc ⟨w, hw⟩
    exact heq ▸ List.prefix_rfl

variable [DecidableEq Θ]

/-- `TryLock`, and the attempt to skip the queue in `Lock`, succeed only while nobody waits. -/
theorem tryLock_succeeds (h : Inv s) (hp : s.pc θ = .tryLock ∨ s.pc θ = .lockTry)
    (hs : step s (.next θ) = some s') (ho : s'.pc θ = .owner) :
    s.waiters = [] ∧ ∀ θ', (s.pc θ').waiting = false := by
  have hw : s.word = ⟨false, false⟩ := by
    by_contra hne
    rcases hp with hp | hp <;>
    · simp only [step, next, hp, tryLock, if_neg hne, Option.some.injEq] at hs
      simp [← hs] at ho
  exact ⟨(h.nobody_waits hw).1, h.not_waiting hw⟩

/-- `Unlock` frees the mutex only while nobody waits. -/
theorem unlock_frees (h : Inv s) (hs : step s (.next θ) = some s') (hp : s.pc θ = .unlockCas)
    (hi : s'.pc θ = .idle) : s.waiters = [] ∧ ∀ θ', (s.pc θ').waiting = false := by
  have hw : s.word = ⟨true, false⟩ := by
    by_contra hne
    simp only [step, next, hp, unlockCas, if_neg hne, Option.some.injEq] at hs
    simp [← hs, State.assert] at hi
  have hs' : s' = { s with word := ⟨false, false⟩ }.goto θ .idle := by
    simpa [step, next, hp, unlockCas, hw, eq_comm] using hs
  have hfree : Inv s' := hs' ▸ h.unlockCas_free hp hw
  have hw' : s'.word = ⟨false, false⟩ := by rw [hs', State.goto_word]
  refine ⟨by simpa [hs'] using (hfree.nobody_waits hw').1, fun θ' => ?_⟩
  rcases eq_or_ne θ' θ with rfl | hne
  · simp [hp, Pc.waiting]
  · simpa [hs', hne] using hfree.not_waiting hw' θ'

/-- `Unlock` hands the ownership to the waiter it has popped last. -/
theorem unlock_hands_over (h : Inv s) {w : Θ} (hs : step s (.next θ) = some s')
    (hp : s.pc θ = .unlockPublish w) :
    s.Owns θ ∧ s'.Owns w ∧ ¬ s'.Owns θ ∧ s'.word.taken = true ∧ s'.handed = s'.granted ++ [w] := by
  have hs' : s' = unlockPublish s θ w := by
    simpa [step, next, hp, eq_comm] using hs
  subst hs'
  obtain ⟨hi, hw⟩ := h.unlockPublish hp
  refine ⟨.inl (by simp [hp]), hw, fun ho => ?_, hi.taken_iff.mpr ⟨w, hw⟩, ?_⟩
  · have hwθ : θ = w := hi.owns_unique θ w ho hw
    simpa [hwθ ▸ hp] using (h.popped θ w (by simp [hp])).1
  · refine hi.handed_of_chosen w (.inr ?_)
    simp [unlockPublish, State.assert]

/-- **The guarantees of the interruptible mutex.** In every reachable state: at most one thread
has the ownership; the threads were chosen, and woke up as owners, in the order in which they
joined the waiters; an `Unlock` with waiters hands the ownership directly to the one it popped,
and one which frees the mutex sees nobody waiting; `TryLock` succeeds only while nobody waits;
the flag of the waiters tells whether there are any while the internal lock is free; the mutex
is flagged as taken while it has an owner; no assertion has failed. -/
theorem ownership (h : (machine Θ).Reachable s) :
    (∀ θ θ', s.Owns θ → s.Owns θ' → θ = θ') ∧
    (s.enqueued = s.handed ++ s.waiters ∧ s.granted <+: s.handed) ∧
    (∀ θ w s', step s (.next θ) = some s' → s.pc θ = .unlockPublish w →
      s.Owns θ ∧ s'.Owns w ∧ ¬ s'.Owns θ ∧ s'.word.taken = true ∧
        s'.handed = s'.granted ++ [w]) ∧
    (∀ θ s', step s (.next θ) = some s' → s.pc θ = .unlockCas → s'.pc θ = .idle →
      s.waiters = [] ∧ ∀ θ', (s.pc θ').waiting = false) ∧
    (∀ θ s', step s (.next θ) = some s' → s.pc θ = .tryLock ∨ s.pc θ = .lockTry →
      s'.pc θ = .owner → s.waiters = [] ∧ ∀ θ', (s.pc θ').waiting = false) ∧
    (s.lock.handle = none → (s.word.hasWaiters = true ↔ s.waiters ≠ [])) ∧
    ((∃ θ, s.Owns θ) → s.word.taken = true) ∧
    s.failed = false := by
  have hi := inv h
  refine ⟨hi.owns_unique, ⟨hi.enqueued_eq, hi.granted_isPrefix⟩,
    fun θ w s' hs hp => unlock_hands_over hi hs hp, fun θ s' hs hp => unlock_frees hi hs hp,
    fun θ s' hs hp => tryLock_succeeds hi hp hs, fun hh => hi.flag_iff fun θ => ?_,
    hi.taken_iff.mpr, hi.not_failed⟩
  -- a thread which lags behind would hold the internal lock
  by_contra hg
  rw [Bool.not_eq_false] at hg
  simpa [hh] using (hi.inLock_iff θ).mp (Pc.inLock_of_lags hg)

/-- One thread takes the mutex, another one waits for it, and the first one hands it over. -/
def handoverRun (θ w : Θ) : List (Action Θ) :=
  [.call θ .tryLock, .next θ, .call w .lock, .next w, .next w, .next w, .next w, .next w, .next w,
    .call θ .unlock, .next θ, .next θ, .next θ, .next θ, .next θ, .next θ]

/-- A mutex which was handed over to a waiter that has not woken up yet. -/
theorem ownership_handed_over : ∃ s, (machine Bool).run .new (handoverRun false true) = some s ∧
    s.enqueued = [true] ∧ s.enqueued = s.handed ++ s.waiters ∧ s.Owns true ∧
      s.word.taken = true ∧ s.failed = false := by
  refine ⟨_, rfl, rfl, ?_⟩
  obtain ⟨-, ⟨hq, -⟩, -, -, -, -, ht, hf⟩ := ownership
    (s := ((machine Bool).run .new (handoverRun false true)).get rfl)
    (.of_run (.init rfl) (Option.some_get rfl).symm)
  exact ⟨hq, .inr rfl, ht ⟨true, .inr rfl⟩, hf⟩

end InterruptibleMutex

end Serverbox
