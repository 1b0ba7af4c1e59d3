import Serverbox.Box.InterruptibleMutex
import Mathlib.Data.List.Nodup

/-!
# The invariant of the interruptible mutex

What holds at every program point of every thread which locks or unlocks an interruptible mutex.
The ownership is a token: it is with the owner, with a thread on its way into or out of the
mutex, or in the signal of the waiter it was handed to.

## Main definitions

* `InterruptibleMutex.State.Owns`: the thread has the ownership.
* `InterruptibleMutex.State.Chosen`: `Unlock` has chosen the waiter and it has not woken up yet.
* `InterruptibleMutex.Inv`: the invariant.

## Main results

* `InterruptibleMutex.inv`: the invariant holds in every reachable state.
-/

namespace Serverbox

namespace InterruptibleMutex

variable {Θ : Type*}

/-- The program points at which a thread holds the internal lock. -/
def Pc.inLock : Pc Θ → Bool
  | lockFetchOr | lockExchange | lockOwned | lockWakeup | lockAppend | lockRelease | unlockPop
  | unlockAnd _ | unlockSend _ | unlockPublish _ | unlockRelease => true
  | _ => false

/-- The program points at which a thread has the ownership. -/
def Pc.owns : Pc Θ → Bool
  | owner | lockOwned | lockWoken | unlockCas | unlockAcquire | unlockPop | unlockAnd _
  | unlockSend _ | unlockPublish _ => true
  | _ => false

/-- The thread found the mutex free under the internal lock and is about to take it. -/
def Pc.taking : Pc Θ → Bool
  | lockExchange => true
  | _ => false

/-- The thread has a signal of its own and has not joined the waiters yet. -/
def Pc.joining : Pc Θ → Bool
  | lockWakeup | lockAppend => true
  | _ => false

/-- The program points between a change of the waiters and the matching change of their flag. -/
def Pc.lags : Pc Θ → Bool
  | lockExchange | lockWakeup | lockAppend | unlockAnd _ => true
  | _ => false

/-- The thread is the only one to wait, or not even that. -/
def Pc.alone : Pc Θ → Bool
  | lockExchange | lockWakeup => true
  | _ => false

/-- `Unlock` has seen the flag of the waiters. -/
def Pc.contended : Pc Θ → Bool
  | unlockAcquire | unlockPop => true
  | _ => false

/-- The waiter popped by `Unlock` and not signaled yet. -/
def Pc.popped : Pc Θ → Option Θ
  | unlockAnd w | unlockSend w | unlockPublish w => some w
  | _ => none

/-- The state word of the signal of the popped waiter. -/
def Pc.sent : Pc Θ → Signal.Word
  | unlockPublish _ => .probe
  | _ => .empty

-- the classes compute at a program point which is known
attribute [simp] Pc.inLock.eq_1 Pc.inLock.eq_2 Pc.inLock.eq_3 Pc.inLock.eq_4 Pc.inLock.eq_5
  Pc.inLock.eq_6 Pc.inLock.eq_7 Pc.inLock.eq_8 Pc.inLock.eq_9 Pc.inLock.eq_10 Pc.inLock.eq_11
  Pc.inLock.eq_12 Pc.owns.eq_1 Pc.owns.eq_2 Pc.owns.eq_3 Pc.owns.eq_4 Pc.owns.eq_5 Pc.owns.eq_6
  Pc.owns.eq_7 Pc.owns.eq_8 Pc.owns.eq_9 Pc.owns.eq_10 Pc.taking.eq_1 Pc.taking.eq_2
  Pc.joining.eq_1 Pc.joining.eq_2 Pc.joining.eq_3 Pc.lags.eq_1 Pc.lags.eq_2 Pc.lags.eq_3
  Pc.lags.eq_4 Pc.lags.eq_5 Pc.alone.eq_1 Pc.alone.eq_2 Pc.alone.eq_3 Pc.contended.eq_1
  Pc.contended.eq_2 Pc.contended.eq_3 Pc.popped.eq_1 Pc.popped.eq_2 Pc.popped.eq_3 Pc.popped.eq_4
  Pc.sent.eq_1 Pc.sent.eq_2

section Classes

variable {p : Pc Θ}

theorem Pc.inLock_of_lags (h : p.lags = true) : p.inLock = true := by
  cases p <;> simp_all

theorem Pc.lags_of_alone (h : p.alone = true) : p.lags = true := by
  cases p <;> simp_all

theorem Pc.lags_of_taking (h : p.taking = true) : p.lags = true := by
  cases p <;> simp_all

theorem Pc.owns_of_contended (h : p.contended = true) : p.owns = true := by
  cases p <;> simp_all

theorem Pc.owns_of_popped {w : Θ} (h : p.popped = some w) : p.owns = true := by
  cases p <;> simp_all

end Classes

/-- The thread has the ownership, or it is in the signal on which the thread waits. -/
def State.Owns (s : State Θ) (θ : Θ) : Prop :=
  (s.pc θ).owns = true ∨ s.signal θ = .signaled

/-- `Unlock` has chosen the waiter, which has not woken up yet. -/
def State.Chosen (s : State Θ) (w : Θ) : Prop :=
  (∃ u, (s.pc u).popped = some w) ∨ s.signal w = .signaled

/-- The invariant of the interruptible mutex. -/
structure Inv (s : State Θ) : Prop where
  lock_eq : s.lock = .ofHolder s.lock.handle
  inLock_iff : ∀ θ, (s.pc θ).inLock = true ↔ s.lock.handle = some θ
  owns_unique : ∀ θ θ', s.Owns θ → s.Owns θ' → θ = θ'
  taken_iff : s.word.taken = true ↔ ∃ θ, s.Owns θ
  taking : ∀ θ, (s.pc θ).taking = true → s.word.taken = false
  taken_of_flag : s.word.hasWaiters = true → s.word.taken = true ∨ ∃ θ, (s.pc θ).taking = true
  waiters_nodup : s.waiters.Nodup
  waits : ∀ θ ∈ s.waiters, (s.pc θ = .lockRelease ∨ s.pc θ = .lockWait) ∧ s.signal θ = .empty
  lockRelease : ∀ θ, s.pc θ = .lockRelease → θ ∈ s.waiters
  lockWait : ∀ θ, s.pc θ = .lockWait → θ ∈ s.waiters ∨ s.Chosen θ
  popped : ∀ u w, (s.pc u).popped = some w →
    s.pc w = .lockWait ∧ w ∉ s.waiters ∧ s.signal w = (s.pc u).sent
  signaled : ∀ θ, s.signal θ = .signaled → s.pc θ = .lockWait
  joining : ∀ θ, (s.pc θ).joining = true → s.signal θ = .empty
  flag_of_lags : ∀ θ, (s.pc θ).lags = true → s.word.hasWaiters = true
  flag_iff : (∀ θ, (s.pc θ).lags = false) → (s.word.hasWaiters = true ↔ s.waiters ≠ [])
  alone : ∀ θ, (s.pc θ).alone = true → s.waiters = []
  contended : ∀ θ, (s.pc θ).contended = true → s.word.hasWaiters = true
  not_failed : s.failed = false
  enqueued_eq : s.enqueued = s.handed ++ s.waiters
  handed_of_chosen : ∀ w, s.Chosen w → s.handed = s.granted ++ [w]
  handed_eq : (∀ w, ¬ s.Chosen w) → s.handed = s.granted

variable [DecidableEq Θ]

section Updates

variable (s : State Θ) (θ : Θ) (p : Pc Θ) (x : Signal.Word)

@[simp, grind =] theorem State.goto_pc (θ' : Θ) :
    (s.goto θ p).pc θ' = if θ' = θ then p else s.pc θ' := by
  simp [State.goto, Function.update_apply]

@[simp, grind =] theorem State.goto_word : (s.goto θ p).word = s.word := rfl
@[simp, grind =] theorem State.goto_lock : (s.goto θ p).lock = s.lock := rfl
@[simp, grind =] theorem State.goto_waiters : (s.goto θ p).waiters = s.waiters := rfl
@[simp, grind =] theorem State.goto_signal : (s.goto θ p).signal = s.signal := rfl
@[simp, grind =] theorem State.goto_failed : (s.goto θ p).failed = s.failed := rfl
@[simp, grind =] theorem State.goto_enqueued : (s.goto θ p).enqueued = s.enqueued := rfl
@[simp, grind =] theorem State.goto_handed : (s.goto θ p).handed = s.handed := rfl
@[simp, grind =] theorem State.goto_granted : (s.goto θ p).granted = s.granted := rfl

@[simp, grind =] theorem State.setSignal_signal (θ' : Θ) :
    (s.setSignal θ x).signal θ' = if θ' = θ then x else s.signal θ' := by
  simp [State.setSignal, Function.update_apply]

@[simp, grind =] theorem State.setSignal_pc : (s.setSignal θ x).pc = s.pc := rfl
@[simp, grind =] theorem State.setSignal_word : (s.setSignal θ x).word = s.word := rfl
@[simp, grind =] theorem State.setSignal_lock : (s.setSignal θ x).lock = s.lock := rfl
@[simp, grind =] theorem State.setSignal_waiters : (s.setSignal θ x).waiters = s.waiters := rfl
@[simp, grind =] theorem State.setSignal_failed : (s.setSignal θ x).failed = s.failed := rfl
@[simp, grind =] theorem State.setSignal_enqueued : (s.setSignal θ x).enqueued = s.enqueued := rfl
@[simp, grind =] theorem State.setSignal_handed : (s.setSignal θ x).handed = s.handed := rfl
@[simp, grind =] theorem State.setSignal_granted : (s.setSignal θ x).granted = s.granted := rfl

end Updates

variable {s s' : State Θ} {θ : Θ} {p : Pc Θ}

/-- What holds of the new program point, and of those of the other threads. -/
theorem forall_goto (P : Θ → Pc Θ → Prop) (hp : P θ p) (h : ∀ θ' ≠ θ, P θ' (s.pc θ')) (θ' : Θ) :
    P θ' ((s.goto θ p).pc θ') := by
  rw [State.goto_pc]
  split
  · rename_i he
    exact he ▸ hp
  · exact h θ' ‹_›

theorem owns_goto (h : p.owns = (s.pc θ).owns) (θ' : Θ) :
    (s.goto θ p).Owns θ' ↔ s.Owns θ' := by
  grind -linarith [State.Owns]

theorem chosen_goto (h : p.popped = (s.pc θ).popped) (w : Θ) :
    (s.goto θ p).Chosen w ↔ s.Chosen w := by
  refine or_congr (exists_congr fun u => ?_) Iff.rfl
  grind -linarith

omit [DecidableEq Θ] in
theorem Inv.handle_ne (h : Inv s) (hp : (s.pc θ).inLock = false) : s.lock.handle ≠ some θ :=
  fun he => by
    rw [(h.inLock_iff θ).mpr he] at hp
    cases hp

/-- Taking the internal lock needs it free. -/
theorem Inv.acquire_eq_some (h : Inv s) (hp : (s.pc θ).inLock = false)
    (hs : acquire s θ p = some s') :
    s.lock.handle = none ∧ s' = { s with lock := .ofHolder (some θ) }.goto θ p := by
  have hne := h.handle_ne hp
  rw [acquire, h.lock_eq] at hs
  rcases hh : s.lock.handle with _ | θ'
  · rw [hh, Mutex.lock_ofHolder_none] at hs
    exact ⟨rfl, by simpa [State.assert] using hs.symm⟩
  · rw [hh] at hs hne
    rw [Mutex.lock_ofHolder_of_ne fun he => hne (congrArg some he)] at hs
    cases hs

/-- Releasing the internal lock by its holder. -/
theorem Inv.release_eq (h : Inv s) (hp : (s.pc θ).inLock = true) :
    release s θ p = { s with lock := .ofHolder none }.goto θ p := by
  rw [release, h.lock_eq, (h.inLock_iff θ).mp hp, Mutex.unlock_ofHolder]
  simp [State.assert]

/-- A thread which takes or releases the internal lock keeps the invariant. -/
theorem Inv.setLock (h : Inv s) {o : Option Θ}
    (hl : ∀ θ', (if θ' = θ then p else s.pc θ').inLock = true ↔ o = some θ')
    (ho : p.owns = (s.pc θ).owns)
    (ht : p.taking = (s.pc θ).taking) (hj : p.joining = (s.pc θ).joining)
    (hg : p.lags = (s.pc θ).lags) (ha : p.alone = true → (s.pc θ).alone = true)
    (hc : p.contended = true → s.word.hasWaiters = true) (hp : (s.pc θ).popped = none)
    (hp' : p.popped = none) (hw : p ≠ .lockRelease ∧ s.pc θ ≠ .lockWait)
    (hw' : s.pc θ = .lockRelease ↔ p = .lockWait) :
    Inv ({ s with lock := .ofHolder o }.goto θ p) := by
  have owns := owns_goto (s := { s with lock := .ofHolder o }) ho
  have chosen := chosen_goto (s := { s with lock := .ofHolder o }) (hp'.trans hp.symm)
  exact {
    lock_eq := by simp
    inLock_iff θ' := by simpa using hl θ'
    owns_unique θ₁ θ₂ := by
      rw [owns, owns]
      exact h.owns_unique θ₁ θ₂
    taken_iff := by
      simp only [owns]
      exact h.taken_iff
    taking θ' := by grind -linarith [h.taking θ']
    taken_of_flag hf := by
      refine (h.taken_of_flag hf).imp_right fun ⟨θ', hθ'⟩ => ⟨θ', ?_⟩
      grind -linarith
    waiters_nodup := h.waiters_nodup
    waits θ' := by grind -linarith [h.waits θ']
    lockRelease θ' := by grind -linarith [h.lockRelease θ']
    lockWait θ' hθ' := by
      rw [chosen]
      rcases eq_or_ne θ' θ with rfl | hne
      · exact .inl (h.lockRelease θ' (hw'.mpr (by simpa using hθ')))
      · exact h.lockWait θ' (by simpa [hne] using hθ')
    popped u w := by
      have := h.popped u w
      grind -linarith
    signaled θ' := by grind -linarith [h.signaled θ']
    joining θ' hθ' := h.joining θ' (by grind -linarith)
    flag_of_lags θ' := by grind -linarith [h.flag_of_lags θ']
    flag_iff hn := h.flag_iff fun θ' => by grind -linarith [hn θ']
    alone θ' hθ' := by
      rcases eq_or_ne θ' θ with rfl | hne
      · exact h.alone θ' (ha (by simpa using hθ'))
      · exact h.alone θ' (by simpa [hne] using hθ')
    contended θ' hθ' := by
      rcases eq_or_ne θ' θ with rfl | hne
      · exact hc (by simpa using hθ')
      · exact h.contended θ' (by simpa [hne] using hθ')
    not_failed := h.not_failed
    enqueued_eq := h.enqueued_eq
    handed_of_chosen w hw := h.handed_of_chosen w ((chosen w).mp hw)
    handed_eq hn := h.handed_eq fun w hw => hn w ((chosen w).mpr hw) }

/-- A thread which moves between program points of the same classes keeps the invariant. -/
theorem Inv.goto (h : Inv s) (hl : p.inLock = (s.pc θ).inLock) (ho : p.owns = (s.pc θ).owns)
    (ht : p.taking = (s.pc θ).taking) (hj : p.joining = (s.pc θ).joining)
    (hg : p.lags = (s.pc θ).lags) (ha : p.alone = true → (s.pc θ).alone = true)
    (hc : p.contended = true → s.word.hasWaiters = true) (hp : (s.pc θ).popped = none)
    (hp' : p.popped = none) (hw : s.pc θ ≠ .lockRelease ∧ s.pc θ ≠ .lockWait)
    (hw' : p ≠ .lockRelease ∧ p ≠ .lockWait) : Inv (s.goto θ p) := by
  have := h.setLock (o := s.lock.handle) (fun θ' => by grind -linarith [h.inLock_iff θ']) ho ht hj
    hg ha hc
    hp hp' ⟨hw'.1, hw.2⟩ (iff_of_false hw.1 hw'.2)
  rwa [← h.lock_eq] at this

omit [DecidableEq Θ] in
theorem Inv.inLock_unique (h : Inv s) {θ θ' : Θ} (hl : (s.pc θ).inLock = true)
    (hl' : (s.pc θ').inLock = true) : θ = θ' := by
  rw [h.inLock_iff] at hl hl'
  exact Option.some.inj (hl.symm.trans hl')

omit [DecidableEq Θ] in
/-- Nobody lags behind while the internal lock is with a thread which does not. -/
theorem Inv.not_lags (h : Inv s) (hl : (s.pc θ).inLock = true) (hg : (s.pc θ).lags = false)
    (θ' : Θ) : (s.pc θ').lags = false := by
  by_contra hne
  rw [Bool.not_eq_false] at hne
  rw [h.inLock_unique hl (Pc.inLock_of_lags hne), hne] at hg
  cases hg

omit [DecidableEq Θ] in
theorem Inv.not_owns (h : Inv s) (ht : s.word.taken = false) (θ : Θ) : ¬ s.Owns θ := fun ho => by
  rw [h.taken_iff.mpr ⟨θ, ho⟩] at ht
  cases ht

omit [DecidableEq Θ] in
/-- A waiter is chosen only while somebody has the ownership. -/
theorem State.Chosen.owns {w : Θ} (hw : s.Chosen w) : ∃ θ, s.Owns θ := by
  rcases hw with ⟨u, hu⟩ | hw
  · exact ⟨u, .inl (Pc.owns_of_popped hu)⟩
  · exact ⟨w, .inr hw⟩

omit [DecidableEq Θ] in
/-- The word of a mutex is zero only when nobody waits, and nobody is about to. -/
theorem Inv.nobody_waits (h : Inv s) (hw : s.word = ⟨false, false⟩) :
    s.waiters = [] ∧ (∀ θ, (s.pc θ).lags = false) ∧ (∀ θ, ¬ s.Owns θ) ∧ ∀ w, ¬ s.Chosen w := by
  have hlags : ∀ θ, (s.pc θ).lags = false := fun θ => by
    by_contra hne
    rw [Bool.not_eq_false] at hne
    simpa [hw] using h.flag_of_lags θ hne
  have howns := h.not_owns (by rw [hw])
  refine ⟨?_, hlags, howns, fun w hc => ?_⟩
  · by_contra hne
    simpa [hw] using (h.flag_iff hlags).mpr hne
  · obtain ⟨θ, hθ⟩ := hc.owns
    exact howns θ hθ

omit [DecidableEq Θ] in
/-- The chosen waiter is the one which the thread with the ownership hands it to, or that thread
itself. -/
theorem Inv.chosen_of_owns (h : Inv s) {w : Θ} (ho : (s.pc θ).owns = true) (hw : s.Chosen w) :
    (s.pc θ).popped = some w := by
  rcases hw with ⟨u, hu⟩ | hw
  · rwa [h.owns_unique θ u (.inl ho) (.inl (Pc.owns_of_popped hu))]
  · have he := h.owns_unique θ w (.inl ho) (.inr hw)
    rw [he, h.signaled w hw] at ho
    simp at ho

/-- The exchange of `TryLock` keeps the invariant. -/
theorem Inv.tryLock_free (h : Inv s) (hw : s.word = ⟨false, false⟩)
    (hl : (s.pc θ).inLock = false) : Inv ({ s with word := ⟨true, false⟩ }.goto θ .owner) := by
  obtain ⟨hwait, hlags, howns, hchosen⟩ := h.nobody_waits hw
  have hsig : ∀ θ', s.signal θ' ≠ .signaled := fun θ' hs => howns θ' (.inr hs)
  have owns : ∀ θ', ({ s with word := ⟨true, false⟩ }.goto θ .owner).Owns θ' ↔ θ' = θ := by
    intro θ'
    have := howns θ'
    grind -linarith [State.Owns, Pc.owns]
  have chosen : ∀ w, ¬ ({ s with word := ⟨true, false⟩ }.goto θ .owner).Chosen w := fun w hc => by
    obtain ⟨u, hu⟩ | hc := hc
    · exact hchosen w (.inl ⟨u, by grind -linarith [Pc.popped]⟩)
    · exact hsig w hc
  exact {
    lock_eq := h.lock_eq
    inLock_iff := forall_goto (fun θ' q => q.inLock = true ↔ s.lock.handle = some θ')
      (by simp [← h.inLock_iff, hl]) fun θ' _ => h.inLock_iff θ'
    owns_unique θ₁ θ₂ h₁ h₂ := ((owns θ₁).mp h₁).trans ((owns θ₂).mp h₂).symm
    taken_iff := by simp [owns]
    taking := forall_goto (fun _ q => q.taking = true → _) (by simp) fun θ' _ hq =>
      absurd (hlags θ') (by simp [Pc.lags_of_taking hq])
    taken_of_flag _ := .inl rfl
    waiters_nodup := h.waiters_nodup
    waits θ' := by simp [hwait]
    lockRelease := forall_goto (fun θ' q => q = .lockRelease → _) (by simp) fun θ' _ =>
      h.lockRelease θ'
    lockWait := forall_goto (fun θ' q => q = .lockWait → _) (by simp) fun θ' _ hq => by
      simpa [hwait, hchosen] using h.lockWait θ' hq
    popped u w hu := absurd (.inl ⟨u, hu⟩) (chosen w)
    signaled θ' hs := absurd hs (hsig θ')
    joining := forall_goto (fun _ q => q.joining = true → _) (by simp) fun θ' _ =>
      h.joining θ'
    flag_of_lags := forall_goto (fun _ q => q.lags = true → _) (by simp) fun θ' _ hq =>
      absurd (hlags θ') (by simp [hq])
    flag_iff _ := by simp [hwait]
    alone _ _ := hwait
    contended := forall_goto (fun _ q => q.contended = true → _) (by simp) fun θ' _ hq =>
      absurd (.inl (Pc.owns_of_contended hq)) (howns θ')
    not_failed := h.not_failed
    enqueued_eq := h.enqueued_eq
    handed_of_chosen w hw := absurd hw (chosen w)
    handed_eq _ := h.handed_eq hchosen }

/-- `Lock` announces itself as a waiter of a mutex which turns out to be free. -/
theorem Inv.lockFetchOr_free (h : Inv s) (hp : s.pc θ = .lockFetchOr)
    (ht : s.word.taken = false) : Inv (lockFetchOr s θ) := by
  have hlags := h.not_lags (θ := θ) (by simp [hp]) (by simp [hp])
  have hw : s.word = ⟨false, false⟩ := by
    rcases hf : s.word.hasWaiters with _ | _
    · cases hw : s.word
      simp_all
    · rcases h.taken_of_flag hf with ht' | ⟨θ', hθ'⟩
      · simp [ht] at ht'
      · simpa [hlags θ'] using Pc.lags_of_taking hθ'
  obtain ⟨hwait, -, howns, hchosen⟩ := h.nobody_waits hw
  have hl : s.lock.handle = some θ := (h.inLock_iff θ).mp (by simp [hp])
  have heq : lockFetchOr s θ = { s with word := ⟨false, true⟩ }.goto θ .lockExchange := by
    simp [lockFetchOr, hw, hwait, State.assert]
  rw [heq]
  have owns := owns_goto (s := { s with word := ⟨false, true⟩ }) (θ := θ) (p := .lockExchange)
    (by simp [hp])
  have chosen := chosen_goto (s := { s with word := ⟨false, true⟩ }) (θ := θ) (p := .lockExchange)
    (by simp [hp])
  exact {
    lock_eq := h.lock_eq
    inLock_iff := forall_goto (fun θ' q => q.inLock = true ↔ s.lock.handle = some θ')
      (by simp [hl]) fun θ' _ => h.inLock_iff θ'
    owns_unique θ₁ _ h₁ := absurd ((owns θ₁).mp h₁) (howns θ₁)
    taken_iff := by
      simp only [State.goto_word, Bool.false_eq_true, owns, false_iff, not_exists]
      exact howns
    taking _ _ := rfl
    taken_of_flag _ := .inr ⟨θ, by simp⟩
    waiters_nodup := h.waiters_nodup
    waits θ' := by simp [hwait]
    lockRelease := forall_goto (fun θ' q => q = .lockRelease → _) (by simp) fun θ' _ =>
      h.lockRelease θ'
    lockWait := forall_goto (fun θ' q => q = .lockWait → _) (by simp) fun θ' _ hq => by
      simpa [hwait, hchosen] using h.lockWait θ' hq
    popped u w hu := absurd ((chosen w).mp (.inl ⟨u, hu⟩)) (hchosen w)
    signaled θ' hs := absurd (.inr hs) (howns θ')
    joining := forall_goto (fun _ q => q.joining = true → _) (by simp) fun θ' _ =>
      h.joining θ'
    flag_of_lags _ _ := rfl
    flag_iff hn := absurd (hn θ) (by simp)
    alone _ _ := hwait
    contended _ _ := rfl
    not_failed := h.not_failed
    enqueued_eq := h.enqueued_eq
    handed_of_chosen w hw := absurd ((chosen w).mp hw) (hchosen w)
    handed_eq _ := h.handed_eq hchosen }

/-- `Lock` announces itself as a waiter of a mutex which is taken. -/
theorem Inv.lockFetchOr_taken (h : Inv s) (hp : s.pc θ = .lockFetchOr)
    (ht : s.word.taken = true) : Inv (lockFetchOr s θ) := by
  have hlags := h.not_lags (θ := θ) (by simp [hp]) (by simp [hp])
  have hl : s.lock.handle = some θ := (h.inLock_iff θ).mp (by simp [hp])
  have hθ : θ ∉ s.waiters := fun hm => by simpa [hp] using (h.waits θ hm).1
  have hsig : s.signal θ ≠ .signaled := fun hs => by simpa [hp] using h.signaled θ hs
  have hpop : ∀ u w, (s.pc u).popped = some w → w ≠ θ := fun u w hu he => by
    simpa [he, hp] using (h.popped u w hu).1
  obtain ⟨q, hq, hjoin, halone⟩ : ∃ q, lockFetchOr s θ =
      ({ s with word := ⟨true, true⟩ }.setSignal θ .empty).goto θ q ∧
      (q = .lockWakeup ∨ q = .lockAppend) ∧ (q.alone = true → s.waiters = []) := by
    refine ⟨if s.waiters.isEmpty then .lockWakeup else .lockAppend, by simp [lockFetchOr, ht],
      ?_, ?_⟩
    · split <;> simp
    · split <;> simp_all
  rw [hq]
  have owns : ∀ θ', (({ s with word := ⟨true, true⟩ }.setSignal θ .empty).goto θ q).Owns θ' ↔
      s.Owns θ' := by
    intro θ'
    rcases eq_or_ne θ' θ with rfl | hne
    · rcases hjoin with rfl | rfl <;> simp [State.Owns, hp, hsig]
    · simp [State.Owns, hne]
  have chosen : ∀ w, (({ s with word := ⟨true, true⟩ }.setSignal θ .empty).goto θ q).Chosen w ↔
      s.Chosen w := by
    intro w
    refine or_congr (exists_congr fun u => ?_) ?_
    · rcases eq_or_ne u θ with rfl | hne
      · rcases hjoin with rfl | rfl <;> simp [hp]
      · simp [hne]
    · rcases eq_or_ne w θ with rfl | hne
      · simp [hsig]
      · simp [hne]
  exact {
    lock_eq := h.lock_eq
    inLock_iff := forall_goto (fun θ' q => q.inLock = true ↔ s.lock.handle = some θ')
      (by rcases hjoin with rfl | rfl <;> simp [hl]) fun θ' _ => h.inLock_iff θ'
    owns_unique θ₁ θ₂ h₁ h₂ := h.owns_unique θ₁ θ₂ ((owns θ₁).mp h₁) ((owns θ₂).mp h₂)
    taken_iff := by
      simp only [owns, ← h.taken_iff, ht]
      simp
    taking := forall_goto (fun _ q => q.taking = true → _) (by rcases hjoin with rfl | rfl <;> simp)
      fun θ' _ hq => absurd (hlags θ') (by simpa using Pc.lags_of_taking hq)
    taken_of_flag _ := .inl rfl
    waiters_nodup := h.waiters_nodup
    waits θ' hm := by
      have hne : θ' ≠ θ := fun he => hθ (he ▸ hm)
      simpa [hne] using h.waits θ' hm
    lockRelease := forall_goto (fun θ' q => q = .lockRelease → _)
      (by rcases hjoin with rfl | rfl <;> simp) fun θ' _ => h.lockRelease θ'
    lockWait := forall_goto (fun θ' q => q = .lockWait → _)
      (by rcases hjoin with rfl | rfl <;> simp) fun θ' _ hq => by
      simpa [chosen] using h.lockWait θ' hq
    popped u w hu := by
      have hu' : u ≠ θ := by
        rintro rfl
        rcases hjoin with rfl | rfl <;> simp at hu
      have hu : (s.pc u).popped = some w := by simpa [hu'] using hu
      simpa [hu', hpop u w hu] using h.popped u w hu
    signaled θ' hs := by
      have hne : θ' ≠ θ := by
        rintro rfl
        simp at hs
      simpa [hne] using h.signaled θ' (by simpa [hne] using hs)
    joining θ' hθ' := by
      rcases eq_or_ne θ' θ with rfl | hne
      · simp
      · simpa [hne] using h.joining θ' (by simpa [hne] using hθ')
    flag_of_lags _ _ := rfl
    flag_iff hn := absurd (hn θ) (by rcases hjoin with rfl | rfl <;> simp)
    alone := forall_goto (fun _ q => q.alone = true → _) halone fun θ' _ hq =>
      absurd (hlags θ') (by simpa using Pc.lags_of_alone hq)
    contended _ _ := rfl
    not_failed := h.not_failed
    enqueued_eq := h.enqueued_eq
    handed_of_chosen w hw := h.handed_of_chosen w ((chosen w).mp hw)
    handed_eq hn := h.handed_eq fun w hw => hn w ((chosen w).mpr hw) }

/-- `Lock` takes the mutex it found free. -/
theorem Inv.lockExchange (h : Inv s) (hp : s.pc θ = .lockExchange) : Inv (lockExchange s θ) := by
  have hl : s.lock.handle = some θ := (h.inLock_iff θ).mp (by simp [hp])
  have ht : s.word.taken = false := h.taking θ (by simp [hp])
  have hw : s.word = ⟨false, true⟩ := by
    have := h.flag_of_lags θ (by simp [hp])
    cases hw : s.word
    simp_all
  have hwait : s.waiters = [] := h.alone θ (by simp [hp])
  have howns := h.not_owns ht
  have hchosen : ∀ w, ¬ s.Chosen w := fun w hc => by
    obtain ⟨θ', hθ'⟩ := hc.owns
    exact howns θ' hθ'
  have hlags : ∀ θ' ≠ θ, (s.pc θ').lags = false := fun θ' hne => by
    by_contra hg
    rw [Bool.not_eq_false] at hg
    exact hne (h.inLock_unique (Pc.inLock_of_lags hg) (by simp [hp]))
  have heq : Serverbox.InterruptibleMutex.lockExchange s θ =
      { s with word := ⟨true, false⟩ }.goto θ .lockOwned := by
    simp [Serverbox.InterruptibleMutex.lockExchange, hw, State.assert]
  rw [heq]
  have owns : ∀ θ', ({ s with word := ⟨true, false⟩ }.goto θ .lockOwned).Owns θ' ↔ θ' = θ := by
    intro θ'
    have := howns θ'
    grind -linarith [State.Owns, Pc.owns]
  have chosen := chosen_goto (s := { s with word := ⟨true, false⟩ }) (θ := θ) (p := .lockOwned)
    (by simp [hp])
  exact {
    lock_eq := h.lock_eq
    inLock_iff := forall_goto (fun θ' q => q.inLock = true ↔ s.lock.handle = some θ')
      (by simp [hl]) fun θ' _ => h.inLock_iff θ'
    owns_unique θ₁ θ₂ h₁ h₂ := ((owns θ₁).mp h₁).trans ((owns θ₂).mp h₂).symm
    taken_iff := by simp [owns]
    taking := forall_goto (fun _ q => q.taking = true → _) (by simp) fun θ' hne hq =>
      absurd (hlags θ' hne) (by simp [Pc.lags_of_taking hq])
    taken_of_flag _ := .inl rfl
    waiters_nodup := h.waiters_nodup
    waits θ' := by simp [hwait]
    lockRelease := forall_goto (fun θ' q => q = .lockRelease → _) (by simp) fun θ' _ =>
      h.lockRelease θ'
    lockWait := forall_goto (fun θ' q => q = .lockWait → _) (by simp) fun θ' _ hq => by
      simpa [hwait, hchosen] using h.lockWait θ' hq
    popped u w hu := absurd ((chosen w).mp (.inl ⟨u, hu⟩)) (hchosen w)
    signaled θ' hs := absurd (.inr hs) (howns θ')
    joining := forall_goto (fun _ q => q.joining = true → _) (by simp) fun θ' _ =>
      h.joining θ'
    flag_of_lags := forall_goto (fun _ q => q.lags = true → _) (by simp) fun θ' hne hq =>
      absurd (hlags θ' hne) (by simp [hq])
    flag_iff _ := by simp [hwait]
    alone _ _ := hwait
    contended := forall_goto (fun _ q => q.contended = true → _) (by simp) fun θ' _ hq =>
      absurd (.inl (Pc.owns_of_contended hq)) (howns θ')
    not_failed := h.not_failed
    enqueued_eq := h.enqueued_eq
    handed_of_chosen w hw := absurd ((chosen w).mp hw) (hchosen w)
    handed_eq _ := h.handed_eq hchosen }

/-- `Lock` joins the waiters. -/
theorem Inv.lockAppend (h : Inv s) (hp : s.pc θ = .lockAppend) : Inv (lockAppend s θ) := by
  have hl : s.lock.handle = some θ := (h.inLock_iff θ).mp (by simp [hp])
  have hf : s.word.hasWaiters = true := h.flag_of_lags θ (by simp [hp])
  have hθ : θ ∉ s.waiters := fun hm => by simpa [hp] using (h.waits θ hm).1
  have hsig : s.signal θ = .empty := h.joining θ (by simp [hp])
  have hlags : ∀ θ' ≠ θ, (s.pc θ').lags = false := fun θ' hne => by
    by_contra hg
    rw [Bool.not_eq_false] at hg
    exact hne (h.inLock_unique (Pc.inLock_of_lags hg) (by simp [hp]))
  have ht : s.word.taken = true := by
    rcases h.taken_of_flag hf with ht | ⟨θ', hθ'⟩
    · exact ht
    · rcases eq_or_ne θ' θ with rfl | hne
      · simp [hp] at hθ'
      · simpa [hlags θ' hne] using Pc.lags_of_taking hθ'
  unfold Serverbox.InterruptibleMutex.lockAppend
  let t : State Θ := { s with waiters := s.waiters ++ [θ], enqueued := s.enqueued ++ [θ] }
  have owns : ∀ θ', (t.goto θ .lockRelease).Owns θ' ↔ s.Owns θ' :=
    owns_goto (s := t) (by simp [t, hp])
  have chosen : ∀ w, (t.goto θ .lockRelease).Chosen w ↔ s.Chosen w :=
    chosen_goto (s := t) (by simp [t, hp])
  exact {
    lock_eq := h.lock_eq
    inLock_iff := forall_goto (fun θ' q => q.inLock = true ↔ s.lock.handle = some θ')
      (by simp [hl]) fun θ' _ => h.inLock_iff θ'
    owns_unique θ₁ θ₂ h₁ h₂ := h.owns_unique θ₁ θ₂ ((owns θ₁).mp h₁) ((owns θ₂).mp h₂)
    taken_iff := h.taken_iff.trans (exists_congr fun θ' => (owns θ').symm)
    taking := forall_goto (fun _ q => q.taking = true → _) (by simp) fun θ' _ => h.taking θ'
    taken_of_flag _ := .inl ht
    waiters_nodup := by
      simpa [List.nodup_append] using ⟨h.waiters_nodup, fun a ha he => hθ (he ▸ ha)⟩
    waits θ' hm := by
      rcases eq_or_ne θ' θ with rfl | hne
      · simp [hsig]
      · simpa [hne] using h.waits θ' (by simpa [hne] using hm)
    lockRelease := forall_goto (fun θ' q => q = .lockRelease → _) (by simp) fun θ' _ hq => by
      simpa using .inl (h.lockRelease θ' hq)
    lockWait := forall_goto (fun θ' q => q = .lockWait → _) (by simp) fun θ' _ hq =>
      (h.lockWait θ' hq).imp (fun hm => by simpa using .inl hm) (chosen θ').mpr
    popped u w hu := by
      have hu' : u ≠ θ := by
        rintro rfl
        simp at hu
      obtain ⟨hw, hmem, hs⟩ := h.popped u w (by simpa [hu'] using hu)
      have hne : w ≠ θ := by
        rintro rfl
        simp [hp] at hw
      simpa [hu', hne] using ⟨hw, hmem, hs⟩
    signaled := by
      intro θ' hs
      have hne : θ' ≠ θ := by
        rintro rfl
        simp [hsig] at hs
      simpa [hne] using h.signaled θ' hs
    joining := forall_goto (fun _ q => q.joining = true → _) (by simp) fun θ' _ => h.joining θ'
    flag_of_lags _ _ := hf
    flag_iff _ := by simp [hf]
    alone := forall_goto (fun _ q => q.alone = true → _) (by simp) fun θ' hne hq =>
      absurd (hlags θ' hne) (by simpa using Pc.lags_of_alone hq)
    contended _ _ := hf
    not_failed := h.not_failed
    enqueued_eq := by simp [h.enqueued_eq]
    handed_of_chosen w hw := h.handed_of_chosen w ((chosen w).mp hw)
    handed_eq hn := h.handed_eq fun w hw => hn w ((chosen w).mpr hw) }

/-- A waiter wakes up as the owner. -/
theorem Inv.lockWait_signaled (h : Inv s) (hs : s.signal θ = .signaled) :
    Inv (({ s with granted := s.granted ++ [θ] }.setSignal θ .empty).goto θ .lockWoken) := by
  have hp : s.pc θ = .lockWait := h.signaled θ hs
  have hθ : θ ∉ s.waiters := fun hm => by simpa [hs] using (h.waits θ hm).2
  have hsame : ∀ θ', s.Owns θ' → θ' = θ := fun θ' ho => h.owns_unique θ' θ ho (.inr hs)
  have hpop : ∀ u, (s.pc u).popped = none := fun u => by
    by_contra hu
    obtain ⟨w, hw⟩ := Option.ne_none_iff_exists'.mp hu
    rw [hsame u (.inl (Pc.owns_of_popped hw)), hp] at hw
    simp at hw
  have hsig : ∀ w ≠ θ, s.signal w ≠ .signaled := fun w hne hw => hne (hsame w (.inr hw))
  let t : State Θ := { s with granted := s.granted ++ [θ] }.setSignal θ .empty
  have owns : ∀ θ', (t.goto θ .lockWoken).Owns θ' ↔ θ' = θ := by
    intro θ'
    rcases eq_or_ne θ' θ with rfl | hne
    · simp [State.Owns]
    · have : ¬ s.Owns θ' := fun ho => hne (hsame θ' ho)
      simpa [State.Owns, hne, t] using this
  have chosen : ∀ w, ¬ (t.goto θ .lockWoken).Chosen w := by
    rintro w (⟨u, hu⟩ | hw)
    · rcases eq_or_ne u θ with rfl | hne
      · simp at hu
      · simp [hne, t, hpop] at hu
    · rcases eq_or_ne w θ with rfl | hne
      · simp [t] at hw
      · exact hsig w hne (by simpa [t, hne] using hw)
  exact {
    lock_eq := h.lock_eq
    inLock_iff := forall_goto (fun θ' q => q.inLock = true ↔ s.lock.handle = some θ')
      (by simp [← h.inLock_iff, hp]) fun θ' _ => h.inLock_iff θ'
    owns_unique θ₁ θ₂ h₁ h₂ := ((owns θ₁).mp h₁).trans ((owns θ₂).mp h₂).symm
    taken_iff := by
      have : s.word.taken = true := h.taken_iff.mpr ⟨θ, .inr hs⟩
      simp [t, owns, this]
    taking := forall_goto (fun _ q => q.taking = true → _) (by simp) fun θ' _ => h.taking θ'
    taken_of_flag _ := .inl (h.taken_iff.mpr ⟨θ, .inr hs⟩)
    waiters_nodup := h.waiters_nodup
    waits θ' hm := by
      have hne : θ' ≠ θ := fun he => hθ (he ▸ hm)
      simpa [hne, t] using h.waits θ' hm
    lockRelease := forall_goto (fun θ' q => q = .lockRelease → _) (by simp) fun θ' _ =>
      h.lockRelease θ'
    lockWait := forall_goto (fun θ' q => q = .lockWait → _) (by simp) fun θ' hne hq => by
      rcases h.lockWait θ' hq with hm | ⟨u, hu⟩ | hw
      · exact .inl hm
      · simp [hpop u] at hu
      · exact absurd hw (hsig θ' hne)
    popped u w hu := absurd (.inl ⟨u, hu⟩) (chosen w)
    signaled θ' hw := absurd (.inr hw) (chosen θ')
    joining := fun θ' hθ' => by
      rcases eq_or_ne θ' θ with rfl | hne
      · simp at hθ'
      · simpa [hne, t] using h.joining θ' (by simpa [hne, t] using hθ')
    flag_of_lags := forall_goto (fun _ q => q.lags = true → _) (by simp) fun θ' _ =>
      h.flag_of_lags θ'
    flag_iff hn := h.flag_iff fun θ' => by
      rcases eq_or_ne θ' θ with rfl | hne
      · simp [hp]
      · simpa [hne, t] using hn θ'
    alone := forall_goto (fun _ q => q.alone = true → _) (by simp) fun θ' _ => h.alone θ'
    contended := forall_goto (fun _ q => q.contended = true → _) (by simp) fun θ' _ =>
      h.contended θ'
    not_failed := h.not_failed
    enqueued_eq := h.enqueued_eq
    handed_of_chosen w hw := absurd hw (chosen w)
    handed_eq _ := h.handed_of_chosen θ (.inr hs) }

/-- `Unlock` frees a mutex nobody waits for. -/
theorem Inv.unlockCas_free (h : Inv s) (hp : s.pc θ = .unlockCas) (hw : s.word = ⟨true, false⟩) :
    Inv ({ s with word := ⟨false, false⟩ }.goto θ .idle) := by
  have hθ : s.Owns θ := .inl (by simp [hp])
  have hchosen : ∀ w, ¬ s.Chosen w := fun w hc => by
    have := h.chosen_of_owns (θ := θ) (by simp [hp]) hc
    simp [hp] at this
  have hlags : ∀ θ', (s.pc θ').lags = false := fun θ' => by
    by_contra hg
    rw [Bool.not_eq_false] at hg
    simpa [hw] using h.flag_of_lags θ' hg
  have hwait : s.waiters = [] := by
    by_contra hne
    simpa [hw] using (h.flag_iff hlags).mpr hne
  have howns : ∀ θ' ≠ θ, ¬ s.Owns θ' := fun θ' hne ho => hne (h.owns_unique θ' θ ho hθ)
  have hsig : ∀ θ', s.signal θ' ≠ .signaled := fun θ' hs => by
    have he := h.owns_unique θ' θ (.inr hs) hθ
    simpa [he, hp] using h.signaled θ' hs
  have owns : ∀ θ', ¬ ({ s with word := ⟨false, false⟩ }.goto θ .idle).Owns θ' := by
    rintro θ' (ho | ho)
    · rcases eq_or_ne θ' θ with rfl | hne
      · simp at ho
      · exact howns θ' hne (.inl (by simpa [hne] using ho))
    · exact hsig θ' ho
  have chosen := chosen_goto (s := { s with word := ⟨false, false⟩ }) (θ := θ) (p := .idle)
    (by simp [hp])
  exact {
    lock_eq := h.lock_eq
    inLock_iff := forall_goto (fun θ' q => q.inLock = true ↔ s.lock.handle = some θ')
      (by simp [← h.inLock_iff, hp]) fun θ' _ => h.inLock_iff θ'
    owns_unique θ₁ _ h₁ := absurd h₁ (owns θ₁)
    taken_iff := by simp [owns]
    taking _ _ := rfl
    taken_of_flag hf := by simp at hf
    waiters_nodup := h.waiters_nodup
    waits θ' := by simp [hwait]
    lockRelease := forall_goto (fun θ' q => q = .lockRelease → _) (by simp) fun θ' _ =>
      h.lockRelease θ'
    lockWait := forall_goto (fun θ' q => q = .lockWait → _) (by simp) fun θ' _ hq => by
      simpa [hwait, hchosen] using h.lockWait θ' hq
    popped u w hu := absurd ((chosen w).mp (.inl ⟨u, hu⟩)) (hchosen w)
    signaled θ' hs := absurd hs (hsig θ')
    joining := forall_goto (fun _ q => q.joining = true → _) (by simp) fun θ' _ => h.joining θ'
    flag_of_lags := forall_goto (fun _ q => q.lags = true → _) (by simp) fun θ' _ hq =>
      absurd ((hlags θ').symm.trans hq) Bool.false_ne_true
    flag_iff _ := by simp [hwait]
    alone _ _ := hwait
    contended := forall_goto (fun _ q => q.contended = true → _) (by simp) fun θ' hne hq =>
      absurd (.inl (Pc.owns_of_contended hq)) (howns θ' hne)
    not_failed := h.not_failed
    enqueued_eq := h.enqueued_eq
    handed_of_chosen w hw := absurd ((chosen w).mp hw) (hchosen w)
    handed_eq _ := h.handed_eq hchosen }

/-- `Unlock` pops the first waiter. -/
theorem Inv.unlockPop_cons (h : Inv s) (hp : s.pc θ = .unlockPop) {w : Θ} {ws : List Θ}
    (hw : s.waiters = w :: ws) :
    Inv ({ s with waiters := ws, handed := s.handed ++ [w] }.goto θ (.unlockAnd w)) := by
  have hl : s.lock.handle = some θ := (h.inLock_iff θ).mp (by simp [hp])
  have hf : s.word.hasWaiters = true := h.contended θ (by simp [hp])
  have hlags := h.not_lags (θ := θ) (by simp [hp]) (by simp [hp])
  have hchosen : ∀ w, ¬ s.Chosen w := fun w hc => by
    have := h.chosen_of_owns (θ := θ) (by simp [hp]) hc
    simp [hp] at this
  obtain ⟨hnotin, hnodup⟩ := List.nodup_cons.mp (hw ▸ h.waiters_nodup)
  have hmem : w ∈ s.waiters := by simp [hw]
  have hwlock : s.pc w = .lockWait := by
    refine (h.waits w hmem).1.resolve_left fun hr => ?_
    have he : w = θ := h.inLock_unique (by simp [hr]) (by simp [hp])
    simp [he, hp] at hr
  have hwθ : w ≠ θ := by
    rintro rfl
    simp [hp] at hwlock
  let t : State Θ := { s with waiters := ws, handed := s.handed ++ [w] }
  have owns : ∀ θ', (t.goto θ (.unlockAnd w)).Owns θ' ↔ s.Owns θ' :=
    owns_goto (s := t) (by simp [t, hp])
  have chosen : ∀ w', (t.goto θ (.unlockAnd w)).Chosen w' ↔ w' = w := by
    intro w'
    constructor
    · rintro (⟨u, hu⟩ | hs)
      · rcases eq_or_ne u θ with rfl | hne
        · simpa [eq_comm] using hu
        · exact absurd (.inl ⟨u, by simpa [hne, t] using hu⟩) (hchosen w')
      · exact absurd (.inr hs) (hchosen w')
    · rintro rfl
      exact .inl ⟨θ, by simp⟩
  exact {
    lock_eq := h.lock_eq
    inLock_iff := forall_goto (fun θ' q => q.inLock = true ↔ s.lock.handle = some θ')
      (by simp [hl]) fun θ' _ => h.inLock_iff θ'
    owns_unique θ₁ θ₂ h₁ h₂ := h.owns_unique θ₁ θ₂ ((owns θ₁).mp h₁) ((owns θ₂).mp h₂)
    taken_iff := h.taken_iff.trans (exists_congr fun θ' => (owns θ').symm)
    taking := forall_goto (fun _ q => q.taking = true → _) (by simp) fun θ' _ => h.taking θ'
    taken_of_flag _ := .inl (h.taken_iff.mpr ⟨θ, .inl (by simp [hp])⟩)
    waiters_nodup := hnodup
    waits θ' hm := by
      obtain ⟨hpc, hs⟩ := h.waits θ' (by simpa [hw] using .inr hm)
      have hne : θ' ≠ θ := by
        rintro rfl
        simp [hp] at hpc
      simpa [hne, t] using ⟨hpc, hs⟩
    lockRelease := forall_goto (fun θ' q => q = .lockRelease → _) (by simp) fun θ' _ hq => by
      have hm := h.lockRelease θ' hq
      rw [hw, List.mem_cons] at hm
      refine hm.resolve_left ?_
      rintro rfl
      simp [hwlock] at hq
    lockWait := forall_goto (fun θ' q => q = .lockWait → _) (by simp) fun θ' _ hq => by
      rw [chosen]
      have hm := (h.lockWait θ' hq).resolve_right (hchosen θ')
      rw [hw, List.mem_cons] at hm
      exact hm.symm
    popped u w' hu := by
      obtain rfl : w' = w := (chosen w').mp (.inl ⟨u, hu⟩)
      have hu : u = θ := by
        by_contra hne
        exact hchosen w' (.inl ⟨u, by simpa [hne, t] using hu⟩)
      simpa [hu, hwθ, hwlock, t] using ⟨hnotin, (h.waits w' hmem).2⟩
    signaled θ' hs := absurd (.inr hs) (hchosen θ')
    joining := forall_goto (fun _ q => q.joining = true → _) (by simp) fun θ' _ => h.joining θ'
    flag_of_lags _ _ := hf
    flag_iff hn := absurd (hn θ) (by simp)
    alone := forall_goto (fun _ q => q.alone = true → _) (by simp) fun θ' _ hq =>
      absurd ((hlags θ').symm.trans (Pc.lags_of_alone hq)) Bool.false_ne_true
    contended _ _ := hf
    not_failed := h.not_failed
    enqueued_eq := by simp [h.enqueued_eq, hw]
    handed_of_chosen w' hc := by
      rw [(chosen w').mp hc]
      simpa [t] using h.handed_eq hchosen
    handed_eq hn := absurd ((chosen w).mpr rfl) (hn w) }

/-- `Unlock` brings the flag of the waiters up to date. -/
theorem Inv.unlockAnd (h : Inv s) {w : Θ} (hp : s.pc θ = .unlockAnd w) :
    Inv (unlockAnd s θ w) := by
  have hl : s.lock.handle = some θ := (h.inLock_iff θ).mp (by simp [hp])
  have hf : s.word.hasWaiters = true := h.flag_of_lags θ (by simp [hp])
  have ht : s.word.taken = true := h.taken_iff.mpr ⟨θ, .inl (by simp [hp])⟩
  have hlags : ∀ θ' ≠ θ, (s.pc θ').lags = false := fun θ' hne => by
    by_contra hg
    rw [Bool.not_eq_false] at hg
    exact hne (h.inLock_unique (Pc.inLock_of_lags hg) (by simp [hp]))
  have heq : Serverbox.InterruptibleMutex.unlockAnd s θ w =
      { s with word := ⟨true, !s.waiters.isEmpty⟩ }.goto θ (.unlockSend w) := by
    rcases hws : s.waiters with _ | ⟨w', ws⟩
    · simp [Serverbox.InterruptibleMutex.unlockAnd, hws, ht, hf, State.assert]
    · have : s.word = ⟨true, true⟩ := by
        cases hw : s.word
        simp_all
      simp [Serverbox.InterruptibleMutex.unlockAnd, hws, this, State.assert]
  rw [heq]
  let t : State Θ := { s with word := ⟨true, !s.waiters.isEmpty⟩ }
  have owns : ∀ θ', (t.goto θ (.unlockSend w)).Owns θ' ↔ s.Owns θ' :=
    owns_goto (s := t) (by simp [t, hp])
  have chosen : ∀ w', (t.goto θ (.unlockSend w)).Chosen w' ↔ s.Chosen w' :=
    chosen_goto (s := t) (by simp [t, hp])
  exact {
    lock_eq := h.lock_eq
    inLock_iff := forall_goto (fun θ' q => q.inLock = true ↔ s.lock.handle = some θ')
      (by simp [hl]) fun θ' _ => h.inLock_iff θ'
    owns_unique θ₁ θ₂ h₁ h₂ := h.owns_unique θ₁ θ₂ ((owns θ₁).mp h₁) ((owns θ₂).mp h₂)
    taken_iff := iff_of_true rfl ⟨θ, (owns θ).mpr (.inl (by simp [hp]))⟩
    taking := forall_goto (fun _ q => q.taking = true → _) (by simp) fun θ' hne hq =>
      absurd ((hlags θ' hne).symm.trans (Pc.lags_of_taking hq)) Bool.false_ne_true
    taken_of_flag _ := .inl rfl
    waiters_nodup := h.waiters_nodup
    waits θ' hm := by
      obtain ⟨hpc, hs⟩ := h.waits θ' hm
      have hne : θ' ≠ θ := by
        rintro rfl
        simp [hp] at hpc
      simpa [hne, t] using ⟨hpc, hs⟩
    lockRelease := forall_goto (fun θ' q => q = .lockRelease → _) (by simp) fun θ' _ =>
      h.lockRelease θ'
    lockWait := forall_goto (fun θ' q => q = .lockWait → _) (by simp) fun θ' _ hq =>
      (h.lockWait θ' hq).imp_right (chosen θ').mpr
    popped u w' hu := by
      have hu' : (s.pc u).popped = some w' := by
        rcases eq_or_ne u θ with rfl | hne
        · simpa [hp] using hu
        · simpa [hne, t] using hu
      obtain ⟨hw', hm, hs⟩ := h.popped u w' hu'
      have hne : w' ≠ θ := by
        rintro rfl
        simp [hp] at hw'
      rcases eq_or_ne u θ with rfl | hne'
      · simpa [hne, t, hp] using ⟨hw', hm, by simpa [hp] using hs⟩
      · simpa [hne, hne', t] using ⟨hw', hm, hs⟩
    signaled θ' hs := by
      have hne : θ' ≠ θ := by
        rintro rfl
        simpa [hp] using h.signaled θ' hs
      simpa [hne, t] using h.signaled θ' hs
    joining := forall_goto (fun _ q => q.joining = true → _) (by simp) fun θ' _ => h.joining θ'
    flag_of_lags := forall_goto (fun _ q => q.lags = true → _) (by simp) fun θ' hne hq =>
      absurd ((hlags θ' hne).symm.trans hq) Bool.false_ne_true
    flag_iff _ := by simp
    alone := forall_goto (fun _ q => q.alone = true → _) (by simp) fun θ' _ => h.alone θ'
    contended := forall_goto (fun _ q => q.contended = true → _) (by simp) fun θ' hne hq =>
      absurd (h.owns_unique θ' θ (.inl (Pc.owns_of_contended hq)) (.inl (by simp [hp]))) hne
    not_failed := h.not_failed
    enqueued_eq := h.enqueued_eq
    handed_of_chosen w' hw' := h.handed_of_chosen w' ((chosen w').mp hw')
    handed_eq hn := h.handed_eq fun w' hw' => hn w' ((chosen w').mpr hw') }

/-- `Unlock` asks for the signal of the waiter it popped. -/
theorem Inv.unlockSend (h : Inv s) {w : Θ} (hp : s.pc θ = .unlockSend w) :
    Inv (unlockSend s θ w) := by
  have hl : s.lock.handle = some θ := (h.inLock_iff θ).mp (by simp [hp])
  have hθ : s.Owns θ := .inl (by simp [hp])
  obtain ⟨hpw, hmem, hs⟩ := h.popped θ w (by simp [hp])
  have hs : s.signal w = .empty := by simpa [hp] using hs
  have hwθ : w ≠ θ := by
    rintro rfl
    simp [hp] at hpw
  have hpop : ∀ u ≠ θ, (s.pc u).popped = none := fun u hne => by
    by_contra hu
    obtain ⟨w', hw'⟩ := Option.ne_none_iff_exists'.mp hu
    exact hne (h.owns_unique u θ (.inl (Pc.owns_of_popped hw')) hθ)
  have heq : Serverbox.InterruptibleMutex.unlockSend s θ w =
      (s.setSignal w .probe).goto θ (.unlockPublish w) := by
    simp [Serverbox.InterruptibleMutex.unlockSend, hs]
  rw [heq]
  have owns : ∀ θ', ((s.setSignal w .probe).goto θ (.unlockPublish w)).Owns θ' ↔ s.Owns θ' := by
    intro θ'
    refine or_congr ?_ ?_
    · rcases eq_or_ne θ' θ with rfl | hne
      · simp [hp]
      · simp [hne]
    · rcases eq_or_ne θ' w with rfl | hne
      · simp [hs]
      · simp [hne]
  have chosen : ∀ w', ((s.setSignal w .probe).goto θ (.unlockPublish w)).Chosen w' ↔
      s.Chosen w' := by
    intro w'
    refine or_congr (exists_congr fun u => ?_) ?_
    · rcases eq_or_ne u θ with rfl | hne
      · simp [hp]
      · simp [hne]
    · rcases eq_or_ne w' w with rfl | hne
      · simp [hs]
      · simp [hne]
  exact {
    lock_eq := h.lock_eq
    inLock_iff := forall_goto (fun θ' q => q.inLock = true ↔ s.lock.handle = some θ')
      (by simp [hl]) fun θ' _ => h.inLock_iff θ'
    owns_unique θ₁ θ₂ h₁ h₂ := h.owns_unique θ₁ θ₂ ((owns θ₁).mp h₁) ((owns θ₂).mp h₂)
    taken_iff := h.taken_iff.trans (exists_congr fun θ' => (owns θ').symm)
    taking := forall_goto (fun _ q => q.taking = true → _) (by simp) fun θ' _ => h.taking θ'
    taken_of_flag _ := .inl (h.taken_iff.mpr ⟨θ, hθ⟩)
    waiters_nodup := h.waiters_nodup
    waits θ' hm := by
      obtain ⟨hpc, hs'⟩ := h.waits θ' hm
      have hne : θ' ≠ θ := by
        rintro rfl
        simp [hp] at hpc
      have hne' : θ' ≠ w := by
        rintro rfl
        exact hmem hm
      simpa [hne, hne'] using ⟨hpc, hs'⟩
    lockRelease := forall_goto (fun θ' q => q = .lockRelease → _) (by simp) fun θ' _ =>
      h.lockRelease θ'
    lockWait := forall_goto (fun θ' q => q = .lockWait → _) (by simp) fun θ' _ hq =>
      (h.lockWait θ' hq).imp_right (chosen θ').mpr
    popped u w' hu := by
      rcases eq_or_ne u θ with rfl | hne
      · obtain rfl : w = w' := by simpa using hu
        simpa [hwθ] using ⟨hpw, hmem⟩
      · simp [hne, hpop u hne] at hu
    signaled θ' hs' := by
      have hne : θ' ≠ w := by
        rintro rfl
        simp at hs'
      have hpc := h.signaled θ' (by simpa [hne] using hs')
      have hne' : θ' ≠ θ := by
        rintro rfl
        simp [hp] at hpc
      simpa [hne'] using hpc
    joining θ' hθ' := by
      rcases eq_or_ne θ' θ with rfl | hne
      · simp at hθ'
      · have hne' : θ' ≠ w := by
          rintro rfl
          simp [hpw, hne] at hθ'
        simpa [hne'] using h.joining θ' (by simpa [hne] using hθ')
    flag_of_lags := forall_goto (fun _ q => q.lags = true → _) (by simp) fun θ' _ =>
      h.flag_of_lags θ'
    flag_iff hn := h.flag_iff fun θ' => by
      rcases eq_or_ne θ' θ with rfl | hne
      · simp [hp]
      · simpa [hne] using hn θ'
    alone := forall_goto (fun _ q => q.alone = true → _) (by simp) fun θ' _ => h.alone θ'
    contended := forall_goto (fun _ q => q.contended = true → _) (by simp) fun θ' _ =>
      h.contended θ'
    not_failed := h.not_failed
    enqueued_eq := h.enqueued_eq
    handed_of_chosen w' hw' := h.handed_of_chosen w' ((chosen w').mp hw')
    handed_eq hn := h.handed_eq fun w' hw' => hn w' ((chosen w').mpr hw') }

/-- `Unlock` publishes the signal of the waiter it popped: the waiter has the ownership from
then on. -/
theorem Inv.unlockPublish (h : Inv s) {w : Θ} (hp : s.pc θ = .unlockPublish w) :
    Inv (unlockPublish s θ w) ∧ (unlockPublish s θ w).Owns w := by
  have hl : s.lock.handle = some θ := (h.inLock_iff θ).mp (by simp [hp])
  have hθ : s.Owns θ := .inl (by simp [hp])
  have hlags := h.not_lags (θ := θ) (by simp [hp]) (by simp [hp])
  obtain ⟨hpw, hmem, hs⟩ := h.popped θ w (by simp [hp])
  have hs : s.signal w = .probe := by simpa [hp] using hs
  have hwθ : w ≠ θ := by
    rintro rfl
    simp [hp] at hpw
  have hsame : ∀ θ', s.Owns θ' → θ' = θ := fun θ' ho => h.owns_unique θ' θ ho hθ
  have hsig : ∀ θ', s.signal θ' ≠ .signaled := fun θ' hs' => by
    have := h.signaled θ' hs'
    rw [hsame θ' (.inr hs'), hp] at this
    cases this
  have hchosen : ∀ w', s.Chosen w' → w' = w := fun w' hc => by
    have := h.chosen_of_owns (θ := θ) (by simp [hp]) hc
    simpa [hp, eq_comm] using this
  have heq : Serverbox.InterruptibleMutex.unlockPublish s θ w =
      (s.setSignal w .signaled).goto θ .unlockRelease := by
    simp [Serverbox.InterruptibleMutex.unlockPublish, hs, State.assert, State.setSignal]
  rw [heq]
  have owns : ∀ θ', ((s.setSignal w .signaled).goto θ .unlockRelease).Owns θ' ↔ θ' = w := by
    intro θ'
    constructor
    · rintro (ho | ho)
      · rcases eq_or_ne θ' θ with rfl | hne
        · simp at ho
        · exact absurd (hsame θ' (.inl (by simpa [hne] using ho))) hne
      · by_contra hne
        exact hsig θ' (by simpa [hne] using ho)
    · rintro rfl
      exact .inr (by simp)
  have chosen : ∀ w', ((s.setSignal w .signaled).goto θ .unlockRelease).Chosen w' ↔ w' = w := by
    intro w'
    constructor
    · rintro (⟨u, hu⟩ | hw')
      · rcases eq_or_ne u θ with rfl | hne
        · simp at hu
        · exact hchosen w' (.inl ⟨u, by simpa [hne] using hu⟩)
      · by_contra hne
        exact hsig w' (by simpa [hne] using hw')
    · rintro rfl
      exact .inr (by simp)
  refine ⟨?_, (owns w).mpr rfl⟩
  exact {
    lock_eq := h.lock_eq
    inLock_iff := forall_goto (fun θ' q => q.inLock = true ↔ s.lock.handle = some θ')
      (by simp [hl]) fun θ' _ => h.inLock_iff θ'
    owns_unique θ₁ θ₂ h₁ h₂ := ((owns θ₁).mp h₁).trans ((owns θ₂).mp h₂).symm
    taken_iff := iff_of_true (h.taken_iff.mpr ⟨θ, hθ⟩) ⟨w, (owns w).mpr rfl⟩
    taking := forall_goto (fun _ q => q.taking = true → _) (by simp) fun θ' _ => h.taking θ'
    taken_of_flag _ := .inl (h.taken_iff.mpr ⟨θ, hθ⟩)
    waiters_nodup := h.waiters_nodup
    waits θ' hm := by
      obtain ⟨hpc, hs'⟩ := h.waits θ' hm
      have hne : θ' ≠ θ := by
        rintro rfl
        simp [hp] at hpc
      have hne' : θ' ≠ w := by
        rintro rfl
        exact hmem hm
      simpa [hne, hne'] using ⟨hpc, hs'⟩
    lockRelease := forall_goto (fun θ' q => q = .lockRelease → _) (by simp) fun θ' _ =>
      h.lockRelease θ'
    lockWait := forall_goto (fun θ' q => q = .lockWait → _) (by simp) fun θ' _ hq =>
      (h.lockWait θ' hq).imp_right fun hc => (chosen θ').mpr (hchosen θ' hc)
    popped u w' hu := by
      rcases eq_or_ne u θ with rfl | hne
      · simp at hu
      · have hu : (s.pc u).popped = some w' := by simpa [hne] using hu
        exact absurd (hsame u (.inl (Pc.owns_of_popped hu))) hne
    signaled θ' hs' := by
      obtain rfl := (chosen θ').mp (.inr hs')
      simpa [hwθ] using hpw
    joining θ' hθ' := by
      rcases eq_or_ne θ' θ with rfl | hne
      · simp at hθ'
      · have hne' : θ' ≠ w := by
          rintro rfl
          simp [hpw, hne] at hθ'
        simpa [hne'] using h.joining θ' (by simpa [hne] using hθ')
    flag_of_lags := forall_goto (fun _ q => q.lags = true → _) (by simp) fun θ' _ =>
      h.flag_of_lags θ'
    flag_iff _ := h.flag_iff hlags
    alone := forall_goto (fun _ q => q.alone = true → _) (by simp) fun θ' _ => h.alone θ'
    contended := forall_goto (fun _ q => q.contended = true → _) (by simp) fun θ' _ =>
      h.contended θ'
    not_failed := h.not_failed
    enqueued_eq := h.enqueued_eq
    handed_of_chosen w' hw' := by
      rw [(chosen w').mp hw']
      exact h.handed_of_chosen w (.inl ⟨θ, by simp [hp]⟩)
    handed_eq hn := absurd ((chosen w).mpr rfl) (hn w) }

/-- The last assertion of `Lock` holds. -/
theorem Inv.lockWoken (h : Inv s) (hp : s.pc θ = .lockWoken) : Inv (lockWoken s θ) := by
  have ht : s.word.taken = true := h.taken_iff.mpr ⟨θ, .inl (by simp [hp])⟩
  have heq : Serverbox.InterruptibleMutex.lockWoken s θ = s.goto θ .owner := by
    simp [Serverbox.InterruptibleMutex.lockWoken, ht, State.assert]
  rw [heq]
  exact h.goto (by simp [hp]) (by simp [hp]) (by simp [hp]) (by simp [hp]) (by simp [hp])
    (by simp) (by simp) (by simp [hp]) (by simp) (by simp [hp]) (by simp)

/-- `Unlock` sees that somebody waits. -/
theorem Inv.unlockCas_contended (h : Inv s) (hp : s.pc θ = .unlockCas)
    (hw : s.word ≠ ⟨true, false⟩) :
    s.word = ⟨true, true⟩ ∧ Inv (s.goto θ .unlockAcquire) := by
  have ht : s.word.taken = true := h.taken_iff.mpr ⟨θ, .inl (by simp [hp])⟩
  have hword : s.word = ⟨true, true⟩ := by
    rcases hs : s.word with ⟨_ | _, _ | _⟩ <;> simp_all
  exact ⟨hword, h.goto (by simp [hp]) (by simp [hp]) (by simp [hp]) (by simp [hp])
    (by simp [hp]) (by simp) (by simp [hword]) (by simp [hp]) (by simp) (by simp [hp]) (by simp)⟩

theorem Inv.unlockCas (h : Inv s) (hp : s.pc θ = .unlockCas) : Inv (unlockCas s θ) := by
  by_cases hw : s.word = ⟨true, false⟩
  · simpa [Serverbox.InterruptibleMutex.unlockCas, hw] using h.unlockCas_free hp hw
  · obtain ⟨hword, hi⟩ := h.unlockCas_contended hp hw
    have heq : Serverbox.InterruptibleMutex.unlockCas s θ = s.goto θ .unlockAcquire := by
      rw [Serverbox.InterruptibleMutex.unlockCas, if_neg hw, decide_eq_true hword]
      simp [State.assert]
    exact heq ▸ hi

/-- The list from which `Unlock` pops is not empty. -/
theorem Inv.unlockPop (h : Inv s) (hp : s.pc θ = .unlockPop) (hs : unlockPop s θ = some s') :
    Inv s' := by
  have hne : s.waiters ≠ [] := (h.flag_iff (h.not_lags (θ := θ) (by simp [hp]) (by simp [hp]))).mp
    (h.contended θ (by simp [hp]))
  obtain ⟨w, ws, hw⟩ := List.exists_cons_of_ne_nil hne
  simp only [Serverbox.InterruptibleMutex.unlockPop, hw, Option.some.injEq] at hs
  exact hs ▸ h.unlockPop_cons hp hw

theorem Inv.tryLock (h : Inv s) (hl : (s.pc θ).inLock = false) {fail : Pc Θ}
    (hf : Inv (s.goto θ fail)) : Inv (tryLock s θ fail) := by
  unfold Serverbox.InterruptibleMutex.tryLock
  split
  · rename_i hw
    exact h.tryLock_free hw hl
  · exact hf

theorem Inv.lockFetchOr (h : Inv s) (hp : s.pc θ = .lockFetchOr) : Inv (lockFetchOr s θ) := by
  cases ht : s.word.taken with
  | false => exact h.lockFetchOr_free hp ht
  | true => exact h.lockFetchOr_taken hp ht

omit [DecidableEq Θ] in
/-- The mutex just constructed. -/
theorem Inv.new : Inv (State.new : State Θ) where
  lock_eq := rfl
  inLock_iff θ := by simp [State.new]
  owns_unique θ _ h := by simp [State.new, State.Owns] at h
  taken_iff := by simp [State.new, State.Owns]
  taking θ h := by simp [State.new] at h
  taken_of_flag h := by simp [State.new] at h
  waiters_nodup := .nil
  waits θ h := by simp [State.new] at h
  lockRelease θ h := by simp [State.new] at h
  lockWait θ h := by simp [State.new] at h
  popped u w h := by simp [State.new] at h
  signaled θ h := by simp [State.new] at h
  joining θ h := by simp [State.new] at h
  flag_of_lags θ h := by simp [State.new] at h
  flag_iff _ := by simp [State.new]
  alone θ h := by simp [State.new] at h
  contended θ h := by simp [State.new] at h
  not_failed := rfl
  enqueued_eq := rfl
  handed_of_chosen w h := by simp [State.new, State.Chosen] at h
  handed_eq _ := rfl

/-- The next step of a thread keeps the invariant. -/
theorem Inv.next (h : Inv s) (hs : next s θ = some s') : Inv s' := by
  unfold Serverbox.InterruptibleMutex.next at hs
  cases hp : s.pc θ with
  | idle | owner => simp [hp] at hs
  | tryLock =>
    simp only [hp, Option.some.injEq] at hs
    exact hs ▸ h.tryLock (by simp [hp]) (h.goto (by simp [hp]) (by simp [hp]) (by simp [hp])
      (by simp [hp]) (by simp [hp]) (by simp) (by simp) (by simp [hp]) (by simp) (by simp [hp])
      (by simp))
  | lockTry =>
    simp only [hp, Option.some.injEq] at hs
    exact hs ▸ h.tryLock (by simp [hp]) (h.goto (by simp [hp]) (by simp [hp]) (by simp [hp])
      (by simp [hp]) (by simp [hp]) (by simp) (by simp) (by simp [hp]) (by simp) (by simp [hp])
      (by simp))
  | lockAcquire =>
    simp only [hp] at hs
    obtain ⟨hh, rfl⟩ := h.acquire_eq_some (by simp [hp]) hs
    refine h.setLock (fun θ' => ?_) (by simp [hp]) (by simp [hp]) (by simp [hp]) (by simp [hp])
      (by simp) (by simp) (by simp [hp]) (by simp) (by simp [hp]) (by simp [hp])
    have := h.inLock_iff θ'
    grind -linarith [Pc.inLock]
  | lockFetchOr =>
    simp only [hp, Option.some.injEq] at hs
    exact hs ▸ h.lockFetchOr hp
  | lockExchange =>
    simp only [hp, Option.some.injEq] at hs
    exact hs ▸ h.lockExchange hp
  | lockOwned =>
    simp only [hp, Option.some.injEq] at hs
    rw [← hs, h.release_eq (by simp [hp])]
    refine h.setLock (fun θ' => ?_) (by simp [hp]) (by simp [hp]) (by simp [hp]) (by simp [hp])
      (by simp) (by simp) (by simp [hp]) (by simp) (by simp [hp]) (by simp [hp])
    have := h.inLock_iff θ'
    have := h.inLock_iff θ
    grind -linarith [Pc.inLock]
  | lockWakeup =>
    simp only [hp, Option.some.injEq] at hs
    exact hs ▸ h.goto (by simp [hp]) (by simp [hp]) (by simp [hp]) (by simp [hp]) (by simp [hp])
      (by simp) (by simp) (by simp [hp]) (by simp) (by simp [hp]) (by simp)
  | lockAppend =>
    simp only [hp, Option.some.injEq] at hs
    exact hs ▸ h.lockAppend hp
  | lockRelease =>
    simp only [hp, Option.some.injEq] at hs
    rw [← hs, h.release_eq (by simp [hp])]
    refine h.setLock (fun θ' => ?_) (by simp [hp]) (by simp [hp]) (by simp [hp]) (by simp [hp])
      (by simp) (by simp) (by simp [hp]) (by simp) (by simp [hp]) (by simp [hp])
    have := h.inLock_iff θ'
    have := h.inLock_iff θ
    grind -linarith [Pc.inLock]
  | lockWait =>
    simp only [hp, Serverbox.InterruptibleMutex.lockWait, Option.ite_none_right_eq_some,
      Option.some.injEq] at hs
    exact hs.2 ▸ h.lockWait_signaled hs.1
  | lockWoken =>
    simp only [hp, Option.some.injEq] at hs
    exact hs ▸ h.lockWoken hp
  | unlockCas =>
    simp only [hp, Option.some.injEq] at hs
    exact hs ▸ h.unlockCas hp
  | unlockAcquire =>
    simp only [hp] at hs
    obtain ⟨hh, rfl⟩ := h.acquire_eq_some (by simp [hp]) hs
    refine h.setLock (fun θ' => ?_) (by simp [hp]) (by simp [hp]) (by simp [hp]) (by simp [hp])
      (by simp) (fun _ => h.contended θ (by simp [hp])) (by simp [hp]) (by simp) (by simp [hp])
      (by simp [hp])
    have := h.inLock_iff θ'
    grind -linarith [Pc.inLock]
  | unlockPop =>
    simp only [hp] at hs
    exact h.unlockPop hp hs
  | unlockAnd w =>
    simp only [hp, Option.some.injEq] at hs
    exact hs ▸ h.unlockAnd hp
  | unlockSend w =>
    simp only [hp, Option.some.injEq] at hs
    exact hs ▸ h.unlockSend hp
  | unlockPublish w =>
    simp only [hp, Option.some.injEq] at hs
    exact hs ▸ (h.unlockPublish hp).1
  | unlockRelease =>
    simp only [hp, Option.some.injEq] at hs
    rw [← hs, h.release_eq (by simp [hp])]
    refine h.setLock (fun θ' => ?_) (by simp [hp]) (by simp [hp]) (by simp [hp]) (by simp [hp])
      (by simp) (by simp) (by simp [hp]) (by simp) (by simp [hp]) (by simp [hp])
    have := h.inLock_iff θ'
    have := h.inLock_iff θ
    grind -linarith [Pc.inLock]

/-- Every step keeps the invariant. -/
theorem Inv.step (h : Inv s) {a : Action Θ} (hs : step s a = some s') : Inv s' := by
  cases a with
  | call θ op =>
    have hcall : ∃ p q : Pc Θ, s.pc θ = p ∧ s' = s.goto θ q ∧
        (p = .idle ∧ (q = .lockTry ∨ q = .tryLock) ∨ p = .owner ∧ q = .unlockCas) := by
      cases op <;> simp only [Serverbox.InterruptibleMutex.step] at hs <;> split at hs
      · exact ⟨_, _, ‹_›, (Option.some.inj hs).symm, .inl ⟨rfl, .inl rfl⟩⟩
      · cases hs
      · exact ⟨_, _, ‹_›, (Option.some.inj hs).symm, .inl ⟨rfl, .inr rfl⟩⟩
      · cases hs
      · exact ⟨_, _, ‹_›, (Option.some.inj hs).symm, .inr ⟨rfl, rfl⟩⟩
      · cases hs
    obtain ⟨p, q, hp, rfl, ⟨rfl, rfl | rfl⟩ | ⟨rfl, rfl⟩⟩ := hcall
    all_goals
      exact h.goto (by simp [hp]) (by simp [hp]) (by simp [hp]) (by simp [hp]) (by simp [hp])
        (by simp) (by simp) (by simp [hp]) (by simp) (by simp [hp]) (by simp)
  | next θ => exact h.next hs

/-- **Invariant of the interruptible mutex.** It holds in every reachable state. -/
theorem inv (h : (machine Θ).Reachable s) : Inv s :=
  Machine.invariant (fun _ hi => hi ▸ Inv.new) (fun _ _ _ hi hs => hi.step hs) h

end InterruptibleMutex

end Serverbox
