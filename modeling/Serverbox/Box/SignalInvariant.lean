import Serverbox.Box.Signal
import Mathlib.Data.List.Nodup

/-!
# The invariant of the signal

What holds at every program point of every sender and receiver of a signal.

## Main definitions

* `Signal.Pc.inLock`, `Signal.Pc.raising`, `Signal.Pc.alert`: the classes of program points the
  invariant speaks of.
* `Signal.Inv`: the invariant.

## Main results

* `Signal.inv`: the invariant holds in every reachable state.
-/

namespace Serverbox

namespace Signal

variable {Θ : Type*}

/-- The program points at which a thread holds the lock. -/
@[simp, grind] def Pc.inLock : Pc → Bool
  | sendExchange _ | sendNotify | sendUnlock | check _ | wait _ | recheck | unlock _ => true
  | _ => false

/-- The thread is blocked on the condition variable. -/
@[simp, grind] def Pc.asleep : Pc → Bool
  | waiting _ => true
  | _ => false

/-- The thread gave up the state word after it found no signal there. -/
@[simp, grind] def Pc.emptyHanded : Pc → Bool
  | wait _ => true
  | _ => false

theorem Pc.inLock_of_emptyHanded {p : Pc} (h : p.emptyHanded = true) : p.inLock = true := by
  cases p <;> simp_all

/-- The number of the signal which a sender has probed and not set yet. -/
@[simp, grind] def Pc.raising : Pc → Option ℕ
  | sendLock n | sendExchange n => some n
  | _ => none

/-- The thread is about to notify a blocked one, or is notified, or runs, and will look at the
state word before it blocks. -/
@[simp, grind] def Pc.alert : Pc → Bool
  | sendNotify | woken _ | check _ | recheck => true
  | _ => false

/-- The number of the signal consumed by a receive on its way out. -/
@[simp, grind] def Pc.received : Pc → Option ℕ
  | unlock rc | done rc => rc
  | _ => none

/-- The invariant of the signal. -/
structure Inv (s : State Θ) : Prop where
  lock_eq : s.lock = .ofHolder s.lock.handle
  inLock_iff : ∀ θ, (s.pc θ).inLock = true ↔ s.lock.handle = some θ
  cond_nodup : s.cond.Nodup
  mem_cond_iff : ∀ θ, θ ∈ s.cond ↔ (s.pc θ).asleep = true
  raising : ∀ θ n, (s.pc θ).raising = some n → s.word = .probe ∧ n = s.raised
  raising_unique : ∀ θ θ', (s.pc θ).raising ≠ none → (s.pc θ').raising ≠ none → θ = θ'
  probed : s.word = .probe → ∃ θ, (s.pc θ).raising = some s.raised
  emptyHanded : ∀ θ, (s.pc θ).emptyHanded = true → s.word ≠ .signaled
  alert : s.word = .signaled → s.cond ≠ [] → ∃ θ, (s.pc θ).alert = true
  not_failed : s.failed = false
  raised_eq : s.raised = s.receipts + if s.word = .empty then 0 else 1
  raised_le : s.raised ≤ s.sends
  received_le : ∀ θ n, (s.pc θ).received = some n → n ≤ s.receipts

variable [DecidableEq Θ]

@[simp, grind =] theorem State.goto_pc (s : State Θ) (θ θ' : Θ) (p : Pc) :
    (s.goto θ p).pc θ' = if θ' = θ then p else s.pc θ' := by
  simp [State.goto, Function.update_apply]

section Goto

variable (s : State Θ) (θ : Θ) (p : Pc)

@[simp, grind =] theorem State.goto_word : (s.goto θ p).word = s.word := rfl
@[simp, grind =] theorem State.goto_lock : (s.goto θ p).lock = s.lock := rfl
@[simp, grind =] theorem State.goto_cond : (s.goto θ p).cond = s.cond := rfl
@[simp, grind =] theorem State.goto_failed : (s.goto θ p).failed = s.failed := rfl
@[simp, grind =] theorem State.goto_raised : (s.goto θ p).raised = s.raised := rfl
@[simp, grind =] theorem State.goto_sends : (s.goto θ p).sends = s.sends := rfl
@[simp, grind =] theorem State.goto_receipts : (s.goto θ p).receipts = s.receipts := rfl

end Goto

variable {s s' : State Θ} {θ : Θ} {p : Pc}

/-- A thread which moves between program points of the same classes keeps the invariant. -/
theorem Inv.goto (h : Inv s) (hl : p.inLock = (s.pc θ).inLock)
    (ha : p.asleep = (s.pc θ).asleep) (hr : p.raising = (s.pc θ).raising)
    (he : p.emptyHanded = true → s.word ≠ .signaled)
    (hal : (s.pc θ).alert = true →
      p.alert = true ∨ s.word ≠ .signaled ∨ s.cond = [] ∨ ∃ θ' ≠ θ, (s.pc θ').alert = true)
    (hrc : ∀ n, p.received = some n → n ≤ s.receipts) : Inv (s.goto θ p) where
  lock_eq := h.lock_eq
  inLock_iff θ' := by grind -linarith [h.inLock_iff θ']
  cond_nodup := h.cond_nodup
  mem_cond_iff θ' := by grind -linarith [h.mem_cond_iff θ']
  raising := by grind -linarith [h.raising]
  raising_unique := by grind -linarith [h.raising_unique]
  probed hw := by
    obtain ⟨θ', hθ'⟩ := h.probed hw
    exact ⟨θ', by grind -linarith⟩
  emptyHanded := by grind -linarith [h.emptyHanded]
  alert hw hc := by
    obtain ⟨θ', hθ'⟩ := h.alert hw hc
    rcases eq_or_ne θ' θ with rfl | hne
    · rcases hal hθ' with hp | hp | hp | ⟨θ'', hne, hp⟩
      · exact ⟨θ', by simpa using hp⟩
      · exact absurd hw hp
      · exact absurd hp hc
      · exact ⟨θ'', by simpa [hne] using hp⟩
    · exact ⟨θ', by simpa [hne] using hθ'⟩
  not_failed := h.not_failed
  raised_eq := h.raised_eq
  raised_le := h.raised_le
  received_le := by grind -linarith [h.received_le]

omit [DecidableEq Θ] in
theorem Inv.handle_ne (h : Inv s) (hp : (s.pc θ).inLock = false) : s.lock.handle ≠ some θ :=
  fun he => by
    rw [(h.inLock_iff θ).mpr he] at hp
    cases hp

/-- Taking the lock needs it free. -/
theorem Inv.acquire_eq_some (h : Inv s) (hp : (s.pc θ).inLock = false)
    (hs : acquire s θ p = some s') :
    s.lock.handle = none ∧ s' = { s with lock := .ofHolder (some θ) }.goto θ p := by
  have hne := h.handle_ne hp
  rw [acquire, h.lock_eq] at hs
  rcases hh : s.lock.handle with _ | θ'
  · rw [hh, Mutex.lock_ofHolder_none] at hs
    exact ⟨rfl, by simpa [State.assert] using hs.symm⟩
  · rw [hh] at hs hne
    rw [Mutex.lock_ofHolder_of_ne fun he => hne (congrArg some he)] at hs
    cases hs

/-- Taking the lock keeps the invariant. -/
theorem Inv.acquire (h : Inv s) (hp : (s.pc θ).inLock = false) (hs : acquire s θ p = some s')
    (hl : p.inLock = true) (ha : p.asleep = (s.pc θ).asleep)
    (hr : p.raising = (s.pc θ).raising) (he : p.emptyHanded = false)
    (hal : (s.pc θ).alert = true → p.alert = true) (hrc : p.received = none) : Inv s' := by
  obtain ⟨hh, rfl⟩ := h.acquire_eq_some hp hs
  exact {
    lock_eq := rfl
    inLock_iff θ' := by grind -linarith [h.inLock_iff θ', Mutex.handle_ofHolder]
    cond_nodup := h.cond_nodup
    mem_cond_iff θ' := by grind -linarith [h.mem_cond_iff θ']
    raising := by grind -linarith [h.raising]
    raising_unique := by grind -linarith [h.raising_unique]
    probed hw := by
      obtain ⟨θ', hθ'⟩ := h.probed hw
      exact ⟨θ', by grind -linarith⟩
    emptyHanded := by grind -linarith [h.emptyHanded]
    alert hw hc := by
      obtain ⟨θ', hθ'⟩ := h.alert hw hc
      exact ⟨θ', by grind -linarith⟩
    not_failed := h.not_failed
    raised_eq := h.raised_eq
    raised_le := h.raised_le
    received_le θ' n hn := h.received_le θ' n (by grind -linarith) }

/-- Releasing the lock by its holder. -/
theorem Inv.release_eq (h : Inv s) (hp : (s.pc θ).inLock = true) :
    release s θ p = { s with lock := .ofHolder none }.goto θ p := by
  rw [release, h.lock_eq, (h.inLock_iff θ).mp hp, Mutex.unlock_ofHolder]
  simp [State.assert]

/-- Releasing the lock keeps the invariant. -/
theorem Inv.release (h : Inv s) (hp : (s.pc θ).inLock = true) (hl : p.inLock = false)
    (ha : p.asleep = (s.pc θ).asleep) (hr : p.raising = (s.pc θ).raising)
    (he : p.emptyHanded = false) (hal : (s.pc θ).alert = false)
    (hrc : p.received = (s.pc θ).received ∨ p.received = none) : Inv (release s θ p) := by
  have hh := (h.inLock_iff θ).mp hp
  rw [h.release_eq hp]
  exact {
    lock_eq := rfl
    inLock_iff θ' := by grind -linarith [h.inLock_iff θ', Mutex.handle_ofHolder]
    cond_nodup := h.cond_nodup
    mem_cond_iff θ' := by grind -linarith [h.mem_cond_iff θ']
    raising := by grind -linarith [h.raising]
    raising_unique := by grind -linarith [h.raising_unique]
    probed hw := by
      obtain ⟨θ', hθ'⟩ := h.probed hw
      exact ⟨θ', by grind -linarith⟩
    emptyHanded := by grind -linarith [h.emptyHanded]
    alert hw hc := by
      obtain ⟨θ', hθ'⟩ := h.alert hw hc
      exact ⟨θ', by grind -linarith⟩
    not_failed := h.not_failed
    raised_eq := h.raised_eq
    raised_le := h.raised_le
    received_le θ' n hn := h.received_le θ' n (by grind -linarith) }

omit [DecidableEq Θ] in
/-- Nobody is about to set a signal unless the word is probed. -/
theorem Inv.raising_eq_none (h : Inv s) (hw : s.word ≠ .probe) (θ : Θ) :
    (s.pc θ).raising = none := by
  rcases hr : (s.pc θ).raising with _ | n
  · rfl
  · exact absurd (h.raising θ n hr).1 hw

omit [DecidableEq Θ] in
/-- `Send` on a signal which is already probed or set. -/
theorem Inv.count_send (h : Inv s) : Inv { s with sends := s.sends + 1 } :=
  { h with raised_le := Nat.le_succ_of_le h.raised_le }

/-- The exchange of `Send` from empty to probe keeps the invariant. -/
theorem Inv.sendCas (h : Inv s) (hp : s.pc θ = .sendCas) : Inv (sendCas s θ) := by
  unfold Signal.sendCas
  by_cases hw : s.word = .empty
  · have hnone := h.raising_eq_none (by simp [hw])
    have hraised : s.raised = s.receipts := by simpa [hw] using h.raised_eq
    simp only [hw, if_true]
    exact {
      lock_eq := h.lock_eq
      inLock_iff θ' := by grind -linarith [h.inLock_iff θ']
      cond_nodup := h.cond_nodup
      mem_cond_iff θ' := by grind -linarith [h.mem_cond_iff θ']
      raising θ' n hn := by grind -linarith
      raising_unique := by grind -linarith
      probed _ := ⟨θ, by simp⟩
      emptyHanded _ _ := by simp
      alert hs := by simp at hs
      not_failed := h.not_failed
      raised_eq := by simp [hraised]
      raised_le := Nat.succ_le_succ h.raised_le
      received_le θ' n hn := h.received_le θ' n (by grind -linarith) }
  · simp only [hw, if_false]
    exact h.count_send.goto (by simp [hp]) (by simp [hp])
      (by simp [hp]) (by simp) (by simp [hp])
      (by simp)

/-- The exchange of `Send` to signaled keeps the invariant: its assertion holds, and the sender
is about to notify. -/
theorem Inv.sendExchange (h : Inv s) {n : ℕ} (hp : s.pc θ = .sendExchange n) :
    Inv (sendExchange s θ) := by
  obtain ⟨hw, rfl⟩ := h.raising θ n (by simp [hp])
  have hh := (h.inLock_iff θ).mp (by simp [hp])
  have hraise : ∀ θ', θ' ≠ θ → (s.pc θ').raising = none := fun θ' hne => by
    by_contra hr
    exact hne (h.raising_unique θ' θ hr (by simp [hp]))
  unfold Signal.sendExchange State.assert
  simp only [hw, decide_true, Bool.not_true, Bool.or_false]
  exact {
    lock_eq := h.lock_eq
    inLock_iff θ' := by grind -linarith [h.inLock_iff θ']
    cond_nodup := h.cond_nodup
    mem_cond_iff θ' := by grind -linarith [h.mem_cond_iff θ']
    raising θ' n hn := by grind -linarith
    raising_unique := by grind -linarith
    probed hs := by simp at hs
    emptyHanded θ' he := by
      -- a thread between its failed receive and its wait would hold the lock too
      rcases eq_or_ne θ' θ with rfl | hne
      · simp at he
      · have hl := Pc.inLock_of_emptyHanded (p := s.pc θ') (by simpa [hne] using he)
        rw [h.inLock_iff, hh] at hl
        exact absurd (Option.some.inj hl).symm hne
    alert _ _ := ⟨θ, by simp⟩
    not_failed := h.not_failed
    raised_eq := by simpa [hw] using h.raised_eq
    raised_le := h.raised_le
    received_le θ' n hn := h.received_le θ' n (by grind -linarith) }

/-- The wakeup of a blocked thread keeps the invariant. -/
theorem Inv.wake (h : Inv s) {w : Θ} (hw : w ∈ s.cond) :
    Inv ({ s with cond := s.cond.erase w }.goto w (s.pc w).wake) := by
  obtain ⟨m, hm⟩ : ∃ m, s.pc w = .waiting m := by
    have := (h.mem_cond_iff w).mp hw
    cases hp : s.pc w <;> simp_all
  rw [hm]
  exact {
    lock_eq := h.lock_eq
    inLock_iff θ' := by grind -linarith [h.inLock_iff θ']
    cond_nodup := h.cond_nodup.erase w
    mem_cond_iff θ' := by
      rw [State.goto_cond, h.cond_nodup.mem_erase_iff]
      grind -linarith [h.mem_cond_iff θ']
    raising := by grind -linarith [h.raising]
    raising_unique := by grind -linarith [h.raising_unique]
    probed hw := by
      obtain ⟨θ', hθ'⟩ := h.probed hw
      exact ⟨θ', by grind -linarith⟩
    emptyHanded := by grind -linarith [h.emptyHanded]
    alert _ _ := ⟨w, by simp⟩
    not_failed := h.not_failed
    raised_eq := h.raised_eq
    raised_le := h.raised_le
    received_le θ' n hn := h.received_le θ' n (by grind -linarith) }

/-- The notification of `Send` keeps the invariant. -/
theorem Inv.sendNotify (h : Inv s) {pick : ℕ} (hp : s.pc θ = .sendNotify)
    (hs : sendNotify s θ pick = some s') : Inv s' := by
  unfold Signal.sendNotify at hs
  split at hs
  · rename_i hc
    cases hs
    exact h.goto (by simp [hp]) (by simp [hp]) (by simp [hp])
      (by simp)
      (fun _ => .inr (.inr (.inl hc))) (by simp)
  · rcases hw : s.cond[pick]? with _ | w
    · simp [hw] at hs
    · have hmem : w ∈ s.cond := List.mem_of_getElem? hw
      have hne : θ ≠ w := fun he => by simpa [← he, hp] using (h.mem_cond_iff w).mp hmem
      have hwoken : (s.pc w).wake.alert = true := by
        have := (h.mem_cond_iff w).mp hmem
        cases hpw : s.pc w <;> simp_all
      simp only [hw, Option.map_some, Option.some.injEq] at hs
      subst hs
      exact (h.wake hmem).goto (by simp [hne, hp]) (by simp [hne, hp])
        (by simp [hne, hp]) (by simp)
        (fun _ => .inr (.inr (.inr ⟨w, hne.symm, by simpa using hwoken⟩))) (by simp)

/-- The exchange of `Receive` keeps the invariant, whether it finds a signal or not. -/
theorem Inv.tryReceive (h : Inv s) {ok : Option ℕ → Pc} {fail : Pc}
    (hp : (s.pc θ).raising = none) (ha : (s.pc θ).asleep = false)
    (hok : ∀ n, (ok (some n)).inLock = (s.pc θ).inLock ∧ (ok (some n)).asleep = false ∧
      (ok (some n)).raising = none ∧ (ok (some n)).emptyHanded = false ∧
      ∀ m, (ok (some n)).received = some m → m = n)
    (hfail : fail.inLock = (s.pc θ).inLock ∧ fail.asleep = false ∧ fail.raising = none ∧
      fail.received = none) : Inv (tryReceive s θ ok fail) := by
  unfold Signal.tryReceive
  split
  · rename_i hw
    have hnone := h.raising_eq_none (by simp [hw])
    have hraised : s.raised = s.receipts + 1 := by simpa [hw] using h.raised_eq
    obtain ⟨ok_inLock, ok_asleep, ok_raising, ok_emptyHanded, ok_received⟩ := hok s.raised
    exact {
      lock_eq := h.lock_eq
      inLock_iff θ' := by grind -linarith [h.inLock_iff θ']
      cond_nodup := h.cond_nodup
      mem_cond_iff θ' := by grind -linarith [h.mem_cond_iff θ']
      raising θ' n hn := by grind -linarith
      raising_unique := by grind -linarith
      probed hs := by simp at hs
      emptyHanded _ _ := by simp
      alert hs := by simp at hs
      not_failed := h.not_failed
      raised_eq := by simp [hraised]
      raised_le := h.raised_le
      received_le θ' n hn := by
        have := h.received_le θ' n
        grind -linarith }
  · rename_i hw
    exact h.goto hfail.1 (hfail.2.1.trans ha.symm) (hfail.2.2.1.trans hp.symm) (fun _ => hw)
      (fun _ => .inr (.inl hw)) (fun n hn => by rw [hfail.2.2.2] at hn; cases hn)

/-- Giving the lock up to sleep keeps the invariant: no signal is set then. -/
theorem Inv.condWait (h : Inv s) {m : Mode} (hp : s.pc θ = .wait m) : Inv (condWait s θ m) := by
  have hh := (h.inLock_iff θ).mp (by simp [hp])
  have hw : s.word ≠ .signaled := h.emptyHanded θ (by simp [hp])
  have hmem : θ ∉ s.cond := fun hm => by simpa [hp] using (h.mem_cond_iff θ).mp hm
  rw [Signal.condWait, h.lock_eq, hh, Mutex.condWait_ofHolder]
  simp only [State.assert, Bool.not_true, Bool.or_false]
  exact {
    lock_eq := rfl
    inLock_iff θ' := by grind -linarith [h.inLock_iff θ', Mutex.handle_ofHolder]
    cond_nodup := by simpa [List.nodup_append] using ⟨h.cond_nodup, fun a ha he => hmem (he ▸ ha)⟩
    mem_cond_iff θ' := by grind -linarith [h.mem_cond_iff θ']
    raising := by grind -linarith [h.raising]
    raising_unique := by grind -linarith [h.raising_unique]
    probed hw := by
      obtain ⟨θ', hθ'⟩ := h.probed hw
      exact ⟨θ', by grind -linarith⟩
    emptyHanded _ _ := hw
    alert hs := absurd hs hw
    not_failed := h.not_failed
    raised_eq := h.raised_eq
    raised_le := h.raised_le
    received_le θ' n hn := h.received_le θ' n (by grind -linarith) }

/-- Taking the lock back after a sleep is taking the lock. -/
theorem Inv.condRelock_eq_acquire (h : Inv s) (hp : (s.pc θ).inLock = false) :
    Signal.condRelock s θ p = Signal.acquire s θ p := by
  have hne := h.handle_ne hp
  unfold Signal.condRelock Signal.acquire
  rw [h.lock_eq, Mutex.condRelock_ofHolder]
  rcases hh : s.lock.handle with _ | θ'
  · rw [Mutex.lock_ofHolder_none, if_pos rfl]
  · rw [hh] at hne
    rw [Mutex.lock_ofHolder_of_ne fun he => hne (congrArg some he), if_neg (by simp)]

omit [DecidableEq Θ] in
/-- The signal just constructed. -/
theorem Inv.new : Inv (State.new : State Θ) where
  lock_eq := rfl
  inLock_iff θ := by simp [State.new]
  cond_nodup := .nil
  mem_cond_iff θ := by simp [State.new]
  raising θ n hn := by simp [State.new] at hn
  raising_unique θ _ h := by simp [State.new] at h
  probed h := by simp [State.new] at h
  emptyHanded θ h := by simp [State.new] at h
  alert h := by simp [State.new] at h
  not_failed := rfl
  raised_eq := rfl
  raised_le := Nat.le_refl _
  received_le θ n h := by simp [State.new] at h

/-- The next step of a thread keeps the invariant. -/
theorem Inv.next (h : Inv s) {pick : ℕ} (hs : next s θ pick = some s') : Inv s' := by
  unfold Signal.next at hs
  cases hp : s.pc θ with
  | idle | waiting m | done rc => simp [hp] at hs
  | sendCas =>
    simp only [hp, Option.some.injEq] at hs
    exact hs ▸ h.sendCas hp
  | sendLock n =>
    simp only [hp] at hs
    exact h.acquire (by simp [hp]) hs rfl (by simp [hp])
      (by simp [hp]) rfl (by simp [hp]) rfl
  | sendExchange n =>
    simp only [hp, Option.some.injEq] at hs
    exact hs ▸ h.sendExchange hp
  | sendNotify =>
    simp only [hp] at hs
    exact h.sendNotify hp hs
  | sendUnlock =>
    simp only [hp, Option.some.injEq] at hs
    exact hs ▸ h.release (by simp [hp]) rfl (by simp [hp])
      (by simp [hp]) rfl (by simp [hp]) (.inr rfl)
  | receive =>
    simp only [hp, Option.some.injEq] at hs
    exact hs ▸ h.tryReceive (by simp [hp]) (by simp [hp])
      (fun n => by simp [hp])
      (by simp [hp])
  | fast m =>
    simp only [hp, Option.some.injEq] at hs
    exact hs ▸ h.tryReceive (by simp [hp]) (by simp [hp])
      (fun n => by simp [hp])
      (by simp [hp])
  | lock m =>
    simp only [hp] at hs
    exact h.acquire (by simp [hp]) hs rfl (by simp [hp])
      (by simp [hp]) rfl (by simp [hp]) rfl
  | check m =>
    simp only [hp, Option.some.injEq] at hs
    exact hs ▸ h.tryReceive (by simp [hp]) (by simp [hp])
      (fun n => by simp [hp])
      (by simp [hp])
  | wait m =>
    simp only [hp, Option.some.injEq] at hs
    exact hs ▸ h.condWait hp
  | woken m =>
    have hl : (s.pc θ).inLock = false := by simp [hp]
    cases m with
    | blocking =>
      simp only [hp, h.condRelock_eq_acquire hl] at hs
      exact h.acquire hl hs rfl (by simp [hp])
        (by simp [hp]) rfl (by simp) rfl
    | timed =>
      simp only [hp, h.condRelock_eq_acquire hl] at hs
      exact h.acquire hl hs rfl (by simp [hp])
        (by simp [hp]) rfl (by simp) rfl
  | recheck =>
    simp only [hp, Option.some.injEq] at hs
    exact hs ▸ h.tryReceive (by simp [hp]) (by simp [hp])
      (fun n => by simp [hp])
      (by simp [hp])
  | unlock rc =>
    simp only [hp, Option.some.injEq] at hs
    exact hs ▸ h.release (by simp [hp]) rfl (by simp [hp])
      (by simp [hp]) rfl (by simp [hp]) (.inl (by simp [hp]))

/-- Every step keeps the invariant. -/
theorem Inv.step (h : Inv s) {a : Action Θ} (hs : step s a = some s') : Inv s' := by
  cases a with
  | call θ op =>
    simp only [Signal.step] at hs
    split at hs
    · rename_i hp
      cases hs
      exact h.goto (by cases op <;> simp [hp, Op.entry])
        (by cases op <;> simp [hp, Op.entry])
        (by cases op <;> simp [hp, Op.entry])
        (by cases op <;> simp [Op.entry]) (by simp [hp])
        (by cases op <;> simp [Op.entry])
    · cases hs
  | next θ pick => exact h.next hs
  | wake θ =>
    simp only [Signal.step] at hs
    split at hs
    · rename_i m hp
      cases hs
      have := h.wake ((h.mem_cond_iff θ).mpr (by simp [hp]))
      rwa [hp] at this
    · cases hs
  | ret θ =>
    simp only [Signal.step] at hs
    split at hs
    · rename_i rc hp
      cases hs
      exact h.goto (by simp [hp]) (by simp [hp]) (by simp [hp])
        (by simp) (by simp [hp]) (by simp)
    · cases hs

/-- **Invariant of the signal.** It holds in every reachable state. -/
theorem inv (h : (machine Θ).Reachable s) : Inv s :=
  Machine.invariant (fun _ hi => hi ▸ Inv.new) (fun _ _ _ hi hs => hi.step hs) h

end Signal

end Serverbox
