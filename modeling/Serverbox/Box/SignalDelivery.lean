import Serverbox.Box.SignalInvariant

/-!
# What a signal delivers

Every step of the threads in a signal acts on its state word as one of four operations or not at
all: it asks for a signal, publishes the one asked for, takes it, or leaves the word alone. From
this follow the bounds between the sends and the receipts of a run, and that a receive cannot
succeed before the sender of its signal is in the locked section.

## Main definitions

* `Signal.State.pending`: one when a signal was asked for or published, and not taken yet.
* `Signal.WordStep`: the operations on the state word.

## Main results

* `Signal.wordStep_of_step`: every step is such an operation.
* `Signal.counts_of_run`: sends and receipts of a run.
* `Signal.receive_succeeds`: a receive succeeds once the pending send is published.
* `Signal.signal_delivers`: the guarantees of the signal.
-/

namespace Serverbox

namespace Signal

variable {Θ : Type*}

/-- The number of signals asked for and not taken yet. -/
def State.pending (s : State Θ) : ℕ :=
  if s.word = .empty then 0 else 1

/-- What a step can do to the state word and to the counts of sends and receipts. -/
inductive WordStep (s s' : State Θ) : Prop
  | quiet (hw : s'.word = s.word) (hs : s'.sends = s.sends) (hr : s'.receipts = s.receipts)
  | send (hw : s'.word = if s.word = .empty then .probe else s.word)
      (hs : s'.sends = s.sends + 1) (hr : s'.receipts = s.receipts)
  | publish (hp : s.word = .probe) (hw : s'.word = .signaled) (hs : s'.sends = s.sends)
      (hr : s'.receipts = s.receipts)
  | receive (hp : s.word = .signaled) (hw : s'.word = .empty) (hs : s'.sends = s.sends)
      (hr : s'.receipts = s.receipts + 1)

variable [DecidableEq Θ] {s s' : State Θ} {θ : Θ} {p : Pc}

theorem wordStep_goto : WordStep s (s.goto θ p) :=
  .quiet rfl rfl rfl

theorem wordStep_acquire (hs : acquire s θ p = some s') : WordStep s s' := by
  obtain ⟨r, -, rfl⟩ := Option.map_eq_some_iff.mp hs
  exact .quiet rfl rfl rfl

theorem wordStep_condRelock (hs : condRelock s θ p = some s') : WordStep s s' := by
  obtain ⟨r, -, rfl⟩ := Option.map_eq_some_iff.mp hs
  exact .quiet rfl rfl rfl

theorem wordStep_sendCas : WordStep s (sendCas s θ) := by
  unfold sendCas
  by_cases hw : s.word = .empty
  · exact .send (by simp [hw]) (by simp [hw]) (by simp [hw])
  · exact .send (by simp [hw]) (by simp [hw]) (by simp [hw])

theorem wordStep_sendExchange (h : Inv s) {n : ℕ} (hp : s.pc θ = .sendExchange n) :
    WordStep s (sendExchange s θ) :=
  .publish (h.raising θ n (by simp [hp])).1 rfl rfl rfl

theorem wordStep_sendNotify {pick : ℕ} (hs : sendNotify s θ pick = some s') : WordStep s s' := by
  unfold sendNotify at hs
  split at hs
  · cases hs
    exact wordStep_goto
  · obtain ⟨w, -, rfl⟩ := Option.map_eq_some_iff.mp hs
    exact .quiet rfl rfl rfl

theorem wordStep_tryReceive {ok : Option ℕ → Pc} {fail : Pc} :
    WordStep s (tryReceive s θ ok fail) := by
  unfold tryReceive
  split
  · rename_i hw
    exact .receive hw rfl rfl rfl
  · exact wordStep_goto

/-- Every next step of a thread acts on the state word as one of its operations. -/
theorem wordStep_of_next (h : Inv s) {pick : ℕ} (hs : next s θ pick = some s') :
    WordStep s s' := by
  unfold next at hs
  cases hp : s.pc θ with
  | idle | waiting m | done rc => simp [hp] at hs
  | sendLock _ | lock _ =>
    simp only [hp] at hs
    exact wordStep_acquire hs
  | receive | fast _ | check _ | recheck =>
    simp only [hp, Option.some.injEq] at hs
    exact hs ▸ wordStep_tryReceive
  | sendUnlock | wait _ | unlock _ =>
    simp only [hp, Option.some.injEq] at hs
    exact hs ▸ .quiet rfl rfl rfl
  | woken m =>
    cases m <;> (simp only [hp] at hs; exact wordStep_condRelock hs)
  | sendCas =>
    simp only [hp, Option.some.injEq] at hs
    exact hs ▸ wordStep_sendCas
  | sendExchange n =>
    simp only [hp, Option.some.injEq] at hs
    exact hs ▸ wordStep_sendExchange h hp
  | sendNotify =>
    simp only [hp] at hs
    exact wordStep_sendNotify hs

/-- Every step acts on the state word as one of its operations. -/
theorem wordStep_of_step (h : Inv s) {a : Action Θ} (hs : step s a = some s') :
    WordStep s s' := by
  cases a with
  | call θ op =>
    simp only [step, Option.ite_none_right_eq_some, Option.some.injEq] at hs
    exact hs.2 ▸ wordStep_goto
  | next θ pick => exact wordStep_of_next h hs
  | wake θ =>
    simp only [step] at hs
    split at hs
    · cases hs
      exact .quiet rfl rfl rfl
    · cases hs
  | ret θ =>
    simp only [step] at hs
    split at hs
    · cases hs
      exact wordStep_goto
    · cases hs

/-- How the counts at the end of a run relate to those at its start: receipts are covered by the
sends of the run and the signal pending at its start, and a send leaves a signal pending until a
receipt. -/
structure Counts (s s' : State Θ) : Prop where
  sends_le : s.sends ≤ s'.sends
  receipts_le : s.receipts ≤ s'.receipts
  covered : s'.receipts + s'.pending + s.sends ≤ s.receipts + s.pending + s'.sends
  due : s'.receipts = s.receipts → s.sends < s'.sends ∨ s.pending = 1 → s'.pending = 1

omit [DecidableEq Θ] in
theorem WordStep.counts (h : WordStep s s') : Counts s s' := by
  cases h with
  | quiet hw hs hr => constructor <;> simp_all [State.pending]
  | send hw hs hr => constructor <;> grind [State.pending]
  | publish hp hw hs hr => constructor <;> simp_all [State.pending]
  | receive hp hw hs hr => constructor <;> simp_all [State.pending]

omit [DecidableEq Θ] in
theorem Counts.refl (s : State Θ) : Counts s s := by
  constructor <;> simp

omit [DecidableEq Θ] in
theorem Counts.trans {s₁ s₂ s₃ : State Θ} (h : Counts s₁ s₂) (h' : Counts s₂ s₃) :
    Counts s₁ s₃ where
  sends_le := Nat.le_trans h.sends_le h'.sends_le
  receipts_le := Nat.le_trans h.receipts_le h'.receipts_le
  covered := by
    have := h.covered
    have := h'.covered
    omega
  due he hd := by
    have h₁ := h.receipts_le
    have h₂ := h'.receipts_le
    refine h'.due (by omega) ?_
    by_cases hlt : s₂.sends < s₃.sends
    · exact .inl hlt
    · exact .inr (h.due (by omega) (hd.imp_left fun _ => by omega))

/-- The counts along a run. -/
theorem counts_of_run (h : (machine Θ).Reachable s) {as : List (Action Θ)}
    (hr : (machine Θ).run s as = some s') : Counts s s' :=
  Machine.run_relation Counts.refl Counts.trans (fun _ _ _ hi hs => Inv.step hi hs)
    (fun _ _ _ hi hs => (wordStep_of_step hi hs).counts) (inv h) hr

/-- The program points at which a receive looks at the state word. -/
def Pc.receiving : Pc → Bool
  | receive | fast _ | check _ | recheck => true
  | _ => false

/-- While a signal is pending and no sender is on its way to publish it, every receive which
looks at the state word takes the signal. -/
theorem receive_succeeds (h : Inv s) (hpend : s.pending = 1)
    (hsent : ∀ θ, (s.pc θ).raising = none) (hp : (s.pc θ).receiving = true) (pick : ℕ) :
    ∃ s', step s (.next θ pick) = some s' ∧ s'.receipts = s.receipts + 1 ∧
      (s'.pc θ).received = some s.raised := by
  have hw : s.word = .signaled := by
    rcases hw : s.word with _ | _ | _
    · simp [State.pending, hw] at hpend
    · obtain ⟨θ', hθ'⟩ := h.probed hw
      rw [hsent θ'] at hθ'
      cases hθ'
    · rfl
  cases hpc : s.pc θ <;> simp [hpc, Pc.receiving] at hp <;>
    simp [step, next, hpc, tryReceive, hw]

/-- **What a signal guarantees.** In every reachable state of any number of senders and receivers:
a published signal with threads blocked on the condition variable has a thread which is about to
notify one of them, or which is notified or running and will look at the state word again; no
assertion has failed; there were no more receipts than sends. From it on, the receipts of a run
are covered by its sends and by the signal pending at its start; and sends with no receipt since
then leave exactly one receipt due, which no later run without a further send exceeds, and which
every receive makes once the sends are published. A receive on its way out with a signal never
meets the sender of this signal in front of the locked section. -/
theorem signal_delivers (h : (machine Θ).Reachable s) :
    (s.word = .signaled → s.cond ≠ [] → ∃ θ, (s.pc θ).alert = true) ∧
    s.failed = false ∧
    s.receipts ≤ s.sends ∧
    (∀ as s', (machine Θ).run s as = some s' →
      s'.receipts - s.receipts ≤ s'.sends - s.sends + s.pending ∧
      (s.sends < s'.sends → s'.receipts = s.receipts → ∀ bs s'',
        (machine Θ).run s' bs = some s'' → s''.sends = s'.sends →
          s''.receipts ≤ s'.receipts + 1 ∧
          (s''.receipts = s'.receipts → (∀ θ, (s''.pc θ).raising = none) →
            ∀ θ pick, (s''.pc θ).receiving = true → ∃ t, step s'' (.next θ pick) = some t ∧
              t.receipts = s'.receipts + 1 ∧ (t.pc θ).received ≠ none))) ∧
    ∀ θ θ' n, (s.pc θ).received = some n → s.pc θ' ≠ .sendLock n := by
  have hi := inv h
  refine ⟨hi.alert, hi.not_failed, ?_, fun as s' hr => ?_, fun θ θ' n hn hp => ?_⟩
  · have := hi.raised_eq
    have := hi.raised_le
    omega
  · have hc := counts_of_run h hr
    refine ⟨by have := hc.covered; omega, fun hlt he bs s'' hr' hs => ?_⟩
    have h' := h.of_run hr
    have hc' := counts_of_run h' hr'
    have hdue : s'.pending = 1 := hc.due he (.inl hlt)
    refine ⟨by have := hc'.covered; omega, fun he' hsent θ pick hp => ?_⟩
    obtain ⟨t, ht, hrec, hgot⟩ := receive_succeeds (inv (h'.of_run hr'))
      (hc'.due he' (.inr hdue)) hsent hp pick
    exact ⟨t, ht, by omega, by rw [hgot]; exact Option.some_ne_none _⟩
  · -- the signal in front of the locked section is the last one raised, and is not received yet
    obtain ⟨hw, rfl⟩ := hi.raising θ' n (by simp [hp])
    have := hi.received_le θ _ hn
    have := hi.raised_eq
    simp [hw] at this
    omega

/-- The steps of one thread in a whole call of `Send` to a signal nobody else uses. -/
def sendRun (θ : Θ) : List (Action Θ) :=
  [.call θ .send, .next θ 0, .next θ 0, .next θ 0, .next θ 0, .next θ 0]

/-- A signal which was sent once and not received yet. -/
theorem signal_delivers_after_send : ∃ s, (machine Bool).run .new (sendRun false) = some s ∧
    s.failed = false ∧ s.receipts ≤ s.sends ∧ s.sends = 1 := by
  refine ⟨_, rfl, ?_⟩
  obtain ⟨-, hf, hle, -⟩ := signal_delivers (s := ((machine Bool).run .new (sendRun false)).get rfl)
    (.of_run (.init rfl) (Option.some_get rfl).symm)
  exact ⟨hf, hle, rfl⟩

/-- Between two points there can be one receipt more than sends: the signal may have been
pending at the first point. -/
theorem receipt_of_earlier_send : ¬ ∀ (s s' : State Bool) (as : List (Action Bool)),
    (machine Bool).Reachable s → (machine Bool).run s as = some s' →
      s'.receipts - s.receipts ≤ s'.sends - s.sends := by
  intro h
  have := h (((machine Bool).run .new (sendRun false)).get rfl) _
    [.call true .receive, .next true 0] (.of_run (.init rfl) (Option.some_get rfl).symm) rfl
  revert this
  decide

end Signal

end Serverbox
