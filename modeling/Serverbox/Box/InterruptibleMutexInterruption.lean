import Serverbox.Box.InterruptibleMutexOwnership

/-!
# The interruption of a sleeping owner

The protocol for which the interruptible mutex is made. Main threads take the mutex with
`TryLock` and may sleep on an external condition while they own it; a main thread which the
condition woke up unlocks the mutex before it sleeps again, one whose sleep timed out need not.
Other threads take the mutex with `Lock`, whose interruptor signals the condition, and never
sleep on it. The condition is sticky: it stays signaled until a sleeping owner consumes it, and
anybody may signal it.

Source: `src/mg/box/InterruptibleMutex.h`, the scheduler role in `src/mg/sch/TaskScheduler.cpp`.

## Main definitions

* `InterruptibleMutex.Protocol.State`: the mutex, the condition and the roles of the owners.
* `InterruptibleMutex.Protocol.machine`: the transition system of any number of threads.
* `InterruptibleMutex.Protocol.machineAgain`: the same where a woken owner may sleep again.
* `InterruptibleMutex.State.Contended`: somebody waits, or is past its interruptor.

## Main results

* `InterruptibleMutex.Protocol.simulates`: the mutex of the protocol runs as the mutex alone.
* `InterruptibleMutex.Protocol.owner_is_interrupted`: no owner sleeps on a condition which is not
  signaled while a thread waits for the mutex.
* `InterruptibleMutex.Protocol.owner_sleeps_again`: this rests on the owner leaving when woken up.
-/

namespace Serverbox

namespace InterruptibleMutex

variable {Θ : Type*}

/-- There are waiters, or a thread whose interruptor has returned is about to join them. -/
def State.Contended (s : State Θ) : Prop :=
  s.waiters ≠ [] ∨ ∃ θ, s.pc θ = .lockAppend

/-- A waiting thread has joined the list of the waiters. -/
def Pc.enqueued : Pc Θ → Bool
  | lockRelease | lockWait => true
  | _ => false

section Frame

variable [DecidableEq Θ] {s s' : State Θ} {θ : Θ}

/-- What a step of a thread changes, apart from its own program counter: the waiters grow only
when the thread was about to join them. -/
structure Frame (s s' : State Θ) (θ : Θ) : Prop where
  pc_of_ne : ∀ θ' ≠ θ, s'.pc θ' = s.pc θ'
  waiters : s'.waiters ≠ [] → s.waiters ≠ [] ∨ s.pc θ = .lockAppend
  lockAppend : s'.pc θ = .lockAppend → s.waiters ≠ [] ∨ s.pc θ = .lockWakeup

theorem frame_acquire {p : Pc Θ} (hp : p ≠ .lockAppend) (hs : acquire s θ p = some s') :
    Frame s s' θ := by
  obtain ⟨r, -, rfl⟩ := Option.map_eq_some_iff.mp hs
  exact ⟨fun θ' hne => by simp [State.assert, hne], .inl, by simp [hp]⟩

theorem frame_next (hs : next s θ = some s') : Frame s s' θ := by
  unfold next at hs
  cases hp : s.pc θ with
  | idle | owner => simp [hp] at hs
  | lockAcquire | unlockAcquire =>
    simp only [hp] at hs
    exact frame_acquire (by simp) hs
  | lockFetchOr =>
    simp only [hp, Option.some.injEq] at hs
    subst hs
    unfold lockFetchOr
    split
    · exact ⟨fun θ' hne => by simp [State.assert, hne], .inl, by simp⟩
    · refine ⟨fun θ' hne => by simp [hne], .inl, ?_⟩
      cases hw : s.waiters <;> simp
  | unlockPop =>
    simp only [hp, unlockPop] at hs
    split at hs <;> rename_i hw <;> cases hs
    · exact ⟨fun _ _ => rfl, .inl, by simp [State.assert, hp]⟩
    · exact ⟨fun θ' hne => by simp [hne], fun _ => .inl (by simp [hw]), by simp⟩
  | lockAppend =>
    simp only [hp, Option.some.injEq] at hs
    subst hs
    exact ⟨fun θ' hne => by simp [lockAppend, hne], fun _ => .inr hp, by simp [lockAppend]⟩
  | lockWakeup =>
    simp only [hp, Option.some.injEq] at hs
    subst hs
    exact ⟨fun θ' hne => by simp [hne], .inl, fun _ => .inr hp⟩
  | lockWait =>
    simp only [hp, lockWait, Option.ite_none_right_eq_some, Option.some.injEq] at hs
    obtain ⟨-, rfl⟩ := hs
    exact ⟨fun θ' hne => by simp [hne], .inl, by simp⟩
  | tryLock | lockTry =>
    simp only [hp, Option.some.injEq, tryLock] at hs
    subst hs
    split <;> exact ⟨fun θ' hne => by simp [hne], .inl, by simp⟩
  | unlockCas =>
    simp only [hp, Option.some.injEq, unlockCas] at hs
    subst hs
    split <;> exact ⟨fun θ' hne => by simp [State.assert, hne], .inl, by simp⟩
  | unlockSend w =>
    simp only [hp, Option.some.injEq, unlockSend] at hs
    subst hs
    split <;> exact ⟨fun θ' hne => by simp [hne], .inl, by simp⟩
  | unlockAnd w =>
    simp only [hp, Option.some.injEq, unlockAnd] at hs
    subst hs
    split <;> exact ⟨fun θ' hne => by simp [State.assert, hne], .inl, by simp⟩
  | lockExchange | lockOwned | lockRelease | lockWoken | unlockPublish _ | unlockRelease =>
    simp only [hp, Option.some.injEq] at hs
    subst hs
    exact ⟨fun θ' hne => by
      simp [lockExchange, release, lockWoken, unlockPublish, State.assert, hne], .inl,
      by simp [lockExchange, release, lockWoken, unlockPublish]⟩

/-- A call of an operation changes the program counter of the caller only. -/
theorem frame_call {op : Op} (hs : step s (.call θ op) = some s') :
    Frame s s' θ ∧ s.pc θ = if op = .unlock then .owner else .idle := by
  cases op <;> simp only [step] at hs <;> split at hs <;> cases hs <;>
    exact ⟨⟨fun θ' hne => by simp [hne], .inl, by simp⟩, ‹_›⟩

omit [DecidableEq Θ] in
/-- The mutex becomes contended only by a thread whose interruptor has just returned. -/
theorem Frame.contended (h : Frame s s' θ) (hc : s'.Contended) :
    s.Contended ∨ s.pc θ = .lockWakeup := by
  rcases hc with hw | ⟨θ', hθ'⟩
  · exact .inl ((h.waiters hw).imp_right fun hp => ⟨θ, hp⟩)
  · rcases eq_or_ne θ' θ with rfl | hne
    · exact (h.lockAppend hθ').imp_left .inl
    · exact .inl (.inr ⟨θ', h.pc_of_ne θ' hne ▸ hθ'⟩)

end Frame

namespace Protocol

/-- What a main thread does while it owns the mutex: nothing yet, sleep on the condition, or
leave after it consumed the condition. -/
inductive Role
  | main
  | asleep
  | interrupted
  deriving DecidableEq

/-- The mutex, the condition, and the roles of the threads which took the mutex with `TryLock`. -/
structure State (Θ : Type*) where
  mutex : InterruptibleMutex.State Θ
  cond : Bool
  role : Θ → Option Role

/-- A new mutex and a condition which is not signaled. -/
def State.new : State Θ := ⟨.new, false, fun _ => none⟩

/-- What can happen: the mutex makes a step, a main thread goes to sleep, is woken up by the
condition which it consumes, or gives up on it, and anybody signals the condition. -/
inductive Action (Θ : Type*)
  | mutex (a : InterruptibleMutex.Action Θ)
  | sleep (θ : Θ)
  | wake (θ : Θ)
  | timeout (θ : Θ)
  | signal

variable [DecidableEq Θ]

/-- Change the role of a thread. -/
def State.setRole (s : State Θ) (θ : Θ) (r : Option Role) : State Θ :=
  { s with role := Function.update s.role θ r }

/-- A step of the mutex. The step of `Lock` which calls the interruptor signals the condition; a
`TryLock` which succeeds starts a main thread, and a thread unlocks the mutex only awake. -/
def mutexStep (s : State Θ) (a : InterruptibleMutex.Action Θ) : Option (State Θ) :=
  match a with
  | .call θ .unlock =>
    if s.role θ = some .asleep then none
    else (InterruptibleMutex.step s.mutex a).map fun m => { s with mutex := m }.setRole θ none
  | .call _ _ => (InterruptibleMutex.step s.mutex a).map fun m => { s with mutex := m }
  | .next θ =>
    (InterruptibleMutex.step s.mutex a).map fun m =>
      match s.mutex.pc θ, m.pc θ with
      | .lockWakeup, _ => { s with mutex := m, cond := true }
      | .tryLock, .owner => { s with mutex := m }.setRole θ (some .main)
      | _, _ => { s with mutex := m }

/-- One step of the protocol. -/
def step (s : State Θ) : Action Θ → Option (State Θ)
  | .mutex a => mutexStep s a
  | .sleep θ => if s.role θ = some .main then some (s.setRole θ (some .asleep)) else none
  | .wake θ =>
    if s.role θ = some .asleep ∧ s.cond = true then
      some ({ s with cond := false }.setRole θ (some .interrupted))
    else none
  | .timeout θ => if s.role θ = some .asleep then some (s.setRole θ (some .main)) else none
  | .signal => some { s with cond := true }

/-- Any number of main and of other threads. -/
def machine (Θ : Type*) [DecidableEq Θ] : Machine (State Θ) (Action Θ) where
  init s := s = .new
  step := step

/-- One step of main threads which need not leave: an owner which the condition woke up may go
on as before, and so sleep again. -/
def stepAgain (s : State Θ) : Action Θ → Option (State Θ)
  | .wake θ =>
    if s.role θ = some .asleep ∧ s.cond = true then
      some ({ s with cond := false }.setRole θ (some .main))
    else none
  | a => step s a

/-- Any number of other threads and of main threads which need not leave when they wake up. -/
def machineAgain (Θ : Type*) [DecidableEq Θ] : Machine (State Θ) (Action Θ) where
  init s := s = .new
  step := stepAgain

@[simp] theorem setRole_mutex (s : State Θ) (θ : Θ) (r : Option Role) :
    (s.setRole θ r).mutex = s.mutex := rfl

@[simp] theorem setRole_cond (s : State Θ) (θ : Θ) (r : Option Role) :
    (s.setRole θ r).cond = s.cond := rfl

@[simp] theorem setRole_role (s : State Θ) (θ θ' : Θ) (r : Option Role) :
    (s.setRole θ r).role θ' = if θ' = θ then r else s.role θ' := by
  simp [State.setRole, Function.update_apply]

variable {s s' : State Θ}

/-- What a call of an operation of the mutex does in the protocol. -/
theorem mutexStep_call {θ : Θ} {op : Op} (hs : mutexStep s (.call θ op) = some s') :
    InterruptibleMutex.step s.mutex (.call θ op) = some s'.mutex ∧ s'.cond = s.cond ∧
      s'.role = if op = .unlock then Function.update s.role θ none else s.role := by
  cases op with
  | unlock =>
    simp only [mutexStep, Option.ite_none_left_eq_some, Option.map_eq_some_iff] at hs
    obtain ⟨-, m, hm, rfl⟩ := hs
    exact ⟨hm, rfl, rfl⟩
  | lock | tryLock =>
    obtain ⟨m, hm, rfl⟩ := Option.map_eq_some_iff.mp hs
    exact ⟨hm, rfl, rfl⟩

/-- What the next step of a thread in the mutex does in the protocol. -/
theorem mutexStep_next {θ : Θ} (hs : mutexStep s (.next θ) = some s') :
    InterruptibleMutex.step s.mutex (.next θ) = some s'.mutex ∧
      ((s.mutex.pc θ = .lockWakeup ∧ s'.cond = true ∧ s'.role = s.role) ∨
        (s.mutex.pc θ = .tryLock ∧ s'.mutex.pc θ = .owner ∧ s'.cond = s.cond ∧
          s'.role = Function.update s.role θ (some .main)) ∨
        (s.mutex.pc θ ≠ .lockWakeup ∧ s'.cond = s.cond ∧ s'.role = s.role)) := by
  obtain ⟨m, hm, rfl⟩ := Option.map_eq_some_iff.mp hs
  split
  · exact ⟨hm, .inl ⟨‹_›, rfl, rfl⟩⟩
  · exact ⟨hm, .inr (.inl ⟨‹_›, ‹_›, rfl, rfl⟩)⟩
  · rename_i hw _
    exact ⟨hm, .inr (.inr ⟨hw, rfl, rfl⟩)⟩

/-- The mutex of the protocol runs as the mutex alone. -/
theorem simulates : Machine.Simulates (machine Θ) (InterruptibleMutex.machine Θ) State.mutex where
  init s hs := hs ▸ rfl
  step s a s' _ hs := by
    cases a with
    | mutex a =>
      cases a with
      | call θ op => exact .inr ⟨.call θ op, (mutexStep_call hs).1⟩
      | next θ => exact .inr ⟨.next θ, (mutexStep_next hs).1⟩
    | sleep θ | timeout θ | wake θ =>
      simp only [machine, step, Option.ite_none_right_eq_some, Option.some.injEq] at hs
      exact .inl (hs.2 ▸ rfl)
    | signal => exact .inl (Option.some.inj hs ▸ rfl)

/-- The invariant of the protocol: main threads own the mutex, and the condition is signaled
while one of them may sleep and somebody waits. -/
structure Inv (s : State Θ) : Prop where
  owner : ∀ θ, s.role θ ≠ none → s.mutex.pc θ = .owner
  armed : ∀ θ, s.role θ = some .main ∨ s.role θ = some .asleep → s.mutex.Contended →
    s.cond = true

theorem Inv.mutex_call (h : Inv s) {θ : Θ} {op : Op}
    (hs : mutexStep s (.call θ op) = some s') : Inv s' := by
  obtain ⟨hm, hc, hr⟩ := mutexStep_call hs
  obtain ⟨hf, hp⟩ := frame_call hm
  have hrole : ∀ θ', s'.role θ' ≠ none → θ' ≠ θ ∧ s'.role θ' = s.role θ' := fun θ' hr' => by
    by_cases hop : op = .unlock
    · rw [hr, if_pos hop, Function.update_apply] at hr' ⊢
      split at hr'
      · exact absurd rfl hr'
      · exact ⟨‹_›, if_neg ‹_›⟩
    · rw [if_neg hop] at hr hp
      refine ⟨?_, by rw [hr]⟩
      rintro rfl
      simpa [hp] using h.owner θ' (hr ▸ hr')
  refine ⟨fun θ' hr' => ?_, fun θ' hr' hcont => ?_⟩
  · obtain ⟨hne, he⟩ := hrole θ' hr'
    rw [hf.pc_of_ne θ' hne, h.owner θ' (he ▸ hr')]
  · obtain ⟨-, he⟩ := hrole θ' (by rcases hr' with hr' | hr' <;> simp [hr'])
    rw [hc]
    refine h.armed θ' (he ▸ hr') ((hf.contended hcont).resolve_right ?_)
    split at hp <;> simp [hp]

theorem Inv.mutex_next (h : Inv s) (hi : InterruptibleMutex.Inv s.mutex) {θ : Θ}
    (hs : mutexStep s (.next θ) = some s') : Inv s' := by
  obtain ⟨hm, hcases⟩ := mutexStep_next hs
  have hf : Frame s.mutex s'.mutex θ := frame_next hm
  have howner : ∀ θ' , s.role θ' ≠ none → s'.mutex.pc θ' = .owner := fun θ' hr => by
    have ho := h.owner θ' hr
    have hne : θ' ≠ θ := by
      rintro rfl
      simp [InterruptibleMutex.step, next, ho] at hm
    rw [hf.pc_of_ne θ' hne, ho]
  rcases hcases with ⟨hp, hc, hr⟩ | ⟨hp, ho, hc, hr⟩ | ⟨hp, hc, hr⟩
  · exact ⟨fun θ' => hr ▸ howner θ', fun _ _ _ => hc⟩
  · -- a main thread starts only while nobody waits
    obtain ⟨hwait, hnot⟩ := tryLock_succeeds hi (.inl hp) hm ho
    have hfree : ¬ s'.mutex.Contended := fun hcont => by
      rcases hf.contended hcont with (hw | ⟨θ', hθ'⟩) | hw
      · exact hw hwait
      · simpa [hθ', Pc.waiting] using hnot θ'
      · simp [hp] at hw
    refine ⟨fun θ' hr' => ?_, fun _ _ hcont => absurd hcont hfree⟩
    rcases eq_or_ne θ' θ with rfl | hne
    · exact ho
    · exact howner θ' (by simpa [hr, hne] using hr')
  · refine ⟨fun θ' => hr ▸ howner θ', fun θ' hθ' hcont => ?_⟩
    rw [hc]
    exact h.armed θ' (hr ▸ hθ') ((hf.contended hcont).resolve_right hp)

theorem Inv.step (h : Inv s) (hi : InterruptibleMutex.Inv s.mutex) {a : Action Θ}
    (hs : step s a = some s') : Inv s' := by
  cases a with
  | mutex a =>
    cases a with
    | call θ op => exact h.mutex_call hs
    | next θ => exact h.mutex_next hi hs
  | sleep θ =>
    simp only [Protocol.step, Option.ite_none_right_eq_some, Option.some.injEq] at hs
    obtain ⟨hr, rfl⟩ := hs
    refine ⟨fun θ' hθ' => ?_, fun θ' hθ' hc => ?_⟩
    · rcases eq_or_ne θ' θ with rfl | hne
      · exact h.owner θ' (by simp [hr])
      · exact h.owner θ' (by simpa [hne] using hθ')
    · exact h.armed θ (.inl hr) hc
  | timeout θ =>
    simp only [Protocol.step, Option.ite_none_right_eq_some, Option.some.injEq] at hs
    obtain ⟨hr, rfl⟩ := hs
    refine ⟨fun θ' hθ' => ?_, fun θ' hθ' hc => ?_⟩
    · rcases eq_or_ne θ' θ with rfl | hne
      · exact h.owner θ' (by simp [hr])
      · exact h.owner θ' (by simpa [hne] using hθ')
    · exact h.armed θ (.inr hr) hc
  | wake θ =>
    simp only [Protocol.step, Option.ite_none_right_eq_some, Option.some.injEq] at hs
    obtain ⟨⟨hr, hc⟩, rfl⟩ := hs
    have hown := h.owner θ (by simp [hr])
    refine ⟨fun θ' hθ' => ?_, fun θ' hθ' _ => ?_⟩
    · rcases eq_or_ne θ' θ with rfl | hne
      · exact hown
      · exact h.owner θ' (by simpa [hne] using hθ')
    · -- the only other main thread would own the mutex too
      have hne : θ' ≠ θ := by
        rintro rfl
        simp at hθ'
      have hθ' : s.role θ' = some .main ∨ s.role θ' = some .asleep := by simpa [hne] using hθ'
      have hown' := h.owner θ' (by rcases hθ' with h | h <;> simp [h])
      exact absurd (hi.owns_unique θ' θ (.inl (by simp [hown'])) (.inl (by simp [hown]))) hne
  | signal =>
    obtain rfl := Option.some.inj hs
    exact ⟨h.owner, fun _ _ _ => rfl⟩

/-- The invariants of the mutex and of the protocol hold in every reachable state. -/
theorem inv (h : (machine Θ).Reachable s) : InterruptibleMutex.Inv s.mutex ∧ Inv s := by
  have hmutex : ∀ s, (machine Θ).Reachable s → InterruptibleMutex.Inv s.mutex := fun s hr =>
    InterruptibleMutex.inv (simulates.reachable hr)
  refine ⟨hmutex s h, Machine.invariant_of hmutex ?_ ?_ h⟩
  · rintro _ rfl
    exact ⟨fun _ hr => absurd rfl hr, fun _ hr => by simp [State.new] at hr⟩
  · exact fun s a s' hi _ hinv hs => hinv.step hi hs

/-- **An owner which sleeps is interrupted.** In no reachable state has a thread in `Lock` joined
the waiters, after its interruptor, while an owner sleeps on the condition and the condition is
not signaled. -/
theorem owner_is_interrupted (h : (machine Θ).Reachable s) (θ o : Θ)
    (hθ : (s.mutex.pc θ).enqueued = true) (ho : s.role o = some .asleep) : s.cond = true := by
  obtain ⟨hi, hinv⟩ := inv h
  have hown := hinv.owner o (by simp [ho])
  refine hinv.armed o (.inr ho) (.inl ?_)
  suffices θ ∈ s.mutex.waiters from List.ne_nil_of_mem this
  cases hp : s.mutex.pc θ with
  | lockRelease => exact hi.lockRelease θ hp
  | lockWait =>
    refine (hi.lockWait θ hp).resolve_right fun hc => ?_
    have := hi.chosen_of_owns (θ := o) (by simp [hown]) hc
    simp [hown] at this
  | _ => simp [hp, Pc.enqueued] at hθ

/-- A main thread takes the mutex and sleeps, and another thread joins the waiters. -/
def interruptionRun (o θ : Θ) : List (Action Θ) :=
  [.mutex (.call o .tryLock), .mutex (.next o), .sleep o, .mutex (.call θ .lock), .mutex (.next θ),
    .mutex (.next θ), .mutex (.next θ), .mutex (.next θ), .mutex (.next θ), .mutex (.next θ)]

theorem owner_is_interrupted_here :
    (((machine Bool).run .new (interruptionRun false true)).map State.cond) = some true :=
  congrArg some (owner_is_interrupted
    (s := ((machine Bool).run .new (interruptionRun false true)).get rfl)
    (.of_run (.init rfl) (Option.some_get rfl).symm) true false rfl rfl)

/-- A main thread sleeps, the interruptor of another thread wakes it up before that thread joins
the waiters, and the main thread sleeps again. -/
def sleepAgainRun (o θ : Θ) : List (Action Θ) :=
  [.mutex (.call o .tryLock), .mutex (.next o), .sleep o, .mutex (.call θ .lock), .mutex (.next θ),
    .mutex (.next θ), .mutex (.next θ), .mutex (.next θ), .wake o, .mutex (.next θ), .sleep o]

/-- The signal is not repeated: an owner which sleeps again after it consumed the condition is
interrupted by nobody, though a thread waits for the mutex. -/
theorem owner_sleeps_again :
    ∃ s, (machineAgain Bool).Reachable s ∧
      (s.mutex.pc true).enqueued = true ∧ s.role false = some .asleep ∧ s.cond = false :=
  ⟨((machineAgain Bool).run .new (sleepAgainRun false true)).get rfl,
    .of_run (.init rfl) (Option.some_get rfl).symm, rfl, rfl, rfl⟩

end Protocol

end InterruptibleMutex

end Serverbox
