import Serverbox.Box.InterruptibleMutexInterruption
import Serverbox.Box.MultiConsumerQueueOrder
import Serverbox.Sch.TaskScheduler

/-!
# The scheduler role

A step of the task scheduler moves one thread only. The scheduler mutex and the ready queue make
steps of their own, and a thread is in the code of the mutex where its place in the code of the
scheduler asks for it. Hence there is at most one scheduler at a time.

## Main definitions

* `TaskScheduler.Work.schedules`: the worker is in a round of scheduling.
* `TaskScheduler.Role`: where a thread is in the mutex.
* `TaskScheduler.Moves`: what a step leaves alone.

## Main results

* `TaskScheduler.step_moves`: every step moves one thread.
* `TaskScheduler.mutex_simulates`, `TaskScheduler.ready_simulates`: the mutex and the ready queue
  run as they do alone.
* `TaskScheduler.scheduler_unique`: there is at most one scheduler.
-/

namespace Serverbox

namespace InterruptibleMutex

variable {Θ : Type*}

/-- The thread is in `Lock`. -/
def Pc.locking : Pc Θ → Bool
  | lockTry | lockAcquire | lockFetchOr | lockExchange | lockOwned | lockWakeup | lockAppend
  | lockRelease | lockWait | lockWoken => true
  | _ => false

/-- The thread is in `Unlock`. -/
def Pc.unlocking : Pc Θ → Bool
  | unlockCas | unlockAcquire | unlockPop | unlockAnd _ | unlockSend _ | unlockPublish _
  | unlockRelease => true
  | _ => false

variable [DecidableEq Θ] {s s' : State Θ} {θ : Θ} {p : Pc Θ}

theorem acquire_pc (hs : acquire s θ p = some s') : s'.pc θ = p := by
  obtain ⟨r, -, rfl⟩ := Option.map_eq_some_iff.mp hs
  simp [State.assert]

theorem next_tryLock (hs : next s θ = some s') (hp : s.pc θ = .tryLock) :
    s'.pc θ = .owner ∨ s'.pc θ = .idle := by
  simp only [next, hp, Option.some.injEq, tryLock] at hs
  subst hs
  split <;> simp

theorem next_locking (hs : next s θ = some s') (hp : (s.pc θ).locking = true) :
    (s'.pc θ).locking = true ∨ s'.pc θ = .owner := by
  unfold next at hs
  cases hpc : s.pc θ with
  | idle | owner | tryLock | unlockCas | unlockAcquire | unlockPop | unlockAnd _ | unlockSend _
  | unlockPublish _ | unlockRelease => simp [hpc, Pc.locking] at hp
  | lockAcquire =>
    simp only [hpc] at hs
    simp [acquire_pc hs, Pc.locking]
  | lockWait =>
    simp only [hpc, lockWait, Option.ite_none_right_eq_some, Option.some.injEq] at hs
    obtain ⟨-, rfl⟩ := hs
    simp [Pc.locking]
  | lockTry =>
    simp only [hpc, Option.some.injEq, tryLock] at hs
    subst hs
    split <;> simp [Pc.locking]
  | lockFetchOr =>
    simp only [hpc, Option.some.injEq, lockFetchOr] at hs
    subst hs
    split <;> [skip; split] <;> simp [Pc.locking]
  | lockExchange | lockOwned | lockWakeup | lockAppend | lockRelease | lockWoken =>
    simp only [hpc, Option.some.injEq] at hs
    subst hs
    simp [lockExchange, release, lockAppend, lockWoken, State.assert, Pc.locking]

theorem next_lockWakeup (hs : next s θ = some s') (hp : s.pc θ = .lockWakeup) :
    s'.pc θ = .lockAppend := by
  simp only [next, hp, Option.some.injEq] at hs
  simp [← hs]

theorem next_unlocking (hs : next s θ = some s') (hp : (s.pc θ).unlocking = true) :
    (s'.pc θ).unlocking = true ∨ s'.pc θ = .idle := by
  unfold next at hs
  cases hpc : s.pc θ with
  | idle | owner | tryLock | lockTry | lockAcquire | lockFetchOr | lockExchange | lockOwned
  | lockWakeup | lockAppend | lockRelease | lockWait | lockWoken =>
    simp [hpc, Pc.unlocking] at hp
  | unlockAcquire =>
    simp only [hpc] at hs
    simp [acquire_pc hs, Pc.unlocking]
  | unlockCas =>
    simp only [hpc, Option.some.injEq, unlockCas] at hs
    subst hs
    split <;> simp [Pc.unlocking]
  | unlockPop =>
    simp only [hpc, unlockPop] at hs
    split at hs <;> cases hs
    · simp [State.assert, hpc, Pc.unlocking]
    · simp [Pc.unlocking]
  | unlockSend w =>
    simp only [hpc, Option.some.injEq, unlockSend] at hs
    subst hs
    split <;> simp [Pc.unlocking]
  | unlockAnd w =>
    simp only [hpc, Option.some.injEq, unlockAnd] at hs
    subst hs
    simp [Pc.unlocking]
  | unlockPublish _ | unlockRelease =>
    simp only [hpc, Option.some.injEq] at hs
    subst hs
    simp [unlockPublish, release, State.assert, Pc.unlocking]

/-- The program counter after the call of an operation. -/
theorem call_pc {op : Op} (hs : step s (.call θ op) = some s') :
    s'.pc θ = match op with
      | .lock => .lockTry
      | .tryLock => .tryLock
      | .unlock => .unlockCas := by
  cases op <;> simp only [step] at hs <;> split at hs <;> cases hs <;> simp

end InterruptibleMutex

namespace MultiConsumerQueue

variable {α Θ : Type*}

/-- The consumer which moves. -/
def Action.who : Action α Θ → Option Θ
  | attach θ | pop θ | detach θ | consume θ _ | popRet θ => some θ
  | call _ | produce | ret => none

variable [DecidableEq Θ] {c : Config α} {s s' : State α Θ} {a : Action α Θ} {θ : Θ}

/-- A step leaves the other consumers where they are. -/
theorem step_consumer (hs : step c s a = some s') (hne : a.who ≠ some θ) :
    s'.consumer θ = s.consumer θ := by
  have hne' : ∀ θ', some θ' ≠ some θ → θ ≠ θ' := fun θ' h he => h (he ▸ rfl)
  cases a with
  | call op =>
    simp only [step] at hs
    split at hs <;> cases hs
    cases op <;> rfl
  | produce => rw [produce_consumer hs]
  | ret =>
    simp only [step] at hs
    split at hs <;> cases hs
    rfl
  | attach θ' | pop θ' | detach θ' | popRet θ' =>
    simp only [step] at hs
    split at hs <;> cases hs
    simp [hne' θ' hne]
  | consume θ' spurious => exact consume_consumer hs (hne' θ' hne)

/-- The items which were pushed and popped change with the call of a push and with a step of a
consumer only. -/
theorem step_history (hs : step c s a = some s') (hc : ∀ op, a = .call op → op = .flushPending)
    (hp : ∀ θ spurious, a ≠ .consume θ spurious) :
    s'.pushed = s.pushed ∧ s'.popped = s.popped := by
  cases a with
  | call op =>
    obtain rfl := hc op rfl
    simp only [step] at hs
    split at hs <;> cases hs
    exact ⟨rfl, rfl⟩
  | produce => exact produce_history hs
  | consume θ spurious => exact absurd rfl (hp θ spurious)
  | ret | attach _ | pop _ | detach _ | popRet _ =>
    simp only [step] at hs
    split at hs <;> cases hs
    exact ⟨rfl, rfl⟩

end MultiConsumerQueue

namespace TaskScheduler

variable {T Θ : Type*}

/-- The worker is in a round of scheduling. -/
def Work.schedules : Work T → Bool
  | readTime | waitingTop _ | waitingCas _ _ | frontPop _ | pendingPop _ | pendingSleep _ _
  | waitingPush _ _ | pendingReady _ _ | transfer _ | transferring _ | flushing | checkReady
  | checkWaiting | sleepTimed _ | sleepingTimed _ | sleeping => true
  | _ => false

/-- A worker outside of its callback calls nothing. -/
def Work.mayCall : Work T → Bool
  | outside | callback _ _ => true
  | _ => false

/-- Where a worker which calls nothing is in the mutex. -/
def Work.Admits (w : Work T) (p : InterruptibleMutex.Pc Θ) : Prop :=
  match w with
  | .trySchedule => p = .tryLock
  | .unlock => p.unlocking = true
  | _ => p = if w.schedules then .owner else .idle

/-- Where a thread in a call is in the mutex. -/
def Call.Admits (k : Call T Θ) (p : InterruptibleMutex.Pc Θ) : Prop :=
  match k with
  | .lock => p.locking = true
  | .interruptProbe | .interruptPublish => p = .lockWakeup
  | .getState _ | .readFront | .readWaiting | .readPending | .readReady => p = .owner
  | .unlock _ => p.unlocking = true
  | _ => p = .idle

/-- Where a thread is in the mutex. -/
def Role (k : Call T Θ) (w : Work T) (p : InterruptibleMutex.Pc Θ) : Prop :=
  match k with
  | .idle => w.Admits p
  | _ => w.mayCall = true ∧ k.Admits p

theorem Role.mayCall {k : Call T Θ} {w : Work T} {p : InterruptibleMutex.Pc Θ} (h : Role k w p)
    (hk : k ≠ .idle) : w.mayCall = true := by
  cases k with
  | idle => exact absurd rfl hk
  | _ => exact h.1

theorem role_iff {k : Call T Θ} {w : Work T} {p : InterruptibleMutex.Pc Θ} (hw : w.mayCall = true) :
    Role k w p ↔ k.Admits p := by
  cases k with
  | idle => cases w <;> first | exact Iff.rfl | simp [Work.mayCall] at hw
  | _ => exact and_iff_right hw

/-- A thread which may call something has nothing to do with the mutex. -/
theorem Role.of_mayCall {s : State T Θ} {θ : Θ} {p : InterruptibleMutex.Pc Θ}
    (h : Role (s.call θ) (s.work θ) p) (hm : s.mayCall θ = true) :
    s.call θ = .idle ∧ (s.work θ).mayCall = true ∧ p = .idle := by
  rw [State.mayCall, Bool.and_eq_true] at hm
  obtain ⟨hw, hc⟩ := hm
  have hcall : s.call θ = .idle := by
    split at hc
    · assumption
    · cases hc
  have hwork : (s.work θ).mayCall = true := by
    cases hwork : s.work θ <;> simp only [hwork, Bool.false_eq_true] at hw <;> rfl
  rw [hcall, role_iff hwork] at h
  exact ⟨hcall, hwork, h⟩

variable [DecidableEq Θ]

@[simp] theorem State.callAt_self (s : State T Θ) (θ : Θ) (p : Call T Θ) :
    (s.callAt θ p).call θ = p := Function.update_self ..

@[simp] theorem State.workAt_self (s : State T Θ) (θ : Θ) (w : Work T) :
    (s.workAt θ w).work θ = w := Function.update_self ..

/-- The thread `θ` has moved, and nobody else; the mutex and the ready queue have stood still or
made a step. -/
structure Moves (c : Config T Θ) (s s' : State T Θ) (θ : Θ) : Prop where
  call_of_ne : ∀ θ' ≠ θ, s'.call θ' = s.call θ'
  work_of_ne : ∀ θ' ≠ θ, s'.work θ' = s.work θ'
  mutex : s'.mutex = s.mutex ∨ ∃ b, InterruptibleMutex.step s.mutex b = some s'.mutex
  pc_of_ne : ∀ θ' ≠ θ, s'.mutex.pc θ' = s.mutex.pc θ'
  ready : s'.ready = s.ready ∨ ∃ b, MultiConsumerQueue.step c.queue s.ready b = some s'.ready
  consumer_of_ne : ∀ θ' ≠ θ, s'.ready.consumer θ' = s.ready.consumer θ'
  role : Role (s'.call θ) (s'.work θ) (s'.mutex.pc θ)
  attaching : s'.work θ = .attaching → s'.ready.consumer θ = .attach

section Moves

variable {c : Config T Θ} {s t : State T Θ} {θ : Θ} {p : Call T Θ} {w : Work T}

/-- A thread moves in its call. -/
theorem Moves.callAt (hc : t.call = s.call) (hw : t.work = s.work) (hm : t.mutex = s.mutex)
    (hr : t.ready = s.ready) (hmay : (s.work θ).mayCall = true)
    (hadm : p.Admits (s.mutex.pc θ)) : Moves c s (t.callAt θ p) θ where
  call_of_ne θ' hne := (Function.update_of_ne hne _ _).trans (congrFun hc θ')
  work_of_ne θ' _ := congrFun hw θ'
  mutex := .inl hm
  pc_of_ne θ' _ := congrArg (·.pc θ') hm
  ready := .inl hr
  consumer_of_ne θ' _ := congrArg (·.consumer θ') hr
  role := by
    have hwork : (t.callAt θ p).work = s.work := hw
    have hmutex : (t.callAt θ p).mutex = s.mutex := hm
    have hcall : (t.callAt θ p).call θ = p := Function.update_self ..
    rwa [hwork, hmutex, hcall, role_iff hmay]
  attaching h := by
    have hwork : s.work θ = .attaching := (congrFun hw θ).symm.trans h
    simp [hwork, Work.mayCall] at hmay

/-- A thread moves in its call with a step of the mutex. -/
theorem Moves.callMutex {m : InterruptibleMutex.State Θ} {b : InterruptibleMutex.Action Θ}
    (hc : t.call = s.call) (hw : t.work = s.work) (hm : InterruptibleMutex.step s.mutex b = some m)
    (hpc : ∀ θ' ≠ θ, m.pc θ' = s.mutex.pc θ') (hr : t.ready = s.ready)
    (hmay : (s.work θ).mayCall = true) (hadm : p.Admits (m.pc θ)) :
    Moves c s ({ t with mutex := m }.callAt θ p) θ where
  call_of_ne θ' hne := (Function.update_of_ne hne _ _).trans (congrFun hc θ')
  work_of_ne θ' _ := congrFun hw θ'
  mutex := .inr ⟨b, hm⟩
  pc_of_ne := hpc
  ready := .inl hr
  consumer_of_ne θ' _ := congrArg (·.consumer θ') hr
  role := by
    have hwork : ({ t with mutex := m }.callAt θ p).work = s.work := hw
    have hcall : ({ t with mutex := m }.callAt θ p).call θ = p := Function.update_self ..
    rwa [hwork, hcall, role_iff hmay]
  attaching h := by
    have hwork : s.work θ = .attaching := (congrFun hw θ).symm.trans h
    simp [hwork, Work.mayCall] at hmay

/-- A worker moves. -/
theorem Moves.workAt (hc : t.call = s.call) (hw : t.work = s.work) (hm : t.mutex = s.mutex)
    (hr : t.ready = s.ready) (hidle : s.call θ = .idle) (hatt : w ≠ .attaching)
    (hrole : w.Admits (s.mutex.pc θ)) : Moves c s (t.workAt θ w) θ where
  call_of_ne θ' _ := congrFun hc θ'
  work_of_ne θ' hne := (Function.update_of_ne hne _ _).trans (congrFun hw θ')
  mutex := .inl hm
  pc_of_ne θ' _ := congrArg (·.pc θ') hm
  ready := .inl hr
  consumer_of_ne θ' _ := congrArg (·.consumer θ') hr
  role := by
    have hcall : (t.workAt θ w).call θ = .idle := (congrFun hc θ).trans hidle
    have hmutex : (t.workAt θ w).mutex = s.mutex := hm
    have hwork : (t.workAt θ w).work θ = w := Function.update_self ..
    rwa [hcall, hmutex, hwork]
  attaching h := absurd ((Function.update_self ..).symm.trans h) hatt

/-- A worker moves with a step of the mutex. -/
theorem Moves.workMutex {m : InterruptibleMutex.State Θ} {b : InterruptibleMutex.Action Θ}
    (hc : t.call = s.call) (hw : t.work = s.work) (hm : InterruptibleMutex.step s.mutex b = some m)
    (hpc : ∀ θ' ≠ θ, m.pc θ' = s.mutex.pc θ') (hr : t.ready = s.ready) (hidle : s.call θ = .idle)
    (hatt : w ≠ .attaching) (hrole : w.Admits (m.pc θ)) :
    Moves c s ({ t with mutex := m }.workAt θ w) θ where
  call_of_ne θ' _ := congrFun hc θ'
  work_of_ne θ' hne := (Function.update_of_ne hne _ _).trans (congrFun hw θ')
  mutex := .inr ⟨b, hm⟩
  pc_of_ne := hpc
  ready := .inl hr
  consumer_of_ne θ' _ := congrArg (·.consumer θ') hr
  role := by
    have hcall : ({ t with mutex := m }.workAt θ w).call θ = .idle := (congrFun hc θ).trans hidle
    have hwork : ({ t with mutex := m }.workAt θ w).work θ = w := Function.update_self ..
    rwa [hcall, hwork]
  attaching h := absurd ((Function.update_self ..).symm.trans h) hatt

/-- A worker, or its place in the same line of code, with a step of the ready queue. -/
theorem Moves.ofReady {b : MultiConsumerQueue.Action T Θ} (hc : t.call = s.call)
    (hw : ∀ θ' ≠ θ, t.work θ' = s.work θ') (hm : t.mutex = s.mutex)
    (hr : MultiConsumerQueue.step c.queue s.ready b = some t.ready)
    (hcons : ∀ θ' ≠ θ, t.ready.consumer θ' = s.ready.consumer θ') (hidle : s.call θ = .idle)
    (hatt : t.work θ = .attaching → t.ready.consumer θ = .attach)
    (hrole : (t.work θ).Admits (s.mutex.pc θ)) : Moves c s t θ where
  call_of_ne θ' _ := congrFun hc θ'
  work_of_ne := hw
  mutex := .inl hm
  pc_of_ne θ' _ := congrArg (·.pc θ') hm
  ready := .inr ⟨b, hr⟩
  consumer_of_ne := hcons
  role := by
    rw [hc, hidle, hm]
    exact hrole
  attaching := hatt

end Moves

section Steps

variable {c : Config T Θ} {s s' : State T Θ} {θ : Θ} {spurious : Bool}

/-- A step of the mutex in a call. -/
theorem next_moves {t : State T Θ} {p : InterruptibleMutex.State Θ → Call T Θ}
    (hc : t.call = s.call) (hw : t.work = s.work) (hm : t.mutex = s.mutex) (hr : t.ready = s.ready)
    (hmay : (s.work θ).mayCall = true)
    (hadm : ∀ m, InterruptibleMutex.next s.mutex θ = some m → (p m).Admits (m.pc θ))
    (hs : ((InterruptibleMutex.next t.mutex θ).map fun m => { t with mutex := m }.callAt θ (p m)) =
      some s') : Moves c s s' θ := by
  rw [hm] at hs
  obtain ⟨m, hn, rfl⟩ := Option.map_eq_some_iff.mp hs
  exact .callMutex (b := .next θ) hc hw hn (InterruptibleMutex.frame_next hn).pc_of_ne hr hmay
    (hadm m hn)

/-- A thread in `IsEmpty` leaves the critical section. -/
theorem callUnlock_moves {b : Bool} (hmay : (s.work θ).mayCall = true)
    (hs : callUnlock s θ b = some s') : Moves c s s' θ := by
  obtain ⟨m, hm, rfl⟩ := Option.map_eq_some_iff.mp hs
  refine .callMutex rfl rfl hm (InterruptibleMutex.frame_call hm).1.pc_of_ne rfl hmay ?_
  simp [Call.Admits, InterruptibleMutex.call_pc hm, InterruptibleMutex.Pc.unlocking]

/-- The interruptor returns to the mutex. -/
theorem interrupted_moves {t : State T Θ} (hc : t.call = s.call) (hw : t.work = s.work)
    (hm : t.mutex = s.mutex) (hr : t.ready = s.ready) (hmay : (s.work θ).mayCall = true)
    (hp : s.mutex.pc θ = .lockWakeup) (hs : interrupted t θ = some s') : Moves c s s' θ :=
  next_moves hc hw hm hr hmay (p := fun _ => .lock) (fun m hn => by
    simp [Call.Admits, InterruptibleMutex.next_lockWakeup hn hp, InterruptibleMutex.Pc.locking]) hs

variable [DecidableEq T]

/-- A thread calls an operation. -/
theorem callOp_moves {o : Op T} (hrole : Role (s.call θ) (s.work θ) (s.mutex.pc θ))
    (hmay : s.mayCall θ = true) (hs : callOp s θ o = some s') : Moves c s s' θ := by
  obtain ⟨hcall, hw, hpc⟩ := hrole.of_mayCall hmay
  cases o with
  | post t =>
    simp only [callOp, Option.ite_none_right_eq_some, Option.some.injEq] at hs
    obtain ⟨-, rfl⟩ := hs
    exact .callAt rfl rfl rfl rfl hw hpc
  | postWakeup t | postSignal t =>
    cases hs
    exact .callAt rfl rfl rfl rfl hw hpc
  | receiveSignal t | setDeadline t d =>
    simp only [callOp, Option.ite_none_right_eq_some, Option.some.injEq] at hs
    obtain ⟨-, rfl⟩ := hs
    refine ⟨fun _ _ => rfl, fun _ _ => rfl, .inl rfl, fun _ _ => rfl, .inl rfl, fun _ _ => rfl,
      hrole, fun h => ?_⟩
    have hwork : s.work θ = .attaching := h
    simp [hwork, Work.mayCall] at hw
  | isEmpty =>
    obtain ⟨m, hm, rfl⟩ := Option.map_eq_some_iff.mp hs
    refine .callMutex rfl rfl hm (InterruptibleMutex.frame_call hm).1.pc_of_ne rfl hw ?_
    have := InterruptibleMutex.call_pc hm
    simp [Call.Admits, this, InterruptibleMutex.Pc.locking]

/-- A thread makes a step in a call. -/
theorem call_moves (hrole : Role (s.call θ) (s.work θ) (s.mutex.pc θ))
    (hs : call c s θ spurious = some s') : Moves c s s' θ := by
  have hmay : (s.work θ).mayCall = true := hrole.mayCall fun h => by simp [call, h] at hs
  rw [role_iff hmay] at hrole
  unfold call at hs
  cases hcall : s.call θ with
  | idle | done _ => simp [hcall] at hs
  | pushLoad t =>
    simp only [hcall, Option.some.injEq] at hs hrole
    subst hs
    exact .callAt rfl rfl rfl rfl hmay hrole
  | pushCas t old =>
    simp only [hcall, Option.some.injEq, pushCas] at hs hrole
    subst hs
    split <;> [split; skip] <;> exact .callAt rfl rfl rfl rfl hmay hrole
  | frontProbe | frontPublish | readyProbe _ | readyPublish _ =>
    simp only [hcall, Option.some.injEq] at hs hrole
    subst hs
    refine .callAt rfl rfl rfl rfl hmay ?_
    first | exact hrole | (split <;> exact hrole)
  | wakeupLoad t =>
    simp only [hcall, Option.some.injEq, wakeupCheck] at hs hrole
    subst hs
    refine .callAt rfl rfl rfl rfl hmay ?_
    split <;> exact hrole
  | wakeupCas t old =>
    simp only [hcall, Option.some.injEq, wakeupCas, wakeupCheck] at hs hrole
    subst hs
    split
    · split <;> exact .callAt rfl rfl rfl rfl hmay hrole
    · refine .callAt rfl rfl rfl rfl hmay ?_
      split <;> exact hrole
  | signalExchange t =>
    simp only [hcall, Option.some.injEq, signalExchange] at hs hrole
    subst hs
    split <;> exact .callAt rfl rfl rfl rfl hmay hrole
  | lock =>
    simp only [hcall, lock] at hs hrole
    split at hs
    · cases hs
      exact .callAt rfl rfl rfl rfl hmay ‹_›
    · refine next_moves rfl rfl rfl rfl hmay (fun m hn => ?_) hs
      rcases InterruptibleMutex.next_locking hn hrole with hl | ho
      · split <;> simp_all [Call.Admits]
      · simp [ho, Call.Admits]
  | interruptProbe =>
    simp only [hcall] at hs hrole
    split at hs
    · cases hs
      exact .callAt rfl rfl rfl rfl hmay hrole
    · exact interrupted_moves rfl rfl rfl rfl hmay hrole hs
  | interruptPublish =>
    simp only [hcall] at hs hrole
    exact interrupted_moves (t := { s with frontSignal := .signaled }) rfl rfl rfl rfl hmay hrole hs
  | getState rest =>
    simp only [hcall] at hs hrole
    cases rest with
    | nil =>
      cases hs
      exact .callAt rfl rfl rfl rfl hmay hrole
    | cons w rest =>
      simp only at hs
      split at hs
      · exact callUnlock_moves hmay hs
      · cases hs
        exact .callAt rfl rfl rfl rfl hmay hrole
  | readFront | readWaiting | readPending =>
    simp only [hcall] at hs hrole
    split at hs
    · cases hs
      exact .callAt rfl rfl rfl rfl hmay hrole
    · exact callUnlock_moves hmay hs
  | readReady =>
    simp only [hcall] at hs
    exact callUnlock_moves hmay hs
  | unlock b =>
    simp only [hcall, callUnlocking] at hs hrole
    refine next_moves rfl rfl rfl rfl hmay (fun m hn => ?_) hs
    rcases InterruptibleMutex.next_unlocking hn hrole with hl | ho
    · split <;> simp_all [Call.Admits, InterruptibleMutex.Pc.unlocking]
    · simp [ho, Call.Admits]

omit [DecidableEq T] in
/-- A worker calls `Unlock`. -/
theorem workUnlock_moves {t : State T Θ} (hc : t.call = s.call) (hw : t.work = s.work)
    (hm : t.mutex = s.mutex) (hr : t.ready = s.ready) (hidle : s.call θ = .idle)
    (hs : workUnlock t θ = some s') : Moves c s s' θ := by
  rw [workUnlock, hm] at hs
  obtain ⟨m, hcall, rfl⟩ := Option.map_eq_some_iff.mp hs
  refine .workMutex hc hw hcall (InterruptibleMutex.frame_call hcall).1.pc_of_ne hr hidle
    (by rintro ⟨⟩) ?_
  simp [Work.Admits, InterruptibleMutex.call_pc hcall, InterruptibleMutex.Pc.unlocking]

omit [DecidableEq T] in
/-- A worker calls `PrivSchedule`. -/
theorem callTrySchedule_moves {t : State T Θ} (hc : t.call = s.call) (hw : t.work = s.work)
    (hm : t.mutex = s.mutex) (hr : t.ready = s.ready) (hidle : s.call θ = .idle)
    (hs : callTrySchedule t θ = some s') : Moves c s s' θ := by
  rw [callTrySchedule, hm] at hs
  obtain ⟨m, hcall, rfl⟩ := Option.map_eq_some_iff.mp hs
  refine .workMutex hc hw hcall (InterruptibleMutex.frame_call hcall).1.pc_of_ne hr hidle
    (by rintro ⟨⟩) ?_
  simp [Work.Admits, InterruptibleMutex.call_pc hcall]

omit [DecidableEq T] in
/-- The producer of the ready queue makes a step. -/
theorem produce_moves {w : Work T} (hidle : s.call θ = .idle)
    (hrole : (s.work θ).Admits (s.mutex.pc θ)) (hw : w.Admits (s.mutex.pc θ))
    (hatt : w ≠ .attaching ∧ s.work θ ≠ .attaching) (hs : produce c s θ w = some s') :
    Moves c s s' θ := by
  unfold produce at hs
  split at hs
  · obtain ⟨t, ht, rfl⟩ := Option.map_eq_some_iff.mp hs
    obtain ⟨q, hq, rfl⟩ := Option.map_eq_some_iff.mp ht
    refine .ofReady rfl (fun θ' hne => Function.update_of_ne hne _ _) rfl hq
      (fun θ' _ => MultiConsumerQueue.step_consumer hq (by rintro ⟨⟩)) hidle (fun h => ?_) ?_
    · rw [State.workAt_self] at h
      exact absurd h hatt.1
    · rwa [State.workAt_self]
  · obtain ⟨q, hq, rfl⟩ := Option.map_eq_some_iff.mp hs
    exact .ofReady rfl (fun _ _ => rfl) rfl hq
      (fun θ' _ => MultiConsumerQueue.step_consumer hq (by rintro ⟨⟩)) hidle
        (fun h => absurd h hatt.2) hrole

omit [DecidableEq T] in
/-- A worker moves with a step of the ready queue. -/
theorem ready_moves {t : State T Θ} {a : MultiConsumerQueue.Action T Θ} {w : Work T}
    (ha : ∀ θ' ≠ θ, a.who ≠ some θ') (hidle : s.call θ = .idle)
    (hw : w.Admits (s.mutex.pc θ)) (hatt : w = .attaching → t.ready.consumer θ = .attach)
    (hs : readyStep c s a = some t) : Moves c s (t.workAt θ w) θ := by
  obtain ⟨q, hq, rfl⟩ := Option.map_eq_some_iff.mp hs
  refine .ofReady rfl (fun θ' hne => Function.update_of_ne hne _ _) rfl hq
    (fun θ' hne => MultiConsumerQueue.step_consumer hq (ha θ' hne)) hidle (fun h => ?_) ?_
  · rw [State.workAt_self] at h
    exact hatt h
  · rwa [State.workAt_self]

/-- The scheduler appends a task to its list of ready tasks. -/
theorem collect_moves {u : State T Θ} {r : Round T} {t : T} (hc : u.call = s.call)
    (hw : u.work = s.work) (hm : u.mutex = s.mutex) (hr : u.ready = s.ready)
    (hidle : s.call θ = .idle) (hrole : s.mutex.pc θ = .owner) : Moves c s (collect u θ r t) θ := by
  unfold collect
  by_cases hh : 0 ≤ u.waiting.index t
  · rw [if_pos hh]
    exact .workAt hc hw hm hr hidle (by rintro ⟨⟩) hrole
  · rw [if_neg hh]
    exact .workAt hc hw hm hr hidle (by rintro ⟨⟩) hrole

/-- A worker makes a step. -/
theorem work_moves (hidle : s.call θ = .idle) (hrole : (s.work θ).Admits (s.mutex.pc θ))
    (hs : work c s θ spurious = some s') : Moves c s s' θ := by
  have only : ∀ {a : MultiConsumerQueue.Action T Θ}, a.who = none ∨ a.who = some θ →
      ∀ θ' ≠ θ, a.who ≠ some θ' := by
    rintro a (ha | ha) θ' hne h
    · simp [ha] at h
    · rw [ha] at h
      exact hne (Option.some.inj h).symm
  unfold work at hs
  cases hwork : s.work θ with
  | outside => simp [hwork] at hs
  | attach =>
    simp only [hwork] at hs hrole
    obtain ⟨t, ht, rfl⟩ := Option.map_eq_some_iff.mp hs
    refine ready_moves (only (.inr rfl)) hidle hrole (fun _ => ?_) ht
    obtain ⟨q, hq, rfl⟩ := Option.map_eq_some_iff.mp ht
    simp only [MultiConsumerQueue.step] at hq
    split at hq <;> cases hq
    simp
  | attaching =>
    simp only [hwork] at hs hrole
    obtain ⟨t, ht, rfl⟩ := Option.map_eq_some_iff.mp hs
    exact ready_moves (only (.inr rfl)) hidle hrole (by rintro ⟨⟩) ht
  | pop batch =>
    simp only [hwork] at hs hrole
    obtain ⟨t, ht, rfl⟩ := Option.map_eq_some_iff.mp hs
    exact ready_moves (only (.inr rfl)) hidle hrole (by rintro ⟨⟩) ht
  | start =>
    simp only [hwork] at hs
    exact callTrySchedule_moves (t := { s with running := Function.update s.running θ true })
      rfl rfl rfl rfl hidle hs
  | trySchedule =>
    simp only [hwork, trySchedule] at hs hrole
    obtain ⟨m, hn, rfl⟩ := Option.map_eq_some_iff.mp hs
    refine .workMutex (b := .next θ) rfl rfl hn (InterruptibleMutex.frame_next hn).pc_of_ne rfl
      hidle ?_ ?_
    · split <;> simp
    · rcases InterruptibleMutex.next_tryLock hn hrole with ho | hi
      · simp [ho, Work.Admits, Work.schedules]
      · simp [hi, Work.Admits, Work.schedules]
  | readTime | storeIdle | execute _ _ | executeCas _ _ | executeStart _ _ =>
    simp only [hwork, Option.some.injEq] at hs hrole
    subst hs
    exact .workAt rfl rfl rfl rfl hidle (by rintro ⟨⟩) hrole
  | waitingTop r =>
    simp only [hwork, Option.some.injEq, waitingTop] at hs hrole
    subst hs
    split <;> [skip; split] <;> exact .workAt rfl rfl rfl rfl hidle (by rintro ⟨⟩) hrole
  | waitingCas r t =>
    simp only [hwork, Option.some.injEq, waitingCas] at hs hrole
    subst hs
    split <;> exact .workAt rfl rfl rfl rfl hidle (by rintro ⟨⟩) hrole
  | frontPop r =>
    simp only [hwork, Option.some.injEq] at hs hrole
    subst hs
    exact .workAt rfl rfl rfl rfl hidle (by rintro ⟨⟩) hrole
  | pendingPop r =>
    simp only [hwork, Option.some.injEq, pendingPop] at hs hrole
    subst hs
    split
    · exact .workAt rfl rfl rfl rfl hidle (by rintro ⟨⟩) hrole
    · split
      · refine .workAt rfl rfl rfl rfl hidle ?_ ?_ <;> split <;> first | exact hrole | simp
      · exact .workAt rfl rfl rfl rfl hidle (by rintro ⟨⟩) hrole
  | pendingSleep r t =>
    simp only [hwork, Option.some.injEq, pendingSleep] at hs hrole
    subst hs
    split
    · split <;> exact .workAt rfl rfl rfl rfl hidle (by rintro ⟨⟩) hrole
    · exact collect_moves rfl rfl rfl rfl hidle hrole
  | waitingPush r t =>
    simp only [hwork, Option.some.injEq] at hs hrole
    subst hs
    exact .workAt rfl rfl rfl rfl hidle (by rintro ⟨⟩) hrole
  | pendingReady r t =>
    simp only [hwork, Option.some.injEq] at hs hrole
    subst hs
    exact collect_moves rfl rfl rfl rfl hidle hrole
  | transfer l =>
    simp only [hwork] at hs hrole
    cases l with
    | nil =>
      obtain ⟨t, ht, rfl⟩ := Option.map_eq_some_iff.mp hs
      exact ready_moves (only (.inl rfl)) hidle hrole (by rintro ⟨⟩) ht
    | cons x l =>
      obtain ⟨t, ht, rfl⟩ := Option.map_eq_some_iff.mp hs
      obtain ⟨q, hq, rfl⟩ := Option.map_eq_some_iff.mp ht
      refine .ofReady rfl (fun θ' hne => Function.update_of_ne hne _ _) rfl hq
        (fun θ' hne => MultiConsumerQueue.step_consumer hq (by rintro ⟨⟩)) hidle (fun h => ?_) ?_
      · rw [State.workAt_self] at h
        cases h
      · rwa [State.workAt_self]
  | transferring l =>
    simp only [hwork] at hs
    have howner : s.mutex.pc θ = .owner := by rwa [hwork] at hrole
    exact produce_moves (w := .transfer l) hidle hrole howner ⟨by simp, by simp [hwork]⟩ hs
  | flushing =>
    simp only [hwork] at hs
    have howner : s.mutex.pc θ = .owner := by rwa [hwork] at hrole
    exact produce_moves (w := .checkReady) hidle hrole howner ⟨by simp, by simp [hwork]⟩ hs
  | checkReady =>
    simp only [hwork] at hs hrole
    split at hs
    · cases hs
      exact .workAt rfl rfl rfl rfl hidle (by rintro ⟨⟩) hrole
    · exact workUnlock_moves rfl rfl rfl rfl hidle hs
  | checkWaiting =>
    simp only [hwork, checkWaiting] at hs hrole
    split at hs
    · cases hs
      exact .workAt rfl rfl rfl rfl hidle (by rintro ⟨⟩) hrole
    · split at hs
      · cases hs
        exact .workAt rfl rfl rfl rfl hidle (by rintro ⟨⟩) hrole
      · exact workUnlock_moves rfl rfl rfl rfl hidle hs
  | sleepTimed d =>
    simp only [hwork, Option.some.injEq] at hs hrole
    subst hs
    exact .workAt rfl rfl rfl rfl hidle (by rintro ⟨⟩) hrole
  | sleepingTimed _ | sleeping =>
    simp only [hwork, receiveFront, Option.ite_none_right_eq_some] at hs
    exact workUnlock_moves (t := { s with frontSignal := .empty }) rfl rfl rfl rfl hidle hs.2
  | unlock =>
    simp only [hwork, workUnlocking] at hs hrole
    obtain ⟨m, hn, rfl⟩ := Option.map_eq_some_iff.mp hs
    refine .workMutex (b := .next θ) rfl rfl hn (InterruptibleMutex.frame_next hn).pc_of_ne rfl
      hidle ?_ ?_
    · split <;> simp
    · rcases InterruptibleMutex.next_unlocking hn hrole with hl | hi
      · split <;> simp_all [Work.Admits, InterruptibleMutex.Pc.unlocking]
      · simp [hi, Work.Admits, Work.schedules]
  | readyProbe | readyPublish =>
    simp only [hwork, Option.some.injEq] at hs hrole
    subst hs
    refine .workAt rfl rfl rfl rfl hidle ?_ ?_ <;>
      first | exact hrole | (split <;> first | exact hrole | simp) | simp
  | popping batch =>
    simp only [hwork, popping] at hs hrole
    split at hs
    · obtain ⟨t, ht, rfl⟩ := Option.map_eq_some_iff.mp hs
      refine ready_moves (only (.inr rfl)) hidle ?_ ?_ ht <;> split <;> first | exact hrole | simp
    · obtain ⟨t, ht, rfl⟩ := Option.map_eq_some_iff.mp hs
      obtain ⟨q, hq, rfl⟩ := Option.map_eq_some_iff.mp ht
      have hne : ∀ θ' ≠ θ, q.consumer θ' = s.ready.consumer θ' := fun θ' hne =>
        MultiConsumerQueue.step_consumer hq (only (.inr rfl) θ' hne)
      have hatt : s.work θ ≠ .attaching := by simp [hwork]
      split <;> exact .ofReady rfl (fun _ _ => rfl) rfl hq hne hidle (fun h => absurd h hatt)
        (hwork ▸ hrole : (s.work θ).Admits (s.mutex.pc θ))
  | callback batch t =>
    simp only [hwork, executed] at hs hrole
    split at hs
    · cases hs
      exact .workAt rfl rfl rfl rfl hidle (by rintro ⟨⟩) hrole
    · exact callTrySchedule_moves rfl rfl rfl rfl hidle hs
  | waitReady =>
    simp only [hwork, Option.ite_none_right_eq_some, Option.some.injEq] at hs hrole
    obtain ⟨-, rfl⟩ := hs
    exact .workAt rfl rfl rfl rfl hidle (by rintro ⟨⟩) hrole

/-- What stands still when the time passes. -/
theorem step_moves {a : Action T Θ} (hrole : ∀ θ, Role (s.call θ) (s.work θ) (s.mutex.pc θ))
    (hs : step c s a = some s') :
    (∃ d, a = .tick d ∧ s' = { s with now := s.now + d }) ∨ ∃ θ, Moves c s s' θ := by
  cases a with
  | tick d =>
    cases hs
    exact .inl ⟨d, rfl, rfl⟩
  | op θ o =>
    simp only [step, Option.ite_none_right_eq_some] at hs
    exact .inr ⟨θ, callOp_moves (hrole θ) hs.1 hs.2⟩
  | call θ spurious => exact .inr ⟨θ, call_moves (hrole θ) hs⟩
  | ret θ =>
    simp only [step] at hs
    split at hs
    · rename_i b hcall
      cases hs
      have hr := hrole θ
      rw [hcall] at hr
      exact .inr ⟨θ, .callAt rfl rfl rfl rfl hr.1 hr.2⟩
    · cases hs
  | work θ spurious =>
    simp only [step] at hs
    split at hs
    · rename_i hcall
      have hr := hrole θ
      rw [hcall] at hr
      exact .inr ⟨θ, work_moves hcall hr hs⟩
    · cases hs
  | timeout θ =>
    simp only [step] at hs
    split at hs
    · rename_i d hwork
      have hcall : s.call θ = .idle := by
        by_contra hne
        have := (hrole θ).mayCall hne
        simp [hwork, Work.mayCall] at this
      exact .inr ⟨θ, workUnlock_moves rfl rfl rfl rfl hcall hs⟩
    · cases hs

end Steps

section Runs

variable [DecidableEq T] {c : Config T Θ} {s : State T Θ}

/-- A thread is in the mutex where its place asks for it. -/
theorem role (h : (machine c).Reachable s) (θ : Θ) :
    Role (s.call θ) (s.work θ) (s.mutex.pc θ) := by
  revert θ
  refine Machine.invariant (P := fun s => ∀ θ, Role (s.call θ) (s.work θ) (s.mutex.pc θ))
    (fun s hinit θ => ?_) (fun s a s' hrole hs θ' => ?_) h
  · obtain ⟨now, rfl⟩ := hinit
    change Work.Admits (if θ ∈ c.workers then Work.attach else Work.outside) _
    split <;> rfl
  · obtain ⟨d, -, rfl⟩ | ⟨θ, hm⟩ := step_moves hrole hs
    · exact hrole θ'
    · rcases eq_or_ne θ' θ with rfl | hne
      · exact hm.role
      · rw [hm.call_of_ne θ' hne, hm.work_of_ne θ' hne, hm.pc_of_ne θ' hne]
        exact hrole θ'

/-- A worker which attaches to the ready queue is about to. -/
theorem consumer_of_attaching (h : (machine c).Reachable s) {θ : Θ}
    (hw : s.work θ = .attaching) : s.ready.consumer θ = .attach := by
  revert θ
  refine Machine.invariant_of (P := fun s => ∀ {θ}, s.work θ = .attaching →
    s.ready.consumer θ = .attach)
    (fun _ h => role h) (fun s hinit θ hw => ?_) (fun s a s' hrole _ hatt hs θ' hw => ?_) h
  · obtain ⟨now, rfl⟩ := hinit
    have : (if θ ∈ c.workers then Work.attach else Work.outside : Work T) = .attaching := hw
    split at this <;> cases this
  · obtain ⟨d, -, rfl⟩ | ⟨θ, hm⟩ := step_moves hrole hs
    · exact hatt hw
    · rcases eq_or_ne θ' θ with rfl | hne
      · exact hm.attaching hw
      · rw [hm.consumer_of_ne θ' hne]
        exact hatt (hm.work_of_ne θ' hne ▸ hw)

/-- The scheduler mutex runs as it does alone. -/
theorem mutex_simulates (c : Config T Θ) :
    (machine c).Simulates (InterruptibleMutex.machine Θ) State.mutex where
  init := by
    rintro _ ⟨now, rfl⟩
    rfl
  step s a s' h hs := by
    obtain ⟨d, -, rfl⟩ | ⟨θ, hm⟩ := step_moves (role h) hs
    · exact .inl rfl
    · exact hm.mutex

/-- The ready queue runs as it does alone. -/
theorem ready_simulates (c : Config T Θ) :
    (machine c).Simulates (MultiConsumerQueue.machine c.queue Θ) State.ready where
  init := by
    rintro _ ⟨now, rfl⟩
    rfl
  step s a s' h hs := by
    obtain ⟨d, -, rfl⟩ | ⟨θ, hm⟩ := step_moves (role h) hs
    · exact .inl rfl
    · exact hm.ready

/-- A worker in a round of scheduling owns the mutex. -/
theorem owner_of_schedules (h : (machine c).Reachable s) {θ : Θ}
    (hw : (s.work θ).schedules = true) : s.mutex.pc θ = .owner := by
  have hrole := role h θ
  have hcall : s.call θ = .idle := by
    by_contra hne
    have := hrole.mayCall hne
    cases hwork : s.work θ <;> simp [hwork, Work.mayCall, Work.schedules] at this hw
  rw [hcall] at hrole
  cases hwork : s.work θ <;> rw [hwork] at hw hrole <;> first | exact hrole | cases hw

/-- There is at most one scheduler. -/
theorem scheduler_unique (h : (machine c).Reachable s) {θ θ' : Θ}
    (hw : (s.work θ).schedules = true) (hw' : (s.work θ').schedules = true) : θ = θ' := by
  have owns : ∀ {θ}, s.mutex.pc θ = .owner → s.mutex.Owns θ := fun hp => .inl (by rw [hp]; rfl)
  exact (InterruptibleMutex.inv ((mutex_simulates c).reachable h)).owns_unique θ θ'
    (owns (owner_of_schedules h hw)) (owns (owner_of_schedules h hw'))

end Runs

end TaskScheduler

end Serverbox
