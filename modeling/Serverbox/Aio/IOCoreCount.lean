import Mathlib.Data.List.Perm.Subperm
import Mathlib.Data.List.Nodup
import Mathlib.Logic.Function.Basic
import Serverbox.Lib.Machine

/-!
# The descriptor count of the core

`IOCore` counts the tasks which were posted and whose final execution has not ended. The count grows
in `PrivPostStart`, before the task is pushed to the front queue, and gets smaller in a worker
after the final execution. A task may be posted again in its final execution, and then its new
life is counted before the former one is over.

`WaitEmpty` returns 0 when the count is 0, and after it the destructor expects that all the queues
are empty. This is so because each life which is counted is in one place: with a thread which pushes
it to the front queue, in one of the queues, asleep, or with a worker. The waiting heap holds tasks
which are asleep, or were woken up and did not come to the scheduler yet.

The threads which post, wake up and close tasks, and the workers, are the lists of the tasks they
work on. The heap is a list too, whose order does not matter here, and neither does what makes a
task ready. Each access to a status is one step, and so is each operation on a queue.

Source: `src/mg/aio/IOCore.cpp`, `src/mg/aio/IOTask.cpp`, `src/mg/aio/IOCore_epoll.cpp`,
`src/mg/aio/IOCore_kqueue.cpp`.

## Main definitions

* `IOCoreCount.State`, `IOCoreCount.machine`: the core with its tasks.
* `IOCoreCount.State.lives`: the lives which are counted and whose final execution did not
  start.

## Main results

* `IOCoreCount.count_ok`: the count is right, and the queues are empty when it is 0.
-/

namespace Serverbox

namespace IOCoreCount

variable {T : Type*}

/-- `IOTaskStatus`. -/
inductive Status
  | pending
  | waiting
  | ready
  | closing
  | closed
  deriving DecidableEq

/-- `IOTask`: its status, whether it has a subscription, `myIsClosed` and `myCloseGuard`. -/
structure IOTask where
  status : Status
  sub : Bool
  isClosed : Bool
  closeGuard : Bool
  deriving DecidableEq

/-- The constructor. -/
def IOTask.new : IOTask := ⟨.pending, false, false, false⟩

/-- `IOCore`. The tasks with a thread are those which are attached and not counted yet, which are
counted and not pushed yet, which were woken up and are not pushed yet, and which a worker executes,
for the last time or not. The list `ready` is the one of a scheduling round. -/
structure State (T : Type*) where
  task : T → IOTask
  descriptorCount : ℕ
  frontQueue : List T
  pendingQueue : List T
  waitingQueue : List T
  ready : List T
  readyQueue : List T
  asleep : List T
  attached : List T
  posted : List T
  woken : List T
  executed : List T
  final : List T

/-- A core without tasks. -/
def State.new : State T := ⟨fun _ => .new, 0, [], [], [], [], [], [], [], [], [], [], []⟩

/-- The lives which are counted and whose final execution did not start. -/
def State.lives (s : State T) : List T :=
  s.posted ++ s.frontQueue ++ s.pendingQueue ++ s.asleep ++ s.woken ++ s.ready ++ s.readyQueue ++
    s.executed

/-- What the threads can do: the three steps of `Post`, `PostWakeup`, `PostClose` and the push of a
task woken up by them; the scheduler takes the front queue, handles a kernel event, the first
pending task, an expired task, and gives the ready tasks to the workers; a worker starts the
execution of a task, and ends an execution which is not the last one, or the final one. -/
inductive Action (T : Type*)
  | attach (t : T)
  | postStart (t : T)
  | post (t : T)
  | wakeup (t : T)
  | close (t : T)
  | rePost (t : T)
  | takeFront
  | kernelDo (t : T)
  | pendingDo (hasEvents finite : Bool)
  | expiredDo (t : T)
  | pushReady
  | execute
  | ended (t : T)
  | closed (t : T)
  deriving DecidableEq

variable [DecidableEq T]

/-- A task with new fields. -/
def State.set (s : State T) (t : T) (x : IOTask) : State T :=
  { s with task := Function.update s.task t x }

/-- `PrivAttach`. A closed task is posted again in its final execution. -/
def attach (s : State T) (t : T) : Option (State T) :=
  let x := s.task t
  if x.sub then none
  else if x.status = .closed then
    if t ∈ s.final ∧ x.isClosed = true ∧ x.closeGuard = true then
      some { s.set t ⟨.pending, true, false, false⟩ with attached := t :: s.attached }
    else none
  else if x.isClosed then none
  else some { s.set t { x with sub := true } with attached := t :: s.attached }

/-- `PostWakeup`, up to the push. -/
def wakeup (s : State T) (t : T) : State T :=
  let x := s.task t
  match x.status with
  | .waiting =>
    { s.set t { x with status := .ready } with
      asleep := s.asleep.erase t, woken := t :: s.woken }
  | .pending => s.set t { x with status := .ready }
  | _ => s

/-- `PostClose`, up to the push. -/
def close (s : State T) (t : T) : State T :=
  let x := s.task t
  if x.closeGuard then s
  else
    let s' := s.set t { x with status := .closing, closeGuard := true }
    if x.status = .waiting then { s' with asleep := s.asleep.erase t, woken := t :: s.woken }
    else s'

/-- The scheduler handles the first pending task, which has events, or has expired, or not. Its
deadline is finite or not. -/
def pendingDo (s : State T) (t : T) (l : List T) (hasEvents finite : Bool) : State T :=
  let x := s.task t
  let s := { s with pendingQueue := l }
  if x.status = .pending ∧ hasEvents = false then
    { s.set t { x with status := .waiting } with
      asleep := t :: s.asleep
      waitingQueue := if finite then t :: s.waitingQueue else s.waitingQueue }
  else
    let x := match x.status with
      | .pending => { x with status := .ready }
      | .closing => { x with status := .closed, isClosed := true }
      | _ => x
    { s.set t x with waitingQueue := s.waitingQueue.erase t, ready := s.ready ++ [t] }

/-- The scheduler makes a task ready which sleeps. -/
def State.rouse (s : State T) (t : T) : State T :=
  { s.set t { s.task t with status := .ready } with
    waitingQueue := s.waitingQueue.erase t
    asleep := s.asleep.erase t
    ready := s.ready ++ [t] }

/-- `PrivExecute` of a worker, up to `OnEvent`. The subscription of a closed task is moved away. -/
def execute (s : State T) (t : T) (l : List T) : State T :=
  let x := s.task t
  let x := if x.status = .ready then { x with status := .pending } else x
  let s := { s with readyQueue := l }
  if x.isClosed then { s.set t { x with sub := false } with final := t :: s.final }
  else { s.set t x with executed := t :: s.executed }

/-- One step of the core and of those who use it. -/
def step (s : State T) : Action T → Option (State T)
  | .attach t => attach s t
  | .postStart t =>
    if t ∈ s.attached then
      some { s with
        descriptorCount := s.descriptorCount + 1
        attached := s.attached.erase t
        posted := t :: s.posted }
    else none
  | .post t =>
    if t ∈ s.posted then
      some { s with posted := s.posted.erase t, frontQueue := s.frontQueue ++ [t] }
    else none
  | .wakeup t => some (wakeup s t)
  | .close t => some (close s t)
  | .rePost t =>
    if t ∈ s.woken then
      some { s with woken := s.woken.erase t, frontQueue := s.frontQueue ++ [t] }
    else none
  | .takeFront =>
    some { s with frontQueue := [], pendingQueue := s.pendingQueue ++ s.frontQueue }
  | .kernelDo t => if (s.task t).status = .waiting then some (s.rouse t) else none
  | .pendingDo hasEvents finite =>
    match s.pendingQueue with
    | [] => none
    | t :: l => some (pendingDo s t l hasEvents finite)
  | .expiredDo t =>
    if t ∈ s.waitingQueue then
      if (s.task t).status = .waiting then some (s.rouse t)
      else some { s with waitingQueue := s.waitingQueue.erase t }
    else none
  | .pushReady => some { s with ready := [], readyQueue := s.readyQueue ++ s.ready }
  | .execute =>
    match s.readyQueue with
    | [] => none
    | t :: l => some (execute s t l)
  | .ended t =>
    if t ∈ s.executed then
      some { s with executed := s.executed.erase t, frontQueue := s.frontQueue ++ [t] }
    else none
  | .closed t =>
    if t ∈ s.final then
      some { s with final := s.final.erase t, descriptorCount := s.descriptorCount - 1 }
    else none

/-- A core from its construction on. -/
def machine : Machine (State T) (Action T) where
  init s := s = .new
  step := step

/-! ### The invariant -/

/-- The invariant. -/
structure Inv (s : State T) : Prop where
  nodup : (s.attached ++ s.lives).Nodup
  sub : ∀ t, (s.task t).sub = true ↔ t ∈ s.attached ++ s.lives
  asleep : ∀ t, t ∈ s.asleep ↔ (s.task t).status = .waiting
  heap : s.waitingQueue.Nodup
  waiting : ∀ t ∈ s.waitingQueue, (s.task t).status ≠ .pending ∧
    (t ∈ s.asleep ∨ t ∈ s.woken ∨ t ∈ s.frontQueue ∨ t ∈ s.pendingQueue)
  count : s.descriptorCount = s.lives.length + s.final.length

namespace Inv

variable {s s' : State T} {t u : T}

omit [DecidableEq T] in
theorem mem_lives : t ∈ s.lives ↔ t ∈ s.posted ∨ t ∈ s.frontQueue ∨ t ∈ s.pendingQueue ∨
    t ∈ s.asleep ∨ t ∈ s.woken ∨ t ∈ s.ready ∨ t ∈ s.readyQueue ∨ t ∈ s.executed := by
  simp only [State.lives, List.mem_append, or_assoc]

theorem set_self (s : State T) (t : T) (x : IOTask) : (s.set t x).task t = x :=
  Function.update_self ..

theorem set_ne (s : State T) (x : IOTask) (hu : u ≠ t) : (s.set t x).task u = s.task u :=
  Function.update_of_ne hu _ _

omit [DecidableEq T] in
theorem new : Inv (.new : State T) where
  nodup := List.nodup_nil
  sub _ := by simp [State.new, State.lives, IOTask.new]
  asleep _ := by simp [State.new, IOTask.new]
  heap := List.nodup_nil
  waiting _ hu := by cases hu
  count := rfl

/-- A task is in one place. -/
theorem count_le_one (h : Inv s) (t : T) : s.attached.count t + (s.posted.count t +
    s.frontQueue.count t + s.pendingQueue.count t + s.asleep.count t + s.woken.count t +
      s.ready.count t + s.readyQueue.count t + s.executed.count t) ≤ 1 := by
  have hle := List.nodup_iff_count_le_one.mp h.nodup t
  simpa only [State.lives, List.count_append] using hle

omit [DecidableEq T] in
/-- The heap has tasks which are alive. -/
theorem mem_of_waiting (h : Inv s) (ht : t ∈ s.waitingQueue) : (s.task t).sub = true := by
  rw [h.sub, List.mem_append, mem_lives]
  have hplace := (h.waiting t ht).2
  tauto

/-- A step at one task, which stays alive. -/
theorem one (h : Inv s) (hne : ∀ u ≠ t, s'.task u = s.task u)
    (hsub : (s'.task t).sub = (s.task t).sub)
    (hperm : (s'.attached ++ s'.lives).Perm (s.attached ++ s.lives))
    (hasleep : ∀ u ≠ t, u ∈ s'.asleep ↔ u ∈ s.asleep)
    (hasleep' : t ∈ s'.asleep ↔ (s'.task t).status = .waiting)
    (hheap : s'.waitingQueue.Nodup)
    (hwaiting : ∀ u ∈ s'.waitingQueue, u ≠ t → u ∈ s.waitingQueue ∧
      ((u ∈ s.asleep ∨ u ∈ s.woken ∨ u ∈ s.frontQueue ∨ u ∈ s.pendingQueue) →
        u ∈ s'.asleep ∨ u ∈ s'.woken ∨ u ∈ s'.frontQueue ∨ u ∈ s'.pendingQueue))
    (hwaiting' : t ∈ s'.waitingQueue → (s'.task t).status ≠ .pending ∧
      (t ∈ s'.asleep ∨ t ∈ s'.woken ∨ t ∈ s'.frontQueue ∨ t ∈ s'.pendingQueue))
    (hcount : s'.descriptorCount = s'.lives.length + s'.final.length) : Inv s' where
  nodup := hperm.nodup_iff.mpr h.nodup
  sub u := by
    rw [hperm.mem_iff, ← h.sub]
    by_cases hu : u = t
    · rw [hu, hsub]
    · rw [hne u hu]
  asleep u := by
    by_cases hu : u = t
    · rw [hu, hasleep']
    · rw [hasleep u hu, hne u hu, h.asleep]
  heap := hheap
  waiting u hmem := by
    by_cases hu : u = t
    · subst hu
      exact hwaiting' hmem
    · obtain ⟨hold, hplace⟩ := hwaiting u hmem hu
      obtain ⟨hs, hp⟩ := h.waiting u hold
      exact ⟨by rwa [hne u hu], hplace hp⟩
  count := hcount

/-- An element which is erased from a list was counted there. -/
theorem count_erase_add {l : List T} (ht : t ∈ l) (a : T) :
    (l.erase t).count a + (if (t == a) = true then 1 else 0) = l.count a := by
  rw [List.count_erase]
  split
  · rename_i hta
    have hpos : 0 < l.count a := List.count_pos_iff.mpr (eq_of_beq hta ▸ ht)
    omega
  · omega

theorem length_erase_add {l : List T} (ht : t ∈ l) : (l.erase t).length + 1 = l.length := by
  rw [List.length_erase_of_mem ht]
  have := List.length_pos_of_mem ht
  omega

/-- A task which stays alive gets new fields. -/
theorem change (h : Inv s) (x : IOTask) (htask : s'.task = (s.set t x).task)
    (hsub : x.sub = (s.task t).sub)
    (hperm : (s'.attached ++ s'.lives).Perm (s.attached ++ s.lives))
    (hasleep : ∀ u ≠ t, u ∈ s'.asleep ↔ u ∈ s.asleep)
    (hasleep' : t ∈ s'.asleep ↔ x.status = .waiting)
    (hheap : s'.waitingQueue.Nodup)
    (hwaiting : ∀ u ∈ s'.waitingQueue, u ≠ t → u ∈ s.waitingQueue ∧
      ((u ∈ s.asleep ∨ u ∈ s.woken ∨ u ∈ s.frontQueue ∨ u ∈ s.pendingQueue) →
        u ∈ s'.asleep ∨ u ∈ s'.woken ∨ u ∈ s'.frontQueue ∨ u ∈ s'.pendingQueue))
    (hwaiting' : t ∈ s'.waitingQueue → x.status ≠ .pending ∧
      (t ∈ s'.asleep ∨ t ∈ s'.woken ∨ t ∈ s'.frontQueue ∨ t ∈ s'.pendingQueue))
    (hcount : s'.descriptorCount = s'.lives.length + s'.final.length) : Inv s' := by
  have hself : s'.task t = x := by rw [htask, set_self]
  refine h.one (fun u hu => by rw [htask, set_ne s x hu]) ?_ hperm hasleep ?_ hheap hwaiting ?_
    hcount
  · rw [hself, hsub]
  · rw [hself, hasleep']
  · rw [hself]
    exact hwaiting'

/-- A task sleeps once. -/
theorem not_asleep (h : Inv s) (ht : t ∈ s.asleep) : t ∉ s.asleep.erase t := by
  have hone := h.count_le_one t
  have := count_erase_add ht t
  rw [← List.count_pos_iff]
  simp only [beq_self_eq_true, if_true] at this
  omega

/-- A task which sleeps is woken up by a thread. -/
theorem wokenUp (h : Inv s) (x : IOTask) (hs : (s.task t).status = .waiting)
    (hsub : x.sub = (s.task t).sub) (hx : x.status ≠ .pending ∧ x.status ≠ .waiting) :
    Inv { s.set t x with asleep := s.asleep.erase t, woken := t :: s.woken } := by
  have ht : t ∈ s.asleep := (h.asleep t).mpr hs
  refine h.change x rfl hsub ?_ (fun u hu => List.mem_erase_of_ne hu) ?_ h.heap ?_ ?_ ?_
  · refine List.perm_iff_count.mpr fun a => ?_
    have := count_erase_add ht a
    simp only [State.lives, State.set, List.count_append, List.count_cons]
    omega
  · exact iff_of_false (h.not_asleep ht) hx.2
  · intro u hu hne
    refine ⟨hu, Or.imp (List.mem_erase_of_ne hne).mpr (Or.imp_left (List.mem_cons_of_mem _))⟩
  · exact fun _ => ⟨hx.1, .inr (.inl List.mem_cons_self)⟩
  · have := length_erase_add ht
    have hc := h.count
    simp only [State.lives, State.set, List.length_append, List.length_cons] at hc ⊢
    omega

/-- A status changes while the task is where it is. -/
theorem status (h : Inv s) (x : IOTask) (hsub : x.sub = (s.task t).sub)
    (hs : (s.task t).status ≠ .waiting) (hx : x.status ≠ .pending ∧ x.status ≠ .waiting) :
    Inv (s.set t x) := by
  refine h.change x rfl hsub (.refl _) (fun u hu => .rfl) ?_ h.heap (fun u hu _ => ⟨hu, id⟩) ?_
    h.count
  · exact iff_of_false (fun ht => hs ((h.asleep t).mp ht)) hx.2
  · exact fun ht => ⟨hx.1, (h.waiting t ht).2⟩

theorem wakeup (h : Inv s) (t : T) : Inv (IOCoreCount.wakeup s t) := by
  unfold IOCoreCount.wakeup
  dsimp only
  split
  · rename_i hs
    exact h.wokenUp { s.task t with status := .ready } hs rfl ⟨nofun, nofun⟩
  · rename_i hs
    exact h.status { s.task t with status := .ready } rfl (by rw [hs]; nofun) ⟨nofun, nofun⟩
  · exact h

theorem close (h : Inv s) (t : T) : Inv (IOCoreCount.close s t) := by
  unfold IOCoreCount.close
  dsimp only
  split
  · exact h
  · split
    · rename_i hs
      exact h.wokenUp { s.task t with status := .closing, closeGuard := true } hs rfl
        ⟨nofun, nofun⟩
    · rename_i hs
      exact h.status { s.task t with status := .closing, closeGuard := true } rfl hs
        ⟨nofun, nofun⟩

theorem attach (h : Inv s) (hs : IOCoreCount.attach s t = some s') : Inv s' := by
  -- the task is not alive, and gets alive with a status which is not WAITING
  have key : ∀ x : IOTask, (s.task t).sub = false → x.sub = true → x.status ≠ .waiting →
      (s.task t).status ≠ .waiting → Inv { s.set t x with attached := t :: s.attached } := by
    intro x hsub hx hw hs
    have hnot : t ∉ s.attached ++ s.lives :=
      (h.sub t).not.mp (by rw [hsub]; exact Bool.false_ne_true)
    refine ⟨?_, fun u => ?_, fun u => ?_, h.heap, fun u hu => ?_, h.count⟩
    · exact List.nodup_cons.mpr ⟨hnot, h.nodup⟩
    · by_cases hu : u = t
      · subst hu
        exact iff_of_true ((congrArg IOTask.sub (set_self s u x)).trans hx) List.mem_cons_self
      · refine (Eq.to_iff (congrArg (·.sub = true) (set_ne s x hu))).trans ((h.sub u).trans ?_)
        exact (List.mem_cons.trans (or_iff_right hu)).symm
    · by_cases hu : u = t
      · subst hu
        refine iff_of_false (fun ha => hs ((h.asleep u).mp ha)) ?_
        exact fun he => hw ((congrArg IOTask.status (set_self s u x)).symm.trans he)
      · refine (h.asleep u).trans (Eq.to_iff ?_)
        exact congrArg (·.status = Status.waiting) (set_ne s x hu).symm
    · have hut : u ≠ t := by
        rintro rfl
        have hsub' := h.mem_of_waiting hu
        rw [hsub] at hsub'
        cases hsub'
      obtain ⟨hp, hplace⟩ := h.waiting u hu
      exact ⟨fun he => hp ((congrArg IOTask.status (set_ne s x hut)).symm.trans he), hplace⟩
  have halive : (s.task t).sub = false → (s.task t).status ≠ .waiting := by
    intro hsub hw
    have hlive : (s.task t).sub = true := by
      rw [h.sub, List.mem_append, mem_lives]
      exact .inr (.inr (.inr (.inr (.inl ((h.asleep t).mpr hw)))))
    rw [hsub] at hlive
    cases hlive
  unfold IOCoreCount.attach at hs
  dsimp only at hs
  split at hs
  · cases hs
  · rename_i hsub
    rw [Bool.not_eq_true] at hsub
    split at hs
    · split at hs
      · exact Option.some.inj hs ▸ key _ hsub rfl nofun (halive hsub)
      · cases hs
    · split at hs
      · cases hs
      · exact Option.some.inj hs ▸ key _ hsub rfl (halive hsub) (halive hsub)

/-- A task is counted. -/
theorem postStart (h : Inv s) (ht : t ∈ s.attached) : Inv { s with
    descriptorCount := s.descriptorCount + 1, attached := s.attached.erase t,
    posted := t :: s.posted } := by
  refine h.one (t := t) (fun u hu => rfl) rfl ?_ (fun u hu => .rfl) (h.asleep t) h.heap
    (fun u hu _ => ⟨hu, id⟩) (h.waiting t) ?_
  · refine List.perm_iff_count.mpr fun a => ?_
    have := count_erase_add ht a
    simp only [State.lives, List.count_append, List.count_cons]
    omega
  · have hc := h.count
    simp only [State.lives, List.length_append, List.length_cons] at hc ⊢
    omega

/-- A thread pushes its task to the front queue. -/
theorem push (h : Inv s) {p w e : List T}
    (hperm : ∀ a, p.count a + w.count a + e.count a + (if (t == a) = true then 1 else 0) =
      s.posted.count a + s.woken.count a + s.executed.count a)
    (hlen : p.length + w.length + e.length + 1 =
      s.posted.length + s.woken.length + s.executed.length)
    (hw : ∀ u ≠ t, u ∈ s.woken → u ∈ w) : Inv { s with
      posted := p, woken := w, executed := e, frontQueue := s.frontQueue ++ [t] } := by
  refine h.one (t := t) (fun u hu => rfl) rfl ?_ (fun u hu => .rfl) (h.asleep t) h.heap ?_ ?_ ?_
  · refine List.perm_iff_count.mpr fun a => ?_
    have := hperm a
    simp only [State.lives, List.count_append, List.count_cons, List.count_nil]
    omega
  · intro u hu hne
    refine ⟨hu, Or.imp_right (Or.imp (hw u hne) (Or.imp_left (List.mem_append_left _)))⟩
  · intro hu
    exact ⟨(h.waiting t hu).1, .inr (.inr (.inl (List.mem_append_right _ List.mem_cons_self)))⟩
  · have hc := h.count
    simp only [State.lives, List.length_append, List.length_cons, List.length_nil] at hc ⊢
    omega

theorem post (h : Inv s) (ht : t ∈ s.posted) : Inv { s with
    posted := s.posted.erase t, frontQueue := s.frontQueue ++ [t] } := by
  refine h.push (fun a => ?_) ?_ fun u _ => id
  · have := count_erase_add ht a
    omega
  · have := length_erase_add ht
    omega

theorem rePost (h : Inv s) (ht : t ∈ s.woken) : Inv { s with
    woken := s.woken.erase t, frontQueue := s.frontQueue ++ [t] } := by
  refine h.push (fun a => ?_) ?_ fun u hu => (List.mem_erase_of_ne hu).mpr
  · have := count_erase_add ht a
    omega
  · have := length_erase_add ht
    omega

theorem ended (h : Inv s) (ht : t ∈ s.executed) : Inv { s with
    executed := s.executed.erase t, frontQueue := s.frontQueue ++ [t] } := by
  refine h.push (fun a => ?_) ?_ fun u _ => id
  · have := count_erase_add ht a
    omega
  · have := length_erase_add ht
    omega

omit [DecidableEq T] in
/-- The scheduler or the workers take over a queue. -/
theorem pour (h : Inv s) (htask : s'.task = s.task) (hattached : s'.attached = s.attached)
    (hperm : s'.lives.Perm s.lives) (hasleep : s'.asleep = s.asleep)
    (hheap : s'.waitingQueue = s.waitingQueue) (hwoken : s'.woken = s.woken)
    (hfront : ∀ u, u ∈ s.frontQueue ∨ u ∈ s.pendingQueue → u ∈ s'.frontQueue ∨ u ∈ s'.pendingQueue)
    (hcount : s'.descriptorCount = s.descriptorCount) (hfinal : s'.final = s.final) : Inv s' where
  nodup := by
    rw [hattached, (hperm.append_left _).nodup_iff]
    exact h.nodup
  sub u := by
    rw [htask, hattached, (hperm.append_left _).mem_iff]
    exact h.sub u
  asleep u := by rw [hasleep, htask, h.asleep]
  heap := hheap ▸ h.heap
  waiting u hu := by
    obtain ⟨hs, hp⟩ := h.waiting u (hheap ▸ hu)
    rw [htask, hasleep, hwoken]
    exact ⟨hs, hp.imp_right (Or.imp_right (hfront u))⟩
  count := by rw [hcount, hperm.length_eq, hfinal, h.count]

theorem takeFront (h : Inv s) : Inv { s with
    frontQueue := [], pendingQueue := s.pendingQueue ++ s.frontQueue } := by
  refine h.pour rfl rfl ?_ rfl rfl rfl (fun u hu => .inr (List.mem_append.mpr hu.symm)) rfl rfl
  refine List.perm_iff_count.mpr fun a => ?_
  simp only [State.lives, List.count_append, List.count_nil]
  omega

theorem pushReady (h : Inv s) : Inv { s with
    ready := [], readyQueue := s.readyQueue ++ s.ready } := by
  refine h.pour rfl rfl ?_ rfl rfl rfl (fun u hu => hu) rfl rfl
  refine List.perm_iff_count.mpr fun a => ?_
  simp only [State.lives, List.count_append, List.count_nil]
  omega

/-- A final execution ends. -/
theorem closed (h : Inv s) (ht : t ∈ s.final) : Inv { s with
    final := s.final.erase t, descriptorCount := s.descriptorCount - 1 } where
  nodup := h.nodup
  sub := h.sub
  asleep := h.asleep
  heap := h.heap
  waiting := h.waiting
  count := by
    have hc := h.count
    have := length_erase_add ht
    change s.descriptorCount - 1 = s.lives.length + (s.final.erase t).length
    omega

/-- The scheduler makes a task ready which sleeps. -/
theorem rouse (h : Inv s) (hs : (s.task t).status = .waiting) : Inv (s.rouse t) := by
  have ht : t ∈ s.asleep := (h.asleep t).mpr hs
  refine h.change { s.task t with status := .ready } rfl rfl ?_
    (fun u hu => List.mem_erase_of_ne hu) ?_ (h.heap.erase t) ?_ ?_ ?_
  · refine List.perm_iff_count.mpr fun a => ?_
    have := count_erase_add ht a
    simp only [State.lives, State.rouse, State.set, List.count_append, List.count_cons,
      List.count_nil]
    omega
  · exact iff_of_false (h.not_asleep ht) nofun
  · intro u hu hne
    exact ⟨(h.heap.mem_erase_iff.mp hu).2, Or.imp_left (List.mem_erase_of_ne hne).mpr⟩
  · exact fun hu => absurd rfl (h.heap.mem_erase_iff.mp hu).1
  · have := length_erase_add ht
    have hc := h.count
    simp only [State.lives, State.rouse, State.set, List.length_append, List.length_cons,
      List.length_nil] at hc ⊢
    omega

/-- The first pending task gets ready. -/
theorem dispatch (h : Inv s) {l : List T} (hl : s.pendingQueue = t :: l) (x : IOTask)
    (hsub : x.sub = (s.task t).sub) (hx : x.status ≠ .waiting) : Inv { s.set t x with
      pendingQueue := l, waitingQueue := s.waitingQueue.erase t, ready := s.ready ++ [t] } := by
  have hnot : t ∉ s.asleep := by
    have hone := h.count_le_one t
    rw [hl, List.count_cons_self] at hone
    rw [← List.count_pos_iff]
    omega
  refine h.change x rfl hsub ?_ (fun u hu => .rfl) (iff_of_false hnot hx) (h.heap.erase t) ?_ ?_ ?_
  · refine List.perm_iff_count.mpr fun a => ?_
    simp only [State.lives, State.set, hl, List.count_append, List.count_cons, List.count_nil]
    omega
  · intro u hu hne
    refine ⟨(h.heap.mem_erase_iff.mp hu).2, Or.imp_right (Or.imp_right (Or.imp_right ?_))⟩
    intro hp
    exact (List.mem_cons.mp (hl ▸ hp)).resolve_left hne
  · exact fun hu => absurd rfl (h.heap.mem_erase_iff.mp hu).1
  · have hc := h.count
    simp only [State.lives, State.set, hl, List.length_append, List.length_cons,
      List.length_nil] at hc ⊢
    omega

/-- The first pending task falls asleep. -/
theorem sleep (h : Inv s) {l : List T} (hl : s.pendingQueue = t :: l)
    (hs : (s.task t).status = .pending) (finite : Bool) :
    Inv { s.set t { s.task t with status := .waiting } with
      pendingQueue := l
      asleep := t :: s.asleep
      waitingQueue := if finite then t :: s.waitingQueue else s.waitingQueue } := by
  have hheap : t ∉ s.waitingQueue := fun ht => (h.waiting t ht).1 hs
  refine h.change { s.task t with status := .waiting } rfl rfl ?_ ?_
    (iff_of_true List.mem_cons_self rfl) ?_ ?_ ?_ ?_
  · refine List.perm_iff_count.mpr fun a => ?_
    simp only [State.lives, State.set, hl, List.count_append, List.count_cons]
    omega
  · exact fun u hu => List.mem_cons.trans (or_iff_right hu)
  · cases finite with
    | false => exact h.heap
    | true => exact List.nodup_cons.mpr ⟨hheap, h.heap⟩
  · intro u hu hne
    have hold : u ∈ s.waitingQueue := by
      cases finite with
      | false => exact hu
      | true => exact (List.mem_cons.mp hu).resolve_left hne
    refine ⟨hold, Or.imp (List.mem_cons_of_mem _) (Or.imp_right (Or.imp_right fun hp => ?_))⟩
    exact (List.mem_cons.mp (hl ▸ hp)).resolve_left hne
  · exact fun _ => ⟨nofun, .inl List.mem_cons_self⟩
  · have hc := h.count
    simp only [State.lives, State.set, hl, List.length_append, List.length_cons] at hc ⊢
    omega

theorem pendingDo (h : Inv s) {l : List T} (hl : s.pendingQueue = t :: l)
    (hasEvents finite : Bool) : Inv (IOCoreCount.pendingDo s t l hasEvents finite) := by
  unfold IOCoreCount.pendingDo
  dsimp only
  split
  · rename_i hs
    exact h.sleep hl hs.1 finite
  · have hnot : (s.task t).status ≠ .waiting := by
      intro hw
      have hone := h.count_le_one t
      have hpos : 0 < s.asleep.count t := List.count_pos_iff.mpr ((h.asleep t).mpr hw)
      rw [hl, List.count_cons_self] at hone
      omega
    split
    · exact h.dispatch hl { s.task t with status := .ready } rfl nofun
    · exact h.dispatch hl { s.task t with status := .closed, isClosed := true } rfl nofun
    · exact h.dispatch hl (s.task t) rfl hnot

/-- An expired task which was woken up leaves the heap. -/
theorem expired (h : Inv s) (t : T) : Inv { s with waitingQueue := s.waitingQueue.erase t } where
  nodup := h.nodup
  sub := h.sub
  asleep := h.asleep
  heap := h.heap.erase t
  waiting u hu := h.waiting u (List.mem_of_mem_erase hu)
  count := h.count

/-- A worker executes a task which is not closed. -/
theorem run (h : Inv s) {l : List T} (hl : s.readyQueue = t :: l) (x : IOTask)
    (hsub : x.sub = (s.task t).sub) (hx : x.status ≠ .waiting) :
    Inv { s.set t x with readyQueue := l, executed := t :: s.executed } := by
  have hone := h.count_le_one t
  rw [hl, List.count_cons_self] at hone
  have hnot : t ∉ s.asleep ∧ t ∉ s.woken ∧ t ∉ s.frontQueue ∧ t ∉ s.pendingQueue := by
    refine ⟨?_, ?_, ?_, ?_⟩ <;> rw [← List.count_pos_iff] <;> omega
  refine h.change x rfl hsub ?_ (fun u hu => .rfl) (iff_of_false hnot.1 hx) h.heap
    (fun u hu hne => ⟨hu, id⟩) ?_ ?_
  · refine List.perm_iff_count.mpr fun a => ?_
    simp only [State.lives, State.set, hl, List.count_append, List.count_cons]
    omega
  · intro hu
    have hplace := (h.waiting t hu).2
    tauto
  · have hc := h.count
    simp only [State.lives, State.set, hl, List.length_append, List.length_cons] at hc ⊢
    omega

/-- A worker executes a closed task for the last time. -/
theorem runFinal (h : Inv s) {l : List T} (hl : s.readyQueue = t :: l) (x : IOTask)
    (hsub : x.sub = false) (hx : x.status ≠ .waiting) :
    Inv { s.set t x with readyQueue := l, final := t :: s.final } := by
  have hperm : (s.attached ++ s.lives).Perm
      (t :: ({ s.set t x with readyQueue := l, final := t :: s.final } : State T).attached ++
        ({ s.set t x with readyQueue := l, final := t :: s.final } : State T).lives) := by
    refine List.perm_iff_count.mpr fun a => ?_
    simp only [State.lives, State.set, hl, List.count_append, List.count_cons]
    omega
  have hnodup := hperm.nodup_iff.mp h.nodup
  obtain ⟨hnot, hnd⟩ := List.nodup_cons.mp hnodup
  refine ⟨hnd, fun u => ?_, fun u => ?_, h.heap, fun u hu => ?_, ?_⟩
  · by_cases hu : u = t
    · subst hu
      refine iff_of_false ?_ hnot
      rw [congrArg IOTask.sub (set_self s u x : _ = x), hsub]
      exact Bool.false_ne_true
    · rw [congrArg IOTask.sub (set_ne s x hu : _ = s.task u), h.sub, hperm.mem_iff]
      exact List.mem_cons.trans (or_iff_right hu)
  · by_cases hu : u = t
    · subst hu
      refine iff_of_false (fun ha => hnot (List.mem_append_right _ (mem_lives.mpr ?_))) ?_
      · exact .inr (.inr (.inr (.inl ha)))
      · exact fun he => hx ((congrArg IOTask.status (set_self s u x)).symm.trans he)
    · rw [congrArg IOTask.status (set_ne s x hu : _ = s.task u)]
      exact h.asleep u
  · obtain ⟨hp, hplace⟩ := h.waiting u hu
    have hut : u ≠ t := by
      rintro rfl
      refine hnot (List.mem_append_right _ (mem_lives.mpr ?_))
      rcases hplace with ha | hw | hf | hq
      · exact .inr (.inr (.inr (.inl ha)))
      · exact .inr (.inr (.inr (.inr (.inl hw))))
      · exact .inr (.inl hf)
      · exact .inr (.inr (.inl hq))
    refine ⟨?_, hplace⟩
    rw [congrArg IOTask.status (set_ne s x hut : _ = s.task u)]
    exact hp
  · have hc := h.count
    simp only [State.lives, State.set, hl, List.length_append, List.length_cons] at hc ⊢
    omega

theorem execute (h : Inv s) {l : List T} (hl : s.readyQueue = t :: l) :
    Inv (IOCoreCount.execute s t l) := by
  have hnot : (s.task t).status ≠ .waiting := by
    intro hw
    have hone := h.count_le_one t
    have hpos : 0 < s.asleep.count t := List.count_pos_iff.mpr ((h.asleep t).mpr hw)
    rw [hl, List.count_cons_self] at hone
    omega
  unfold IOCoreCount.execute
  dsimp only
  by_cases hs : (s.task t).status = .ready
  · rw [if_pos hs]
    split
    · exact h.runFinal hl { s.task t with status := .pending, sub := false } rfl nofun
    · exact h.run hl { s.task t with status := .pending } rfl nofun
  · rw [if_neg hs]
    split
    · exact h.runFinal hl { s.task t with sub := false } rfl hnot
    · exact h.run hl (s.task t) rfl hnot

theorem step {a : Action T} (h : Inv s) (hs : IOCoreCount.step s a = some s') : Inv s' := by
  cases a with
  | attach t => exact h.attach hs
  | postStart t =>
    obtain ⟨ht, rfl⟩ := Option.ite_none_right_eq_some.mp hs |>.imp_right Option.some.inj
    exact h.postStart ht
  | post t =>
    obtain ⟨ht, rfl⟩ := Option.ite_none_right_eq_some.mp hs |>.imp_right Option.some.inj
    exact h.post ht
  | wakeup t => exact Option.some.inj hs ▸ h.wakeup t
  | close t => exact Option.some.inj hs ▸ h.close t
  | rePost t =>
    obtain ⟨ht, rfl⟩ := Option.ite_none_right_eq_some.mp hs |>.imp_right Option.some.inj
    exact h.rePost ht
  | takeFront => exact Option.some.inj hs ▸ h.takeFront
  | kernelDo t =>
    obtain ⟨ht, rfl⟩ := Option.ite_none_right_eq_some.mp hs |>.imp_right Option.some.inj
    exact h.rouse ht
  | pendingDo hasEvents finite =>
    rw [IOCoreCount.step] at hs
    split at hs
    · cases hs
    · rename_i t l hl
      exact Option.some.inj hs ▸ h.pendingDo hl hasEvents finite
  | expiredDo t =>
    obtain ⟨-, hs⟩ := Option.ite_none_right_eq_some.mp hs
    split at hs
    · rename_i hw
      exact Option.some.inj hs ▸ h.rouse hw
    · exact Option.some.inj hs ▸ h.expired t
  | pushReady => exact Option.some.inj hs ▸ h.pushReady
  | execute =>
    rw [IOCoreCount.step] at hs
    split at hs
    · cases hs
    · rename_i t l hl
      exact Option.some.inj hs ▸ h.execute hl
  | ended t =>
    obtain ⟨ht, rfl⟩ := Option.ite_none_right_eq_some.mp hs |>.imp_right Option.some.inj
    exact h.ended ht
  | closed t =>
    obtain ⟨ht, rfl⟩ := Option.ite_none_right_eq_some.mp hs |>.imp_right Option.some.inj
    exact h.closed ht

end Inv

/-- The invariant holds in every run. -/
theorem inv {s : State T} (h : machine.Reachable s) : Inv s := by
  refine machine.invariant (P := Inv) ?_ (fun s a s' hi hs => hi.step hs) h
  rintro _ rfl
  exact .new

/-- A task was posted. -/
def Action.posts : Action T → Bool
  | .postStart _ => true
  | _ => false

/-- A final execution has ended. -/
def Action.ends : Action T → Bool
  | .closed _ => true
  | _ => false

/-- The count changes when a task is posted and when its final execution ends. -/
theorem step_count {s s' : State T} {a : Action T} (h : Inv s) (hs : step s a = some s') :
    s'.descriptorCount + a.ends.toNat = s.descriptorCount + a.posts.toNat := by
  cases a with
  | attach t =>
    rw [step, attach] at hs
    dsimp only at hs
    split at hs
    · cases hs
    · split at hs
      · obtain ⟨-, hs⟩ := Option.ite_none_right_eq_some.mp hs
        exact Option.some.inj hs ▸ rfl
      · split at hs
        · cases hs
        · exact Option.some.inj hs ▸ rfl
  | postStart t | post t | rePost t | ended t =>
    obtain ⟨-, hs⟩ := Option.ite_none_right_eq_some.mp hs
    exact Option.some.inj hs ▸ rfl
  | wakeup t =>
    rw [← Option.some.inj hs, wakeup]
    dsimp only
    split <;> rfl
  | close t =>
    rw [← Option.some.inj hs, close]
    dsimp only
    split
    · rfl
    · split <;> rfl
  | takeFront | pushReady => exact Option.some.inj hs ▸ rfl
  | kernelDo t =>
    obtain ⟨-, hs⟩ := Option.ite_none_right_eq_some.mp hs
    exact Option.some.inj hs ▸ rfl
  | pendingDo hasEvents finite =>
    rw [step] at hs
    split at hs
    · cases hs
    · rw [← Option.some.inj hs, pendingDo]
      dsimp only
      split <;> rfl
  | expiredDo t =>
    obtain ⟨-, hs⟩ := Option.ite_none_right_eq_some.mp hs
    split at hs <;> exact Option.some.inj hs ▸ rfl
  | execute =>
    rw [step] at hs
    split at hs
    · cases hs
    · rw [← Option.some.inj hs, execute]
      dsimp only
      split <;> split <;> rfl
  | closed t =>
    obtain ⟨ht, hs⟩ := Option.ite_none_right_eq_some.mp hs
    have hpos := List.length_pos_of_mem ht
    have hc := h.count
    rw [← Option.some.inj hs]
    simp only [Action.ends, Action.posts, Bool.toNat_true, Bool.toNat_false]
    omega

/-- **The descriptor count**: in every run it is the number of the lives which were posted and whose
final execution has not ended, each of which is in one place. It is positive while a worker is in
a final execution, and all the queues are empty when it is zero. -/
theorem count_ok {as : List (Action T)} {s : State T} (h : machine.run .new as = some s) :
    s.descriptorCount = s.lives.length + s.final.length ∧
    s.lives.Nodup ∧ (∀ t, t ∈ s.lives ↔ (s.task t).sub = true ∧ t ∉ s.attached) ∧
    as.countP Action.posts = s.descriptorCount + as.countP Action.ends ∧
    (s.final ≠ [] → 0 < s.descriptorCount) ∧
    (s.descriptorCount = 0 → s.frontQueue = [] ∧ s.pendingQueue = [] ∧ s.waitingQueue = [] ∧
      s.ready = [] ∧ s.readyQueue = []) := by
  have hi := inv (Machine.Reachable.of_run (.init rfl) h)
  refine ⟨hi.count, (List.nodup_append.mp hi.nodup).2.1,
    fun t => ⟨fun ht => ⟨?_, fun ha => ?_⟩, ?_⟩, ?_, fun hf => ?_, fun hzero => ?_⟩
  · exact (hi.sub t).mpr (List.mem_append_right _ ht)
  · exact (List.nodup_append.mp hi.nodup).2.2 t ha t ht rfl
  · rintro ⟨hsub, ha⟩
    exact (List.mem_append.mp ((hi.sub t).mp hsub)).resolve_left ha
  · refine Machine.run_history (H := fun as s => as.countP Action.posts =
      s.descriptorCount + as.countP Action.ends) rfl (fun as a u u' hrun hH hs => ?_) h
    have hu := inv (Machine.Reachable.of_run (.init rfl) hrun)
    have hstep := step_count hu hs
    have hone : ∀ p : Action T → Bool, (as ++ [a]).countP p = as.countP p + (p a).toNat := by
      intro p
      rw [List.countP_append, List.countP_singleton]
      cases p a <;> rfl
    rw [hone, hone]
    omega
  · have hpos := List.length_pos_iff.mpr hf
    have hcount := hi.count
    omega
  · have hcount := hi.count
    have hlen : s.lives.length = 0 := by omega
    have hnil : ∀ t, t ∉ s.lives := by
      rw [List.length_eq_zero_iff.mp hlen]
      exact fun t => List.not_mem_nil
    have hwaiting : s.waitingQueue = [] := by
      refine List.eq_nil_iff_forall_not_mem.mpr fun t ht => hnil t ?_
      rw [Inv.mem_lives]
      have hplace := (hi.waiting t ht).2
      tauto
    simp only [State.lives, List.length_append] at hlen
    refine ⟨?_, ?_, hwaiting, ?_, ?_⟩ <;> rw [← List.length_eq_zero_iff] <;> omega

/-- A task is posted, closed, posted again in its final execution, and executed by another worker
before the first one is ready. -/
def reused : List (Action ℕ) :=
  [.attach 1, .postStart 1, .post 1, .takeFront, .pendingDo false true, .close 1, .rePost 1,
    .takeFront, .pendingDo false true, .pushReady, .execute, .attach 1, .postStart 1, .post 1,
    .takeFront, .pendingDo true true, .pushReady, .execute]

theorem reused_count : ∃ s, machine.run .new reused = some s ∧ s.executed = [1] ∧ s.final = [1] ∧
    s.descriptorCount = 2 ∧ reused.countP Action.posts = 2 + reused.countP Action.ends := by
  have hrun : ((machine.run .new reused).map fun s : State ℕ =>
      (s.lives.length, s.executed, s.final)) = some (1, [1], [1]) := by
    decide +kernel
  simp only [Option.map_eq_some_iff, Prod.mk.injEq] at hrun
  obtain ⟨s, hs, hlen, he, hf⟩ := hrun
  obtain ⟨hcount, -, -, hposts, -⟩ := count_ok hs
  rw [hlen, hf] at hcount
  exact ⟨s, hs, he, hf, hcount, hcount ▸ hposts⟩

end IOCoreCount

end Serverbox
