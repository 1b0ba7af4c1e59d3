import Mathlib.Data.List.Pairwise
import Serverbox.Aio.IOCoreEpoll

/-!
# The places of the tasks of the epoll core

The queues of the core and the hands of the threads are the places of a task, and it is in one of
them. A step of the core moves one task, or pours one queue into another one.

## Main definitions

* `IOCoreEpoll.contents`, `IOCoreEpoll.place`: the tasks in a place, and the place of a task.
* `IOCoreEpoll.Moves`: one task is moved and gets new fields.

## Main results

* `IOCoreEpoll.place_eq`: a task is in one place only.
-/

namespace Serverbox

namespace IOCoreEpoll

variable {T : Type*}

/-- The tasks in a place. -/
def contents (c : IOCoreCount.State T) : Place → List T
  | .outside => []
  | .attached => c.attached
  | .posted => c.posted
  | .frontQueue => c.frontQueue
  | .pendingQueue => c.pendingQueue
  | .asleep => c.asleep
  | .woken => c.woken
  | .ready => c.ready
  | .readyQueue => c.readyQueue
  | .executed => c.executed

/-- The places of the tasks which were posted. -/
def Place.all : List Place :=
  [.attached, .posted, .frontQueue, .pendingQueue, .asleep, .woken, .ready, .readyQueue, .executed]

variable [DecidableEq T]

/-- The place of a task. -/
def place (c : IOCoreCount.State T) (t : T) : Place :=
  (Place.all.find? fun p => decide (t ∈ contents c p)).getD .outside

variable {c c' : IOCoreCount.State T} {t u : T} {p q : Place}

omit [DecidableEq T] in
theorem Place.mem_all (ht : t ∈ contents c p) : p ∈ Place.all := by
  cases p with
  | outside => cases ht
  | _ => decide

omit [DecidableEq T] in
theorem flatMap_contents (c : IOCoreCount.State T) :
    Place.all.flatMap (contents c) = c.attached ++ c.lives := by
  simp only [Place.all, List.flatMap_cons, List.flatMap_nil, contents, IOCoreCount.State.lives,
    List.append_assoc, List.append_nil]

omit [DecidableEq T] in
/-- A task is in one place only. -/
theorem eq_of_mem (h : IOCoreCount.Inv c) (hp : t ∈ contents c p) (hq : t ∈ contents c q) :
    p = q := by
  have hnodup := h.nodup
  rw [← flatMap_contents, List.nodup_flatMap] at hnodup
  by_contra hne
  have hsymm : Std.Symm (Function.onFun List.Disjoint (contents c)) := ⟨fun _ _ hd => hd.symm⟩
  exact hnodup.2.forall (Place.mem_all hp) (Place.mem_all hq) hne hp hq

/-- The place of a task is where it is. -/
theorem place_eq (h : IOCoreCount.Inv c) (hp : t ∈ contents c p) : place c t = p := by
  have hsome : (Place.all.find? fun q => decide (t ∈ contents c q)).isSome = true :=
    List.find?_isSome.mpr ⟨p, Place.mem_all hp, by simpa using hp⟩
  obtain ⟨q, hfind⟩ := Option.isSome_iff_exists.mp hsome
  have hq : t ∈ contents c q := by simpa using List.find?_some hfind
  rw [place, hfind, Option.getD_some, eq_of_mem h hp hq]

theorem mem_of_place (hp : place c t = p) (hne : p ≠ .outside) : t ∈ contents c p := by
  rw [place] at hp
  cases hfind : Place.all.find? fun q => decide (t ∈ contents c q) with
  | none =>
    rw [hfind] at hp
    exact absurd hp.symm hne
  | some q =>
    rw [hfind, Option.getD_some] at hp
    subst hp
    simpa using List.find?_some hfind

theorem place_eq_iff (h : IOCoreCount.Inv c) (hne : p ≠ .outside) :
    place c t = p ↔ t ∈ contents c p :=
  ⟨fun hp => mem_of_place hp hne, place_eq h⟩

theorem place_outside (hp : ∀ p, t ∉ contents c p) : place c t = .outside := by
  by_contra hne
  exact hp _ (mem_of_place rfl hne)

/-- A task which is attached or counted is in some place. -/
theorem mem_lives_iff (h : IOCoreCount.Inv c) :
    t ∈ c.attached ++ c.lives ↔ place c t ≠ .outside := by
  rw [← flatMap_contents, List.mem_flatMap]
  constructor
  · rintro ⟨p, -, ht⟩
    rw [place_eq h ht]
    rintro rfl
    cases ht
  · exact fun hne => ⟨_, Place.mem_all (mem_of_place rfl hne), mem_of_place rfl hne⟩

/-- A task which is not moved. -/
theorem place_congr (h : ∀ p, u ∈ contents c' p ↔ u ∈ contents c p) : place c' u = place c u := by
  simp only [place, h]

/-- One task is moved and gets new fields. -/
structure Moves (c c' : IOCoreCount.State T) (t : T) (p : Place) (x : IOCoreCount.IOTask)
    (inHeap : Bool) : Prop where
  place : place c' t = p
  task : c'.task t = x
  heap : decide (t ∈ c'.waitingQueue) = inHeap
  other : ∀ u ≠ t, IOCoreEpoll.place c' u = IOCoreEpoll.place c u ∧ c'.task u = c.task u ∧
    (u ∈ c'.waitingQueue ↔ u ∈ c.waitingQueue)

/-- A task is moved to a place. -/
theorem Moves.of_mem {x : IOCoreCount.IOTask} {inHeap : Bool} (h' : IOCoreCount.Inv c')
    (hp : t ∈ contents c' p) (htask : c'.task = Function.update c.task t x)
    (hheap : decide (t ∈ c'.waitingQueue) = inHeap)
    (hplace : ∀ u ≠ t, ∀ q, u ∈ contents c' q ↔ u ∈ contents c q)
    (hother : ∀ u ≠ t, u ∈ c'.waitingQueue ↔ u ∈ c.waitingQueue) : Moves c c' t p x inHeap where
  place := place_eq h' hp
  task := by rw [htask, Function.update_self]
  heap := hheap
  other u hu := ⟨place_congr (hplace u hu), by rw [htask, Function.update_of_ne hu], hother u hu⟩

/-- A task gets new fields where it is. -/
theorem Moves.of_same {x : IOCoreCount.IOTask} (hp : contents c' = contents c)
    (htask : c'.task = Function.update c.task t x) (hheap : c'.waitingQueue = c.waitingQueue) :
    Moves c c' t (IOCoreEpoll.place c t) x (decide (t ∈ c.waitingQueue)) where
  place := place_congr fun p => by rw [hp]
  task := by rw [htask, Function.update_self]
  heap := by rw [hheap]
  other u hu := ⟨place_congr fun p => by rw [hp], by rw [htask, Function.update_of_ne hu],
    by rw [hheap]⟩

omit [DecidableEq T] in
theorem mem_concat_ne {l : List T} (hu : u ≠ t) : u ∈ l ++ [t] ↔ u ∈ l := by
  simp [hu]

omit [DecidableEq T] in
theorem mem_cons_ne {l : List T} (hu : u ≠ t) : u ∈ t :: l ↔ u ∈ l := by
  simp [hu]

omit [DecidableEq T] in
theorem mem_tail_ne {l m : List T} (hm : m = t :: l) (hu : u ≠ t) : u ∈ l ↔ u ∈ m :=
  hm ▸ (mem_cons_ne hu).symm

/-- A task is attached. -/
theorem Moves.attach (h : IOCoreCount.Inv c) (hs : IOCoreCount.step c (.attach t) = some c') :
    ∃ x, Moves c c' t .attached x (decide (t ∈ c.waitingQueue)) ∧ IOCoreEpoll.place c t = .outside ∧
      (x = { c.task t with sub := true } ∧ (c.task t).status ≠ .closed ∨
        x = ⟨.pending, true, false, false⟩ ∧ (c.task t).status = .closed) := by
  have h' := h.step hs
  rw [IOCoreCount.step, IOCoreCount.attach] at hs
  dsimp only at hs
  split at hs
  · cases hs
  · rename_i hsub
    have hout : IOCoreEpoll.place c t = .outside := by
      refine place_outside fun p hp => hsub ((h.sub t).mpr ?_)
      rw [← flatMap_contents]
      exact List.mem_flatMap.mpr ⟨p, Place.mem_all hp, hp⟩
    have hmove : ∀ x : IOCoreCount.IOTask, c' = { c.set t x with attached := t :: c.attached } →
        Moves c c' t .attached x (decide (t ∈ c.waitingQueue)) := by
      rintro x rfl
      refine .of_mem h' List.mem_cons_self rfl rfl (fun u hu q => ?_) (fun u hu => .rfl)
      cases q with
      | attached => exact mem_cons_ne hu
      | _ => exact .rfl
    split at hs
    · rename_i hst
      obtain ⟨-, hs⟩ := Option.ite_none_right_eq_some.mp hs
      exact ⟨_, hmove _ (Option.some.inj hs).symm, hout, .inr ⟨rfl, hst⟩⟩
    · rename_i hst
      split at hs
      · cases hs
      · exact ⟨_, hmove _ (Option.some.inj hs).symm, hout, .inl ⟨rfl, hst⟩⟩

/-- A task goes from one list to another one, where it keeps its fields. -/
theorem Moves.step (h : IOCoreCount.Inv c) {a : IOCoreCount.Action T}
    (hs : IOCoreCount.step c a = some c') (hp : t ∈ contents c' p) (htask : c'.task = c.task)
    (hheap : c'.waitingQueue = c.waitingQueue)
    (hplace : ∀ u ≠ t, ∀ q, u ∈ contents c' q ↔ u ∈ contents c q) :
    Moves c c' t p (c.task t) (decide (t ∈ c.waitingQueue)) :=
  .of_mem (h.step hs) hp (by rw [htask, Function.update_eq_self]) (by rw [hheap]) hplace
    fun u _ => by rw [hheap]

theorem Moves.postStart (h : IOCoreCount.Inv c)
    (hs : IOCoreCount.step c (.postStart t) = some c') :
    Moves c c' t .posted (c.task t) (decide (t ∈ c.waitingQueue)) ∧
      IOCoreEpoll.place c t = .attached := by
  obtain ⟨ht, he⟩ := Option.ite_none_right_eq_some.mp hs
  obtain rfl := Option.some.inj he
  refine ⟨.step h hs List.mem_cons_self rfl rfl fun u hu q => ?_, place_eq h ht⟩
  cases q with
  | attached => exact List.mem_erase_of_ne hu
  | posted => exact mem_cons_ne hu
  | _ => exact .rfl

theorem Moves.post (h : IOCoreCount.Inv c) (hs : IOCoreCount.step c (.post t) = some c') :
    Moves c c' t .frontQueue (c.task t) (decide (t ∈ c.waitingQueue)) ∧
      IOCoreEpoll.place c t = .posted := by
  obtain ⟨ht, he⟩ := Option.ite_none_right_eq_some.mp hs
  obtain rfl := Option.some.inj he
  refine ⟨.step h hs (List.mem_append_right _ (List.mem_singleton_self t)) rfl rfl fun u hu q => ?_,
    place_eq h ht⟩
  cases q with
  | posted => exact List.mem_erase_of_ne hu
  | frontQueue => exact mem_concat_ne hu
  | _ => exact .rfl

theorem Moves.rePost (h : IOCoreCount.Inv c) (hs : IOCoreCount.step c (.rePost t) = some c') :
    Moves c c' t .frontQueue (c.task t) (decide (t ∈ c.waitingQueue)) ∧
      IOCoreEpoll.place c t = .woken := by
  obtain ⟨ht, he⟩ := Option.ite_none_right_eq_some.mp hs
  obtain rfl := Option.some.inj he
  refine ⟨.step h hs (List.mem_append_right _ (List.mem_singleton_self t)) rfl rfl fun u hu q => ?_,
    place_eq h ht⟩
  cases q with
  | woken => exact List.mem_erase_of_ne hu
  | frontQueue => exact mem_concat_ne hu
  | _ => exact .rfl

theorem Moves.ended (h : IOCoreCount.Inv c) (hs : IOCoreCount.step c (.ended t) = some c') :
    Moves c c' t .frontQueue (c.task t) (decide (t ∈ c.waitingQueue)) ∧
      IOCoreEpoll.place c t = .executed := by
  obtain ⟨ht, he⟩ := Option.ite_none_right_eq_some.mp hs
  obtain rfl := Option.some.inj he
  refine ⟨.step h hs (List.mem_append_right _ (List.mem_singleton_self t)) rfl rfl fun u hu q => ?_,
    place_eq h ht⟩
  cases q with
  | executed => exact List.mem_erase_of_ne hu
  | frontQueue => exact mem_concat_ne hu
  | _ => exact .rfl

/-- A task which sleeps is woken up by a thread. -/
theorem Moves.woken (h' : IOCoreCount.Inv c') (x : IOCoreCount.IOTask)
    (hc : c' = { c.set t x with asleep := c.asleep.erase t, woken := t :: c.woken }) :
    Moves c c' t .woken x (decide (t ∈ c.waitingQueue)) := by
  subst hc
  refine .of_mem h' List.mem_cons_self rfl rfl (fun u hu q => ?_) (fun u _ => .rfl)
  cases q with
  | asleep => exact List.mem_erase_of_ne hu
  | woken => exact mem_cons_ne hu
  | _ => exact .rfl

/-- The scheduler makes a task ready which sleeps. -/
theorem Moves.rouse (h : IOCoreCount.Inv c) (hw : (c.task t).status = .waiting) :
    Moves c (c.rouse t) t .ready { c.task t with status := .ready } false := by
  refine .of_mem (h.rouse hw) (List.mem_append_right _ (List.mem_singleton_self t)) rfl ?_
    (fun u hu q => ?_) (fun u hu => List.mem_erase_of_ne hu)
  · exact decide_eq_false fun hm => (h.heap.mem_erase_iff.mp hm).1 rfl
  · cases q with
    | asleep => exact List.mem_erase_of_ne hu
    | ready => exact mem_concat_ne hu
    | _ => exact .rfl

/-- An expired task which was woken up leaves the heap. -/
theorem Moves.expired (h : IOCoreCount.Inv c) (t : T) :
    Moves c { c with waitingQueue := c.waitingQueue.erase t } t (IOCoreEpoll.place c t) (c.task t)
      false where
  place := place_congr fun p => by cases p <;> rfl
  task := rfl
  heap := decide_eq_false fun hm => (h.heap.mem_erase_iff.mp hm).1 rfl
  other u hu := ⟨place_congr fun p => by cases p <;> rfl, rfl, List.mem_erase_of_ne hu⟩

/-- The first pending task falls asleep. -/
theorem Moves.sleep (h : IOCoreCount.Inv c) {l : List T} (hl : c.pendingQueue = t :: l)
    (hs : (c.task t).status = .pending) (finite : Bool) :
    Moves c (IOCoreCount.pendingDo c t l false finite) t .asleep
      { c.task t with status := .waiting } finite := by
  have h' := h.pendingDo hl false finite
  have hheap : t ∉ c.waitingQueue := fun ht => (h.waiting t ht).1 hs
  rw [IOCoreCount.pendingDo] at h' ⊢
  simp only [hs, and_self, if_true] at h' ⊢
  refine .of_mem h' List.mem_cons_self rfl ?_ (fun u hu q => ?_) (fun u hu => ?_)
  · cases finite with
    | false => exact decide_eq_false hheap
    | true => exact decide_eq_true List.mem_cons_self
  · cases q with
    | asleep => exact mem_cons_ne hu
    | pendingQueue => exact mem_tail_ne hl hu
    | _ => exact .rfl
  · cases finite with
    | false => exact .rfl
    | true => exact mem_cons_ne hu

/-- The first pending task goes to the ready ones. -/
theorem Moves.ready (h' : IOCoreCount.Inv c') (h : IOCoreCount.Inv c) {l : List T}
    (hl : c.pendingQueue = t :: l) (x : IOCoreCount.IOTask)
    (hc : c' = { c.set t x with
      pendingQueue := l, waitingQueue := c.waitingQueue.erase t, ready := c.ready ++ [t] }) :
    Moves c c' t .ready x false := by
  subst hc
  refine .of_mem h' (List.mem_append_right _ (List.mem_singleton_self t)) rfl ?_ (fun u hu q => ?_)
    (fun u hu => List.mem_erase_of_ne hu)
  · exact decide_eq_false fun hm => (h.heap.mem_erase_iff.mp hm).1 rfl
  · cases q with
    | ready => exact mem_concat_ne hu
    | pendingQueue => exact mem_tail_ne hl hu
    | _ => exact .rfl

/-- The first pending task becomes ready. -/
theorem Moves.dispatch (h : IOCoreCount.Inv c) {l : List T} (hl : c.pendingQueue = t :: l)
    {hasEvents : Bool} (finite : Bool) (hs : ¬((c.task t).status = .pending ∧ hasEvents = false))
    (hcl : (c.task t).status ≠ .closing) :
    Moves c (IOCoreCount.pendingDo c t l hasEvents finite) t .ready { c.task t with
      status := if (c.task t).status = .pending then .ready else (c.task t).status } false := by
  refine .ready (h.pendingDo hl hasEvents finite) h hl _ ?_
  rw [IOCoreCount.pendingDo]
  dsimp only
  rw [if_neg hs]
  generalize c.task t = x at hs hcl ⊢
  obtain ⟨status, sub, isClosed, closeGuard⟩ := x
  cases status with
  | closing => exact absurd rfl hcl
  | _ => rfl

/-- The first pending task is closed. -/
theorem Moves.closeDo (h : IOCoreCount.Inv c) {l : List T} (hl : c.pendingQueue = t :: l)
    (hasEvents finite : Bool) (hcl : (c.task t).status = .closing) :
    Moves c (IOCoreCount.pendingDo c t l hasEvents finite) t .ready
      { c.task t with status := .closed, isClosed := true } false := by
  refine .ready (h.pendingDo hl hasEvents finite) h hl _ ?_
  rw [IOCoreCount.pendingDo]
  simp only [hcl]
  rfl

/-- A worker executes a task which is not closed. -/
theorem Moves.execute (h : IOCoreCount.Inv c) {l : List T} (hl : c.readyQueue = t :: l)
    (hc : (c.task t).isClosed = false) :
    Moves c (IOCoreCount.execute c t l) t .executed { c.task t with
      status := if (c.task t).status = .ready then .pending else (c.task t).status }
      (decide (t ∈ c.waitingQueue)) := by
  have h' := h.execute hl
  have hx : (if (c.task t).status = .ready then { c.task t with status := .pending }
      else c.task t) = { c.task t with
        status := if (c.task t).status = .ready then .pending else (c.task t).status } := by
    split <;> rfl
  rw [IOCoreCount.execute] at h' ⊢
  dsimp only at h' ⊢
  rw [hx, if_neg (by simp [hc])] at h' ⊢
  refine .of_mem h' List.mem_cons_self rfl rfl (fun u hu q => ?_) (fun u _ => .rfl)
  cases q with
  | executed => exact mem_cons_ne hu
  | readyQueue => exact mem_tail_ne hl hu
  | _ => exact .rfl

/-- A task leaves the core. -/
theorem Moves.leave (h' : IOCoreCount.Inv c') {l : List T} (hl : c.readyQueue = t :: l)
    {x : IOCoreCount.IOTask} (hx : x.sub = false)
    (hc : c' = { c.set t x with readyQueue := l, final := t :: c.final }) :
    Moves c c' t .outside x (decide (t ∈ c.waitingQueue)) := by
  have htask : c'.task t = x := by
    rw [hc]
    exact Function.update_self ..
  refine ⟨place_outside fun p hp => ?_, htask, by rw [hc]; rfl,
    fun u hu => ⟨?_, ?_, by rw [hc]; rfl⟩⟩
  · have hsub : (c'.task t).sub = true := by
      rw [h'.sub, ← flatMap_contents]
      exact List.mem_flatMap.mpr ⟨p, Place.mem_all hp, hp⟩
    rw [htask, hx] at hsub
    cases hsub
  · subst hc
    refine place_congr fun q => ?_
    cases q with
    | readyQueue => exact mem_tail_ne hl hu
    | _ => exact .rfl
  · rw [hc]
    exact Function.update_of_ne hu ..

/-- A worker executes a closed task for the last time. -/
theorem Moves.final (h : IOCoreCount.Inv c) {l : List T} (hl : c.readyQueue = t :: l)
    (hc : (c.task t).isClosed = true) :
    Moves c (IOCoreCount.execute c t l) t .outside { c.task t with
      status := if (c.task t).status = .ready then .pending else (c.task t).status
      sub := false } (decide (t ∈ c.waitingQueue)) := by
  have h' := h.execute hl
  have hx : (if (c.task t).status = .ready then { c.task t with status := .pending }
      else c.task t) = { c.task t with
        status := if (c.task t).status = .ready then .pending else (c.task t).status } := by
    split <;> rfl
  rw [IOCoreCount.execute] at h' ⊢
  dsimp only at h' ⊢
  rw [hx, if_pos hc] at h' ⊢
  exact .leave h' hl rfl rfl

/-- The scheduler takes the front queue. -/
theorem place_takeFront (h : IOCoreCount.Inv c) (hs : IOCoreCount.step c .takeFront = some c')
    (u : T) : place c' u = if place c u = .frontQueue then .pendingQueue else place c u := by
  have h' := h.step hs
  obtain rfl := Option.some.inj hs
  split
  · rename_i hu
    exact place_eq h' (List.mem_append_right _ (mem_of_place hu nofun))
  · rename_i hu
    refine place_congr fun p => ?_
    have hnot : u ∉ c.frontQueue := fun hm => hu (place_eq h (p := .frontQueue) hm)
    cases p with
    | frontQueue => exact iff_of_false List.not_mem_nil hnot
    | pendingQueue => exact List.mem_append.trans (or_iff_left hnot)
    | _ => exact .rfl

/-- The scheduler gives the ready tasks to the workers. -/
theorem place_pushReady (h : IOCoreCount.Inv c) (hs : IOCoreCount.step c .pushReady = some c')
    (u : T) : place c' u = if place c u = .ready then .readyQueue else place c u := by
  have h' := h.step hs
  obtain rfl := Option.some.inj hs
  split
  · rename_i hu
    exact place_eq h' (List.mem_append_right _ (mem_of_place hu nofun))
  · rename_i hu
    refine place_congr fun p => ?_
    have hnot : u ∉ c.ready := fun hm => hu (place_eq h (p := .ready) hm)
    cases p with
    | ready => exact iff_of_false List.not_mem_nil hnot
    | readyQueue => exact List.mem_append.trans (or_iff_left hnot)
    | _ => exact .rfl

/-- The lists of the core after the beginning of an execution. -/
theorem execute_lists (c : IOCoreCount.State T) (t : T) (l : List T) :
    (IOCoreCount.execute c t l).ready = c.ready ∧
    (IOCoreCount.execute c t l).executed =
      (if (c.task t).isClosed then c.executed else t :: c.executed) ∧
    (IOCoreCount.execute c t l).final =
      (if (c.task t).isClosed then t :: c.final else c.final) := by
  have hx : (if (c.task t).status = .ready then { c.task t with status := .pending }
      else c.task t).isClosed = (c.task t).isClosed := by
    split <;> rfl
  rw [IOCoreCount.execute]
  dsimp only
  rw [hx]
  split <;> exact ⟨rfl, rfl, rfl⟩

theorem count_cons_decide (l : List T) (t u : T) :
    (t :: l).count u = l.count u + (decide (some t = some u)).toNat := by
  by_cases hu : t = u
  · subst hu
    simp
  · simp [hu]

theorem count_erase_decide {l : List T} (ht : t ∈ l) (u : T) :
    (l.erase t).count u + (decide (some t = some u)).toNat = l.count u := by
  rw [← count_cons_decide]
  exact (List.perm_cons_erase ht).symm.count_eq u

theorem attach_lists (hs : IOCoreCount.step c (.attach t) = some c') :
    c'.ready = c.ready ∧ c'.executed = c.executed ∧ c'.final = c.final := by
  rw [IOCoreCount.step, IOCoreCount.attach] at hs
  dsimp only at hs
  split at hs
  · cases hs
  · split at hs
    · obtain ⟨-, hs⟩ := Option.ite_none_right_eq_some.mp hs
      exact Option.some.inj hs ▸ ⟨rfl, rfl, rfl⟩
    · obtain ⟨-, hs⟩ := Option.ite_none_left_eq_some.mp hs
      exact Option.some.inj hs ▸ ⟨rfl, rfl, rfl⟩

theorem wakeup_lists (c : IOCoreCount.State T) (t : T) :
    (IOCoreCount.wakeup c t).ready = c.ready ∧ (IOCoreCount.wakeup c t).executed = c.executed ∧
    (IOCoreCount.wakeup c t).final = c.final := by
  rw [IOCoreCount.wakeup]
  dsimp only
  split <;> exact ⟨rfl, rfl, rfl⟩

theorem close_lists (c : IOCoreCount.State T) (t : T) :
    (IOCoreCount.close c t).ready = c.ready ∧ (IOCoreCount.close c t).executed = c.executed ∧
    (IOCoreCount.close c t).final = c.final := by
  rw [IOCoreCount.close]
  dsimp only
  split
  · exact ⟨rfl, rfl, rfl⟩
  · split <;> exact ⟨rfl, rfl, rfl⟩

theorem wakeup_status (c : IOCoreCount.State T) (hs : (c.task t).status ≠ .closed) :
    ((IOCoreCount.wakeup c t).task t).status = .ready ∨
      ((IOCoreCount.wakeup c t).task t).status = .closing := by
  rw [IOCoreCount.wakeup]
  dsimp only
  cases hst : (c.task t).status with
  | waiting | pending => exact .inl (by simp [IOCoreCount.State.set])
  | ready => exact .inl hst
  | closing => exact .inr hst
  | closed => exact absurd hst hs

end IOCoreEpoll

end Serverbox
