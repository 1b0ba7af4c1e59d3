import Mathlib.Data.Finset.Card
import Serverbox.Aio.IOCoreEpollProgress

/-!
# The epoll core delivers deadlines and events

A task which sleeps with a deadline is in the heap. When the deadline has passed, the wait for epoll
ends, and each round takes the first task of the heap. The tasks which come to the heap then have
later deadlines, so that the task is taken after the ones which were before it.

An event which `epoll_wait` returned is pending at the end of the round or is given to a worker, and
a task with pending events gets to a round which gives them to a worker.

## Main definitions

* `IOCoreEpoll.due`: the tasks of the heap whose deadlines have passed.
* `IOCoreEpoll.Life.toGo`: how far an event is from the execution with it.
* `IOCoreEpoll.FairEpoll`: what is promised of `epoll_wait`.

## Main results

* `IOCoreEpoll.deadline_served`, `IOCoreEpoll.event_served`: a deadline and an event are served.
-/

namespace Serverbox

namespace IOCoreEpoll

variable {T Θ : Type*} [DecidableEq T] {c : Config} {s s' : State T Θ} {t : T} {θ : Θ}

/-! ### Deadlines -/

section Life

variable {l l' : Life}

/-- The deadline of a task of the heap does not change. -/
theorem Life.Step.deadline_heap (h : Life.Step l l') (hc : l.Core) (ho : l.Ok)
    (hin : l'.inHeap = true) : l'.task.deadline = l.task.deadline := by
  cases h with
  | execute hp | final hp =>
    have hplace := (hc.heap hin).2
    rw [hp] at hplace
    simp at hplace
  | setDeadline d hq =>
    have hplace := (hc.heap hin).2
    rw [ho.inQueues] at hq
    rcases hplace with hp | hp | hp | hp <;> rw [hp] at hq <;> cases hq
  | _ => rfl

/-- The deadline of a task which sleeps does not change. -/
theorem Life.Step.deadline_asleep (h : Life.Step l l') (ho : l.Ok) (hp : l.place = .asleep) :
    l'.task.deadline = l.task.deadline := by
  cases h with
  | execute hout | final hout =>
    rw [hp] at hout
    cases hout
  | setDeadline d hq =>
    rw [ho.inQueues, hp] at hq
    cases hq
  | _ => rfl

/-- A finite deadline goes only with an execution. -/
theorem Life.Step.deadline_finite (h : Life.Step l l') (hd : l.task.deadline < timeInfinite) :
    (∃ isClosed args, l'.task.log = l.task.log ++ [Call.onEvent isClosed args]) ∨
      l'.task.deadline < timeInfinite := by
  cases h with
  | execute hp hcl => exact .inl ⟨false, _, rfl⟩
  | final hp hcl => exact .inl ⟨true, _, rfl⟩
  | setDeadline d hq => exact .inr (Nat.lt_of_le_of_lt (Nat.min_le_right ..) hd)
  | _ => exact .inr hd

end Life

/-- The tasks of the heap whose deadlines are not after a moment. -/
def due (s : State T Θ) (d : ℕ) : Finset T :=
  s.core.waitingQueue.toFinset.filter fun t => (s.task t).deadline ≤ d

theorem mem_due {d : ℕ} :
    t ∈ due s d ↔ t ∈ s.core.waitingQueue ∧ (s.task t).deadline ≤ d := by
  rw [due, Finset.mem_filter, List.mem_toFinset]

namespace FairRun

variable [DecidableEq Θ] {f : ℕ → State T Θ} {i k d : ℕ}

/-- What a step does to the clock and to the start of the last round. -/
theorem clock (h : FairRun c f) (k : ℕ) : (f k).now ≤ (f (k + 1)).now ∧
    ((f (k + 1)).timestamp = (f k).timestamp ∨ (f (k + 1)).timestamp = (f k).now) := by
  rcases h.run k with he | ⟨a, ha⟩
  · rw [he]
    exact ⟨le_rfl, .inl rfl⟩
  · rcases turn_or_aside ha with ⟨θ, w, hturn⟩ | haside
    · exact ⟨hturn.clock.1.ge, hturn.clock.2⟩
    · exact ⟨haside.now, .inl haside.timestamp⟩

theorem now_mono (h : FairRun c f) (hk : i ≤ k) : (f i).now ≤ (f k).now := by
  induction hk with
  | refl => exact le_rfl
  | @step k hk ih => exact ih.trans (h.clock k).1

/-- What comes to the heap has a deadline after the start of the round. -/
theorem heap_step (h : FairRun c f) (k : ℕ) {u : T} (hu : u ∈ (f (k + 1)).core.waitingQueue) :
    ((f (k + 1)).task u).deadline = ((f k).task u).deadline ∧
      (u ∈ (f k).core.waitingQueue ∨ (f k).timestamp < ((f k).task u).deadline) := by
  constructor
  · rcases h.life_step k u with he | hstep
    · exact congrArg (fun l => l.task.deadline) he
    · exact hstep.deadline_heap (life_core (h.inv k).core u) ((h.inv k).ok u) (decide_eq_true hu)
  · rcases h.run k with he | ⟨a, ha⟩
    · exact .inl (he ▸ hu)
    · rcases turn_or_aside ha with ⟨θ, w, hturn⟩ | haside
      · exact hturn.heap u hu
      · exact .inl (haside.heap ▸ hu)

theorem due_step (h : FairRun c f) (hd : d ≤ (f k).timestamp) :
    due (f (k + 1)) d ⊆ due (f k) d := by
  intro u hu
  obtain ⟨hin, hle⟩ := mem_due.mp hu
  obtain ⟨hsame, hold⟩ := h.heap_step k hin
  rw [hsame] at hle
  exact mem_due.mpr ⟨hold.resolve_right (Nat.not_lt.mpr (hle.trans hd)), hle⟩

/-- A round takes the first task of the heap when its deadline has passed. -/
theorem due_drops (h : FairRun c f) (hb : 1 < c.schedBatchSize)
    (ht : ∀ k ≥ i, t ∈ due (f k) d) (hd : ∀ k ≥ i, d ≤ (f k).timestamp)
    (hw : (f i).worker θ = .popFront) : ∃ k ≥ i, due (f (k + 1)) d ⊂ due (f k) d := by
  obtain ⟨k, hk, hw⟩ := h.reaches
    (A := fun w => w = .popFront ∨ w = .kernelDo ∨ ∃ batch, w = .pendingDo batch)
    (B := fun w => w = .waitingDo 0) (by rintro w (rfl | rfl | ⟨batch, rfl⟩) <;> rfl)
    (fun k _ w w' hA hn => by
      have hlt := hn.turns (by rintro rfl; simp at hA) (by rintro rfl; simp at hA)
      cases hn with
      | pendingEnd => exact .inl rfl
      | popFront | kernelDo => exact .inr ⟨.inr (.inl rfl), hlt.resolve_left Bool.false_ne_true⟩
      | kernelEnd | pendingDo =>
        exact .inr ⟨.inr (.inr ⟨_, rfl⟩), hlt.resolve_left Bool.false_ne_true⟩
      | _ => simp at hA) (Nat.le_refl i) (.inl hw)
  obtain ⟨m, hm, -, w, -, hnext⟩ := h.next_of_active hw rfl
  have hm' : i ≤ m := hk.trans hm
  obtain ⟨hin, hle⟩ := mem_due.mp (ht m hm')
  cases hnext with
  | waitingDo _ u _ htop hheap =>
    obtain ⟨hu, hfirst⟩ := isTop_iff.mp htop
    refine ⟨m, hm', (Finset.ssubset_iff_of_subset (h.due_step (hd m hm'))).mpr ⟨u, ?_, ?_⟩⟩
    · exact mem_due.mpr ⟨hu, (hfirst t hin).trans hle⟩
    · intro hmem
      have hu' := (mem_due.mp hmem).1
      rw [hheap, (h.inv m).core.heap.mem_erase_iff] at hu'
      exact hu'.1 rfl
  | waitingEnd _ hend =>
    rcases hend with hle' | hlate
    · omega
    · exact absurd (hlate t hin) (Nat.not_lt.mpr (hle.trans (hd m hm')))

/-- A task does not sleep for ever when it has a deadline. -/
theorem leaves_asleep [Nonempty Θ] (h : FairRun c f) (hb : 1 < c.schedBatchSize)
    (htime : ∀ n, ∃ k, n ≤ (f k).now) (hp : ∀ k ≥ i, place (f k).core t = .asleep)
    (hd : ((f i).task t).deadline ≠ timeInfinite) : False := by
  have hsame : ∀ k ≥ i, ((f k).task t).deadline = ((f i).task t).deadline := fun k hk => by
    induction hk with
    | refl => rfl
    | @step k hk ih =>
      refine Eq.trans ?_ ih
      rcases h.life_step k t with he | hstep
      · exact congrArg (fun l => l.task.deadline) he
      · exact hstep.deadline_asleep ((h.inv k).ok t) (hp k hk)
  generalize ((f i).task t).deadline = d at hd hsame
  have hdue : ∀ k ≥ i, t ∈ due (f k) d := fun k hk => by
    refine mem_due.mpr ⟨of_decide_eq_true (((h.inv k).ok t).asleep (hp k hk) |>.2 ?_), ?_⟩
    · exact (hsame k hk).trans_ne hd
    · exact (hsame k hk).le
  obtain ⟨j, hj⟩ := htime d
  have hnow : ∀ k ≥ max i j, d ≤ (f k).now := fun k hk =>
    hj.trans (h.now_mono ((Nat.le_max_right i j).trans hk))
  have halarm : ∀ k ≥ max i j, Alarm (f k) := fun k hk => by
    obtain ⟨hin, hle⟩ := mem_due.mp (hdue k ((Nat.le_max_left i j).trans hk))
    exact .inr ⟨t, hin, hle.trans (hnow k hk)⟩
  have hround : ∀ n ≥ max i j, ∃ k ≥ n, ∃ θ, (f k).worker θ = .popFront := fun n hn =>
    h.round (.inr fun k hk => halarm k (hn.trans hk))
  obtain ⟨k, hk, θ, hw⟩ := hround _ le_rfl
  obtain ⟨m, hm, -, w, -, hnext⟩ := h.next_of_active hw rfl
  have hm' : max i j ≤ m := hk.trans hm
  have hstamp : ∀ n ≥ m + 1, d ≤ (f n).timestamp := fun n hn => by
    induction hn with
    | refl =>
      cases hnext with
      | popFront _ _ hstamp => exact (hnow m hm').trans hstamp.ge
    | @step n hn ih =>
      rcases (h.clock n).2 with he | he
      · exact ih.trans he.ge
      · exact (hnow n (hm'.trans ((Nat.le_succ m).trans hn))).trans he.ge
  have hi : ∀ n ≥ m + 1, i ≤ n := fun n hn =>
    (Nat.le_max_left i j).trans (hm'.trans ((Nat.le_succ m).trans hn))
  refine not_drops (i := m + 1) (r := fun n => (due (f n) d).card)
    (fun n hn => Finset.card_le_card (h.due_step (hstamp n hn))) fun n hn => ?_
  obtain ⟨p, hp, θ', hw'⟩ := hround n (hm'.trans ((Nat.le_succ m).trans hn))
  obtain ⟨q, hq, hlt⟩ := h.due_drops hb (fun k hk => hdue k (hi k (hn.trans (hp.trans hk))))
    (fun k hk => hstamp k (hn.trans (hp.trans hk))) hw'
  exact ⟨q, hp.trans hq, Finset.card_lt_card hlt⟩

end FairRun

/-- A task which was posted and has a finite deadline, after a history. -/
structure Timed (s : State T Θ) (t : T) (log : List Call) : Prop where
  counted : (life s t).place.counted = true
  deadline : (s.task t).deadline < timeInfinite
  log : ∃ calls, (s.task t).log = log ++ calls

theorem FairRun.timed_step [DecidableEq Θ] {f : ℕ → State T Θ} {log : List Call}
    (h : FairRun c f) (k : ℕ) (htimed : Timed (f k) t log) :
    (Served (f (k + 1)) t log ∨ Coming (f (k + 1)) t log) ∨ Timed (f (k + 1)) t log ∧
      (place (f (k + 1)).core t = place (f k).core t ∨
        (place (f (k + 1)).core t).way < (place (f k).core t).way) := by
  obtain ⟨hcounted, hdeadline, calls, hlog⟩ := htimed
  rcases h.life_step k t with he | hstep
  · refine .inr ⟨⟨he ▸ hcounted, ?_, calls, log_congr he hlog⟩, .inl (congrArg Life.place he)⟩
    exact (congrArg (fun l => l.task.deadline) he).trans_lt hdeadline
  · obtain ⟨calls', hlog', -⟩ := hstep.log (life_core (h.inv k).core t) ((h.inv k).ok t)
    have hlog'' := log_append hlog hlog'
    rcases hstep.way hcounted with hex | ⟨hcounted', hway⟩
    · exact .inl (.inl (.of_life hlog hex))
    · rcases hstep.deadline_finite hdeadline with hex | hdeadline'
      · exact .inl (.inl (.of_life hlog hex))
      · rcases hway with hsame | hlt | ⟨-, hawake⟩
        · exact .inr ⟨⟨hcounted', hdeadline', _, hlog''⟩, .inl hsame⟩
        · exact .inr ⟨⟨hcounted', hdeadline', _, hlog''⟩, .inr hlt⟩
        · exact .inl (.inr ⟨hawake, hcounted', _, hlog''⟩)

/-- **A deadline is served**: a task which was posted and has a finite deadline is executed, in
every run in which no thread and not the clock stops for ever. -/
theorem deadline_served [DecidableEq Θ] [Nonempty Θ] {f : ℕ → State T Θ} {i : ℕ}
    (h : FairRun c f) (hb : 1 < c.schedBatchSize) (htime : ∀ n, ∃ k, n ≤ (f k).now)
    (ht : t ∈ (f i).core.lives) (hd : ((f i).task t).deadline < timeInfinite) :
    ∃ k ≥ i, ∃ calls isClosed args, ((f k).task t).log = ((f i).task t).log ++ calls ∧
      Call.onEvent isClosed args ∈ calls := by
  have hstart : Timed (f i) t ((f i).task t).log :=
    ⟨(h.inv i).counted ht, hd, [], (List.append_nil _).symm⟩
  obtain ⟨k, hk, hserved | hcoming⟩ := @Machine.eventually_of_rank _ _ (fun p q => p.way < q.way)
    (InvImage.wf Place.way Nat.lt_wfRel.wf) f (fun s => Timed s t ((f i).task t).log)
    (fun s => Served s t ((f i).task t).log ∨ Coming s t ((f i).task t).log)
    (fun s => place s.core t) (fun k hk => h.timed_step k hk) (fun k hk => by
      obtain ⟨hcounted, hdeadline, -⟩ := hk k (Nat.le_refl k)
      exact h.leaves hb hcounted fun hp => h.leaves_asleep hb htime hp hdeadline.ne) i hstart
  · exact ⟨k, hk, hserved⟩
  · obtain ⟨m, hm, hserved⟩ := h.served hb hcoming
    exact ⟨m, hk.trans hm, hserved⟩

/-! ### Events -/

/-- How far a task is from the round which gives it the pending events. -/
def Place.again : Place → ℕ
  | .outside => 0
  | .attached => 1
  | .asleep => 2
  | .pendingQueue => 3
  | .frontQueue => 4
  | .posted => 5
  | .woken => 6
  | .executed => 7
  | .readyQueue => 8
  | .ready => 9

theorem Place.again_lt (p : Place) : p.again < 10 := by cases p <;> decide

theorem Place.way_lt (p : Place) : p.way < 10 := by cases p <;> decide

theorem Place.again_inj {p q : Place} (h : p.again = q.again) : p = q := by
  cases p <;> cases q <;> first | rfl | cases h

theorem Place.way_inj {p q : Place} (h : p.way = q.way) : p = q := by
  cases p <;> cases q <;> first | rfl | cases h

namespace Life

variable {l l' : Life} {e : Event}

/-- The event is with a task which goes to a worker. -/
def Given (l : Life) (e : Event) : Prop := l.place.dispatched = true ∧ e ∈ l.task.readyEvents

instance : Decidable (l.Given e) := inferInstanceAs (Decidable (_ ∧ _))

/-- The event was returned by `epoll_wait`, and no worker has it yet. -/
def Held (l : Life) (e : Event) : Prop :=
  e ∈ l.task.returned ∨ e ∈ l.task.pendingEvents ∨ l.Given e

/-- How far an event is from the execution with it. -/
def toGo (l : Life) (e : Event) : ℕ :=
  if l.Given e then l.place.way
  else if e ∈ l.task.pendingEvents then 10 + l.place.again
  else 20

/-- The history grows by an execution with the event, or by the closure of the socket. -/
def Passes (l l' : Life) (e : Event) : Prop :=
  ∃ call, l'.task.log = l.task.log ++ [call] ∧
    (call = .closeDo ∨ ∃ args, call = .onEvent false args ∧ e ∈ args)

theorem toGo_of_given (h : l.Given e) : l.toGo e = l.place.way := if_pos h

theorem toGo_of_pending (h : ¬ l.Given e) (hp : e ∈ l.task.pendingEvents) :
    l.toGo e = 10 + l.place.again := by
  rw [toGo, if_neg h, if_pos hp]

theorem toGo_of_returned (h : ¬ l.Given e) (hp : e ∉ l.task.pendingEvents) : l.toGo e = 20 := by
  rw [toGo, if_neg h, if_neg hp]

theorem toGo_cases (l : Life) (e : Event) :
    l.toGo e = l.place.way ∨ l.toGo e = 10 + l.place.again ∨ l.toGo e = 20 := by
  rw [toGo]
  split
  · exact .inl rfl
  · split
    · exact .inr (.inl rfl)
    · exact .inr (.inr rfl)

/-- A task stays in its place while the number is the same. -/
theorem place_of_toGo (h : l'.toGo e = l.toGo e) (hlt : l.toGo e < 20) : l'.place = l.place := by
  have hway := l.place.way_lt
  have hway' := l'.place.way_lt
  rcases l.toGo_cases e with he | he | he <;> rcases l'.toGo_cases e with he' | he' | he'
  · exact Place.way_inj (by omega)
  · omega
  · omega
  · omega
  · exact Place.again_inj (by omega)
  all_goals omega

theorem Ok.held_counted (ho : l.Ok) (h : l.Held e) : l.place.counted = true := by
  have hreg : l.task.registered = true → l.place.counted = true := fun hr => by
    rw [ho.registered, Bool.and_eq_true] at hr
    exact hr.2
  rcases h with hr | hp | ⟨hd, -⟩
  · exact hreg (ho.inEvs (ho.returned ⟨e, hr⟩))
  · exact hreg (ho.pending ⟨e, hp⟩)
  · cases hp : l.place <;> rw [hp] at hd <;> first | rfl | cases hd

/-- A task which sleeps has no events. -/
theorem Ok.held_asleep (ho : l.Ok) (hp : l.place = .asleep) :
    e ∉ l.task.pendingEvents ∧ ¬ l.Given e := by
  refine ⟨fun hm => ?_, fun hg => ?_⟩
  · rw [(ho.asleep hp).1] at hm
    cases hm
  · rw [Given, hp] at hg
    cases hg.1

theorem toGo_le_twenty (l : Life) (e : Event) : l.toGo e ≤ 20 := by
  have hway := l.place.way_lt
  have hagain := l.place.again_lt
  rcases l.toGo_cases e with he | he | he <;> omega

/-- When an event comes nearer to a worker. -/
theorem toGo_le (hg : l.Given e → l'.Given e ∧ l'.place.way ≤ l.place.way)
    (hp : e ∈ l.task.pendingEvents → l'.Given e ∨
      e ∈ l'.task.pendingEvents ∧ l'.place.again ≤ l.place.again) : l'.toGo e ≤ l.toGo e := by
  by_cases hgiven : l.Given e
  · obtain ⟨hgiven', hle⟩ := hg hgiven
    rwa [toGo_of_given hgiven, toGo_of_given hgiven']
  · by_cases hpending : e ∈ l.task.pendingEvents
    · rw [toGo_of_pending hgiven hpending]
      by_cases hgiven' : l'.Given e
      · rw [toGo_of_given hgiven']
        exact l'.place.way_lt.le.trans (Nat.le_add_right ..)
      · obtain ⟨hpending', hle⟩ := (hp hpending).resolve_left hgiven'
        rw [toGo_of_pending hgiven' hpending']
        exact Nat.add_le_add_left hle 10
    · rw [toGo_of_returned hgiven hpending]
      exact l'.toGo_le_twenty e

/-- A task goes from place to place outside of the way to a worker. -/
theorem Held.move (he : l.Held e) (hd : l.place.dispatched = false)
    (hreturned : l'.task.returned = l.task.returned)
    (hpending : l'.task.pendingEvents = l.task.pendingEvents)
    (hagain : e ∈ l.task.pendingEvents → l'.place.again ≤ l.place.again) :
    l'.Held e ∧ l'.toGo e ≤ l.toGo e := by
  have hnot : ¬ l.Given e := fun hg => Bool.false_ne_true (hd.symm.trans hg.1)
  refine ⟨?_, toGo_le (fun hg => absurd hg hnot) fun hp => .inr ⟨hpending ▸ hp, hagain hp⟩⟩
  rw [Held, hreturned, hpending]
  exact he.imp_right fun h => .inl (h.resolve_right hnot)

/-- A task goes to the ready ones with its events. -/
theorem Held.dispatch (he : l.Held e) (hd : l.place.dispatched = false) (hp : l'.place = .ready)
    (hreturned : e ∈ l.task.returned → e ∈ l'.task.returned ∨ e ∈ l'.task.readyEvents)
    (hpending : e ∈ l.task.pendingEvents → e ∈ l'.task.readyEvents) :
    l'.Held e ∧ l'.toGo e ≤ l.toGo e := by
  have hnot : ¬ l.Given e := fun hg => Bool.false_ne_true (hd.symm.trans hg.1)
  have hgiven : e ∈ l'.task.readyEvents → l'.Given e := fun h => ⟨by rw [hp]; rfl, h⟩
  refine ⟨?_, toGo_le (fun hg => absurd hg hnot) fun h => .inl (hgiven (hpending h))⟩
  rcases he with hr | hp | hg
  · exact (hreturned hr).imp_right fun h => .inr (hgiven h)
  · exact .inr (.inr (hgiven (hpending hp)))
  · exact absurd hg hnot

/-- What a step does to an event which `epoll_wait` returned. -/
theorem Step.held (h : Step l l') (hc : Core l) (ho : Ok l) (he : l.Held e) :
    Passes l l' e ∨ l'.Held e ∧ l'.toGo e ≤ l.toGo e := by
  have hcounted := ho.held_counted he
  have hasleep : l.core.status = .waiting → l.place = .asleep ∧ e ∉ l.task.pendingEvents :=
    fun hs => ⟨hc.asleep_iff.mpr hs, (ho.held_asleep (hc.asleep_iff.mpr hs)).1⟩
  cases h with
  | attach sock hp | reuse sock hp | postStart hp =>
    rw [hp] at hcounted
    cases hcounted
  | post hp | rePost hp | takeFront hp | ended hp =>
    exact .inr (he.move (by rw [hp]; rfl) rfl rfl fun _ => by
      rw [hp]
      simp [Place.again])
  | sleep hp hs hnone =>
    refine .inr (he.move (by rw [hp]; rfl) rfl rfl fun hm => ?_)
    rw [hnone] at hm
    cases hm
  | wakeupAsleep hs | closeAsleep _ hs =>
    obtain ⟨hp, hnot⟩ := hasleep hs
    exact .inr (he.move (by rw [hp]; rfl) rfl rfl fun hm => absurd hm hnot)
  | save e' hp hs => exact .inr (he.move (by rw [hp]; rfl) rfl rfl fun _ => le_rfl)
  | collect mask hi hm hne =>
    have hnone : e ∉ l.task.returned := fun hr =>
      Bool.false_ne_true (hi.symm.trans (ho.returned ⟨e, hr⟩))
    exact .inr ⟨.inr (he.resolve_left hnone), le_rfl⟩
  | note hi hs =>
    refine .inr ⟨?_, toGo_le (fun hg => ⟨hg, le_rfl⟩) fun hp =>
      .inr ⟨Finset.mem_union_left _ hp, le_rfl⟩⟩
    rcases he with hr | hp | hg
    · exact .inr (.inl (Finset.mem_union_right _ hr))
    · exact .inr (.inl (Finset.mem_union_left _ hp))
    · exact .inr (.inr hg)
  | rouse x hi hs =>
    obtain ⟨hp, hnot⟩ := hasleep hs
    refine .inr (he.dispatch (by rw [hp]; rfl) rfl (fun hr => .inr ?_) fun hm => absurd hm hnot)
    exact Finset.mem_union_right _ (Finset.mem_union_right _ hr)
  | expire hs =>
    obtain ⟨hp, hnot⟩ := hasleep hs
    exact .inr (he.dispatch (by rw [hp]; rfl) rfl .inl fun hm => absurd hm hnot)
  | dispatch x hp hs =>
    exact .inr (he.dispatch (by rw [hp]; rfl) rfl .inl fun hm => Finset.mem_union_right _ hm)
  | closeDo x hp hs hi => exact .inl ⟨_, rfl, .inl rfl⟩
  | pushReady hp =>
    refine .inr ⟨he.imp_right (.imp_right fun hg => ⟨rfl, hg.2⟩),
      toGo_le (fun hg => ⟨⟨rfl, hg.2⟩, ?_⟩) fun hm => .inr ⟨hm, ?_⟩⟩ <;> rw [hp]
    · simp [Place.way]
    · simp [Place.again]
  | execute hp hcl =>
    by_cases hready : e ∈ l.task.readyEvents
    · exact .inl ⟨_, rfl, .inr ⟨_, rfl, hready⟩⟩
    · refine .inr ⟨?_, toGo_le (fun hg => absurd hg.2 hready) fun hm => .inr ⟨hm, ?_⟩⟩
      · exact he.imp_right fun h => .inl (h.resolve_right fun hg => hready hg.2)
      · rw [hp]
        simp [Place.again]
  | final hp hcl =>
    have hsock := (ho.closed (ho.isClosed.mp hcl)).1
    have hreg : l.task.registered = false := by rw [ho.registered, hsock, Bool.false_and]
    rcases he with hr | hm | ⟨-, hm⟩
    · exact absurd (hreg.symm.trans (ho.inEvs (ho.returned ⟨e, hr⟩))) Bool.false_ne_true
    · exact absurd (hreg.symm.trans (ho.pending ⟨e, hm⟩)) Bool.false_ne_true
    · exact absurd (hsock.symm.trans (ho.ready ⟨e, hm⟩)) Bool.false_ne_true
  | _ => exact .inr ⟨he, le_rfl⟩

end Life

/-- The task was executed with the event after a history, or its socket was closed. -/
def Delivered (s : State T Θ) (t : T) (e : Event) (log : List Call) : Prop :=
  ∃ calls, (s.task t).log = log ++ calls ∧
    (Call.closeDo ∈ calls ∨ ∃ args, Call.onEvent false args ∈ calls ∧ e ∈ args)

/-- The event was returned by `epoll_wait` and waits for a worker, after a history. -/
structure Underway (s : State T Θ) (t : T) (e : Event) (log : List Call) : Prop where
  held : (life s t).Held e
  log : ∃ calls, (s.task t).log = log ++ calls

/-- `epoll_wait` returns an event at last which stays reported, when it is called again and
again. -/
def FairEpoll (f : ℕ → State T Θ) (t : T) (e : Event) : Prop :=
  ∀ i, (∀ j ≥ i, ∃ k ≥ j, ∃ θ, (f k).worker θ = .popFront) → ∃ k ≥ i, e ∉ ((f k).task t).edges

namespace FairRun

variable [DecidableEq Θ] {f : ℕ → State T Θ} {i : ℕ} {e : Event} {log : List Call}

theorem underway_step (h : FairRun c f) (k : ℕ) (hunder : Underway (f k) t e log) :
    Delivered (f (k + 1)) t e log ∨ Underway (f (k + 1)) t e log ∧
      ((life (f (k + 1)) t).toGo e = (life (f k) t).toGo e ∨
        (life (f (k + 1)) t).toGo e < (life (f k) t).toGo e) := by
  obtain ⟨hheld, calls, hlog⟩ := hunder
  rcases h.life_step k t with he | hstep
  · exact .inr ⟨⟨he ▸ hheld, calls, log_congr he hlog⟩, .inl (by rw [he])⟩
  · have hc := life_core (h.inv k).core t
    have ho := (h.inv k).ok t
    rcases hstep.held hc ho hheld with ⟨call, hlog', hcall⟩ | ⟨hheld', hle⟩
    · refine .inl ⟨calls ++ [call], log_append hlog hlog', ?_⟩
      have hmem : call ∈ calls ++ [call] := List.mem_append_right _ (List.mem_singleton_self _)
      rcases hcall with rfl | ⟨args, rfl, hargs⟩
      · exact .inl hmem
      · exact .inr ⟨args, hmem, hargs⟩
    · obtain ⟨calls', hlog', -⟩ := hstep.log hc ho
      exact .inr ⟨⟨hheld', _, log_append hlog hlog'⟩, Nat.eq_or_lt_of_le hle⟩

/-- The events of the array are handled. -/
theorem leaves_evs (h : FairRun c f) (ht : ∀ k ≥ i, t ∈ (f k).evs) : False := by
  obtain ⟨θ, hθ⟩ := (h.inv i).role.evs (List.ne_nil_of_mem (ht i (Nat.le_refl i)))
  obtain ⟨k, hk, hw⟩ := h.reaches (A := fun w => Worker.collected w = true)
    (B := fun w => w = .pendingDo 0) (fun w hA => by cases w <;> first | rfl | cases hA)
    (fun k _ w w' hA hn => by
      have hlt := hn.turns (by rintro rfl; cases hA) (by rintro rfl; cases hA)
      cases hn with
      | kernelEnd => exact .inl rfl
      | popFront | kernelDo => exact .inr ⟨rfl, hlt.resolve_left Bool.false_ne_true⟩
      | _ => cases hA) (Nat.le_refl i) hθ
  have hnil := (h.inv k).role.evs_nil (θ := θ) (by rw [hw]; rfl) (by rw [hw]; rfl)
  have hmem := ht k hk
  rw [hnil] at hmem
  cases hmem

theorem leaves_held [Nonempty Θ] (h : FairRun c f) (hb : 1 < c.schedBatchSize)
    (hheld : ∀ k ≥ i, (life (f k) t).Held e) :
    ∃ k ≥ i, (life (f (k + 1)) t).toGo e ≠ (life (f k) t).toGo e := by
  by_contra hno
  have hsame : ∀ k ≥ i, (life (f k) t).toGo e = (life (f i) t).toGo e := fun k hk => by
    induction hk with
    | refl => rfl
    | @step k hk ih => exact (by_contra fun hne => hno ⟨k, hk, hne⟩ : _ = _).trans ih
  by_cases hlt : (life (f i) t).toGo e < 20
  · have hplace : ∀ k ≥ i, (life (f k) t).place = (life (f i) t).place := fun k hk =>
      Life.place_of_toGo (hsame k hk) hlt
    have ho := (h.inv i).ok t
    obtain ⟨k, hk, hne⟩ := h.leaves hb (ho.held_counted (hheld i (Nat.le_refl i))) fun hp => by
      obtain ⟨hnot, hgiven⟩ := ho.held_asleep (e := e) (hp i (Nat.le_refl i))
      rw [Life.toGo_of_returned hgiven hnot] at hlt
      exact absurd hlt (Nat.lt_irrefl 20)
    exact hne ((hplace (k + 1) (Nat.le_succ_of_le hk)).trans (hplace k hk).symm)
  · refine h.leaves_evs (t := t) (i := i) fun k hk => ?_
    have htwenty : ¬ (life (f k) t).toGo e < 20 := by rwa [hsame k hk]
    have hgiven : ¬ (life (f k) t).Given e := fun hg => htwenty <| by
      rw [Life.toGo_of_given hg]
      exact (Place.way_lt _).trans (by decide)
    have hpending : e ∉ (life (f k) t).task.pendingEvents := fun hp => htwenty <| by
      rw [Life.toGo_of_pending hgiven hp]
      exact Nat.add_lt_add_left (Place.again_lt _) 10
    rcases hheld k hk with hr | hp | hg
    · exact of_decide_eq_true (((h.inv k).ok t).returned ⟨e, hr⟩)
    · exact absurd hp hpending
    · exact absurd hg hgiven

theorem delivered [Nonempty Θ] (h : FairRun c f) (hb : 1 < c.schedBatchSize)
    (hunder : Underway (f i) t e log) : ∃ k ≥ i, Delivered (f k) t e log :=
  @Machine.eventually_of_rank _ _ _ Nat.lt_wfRel.wf f (fun s => Underway s t e log)
    (fun s => Delivered s t e log) (fun s => (life s t).toGo e) (fun k hk => h.underway_step k hk)
    (fun _ hk => h.leaves_held hb fun m hm => (hk m hm).held) i hunder

end FairRun

/-- **An event is served**: a task for which the kernel has reported an event is executed with it or
is closed, in every run in which no thread stops for ever and `epoll_wait` returns at last what
stays reported. -/
theorem event_served [DecidableEq Θ] [Nonempty Θ] {f : ℕ → State T Θ} {i : ℕ} {e : Event}
    (h : FairRun c f) (hb : 1 < c.schedBatchSize) (hepoll : FairEpoll f t e)
    (he : e ∈ (life (f i) t).fresh) :
    ∃ k ≥ i, ∃ calls, ((f k).task t).log = ((f i).task t).log ++ calls ∧
      (Call.closeDo ∈ calls ∨ ∃ args, Call.onEvent false args ∈ calls ∧ e ∈ args) := by
  by_contra hno
  have hfresh : ∀ k ≥ i, e ∈ (life (f k) t).fresh := fun k hk => by
    obtain ⟨calls, hlog, hfresh, -⟩ := h.later hk t
    exact (hfresh e he).resolve_right fun hdone => hno ⟨k, hk, calls, hlog, hdone⟩
  obtain ⟨k, hk, hnot⟩ : ∃ k ≥ i, e ∉ ((f k).task t).edges := by
    by_contra hall
    have hedge : ∀ k ≥ i, e ∈ ((f k).task t).edges := fun k hk =>
      by_contra fun hn => hall ⟨k, hk, hn⟩
    refine hall (hepoll i fun j hj => h.round (.inr fun k hk => .inl ⟨t, ?_⟩))
    exact Finset.ne_empty_of_mem (hedge k (hj.trans hk))
  have hheld : (life (f k) t).Held e := by
    have hmem := hfresh k hk
    simp only [Life.fresh, Finset.mem_union] at hmem
    rcases hmem with ((hedge | hr) | hp) | hg
    · exact absurd hedge hnot
    · exact .inl hr
    · exact .inr (.inl hp)
    · split at hg
      · exact .inr (.inr ⟨‹_›, hg⟩)
      · cases hg
  obtain ⟨calls, hlog, -⟩ := h.later hk t
  have hunder : Underway (f k) t e ((f i).task t).log := ⟨hheld, calls, hlog⟩
  obtain ⟨m, hm, hdelivered⟩ := h.delivered hb hunder
  exact hno ⟨m, hk.trans hm, hdelivered⟩

/-! ### Two runs -/

/-- A task is posted with a deadline and falls asleep. -/
def timed : List (Action ℕ Bool) :=
  [Action.attach 1 true, .setDeadline 1 2, .postStart 1, .post 1, .signal, .work false,
    .epollWait false [] (fun _ => ∅) true] ++ works 4 ++ [Action.top false 1] ++ works 2 ++
    [Action.top false 1, .work true, .work true]

/-- The deadline passes, and the task is executed and falls asleep again. -/
def expired : List (Action ℕ Bool) :=
  timed ++ [Action.tick, .tick, .work false, .epollWait false [] (fun _ => ∅) false] ++ works 3 ++
    [Action.top false 1] ++ works 11 ++ [Action.epollWait false [] (fun _ => ∅) true] ++ works 8

theorem deadline_served_expired : ∃ (f : ℕ → State ℕ Bool) (i : ℕ), FairRun sample f ∧
    1 ∈ (f i).core.lives ∧ ((f i).task 1).deadline = 2 ∧
    ∃ k ≥ i, ∃ calls isClosed args, ((f k).task 1).log = ((f i).task 1).log ++ calls ∧
      Call.onEvent isClosed args ∈ calls := by
  obtain ⟨s, hs, hfair, -⟩ := still_fair expired (by decide +kernel)
  obtain ⟨hlives, hd⟩ := still_of_run (P := fun u => 1 ∈ u.core.lives ∧ (u.task 1).deadline = 2)
    (i := timed.length) hs (by decide) (by decide +kernel)
  exact ⟨_, _, hfair, hlives, hd,
    deadline_served hfair (by decide) (still_now hs) hlives (by rw [hd]; decide)⟩

/-- An event comes when all the workers wait, and they wait again after the execution. -/
def reported : List (Action ℕ Bool) :=
  blocked ++ [Action.edge 1 .epollIn] ++ served ++ works 5 ++
    [Action.epollWait false [] (fun _ => ∅) true] ++ works 8

theorem event_served_reported : ∃ (f : ℕ → State ℕ Bool) (i : ℕ), FairRun sample f ∧
    FairEpoll f 1 .epollIn ∧ Event.epollIn ∈ ((f i).task 1).edges ∧
    ∃ k ≥ i, ∃ calls, ((f k).task 1).log = ((f i).task 1).log ++ calls ∧
      (Call.closeDo ∈ calls ∨ ∃ args, Call.onEvent false args ∈ calls ∧ Event.epollIn ∈ args) := by
  obtain ⟨s, hs, hfair, hedges⟩ := still_fair reported (by decide +kernel)
  have hepoll : FairEpoll (still sample (.new 0) reported) 1 .epollIn := fun i _ => by
    refine ⟨max i reported.length, Nat.le_max_left .., ?_⟩
    rw [still_last hs (Nat.le_max_right ..), hedges 1]
    exact Finset.notMem_empty _
  have hedge := still_of_run (P := fun u => Event.epollIn ∈ (u.task 1).edges)
    (i := blocked.length + 1) hs (by decide) (by decide +kernel)
  have hfresh : Event.epollIn ∈
      (life (still sample (.new 0) reported (blocked.length + 1)) 1).fresh :=
    Finset.mem_union_left _ (Finset.mem_union_left _ (Finset.mem_union_left _ hedge))
  exact ⟨_, _, hfair, hepoll, hedge, event_served hfair (by decide) hepoll hfresh⟩

end IOCoreEpoll

end Serverbox
