import Serverbox.Aio.IOCoreEpollLife

/-!
# What the epoll core guarantees to a task

A task is in one queue at a time, and one worker at a time executes it. Its socket is closed once in
each life, before the final execution. An event which the kernel reported waits until the task is
executed with it or is closed, and a wakeup makes the task be executed once more.

## Main results

* `IOCoreEpoll.strand`: a task is in one place, and one worker executes it.
* `IOCoreEpoll.life_closed_once`: how many times a task was posted, closed and finally executed.
* `IOCoreEpoll.closing_once`: how many times a task is executed after its `PostClose`.
* `IOCoreEpoll.event_kept`, `IOCoreEpoll.wakeup_kept`: no event and no wakeup is lost.
* `IOCoreEpoll.idle_of_count_zero`: nothing is left when the count of descriptors is zero.
-/

namespace Serverbox

namespace IOCoreEpoll

variable {T Θ : Type*} [DecidableEq T] [DecidableEq Θ] {c : Config} {s s' : State T Θ}

/-- **One place, one worker**: no assertion has failed, one worker at a time is the scheduler, a
task is at most once in the queues, in the lists of the round and with the workers, and in the heap
only when it sleeps or is on the way to the scheduler, and one worker at a time executes it. -/
theorem strand (h : (machine c).Reachable s) :
    s.failed = false ∧
    (∀ θ θ', (s.worker θ).schedules = true → (s.worker θ').schedules = true → θ = θ') ∧
    (s.core.frontQueue ++ s.core.pendingQueue ++ s.core.ready ++ s.core.readyQueue ++
      s.core.executed).Nodup ∧
    (s.core.waitingQueue.Nodup ∧ ∀ t ∈ s.core.waitingQueue,
      t ∉ s.core.ready ∧ t ∉ s.core.readyQueue ∧ t ∉ s.core.executed) ∧
    (∀ t, t ∈ s.core.executed ↔ ∃ θ, (s.worker θ).event = some t) ∧
    (∀ θ θ' t, (s.worker θ).event = some t → (s.worker θ').event = some t → θ = θ') := by
  have hi := inv h
  have hone : ∀ t, s.core.executed.count t ≤ 1 := fun t => by
    have := hi.core.count_le_one t
    omega
  refine ⟨hi.failed, fun θ θ' => hi.role.scheduler, ?_, ⟨hi.core.heap, fun t ht => ?_⟩,
    fun t => ⟨fun ht => ?_, ?_⟩, fun θ θ' t hθ hθ' => ?_⟩
  · rw [List.nodup_iff_count_le_one]
    intro t
    have := hi.core.count_le_one t
    simp only [List.count_append]
    omega
  · have hplace := ((life_core hi.core t).heap (decide_eq_true ht)).2
    have hnot : ∀ p : Place, p ≠ .asleep → p ≠ .woken → p ≠ .frontQueue → p ≠ .pendingQueue →
        t ∉ contents s.core p := fun p h₁ h₂ h₃ h₄ hp => by
      rw [show (life s t).place = p from place_eq hi.core hp] at hplace
      tauto
    exact ⟨hnot .ready nofun nofun nofun nofun, hnot .readyQueue nofun nofun nofun nofun,
      hnot .executed nofun nofun nofun nofun⟩
  · obtain ⟨l, -, hmem, hlen⟩ := hi.role.event t
    have hpos := List.count_pos_iff.mpr ht
    obtain ⟨θ, hθ⟩ := List.exists_mem_of_length_pos (hlen ▸ hpos)
    exact ⟨θ, of_decide_eq_true ((hmem θ).mp hθ)⟩
  · rintro ⟨θ, hθ⟩
    exact mem_of_place (hi.executed hθ) nofun
  · exact (hi.role.event t).eq_of_le_one (hone t) (decide_eq_true hθ) (decide_eq_true hθ')

/-- **Closed once**: the history of a task is a sequence of lives, each of which is a post, some
executions, one closure of the socket and one final execution, without events; the last one may be
unfinished. `IsClosed` is true from the closure to the next post, and then there is no socket. -/
theorem life_closed_once (h : (machine c).Reachable s) (t : T) :
    (∃ p, Phase.after (s.task t).log = some p ∧
      (p = .outside ↔ t ∉ s.core.attached ∧ t ∉ s.core.lives) ∧
      (s.task t).log.count .post =
        (s.task t).log.countP Call.isFinal + (decide (p ≠ .outside)).toNat ∧
      (s.task t).log.count .closeDo =
        (s.task t).log.countP Call.isFinal + (decide (p = .closed)).toNat ∧
      (p = .closed → (s.core.task t).isClosed = true)) ∧
    ((s.core.task t).isClosed = true →
      (s.task t).socket = false ∧ (s.task t).registered = false ∧ (s.task t).edges = ∅ ∧
      (t ∈ s.core.lives → t ∈ s.core.ready ∨ t ∈ s.core.readyQueue)) ∧
    ((s.task t).closeGuard = true → t ∈ s.closers ∨ (s.core.task t).status = .closing ∨
      (s.core.task t).status = .closed) ∧
    ((s.core.task t).status = .closing → t ∉ s.core.asleep) := by
  have hi := inv h
  have hok := hi.ok t
  obtain ⟨hpost, hclose⟩ := Phase.counts hok.phase
  have hmem : t ∈ s.core.attached ++ s.core.lives ↔ (life s t).place ≠ .outside :=
    mem_lives_iff hi.core
  have hphase : (life s t).phase = .outside ↔ (life s t).place = .outside := by
    rw [Life.phase]
    split
    · simp_all
    · split <;> simp_all
  refine ⟨⟨_, hok.phase, ?_, hpost, hclose, fun hp => ?_⟩, fun hc => ?_, fun hg => ?_,
    fun hs ha => ?_⟩
  · rw [hphase, ← not_iff_not, ← ne_eq, ← hmem, List.mem_append]
    tauto
  · rw [Life.phase] at hp
    split at hp
    · cases hp
    · split at hp
      · exact hok.isClosed.mpr ‹_›
      · cases hp
  · obtain ⟨hsock, hplace⟩ := hok.closed (hok.isClosed.mp hc)
    have hreg : (s.task t).registered = false := by
      rw [show (s.task t).registered = _ from hok.registered, hsock, Bool.false_and]
    refine ⟨hsock, hreg, ?_, fun ht => ?_⟩
    · by_contra hne
      have htrue := hok.edges (Finset.nonempty_iff_ne_empty.mpr hne)
      exact Bool.false_ne_true (hreg.symm.trans htrue)
    · rcases hplace with ho | hd
      · exact absurd ho (hmem.mp (List.mem_append_right _ ht))
      · cases hp : (life s t).place with
        | ready => exact .inl (mem_of_place hp (by decide))
        | readyQueue => exact .inr (mem_of_place hp (by decide))
        | _ => rw [hp] at hd; cases hd
  · rw [show (s.task t).closeGuard = _ from hok.guard, Bool.or_eq_true] at hg
    rcases hg with hg | hg
    · exact .inr (hok.closeGuard.mp hg)
    · exact .inl (of_decide_eq_true hg)
  · exact absurd (hs.symm.trans ((hi.core.asleep t).mp ha)) (by decide)

/-- What happened to a task in a run. -/
theorem later {as : List (Action T Θ)} (h : (machine c).Reachable s)
    (hr : (machine c).run s as = some s') (t : T) : (life s t).Later (life s' t) := by
  refine Machine.run_relation (Q := Inv) (R := fun s s' => (life s t).Later (life s' t))
    (fun s => .refl _) (fun h h' => h.trans h') (fun s a s' hi hs => hi.step hs)
    (fun s a s' hi hs => ?_) (inv h) hr
  rcases (hi.effect hs).1.life t with he | hl
  · exact he ▸ .refl _
  · exact hl.later (life_core hi.core t) (hi.ok t)

/-- **No event is lost**: in a run the history of a task grows, and an event which the kernel
reported and the task was not executed with goes on waiting, unless the task is executed with it or
is closed. A task with pending events does not sleep. -/
theorem event_kept {as : List (Action T Θ)} (h : (machine c).Reachable s)
    (hr : (machine c).run s as = some s') (t : T) :
    (∃ calls, (s'.task t).log = (s.task t).log ++ calls ∧
      ∀ e ∈ (life s t).fresh, e ∈ (life s' t).fresh ∨ Call.closeDo ∈ calls ∨
        ∃ args, Call.onEvent false args ∈ calls ∧ e ∈ args) ∧
    ((s'.task t).pendingEvents ≠ ∅ → t ∉ s'.core.asleep) := by
  obtain ⟨calls, hlog, hfresh, -, -⟩ := later h hr t
  refine ⟨⟨calls, hlog, hfresh⟩, fun hne ha => hne ?_⟩
  have hi := inv (h.of_run hr)
  exact ((hi.ok t).asleep (place_eq hi.core (p := .asleep) ha)).1

/-- **No wakeup is lost**: a task which was woken up and is not closed does not fall asleep before
it is executed once more. -/
theorem wakeup_kept {as : List (Action T Θ)} {t : T} (h : (machine c).Reachable s)
    (hopen : (s.core.task t).status ≠ .closed) (hs : (machine c).step s (.wakeup t) = some s')
    {s'' : State T Θ} (hr : (machine c).run s' as = some s'') (ha : t ∈ s''.core.asleep) :
    ∃ calls isClosed args, (s''.task t).log = (s.task t).log ++ calls ∧
      Call.onEvent isClosed args ∈ calls := by
  obtain ⟨calls, hlog, -, hawake, -⟩ := later (h.step hs) hr t
  have hi := inv ((h.step hs).of_run hr)
  have hst : (life s' t).Awake := by
    obtain rfl := Option.some.inj hs
    exact (wakeup_status s.core hopen).imp_right .inl
  have hsame : (s'.task t).log = (s.task t).log := by
    obtain rfl := Option.some.inj hs
    rfl
  rcases hawake hst with hw | ⟨isClosed, args, hmem⟩
  · have hstatus : (life s'' t).core.status = .waiting := (hi.core.asleep t).mp ha
    rcases hw with hw | hw | ⟨hw, -⟩ <;> rw [hstatus] at hw <;> cases hw
  · exact ⟨calls, isClosed, args, hsame ▸ hlog, hmem⟩

/-- **A close is not put off**: after the exchange in `PostClose` a task is executed at most once
before its socket is closed, and only if it was on the way to a worker. Until then it does not
sleep. -/
theorem closing_once {as : List (Action T Θ)} {t : T} (h : (machine c).Reachable s)
    (hs : (s.core.task t).status = .closing) (hr : (machine c).run s as = some s') :
    ∃ calls, (s'.task t).log = (s.task t).log ++ calls ∧ (Call.closeDo ∈ calls ∨
      (s'.core.task t).status = .closing ∧ t ∉ s'.core.asleep ∧
      calls.countP Call.isEvent ≤ 1 ∧
      (t ∉ s.core.ready → t ∉ s.core.readyQueue → calls.countP Call.isEvent = 0)) := by
  obtain ⟨calls, hlog, -, -, hclosing⟩ := later h hr t
  have hi := inv h
  have hi' := inv (h.of_run hr)
  refine ⟨calls, hlog, (hclosing hs).imp_right ?_⟩
  rintro ⟨hst, hle⟩
  refine ⟨hst, fun ha => ?_, ?_, fun hready hqueue => ?_⟩
  · exact absurd (((hi'.core.asleep t).mp ha).symm.trans hst) (by decide)
  · have hone := Bool.toNat_le (life s t).place.dispatched
    omega
  · have hd : (life s t).place.dispatched = false := by
      cases hp : (life s t).place with
      | ready => exact absurd (mem_of_place hp (by decide)) hready
      | readyQueue => exact absurd (mem_of_place hp (by decide)) hqueue
      | _ => rfl
    rw [hd] at hle
    exact Nat.le_zero.mp (le_trans (Nat.le_add_right _ _) hle)

/-- **Nothing is left when the count is zero**: then no task is in a queue, with a worker, or with a
thread which posted it or woke it up. -/
theorem idle_of_count_zero (h : (machine c).Reachable s) (hzero : s.core.descriptorCount = 0) :
    s.core.lives = [] ∧ s.core.waitingQueue = [] ∧
    (∀ θ, (s.worker θ).event = none ∧ (s.worker θ).final = none) ∧
    ∀ t, t ∉ s.core.attached →
      (s.task t).socket = false ∧ (s.task t).isInQueues = false ∧ (life s t).fresh = ∅ := by
  have hi := inv h
  have hcount := hi.core.count
  have hlives : s.core.lives = [] := List.length_eq_zero_iff.mp (by omega)
  have hfinal : s.core.final = [] := List.length_eq_zero_iff.mp (by omega)
  have hnil : ∀ t, t ∉ s.core.lives := by
    rw [hlives]
    exact fun t => List.not_mem_nil
  refine ⟨hlives, ?_, fun θ => ⟨?_, ?_⟩, fun t ha => ?_⟩
  · refine List.eq_nil_iff_forall_not_mem.mpr fun t ht => hnil t ?_
    rw [IOCoreCount.Inv.mem_lives]
    have hplace := (hi.core.waiting t ht).2
    tauto
  · refine Option.eq_none_iff_forall_ne_some.mpr fun t hθ => hnil t ?_
    have ht : t ∈ s.core.executed := mem_of_place (hi.executed hθ) (by decide)
    rw [IOCoreCount.Inv.mem_lives]
    tauto
  · refine Option.eq_none_iff_forall_ne_some.mpr fun t hθ => ?_
    have ht := hi.mem_final hθ
    rw [hfinal] at ht
    cases ht
  · have hout : (life s t).place = .outside := by
      by_contra hne
      exact (List.mem_append.mp ((mem_lives_iff hi.core).mpr hne)).elim ha (hnil t)
    have hok := hi.ok t
    have hsock := hok.outside hout
    have hreg : (life s t).task.registered = false := by
      rw [hok.registered, hsock, Bool.false_and]
    have hempty : ∀ m : Finset Event, (m.Nonempty → (life s t).task.registered = true) → m = ∅ := by
      intro m hm
      by_contra hne
      exact Bool.false_ne_true (hreg.symm.trans (hm (Finset.nonempty_iff_ne_empty.mpr hne)))
    refine ⟨hsock, hok.inQueues.trans (congrArg Place.inQueues hout), ?_⟩
    rw [Life.fresh, hempty _ hok.edges, hempty _ fun hne => hok.inEvs (hok.returned hne),
      hempty _ hok.pending, hout]
    rfl

/-! ### A run -/

/-- Two tasks in a batch. -/
def sample : Config := ⟨2, 4, 2⟩

/-- Steps of one worker. -/
def works (n : ℕ) : List (Action ℕ Bool) := List.replicate n (.work false)

/-- A task with a socket is posted and falls asleep. -/
def slept : List (Action ℕ Bool) :=
  [Action.attach 1 true, .postStart 1, .post 1, .signal, .work false,
    .epollWait false [] (fun _ => ∅) true] ++ works 8

/-- An event comes, and a worker executes the task. -/
def served : List (Action ℕ Bool) :=
  [Action.work false, .epollWait false [1] (fun _ => {.epollIn}) false] ++ works 10

/-- The task is woken up, is executed and falls asleep again. -/
def rewoken : List (Action ℕ Bool) :=
  [Action.rePost 1, .signal, .work false, .epollWait false [] (fun _ => ∅) true] ++ works 15 ++
    [Action.epollWait false [] (fun _ => ∅) true] ++ works 3

/-- The task is closed, goes to the scheduler and is executed for the last time. -/
def finished : List (Action ℕ Bool) :=
  works 5 ++ [Action.epollWait false [] (fun _ => ∅) true] ++ works 11

theorem reachable_of_run {now : ℕ} {as : List (Action T Θ)}
    (h : (machine c).run (.new now) as = some s) : (machine c).Reachable s :=
  Machine.Reachable.of_run (M := machine c) (.init ⟨now, rfl⟩) h

theorem strand_served : ∃ s : State ℕ Bool, (machine sample).Reachable s ∧
    (s.worker false).event = some 1 ∧ s.core.executed = [1] ∧ s.failed = false ∧
    ∀ θ, (s.worker θ).event = some 1 → θ = false := by
  have hrun : ((machine sample).run (.new 0) (slept ++ [Action.edge 1 .epollIn] ++ served)).map
      (fun s => ((s.worker false).event, s.core.executed)) = some (some 1, [1]) := by
    decide +kernel
  simp only [Option.map_eq_some_iff, Prod.mk.injEq] at hrun
  obtain ⟨s, hs, hevent, hexec⟩ := hrun
  have hreach := reachable_of_run hs
  obtain ⟨hfailed, -, -, -, -, hone⟩ := strand hreach
  exact ⟨s, hreach, hevent, hexec, hfailed, fun θ hθ => hone θ false 1 hθ hevent⟩

theorem life_closed_once_finished : ∃ s : State ℕ Bool, (machine sample).Reachable s ∧
    (s.task 1).log = [.post, .onEvent false {.epollIn}, .closeDo, .onEvent true ∅] ∧
    (s.task 1).socket = false ∧ 1 ∉ s.core.lives := by
  have hrun : ((machine sample).run (.new 0) (slept ++ [Action.edge 1 .epollIn] ++ served ++
      [Action.closeStart 1, .close 1] ++ finished)).map
      (fun s => ((s.task 1).log, (s.core.task 1).isClosed)) =
        some ([.post, .onEvent false {.epollIn}, .closeDo, .onEvent true ∅], true) := by
    decide +kernel
  simp only [Option.map_eq_some_iff, Prod.mk.injEq] at hrun
  obtain ⟨s, hs, hlog, hclosed⟩ := hrun
  have hreach := reachable_of_run hs
  obtain ⟨⟨p, hp, hout, -⟩, hsock, -⟩ := life_closed_once hreach 1
  have hphase : p = .outside := by
    rw [hlog] at hp
    exact (Option.some.inj hp).symm
  exact ⟨s, hreach, hlog, (hsock hclosed).1, (hout.mp hphase).2⟩

theorem event_kept_served : ∃ s s' : State ℕ Bool, (machine sample).Reachable s ∧
    (life s 1).fresh = {.epollIn} ∧ (machine sample).run s served = some s' ∧
    ∃ calls, (s'.task 1).log = (s.task 1).log ++ calls ∧
      (Call.closeDo ∈ calls ∨ ∃ args, Call.onEvent false args ∈ calls ∧ Event.epollIn ∈ args) := by
  have hrun : ((machine sample).run (.new 0) (slept ++ [Action.edge 1 .epollIn])).bind (fun s =>
      ((machine sample).run s served).map fun s' => ((life s 1).fresh, (life s' 1).fresh)) =
        some ({.epollIn}, ∅) := by
    decide +kernel
  obtain ⟨s, hs, hrun⟩ := Option.bind_eq_some_iff.mp hrun
  simp only [Option.map_eq_some_iff, Prod.mk.injEq] at hrun
  obtain ⟨s', hs', hfresh, hfresh'⟩ := hrun
  have hreach := reachable_of_run hs
  obtain ⟨⟨calls, hlog, hkept⟩, -⟩ := event_kept hreach hs' 1
  refine ⟨s, s', hreach, hfresh, hs', calls, hlog, ?_⟩
  refine (hkept .epollIn (hfresh ▸ Finset.mem_singleton_self _)).resolve_left fun he => ?_
  rw [hfresh'] at he
  cases he

theorem wakeup_kept_rewoken : ∃ s s' s'' : State ℕ Bool, (machine sample).Reachable s ∧
    (machine sample).step s (.wakeup 1) = some s' ∧ 1 ∈ s.core.asleep ∧
    (machine sample).run s' rewoken = some s'' ∧ 1 ∈ s''.core.asleep ∧
    ∃ calls isClosed args, (s''.task 1).log = (s.task 1).log ++ calls ∧
      Call.onEvent isClosed args ∈ calls := by
  have hrun : ((machine sample).run (.new 0) slept).bind (fun s =>
      ((machine sample).step s (.wakeup 1)).bind fun s' =>
        ((machine sample).run s' rewoken).map fun s'' =>
          (decide ((s.core.task 1).status ≠ .closed), decide (1 ∈ s.core.asleep),
            decide (1 ∈ s''.core.asleep))) = some (true, true, true) := by
    decide +kernel
  obtain ⟨s, hs, hrun⟩ := Option.bind_eq_some_iff.mp hrun
  obtain ⟨s', hs', hrun⟩ := Option.bind_eq_some_iff.mp hrun
  simp only [Option.map_eq_some_iff, Prod.mk.injEq, decide_eq_true_eq] at hrun
  obtain ⟨s'', hs'', hopen, ha, ha'⟩ := hrun
  have hreach := reachable_of_run hs
  exact ⟨s, s', s'', hreach, hs', ha, hs'', ha', wakeup_kept hreach hopen hs' hs'' ha'⟩

theorem closing_once_served : ∃ s s' : State ℕ Bool, (machine sample).Reachable s ∧
    (s.core.task 1).status = .closing ∧ (machine sample).run s (works 5) = some s' ∧
    ∃ calls, (s'.task 1).log = (s.task 1).log ++ calls ∧ (Call.closeDo ∈ calls ∨
      1 ∉ s'.core.asleep ∧ calls.countP Call.isEvent = 0) := by
  have hrun : ((machine sample).run (.new 0) (slept ++ [Action.edge 1 .epollIn] ++ served ++
      [.closeStart 1, .close 1])).bind (fun s => ((machine sample).run s (works 5)).map fun s' =>
        ((s.core.task 1).status, s.core.ready, s.core.readyQueue)) = some (.closing, [], []) := by
    decide +kernel
  obtain ⟨s, hs, hrun⟩ := Option.bind_eq_some_iff.mp hrun
  simp only [Option.map_eq_some_iff, Prod.mk.injEq] at hrun
  obtain ⟨s', hs', hst, hready, hqueue⟩ := hrun
  have hreach := reachable_of_run hs
  obtain ⟨calls, hlog, hcalls⟩ := closing_once hreach hst hs'
  refine ⟨s, s', hreach, hst, hs', calls, hlog, hcalls.imp_right ?_⟩
  rintro ⟨-, hsleep, -, hzero⟩
  exact ⟨hsleep, hzero (by rw [hready]; exact List.not_mem_nil)
    (by rw [hqueue]; exact List.not_mem_nil)⟩

theorem idle_of_count_zero_finished : ∃ s : State ℕ Bool, (machine sample).Reachable s ∧
    (s.task 1).log ≠ [] ∧ s.core.descriptorCount = 0 ∧ s.core.lives = [] ∧
    ∀ θ, (s.worker θ).event = none := by
  have hrun : ((machine sample).run (.new 0) (slept ++ [Action.edge 1 .epollIn] ++ served ++
      [Action.closeStart 1, .close 1] ++ finished)).map
      (fun s => (decide ((s.task 1).log ≠ []), s.core.descriptorCount)) = some (true, 0) := by
    decide +kernel
  simp only [Option.map_eq_some_iff, Prod.mk.injEq, decide_eq_true_eq] at hrun
  obtain ⟨s, hs, hlog, hzero⟩ := hrun
  have hreach := reachable_of_run hs
  obtain ⟨hlives, -, hworkers, -⟩ := idle_of_count_zero hreach hzero
  exact ⟨s, hreach, hlog, hzero, hlives, fun θ => (hworkers θ).1⟩

end IOCoreEpoll

end Serverbox
