import Serverbox.Lib.Placement
import Serverbox.Net.DomainToIP

/-!
# The invariant of the resolver

A request is in one place of the worker at most, and its cancellation too. What became of its two
references determines the number of references, of answers and of releases. The heap holds the
requests of the main list, and the worker sleeps only while there is nothing to do.

## Main definitions

* `DomainToIP.Context.Ok`: what holds of every request.
* `DomainToIP.State.queue`: the requests on their way through the worker.
* `DomainToIP.Inv`: the invariant.

## Main results

* `DomainToIP.Inv.change`, `DomainToIP.Inv.client`: the steps of the worker and of the clients.
* `DomainToIP.inv`: the invariant holds in every reachable state.
-/

namespace Serverbox

namespace DomainToIP

variable {ρ Θ ε : Type*}

/-- The number of references behind what became of one of them. -/
def Job.refs : Job → ℕ
  | none | released => 0
  | posting | queued | resolving | answered => 1

/-- The number of references behind what became of one of them. -/
def Grip.refs : Grip → ℕ
  | none | released => 0
  | held | cancelling | queued | dropping => 1

/-- The number of answers which were given. -/
def Job.answers : Job → ℕ
  | none | posting | queued | resolving => 0
  | answered | released => 1

/-- The reference was dropped. -/
def Job.isReleased : Job → Bool
  | none | posting | queued | resolving | answered => false
  | released => true

/-- The reference was dropped. -/
def Grip.isReleased : Grip → Bool
  | none | held | cancelling | queued | dropping => false
  | released => true

/-- What holds of every request. -/
structure Context.Ok (x : Context ε) : Prop where
  ref_eq : x.ref = x.job.refs + x.grip.refs
  deleted_eq : x.deleted = (x.job.isReleased && x.grip.isReleased)
  answers_eq : x.answers.length = x.job.answers
  releases_eq : x.releases = x.job.isReleased.toNat + x.grip.isReleased.toNat
  none_iff : x.job = .none ↔ x.grip = .none
  isCancelled_eq : x.grip = .held → x.isCancelled = false

namespace Context.Ok

variable {x : Context ε}

theorem alive_of_job (h : x.Ok) (hj : x.job.refs = 1) : x.deleted = false ∧ 0 < x.ref := by
  have hne : x.job.isReleased = false := by
    cases he : x.job <;> rw [he] at hj <;> first | rfl | cases hj
  refine ⟨by simp [h.deleted_eq, hne], ?_⟩
  have := h.ref_eq
  omega

theorem alive_of_grip (h : x.Ok) (hg : x.grip.refs = 1) : x.deleted = false ∧ 0 < x.ref := by
  have hne : x.grip.isReleased = false := by
    cases he : x.grip <;> rw [he] at hg <;> first | rfl | cases hg
  refine ⟨by simp [h.deleted_eq, hne], ?_⟩
  have := h.ref_eq
  omega

/-- The reference of the worker is dropped after the answer. -/
theorem unrefJob (h : x.Ok) (hj : x.job = .answered) : Context.Ok { x with
    job := .released
    ref := x.ref - 1
    deleted := x.ref - 1 == 0
    releases := x.releases + 1 } := by
  obtain ⟨hr, hd, ha, hrel, hn, hc⟩ := h
  rw [hj] at hr ha hrel hn
  constructor
  case isCancelled_eq => exact hc
  all_goals cases hg : x.grip <;>
    simp_all [Job.refs, Grip.refs, Job.answers, Job.isReleased, Grip.isReleased]

/-- The reference of the handle is dropped. -/
theorem unrefGrip (h : x.Ok) (hg : x.grip.refs = 1) : Context.Ok { x with
    grip := .released
    ref := x.ref - 1
    deleted := x.ref - 1 == 0
    releases := x.releases + 1 } := by
  obtain ⟨hr, hd, ha, hrel, hn, hc⟩ := h
  constructor
  all_goals cases hg' : x.grip <;> cases hj : x.job <;>
    simp_all [Job.refs, Grip.refs, Job.answers, Job.isReleased, Grip.isReleased]

/-- The worker goes on with a request without answering it. -/
theorem setJob (h : x.Ok) {j : Job} (hr : x.job.refs = 1) (hr' : j.refs = 1)
    (ha : j.answers = x.job.answers) : Context.Ok { x with job := j } := by
  obtain ⟨href, hd, hans, hrel, hn, hc⟩ := h
  constructor
  all_goals cases hj : x.job <;> cases hj' : j <;> simp_all [Job.refs, Job.answers, Job.isReleased]

/-- The request is answered. -/
theorem answer (h : x.Ok) {a : Answer ε} (hr : x.job.refs = 1) (ha : x.job.answers = 0) :
    Context.Ok { x with answers := x.answers ++ [a], job := .answered } := by
  obtain ⟨href, hd, hans, hrel, hn, hc⟩ := h
  constructor
  all_goals cases hj : x.job <;> simp_all [Job.refs, Job.answers, Job.isReleased]

/-- The reference of the handle is handed on. -/
theorem setGrip (h : x.Ok) {g : Grip} {b : Bool} (hr : x.grip.refs = 1) (hr' : g.refs = 1)
    (hg : g ≠ .held) : Context.Ok { x with isCancelled := b, grip := g } := by
  obtain ⟨href, hd, hans, hrel, hn, hc⟩ := h
  constructor
  all_goals cases hg' : x.grip <;> cases hg'' : g <;> simp_all [Grip.refs, Grip.isReleased]

theorem new (deadline : ℕ) :
    Context.Ok (⟨deadline, false, 2, false, [], 0, .posting, .held⟩ : Context ε) :=
  ⟨rfl, rfl, rfl, rfl, by simp, fun _ => rfl⟩

end Context.Ok

/-- The requests which the worker has taken from the queue of the clients. -/
def Worker.accepting : Worker ρ → List ρ
  | accept f _ => f
  | _ => []

/-- The cancellations which the worker has taken from the queue of the clients. -/
def Worker.cancelling : Worker ρ → List ρ
  | accept _ k | cancelled _ k | dropping _ k => k
  | _ => []

/-- The request which is being resolved. -/
def Worker.resolving : Worker ρ → List ρ
  | process c _ => [c]
  | _ => []

/-- The request which was answered but not dropped yet. -/
def Worker.answered : Worker ρ → List ρ
  | timedOut c _ | processed c _ | cancelled c _ => [c]
  | _ => []

/-- The request whose cancellation the worker is about to drop. -/
def Worker.dropped : Worker ρ → List ρ
  | cancelled c _ | dropping c _ => [c]
  | _ => []

/-- The request of a handle. -/
def Request.context : Request ρ → Option ρ
  | none | cancelling _ => Option.none
  | holds c | posting c => some c

/-- The request which a handle or its owner refers to. -/
def Request.about : Request ρ → Option ρ
  | none => Option.none
  | holds c | posting c | cancelling c => some c

namespace State

/-- The worker sleeps only when there is nothing to do, and looks for expired requests only when
there are requests. -/
def Settled (s : State ρ Θ ε) : Prop :=
  match s.worker with
  | .waiting => s.main = [] ∧ s.front = [] ∧ s.frontCancel = []
  | .expire _ => s.main ≠ []
  | _ => True

/-- What became of the reference of the worker. -/
def job (s : State ρ Θ ε) (c : ρ) : Job := (s.context c).job

/-- What became of the reference of the handle. -/
def grip (s : State ρ Θ ε) (c : ρ) : Grip := (s.context c).grip

/-- The requests on their way through the worker, in the order of their turns. -/
def queue (s : State ρ Θ ε) : List ρ := s.main ++ s.worker.accepting ++ s.front

/-- The requests at every stage of the worker. -/
def jobs (s : State ρ Θ ε) : Job → List ρ
  | .queued => s.queue
  | .resolving => s.worker.resolving
  | .answered => s.worker.answered
  | _ => []

/-- The requests at every stage of a cancellation. -/
def grips (s : State ρ Θ ε) : Grip → List ρ
  | .queued => s.worker.cancelling ++ s.frontCancel
  | .dropping => s.worker.dropped
  | _ => []

end State

/-- The stages of a request which the worker knows of. -/
def Job.Tracked : Job → Prop
  | queued | resolving | answered => True
  | none | posting | released => False

/-- The stages of a cancellation which the worker knows of. -/
def Grip.Tracked : Grip → Prop
  | queued | dropping => True
  | none | held | cancelling | released => False

/-- The invariant. -/
structure Inv (s : State ρ Θ ε) : Prop where
  ok : ∀ c, (s.context c).Ok
  heap : s.mainHeap.Wf s.above
  heap_main : s.mainHeap.data.Perm s.main
  jobs : Placed Job.Tracked s.job s.jobs
  grips : Placed Grip.Tracked s.grip s.grips
  posting : ∀ c, s.job c = .posting ↔ ∃ θ, s.request θ = .posting c
  held : ∀ c, s.grip c = .held ↔ ∃ θ, (s.request θ).context = some c
  cancelling : ∀ c, s.grip c = .cancelling ↔ ∃ θ, s.request θ = .cancelling c
  unique : ∀ θ θ' c, (s.request θ).about = some c → (s.request θ').about = some c → θ = θ'
  settled : s.Settled
  not_failed : s.failed = false

variable {s s' : State ρ Θ ε} {c : ρ}

theorem above_trans (s : State ρ Θ ε) ⦃a b d : ρ⦄ (hab : s.above a b = true)
    (hbd : s.above b d = true) : s.above a d = true := by
  simp only [State.above, decide_eq_true_eq] at *
  omega

theorem above_total (s : State ρ Θ ε) (a b : ρ) (h : s.above a b = false) :
    s.above b a = true := by
  simp only [State.above, decide_eq_true_eq, decide_eq_false_iff_not] at *
  omega

/-- A step of the worker which leaves the requests alone. -/
theorem Inv.still (h : Inv s) (hcon : s'.context = s.context) (hreq : s'.request = s.request)
    (hheap : s'.mainHeap.Wf s.above) (hmain : s'.mainHeap.data.Perm s'.main)
    (hjobs : ∀ p, p.Tracked → (s'.jobs p).Perm (s.jobs p))
    (hgrips : ∀ p, p.Tracked → (s'.grips p).Perm (s.grips p))
    (hset : s'.Settled) (hf : s'.failed = false) : Inv s' := by
  have habove : s'.above = s.above := by
    funext a b
    rw [State.above, State.above, hcon]
  have hjob : s'.job = s.job := by
    funext a
    rw [State.job, State.job, hcon]
  have hgrip : s'.grip = s.grip := by
    funext a
    rw [State.grip, State.grip, hcon]
  refine ⟨?_, habove ▸ hheap, hmain, ?_, ?_, ?_, ?_, ?_, ?_, hset, hf⟩
  · exact hcon ▸ h.ok
  · exact hjob ▸ h.jobs.congr hjobs
  · exact hgrip ▸ h.grips.congr hgrips
  · rw [hjob, hreq]
    exact h.posting
  · rw [hgrip, hreq]
    exact h.held
  · rw [hgrip, hreq]
    exact h.cancelling
  · rw [hreq]
    exact h.unique

theorem Inv.mem_queue (h : Inv s) : c ∈ s.queue ↔ s.job c = .queued :=
  h.jobs.mem_iff .queued trivial c

theorem Inv.queued_of_main (h : Inv s) (hc : c ∈ s.main) : s.job c = .queued :=
  h.mem_queue.mp (List.mem_append_left _ (List.mem_append_left _ hc))

theorem Inv.mem_resolving (h : Inv s) : c ∈ s.worker.resolving ↔ s.job c = .resolving :=
  h.jobs.mem_iff .resolving trivial c

theorem Inv.mem_answered (h : Inv s) : c ∈ s.worker.answered ↔ s.job c = .answered :=
  h.jobs.mem_iff .answered trivial c

theorem Inv.mem_cancels (h : Inv s) :
    c ∈ s.worker.cancelling ++ s.frontCancel ↔ s.grip c = .queued :=
  h.grips.mem_iff .queued trivial c

theorem Inv.mem_dropped (h : Inv s) : c ∈ s.worker.dropped ↔ s.grip c = .dropping :=
  h.grips.mem_iff .dropping trivial c

theorem Inv.alive_of_job (h : Inv s) (hj : (s.job c).refs = 1) :
    (s.context c).deleted = false ∧ 0 < (s.context c).ref := (h.ok c).alive_of_job hj

theorem Inv.alive_of_grip (h : Inv s) (hg : (s.grip c).refs = 1) :
    (s.context c).deleted = false ∧ 0 < (s.context c).ref := (h.ok c).alive_of_grip hg

variable [DecidableEq ρ]

/-- Only the requests of the main list have an index in the heap. -/
theorem Inv.index_nonneg (h : Inv s) : 0 ≤ s.mainHeap.index c ↔ c ∈ s.main :=
  h.heap.indexed.index_nonneg_iff.trans h.heap_main.mem_iff

/-- A request whose turn is over is in the heap no more. -/
theorem Inv.index_neg (h : Inv s) (hj : s.job c ≠ .queued) : s.mainHeap.index c < 0 := by
  exact Int.not_le.mp fun hle => hj (h.queued_of_main (h.index_nonneg.mp hle))

/-- What becomes of the reference of the worker when one request changes. -/
theorem job_update {x : Context ε} (hcon : s'.context = Function.update s.context c x) :
    s'.job = Function.update s.job c x.job := by
  funext a
  rw [State.job, hcon]
  by_cases ha : a = c
  · subst ha
    rw [Function.update_self, Function.update_self]
  · rw [Function.update_of_ne ha, Function.update_of_ne ha]
    rfl

/-- What becomes of the reference of the handle when one request changes. -/
theorem grip_update {x : Context ε} (hcon : s'.context = Function.update s.context c x) :
    s'.grip = Function.update s.grip c x.grip := by
  funext a
  rw [State.grip, hcon]
  by_cases ha : a = c
  · subst ha
    rw [Function.update_self, Function.update_self]
  · rw [Function.update_of_ne ha, Function.update_of_ne ha]
    rfl

/-- A step of the worker which changes one request. -/
theorem Inv.change (h : Inv s) {x : Context ε}
    (hcon : s'.context = Function.update s.context c x) (hreq : s'.request = s.request)
    (hx : x.Ok) (hdl : x.deadline = (s.context c).deadline)
    (hheap : s'.mainHeap.Wf s.above) (hmain : s'.mainHeap.data.Perm s'.main)
    (hjobs : Placed Job.Tracked (Function.update s.job c x.job) s'.jobs)
    (hgrips : Placed Grip.Tracked (Function.update s.grip c x.grip) s'.grips)
    (hposting : x.job = .posting ↔ s.job c = .posting)
    (hheld : x.grip = .held ↔ s.grip c = .held)
    (hcanc : x.grip = .cancelling ↔ s.grip c = .cancelling)
    (hset : s'.Settled) (hf : s'.failed = false) : Inv s' := by
  have hdeadline : ∀ a, (s'.context a).deadline = (s.context a).deadline := fun a => by
    rw [hcon]
    by_cases ha : a = c
    · subst ha
      rw [Function.update_self, hdl]
    · rw [Function.update_of_ne ha]
  have habove : s'.above = s.above := by
    funext a b
    rw [State.above, State.above, hdeadline, hdeadline]
  have hjob := job_update hcon
  have hgrip := grip_update hcon
  refine ⟨fun a => ?_, habove ▸ hheap, hmain, hjob ▸ hjobs, hgrip ▸ hgrips, fun a => ?_,
    fun a => ?_, fun a => ?_, ?_, hset, hf⟩
  · rw [hcon]
    by_cases ha : a = c
    · subst ha
      rwa [Function.update_self]
    · rw [Function.update_of_ne ha]
      exact h.ok a
  · rw [hjob, hreq, ← h.posting]
    by_cases ha : a = c
    · subst ha
      rw [Function.update_self, hposting]
    · rw [Function.update_of_ne ha]
  · rw [hgrip, hreq, ← h.held]
    by_cases ha : a = c
    · subst ha
      rw [Function.update_self, hheld]
    · rw [Function.update_of_ne ha]
  · rw [hgrip, hreq, ← h.cancelling]
    by_cases ha : a = c
    · subst ha
      rw [Function.update_self, hcanc]
    · rw [Function.update_of_ne ha]
  · rw [hreq]
    exact h.unique

/-- A request leaves the main list for the next stage of the worker. -/
theorem Inv.leave (h : Inv s) (hc : c ∈ s.main) {q : Job} {w : Worker ρ} {hp : BinaryHeap ρ}
    {b : Bool} {r : Θ → Request ρ} {con : ρ → Context ε}
    (hq : q = .resolving ∧ w.resolving = [c] ∧ w.answered = [] ∨
      q = .answered ∧ w.answered = [c] ∧ w.resolving = [])
    (hw : w.accepting = s.worker.accepting) (hr : s.worker.resolving = [])
    (ha : s.worker.answered = []) :
    Placed Job.Tracked (Function.update s.job c q)
      (State.jobs ⟨con, s.main.erase c, hp, s.front, s.frontCancel, w, r, b⟩) := by
  have hj : s.job c = .queued := h.queued_of_main hc
  have hperm := List.perm_cons_erase hc
  refine h.jobs.move ?_ (fun _ => ?_) (fun _ => ?_) fun p hp hpj hpq => ?_
  · rw [hj]
    rcases hq with ⟨rfl, -⟩ | ⟨rfl, -⟩ <;> exact nofun
  · rw [hj]
    simp only [State.jobs, State.queue, hw, List.append_assoc]
    exact hperm.append_right _
  · rcases hq with ⟨rfl, he, -⟩ | ⟨rfl, he, -⟩
    · simp only [State.jobs, he, hr]
      exact .rfl
    · simp only [State.jobs, he, ha]
      exact .rfl
  · rw [hj] at hpj
    rcases hq with ⟨rfl, -, he⟩ | ⟨rfl, -, he⟩
    · cases p <;> first | exact hp.elim | exact absurd rfl hpj | exact absurd rfl hpq | skip
      simp only [State.jobs, he, ha]
      exact .rfl
    · cases p <;> first | exact hp.elim | exact absurd rfl hpj | exact absurd rfl hpq | skip
      simp only [State.jobs, he, hr]
      exact .rfl

omit [DecidableEq ρ] in
/-- Nothing is answered, and no cancellation dropped, at most program points of the worker. -/
theorem Inv.goto (h : Inv s) {w w' : Worker ρ} (hs : s.worker = w')
    (hacc : w.accepting = w'.accepting) (hcanc : w.cancelling = w'.cancelling)
    (hres : w.resolving = w'.resolving) (hans : w.answered = w'.answered)
    (hdrop : w.dropped = w'.dropped) (hw : (s.goto w).Settled) : Inv (s.goto w) := by
  subst hs
  refine h.still rfl rfl h.heap h.heap_main (fun p hp => ?_) (fun p hp => ?_) hw h.not_failed
  · cases p <;> first | exact hp.elim | skip
    · exact .of_eq (congrArg (fun l => s.main ++ l ++ s.front) hacc)
    · exact .of_eq hres
    · exact .of_eq hans
  · cases p <;> first | exact hp.elim | skip
    · exact .of_eq (congrArg (· ++ s.frontCancel) hcanc)
    · exact .of_eq hdrop

omit [DecidableEq ρ] in
/-- Where a reference is still to be dropped, the request is there. -/
theorem Inv.touch_eq (h : Inv s) (hc : (s.job c).refs = 1 ∨ (s.grip c).refs = 1) :
    s.touch c = s := by
  have hd : (s.context c).deleted = false := hc.elim (fun hj => (h.alive_of_job hj).1)
    fun hg => (h.alive_of_grip hg).1
  simp only [State.touch, State.assert, hd, Bool.not_false, Bool.not_true, Bool.or_false]

theorem Inv.unref_eq (h : Inv s) (hc : (s.job c).refs = 1 ∨ (s.grip c).refs = 1)
    (f : Context ε → Context ε) : s.unref c f = s.modify c fun x =>
      { f x with ref := x.ref - 1, deleted := x.ref - 1 == 0, releases := x.releases + 1 } := by
  have hr : 0 < (s.context c).ref := hc.elim (fun hj => (h.alive_of_job hj).2)
    fun hg => (h.alive_of_grip hg).2
  rw [State.unref, h.touch_eq hc, State.assert]
  simp only [hr, decide_true, Bool.not_true, Bool.or_false]

/-- The reference of the handle is where it was. -/
theorem Inv.grips_same (h : Inv s) {w : Worker ρ} {t : State ρ Θ ε} (hs : s.worker = w)
    (hcanc : t.worker.cancelling = w.cancelling) (hk : t.frontCancel = s.frontCancel)
    (hdrop : t.worker.dropped = w.dropped) :
    Placed Grip.Tracked (Function.update s.grip c (s.grip c)) t.grips := by
  subst hs
  rw [Function.update_eq_self]
  refine h.grips.congr fun p hp => ?_
  cases p <;> first | exact hp.elim | skip
  · simp only [State.grips, hcanc, hk]
    exact .rfl
  · exact .of_eq hdrop

/-- The worker drops the request which it has answered. -/
theorem Inv.unrefJob (h : Inv s) {w w' : Worker ρ} (hs : s.worker = w') (hc : w'.answered = [c])
    (hacc : w.accepting = w'.accepting) (hcanc : w.cancelling = w'.cancelling)
    (hres : w.resolving = w'.resolving) (hans : w.answered = [])
    (hdrop : w.dropped = w'.dropped) (hw : (s.goto w).Settled) :
    Inv ((s.unrefJob c).goto w) := by
  subst hs
  have hj : s.job c = .answered := h.mem_answered.mp (by simp [hc])
  rw [State.unrefJob, h.unref_eq (.inl (by rw [hj]; rfl))]
  refine h.change rfl rfl ((h.ok c).unrefJob hj) rfl h.heap h.heap_main ?_ ?_ ?_ Iff.rfl Iff.rfl
    hw h.not_failed
  · refine h.jobs.move (by rw [hj]; exact nofun) (fun _ => ?_) (fun ht => ht.elim)
      fun p hp hpj _ => ?_
    · rw [hj]
      show s.worker.answered.Perm (c :: w.answered)
      rw [hc, hans]
    · rw [hj] at hpj
      cases p <;> first | exact hp.elim | exact absurd rfl hpj | skip
      · exact .of_eq (congrArg (fun l => s.main ++ l ++ s.front) hacc)
      · exact .of_eq hres
  · exact h.grips_same rfl hcanc rfl hdrop
  · rw [hj]
    exact ⟨nofun, nofun⟩

/-- The worker drops the request whose cancellation it has served. -/
theorem Inv.dropGrip (h : Inv s) {k : List ρ} (hs : s.worker = .dropping c k) :
    Inv ((s.unrefGrip c).goto (.accept [] k)) := by
  have hg : s.grip c = .dropping := h.mem_dropped.mp (by simp [hs, Worker.dropped])
  rw [State.unrefGrip, h.unref_eq (.inr (by rw [hg]; rfl))]
  refine h.change rfl rfl ((h.ok c).unrefGrip (by rw [show (s.context c).grip = _ from hg]; rfl))
    rfl h.heap h.heap_main ?_ ?_ Iff.rfl ?_ ?_ trivial h.not_failed
  · show Placed Job.Tracked (Function.update s.job c (s.job c)) _
    rw [Function.update_eq_self]
    refine h.jobs.congr fun p hp => ?_
    cases p <;> first | exact hp.elim | skip
    all_goals
      simp only [State.jobs, State.queue, hs]
      exact .rfl
  · refine h.grips.move (by rw [hg]; exact nofun) (fun _ => ?_) (fun ht => ht.elim)
      fun p hp hpj _ => ?_
    · rw [hg]
      simp only [State.grips, hs]
      exact .rfl
    · rw [hg] at hpj
      cases p <;> first | exact hp.elim | exact absurd rfl hpj | skip
      simp only [State.grips, hs]
      exact .rfl
  · rw [hg]
    exact ⟨nofun, nofun⟩
  · rw [hg]
    exact ⟨nofun, nofun⟩

omit [DecidableEq ρ] in
/-- The worker takes the queues of the clients. -/
theorem Inv.take (h : Inv s) {w : Worker ρ} (hs : s.worker = w) (hacc : w.accepting = [])
    (hcanc : w.cancelling = []) (hres : w.resolving = []) (hans : w.answered = [])
    (hdrop : w.dropped = []) : Inv s.take := by
  subst hs
  refine h.still rfl rfl h.heap h.heap_main (fun p hp => ?_) (fun p hp => ?_) trivial h.not_failed
  · cases p <;> first | exact hp.elim | skip
    · simp only [State.jobs, State.queue, hacc, List.append_nil]
      exact .of_eq (List.append_nil _)
    · exact .of_eq hres.symm
    · exact .of_eq hans.symm
  · cases p <;> first | exact hp.elim | skip
    · simp only [State.grips, hcanc, List.nil_append]
      exact .of_eq (List.append_nil _)
    · exact .of_eq hdrop.symm

/-- The worker accepts a request. -/
theorem Inv.accept (h : Inv s) {f k : List ρ} (hs : s.worker = .accept (c :: f) k) :
    Inv ({ s.touch c with
      main := s.main ++ [c]
      mainHeap := s.mainHeap.push s.above c }.goto (.accept f k)) := by
  have hqueue : s.queue = s.main ++ c :: f ++ s.front := by rw [State.queue, hs]; rfl
  have hj : s.job c = .queued := h.mem_queue.mp (by simp [hqueue])
  have hnd : s.queue.Nodup := h.jobs.nodup .queued trivial
  have hc : c ∉ s.main := by
    rw [hqueue, List.append_assoc, List.nodup_append] at hnd
    exact fun hmem => hnd.2.2 c hmem c (by simp) rfl
  obtain ⟨hwf, hperm⟩ := BinaryHeap.Wf.push (above_trans s) (above_total s) h.heap
    (fun hmem => hc (h.heap_main.mem_iff.mp hmem))
  rw [h.touch_eq (.inl (by rw [hj]; rfl))]
  refine h.still rfl rfl hwf ?_ (fun p hp => ?_) (fun p hp => ?_) trivial h.not_failed
  · exact (hperm.trans (h.heap_main.cons c)).trans (List.perm_append_singleton c s.main).symm
  · cases p <;> first | exact hp.elim | skip
    · refine .of_eq ?_
      show s.main ++ [c] ++ f ++ s.front = s.queue
      rw [hqueue]
      simp
    all_goals
      simp only [State.jobs, hs]
      exact .rfl
  · cases p <;> first | exact hp.elim | (simp only [State.grips, hs]; exact .rfl)

/-- The callback is invoked for a request which is not in the heap. -/
theorem Inv.answer_eq (h : Inv s) (hj : (s.job c).refs = 1) (t : State ρ Θ ε)
    (hcon : t.context = s.context) (hidx : t.mainHeap.index c < 0) (a : Answer ε) :
    t.answer c a = t.modify c fun x =>
      { x with answers := x.answers ++ [a], job := .answered } := by
  have hd : (t.context c).deleted = false := by
    rw [hcon]
    exact (h.alive_of_job hj).1
  simp only [State.answer, State.touch, State.assert, hd, hidx, decide_true, Bool.not_false,
    Bool.not_true, Bool.or_false]

omit [DecidableEq ρ] in
/-- An element which was taken out of the heap has no index. -/
theorem index_neg_of_perm {hp hp' : BinaryHeap ρ} {above : ρ → ρ → Bool} (hwf : hp.Wf above)
    (hwf' : hp'.Wf above) (hperm : (c :: hp'.data).Perm hp.data) : hp'.index c < 0 := by
  have hnd := hperm.nodup_iff.mpr hwf.indexed.nodup
  rw [hwf'.indexed.index_neg c (List.nodup_cons.mp hnd).1]
  exact Int.negSucc_lt_zero 0

/-- The rest of the heap is the rest of the list. -/
theorem perm_erase {l l' m : List ρ} (hperm : (c :: l').Perm l) (hl : l.Perm m) :
    l'.Perm (m.erase c) := by
  have := (hperm.trans hl).erase c
  rwa [List.erase_cons_head] at this

/-- A request whose deadline is over is answered with a timeout. -/
theorem Inv.timeout (h : Inv s) {ts : ℕ} (hs : s.worker = .expire ts)
    (htop : s.mainHeap.top = some c) :
    Inv (({ s.touch c with
      mainHeap := (s.mainHeap.removeTop s.above).1
      main := s.main.erase c }.answer c .timeout).goto (.timedOut c ts)) := by
  have hc : c ∈ s.main := h.heap_main.mem_iff.mp (List.mem_of_mem_head? htop)
  have hj : s.job c = .queued := h.queued_of_main hc
  have hrefs : (s.job c).refs = 1 := by rw [hj]; rfl
  obtain ⟨hwf, hperm⟩ := BinaryHeap.Wf.removeTop (above_trans s) (above_total s) h.heap htop
  rw [h.touch_eq (.inl hrefs)]
  rw [h.answer_eq hrefs { s with
    mainHeap := (s.mainHeap.removeTop s.above).1
    main := s.main.erase c } rfl (index_neg_of_perm h.heap hwf hperm)]
  refine h.change rfl rfl ((h.ok c).answer hrefs (by rw [show (s.context c).job = _ from hj]; rfl))
    rfl hwf (perm_erase hperm h.heap_main) ?_ ?_ ?_ Iff.rfl Iff.rfl trivial h.not_failed
  · exact h.leave hc (.inr ⟨rfl, rfl, rfl⟩) (by rw [hs]; rfl) (by rw [hs]; rfl) (by rw [hs]; rfl)
  · exact h.grips_same hs rfl rfl rfl
  · rw [hj]
    exact ⟨nofun, nofun⟩

/-- The worker begins to resolve the first request. -/
theorem Inv.popFirst (h : Inv s) {l : List ρ} {n m : ℕ} (hs : s.worker = .batch m)
    (hmain : s.main = c :: l) :
    Inv ((({ s.touch c with main := l, mainHeap := (s.mainHeap.remove s.above c).1 }.assert
      (s.mainHeap.remove s.above c).2).modify c fun x => { x with job := .resolving }).goto
        (.process c n)) := by
  have hc : c ∈ s.main := by simp [hmain]
  have hj : s.job c = .queued := h.queued_of_main hc
  have hrefs : (s.job c).refs = 1 := by rw [hj]; rfl
  obtain ⟨hwf, hperm, htrue⟩ := BinaryHeap.Wf.remove (above_trans s) (above_total s) h.heap
    (h.heap_main.mem_iff.mpr hc)
  have hl : s.main.erase c = l := by rw [hmain, List.erase_cons_head]
  rw [h.touch_eq (.inl hrefs), htrue, ← hl]
  refine h.change rfl rfl ((h.ok c).setJob hrefs rfl
    (by rw [show (s.context c).job = _ from hj]; rfl)) rfl hwf (perm_erase hperm h.heap_main)
    ?_ ?_ ?_ Iff.rfl Iff.rfl trivial ?_
  · exact h.leave hc (.inl ⟨rfl, rfl, rfl⟩) (by rw [hs]; rfl) (by rw [hs]; rfl) (by rw [hs]; rfl)
  · exact h.grips_same hs rfl rfl rfl
  · rw [hj]
    exact ⟨nofun, nofun⟩
  · show (s.failed || !true) = false
    rw [h.not_failed]
    rfl

/-- The worker answers the request which it has resolved. -/
theorem Inv.resolve (h : Inv s) {n : ℕ} (hs : s.worker = .process c n) (res : ε) :
    Inv ((s.answer c (.done res)).goto (.processed c n)) := by
  have hj : s.job c = .resolving := h.mem_resolving.mp (by simp [hs, Worker.resolving])
  have hrefs : (s.job c).refs = 1 := by rw [hj]; rfl
  rw [h.answer_eq hrefs s rfl (h.index_neg (by rw [hj]; exact nofun))]
  refine h.change rfl rfl ((h.ok c).answer hrefs (by rw [show (s.context c).job = _ from hj]; rfl))
    rfl h.heap h.heap_main ?_ ?_ ?_ Iff.rfl Iff.rfl trivial h.not_failed
  · refine h.jobs.move (by rw [hj]; exact nofun) (fun _ => ?_) (fun _ => ?_)
      fun p hp hpj hpq => ?_
    · rw [hj]
      simp only [State.jobs, hs]
      exact .rfl
    · simp only [State.jobs, hs]
      exact .rfl
    · rw [hj] at hpj
      cases p <;> first | exact hp.elim | exact absurd rfl hpj | exact absurd rfl hpq | skip
      simp only [State.jobs, State.queue, hs]
      exact .rfl
  · exact h.grips_same hs rfl rfl rfl
  · rw [hj]
    exact ⟨nofun, nofun⟩

/-- The worker takes a cancellation of a request which is still in its turn, or is answered. -/
theorem Inv.takeCancel (h : Inv s) {k : List ρ} (hs : s.worker = .accept [] (c :: k))
    {w : Worker ρ} (hw : w = .cancelled c k ∨ w = .dropping c k) {hp : BinaryHeap ρ} {l : List ρ}
    {b : Bool} {r : Θ → Request ρ} {con : ρ → Context ε} :
    Placed Grip.Tracked (Function.update s.grip c .dropping)
      (State.grips ⟨con, l, hp, s.front, s.frontCancel, w, r, b⟩) := by
  have hg : s.grip c = .queued := h.mem_cancels.mp (by simp [hs, Worker.cancelling])
  refine h.grips.move (by rw [hg]; exact nofun) (fun _ => ?_) (fun _ => ?_)
    fun p hp hpj hpq => ?_
  · rw [hg]
    simp only [State.grips, hs]
    rcases hw with rfl | rfl <;> exact .rfl
  · simp only [State.grips, hs]
    rcases hw with rfl | rfl <;> exact .rfl
  · rw [hg] at hpj
    cases p <;> first | exact hp.elim | exact absurd rfl hpj | exact absurd rfl hpq

/-- A cancelled request which is in the main list is answered with a cancellation. -/
theorem Inv.cancelMain (h : Inv s) {k : List ρ} (hs : s.worker = .accept [] (c :: k))
    (hidx : 0 ≤ s.mainHeap.index c) :
    Inv (((({ s.touch c with
      main := s.main.erase c
      mainHeap := (s.mainHeap.remove s.above c).1 }.assert
        (s.mainHeap.remove s.above c).2).answer c .cancel).modify c fun x =>
          { x with grip := .dropping }).goto (.cancelled c k)) := by
  have hc : c ∈ s.main := h.index_nonneg.mp hidx
  have hj : s.job c = .queued := h.queued_of_main hc
  have hg : s.grip c = .queued := h.mem_cancels.mp (by simp [hs, Worker.cancelling])
  have hrefs : (s.job c).refs = 1 := by rw [hj]; rfl
  obtain ⟨hwf, hperm, htrue⟩ := BinaryHeap.Wf.remove (above_trans s) (above_total s) h.heap
    (h.heap_main.mem_iff.mpr hc)
  rw [h.touch_eq (.inl hrefs), htrue]
  rw [h.answer_eq hrefs (State.assert { s with
    main := s.main.erase c
    mainHeap := (s.mainHeap.remove s.above c).1 } true) rfl (index_neg_of_perm h.heap hwf hperm)]
  have hx := ((h.ok c).answer (a := .cancel) hrefs
    (by rw [show (s.context c).job = _ from hj]; rfl)).setGrip (g := .dropping)
      (b := (s.context c).isCancelled) (by show (s.grip c).refs = 1; rw [hg]; rfl) rfl nofun
  refine h.change ?_ rfl hx rfl hwf (perm_erase hperm h.heap_main) ?_ ?_ ?_ ?_ ?_ trivial ?_
  · simp [State.goto, State.modify, State.assert]
  · exact h.leave hc (.inr ⟨rfl, rfl, rfl⟩) (by rw [hs]; rfl) (by rw [hs]; rfl) (by rw [hs]; rfl)
  · exact h.takeCancel hs (.inl rfl)
  · rw [hj]
    exact ⟨nofun, nofun⟩
  · rw [hg]
    exact ⟨nofun, nofun⟩
  · rw [hg]
    exact ⟨nofun, nofun⟩
  · show (s.failed || !true) = false
    rw [h.not_failed]
    rfl

/-- The cancellation of any other request has no effect. -/
theorem Inv.cancelOther (h : Inv s) {k : List ρ} (hs : s.worker = .accept [] (c :: k)) :
    Inv (((s.touch c).modify c fun x => { x with grip := .dropping }).goto (.dropping c k)) := by
  have hg : s.grip c = .queued := h.mem_cancels.mp (by simp [hs, Worker.cancelling])
  have hrefs : (s.grip c).refs = 1 := by rw [hg]; rfl
  rw [h.touch_eq (.inr hrefs)]
  refine h.change rfl rfl ((h.ok c).setGrip (b := (s.context c).isCancelled) hrefs rfl nofun) rfl
    h.heap h.heap_main ?_ (h.takeCancel hs (.inr rfl)) Iff.rfl ?_ ?_ trivial h.not_failed
  · show Placed Job.Tracked (Function.update s.job c (s.job c)) _
    rw [Function.update_eq_self]
    refine h.jobs.congr fun p hp => ?_
    cases p <;> first | exact hp.elim | (simp only [State.jobs, State.queue, hs]; exact .rfl)
  · rw [hg]
    exact ⟨nofun, nofun⟩
  · rw [hg]
    exact ⟨nofun, nofun⟩

omit [DecidableEq ρ] in
/-- The worker looks for expired requests only when there is one with the first deadline. -/
theorem Inv.exists_top (h : Inv s) {ts : ℕ} (hw : s.worker = .expire ts) :
    ∃ c, s.mainHeap.top = some c ∧ c ∈ s.main := by
  have hset := h.settled
  simp only [State.Settled, hw] at hset
  cases htop : s.mainHeap.top with
  | none =>
    have hnil : s.mainHeap.data = [] := List.head?_eq_none_iff.mp htop
    have hperm := h.heap_main
    rw [hnil] at hperm
    exact absurd hperm.nil_eq.symm hset
  | some c => exact ⟨c, rfl, h.heap_main.mem_iff.mp (List.mem_of_mem_head? htop)⟩

omit [DecidableEq ρ] in
theorem Inv.touchTop_eq (h : Inv s) : s.touchTop = s := by
  unfold State.touchTop
  split
  · rename_i c htop
    have hc : c ∈ s.main := h.heap_main.mem_iff.mp (List.mem_of_mem_head? htop)
    exact h.touch_eq (.inl (by rw [h.queued_of_main hc]; rfl))
  · rfl

/-- Every step of the worker keeps the invariant. -/
theorem Inv.work (h : Inv s) {now : ℕ} {res : ε} (hs : DomainToIP.work s now res = some s') :
    Inv s' := by
  unfold DomainToIP.work at hs
  cases hw : s.worker with
  | main =>
    simp only [hw, Option.some.injEq] at hs
    subst hs
    split
    · exact h.goto hw rfl rfl rfl rfl rfl trivial
    · rename_i hne
      exact h.goto hw rfl rfl rfl rfl rfl hne
  | expire ts =>
    simp only [hw] at hs
    obtain ⟨c, htop, hc⟩ := h.exists_top hw
    simp only [htop] at hs
    split at hs <;> cases hs
    · exact h.timeout hw htop
    · rw [h.touch_eq (.inl (by rw [h.queued_of_main hc]; rfl))]
      exact h.goto hw rfl rfl rfl rfl rfl trivial
  | timedOut c ts =>
    simp only [hw, Option.some.injEq] at hs
    subst hs
    show Inv ((s.unrefJob c).goto _)
    split
    · exact h.unrefJob hw rfl rfl rfl rfl rfl rfl trivial
    · rename_i hne
      exact h.unrefJob hw rfl rfl rfl rfl rfl rfl hne
  | batch n =>
    simp only [hw] at hs
    split at hs <;> cases hs
    · rename_i hmain
      exact h.popFirst hw hmain
    · exact h.goto hw rfl rfl rfl rfl rfl trivial
  | process c n =>
    simp only [hw, Option.some.injEq] at hs
    exact hs ▸ h.resolve hw res
  | processed c n =>
    simp only [hw, Option.some.injEq] at hs
    subst hs
    exact h.unrefJob hw rfl rfl rfl rfl rfl rfl trivial
  | front =>
    simp only [hw, h.touchTop_eq] at hs
    split at hs <;> cases hs
    · rename_i hcond
      exact h.goto hw rfl rfl rfl rfl rfl ⟨hcond.1, hcond.2.1, hcond.2.2.1⟩
    · exact h.take hw rfl rfl rfl rfl rfl
  | waiting => simp [hw] at hs
  | woken =>
    simp only [hw, Option.some.injEq] at hs
    subst hs
    exact h.take hw rfl rfl rfl rfl rfl
  | accept f k =>
    cases f with
    | cons c f =>
      simp only [hw, Option.some.injEq] at hs
      exact hs ▸ h.accept hw
    | nil =>
      cases k with
      | cons c k =>
        simp only [hw] at hs
        split at hs <;> cases hs
        · rename_i hidx
          exact h.cancelMain hw hidx
        · exact h.cancelOther hw
      | nil =>
        simp only [hw, Option.some.injEq] at hs
        subst hs
        exact h.goto hw rfl rfl rfl rfl rfl trivial
  | cancelled c k =>
    simp only [hw, Option.some.injEq] at hs
    subst hs
    exact h.unrefJob hw rfl rfl rfl rfl rfl rfl trivial
  | dropping c k =>
    simp only [hw, Option.some.injEq] at hs
    exact hs ▸ h.dropGrip hw

variable [DecidableEq Θ]

omit [DecidableEq ρ] in
/-- What the handles do with the request `c` when only the handle `θ` changes. -/
theorem exists_update {f : Θ → Request ρ} {θ : Θ} {r : Request ρ} {K : Request ρ → Prop}
    (hK : ∀ r', K r' → r'.about = some c) (hapart : ∀ θ' ≠ θ, (f θ').about ≠ some c) :
    (∃ θ', K (Function.update f θ r θ')) ↔ K r := by
  constructor
  · rintro ⟨θ', hθ'⟩
    by_cases hne : θ' = θ
    · subst hne
      rwa [Function.update_self] at hθ'
    · rw [Function.update_of_ne hne] at hθ'
      exact absurd (hK _ hθ') (hapart θ' hne)
  · exact fun hr => ⟨θ, by rwa [Function.update_self]⟩

omit [DecidableEq ρ] in
/-- What the handles do with another request stays. -/
theorem exists_update_other {f : Θ → Request ρ} {θ : Θ} {r : Request ρ} {K : Request ρ → Prop}
    (hf : ¬ K (f θ)) (hr : ¬ K r) :
    (∃ θ', K (Function.update f θ r θ')) ↔ ∃ θ', K (f θ') := by
  refine exists_congr fun θ' => ?_
  by_cases hne : θ' = θ
  · subst hne
    rw [Function.update_self]
    exact iff_of_false hr hf
  · rw [Function.update_of_ne hne]

/-- A step of a client changes a handle and the request which it is about. -/
theorem Inv.client (h : Inv s) {x : Context ε} {θ : Θ} {r : Request ρ}
    (hcon : s'.context = Function.update s.context c x)
    (hreq : s'.request = Function.update s.request θ r)
    (hx : x.Ok) (hdl : s.job c ≠ .none → x.deadline = (s.context c).deadline)
    (hheap : s'.mainHeap = s.mainHeap) (hmain : s'.main = s.main)
    (hjobs : Placed Job.Tracked (Function.update s.job c x.job) s'.jobs)
    (hgrips : Placed Grip.Tracked (Function.update s.grip c x.grip) s'.grips)
    (hold : (s.request θ).about = some c ∨
      (s.request θ).about = none ∧ ∀ θ', (s.request θ').about ≠ some c)
    (hnew : r.about = some c ∨ r.about = none)
    (hposting : x.job = .posting ↔ r = .posting c)
    (hheld : x.grip = .held ↔ r.context = some c)
    (hcanc : x.grip = .cancelling ↔ r = .cancelling c)
    (hset : s'.Settled) (hf : s'.failed = false) : Inv s' := by
  have hjob := job_update hcon
  have hgrip := grip_update hcon
  have hdeadline : ∀ a ∈ s.mainHeap.data, (s'.context a).deadline = (s.context a).deadline := by
    intro a ha
    have hj : s.job a = .queued := h.queued_of_main (h.heap_main.mem_iff.mp ha)
    rw [hcon]
    by_cases hac : a = c
    · subst hac
      rw [Function.update_self, hdl (by rw [hj]; exact nofun)]
    · rw [Function.update_of_ne hac]
  have hapart : ∀ θ' ≠ θ, (s.request θ').about ≠ some c := fun θ' hne => by
    rcases hold with hold | ⟨-, hall⟩
    · exact fun hθ' => hne (h.unique θ' θ c hθ' hold)
    · exact hall θ'
  have hother : ∀ a ≠ c, (s.request θ).about ≠ some a ∧ r.about ≠ some a := fun a ha => by
    refine ⟨fun he => ?_, fun he => ?_⟩
    · rcases hold with hold | ⟨hold, -⟩ <;> rw [hold] at he
      · exact ha (Option.some.inj he).symm
      · cases he
    · rcases hnew with hnew | hnew <;> rw [hnew] at he
      · exact ha (Option.some.inj he).symm
      · cases he
  have hcontext : ∀ {r' : Request ρ} {a : ρ}, r'.context = some a → r'.about = some a := by
    intro r' a he
    cases r' <;> first | exact he | cases he
  refine ⟨fun a => ?_, ?_, ?_, hjob ▸ hjobs, hgrip ▸ hgrips, fun a => ?_, fun a => ?_, fun a => ?_,
    fun θ₁ θ₂ a h₁ h₂ => ?_, hset, hf⟩
  · rw [hcon]
    by_cases ha : a = c
    · subst ha
      rwa [Function.update_self]
    · rw [Function.update_of_ne ha]
      exact h.ok a
  · rw [hheap]
    refine h.heap.congr fun a ha b hb => ?_
    rw [State.above, State.above, hdeadline a ha, hdeadline b hb]
  · rw [hheap, hmain]
    exact h.heap_main
  · rw [hjob, hreq]
    by_cases ha : a = c
    · subst ha
      rw [Function.update_self, hposting]
      exact (exists_update (K := fun r' => r' = .posting a) (by rintro _ rfl; rfl) hapart).symm
    · rw [Function.update_of_ne ha, h.posting]
      refine (exists_update_other (K := fun r' => r' = .posting a) (fun he => ?_)
        fun he => ?_).symm
      · exact (hother a ha).1 (by rw [he]; rfl)
      · exact (hother a ha).2 (by rw [he]; rfl)
  · rw [hgrip, hreq]
    by_cases ha : a = c
    · subst ha
      rw [Function.update_self, hheld]
      exact (exists_update (K := fun r' => r'.context = some a) (fun _ => hcontext) hapart).symm
    · rw [Function.update_of_ne ha, h.held]
      exact (exists_update_other (K := fun r' => r'.context = some a)
        (fun he => (hother a ha).1 (hcontext he)) fun he => (hother a ha).2 (hcontext he)).symm
  · rw [hgrip, hreq]
    by_cases ha : a = c
    · subst ha
      rw [Function.update_self, hcanc]
      exact (exists_update (K := fun r' => r' = .cancelling a) (by rintro _ rfl; rfl) hapart).symm
    · rw [Function.update_of_ne ha, h.cancelling]
      refine (exists_update_other (K := fun r' => r' = .cancelling a) (fun he => ?_)
        fun he => ?_).symm
      · exact (hother a ha).1 (by rw [he]; rfl)
      · exact (hother a ha).2 (by rw [he]; rfl)
  · rw [hreq] at h₁ h₂
    by_cases ha : a = c
    · subst ha
      have hθ : ∀ θ', (Function.update s.request θ r θ').about = some a → θ' = θ := fun θ' he => by
        by_contra hne
        rw [Function.update_of_ne hne] at he
        exact hapart θ' hne he
      rw [hθ θ₁ h₁, hθ θ₂ h₂]
    · have hθ : ∀ θ', (Function.update s.request θ r θ').about = some a →
          (s.request θ').about = some a := fun θ' he => by
        by_cases hne : θ' = θ
        · subst hne
          rw [Function.update_self] at he
          exact absurd he (hother a ha).2
        · rwa [Function.update_of_ne hne] at he
      exact h.unique θ₁ θ₂ a (hθ θ₁ h₁) (hθ θ₂ h₂)

omit [DecidableEq Θ] in
/-- The reference of the worker is where it was. -/
theorem Inv.jobs_same (h : Inv s) {l : Job → List ρ} (hl : ∀ p, p.Tracked → l p = s.jobs p) :
    Placed Job.Tracked (Function.update s.job c (s.job c)) l := by
  rw [Function.update_eq_self]
  exact h.jobs.congr fun p hp => .of_eq (hl p hp)

omit [DecidableEq Θ] in
/-- The reference of the handle is where it was, as far as the worker knows. -/
theorem Inv.grips_untracked (h : Inv s) {g : Grip} {l : Grip → List ρ} (hne : s.grip c ≠ g)
    (hg : ¬ (s.grip c).Tracked) (hg' : ¬ g.Tracked) (hl : ∀ p, p.Tracked → l p = s.grips p) :
    Placed Grip.Tracked (Function.update s.grip c g) l :=
  h.grips.move hne (fun ht => absurd ht hg) (fun ht => absurd ht hg')
    fun p hp _ _ => .of_eq (hl p hp)

omit [DecidableEq ρ] [DecidableEq Θ] in
/-- Only one handle refers to a request. -/
theorem Inv.not_posting (h : Inv s) {θ : Θ} (hθ : (s.request θ).about = some c)
    (hne : s.request θ ≠ .posting c) : s.job c ≠ .posting := fun hj => by
  obtain ⟨θ', hθ'⟩ := (h.posting c).mp hj
  obtain rfl := h.unique θ θ' c hθ (by rw [hθ']; rfl)
  exact hne hθ'

/-- The owner of a handle drops it. -/
theorem Inv.drop (h : Inv s) {θ : Θ} (hs : DomainToIP.drop s θ = some s') :
    Inv s' ∧ s'.request θ = .none ∧ ∀ a, s'.job a = s.job a := by
  unfold DomainToIP.drop at hs
  cases hθ : s.request θ with
  | none | posting _ | cancelling _ => simp [hθ] at hs
  | holds c =>
    simp only [hθ, Option.some.injEq] at hs
    have hg : s.grip c = .held := (h.held c).mpr ⟨θ, by rw [hθ]; rfl⟩
    have hj : s.job c ≠ .posting :=
      h.not_posting (θ := θ) (by rw [hθ]; rfl) (by rw [hθ]; exact nofun)
    have hrefs : (s.grip c).refs = 1 := by rw [hg]; rfl
    rw [State.unrefGrip, h.unref_eq (.inr hrefs)] at hs
    subst hs
    refine ⟨?_, Function.update_self .., fun a => ?_⟩
    · refine h.client rfl rfl ((h.ok c).unrefGrip hrefs) (fun _ => rfl) rfl rfl
        (h.jobs_same fun p hp => ?_) (h.grips_untracked ?_ ?_ ?_ fun p hp => ?_)
        (.inl (by rw [hθ]; rfl)) (.inr rfl) ?_ ?_ ?_ h.settled h.not_failed
      · cases p <;> rfl
      · rw [hg]
        exact nofun
      · rw [hg]
        exact id
      · exact id
      · cases p <;> rfl
      · exact ⟨fun he => absurd he hj, nofun⟩
      · exact ⟨nofun, nofun⟩
      · exact ⟨nofun, nofun⟩
    · show (Function.update s.context c _ a).job = (s.context a).job
      by_cases ha : a = c
      · subst ha
        rw [Function.update_self]
      · rw [Function.update_of_ne ha]

/-- An empty handle gets a new request. -/
theorem Inv.create (h : Inv s) {θ : Θ} {deadline : ℕ} (hj : s.job c = .none)
    (hθ : s.request θ = .none) : Inv (create s θ c deadline) := by
  have hg : s.grip c = .none := (h.ok c).none_iff.mp hj
  refine h.client rfl rfl (.new deadline) (fun hne => absurd hj hne) rfl rfl ?_
    (h.grips_untracked ?_ ?_ ?_ fun p hp => ?_) (.inr ⟨by rw [hθ]; rfl, fun θ' hθ' => ?_⟩)
    (.inl rfl) ⟨fun _ => rfl, fun _ => rfl⟩ ⟨fun _ => rfl, fun _ => rfl⟩ ⟨nofun, nofun⟩ h.settled
    h.not_failed
  · refine h.jobs.move (by rw [hj]; exact nofun) (fun ht => ?_) (fun ht => ht.elim)
      fun p hp _ _ => ?_
    · rw [hj] at ht
      exact ht.elim
    · cases p <;> exact .rfl
  · rw [hg]
    exact nofun
  · rw [hg]
    exact id
  · exact id
  · cases p <;> rfl
  · -- the handle which refers to a request holds one of its references
    cases hr : s.request θ' with
    | none =>
      rw [hr] at hθ'
      cases hθ'
    | holds d | posting d =>
      rw [hr] at hθ'
      obtain rfl : d = c := Option.some.inj hθ'
      have := (h.held d).mpr ⟨θ', by rw [hr]; rfl⟩
      rw [hg] at this
      cases this
    | cancelling d =>
      rw [hr] at hθ'
      obtain rfl : d = c := Option.some.inj hθ'
      have := (h.cancelling d).mpr ⟨θ', hr⟩
      rw [hg] at this
      cases this

theorem Inv.post (h : Inv s) {θ : Θ} {deadline : ℕ}
    (hs : DomainToIP.post s θ c deadline = some s') : Inv s' := by
  unfold DomainToIP.post at hs
  split at hs
  · rename_i hj
    cases hθ : s.request θ with
    | none =>
      simp only [hθ, Option.some.injEq] at hs
      exact hs ▸ h.create hj hθ
    | holds d =>
      simp only [hθ, Option.map_eq_some_iff] at hs
      obtain ⟨t, ht, rfl⟩ := hs
      obtain ⟨hi, hnone, hjob⟩ := h.drop ht
      exact hi.create ((hjob c).trans hj) hnone
    | posting _ | cancelling _ => simp [hθ] at hs
  · cases hs

omit [DecidableEq ρ] [DecidableEq Θ] in
theorem State.signal_of_ne (hw : s.worker ≠ .waiting) : s.signal = s := by
  unfold State.signal
  split
  · exact absurd ‹_› hw
  · rfl

omit [DecidableEq ρ] [DecidableEq Θ] in
/-- The signal wakes up the worker, which finds the queue of the clients not empty. -/
theorem Inv.signal (h : Inv s) {p : Prop} [Decidable p] (hp : ¬ p → s.worker ≠ .waiting)
    (con : ρ → Context ε) (r : Θ → Request ρ) (l k : List ρ) {t t' : State ρ Θ ε}
    (ht : t = ⟨con, s.main, s.mainHeap, l, k, s.worker, r, s.failed⟩)
    (ht' : t' = if p then t.signal else t) :
    (t'.context = con ∧ t'.request = r ∧ t'.mainHeap = s.mainHeap ∧ t'.main = s.main) ∧
      (t'.worker.accepting = s.worker.accepting ∧ t'.front = l ∧
        t'.worker.resolving = s.worker.resolving ∧ t'.worker.answered = s.worker.answered) ∧
      (t'.worker.cancelling = s.worker.cancelling ∧ t'.frontCancel = k ∧
        t'.worker.dropped = s.worker.dropped) ∧ t'.Settled ∧ t'.failed = false := by
  by_cases hw : s.worker = .waiting
  · have ht'' : t.worker = .waiting := by
      rw [ht]
      exact hw
    obtain rfl : t' = t.goto .woken := by
      rw [ht', if_pos (by_contra fun hne => hp hne hw), State.signal, ht'']
    subst ht
    rw [hw]
    exact ⟨⟨rfl, rfl, rfl, rfl⟩, ⟨rfl, rfl, rfl, rfl⟩, ⟨rfl, rfl, rfl⟩, trivial, h.not_failed⟩
  · obtain rfl : t' = t := by
      rw [ht', State.signal_of_ne (by rw [ht]; exact hw), ite_self]
    subst ht
    refine ⟨⟨rfl, rfl, rfl, rfl⟩, ⟨rfl, rfl, rfl, rfl⟩, ⟨rfl, rfl, rfl⟩, ?_, h.not_failed⟩
    have hset := h.settled
    cases hw' : s.worker with
    | waiting => exact absurd hw' hw
    | expire ts =>
      rw [State.Settled, hw'] at hset
      exact hset
    | _ => trivial

omit [DecidableEq ρ] [DecidableEq Θ] in
/-- The worker does not sleep while a queue of the clients is not empty. -/
theorem Inv.awake (h : Inv s) (hne : s.main ≠ [] ∨ s.front ≠ [] ∨ s.frontCancel ≠ []) :
    s.worker ≠ .waiting := fun hw => by
  have hset := h.settled
  simp only [State.Settled, hw] at hset
  obtain ⟨h₁, h₂, h₃⟩ := hset
  exact hne.elim (absurd h₁) fun hne => hne.elim (absurd h₂) (absurd h₃)

theorem Inv.postLocked (h : Inv s) {θ : Θ} (hs : DomainToIP.postLocked s θ = some s') :
    Inv s' := by
  unfold DomainToIP.postLocked at hs
  cases hθ : s.request θ with
  | none | holds _ | cancelling _ => simp [hθ] at hs
  | posting c =>
    have hj : s.job c = .posting := (h.posting c).mpr ⟨θ, hθ⟩
    have hg : s.grip c = .held := (h.held c).mpr ⟨θ, by rw [hθ]; rfl⟩
    have hrefs : (s.job c).refs = 1 := by rw [hj]; rfl
    simp only [hθ, h.touch_eq (.inl hrefs), Option.some.injEq] at hs
    obtain ⟨⟨hcon, hreq, hheap, hmain⟩, ⟨hacc, hfront, hres, hans⟩, ⟨hcanc, hk, hdrop⟩, hset, hf⟩ :=
      h.signal (fun hne => h.awake (.inr (.inl hne))) _ _ (s.front ++ [c]) s.frontCancel rfl hs.symm
    have hx := (h.ok c).setJob (j := .queued) hrefs rfl
      (by rw [show (s.context c).job = _ from hj]; rfl)
    refine h.client hcon hreq hx (fun _ => rfl) hheap hmain ?_ ?_ (.inl (by rw [hθ]; rfl))
      (.inl rfl) ⟨nofun, nofun⟩ ⟨fun _ => rfl, fun _ => hg⟩ ⟨fun he => ?_, nofun⟩ hset hf
    · refine h.jobs.move (by rw [hj]; exact nofun) (fun ht => ?_) (fun _ => ?_)
        fun p hp _ hpq => ?_
      · rw [hj] at ht
        exact ht.elim
      · simp only [State.jobs, State.queue, hmain, hacc, hfront]
        rw [← List.append_assoc]
        exact List.perm_append_singleton c _
      · cases p <;> first | exact hp.elim | exact absurd rfl hpq | skip
        · exact .of_eq hres
        · exact .of_eq hans
    · exact h.grips_same rfl hcanc hk hdrop
    · rw [show (s.context c).grip = _ from hg] at he
      cases he

theorem Inv.cancel (h : Inv s) {θ : Θ} (hs : DomainToIP.cancel s θ = some s') : Inv s' := by
  unfold DomainToIP.cancel at hs
  cases hθ : s.request θ with
  | none | posting _ | cancelling _ => simp [hθ] at hs
  | holds c =>
    have hg : s.grip c = .held := (h.held c).mpr ⟨θ, by rw [hθ]; rfl⟩
    have hrefs : (s.grip c).refs = 1 := by rw [hg]; rfl
    have hj : s.job c ≠ .posting :=
      h.not_posting (θ := θ) (by rw [hθ]; rfl) (by rw [hθ]; exact nofun)
    simp only [hθ, h.touch_eq (.inr hrefs), Option.some.injEq] at hs
    subst hs
    refine h.client rfl rfl ((h.ok c).setGrip hrefs rfl nofun) (fun _ => rfl) rfl rfl
      (h.jobs_same fun p hp => ?_) (h.grips_untracked ?_ ?_ ?_ fun p hp => ?_)
      (.inl (by rw [hθ]; rfl)) (.inl rfl) ⟨fun he => absurd he hj, nofun⟩ ⟨nofun, nofun⟩
      ⟨fun _ => rfl, fun _ => rfl⟩ h.settled ?_
    · cases p <;> rfl
    · rw [hg]
      exact nofun
    · rw [hg]
      exact id
    · exact id
    · cases p <;> rfl
    · show (s.failed || !(!(s.context c).isCancelled)) = false
      rw [h.not_failed, (h.ok c).isCancelled_eq hg]
      rfl

theorem Inv.cancelLocked (h : Inv s) {θ : Θ} (hs : DomainToIP.cancelLocked s θ = some s') :
    Inv s' := by
  unfold DomainToIP.cancelLocked at hs
  cases hθ : s.request θ with
  | none | holds _ | posting _ => simp [hθ] at hs
  | cancelling c =>
    have hg : s.grip c = .cancelling := (h.cancelling c).mpr ⟨θ, hθ⟩
    have hrefs : (s.grip c).refs = 1 := by rw [hg]; rfl
    have hj : s.job c ≠ .posting :=
      h.not_posting (θ := θ) (by rw [hθ]; rfl) (by rw [hθ]; exact nofun)
    simp only [hθ, h.touch_eq (.inr hrefs), Option.some.injEq] at hs
    obtain ⟨⟨hcon, hreq, hheap, hmain⟩, ⟨hacc, hfront, hres, hans⟩, ⟨hcanc, hk, hdrop⟩, hset, hf⟩ :=
      h.signal (fun hne => h.awake (.inr (.inr hne))) _ _ s.front (s.frontCancel ++ [c]) rfl hs.symm
    have hx := (h.ok c).setGrip (g := .queued) (b := (s.context c).isCancelled) hrefs rfl nofun
    refine h.client hcon hreq hx (fun _ => rfl) hheap hmain ?_ ?_ (.inl (by rw [hθ]; rfl))
      (.inr rfl) ⟨fun he => absurd he hj, nofun⟩ ⟨nofun, nofun⟩ ⟨nofun, nofun⟩ hset hf
    · show Placed Job.Tracked (Function.update s.job c (s.job c)) _
      rw [Function.update_eq_self]
      refine h.jobs.congr fun p hp => ?_
      cases p <;> first | exact hp.elim | skip
      · simp only [State.jobs, State.queue, hmain, hacc, hfront]
        exact .rfl
      · exact .of_eq hres
      · exact .of_eq hans
    · refine h.grips.move (by rw [hg]; exact nofun) (fun ht => ?_) (fun _ => ?_)
        fun p hp _ hpq => ?_
      · rw [hg] at ht
        exact ht.elim
      · simp only [State.grips, hcanc, hk]
        rw [← List.append_assoc]
        exact List.perm_append_singleton c _
      · cases p <;> first | exact hp.elim | exact absurd rfl hpq | exact .of_eq hdrop

theorem Inv.step {a : Action ρ Θ ε} (h : Inv s) (hs : DomainToIP.step s a = some s') : Inv s' := by
  cases a with
  | post θ c deadline => exact h.post hs
  | postLocked θ => exact h.postLocked hs
  | cancel θ => exact h.cancel hs
  | cancelLocked θ => exact h.cancelLocked hs
  | drop θ => exact (h.drop hs).1
  | work now res => exact h.work hs
  | wake =>
    simp only [DomainToIP.step] at hs
    split at hs <;> cases hs
    rename_i hw
    exact h.goto hw rfl rfl rfl rfl rfl trivial

theorem inv (h : (machine ρ Θ ε).Reachable s) : Inv s := by
  refine Machine.invariant (fun s hs => ?_) (fun _ _ _ hi hs => hi.step hs) h
  subst hs
  refine ⟨fun _ => ⟨rfl, rfl, rfl, rfl, ⟨fun _ => rfl, fun _ => rfl⟩, nofun⟩, .new _, .nil,
    ⟨fun p _ => ?_, fun p hp c => ?_⟩, ⟨fun p _ => ?_, fun p hp c => ?_⟩,
    fun c => ⟨nofun, nofun⟩, fun c => ⟨nofun, nofun⟩, fun c => ⟨nofun, nofun⟩,
    fun _ _ _ he => (nomatch he), trivial, rfl⟩
  all_goals cases p <;> first | exact List.nodup_nil | exact hp.elim | exact ⟨nofun, nofun⟩

end DomainToIP

end Serverbox
