import Serverbox.Net.DomainToIPInvariant

/-!
# Every request is answered once

The requests wait in a line: the one which is being resolved, the main list, the requests which the
worker is accepting and those which the clients have queued. No step moves a request backwards, and
the worker comes to resolve the first one of the line again and again. So a request is answered in
every run in which the worker makes steps again and again unless it sleeps, and it does not sleep
while there is a request in the line.

## Main definitions

* `DomainToIP.State.line`: the line of the requests.
* `DomainToIP.State.turn`: how far away the answer to a request is.

## Main results

* `DomainToIP.answered_once`: the guarantees of the resolver.
-/

namespace Serverbox

namespace DomainToIP

variable {ρ Θ ε : Type*} [DecidableEq ρ] {s s' : State ρ Θ ε} {c : ρ}

/-- The requests which are to be answered, in the order of their turns. -/
def State.line (s : State ρ Θ ε) : List ρ := s.worker.resolving ++ s.queue

/-- What the worker has to do before its next turn in a batch. A request in the queue of the clients
is taken from there first. -/
def Worker.phase (inFront : Bool) : Worker ρ → ℕ
  | accept _ _ | cancelled _ _ | dropping _ _ => if inFront then 5 else 4
  | main => if inFront then 4 else 3
  | expire _ | timedOut _ _ => if inFront then 3 else 2
  | process _ _ => if inFront then 2 else 1
  | batch n | processed _ n => if inFront then 2 else if n = 0 then 6 else 1
  | front | woken => if inFront then 1 else 5
  | waiting => 0

/-- The number of the steps of the worker in its phase, for the length of the main list. -/
def Worker.size (n : ℕ) : Worker ρ → ℕ
  | accept f k => f.length + 3 * k.length
  | cancelled _ k => 3 * k.length + 2
  | dropping _ k => 3 * k.length + 1
  | main | front | woken | waiting => 0
  | expire _ => 2 * n
  | timedOut _ _ => 2 * n + 1
  | batch m => 3 * m
  | process _ m => 3 * m + 2
  | processed _ m => 3 * m + 1

/-- How far away the answer to a request is. -/
def State.turn (s : State ρ Θ ε) (c : ρ) : ℕ × ℕ × ℕ :=
  (s.line.idxOf c + (decide (c ∈ s.front)).toNat, s.worker.phase (decide (c ∈ s.front)),
    s.worker.size s.main.length)

/-- The order of the turns. -/
def Sooner : ℕ × ℕ × ℕ → ℕ × ℕ × ℕ → Prop :=
  Prod.Lex (· < ·) (Prod.Lex (· < ·) (· < ·))

theorem sooner_wf : WellFounded Sooner :=
  (Prod.lex Nat.lt_wfRel (Prod.lex Nat.lt_wfRel Nat.lt_wfRel)).wf

theorem sooner_iff {x y : ℕ × ℕ × ℕ} : Sooner x y ↔
    x.1 < y.1 ∨ x.1 = y.1 ∧ (x.2.1 < y.2.1 ∨ x.2.1 = y.2.1 ∧ x.2.2 < y.2.2) := by
  rw [Sooner, Prod.lex_def, Prod.lex_def]

/-- Another request leaves the line. -/
theorem idxOf_erase_le {l : List ρ} {d : ρ} (hne : c ≠ d) : (l.erase d).idxOf c ≤ l.idxOf c := by
  induction l with
  | nil => exact Nat.le_refl _
  | cons x l ih =>
    by_cases hxd : x = d
    · subst hxd
      rw [List.erase_cons_head, List.idxOf_cons_ne _ (Ne.symm hne)]
      exact Nat.le_succ _
    · rw [List.erase_cons_tail (by simpa using hxd)]
      by_cases hxc : x = c
      · subst hxc
        simp only [List.idxOf_cons_self, Nat.le_refl]
      · rw [List.idxOf_cons_ne _ hxc, List.idxOf_cons_ne _ hxc]
        exact Nat.succ_le_succ ih

omit [DecidableEq ρ] in
theorem Inv.mem_line (h : Inv s) :
    c ∈ s.line ↔ s.job c = .resolving ∨ s.job c = .queued := by
  rw [State.line, List.mem_append, h.mem_resolving, h.mem_queue]

/-- A step of the worker which neither answers a request nor takes the queue of the clients. -/
theorem sooner_of_line (hline : s'.line = s.line) (hfront : s'.front = s.front)
    (hlt : ∀ b : Bool, b = decide (c ∈ s.front) →
      s'.worker.phase b < s.worker.phase b ∨ s'.worker.phase b = s.worker.phase b ∧
        s'.worker.size s'.main.length < s.worker.size s.main.length) :
    Sooner (s'.turn c) (s.turn c) := by
  have := hlt _ rfl
  rw [sooner_iff]
  simp only [State.turn, hline, hfront]
  exact .inr ⟨trivial, this⟩

/-- A step of the worker which answers another request. -/
theorem sooner_of_erase {d : ρ} (hne : c ≠ d) (hline : s'.line = s.line.erase d)
    (hfront : s'.front = s.front)
    (hlt : ∀ b : Bool, s'.worker.phase b = s.worker.phase b ∧
        s'.worker.size s'.main.length < s.worker.size s.main.length) :
    Sooner (s'.turn c) (s.turn c) := by
  have hidx := idxOf_erase_le (l := s.line) hne
  rw [sooner_iff]
  simp only [State.turn, hline, hfront]
  have := hlt (decide (c ∈ s.front))
  omega

omit [DecidableEq ρ] in
/-- The queue of the clients is the end of the line. -/
theorem take_line (hacc : s.worker.accepting = []) (hres : s.worker.resolving = []) :
    s.take.line = s.line := by
  simp only [State.line, State.queue, hacc, hres, List.append_nil]
  exact List.append_nil _

/-- The worker takes the queue of the clients. -/
theorem sooner_take (hacc : s.worker.accepting = []) (hres : s.worker.resolving = [])
    (hphase : 5 ≤ s.worker.phase false) : Sooner (s.take.turn c) (s.turn c) := by
  rw [sooner_iff]
  simp only [State.turn, take_line hacc hres]
  have hfront : decide (c ∈ s.take.front) = false := decide_eq_false List.not_mem_nil
  rw [hfront]
  have htake : s.take.worker.phase false = 4 := rfl
  rw [htake]
  cases hb : decide (c ∈ s.front) with
  | true => exact .inl (by simp)
  | false => exact .inr ⟨rfl, .inl (by omega)⟩

/-- The request which is answered leaves the main list, and with it the line. -/
theorem line_erase {d : ρ} (hd : d ∈ s.main) (hacc : s.worker.accepting = [])
    (hres : s.worker.resolving = []) {w : Worker ρ} (hacc' : w.accepting = [])
    (hres' : w.resolving = []) {hp : BinaryHeap ρ} {b : Bool} {r : Θ → Request ρ}
    {con : ρ → Context ε} :
    State.line ⟨con, s.main.erase d, hp, s.front, s.frontCancel, w, r, b⟩ = s.line.erase d := by
  simp only [State.line, State.queue, hacc, hres, hacc', hres', List.append_nil, List.nil_append]
  exact (List.erase_append_left _ hd).symm

/-- Every step of the worker answers the request or brings its turn nearer. -/
theorem Inv.turn_work (h : Inv s) {now : ℕ} {res : ε} (hs : DomainToIP.work s now res = some s')
    (hc : c ∈ s.line) : s'.job c = .answered ∨ c ∈ s'.line ∧ Sooner (s'.turn c) (s.turn c) := by
  -- a step which leaves the line
  have hstay : s'.line = s.line → s'.front = s.front →
      (∀ b : Bool, b = decide (c ∈ s.front) → s'.worker.phase b < s.worker.phase b ∨
        s'.worker.phase b = s.worker.phase b ∧
          s'.worker.size s'.main.length < s.worker.size s.main.length) →
      s'.job c = .answered ∨ c ∈ s'.line ∧ Sooner (s'.turn c) (s.turn c) :=
    fun hline hfront hlt => .inr ⟨hline ▸ hc, sooner_of_line hline hfront hlt⟩
  -- a step which answers a request of the main list
  have hleave : ∀ d, s'.line = s.line.erase d → s'.job d = .answered → s'.front = s.front →
      (∀ b : Bool, s'.worker.phase b = s.worker.phase b ∧
        s'.worker.size s'.main.length < s.worker.size s.main.length) →
      s'.job c = .answered ∨ c ∈ s'.line ∧ Sooner (s'.turn c) (s.turn c) :=
    fun d hline hjob hfront hlt => by
      by_cases hcd : c = d
      · exact .inl (hcd ▸ hjob)
      · exact .inr ⟨hline ▸ (List.mem_erase_of_ne hcd).mpr hc,
          sooner_of_erase hcd hline hfront hlt⟩
  have hqueued : s.main = [] → s.worker.accepting = [] → s.worker.resolving = [] →
      ∀ b : Bool, b = decide (c ∈ s.front) → b = true := fun hmain hacc hres b hb => by
    rw [State.line, State.queue, hmain, hacc, hres] at hc
    rw [hb]
    exact decide_eq_true hc
  have htaken : s' = s.take → s.worker.accepting = [] → s.worker.resolving = [] →
      5 ≤ s.worker.phase false →
      s'.job c = .answered ∨ c ∈ s'.line ∧ Sooner (s'.turn c) (s.turn c) :=
    fun he hacc hres hphase => by
      exact he ▸ .inr ⟨take_line hacc hres ▸ hc, sooner_take hacc hres hphase⟩
  unfold DomainToIP.work at hs
  cases hw : s.worker with
  | main =>
    simp only [hw, Option.some.injEq] at hs
    subst hs
    refine hstay ?_ rfl fun b hb => ?_
    · simp only [State.line, State.queue, hw]
      split <;> rfl
    · rw [hw]
      split
      · rename_i hmain
        obtain rfl := hqueued hmain (by rw [hw]; rfl) (by rw [hw]; rfl) b hb
        exact .inl (by simp [Worker.phase, State.goto])
      · cases b
        · exact .inl (by simp [Worker.phase, State.goto])
        · exact .inl (by simp [Worker.phase, State.goto])
  | expire ts =>
    obtain ⟨d, htop, hd⟩ := h.exists_top hw
    simp only [hw, htop] at hs
    split at hs <;> cases hs
    · refine hleave d (line_erase hd (by rw [hw]; rfl) (by rw [hw]; rfl) rfl rfl) ?_ rfl
        fun b => ?_
      · simp [State.job, State.goto, State.answer, State.modify]
      · rw [hw]
        have hlen : (s.main.erase d).length = s.main.length - 1 := List.length_erase_of_mem hd
        have hpos := List.length_pos_of_mem hd
        refine ⟨by cases b <;> rfl, ?_⟩
        show 2 * (s.main.erase d).length + 1 < 2 * s.main.length
        omega
    · refine hstay ?_ rfl fun b hb => ?_
      · simp only [State.line, State.queue, hw]
        rfl
      · rw [hw]
        cases b <;> exact .inl (by simp [Worker.phase, State.goto])
  | timedOut d ts =>
    simp only [hw, Option.some.injEq] at hs
    subst hs
    refine hstay ?_ rfl fun b hb => ?_
    · simp only [State.line, State.queue, hw]
      split <;> rfl
    · rw [hw]
      split
      · rename_i hmain
        obtain rfl := hqueued hmain (by rw [hw]; rfl) (by rw [hw]; rfl) b hb
        exact .inl (by simp [Worker.phase, State.goto])
      · refine .inr ⟨by cases b <;> rfl, ?_⟩
        show 2 * s.main.length < 2 * s.main.length + 1
        omega
  | batch n =>
    simp only [hw] at hs
    cases hmain : s.main with
    | nil =>
      simp only [hmain, Option.some.injEq] at hs
      subst hs
      refine hstay ?_ rfl fun b hb => ?_
      · simp only [State.line, State.queue, hw]
        rfl
      · obtain rfl := hqueued hmain (by rw [hw]; rfl) (by rw [hw]; rfl) b hb
        rw [hw]
        exact .inl (by simp [Worker.phase, State.goto])
    | cons d l =>
      cases n with
      | zero =>
        simp only [hmain, Option.some.injEq] at hs
        subst hs
        refine hstay ?_ rfl fun b hb => ?_
        · simp only [State.line, State.queue, hw]
          rfl
        · rw [hw]
          cases b <;> exact .inl (by simp [Worker.phase, State.goto])
      | succ n =>
        simp only [hmain, Option.some.injEq] at hs
        subst hs
        refine hstay ?_ rfl fun b hb => ?_
        · simp only [State.line, State.queue, hw, hmain]
          rfl
        · rw [hw]
          refine .inr ⟨by cases b <;> rfl, ?_⟩
          show 3 * n + 2 < 3 * (n + 1)
          omega
  | process d n =>
    simp only [hw, Option.some.injEq] at hs
    subst hs
    by_cases hcd : c = d
    · refine .inl ?_
      subst hcd
      simp [State.job, State.goto, State.answer, State.modify]
    · have hline : s.line = d :: ((s.answer d (.done res)).goto (.processed d n)).line := by
        simp only [State.line, State.queue, hw]
        rfl
      have hmem : c ∈ ((s.answer d (.done res)).goto (.processed d n)).line := by
        rw [hline] at hc
        exact (List.mem_cons.mp hc).resolve_left hcd
      refine .inr ⟨hmem, ?_⟩
      rw [sooner_iff]
      refine .inl ?_
      simp only [State.turn, hline, List.idxOf_cons_ne _ (Ne.symm hcd)]
      show _ + (decide (c ∈ s.front)).toNat < _ + (decide (c ∈ s.front)).toNat
      omega
  | processed d n =>
    simp only [hw, Option.some.injEq] at hs
    subst hs
    refine hstay ?_ rfl fun b hb => ?_
    · simp only [State.line, State.queue, hw]
      rfl
    · rw [hw]
      refine .inr ⟨by cases b <;> rfl, ?_⟩
      show 3 * n < 3 * n + 1
      omega
  | front =>
    simp only [hw, h.touchTop_eq] at hs
    split at hs <;> cases hs
    · rename_i hcond
      have hb := hqueued hcond.1 (by rw [hw]; rfl) (by rw [hw]; rfl) _ rfl
      rw [hcond.2.1] at hb
      exact absurd (of_decide_eq_true hb) List.not_mem_nil
    · exact htaken rfl (by rw [hw]; rfl) (by rw [hw]; rfl) (by simp [hw, Worker.phase])
  | waiting => simp [hw] at hs
  | woken =>
    simp only [hw, Option.some.injEq] at hs
    exact htaken hs.symm (by rw [hw]; rfl) (by rw [hw]; rfl) (by simp [hw, Worker.phase])
  | accept f k =>
    cases f with
    | cons d f =>
      simp only [hw, Option.some.injEq] at hs
      subst hs
      refine hstay ?_ rfl fun b hb => ?_
      · simp only [State.line, State.queue, hw]
        show [] ++ (s.main ++ [d] ++ f ++ s.front) = [] ++ (s.main ++ d :: f ++ s.front)
        simp
      · rw [hw]
        refine .inr ⟨by cases b <;> rfl, ?_⟩
        show f.length + 3 * k.length < (d :: f).length + 3 * k.length
        rw [List.length_cons]
        omega
    | nil =>
      cases k with
      | cons d k =>
        simp only [hw] at hs
        split at hs <;> cases hs
        · rename_i hidx
          have hd : d ∈ s.main := h.index_nonneg.mp hidx
          refine hleave d (line_erase hd (by rw [hw]; rfl) (by rw [hw]; rfl) rfl rfl) ?_ rfl
            fun b => ?_
          · simp [State.job, State.goto, State.answer, State.modify]
          · rw [hw]
            refine ⟨by cases b <;> rfl, ?_⟩
            show 3 * k.length + 2 < 0 + 3 * (d :: k).length
            rw [List.length_cons]
            omega
        · refine hstay ?_ rfl fun b hb => ?_
          · simp only [State.line, State.queue, hw]
            rfl
          · rw [hw]
            refine .inr ⟨by cases b <;> rfl, ?_⟩
            show 3 * k.length + 1 < 0 + 3 * (d :: k).length
            rw [List.length_cons]
            omega
      | nil =>
        simp only [hw, Option.some.injEq] at hs
        subst hs
        refine hstay ?_ rfl fun b hb => ?_
        · simp only [State.line, State.queue, hw]
          rfl
        · rw [hw]
          cases b <;> exact .inl (by simp [Worker.phase, State.goto])
  | cancelled d k =>
    simp only [hw, Option.some.injEq] at hs
    subst hs
    refine hstay ?_ rfl fun b hb => ?_
    · simp only [State.line, State.queue, hw]
      rfl
    · rw [hw]
      refine .inr ⟨by cases b <;> rfl, ?_⟩
      show 3 * k.length + 1 < 3 * k.length + 2
      omega
  | dropping d k =>
    simp only [hw, Option.some.injEq] at hs
    subst hs
    refine hstay ?_ rfl fun b hb => ?_
    · simp only [State.line, State.queue, hw]
      rfl
    · rw [hw]
      refine .inr ⟨by cases b <;> rfl, ?_⟩
      show [].length + 3 * k.length < 3 * k.length + 1
      rw [List.length_nil]
      omega

omit [DecidableEq ρ] in
/-- There is something to do while a request waits for its turn. -/
theorem Inv.awake_of_line (h : Inv s) (hc : c ∈ s.line) : s.worker ≠ .waiting := fun hw => by
  have hset := h.settled
  simp only [State.Settled, hw] at hset
  rw [State.line, State.queue, hw, hset.1, hset.2.1] at hc
  exact absurd hc List.not_mem_nil

/-- What the clients do leaves the turns of the requests. -/
theorem turn_congr (hw : s'.worker = s.worker) (hm : s'.main = s.main) (hf : s'.front = s.front)
    (hc : c ∈ s.line) : c ∈ s'.line ∧ s'.turn c = s.turn c := by
  have hline : s'.line = s.line := by
    rw [State.line, State.line, State.queue, State.queue, hw, hm, hf]
  refine ⟨hline ▸ hc, ?_⟩
  rw [State.turn, State.turn, hline, hw, hm, hf]

variable [DecidableEq Θ]

theorem drop_frame {θ : Θ} (hs : drop s θ = some s') :
    s'.worker = s.worker ∧ s'.main = s.main ∧ s'.front = s.front := by
  unfold drop at hs
  split at hs <;> cases hs
  exact ⟨rfl, rfl, rfl⟩

/-- A step which is not one of the worker leaves the turns of the requests. -/
theorem Inv.turn_other (h : Inv s) {a : Action ρ Θ ε} (hs : DomainToIP.step s a = some s')
    (ha : ∀ now res, a ≠ .work now res) (hc : c ∈ s.line) :
    c ∈ s'.line ∧ s'.turn c = s.turn c := by
  have hawake := h.awake_of_line hc
  cases a with
  | post θ d deadline =>
    have hs' : DomainToIP.post s θ d deadline = some s' := hs
    unfold DomainToIP.post at hs'
    split at hs'
    · cases hθ : s.request θ with
      | none =>
        simp only [hθ, Option.some.injEq] at hs'
        subst hs'
        exact turn_congr rfl rfl rfl hc
      | holds e =>
        simp only [hθ, Option.map_eq_some_iff] at hs'
        obtain ⟨t, ht, rfl⟩ := hs'
        obtain ⟨hw, hm, hf⟩ := drop_frame ht
        exact turn_congr hw hm hf hc
      | posting _ | cancelling _ => simp [hθ] at hs'
    · cases hs'
  | postLocked θ =>
    have hs' : DomainToIP.postLocked s θ = some s' := hs
    unfold DomainToIP.postLocked at hs'
    cases hθ : s.request θ with
    | none | holds _ | cancelling _ => simp [hθ] at hs'
    | posting d =>
      have hj : s.job d = .posting := (h.posting d).mpr ⟨θ, hθ⟩
      have hcd : c ≠ d := fun he => by
        rcases h.mem_line.mp hc with hj' | hj' <;> rw [he, hj] at hj' <;> cases hj'
      simp only [hθ, Option.some.injEq] at hs'
      have hframe : s'.worker = s.worker ∧ s'.main = s.main ∧ s'.front = s.front ++ [d] := by
        rw [State.signal_of_ne (by exact hawake), ite_self] at hs'
        subst hs'
        exact ⟨rfl, rfl, rfl⟩
      obtain ⟨hw, hm, hf⟩ := hframe
      have hline : s'.line = s.line ++ [d] := by
        rw [State.line, State.line, State.queue, State.queue, hw, hm, hf]
        simp
      refine ⟨hline ▸ List.mem_append_left _ hc, ?_⟩
      have hfront : decide (c ∈ s'.front) = decide (c ∈ s.front) := by
        rw [hf]
        simp [hcd]
      rw [State.turn, State.turn, hfront, hline, hw, hm, List.idxOf_append_of_mem hc]
  | cancel θ =>
    have hs' : DomainToIP.cancel s θ = some s' := hs
    unfold DomainToIP.cancel at hs'
    split at hs' <;> cases hs'
    exact turn_congr rfl rfl rfl hc
  | cancelLocked θ =>
    have hs' : DomainToIP.cancelLocked s θ = some s' := hs
    unfold DomainToIP.cancelLocked at hs'
    split at hs'
    · simp only [Option.some.injEq] at hs'
      rw [State.signal_of_ne (by exact hawake), ite_self] at hs'
      subst hs'
      exact turn_congr rfl rfl rfl hc
    · cases hs'
  | drop θ =>
    obtain ⟨hw, hm, hf⟩ := drop_frame hs
    exact turn_congr hw hm hf hc
  | work now res => exact absurd rfl (ha now res)
  | wake =>
    simp only [DomainToIP.step] at hs
    cases hs

/-- A run without an end, in which the system may also stand still. -/
def Run (f : ℕ → State ρ Θ ε) : Prop :=
  ∀ i, f (i + 1) = f i ∨ ∃ a, (machine ρ Θ ε).step (f i) a = some (f (i + 1))

omit [DecidableEq Θ] in
/-- The worker can make a step unless it sleeps, whatever the time and the results are. -/
theorem work_isSome_iff {now : ℕ} {res : ε} :
    (work s now res).isSome = true ↔ s.worker ≠ .waiting := by
  unfold work
  cases s.worker with
  | accept front cancel =>
    cases front with
    | cons c front => simp
    | nil =>
      cases cancel with
      | nil => simp
      | cons c cancel =>
        dsimp only
        split <;> simp
  | waiting => simp
  | expire ts =>
    dsimp only
    split
    · simp
    · split <;> simp
  | batch n =>
    dsimp only
    split <;> simp
  | front =>
    dsimp only
    split <;> simp
  | _ => simp

omit [DecidableEq Θ] in
/-- The worker makes a step at last as long as it can make one. -/
def Fair (f : ℕ → State ρ Θ ε) : Prop :=
  ∀ i, (∀ j ≥ i, ∀ now res, (work (f j) now res).isSome = true) →
    ∃ j ≥ i, ∃ now res, work (f j) now res = some (f (j + 1))

theorem Run.reachable {f : ℕ → State ρ Θ ε} (hrun : Run f)
    (h : (machine ρ Θ ε).Reachable (f 0)) (i : ℕ) : (machine ρ Θ ε).Reachable (f i) := by
  induction i with
  | zero => exact h
  | succ i ih =>
    rcases hrun i with he | ⟨a, ha⟩
    · exact he ▸ ih
    · exact ih.step ha

/-- A request in the line is answered. -/
theorem Run.answered {f : ℕ → State ρ Θ ε} (hrun : Run f) (hfair : Fair f)
    (h : (machine ρ Θ ε).Reachable (f 0)) {i : ℕ} (hc : c ∈ (f i).line) :
    ∃ k ≥ i, (f k).job c = .answered := by
  have hinv : ∀ i, Inv (f i) := fun i => inv (hrun.reachable h i)
  refine @Machine.eventually_of_rank _ _ _ sooner_wf f (fun t => c ∈ t.line)
    (fun t => t.job c = .answered) (fun t => t.turn c) (fun i hi => ?_) (fun i hi => ?_) i hc
  · rcases hrun i with he | ⟨a, ha⟩
    · rw [he]
      exact .inr ⟨hi, .inl rfl⟩
    · by_cases hwork : ∃ now res, a = .work now res
      · obtain ⟨now, res, rfl⟩ := hwork
        exact ((hinv i).turn_work ha hi).imp_right fun ⟨hc', hlt⟩ => ⟨hc', .inr hlt⟩
      · obtain ⟨hc', he⟩ := (hinv i).turn_other ha
          (fun now res he => hwork ⟨now, res, he⟩) hi
        exact .inr ⟨hc', .inl he⟩
  · obtain ⟨j, hj, now, res, hwork⟩ := hfair i fun j hj now res =>
      work_isSome_iff.mpr ((hinv j).awake_of_line (hi j hj))
    refine ⟨j, hj, fun he => ?_⟩
    rcases (hinv j).turn_work hwork (hi j hj) with hans | ⟨-, hlt⟩
    · rcases (hinv (j + 1)).mem_line.mp (hi (j + 1) (by omega)) with hj' | hj' <;>
        rw [hans] at hj' <;> cases hj'
    · rw [he, sooner_iff] at hlt
      omega

omit [DecidableEq ρ] [DecidableEq Θ] in
/-- The worker has a reference to the request, or a post is about to hand it over. -/
def State.Serves (s : State ρ Θ ε) (c : ρ) : Prop :=
  (∃ θ, s.request θ = .posting c) ∨ c ∈ s.line ∨ c ∈ s.worker.answered

omit [DecidableEq ρ] [DecidableEq Θ] in
/-- A handle, its owner, or a cancellation has a reference to the request. -/
def State.Refers (s : State ρ Θ ε) (c : ρ) : Prop :=
  (∃ θ, (s.request θ).about = some c) ∨ c ∈ s.worker.cancelling ++ s.frontCancel ∨
    c ∈ s.worker.dropped

/-- The request was made by a post. -/
def State.Created (s : State ρ Θ ε) (c : ρ) : Prop := s.job c ≠ .none

omit [DecidableEq ρ] [DecidableEq Θ] in
/-- A request which is not being posted has been answered, or is in the line. -/
theorem Inv.answered_or_line (h : Inv s) (hc : s.Created c)
    (hpost : ∀ θ, s.request θ ≠ .posting c) :
    (s.context c).answers.length = 1 ∨ c ∈ s.line := by
  have hans := (h.ok c).answers_eq
  have hjob : s.job c = (s.context c).job := rfl
  cases hj : s.job c with
  | none => exact absurd hj hc
  | posting =>
    obtain ⟨θ, hθ⟩ := (h.posting c).mp hj
    exact absurd hθ (hpost θ)
  | queued => exact .inr (h.mem_line.mpr (.inr hj))
  | resolving => exact .inr (h.mem_line.mpr (.inl hj))
  | answered | released =>
    rw [← hjob, hj] at hans
    exact .inl hans

omit [DecidableEq ρ] [DecidableEq Θ] in
/-- What is left while the worker sleeps. -/
theorem Inv.asleep (h : Inv s) (hw : s.worker = .waiting) (hc : s.Created c)
    (hpost : ∀ θ, s.request θ ≠ .posting c) : (s.context c).answers.length = 1 ∧
      ((s.context c).deleted = true ∨ ∃ θ, (s.request θ).about = some c) := by
  have hset := h.settled
  simp only [State.Settled, hw] at hset
  have hnone : ∀ {l : List ρ}, l = [] → c ∉ l := fun he => he ▸ List.not_mem_nil
  have hline : c ∉ s.line := hnone (by rw [State.line, State.queue, hw, hset.1, hset.2.1]; rfl)
  refine ⟨(h.answered_or_line hc hpost).resolve_right hline, ?_⟩
  have hj : s.job c = .released := by
    cases hj : s.job c with
    | none => exact absurd hj hc
    | posting =>
      obtain ⟨θ, hθ⟩ := (h.posting c).mp hj
      exact absurd hθ (hpost θ)
    | queued => exact absurd (h.mem_line.mpr (.inr hj)) hline
    | resolving => exact absurd (h.mem_line.mpr (.inl hj)) hline
    | answered => exact absurd (h.mem_answered.mpr hj) (hnone (by rw [hw]; rfl))
    | released => rfl
  cases hg : s.grip c with
  | none => exact absurd ((h.ok c).none_iff.mpr hg) hc
  | held =>
    obtain ⟨θ, hθ⟩ := (h.held c).mp hg
    refine .inr ⟨θ, ?_⟩
    cases hr : s.request θ <;> rw [hr] at hθ <;> first | exact hθ | cases hθ
  | cancelling =>
    obtain ⟨θ, hθ⟩ := (h.cancelling c).mp hg
    exact .inr ⟨θ, by rw [hθ]; rfl⟩
  | queued =>
    exact absurd (h.mem_cancels.mpr hg) (hnone (by rw [hw, hset.2.2]; rfl))
  | dropping => exact absurd (h.mem_dropped.mpr hg) (hnone (by rw [hw]; rfl))
  | released =>
    refine .inl ?_
    rw [(h.ok c).deleted_eq, show (s.context c).job = _ from hj,
      show (s.context c).grip = _ from hg]
    rfl

omit [DecidableEq ρ] [DecidableEq Θ] in
/-- The places with a reference to a request, which is released when the request leaves them. -/
theorem Inv.holders (h : Inv s) (c : ρ) : ∃ m n, (s.context c).ref = m + n ∧
    (m = 1 ∧ s.Serves c ∨ m = 0 ∧ ¬ s.Serves c) ∧ (n = 1 ∧ s.Refers c ∨ n = 0 ∧ ¬ s.Refers c) := by
  refine ⟨(s.job c).refs, (s.grip c).refs, (h.ok c).ref_eq, ?_, ?_⟩
  · have hserves : s.Serves c ↔ s.job c = .posting ∨ (s.job c = .resolving ∨ s.job c = .queued) ∨
        s.job c = .answered := by
      rw [State.Serves, ← h.posting, h.mem_line, h.mem_answered]
    rw [hserves]
    cases s.job c <;> simp [Job.refs]
  · have habout : (∃ θ, (s.request θ).about = some c) ↔
        s.grip c = .held ∨ s.grip c = .cancelling := by
      rw [h.held, h.cancelling, ← exists_or]
      refine exists_congr fun θ => ?_
      cases s.request θ <;> simp [Request.about, Request.context]
    have hrefers : s.Refers c ↔ (s.grip c = .held ∨ s.grip c = .cancelling) ∨
        s.grip c = .queued ∨ s.grip c = .dropping := by
      rw [State.Refers, habout, h.mem_cancels, h.mem_dropped]
    rw [hrefers]
    cases s.grip c <;> simp [Grip.refs]

omit [DecidableEq ρ] [DecidableEq Θ] in
/-- The accounts of a request which was made. -/
theorem Context.Ok.accounts {x : Context ε} (h : x.Ok) (hj : x.job ≠ .none) :
    x.ref + x.releases = 2 ∧ (x.deleted = true ↔ x.releases = 2) := by
  have hg : x.grip ≠ .none := fun he => hj (h.none_iff.mpr he)
  obtain ⟨hr, hd, -, hrel, -, -⟩ := h
  rw [hr, hd, hrel]
  cases hj' : x.job <;> cases hg' : x.grip <;>
    simp_all [Job.refs, Grip.refs, Job.isReleased, Grip.isReleased]

omit [DecidableEq Θ] in
theorem answers_update {con : ρ → Context ε} {d : ρ} {x : Context ε}
    (hcon : con = Function.update s.context d x)
    (hx : (s.context d).answers <+: x.answers) :
    (s.context c).answers <+: (con c).answers := by
  rw [hcon]
  by_cases hcd : c = d
  · subst hcd
    rwa [Function.update_self]
  · simp only [Function.update_of_ne hcd, List.prefix_rfl]

omit [DecidableEq ρ] [DecidableEq Θ] in
theorem signal_context (t : State ρ Θ ε) : t.signal.context = t.context := by
  unfold State.signal
  split <;> rfl

/-- An answer which was given stays. -/
theorem answers_kept {a : Action ρ Θ ε} (hs : DomainToIP.step s a = some s') (hc : s.Created c) :
    (s.context c).answers <+: (s'.context c).answers := by
  cases a with
  | post θ d deadline =>
    have hs' : DomainToIP.post s θ d deadline = some s' := hs
    unfold DomainToIP.post at hs'
    split at hs'
    · rename_i hj
      have hcd : c ≠ d := fun he => hc (he ▸ hj)
      have hcreate : ∀ t : State ρ Θ ε,
          ((create t θ d deadline).context c).answers = (t.context c).answers := fun t => by
        show (Function.update t.context d _ c).answers = _
        rw [Function.update_of_ne hcd]
      cases hθ : s.request θ with
      | none =>
        simp only [hθ, Option.some.injEq] at hs'
        subst hs'
        simp only [hcreate, List.prefix_rfl]
      | holds e =>
        simp only [hθ, Option.map_eq_some_iff, DomainToIP.drop, Option.some.injEq] at hs'
        obtain ⟨t, rfl, rfl⟩ := hs'
        rw [hcreate]
        exact answers_update rfl List.prefix_rfl
      | posting _ | cancelling _ => simp [hθ] at hs'
    · cases hs'
  | postLocked θ =>
    have hs' : DomainToIP.postLocked s θ = some s' := hs
    unfold DomainToIP.postLocked at hs'
    split at hs'
    · simp only [Option.some.injEq] at hs'
      subst hs'
      split
      · rw [signal_context]
        exact answers_update rfl List.prefix_rfl
      · exact answers_update rfl List.prefix_rfl
    · cases hs'
  | cancel θ =>
    have hs' : DomainToIP.cancel s θ = some s' := hs
    unfold DomainToIP.cancel at hs'
    split at hs' <;> cases hs'
    exact answers_update rfl List.prefix_rfl
  | cancelLocked θ =>
    have hs' : DomainToIP.cancelLocked s θ = some s' := hs
    unfold DomainToIP.cancelLocked at hs'
    split at hs'
    · simp only [Option.some.injEq] at hs'
      subst hs'
      split
      · rw [signal_context]
        exact answers_update rfl List.prefix_rfl
      · exact answers_update rfl List.prefix_rfl
    · cases hs'
  | drop θ =>
    have hs' : DomainToIP.drop s θ = some s' := hs
    unfold DomainToIP.drop at hs'
    split at hs' <;> cases hs'
    exact answers_update rfl List.prefix_rfl
  | wake =>
    simp only [DomainToIP.step] at hs
    split at hs <;> cases hs
    exact List.prefix_rfl
  | work now res =>
    have hs' : DomainToIP.work s now res = some s' := hs
    unfold DomainToIP.work at hs'
    cases hw : s.worker with
    | main | processed _ _ | timedOut _ _ | cancelled _ _ | dropping _ _ =>
      simp only [hw, Option.some.injEq] at hs'
      subst hs'
      first | exact List.prefix_rfl | exact answers_update rfl List.prefix_rfl
    | process d n =>
      simp only [hw, Option.some.injEq] at hs'
      subst hs'
      exact answers_update rfl (List.prefix_append _ _)
    | expire ts =>
      simp only [hw] at hs'
      split at hs'
      · cases hs'
        exact List.prefix_rfl
      · split at hs' <;> cases hs'
        · exact answers_update rfl (List.prefix_append _ _)
        · exact List.prefix_rfl
    | batch n =>
      simp only [hw] at hs'
      split at hs' <;> cases hs'
      · exact answers_update rfl List.prefix_rfl
      · exact List.prefix_rfl
    | front =>
      have htop : s.touchTop.context = s.context := by
        unfold State.touchTop
        split <;> rfl
      simp only [hw] at hs'
      split at hs' <;> cases hs'
      all_goals
        show _ <+: (s.touchTop.context c).answers
        simp only [htop, List.prefix_rfl]
    | waiting => simp [hw] at hs'
    | woken =>
      simp only [hw, Option.some.injEq] at hs'
      subst hs'
      exact List.prefix_rfl
    | accept f k =>
      cases f with
      | cons d f =>
        simp only [hw, Option.some.injEq] at hs'
        subst hs'
        exact List.prefix_rfl
      | nil =>
        cases k with
        | nil =>
          simp only [hw, Option.some.injEq] at hs'
          subst hs'
          exact List.prefix_rfl
        | cons d k =>
          simp only [hw] at hs'
          split at hs' <;> cases hs'
          · simp only [State.answer, State.modify, State.goto, Function.update_idem]
            exact answers_update rfl (by simp [State.touch, State.assert])
          · exact answers_update rfl List.prefix_rfl

/-- **Every request is answered once.** In every reachable state no assertion has failed, so that no
deleted request was accessed and no reference was released twice; every request has at most one
answer; the references which are there and those which were released are the two of the request,
which is deleted with the second one, and either of them is there just as long as the worker or the
handle needs it; the requests of the main list are those of the heap, and none of them is deleted.
While the worker sleeps every request was answered unless it is just being posted, and it is deleted
unless a handle or a client in the middle of a cancellation refers to it. And in every run in which
the worker goes on, every request which was posted is answered once and for all. -/
theorem answered_once (h : (machine ρ Θ ε).Reachable s) :
    (s.failed = false ∧
      (∀ c, (s.context c).answers.length ≤ 1 ∧
        (s.Created c → (s.context c).ref + (s.context c).releases = 2 ∧
          ((s.context c).deleted = true ↔ (s.context c).releases = 2)) ∧
        ∃ m n, (s.context c).ref = m + n ∧ (m = 1 ∧ s.Serves c ∨ m = 0 ∧ ¬ s.Serves c) ∧
          (n = 1 ∧ s.Refers c ∨ n = 0 ∧ ¬ s.Refers c)) ∧
      s.main.Nodup ∧ s.mainHeap.data.Perm s.main ∧
      ∀ c, (0 ≤ s.mainHeap.index c ↔ c ∈ s.main) ∧ (c ∈ s.main → (s.context c).deleted = false)) ∧
    (s.worker = .waiting → ∀ c, s.Created c → (∀ θ, s.request θ ≠ .posting c) →
      (s.context c).answers.length = 1 ∧
        ((s.context c).deleted = true ∨ ∃ θ, (s.request θ).about = some c)) ∧
    ∀ f : ℕ → State ρ Θ ε, f 0 = s → Run f → Fair f → ∀ i c, (f i).Created c →
      (∀ θ, (f i).request θ ≠ .posting c) →
      ∃ k ≥ i, ∀ j ≥ k, ((f j).context c).answers.length = 1 := by
  have hi := inv h
  refine ⟨⟨hi.not_failed, fun c => ⟨?_, (hi.ok c).accounts, hi.holders c⟩, ?_, hi.heap_main,
    fun c => ⟨hi.index_nonneg, fun hc => ?_⟩⟩, fun hw c hc hpost => hi.asleep hw hc hpost,
    fun f hf hrun hfair i c hc hpost => ?_⟩
  · rw [(hi.ok c).answers_eq]
    cases (s.context c).job <;> decide
  · exact hi.heap_main.nodup_iff.mp hi.heap.indexed.nodup
  · exact (hi.alive_of_job (by rw [hi.queued_of_main hc]; rfl)).1
  · have hreach : ∀ i, (machine ρ Θ ε).Reachable (f i) := hrun.reachable (by rwa [hf])
    have hanswered : ∃ k ≥ i, ((f k).context c).answers.length = 1 := by
      rcases (inv (hreach i)).answered_or_line hc hpost with hans | hline
      · exact ⟨i, Nat.le_refl i, hans⟩
      · obtain ⟨k, hk, hj⟩ := hrun.answered hfair (hreach 0) hline
        refine ⟨k, hk, ?_⟩
        rw [((inv (hreach k)).ok c).answers_eq, show ((f k).context c).job = _ from hj]
        rfl
    obtain ⟨k, hk, hans⟩ := hanswered
    refine ⟨k, hk, fun j hj => ?_⟩
    obtain ⟨d, rfl⟩ := Nat.exists_eq_add_of_le hj
    induction d with
    | zero => exact hans
    | succ d ih =>
      specialize ih (Nat.le_add_right k d)
      have hmost : ((f (k + d + 1)).context c).answers.length ≤ 1 := by
        rw [((inv (hreach (k + d + 1))).ok c).answers_eq]
        cases ((f (k + d + 1)).context c).job <;> decide
      rcases hrun (k + d) with he | ⟨a, ha⟩
      · rw [← Nat.add_assoc, he]
        exact ih
      · have hcreated : (f (k + d)).Created c := fun hnone => by
          rw [((inv (hreach (k + d))).ok c).answers_eq,
            show ((f (k + d)).context c).job = _ from hnone] at ih
          cases ih
        have hle := (answers_kept ha hcreated).length_le
        rw [← Nat.add_assoc]
        omega

/-- A request which is resolved, after which the worker sleeps. -/
def oneRequestRun : List (Action ℕ Unit ℕ) :=
  [Action.post () 0 5, .postLocked ()] ++ List.replicate 11 (Action.work 1 7)

/-- The request has its answer, and the reference of its handle. -/
theorem answered_once_one_request : ∃ s : State ℕ Unit ℕ,
    (machine ℕ Unit ℕ).run .new oneRequestRun = some s ∧
    (s.worker = .waiting ∧ s.request () = .holds 0 ∧ (s.context 0).answers = [.done 7] ∧
      (s.context 0).ref = 1) ∧ s.failed = false ∧
    ∃ k ≥ 0, ∀ j ≥ k, (((fun _ => s : ℕ → State ℕ Unit ℕ) j).context 0).answers.length = 1 := by
  have hrun : ((machine ℕ Unit ℕ).run .new oneRequestRun).map (fun s =>
      (s.worker, s.request (), (s.context 0).answers, (s.context 0).ref, (s.context 0).job)) =
        some (.waiting, .holds 0, [.done 7], 1, .released) := by
    decide +kernel
  simp only [Option.map_eq_some_iff, Prod.mk.injEq] at hrun
  obtain ⟨s, hs, hw, hr, hans, href, hj⟩ := hrun
  obtain ⟨⟨hf, -⟩, -, hlive⟩ := answered_once (.of_run (.init rfl) hs)
  refine ⟨s, hs, ⟨hw, hr, hans, href⟩, hf, hlive (fun _ => s) rfl (fun _ => .inl rfl)
    (fun i hall => absurd hw (work_isSome_iff.mp (hall i (Nat.le_refl i) 0 0))) 0 0
    (fun hnone => ?_) fun _ hp => ?_⟩
  · rw [State.job, hj] at hnone
    cases hnone
  · rw [hr] at hp
    cases hp

end DomainToIP

end Serverbox
