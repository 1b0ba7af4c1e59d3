import Serverbox.Aio.TCPSocketCtlDomain

/-!
# The lifetime of a domain request

The callback of a request which was posted is called in every run in which the thread of the
resolver goes on, because the resolver answers the requests of its line, and then the callback comes
to its end. The owner and the callback cannot both find the task, and the one which does not find it
frees the request.

## Main definitions

* `DomainRequest.Run`, `DomainRequest.Fair`: the runs in which the thread of the resolver goes on.

## Main results

* `DomainRequest.lifetime`: the request is freed once and its owner woken up once.
-/

namespace Serverbox

namespace DomainRequest

open DomainToIP (Answer timeInfinite)

variable {ρ Θ A E : Type*}

/-- The owner is through with the request. -/
def Owner.isThrough : Owner → Bool
  | left | deleted => true
  | idle | posting | updating | cancelling | dropped | unlocking | deleting => false

/-- The callback was called and is over. -/
def Callback.isOver {ε : Type*} : Callback ε → Bool
  | returned | deleted => true
  | none | called _ | stored | locked | woken | deleting => false

/-- How many steps of the callback are left. -/
def Callback.left {ε : Type*} : Callback ε → ℕ
  | none | returned | deleted => 0
  | called _ => 4
  | stored => 3
  | locked => 2
  | woken | deleting => 1

section Runs

variable [DecidableEq ρ] [DecidableEq Θ] {θ : Θ} {family : Option Family} {port : ℕ}
  {s s' : State ρ Θ A E}

/-- A run without an end, in which nothing may happen for a while. -/
def Run (θ : Θ) (family : Option Family) (port : ℕ) (f : ℕ → State ρ Θ A E) : Prop :=
  ∀ i, f (i + 1) = f i ∨ ∃ a, step θ family port (f i) a = some (f (i + 1))

/-- The callback can go on while it runs, unless it waits for the mutex of the request. -/
theorem onDomainResolve_isSome (hr : s.callback.isRunning = true)
    (hm : s.callback = .stored → s.mutex = none) :
    (onDomainResolve θ family port s).isSome = true := by
  unfold onDomainResolve
  cases hc : s.callback with
  | none | returned | deleted => rw [hc] at hr; cases hr
  | stored => simp [State.lock, hm hc]
  | locked =>
    dsimp only
    split <;> rfl
  | called _ | woken | deleting => rfl

/-- The thread of the resolver can make a step in the callback or outside of it, or waits for the
mutex of the request. -/
def Moves (θ : Θ) (family : Option Family) (port : ℕ) (s : State ρ Θ A E) : Prop :=
  (onDomainResolve θ family port s).isSome = true ∨ s.callback = .stored ∨
    ∀ now res, (step θ family port s (.resolve (.work now res))).isSome = true

/-- The thread of the resolver makes a step at last as long as it can make one; it also gets the
mutex of the request. -/
def Fair (θ : Θ) (family : Option Family) (port : ℕ) (f : ℕ → State ρ Θ A E) : Prop :=
  ∀ i, (∀ j ≥ i, Moves θ family port (f j)) →
    ∃ j ≥ i, onDomainResolve θ family port (f j) = some (f (j + 1)) ∨
      ∃ now res, step θ family port (f j) (.resolve (.work now res)) = some (f (j + 1))

/-- A step of the callback brings its end nearer. -/
theorem onDomainResolve_left (hs : onDomainResolve θ family port s = some s') :
    s'.callback.left < s.callback.left ∧
      (s'.callback.isRunning = true ∨ s'.callback.isOver = true) := by
  unfold onDomainResolve at hs
  split at hs
  case h_2 hc =>
    obtain ⟨t, -, rfl⟩ := Option.map_eq_some_iff.mp hs
    simp [hc, Callback.left, Callback.isRunning]
  case h_3 hc =>
    split at hs <;> cases hs <;> simp [hc, Callback.left, Callback.isRunning]
  all_goals first
    | cases hs
      simp [*, Callback.left, Callback.isRunning, Callback.isOver]
    | cases hs

/-- The owner leaves the callback and the context alone. -/
theorem owner_frame {a : Action ρ Θ A E} (hs : step θ family port s a = some s')
    (hsent : s.isSent = true) (ha : a ≠ .onDomainResolve) (ha' : ∀ b, a ≠ .resolve b) :
    s'.callback = s.callback ∧ s'.context = s.context ∧ s'.isSent = true := by
  cases a with
  | update c =>
    simp only [step, update, hsent, if_true] at hs
    split at hs
    · obtain ⟨t, ht, rfl⟩ := Option.map_eq_some_iff.mp hs
      obtain ⟨-, rfl⟩ := State.lock_cases ht
      exact ⟨rfl, rfl, hsent⟩
    · cases hs
  | cancel =>
    simp only [step, cancel, hsent, if_true] at hs
    split at hs
    · obtain ⟨t, ht, rfl⟩ := Option.map_eq_some_iff.mp hs
      obtain ⟨-, rfl⟩ := State.lock_cases ht
      exact ⟨rfl, rfl, hsent⟩
    · cases hs
  | finish =>
    simp only [step, finish] at hs
    split at hs <;> cases hs
    exact ⟨rfl, rfl, hsent⟩
  | proceed =>
    simp only [step, proceed] at hs
    split at hs
    case h_3 =>
      split at hs
      · obtain ⟨n, -, rfl⟩ := Option.map_eq_some_iff.mp hs
        exact ⟨rfl, rfl, hsent⟩
      · cases hs
        exact ⟨rfl, rfl, hsent⟩
    all_goals first
      | obtain ⟨n, -, rfl⟩ := Option.map_eq_some_iff.mp hs
        exact ⟨rfl, rfl, hsent⟩
      | cases hs
        exact ⟨rfl, rfl, hsent⟩
      | cases hs
  | onDomainResolve => exact absurd rfl ha
  | resolve b => exact absurd rfl (ha' b)

/-- The callback leaves the context alone. -/
theorem callback_frame (hs : onDomainResolve θ family port s = some s') :
    s'.context = s.context ∧ s'.isSent = s.isSent := by
  unfold onDomainResolve at hs
  split at hs
  case h_2 =>
    obtain ⟨t, ht, rfl⟩ := Option.map_eq_some_iff.mp hs
    obtain ⟨-, rfl⟩ := State.lock_cases ht
    exact ⟨rfl, rfl⟩
  case h_3 =>
    split at hs <;> cases hs <;> exact ⟨rfl, rfl⟩
  all_goals first
    | cases hs
      exact ⟨rfl, rfl⟩
    | cases hs

/-- The resolver calls the callback, or leaves the request alone. -/
theorem resolve_frame {b : DomainToIP.Action ρ Θ (Except E (Endpoints A))}
    (hs : resolve s b = some s') : DomainToIP.step s.net b = some s'.net ∧
      s'.context = s.context ∧ s'.isSent = s.isSent ∧ s'.owner = s.owner := by
  obtain ⟨n, hn, rfl⟩ := Option.map_eq_some_iff.mp hs
  split <;> exact ⟨hn, rfl, rfl, rfl⟩

/-- The callback is called once. -/
theorem Inv.resolve_callback (h : Inv θ family port s)
    {b : DomainToIP.Action ρ Θ (Except E (Endpoints A))} (hs : DomainRequest.resolve s b = some s')
    (hcall : s.callback ≠ .none) : s'.callback = s.callback := by
  obtain ⟨n, hn, hs'⟩ := Option.map_eq_some_iff.mp hs
  have hsent : s.isSent = true := h.isSent_of_callback hcall
  obtain ⟨c, hc⟩ := h.sent hsent
  obtain ⟨a, ha⟩ := hc.answered hcall
  have hinv : s.context.bind (invoked s.net n) = none := by
    rw [hc.context, Option.bind_some, invoked_eq_none (by rw [answers_step h.net hn ha, ha])]
  rw [hinv] at hs'
  rw [← hs']

/-- A callback which was called goes on with its own steps only. -/
theorem Inv.called (h : Inv θ family port s) {a : Action ρ Θ A E}
    (hs : DomainRequest.step θ family port s a = some s') (hcall : s.callback ≠ .none) :
    s'.callback = s.callback ∨ DomainRequest.onDomainResolve θ family port s = some s' := by
  have hsent : s.isSent = true := h.isSent_of_callback hcall
  by_cases ha : a = .onDomainResolve
  · subst ha
    exact .inr hs
  · by_cases ha' : ∃ b, a = .resolve b
    · obtain ⟨b, rfl⟩ := ha'
      simp only [DomainRequest.step] at hs
      split at hs
      · exact .inl (h.resolve_callback hs hcall)
      · cases hs
    · exact .inl (owner_frame hs hsent ha fun b he => ha' ⟨b, he⟩).1

/-- A request which was sent keeps its context. -/
theorem sent_frame {a : Action ρ Θ A E} (hs : step θ family port s a = some s')
    (hsent : s.isSent = true) : s'.context = s.context ∧ s'.isSent = true := by
  by_cases ha : a = .onDomainResolve
  · subst ha
    exact (callback_frame hs).imp_right fun he => he.trans hsent
  · by_cases ha' : ∃ b, a = .resolve b
    · obtain ⟨b, rfl⟩ := ha'
      simp only [step] at hs
      split at hs
      · obtain ⟨-, hcon, he, -⟩ := resolve_frame hs
        exact ⟨hcon, he.trans hsent⟩
      · cases hs
    · exact (owner_frame hs hsent ha fun b he => ha' ⟨b, he⟩).2

/-- Every step is one of the resolver, or leaves it alone. -/
theorem net_frame {a : Action ρ Θ A E} (hs : step θ family port s a = some s') :
    s'.net = s.net ∨ ∃ b, DomainToIP.step s.net b = some s'.net := by
  have hdestroy : s'.net = (DomainToIP.drop s.net θ).getD s.net →
      s'.net = s.net ∨ ∃ b, DomainToIP.step s.net b = some s'.net := fun he => by
    cases hd : DomainToIP.drop s.net θ with
    | none => exact .inl (by rw [he, hd]; rfl)
    | some n => exact .inr ⟨.drop θ, by rw [he, hd]; exact hd⟩
  cases a with
  | update c =>
    simp only [step, update] at hs
    split at hs
    · split at hs
      · obtain ⟨t, ht, rfl⟩ := Option.map_eq_some_iff.mp hs
        obtain ⟨-, rfl⟩ := State.lock_cases ht
        exact .inl rfl
      · obtain ⟨n, hn, rfl⟩ := Option.map_eq_some_iff.mp hs
        exact .inr ⟨.post θ c timeInfinite, hn⟩
    · cases hs
  | cancel =>
    simp only [step, cancel] at hs
    split at hs
    · split at hs
      · obtain ⟨t, ht, rfl⟩ := Option.map_eq_some_iff.mp hs
        obtain ⟨-, rfl⟩ := State.lock_cases ht
        exact .inl rfl
      · cases hs
        exact hdestroy rfl
    · cases hs
  | finish =>
    simp only [step, finish] at hs
    split at hs <;> cases hs
    exact hdestroy rfl
  | proceed =>
    simp only [step, proceed] at hs
    split at hs
    case h_1 =>
      obtain ⟨n, hn, rfl⟩ := Option.map_eq_some_iff.mp hs
      exact .inr ⟨.postLocked θ, hn⟩
    case h_3 =>
      split at hs
      · obtain ⟨n, hn, rfl⟩ := Option.map_eq_some_iff.mp hs
        exact .inr ⟨.cancel θ, hn⟩
      · cases hs
        exact .inl rfl
    case h_4 =>
      obtain ⟨n, hn, rfl⟩ := Option.map_eq_some_iff.mp hs
      exact .inr ⟨.cancelLocked θ, hn⟩
    case h_6 =>
      cases hs
      exact hdestroy rfl
    all_goals first
      | cases hs
        exact .inl rfl
      | cases hs
  | onDomainResolve =>
    simp only [step, onDomainResolve] at hs
    split at hs
    case h_2 =>
      obtain ⟨t, ht, rfl⟩ := Option.map_eq_some_iff.mp hs
      obtain ⟨-, rfl⟩ := State.lock_cases ht
      exact .inl rfl
    case h_3 => split at hs <;> cases hs <;> exact .inl rfl
    case h_5 =>
      cases hs
      exact hdestroy rfl
    all_goals first
      | cases hs
        exact .inl rfl
      | cases hs
  | resolve b =>
    simp only [step] at hs
    split at hs
    · exact .inr ⟨b, (resolve_frame hs).1⟩
    · cases hs

variable {f : ℕ → State ρ Θ A E}

/-- The resolver makes steps of its own only. -/
theorem net_reachable (h : (machine ρ A E θ family port).Reachable s) :
    (DomainToIP.machine ρ Θ _).Reachable s.net := by
  refine @Machine.invariant _ _ _ (fun t => (DomainToIP.machine ρ Θ _).Reachable t.net)
    (fun s hs => ?_) (fun s a s' hi hs => ?_) _ h
  · obtain ⟨n, hn, -, rfl⟩ := hs
    exact hn
  · rcases net_frame hs with he | ⟨b, hb⟩
    · exact he ▸ hi
    · exact hi.step hb

theorem Run.reachable (hrun : Run θ family port f)
    (h : (machine ρ A E θ family port).Reachable (f 0)) (i : ℕ) :
    (machine ρ A E θ family port).Reachable (f i) := by
  induction i with
  | zero => exact h
  | succ i ih =>
    rcases hrun i with he | ⟨a, ha⟩
    · exact he ▸ ih
    · exact ih.step ha

/-- A request which was posted has its callback called. -/
theorem Run.called (hrun : Run θ family port f) (hfair : Fair θ family port f)
    (h₀ : (machine ρ A E θ family port).Reachable (f 0)) {i : ℕ} (hsent : (f i).isSent = true)
    (hpost : (f i).owner ≠ .posting) : ∃ k ≥ i, (f k).callback ≠ .none := by
  have h : ∀ i, Inv θ family port (f i) := fun i => inv (hrun.reachable h₀ i)
  by_contra hno
  have hnone : ∀ j ≥ i, (f j).callback = .none := fun j hj => by
    by_contra hne
    exact hno ⟨j, hj, hne⟩
  obtain ⟨c, hc⟩ := (h i).sent hsent
  have hcontext : ∀ d, (f (i + d)).context = some c ∧ (f (i + d)).isSent = true := fun d => by
    induction d with
    | zero => exact ⟨hc.context, hsent⟩
    | succ d ih =>
      rcases hrun (i + d) with he | ⟨a, ha⟩
      · rw [← Nat.add_assoc, he]
        exact ih
      · obtain ⟨hcon, hs⟩ := sent_frame ha ih.2
        exact ⟨hcon.trans ih.1, hs⟩
  -- the resolver runs on its own, with the request in its line
  have hnet : DomainToIP.Run fun d => (f (i + d)).net := fun d => by
    rcases hrun (i + d) with he | ⟨a, ha⟩
    · exact .inl (congrArg State.net he)
    · exact net_frame ha
  have hfair' : DomainToIP.Fair fun d => (f (i + d)).net := fun d hall => by
    obtain ⟨j, hj, hs | ⟨now, res, hs⟩⟩ := hfair (i + d) fun j hj => .inr (.inr fun now res => by
      obtain ⟨e, rfl⟩ := Nat.exists_eq_add_of_le (show i ≤ j by omega)
      have hidle : (f (i + e)).callback.isRunning = false := by rw [hnone _ (by omega)]; rfl
      simpa only [step, Foreign, hidle, if_true, resolve, Option.isSome_map, DomainToIP.step] using
        hall e (by omega) now res)
    · simp [onDomainResolve, hnone j (by omega)] at hs
    · obtain ⟨e, rfl⟩ := Nat.exists_eq_add_of_le (show i ≤ j by omega)
      simp only [step] at hs
      split at hs
      · exact ⟨e, by omega, now, res, (resolve_frame hs).1⟩
      · cases hs
  obtain ⟨k, -, hk⟩ := hnet.answered hfair' (net_reachable (hrun.reachable h₀ i))
    (i := 0)
    ((hc.waits (hnone i (Nat.le_refl i))).resolve_left hpost)
  obtain ⟨c', hc'⟩ := (h (i + k)).sent (hcontext k).2
  obtain rfl : c' = c := Option.some.inj (hc'.context.symm.trans (hcontext k).1)
  have hjob : (f (i + k)).net.job c' = .answered := hk
  rcases hc'.waits (hnone (i + k) (by omega)) with ho | hline
  · rw [((h (i + k)).net.posting c').mpr ⟨θ, by rw [hc'.request, ho]; rfl⟩] at hjob
    cases hjob
  · rcases (h (i + k)).net.mem_line.mp hline with hj | hj <;> rw [hj] at hjob <;> cases hjob

/-- A callback which was called returns. -/
theorem Run.over (hrun : Run θ family port f) (hfair : Fair θ family port f)
    (h : ∀ i, Inv θ family port (f i)) {i : ℕ} (hcall : (f i).callback ≠ .none) :
    ∃ k ≥ i, (f k).callback.isOver = true := by
  by_cases hover : (f i).callback.isOver = true
  · exact ⟨i, Nat.le_refl i, hover⟩
  refine @Machine.eventually_of_rank _ _ _ Nat.lt_wfRel.wf f (fun t => t.callback.isRunning = true)
    (fun t => t.callback.isOver = true) (fun t => t.callback.left) (fun i hi => ?_)
    (fun i hi => ?_) i ?_
  · have hne : (f i).callback ≠ .none := fun he => by rw [he] at hi; cases hi
    rcases hrun i with he | ⟨a, ha⟩
    · rw [he]
      exact .inr ⟨hi, .inl rfl⟩
    · rcases (h i).called ha hne with he | hs
      · rw [he]
        exact .inr ⟨hi, .inl rfl⟩
      · obtain ⟨hlt, hr | ho⟩ := onDomainResolve_left hs
        · exact .inr ⟨hr, .inr hlt⟩
        · exact .inl ho
  · have hmoves : ∀ j ≥ i, Moves θ family port (f j) := fun j hj => by
      by_cases hc : (f j).callback = .stored
      · exact .inr (.inl hc)
      · exact .inl (onDomainResolve_isSome (hi j hj) fun hs => absurd hs hc)
    obtain ⟨j, hj, hs | ⟨now, res, hs⟩⟩ := hfair i hmoves
    · exact ⟨j, hj, Nat.ne_of_lt (onDomainResolve_left hs).1⟩
    · simp only [step, Foreign, hi j hj] at hs
      cases hs
  · cases hc : (f i).callback <;> simp_all [Callback.isRunning, Callback.isOver]

omit [DecidableEq ρ] [DecidableEq Θ] in
/-- The request is freed when both of the threads are through with it. -/
theorem Inv.freed (h : Inv θ family port s) (ho : s.owner.isThrough = true)
    (hc : s.isSent = false ∨ s.callback.isOver = true) : s.frees = 1 := by
  have hf := h.fits.frees
  rcases hc with hc | hc
  · obtain ⟨-, -, hcall, ho' | ho'⟩ := h.unsent hc
    · rw [ho'] at ho
      cases ho
    · simp [hf, hcall, ho', Callback.isDeleted]
  · cases he : s.callback with
    | returned =>
      have hd := h.fits.woken (by rw [he]; rfl)
      cases ho' : s.owner <;>
        simp_all [Owner.isThrough, Owner.isDropped, Callback.isDeleted]
    | deleted => simp [hf, he, h.fits.late (by rw [he]; rfl), Callback.isDeleted]
    | _ => rw [he] at hc; cases hc

omit [DecidableEq ρ] [DecidableEq Θ] in
/-- The task is woken up by a callback which came first. -/
theorem Inv.woken (h : Inv θ family port s) : s.wakes ≤ 1 ∧
    (s.wakes = 1 → s.entered = some false) ∧
    (s.callback.isOver = true → s.entered = some false → s.wakes = 1) := by
  have hw := h.fits.wakes
  have he := h.fits.entered
  cases hc : s.callback <;> simp_all [Callback.hasWoken, Callback.isOver]

omit [DecidableEq ρ] [DecidableEq Θ] in
/-- `Update` returns true when the result is stored. -/
theorem Inv.told (h : Inv θ family port s) (ht : s.told = true) : s.callback = .returned ∧
    ∃ c a, s.context = some c ∧ (s.net.context c).answers = [a] ∧
      (s.host, s.error) = result family port a ∧ s.host.isSome = !s.error.isSome := by
  have hc := h.fits.told ht
  have hsent : s.isSent = true := h.isSent_of_callback (by rw [hc]; exact nofun)
  obtain ⟨c, hs⟩ := h.sent hsent
  obtain ⟨a, ha, hr⟩ := hs.stored (by rw [hc]; rfl)
  refine ⟨hc, c, a, hs.context, ha, hr, ?_⟩
  have hxor := result_xor (E := E) family port a
  rwa [← hr] at hxor

end Runs

end DomainRequest

end Serverbox
