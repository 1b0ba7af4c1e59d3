import Mathlib.Data.List.Basic
import Mathlib.Data.List.Induction

/-!
# Deterministically labelled transition systems

A *machine* has a set of initial states and a partial step function whose action argument
resolves every choice: which thread moves, which waiter a notification wakes, whether a weak
exchange fails spuriously. A run is a list of actions, so that a concrete interleaving can be
evaluated, and an interleaving of any number of threads is an arbitrary such list.

## Main definitions

* `Machine`, `Machine.run`, `Machine.Reachable`: the system, its finite runs and the states
  they reach.
* `Machine.ReachableBy`: the states of the runs all of whose steps meet a condition.
* `Machine.Simulates`: a map of states which sends every step to a step or to a stutter.

## Main results

* `Machine.Reachable.of_run`: every run from a reachable state ends in a reachable state.
* `Machine.invariant`, `Machine.invariant_of`, `Machine.invariant_by`: the invariant rules.
* `Machine.run_relation`: a reflexive transitive relation kept by every step relates the ends
  of every run.
* `Machine.run_crossing`: the step of a run at which a property begins.
* `Machine.run_history`: the invariant rule for what happened in a run.
* `Machine.eventually_of_rank`: the progress rule for infinite runs.
* `Machine.passes_snoc`: a run passes a step when it does so before its last action, or by it.
* `Machine.Simulates.reachable`: reachability is preserved by a simulation.
-/

/-- A transition system whose actions resolve every choice. -/
structure Machine (σ α : Type*) where
  /-- The initial states. -/
  init : σ → Prop
  /-- One step, `none` when the action is not enabled. -/
  step : σ → α → Option σ

namespace Machine

variable {σ α τ β : Type*} (M : Machine σ α)

/-- The states reached from the initial ones. -/
inductive Reachable : σ → Prop
  | init {s : σ} (h : M.init s) : Reachable s
  | step {s s' : σ} {a : α} (h : Reachable s) (hs : M.step s a = some s') : Reachable s'

/-- The state after the actions of a list, `none` when one of them is not enabled. -/
def run (s : σ) : List α → Option σ
  | [] => some s
  | a :: as => (M.step s a).bind fun s' => run s' as

@[simp] theorem run_nil (s : σ) : M.run s [] = some s := rfl

theorem run_cons (s : σ) (a : α) (as : List α) :
    M.run s (a :: as) = (M.step s a).bind fun s' => M.run s' as := rfl

theorem run_cons_eq_some {s s'' : σ} {a : α} {as : List α} :
    M.run s (a :: as) = some s'' ↔ ∃ s', M.step s a = some s' ∧ M.run s' as = some s'' := by
  rw [run_cons, Option.bind_eq_some_iff]

theorem run_append (s : σ) (as bs : List α) :
    M.run s (as ++ bs) = (M.run s as).bind fun s' => M.run s' bs := by
  induction as generalizing s with
  | nil => rfl
  | cons a as ih =>
    rw [List.cons_append, run_cons, run_cons, Option.bind_assoc]
    exact congrArg _ (funext fun s' => ih s')

variable {M}

/-- A run from a reachable state ends in a reachable state. -/
theorem Reachable.of_run {s s' : σ} {as : List α} (h : M.Reachable s)
    (hr : M.run s as = some s') : M.Reachable s' := by
  induction as generalizing s with
  | nil => exact Option.some.inj hr ▸ h
  | cons a as ih =>
    obtain ⟨s₁, hs, hr⟩ := M.run_cons_eq_some.mp hr
    exact ih (h.step hs) hr

/-- **Invariant rule.** A property of the initial states which every step keeps holds in every
reachable state. -/
theorem invariant {P : σ → Prop} (hinit : ∀ s, M.init s → P s)
    (hstep : ∀ s a s', P s → M.step s a = some s' → P s') {s : σ} (h : M.Reachable s) : P s := by
  induction h with
  | init h => exact hinit _ h
  | step _ hs ih => exact hstep _ _ _ ih hs

/-- The invariant rule relative to a property `Q` already known of the reachable states. -/
theorem invariant_of {P Q : σ → Prop} (hQ : ∀ s, M.Reachable s → Q s)
    (hinit : ∀ s, M.init s → P s)
    (hstep : ∀ s a s', Q s → Q s' → P s → M.step s a = some s' → P s') {s : σ}
    (h : M.Reachable s) : P s := by
  induction h with
  | init h => exact hinit _ h
  | step h hs ih => exact hstep _ _ _ (hQ _ h) (hQ _ (h.step hs)) ih hs

/-- A reflexive and transitive relation which relates the ends of every step from a state with
the invariant `Q` relates the ends of every run. -/
theorem run_relation {Q : σ → Prop} {R : σ → σ → Prop} (hrefl : ∀ s, R s s)
    (htrans : ∀ {s₁ s₂ s₃}, R s₁ s₂ → R s₂ s₃ → R s₁ s₃)
    (hQ : ∀ s a s', Q s → M.step s a = some s' → Q s')
    (hstep : ∀ s a s', Q s → M.step s a = some s' → R s s') {s s' : σ} {as : List α} (hs : Q s)
    (hr : M.run s as = some s') : R s s' := by
  induction as generalizing s with
  | nil => exact Option.some.inj hr ▸ hrefl s
  | cons a as ih =>
    obtain ⟨s₁, h₁, hr⟩ := M.run_cons_eq_some.mp hr
    exact htrans (hstep _ _ _ hs h₁) (ih (hQ _ _ _ hs h₁) hr)

/-- A run between states which differ in a property has a step at which the property begins. -/
theorem run_crossing {P : σ → Prop} {s s' : σ} {as : List α} (hr : M.run s as = some s')
    (hs : ¬ P s) (hs' : P s') : ∃ as₁ a as₂ t t', as = as₁ ++ a :: as₂ ∧ M.run s as₁ = some t ∧
      M.step t a = some t' ∧ ¬ P t ∧ P t' := by
  induction as generalizing s with
  | nil => exact absurd (Option.some.inj hr ▸ hs') hs
  | cons a as ih =>
    obtain ⟨s₁, h₁, hr⟩ := M.run_cons_eq_some.mp hr
    by_cases hP : P s₁
    · exact ⟨[], a, as, s, s₁, rfl, rfl, h₁, hs, hP⟩
    · obtain ⟨as₁, b, as₂, t, t', rfl, hrun, hstep⟩ := ih hr hP
      exact ⟨a :: as₁, b, as₂, t, t', rfl, M.run_cons_eq_some.mpr ⟨s₁, h₁, hrun⟩, hstep⟩

theorem run_snoc_eq_some {s s'' : σ} {a : α} {as : List α} :
    M.run s (as ++ [a]) = some s'' ↔ ∃ s', M.run s as = some s' ∧ M.step s' a = some s'' := by
  simp only [run_append, Option.bind_eq_some_iff, run_cons_eq_some, run_nil, Option.some.injEq,
    exists_eq_right]

/-- **History rule.** A property of the actions made since a state and of the state they lead to,
which holds at the beginning and is kept by every step, holds after every run. -/
theorem run_history {H : List α → σ → Prop} {s s' : σ} {as : List α} (hnil : H [] s)
    (hsnoc : ∀ as a t t', M.run s as = some t → H as t → M.step t a = some t' → H (as ++ [a]) t')
    (hr : M.run s as = some s') : H as s' := by
  induction as using List.reverseRecOn generalizing s' with
  | nil => exact Option.some.inj hr ▸ hnil
  | append_singleton as a ih =>
    obtain ⟨t, hrun, hs⟩ := run_snoc_eq_some.mp hr
    exact hsnoc as a t s' hrun (ih hrun) hs

/-- A run passes a step between states which are in a relation. -/
def Passes (M : Machine σ α) (R : σ → σ → Prop) (s : σ) (as : List α) : Prop :=
  ∃ as₁ a as₂ t t', as = as₁ ++ a :: as₂ ∧ M.run s as₁ = some t ∧ M.step t a = some t' ∧ R t t'

theorem not_passes_nil {R : σ → σ → Prop} (s : σ) : ¬ M.Passes R s [] := by
  rintro ⟨as₁, a, as₂, -, -, he, -⟩
  simp at he

theorem passes_snoc {R : σ → σ → Prop} {s t t' : σ} {as : List α} {a : α}
    (hr : M.run s as = some t) (hs : M.step t a = some t') :
    M.Passes R s (as ++ [a]) ↔ M.Passes R s as ∨ R t t' := by
  constructor
  · rintro ⟨as₁, b, as₂, u, u', he, hrun, hstep, hR⟩
    rcases List.eq_nil_or_concat as₂ with rfl | ⟨as₂, b', rfl⟩
    · obtain ⟨rfl, he⟩ := List.append_inj' he rfl
      obtain rfl : a = b := by simpa using he
      obtain rfl := Option.some.inj (hr.symm.trans hrun)
      exact .inr (Option.some.inj (hs.symm.trans hstep) ▸ hR)
    · rw [List.concat_eq_append, ← List.cons_append, ← List.append_assoc] at he
      exact .inl ⟨as₁, b, as₂, u, u', (List.append_inj' he rfl).1, hrun, hstep, hR⟩
  · rintro (⟨as₁, b, as₂, u, u', rfl, hrun, hstep, hR⟩ | hR)
    · exact ⟨as₁, b, as₂ ++ [a], u, u', by simp, hrun, hstep, hR⟩
    · exact ⟨as, a, [], t, t', rfl, hr, hs, hR⟩

/-- **Progress rule.** In an infinite run, in which the system may also stand still, a property `Q`
comes to hold after `P` if every step leads to `Q` or keeps `P` without increasing a well-founded
rank, and the rank does not stay for ever. -/
theorem eventually_of_rank {γ : Type*} {r : γ → γ → Prop} (hr : WellFounded r) {f : ℕ → σ}
    {P Q : σ → Prop} {rank : σ → γ}
    (hstep : ∀ i, P (f i) → Q (f (i + 1)) ∨
      P (f (i + 1)) ∧ (rank (f (i + 1)) = rank (f i) ∨ r (rank (f (i + 1))) (rank (f i))))
    (hfair : ∀ i, (∀ j ≥ i, P (f j)) → ∃ j ≥ i, rank (f (j + 1)) ≠ rank (f j)) {i : ℕ}
    (hP : P (f i)) : ∃ k ≥ i, Q (f k) := by
  induction hx : rank (f i) using hr.induction generalizing i with
  | _ x ih =>
    by_contra hno
    have hstay : ∀ d, P (f (i + d)) ∧ rank (f (i + d)) = x := fun d => by
      induction d with
      | zero => exact ⟨hP, hx⟩
      | succ d ihd =>
        rcases hstep (i + d) ihd.1 with hQ | ⟨hP', he | hlt⟩
        · exact absurd ⟨i + d + 1, by omega, hQ⟩ hno
        · exact ⟨hP', he.trans ihd.2⟩
        · rw [ihd.2] at hlt
          obtain ⟨k, hk, hQ⟩ := ih _ hlt hP' rfl
          exact absurd ⟨k, by omega, hQ⟩ hno
    obtain ⟨j, hj, hne⟩ := hfair i fun j hj => by
      obtain ⟨d, rfl⟩ := Nat.exists_eq_add_of_le hj
      exact (hstay d).1
    obtain ⟨d, rfl⟩ := Nat.exists_eq_add_of_le hj
    exact hne ((hstay (d + 1)).2.trans (hstay d).2.symm)

/-- The states reached by the runs all of whose steps meet a condition. -/
inductive ReachableBy (M : Machine σ α) (C : σ → α → Prop) : σ → Prop
  | init {s : σ} (h : M.init s) : ReachableBy M C s
  | step {s s' : σ} {a : α} (h : ReachableBy M C s) (hc : C s a) (hs : M.step s a = some s') :
    ReachableBy M C s'

/-- `run` of steps which all meet a condition. -/
def runBy (M : Machine σ α) (C : σ → α → Prop) [∀ s a, Decidable (C s a)] (s : σ) :
    List α → Option σ
  | [] => some s
  | a :: as => if C s a then (M.step s a).bind fun s' => runBy M C s' as else none

theorem ReachableBy.of_runBy {C : σ → α → Prop} [∀ s a, Decidable (C s a)] {s s' : σ}
    {as : List α} (h : M.ReachableBy C s) (hr : M.runBy C s as = some s') :
    M.ReachableBy C s' := by
  induction as generalizing s with
  | nil => exact Option.some.inj hr ▸ h
  | cons a as ih =>
    rw [runBy] at hr
    split at hr
    case isTrue hc =>
      obtain ⟨s₁, hs, hr⟩ := Option.bind_eq_some_iff.mp hr
      exact ih (h.step hc hs) hr
    case isFalse => cases hr

/-- **Conditional invariant rule.** A property of the initial states which every step that meets
the condition keeps holds in every state of the runs whose steps all meet it. -/
theorem invariant_by {C : σ → α → Prop} {P : σ → Prop} (hinit : ∀ s, M.init s → P s)
    (hstep : ∀ s a s', P s → C s a → M.step s a = some s' → P s') {s : σ}
    (h : M.ReachableBy C s) : P s := by
  induction h with
  | init h => exact hinit _ h
  | step _ hc hs ih => exact hstep _ _ _ ih hc hs

/-- `f` sends the initial states of `M` to initial states of `N`, and every step of `M` between
reachable states to a step of `N` or to no step at all. -/
structure Simulates (M : Machine σ α) (N : Machine τ β) (f : σ → τ) : Prop where
  init : ∀ s, M.init s → N.init (f s)
  step : ∀ s a s', M.Reachable s → M.step s a = some s' →
    f s' = f s ∨ ∃ b, N.step (f s) b = some (f s')

theorem Simulates.reachable {N : Machine τ β} {f : σ → τ} (hf : Simulates M N f) {s : σ}
    (h : M.Reachable s) : N.Reachable (f s) := by
  induction h with
  | init h => exact .init (hf.init _ h)
  | step h hs ih =>
    rcases hf.step _ _ _ h hs with he | ⟨b, hb⟩
    · exact he ▸ ih
    · exact ih.step hb

end Machine
