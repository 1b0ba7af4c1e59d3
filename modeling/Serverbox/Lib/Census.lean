import Mathlib.Data.List.Nodup

/-!
# Counting the threads at a program point

A counter which every thread increments when it comes to a place and decrements when it leaves
it holds the number of threads there, whatever the type of the threads.

## Main definitions

* `Census`: exactly the given number of elements has a property.

## Main results

* `Census.enter`, `Census.leave`, `Census.move`: one element comes to have the property, or ceases
  to.
* `Census.pos`: the counter is positive while some element has the property.
* `Census.eq_of_le_one`: two elements with the property are equal when the counter is at most one.
* `Census.eq_zero`: no element has the property while the counter is zero.
-/

/-- Exactly `n` elements have the property `P`. -/
def Census {Θ : Type*} (P : Θ → Prop) (n : ℕ) : Prop :=
  ∃ l : List Θ, l.Nodup ∧ (∀ θ, θ ∈ l ↔ P θ) ∧ l.length = n

namespace Census

variable {Θ : Type*} {P Q : Θ → Prop} {n : ℕ} {θ : Θ}

theorem zero (h : ∀ θ, ¬ P θ) : Census P 0 :=
  ⟨[], .nil, fun θ => by simp [h θ], rfl⟩

theorem congr (h : Census P n) (hq : ∀ θ, Q θ ↔ P θ) : Census Q n := by
  obtain ⟨l, hnd, hmem, hlen⟩ := h
  exact ⟨l, hnd, fun θ => (hmem θ).trans (hq θ).symm, hlen⟩

/-- One more element has the property. -/
theorem enter (h : Census P n) (hp : ¬ P θ) (hθ : Q θ) (hq : ∀ θ' ≠ θ, Q θ' ↔ P θ') :
    Census Q (n + 1) := by
  obtain ⟨l, hnd, hmem, hlen⟩ := h
  refine ⟨θ :: l, List.nodup_cons.mpr ⟨fun hm => hp ((hmem θ).mp hm), hnd⟩, fun θ' => ?_, ?_⟩
  · rcases Classical.em (θ' = θ) with rfl | hne
    · simp [hθ]
    · simp [hne, hmem, hq θ' hne]
  · rw [List.length_cons, hlen]

theorem pos (h : Census P n) (hp : P θ) : 0 < n := by
  obtain ⟨l, -, hmem, rfl⟩ := h
  exact List.length_pos_of_mem ((hmem θ).mpr hp)

/-- One element less has the property. -/
theorem leave (h : Census P n) (hp : P θ) (hθ : ¬ Q θ) (hq : ∀ θ' ≠ θ, Q θ' ↔ P θ') :
    Census Q (n - 1) := by
  classical
  obtain ⟨l, hnd, hmem, hlen⟩ := h
  refine ⟨l.erase θ, hnd.erase θ, fun θ' => ?_, ?_⟩
  · rw [hnd.mem_erase_iff, hmem]
    rcases Classical.em (θ' = θ) with rfl | hne
    · simp [hθ]
    · simp [hne, hq θ' hne]
  · rw [List.length_erase_of_mem ((hmem θ).mpr hp), hlen]

/-- Two elements with the property are counted twice. -/
theorem eq_of_le_one (h : Census P n) (hn : n ≤ 1) {θ' : Θ} (hp : P θ) (hp' : P θ') : θ = θ' := by
  obtain ⟨l, -, hmem, rfl⟩ := h
  rw [← hmem] at hp hp'
  rcases l with _ | ⟨a, _ | ⟨b, l⟩⟩
  · cases hp
  · rw [List.mem_singleton.mp hp, List.mem_singleton.mp hp']
  · exact absurd hn (by simp)

theorem eq_zero (h : Census P 0) (θ : Θ) : ¬ P θ := fun hp => Nat.lt_irrefl 0 (h.pos hp)

/-- One element may come to have the property or cease to. -/
theorem move {f g : Θ → Bool} (h : Census (fun θ => f θ = true) n)
    (heq : ∀ θ' ≠ θ, g θ' = f θ') :
    ∃ n', Census (fun θ => g θ = true) n' ∧ n' + (f θ).toNat = n + (g θ).toNat := by
  cases hf : f θ with
  | false =>
    cases hg : g θ with
    | false =>
      refine ⟨n, h.congr fun θ' => ?_, rfl⟩
      rcases Classical.em (θ' = θ) with rfl | hne
      · rw [hf, hg]
      · rw [heq θ' hne]
    | true =>
      refine ⟨n + 1, h.enter (θ := θ) (by simp [hf]) hg fun θ' hne => ?_, rfl⟩
      rw [heq θ' hne]
  | true =>
    have hpos := h.pos hf
    cases hg : g θ with
    | false =>
      refine ⟨n - 1, h.leave (θ := θ) hf (by simp [hg]) fun θ' hne => by rw [heq θ' hne], ?_⟩
      exact Nat.sub_add_cancel hpos
    | true =>
      refine ⟨n, h.congr fun θ' => ?_, rfl⟩
      rcases Classical.em (θ' = θ) with rfl | hne
      · rw [hf, hg]
      · rw [heq θ' hne]

end Census
