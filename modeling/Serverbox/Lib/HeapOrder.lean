import Mathlib.Data.Nat.Notation
import Mathlib.Logic.Function.Basic
import Mathlib.Order.Basic

/-!
# The order of a binary heap

The nodes of a complete binary tree are numbered as usual: the parent of the node `k` is
`(k - 1) / 2`. The order is a reflexive, transitive and total relation. An element which is out
of its place moves up or down by exchanges with its neighbours.

## Main definitions

* `HeapOrder.Ordered`: every node is above its children.
* `HeapOrder.Up`, `HeapOrder.Down`: so is every node, apart from one that may have to move up
  or down.
* `HeapOrder.Loose`: one node was replaced.
* `HeapOrder.exchange`: two nodes are exchanged.

## Main results

* `HeapOrder.Up.exchange`, `HeapOrder.Down.exchange`: an element moves one level.
* `HeapOrder.Up.ordered`, `HeapOrder.Down.ordered`: it has found its place.
* `HeapOrder.Ordered.top`: the root is above all the nodes.
-/

namespace HeapOrder

variable {T : Type*}

/-- Every node is above its children. -/
def Ordered (r : T → T → Prop) (f : ℕ → Option T) : Prop :=
  ∀ k a b, 0 < k → f ((k - 1) / 2) = some a → f k = some b → r a b

/-- Every node is above its children, except that the node `i` may be above its parent. -/
structure Up (r : T → T → Prop) (f : ℕ → Option T) (i : ℕ) : Prop where
  other : ∀ k a b, 0 < k → k ≠ i → f ((k - 1) / 2) = some a → f k = some b → r a b
  around : ∀ k a b, 0 < i → 0 < k → (k - 1) / 2 = i → f ((i - 1) / 2) = some a →
    f k = some b → r a b

/-- Every node is above its children, except that the node `i` may be below its own ones. -/
structure Down (r : T → T → Prop) (f : ℕ → Option T) (i : ℕ) : Prop where
  other : ∀ k a b, 0 < k → (k - 1) / 2 ≠ i → f ((k - 1) / 2) = some a → f k = some b → r a b
  around : ∀ k a b, 0 < i → 0 < k → (k - 1) / 2 = i → f ((i - 1) / 2) = some a →
    f k = some b → r a b

/-- Every node is above its children, apart from the pairs to which the node `i` belongs. -/
structure Loose (r : T → T → Prop) (f : ℕ → Option T) (i : ℕ) : Prop where
  other : ∀ k a b, 0 < k → k ≠ i → (k - 1) / 2 ≠ i → f ((k - 1) / 2) = some a → f k = some b →
    r a b
  around : ∀ k a b, 0 < i → 0 < k → (k - 1) / 2 = i → f ((i - 1) / 2) = some a →
    f k = some b → r a b

/-- The nodes `i` and `j`, which hold `x` and `y`, are exchanged. -/
def exchange (f : ℕ → Option T) (i j : ℕ) (x y : T) : ℕ → Option T := fun k =>
  if k = j then some x else if k = i then some y else f k

variable {r : T → T → Prop} {f : ℕ → Option T} {i : ℕ}

/-- A node of a heap is replaced, and nodes at the end are cut off. -/
theorem Ordered.loose (h : Ordered r f) (htrans : ∀ ⦃a b c⦄, r a b → r b c → r a c)
    {g : ℕ → Option T} (hi : (f i).isSome) (hg : ∀ k b, k ≠ i → g k = some b → f k = some b) :
    Loose r g i where
  other k a b hk hne hne' ha hb := h k a b hk (hg _ a hne' ha) (hg k b hne hb)
  around k a b hi' hk hki ha hb := by
    obtain ⟨x, hx⟩ := Option.isSome_iff_exists.mp hi
    have ha' := hg _ a (by omega) ha
    have hb' := hg k b (by omega) hb
    exact htrans (h i a x hi' ha' hx) (h k x b hk (hki ▸ hx) hb')

/-- The replaced node is above its parent, so it can only move up. -/
theorem Loose.up (h : Loose r f i) (htrans : ∀ ⦃a b c⦄, r a b → r b c → r a c) {x p : T}
    (hx : f i = some x) (hi : 0 < i) (hp : f ((i - 1) / 2) = some p) (hxp : r x p) :
    Up r f i where
  other k a b hk hne ha hb := by
    by_cases hki : (k - 1) / 2 = i
    · rw [hki, hx, Option.some.injEq] at ha
      exact ha ▸ htrans hxp (h.around k p b hi hk hki hp hb)
    · exact h.other k a b hk hne hki ha hb
  around := h.around

/-- The replaced node is below its parent, so it can only move down. -/
theorem Loose.down (h : Loose r f i)
    (hi : ∀ a b, 0 < i → f ((i - 1) / 2) = some a → f i = some b → r a b) : Down r f i where
  other k a b hk hne ha hb := by
    rcases eq_or_ne k i with rfl | hki
    · exact hi a b hk ha hb
    · exact h.other k a b hk hki hne ha hb
  around := h.around

theorem Up.ordered (h : Up r f i)
    (hi : ∀ a b, 0 < i → f ((i - 1) / 2) = some a → f i = some b → r a b) : Ordered r f := by
  intro k a b hk ha hb
  rcases eq_or_ne k i with rfl | hne
  · exact hi a b hk ha hb
  · exact h.other k a b hk hne ha hb

theorem Down.ordered (h : Down r f i)
    (hi : ∀ k a b, 0 < k → (k - 1) / 2 = i → f i = some a → f k = some b → r a b) :
    Ordered r f := by
  intro k a b hk ha hb
  rcases eq_or_ne ((k - 1) / 2) i with he | hne
  · exact hi k a b hk he (he ▸ ha) hb
  · exact h.other k a b hk hne ha hb

/-- An element which is above its parent moves up. -/
theorem Up.exchange (h : Up r f i) (htrans : ∀ ⦃a b c⦄, r a b → r b c → r a c) {x p : T}
    (hi : 0 < i) (hp : f ((i - 1) / 2) = some p) (hxp : r x p) :
    Up r (exchange f i ((i - 1) / 2) x p) ((i - 1) / 2) := by
  have hlt : (i - 1) / 2 < i := by omega
  refine ⟨fun k a b hk hne ha hb => ?_, fun k a b hj hk hkj ha hb => ?_⟩
  · simp only [HeapOrder.exchange, if_neg hne] at ha hb
    by_cases hki : k = i
    · -- the old parent below the element
      subst hki
      simp only [if_true, Option.some.injEq] at ha hb
      exact ha ▸ hb ▸ hxp
    rw [if_neg hki] at hb
    by_cases hkj : (k - 1) / 2 = (i - 1) / 2
    · rw [if_pos hkj, Option.some.injEq] at ha
      exact ha ▸ htrans hxp (h.other k p b hk hki (hkj ▸ hp) hb)
    rw [if_neg hkj] at ha
    by_cases hk' : (k - 1) / 2 = i
    · rw [if_pos hk', Option.some.injEq] at ha
      exact ha ▸ h.around k p b hi hk hk' hp hb
    · rw [if_neg hk'] at ha
      exact h.other k a b hk hki ha hb
  · have h₁ : ((i - 1) / 2 - 1) / 2 ≠ (i - 1) / 2 := by omega
    have h₂ : ((i - 1) / 2 - 1) / 2 ≠ i := by omega
    have h₃ : k ≠ (i - 1) / 2 := by omega
    simp only [HeapOrder.exchange, if_neg h₁, if_neg h₂, if_neg h₃] at ha hb
    have hap := h.other ((i - 1) / 2) a p hj (by omega) ha hp
    by_cases hki : k = i
    · rw [if_pos hki, Option.some.injEq] at hb
      exact hb ▸ hap
    · rw [if_neg hki] at hb
      exact htrans hap (h.other k p b hk hki (hkj ▸ hp) hb)

/-- An element which is below its topmost child moves down. -/
theorem Down.exchange (h : Down r f i) {c : ℕ} {x y : T} (hc : 0 < c) (hci : (c - 1) / 2 = i)
    (hy : f c = some y) (hyx : r y x)
    (htop : ∀ k b, 0 < k → (k - 1) / 2 = i → f k = some b → r y b) :
    Down r (exchange f i c x y) c := by
  have hic : i ≠ c := by omega
  refine ⟨fun k a b hk hne ha hb => ?_, fun k a b _ hk hkc ha hb => ?_⟩
  · simp only [HeapOrder.exchange, if_neg hne] at ha hb
    by_cases hkc : k = c
    · subst hkc
      rw [if_pos hci] at ha
      simp only [if_true, Option.some.injEq] at ha hb
      exact ha ▸ hb ▸ hyx
    rw [if_neg hkc] at hb
    by_cases hki : k = i
    · -- the child takes the place below the parent of the element
      subst hki
      have hk' : (k - 1) / 2 ≠ k := by omega
      rw [if_neg hk'] at ha
      rw [if_pos rfl, Option.some.injEq] at hb
      exact hb ▸ h.around c a y hk hc hci ha hy
    rw [if_neg hki] at hb
    by_cases hk' : (k - 1) / 2 = i
    · rw [if_pos hk', Option.some.injEq] at ha
      exact ha ▸ htop k b hk hk' hb
    · rw [if_neg hk'] at ha
      exact h.other k a b hk hk' ha hb
  · have h₁ : k ≠ c := by omega
    have h₂ : k ≠ i := by omega
    have h₃ : (c - 1) / 2 ≠ c := by omega
    simp only [HeapOrder.exchange, if_neg h₁, if_neg h₂, if_neg h₃, if_pos hci] at ha hb
    obtain rfl : y = a := Option.some.inj ha
    exact h.other k y b hk (by omega) (hkc ▸ hy) hb

/-- The root is above all the nodes. -/
theorem Ordered.top (h : Ordered r f) (hrefl : ∀ a, r a a)
    (htrans : ∀ ⦃a b c⦄, r a b → r b c → r a c) (hf : ∀ j k, j ≤ k → (f k).isSome → (f j).isSome)
    {a : T} (ha : f 0 = some a) (k : ℕ) {b : T} (hb : f k = some b) : r a b := by
  induction k using Nat.strongRecOn generalizing b with
  | ind k ih =>
    rcases Nat.eq_zero_or_pos k with rfl | hk
    · obtain rfl : a = b := Option.some.inj (ha.symm.trans hb)
      exact hrefl a
    · obtain ⟨p, hp⟩ := Option.isSome_iff_exists.mp
        (hf ((k - 1) / 2) k (by omega) (Option.isSome_iff_exists.mpr ⟨b, hb⟩))
      exact htrans (ih _ (by omega) hp) (h k p b hk hp hb)

end HeapOrder
