import Mathlib.Data.List.Basic
import Mathlib.Data.List.Nodup
import Mathlib.Logic.Function.Basic

/-!
# Chains of links

The items of a singly linked list in a heap: every item has a link, which is the next item or
nothing. `Chain link p l` says that the items met from `p` on are those of `l`, and `Linked link l`
that every item of `l` but the last one is linked to the next one.

## Main results

* `Chain.congr`: a chain depends on the links of its items only.
* `Chain.splice`: the link of the last item is set to the beginning of another chain.
* `Linked.chain`: linked items before a chain.
-/

namespace Serverbox

variable {α : Type*} {link link' : α → Option α} {p q : Option α} {a z : α} {l r : List α}

/-- The items from `p` on. -/
def Chain (link : α → Option α) : Option α → List α → Prop
  | p, [] => p = none
  | p, a :: l => p = some a ∧ Chain link (link a) l

/-- Every item but the last one is linked to the next one. -/
def Linked (link : α → Option α) : List α → Prop
  | [] => True
  | [_] => True
  | a :: b :: l => link a = some b ∧ Linked link (b :: l)

instance Linked.decidable [DecidableEq α] (link : α → Option α) :
    (l : List α) → Decidable (Linked link l)
  | [] => .isTrue trivial
  | [_] => .isTrue trivial
  | a :: b :: l =>
    have := Linked.decidable link (b :: l)
    inferInstanceAs (Decidable (link a = some b ∧ Linked link (b :: l)))

namespace Chain

theorem head (h : Chain link p l) : p = l.head? := by
  cases l with
  | nil => exact h
  | cons a l => exact h.1

/-- The items of a chain are determined by its beginning. -/
theorem unique (h : Chain link p l) (hr : Chain link p r) : l = r := by
  induction l generalizing p r with
  | nil =>
    cases r with
    | nil => rfl
    | cons b r => exact absurd (h.symm.trans hr.1) nofun
  | cons a l ih =>
    cases r with
    | nil => exact absurd (hr.symm.trans h.1) nofun
    | cons b r =>
      obtain rfl := Option.some.inj (h.1.symm.trans hr.1)
      rw [ih h.2 hr.2]

/-- Two heaps with the same chain agree on the links of its items. -/
theorem link_eq (h : Chain link p l) (h' : Chain link' p l) (ha : a ∈ l) : link a = link' a := by
  induction l generalizing p with
  | nil => cases ha
  | cons b l ih =>
    have hnext : link b = link' b := h.2.head.trans h'.2.head.symm
    rcases List.mem_cons.mp ha with rfl | ha
    · exact hnext
    · exact ih h.2 (hnext ▸ h'.2) ha

theorem of_append (h : Chain link p (l ++ a :: r)) : Chain link (link a) r := by
  induction l generalizing p with
  | nil => exact h.2
  | cons b l ih => exact ih h.2

theorem congr (h : Chain link p l) (hlink : ∀ a ∈ l, link' a = link a) : Chain link' p l := by
  induction l generalizing p with
  | nil => exact h
  | cons a l ih =>
    refine ⟨h.1, ?_⟩
    rw [hlink a List.mem_cons_self]
    exact ih h.2 fun b hb => hlink b (List.mem_cons_of_mem _ hb)

variable [DecidableEq α]

/-- The link of an item outside of the chain does not matter. -/
theorem update (h : Chain link p l) (ha : a ∉ l) : Chain (Function.update link a q) p l :=
  h.congr fun b hb => Function.update_of_ne (fun he : b = a => ha (he ▸ hb)) _ _

end Chain

namespace Linked

theorem tail (h : Linked link (a :: l)) : Linked link l := by
  cases l with
  | nil => trivial
  | cons b l => exact h.2

theorem left (h : Linked link (l ++ r)) : Linked link l := by
  induction l with
  | nil => trivial
  | cons a l ih =>
    cases l with
    | nil => trivial
    | cons b l => exact ⟨h.1, ih h.2⟩

theorem of_chain (h : Chain link p l) : Linked link l := by
  induction l generalizing p with
  | nil => trivial
  | cons a l ih =>
    cases l with
    | nil => trivial
    | cons b l => exact ⟨h.2.1, ih h.2⟩

variable [DecidableEq α]

/-- Linked items whose last link is set to the beginning of a chain. -/
theorem chain (h : Linked link (l ++ [z])) (hz : z ∉ l) (hr : Chain link q r) (hzr : z ∉ r) :
    Chain (Function.update link z q) (l ++ [z]).head? (l ++ z :: r) := by
  induction l with
  | nil =>
    refine ⟨rfl, ?_⟩
    rw [Function.update_self]
    exact hr.update hzr
  | cons a l ih =>
    obtain ⟨hne, hzl⟩ := not_or.mp (mt List.mem_cons.mpr hz)
    refine ⟨rfl, ?_⟩
    rw [Function.update_of_ne (Ne.symm hne)]
    have hlink : link a = (l ++ [z]).head? := by
      cases l with
      | nil => exact h.1
      | cons b l => exact h.1
    rw [hlink]
    exact ih h.tail hzl

end Linked

/-- The link of the last item is set to the beginning of another chain. -/
theorem Chain.splice [DecidableEq α] (h : Chain link p (l ++ [z])) (hz : z ∉ l)
    (hr : Chain link q r) (hzr : z ∉ r) : Chain (Function.update link z q) p (l ++ z :: r) := by
  rw [h.head]
  exact (Linked.of_chain h).chain hz hr hzr

end Serverbox
