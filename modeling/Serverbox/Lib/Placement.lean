import Mathlib.Data.List.Nodup
import Mathlib.Data.List.Perm.Basic
import Mathlib.Logic.Function.Basic

/-!
# Items in at most one place

Each item of a system is in one place at a time. Some of the places are containers, and then their
contents are lists without repetition which hold exactly the items whose place they are.

## Main definitions

* `Placed`: the contents of the places agree with the places of the items.

## Main results

* `Placed.congr`, `Placed.move`, `Placed.pour`: steps which leave the items alone, move one of
  them, or move all the items of one place to another.
* `Placed.eq_of_mem`: an item is in the contents of one place only.
-/

variable {T P : Type*}

/-- The contents of the places for which `tracked` holds are the items which are there. -/
structure Placed (tracked : P → Prop) (place : T → P) (contents : P → List T) : Prop where
  nodup : ∀ p, tracked p → (contents p).Nodup
  mem_iff : ∀ p, tracked p → ∀ t, t ∈ contents p ↔ place t = p

namespace Placed

variable {tracked : P → Prop} {place : T → P} {contents contents' : P → List T}

/-- Nobody has left or entered a place. -/
theorem congr (h : Placed tracked place contents)
    (hc : ∀ p, tracked p → (contents' p).Perm (contents p)) : Placed tracked place contents' where
  nodup p hp := (hc p hp).nodup_iff.mpr (h.nodup p hp)
  mem_iff p hp t := ((hc p hp).mem_iff).trans (h.mem_iff p hp t)

/-- An item is in one place only. -/
theorem eq_of_mem (h : Placed tracked place contents) {p q : P} {t : T} (hp : tracked p)
    (hq : tracked q) (htp : t ∈ contents p) (htq : t ∈ contents q) : p = q :=
  ((h.mem_iff p hp t).mp htp).symm.trans ((h.mem_iff q hq t).mp htq)

/-- One item moves from one place to another. -/
theorem move [DecidableEq T] (h : Placed tracked place contents) {t : T} {q : P}
    (hne : place t ≠ q)
    (hout : tracked (place t) → (contents (place t)).Perm (t :: contents' (place t)))
    (hin : tracked q → (contents' q).Perm (t :: contents q))
    (hother : ∀ p, tracked p → p ≠ place t → p ≠ q → (contents' p).Perm (contents p)) :
    Placed tracked (Function.update place t q) contents' where
  nodup p hp := by
    by_cases hpq : p = q
    · subst hpq
      rw [(hin hp).nodup_iff, List.nodup_cons, h.mem_iff p hp]
      exact ⟨hne, h.nodup p hp⟩
    · by_cases hpt : p = place t
      · subst hpt
        exact (List.nodup_cons.mp ((hout hp).nodup_iff.mp (h.nodup _ hp))).2
      · exact (hother p hp hpt hpq).nodup_iff.mpr (h.nodup p hp)
  mem_iff p hp u := by
    by_cases hu : u = t
    · subst hu
      rw [Function.update_self]
      by_cases hpq : p = q
      · subst hpq
        simp [(hin hp).mem_iff]
      · refine ⟨fun hmem => ?_, fun hq => absurd hq.symm hpq⟩
        by_cases hpt : p = place u
        · subst hpt
          exact absurd hmem (List.nodup_cons.mp ((hout hp).nodup_iff.mp (h.nodup _ hp))).1
        · exact absurd ((h.mem_iff p hp u).mp ((hother p hp hpt hpq).mem_iff.mp hmem)).symm hpt
    · rw [Function.update_of_ne hu]
      by_cases hpq : p = q
      · subst hpq
        rw [(hin hp).mem_iff, List.mem_cons, h.mem_iff p hp]
        simp [hu]
      · by_cases hpt : p = place t
        · subst hpt
          rw [← h.mem_iff _ hp, (hout hp).mem_iff, List.mem_cons]
          simp [hu]
        · rw [(hother p hp hpt hpq).mem_iff, h.mem_iff p hp]

/-- All the items of one place move to another. -/
theorem pour [DecidableEq P] (h : Placed tracked place contents) {p q : P} (hp : tracked p)
    (hq : tracked q) (hne : p ≠ q) (hout : contents' p = [])
    (hin : (contents' q).Perm (contents q ++ contents p))
    (hother : ∀ r, tracked r → r ≠ p → r ≠ q → (contents' r).Perm (contents r)) :
    Placed tracked (fun t => if place t = p then q else place t) contents' where
  nodup r hr := by
    by_cases hrq : r = q
    · subst hrq
      rw [hin.nodup_iff, List.nodup_append]
      refine ⟨h.nodup r hr, h.nodup p hp, fun a ha b hb hab => hne ?_⟩
      subst hab
      exact h.eq_of_mem hp hr hb ha
    · by_cases hrp : r = p
      · subst hrp
        simp [hout]
      · exact (hother r hr hrp hrq).nodup_iff.mpr (h.nodup r hr)
  mem_iff r hr u := by
    by_cases hrq : r = q
    · subst hrq
      rw [hin.mem_iff, List.mem_append, h.mem_iff r hr, h.mem_iff p hp]
      split <;> simp_all
    · by_cases hrp : r = p
      · subst hrp
        rw [hout]
        split <;> simp_all [eq_comm]
      · rw [(hother r hr hrp hrq).mem_iff, h.mem_iff r hr]
        split <;> simp_all [eq_comm]

end Placed
