import Mathlib.Data.Multiset.AddSub
import Mathlib.Order.Lattice
import Serverbox.Box.BinaryHeap
import Serverbox.Lib.Machine

/-!
# Runs of the intrusive heaps

`mg::box::BinaryHeapMinIntrusive` and `mg::box::BinaryHeapMaxIntrusive` hold elements whose owner
may change their keys at any time, and then calls `Update` or `UpdateTop` when the element is in
the heap. An element is pushed when it is not in the heap, and removed or updated when it is.

The history variables are the multisets of the elements which were pushed and removed.

Source: `src/mg/box/BinaryHeap.h`.

## Main definitions

* `IntrusiveHeap.isLeftAbove`: `BinaryHeapMethodMinPtrIsLeftAbove` and
  `BinaryHeapMethodMaxPtrIsLeftAbove`.
* `IntrusiveHeap.machine`: any sequence of operations on any elements with any keys.

## Main results

* `IntrusiveHeap.run_ordered`: the heap is well formed after every operation, and it holds exactly
  the elements which were pushed and not removed.
-/

namespace Serverbox

namespace BinaryHeap

variable {T : Type*} [DecidableEq T] (above : T → T → Bool)

/-- `UpdateTop`. -/
def updateTop (h : BinaryHeap T) : BinaryHeap T := (updateDown above h 0).1

/-- `Update`, with the truth value of its assertions. -/
def updateValue (h : BinaryHeap T) (x : T) : BinaryHeap T × Bool :=
  let i := (h.index x).toNat
  (update above h i, decide (0 ≤ h.index x) && h.data[i]? == some x)

variable {above} {above' : T → T → Bool} {h : BinaryHeap T} {i : ℕ} {x : T}

omit [DecidableEq T] in
/-- The key of one element was changed. -/
theorem Wf.loose (h' : h.Wf above)
    (htrans : ∀ ⦃a b c⦄, above a b = true → above b c = true → above a c = true)
    (hx : h.data[i]? = some x) (hagree : ∀ a b, a ≠ x → b ≠ x → above' a b = above a b) :
    HeapOrder.Loose (fun a b => above' a b = true) (fun k : ℕ => h.data[k]?) i := by
  have hloose := h'.ordered.loose htrans (i := i) (g := fun k : ℕ => h.data[k]?)
    (Option.isSome_iff_exists.mpr ⟨x, hx⟩) fun _ _ _ hb => hb
  have hne : ∀ k a, k ≠ i → h.data[k]? = some a → a ≠ x := fun k a hk ha he =>
    hk (eq_of_getElem? h'.indexed.nodup (he ▸ ha) hx)
  refine ⟨fun k a b hk hki hpi ha hb => ?_, fun k a b hi hk hki ha hb => ?_⟩
  · rw [hagree a b (hne _ a hpi ha) (hne k b hki hb)]
    exact hloose.other k a b hk hki hpi ha hb
  · rw [hagree a b (hne _ a (by omega) ha) (hne k b (by omega) hb)]
    exact hloose.around k a b hi hk hki ha hb

variable (htrans : ∀ ⦃a b c⦄, above' a b = true → above' b c = true → above' a c = true)
  (htotal : ∀ a b, above' a b = false → above' b a = true)

include htrans htotal

/-- `Update` of an element whose key was changed. -/
theorem Wf.updateValue (h' : h.Wf above)
    (htrans₀ : ∀ ⦃a b c⦄, above a b = true → above b c = true → above a c = true)
    (hx : x ∈ h.data) (hagree : ∀ a b, a ≠ x → b ≠ x → above' a b = above a b) :
    (BinaryHeap.updateValue above' h x).1.Wf above' ∧
      (BinaryHeap.updateValue above' h x).1.data.Perm h.data ∧
      (BinaryHeap.updateValue above' h x).2 = true := by
  obtain ⟨i, hi⟩ := List.getElem?_of_mem hx
  have hindex := h'.indexed.index_eq i x hi
  obtain ⟨hlt, -⟩ := List.getElem?_eq_some_iff.mp hi
  obtain ⟨hwf, hperm⟩ := update_spec htrans htotal h'.indexed (h'.loose htrans₀ hi hagree) hlt
  unfold BinaryHeap.updateValue
  simp only [hindex, Int.toNat_natCast, hi]
  exact ⟨hwf, hperm, by simp⟩

/-- `UpdateTop` of the top whose key was changed. -/
theorem Wf.updateTop (h' : h.Wf above)
    (htrans₀ : ∀ ⦃a b c⦄, above a b = true → above b c = true → above a c = true)
    (hx : h.top = some x) (hagree : ∀ a b, a ≠ x → b ≠ x → above' a b = above a b) :
    (BinaryHeap.updateTop above' h).Wf above' ∧
      (BinaryHeap.updateTop above' h).data.Perm h.data := by
  have hi : h.data[0]? = some x := by rwa [top, List.head?_eq_getElem?] at hx
  obtain ⟨hlt, -⟩ := List.getElem?_eq_some_iff.mp hi
  exact updateDown_spec htrans htotal h'.indexed
    ((h'.loose htrans₀ hi hagree).down fun _ _ h₀ => absurd h₀ (Nat.lt_irrefl 0)) hlt

end BinaryHeap

namespace IntrusiveHeap

/-- The two orderings of a heap. -/
inductive Kind
  | min
  | max

variable {T κ : Type*} [LinearOrder κ]

/-- `IsLeftAbove` of the elements with the given keys. -/
def isLeftAbove (kind : Kind) (left right : κ) : Bool :=
  match kind with
  | .min => decide (left ≤ right)
  | .max => decide (left ≥ right)

theorem isLeftAbove_trans (kind : Kind) {a b c : κ} (h₁ : isLeftAbove kind a b = true)
    (h₂ : isLeftAbove kind b c = true) : isLeftAbove kind a c = true := by
  cases kind <;> simp only [isLeftAbove, decide_eq_true_eq] at *
  · exact h₁.trans h₂
  · exact le_trans h₂ h₁

theorem isLeftAbove_total (kind : Kind) {a b : κ} (h : isLeftAbove kind a b = false) :
    isLeftAbove kind b a = true := by
  cases kind <;> simp only [isLeftAbove, decide_eq_false_iff_not, decide_eq_true_eq] at *
  · exact (not_le.mp h).le
  · exact (not_le.mp h).le

/-- The heap, the keys of all the elements, whether an assertion has failed, and the history. -/
structure State (T κ : Type*) where
  heap : BinaryHeap T
  key : T → κ
  failed : Bool
  pushed : Multiset T
  removed : Multiset T

/-- The operations. A key may change at any time, and in the heap together with an update. -/
inductive Action (T κ : Type*)
  | setKey (x : T) (k : κ)
  | push (x : T)
  | removeTop
  | remove (x : T)
  | update (x : T) (k : κ)
  | updateTop (k : κ)
  | reserve (count : ℕ)

/-- The order of the elements. -/
def State.above (kind : Kind) (s : State T κ) (x y : T) : Bool :=
  isLeftAbove kind (s.key x) (s.key y)

variable [DecidableEq T]

/-- One operation; not enabled when its caller breaks the contract. -/
def step (kind : Kind) (s : State T κ) : Action T κ → Option (State T κ)
  | .setKey x k => if x ∈ s.heap.data then none else
    some { s with key := Function.update s.key x k }
  | .push x => if x ∈ s.heap.data then none else
    some { s with heap := s.heap.push (s.above kind) x, pushed := x ::ₘ s.pushed }
  | .removeTop => some { s with
      heap := (s.heap.removeTop (s.above kind)).1
      removed := match s.heap.top with
        | none => s.removed
        | some x => x ::ₘ s.removed }
  | .remove x => if x ∈ s.heap.data then
      some { s with
        heap := (s.heap.remove (s.above kind) x).1
        failed := s.failed || !(s.heap.remove (s.above kind) x).2
        removed := x ::ₘ s.removed }
    else none
  | .update x k => if x ∈ s.heap.data then
      let s' := { s with key := Function.update s.key x k }
      some { s' with
        heap := (s.heap.updateValue (s'.above kind) x).1
        failed := s.failed || !(s.heap.updateValue (s'.above kind) x).2 }
    else none
  | .updateTop k =>
    match s.heap.top with
    | none => some { s with heap := s.heap.updateTop (s.above kind) }
    | some x =>
      let s' := { s with key := Function.update s.key x k }
      some { s' with heap := s.heap.updateTop (s'.above kind) }
  | .reserve _ => some s

/-- Any operations on an empty heap and elements with any keys. -/
def machine (kind : Kind) : Machine (State T κ) (Action T κ) where
  init s := ∃ key, s = ⟨.new, key, false, 0, 0⟩
  step := step kind

/-- What holds after every operation. -/
structure Inv (kind : Kind) (s : State T κ) : Prop where
  wf : s.heap.Wf (s.above kind)
  stored : (s.heap.data : Multiset T) + s.removed = s.pushed
  failed : s.failed = false

variable {kind : Kind} {s s' : State T κ}

omit [DecidableEq T] in
theorem above_trans (s : State T κ) ⦃a b c : T⦄ (h₁ : s.above kind a b = true)
    (h₂ : s.above kind b c = true) : s.above kind a c = true :=
  isLeftAbove_trans kind h₁ h₂

omit [DecidableEq T] in
theorem above_total (s : State T κ) (a b : T) (h : s.above kind a b = false) :
    s.above kind b a = true :=
  isLeftAbove_total kind h

/-- Changing a key changes nothing about the other elements. -/
theorem above_update (s : State T κ) {x : T} {k : κ} (a b : T) (ha : a ≠ x) (hb : b ≠ x) :
    ({ s with key := Function.update s.key x k } : State T κ).above kind a b =
      s.above kind a b := by
  simp only [State.above, Function.update_of_ne ha, Function.update_of_ne hb]

/-- Every operation keeps the invariant. -/
theorem Inv.step (h : Inv kind s) {a : Action T κ} (hs : step kind s a = some s') :
    Inv kind s' := by
  cases a with
  | setKey x k =>
    simp only [IntrusiveHeap.step, Option.ite_none_left_eq_some, Option.some.injEq] at hs
    obtain ⟨hx, rfl⟩ := hs
    refine ⟨⟨h.wf.indexed, fun n a b hn ha hb => ?_⟩, h.stored, h.failed⟩
    have ha' : a ≠ x := fun he => hx (he ▸ List.mem_of_getElem? ha)
    have hb' : b ≠ x := fun he => hx (he ▸ List.mem_of_getElem? hb)
    exact (above_update s a b ha' hb').trans (h.wf.ordered n a b hn ha hb)
  | push x =>
    simp only [IntrusiveHeap.step, Option.ite_none_left_eq_some, Option.some.injEq] at hs
    obtain ⟨hx, rfl⟩ := hs
    obtain ⟨hwf, hperm⟩ := h.wf.push (above_trans s) (above_total s) hx
    refine ⟨hwf, ?_, h.failed⟩
    rw [Multiset.coe_eq_coe.mpr hperm, ← Multiset.cons_coe, Multiset.cons_add, h.stored]
  | removeTop =>
    cases hs
    cases htop : s.heap.top with
    | none =>
      have hnil : s.heap.data[0]? = none := by rwa [BinaryHeap.top, List.head?_eq_getElem?] at htop
      have heq : (s.heap.removeTop (s.above kind)).1 = s.heap := by
        simp only [BinaryHeap.removeTop, hnil]
      simp only [heq]
      exact ⟨h.wf, h.stored, h.failed⟩
    | some x =>
      obtain ⟨hwf, hperm⟩ := h.wf.removeTop (above_trans s) (above_total s) htop
      refine ⟨hwf, ?_, h.failed⟩
      dsimp only
      rw [Multiset.add_cons, ← Multiset.cons_add, Multiset.cons_coe, Multiset.coe_eq_coe.mpr hperm,
        h.stored]
  | remove x =>
    simp only [IntrusiveHeap.step, Option.ite_none_right_eq_some, Option.some.injEq] at hs
    obtain ⟨hx, rfl⟩ := hs
    obtain ⟨hwf, hperm, hassert⟩ := h.wf.remove (above_trans s) (above_total s) hx
    refine ⟨hwf, ?_, by simp [h.failed, hassert]⟩
    dsimp only
    rw [Multiset.add_cons, ← Multiset.cons_add, Multiset.cons_coe, Multiset.coe_eq_coe.mpr hperm,
      h.stored]
  | update x k =>
    simp only [IntrusiveHeap.step, Option.ite_none_right_eq_some, Option.some.injEq] at hs
    obtain ⟨hx, rfl⟩ := hs
    obtain ⟨hwf, hperm, hassert⟩ := h.wf.updateValue
      (above_trans { s with key := Function.update s.key x k })
      (above_total { s with key := Function.update s.key x k }) (above_trans s) hx (above_update s)
    refine ⟨hwf, ?_, Bool.or_eq_false_iff.mpr ⟨h.failed, congrArg not hassert⟩⟩
    rw [Multiset.coe_eq_coe.mpr hperm, h.stored]
  | updateTop k =>
    simp only [IntrusiveHeap.step] at hs
    split at hs
    · rename_i htop
      cases hs
      have hnil : s.heap.data = [] := by rwa [BinaryHeap.top, List.head?_eq_none_iff] at htop
      have heq : s.heap.updateTop (s.above kind) = s.heap := by
        simp [BinaryHeap.updateTop, BinaryHeap.updateDown, BinaryHeap.topChild, hnil]
      simp only [heq]
      exact h
    · rename_i x htop
      cases hs
      obtain ⟨hwf, hperm⟩ := h.wf.updateTop
        (above_trans { s with key := Function.update s.key x k })
        (above_total { s with key := Function.update s.key x k }) (above_trans s) htop
        (above_update s)
      refine ⟨hwf, ?_, h.failed⟩
      rw [Multiset.coe_eq_coe.mpr hperm, h.stored]
  | reserve count =>
    cases hs
    exact h

/-- The invariant holds after every sequence of operations. -/
theorem inv (h : (machine kind).Reachable s) : Inv kind s := by
  refine Machine.invariant (fun s hinit => ?_) (fun s a s' hinv hs => hinv.step hs) h
  obtain ⟨key, rfl⟩ := hinit
  exact ⟨.new _, rfl, rfl⟩

/-- **The heap after every operation.** For every sequence of operations on any elements with any
keys, equal ones included: every element is above its children, an element at a position stores
its index and an element outside of the heap stores -1, the heap holds exactly the elements which
were pushed less those which were removed, its top is above all of them, and no assertion fails. -/
theorem run_ordered (h : (machine kind).Reachable s) :
    (∀ k a b, 0 < k → s.heap.data[(k - 1) / 2]? = some a → s.heap.data[k]? = some b →
      isLeftAbove kind (s.key a) (s.key b) = true) ∧
    (∀ (i : ℕ) x, s.heap.data[i]? = some x → s.heap.index x = i) ∧
    (∀ x ∉ s.heap.data, s.heap.index x = -1) ∧
    s.removed ≤ s.pushed ∧ (s.heap.data : Multiset T) = s.pushed - s.removed ∧
    (∀ x, s.heap.top = some x → ∀ y ∈ s.heap.data,
      isLeftAbove kind (s.key x) (s.key y) = true) ∧
    s.failed = false := by
  have hinv := inv h
  refine ⟨hinv.wf.ordered, hinv.wf.indexed.index_eq, hinv.wf.indexed.index_neg, ?_, ?_,
    fun x hx y hy => hinv.wf.top_above (above_trans s) (above_total s) hx hy, hinv.failed⟩
  · rw [← hinv.stored]
    exact Multiset.le_add_left _ _
  · rw [← hinv.stored, Multiset.add_sub_cancel_right]

/-- Five elements, one of which is updated, one removed, and one popped. -/
def sampleRun : List (Action ℕ ℕ) :=
  [.push 5, .push 4, .push 3, .push 2, .push 1, .update 3 0, .remove 1, .updateTop 5, .removeTop]

/-- The heap after that run. -/
theorem run_ordered_sample :
    ∃ s, (machine .min).run ⟨.new, id, false, 0, 0⟩ sampleRun = some s ∧
      s.heap.data = [4, 5, 3] ∧ s.heap.top = some 4 ∧
      (∀ k a b, 0 < k → s.heap.data[(k - 1) / 2]? = some a → s.heap.data[k]? = some b →
        s.key a ≤ s.key b) ∧ (∀ y ∈ s.heap.data, s.key 4 ≤ s.key y) ∧
      ∀ x ∉ s.heap.data, s.heap.index x = -1 := by
  have hrun : ((machine (T := ℕ) (κ := ℕ) .min).run ⟨.new, id, false, 0, 0⟩
      sampleRun).map (fun s => (s.heap.data, s.heap.top)) = some ([4, 5, 3], some 4) := by
    decide +kernel
  obtain ⟨s, hs, hdata⟩ := Option.map_eq_some_iff.mp hrun
  obtain ⟨hdata, htop⟩ := Prod.mk.inj hdata
  obtain ⟨hordered, -, hindex, -, -, habove, -⟩ := run_ordered (.of_run (.init ⟨id, rfl⟩) hs)
  refine ⟨s, hs, hdata, htop, fun k a b hk ha hb => ?_, fun y hy => ?_, hindex⟩
  · simpa [isLeftAbove] using hordered k a b hk ha hb
  · simpa [isLeftAbove] using habove 4 htop y hy

end IntrusiveHeap

end Serverbox
