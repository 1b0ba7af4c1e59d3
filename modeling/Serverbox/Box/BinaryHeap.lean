import Mathlib.Data.Int.Notation
import Mathlib.Data.List.Nodup
import Mathlib.Data.List.Perm.Basic
import Serverbox.Lib.HeapOrder

/-!
# The intrusive binary heap

`mg::box::BinaryHeap` in its intrusive form keeps pointers in a vector which is a complete binary
tree, and in each element its index in the tree, or -1 outside of the heap. An element out of its
place is moved out of the tree into a temporary, and the others are shifted into the hole until
its place is found.

Source: `src/mg/box/BinaryHeap.h`.

## Main definitions

* `BinaryHeap`: the vector and the indexes.
* `BinaryHeap.updateUp`, `BinaryHeap.updateDown`, `BinaryHeap.update`: `PrivUpdateUp`,
  `PrivUpdateDown`, `PrivUpdate`.
* `BinaryHeap.push`, `BinaryHeap.removeTop`, `BinaryHeap.remove`: the operations.
* `BinaryHeap.Wf`: the indexes are right and the tree is ordered.

## Main results

* `BinaryHeap.Wf.push`, `BinaryHeap.Wf.removeTop`, `BinaryHeap.Wf.remove`: the operations.
* `BinaryHeap.Wf.top_above`: the root is above all the elements.
-/

namespace Serverbox

/-- `BinaryHeap` with `BinaryHeapMethodPtrIndexEnabled`: the vector of the elements and the index
which each element stores. -/
structure BinaryHeap (T : Type*) where
  data : List T
  index : T → ℤ

namespace BinaryHeap

variable {T : Type*}

/-- A heap without elements. -/
def new : BinaryHeap T := ⟨[], fun _ => -1⟩

/-- `GetTop`, `none` when there is no top. -/
def top (h : BinaryHeap T) : Option T := h.data.head?

/-- `Count`. -/
def count (h : BinaryHeap T) : ℕ := h.data.length

/-- `PrivParentIndex`. -/
def parentIndex (i : ℕ) : ℕ := (i - 1) / 2

/-- `PrivLeftChildIndex`. -/
def leftChildIndex (i : ℕ) : ℕ := 2 * i + 1

variable [DecidableEq T]

/-- `Methods::SetIndex`. -/
def setIndex (h : BinaryHeap T) (x : T) (i : ℤ) : BinaryHeap T :=
  { h with index := Function.update h.index x i }

/-- An element is stored in the tree together with its index. -/
def put (h : BinaryHeap T) (i : ℕ) (x : T) : BinaryHeap T :=
  { h with data := h.data.set i x }.setIndex x i

variable (above : T → T → Bool)

/-- The loop of `PrivUpdateUp`, from its condition on; the last argument bounds the number of its
rounds. -/
def updateUpLoop (tmp : T) (h : BinaryHeap T) (i : ℕ) : ℕ → BinaryHeap T
  | 0 => h.put i tmp
  | fuel + 1 =>
    if i = 0 then h.put i tmp
    else
      match h.data[parentIndex i]? with
      | some p =>
        if above tmp p then updateUpLoop tmp (h.put i p) (parentIndex i) fuel else h.put i tmp
      | none => h.put i tmp

/-- `PrivUpdateUp`. -/
def updateUp (h : BinaryHeap T) (i : ℕ) : BinaryHeap T × Bool :=
  if i = 0 then (h, false)
  else
    match h.data[parentIndex i]?, h.data[i]? with
    | some p, some x =>
      if above p x then (h, false)
      else (updateUpLoop above x (h.put i p) (parentIndex i) (parentIndex i), true)
    | _, _ => (h, false)

omit [DecidableEq T] in
/-- The child which `PrivUpdateDown` compares with the element, if there are any. -/
def topChild (h : BinaryHeap T) (i : ℕ) : Option ℕ :=
  let leftChild := leftChildIndex i
  match h.data[leftChild]?, h.data[leftChild + 1]? with
  | none, _ => none
  | some _, none => some leftChild
  | some l, some r => if above l r then some leftChild else some (leftChild + 1)

/-- The loop of `PrivUpdateDown`, from the choice of the child on; the last argument bounds the
number of its rounds. -/
def updateDownLoop (tmp : T) (h : BinaryHeap T) (i : ℕ) : ℕ → BinaryHeap T
  | 0 => h.put i tmp
  | fuel + 1 =>
    match topChild above h i with
    | none => h.put i tmp
    | some c =>
      match h.data[c]? with
      | some y => if above y tmp then updateDownLoop tmp (h.put i y) c fuel else h.put i tmp
      | none => h.put i tmp

/-- `PrivUpdateDown`. -/
def updateDown (h : BinaryHeap T) (i : ℕ) : BinaryHeap T × Bool :=
  match topChild above h i with
  | none => (h, false)
  | some c =>
    match h.data[i]?, h.data[c]? with
    | some x, some y =>
      if above x y then (h, false)
      else (updateDownLoop above x (h.put i y) c (h.count - c), true)
    | _, _ => (h, false)

/-- `PrivUpdate`. -/
def update (h : BinaryHeap T) (i : ℕ) : BinaryHeap T :=
  let r := updateUp above h i
  if r.2 then r.1 else (updateDown above r.1 i).1

/-- `Push`. -/
def push (h : BinaryHeap T) (x : T) : BinaryHeap T :=
  let i := h.count
  (updateUp above ({ h with data := h.data ++ [x] }.setIndex x i) i).1

omit above in
/-- The element at an index is removed, and the last one takes its place; `none` when it is the
last one itself. -/
def takeOut (h : BinaryHeap T) (i : ℕ) (x : T) : BinaryHeap T × Bool :=
  let h := h.setIndex x (-1)
  match h.data[h.count - 1]? with
  | none => (h, false)
  | some y =>
    if i + 1 = h.count then ({ h with data := h.data.dropLast }, false)
    else
      let h := h.put i y
      ({ h with data := h.data.dropLast }, true)

/-- `RemoveTop`. -/
def removeTop (h : BinaryHeap T) : BinaryHeap T × Bool :=
  match h.data[0]? with
  | none => (h, false)
  | some x =>
    let r := h.takeOut 0 x
    (if r.2 then (updateDown above r.1 0).1 else r.1, true)

/-- `Remove`, with the truth value of its assertions. -/
def remove (h : BinaryHeap T) (x : T) : BinaryHeap T × Bool :=
  let i := (h.index x).toNat
  let r := h.takeOut i x
  (if r.2 then update above r.1 i else r.1,
    decide (0 ≤ h.index x) && h.data[i]? == some x)

/-- The elements are different, and each of them stores its index. -/
structure Indexed (h : BinaryHeap T) : Prop where
  nodup : h.data.Nodup
  index_eq : ∀ (i : ℕ) x, h.data[i]? = some x → h.index x = i
  index_neg : ∀ x ∉ h.data, h.index x = -1

/-- A well-formed heap. -/
structure Wf (h : BinaryHeap T) : Prop where
  indexed : h.Indexed
  ordered : HeapOrder.Ordered (fun a b => above a b = true) fun i : ℕ => h.data[i]?

/-- The element `tmp` was moved out of the tree, which has a hole at the index `i`. -/
structure Holed (h : BinaryHeap T) (i : ℕ) (tmp : T) : Prop where
  lt : i < h.data.length
  nodup : (h.data.set i tmp).Nodup
  index_eq : ∀ (k : ℕ) x, k ≠ i → h.data[k]? = some x → h.index x = k
  index_neg : ∀ x ∉ h.data.set i tmp, h.index x = -1

omit above in
/-- The tree with its hole filled. -/
def filled (h : BinaryHeap T) (i : ℕ) (tmp : T) : ℕ → Option T := fun k => (h.data.set i tmp)[k]?

section Hole

variable {h : BinaryHeap T} {i j : ℕ} {tmp p x : T}

omit [DecidableEq T] in
theorem filled_of_ne {k : ℕ} (hk : k ≠ i) : h.filled i tmp k = h.data[k]? := by
  rw [filled, List.getElem?_set_ne hk.symm]

omit [DecidableEq T] in
theorem filled_self (hi : i < h.data.length) : h.filled i tmp i = some tmp := by
  rw [filled, List.getElem?_set_self hi]

theorem Indexed.index_nonneg_iff (h' : h.Indexed) : 0 ≤ h.index x ↔ x ∈ h.data := by
  constructor
  · intro hx
    by_contra hmem
    rw [h'.index_neg x hmem] at hx
    omega
  · intro hx
    obtain ⟨k, hk⟩ := List.getElem?_of_mem hx
    rw [h'.index_eq k x hk]
    omega

omit [DecidableEq T] in
theorem eq_of_getElem? {l : List T} (hl : l.Nodup) {k k' : ℕ} (hk : l[k]? = some x)
    (hk' : l[k']? = some x) : k = k' := by
  obtain ⟨h₁, he⟩ := List.getElem?_eq_some_iff.mp hk
  obtain ⟨h₂, he'⟩ := List.getElem?_eq_some_iff.mp hk'
  exact (List.Nodup.getElem_inj_iff hl).mp (he.trans he'.symm)

omit [DecidableEq T] in
/-- An element of the tree is moved out. -/
theorem Indexed.holed (h' : h.Indexed) (hx : h.data[i]? = some x) :
    h.Holed i x ∧ h.data.set i x = h.data := by
  obtain ⟨hi, he⟩ := List.getElem?_eq_some_iff.mp hx
  have hset : h.data.set i x = h.data := by rw [← he, List.set_getElem_self]
  refine ⟨⟨hi, ?_, fun k y _ hy => h'.index_eq k y hy, ?_⟩, hset⟩
  · rw [hset]
    exact h'.nodup
  · rw [hset]
    exact h'.index_neg

/-- The element is stored in the hole. -/
theorem Holed.put (h' : h.Holed i tmp) : (h.put i tmp).Indexed where
  nodup := h'.nodup
  index_eq k y hy := by
    have hy' : h.filled i tmp k = some y := hy
    show Function.update h.index tmp (i : ℤ) y = k
    rcases eq_or_ne k i with rfl | hk
    · rw [filled_self h'.lt, Option.some.injEq] at hy'
      rw [hy', Function.update_self]
    · have hne : y ≠ tmp := fun he =>
        hk (eq_of_getElem? h'.nodup (he ▸ hy) (filled_self h'.lt))
      rw [filled_of_ne hk] at hy'
      rw [Function.update_of_ne hne, h'.index_eq k y hk hy']
  index_neg y hy := by
    have hne : y ≠ tmp := fun he => hy (he ▸ List.mem_of_getElem? (filled_self h'.lt))
    show Function.update h.index tmp (i : ℤ) y = -1
    rw [Function.update_of_ne hne, h'.index_neg y hy]

omit [DecidableEq T] in
/-- A round of a loop exchanges the temporary with an element of the tree. -/
theorem set_set_perm (hi : i < h.data.length) (hj : h.data[j]? = some p) (hne : j ≠ i) :
    ((h.data.set i p).set j tmp).Perm (h.data.set i tmp) := by
  obtain ⟨hj', he⟩ := List.getElem?_eq_some_iff.mp hj
  have hi' : i < (h.data.set i tmp).length := by simpa
  have := List.set_set_perm hi' (by simpa : j < (h.data.set i tmp).length)
  simpa [List.getElem_set, hne.symm, he] using this

/-- A round of a loop: an element of the tree is moved into the hole, and leaves one. -/
theorem Holed.shift (h' : h.Holed i tmp) (hj : h.data[j]? = some p) (hne : j ≠ i) :
    (h.put i p).Holed j tmp := by
  have hperm : ((h.data.set i p).set j tmp).Perm (h.data.set i tmp) :=
    set_set_perm h'.lt hj hne
  have hp : h.filled i tmp j = some p := by rw [filled_of_ne hne, hj]
  refine ⟨?_, hperm.nodup_iff.mpr h'.nodup, fun k y hk hy => ?_, fun y hy => ?_⟩
  · obtain ⟨hj', -⟩ := List.getElem?_eq_some_iff.mp hj
    simpa [BinaryHeap.put, setIndex] using hj'
  · have hy' : h.filled i p k = some y := hy
    show Function.update h.index p (i : ℤ) y = k
    rcases eq_or_ne k i with rfl | hki
    · rw [filled_self h'.lt, Option.some.injEq] at hy'
      rw [hy', Function.update_self]
    · rw [filled_of_ne hki] at hy'
      have hyp : y ≠ p := fun he =>
        hk (eq_of_getElem? h'.nodup ((filled_of_ne hki).trans (he ▸ hy')) hp)
      rw [Function.update_of_ne hyp, h'.index_eq k y hki hy']
  · have hy' : y ∉ h.data.set i tmp := fun hm => hy (hperm.mem_iff.mpr hm)
    have hyp : y ≠ p := fun he => hy' (he ▸ List.mem_of_getElem? hp)
    show Function.update h.index p (i : ℤ) y = -1
    rw [Function.update_of_ne hyp, h'.index_neg y hy']

theorem Holed.filled_shift (h' : h.Holed i tmp) (hj : h.data[j]? = some p) (hne : j ≠ i) :
    (h.put i p).filled j tmp = HeapOrder.exchange (h.filled i tmp) i j tmp p := by
  funext k
  have hj' : j < (h.put i p).data.length := (h'.shift hj hne).lt
  show (h.put i p).filled j tmp k = if k = j then some tmp else if k = i then some p
    else h.filled i tmp k
  rcases eq_or_ne k j with rfl | hk
  · rw [if_pos rfl, filled_self hj']
  · rw [if_neg hk, filled_of_ne hk]
    show h.filled i p k = _
    rcases eq_or_ne k i with rfl | hki
    · rw [if_pos rfl, filled_self h'.lt]
    · rw [if_neg hki, filled_of_ne hki, filled_of_ne hki]

end Hole

section Sift

variable {above} (htrans : ∀ ⦃a b c⦄, above a b = true → above b c = true → above a c = true)
  (htotal : ∀ a b, above a b = false → above b a = true)
  {h : BinaryHeap T} {i : ℕ} {tmp : T}

include htrans htotal

theorem updateUpLoop_spec (h' : h.Holed i tmp)
    (hup : HeapOrder.Up (fun a b => above a b = true) (h.filled i tmp) i) {fuel : ℕ}
    (hf : i ≤ fuel) : (updateUpLoop above tmp h i fuel).Wf above ∧
      (updateUpLoop above tmp h i fuel).data.Perm (h.data.set i tmp) := by
  induction fuel generalizing h i with
  | zero =>
    obtain rfl : i = 0 := by omega
    exact ⟨⟨h'.put, hup.ordered fun _ _ hi => absurd hi (Nat.lt_irrefl 0)⟩, .refl _⟩
  | succ fuel ih =>
    rw [updateUpLoop]
    split
    · rename_i hi
      subst hi
      exact ⟨⟨h'.put, hup.ordered fun _ _ hi => absurd hi (Nat.lt_irrefl 0)⟩, .refl _⟩
    rename_i hi
    have hne : parentIndex i ≠ i := by
      unfold parentIndex
      omega
    split
    · rename_i p hp
      have hp' : h.filled i tmp ((i - 1) / 2) = some p := (filled_of_ne hne).trans hp
      split
      · rename_i habove
        have hlt : parentIndex i ≤ fuel := by
          unfold parentIndex
          omega
        have hex := hup.exchange htrans (by omega) hp' habove
        obtain ⟨hwf, hperm⟩ := ih (h'.shift hp hne) ((h'.filled_shift hp hne).symm ▸ hex) hlt
        exact ⟨hwf, hperm.trans (set_set_perm h'.lt hp hne)⟩
      · rename_i habove
        refine ⟨⟨h'.put, hup.ordered fun a b _ ha hb => ?_⟩, .refl _⟩
        rw [filled_self h'.lt, Option.some.injEq] at hb
        obtain rfl : p = a := Option.some.inj (hp'.symm.trans ha)
        exact hb ▸ htotal _ _ (Bool.eq_false_iff.mpr habove)
    · rename_i hp
      refine ⟨⟨h'.put, hup.ordered fun a b _ ha _ => ?_⟩, .refl _⟩
      cases ((filled_of_ne hne).trans hp).symm.trans ha

/-- `PrivUpdateUp` leaves an element below its parent, or finds the place of one above it. -/
theorem updateUp_spec (h' : h.Indexed)
    (hup : ∀ p x, 0 < i → h.data[(i - 1) / 2]? = some p → h.data[i]? = some x →
      above x p = true → HeapOrder.Up (fun a b => above a b = true) (fun k => h.data[k]?) i) :
    (updateUp above h i = (h, false) ∧
      ∀ a b, 0 < i → h.data[(i - 1) / 2]? = some a → h.data[i]? = some b → above a b = true) ∨
    ((updateUp above h i).2 = true ∧ (updateUp above h i).1.Wf above ∧
      (updateUp above h i).1.data.Perm h.data) := by
  unfold updateUp
  split
  · rename_i hi
    exact .inl ⟨rfl, fun _ _ hi' => by omega⟩
  rename_i hi
  split
  · rename_i p x hp hx
    split
    · rename_i habove
      refine .inl ⟨rfl, fun a b _ ha hb => ?_⟩
      obtain rfl : p = a := Option.some.inj (hp.symm.trans ha)
      obtain rfl : x = b := Option.some.inj (hx.symm.trans hb)
      exact habove
    · rename_i habove
      have hxp := htotal _ _ (Bool.eq_false_iff.mpr habove)
      have hne : parentIndex i ≠ i := by
        unfold parentIndex
        omega
      obtain ⟨hh, hset⟩ := h'.holed hx
      have hu := hup p x (by omega) hp hx hxp
      have hfilled : h.filled i x = fun k => h.data[k]? := by
        unfold filled
        rw [hset]
      rw [← hfilled] at hu
      have hex := hu.exchange htrans (by omega) ((filled_of_ne hne).trans hp) hxp
      rw [← show parentIndex i = (i - 1) / 2 from rfl, ← hh.filled_shift hp hne] at hex
      obtain ⟨hwf, hperm⟩ := updateUpLoop_spec htrans htotal (hh.shift hp hne) hex (Nat.le_refl _)
      exact .inr ⟨rfl, hwf, hset ▸ hperm.trans (set_set_perm hh.lt hp hne)⟩
  · rename_i hnone
    refine .inl ⟨rfl, fun a b _ ha hb => ?_⟩
    exact absurd hb (hnone a b ha)

omit htrans [DecidableEq T] in
theorem above_self (a : T) : above a a = true := by
  by_contra hne
  exact hne (htotal a a (Bool.eq_false_iff.mpr hne))

omit htrans [DecidableEq T] in
/-- The child which `PrivUpdateDown` compares with the element is above all of its children. -/
theorem topChild_spec :
    (topChild above h i = none ∧ ∀ k, 0 < k → (k - 1) / 2 = i → h.data[k]? = none) ∨
    ∃ c y, topChild above h i = some c ∧ 0 < c ∧ (c - 1) / 2 = i ∧ h.data[c]? = some y ∧
      ∀ k b, 0 < k → (k - 1) / 2 = i → h.data[k]? = some b → above y b = true := by
  have hchild : ∀ k, 0 < k → (k - 1) / 2 = i → k = leftChildIndex i ∨ k = leftChildIndex i + 1 := by
    unfold leftChildIndex
    omega
  have hleft : 0 < leftChildIndex i ∧ (leftChildIndex i - 1) / 2 = i ∧
      (leftChildIndex i + 1 - 1) / 2 = i := by
    unfold leftChildIndex
    omega
  unfold topChild
  cases hl : h.data[leftChildIndex i]? with
  | none =>
    refine .inl ⟨by simp only [hl], fun k hk hki => ?_⟩
    rcases hchild k hk hki with rfl | rfl
    · exact hl
    · rw [List.getElem?_eq_none_iff] at hl ⊢
      omega
  | some l =>
    cases hr : h.data[leftChildIndex i + 1]? with
    | none =>
      refine .inr ⟨leftChildIndex i, l, by simp only [hl, hr], hleft.1, hleft.2.1, hl,
        fun k b hk hki hb => ?_⟩
      rcases hchild k hk hki with rfl | rfl
      · exact Option.some.inj (hl.symm.trans hb) ▸ above_self htotal l
      · cases hr.symm.trans hb
    | some r =>
      by_cases habove : above l r = true
      · refine .inr ⟨leftChildIndex i, l, by simp only [hl, hr, habove, if_true], hleft.1,
          hleft.2.1, hl, fun k b hk hki hb => ?_⟩
        rcases hchild k hk hki with rfl | rfl
        · exact Option.some.inj (hl.symm.trans hb) ▸ above_self htotal l
        · exact Option.some.inj (hr.symm.trans hb) ▸ habove
      · refine .inr ⟨leftChildIndex i + 1, r, by simp only [hl, hr, habove]; rfl, Nat.succ_pos _,
          hleft.2.2, hr, fun k b hk hki hb => ?_⟩
        rcases hchild k hk hki with rfl | rfl
        · exact Option.some.inj (hl.symm.trans hb) ▸ htotal _ _ (Bool.eq_false_iff.mpr habove)
        · exact Option.some.inj (hr.symm.trans hb) ▸ above_self htotal r

theorem updateDownLoop_spec (h' : h.Holed i tmp)
    (hdown : HeapOrder.Down (fun a b => above a b = true) (h.filled i tmp) i) {fuel : ℕ}
    (hf : h.data.length ≤ fuel + i) : (updateDownLoop above tmp h i fuel).Wf above ∧
      (updateDownLoop above tmp h i fuel).data.Perm (h.data.set i tmp) := by
  induction fuel generalizing h i with
  | zero =>
    have := h'.lt
    omega
  | succ fuel ih =>
    have hchild : ∀ k, 0 < k → (k - 1) / 2 = i → h.filled i tmp k = h.data[k]? := fun k hk hki =>
      filled_of_ne (by omega)
    rw [updateDownLoop]
    rcases topChild_spec htotal (h := h) (i := i) with ⟨ht, hnone⟩ | ⟨c, y, ht, hc, hci, hy, htop⟩
    · rw [ht]
      refine ⟨⟨h'.put, hdown.ordered fun k a b hk hki _ hb => ?_⟩, .refl _⟩
      rw [hchild k hk hki, hnone k hk hki] at hb
      cases hb
    have hne : c ≠ i := by omega
    have htop' : ∀ k b, 0 < k → (k - 1) / 2 = i → h.filled i tmp k = some b →
        above y b = true := fun k b hk hki hb => htop k b hk hki (hchild k hk hki ▸ hb)
    simp only [ht, hy]
    split
    · rename_i habove
      have hex := hdown.exchange hc hci ((filled_of_ne hne).trans hy) habove htop'
      rw [← h'.filled_shift hy hne] at hex
      have hlen : (h.put i y).data.length ≤ fuel + c := by
        simp only [BinaryHeap.put, setIndex, List.length_set]
        omega
      obtain ⟨hwf, hperm⟩ := ih (h'.shift hy hne) hex hlen
      exact ⟨hwf, hperm.trans (set_set_perm h'.lt hy hne)⟩
    · rename_i habove
      refine ⟨⟨h'.put, hdown.ordered fun k a b hk hki ha hb => ?_⟩, .refl _⟩
      rw [filled_self h'.lt, Option.some.injEq] at ha
      exact ha ▸ htrans (htotal _ _ (Bool.eq_false_iff.mpr habove)) (htop' k b hk hki hb)

/-- `PrivUpdateDown` finds the place of an element which is below its parent. -/
theorem updateDown_spec (h' : h.Indexed)
    (hdown : HeapOrder.Down (fun a b => above a b = true) (fun k : ℕ => h.data[k]?) i)
    (hi : i < h.data.length) :
    (updateDown above h i).1.Wf above ∧ (updateDown above h i).1.data.Perm h.data := by
  obtain ⟨x, hx⟩ : ∃ x, h.data[i]? = some x := ⟨_, List.getElem?_eq_getElem hi⟩
  unfold updateDown
  rcases topChild_spec htotal (h := h) (i := i) with ⟨ht, hnone⟩ | ⟨c, y, ht, hc, hci, hy, htop⟩
  · simp only [ht]
    refine ⟨⟨h', hdown.ordered fun k a b hk hki _ hb => ?_⟩, .refl _⟩
    cases (hnone k hk hki).symm.trans hb
  simp only [ht, hx, hy]
  split
  · rename_i habove
    refine ⟨⟨h', hdown.ordered fun k a b hk hki ha hb => ?_⟩, .refl _⟩
    obtain rfl : x = a := Option.some.inj (hx.symm.trans ha)
    exact htrans habove (htop k b hk hki hb)
  · rename_i habove
    have hne : c ≠ i := by omega
    obtain ⟨hh, hset⟩ := h'.holed hx
    have hfilled : h.filled i x = fun k => h.data[k]? := by
      unfold filled
      rw [hset]
    rw [← hfilled] at hdown
    have hex := hdown.exchange hc hci ((filled_of_ne hne).trans hy)
      (htotal _ _ (Bool.eq_false_iff.mpr habove)) (fun k b hk hki hb =>
        htop k b hk hki ((filled_of_ne (by omega)).symm.trans hb))
    rw [← hh.filled_shift hy hne] at hex
    have hlen : (h.put i y).data.length ≤ h.count - c + c := by
      simp only [BinaryHeap.put, setIndex, List.length_set, count]
      omega
    obtain ⟨hwf, hperm⟩ := updateDownLoop_spec htrans htotal (hh.shift hy hne) hex hlen
    exact ⟨hwf, hset ▸ hperm.trans (set_set_perm hh.lt hy hne)⟩

/-- `PrivUpdate` finds the place of an element which was replaced. -/
theorem update_spec (h' : h.Indexed)
    (hloose : HeapOrder.Loose (fun a b => above a b = true) (fun k : ℕ => h.data[k]?) i)
    (hi : i < h.data.length) :
    (update above h i).Wf above ∧ (update above h i).data.Perm h.data := by
  unfold update
  rcases updateUp_spec htrans htotal h' (i := i) (fun p x hi' hp hx hxp =>
    hloose.up htrans hx hi' hp hxp) with ⟨he, hparent⟩ | ⟨he, hwf, hperm⟩
  · simp only [he, Bool.false_eq_true, if_false]
    exact updateDown_spec htrans htotal h' (hloose.down hparent) hi
  · simp only [he, if_true]
    exact ⟨hwf, hperm⟩

/-- `Push`. -/
theorem Wf.push (h' : h.Wf above) {x : T} (hx : x ∉ h.data) :
    (BinaryHeap.push above h x).Wf above ∧ (BinaryHeap.push above h x).data.Perm (x :: h.data) := by
  obtain ⟨⟨hnd, hidx, hneg⟩, hord⟩ := h'
  let t : BinaryHeap T := { h with data := h.data ++ [x] }.setIndex x h.count
  have hget : ∀ k y, t.data[k]? = some y → k < h.data.length ∧ h.data[k]? = some y ∨
      k = h.data.length ∧ y = x := fun k y hy => by
    have hy' : (h.data ++ [x])[k]? = some y := hy
    rcases Nat.lt_trichotomy k h.data.length with hlt | rfl | hgt
    · exact .inl ⟨hlt, by rwa [List.getElem?_append_left hlt] at hy'⟩
    · exact .inr ⟨rfl, by simpa [eq_comm] using hy'⟩
    · rw [List.getElem?_eq_none (by simp; omega)] at hy'
      cases hy'
  have ht : t.Indexed := by
    refine ⟨?_, fun k y hy => ?_, fun y hy => ?_⟩
    · exact List.nodup_append.mpr ⟨hnd, by simp, fun a ha b hb he =>
        hx (List.mem_singleton.mp hb ▸ he ▸ ha)⟩
    · show Function.update h.index x _ y = k
      rcases hget k y hy with ⟨-, hy'⟩ | ⟨rfl, rfl⟩
      · have hne : y ≠ x := fun he => hx (he ▸ List.mem_of_getElem? hy')
        rw [Function.update_of_ne hne, hidx k y hy']
      · rw [Function.update_self]
        rfl
    · have hy' : y ∉ h.data ∧ y ≠ x := by simpa [t, setIndex] using hy
      show Function.update h.index x _ y = -1
      rw [Function.update_of_ne hy'.2, hneg y hy'.1]
  have hup : HeapOrder.Up (fun a b => above a b = true) (fun k : ℕ => t.data[k]?) h.count := by
    refine ⟨fun k a b hk hne ha hb => ?_, fun k a b _ hk hki _ hb => ?_⟩
    · rcases hget k b hb with ⟨hlt, hb'⟩ | ⟨hk', -⟩
      · rcases hget _ a ha with ⟨-, ha'⟩ | ⟨hk', -⟩
        · exact hord k a b hk ha' hb'
        · omega
      · exact absurd hk' hne
    · have : h.count = h.data.length := rfl
      rcases hget k b hb with ⟨hlt, -⟩ | ⟨hk', -⟩ <;> omega
  have hperm : t.data.Perm (x :: h.data) := List.perm_append_singleton x h.data
  rcases updateUp_spec htrans htotal ht (i := h.count) (fun _ _ _ _ _ _ => hup) with
    ⟨he, hparent⟩ | ⟨-, hwf, hperm'⟩
  · have he' : BinaryHeap.push above h x = t := congrArg Prod.fst he
    rw [he']
    exact ⟨⟨ht, hup.ordered hparent⟩, hperm⟩
  · exact ⟨hwf, hperm'.trans hperm⟩

omit htrans htotal in
theorem takeOut_last {l : List T} {x y : T} (hl : h.data = l ++ [y]) (hi : i = l.length) :
    h.takeOut i x = (⟨l, Function.update h.index x (-1)⟩, false) := by
  simp [BinaryHeap.takeOut, setIndex, count, hl, hi]

omit htrans htotal in
theorem takeOut_inner {l : List T} {x y : T} (hl : h.data = l ++ [y]) (hi : i < l.length) :
    h.takeOut i x =
      (⟨l.set i y, Function.update (Function.update h.index x (-1)) y i⟩, true) := by
  simp [BinaryHeap.takeOut, BinaryHeap.put, setIndex, count, hl, Nat.ne_of_lt hi,
    List.set_append_left i y hi]

omit htotal in
/-- An element is taken out: the last one of the tree is in its place. -/
theorem Wf.takeOut (h' : h.Wf above) {x : T} (hx : h.data[i]? = some x) :
    (h.takeOut i x).1.Indexed ∧ (x :: (h.takeOut i x).1.data).Perm h.data ∧
    HeapOrder.Loose (fun a b => above a b = true) (fun k : ℕ => (h.takeOut i x).1.data[k]?) i ∧
    ((h.takeOut i x).2 = true → i < (h.takeOut i x).1.data.length) ∧
    ((h.takeOut i x).2 = false →
      HeapOrder.Ordered (fun a b => above a b = true) fun k : ℕ => (h.takeOut i x).1.data[k]?) := by
  obtain ⟨⟨hnd, hidx, hneg⟩, hord⟩ := h'
  obtain ⟨hi, hxe⟩ := List.getElem?_eq_some_iff.mp hx
  obtain ⟨l, y, hl⟩ : ∃ l y, h.data = l ++ [y] := by
    rcases List.eq_nil_or_concat h.data with hnil | ⟨l, y, hl⟩
    · simp [hnil] at hi
    · exact ⟨l, y, by rw [hl, List.concat_eq_append]⟩
  have hlen : h.data.length = l.length + 1 := by rw [hl, List.length_append]; rfl
  have hget : ∀ k z, l[k]? = some z → h.data[k]? = some z := fun k z hz => by
    obtain ⟨hk, -⟩ := List.getElem?_eq_some_iff.mp hz
    rw [hl, List.getElem?_append_left hk, hz]
  have hxi : (h.data[i]?).isSome := by rw [hx]; rfl
  rw [hl, List.nodup_append] at hnd
  by_cases hend : i + 1 = h.data.length
  · have hil : i = l.length := by omega
    have hxy : x = y := by
      rw [hl, hil] at hx
      simpa [eq_comm] using hx
    rw [takeOut_last hl hil]
    refine ⟨⟨hnd.1, fun k z hz => ?_, fun z hz => ?_⟩, ?_, ?_, nofun, fun _ => ?_⟩
    · have hne : z ≠ x := fun he =>
        hnd.2.2 z (List.mem_of_getElem? hz) y (by simp) (he.trans hxy)
      show Function.update h.index x _ z = k
      rw [Function.update_of_ne hne, hidx k z (hget k z hz)]
    · show Function.update h.index x _ z = -1
      rcases eq_or_ne z x with rfl | hne
      · rw [Function.update_self]
      · rw [Function.update_of_ne hne, hneg z]
        rw [hl, hxy] at *
        simp [hz, hne]
    · rw [hl, hxy]
      exact (List.perm_append_singleton y l).symm
    · exact hord.loose htrans hxi fun k z _ hz => hget k z hz
    · exact fun k a b hk ha hb => hord k a b hk (hget _ a ha) (hget k b hb)
  · have hil : i < l.length := by omega
    have hxl : l[i]? = some x := by rwa [hl, List.getElem?_append_left hil] at hx
    rw [takeOut_inner hl hil]
    have hperm : (x :: l.set i y).Perm h.data := by
      have h₁ := List.set_perm_cons_eraseIdx hil y
      have h₂ := List.getElem_cons_eraseIdx_perm hil
      rw [(List.getElem?_eq_some_iff.mp hxl).2] at h₂
      calc (x :: l.set i y).Perm (x :: y :: l.eraseIdx i) := h₁.cons x
        List.Perm _ (y :: x :: l.eraseIdx i) := .swap ..
        List.Perm _ (y :: l) := h₂.cons y
        List.Perm _ h.data := hl ▸ (List.perm_append_singleton y l).symm
    have hnd' : (x :: l.set i y).Nodup := hperm.nodup_iff.mpr (hl ▸ List.nodup_append.mpr hnd)
    have hgetset : ∀ k z, k ≠ i → (l.set i y)[k]? = some z → h.data[k]? = some z :=
      fun k z hne hz => hget k z (by rwa [List.getElem?_set_ne hne.symm] at hz)
    refine ⟨⟨(List.nodup_cons.mp hnd').2, fun k z hz => ?_, fun z hz => ?_⟩, hperm, ?_,
      fun _ => by simpa using hil, nofun⟩
    · have hzx : z ≠ x := fun he =>
        (List.nodup_cons.mp hnd').1 (he ▸ List.mem_of_getElem? hz)
      show Function.update (Function.update h.index x _) y _ z = k
      have hyi : (l.set i y)[i]? = some y := List.getElem?_set_self hil
      rcases eq_or_ne k i with rfl | hne
      · obtain rfl : y = z := Option.some.inj (hyi.symm.trans hz)
        rw [Function.update_self]
      · have hzy : z ≠ y := fun he =>
          hne (eq_of_getElem? (List.nodup_cons.mp hnd').2 (he ▸ hz) hyi)
        rw [Function.update_of_ne hzy, Function.update_of_ne hzx, hidx k z (hgetset k z hne hz)]
    · show Function.update (Function.update h.index x _) y _ z = -1
      have hzy : z ≠ y := fun he =>
        hz (he ▸ List.mem_of_getElem? (List.getElem?_set_self hil))
      rw [Function.update_of_ne hzy]
      rcases eq_or_ne z x with rfl | hzx
      · rw [Function.update_self]
      · rw [Function.update_of_ne hzx, hneg z fun hm => ?_]
        rcases List.mem_cons.mp (hperm.mem_iff.mpr hm) with he | hm'
        · exact hzx he
        · exact hz hm'
    · exact hord.loose htrans hxi hgetset

/-- `RemoveTop`. -/
theorem Wf.removeTop (h' : h.Wf above) {x : T} (hx : h.top = some x) :
    (BinaryHeap.removeTop above h).1.Wf above ∧
      (x :: (BinaryHeap.removeTop above h).1.data).Perm h.data := by
  have hx' : h.data[0]? = some x := by rwa [top, ← List.head?_eq_getElem?] at *
  obtain ⟨hidx, hperm, hloose, htrue, hfalse⟩ := h'.takeOut htrans hx'
  unfold BinaryHeap.removeTop
  simp only [hx']
  cases hr : (h.takeOut 0 x).2 with
  | false =>
    simp only [Bool.false_eq_true, if_false]
    exact ⟨⟨hidx, hfalse hr⟩, hperm⟩
  | true =>
    simp only [if_true]
    obtain ⟨hwf, hperm'⟩ := updateDown_spec htrans htotal hidx
      (hloose.down fun _ _ hi => absurd hi (Nat.lt_irrefl 0)) (htrue hr)
    exact ⟨hwf, (hperm'.cons x).trans hperm⟩

/-- `Remove`. -/
theorem Wf.remove (h' : h.Wf above) {x : T} (hx : x ∈ h.data) :
    (BinaryHeap.remove above h x).1.Wf above ∧
      (x :: (BinaryHeap.remove above h x).1.data).Perm h.data ∧
      (BinaryHeap.remove above h x).2 = true := by
  obtain ⟨i, hi⟩ := List.getElem?_of_mem hx
  have hindex := h'.indexed.index_eq i x hi
  obtain ⟨hidx, hperm, hloose, htrue, hfalse⟩ := h'.takeOut htrans hi
  unfold BinaryHeap.remove
  simp only [hindex, Int.toNat_natCast, hi]
  refine ⟨?_, ?_, by simp⟩ <;> cases hr : (h.takeOut i x).2
  · exact ⟨hidx, hfalse hr⟩
  · exact (update_spec htrans htotal hidx hloose (htrue hr)).1
  · exact hperm
  · exact ((update_spec htrans htotal hidx hloose (htrue hr)).2.cons x).trans hperm

omit [DecidableEq T] in
/-- The root is above all the elements. -/
theorem Wf.top_above (h' : h.Wf above) {x y : T} (hx : h.top = some x) (hy : y ∈ h.data) :
    above x y = true := by
  obtain ⟨k, hk⟩ := List.getElem?_of_mem hy
  refine h'.ordered.top (above_self htotal) htrans (fun j k hjk hk => ?_) ?_ k hk
  · have hlt : k < h.data.length := by simpa using hk
    simpa using Nat.lt_of_le_of_lt hjk hlt
  · rwa [top, List.head?_eq_getElem?] at hx

end Sift

omit [DecidableEq T] in
/-- A heap depends on the order of its own elements only. -/
theorem Wf.congr {h : BinaryHeap T} {above above' : T → T → Bool} (hw : h.Wf above)
    (he : ∀ x ∈ h.data, ∀ y ∈ h.data, above' x y = above x y) : h.Wf above' where
  indexed := hw.indexed
  ordered k a b hk ha hb := by
    change above' a b = true
    rw [he a (List.mem_of_getElem? ha) b (List.mem_of_getElem? hb)]
    exact hw.ordered k a b hk ha hb

omit [DecidableEq T] in
theorem Wf.new : (new : BinaryHeap T).Wf above :=
  ⟨⟨List.nodup_nil, fun i x hx => by simp [BinaryHeap.new] at hx, fun x _ => rfl⟩,
    fun k a b _ ha _ => by simp [BinaryHeap.new] at ha⟩

end BinaryHeap

end Serverbox
