import Mathlib.Data.Fintype.Basic
import Serverbox.Lib.Chain
import Serverbox.Lib.DoublyLinked
import Serverbox.Lib.Machine

/-!
# The doubly linked list

`mg::box::DoublyList` is linked in both directions over the links of its items, and keeps the first
and the last item. The outer links of the two are null, and `Remove` depends on this: an item
without a next one is taken for the last one.

The heap holds the links of the items and the two fields of the lists. An operation which uses an
absent item, or whose assertion fails, has no result. Next to the heap stand the sequences which the
operations denote. Linked items which are put into a list may have stale outer links.

An item which is popped or removed gets null links. `PopAll` leaves the links as they are: the
caller gets the items as a chain.

Source: `src/mg/box/DoublyList.h`.

## Main definitions

* `DoublyList.Op.run`: the operations on the heap.
* `DoublyList.Op.denote`: the sequences which they denote.
* `DoublyList.machine`: any operations on any number of lists, within their contracts.

## Main results

* `DoublyList.refines`: the lists are the sequences, in both directions.
* `DoublyList.popAll_linked`: the items of `PopAll` keep their links.
-/

namespace Serverbox

namespace DoublyList

open DoublyLinked (Seg)

/-- The links of the items, and the fields of the lists. -/
structure Heap (ι α : Type*) where
  next : α → Option α
  prev : α → Option α
  first : ι → Option α
  last : ι → Option α

variable {ι α : Type*} [DecidableEq ι] [DecidableEq α]

namespace Heap

/-- The link to the next item is set. -/
def setNext (s : Heap ι α) (a : α) (p : Option α) : Heap ι α :=
  { s with next := Function.update s.next a p }

/-- The link to the previous item is set. -/
def setPrev (s : Heap ι α) (a : α) (p : Option α) : Heap ι α :=
  { s with prev := Function.update s.prev a p }

/-- The first item of a list is set. -/
def setFirst (s : Heap ι α) (i : ι) (p : Option α) : Heap ι α :=
  { s with first := Function.update s.first i p }

/-- The last item of a list is set. -/
def setLast (s : Heap ι α) (i : ι) (p : Option α) : Heap ι α :=
  { s with last := Function.update s.last i p }

/-- `Clear`, and the default constructor. -/
def clear (s : Heap ι α) (i : ι) : Heap ι α := (s.setFirst i none).setLast i none

/-- The constructor from another list, and `operator=`. -/
def move (s : Heap ι α) (i src : ι) : Heap ι α :=
  ((s.setFirst i (s.first src)).setLast i (s.last src)).clear src

/-- The constructor from the first and the last one of some linked items. -/
def constructRange (s : Heap ι α) (i : ι) (first last : Option α) : Option (Heap ι α) :=
  let t := (s.setFirst i first).setLast i last
  match first with
  | some a => last.map fun z => (t.setPrev a none).setNext z none
  | none => some t

/-- The items from `a` to `z` are put before the first item: the end of each `Prepend`. -/
def prependChain (s : Heap ι α) (i : ι) (a z : α) : Heap ι α :=
  let first := s.first i
  let s := s.setNext z first
  let s := match first with
    | some f => s.setPrev f (some z)
    | none => s.setLast i (some z)
  s.setFirst i (some a)

/-- `Prepend` of an item. -/
def prepend (s : Heap ι α) (i : ι) (a : α) : Heap ι α := (s.setPrev a none).prependChain i a a

/-- `Prepend` of a list. -/
def prependList (s : Heap ι α) (i src : ι) : Option (Heap ι α) :=
  match s.first src with
  | some a => (s.last src).map fun z => (s.prependChain i a z).clear src
  | none => some s

/-- `Prepend` of some linked items. -/
def prependRange (s : Heap ι α) (i : ι) (first last : Option α) : Option (Heap ι α) :=
  match first with
  | some a => last.map fun z => (s.setPrev a none).prependChain i a z
  | none => some s

/-- The items from `a` to `z` are put behind the last item: the end of each `Append`. -/
def appendChain (s : Heap ι α) (i : ι) (a z : α) : Heap ι α :=
  let last := s.last i
  let s := s.setPrev a last
  let s := match last with
    | some t => s.setNext t (some a)
    | none => s.setFirst i (some a)
  s.setLast i (some z)

/-- `Append` of an item. -/
def append (s : Heap ι α) (i : ι) (a : α) : Heap ι α := (s.setNext a none).appendChain i a a

/-- `Append` of a list. -/
def appendList (s : Heap ι α) (i src : ι) : Option (Heap ι α) :=
  match s.first src with
  | some a => (s.last src).map fun z => (s.appendChain i a z).clear src
  | none => some s

/-- `Append` of some linked items. -/
def appendRange (s : Heap ι α) (i : ι) (first last : Option α) : Option (Heap ι α) :=
  match first with
  | some a => last.map fun z => (s.setNext z none).appendChain i a z
  | none => some s

/-- `PopFirst`. -/
def popFirst (s : Heap ι α) (i : ι) : Option (α × Heap ι α) :=
  (s.first i).map fun res =>
    let next := s.next res
    let s := (s.setNext res none).setFirst i next
    match next with
    | some b => (res, s.setPrev b none)
    | none => (res, s.setLast i none)

/-- `PopLast`. -/
def popLast (s : Heap ι α) (i : ι) : Option (α × Heap ι α) :=
  (s.last i).map fun res =>
    let prev := s.prev res
    let s := (s.setPrev res none).setLast i prev
    match prev with
    | some b => (res, s.setNext b none)
    | none => (res, s.setFirst i none)

/-- `PopAll` with the last item. -/
def popAll (s : Heap ι α) (i : ι) : (Option α × Option α) × Heap ι α :=
  ((s.first i, s.last i), s.clear i)

/-- The loop of `Reverse`. The number bounds its turns. -/
def reverseLoop : ℕ → Option α → ι → Heap ι α → Option (Heap ι α)
  | _, none, _, s => some s
  | 0, some _, _, _ => none
  | n + 1, some a, i, s => reverseLoop n (s.next a) i (s.prepend i a)

/-- `Reverse`. -/
def reverse (s : Heap ι α) (n : ℕ) (i : ι) : Option (Heap ι α) :=
  reverseLoop n (s.first i) i (s.clear i)

/-- `Remove`: the part which concerns the next item. -/
def removeNext (s : Heap ι α) (i : ι) (a : α) (next prev : Option α) : Option (Heap ι α) :=
  match next with
  | some b => some ((s.setPrev b prev).setNext a none)
  | none => if s.last i = some a then some (s.setLast i prev) else none

/-- `Remove`: the part which concerns the previous item. -/
def removePrev (s : Heap ι α) (i : ι) (a : α) (next prev : Option α) : Option (Heap ι α) :=
  match prev with
  | some b => some ((s.setNext b next).setPrev a none)
  | none => if s.first i = some a then some (s.setFirst i next) else none

/-- `Remove`. -/
def remove (s : Heap ι α) (i : ι) (a : α) : Option (Heap ι α) :=
  let next := s.next a
  let prev := s.prev a
  (s.removeNext i a next prev).bind fun t => t.removePrev i a next prev

end Heap

/-- An operation. Linked items are given from the first to the last one. -/
inductive Op (ι α : Type*)
  | construct (i : ι)
  | constructMove (i src : ι)
  | constructRange (i : ι) (l : List α)
  | assign (i src : ι)
  | prepend (i : ι) (a : α)
  | prependList (i src : ι)
  | prependRange (i : ι) (l : List α)
  | append (i : ι) (a : α)
  | appendList (i src : ι)
  | appendRange (i : ι) (l : List α)
  | popFirst (i : ι)
  | popLast (i : ι)
  | popAll (i : ι)
  | reverse (i : ι) (n : ℕ)
  | clear (i : ι)
  | remove (i : ι) (a : α)

namespace Op

/-- The operation on the heap. -/
def run (s : Heap ι α) : Op ι α → Option (Heap ι α)
  | construct i => some (s.clear i)
  | constructMove i src => some (s.move i src)
  | constructRange i l => s.constructRange i l.head? l.getLast?
  | assign i src => some (s.move i src)
  | prepend i a => some (s.prepend i a)
  | prependList i src => s.prependList i src
  | prependRange i l => s.prependRange i l.head? l.getLast?
  | append i a => some (s.append i a)
  | appendList i src => s.appendList i src
  | appendRange i l => s.appendRange i l.head? l.getLast?
  | popFirst i => (s.popFirst i).map Prod.snd
  | popLast i => (s.popLast i).map Prod.snd
  | popAll i => some (s.popAll i).2
  | reverse i n => s.reverse n i
  | clear i => some (s.clear i)
  | remove i a => s.remove i a

/-- The sequences after the operation. -/
def denote (L : ι → List α) : Op ι α → ι → List α
  | construct i => Function.update L i []
  | constructMove i src => Function.update (Function.update L i (L src)) src []
  | constructRange i l => Function.update L i l
  | assign i src => Function.update (Function.update L i (L src)) src []
  | prepend i a => Function.update L i (a :: L i)
  | prependList i src => Function.update (Function.update L i (L src ++ L i)) src []
  | prependRange i l => Function.update L i (l ++ L i)
  | append i a => Function.update L i (L i ++ [a])
  | appendList i src => Function.update (Function.update L i (L i ++ L src)) src []
  | appendRange i l => Function.update L i (L i ++ l)
  | popFirst i => Function.update L i (L i).tail
  | popLast i => Function.update L i (L i).dropLast
  | popAll i => Function.update L i []
  | reverse i _ => Function.update L i (L i).reverse
  | clear i => Function.update L i []
  | remove i a => Function.update L i ((L i).erase a)

/-- The item which is popped or removed by itself. -/
def removed (L : ι → List α) : Op ι α → Option α
  | popFirst i => (L i).head?
  | popLast i => (L i).getLast?
  | remove _ a => some a
  | _ => none

end Op

/-- The items of the list are in no list, and each is linked to the next one and back. Where the
first one is linked back to, and the last one on to, does not matter. -/
def Loose (s : Heap ι α) (L : ι → List α) (l : List α) : Prop :=
  Seg s.next s.prev (l.head?.bind s.prev) l (l.getLast?.bind s.next) ∧ l.Nodup ∧
    ∀ a ∈ l, ∀ i, a ∉ L i

/-- The contracts of the operations. An item which is put into a list is in no list. -/
def Op.Allowed (s : Heap ι α) (L : ι → List α) : Op ι α → Prop
  | constructMove i src => i ≠ src
  | constructRange _ l | prependRange _ l | appendRange _ l => Loose s L l
  | prepend _ a | append _ a => ∀ i, a ∉ L i
  | popFirst i | popLast i => L i ≠ []
  | reverse i n => (L i).length ≤ n
  | remove i a => a ∈ L i
  | _ => True

/-- The heap, and the sequences which the operations have denoted. -/
structure State (ι α : Type*) where
  heap : Heap ι α
  lists : ι → List α

instance Seg.decidable (next prev : α → Option α) :
    (p : Option α) → (l : List α) → (n : Option α) → Decidable (Seg next prev p l n)
  | _, [], _ => .isTrue trivial
  | p, c :: l, n =>
    have := Seg.decidable next prev (some c) l n
    inferInstanceAs (Decidable
      (prev c = p ∧ next c = l.head?.or n ∧ Seg next prev (some c) l n))

instance [Fintype ι] (s : Heap ι α) (L : ι → List α) (l : List α) : Decidable (Loose s L l) :=
  inferInstanceAs (Decidable (Seg s.next s.prev (l.head?.bind s.prev) l (l.getLast?.bind s.next) ∧
    l.Nodup ∧ ∀ a ∈ l, ∀ i, a ∉ L i))

instance [Fintype ι] (s : Heap ι α) (L : ι → List α) :
    (o : Op ι α) → Decidable (o.Allowed s L)
  | .constructMove i src => inferInstanceAs (Decidable (i ≠ src))
  | .constructRange _ l | .prependRange _ l | .appendRange _ l =>
    inferInstanceAs (Decidable (Loose s L l))
  | .prepend _ a | .append _ a => inferInstanceAs (Decidable (∀ i, a ∉ L i))
  | .popFirst i | .popLast i => inferInstanceAs (Decidable (L i ≠ []))
  | .reverse i n => inferInstanceAs (Decidable ((L i).length ≤ n))
  | .remove i a => inferInstanceAs (Decidable (a ∈ L i))
  | .construct _ | .assign _ _ | .prependList _ _ | .appendList _ _ | .popAll _ | .clear _ =>
    .isTrue trivial

/-- Any operations within their contracts. -/
def machine [Fintype ι] : Machine (State ι α) (Op ι α) where
  init s := ∀ i, s.heap.first i = none ∧ s.heap.last i = none ∧ s.lists i = []
  step s o :=
    if o.Allowed s.heap s.lists then (o.run s.heap).map fun t => ⟨t, o.denote s.lists⟩
    else none

/-- The lists are the sequences. -/
structure Refines (s : Heap ι α) (L : ι → List α) : Prop where
  seg : ∀ i, Seg s.next s.prev none (L i) none
  first : ∀ i, s.first i = (L i).head?
  last : ∀ i, s.last i = (L i).getLast?
  nodup : ∀ i, (L i).Nodup
  apart : ∀ i j, i ≠ j → ∀ a ∈ L i, a ∉ L j

variable {s : Heap ι α} {L : ι → List α} {i j k : ι} {a b z : α} {l : List α}

namespace Heap

/-- The other direction. -/
def mirror (s : Heap ι α) : Heap ι α := ⟨s.prev, s.next, s.last, s.first⟩

/-- Behind the last item is before the first one of the mirrored list. -/
theorem appendChain_eq (s : Heap ι α) (i : ι) (a z : α) :
    s.appendChain i a z = (s.mirror.prependChain i z a).mirror := by
  unfold appendChain prependChain mirror
  dsimp only
  cases s.last i <;> rfl

/-- The last item is the first one of the mirrored list. -/
theorem popLast_eq (s : Heap ι α) (i : ι) :
    s.popLast i = (s.mirror.popFirst i).map (Prod.map id mirror) := by
  unfold popLast popFirst mirror
  dsimp only
  cases s.last i with
  | none => rfl
  | some z => cases h : s.prev z <;> simp [h, setPrev, setNext, setFirst, setLast]

end Heap

namespace Refines

omit [DecidableEq ι] [DecidableEq α] in
/-- The mirrored lists are the reversed sequences. -/
theorem mirror (h : Refines s L) : Refines s.mirror fun i => (L i).reverse where
  seg i := (h.seg i).reverse
  first i := by
    rw [List.head?_reverse]
    exact h.last i
  last i := by
    rw [List.getLast?_reverse]
    exact h.first i
  nodup i := List.nodup_reverse.2 (h.nodup i)
  apart i j hij a ha := by
    rw [List.mem_reverse] at ha ⊢
    exact h.apart i j hij a ha

omit [DecidableEq ι] [DecidableEq α] in
theorem of_mirror (h : Refines s.mirror fun i => (L i).reverse) : Refines s L := by
  have := h.mirror
  simp only [List.reverse_reverse] at this
  exact this

omit [DecidableEq α] in
/-- A list is changed, and only the links of its items and of free ones. -/
theorem change (h : Refines s L) {next prev : α → Option α}
    (hnext : ∀ j, j ≠ i → ∀ a ∈ L j, next a = s.next a)
    (hprev : ∀ j, j ≠ i → ∀ a ∈ L j, prev a = s.prev a)
    (hseg : Seg next prev none l none) (hnodup : l.Nodup)
    (hapart : ∀ j, j ≠ i → ∀ a ∈ l, a ∉ L j) :
    Refines ⟨next, prev, Function.update s.first i l.head?, Function.update s.last i l.getLast?⟩
      (Function.update L i l) where
  seg j := by
    by_cases hj : j = i
    · subst hj
      simpa only [Function.update_self] using hseg
    · simpa only [Function.update_of_ne hj] using (h.seg j).congr (hnext j hj) (hprev j hj)
  first j := by
    by_cases hj : j = i
    · subst hj
      simp only [Function.update_self]
    · simpa only [Function.update_of_ne hj] using h.first j
  last j := by
    by_cases hj : j = i
    · subst hj
      simp only [Function.update_self]
    · simpa only [Function.update_of_ne hj] using h.last j
  nodup j := by
    by_cases hj : j = i
    · subst hj
      simpa only [Function.update_self] using hnodup
    · simpa only [Function.update_of_ne hj] using h.nodup j
  apart j k hjk b hb := by
    by_cases hj : j = i
    · subst hj
      rw [Function.update_of_ne (Ne.symm hjk)]
      exact hapart k (Ne.symm hjk) b (by simpa only [Function.update_self] using hb)
    · rw [Function.update_of_ne hj] at hb
      by_cases hk : k = i
      · subst hk
        rw [Function.update_self]
        exact fun hbl => hapart j hj b hbl hb
      · rw [Function.update_of_ne hk]
        exact h.apart j k hjk b hb

omit [DecidableEq α] in
/-- A list is emptied, whatever the links of its items are. -/
theorem void (h : Refines s L) (i : ι) {next prev : α → Option α}
    (hnext : ∀ j, j ≠ i → ∀ a ∈ L j, next a = s.next a)
    (hprev : ∀ j, j ≠ i → ∀ a ∈ L j, prev a = s.prev a) :
    Refines ⟨next, prev, Function.update s.first i none, Function.update s.last i none⟩
      (Function.update L i []) :=
  h.change (l := []) hnext hprev (DoublyLinked.seg_nil _ _) List.nodup_nil
    fun _ _ _ ha => absurd ha List.not_mem_nil

omit [DecidableEq α] in
theorem clear (h : Refines s L) (i : ι) : Refines (s.clear i) (Function.update L i []) :=
  h.void i (fun _ _ _ _ => rfl) fun _ _ _ _ => rfl

omit [DecidableEq ι] [DecidableEq α] in
/-- The links of free items do not matter. -/
theorem loose (h : Refines s L) {next prev : α → Option α}
    (hnext : ∀ j, ∀ a ∈ L j, next a = s.next a) (hprev : ∀ j, ∀ a ∈ L j, prev a = s.prev a) :
    Refines { s with next := next, prev := prev } L :=
  { h with seg := fun i => (h.seg i).congr (hnext i) (hprev i) }

omit [DecidableEq ι] [DecidableEq α] in
theorem first_eq_none (h : Refines s L) : s.first i = none ↔ L i = [] := by
  rw [h.first, List.head?_eq_none_iff]

omit [DecidableEq ι] [DecidableEq α] in
/-- A list with a first item has a last one. -/
theorem exists_last (h : Refines s L) (hf : s.first i = some a) :
    ∃ z, s.last i = some z ∧ (L i).head? = some a ∧ (L i).getLast? = some z := by
  rw [h.first] at hf
  have hne : L i ≠ [] := by
    intro hl
    rw [hl] at hf
    cases hf
  exact ⟨(L i).getLast hne, by rw [h.last, List.getLast?_eq_some_getLast hne], hf,
    List.getLast?_eq_some_getLast hne⟩

omit [DecidableEq α] in
theorem update_reverse (L : ι → List α) (i : ι) (l : List α) :
    (fun j => (Function.update L i l j).reverse) =
      Function.update (fun j => (L j).reverse) i l.reverse := by
  funext j
  by_cases hj : j = i
  · subst hj
    simp
  · simp [Function.update_of_ne hj]

/-- The items are put before the first one. Where the last of them was linked on to does not
matter. -/
theorem prependChain (h : Refines s L) {n : Option α} (hseg : Seg s.next s.prev none l n)
    (hnodup : l.Nodup) (hfree : ∀ b ∈ l, ∀ j, b ∉ L j) (ha : l.head? = some a)
    (hz : l.getLast? = some z) :
    Refines (s.prependChain i a z) (Function.update L i (l ++ L i)) := by
  obtain ⟨m, rfl⟩ : ∃ m, l = m ++ [z] := List.getLast?_eq_some_iff.1 hz
  have hzL : ∀ j, ∀ b ∈ L j, b ≠ z := fun j b hb he => hfree z (by simp) j (he ▸ hb)
  have hzm : ∀ b ∈ m, b ≠ z := fun b hb => (List.nodup_append.1 hnodup).2.2 b hb z (by simp)
  have hnodup' : (m ++ [z] ++ L i).Nodup :=
    List.nodup_append.2 ⟨hnodup, h.nodup i, fun b hb c hc he => hfree b hb i (he ▸ hc)⟩
  have hapart : ∀ j, j ≠ i → ∀ b ∈ m ++ [z] ++ L i, b ∉ L j := by
    intro j hj b hb
    rcases List.mem_append.1 hb with hb | hb
    · exact hfree b hb j
    · exact h.apart i j (Ne.symm hj) b hb
  cases hL : L i with
  | nil =>
    have hset : s.prependChain i a z = ⟨Function.update s.next z none, s.prev,
        Function.update s.first i (m ++ [z]).head?,
        Function.update s.last i (m ++ [z]).getLast?⟩ := by
      simp [Heap.prependChain, h.first, hL, ha, Heap.setNext, Heap.setLast, Heap.setFirst]
    rw [hset, List.append_nil]
    refine h.change (fun j _ b hb => Function.update_of_ne (hzL j b hb) _ _) (fun _ _ _ _ => rfl)
      ?_ hnodup fun j hj b hb => hapart j hj b (List.mem_append_left _ hb)
    exact hseg.setLast (Function.update_self ..)
      (fun b hb => Function.update_of_ne (hzm b hb) _ _) fun _ _ => rfl
  | cons f r =>
    rw [hL] at hnodup' hapart
    have hf : f ∈ L i := by simp [hL]
    have hset : s.prependChain i a z = ⟨Function.update s.next z (some f),
        Function.update s.prev f (some z),
        Function.update s.first i (m ++ [z] ++ f :: r).head?,
        Function.update s.last i (m ++ [z] ++ f :: r).getLast?⟩ := by
      have hlast : Function.update s.last i (m ++ [z] ++ f :: r).getLast? = s.last := by
        rw [List.getLast?_append_of_ne_nil _ (List.cons_ne_nil f r), ← hL, ← h.last,
          Function.update_eq_self]
      rw [hlast, List.head?_append_of_ne_nil _ (by simp), ha]
      simp [Heap.prependChain, h.first, hL, Heap.setNext, Heap.setPrev, Heap.setFirst]
    rw [hset]
    refine h.change (fun j _ b hb => Function.update_of_ne (hzL j b hb) _ _) (fun j hj b hb => ?_)
      ?_ hnodup' hapart
    · exact Function.update_of_ne (fun he : b = f => h.apart i j (Ne.symm hj) f hf (he ▸ hb)) _ _
    · -- The last of the new items is linked on to the first old one, and that one back to it.
      have hold := h.seg i
      rw [hL] at hold
      refine (DoublyLinked.seg_append none none (m ++ [z]) (f :: r)).2 ⟨?_, ?_⟩
      · refine hseg.setLast (by simp) (fun b hb => Function.update_of_ne (hzm b hb) _ _)
          fun b hb => Function.update_of_ne (fun he : b = f => hfree b hb i (he ▸ hf)) _ _
      · have hfr : f ∉ r := by
          have := h.nodup i
          rw [hL] at this
          exact (List.nodup_cons.1 this).1
        refine hold.setFirst (by simp) (fun b hb => ?_) fun b hb => ?_
        · exact Function.update_of_ne (fun he : b = f => hfr (he ▸ hb)) _ _
        · exact Function.update_of_ne (hzL i b (hL ▸ hb)) _ _

/-- The items are put behind the last one. -/
theorem appendChain (h : Refines s L) {p : Option α} (hseg : Seg s.next s.prev p l none)
    (hnodup : l.Nodup) (hfree : ∀ b ∈ l, ∀ j, b ∉ L j) (ha : l.head? = some a)
    (hz : l.getLast? = some z) :
    Refines (s.appendChain i a z) (Function.update L i (L i ++ l)) := by
  rw [Heap.appendChain_eq]
  apply of_mirror
  have := h.mirror.prependChain (i := i) hseg.reverse (List.nodup_reverse.2 hnodup)
    (fun b hb j => by
      rw [List.mem_reverse] at hb ⊢
      exact hfree b hb j)
    (by rw [List.head?_reverse, hz]) (by rw [List.getLast?_reverse, ha])
  rw [update_reverse, List.reverse_append]
  exact this

omit [DecidableEq α] in
/-- The items of another list are free once it is emptied. -/
theorem free_of_clear (h : Refines s L) : ∀ b ∈ L k, ∀ j, b ∉ Function.update L k [] j := by
  intro b hb j
  by_cases hj : j = k
  · subst hj
    simp
  · rw [Function.update_of_ne hj]
    exact h.apart k j (Ne.symm hj) b hb

omit [DecidableEq α] in
theorem move (h : Refines s L) :
    Refines (s.move i k) (Function.update (Function.update L i (L k)) k []) := by
  by_cases hi : i = k
  · subst hi
    have hset : s.move i i = s.clear i := by
      simp only [Heap.move, Heap.clear, Heap.setFirst, Heap.setLast, Function.update_idem]
    rw [hset, Function.update_idem]
    exact h.clear i
  · have hset : s.move i k = ⟨(s.clear k).next, (s.clear k).prev,
        Function.update (s.clear k).first i (L k).head?,
        Function.update (s.clear k).last i (L k).getLast?⟩ := by
      simp only [Heap.move, Heap.clear, Heap.setFirst, Heap.setLast, ← h.first k, ← h.last k,
        Function.update_comm hi]
    rw [hset, Function.update_comm hi]
    exact (h.clear k).change (fun _ _ _ _ => rfl) (fun _ _ _ _ => rfl) (h.seg k) (h.nodup k)
      fun j _ b hb => h.free_of_clear b hb j

omit [DecidableEq ι] in
/-- Linked items get a null link before the first one. -/
theorem cutFirst (h : Refines s L) (hl : Loose s L l) (ha : l.head? = some a) :
    Refines (s.setPrev a none) L ∧
      Seg s.next (Function.update s.prev a none) none l (l.getLast?.bind s.next) := by
  obtain ⟨hseg, hnodup, hfree⟩ := hl
  have hal : a ∈ l := List.mem_of_head? ha
  refine ⟨h.loose (fun _ _ _ => rfl) fun j b hb => ?_, ?_⟩
  · exact Function.update_of_ne (fun he : b = a => hfree a hal j (he ▸ hb)) _ _
  · obtain ⟨r, rfl⟩ : ∃ r, l = a :: r := List.head?_eq_some_iff.1 ha
    exact hseg.setFirst (Function.update_self ..)
      (fun b hb => Function.update_of_ne (fun he : b = a =>
        (List.nodup_cons.1 hnodup).1 (he ▸ hb)) _ _) fun _ _ => rfl

theorem prependRange (h : Refines s L) (hl : Loose s L l) :
    ∃ t, s.prependRange i l.head? l.getLast? = some t ∧
      Refines t (Function.update L i (l ++ L i)) := by
  obtain rfl | ⟨m, z, rfl⟩ := l.eq_nil_or_concat'
  · refine ⟨s, rfl, ?_⟩
    rw [List.nil_append, Function.update_eq_self]
    exact h
  · cases ha : (m ++ [z]).head? with
    | none => simp at ha
    | some a =>
      obtain ⟨hcut, hseg⟩ := h.cutFirst hl ha
      rw [List.getLast?_concat]
      exact ⟨_, rfl, hcut.prependChain hseg hl.2.1 hl.2.2 ha List.getLast?_concat⟩

theorem prepend (h : Refines s L) (ha : ∀ j, a ∉ L j) :
    Refines (s.prepend i a) (Function.update L i (a :: L i)) := by
  have hl : Loose s L [a] :=
    ⟨⟨rfl, rfl, trivial⟩, List.nodup_singleton a, fun b hb => List.mem_singleton.1 hb ▸ ha⟩
  obtain ⟨t, ht, href⟩ := h.prependRange (i := i) hl
  obtain rfl : s.prepend i a = t := Option.some.inj ht
  exact href

theorem constructRange (h : Refines s L) (hl : Loose s L l) :
    ∃ t, s.constructRange i l.head? l.getLast? = some t ∧ Refines t (Function.update L i l) := by
  obtain rfl | ⟨m, z, rfl⟩ := l.eq_nil_or_concat'
  · exact ⟨_, rfl, h.clear i⟩
  · cases ha : (m ++ [z]).head? with
    | none => simp at ha
    | some a =>
      obtain ⟨hcut, hseg⟩ := h.cutFirst hl ha
      obtain ⟨-, hnodup, hfree⟩ := hl
      have hzm : ∀ b ∈ m, b ≠ z := fun b hb => (List.nodup_append.1 hnodup).2.2 b hb z (by simp)
      rw [List.getLast?_concat]
      refine ⟨_, rfl, ?_⟩
      have hset : (((s.setFirst i (some a)).setLast i (some z)).setPrev a none).setNext z none =
          ⟨Function.update s.next z none, Function.update s.prev a none,
            Function.update (s.setPrev a none).first i (m ++ [z]).head?,
            Function.update (s.setPrev a none).last i (m ++ [z]).getLast?⟩ := by
        rw [ha, List.getLast?_concat]
        rfl
      dsimp only
      rw [hset]
      refine hcut.change (fun j _ b hb => ?_) (fun _ _ _ _ => rfl) ?_ hnodup
        fun j _ b hb => hfree b hb j
      · exact Function.update_of_ne (fun he : b = z => hfree z (by simp) j (he ▸ hb)) _ _
      · exact hseg.setLast (Function.update_self ..)
          (fun b hb => Function.update_of_ne (hzm b hb) _ _) fun _ _ => rfl

/-- Another list, or the list itself, is put before the first item and emptied. -/
theorem spliceFront (h : Refines s L) (ha : (L k).head? = some a)
    (hz : (L k).getLast? = some z) :
    Refines ((s.prependChain i a z).clear k)
      (Function.update (Function.update L i (L k ++ L i)) k []) := by
  have hzk : z ∈ L k := List.mem_of_getLast? hz
  by_cases hi : i = k
  · subst hi
    have hai : a ∈ L i := List.mem_of_head? ha
    have hset : (s.prependChain i a z).clear i = ⟨Function.update s.next z (some a),
        Function.update s.prev a (some z), Function.update s.first i none,
        Function.update s.last i none⟩ := by
      simp [Heap.prependChain, Heap.clear, h.first, ha, Heap.setNext, Heap.setPrev, Heap.setFirst,
        Heap.setLast]
    rw [hset, Function.update_idem]
    refine h.void i (fun j hj b hb => ?_) fun j hj b hb => ?_
    · exact Function.update_of_ne
        (fun he : b = z => h.apart i j (Ne.symm hj) z hzk (he ▸ hb)) _ _
    · exact Function.update_of_ne
        (fun he : b = a => h.apart i j (Ne.symm hj) a hai (he ▸ hb)) _ _
  · have hset : (s.prependChain i a z).clear k = (s.clear k).prependChain i a z := by
      have hfirst : (s.clear k).first i = s.first i := Function.update_of_ne hi _ _
      unfold Heap.prependChain
      rw [hfirst]
      cases s.first i <;>
        simp only [Heap.clear, Heap.setNext, Heap.setPrev, Heap.setFirst, Heap.setLast,
          Function.update_comm hi]
    have := (h.clear k).prependChain (i := i) (h.seg k) (h.nodup k) h.free_of_clear ha hz
    rw [Function.update_of_ne hi] at this
    rw [hset, Function.update_comm hi]
    exact this

/-- Another list, or the list itself, is put behind the last item and emptied. -/
theorem spliceBack (h : Refines s L) (ha : (L k).head? = some a)
    (hz : (L k).getLast? = some z) :
    Refines ((s.appendChain i a z).clear k)
      (Function.update (Function.update L i (L i ++ L k)) k []) := by
  apply of_mirror
  have := h.mirror.spliceFront (i := i) (k := k) (a := z) (z := a)
    (by rw [List.head?_reverse, hz]) (by rw [List.getLast?_reverse, ha])
  have hset : ((s.appendChain i a z).clear k).mirror =
      (s.mirror.prependChain i z a).clear k := by
    rw [Heap.appendChain_eq]
    rfl
  rw [hset, update_reverse, update_reverse, List.reverse_append, List.reverse_nil]
  exact this

theorem prependList (h : Refines s L) :
    ∃ t, s.prependList i k = some t ∧ Refines t ((Op.prependList i k).denote L) := by
  unfold Heap.prependList
  cases hf : s.first k with
  | none =>
    have hl := h.first_eq_none.1 hf
    refine ⟨s, rfl, ?_⟩
    rw [Op.denote, hl, List.nil_append, Function.update_eq_self, ← hl, Function.update_eq_self]
    exact h
  | some a =>
    obtain ⟨z, hlast, ha, hz⟩ := h.exists_last hf
    rw [hlast]
    exact ⟨_, rfl, h.spliceFront ha hz⟩

theorem appendList (h : Refines s L) :
    ∃ t, s.appendList i k = some t ∧ Refines t ((Op.appendList i k).denote L) := by
  unfold Heap.appendList
  cases hf : s.first k with
  | none =>
    have hl := h.first_eq_none.1 hf
    refine ⟨s, rfl, ?_⟩
    rw [Op.denote, hl, List.append_nil, Function.update_eq_self, ← hl, Function.update_eq_self]
    exact h
  | some a =>
    obtain ⟨z, hlast, ha, hz⟩ := h.exists_last hf
    rw [hlast]
    exact ⟨_, rfl, h.spliceBack ha hz⟩

theorem appendRange (h : Refines s L) (hl : Loose s L l) :
    ∃ t, s.appendRange i l.head? l.getLast? = some t ∧
      Refines t (Function.update L i (L i ++ l)) := by
  have hl' : Loose s.mirror (fun i => (L i).reverse) l.reverse := by
    obtain ⟨hseg, hnodup, hfree⟩ := hl
    refine ⟨?_, List.nodup_reverse.2 hnodup, fun b hb j => ?_⟩
    · rw [List.head?_reverse, List.getLast?_reverse]
      exact hseg.reverse
    · rw [List.mem_reverse] at hb ⊢
      exact hfree b hb j
  obtain ⟨t, ht, href⟩ := h.mirror.prependRange (i := i) hl'
  refine ⟨t.mirror, ?_, ?_⟩
  · rw [List.head?_reverse, List.getLast?_reverse] at ht
    cases hz : l.getLast? with
    | none =>
      rw [hz] at ht
      rw [List.getLast?_eq_none_iff.1 hz]
      obtain rfl : s.mirror = t := Option.some.inj ht
      rfl
    | some z =>
      cases ha : l.head? with
      | none =>
        rw [List.head?_eq_none_iff.1 ha] at hz
        cases hz
      | some a =>
        rw [hz, ha] at ht
        obtain rfl := Option.some.inj ht
        exact congrArg some (Heap.appendChain_eq _ _ _ _)
  · apply of_mirror
    rw [update_reverse, List.reverse_append]
    exact href

theorem append (h : Refines s L) (ha : ∀ j, a ∉ L j) :
    Refines (s.append i a) (Function.update L i (L i ++ [a])) := by
  have hl : Loose s L [a] :=
    ⟨⟨rfl, rfl, trivial⟩, List.nodup_singleton a, fun b hb => List.mem_singleton.1 hb ▸ ha⟩
  obtain ⟨t, ht, href⟩ := h.appendRange (i := i) hl
  obtain rfl : s.append i a = t := Option.some.inj ht
  exact href

/-- The first item is popped, and gets null links. -/
theorem popFirst (h : Refines s L) (hl : L i = a :: l) :
    ∃ t, s.popFirst i = some (a, t) ∧ Refines t (Function.update L i l) ∧
      t.next a = none ∧ t.prev a = none := by
  have hseg := h.seg i
  have hnodup := h.nodup i
  rw [hl] at hseg hnodup
  obtain ⟨hprev, hnext, hrest⟩ := hseg
  obtain ⟨hal, hnodup⟩ := List.nodup_cons.1 hnodup
  have hai : ∀ j, j ≠ i → a ∉ L j := fun j hj => h.apart i j (Ne.symm hj) a (by simp [hl])
  have hapart : ∀ j, j ≠ i → ∀ b ∈ l, b ∉ L j := fun j hj b hb =>
    h.apart i j (Ne.symm hj) b (by simp [hl, hb])
  have hother : ∀ j, j ≠ i → ∀ b ∈ L j, Function.update s.next a none b = s.next b :=
    fun j hj b hb => Function.update_of_ne (fun he : b = a => hai j hj (he ▸ hb)) _ _
  have hfirst : s.first i = some a := by rw [h.first, hl, List.head?_cons]
  unfold Heap.popFirst
  rw [hfirst, Option.map_some]
  cases l with
  | nil =>
    rw [show s.next a = none from hnext]
    exact ⟨_, rfl, h.void i hother fun _ _ _ _ => rfl, Function.update_self .., hprev⟩
  | cons b r =>
    rw [show s.next a = some b from hnext]
    have hab : a ≠ b := fun he => hal (he ▸ List.mem_cons_self)
    refine ⟨_, rfl, ?_, Function.update_self .., ?_⟩
    · have hset : (((s.setNext a none).setFirst i (some b)).setPrev b none) =
          ⟨Function.update s.next a none, Function.update s.prev b none,
            Function.update s.first i (b :: r).head?,
            Function.update s.last i (b :: r).getLast?⟩ := by
        have hlast : Function.update s.last i (b :: r).getLast? = s.last := by
          have : (b :: r).getLast? = s.last i := by
            rw [h.last, hl, List.getLast?_cons_cons]
          rw [this, Function.update_eq_self]
        rw [hlast]
        rfl
      rw [hset]
      refine h.change hother (fun j hj c hc => ?_) ?_ hnodup hapart
      · exact Function.update_of_ne
          (fun he : c = b => hapart j hj b List.mem_cons_self (he ▸ hc)) _ _
      · refine hrest.setFirst (Function.update_self ..) (fun c hc => ?_) fun c hc => ?_
        · exact Function.update_of_ne
            (fun he : c = b => (List.nodup_cons.1 hnodup).1 (he ▸ hc)) _ _
        · exact Function.update_of_ne (fun he : c = a => hal (he ▸ hc)) _ _
    · exact (Function.update_of_ne hab _ _).trans hprev

/-- The last item is popped, and gets null links. -/
theorem popLast (h : Refines s L) (hl : L i = l ++ [z]) :
    ∃ t, s.popLast i = some (z, t) ∧ Refines t (Function.update L i l) ∧
      t.next z = none ∧ t.prev z = none := by
  obtain ⟨t, ht, href, hnext, hprev⟩ :=
    h.mirror.popFirst (i := i) (a := z) (l := l.reverse) (by simp [hl])
  refine ⟨t.mirror, by rw [Heap.popLast_eq, ht]; rfl, of_mirror ?_, hprev, hnext⟩
  rw [update_reverse]
  exact href

/-- An item of the list is removed, and gets null links. -/
theorem remove (h : Refines s L) (ha : a ∈ L i) :
    ∃ t, s.remove i a = some t ∧ Refines t (Function.update L i ((L i).erase a)) ∧
      t.next a = none ∧ t.prev a = none := by
  obtain ⟨l₁, l₂, hl⟩ := List.append_of_mem ha
  have hseg := h.seg i
  have hnodup := h.nodup i
  rw [hl] at hseg hnodup
  obtain ⟨hprev, hnext⟩ := hseg.mid
  rw [Option.or_none] at hprev hnext
  obtain ⟨hnodup₁, hnodup₂, hdisj⟩ := List.nodup_append.1 hnodup
  have ha₁ : a ∉ l₁ := fun hm => hdisj a hm a List.mem_cons_self rfl
  have ha₂ : a ∉ l₂ := (List.nodup_cons.1 hnodup₂).1
  have herase : (L i).erase a = l₁ ++ l₂ := by
    rw [hl, List.erase_append_right _ ha₁, List.erase_cons_head]
  have hkept : (l₁ ++ l₂).Nodup :=
    hnodup.sublist (List.Sublist.append_left (List.sublist_cons_self _ _) _)
  have hapart : ∀ j, j ≠ i → ∀ b ∈ l₁ ++ l₂, b ∉ L j := fun j hj b hb =>
    h.apart i j (Ne.symm hj) b (by
      rw [hl]
      exact (List.Sublist.append_left (List.sublist_cons_self _ _) _).subset hb)
  have hai : ∀ j, j ≠ i → ∀ b ∈ L j, b ≠ a := fun j hj b hb he =>
    h.apart i j (Ne.symm hj) a ha (he ▸ hb)
  rw [herase]
  unfold Heap.remove
  rw [hprev, hnext]
  have hfirst : s.first i = (l₁ ++ a :: l₂).head? := by rw [h.first, hl]
  have hlast : s.last i = (l₁ ++ a :: l₂).getLast? := by rw [h.last, hl]
  cases l₂ with
  | nil =>
    obtain rfl | ⟨m, y, rfl⟩ := l₁.eq_nil_or_concat'
    · -- The only item.
      refine ⟨s.clear i, ?_, h.clear i, hnext, hprev⟩
      simp [Heap.removeNext, Heap.removePrev, hlast, hfirst, Heap.clear, Heap.setFirst,
        Heap.setLast]
    · -- The last item.
      have hay : a ≠ y := fun he => ha₁ (by simp [he])
      have hset : ((s.setLast i (some y)).setNext y none).setPrev a none =
          ⟨Function.update s.next y none, Function.update s.prev a none,
            Function.update s.first i (m ++ [y]).head?,
            Function.update s.last i (m ++ [y]).getLast?⟩ := by
        have hself : Function.update s.first i (m ++ [y]).head? = s.first := by
          have : (m ++ [y]).head? = s.first i := by
            rw [hfirst, List.head?_append_of_ne_nil (m ++ [y]) (by simp)]
          rw [this, Function.update_eq_self]
        rw [hself, List.getLast?_concat]
        rfl
      refine ⟨((s.setLast i (some y)).setNext y none).setPrev a none, ?_, ?_, ?_,
        Function.update_self ..⟩
      · simp [Heap.removeNext, Heap.removePrev, hlast]
      · rw [List.append_nil] at hkept hapart ⊢
        rw [hset]
        refine h.change (fun j hj b hb => ?_) (fun j hj b hb => ?_) ?_ hkept hapart
        · exact Function.update_of_ne
            (fun he : b = y => hapart j hj y (by simp) (he ▸ hb)) _ _
        · exact Function.update_of_ne (hai j hj b hb) _ _
        · have hbefore := ((DoublyLinked.seg_append _ _ _ _).1 hseg).1
          refine hbefore.setLast (Function.update_self ..) (fun b hb => ?_) fun b hb => ?_
          · exact Function.update_of_ne
              ((List.nodup_append.1 hnodup₁).2.2 b hb y (by simp)) _ _
          · exact Function.update_of_ne (fun he : b = a => ha₁ (he ▸ hb)) _ _
      · exact (Function.update_of_ne hay _ _).trans hnext
  | cons d r =>
    have had : a ≠ d := fun he => ha₂ (by simp [he])
    have hd : ∀ j, j ≠ i → ∀ b ∈ L j, b ≠ d := fun j hj b hb he =>
      hapart j hj d (by simp) (he ▸ hb)
    have hxa : ∀ x ∈ l₁ ++ d :: r, x ≠ a := by
      intro x hx he
      rcases List.mem_append.1 hx with hx | hx
      · exact ha₁ (he ▸ hx)
      · exact ha₂ (he ▸ hx)
    have hselfLast : Function.update s.last i (l₁ ++ d :: r).getLast? = s.last := by
      have : (l₁ ++ d :: r).getLast? = s.last i := by
        rw [hlast, List.getLast?_append_of_ne_nil _ (List.cons_ne_nil d r),
          List.getLast?_append_of_ne_nil _ (List.cons_ne_nil a _), List.getLast?_cons_cons]
      rw [this, Function.update_eq_self]
    obtain rfl | ⟨m, y, rfl⟩ := l₁.eq_nil_or_concat'
    · -- The first item.
      have hset : ((s.setPrev d none).setNext a none).setFirst i (some d) =
          ⟨Function.update s.next a none, Function.update s.prev d none,
            Function.update s.first i ([] ++ d :: r).head?,
            Function.update s.last i ([] ++ d :: r).getLast?⟩ := by
        rw [hselfLast]
        rfl
      refine ⟨((s.setPrev d none).setNext a none).setFirst i (some d), ?_, ?_,
        Function.update_self .., (Function.update_of_ne had _ _).trans hprev⟩
      · simp [Heap.removeNext, Heap.removePrev, hfirst, Heap.setPrev, Heap.setNext]
      · rw [hset]
        refine h.change (fun j hj b hb => Function.update_of_ne (hai j hj b hb) _ _)
          (fun j hj b hb => Function.update_of_ne (hd j hj b hb) _ _)
          (hseg.unlink hnodup (fun x hx => ?_) fun x _ => ?_) hkept hapart
        · simp [Function.update_of_ne (hxa x hx)]
        · by_cases hx : x = d <;> simp [hx]
    · -- An item between two others.
      have hay : a ≠ y := fun he => ha₁ (by simp [he])
      have hset : ((((s.setPrev d (some y)).setNext a none).setNext y (some d)).setPrev a none) =
          ⟨Function.update (Function.update s.next a none) y (some d),
            Function.update (Function.update s.prev d (some y)) a none,
            Function.update s.first i (m ++ [y] ++ d :: r).head?,
            Function.update s.last i (m ++ [y] ++ d :: r).getLast?⟩ := by
        have hself : Function.update s.first i (m ++ [y] ++ d :: r).head? = s.first := by
          have : (m ++ [y] ++ d :: r).head? = s.first i := by
            rw [hfirst, List.head?_append_of_ne_nil (m ++ [y]) (by simp),
              List.head?_append_of_ne_nil (m ++ [y]) (by simp)]
          rw [this, Function.update_eq_self]
        rw [hself, hselfLast]
        rfl
      refine ⟨(((s.setPrev d (some y)).setNext a none).setNext y (some d)).setPrev a none, ?_, ?_,
        ?_, Function.update_self ..⟩
      · simp [Heap.removeNext, Heap.removePrev]
      · rw [hset]
        refine h.change (fun j hj b hb => ?_) (fun j hj b hb => ?_)
          (hseg.unlink hnodup (fun x hx => ?_) fun x hx => ?_) hkept hapart
        · have hby : b ≠ y := fun he => hapart j hj y (by simp) (he ▸ hb)
          rw [Function.update_of_ne hby, Function.update_of_ne (hai j hj b hb)]
        · rw [Function.update_of_ne (hai j hj b hb), Function.update_of_ne (hd j hj b hb)]
        · rw [Function.update_apply, Function.update_of_ne (hxa x hx)]
          simp
        · rw [Function.update_of_ne (hxa x hx), Function.update_apply]
          simp
      · refine (Function.update_of_ne hay _ _).trans ?_
        exact Function.update_self ..

/-- The loop of `Reverse` prepends the items from the given one on. -/
theorem reverseLoop (h : Refines s L) {p : Option α} (hseg : Seg s.next s.prev p l none)
    (hnodup : l.Nodup) (hfree : ∀ b ∈ l, ∀ j, b ∉ L j) {n : ℕ} (hn : l.length ≤ n) :
    ∃ t, Heap.reverseLoop n l.head? i s = some t ∧
      Refines t (Function.update L i (l.reverse ++ L i)) := by
  induction l generalizing p s L n with
  | nil =>
    refine ⟨s, by cases n <;> rfl, ?_⟩
    rw [List.reverse_nil, List.nil_append, Function.update_eq_self]
    exact h
  | cons a l ih =>
    obtain ⟨-, hnext, hrest⟩ := hseg
    obtain ⟨ha, hnodup⟩ := List.nodup_cons.1 hnodup
    have haL : ∀ j, a ∉ L j := hfree a List.mem_cons_self
    cases n with
    | zero => exact absurd hn (Nat.not_succ_le_zero _)
    | succ n =>
    have hfree' : ∀ b ∈ l, ∀ j, b ∉ Function.update L i (a :: L i) j := by
      intro b hb j
      have hbj := hfree b (List.mem_cons_of_mem _ hb)
      by_cases hj : j = i
      · subst hj
        rw [Function.update_self, List.mem_cons, not_or]
        exact ⟨fun he => ha (he ▸ hb), hbj j⟩
      · rw [Function.update_of_ne hj]
        exact hbj j
    -- The links of the other items stay, as the old first item is in the list already.
    have hlinks : Seg (s.prepend i a).next (s.prepend i a).prev (some a) l none := by
      have hba : ∀ b ∈ l, b ≠ a := fun b hb he => ha (he ▸ hb)
      refine hrest.congr (fun b hb => ?_) fun b hb => ?_
      · unfold Heap.prepend Heap.prependChain
        cases hf : (s.setPrev a none).first i <;>
          exact Function.update_of_ne (hba b hb) _ _
      · unfold Heap.prepend Heap.prependChain
        cases hf : (s.setPrev a none).first i with
        | none => exact Function.update_of_ne (hba b hb) _ _
        | some f =>
          have hfL : f ∈ L i := List.mem_of_head? ((h.first i).symm.trans hf)
          have hbf : b ≠ f := fun he => hfree b (List.mem_cons_of_mem _ hb) i (he ▸ hfL)
          exact (Function.update_of_ne hbf _ _).trans (Function.update_of_ne (hba b hb) _ _)
    obtain ⟨t, ht, href⟩ := ih (h.prepend (i := i) haL) hlinks hnodup hfree'
      (Nat.le_of_succ_le_succ hn)
    refine ⟨t, ?_, ?_⟩
    · rw [List.head?_cons, Heap.reverseLoop, hnext, Option.or_none]
      exact ht
    · rw [Function.update_idem, Function.update_self] at href
      rw [List.reverse_cons, List.append_assoc]
      exact href

theorem reverse (h : Refines s L) {n : ℕ} (hn : (L i).length ≤ n) :
    ∃ t, s.reverse n i = some t ∧ Refines t (Function.update L i (L i).reverse) := by
  obtain ⟨t, ht, href⟩ := (h.clear i).reverseLoop (i := i) (h.seg i) (h.nodup i)
    h.free_of_clear hn
  refine ⟨t, ?_, ?_⟩
  · rw [Heap.reverse, h.first]
    exact ht
  · rw [Function.update_idem, Function.update_self, List.append_nil] at href
    exact href

omit [DecidableEq ι] [DecidableEq α] in
theorem of_init (h : ∀ i, s.first i = none ∧ s.last i = none ∧ L i = []) : Refines s L where
  seg i := by rw [(h i).2.2]; exact DoublyLinked.seg_nil _ _
  first i := by rw [(h i).1, (h i).2.2]; rfl
  last i := by rw [(h i).2.1, (h i).2.2]; rfl
  nodup i := by rw [(h i).2.2]; exact List.nodup_nil
  apart i _ _ a ha := by rw [(h i).2.2] at ha; cases ha

omit [DecidableEq ι] [DecidableEq α] in
/-- The items in both directions. -/
theorem chains (h : Refines s L) (i : ι) :
    Chain s.next (s.first i) (L i) ∧ Chain s.prev (s.last i) (L i).reverse := by
  have hchain : ∀ {next prev : α → Option α} {p : Option α} {l : List α},
      Seg next prev p l none → Chain next l.head? l := by
    intro next prev p l hseg
    induction l generalizing p with
    | nil => rfl
    | cons a l ih =>
      obtain ⟨-, hnext, hrest⟩ := hseg
      refine ⟨rfl, ?_⟩
      rw [hnext, Option.or_none]
      exact ih hrest
  have hback := hchain (h.seg i).reverse
  rw [List.head?_reverse, ← h.last] at hback
  exact ⟨h.first i ▸ hchain (h.seg i), hback⟩

end Refines

/-- **One operation.** It has a result, the lists stay the sequences, and an item which is popped or
removed by itself gets null links. -/
theorem Op.run_refines (h : Refines s L) {o : Op ι α} (ho : o.Allowed s L) :
    ∃ t, o.run s = some t ∧ Refines t (o.denote L) ∧
      ∀ a, o.removed L = some a → t.next a = none ∧ t.prev a = none := by
  have hnone : ∀ {o : Op ι α}, o.removed L = none →
      (∃ t, o.run s = some t ∧ Refines t (o.denote L)) →
      ∃ t, o.run s = some t ∧ Refines t (o.denote L) ∧
        ∀ a, o.removed L = some a → t.next a = none ∧ t.prev a = none := by
    rintro o hremoved ⟨t, ht, href⟩
    exact ⟨t, ht, href, fun a ha => absurd (hremoved.symm.trans ha) nofun⟩
  cases o with
  | construct i => exact hnone rfl ⟨_, rfl, h.clear i⟩
  | constructMove i k => exact hnone rfl ⟨_, rfl, h.move⟩
  | constructRange i l => exact hnone rfl (h.constructRange ho)
  | assign i k => exact hnone rfl ⟨_, rfl, h.move⟩
  | prepend i a => exact hnone rfl ⟨_, rfl, h.prepend ho⟩
  | prependList i k => exact hnone rfl h.prependList
  | prependRange i l => exact hnone rfl (h.prependRange ho)
  | append i a => exact hnone rfl ⟨_, rfl, h.append ho⟩
  | appendList i k => exact hnone rfl h.appendList
  | appendRange i l => exact hnone rfl (h.appendRange ho)
  | popFirst i =>
    obtain ⟨a, l, hl⟩ := List.exists_cons_of_ne_nil ho
    obtain ⟨t, ht, href, hnull⟩ := h.popFirst hl
    refine ⟨t, by rw [Op.run, ht]; rfl, by rw [Op.denote, hl]; exact href, fun b hb => ?_⟩
    rw [Op.removed, hl] at hb
    exact Option.some.inj hb ▸ hnull
  | popLast i =>
    obtain ⟨l, z, hl⟩ : ∃ l z, L i = l ++ [z] :=
      ⟨_, _, (List.dropLast_append_getLast ho).symm⟩
    obtain ⟨t, ht, href, hnull⟩ := h.popLast hl
    refine ⟨t, by rw [Op.run, ht]; rfl, ?_, fun b hb => ?_⟩
    · rw [Op.denote, hl, List.dropLast_concat]
      exact href
    · rw [Op.removed, hl, List.getLast?_concat] at hb
      exact Option.some.inj hb ▸ hnull
  | popAll i => exact hnone rfl ⟨_, rfl, h.clear i⟩
  | reverse i n => exact hnone rfl (h.reverse ho)
  | clear i => exact hnone rfl ⟨_, rfl, h.clear i⟩
  | remove i a =>
    obtain ⟨t, ht, href, hnull⟩ := h.remove ho
    exact ⟨t, ht, href, fun b hb => Option.some.inj hb ▸ hnull⟩

/-- **The lists are the sequences.** In every run the items from the first one on are those of the
sequence, and those from the last one back are those of the reversed sequence, so that the outer
links are null. The items handed out are those of the sequence. Every operation within its contract
has a result, after which an item popped or removed by itself has null links; those of `PopAll` keep
theirs. -/
theorem refines [Fintype ι] {s : State ι α}
    (h : (machine (ι := ι) (α := α)).Reachable s) :
    (∀ i, Chain s.heap.next (s.heap.first i) (s.lists i) ∧
      Chain s.heap.prev (s.heap.last i) (s.lists i).reverse ∧
      (∀ a, (s.lists i).head? = some a → s.heap.prev a = none) ∧
      (∀ a, (s.lists i).getLast? = some a → s.heap.next a = none) ∧
      (s.heap.popFirst i).map Prod.fst = (s.lists i).head? ∧
      (s.heap.popLast i).map Prod.fst = (s.lists i).getLast? ∧
      (s.heap.popAll i).1 = ((s.lists i).head?, (s.lists i).getLast?) ∧
      ((s.heap.popAll i).2.next = s.heap.next ∧ (s.heap.popAll i).2.prev = s.heap.prev)) ∧
    ∀ o : Op ι α, o.Allowed s.heap s.lists →
      ∃ t, machine.step s o = some ⟨t, o.denote s.lists⟩ ∧
        ∀ a, o.removed s.lists = some a → t.next a = none ∧ t.prev a = none := by
  have href : Refines s.heap s.lists := by
    refine machine.invariant (P := fun s => Refines s.heap s.lists) ?_ ?_ h
    · exact fun s hs => .of_init hs
    · intro s o s' hs hstep
      simp only [machine, Option.ite_none_right_eq_some] at hstep
      obtain ⟨ho, hstep⟩ := hstep
      obtain ⟨t, ht, href, -⟩ := o.run_refines hs ho
      rw [ht] at hstep
      obtain rfl := Option.some.inj hstep
      exact href
  refine ⟨fun i => ⟨(href.chains i).1, (href.chains i).2, fun a ha => ?_, fun a ha => ?_, ?_, ?_,
    ?_, rfl, rfl⟩, fun o ho => ?_⟩
  · obtain ⟨l, hl⟩ := List.head?_eq_some_iff.1 ha
    have := href.seg i
    rw [hl] at this
    exact this.1
  · obtain ⟨l, hl⟩ := List.getLast?_eq_some_iff.1 ha
    have := href.seg i
    rw [hl] at this
    exact (Seg.mid this).2
  · rw [← href.first, Heap.popFirst]
    cases s.heap.first i with
    | none => rfl
    | some a =>
      rw [Option.map_some, Option.map_some]
      cases s.heap.next a <;> rfl
  · rw [← href.last, Heap.popLast]
    cases s.heap.last i with
    | none => rfl
    | some a =>
      rw [Option.map_some, Option.map_some]
      cases s.heap.prev a <;> rfl
  · rw [← href.first, ← href.last]
    rfl
  · obtain ⟨t, ht, -, hnull⟩ := o.run_refines href ho
    refine ⟨t, ?_, hnull⟩
    simp only [machine, if_pos ho, ht, Option.map_some]

/-- Two lists without items. -/
def emptyLists : State (Fin 2) ℕ :=
  ⟨⟨fun _ => none, fun _ => none, fun _ => none, fun _ => none⟩, fun _ => []⟩

/-- Items are appended to a list, which is moved, reversed, and put behind another one. -/
theorem refines_sample : ∃ s : State (Fin 2) ℕ, s.lists 0 = [4, 3, 1] ∧
    Chain s.heap.next (s.heap.first 0) (s.lists 0) := by
  obtain ⟨s, hs, hlists⟩ : ∃ s, machine.run emptyLists
      [.append 1 1, .append 1 2, .constructMove 0 1, .append 0 3, .remove 0 2, .reverse 0 3,
        .append 1 4, .prependList 0 1] = some s ∧ s.lists 0 = [4, 3, 1] :=
    Option.map_eq_some_iff.mp (by decide +kernel)
  obtain ⟨h, -⟩ := refines (.of_run (.init fun i => ⟨rfl, rfl, rfl⟩) hs)
  exact ⟨s, hlists, (h 0).1⟩

/-- Two items are popped with `PopAll`: the first one is still linked to the second one, and that
one back to it. -/
theorem popAll_linked : ∃ s s' : State (Fin 2) ℕ, machine.Reachable s ∧
    s.lists 0 = [1, 2] ∧ machine.step s (.popAll 0) = some s' ∧ s'.lists 0 = [] ∧
    s'.heap.next 1 = some 2 ∧ s'.heap.prev 2 = some 1 := by
  obtain ⟨s, hs, hrest⟩ : ∃ s, machine.run emptyLists [.append 0 1, .append 0 2] = some s ∧
      (s.lists 0, (machine.step s (.popAll 0)).map fun s' =>
        (s'.lists 0, s'.heap.next 1, s'.heap.prev 2)) = ([1, 2], some ([], some 2, some 1)) :=
    Option.map_eq_some_iff.mp (by decide +kernel)
  obtain ⟨hlists, hpop⟩ := Prod.mk.inj hrest
  obtain ⟨s', hs', hlinks⟩ := Option.map_eq_some_iff.mp hpop
  obtain ⟨hempty, hlinks⟩ := Prod.mk.inj hlinks
  obtain ⟨hnext, hprev⟩ := Prod.mk.inj hlinks
  exact ⟨s, s', .of_run (.init fun i => ⟨rfl, rfl, rfl⟩) hs, hlists, hs', hempty, hnext, hprev⟩

end DoublyList

end Serverbox
