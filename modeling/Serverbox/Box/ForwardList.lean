import Mathlib.Data.Fintype.Basic
import Serverbox.Lib.Chain
import Serverbox.Lib.Machine

/-!
# The forward list

`mg::box::ForwardList` is a singly linked list over the links of its items. It keeps the first item
and a pointer to the link of the last one, which is the pointer to the first item when the list is
empty. So an append does not branch, and a move of a list has to care for this pointer.

The heap holds the links of the items and the two fields of the lists. An operation which uses an
absent item, or which takes the pointer inside of a list for the link of an item, has no result.
Next to the heap stand the sequences which the operations denote.

Source: `src/mg/box/ForwardList.h`.

## Main definitions

* `ForwardList.Op.run`: the operations on the heap.
* `ForwardList.Op.denote`: the sequences which they denote.
* `ForwardList.machine`: any operations on any number of lists, within their contracts.

## Main results

* `ForwardList.moves_refine`: the lists are the sequences, unless a list is constructed from an
  empty one.
* `ForwardList.move_construct_lost`: the item appended to such a list is lost.
-/

namespace Serverbox

namespace ForwardList

/-- `myLastLink`: the link of an item, or the first pointer of a list. -/
inductive Slot (ι α : Type*)
  | item (a : α)
  | list (i : ι)
  deriving DecidableEq

/-- The links of the items, and the fields of the lists. -/
structure Heap (ι α : Type*) where
  link : α → Option α
  first : ι → Option α
  lastLink : ι → Slot ι α

variable {ι α : Type*} [DecidableEq ι] [DecidableEq α]

namespace Heap

/-- A pointer is written through a pointer to a link. -/
def store (s : Heap ι α) (p : Slot ι α) (a : Option α) : Heap ι α :=
  match p with
  | .item z => { s with link := Function.update s.link z a }
  | .list i => { s with first := Function.update s.first i a }

/-- The fields of a list are set. -/
def setList (s : Heap ι α) (i : ι) (first : Option α) (lastLink : Slot ι α) : Heap ι α :=
  { s with
    first := Function.update s.first i first
    lastLink := Function.update s.lastLink i lastLink }

/-- `Clear`, and the default constructor. -/
def clear (s : Heap ι α) (i : ι) : Heap ι α := s.setList i none (.list i)

/-- The constructor from another list. -/
def constructMove (s : Heap ι α) (i src : ι) : Heap ι α :=
  (s.setList i (s.first src) (s.lastLink src)).clear src

/-- The constructor from the first and the last one of some linked items. -/
def constructRange (s : Heap ι α) (i : ι) (first last : Option α) : Heap ι α :=
  match last with
  | some z => (s.store (.item z) none).setList i first (.item z)
  | none => s.setList i first (.list i)

/-- `operator=`. -/
def assign (s : Heap ι α) (i src : ι) : Heap ι α :=
  match s.first src with
  | some a => (s.setList i (some a) (s.lastLink src)).clear src
  | none => s.setList i none (.list i)

/-- The items up to `z` are put before the first item: the end of each `Prepend`. -/
def prependChain (s : Heap ι α) (i : ι) (a z : α) : Heap ι α :=
  (s.store (.item z) (s.first i)).setList i (some a)
    (if s.first i = none then .item z else s.lastLink i)

/-- `Prepend` of an item. -/
def prepend (s : Heap ι α) (i : ι) (a : α) : Heap ι α := s.prependChain i a a

/-- `Prepend` of a list. -/
def prependList (s : Heap ι α) (i src : ι) : Option (Heap ι α) :=
  match s.first src with
  | some a =>
    match s.lastLink src with
    | .item z => some ((s.prependChain i a z).clear src)
    | .list _ => none
  | none => some s

/-- `Prepend` of some linked items. -/
def prependRange (s : Heap ι α) (i : ι) (first last : Option α) : Option (Heap ι α) :=
  match first with
  | some a => last.map fun z => s.prependChain i a z
  | none => some s

/-- `PopFirst`. -/
def popFirst (s : Heap ι α) (i : ι) : Option (α × Heap ι α) :=
  match s.first i with
  | some a => some (a, s.setList i (s.link a) (if s.link a = none then .list i else s.lastLink i))
  | none => none

/-- The pointer to the last link is moved. -/
def setLast (s : Heap ι α) (i : ι) (p : Slot ι α) : Heap ι α :=
  { s with lastLink := Function.update s.lastLink i p }

/-- `Append` of an item. -/
def append (s : Heap ι α) (i : ι) (a : α) : Heap ι α :=
  ((s.store (.item a) none).store (s.lastLink i) (some a)).setLast i (.item a)

/-- `Append` of a list. -/
def appendList (s : Heap ι α) (i src : ι) : Heap ι α :=
  match s.first src with
  | some a => ((s.store (s.lastLink i) (some a)).setLast i (s.lastLink src)).clear src
  | none => s

/-- `Append` of some linked items. -/
def appendRange (s : Heap ι α) (i : ι) (first last : Option α) : Option (Heap ι α) :=
  match first with
  | some a => last.map fun z =>
    ((s.store (s.lastLink i) (some a)).setLast i (.item z)).store (.item z) none
  | none => some s

/-- `Insert`. -/
def insert (s : Heap ι α) (i : ι) (prev : Option α) (a : α) : Heap ι α :=
  match prev with
  | some p =>
    let next := s.link p
    let s := (s.store (.item a) next).store (.item p) (some a)
    if s.link a = none then s.setLast i (.item a) else s
  | none =>
    if s.first i = none then (s.setList i (some a) (.item a)).store (.item a) none
    else
      let s := s.store (.item a) (s.first i)
      s.setList i (some a) (s.lastLink i)

/-- `GetLast`. -/
def getLast (s : Heap ι α) (i : ι) : Option (Option α) :=
  if s.lastLink i = .list i then some none else
  match s.lastLink i with
  | .item z => some (some z)
  | .list _ => none

/-- `PopAll`. -/
def popAllItems (s : Heap ι α) (i : ι) : Option α × Heap ι α := (s.first i, s.clear i)

/-- `PopAll` with the tail. -/
def popAll (s : Heap ι α) (i : ι) : Option ((Option α × Option α) × Heap ι α) :=
  (s.getLast i).map fun z => ((s.first i, z), s.clear i)

/-- The loop of `Reverse`. The number bounds its turns. -/
def reverseLoop : ℕ → Option α → ι → Heap ι α → Option (Heap ι α)
  | _, none, _, s => some s
  | 0, some _, _, _ => none
  | n + 1, some a, i, s => reverseLoop n (s.link a) i (s.prepend i a)

/-- `Reverse`. -/
def reverse (s : Heap ι α) (n : ℕ) (i : ι) : Option (Heap ι α) :=
  reverseLoop n (s.first i) i (s.clear i)

end Heap

/-- An operation. Linked items are given from the first to the last one. -/
inductive Op (ι α : Type*)
  | construct (i : ι)
  | constructMove (i src : ι)
  | constructRange (i : ι) (l : List α)
  | assign (i src : ι)
  | prepend (i : ι) (a : α)
  | prependList (i src : ι)
  | prependRange (i : ι) (l : List α)
  | append (i : ι) (a : α)
  | appendList (i src : ι)
  | appendRange (i : ι) (l : List α)
  | insert (i : ι) (prev : Option α) (a : α)
  | popFirst (i : ι)
  | popAllItems (i : ι)
  | popAll (i : ι)
  | reverse (i : ι) (n : ℕ)
  | clear (i : ι)

namespace Op

/-- The operation on the heap. -/
def run (s : Heap ι α) : Op ι α → Option (Heap ι α)
  | construct i => some (s.clear i)
  | constructMove i src => some (s.constructMove i src)
  | constructRange i l => some (s.constructRange i l.head? l.getLast?)
  | assign i src => some (s.assign i src)
  | prepend i a => some (s.prepend i a)
  | prependList i src => s.prependList i src
  | prependRange i l => s.prependRange i l.head? l.getLast?
  | append i a => some (s.append i a)
  | appendList i src => some (s.appendList i src)
  | appendRange i l => s.appendRange i l.head? l.getLast?
  | insert i prev a => some (s.insert i prev a)
  | popFirst i => (s.popFirst i).map Prod.snd
  | popAllItems i => some (s.popAllItems i).2
  | popAll i => (s.popAll i).map Prod.snd
  | reverse i n => s.reverse n i
  | clear i => some (s.clear i)

/-- The sequences after the operation. -/
def denote (L : ι → List α) : Op ι α → ι → List α
  | construct i => Function.update L i []
  | constructMove i src => Function.update (Function.update L i (L src)) src []
  | constructRange i l => Function.update L i l
  | assign i src => Function.update (Function.update L i (L src)) src []
  | prepend i a => Function.update L i (a :: L i)
  | prependList i src => Function.update (Function.update L i (L src ++ L i)) src []
  | prependRange i l => Function.update L i (l ++ L i)
  | append i a => Function.update L i (L i ++ [a])
  | appendList i src => Function.update (Function.update L i (L i ++ L src)) src []
  | appendRange i l => Function.update L i (L i ++ l)
  | insert i (some p) a =>
    Function.update L i ((L i).flatMap fun b => if b = p then [p, a] else [b])
  | insert i none a => Function.update L i (a :: L i)
  | popFirst i => Function.update L i (L i).tail
  | popAllItems i => Function.update L i []
  | popAll i => Function.update L i []
  | reverse i _ => Function.update L i (L i).reverse
  | clear i => Function.update L i []

end Op

/-- The items of the list are in no forward list, and each is linked to the next one. -/
def Loose (link : α → Option α) (L : ι → List α) (l : List α) : Prop :=
  Linked link l ∧ l.Nodup ∧ ∀ a ∈ l, ∀ i, a ∉ L i

/-- The contracts of the operations. An item which is put into a list is in no list. -/
def Op.Allowed (link : α → Option α) (L : ι → List α) : Op ι α → Prop
  | constructMove i src => i ≠ src
  | constructRange _ l | prependRange _ l | appendRange _ l => Loose link L l
  | prepend _ a | append _ a | insert _ none a => Loose link L [a]
  | insert i (some p) a => Loose link L [a] ∧ p ∈ L i
  | popFirst i => L i ≠ []
  | reverse i n => (L i).length ≤ n
  | _ => True

/-- The heap, and the sequences which the operations have denoted. -/
structure State (ι α : Type*) where
  heap : Heap ι α
  lists : ι → List α

instance [Fintype ι] (link : α → Option α) (L : ι → List α) (l : List α) :
    Decidable (Loose link L l) :=
  inferInstanceAs (Decidable (Linked link l ∧ l.Nodup ∧ ∀ a ∈ l, ∀ i, a ∉ L i))

instance [Fintype ι] (link : α → Option α) (L : ι → List α) :
    (o : Op ι α) → Decidable (o.Allowed link L)
  | .constructMove i src => inferInstanceAs (Decidable (i ≠ src))
  | .constructRange _ l | .prependRange _ l | .appendRange _ l =>
    inferInstanceAs (Decidable (Loose link L l))
  | .prepend _ a | .append _ a | .insert _ none a =>
    inferInstanceAs (Decidable (Loose link L [a]))
  | .insert i (some p) a => inferInstanceAs (Decidable (Loose link L [a] ∧ p ∈ L i))
  | .popFirst i => inferInstanceAs (Decidable (L i ≠ []))
  | .reverse i n => inferInstanceAs (Decidable ((L i).length ≤ n))
  | .construct _ | .assign _ _ | .prependList _ _ | .appendList _ _ | .popAllItems _ | .popAll _
  | .clear _ => .isTrue trivial

/-- Any operations within their contracts. -/
def machine [Fintype ι] : Machine (State ι α) (Op ι α) where
  init s := ∀ i, s.heap.first i = none ∧ s.heap.lastLink i = .list i ∧ s.lists i = []
  step s a :=
    if a.Allowed s.heap.link s.lists then
      (a.run s.heap).map fun t => ⟨t, a.denote s.lists⟩
    else none

/-- The slot of the last link. -/
def slot (i : ι) (l : List α) : Slot ι α :=
  match l.getLast? with
  | some z => .item z
  | none => .list i

/-- The lists are the sequences. -/
structure Refines (s : Heap ι α) (L : ι → List α) : Prop where
  chain : ∀ i, Chain s.link (s.first i) (L i)
  last : ∀ i, s.lastLink i = slot i (L i)
  nodup : ∀ i, (L i).Nodup
  apart : ∀ i j, i ≠ j → ∀ a ∈ L i, a ∉ L j

/-- The operation does not construct a list from an empty one. -/
def NonemptyMove (s : State ι α) : Op ι α → Prop
  | .constructMove _ src => s.lists src ≠ []
  | _ => True

instance (s : State ι α) : (o : Op ι α) → Decidable (NonemptyMove s o)
  | .constructMove _ src => inferInstanceAs (Decidable (s.lists src ≠ []))
  | .construct _ | .constructRange _ _ | .assign _ _ | .prepend _ _ | .prependList _ _
  | .prependRange _ _ | .append _ _ | .appendList _ _ | .appendRange _ _ | .insert _ _ _
  | .popFirst _ | .popAllItems _ | .popAll _ | .reverse _ _ | .clear _ => .isTrue trivial

variable {s : Heap ι α} {L : ι → List α} {i j k : ι} {a p z : α} {l r : List α}

omit [DecidableEq ι] [DecidableEq α] in
theorem slot_append_singleton : slot i (l ++ [z]) = .item z := by
  simp [slot]

omit [DecidableEq ι] [DecidableEq α] in
theorem slot_of_ne_nil (hl : l ≠ []) : slot i (r ++ l) = slot j l := by
  obtain ⟨m, y, rfl⟩ : ∃ m y, l = m ++ [y] := ⟨_, _, (List.dropLast_append_getLast hl).symm⟩
  rw [← List.append_assoc, slot_append_singleton, slot_append_singleton]

namespace Refines

omit [DecidableEq α] in
/-- A list is changed, and only the links of its items and of free ones. -/
theorem change (h : Refines s L) {link : α → Option α} {first : Option α}
    (hlink : ∀ j, j ≠ i → ∀ a ∈ L j, link a = s.link a) (hchain : Chain link first l)
    (hnodup : l.Nodup) (hapart : ∀ j, j ≠ i → ∀ a ∈ l, a ∉ L j) :
    Refines ⟨link, Function.update s.first i first, Function.update s.lastLink i (slot i l)⟩
      (Function.update L i l) where
  chain j := by
    by_cases hj : j = i
    · subst hj
      simpa only [Function.update_self] using hchain
    · simpa only [Function.update_of_ne hj] using (h.chain j).congr (hlink j hj)
  last j := by
    by_cases hj : j = i
    · subst hj
      simp only [Function.update_self]
    · simpa only [Function.update_of_ne hj] using h.last j
  nodup j := by
    by_cases hj : j = i
    · subst hj
      simpa only [Function.update_self] using hnodup
    · simpa only [Function.update_of_ne hj] using h.nodup j
  apart j k hjk b hb := by
    by_cases hj : j = i
    · subst hj
      rw [Function.update_of_ne (Ne.symm hjk)]
      exact hapart k (Ne.symm hjk) b (by simpa only [Function.update_self] using hb)
    · rw [Function.update_of_ne hj] at hb
      by_cases hk : k = i
      · subst hk
        rw [Function.update_self]
        exact fun hbl => hapart j hj b hbl hb
      · rw [Function.update_of_ne hk]
        exact h.apart j k hjk b hb

omit [DecidableEq α] in
/-- A list is emptied, whatever the links of its items are. -/
theorem void (h : Refines s L) (i : ι) {link : α → Option α}
    (hlink : ∀ j, j ≠ i → ∀ a ∈ L j, link a = s.link a) :
    Refines ⟨link, Function.update s.first i none, Function.update s.lastLink i (.list i)⟩
      (Function.update L i []) :=
  h.change (l := []) hlink rfl List.nodup_nil fun _ _ _ ha => absurd ha List.not_mem_nil

omit [DecidableEq α] in
theorem clear (h : Refines s L) (i : ι) : Refines (s.clear i) (Function.update L i []) :=
  h.void i fun _ _ _ _ => rfl

omit [DecidableEq ι] in
/-- The link of a free item is set. -/
theorem loose (h : Refines s L) (ha : ∀ i, a ∉ L i) (q : Option α) :
    Refines { s with link := Function.update s.link a q } L :=
  { h with chain := fun i => (h.chain i).update (ha i) }

omit [DecidableEq ι] [DecidableEq α] in
/-- The list has no first item when it is empty. -/
theorem first_eq_none (h : Refines s L) : s.first i = none ↔ L i = [] := by
  rw [(h.chain i).head, List.head?_eq_none_iff]

/-- The items are put before the first one. -/
theorem prependChain (h : Refines s L) (hl : Loose s.link L (l ++ [z]))
    (ha : (l ++ [z]).head? = some a) :
    Refines (s.prependChain i a z) (Function.update L i (l ++ [z] ++ L i)) := by
  obtain ⟨hlinked, hnodup, hfree⟩ := hl
  have hz : ∀ j, z ∉ L j := hfree z (by simp)
  have hzl : z ∉ l := fun hm => (List.nodup_append.mp hnodup).2.2 z hm z (by simp) rfl
  have hchain := hlinked.chain hzl (h.chain i) (hz i)
  rw [ha] at hchain
  have hset : s.prependChain i a z = ⟨Function.update s.link z (s.first i),
      Function.update s.first i (some a),
      Function.update s.lastLink i (slot i (l ++ [z] ++ L i))⟩ := by
    unfold Heap.prependChain Heap.setList Heap.store
    congr 2
    split
    · rename_i hnone
      rw [h.first_eq_none.mp hnone, List.append_nil, slot_append_singleton]
    · rename_i hsome
      obtain ⟨m, y, hm⟩ : ∃ m y, L i = m ++ [y] :=
        ⟨_, _, (List.dropLast_append_getLast (mt h.first_eq_none.mpr hsome)).symm⟩
      rw [h.last, hm, ← List.append_assoc, slot_append_singleton, slot_append_singleton]
  rw [hset]
  refine h.change (fun j hj b hb => Function.update_of_ne (fun he : b = z => hz j (he ▸ hb)) _ _)
    ?_ ?_ ?_
  · rw [List.append_assoc]
    exact hchain
  · exact List.nodup_append.mpr ⟨hnodup, h.nodup i, fun b hb c hc he => hfree b hb i (he ▸ hc)⟩
  · intro j hj b hb
    rcases List.mem_append.mp hb with hb | hb
    · exact hfree b hb j
    · exact h.apart i j (Ne.symm hj) b hb

/-- A chain of free items is put behind the last one. -/
theorem appendChain (h : Refines s L) (hr : Chain s.link (some a) r) (hnodup : r.Nodup)
    (hfree : ∀ b ∈ r, ∀ j, b ∉ L j) :
    Refines ((s.store (s.lastLink i) (some a)).setLast i (slot i r))
      (Function.update L i (L i ++ r)) := by
  have hne : r ≠ [] := by
    rintro rfl
    cases hr
  obtain ⟨r, y, rfl⟩ : ∃ m y, r = m ++ [y] := ⟨_, _, (List.dropLast_append_getLast hne).symm⟩
  have hnodup' : (L i ++ (r ++ [y])).Nodup :=
    List.nodup_append.mpr ⟨h.nodup i, hnodup, fun b hb c hc he => hfree c hc i (he ▸ hb)⟩
  have hapart : ∀ j, j ≠ i → ∀ b ∈ L i ++ (r ++ [y]), b ∉ L j := by
    intro j hj b hb
    rcases List.mem_append.mp hb with hb | hb
    · exact h.apart i j (Ne.symm hj) b hb
    · exact hfree b hb j
  have hslot : slot i (r ++ [y]) = slot i (L i ++ (r ++ [y])) := (slot_of_ne_nil hne).symm
  rw [hslot, h.last]
  obtain hl | ⟨l, z, hl⟩ := (L i).eq_nil_or_concat'
  · have hset : (s.store (slot i (L i)) (some a)).setLast i (slot i (L i ++ (r ++ [y]))) =
        ⟨s.link, Function.update s.first i (some a),
          Function.update s.lastLink i (slot i (L i ++ (r ++ [y])))⟩ := by
      rw [hl]
      rfl
    rw [hset]
    refine h.change (fun _ _ _ _ => rfl) ?_ hnodup' hapart
    rw [hl]
    exact hr
  · have hzl : z ∉ l := fun hm => by
      have := h.nodup i
      rw [hl] at this
      exact (List.nodup_append.mp this).2.2 z hm z (by simp) rfl
    have hzr : z ∉ r ++ [y] := fun hm => hfree z hm i (by simp [hl])
    have hchain := h.chain i
    rw [hl] at hchain
    have hself : (s.store (.item z) (some a)).first =
        Function.update s.first i (s.first i) := (Function.update_eq_self i _).symm
    have hset : (s.store (slot i (L i)) (some a)).setLast i (slot i (L i ++ (r ++ [y]))) =
        ⟨Function.update s.link z (some a), Function.update s.first i (s.first i),
          Function.update s.lastLink i (slot i (L i ++ (r ++ [y])))⟩ := by
      rw [hl, slot_append_singleton, Function.update_eq_self]
      rfl
    rw [hset]
    refine h.change (fun j hj b hb => Function.update_of_ne (fun he : b = z => ?_) _ _) ?_ hnodup'
      hapart
    · exact h.apart i j (Ne.symm hj) z (by simp [hl]) (he ▸ hb)
    · rw [hl, List.append_assoc]
      exact hchain.splice hzl hr hzr

omit [DecidableEq α] in
/-- The items of another list are free once it is emptied. -/
theorem loose_of_clear (h : Refines s L) : Loose s.link (Function.update L k []) (L k) := by
  refine ⟨Linked.of_chain (h.chain k), h.nodup k, fun b hb j => ?_⟩
  by_cases hj : j = k
  · subst hj
    simp
  · rw [Function.update_of_ne hj]
    exact h.apart k j (Ne.symm hj) b hb

omit [DecidableEq ι] [DecidableEq α] in
theorem lastLink_eq (h : Refines s L) (hl : L i = l ++ [z]) : s.lastLink i = .item z := by
  rw [h.last, hl, slot_append_singleton]

omit [DecidableEq ι] [DecidableEq α] in
/-- A list with a first item has a last one. -/
theorem exists_last (h : Refines s L) (hf : s.first i = some a) :
    ∃ l z, L i = l ++ [z] ∧ s.lastLink i = .item z ∧ (l ++ [z]).head? = some a := by
  have hne : L i ≠ [] := fun hl => by
    rw [h.first_eq_none.mpr hl] at hf
    cases hf
  obtain ⟨l, z, hl⟩ : ∃ m y, L i = m ++ [y] := ⟨_, _, (List.dropLast_append_getLast hne).symm⟩
  exact ⟨l, z, hl, h.lastLink_eq hl, by rw [← hl, ← (h.chain i).head, hf]⟩

theorem constructMove (h : Refines s L) (hi : i ≠ k) (hne : L k ≠ []) :
    Refines (s.constructMove i k) ((Op.constructMove i k).denote L) := by
  have hl := h.loose_of_clear (k := k)
  have hslot : slot k (L k) = slot i (L k) := slot_of_ne_nil (r := []) hne
  have hset : s.constructMove i k = ⟨(s.clear k).link,
      Function.update (s.clear k).first i (s.first k),
      Function.update (s.clear k).lastLink i (slot i (L k))⟩ := by
    unfold Heap.constructMove Heap.clear Heap.setList
    dsimp only
    rw [Function.update_comm hi, Function.update_comm hi, h.last k, hslot]
  rw [hset, Op.denote, Function.update_comm hi]
  exact (h.clear k).change (fun _ _ _ _ => rfl) (h.chain k) (h.nodup k)
    fun j _ b hb => hl.2.2 b hb j

theorem assign (h : Refines s L) :
    Refines (s.assign i k) ((Op.assign i k).denote L) := by
  unfold Heap.assign
  cases hf : s.first k with
  | none =>
    have hl := h.first_eq_none.mp hf
    have hdenote : (Op.assign i k).denote L = Function.update L i [] := by
      rw [Op.denote, hl]
      by_cases hi : i = k
      · subst hi
        exact Function.update_idem _ _ _
      · rw [Function.update_comm hi, ← hl, Function.update_eq_self]
    rw [hdenote]
    exact h.clear i
  | some a =>
    obtain ⟨l, z, hl, -⟩ := h.exists_last hf
    dsimp only
    rw [← hf]
    by_cases hi : i = k
    · subst hi
      have hset : (s.setList i (s.first i) (s.lastLink i)).clear i = s.clear i := by
        unfold Heap.clear Heap.setList
        simp only [Function.update_idem]
      rw [hset, Op.denote, Function.update_idem]
      exact h.clear i
    · exact h.constructMove hi (by simp [hl])

theorem constructRange (h : Refines s L) (hl : Loose s.link L l) :
    Refines (s.constructRange i l.head? l.getLast?) ((Op.constructRange i l).denote L) := by
  obtain ⟨hlinked, hnodup, hfree⟩ := hl
  obtain rfl | ⟨l, z, rfl⟩ := l.eq_nil_or_concat'
  · exact h.clear i
  · have hz : z ∉ l := fun hm => (List.nodup_append.mp hnodup).2.2 z hm z (by simp) rfl
    rw [List.getLast?_concat, Op.denote]
    have hset : s.constructRange i (l ++ [z]).head? (some z) =
        ⟨Function.update s.link z none, Function.update s.first i (l ++ [z]).head?,
          Function.update s.lastLink i (slot i (l ++ [z]))⟩ := by
      rw [slot_append_singleton]
      rfl
    rw [hset]
    exact h.change
      (fun j _ b hb => Function.update_of_ne (fun he : b = z => hfree z (by simp) j (he ▸ hb)) _ _)
      (hlinked.chain hz rfl List.not_mem_nil) hnodup fun j _ b hb => hfree b hb j

theorem prepend (h : Refines s L) (ha : Loose s.link L [a]) :
    Refines (s.prepend i a) ((Op.prepend i a).denote L) :=
  h.prependChain (l := []) ha rfl

theorem prependRange (h : Refines s L) (hl : Loose s.link L l) :
    ∃ t, s.prependRange i l.head? l.getLast? = some t ∧
      Refines t ((Op.prependRange i l).denote L) := by
  obtain rfl | ⟨l, z, rfl⟩ := l.eq_nil_or_concat'
  · refine ⟨s, rfl, ?_⟩
    rw [Op.denote, List.nil_append, Function.update_eq_self]
    exact h
  · cases hhead : (l ++ [z]).head? with
    | none => simp at hhead
    | some a =>
      rw [List.getLast?_concat]
      exact ⟨_, rfl, h.prependChain hl hhead⟩

theorem prependList (h : Refines s L) :
    ∃ t, s.prependList i k = some t ∧ Refines t ((Op.prependList i k).denote L) := by
  unfold Heap.prependList
  cases hf : s.first k with
  | none =>
    have hl := h.first_eq_none.mp hf
    refine ⟨s, rfl, ?_⟩
    rw [Op.denote, hl, List.nil_append, Function.update_eq_self, ← hl, Function.update_eq_self]
    exact h
  | some a =>
    obtain ⟨l, z, hl, hlast, hhead⟩ := h.exists_last hf
    rw [hlast]
    refine ⟨_, rfl, ?_⟩
    rw [Op.denote]
    by_cases hi : i = k
    · subst hi
      rw [Function.update_idem]
      have hset : (s.prependChain i a z).clear i = ⟨Function.update s.link z (s.first i),
          Function.update s.first i none, Function.update s.lastLink i (.list i)⟩ := by
        unfold Heap.prependChain Heap.clear Heap.setList Heap.store
        simp only [Function.update_idem]
      rw [hset]
      exact h.void i fun j hj b hb => Function.update_of_ne
        (fun he : b = z => h.apart i j (Ne.symm hj) z (by simp [hl]) (he ▸ hb)) _ _
    · have hset : (s.prependChain i a z).clear k = (s.clear k).prependChain i a z := by
        unfold Heap.prependChain Heap.clear Heap.setList Heap.store
        simp only [Function.update_of_ne hi, Function.update_comm hi]
      have hloose := h.loose_of_clear (k := k)
      rw [hl] at hloose
      have := (h.clear k).prependChain (i := i) (a := a) hloose hhead
      rw [hset, Function.update_comm hi, hl]
      rwa [Function.update_of_ne hi] at this

theorem append (h : Refines s L) (ha : Loose s.link L [a]) :
    Refines (s.append i a) ((Op.append i a).denote L) :=
  (h.loose (ha.2.2 a (by simp)) none).appendChain (r := [a])
    ⟨rfl, show Function.update s.link a none a = none from Function.update_self ..⟩ ha.2.1 ha.2.2

theorem appendRange (h : Refines s L) (hl : Loose s.link L l) :
    ∃ t, s.appendRange i l.head? l.getLast? = some t ∧
      Refines t ((Op.appendRange i l).denote L) := by
  obtain ⟨hlinked, hnodup, hfree⟩ := hl
  obtain rfl | ⟨l, z, rfl⟩ := l.eq_nil_or_concat'
  · refine ⟨s, rfl, ?_⟩
    rw [Op.denote, List.append_nil, Function.update_eq_self]
    exact h
  · have hz : z ∉ l := fun hm => (List.nodup_append.mp hnodup).2.2 z hm z (by simp) rfl
    have hzL : ∀ j, z ∉ L j := hfree z (by simp)
    have hchain := hlinked.chain (r := []) (q := none) hz rfl List.not_mem_nil
    cases hhead : (l ++ [z]).head? with
    | none => simp at hhead
    | some a =>
      rw [hhead] at hchain
      have happ := (h.loose hzL none).appendChain (i := i) hchain hnodup hfree
      rw [List.getLast?_concat]
      refine ⟨((s.store (s.lastLink i) (some a)).setLast i (.item z)).store (.item z) none, rfl, ?_⟩
      have hset : ((s.store (s.lastLink i) (some a)).setLast i (.item z)).store (.item z) none =
          (({ s with link := Function.update s.link z none } : Heap ι α).store (s.lastLink i)
            (some a)).setLast i (slot i (l ++ [z])) := by
        rw [slot_append_singleton]
        cases hlast : s.lastLink i with
        | list j => rfl
        | item y =>
          have hy : y ≠ z := by
            rintro rfl
            rw [h.last, slot] at hlast
            cases hy : (L i).getLast? with
            | none => simp [hy] at hlast
            | some x =>
              rw [hy] at hlast
              obtain rfl : x = y := Slot.item.inj hlast
              exact hzL i (List.mem_of_getLast? hy)
          unfold Heap.setLast Heap.store
          dsimp only
          rw [Function.update_comm hy]
      rw [hset]
      exact happ

theorem appendList (h : Refines s L) :
    Refines (s.appendList i k) ((Op.appendList i k).denote L) := by
  unfold Heap.appendList
  cases hf : s.first k with
  | none =>
    have hl := h.first_eq_none.mp hf
    rw [Op.denote, hl, List.append_nil, Function.update_eq_self, ← hl, Function.update_eq_self]
    exact h
  | some a =>
    obtain ⟨l, z, hl, hlast, hhead⟩ := h.exists_last hf
    dsimp only
    rw [Op.denote]
    by_cases hi : i = k
    · subst hi
      rw [Function.update_idem]
      have hset : ((s.store (s.lastLink i) (some a)).setLast i (s.lastLink i)).clear i =
          ⟨Function.update s.link z (some a), Function.update s.first i none,
            Function.update s.lastLink i (.list i)⟩ := by
        rw [hlast]
        unfold Heap.setLast Heap.clear Heap.setList Heap.store
        simp only [Function.update_idem]
      rw [hset]
      exact h.void i fun j hj b hb => Function.update_of_ne
        (fun he : b = z => h.apart i j (Ne.symm hj) z (by simp [hl]) (he ▸ hb)) _ _
    · have hset : ((s.store (s.lastLink i) (some a)).setLast i (s.lastLink k)).clear k =
          ((s.clear k).store ((s.clear k).lastLink i) (some a)).setLast i
            (slot i (L k)) := by
        have hslot : s.lastLink k = slot i (L k) := by
          rw [hlast, hl, slot_append_singleton]
        have hli : (s.clear k).lastLink i = s.lastLink i := Function.update_of_ne hi _ _
        rw [hslot, hli]
        cases hlasti : s.lastLink i with
        | item y =>
          unfold Heap.setLast Heap.clear Heap.setList Heap.store
          simp only [Function.update_comm hi]
        | list j =>
          have hj : j = i := by
            rw [h.last, slot] at hlasti
            cases hy : (L i).getLast? with
            | none =>
              rw [hy] at hlasti
              exact (Slot.list.inj hlasti).symm
            | some x => simp [hy] at hlasti
          subst hj
          unfold Heap.setLast Heap.clear Heap.setList Heap.store
          simp only [Function.update_comm hi]
      have hloose := h.loose_of_clear (k := k)
      have hchain : Chain (s.clear k).link (some a) (L k) := hf ▸ h.chain k
      have := (h.clear k).appendChain (i := i) hchain hloose.2.1 hloose.2.2
      rw [hset, Function.update_comm hi]
      rwa [Function.update_of_ne hi] at this

theorem insert_none : s.insert i none a = s.prepend i a := by
  unfold Heap.insert Heap.prepend Heap.prependChain Heap.setList Heap.store
  cases hf : s.first i with
  | none => rfl
  | some b => rfl

omit [DecidableEq ι] in
/-- Behind an item of a list. -/
theorem flatMap_insert {l₁ l₂ : List α} (h : (l₁ ++ p :: l₂).Nodup) :
    ((l₁ ++ p :: l₂).flatMap fun b => if b = p then [p, a] else [b]) = l₁ ++ p :: a :: l₂ := by
  have hfix : ∀ l : List α, p ∉ l → (l.flatMap fun b => if b = p then [p, a] else [b]) = l := by
    intro l hp
    induction l with
    | nil => rfl
    | cons b l ih =>
      obtain ⟨hb, hl⟩ := not_or.mp (mt List.mem_cons.mpr hp)
      rw [List.flatMap_cons, if_neg (Ne.symm hb), ih hl]
      rfl
  obtain ⟨-, hcons, hdis⟩ := List.nodup_append.mp h
  rw [List.flatMap_append, List.flatMap_cons, if_pos rfl,
    hfix l₁ fun hp => hdis p hp p List.mem_cons_self rfl, hfix l₂ (List.nodup_cons.mp hcons).1]
  rfl

theorem insert (h : Refines s L) (ha : Loose s.link L [a]) (hp : p ∈ L i) :
    Refines (s.insert i (some p) a) ((Op.insert i (some p) a).denote L) := by
  have hfree : ∀ j, a ∉ L j := ha.2.2 a (by simp)
  obtain ⟨l₁, l₂, hl⟩ := List.append_of_mem hp
  have hnodup := h.nodup i
  rw [hl] at hnodup
  obtain ⟨-, hcons, hdis⟩ := List.nodup_append.mp hnodup
  have hpa : p ≠ a := fun he => hfree i (he ▸ hp)
  have hal : a ∉ l₁ ++ p :: l₂ := hl ▸ hfree i
  have ha₁ : a ∉ l₁ := fun hm => hal (List.mem_append_left _ hm)
  have ha₂ : a ∉ l₂ := fun hm => hal (by simp [hm])
  have hp₁ : p ∉ l₁ := fun hm => hdis p hm p List.mem_cons_self rfl
  have hp₂ : p ∉ l₂ := (List.nodup_cons.mp hcons).1
  have h' := h.loose hfree (s.link p)
  have hchain : Chain (Function.update s.link a (s.link p)) (s.first i) (l₁ ++ p :: l₂) := by
    have := h'.chain i
    rwa [hl] at this
  have hnext : Chain s.link (s.link p) l₂ := by
    have := h.chain i
    rw [hl] at this
    exact this.of_append
  have hrest : Chain (Function.update s.link a (s.link p)) (some a) (a :: l₂) :=
    ⟨rfl, by rw [Function.update_self]; exact hnext.update ha₂⟩
  have hlinked : Linked (Function.update s.link a (s.link p)) (l₁ ++ [p]) := by
    have := Linked.of_chain hchain
    rw [List.append_cons] at this
    exact Linked.left this
  have hfirst : (l₁ ++ [p]).head? = s.first i := by
    rw [hchain.head]
    cases l₁ <;> rfl
  have hnew := hlinked.chain hp₁ hrest (by simp [hpa, hp₂])
  rw [hfirst] at hnew
  rw [Op.denote, hl, flatMap_insert hnodup]
  have hset : s.insert i (some p) a =
      ⟨Function.update (Function.update s.link a (s.link p)) p (some a),
        Function.update s.first i (s.first i),
        Function.update s.lastLink i (slot i (l₁ ++ p :: a :: l₂))⟩ := by
    have hlink : Function.update (Function.update s.link a (s.link p)) p (some a) a = s.link p := by
      rw [Function.update_of_ne (Ne.symm hpa), Function.update_self]
    rw [Function.update_eq_self]
    unfold Heap.insert Heap.store Heap.setLast
    dsimp only
    split
    · rename_i hnone
      obtain rfl : l₂ = [] := by
        rw [hlink.symm.trans hnone] at hnext
        cases l₂ with
        | nil => rfl
        | cons b l => cases hnext.1
      rw [List.append_cons, slot_append_singleton]
    · rename_i hsome
      have hne : l₂ ≠ [] := by
        rintro rfl
        exact hsome (hlink.trans hnext)
      have hslot : slot i (l₁ ++ p :: a :: l₂) = s.lastLink i := calc
        slot i (l₁ ++ p :: a :: l₂) = slot i ((l₁ ++ [p, a]) ++ l₂) := by simp
        _ = slot i l₂ := slot_of_ne_nil hne
        _ = slot i ((l₁ ++ [p]) ++ l₂) := (slot_of_ne_nil hne).symm
        _ = s.lastLink i := by rw [h.last, hl, ← List.append_cons]
      rw [hslot, Function.update_eq_self]
  rw [hset]
  refine h.change (fun j hj b hb => ?_) hnew ?_ fun j hj b hb => ?_
  · have hbp : b ≠ p := fun he => h.apart i j (Ne.symm hj) p hp (he ▸ hb)
    have hba : b ≠ a := fun he => hfree j (he ▸ hb)
    rw [Function.update_of_ne hbp, Function.update_of_ne hba]
  · rw [List.nodup_append] at hnodup ⊢
    refine ⟨hnodup.1, ?_, fun b hb c hc => ?_⟩
    · simp only [List.nodup_cons, List.mem_cons, not_or]
      exact ⟨⟨hpa, hp₂⟩, ha₂, (List.nodup_cons.mp hcons).2⟩
    · rcases List.mem_cons.mp hc with rfl | hc
      · exact hdis b hb _ List.mem_cons_self
      rcases List.mem_cons.mp hc with rfl | hc
      · exact fun he => ha₁ (he ▸ hb)
      · exact hdis b hb c (List.mem_cons_of_mem _ hc)
  · rcases List.mem_append.mp hb with hb | hb
    · exact h.apart i j (Ne.symm hj) b (by simp [hl, hb])
    rcases List.mem_cons.mp hb with rfl | hb
    · exact h.apart i j (Ne.symm hj) _ hp
    rcases List.mem_cons.mp hb with rfl | hb
    · exact hfree j
    · exact h.apart i j (Ne.symm hj) b (by simp [hl, hb])

omit [DecidableEq α] in
/-- The first item is popped. -/
theorem popFirst (h : Refines s L) (hl : L i = a :: l) :
    ∃ t, s.popFirst i = some (a, t) ∧ Refines t (Function.update L i l) := by
  have hchain := h.chain i
  rw [hl] at hchain
  obtain ⟨hfirst, hrest⟩ := hchain
  have hnodup := h.nodup i
  rw [hl] at hnodup
  unfold Heap.popFirst
  rw [hfirst]
  refine ⟨_, rfl, ?_⟩
  have hset : s.setList i (s.link a) (if s.link a = none then .list i else s.lastLink i) =
      ⟨s.link, Function.update s.first i (s.link a), Function.update s.lastLink i (slot i l)⟩ := by
    unfold Heap.setList
    congr 2
    cases l with
    | nil =>
      rw [if_pos (show s.link a = none from hrest)]
      rfl
    | cons b l =>
      rw [if_neg (by rw [hrest.1]; exact nofun), h.last, hl]
      exact slot_of_ne_nil (r := [a]) (List.cons_ne_nil b l)
  rw [hset]
  exact h.change (fun _ _ _ _ => rfl) hrest (List.nodup_cons.mp hnodup).2
    fun j hj b hb => h.apart i j (Ne.symm hj) b (by rw [hl]; exact List.mem_cons_of_mem _ hb)

omit [DecidableEq α] in
theorem getLast (h : Refines s L) [DecidableEq α] : s.getLast i = some (L i).getLast? := by
  unfold Heap.getLast
  rw [h.last, slot]
  cases hl : (L i).getLast? with
  | none => simp
  | some z => simp

/-- The loop of `Reverse` prepends the items from `p` on. -/
theorem reverseLoop (h : Refines s L) {q : Option α} (hl : Chain s.link q l) (hnodup : l.Nodup)
    (hfree : ∀ b ∈ l, ∀ j, b ∉ L j) {n : ℕ} (hn : l.length ≤ n) :
    ∃ t, Heap.reverseLoop n q i s = some t ∧
      Refines t (Function.update L i (l.reverse ++ L i)) := by
  induction l generalizing q s L n with
  | nil =>
    obtain rfl : q = none := hl
    refine ⟨s, by cases n <;> rfl, ?_⟩
    rw [List.reverse_nil, List.nil_append, Function.update_eq_self]
    exact h
  | cons a l ih =>
    obtain ⟨rfl, hl⟩ := hl
    obtain ⟨ha, hnodup⟩ := List.nodup_cons.mp hnodup
    cases n with
    | zero => exact absurd hn (Nat.not_succ_le_zero _)
    | succ n =>
    have hloose : Loose s.link L [a] :=
      ⟨trivial, List.nodup_singleton a, fun b hb => by
        rw [List.mem_singleton.mp hb]
        exact hfree a List.mem_cons_self⟩
    have hfree' : ∀ b ∈ l, ∀ j, b ∉ (Op.prepend i a).denote L j := by
      intro b hb j
      have hbj := hfree b (List.mem_cons_of_mem _ hb)
      rw [Op.denote]
      by_cases hj : j = i
      · subst hj
        rw [Function.update_self, List.mem_cons, not_or]
        exact ⟨fun he => ha (he ▸ hb), hbj j⟩
      · rw [Function.update_of_ne hj]
        exact hbj j
    obtain ⟨t, ht, href⟩ := ih (h.prepend (i := i) hloose) (hl.update ha) hnodup hfree'
      (Nat.le_of_succ_le_succ hn)
    refine ⟨t, ht, ?_⟩
    rw [Op.denote, Function.update_idem, Function.update_self] at href
    rw [List.reverse_cons, List.append_assoc]
    exact href

theorem reverse (h : Refines s L) {n : ℕ} (hn : (L i).length ≤ n) :
    ∃ t, s.reverse n i = some t ∧ Refines t ((Op.reverse i n).denote L) := by
  have hloose := h.loose_of_clear (k := i)
  obtain ⟨t, ht, href⟩ := (h.clear i).reverseLoop (i := i) (h.chain i) hloose.2.1 hloose.2.2 hn
  refine ⟨t, ht, ?_⟩
  rw [Function.update_idem, Function.update_self, List.append_nil] at href
  exact href

end Refines

/-- **One operation.** It has a result, and the lists stay the sequences. -/
theorem Op.run_refines (h : Refines s L) {o : Op ι α} (ho : o.Allowed s.link L)
    (hne : NonemptyMove ⟨s, L⟩ o) : ∃ t, o.run s = some t ∧ Refines t (o.denote L) := by
  cases o with
  | construct i => exact ⟨_, rfl, h.clear i⟩
  | constructMove i k => exact ⟨_, rfl, h.constructMove ho hne⟩
  | constructRange i l => exact ⟨_, rfl, h.constructRange ho⟩
  | assign i k => exact ⟨_, rfl, h.assign⟩
  | prepend i a => exact ⟨_, rfl, h.prepend ho⟩
  | prependList i k => exact h.prependList
  | prependRange i l => exact h.prependRange ho
  | append i a => exact ⟨_, rfl, h.append ho⟩
  | appendList i k => exact ⟨_, rfl, h.appendList⟩
  | appendRange i l => exact h.appendRange ho
  | insert i prev a =>
    cases prev with
    | none =>
      refine ⟨_, rfl, ?_⟩
      rw [Refines.insert_none]
      exact h.prepend ho
    | some p => exact ⟨_, rfl, h.insert ho.1 ho.2⟩
  | popFirst i =>
    obtain ⟨a, l, hl⟩ := List.exists_cons_of_ne_nil ho
    obtain ⟨t, ht, href⟩ := h.popFirst hl
    refine ⟨t, by rw [Op.run, ht]; rfl, ?_⟩
    rw [Op.denote, hl]
    exact href
  | popAllItems i => exact ⟨_, rfl, h.clear i⟩
  | popAll i =>
    refine ⟨s.clear i, ?_, h.clear i⟩
    rw [Op.run, Heap.popAll, h.getLast]
    rfl
  | reverse i n => exact h.reverse ho
  | clear i => exact ⟨_, rfl, h.clear i⟩

omit [DecidableEq ι] [DecidableEq α] in
theorem Refines.of_init (h : ∀ i, s.first i = none ∧ s.lastLink i = .list i ∧ L i = []) :
    Refines s L where
  chain i := by rw [(h i).2.2]; exact (h i).1
  last i := by rw [(h i).2.1, (h i).2.2]; rfl
  nodup i := by rw [(h i).2.2]; exact List.nodup_nil
  apart i _ _ a ha := by rw [(h i).2.2] at ha; cases ha

/-- **The lists are the sequences.** In every run which constructs no list from an empty one, the
items from the first one on are those of the sequence, the tail pointer designates the link of the
last item or the pointer inside of the empty list, the items handed out are those of the sequence,
and every operation within its contract has a result. -/
theorem moves_refine [Fintype ι] {s : State ι α}
    (h : (machine (ι := ι) (α := α)).ReachableBy NonemptyMove s) :
    (∀ i, Chain s.heap.link (s.heap.first i) (s.lists i) ∧
      s.heap.lastLink i = slot i (s.lists i) ∧
      (s.heap.popFirst i).map Prod.fst = (s.lists i).head? ∧
      (s.heap.popAllItems i).1 = (s.lists i).head? ∧
      (s.heap.popAll i).map Prod.fst = some ((s.lists i).head?, (s.lists i).getLast?)) ∧
    ∀ o : Op ι α, o.Allowed s.heap.link s.lists → NonemptyMove s o →
      ∃ t, machine.step s o = some ⟨t, o.denote s.lists⟩ := by
  have href : Refines s.heap s.lists := by
    refine machine.invariant_by (P := fun s => Refines s.heap s.lists) ?_ ?_ h
    · exact fun s hs => .of_init hs
    · intro s o s' hs hne hstep
      simp only [machine, Option.ite_none_right_eq_some] at hstep
      obtain ⟨ho, hstep⟩ := hstep
      obtain ⟨t, ht, href⟩ := o.run_refines hs ho hne
      rw [ht] at hstep
      obtain rfl := Option.some.inj hstep
      exact href
  refine ⟨fun i => ⟨href.chain i, href.last i, ?_, (href.chain i).head, ?_⟩, fun o ho hne => ?_⟩
  · rw [← (href.chain i).head, Heap.popFirst]
    cases s.heap.first i <;> rfl
  · rw [Heap.popAll, href.getLast, ← (href.chain i).head]
    rfl
  · obtain ⟨t, ht, -⟩ := o.run_refines href ho hne
    refine ⟨t, ?_⟩
    simp only [machine, if_pos ho, ht, Option.map_some]

/-- Items are appended to a list, which is moved, reversed, and put behind another one. -/
theorem moves_refine_sample : ∃ s : State (Fin 2) ℕ, s.lists 0 = [3, 2, 7, 1] ∧
    Chain s.heap.link (s.heap.first 0) (s.lists 0) := by
  obtain ⟨s, hs, hlists⟩ : ∃ s, machine.runBy NonemptyMove
      (⟨⟨fun _ => none, fun _ => none, fun i => .list i⟩, fun _ => []⟩ : State (Fin 2) ℕ)
      [.append 1 1, .append 1 2, .constructMove 0 1, .append 1 3, .insert 0 (some 1) 7,
        .reverse 0 3, .prependList 0 1] = some s ∧ s.lists 0 = [3, 2, 7, 1] :=
    Option.map_eq_some_iff.mp (by decide +kernel)
  obtain ⟨h, -⟩ := moves_refine (.of_runBy (.init fun i => ⟨rfl, rfl, rfl⟩) hs)
  exact ⟨s, hlists, (h 0).1⟩

/-- A list which is constructed from an empty one loses the item which is appended to it. -/
theorem move_construct_lost : ∃ s : State (Fin 2) ℕ, machine.Reachable s ∧
    s.lists 1 = [5] ∧ s.heap.first 1 = none ∧ s.heap.first 0 = some 5 := by
  obtain ⟨s, hs, hlists⟩ : ∃ s, machine.run
      (⟨⟨fun _ => none, fun _ => none, fun i => .list i⟩, fun _ => []⟩ : State (Fin 2) ℕ)
      [.constructMove 1 0, .append 1 5] = some s ∧
        (s.lists 1, s.heap.first 1, s.heap.first 0) = ([5], none, some 5) :=
    Option.map_eq_some_iff.mp (by decide +kernel)
  obtain ⟨hl, hf⟩ := Prod.mk.inj hlists
  obtain ⟨h₁, h₀⟩ := Prod.mk.inj hf
  exact ⟨s, .of_run (.init fun i => ⟨rfl, rfl, rfl⟩) hs, hl, h₁, h₀⟩

end ForwardList

end Serverbox
