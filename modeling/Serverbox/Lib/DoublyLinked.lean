import Mathlib.Data.List.Nodup

/-!
# Doubly linked lists

Nodes of an arbitrary type are linked by two maps, to the next and to the previous node. A
segment is a part of such a list, with the links which enter and leave it.

## Main definitions

* `DoublyLinked.Seg`: the nodes of a list are linked one after another, the first one back to a
  given node and the last one on to a given node.

## Main results

* `DoublyLinked.seg_append`: a segment splits at every node.
* `DoublyLinked.Seg.reverse`: a segment read backwards.
* `DoublyLinked.Seg.congr`: the links of other nodes do not matter.
* `DoublyLinked.Seg.unlink`: a node which is not the last one is unlinked.
* `DoublyLinked.Seg.append`: a node, or a list of nodes, is linked at the end.
-/

namespace DoublyLinked

variable {ι : Type*} {next prev next' prev' : ι → Option ι}

/-- The nodes of the list are linked in this order; the first one is linked back to the first
argument, the last one is linked on to the last argument. -/
def Seg (next prev : ι → Option ι) : Option ι → List ι → Option ι → Prop
  | _, [], _ => True
  | p, c :: l, n => prev c = p ∧ next c = l.head?.or n ∧ Seg next prev (some c) l n

@[simp] theorem seg_nil (p n : Option ι) : Seg next prev p [] n := trivial

@[simp] theorem seg_singleton (p n : Option ι) (c : ι) :
    Seg next prev p [c] n ↔ prev c = p ∧ next c = n := by
  simp [Seg]

theorem seg_append (p n : Option ι) (l₁ l₂ : List ι) :
    Seg next prev p (l₁ ++ l₂) n ↔
      Seg next prev p l₁ (l₂.head?.or n) ∧ Seg next prev (l₁.getLast?.or p) l₂ n := by
  induction l₁ generalizing p with
  | nil => simp
  | cons c l ih =>
    have hlast : (c :: l).getLast?.or p = l.getLast?.or (some c) := by
      rcases List.eq_nil_or_concat l with rfl | ⟨l₀, a, rfl⟩
      · simp
      · simp [List.getLast?_cons]
    have hhead : (l ++ l₂).head?.or n = l.head?.or (l₂.head?.or n) := by
      cases l <;> simp
    simp only [List.cons_append, Seg, ih, and_assoc, hlast, hhead]

/-- A segment depends on the links of its nodes only. -/
theorem Seg.congr {p n : Option ι} {l : List ι} (h : Seg next prev p l n)
    (hn : ∀ c ∈ l, next' c = next c) (hp : ∀ c ∈ l, prev' c = prev c) :
    Seg next' prev' p l n := by
  induction l generalizing p with
  | nil => trivial
  | cons c l ih =>
    obtain ⟨h₁, h₂, h₃⟩ := h
    refine ⟨(hp c (by simp)).trans h₁, (hn c (by simp)).trans h₂, ih h₃ ?_ ?_⟩
    · exact fun x hx => hn x (by simp [hx])
    · exact fun x hx => hp x (by simp [hx])

/-- Backwards a segment is one for the exchanged links. -/
theorem Seg.reverse {p n : Option ι} {l : List ι} (h : Seg next prev p l n) :
    Seg prev next n l.reverse p := by
  induction l generalizing p with
  | nil => trivial
  | cons c l ih =>
    obtain ⟨hprev, hnext, hrest⟩ := h
    rw [List.reverse_cons, seg_append, seg_singleton, List.getLast?_reverse]
    exact ⟨by simpa using ih hrest, hnext, hprev⟩

/-- The links of a node in the middle of a segment. -/
theorem Seg.mid {p n : Option ι} {l₁ l₂ : List ι} {c : ι}
    (h : Seg next prev p (l₁ ++ c :: l₂) n) :
    prev c = l₁.getLast?.or p ∧ next c = l₂.head?.or n := by
  obtain ⟨-, h₁, h₂, -⟩ := (seg_append p n l₁ (c :: l₂)).mp h
  exact ⟨h₁, h₂⟩

/-- The last node of a segment is linked on to another one. -/
theorem Seg.setLast {p n n' : Option ι} {l : List ι} {a : ι} (h : Seg next prev p (l ++ [a]) n)
    (ha : next' a = n') (hn : ∀ c ∈ l, next' c = next c)
    (hp : ∀ c ∈ l ++ [a], prev' c = prev c) : Seg next' prev' p (l ++ [a]) n' := by
  obtain ⟨h₁, h₂⟩ := (seg_append p n l [a]).mp h
  refine (seg_append p n' l [a]).mpr ⟨?_, ?_⟩
  · exact Seg.congr h₁ hn fun c hc => hp c (by simp [hc])
  · rw [seg_singleton] at h₂ ⊢
    exact ⟨(hp a (by simp)).trans h₂.1, ha⟩

/-- The first node of a segment is linked back to another one. -/
theorem Seg.setFirst {p p' n : Option ι} {l : List ι} {a : ι} (h : Seg next prev p (a :: l) n)
    (ha : prev' a = p') (hp : ∀ c ∈ l, prev' c = prev c)
    (hn : ∀ c ∈ a :: l, next' c = next c) : Seg next' prev' p' (a :: l) n := by
  obtain ⟨-, h₂, h₃⟩ := h
  exact ⟨ha, (hn a (by simp)).trans h₂, Seg.congr h₃ (fun c hc => hn c (by simp [hc])) hp⟩

variable [DecidableEq ι]

/-- A node which is not the last one is unlinked: its neighbours are linked to each other. -/
theorem Seg.unlink {p n : Option ι} {l₁ l₂ : List ι} {c d : ι}
    (h : Seg next prev p (l₁ ++ c :: d :: l₂) n) (hnd : (l₁ ++ c :: d :: l₂).Nodup)
    (hn : ∀ x ∈ l₁ ++ d :: l₂, next' x = if some x = l₁.getLast? then some d else next x)
    (hp : ∀ x ∈ l₁ ++ d :: l₂, prev' x = if x = d then l₁.getLast?.or p else prev x) :
    Seg next' prev' p (l₁ ++ d :: l₂) n := by
  obtain ⟨h₁, -, -, h₂⟩ := (seg_append p n l₁ (c :: d :: l₂)).mp h
  have hnd' : (l₁ ++ d :: l₂).Nodup :=
    hnd.sublist (List.Sublist.append_left (List.sublist_cons_self _ _) _)
  obtain ⟨hnd₁, hnd₂, hdisj⟩ := List.nodup_append.mp hnd'
  have hd : ∀ x ∈ l₁, x ≠ d := fun x hx => hdisj x hx d (by simp)
  refine (seg_append p n l₁ (d :: l₂)).mpr ⟨?_, ?_⟩
  · rcases List.eq_nil_or_concat l₁ with rfl | ⟨l₀, a, rfl⟩
    · trivial
    · rw [List.concat_eq_append] at *
      refine Seg.setLast h₁ ?_ ?_ ?_
      · simp [hn a (by simp)]
      · intro x hx
        have hxa : x ≠ a := (List.nodup_append.mp hnd₁).2.2 x hx a (by simp)
        simp [hn x (by simp [hx]), hxa]
      · intro x hx
        rw [hp x (List.mem_append_left _ hx), if_neg (hd x hx)]
  · refine Seg.setFirst h₂ ?_ ?_ ?_
    · simp [hp d (by simp)]
    · intro x hx
      have hxd : x ≠ d := fun he => (List.nodup_cons.mp hnd₂).1 (he ▸ hx)
      rw [hp x (by simp [hx]), if_neg hxd]
    · intro x hx
      have hx₁ : some x ≠ l₁.getLast? := fun he =>
        hdisj x (List.mem_of_getLast? he.symm) x hx rfl
      rw [hn x (List.mem_append_right _ hx), if_neg hx₁]

omit [DecidableEq ι] in
/-- A segment is linked at the end of another one. -/
theorem Seg.append {p n : Option ι} {l m : List ι} {t x : ι}
    (h : Seg next prev p (l ++ [t]) none)
    (hm : Seg next' prev' (some t) (x :: m) n) (ht : next' t = some x)
    (hn : ∀ c ∈ l, next' c = next c) (hp : ∀ c ∈ l ++ [t], prev' c = prev c) :
    Seg next' prev' p (l ++ [t] ++ x :: m) n := by
  refine (seg_append p n (l ++ [t]) (x :: m)).mpr ⟨?_, ?_⟩
  · exact Seg.setLast h (by simpa using ht) hn hp
  · simpa using hm

end DoublyLinked
