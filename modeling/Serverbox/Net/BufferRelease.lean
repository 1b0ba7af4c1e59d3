import Mathlib.Data.Finset.Card
import Serverbox.Lib.Chain

/-!
# The release of a chain of buffers

A buffer counts its references, and holds one to the next buffer of its chain. When the last
reference goes, the buffer is deleted and drops the one to the next buffer, and so on. A long chain
would make a deep recursion, so that the destructor walks the chain by itself: it unwraps the link,
decrements the count, and deletes a buffer whose count is 0. The destructor of that buffer is the
same function.

A function which is called is a `Call` here, and the number bounds the depth of the calls and the
turns of the loop. A buffer which is used or deleted after its deletion, and a failed assertion of
the count, give no result. The history has the deleted buffers, and for each call of the destructor
the link which it finds.

Source: `src/mg/net/Buffer.h`, `src/mg/net/Buffer.cpp`, `src/mg/box/SharedPtr.h`,
`src/mg/box/RefCount.h`.

## Main definitions

* `BufferRelease.run`: `PrivUnref`, the destructor and its loop.
* `BufferRelease.release`: the recursive release.
* `BufferRelease.Forest`: chains with any sharing, whose counts are right.
* `BufferRelease.Released`: what a release does.

## Main results

* `BufferRelease.Forest.unref_eq_release`: the two releases do the same, and leave a forest.
-/

namespace Serverbox

namespace BufferRelease

variable {α : Type*} [DecidableEq α]

/-- The buffers, and the history: the deleted ones, and the links which the destructor has found. -/
structure Heap (α : Type*) where
  next : α → Option α
  count : α → ℤ
  live : Finset α
  dead : List α
  entered : List (α × Option α)

namespace Heap

/-- `RefCount::Dec` of a buffer. -/
def dec (s : Heap α) (o : α) : Option (Bool × Heap α) :=
  let newValue := s.count o - 1
  if o ∈ s.live ∧ newValue ≥ 0 then
    some (decide (newValue = 0), { s with count := Function.update s.count o newValue })
  else none

/-- `Unwrap` of the link of a buffer. -/
def unwrap (s : Heap α) (o : α) : Option α × Heap α :=
  (s.next o, { s with next := Function.update s.next o none })

/-- The destructor of a buffer is entered. -/
def enter (s : Heap α) (o : α) : Heap α := { s with entered := s.entered ++ [(o, s.next o)] }

/-- The count is destroyed, and the memory is freed. -/
def free (s : Heap α) (o : α) : Option (Heap α) :=
  if o ∈ s.live ∧ s.count o = 0 then
    some { s with live := s.live.erase o, dead := s.dead ++ [o] }
  else none

end Heap

/-- The functions: `PrivUnref` of a pointer, the loop of `~Buffer` from its condition on, and
`delete`. -/
inductive Call (α : Type*)
  | unref (p : Option α)
  | loop (curr : Option α)
  | delete (o : α)

/-- A call. The members of a buffer are destroyed after the body of its destructor. -/
def run : ℕ → Call α → Heap α → Option (Heap α)
  | 0, _, _ => none
  | _ + 1, .unref none, s => some s
  | n + 1, .unref (some o), s => do
    let (isLast, s) ← s.dec o
    if isLast then run n (.delete o) s else some s
  | _ + 1, .loop none, s => some s
  | n + 1, .loop (some curr), s => do
    let (isLast, s) ← s.dec curr
    if !isLast then some s
    else
      let (next, s) := s.unwrap curr
      let s ← run n (.delete curr) s
      run n (.loop next) s
  | n + 1, .delete o, s => do
    let (curr, s) := (s.enter o).unwrap o
    let s ← run n (.loop curr) s
    let s ← run n (.unref (s.next o)) s
    s.free o

/-- The release without a loop: a buffer which is deleted releases the next one. -/
def release : ℕ → Option α → Heap α → Option (Heap α)
  | 0, _, _ => none
  | _ + 1, none, s => some s
  | n + 1, some o, s => do
    let (isLast, s) ← s.dec o
    if isLast then
      let (next, s) := s.unwrap o
      let s ← release n next s
      s.free o
    else some s

/-- Every bound from some number on gives the result. -/
def Ends (f : ℕ → Option (Heap α)) (t : Heap α) : Prop := ∃ n, ∀ m ≥ n, f m = some t

/-- The buffers of a chain up to the first one with another reference. -/
def destroyed (count : α → ℤ) (l : List α) : List α := l.takeWhile fun a => count a = 1

/-- The first buffer of a chain with another reference. -/
def stopped (count : α → ℤ) (l : List α) : Option α := (l.dropWhile fun a => count a = 1).head?

/-- The buffers of a chain were destroyed up to the first one with another reference, which has lost
one. Nothing else has changed but the history. -/
structure Released (s : Heap α) (l : List α) (t : Heap α) : Prop where
  count : ∀ a, t.count a =
    if a ∈ destroyed s.count l ∨ stopped s.count l = some a then s.count a - 1 else s.count a
  next : ∀ a, t.next a = if a ∈ destroyed s.count l then none else s.next a
  live : ∀ a, a ∈ t.live ↔ a ∈ s.live ∧ a ∉ destroyed s.count l
  dead : t.dead.Perm (s.dead ++ destroyed s.count l)

/-- Buffers with any links which make no cycle, and counts which are the numbers of references from
outside and from other buffers. -/
structure Forest (s : Heap α) (outside : α → ℕ) : Prop where
  chain : ∀ o ∈ s.live, ∃ l, Chain s.next (some o) l
  closed : ∀ o ∈ s.live, ∀ p, s.next o = some p → p ∈ s.live
  count : ∀ o ∈ s.live, s.count o = outside o + (s.live.filter fun p => s.next p = some o).card
  held : ∀ o ∈ s.live, 0 < s.count o
  nodup : s.dead.Nodup
  apart : ∀ o ∈ s.dead, o ∉ s.live

variable {s t : Heap α} {l : List α} {a c o : α} {q : Option α}

section Lists

variable {count count' : α → ℤ}

omit [DecidableEq α]

@[simp] theorem destroyed_nil : destroyed count [] = [] := rfl

@[simp] theorem stopped_nil : stopped count [] = none := rfl

theorem destroyed_cons_of_eq (h : count c = 1) :
    destroyed count (c :: l) = c :: destroyed count l := by
  simp [destroyed, h]

theorem stopped_cons_of_eq (h : count c = 1) : stopped count (c :: l) = stopped count l := by
  simp [stopped, h]

theorem destroyed_cons_of_ne (h : count c ≠ 1) : destroyed count (c :: l) = [] := by
  simp [destroyed, h]

theorem stopped_cons_of_ne (h : count c ≠ 1) : stopped count (c :: l) = some c := by
  simp [stopped, h]

theorem destroyed_congr (h : ∀ a ∈ l, count' a = count a) :
    destroyed count' l = destroyed count l := by
  induction l with
  | nil => rfl
  | cons c l ih =>
    have hc := h c List.mem_cons_self
    have hl := ih fun a ha => h a (List.mem_cons_of_mem _ ha)
    by_cases h1 : count c = 1
    · rw [destroyed_cons_of_eq h1, destroyed_cons_of_eq (hc.trans h1), hl]
    · rw [destroyed_cons_of_ne h1, destroyed_cons_of_ne (by rwa [hc])]

theorem stopped_congr (h : ∀ a ∈ l, count' a = count a) : stopped count' l = stopped count l := by
  induction l with
  | nil => rfl
  | cons c l ih =>
    have hc := h c List.mem_cons_self
    have hl := ih fun a ha => h a (List.mem_cons_of_mem _ ha)
    by_cases h1 : count c = 1
    · rw [stopped_cons_of_eq h1, stopped_cons_of_eq (hc.trans h1), hl]
    · rw [stopped_cons_of_ne h1, stopped_cons_of_ne (by rwa [hc])]

theorem mem_of_mem_destroyed (h : a ∈ destroyed count l) : a ∈ l := List.takeWhile_subset _ h

theorem mem_of_stopped (h : stopped count l = some a) : a ∈ l :=
  (List.dropWhile_suffix _).subset (List.mem_of_head? h)

end Lists

omit [DecidableEq α] in
/-- The buffers of a finite chain are all different. -/
theorem nodup_of_chain {next : α → Option α} (h : Chain next q l) : l.Nodup := by
  induction l generalizing q with
  | nil => exact List.nodup_nil
  | cons c l ih =>
    obtain ⟨-, hrest⟩ := h
    refine List.nodup_cons.2 ⟨fun hc => ?_, ih hrest⟩
    -- A buffer which comes again would begin the same chain again.
    obtain ⟨l₁, l₂, rfl⟩ := List.append_of_mem hc
    have hagain : Chain next (next c) l₂ := hrest.of_append
    have := congrArg List.length (hrest.unique hagain)
    simp only [List.length_append, List.length_cons] at this
    omega

/-! ### One buffer -/

/-- The last reference goes. -/
theorem Heap.dec_last (ho : o ∈ s.live) (hcount : s.count o = 1) :
    s.dec o = some (true, { s with count := Function.update s.count o 0 }) := by
  unfold Heap.dec
  rw [hcount, if_pos ⟨ho, by omega⟩]
  rfl

/-- Another reference stays. -/
theorem Heap.dec_more (ho : o ∈ s.live) (hpos : 0 < s.count o) (hcount : s.count o ≠ 1) :
    s.dec o = some (false, { s with count := Function.update s.count o (s.count o - 1) }) := by
  unfold Heap.dec
  rw [if_pos ⟨ho, by omega⟩, decide_eq_false (by omega)]

theorem Heap.free_eq (ho : o ∈ s.live) (hcount : s.count o = 0) :
    s.free o = some { s with live := s.live.erase o, dead := s.dead ++ [o] } :=
  if_pos ⟨ho, hcount⟩

/-- A buffer without a next one is deleted without a turn of its loop. -/
theorem run_delete (hnext : s.next o = none) (ho : o ∈ s.live) (hcount : s.count o = 0) (n : ℕ) :
    run (n + 2) (.delete o) s = some { s with
      live := s.live.erase o, dead := s.dead ++ [o], entered := s.entered ++ [(o, none)] } := by
  have hself : Function.update s.next o none = s.next := by rw [← hnext, Function.update_eq_self]
  simp [run, Heap.enter, Heap.unwrap, hnext, hself, Heap.free, ho, hcount]

/-- The first buffer has another reference. -/
theorem Released.stop (hc : s.count c ≠ 1) :
    Released s (c :: l) { s with count := Function.update s.count c (s.count c - 1) } where
  count a := by
    rw [destroyed_cons_of_ne hc, stopped_cons_of_ne hc]
    by_cases ha : a = c
    · subst ha
      simp
    · simp [ha, Ne.symm ha]
  next a := by rw [destroyed_cons_of_ne hc]; simp
  live a := by rw [destroyed_cons_of_ne hc]; simp
  dead := by rw [destroyed_cons_of_ne hc, List.append_nil]

/-- The first buffer has no other reference, and the others are released after it has lost its
count and its link. -/
theorem Released.cons {s₁ t₁ : Heap α} (hc : s.count c = 1) (hcl : c ∉ l)
    (h : Released s₁ l t₁) (hcount : s₁.count = Function.update s.count c 0)
    (hnext : s₁.next = Function.update s.next c none) (htcount : t.count = t₁.count)
    (htnext : t.next = t₁.next)
    (hlive : ∀ a, a ∈ t.live ↔ a ∈ s.live ∧ a ≠ c ∧ a ∉ destroyed s.count l)
    (hdead : t.dead.Perm (s.dead ++ c :: destroyed s.count l)) : Released s (c :: l) t := by
  have hsame : ∀ a ∈ l, s₁.count a = s.count a := by
    intro a ha
    rw [hcount, Function.update_of_ne (fun he : a = c => hcl (he ▸ ha))]
  have hdestroyed := destroyed_congr hsame
  have hstopped := stopped_congr hsame
  have hc' : c ∉ destroyed s.count l := fun hm => hcl (mem_of_mem_destroyed hm)
  have hc'' : stopped s.count l ≠ some c := fun hm => hcl (mem_of_stopped hm)
  refine ⟨fun a => ?_, fun a => ?_, fun a => ?_, ?_⟩
  · rw [htcount, h.count, hdestroyed, hstopped, hcount, destroyed_cons_of_eq hc,
      stopped_cons_of_eq hc]
    by_cases ha : a = c
    · subst ha
      simp [hc', hc'', hc]
    · simp [ha]
  · rw [htnext, h.next, hdestroyed, hnext, destroyed_cons_of_eq hc]
    by_cases ha : a = c
    · subst ha
      simp
    · simp [ha]
  · rw [hlive, destroyed_cons_of_eq hc, List.mem_cons, not_or]
  · rw [destroyed_cons_of_eq hc]
    exact hdead

/-! ### The releases -/

/-- The buffers of the chain can be used, and have a reference. -/
def Usable (s : Heap α) (l : List α) : Prop := ∀ a ∈ l, a ∈ s.live ∧ 0 < s.count a

omit [DecidableEq α] in
theorem Usable.tail (h : Usable s (c :: l)) : Usable s l :=
  fun a ha => h a (List.mem_cons_of_mem _ ha)

omit [DecidableEq α] in
theorem Usable.congr (h : Usable s l) (hlive : ∀ a ∈ l, a ∈ s.live → a ∈ t.live)
    (hcount : ∀ a ∈ l, t.count a = s.count a) : Usable t l :=
  fun a ha => ⟨hlive a ha (h a ha).1, by rw [hcount a ha]; exact (h a ha).2⟩

/-- **The loop.** It releases the chain, and each destructor which it calls finds a null link. -/
theorem loop_ends (hchain : Chain s.next q l) (h : Usable s l) :
    ∃ t, Ends (fun n => run n (.loop q) s) t ∧ Released s l t ∧
      t.entered = s.entered ++ (destroyed s.count l).map fun a => (a, none) := by
  induction l generalizing q s with
  | nil =>
    obtain rfl : q = none := hchain
    refine ⟨s, ⟨1, fun m hm => ?_⟩, ⟨by simp, by simp, by simp, by simp⟩, by simp⟩
    obtain ⟨m, rfl⟩ := Nat.exists_eq_add_of_le' hm
    rfl
  | cons c l ih =>
    have hcl : c ∉ l := (List.nodup_cons.1 (nodup_of_chain hchain)).1
    obtain ⟨rfl, hrest⟩ := hchain
    obtain ⟨hlive, hpos⟩ := h c List.mem_cons_self
    by_cases hc : s.count c = 1
    · -- The buffer is deleted with its link unwrapped, and the loop goes on behind it.
      let s₁ : Heap α := ⟨Function.update s.next c none, Function.update s.count c 0,
        s.live.erase c, s.dead ++ [c], s.entered ++ [(c, none)]⟩
      have hother : ∀ a ∈ l, a ≠ c := fun a ha he => hcl (he ▸ ha)
      have hsame : ∀ a ∈ l, s₁.count a = s.count a :=
        fun a ha => Function.update_of_ne (hother a ha) _ _
      obtain ⟨t, ⟨n, hn⟩, hreleased, hentered⟩ := ih (s := s₁) (hrest.update hcl)
        (h.tail.congr (fun a ha hm => Finset.mem_erase.2 ⟨hother a ha, hm⟩) hsame)
      have hdestroyed := destroyed_congr hsame
      refine ⟨t, ⟨n + 3, fun m hm => ?_⟩, ?_, ?_⟩
      · obtain ⟨m, rfl⟩ := Nat.exists_eq_add_of_le' (show 3 ≤ m by omega)
        have hdelete : run (m + 2) (.delete c) { s with
            next := Function.update s.next c none
            count := Function.update s.count c 0 } = some s₁ :=
          run_delete (s := { s with
            next := Function.update s.next c none, count := Function.update s.count c 0 })
            (Function.update_self ..) hlive (Function.update_self ..) m
        show run (m + 2 + 1) (.loop (some c)) s = some t
        rw [run, Heap.dec_last hlive hc]
        simp only [Option.bind_eq_bind, Option.bind_some, Bool.not_true, Bool.false_eq_true,
          if_false, Heap.unwrap]
        rw [hdelete, Option.bind_some]
        exact hn (m + 2) (by omega)
      · refine Released.cons hc hcl hreleased rfl rfl rfl rfl (fun a => ?_) ?_
        · rw [hreleased.live, hdestroyed, Finset.mem_erase]
          tauto
        · have := hreleased.dead
          rwa [hdestroyed, List.append_assoc] at this
      · rw [hentered, hdestroyed, destroyed_cons_of_eq hc]
        simp [s₁]
    · refine ⟨_, ⟨1, fun m hm => ?_⟩, .stop hc, by simp [destroyed_cons_of_ne hc]⟩
      obtain ⟨m, rfl⟩ := Nat.exists_eq_add_of_le' hm
      simp [run, Heap.dec_more hlive hpos hc]

/-- The recursive release releases the chain too. -/
theorem release_ends (hchain : Chain s.next q l) (h : Usable s l) :
    ∃ t, Ends (fun n => release n q s) t ∧ Released s l t := by
  induction l generalizing q s with
  | nil =>
    obtain rfl : q = none := hchain
    refine ⟨s, ⟨1, fun m hm => ?_⟩, ⟨by simp, by simp, by simp, by simp⟩⟩
    obtain ⟨m, rfl⟩ := Nat.exists_eq_add_of_le' hm
    rfl
  | cons c l ih =>
    have hcl : c ∉ l := (List.nodup_cons.1 (nodup_of_chain hchain)).1
    obtain ⟨rfl, hrest⟩ := hchain
    obtain ⟨hlive, hpos⟩ := h c List.mem_cons_self
    by_cases hc : s.count c = 1
    · let s₁ : Heap α := { s with
        next := Function.update s.next c none, count := Function.update s.count c 0 }
      have hother : ∀ a ∈ l, a ≠ c := fun a ha he => hcl (he ▸ ha)
      have hsame : ∀ a ∈ l, s₁.count a = s.count a :=
        fun a ha => Function.update_of_ne (hother a ha) _ _
      obtain ⟨t, ⟨n, hn⟩, hreleased⟩ := ih (s := s₁) (hrest.update hcl)
        (h.tail.congr (fun _ _ hm => hm) hsame)
      have hdestroyed := destroyed_congr hsame
      have hstopped := stopped_congr hsame
      have hfree : t.free c = some { t with live := t.live.erase c, dead := t.dead ++ [c] } := by
        apply Heap.free_eq
        · rw [hreleased.live, hdestroyed]
          exact ⟨hlive, fun hm => hcl (mem_of_mem_destroyed hm)⟩
        · rw [hreleased.count, hdestroyed, hstopped, if_neg]
          · exact Function.update_self ..
          · rintro (hm | hm)
            · exact hcl (mem_of_mem_destroyed hm)
            · exact hcl (mem_of_stopped hm)
      refine ⟨_, ⟨n + 1, fun m hm => ?_⟩, Released.cons hc hcl hreleased rfl rfl rfl rfl
        (t := { t with live := t.live.erase c, dead := t.dead ++ [c] }) (fun a => ?_) ?_⟩
      · obtain ⟨m, rfl⟩ := Nat.exists_eq_add_of_le' (show 1 ≤ m by omega)
        have hcall : release m (s.next c) { s with
            next := Function.update s.next c none
            count := Function.update s.count c 0 } = some t :=
          hn m (by omega)
        show release (m + 1) (some c) s = _
        rw [release, Heap.dec_last hlive hc]
        simp only [Option.bind_eq_bind, Option.bind_some, if_true, Heap.unwrap]
        rw [hcall, Option.bind_some]
        exact hfree
      · rw [Finset.mem_erase, hreleased.live, hdestroyed]
        tauto
      · have := hreleased.dead
        rw [hdestroyed] at this
        refine (this.append_right [c]).trans ?_
        rw [List.append_assoc]
        exact List.Perm.append_left _ (List.perm_append_singleton _ _)
    · refine ⟨_, ⟨1, fun m hm => ?_⟩, .stop hc⟩
      obtain ⟨m, rfl⟩ := Nat.exists_eq_add_of_le' hm
      simp [release, Heap.dec_more hlive hpos hc]

/-- The links which the destructors find: the first buffer still has its link. -/
def entries (s : Heap α) : List α → List (α × Option α)
  | [] => []
  | o :: l => (o, s.next o) :: l.map fun a => (a, none)

/-- **`PrivUnref`.** It releases the chain. Only the destructor of the first buffer finds a link. -/
theorem unref_ends (hchain : Chain s.next (some o) l) (h : Usable s l) :
    ∃ t, Ends (fun n => run n (.unref (some o)) s) t ∧ Released s l t ∧
      t.entered = s.entered ++ entries s (destroyed s.count l) := by
  cases l with
  | nil => exact absurd hchain nofun
  | cons c l =>
    have hcl : c ∉ l := (List.nodup_cons.1 (nodup_of_chain hchain)).1
    obtain ⟨he, hrest⟩ := hchain
    obtain rfl := Option.some.inj he
    obtain ⟨hlive, hpos⟩ := h o List.mem_cons_self
    by_cases hc : s.count o = 1
    · -- The destructor walks the chain behind the buffer, which is freed after that.
      let s₁ : Heap α := { s with
        next := Function.update s.next o none
        count := Function.update s.count o 0
        entered := s.entered ++ [(o, s.next o)] }
      have hother : ∀ a ∈ l, a ≠ o := fun a ha he => hcl (he ▸ ha)
      have hsame : ∀ a ∈ l, s₁.count a = s.count a :=
        fun a ha => Function.update_of_ne (hother a ha) _ _
      obtain ⟨t, ⟨n, hn⟩, hreleased, hentered⟩ := loop_ends (s := s₁) (hrest.update hcl)
        (h.tail.congr (fun _ _ hm => hm) hsame)
      have hdestroyed := destroyed_congr hsame
      have hstopped := stopped_congr hsame
      have hnot : o ∉ destroyed s.count l := fun hm => hcl (mem_of_mem_destroyed hm)
      have hnext : t.next o = none := by
        rw [hreleased.next, hdestroyed, if_neg hnot]
        exact Function.update_self ..
      have hfree : t.free o = some { t with live := t.live.erase o, dead := t.dead ++ [o] } := by
        apply Heap.free_eq
        · rw [hreleased.live, hdestroyed]
          exact ⟨hlive, hnot⟩
        · rw [hreleased.count, hdestroyed, hstopped, if_neg]
          · exact Function.update_self ..
          · rintro (hm | hm)
            · exact hnot hm
            · exact hcl (mem_of_stopped hm)
      refine ⟨{ t with live := t.live.erase o, dead := t.dead ++ [o] },
        ⟨n + 3, fun m hm => ?_⟩,
        Released.cons hc hcl hreleased rfl rfl rfl rfl (fun a => ?_) ?_, ?_⟩
      · obtain ⟨m, rfl⟩ := Nat.exists_eq_add_of_le' (show 3 ≤ m by omega)
        have hcall : run (m + 1) (.loop (s.next o)) { s with
            next := Function.update s.next o none
            count := Function.update s.count o 0
            entered := s.entered ++ [(o, s.next o)] } = some t := hn (m + 1) (by omega)
        have hcall' : run (m + 1) (.unref (t.next o)) t = some t := by rw [hnext, run]
        show run (m + 2 + 1) (.unref (some o)) s = _
        rw [run, Heap.dec_last hlive hc]
        simp only [Option.bind_eq_bind, Option.bind_some, if_true, run, Heap.enter, Heap.unwrap]
        rw [hcall, Option.bind_some, hcall', Option.bind_some]
        exact hfree
      · rw [Finset.mem_erase, hreleased.live, hdestroyed]
        tauto
      · have := hreleased.dead
        rw [hdestroyed] at this
        refine (this.append_right [o]).trans ?_
        rw [List.append_assoc]
        exact List.Perm.append_left _ (List.perm_append_singleton _ _)
      · show t.entered = _
        rw [hentered, hdestroyed, destroyed_cons_of_eq hc, entries, List.append_assoc]
        rfl
    · refine ⟨_, ⟨1, fun m hm => ?_⟩, .stop hc, by simp [destroyed_cons_of_ne hc, entries]⟩
      obtain ⟨m, rfl⟩ := Nat.exists_eq_add_of_le' hm
      simp [run, Heap.dec_more hlive hpos hc]

/-! ### Forests -/

/-- The chain of a buffer of a forest can be released. -/
theorem Forest.usable {outside : α → ℕ} (h : Forest s outside) (hchain : Chain s.next q l)
    (hq : ∀ o, q = some o → o ∈ s.live) : Usable s l := by
  induction l generalizing q with
  | nil => exact fun a ha => absurd ha List.not_mem_nil
  | cons c l ih =>
    obtain ⟨rfl, hrest⟩ := hchain
    have hc := hq c rfl
    refine List.forall_mem_cons.2 ⟨⟨hc, h.held c hc⟩, ih hrest fun p hp => h.closed c hc p hp⟩

/-- Two releases of one chain agree. -/
theorem Released.agree {t' : Heap α} (h : Released s l t) (h' : Released s l t') :
    t.count = t'.count ∧ t.next = t'.next ∧ t.live = t'.live ∧ t.dead.Perm t'.dead :=
  ⟨funext fun a => (h.count a).trans (h'.count a).symm,
    funext fun a => (h.next a).trans (h'.next a).symm,
    Finset.ext fun a => (h.live a).trans (h'.live a).symm, h.dead.trans h'.dead.symm⟩

/-- The order of the deletions does not matter. -/
theorem Forest.congr {outside : α → ℕ} (h : Forest s outside) (hcount : t.count = s.count)
    (hnext : t.next = s.next) (hlive : t.live = s.live) (hdead : t.dead.Perm s.dead) :
    Forest t outside := by
  obtain ⟨next, count, live, dead, entered⟩ := t
  obtain rfl : count = s.count := hcount
  obtain rfl : next = s.next := hnext
  obtain rfl : live = s.live := hlive
  exact { h with
    nodup := hdead.nodup_iff.2 h.nodup
    apart := fun o ho => h.apart o (hdead.mem_iff.1 ho) }

/-- A reference from outside is dropped. -/
def drop (outside : α → ℕ) (o : α) : α → ℕ := Function.update outside o (outside o - 1)

/-- The buffer has another reference. -/
theorem Forest.decrement {outside : α → ℕ} (h : Forest s outside) (ho : o ∈ s.live)
    (hout : 0 < outside o) (hc : s.count o ≠ 1) :
    Forest { s with count := Function.update s.count o (s.count o - 1) } (drop outside o) :=
  { h with
    count := fun a ha => by
      have := h.count a ha
      by_cases hao : a = o
      · subst hao
        simp only [drop, Function.update_self]
        omega
      · simp only [drop, Function.update_of_ne hao]
        exact this
    held := fun a ha => by
      have := h.held a ha
      by_cases hao : a = o
      · subst hao
        simp only [Function.update_self]
        omega
      · simp only [Function.update_of_ne hao]
        exact this }

/-- The buffer has no other reference: it is deleted, and the reference in its link is one from
outside then. -/
theorem Forest.erase {outside : α → ℕ} (h : Forest s outside) (ho : o ∈ s.live)
    (hout : 0 < outside o) (hc : s.count o = 1) :
    Forest { s with
        next := Function.update s.next o none
        count := Function.update s.count o 0
        live := s.live.erase o
        dead := s.dead ++ [o] }
      fun a => if s.next o = some a then drop outside o a + 1 else drop outside o a := by
  -- No buffer is linked to this one.
  have hnone : ∀ p ∈ s.live, s.next p ≠ some o := by
    intro p hp hpo
    have hmem : p ∈ s.live.filter fun p => s.next p = some o := Finset.mem_filter.2 ⟨hp, hpo⟩
    have := Finset.card_pos.2 ⟨p, hmem⟩
    have := h.count o ho
    omega
  have hkept : ∀ a, a ∈ s.live.erase o → a ∈ s.live ∧ a ≠ o := fun a ha =>
    ⟨Finset.mem_of_mem_erase ha, Finset.ne_of_mem_erase ha⟩
  refine ⟨fun a ha => ?_, fun a ha p hp => ?_, fun a ha => ?_, fun a ha => ?_, ?_, fun a ha => ?_⟩
  · obtain ⟨ha, hao⟩ := hkept a ha
    obtain ⟨r, hr⟩ := h.chain a ha
    refine ⟨r, hr.update fun hor => ?_⟩
    obtain ⟨l₁, l₂, rfl⟩ := List.append_of_mem hor
    obtain rfl | ⟨m, p, rfl⟩ := l₁.eq_nil_or_concat'
    · exact hao (Option.some.inj hr.1)
    · have hp : p ∈ s.live :=
        (h.usable hr (fun b hb => Option.some.inj hb ▸ ha) p (by simp)).1
      rw [List.append_assoc] at hr
      exact hnone p hp (Chain.of_append hr).1
  · obtain ⟨ha, hao⟩ := hkept a ha
    replace hp : s.next a = some p := (Function.update_of_ne hao _ _).symm.trans hp
    exact Finset.mem_erase.2 ⟨fun he => hnone a ha (he ▸ hp), h.closed a ha p hp⟩
  · obtain ⟨ha, hao⟩ := hkept a ha
    have hcount := h.count a ha
    have hfilter : ((s.live.erase o).filter fun p => Function.update s.next o none p = some a) =
        (s.live.filter fun p => s.next p = some a).erase o := by
      ext p
      simp only [Finset.mem_filter, Finset.mem_erase]
      by_cases hp : p = o
      · simp [hp]
      · simp [hp]
    simp only [drop, Function.update_of_ne hao]
    rw [hfilter]
    split
    case isTrue hnext =>
      have hmem : o ∈ s.live.filter fun p => s.next p = some a :=
        Finset.mem_filter.2 ⟨ho, hnext⟩
      have := Finset.card_erase_add_one hmem
      omega
    case isFalse hnext =>
      have hmem : o ∉ s.live.filter fun p => s.next p = some a :=
        fun hm => hnext (Finset.mem_filter.1 hm).2
      rw [Finset.erase_eq_of_notMem hmem]
      exact hcount
  · obtain ⟨ha, hao⟩ := hkept a ha
    simp only [Function.update_of_ne hao]
    exact h.held a ha
  · refine List.nodup_append.2 ⟨h.nodup, List.nodup_singleton o, fun a ha b hb he => ?_⟩
    rw [List.mem_singleton] at hb
    exact h.apart a ha (by rwa [he, hb])
  · rcases List.mem_append.1 ha with ha | ha
    · exact fun hm => h.apart a ha (hkept a hm).1
    · rw [List.mem_singleton.1 ha]
      exact Finset.notMem_erase o s.live

/-- A release of a reference from outside leaves a forest. -/
theorem Forest.released {outside : α → ℕ} (h : Forest s outside)
    (hchain : Chain s.next (some o) l) (ho : o ∈ s.live) (hout : 0 < outside o)
    (hr : Released s l t) : Forest t (drop outside o) := by
  induction l generalizing s o outside t with
  | nil => exact absurd hchain nofun
  | cons c l ih =>
    have hcl : c ∉ l := (List.nodup_cons.1 (nodup_of_chain hchain)).1
    obtain ⟨he, hrest⟩ := hchain
    obtain rfl := Option.some.inj he
    by_cases hc : s.count o = 1
    · let s₁ : Heap α := { s with
        next := Function.update s.next o none
        count := Function.update s.count o 0
        live := s.live.erase o
        dead := s.dead ++ [o] }
      have hforest : Forest s₁ fun a =>
          if s.next o = some a then drop outside o a + 1 else drop outside o a := h.erase ho hout hc
      have hsame : ∀ a ∈ l, s₁.count a = s.count a :=
        fun a ha => Function.update_of_ne (fun he : a = o => hcl (he ▸ ha)) _ _
      have hdestroyed := destroyed_congr hsame
      -- The rest of the chain is released from there.
      obtain ⟨t₁, -, hr₁⟩ := release_ends (s := s₁) (hrest.update hcl) (by
        refine hforest.usable (hrest.update hcl) fun p hp => ?_
        refine Finset.mem_erase.2 ⟨fun he => ?_, h.closed o ho p hp⟩
        cases l with
        | nil => exact absurd (hp.symm.trans hrest) nofun
        | cons d l =>
          obtain rfl : d = p := Option.some.inj (hrest.1.symm.trans hp)
          exact hcl (he ▸ List.mem_cons_self))
      have hwhole : Released s (o :: l) t₁ := by
        refine Released.cons hc hcl hr₁ rfl rfl rfl rfl (fun a => ?_) ?_
        · rw [hr₁.live, hdestroyed, Finset.mem_erase]
          tauto
        · have := hr₁.dead
          rwa [hdestroyed, List.append_assoc] at this
      obtain ⟨hcount, hnext, hlive, hdead⟩ := hr.agree hwhole
      refine Forest.congr ?_ hcount hnext hlive hdead
      cases hd : s.next o with
      | none =>
        obtain rfl : l = [] := by
          rw [hd] at hrest
          cases l with
          | nil => rfl
          | cons d l => exact absurd hrest.1 nofun
        simp only [hd, reduceCtorEq, if_false] at hforest
        have hstay : Released s₁ [] s₁ := ⟨by simp, by simp, by simp, by simp⟩
        obtain ⟨hcount, hnext, hlive, hdead⟩ := hr₁.agree hstay
        exact hforest.congr hcount hnext hlive hdead
      | some d =>
        have hdl : d ∈ l := by
          rw [hd] at hrest
          cases l with
          | nil => exact absurd hrest nofun
          | cons c l =>
            obtain rfl := Option.some.inj hrest.1
            exact List.mem_cons_self
        have hdo : d ≠ o := fun he => hcl (he ▸ hdl)
        have hdlive : d ∈ s₁.live := Finset.mem_erase.2 ⟨hdo, h.closed o ho d hd⟩
        have hchain' : Chain s₁.next (some d) l := by
          rw [← hd]
          exact hrest.update hcl
        have := ih hforest hchain' hdlive (by simp [hd]) hr₁
        have hback : drop (fun a => if s.next o = some a then drop outside o a + 1
            else drop outside o a) d = drop outside o := by
          funext a
          by_cases had : a = d
          · subst had
            simp [drop, hd]
          · simp [drop, hd, had, Ne.symm had]
        rwa [hback] at this
    · obtain ⟨hcount, hnext, hlive, hdead⟩ := hr.agree (.stop hc)
      exact (h.decrement ho hout hc).congr hcount hnext hlive hdead

/-- **The two releases.** A reference from outside to any buffer of any forest is released by the
loop as by the recursion: both end, the counts, the links and the deleted buffers are the same, each
is deleted once, and what is left is a forest. The buffers which lose something are those of the
chain up to the first one with another reference. Only the first destructor finds a link. -/
theorem Forest.unref_eq_release {outside : α → ℕ} (h : Forest s outside) (ho : o ∈ s.live)
    (hout : 0 < outside o) :
    ∃ l t t', Chain s.next (some o) l ∧ Ends (fun n => run n (.unref (some o)) s) t ∧
      Ends (fun n => release n (some o) s) t' ∧ Released s l t ∧
      (t.count = t'.count ∧ t.next = t'.next ∧ t.live = t'.live ∧ t.dead.Perm t'.dead) ∧
      t.dead.Nodup ∧ t.entered = s.entered ++ entries s (destroyed s.count l) ∧
      Forest t (drop outside o) := by
  obtain ⟨l, hchain⟩ := h.chain o ho
  have husable := h.usable hchain fun p hp => Option.some.inj hp ▸ ho
  obtain ⟨t, hends, hreleased, hentered⟩ := unref_ends hchain husable
  obtain ⟨t', hends', hreleased'⟩ := release_ends hchain husable
  have hforest := h.released hchain ho hout hreleased
  exact ⟨l, t, t', hchain, hends, hends', hreleased, hreleased.agree hreleased', hforest.nodup,
    hentered, hforest⟩

/-- The chains 1, 2, 3 and 5, 3, with references to their first buffers. -/
def twoChains : Heap ℕ where
  next a := match a with
    | 1 => some 2
    | 2 => some 3
    | 5 => some 3
    | _ => none
  count a := match a with
    | 3 => 2
    | _ => 1
  live := {1, 2, 3, 5}
  dead := []
  entered := []

/-- The references from outside. -/
def twoHeads (a : ℕ) : ℕ := if a = 1 ∨ a = 5 then 1 else 0

theorem twoChains_forest : Forest twoChains twoHeads where
  chain o ho := by
    simp only [twoChains, Finset.mem_insert, Finset.mem_singleton] at ho
    obtain rfl | rfl | rfl | rfl := ho
    · exact ⟨[1, 2, 3], rfl, rfl, rfl, rfl⟩
    · exact ⟨[2, 3], rfl, rfl, rfl⟩
    · exact ⟨[3], rfl, rfl⟩
    · exact ⟨[5, 3], rfl, rfl, rfl⟩
  closed o ho p hp := by
    simp only [twoChains, Finset.mem_insert, Finset.mem_singleton] at ho
    obtain rfl | rfl | rfl | rfl := ho
    · exact Option.some.inj hp ▸ by decide
    · exact Option.some.inj hp ▸ by decide
    · exact absurd hp nofun
    · exact Option.some.inj hp ▸ by decide
  count := by decide
  held := by decide
  nodup := List.nodup_nil
  apart _ ho := absurd ho List.not_mem_nil

/-- The first head is released: the buffers 1 and 2 go, and 3 stays. -/
theorem Forest.unref_eq_release_sample : ∃ l t t', Chain twoChains.next (some 1) l ∧
    Ends (fun n => run n (.unref (some 1)) twoChains) t ∧
    Ends (fun n => release n (some 1) twoChains) t' ∧ Released twoChains l t ∧
    (t.count = t'.count ∧ t.next = t'.next ∧ t.live = t'.live ∧ t.dead.Perm t'.dead) ∧
    t.dead.Nodup ∧
    t.entered = twoChains.entered ++ entries twoChains (destroyed twoChains.count l) ∧
    Forest t (drop twoHeads 1) :=
  Forest.unref_eq_release twoChains_forest (by decide) (by decide)

example : (run 9 (.unref (some 1)) twoChains).map (fun t => (t.dead, t.count 3, t.entered)) =
    some ([2, 1], 1, [(1, some 2), (2, none)]) := by decide

end BufferRelease

end Serverbox
