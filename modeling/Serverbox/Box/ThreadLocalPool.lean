import Mathlib.Data.List.Nodup
import Serverbox.Lib.Chain
import Serverbox.Lib.Machine
import Serverbox.Lib.Placement

/-!
# The thread-local pool

`mg::box::ThreadLocalPool` keeps freed objects for reuse. Each thread has a chain: a container with
a list of objects. A freed object becomes a node of the list, or the container when there is none;
so the same memory is at different times an object of the user, a node, and a container. A full
chain goes to the global pool, where any thread may take it, and so does the chain of a thread
which exits.

The memory is modelled cell by cell, and a cell has one role at a time. An access in another role
is a failure, like a failed assertion. The sections under the mutex of the global pool are steps,
and the parts of an operation before and after them are steps too.

The history variables are the place of each object, the lists of the chains, and the list of the
global chains.

Source: `src/mg/box/ThreadLocalPool.h`, `src/mg/box/ForwardList.h`.

## Main definitions

* `ThreadLocalPool.Cell`, `ThreadLocalPool.State`: the memory and the pools.
* `ThreadLocalPool.machine`: any number of threads which allocate, free and exit.
* `ThreadLocalPool.Inv`: the chains in the memory, and the places of the objects.

## Main results

* `ThreadLocalPool.pool_ok`: nothing is handed out twice or lost, and the chains are in order.
-/

namespace Serverbox

namespace ThreadLocalPool

/-- `myLastLink` of a list: the first pointer of the list, or the link of a node. -/
inductive Slot (A : Type*)
  | list
  | item (a : A)
  deriving DecidableEq

/-- `ThreadLocalPoolUnit`: an object of the user, a node of a list, or a container with the two
fields of its list, its size and its link. -/
inductive Cell (A : Type*)
  | user
  | object (next : Option A)
  | chain (first : Option A) (lastLink : Slot A) (size : ℕ) (next : Option A)

/-- Where an object is: not created yet, in the hands of the user, in the hands of `FreeT`, the
container of a thread, in the list of a container, or the container of a global chain. -/
inductive Place (A Θ : Type*)
  | absent
  | live
  | freed (θ : Θ)
  | container (θ : Θ)
  | element (c : A)
  | global

/-- Where a thread is: outside, in `AllocateT` after the look into the global pool, or in `FreeT`
after its chain was given to the global pool. -/
inductive Pc (A : Type*)
  | idle
  | taking
  | replacing (a : A)

variable {A Θ : Type*}

/-- The memory, the local pools and the global pool. -/
structure State (A Θ : Type*) where
  mem : A → Cell A
  chain : Θ → Option A
  isDestroyed : Θ → Bool
  pc : Θ → Pc A
  first : Option A
  lastLink : Slot A
  failed : Bool
  place : A → Place A Θ
  lists : A → List A
  chains : List A

/-- The pools before the first call. -/
def State.new (mem : A → Cell A) : State A Θ where
  mem := mem
  chain _ := none
  isDestroyed _ := false
  pc _ := .idle
  first := none
  lastLink := .list
  failed := false
  place _ := .absent
  lists _ := []
  chains := []

/-- `myLastLink` of a list with the given items. -/
def slot (l : List A) : Slot A :=
  match l.getLast? with
  | some z => .item z
  | none => .list

/-- The link of a node. -/
def objectNext (m : A → Cell A) (a : A) : Option A :=
  match m a with
  | .object n => n
  | _ => none

/-- The link of a container. -/
def chainNext (m : A → Cell A) (a : A) : Option A :=
  match m a with
  | .chain _ _ _ n => n
  | _ => none

variable [DecidableEq A] [DecidableEq Θ]

/-- `Append` to the list of a container. -/
def append (m : A → Cell A) (c a : A) : Option (A → Cell A) :=
  match m c with
  | .chain first lastLink size next =>
    let m := Function.update m a (.object none)
    match lastLink with
    | .list => some (Function.update m c (.chain (some a) (.item a) size next))
    | .item z =>
      match m z with
      | .object _ => some (Function.update (Function.update m z (.object (some a))) c
          (.chain first (.item a) size next))
      | _ => none
  | _ => none

/-- The loop of `AllocateT` over the new units. -/
def appendAll (m : A → Cell A) (c : A) : List A → Option (A → Cell A)
  | [] => some m
  | a :: l => (append m c a).bind fun m => appendAll m c l

/-- The new batch of `AllocateT`: the first unit becomes the container. -/
def newBatch (m : A → Cell A) (batchSize : ℕ) (c : A) (l : List A) : Option (A → Cell A) :=
  (appendAll (Function.update m c (.chain none .list 0 none)) c l).bind fun m =>
    match m c with
    | .chain first lastLink _ next =>
      some (Function.update m c (.chain first lastLink batchSize next))
    | _ => none

namespace State

/-- A failure: an assertion of the source, or an access to a cell in a wrong role. -/
def fail (s : State A Θ) : State A Θ := { s with failed := true }

/-- Move a thread. -/
def goto (s : State A Θ) (θ : Θ) (p : Pc A) : State A Θ :=
  { s with pc := Function.update s.pc θ p }

/-- The chain of a thread. -/
def setChain (s : State A Θ) (θ : Θ) (c : Option A) : State A Θ :=
  { s with chain := Function.update s.chain θ c }

/-- The contents of a cell. -/
def store (s : State A Θ) (a : A) (x : Cell A) : State A Θ :=
  { s with mem := Function.update s.mem a x }

/-- An object is in another place from now on. -/
def move (s : State A Θ) (a : A) (p : Place A Θ) : State A Θ :=
  { s with place := Function.update s.place a p }

/-- The items of a container from now on. -/
def setList (s : State A Θ) (c : A) (l : List A) : State A Θ :=
  { s with lists := Function.update s.lists c l }

end State

/-- `Prepend` of a chain to the global pool. -/
def giveAway (s : State A Θ) (c : A) : State A Θ :=
  match s.mem c with
  | .chain first lastLink size _ =>
    ({ s.store c (.chain first lastLink size s.first) with
      first := some c
      lastLink := if s.first = none then .item c else s.lastLink
      chains := c :: s.chains }).move c .global
  | _ => s.fail

/-- The beginning of `AllocateT`: a thread without a chain takes one from the global pool. -/
def fetch (s : State A Θ) (θ : Θ) : State A Θ :=
  match s.chain θ, s.first with
  | none, some c =>
    match s.mem c with
    | .chain _ _ _ next =>
      ((({ s with
        first := next
        lastLink := if next = none then .list else s.lastLink
        chains := s.chains.tail }).move c (.container θ)).setChain θ (some c)).goto θ .taking
    | _ => s.fail
  | _, _ => s.goto θ .taking

/-- A thread which got no chain makes a new batch of the units `c` and `l`. -/
def create (s : State A Θ) (θ : Θ) (c : A) (l : List A) : State A Θ :=
  match newBatch s.mem l.length c l with
  | some m =>
    (({ s with
      mem := m
      place := fun a => if a = c then .container θ else if a ∈ l then .element c else s.place a }
      ).setList c l).setChain θ (some c)
  | none => s.fail

/-- The object which `AllocateT` returns. -/
def returned (s : State A Θ) (θ : Θ) : Option A :=
  match s.chain θ with
  | some c =>
    match s.mem c with
    | .chain (some a) _ _ _ => some a
    | .chain none _ _ _ => some c
    | _ => none
  | none => none

/-- The end of `AllocateT`: the first object of the list is returned, or the container. -/
def take (s : State A Θ) (θ : Θ) : State A Θ :=
  match s.chain θ with
  | some c =>
    match s.mem c with
    | .chain (some a) lastLink size next =>
      match s.mem a with
      | .object n =>
        if size = 0 then s.fail
        else (((((s.store c (.chain n (if n = none then .list else lastLink) (size - 1) next)).store
          a .user).move a .live).setList c (s.lists c).tail).goto θ .idle)
      | _ => s.fail
    | .chain none _ size _ =>
      if size ≠ 0 then s.fail
      else (((s.store c .user).move c .live).setChain θ none).goto θ .idle
    | _ => s.fail
  | none => s.fail

/-- The object becomes the container. -/
def contain (s : State A Θ) (θ : Θ) (a : A) : State A Θ :=
  ((((s.store a (.chain none .list 0 none)).move a (.container θ)).setList a []).setChain θ
    (some a)).goto θ .idle

/-- `FreeT`, up to the unlock of the global pool when the chain is full. -/
def free (s : State A Θ) (batchSize : ℕ) (θ : Θ) (a : A) : State A Θ :=
  match s.chain θ with
  | none => contain s θ a
  | some c =>
    match s.mem c with
    | .chain first lastLink size next =>
      if size = batchSize then ((giveAway s c).move a (.freed θ)).goto θ (.replacing a)
      else
        let lastLink := if first = none then .item a else lastLink
        (((s.store a (.object first)).store c (.chain (some a) lastLink (size + 1) next)).move a
          (.element c)).setList c (a :: s.lists c)
    | _ => s.fail

/-- The destructor of a local pool. -/
def exit (s : State A Θ) (θ : Θ) : State A Θ :=
  let s := { s with isDestroyed := Function.update s.isDestroyed θ true }
  match s.chain θ with
  | some c => (giveAway s c).setChain θ none
  | none => s

/-- What can happen: a thread begins `AllocateT`, makes a new batch, ends `AllocateT`, calls
`FreeT`, ends it, or exits. -/
inductive Action (A Θ : Type*)
  | fetch (θ : Θ)
  | create (θ : Θ) (c : A) (l : List A)
  | take (θ : Θ)
  | free (θ : Θ) (a : A)
  | replace (θ : Θ)
  | exit (θ : Θ)

/-- A thread is outside of the pool and has not exited. -/
def State.idle (s : State A Θ) (θ : Θ) : Bool :=
  !s.isDestroyed θ &&
  match s.pc θ with
  | .idle => true
  | _ => false

/-- The object is in the hands of the user. -/
def State.live (s : State A Θ) (a : A) : Bool :=
  match s.place a with
  | .live => true
  | _ => false

/-- The unit has not been created before. -/
def State.absent (s : State A Θ) (a : A) : Bool :=
  match s.place a with
  | .absent => true
  | _ => false

/-- One step of a thread. The memory of a new batch is new. -/
def step (batchSize : ℕ) (s : State A Θ) : Action A Θ → Option (State A Θ)
  | .fetch θ => if s.idle θ then some (fetch s θ) else none
  | .create θ c l =>
    match s.pc θ with
    | .taking =>
      if s.chain θ = none ∧ l.length = batchSize ∧ (c :: l).Nodup ∧ (c :: l).all s.absent then
        some (create s θ c l)
      else none
    | _ => none
  | .take θ =>
    match s.pc θ with
    | .taking => if s.chain θ ≠ none then some (take s θ) else none
    | _ => none
  | .free θ a => if s.idle θ ∧ s.live a then some (free s batchSize θ a) else none
  | .replace θ =>
    match s.pc θ with
    | .replacing a => some (contain s θ a)
    | _ => none
  | .exit θ => if s.idle θ then some (exit s θ) else none

/-- Any number of threads, from the first call on. -/
def machine (batchSize : ℕ) : Machine (State A Θ) (Action A Θ) where
  init s := ∃ mem, s = .new mem
  step := step batchSize

/-! ### Lists in the memory -/

/-- The container `c` has a list of the given items in the memory. -/
structure IsList (m : A → Cell A) (c : A) (l : List A) (size : ℕ) : Prop where
  cell : ∃ next, m c = .chain l.head? (slot l) size next
  nodes : ∀ a ∈ l, ∃ n, m a = .object n
  chain : Chain (objectNext m) l.head? l
  nodup : (c :: l).Nodup

section Lists

variable {m m' : A → Cell A} {c a z : A} {l r : List A} {n : ℕ}

omit [DecidableEq A] in
@[simp] theorem slot_nil : slot ([] : List A) = .list := rfl

omit [DecidableEq A] in
theorem slot_append_singleton : slot (l ++ [z]) = .item z := by
  simp [slot]

omit [DecidableEq A] in
theorem slot_cons_of_ne_nil (hl : l ≠ []) : slot (a :: l) = slot l := by
  obtain ⟨r, z, rfl⟩ : ∃ r z, l = r ++ [z] := ⟨_, _, (List.dropLast_append_getLast hl).symm⟩
  rw [← List.cons_append, slot_append_singleton, slot_append_singleton]

omit [DecidableEq A] in
theorem objectNext_eq (h : m a = m' a) : objectNext m a = objectNext m' a := by
  rw [objectNext, objectNext, h]

omit [DecidableEq A] in
/-- A list depends on the cells of its container and of its items only. -/
theorem IsList.congr (h : IsList m c l n) (heq : ∀ a ∈ c :: l, m' a = m a) : IsList m' c l n where
  cell := by
    rw [heq c List.mem_cons_self]
    exact h.cell
  nodes a ha := by
    rw [heq a (List.mem_cons_of_mem _ ha)]
    exact h.nodes a ha
  chain := h.chain.congr fun a ha => objectNext_eq (heq a (List.mem_cons_of_mem _ ha))
  nodup := h.nodup

/-- A new container has no items. -/
theorem IsList.new (m : A → Cell A) (c : A) :
    IsList (Function.update m c (.chain none .list 0 none)) c [] 0 where
  cell := ⟨none, Function.update_self ..⟩
  nodes := nofun
  chain := rfl
  nodup := List.nodup_singleton c

/-- The first item is taken out. -/
theorem IsList.tail (h : IsList m c (a :: l) n) : ∃ lastLink next,
    m c = .chain (some a) lastLink n next ∧ m a = .object l.head? ∧
    IsList (Function.update m c (.chain l.head? (if l.head? = none then .list else lastLink) (n - 1)
      next)) c l (n - 1) := by
  obtain ⟨next, hc⟩ := h.cell
  obtain ⟨k, ha⟩ := h.nodes a List.mem_cons_self
  have hk : k = l.head? := by
    have hlink := h.chain.2.head
    rwa [objectNext, ha] at hlink
  obtain ⟨hca, hnodup⟩ := List.nodup_cons.mp h.nodup
  have hcl : c ∉ l := fun hmem => hca (List.mem_cons_of_mem _ hmem)
  have hne : ∀ b ∈ l, b ≠ c := fun b hb he => hcl (he ▸ hb)
  refine ⟨slot (a :: l), next, hc, hk ▸ ha, ⟨next, ?_⟩, fun b hb => ?_, ?_,
    List.nodup_cons.mpr ⟨hcl, (List.nodup_cons.mp hnodup).2⟩⟩
  · rw [Function.update_self]
    cases l with
    | nil => rfl
    | cons b l => rw [slot_cons_of_ne_nil (List.cons_ne_nil b l), if_neg (by simp)]
  · rw [Function.update_of_ne (hne b hb)]
    exact h.nodes b (List.mem_cons_of_mem _ hb)
  · have hchain := h.chain.2
    rw [hchain.head] at hchain
    exact hchain.congr fun b hb => objectNext_eq (Function.update_of_ne (hne b hb) _ _)

/-- An item is put before the first one. -/
theorem IsList.prepend (h : IsList m c l n) (ha : a ∉ c :: l) {x : Option A} :
    IsList (Function.update (Function.update m a (.object l.head?)) c (.chain (some a)
      (if l.head? = none then .item a else slot l) (n + 1) x)) c (a :: l) (n + 1) := by
  obtain ⟨hac, hal⟩ := not_or.mp (mt List.mem_cons.mpr ha)
  obtain ⟨hcl, hnodup⟩ := List.nodup_cons.mp h.nodup
  have hne : ∀ b ∈ l, b ≠ c := fun b hb he => hcl (he ▸ hb)
  have hne' : ∀ b ∈ l, b ≠ a := fun b hb he => hal (he ▸ hb)
  refine ⟨⟨x, ?_⟩, fun b hb => ?_, ⟨rfl, ?_⟩, ?_⟩
  · rw [Function.update_self]
    cases l with
    | nil => rfl
    | cons b l => rw [slot_cons_of_ne_nil (List.cons_ne_nil b l), if_neg (by simp)]; rfl
  · rcases List.mem_cons.mp hb with rfl | hb
    · exact ⟨l.head?, by rw [Function.update_of_ne hac, Function.update_self]⟩
    · rw [Function.update_of_ne (hne b hb), Function.update_of_ne (hne' b hb)]
      exact h.nodes b hb
  · have hlink : objectNext (Function.update (Function.update m a (.object l.head?)) c (.chain
        (some a) (if l.head? = none then .item a else slot l) (n + 1) x)) a = l.head? := by
      rw [objectNext, Function.update_of_ne hac, Function.update_self]
    rw [hlink]
    refine h.chain.congr fun b hb => objectNext_eq ?_
    rw [Function.update_of_ne (hne b hb), Function.update_of_ne (hne' b hb)]
  · refine List.nodup_cons.mpr ⟨fun hmem => ?_, List.nodup_cons.mpr ⟨hal, hnodup⟩⟩
    rcases List.mem_cons.mp hmem with he | hmem
    · exact hac he.symm
    · exact hcl hmem

/-- An item is put after the last one. -/
theorem IsList.append (h : IsList m c l n) (ha : a ∉ c :: l) :
    ∃ m', ThreadLocalPool.append m c a = some m' ∧ IsList m' c (l ++ [a]) n ∧
      ∀ b, b ≠ a → b ∉ c :: l → m' b = m b := by
  obtain ⟨hac, hal⟩ := not_or.mp (mt List.mem_cons.mpr ha)
  obtain ⟨hcl, hnodup⟩ := List.nodup_cons.mp h.nodup
  obtain ⟨next, hc⟩ := h.cell
  have hnd : (c :: (l ++ [a])).Nodup := by
    rw [List.nodup_cons, List.nodup_append]
    refine ⟨fun hmem => ?_, hnodup, List.nodup_singleton a, ?_⟩
    · rcases List.mem_append.mp hmem with hmem | hmem
      · exact hcl hmem
      · exact hac (List.mem_singleton.mp hmem).symm
    · rintro b hb d hd rfl
      exact hal (List.mem_singleton.mp hd ▸ hb)
  unfold ThreadLocalPool.append
  rw [hc]
  dsimp only
  rcases List.eq_nil_or_concat' l with rfl | ⟨r, z, rfl⟩
  · rw [slot_nil]
    refine ⟨_, rfl, ⟨⟨next, Function.update_self ..⟩, fun b hb => ?_, ⟨rfl, ?_⟩, hnd⟩, ?_⟩
    · obtain rfl := List.mem_singleton.mp hb
      exact ⟨none, by rw [Function.update_of_ne hac, Function.update_self]⟩
    · show objectNext _ a = none
      rw [objectNext, Function.update_of_ne hac, Function.update_self]
    · intro b hba hb
      have hbc : b ≠ c := fun he => hb (he ▸ List.mem_cons_self)
      rw [Function.update_of_ne hbc, Function.update_of_ne hba]
  · rw [slot_append_singleton]
    have hz : z ∈ r ++ [z] := List.mem_append_right _ (List.mem_singleton_self z)
    obtain ⟨k, hk⟩ := h.nodes z hz
    have hza : z ≠ a := fun he => hal (he ▸ hz)
    have hzc : z ≠ c := fun he => hcl (he ▸ hz)
    have hzr : z ∉ r := by
      intro hmem
      rw [List.nodup_append] at hnodup
      exact hnodup.2.2 z hmem z (List.mem_singleton_self z) rfl
    dsimp only
    rw [Function.update_of_ne hza, hk]
    dsimp only
    refine ⟨_, rfl, ⟨⟨next, ?_⟩, fun b hb => ?_, ?_, hnd⟩, ?_⟩
    · rw [Function.update_self, slot_append_singleton]
      simp
    · rcases List.mem_append.mp hb with hb | hb
      · have hbc : b ≠ c := fun he => hcl (he ▸ hb)
        have hba : b ≠ a := fun he => hal (he ▸ hb)
        rw [Function.update_of_ne hbc]
        by_cases hbz : b = z
        · exact ⟨some a, by rw [hbz, Function.update_self]⟩
        · rw [Function.update_of_ne hbz, Function.update_of_ne hba]
          exact h.nodes b hb
      · obtain rfl := List.mem_singleton.mp hb
        exact ⟨none, by
          rw [Function.update_of_ne hac, Function.update_of_ne (Ne.symm hza),
            Function.update_self]⟩
    · have hold : Chain (objectNext (Function.update m a (.object none))) (r ++ [z]).head?
          (r ++ [z]) := h.chain.congr fun b hb => objectNext_eq
        (Function.update_of_ne (fun he : b = a => hal (he ▸ hb)) _ _)
      have hlast : Chain (objectNext (Function.update m a (.object none))) (some a) [a] := by
        refine ⟨rfl, ?_⟩
        show objectNext _ a = none
        rw [objectNext, Function.update_self]
      have hsplice := hold.splice hzr hlast (by simpa using hza)
      have hhead : (r ++ [z] ++ [a]).head? = (r ++ [z]).head? := by simp
      rw [hhead, List.append_assoc]
      refine hsplice.congr fun b hb => ?_
      have hbc : b ≠ c := by
        rintro rfl
        exact (List.nodup_cons.mp hnd).1 (by simpa using hb)
      rw [objectNext, Function.update_of_ne hbc]
      by_cases hbz : b = z
      · subst hbz
        rw [Function.update_self, Function.update_self]
      · rw [Function.update_of_ne hbz, Function.update_of_ne hbz, objectNext]
    · intro b hba hb
      have hbc : b ≠ c := fun he => hb (he ▸ List.mem_cons_self)
      have hbz : b ≠ z := fun he => hb (List.mem_cons_of_mem _ (he ▸ hz))
      rw [Function.update_of_ne hbc, Function.update_of_ne hbz, Function.update_of_ne hba]

/-- The loop over the new units. -/
theorem IsList.appendAll (h : IsList m c l n) (hr : (c :: (l ++ r)).Nodup) :
    ∃ m', ThreadLocalPool.appendAll m c r = some m' ∧ IsList m' c (l ++ r) n ∧
      ∀ b, b ∉ c :: (l ++ r) → m' b = m b := by
  induction r generalizing m l with
  | nil => exact ⟨m, rfl, by rwa [List.append_nil], fun _ _ => rfl⟩
  | cons a r ih =>
    have ha : a ∉ c :: l := by
      intro hmem
      rw [← List.cons_append, List.nodup_append] at hr
      exact hr.2.2 a hmem a List.mem_cons_self rfl
    obtain ⟨m₁, h₁, hl, hframe⟩ := h.append ha
    have hassoc : l ++ a :: r = l ++ [a] ++ r := (List.append_cons l a r)
    rw [hassoc] at hr ⊢
    obtain ⟨m₂, h₂, hl', hframe'⟩ := ih hl hr
    refine ⟨m₂, by rw [ThreadLocalPool.appendAll, h₁]; exact h₂, hl', fun b hb => ?_⟩
    rw [hframe' b hb]
    refine hframe b ?_ ?_
    · rintro rfl
      exact hb (by simp)
    · intro hmem
      rcases List.mem_cons.mp hmem with rfl | hmem
      · exact hb List.mem_cons_self
      · exact hb (by simp [hmem])

/-- The new batch is a full chain. -/
theorem newBatch_spec (m : A → Cell A) (hl : (c :: l).Nodup) :
    ∃ m', newBatch m l.length c l = some m' ∧ IsList m' c l l.length ∧
      ∀ b, b ∉ c :: l → m' b = m b := by
  obtain ⟨m₁, h₁, hlist, hframe⟩ := (IsList.new m c).appendAll (r := l) hl
  obtain ⟨next, hc⟩ := hlist.cell
  obtain ⟨hcl, -⟩ := List.nodup_cons.mp hl
  refine ⟨Function.update m₁ c (.chain l.head? (slot l) l.length next), ?_, ?_, fun b hb => ?_⟩
  · rw [newBatch, h₁, Option.bind_some, hc]
    rfl
  · have hne : ∀ b ∈ l, b ≠ c := fun b hb he => hcl (he ▸ hb)
    refine ⟨⟨next, Function.update_self ..⟩, fun b hb => ?_, ?_, hl⟩
    · rw [Function.update_of_ne (hne b hb)]
      exact hlist.nodes b hb
    · exact hlist.chain.congr fun b hb => objectNext_eq (Function.update_of_ne (hne b hb) _ _)
  · have hbc : b ≠ c := fun he => hb (he ▸ List.mem_cons_self)
    rw [Function.update_of_ne hbc, hframe b hb, Function.update_of_ne hbc]

end Lists

/-! ### The invariant -/

section Invariant

/-- The container of a chain. -/
def Place.Holds : Place A Θ → Prop
  | .container _ | .global => True
  | _ => False

/-- The places whose contents are known to the pools. -/
def Place.Tracked : Place A Θ → Prop
  | .absent | .live => False
  | _ => True

/-- What a place holds. -/
def State.contents (s : State A Θ) : Place A Θ → List A
  | .absent | .live => []
  | .freed θ => match s.pc θ with
    | .replacing a => [a]
    | _ => []
  | .container θ => match s.pc θ with
    | .replacing _ => []
    | _ => (s.chain θ).toList
  | .element c => s.lists c
  | .global => s.chains

/-- Each object is in one place, each container has its list in the memory, which is not longer
than a batch, and the global pool is a list of containers. -/
structure Inv (batchSize : ℕ) (s : State A Θ) : Prop where
  placed : Placed Place.Tracked s.place s.contents
  list : ∀ c, (s.place c).Holds → IsList s.mem c (s.lists c) (s.lists c).length
  size : ∀ c, (s.lists c).length ≤ batchSize
  empty : ∀ c, ¬ (s.place c).Holds → s.lists c = []
  chain : Chain (chainNext s.mem) s.first s.chains
  last : s.lastLink = slot s.chains
  failed : s.failed = false

namespace Inv

variable {N : ℕ} {s s' : State A Θ} {θ : Θ} {a c d : A} {l : List A} {m : A → Cell A}

omit [DecidableEq A] [DecidableEq Θ] in
theorem mem_lists (h : Inv N s) : a ∈ s.lists c ↔ s.place a = .element c :=
  h.placed.mem_iff (.element c) trivial a

omit [DecidableEq A] [DecidableEq Θ] in
theorem mem_chains (h : Inv N s) : a ∈ s.chains ↔ s.place a = .global :=
  h.placed.mem_iff .global trivial a

omit [DecidableEq A] [DecidableEq Θ] in
/-- A cell whose object is elsewhere does not belong to a chain. -/
theorem notMem (h : Inv N s) (hne : a ≠ d) (hp : s.place a ≠ .element d) : a ∉ d :: s.lists d := by
  intro hmem
  rcases List.mem_cons.mp hmem with he | hmem
  · exact hne he
  · exact hp (h.mem_lists.mp hmem)

omit [DecidableEq A] [DecidableEq Θ] in
/-- A chain whose cells stay. -/
theorem list_congr {u : State A Θ} (h : Inv N s) (hd : (s.place d).Holds)
    (heq : ∀ b, u.mem b ≠ s.mem b → b ≠ d ∧ s.place b ≠ .element d)
    (hl : u.lists d = s.lists d) : IsList u.mem d (u.lists d) (u.lists d).length := by
  rw [hl]
  refine (h.list d hd).congr fun b hb => ?_
  by_contra hne
  obtain ⟨h₁, h₂⟩ := heq b hne
  exact h.notMem h₁ h₂ hb

omit [DecidableEq A] [DecidableEq Θ] in
/-- The list of the global chains stays when the containers in it keep their links. -/
theorem chain_congr {u : State A Θ} (h : Inv N s)
    (heq : ∀ b, u.mem b ≠ s.mem b → s.place b ≠ .global) :
    Chain (chainNext u.mem) s.first s.chains := by
  refine h.chain.congr fun b hb => ?_
  have hb' : u.mem b = s.mem b := by
    by_contra hne
    exact heq b hne (h.mem_chains.mp hb)
  rw [chainNext, chainNext, hb']

omit [DecidableEq A] [DecidableEq Θ] in
theorem new (N : ℕ) (mem : A → Cell A) : Inv N (.new mem : State A Θ) where
  placed := by
    have hcontents : ∀ p, (State.new mem : State A Θ).contents p = [] := fun p => by
      cases p <;> rfl
    refine ⟨fun p _ => by simp [hcontents], fun p hp t => ?_⟩
    rw [hcontents]
    refine ⟨nofun, fun h => ?_⟩
    obtain rfl : Place.absent = p := h
    cases hp
  list _ h := h.elim
  size _ := Nat.zero_le N
  empty _ _ := rfl
  chain := rfl
  last := rfl
  failed := rfl

omit [DecidableEq A] [DecidableEq Θ] in
/-- The container in the hands of a thread. -/
theorem container (h : Inv N s) (hpc : ∀ a, s.pc θ ≠ .replacing a) (hc : s.chain θ = some c) :
    s.place c = .container θ := by
  refine (h.placed.mem_iff (.container θ) trivial c).mp ?_
  show c ∈ (match s.pc θ with
    | .replacing _ => []
    | _ => (s.chain θ).toList)
  split
  · next a ha => exact absurd ha (hpc a)
  · rw [hc]
    exact List.mem_singleton_self c

/-- The beginning of `AllocateT`. -/
theorem fetch (h : Inv N s) (hpc : s.pc θ = .idle) : Inv N (fetch s θ) := by
  have hquiet : Inv N (s.goto θ .taking) := by
    refine ⟨h.placed.congr fun p _ => .of_eq ?_, h.list, h.size, h.empty, h.chain, h.last, h.failed⟩
    cases p with
    | freed ψ | container ψ =>
      by_cases hψ : ψ = θ
      · subst hψ
        simp [State.contents, State.goto, hpc]
      · simp [State.contents, State.goto, Function.update_of_ne hψ]
    | _ => rfl
  unfold ThreadLocalPool.fetch
  cases hchain : s.chain θ with
  | some c => exact hquiet
  | none =>
    cases hfirst : s.first with
    | none => exact hquiet
    | some c =>
      obtain ⟨l, hl⟩ : ∃ l, s.chains = c :: l := by
        have hhead := h.chain.head
        rw [hfirst] at hhead
        cases hcs : s.chains with
        | nil => simp [hcs] at hhead
        | cons b l => exact ⟨l, by rw [hcs, List.head?_cons] at hhead; rw [Option.some.inj hhead]⟩
      have hplace : s.place c = .global := h.mem_chains.mp (hl ▸ List.mem_cons_self)
      obtain ⟨next, hcell⟩ := (h.list c (hplace ▸ trivial)).cell
      have hch := h.chain
      rw [hl] at hch
      have hnext : next = l.head? := by
        have hlink := hch.2.head
        rwa [chainNext, hcell] at hlink
      dsimp only
      rw [hcell]
      have hholds : ∀ d, (Function.update s.place c (.container θ) d).Holds ↔
          (s.place d).Holds := by
        intro d
        by_cases hd : d = c
        · subst hd
          rw [Function.update_self, hplace]
          exact Iff.rfl
        · rw [Function.update_of_ne hd]
      refine ⟨?_, fun d hd => h.list d ((hholds d).mp hd), h.size,
        fun d hd => h.empty d (mt (hholds d).mpr hd), ?_, ?_, h.failed⟩
      · refine h.placed.move (by rw [hplace]; nofun) (fun _ => ?_) (fun _ => ?_) fun p _ hp hq => ?_
        · rw [hplace]
          show s.chains.Perm (c :: s.chains.tail)
          rw [hl, List.tail_cons]
        · simp [State.contents, State.goto, State.setChain, State.move, hpc, hchain]
        · rw [hplace] at hp
          cases p with
          | global => exact absurd rfl hp
          | freed ψ =>
            by_cases hψ : ψ = θ
            · subst hψ
              simp [State.contents, State.goto, State.setChain, State.move, hpc]
            · simp [State.contents, State.goto, State.setChain, State.move,
                Function.update_of_ne hψ]
          | container ψ =>
            have hψ : ψ ≠ θ := fun he => hq (he ▸ rfl)
            simp [State.contents, State.goto, State.setChain, State.move, Function.update_of_ne hψ]
          | absent | live | element _ => exact .refl _
      · show Chain (chainNext s.mem) next s.chains.tail
        have hrest := hch.2
        rw [hrest.head] at hrest
        rw [hl, List.tail_cons, hnext]
        exact hrest
      · show (if next = none then Slot.list else s.lastLink) = slot s.chains.tail
        rw [h.last, hl, List.tail_cons, hnext]
        cases l with
        | nil => rfl
        | cons b l => rw [slot_cons_of_ne_nil (List.cons_ne_nil b l), if_neg (by simp)]

/-- A new batch. -/
theorem create (h : Inv N s) (hpc : s.pc θ = .taking) (hchain : s.chain θ = none)
    (hlen : l.length = N) (hnd : (c :: l).Nodup) (habs : ∀ a ∈ c :: l, s.place a = .absent) :
    Inv N (create s θ c l) := by
  obtain ⟨m, hm, hlist, hframe⟩ := newBatch_spec s.mem hnd
  obtain ⟨hcl, hl⟩ := List.nodup_cons.mp hnd
  unfold ThreadLocalPool.create
  rw [hm]
  dsimp only
  have hother : ∀ d, d ∉ c :: l → (if d = c then Place.container θ else
      if d ∈ l then .element c else s.place d) = s.place d := by
    intro d hd
    rw [if_neg fun he : d = c => hd (he ▸ List.mem_cons_self),
      if_neg fun he => hd (List.mem_cons_of_mem _ he)]
  have hchanged : ∀ b, m b ≠ s.mem b → s.place b = .absent := by
    intro b hb
    by_contra hne
    exact hb (hframe b fun hmem => hne (habs b hmem))
  have hempty : s.lists c = [] := h.empty c (by rw [habs c List.mem_cons_self]; exact id)
  have hplace : ∀ p t, p.Tracked → p ≠ .container θ → p ≠ .element c →
      ((if t = c then Place.container θ else if t ∈ l then .element c else s.place t) = p ↔
        s.place t = p) := by
    intro p t hp h₁ h₂
    by_cases ht : t ∈ c :: l
    · have hno : s.place t ≠ p := by
        rw [habs t ht]
        rintro rfl
        exact hp
      refine ⟨fun he => ?_, fun he => absurd he hno⟩
      split at he
      · exact absurd he.symm h₁
      · split at he
        · exact absurd he.symm h₂
        · exact absurd he hno
    · rw [hother t ht]
  have hcontents : ∀ p, p ≠ .container θ → p ≠ .element c →
      ((({ s with
        mem := m
        place := fun a => if a = c then .container θ else if a ∈ l then .element c else s.place a
          }).setList c l).setChain θ (some c)).contents p = s.contents p := by
    intro p h₁ h₂
    cases p with
    | container ψ =>
      have hψ : ψ ≠ θ := fun he => h₁ (he ▸ rfl)
      simp [State.contents, State.setChain, State.setList, Function.update_of_ne hψ]
    | element d =>
      have hd : d ≠ c := fun he => h₂ (he ▸ rfl)
      simp [State.contents, State.setChain, State.setList, Function.update_of_ne hd]
    | _ => rfl
  refine ⟨⟨fun p hp => ?_, fun p hp t => ?_⟩, fun d hd => ?_, fun d => ?_, fun d hd => ?_, ?_,
    h.last, h.failed⟩
  · by_cases h₁ : p = .container θ
    · subst h₁
      simp [State.contents, State.setChain, State.setList, hpc]
    · by_cases h₂ : p = .element c
      · subst h₂
        simpa [State.contents, State.setChain, State.setList] using hl
      · rw [hcontents p h₁ h₂]
        exact h.placed.nodup p hp
  · by_cases h₁ : p = .container θ
    · subst h₁
      have hno : s.place t ≠ .container θ := fun he => by
        have hmem := (h.placed.mem_iff (.container θ) trivial t).mpr he
        simp [State.contents, hpc, hchain] at hmem
      show t ∈ (match s.pc θ with
        | .replacing _ => []
        | _ => (Function.update s.chain θ (some c) θ).toList) ↔ _
      rw [hpc, Function.update_self]
      dsimp only [Option.toList]
      rw [List.mem_singleton]
      constructor
      · intro he
        exact if_pos he
      · intro he
        dsimp only [State.setChain, State.setList] at he
        split at he
        · assumption
        · split at he
          · cases he
          · exact absurd he hno
    · by_cases h₂ : p = .element c
      · subst h₂
        have hno : s.place t ≠ .element c := fun he => by
          have hmem := h.mem_lists.mpr he
          rw [hempty] at hmem
          cases hmem
        show t ∈ Function.update s.lists c l c ↔ _
        rw [Function.update_self]
        constructor
        · intro ht
          have htc : t ≠ c := fun he => hcl (he ▸ ht)
          show (if t = c then _ else _) = _
          rw [if_neg htc, if_pos ht]
        · intro he
          dsimp only [State.setChain, State.setList] at he
          split at he
          · cases he
          · split at he
            · assumption
            · exact absurd he hno
      · rw [hcontents p h₁ h₂]
        exact (h.placed.mem_iff p hp t).trans (hplace p t hp h₁ h₂).symm
  · by_cases hdc : d = c
    · subst hdc
      show IsList m d (Function.update s.lists d l d) (Function.update s.lists d l d).length
      rw [Function.update_self]
      exact hlist
    · have hlists : Function.update s.lists c l d = s.lists d := Function.update_of_ne hdc _ _
      have hd' : (s.place d).Holds := by
        dsimp only [State.setChain, State.setList] at hd
        rw [if_neg hdc] at hd
        split at hd
        · exact hd.elim
        · exact hd
      refine h.list_congr (u := (({ s with mem := m }).setList c l)) hd' (fun b hb => ?_) hlists
      have hb' := hchanged b hb
      refine ⟨?_, by rw [hb']; nofun⟩
      rintro rfl
      rw [hb'] at hd'
      exact hd'
  · show (Function.update s.lists c l d).length ≤ N
    by_cases hdc : d = c
    · rw [hdc, Function.update_self]
      exact Nat.le_of_eq hlen
    · rw [Function.update_of_ne hdc]
      exact h.size d
  · show Function.update s.lists c l d = []
    by_cases hdc : d = c
    · subst hdc
      refine absurd ?_ hd
      show (if d = d then Place.container θ else _).Holds
      rw [if_pos rfl]
      trivial
    · rw [Function.update_of_ne hdc]
      by_cases hdl : d ∈ c :: l
      · exact h.empty d (by rw [habs d hdl]; exact id)
      · refine h.empty d fun hh => hd ?_
        show (if d = c then Place.container θ else _).Holds
        rw [hother d hdl]
        exact hh
  · exact h.chain_congr (u := { s with mem := m }) fun b hb => by rw [hchanged b hb]; nofun

/-- The end of `AllocateT`. -/
theorem take (h : Inv N s) (hpc : s.pc θ = .taking) (hchain : s.chain θ = some c) :
    Inv N (take s θ) := by
  have hplace : s.place c = .container θ := h.container (by simp [hpc]) hchain
  have hholds : (s.place c).Holds := hplace ▸ trivial
  have hlist := h.list c hholds
  unfold ThreadLocalPool.take
  rw [hchain]
  dsimp only
  cases hl : s.lists c with
  | nil =>
    obtain ⟨next, hcell⟩ := hlist.cell
    rw [hl] at hcell
    rw [hcell]
    dsimp only [List.head?_nil, List.length_nil]
    rw [if_neg (by simp)]
    have hpl : ∀ d, d ≠ c → ((((s.store c .user).move c .live).setChain θ none).goto θ .idle).place
        d = s.place d := fun d hd => Function.update_of_ne hd _ _
    have hlive : ((((s.store c .user).move c .live).setChain θ none).goto θ .idle).place c =
        .live := Function.update_self ..
    have hmem : ∀ b, (s.store c .user).mem b ≠ s.mem b → b = c := by
      intro b hb
      by_contra hbc
      exact hb (Function.update_of_ne hbc _ _)
    refine ⟨?_, fun d hd => ?_, h.size, fun d hd => ?_, ?_, h.last, h.failed⟩
    · refine h.placed.move (by rw [hplace]; nofun) (fun _ => ?_) (fun ht => ht.elim)
        fun p _ hp _ => ?_
      · rw [hplace]
        simp [State.contents, State.goto, State.setChain, State.move, State.store, hpc, hchain]
      · rw [hplace] at hp
        cases p with
        | container ψ =>
          have hψ : ψ ≠ θ := fun he => hp (he ▸ rfl)
          simp [State.contents, State.goto, State.setChain, State.move, State.store,
            Function.update_of_ne hψ]
        | freed ψ =>
          by_cases hψ : ψ = θ
          · subst hψ
            simp [State.contents, State.goto, State.setChain, State.move, State.store, hpc]
          · simp [State.contents, State.goto, State.setChain, State.move, State.store,
              Function.update_of_ne hψ]
        | absent | live | element _ | global => exact .refl _
    · have hdc : d ≠ c := by
        rintro rfl
        rw [hlive] at hd
        exact hd
      rw [hpl d hdc] at hd
      refine h.list_congr (u := s.store c .user) hd (fun b hb => ?_) rfl
      obtain rfl := hmem b hb
      exact ⟨hdc.symm, by rw [hplace]; nofun⟩
    · show s.lists d = []
      by_cases hdc : d = c
      · rw [hdc, hl]
      · rw [hpl d hdc] at hd
        exact h.empty d hd
    · refine h.chain_congr (u := s.store c .user) fun b hb => ?_
      obtain rfl := hmem b hb
      rw [hplace]
      nofun
  | cons a l =>
    have ha' : s.place a = .element c := h.mem_lists.mp (hl ▸ List.mem_cons_self)
    rw [hl] at hlist
    obtain ⟨hca, hnodup⟩ := List.nodup_cons.mp hlist.nodup
    have hal : a ∉ l := (List.nodup_cons.mp hnodup).1
    have hac : a ≠ c := fun he => hca (he ▸ List.mem_cons_self)
    have hlen : (a :: l).length - 1 = l.length := by rw [List.length_cons, Nat.add_sub_cancel]
    obtain ⟨lastLink, next, hcell, ha, htail⟩ := hlist.tail
    rw [hlen] at htail
    rw [hcell]
    dsimp only
    rw [ha]
    dsimp only
    rw [if_neg (by simp), hlen, List.tail_cons]
    generalize hX : Cell.chain l.head? (if l.head? = none then .list else lastLink) l.length next =
      X at htail ⊢
    have hpl : ∀ d, d ≠ a → (((((s.store c X).store a .user).move a .live).setList c l).goto θ
        .idle).place d = s.place d := fun d hd => Function.update_of_ne hd _ _
    have hpa : (((((s.store c X).store a .user).move a .live).setList c l).goto θ .idle).place a =
        .live := Function.update_self ..
    have hda : ∀ d, ((((((s.store c X).store a .user).move a .live).setList c l).goto θ
        .idle).place d).Holds → d ≠ a := by
      rintro d hd rfl
      rw [hpa] at hd
      exact hd
    have hmem : ∀ b, (((s.store c X).store a .user).mem b ≠ s.mem b) → b = c ∨ b = a := by
      intro b hb
      by_contra hne
      obtain ⟨hbc, hba⟩ := not_or.mp hne
      exact hb ((Function.update_of_ne hba _ _).trans (Function.update_of_ne hbc _ _))
    refine ⟨?_, fun d hd => ?_, fun d => ?_, fun d hd => ?_, ?_, h.last, h.failed⟩
    · refine h.placed.move (by rw [ha']; nofun) (fun _ => ?_) (fun ht => ht.elim) fun p _ hp _ => ?_
      · rw [ha']
        simp [State.contents, State.goto, State.setList, State.move, State.store, hl]
      · rw [ha'] at hp
        cases p with
        | container ψ | freed ψ =>
          by_cases hψ : ψ = θ
          · subst hψ
            simp [State.contents, State.goto, State.setList, State.move, State.store, hpc]
          · simp [State.contents, State.goto, State.setList, State.move, State.store,
              Function.update_of_ne hψ]
        | element d =>
          have hd : d ≠ c := fun he => hp (he ▸ rfl)
          simp [State.contents, State.goto, State.setList, State.move, State.store,
            Function.update_of_ne hd]
        | absent | live | global => exact .refl _
    · have hda := hda d hd
      rw [hpl d hda] at hd
      by_cases hdc : d = c
      · subst hdc
        show IsList _ d (Function.update s.lists d l d) (Function.update s.lists d l d).length
        rw [Function.update_self]
        refine htail.congr fun b hb => Function.update_of_ne ?_ _ _
        rintro rfl
        rcases List.mem_cons.mp hb with he | hb
        · exact hac he
        · exact hal hb
      · refine h.list_congr (u := ((s.store c X).store a .user).setList c l) hd (fun b hb => ?_)
          (Function.update_of_ne hdc _ _)
        rcases hmem b hb with rfl | rfl
        · exact ⟨Ne.symm hdc, by rw [hplace]; nofun⟩
        · refine ⟨Ne.symm hda, ?_⟩
          rw [ha']
          rintro he
          exact hdc (Place.element.inj he).symm
    · show (Function.update s.lists c l d).length ≤ N
      by_cases hdc : d = c
      · have hsize := h.size c
        rw [hl, List.length_cons] at hsize
        rw [hdc, Function.update_self]
        exact Nat.le_of_succ_le hsize
      · rw [Function.update_of_ne hdc]
        exact h.size d
    · show Function.update s.lists c l d = []
      have hdc : d ≠ c := by
        rintro rfl
        rw [hpl d (Ne.symm hac)] at hd
        exact hd hholds
      rw [Function.update_of_ne hdc]
      by_cases hda : d = a
      · subst hda
        exact h.empty d (by rw [ha']; exact id)
      · rw [hpl d hda] at hd
        exact h.empty d hd
    · refine h.chain_congr (u := (s.store c X).store a .user) fun b hb => ?_
      rcases hmem b hb with rfl | rfl
      · rw [hplace]
        nofun
      · rw [ha']
        nofun

/-- An object becomes the container of a thread. -/
theorem contain (h : Inv N s) {p : Place A Θ} (hp : s.place a = p) (hpc : p = .live ∧
    s.pc θ = .idle ∧ s.chain θ = none ∨ p = .freed θ ∧ s.pc θ = .replacing a) :
    Inv N (contain s θ a) := by
  have hno : ¬ (s.place a).Holds := by
    rw [hp]
    rcases hpc with ⟨rfl, -⟩ | ⟨rfl, -⟩ <;> exact id
  have hout : ∀ d, s.place a ≠ .element d := by
    intro d
    rw [hp]
    rcases hpc with ⟨rfl, -⟩ | ⟨rfl, -⟩ <;> nofun
  have hempty : s.lists a = [] := h.empty a hno
  have hmem : ∀ b, (s.store a (.chain none .list 0 none)).mem b ≠ s.mem b → b = a := by
    intro b hb
    by_contra hba
    exact hb (Function.update_of_ne hba _ _)
  have hpl : ∀ d, d ≠ a → (ThreadLocalPool.contain s θ a).place d = s.place d :=
    fun d hd => Function.update_of_ne hd _ _
  have hlists : ∀ d, (ThreadLocalPool.contain s θ a).lists d = s.lists d := by
    intro d
    show Function.update s.lists a [] d = s.lists d
    by_cases hd : d = a
    · rw [hd, Function.update_self, hempty]
    · exact Function.update_of_ne hd _ _
  refine ⟨?_, fun d hd => ?_, fun d => ?_, fun d hd => ?_, ?_, h.last, h.failed⟩
  · refine h.placed.move (by rw [hp]; rcases hpc with ⟨rfl, -⟩ | ⟨rfl, -⟩ <;> nofun) (fun ht => ?_)
      (fun _ => ?_) fun q _ hq hq' => ?_
    · rw [hp] at ht ⊢
      rcases hpc with ⟨rfl, -⟩ | ⟨rfl, hpc⟩
      · exact ht.elim
      · simp [State.contents, ThreadLocalPool.contain, State.goto, State.setChain, State.setList,
          State.move, State.store, hpc]
    · have hnone : s.contents (.container θ) = [] := by
        rcases hpc with ⟨-, hpc, hchain⟩ | ⟨-, hpc⟩
        · simp [State.contents, hpc, hchain]
        · simp [State.contents, hpc]
      rw [hnone]
      simp [State.contents, ThreadLocalPool.contain, State.goto, State.setChain, State.setList,
        State.move, State.store]
    · rw [hp] at hq
      cases q with
      | container ψ =>
        have hψ : ψ ≠ θ := fun he => hq' (he ▸ rfl)
        simp [State.contents, ThreadLocalPool.contain, State.goto, State.setChain, State.setList,
          State.move, State.store, Function.update_of_ne hψ]
      | freed ψ =>
        by_cases hψ : ψ = θ
        · subst hψ
          rcases hpc with ⟨-, hpc, -⟩ | ⟨rfl, hpc⟩
          · simp [State.contents, ThreadLocalPool.contain, State.goto, State.setChain,
              State.setList, State.move, State.store, hpc]
          · exact absurd rfl hq
        · simp [State.contents, ThreadLocalPool.contain, State.goto, State.setChain, State.setList,
            State.move, State.store, Function.update_of_ne hψ]
      | element d => exact .of_eq (hlists d)
      | absent | live | global => exact .refl _
  · rw [hlists d]
    by_cases hda : d = a
    · subst hda
      rw [hempty]
      exact .new s.mem d
    · rw [hpl d hda] at hd
      refine h.list_congr (u := s.store a (.chain none .list 0 none)) hd (fun b hb => ?_) rfl
      obtain rfl := hmem b hb
      exact ⟨Ne.symm hda, hout d⟩
  · rw [hlists d]
    exact h.size d
  · rw [hlists d]
    by_cases hda : d = a
    · rw [hda, hempty]
    · rw [hpl d hda] at hd
      exact h.empty d hd
  · refine h.chain_congr (u := s.store a (.chain none .list 0 none)) fun b hb => ?_
    obtain rfl := hmem b hb
    intro hglob
    exact hno (hglob ▸ trivial)

/-- The chain of a thread goes to the global pool. -/
theorem giveAway (h : Inv N s) (hpc : s.pc θ = .idle) (hchain : s.chain θ = some c) :
    Inv N ((giveAway s c).setChain θ none) := by
  have hplace : s.place c = .container θ := h.container (by simp [hpc]) hchain
  have hlist := h.list c (hplace ▸ trivial)
  obtain ⟨next, hcell⟩ := hlist.cell
  have hcs : c ∉ s.chains := fun hmem => by
    have := h.mem_chains.mp hmem
    rw [hplace] at this
    cases this
  unfold ThreadLocalPool.giveAway
  rw [hcell]
  dsimp only
  generalize hX : Cell.chain (s.lists c).head? (slot (s.lists c)) (s.lists c).length s.first = X
  have hmem : ∀ b, (s.store c X).mem b ≠ s.mem b → b = c := by
    intro b hb
    by_contra hne
    exact hb (Function.update_of_ne hne _ _)
  have hholds : ∀ d, (Function.update s.place c .global d).Holds ↔ (s.place d).Holds := by
    intro d
    by_cases hd : d = c
    · subst hd
      rw [Function.update_self, hplace]
      exact Iff.rfl
    · rw [Function.update_of_ne hd]
  refine ⟨?_, fun d hd => ?_, h.size, fun d hd => h.empty d (mt (hholds d).mpr hd), ?_, ?_,
    h.failed⟩
  · refine h.placed.move (by rw [hplace]; nofun) (fun _ => ?_) (fun _ => .refl _)
      fun p _ hp hq => ?_
    · rw [hplace]
      simp [State.contents, State.setChain, State.move, State.store, hpc, hchain]
    · rw [hplace] at hp
      cases p with
      | container ψ =>
        have hψ : ψ ≠ θ := fun he => hp (he ▸ rfl)
        simp [State.contents, State.setChain, State.move, State.store, Function.update_of_ne hψ]
      | global => exact absurd rfl hq
      | absent | live | freed _ | element _ => exact .refl _
  · by_cases hdc : d = c
    · subst hdc
      have hne : ∀ b ∈ s.lists d, b ≠ d := fun b hb he =>
        (List.nodup_cons.mp hlist.nodup).1 (he ▸ hb)
      refine ⟨⟨s.first, (Function.update_self ..).trans hX.symm⟩, fun b hb => ?_, ?_, hlist.nodup⟩
      · obtain ⟨k, hk⟩ := hlist.nodes b hb
        exact ⟨k, (Function.update_of_ne (hne b hb) _ _).trans hk⟩
      · exact hlist.chain.congr fun b hb => objectNext_eq (Function.update_of_ne (hne b hb) _ _)
    · refine h.list_congr (u := s.store c X) ((hholds d).mp hd) (fun b hb => ?_) rfl
      obtain rfl := hmem b hb
      exact ⟨Ne.symm hdc, by rw [hplace]; nofun⟩
  · refine ⟨rfl, ?_⟩
    have hlink : chainNext (s.store c X).mem c = s.first := by
      have hcell' : (s.store c X).mem c = X := Function.update_self ..
      rw [chainNext, hcell', ← hX]
    show Chain (chainNext (s.store c X).mem) (chainNext (s.store c X).mem c) s.chains
    rw [hlink]
    refine h.chain_congr (u := s.store c X) fun b hb => ?_
    obtain rfl := hmem b hb
    rw [hplace]
    nofun
  · show (if s.first = none then Slot.item c else s.lastLink) = slot (c :: s.chains)
    have hhead := h.chain.head
    cases hl : s.chains with
    | nil =>
      rw [hl, List.head?_nil] at hhead
      rw [if_pos hhead]
      rfl
    | cons b l =>
      rw [hl] at hhead
      rw [if_neg (by simp [hhead]), h.last, hl, slot_cons_of_ne_nil (List.cons_ne_nil b l)]

/-- `FreeT`. -/
theorem free (h : Inv N s) (hpc : s.pc θ = .idle) (ha : s.place a = .live) :
    Inv N (free s N θ a) := by
  unfold ThreadLocalPool.free
  cases hchain : s.chain θ with
  | none => exact h.contain ha (.inl ⟨rfl, hpc, hchain⟩)
  | some c =>
    have hplace : s.place c = .container θ := h.container (by simp [hpc]) hchain
    have hac : a ≠ c := by
      rintro rfl
      rw [hplace] at ha
      cases ha
    have hlist := h.list c (hplace ▸ trivial)
    obtain ⟨next, hcell⟩ := hlist.cell
    dsimp only
    rw [hcell]
    dsimp only
    by_cases hfull : (s.lists c).length = N
    · rw [if_pos hfull]
      have hg := h.giveAway hpc hchain
      have hga : (ThreadLocalPool.giveAway s c).place a = .live := by
        unfold ThreadLocalPool.giveAway
        rw [hcell]
        exact (Function.update_of_ne hac _ _).trans ha
      have hgpc : (ThreadLocalPool.giveAway s c).pc = s.pc := by
        unfold ThreadLocalPool.giveAway
        rw [hcell]
        rfl
      have hgchain : (ThreadLocalPool.giveAway s c).chain = s.chain := by
        unfold ThreadLocalPool.giveAway
        rw [hcell]
        rfl
      generalize ThreadLocalPool.giveAway s c = g at hg hga hgpc hgchain ⊢
      have hholds : ∀ d, (Function.update g.place a (.freed θ) d).Holds ↔ (g.place d).Holds := by
        intro d
        by_cases hd : d = a
        · subst hd
          rw [Function.update_self, hga]
          exact Iff.rfl
        · rw [Function.update_of_ne hd]
      refine ⟨?_, fun d hd => hg.list d ((hholds d).mp hd), hg.size,
        fun d hd => hg.empty d (mt (hholds d).mpr hd), hg.chain, hg.last, hg.failed⟩
      refine hg.placed.move (t := a) (q := .freed θ) ?_ (fun ht => ?_) (fun _ => ?_)
        fun p _ _ hq => ?_
      · rw [show (g.setChain θ none).place a = .live from hga]
        nofun
      · rw [show (g.setChain θ none).place a = .live from hga] at ht
        exact ht.elim
      · simp [State.contents, State.setChain, State.move, State.goto, hgpc, hpc]
      · cases p with
        | freed ψ =>
          have hψ : ψ ≠ θ := fun he => hq (he ▸ rfl)
          simp [State.contents, State.setChain, State.move, State.goto, Function.update_of_ne hψ]
        | container ψ =>
          by_cases hψ : ψ = θ
          · subst hψ
            simp [State.contents, State.setChain, State.move, State.goto, hgpc, hpc]
          · simp [State.contents, State.setChain, State.move, State.goto, Function.update_of_ne hψ]
        | absent | live | element _ | global => exact .refl _
    · rw [if_neg hfull]
      have hac' : a ∉ c :: s.lists c := h.notMem hac (by rw [ha]; nofun)
      have hnew := hlist.prepend hac' (x := next)
      generalize hX : Cell.chain (some a)
        (if (s.lists c).head? = none then .item a else slot (s.lists c)) ((s.lists c).length + 1)
        next = X at hnew ⊢
      generalize hY : Cell.object (s.lists c).head? = Y at hnew ⊢
      have hmem : ∀ b, ((s.store a Y).store c X).mem b ≠ s.mem b → b = c ∨ b = a := by
        intro b hb
        by_contra hne
        obtain ⟨hbc, hba⟩ := not_or.mp hne
        exact hb ((Function.update_of_ne hbc _ _).trans (Function.update_of_ne hba _ _))
      have hempty : s.lists a = [] := h.empty a (by rw [ha]; exact id)
      have hpl : ∀ d, d ≠ a → Function.update s.place a (.element c) d = s.place d :=
        fun d hd => Function.update_of_ne hd _ _
      refine ⟨?_, fun d hd => ?_, fun d => ?_, fun d hd => ?_, ?_, h.last, h.failed⟩
      · refine h.placed.move (by rw [ha]; nofun) (fun ht => ?_) (fun _ => ?_) fun p _ _ hq => ?_
        · rw [ha] at ht
          exact ht.elim
        · simp [State.contents, State.setList, State.move, State.store]
        · cases p with
          | element d =>
            have hd : d ≠ c := fun he => hq (he ▸ rfl)
            simp [State.contents, State.setList, State.move, State.store, Function.update_of_ne hd]
          | absent | live | freed _ | container _ | global => exact .refl _
      · have hda : d ≠ a := by
          rintro rfl
          have : (Function.update s.place d (.element c) d).Holds := hd
          rw [Function.update_self] at this
          exact this
        have hd' : (s.place d).Holds := by
          have hh : (Function.update s.place a (.element c) d).Holds := hd
          rwa [hpl d hda] at hh
        by_cases hdc : d = c
        · subst hdc
          show IsList _ d (Function.update s.lists d (a :: s.lists d) d)
            (Function.update s.lists d (a :: s.lists d) d).length
          rw [Function.update_self, List.length_cons]
          exact hnew
        · refine h.list_congr (u := ((s.store a Y).store c X).setList c (a :: s.lists c)) hd'
            (fun b hb => ?_) (Function.update_of_ne hdc _ _)
          rcases hmem b hb with rfl | rfl
          · exact ⟨Ne.symm hdc, by rw [hplace]; nofun⟩
          · exact ⟨Ne.symm hda, by rw [ha]; nofun⟩
      · show (Function.update s.lists c (a :: s.lists c) d).length ≤ N
        by_cases hdc : d = c
        · rw [hdc, Function.update_self, List.length_cons]
          exact Nat.lt_of_le_of_ne (h.size c) hfull
        · rw [Function.update_of_ne hdc]
          exact h.size d
      · show Function.update s.lists c (a :: s.lists c) d = []
        have hdc : d ≠ c := by
          rintro rfl
          refine hd ?_
          show (Function.update s.place a (.element d) d).Holds
          rw [hpl d (Ne.symm hac), hplace]
          trivial
        rw [Function.update_of_ne hdc]
        by_cases hda : d = a
        · rw [hda, hempty]
        · refine h.empty d fun hh => hd ?_
          show (Function.update s.place a (.element c) d).Holds
          rwa [hpl d hda]
      · refine h.chain_congr (u := (s.store a Y).store c X) fun b hb => ?_
        rcases hmem b hb with rfl | rfl
        · rw [hplace]
          nofun
        · rw [ha]
          nofun

/-- A thread exits. -/
theorem exit (h : Inv N s) (hpc : s.pc θ = .idle) : Inv N (exit s θ) := by
  have h' : Inv N { s with isDestroyed := Function.update s.isDestroyed θ true } :=
    ⟨h.placed.congr fun p _ => by cases p <;> exact .refl _, h.list, h.size, h.empty, h.chain,
      h.last, h.failed⟩
  unfold ThreadLocalPool.exit
  dsimp only
  cases hchain : s.chain θ with
  | none => exact h'
  | some c => exact h'.giveAway hpc hchain

omit [DecidableEq A] [DecidableEq Θ] in
theorem idle_pc (hi : s.idle θ = true) : s.pc θ = .idle := by
  unfold State.idle at hi
  cases hp : s.pc θ <;> simp_all

/-- A step of a thread keeps the invariant. -/
theorem step (h : Inv N s) {b : Action A Θ} (hs : ThreadLocalPool.step N s b = some s') :
    Inv N s' := by
  cases b with
  | fetch θ =>
    simp only [ThreadLocalPool.step, Option.ite_none_right_eq_some, Option.some.injEq] at hs
    exact hs.2 ▸ h.fetch (idle_pc hs.1)
  | create θ c l =>
    simp only [ThreadLocalPool.step] at hs
    split at hs
    · next hpc =>
      simp only [Option.ite_none_right_eq_some, Option.some.injEq] at hs
      obtain ⟨⟨hchain, hlen, hnd, habs⟩, rfl⟩ := hs
      refine h.create hpc hchain hlen hnd fun a ha => ?_
      have hab := List.all_eq_true.mp habs a ha
      unfold State.absent at hab
      cases hp : s.place a <;> simp_all
    · cases hs
  | take θ =>
    simp only [ThreadLocalPool.step] at hs
    split at hs
    · next hpc =>
      simp only [Option.ite_none_right_eq_some, Option.some.injEq] at hs
      obtain ⟨hchain, rfl⟩ := hs
      obtain ⟨c, hc⟩ := Option.ne_none_iff_exists'.mp hchain
      exact h.take hpc hc
    · cases hs
  | free θ a =>
    simp only [ThreadLocalPool.step, Option.ite_none_right_eq_some, Option.some.injEq] at hs
    obtain ⟨⟨hi, hlive⟩, rfl⟩ := hs
    refine h.free (idle_pc hi) ?_
    unfold State.live at hlive
    cases hp : s.place a <;> simp_all
  | replace θ =>
    simp only [ThreadLocalPool.step] at hs
    split at hs
    · next a hpc =>
      cases hs
      refine h.contain (p := .freed θ) ?_ (.inr ⟨rfl, hpc⟩)
      refine (h.placed.mem_iff (.freed θ) trivial a).mp ?_
      simp [State.contents, hpc]
    · cases hs
  | exit θ =>
    simp only [ThreadLocalPool.step, Option.ite_none_right_eq_some, Option.some.injEq] at hs
    exact hs.2 ▸ h.exit (idle_pc hs.1)

end Inv

/-- The invariant holds in every reachable state. -/
theorem inv {N : ℕ} {s : State A Θ} (h : (machine N).Reachable s) : Inv N s := by
  refine (machine N).invariant (P := Inv N) ?_ (fun s b s' hi hs => hi.step hs) h
  rintro _ ⟨mem, rfl⟩
  exact .new N mem

omit [DecidableEq Θ] in
/-- What was created stays so. -/
theorem update_ne_absent {f : A → Place A Θ} {a b : A} {p : Place A Θ} (hp : p ≠ .absent)
    (ha : f a ≠ .absent) : Function.update f b p a ≠ .absent := by
  by_cases hab : a = b
  · rw [hab, Function.update_self]
    exact hp
  · rwa [Function.update_of_ne hab]

omit [DecidableEq Θ] in
theorem giveAway_created (s : State A Θ) (c : A) {a : A} (ha : s.place a ≠ .absent) :
    (giveAway s c).place a ≠ .absent := by
  unfold giveAway
  split
  · exact update_ne_absent nofun ha
  · exact ha

theorem step_created {N : ℕ} {s s' : State A Θ} {b : Action A Θ} (hs : step N s b = some s')
    {a : A} (ha : s.place a ≠ .absent) : s'.place a ≠ .absent := by
  cases b with
  | fetch θ =>
    simp only [step, Option.ite_none_right_eq_some, Option.some.injEq] at hs
    rw [← hs.2, fetch]
    split
    · split
      · exact update_ne_absent nofun ha
      · exact ha
    · exact ha
  | create θ c l =>
    simp only [step] at hs
    split at hs
    · simp only [Option.ite_none_right_eq_some, Option.some.injEq] at hs
      rw [← hs.2, create]
      split
      · show (if a = c then Place.container θ else if a ∈ l then .element c else s.place a) ≠ _
        split
        · nofun
        · split
          · nofun
          · exact ha
      · exact ha
    · cases hs
  | take θ =>
    simp only [step] at hs
    split at hs
    · simp only [Option.ite_none_right_eq_some, Option.some.injEq] at hs
      rw [← hs.2, take]
      split
      · split
        · split
          · split
            · exact ha
            · exact update_ne_absent nofun ha
          · exact ha
        · split
          · exact ha
          · exact update_ne_absent nofun ha
        · exact ha
      · exact ha
    · cases hs
  | free θ d =>
    simp only [step, Option.ite_none_right_eq_some, Option.some.injEq] at hs
    rw [← hs.2, free]
    split
    · exact update_ne_absent nofun ha
    · split
      · split
        · exact update_ne_absent nofun (giveAway_created s _ ha)
        · exact update_ne_absent nofun ha
      · exact ha
  | replace θ =>
    simp only [step] at hs
    split at hs
    · cases hs
      exact update_ne_absent nofun ha
    · cases hs
  | exit θ =>
    simp only [step, Option.ite_none_right_eq_some, Option.some.injEq] at hs
    rw [← hs.2, exit]
    dsimp only
    split
    · exact giveAway_created _ _ ha
    · exact ha

omit [DecidableEq Θ] in
/-- An object which moves between two places outside the hands of the user. -/
theorem update_live {f : A → Place A Θ} {a b : A} {p : Place A Θ} (hp : p ≠ .live)
    (hb : f b ≠ .live) : Function.update f b p a = .live ↔ f a = .live := by
  by_cases hab : a = b
  · subst hab
    rw [Function.update_self]
    exact iff_of_false hp hb
  · rw [Function.update_of_ne hab]

/-- The end of `AllocateT` hands out the object which it returns. -/
theorem take_place (s : State A Θ) (θ : Θ) : take s θ = s.fail ∨
    ∃ a, returned s θ = some a ∧ (take s θ).place = Function.update s.place a .live := by
  unfold take returned
  cases s.chain θ with
  | none => exact .inl rfl
  | some c =>
    dsimp only
    cases s.mem c with
    | user | object _ => exact .inl rfl
    | chain first lastLink size next =>
      cases first with
      | some a =>
        dsimp only
        cases s.mem a with
        | user | chain _ _ _ _ => exact .inl rfl
        | object n =>
          dsimp only
          split
          · exact .inl rfl
          · exact .inr ⟨a, rfl, rfl⟩
      | none =>
        dsimp only
        split
        · exact .inl rfl
        · exact .inr ⟨c, rfl, rfl⟩

namespace Inv

variable {N : ℕ} {s s' : State A Θ} {θ : Θ} {a c d : A} {l : List A}

omit [DecidableEq Θ] in
/-- The chain of a thread is not in the hands of the user. -/
theorem giveAway_live (h : Inv N s) (hpc : s.pc θ = .idle) (hchain : s.chain θ = some c) :
    (ThreadLocalPool.giveAway s c).place a = .live ↔ s.place a = .live := by
  have hplace : s.place c = .container θ := h.container (by simp [hpc]) hchain
  unfold ThreadLocalPool.giveAway
  have hne : s.place c ≠ .live := by simp [hplace]
  split
  · exact update_live (by simp) hne
  · rfl

theorem fetch_live (h : Inv N s) :
    (ThreadLocalPool.fetch s θ).place a = .live ↔ s.place a = .live := by
  unfold ThreadLocalPool.fetch
  split
  · next c hchain hfirst =>
    have hglobal : s.place c = .global :=
      h.mem_chains.mp (List.mem_of_mem_head? (h.chain.head ▸ hfirst))
    have hne : s.place c ≠ .live := by simp [hglobal]
    split
    · exact update_live (by simp) hne
    · rfl
  · rfl

omit [DecidableEq Θ] in
theorem create_live [DecidableEq Θ] (habs : ∀ a ∈ c :: l, s.place a = .absent) :
    (ThreadLocalPool.create s θ c l).place a = .live ↔ s.place a = .live := by
  unfold ThreadLocalPool.create
  split
  · show (if a = c then Place.container θ else if a ∈ l then .element c else s.place a) = _ ↔ _
    split
    · next ha => simp [habs a (ha ▸ List.mem_cons_self)]
    · split
      · next ha => simp [habs a (List.mem_cons_of_mem c ha)]
      · rfl
  · rfl

theorem exit_live (h : Inv N s) (hpc : s.pc θ = .idle) :
    (ThreadLocalPool.exit s θ).place a = .live ↔ s.place a = .live := by
  have h' : Inv N { s with isDestroyed := Function.update s.isDestroyed θ true } :=
    ⟨h.placed.congr fun p _ => by cases p <;> exact .refl _, h.list, h.size, h.empty, h.chain,
      h.last, h.failed⟩
  unfold ThreadLocalPool.exit
  dsimp only
  cases hchain : s.chain θ with
  | none => rfl
  | some c => exact h'.giveAway_live hpc hchain

/-- A freed object leaves the hands of the user, and no other one does. -/
theorem free_live (h : Inv N s) (hpc : s.pc θ = .idle)
    (hok : (ThreadLocalPool.free s N θ d).failed = false) :
    (ThreadLocalPool.free s N θ d).place a = .live ↔ s.place a = .live ∧ a ≠ d := by
  have hmove : ∀ {f : A → Place A Θ} {p : Place A Θ}, p ≠ .live →
      (f a = .live ↔ s.place a = .live) →
      (Function.update f d p a = .live ↔ s.place a = .live ∧ a ≠ d) := fun {f p} hp hf => by
    by_cases had : a = d
    · subst had
      rw [Function.update_self]
      exact iff_of_false hp fun hn => hn.2 rfl
    · rw [Function.update_of_ne had, hf, and_iff_left had]
  unfold ThreadLocalPool.free at hok ⊢
  split at hok
  · exact hmove (by simp) .rfl
  · next c hchain =>
    split at hok
    · split at hok <;> rename_i hsize
      · rw [if_pos hsize]
        exact hmove (by simp) (h.giveAway_live hpc hchain)
      · rw [if_neg hsize]
        exact hmove (by simp) .rfl
    · cases hok

/-- **The hands of the user.** They get what `AllocateT` returns, lose what `FreeT` is given, and
nothing else changes them. -/
theorem step_live (h : Inv N s) {b : Action A Θ} (hs : ThreadLocalPool.step N s b = some s')
    (a : A) : s'.place a = .live ↔ (s.place a = .live ∧ ∀ θ, b ≠ .free θ a) ∨
      ∃ θ, b = .take θ ∧ ThreadLocalPool.returned s θ = some a := by
  have h' := h.step hs
  cases b with
  | fetch θ =>
    simp only [ThreadLocalPool.step, Option.ite_none_right_eq_some, Option.some.injEq] at hs
    simp [← hs.2, h.fetch_live]
  | create θ c l =>
    simp only [ThreadLocalPool.step] at hs
    split at hs
    · simp only [Option.ite_none_right_eq_some, Option.some.injEq] at hs
      obtain ⟨⟨-, -, -, habs⟩, rfl⟩ := hs
      have habsent : ∀ a ∈ c :: l, s.place a = .absent := fun a ha => by
        have hab := List.all_eq_true.mp habs a ha
        unfold State.absent at hab
        cases hp : s.place a <;> simp_all
      simp [create_live habsent]
    · cases hs
  | take θ =>
    simp only [ThreadLocalPool.step] at hs
    split at hs
    · simp only [Option.ite_none_right_eq_some, Option.some.injEq] at hs
      obtain ⟨-, rfl⟩ := hs
      rcases take_place s θ with hfail | ⟨x, hx, hplace⟩
      · exact absurd h'.failed (by simp [hfail, State.fail])
      · rw [hplace, Function.update_apply]
        split
        · next hax => simp [hax, hx]
        · next hax => simp [hx, Ne.symm hax]
    · cases hs
  | free θ d =>
    simp only [ThreadLocalPool.step, Option.ite_none_right_eq_some, Option.some.injEq] at hs
    obtain ⟨⟨hi, -⟩, rfl⟩ := hs
    rw [h.free_live (idle_pc hi) h'.failed]
    simp [eq_comm]
  | replace θ =>
    simp only [ThreadLocalPool.step] at hs
    split at hs
    · next x hpc =>
      cases hs
      have hx : s.place x = .freed θ := by
        refine (h.placed.mem_iff (.freed θ) trivial x).mp ?_
        simp [State.contents, hpc]
      have hne : s.place x ≠ .live := by simp [hx]
      have hlive : (ThreadLocalPool.contain s θ x).place a = .live ↔ s.place a = .live :=
        update_live (by simp) hne
      simp [hlive]
    · cases hs
  | exit θ =>
    simp only [ThreadLocalPool.step, Option.ite_none_right_eq_some, Option.some.injEq] at hs
    simp [← hs.2, h.exit_live (idle_pc hs.1)]

end Inv

/-- A thread which exits keeps no chain. -/
theorem exit_chain (s : State A Θ) (θ : Θ) : (exit s θ).chain θ = none := by
  unfold exit
  dsimp only
  cases hc : s.chain θ with
  | none => exact hc
  | some c => exact Function.update_self ..

/-- What `AllocateT` returns was in the chain of the thread, and it is the container only when its
list is empty. -/
theorem Inv.returned {N : ℕ} {s : State A Θ} {θ : Θ} {c : A} (h : Inv N s)
    (hpc : s.pc θ = .taking) (hchain : s.chain θ = some c) :
    ∃ a, ThreadLocalPool.returned s θ = some a ∧ (ThreadLocalPool.take s θ).place a = .live ∧
      (s.place a = .element c ∨ a = c ∧ s.place a = .container θ ∧ s.lists a = []) := by
  have hplace : s.place c = .container θ := h.container (by simp [hpc]) hchain
  have hlist := h.list c (hplace ▸ trivial)
  obtain ⟨next, hcell⟩ := hlist.cell
  unfold ThreadLocalPool.returned ThreadLocalPool.take
  rw [hchain]
  dsimp only
  cases hl : s.lists c with
  | nil =>
    rw [hl] at hcell
    rw [hcell]
    refine ⟨c, rfl, ?_, .inr ⟨rfl, hplace, hl⟩⟩
    dsimp only [List.head?_nil, List.length_nil]
    rw [if_neg (by simp)]
    exact Function.update_self ..
  | cons a l =>
    have ha : s.place a = .element c := h.mem_lists.mp (hl ▸ List.mem_cons_self)
    rw [hl] at hlist
    obtain ⟨lastLink, next, hcell, hnode, -⟩ := hlist.tail
    rw [hcell]
    refine ⟨a, rfl, ?_, .inl ha⟩
    dsimp only
    rw [hnode]
    dsimp only
    rw [if_neg (by simp)]
    exact Function.update_self ..

/-- The chain belongs to a thread which does not replace it, or to the global pool. -/
def State.IsContainer (s : State A Θ) (c : A) : Prop :=
  (∃ θ, s.chain θ = some c ∧ ∀ a, s.pc θ ≠ .replacing a) ∨ c ∈ s.chains

omit [DecidableEq A] [DecidableEq Θ] in
theorem Inv.holds_iff {N : ℕ} {s : State A Θ} {c : A} (h : Inv N s) :
    (s.place c).Holds ↔ s.IsContainer c := by
  constructor
  · intro hh
    cases hp : s.place c with
    | container θ =>
      have hmem := (h.placed.mem_iff (.container θ) trivial c).mpr hp
      refine .inl ⟨θ, ?_⟩
      cases hpc : s.pc θ with
      | replacing a => simp [State.contents, hpc] at hmem
      | idle | taking =>
        simp only [State.contents, hpc, Option.mem_toList] at hmem
        exact ⟨hmem, nofun⟩
    | global => exact .inr (h.mem_chains.mpr hp)
    | absent | live | freed _ | element _ =>
      rw [hp] at hh
      exact hh.elim
  · rintro (⟨θ, hc, hpc⟩ | hc)
    · rw [h.container hpc hc]
      trivial
    · rw [h.mem_chains.mp hc]
      trivial

/-- **The pool.** Nothing fails. An object which was created stays so, and it is in the hands of the
user, of `FreeT`, the container of a chain or in the list of one, and only one of these. The chains
are in the memory, with their sizes, and not longer than a batch; the global pool is a list of them.
The user has what `AllocateT` returned and `FreeT` did not get since then; so a freed object is in
the pool again. A thread which exits keeps no chain. `AllocateT` returns an object which is not in
the hands of the user, and the container only when its list is empty. -/
theorem pool_ok {N : ℕ} {s : State A Θ} (h : (machine N).Reachable s) :
    s.failed = false ∧
    (∀ a, s.place a ≠ .absent → s.place a = .live ∨ (∃ θ, s.pc θ = .replacing a) ∨
      s.IsContainer a ∨ ∃ c, s.IsContainer c ∧ a ∈ s.lists c) ∧
    (∀ p q a, a ∈ s.contents p → a ∈ s.contents q → p = q ∧ s.place a = p) ∧
    (∀ c, s.IsContainer c → IsList s.mem c (s.lists c) (s.lists c).length ∧
      (s.lists c).length ≤ N) ∧
    Chain (chainNext s.mem) s.first s.chains ∧
    (∀ b s', (machine N).step s b = some s' → ∀ a, s.place a ≠ .absent → s'.place a ≠ .absent) ∧
    (∀ b s', (machine N).step s b = some s' → ∀ a, s'.place a = .live ↔
      (s.place a = .live ∧ ∀ θ, b ≠ .free θ a) ∨ ∃ θ, b = .take θ ∧ returned s θ = some a) ∧
    (∀ θ s', (machine N).step s (.exit θ) = some s' → s'.chain θ = none) ∧
    ∀ θ s', (machine N).step s (.take θ) = some s' → ∃ a, returned s θ = some a ∧
      s.place a ≠ .live ∧ s'.place a = .live ∧ (s.chain θ = some a → s.lists a = []) := by
  have hi := inv h
  refine ⟨hi.failed, fun a ha => ?_, fun p q a hp hq => ?_, fun c hc => ?_, hi.chain,
    fun b s' hs a ha => step_created hs ha, fun b s' hs a => hi.step_live hs a, fun θ s' hs => ?_,
    fun θ s' hs => ?_⟩
  · cases hp : s.place a with
    | absent => exact absurd hp ha
    | live => exact .inl rfl
    | freed θ =>
      have hmem := (hi.placed.mem_iff (.freed θ) trivial a).mpr hp
      refine .inr (.inl ⟨θ, ?_⟩)
      cases hpc : s.pc θ with
      | replacing b =>
        simp only [State.contents, hpc, List.mem_singleton] at hmem
        rw [hmem]
      | idle | taking => simp [State.contents, hpc] at hmem
    | container θ => exact .inr (.inr (.inl (hi.holds_iff.mp (hp ▸ trivial))))
    | global => exact .inr (.inr (.inl (hi.holds_iff.mp (hp ▸ trivial))))
    | element c =>
      have hmem := hi.mem_lists.mpr hp
      refine .inr (.inr (.inr ⟨c, hi.holds_iff.mp ?_, hmem⟩))
      by_contra hno
      rw [hi.empty c hno] at hmem
      cases hmem
  · have htr : ∀ {r}, a ∈ s.contents r → r.Tracked := fun {r} hr => by
      cases r with
      | absent | live => cases hr
      | _ => trivial
    exact ⟨hi.placed.eq_of_mem (htr hp) (htr hq) hp hq, (hi.placed.mem_iff p (htr hp) a).mp hp⟩
  · exact ⟨hi.list c (hi.holds_iff.mpr hc), hi.size c⟩
  · simp only [machine, step, Option.ite_none_right_eq_some, Option.some.injEq] at hs
    rw [← hs.2]
    exact exit_chain s θ
  · simp only [machine, step] at hs
    split at hs
    · next hpc =>
      simp only [Option.ite_none_right_eq_some, Option.some.injEq] at hs
      obtain ⟨hne, rfl⟩ := hs
      obtain ⟨c, hc⟩ := Option.ne_none_iff_exists'.mp hne
      obtain ⟨a, hret, hlive, hwas⟩ := hi.returned hpc hc
      refine ⟨a, hret, ?_, hlive, fun hca => ?_⟩
      · rcases hwas with hwas | ⟨-, hwas, -⟩ <;> rw [hwas] <;> nofun
      · obtain rfl : c = a := Option.some.inj (hc.symm.trans hca)
        rcases hwas with hwas | ⟨-, -, hwas⟩
        · rw [hi.container (by simp [hpc]) hc] at hwas
          cases hwas
        · exact hwas
    · cases hs

/-- Two threads with batches of one object: what one of them allocated is freed by the other one,
goes to the global pool when that thread exits, and is returned by `AllocateT` again. -/
theorem pool_ok_two : ∃ s s₁ s₂ s₃ s₄ : State ℕ Bool, (machine 1).Reachable s ∧
    s.place 0 = .live ∧
    (machine 1).step s (.free false 0) = some s₁ ∧ s₁.place 0 ≠ .live ∧ s₁.place 0 ≠ .absent ∧
    (machine 1).step s₁ (.exit false) = some s₂ ∧ s₂.chain false = none ∧
    (machine 1).step s₂ (.fetch true) = some s₃ ∧
    (machine 1).step s₃ (.take true) = some s₄ ∧ returned s₃ true = some 0 ∧
    s₄.place 0 = .live ∧ s₄.failed = false := by
  have hrun : ((machine 1 : Machine (State ℕ Bool) _).run (.new fun _ => .user)
      [.fetch true, .create true 0 [1], .take true, .fetch true, .take true]).any (fun s =>
        s.live 0 && ((machine 1).step s (.free false 0)).any fun s₁ =>
        ((machine 1).step s₁ (.exit false)).any fun s₂ =>
        ((machine 1).step s₂ (.fetch true)).any fun s₃ =>
        returned s₃ true = some 0 && ((machine 1).step s₃ (.take true)).isSome) = true := by
    decide +kernel
  simp only [Option.any_eq_true, Bool.and_eq_true, decide_eq_true_eq, Option.isSome_iff_exists]
    at hrun
  obtain ⟨s, hs, hlive, s₁, hs₁, s₂, hs₂, s₃, hs₃, hret, s₄, hs₄⟩ := hrun
  have hplace : s.place 0 = .live := by
    unfold State.live at hlive
    cases hp : s.place 0 <;> simp_all
  have hr : (machine 1).Reachable s := .of_run (.init ⟨_, rfl⟩) hs
  have hr₁ := hr.step hs₁
  have hr₂ := hr₁.step hs₂
  have hr₃ := hr₂.step hs₃
  obtain ⟨-, -, -, -, -, hcreated, hhands, -⟩ := pool_ok hr
  obtain ⟨-, -, -, -, -, -, -, hexit, -⟩ := pool_ok hr₁
  obtain ⟨-, -, -, -, -, -, hhands₃, -⟩ := pool_ok hr₃
  have hfreed : s₁.place 0 ≠ .live := by
    simp [hhands _ _ hs₁ 0]
  have hpresent : s₁.place 0 ≠ .absent := hcreated _ _ hs₁ 0 (by simp [hplace])
  have hagain : s₄.place 0 = .live := (hhands₃ _ _ hs₄ 0).mpr (.inr ⟨true, rfl, hret⟩)
  exact ⟨s, s₁, s₂, s₃, s₄, hr, hplace, hs₁, hfreed, hpresent, hs₂, hexit _ _ hs₂, hs₃, hs₄, hret,
    hagain, (pool_ok (hr₃.step hs₄)).1⟩

end Invariant

end ThreadLocalPool

end Serverbox
