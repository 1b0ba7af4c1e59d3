import Mathlib.Data.Fintype.Defs
import Mathlib.Data.Fintype.Option
import Serverbox.Lib.Chain
import Serverbox.Lib.Machine

/-!
# The intrusive queue of many producers

`mg::box::MultiProducerQueueIntrusive` is a stack of items whose head is replaced by a
compare-and-swap, and which is taken as a whole by the consumer and reversed. A producer owns the
items of its chain until its compare-and-swap succeeds, and nobody else reads or writes their links
before; the same holds for the chain which the consumer has taken. So a loop over owned items is one
step here, together with the start of the call or with the exchange of the head. Loading the head,
setting the link of the last item and the compare-and-swap are steps of their own, and the latter
may fail spuriously.

The history variables are the items in the order of the successful compare-and-swaps, each push with
the order in which its items are to be popped, the items of all the results of the consumer, and
whether each push has returned what it should.

Source: `src/mg/box/MultiProducerQueueIntrusive.h`.

## Main definitions

* `MultiProducerQueueIntrusive.Push.prepare`: a push up to `PrivPushRange`.
* `MultiProducerQueueIntrusive.machine`: any producers and the consumer.

## Main results

* `MultiProducerQueueIntrusive.relink_spec`: the loops of `PushMany` and `PopAll`.
* `MultiProducerQueueIntrusive.pushed_in_order`: nothing is lost, repeated or reordered.
-/

namespace Serverbox

namespace MultiProducerQueueIntrusive

variable {α P : Type*}

section Loops

variable [DecidableEq α]

/-- The loop of `PopAll` and of `PushMany`: each link is turned to the previous item. -/
def relink : ℕ → (α → Option α) → Option α → Option α → (α → Option α) × Option α
  | _, link, none, prev => (link, prev)
  | 0, link, some _, prev => (link, prev)
  | n + 1, link, some curr, prev =>
    relink n (Function.update link curr prev) (link curr) (some curr)

/-- The loop of `PushManyFastReversed` without a last item. -/
def lastOf : ℕ → (α → Option α) → α → α
  | 0, _, last => last
  | n + 1, link, last =>
    match link last with
    | none => last
    | some next => lastOf n link next

/-- The items from an item on. -/
def walk : ℕ → (α → Option α) → Option α → List α
  | _, _, none => []
  | 0, _, some _ => []
  | n + 1, link, some a => a :: walk n link (link a)

end Loops

/-- A call of a producer, with the items of its chain. -/
inductive Push (α : Type*)
  | push (item : α)
  | pushMany (first : α) (rest : List α)
  | pushManyFastReversed (first : α) (rest : List α)
  | pushManyFastReversedTo (first : α) (rest : List α)

/-- The chain of a call. -/
def Push.chain : Push α → List α
  | push item => [item]
  | pushMany first rest | pushManyFastReversed first rest | pushManyFastReversedTo first rest =>
    first :: rest

/-- The items of a call in the order in which they are to be popped. -/
def Push.items : Push α → List α
  | push item => [item]
  | pushMany first rest => first :: rest
  | pushManyFastReversed first rest | pushManyFastReversedTo first rest => (first :: rest).reverse

/-- What a call needs: the chain ends with a null, or at the given last item. -/
def Push.Fits (link : α → Option α) : Push α → Prop
  | push _ => True
  | pushMany first rest | pushManyFastReversed first rest => Chain link (some first) (first :: rest)
  | pushManyFastReversedTo first rest => Linked link (first :: rest)

/-- The arguments of `PrivPushRange`, with the links. -/
structure Range (α : Type*) where
  link : α → Option α
  first : α
  last : α

section Prepare

variable [DecidableEq α]

/-- A call up to `PrivPushRange`. -/
def Push.prepare (link : α → Option α) : Push α → Range α
  | push item => ⟨link, item, item⟩
  | pushManyFastReversed first rest => ⟨link, first, lastOf rest.length link first⟩
  | pushManyFastReversedTo first rest =>
    let last := (first :: rest).getLast (List.cons_ne_nil first rest)
    ⟨Function.update link last none, first, last⟩
  | pushMany last rest =>
    match link last with
    | none => ⟨link, last, last⟩
    | some next =>
      let r := relink rest.length link (some next) (some last)
      ⟨Function.update r.1 last none, r.2.getD last, last⟩

end Prepare

/-- Where a producer is in the loop of `PrivPushRange`. -/
inductive Phase (α : Type*)
  | load
  | link (oldHead : Option α)
  | cas (oldHead : Option α)

/-- A push in `PrivPushRange`. -/
structure Pending (α : Type*) where
  first : α
  last : α
  items : List α
  phase : Phase α

/-- The links, the head, the pushes which are not over, and the history. -/
structure State (α P : Type*) where
  link : α → Option α
  head : Option α
  pending : P → Option (Pending α)
  committed : List α
  popped : List α
  resultsOk : Bool
  popHead : Option α
  popTail : Option α

/-- A step of a producer or of the consumer. -/
inductive Action (α P : Type*)
  | start (p : P) (m : Push α)
  | load (p : P)
  | link (p : P)
  | cas (p : P) (spurious : Bool)
  | popAll
  | popAllFastReversed

section Step

variable [DecidableEq α] [DecidableEq P]

namespace State

/-- The items of the queue, the last one first. -/
def stack (s : State α P) : List α := walk s.committed.length s.link s.head

/-- The items of a call are nobody's. -/
def Free (s : State α P) (l : List α) : Prop :=
  (∀ a ∈ l, a ∉ s.stack) ∧ ∀ p, ∀ d ∈ s.pending p, ∀ a ∈ l, a ∉ d.items

instance [Fintype P] (s : State α P) (l : List α) : Decidable (s.Free l) :=
  inferInstanceAs (Decidable ((∀ a ∈ l, a ∉ s.stack) ∧ _))

/-- The state of a producer. -/
def setPending (s : State α P) (p : P) (d : Option (Pending α)) : State α P :=
  { s with pending := Function.update s.pending p d }

/-- The start of a call, up to `PrivPushRange`. -/
def start (s : State α P) (p : P) (m : Push α) : State α P :=
  let r := m.prepare s.link
  { s with link := r.link }.setPending p (some ⟨r.first, r.last, m.items, .load⟩)

/-- `CmpExchgWeakAcqRel`, and the end of the call when it succeeds. -/
def cas (s : State α P) (p : P) (d : Pending α) (oldHead : Option α) (spurious : Bool) :
    State α P :=
  if s.head = oldHead ∧ spurious = false then
    { s with
      head := some d.first
      committed := s.committed ++ d.items
      resultsOk := s.resultsOk &&
        (decide (oldHead = none) ==
          decide (s.popped.length = s.committed.length)) }.setPending p none
  else s.setPending p (some { d with phase := .link s.head })

/-- `PopAll`. -/
def popAll (s : State α P) : State α P :=
  let r := relink s.committed.length s.link s.head none
  { s with
    link := r.1
    head := none
    popHead := r.2
    popTail := s.head
    popped := s.popped ++ walk s.committed.length r.1 r.2 }

/-- `PopAllFastReversed`, whose result is read backwards. -/
def popAllFastReversed (s : State α P) : State α P :=
  { s with
    head := none
    popHead := s.head
    popped := s.popped ++ (walk s.committed.length s.link s.head).reverse }

end State

/-- The calls which a producer may start. -/
def Allowed (s : State α P) (m : Push α) : Prop :=
  m.Fits s.link ∧ m.chain.Nodup ∧ s.Free m.chain

/-- One step. Whether a call is allowed is decided by the producer. -/
def step (s : State α P) : Action α P → Option (State α P)
  | .start p m => if (s.pending p).isNone then some (s.start p m) else none
  | .load p =>
    match s.pending p with
    | some d =>
      match d.phase with
      | .load => some (s.setPending p (some { d with phase := .link s.head }))
      | _ => none
    | none => none
  | .link p =>
    match s.pending p with
    | some d =>
      match d.phase with
      | .link oldHead => some ({ s with link := Function.update s.link d.last oldHead }.setPending p
          (some { d with phase := .cas oldHead }))
      | _ => none
    | none => none
  | .cas p spurious =>
    match s.pending p with
    | some d =>
      match d.phase with
      | .cas oldHead => some (s.cas p d oldHead spurious)
      | _ => none
    | none => none
  | .popAll => some s.popAll
  | .popAllFastReversed => some s.popAllFastReversed

/-- Any producers and one consumer. -/
def machine (α P : Type*) [DecidableEq α] [DecidableEq P] : Machine (State α P) (Action α P) where
  init s := s.head = none ∧ (∀ p, s.pending p = none) ∧ s.committed = [] ∧ s.popped = [] ∧
    s.resultsOk = true
  step := step

/-- The producers start only calls with a chain which is theirs. -/
def Proper (s : State α P) : Action α P → Prop
  | .start _ m => Allowed s m
  | _ => True

instance decidableChain (link : α → Option α) :
    (p : Option α) → (l : List α) → Decidable (Chain link p l)
  | p, [] => inferInstanceAs (Decidable (p = none))
  | p, a :: l =>
    have := decidableChain link (link a) l
    inferInstanceAs (Decidable (p = some a ∧ Chain link (link a) l))

instance (link : α → Option α) : (m : Push α) → Decidable (m.Fits link)
  | .push _ => .isTrue trivial
  | .pushMany first rest | .pushManyFastReversed first rest =>
    inferInstanceAs (Decidable (Chain link (some first) (first :: rest)))
  | .pushManyFastReversedTo first rest => inferInstanceAs (Decidable (Linked link (first :: rest)))

instance [Fintype P] (s : State α P) : (a : Action α P) → Decidable (Proper s a)
  | .start _ m => inferInstanceAs (Decidable (m.Fits s.link ∧ m.chain.Nodup ∧ s.Free m.chain))
  | .load _ | .link _ | .cas _ _ | .popAll | .popAllFastReversed => .isTrue trivial

end Step

/-! ### The loops -/

section Loops

variable [DecidableEq α] {link link' : α → Option α} {curr prev p : Option α} {l r : List α}
  {a z : α}
  {n : ℕ}

omit [DecidableEq α] in
theorem linked_congr_init (h : Linked link (l ++ [z])) (hlink : ∀ a ∈ l, link' a = link a) :
    Linked link' (l ++ [z]) := by
  induction l with
  | nil => trivial
  | cons a l ih =>
    have hl := ih h.tail fun b hb => hlink b (List.mem_cons_of_mem _ hb)
    cases l with
    | nil => exact ⟨(hlink a List.mem_cons_self).trans h.1, trivial⟩
    | cons b l => exact ⟨(hlink a List.mem_cons_self).trans h.1, hl⟩

/-- The loop reverses a chain in front of another one, and leaves the other links. -/
theorem relink_spec (h : Chain link curr l) (hr : Chain link prev r) (hnodup : (l ++ r).Nodup)
    (hn : l.length ≤ n) :
    Chain (relink n link curr prev).1 (relink n link curr prev).2 (l.reverse ++ r) ∧
      ∀ x, x ∉ l → (relink n link curr prev).1 x = link x := by
  induction l generalizing link curr prev r n with
  | nil =>
    obtain rfl : curr = none := h
    cases n <;> exact ⟨hr, fun _ _ => rfl⟩
  | cons c l ih =>
    obtain ⟨rfl, hl⟩ := h
    cases n with
    | zero => exact absurd hn (Nat.not_succ_le_zero _)
    | succ n =>
      obtain ⟨hc, hlr⟩ := List.nodup_cons.mp hnodup
      obtain ⟨hcl, hcr⟩ := not_or.mp (mt List.mem_append.mpr hc)
      have hprev : Chain (Function.update link c prev) (some c) (c :: r) := by
        refine ⟨rfl, ?_⟩
        rw [Function.update_self]
        exact hr.update hcr
      have hnodup' : (l ++ c :: r).Nodup := by
        rw [List.nodup_middle]
        exact hnodup
      obtain ⟨hchain, hothers⟩ := ih (hl.update hcl) hprev hnodup' (Nat.le_of_succ_le_succ hn)
      rw [relink]
      refine ⟨?_, fun x hx => ?_⟩
      · rw [List.reverse_cons, List.append_assoc]
        exact hchain
      · obtain ⟨hxc, hxl⟩ := not_or.mp (mt List.mem_cons.mpr hx)
        rw [hothers x hxl, Function.update_of_ne hxc]

omit [DecidableEq α] in
theorem lastOf_spec (h : Chain link (some a) (l ++ [z])) (hn : l.length ≤ n) :
    lastOf n link a = z := by
  induction l generalizing a n with
  | nil =>
    obtain ⟨ha, hz⟩ := h
    obtain rfl := Option.some.inj ha
    have hnone : link a = none := hz
    cases n with
    | zero => rfl
    | succ n => rw [lastOf, hnone]
  | cons b l ih =>
    obtain ⟨ha, hl⟩ := h
    obtain rfl := Option.some.inj ha
    cases n with
    | zero => exact absurd hn (Nat.not_succ_le_zero _)
    | succ n =>
      obtain ⟨c, hc⟩ : ∃ c, link a = some c := by
        rw [hl.head]
        cases l <;> exact ⟨_, rfl⟩
      rw [lastOf, hc]
      exact ih (hc ▸ hl) (Nat.le_of_succ_le_succ hn)

omit [DecidableEq α] in
theorem walk_spec (h : Chain link p l) (hn : l.length ≤ n) : walk n link p = l := by
  induction l generalizing p n with
  | nil =>
    obtain rfl : p = none := h
    cases n <;> rfl
  | cons a l ih =>
    obtain ⟨rfl, hl⟩ := h
    cases n with
    | zero => exact absurd hn (Nat.not_succ_le_zero _)
    | succ n => rw [walk, ih hl (Nat.le_of_succ_le_succ hn)]

/-- The loop does not read the links of the items outside of the chain. -/
theorem relink_update (h : Chain link curr l) (hnodup : l.Nodup) (ha : a ∉ l) :
    relink n (Function.update link a p) curr prev =
      (Function.update (relink n link curr prev).1 a p, (relink n link curr prev).2) := by
  induction l generalizing link curr prev n with
  | nil =>
    obtain rfl : curr = none := h
    cases n <;> rfl
  | cons c l ih =>
    obtain ⟨rfl, hl⟩ := h
    obtain ⟨hc, hnodup⟩ := List.nodup_cons.mp hnodup
    obtain ⟨hac, hal⟩ := not_or.mp (mt List.mem_cons.mpr ha)
    cases n with
    | zero => rfl
    | succ n =>
      rw [relink, relink, Function.update_of_ne (Ne.symm hac), Function.update_comm hac]
      exact ih (hl.update hc) hnodup hal

end Loops

/-! ### The invariant -/

section Invariant

variable [DecidableEq α] [DecidableEq P] {s s' : State α P} {p : P} {q : List α} {d : Pending α}
  {link link' : α → Option α} {m : Push α}

/-- The range of a push: from its first item on, all its items backwards up to the last one. -/
structure Pending.Ready (link : α → Option α) (d : Pending α) : Prop where
  range : ∃ r, d.items.reverse = r ++ [d.last] ∧ (r ++ [d.last]).head? = some d.first ∧
    Linked link (r ++ [d.last])
  nodup : d.items.Nodup
  old : ∀ oldHead, d.phase = .cas oldHead → link d.last = oldHead

/-- The queue holds the items which were pushed and not popped, and the pushes which are not over
have items of their own. -/
structure Inv (s : State α P) (q : List α) : Prop where
  chain : Chain s.link s.head q.reverse
  items : s.popped ++ q = s.committed
  nodup : q.Nodup
  ready : ∀ p d, s.pending p = some d → d.Ready s.link
  apart : ∀ p d, s.pending p = some d → ∀ a ∈ d.items, a ∉ q
  alone : ∀ p p' d d', p ≠ p' → s.pending p = some d → s.pending p' = some d' →
    ∀ a ∈ d.items, a ∉ d'.items
  results : s.resultsOk = true

omit [DecidableEq α] in
theorem Pending.Ready.last_mem (h : d.Ready link) : d.last ∈ d.items := by
  obtain ⟨r, hr, -⟩ := h.range
  rw [← List.mem_reverse, hr]
  exact List.mem_append_right r List.mem_cons_self

omit [DecidableEq α] in
/-- Only the links of the items matter. -/
theorem Pending.Ready.congr (h : d.Ready link) (hlink : ∀ a ∈ d.items, link' a = link a) :
    d.Ready link' := by
  obtain ⟨r, hr, hhead, hlinked⟩ := h.range
  have hmem : ∀ a ∈ r, link' a = link a := fun a ha =>
    hlink a (List.mem_reverse.mp (hr ▸ List.mem_append_left _ ha))
  refine ⟨⟨r, hr, hhead, linked_congr_init hlinked hmem⟩, h.nodup, fun old hold => ?_⟩
  rw [hlink _ h.last_mem, h.old old hold]

omit [DecidableEq α] [DecidableEq P] in
theorem Inv.stack (h : Inv s q) : s.stack = q.reverse := by
  refine walk_spec h.chain ?_
  rw [List.length_reverse, ← h.items, List.length_append]
  exact Nat.le_add_left _ _

/-- A call up to `PrivPushRange` leaves a range, and changes only links of its items. -/
theorem Push.prepare_spec (hfits : m.Fits link) (hnodup : m.chain.Nodup) :
    let r := m.prepare link
    Pending.Ready r.link ⟨r.first, r.last, m.items, .load⟩ ∧
      ∀ a, a ∉ m.items → r.link a = link a := by
  cases m with
  | push item =>
    exact ⟨⟨⟨[], rfl, rfl, trivial⟩, hnodup, nofun⟩, fun _ _ => rfl⟩
  | pushManyFastReversed first rest =>
    have hchain : Chain link (some first) (first :: rest) := hfits
    obtain ⟨l, z, hl⟩ : ∃ l z, first :: rest = l ++ [z] :=
      ⟨_, _, (List.dropLast_append_getLast (List.cons_ne_nil first rest)).symm⟩
    have hlen : l.length ≤ rest.length := by
      have := congrArg List.length hl
      simp only [List.length_cons, List.length_append, List.length_nil] at this
      omega
    have hlast : lastOf rest.length link first = z := lastOf_spec (hl ▸ hchain) hlen
    refine ⟨⟨⟨l, ?_, ?_, ?_⟩, List.nodup_reverse.mpr hnodup, nofun⟩, fun _ _ => rfl⟩
    · simp only [Push.prepare, Push.items, List.reverse_reverse, hlast, hl]
    · simp only [Push.prepare, hlast, ← hl, List.head?_cons]
    · simp only [Push.prepare, hlast, ← hl]
      exact Linked.of_chain hchain
  | pushManyFastReversedTo first rest =>
    have hlinked : Linked link (first :: rest) := hfits
    have hsplit := List.dropLast_append_getLast (List.cons_ne_nil first rest)
    set l := (first :: rest).dropLast
    set z := (first :: rest).getLast (List.cons_ne_nil first rest)
    have hz : z ∉ l := by
      have hlz : (l ++ [z]).Nodup := hsplit ▸ hnodup
      have := List.nodup_append.mp hlz
      exact fun hz => this.2.2 z hz z List.mem_cons_self rfl
    refine ⟨⟨⟨l, ?_, ?_, ?_⟩, List.nodup_reverse.mpr hnodup, nofun⟩, fun a ha => ?_⟩
    · simp only [Push.items, List.reverse_reverse]
      exact hsplit.symm
    · show (l ++ [z]).head? = some first
      rw [hsplit, List.head?_cons]
    · refine linked_congr_init (hsplit ▸ hlinked) fun a ha => ?_
      exact Function.update_of_ne (fun he : a = z => hz (he ▸ ha)) _ _
    · refine Function.update_of_ne (fun he => ha ?_) _ _
      rw [Push.items, List.mem_reverse, he]
      exact List.getLast_mem _
  | pushMany last rest =>
    obtain ⟨-, hchain⟩ : some last = some last ∧ Chain link (link last) rest := hfits
    obtain ⟨hlast, hnodup'⟩ : last ∉ rest ∧ rest.Nodup := List.nodup_cons.mp hnodup
    cases rest with
    | nil =>
      have hnone : link last = none := hchain
      simp only [Push.prepare, hnone]
      exact ⟨⟨⟨[], rfl, rfl, trivial⟩, hnodup, nofun⟩, fun _ _ => trivial⟩
    | cons next rest =>
      have hnext : link last = some next := hchain.head
      rw [hnext] at hchain
      -- the loop goes as if the link of the last item were cleared before it
      set link₀ := Function.update link last none with hlink₀
      have hchain₀ : Chain link₀ (some next) (next :: rest) := hchain.update hlast
      have hlast₀ : Chain link₀ (some last) [last] :=
        ⟨rfl, by rw [hlink₀, Function.update_self]; rfl⟩
      have hnodup₀ : (next :: rest ++ [last]).Nodup := by
        rw [List.nodup_append]
        refine ⟨hnodup', List.nodup_singleton last, fun a ha b hb he => ?_⟩
        rw [List.mem_singleton] at hb
        exact hlast (hb ▸ he ▸ ha)
      obtain ⟨hrange, hothers⟩ := relink_spec hchain₀ hlast₀ hnodup₀ (Nat.le_refl _)
      rw [hlink₀, relink_update hchain hnodup' hlast] at hrange hothers
      simp only [Push.prepare, hnext, Push.items]
      have hhead := hrange.head
      refine ⟨⟨⟨(next :: rest).reverse, List.reverse_cons, ?_, Linked.of_chain hrange⟩, hnodup,
        nofun⟩,
        fun a ha => ?_⟩
      · rw [← hhead]
        obtain ⟨c, hc⟩ : ∃ c, ((next :: rest).reverse ++ [last]).head? = some c := by
          cases (next :: rest).reverse <;> exact ⟨_, rfl⟩
        dsimp only at hhead
        rw [hhead, hc]
        rfl
      · obtain ⟨hal, har⟩ := not_or.mp (mt List.mem_cons.mpr ha)
        have := hothers a har
        rwa [Function.update_of_ne hal (v := none) (f := link)] at this

omit [DecidableEq α] in
/-- A producer goes on with a push of its own items. -/
theorem Inv.setPending (h : Inv s q) {d : Pending α} (hready : d.Ready link)
    (hlink : ∀ a, a ∉ d.items → link a = s.link a) (hq : ∀ a ∈ d.items, a ∉ q)
    (hother : ∀ p', p' ≠ p → ∀ e, s.pending p' = some e → ∀ a ∈ d.items, a ∉ e.items) :
    Inv ({ s with link := link }.setPending p (some d)) q where
  chain := h.chain.congr fun a ha => hlink a fun hd => hq a hd (List.mem_reverse.mp ha)
  items := h.items
  nodup := h.nodup
  ready p' e he := by
    by_cases hp : p' = p
    · subst hp
      simp only [State.setPending, Function.update_self, Option.some.injEq] at he
      exact he ▸ hready
    · simp only [State.setPending, Function.update_of_ne hp] at he
      exact (h.ready p' e he).congr fun a ha => hlink a fun hd => hother p' hp e he a hd ha
  apart p' e he := by
    by_cases hp : p' = p
    · subst hp
      simp only [State.setPending, Function.update_self, Option.some.injEq] at he
      exact he ▸ hq
    · simp only [State.setPending, Function.update_of_ne hp] at he
      exact h.apart p' e he
  alone p₁ p₂ e₁ e₂ hne h₁ h₂ := by
    by_cases hp₁ : p₁ = p
    · subst hp₁
      simp only [State.setPending, Function.update_self, Option.some.injEq] at h₁
      simp only [State.setPending, Function.update_of_ne hne.symm] at h₂
      exact h₁ ▸ hother p₂ hne.symm e₂ h₂
    · simp only [State.setPending, Function.update_of_ne hp₁] at h₁
      by_cases hp₂ : p₂ = p
      · subst hp₂
        simp only [State.setPending, Function.update_self, Option.some.injEq] at h₂
        intro a ha hd
        exact hother p₁ hp₁ e₁ h₁ a (h₂ ▸ hd) ha
      · simp only [State.setPending, Function.update_of_ne hp₂] at h₂
        exact h.alone p₁ p₂ e₁ e₂ hne h₁ h₂
  results := h.results

omit [DecidableEq α] in
/-- A producer is in another phase of the same push. -/
theorem Inv.setPhase (h : Inv s q) (hd : s.pending p = some d) {phase : Phase α}
    (hready : Pending.Ready link { d with phase := phase })
    (hlink : ∀ a, a ∉ d.items → link a = s.link a) :
    Inv ({ s with link := link }.setPending p (some { d with phase := phase })) q :=
  h.setPending hready hlink (h.apart p d hd) fun p' hp e he => h.alone p p' d e hp.symm hd he

theorem Inv.start (h : Inv s q) (hm : Allowed s m) : Inv (s.start p m) q := by
  obtain ⟨hfits, hnodup, hstack, hpending⟩ := hm
  obtain ⟨hready, hlink⟩ := Push.prepare_spec hfits hnodup
  have hitems : ∀ a ∈ m.items, a ∈ m.chain := fun a ha => by
    cases m with
    | push item => exact ha
    | pushMany first rest => exact ha
    | pushManyFastReversed first rest => exact List.mem_reverse.mp ha
    | pushManyFastReversedTo first rest => exact List.mem_reverse.mp ha
  refine h.setPending hready hlink (fun a ha hq => ?_) fun p' _ e he a ha => ?_
  · refine hstack a (hitems a ha) ?_
    rw [h.stack]
    exact List.mem_reverse.mpr hq
  · exact hpending p' e he a (hitems a ha)

omit [DecidableEq α] [DecidableEq P] in
/-- The queue is empty when everything pushed was popped. -/
theorem Inv.empty_iff (h : Inv s q) : s.head = none ↔ s.popped.length = s.committed.length := by
  have hlen := congrArg List.length h.items
  rw [List.length_append] at hlen
  rw [h.chain.head, List.head?_eq_none_iff, List.reverse_eq_nil_iff, ← List.length_eq_zero_iff]
  omega

/-- The compare-and-swap. -/
theorem Inv.cas (h : Inv s q) (hd : s.pending p = some d) {old : Option α}
    (hphase : d.phase = .cas old) (spurious : Bool) :
    ∃ q', Inv (s.cas p d old spurious) q' := by
  unfold State.cas
  have hready := h.ready p d hd
  split
  · rename_i hc
    obtain ⟨hhead, -⟩ := hc
    obtain ⟨r, hr, hfirst, hlinked⟩ := hready.range
    have hlast : s.link d.last = s.head := (hready.old old hphase).trans hhead.symm
    have hnodup : (r ++ [d.last]).Nodup := hr ▸ List.nodup_reverse.mpr hready.nodup
    have hz : d.last ∉ r := fun hz =>
      (List.nodup_append.mp hnodup).2.2 _ hz _ List.mem_cons_self rfl
    have hzq : d.last ∉ q.reverse := fun hz =>
      h.apart p d hd _ hready.last_mem (List.mem_reverse.mp hz)
    have hchain : Chain s.link (some d.first) (r ++ d.last :: q.reverse) := by
      have := hlinked.chain hz h.chain hzq
      rwa [← hlast, Function.update_eq_self, hfirst] at this
    refine ⟨q ++ d.items, ?_, ?_, ?_, fun p' e he => ?_, fun p' e he => ?_,
      fun p₁ p₂ e₁ e₂ hne h₁ h₂ => ?_, ?_⟩
    · rw [List.reverse_append, hr, List.append_assoc]
      exact hchain
    · show s.popped ++ (q ++ d.items) = s.committed ++ d.items
      rw [← List.append_assoc, h.items]
    · refine List.nodup_append.mpr ⟨h.nodup, hready.nodup, fun a ha b hb he => ?_⟩
      exact h.apart p d hd b hb (he ▸ ha)
    · by_cases hp : p' = p
      · subst hp
        simp [State.setPending] at he
      · simp only [State.setPending, Function.update_of_ne hp] at he
        exact h.ready p' e he
    · by_cases hp : p' = p
      · subst hp
        simp [State.setPending] at he
      · simp only [State.setPending, Function.update_of_ne hp] at he
        intro a ha hmem
        rcases List.mem_append.mp hmem with hmem | hmem
        · exact h.apart p' e he a ha hmem
        · exact h.alone p' p e d hp he hd a ha hmem
    · by_cases hp₁ : p₁ = p
      · subst hp₁
        simp [State.setPending] at h₁
      by_cases hp₂ : p₂ = p
      · subst hp₂
        simp [State.setPending] at h₂
      simp only [State.setPending, Function.update_of_ne hp₁] at h₁
      simp only [State.setPending, Function.update_of_ne hp₂] at h₂
      exact h.alone p₁ p₂ e₁ e₂ hne h₁ h₂
    · have hempty := h.empty_iff
      rw [hhead] at hempty
      simp [State.setPending, h.results, hempty]
  · exact ⟨q, h.setPhase hd (show Pending.Ready s.link _ from
      ⟨hready.range, hready.nodup, nofun⟩) fun _ _ => rfl⟩

omit [DecidableEq P] in
/-- The consumer takes the whole queue in the order of the pushes. -/
theorem Inv.popAll (h : Inv s q) : Inv s.popAll [] ∧ Chain s.popAll.link s.popAll.popHead q ∧
    s.popAll.popTail = q.getLast? ∧ s.popAll.popped = s.popped ++ q := by
  have hlen : q.length ≤ s.committed.length := by
    rw [← h.items, List.length_append]
    exact Nat.le_add_left _ _
  have hlen' : q.reverse.length ≤ s.committed.length := by rwa [List.length_reverse]
  have hnodup : (q.reverse ++ []).Nodup := by
    rw [List.append_nil]
    exact List.nodup_reverse.mpr h.nodup
  obtain ⟨hchain, hothers⟩ := relink_spec h.chain (show Chain s.link none [] from rfl) hnodup hlen'
  rw [List.append_nil, List.reverse_reverse] at hchain
  have hwalk := walk_spec hchain hlen
  have hpopped : s.popAll.popped = s.popped ++ q := by
    rw [State.popAll]
    dsimp only
    rw [hwalk]
  refine ⟨⟨rfl, ?_, List.nodup_nil, fun p d hd => ?_, fun _ _ _ _ _ => List.not_mem_nil, h.alone,
    h.results⟩, hchain, ?_, hpopped⟩
  · rw [hpopped, List.append_nil, h.items]
    rfl
  · exact (h.ready p d hd).congr fun a ha => hothers a fun hq =>
      h.apart p d hd a ha (List.mem_reverse.mp hq)
  · show s.head = q.getLast?
    rw [h.chain.head, List.head?_reverse]

omit [DecidableEq α] [DecidableEq P] in
theorem Inv.popAllFastReversed (h : Inv s q) : Inv s.popAllFastReversed [] ∧
    Chain s.popAllFastReversed.link s.popAllFastReversed.popHead q.reverse ∧
    s.popAllFastReversed.popped = s.popped ++ q := by
  have hlen : q.reverse.length ≤ s.committed.length := by
    rw [List.length_reverse, ← h.items, List.length_append]
    exact Nat.le_add_left _ _
  have hpopped : s.popAllFastReversed.popped = s.popped ++ q := by
    rw [State.popAllFastReversed]
    dsimp only
    rw [walk_spec h.chain hlen, List.reverse_reverse]
  refine ⟨⟨rfl, ?_, List.nodup_nil, h.ready, fun _ _ _ _ _ => List.not_mem_nil, h.alone, h.results⟩,
    h.chain, hpopped⟩
  rw [hpopped, List.append_nil, h.items]
  rfl

/-- One step keeps the invariant. -/
theorem Inv.step (h : Inv s q) {a : Action α P} (hproper : Proper s a)
    (hstep : MultiProducerQueueIntrusive.step s a = some s') : ∃ q', Inv s' q' := by
  cases a with
  | start p m =>
    unfold MultiProducerQueueIntrusive.step at hstep
    dsimp only at hstep
    split at hstep
    · obtain rfl := Option.some.inj hstep
      exact ⟨q, h.start hproper⟩
    · cases hstep
  | load p =>
    unfold MultiProducerQueueIntrusive.step at hstep
    dsimp only at hstep
    split at hstep
    · rename_i d hd
      split at hstep
      · obtain rfl := Option.some.inj hstep
        have hready := h.ready p d hd
        exact ⟨q, h.setPhase hd (show Pending.Ready s.link _ from
          ⟨hready.range, hready.nodup, nofun⟩) fun _ _ => rfl⟩
      · cases hstep
    · cases hstep
  | link p =>
    unfold MultiProducerQueueIntrusive.step at hstep
    dsimp only at hstep
    split at hstep
    · rename_i d hd
      split at hstep
      · rename_i old hphase
        obtain rfl := Option.some.inj hstep
        have hready := h.ready p d hd
        obtain ⟨r, hr, hfirst, hlinked⟩ := hready.range
        have hz : d.last ∉ r := fun hz => by
          have hnodup : (r ++ [d.last]).Nodup := hr ▸ List.nodup_reverse.mpr hready.nodup
          exact (List.nodup_append.mp hnodup).2.2 _ hz _ List.mem_cons_self rfl
        refine ⟨q, h.setPhase hd ⟨⟨r, hr, hfirst, ?_⟩, hready.nodup, fun o ho => ?_⟩ fun a ha => ?_⟩
        · exact linked_congr_init hlinked fun a ha =>
            Function.update_of_ne (fun he : a = d.last => hz (he ▸ ha)) _ _
        · cases ho
          exact Function.update_self ..
        · exact Function.update_of_ne (fun he : a = d.last => ha (he ▸ hready.last_mem)) _ _
      · cases hstep
    · cases hstep
  | cas p spurious =>
    unfold MultiProducerQueueIntrusive.step at hstep
    dsimp only at hstep
    split at hstep
    · rename_i d hd
      split at hstep
      · rename_i old hphase
        obtain rfl := Option.some.inj hstep
        exact h.cas hd hphase spurious
      · cases hstep
    · cases hstep
  | popAll =>
    obtain rfl := Option.some.inj hstep
    exact ⟨[], h.popAll.1⟩
  | popAllFastReversed =>
    obtain rfl := Option.some.inj hstep
    exact ⟨[], h.popAllFastReversed.1⟩

/-- The history of the pushes grows by the items of a push, at its successful compare-and-swap. -/
theorem step_committed {a : Action α P} (hstep : step s a = some s') :
    s'.committed = s.committed ∨ ∃ p d, a = .cas p false ∧ s.pending p = some d ∧
      s'.committed = s.committed ++ d.items ∧ s'.pending p = none := by
  cases a with
  | start p m =>
    unfold step at hstep
    dsimp only at hstep
    split at hstep
    · obtain rfl := Option.some.inj hstep
      exact .inl rfl
    · cases hstep
  | load p | link p =>
    unfold step at hstep
    dsimp only at hstep
    split at hstep
    · split at hstep
      · obtain rfl := Option.some.inj hstep
        exact .inl rfl
      · cases hstep
    · cases hstep
  | cas p spurious =>
    unfold step at hstep
    dsimp only at hstep
    split at hstep
    · rename_i d hd
      split at hstep
      · obtain rfl := Option.some.inj hstep
        unfold State.cas
        split
        · rename_i hc
          refine .inr ⟨p, d, by rw [hc.2], hd, rfl, ?_⟩
          exact Function.update_self ..
        · exact .inl rfl
      · cases hstep
    · cases hstep
  | popAll | popAllFastReversed =>
    obtain rfl := Option.some.inj hstep
    exact .inl rfl

end Invariant

/-- **The order of the queue.** For any producers and one consumer, in any interleaving and with any
spurious failures: what was popped and what is still in the queue is what was pushed, in the order
of the successful compare-and-swaps, each of which adds all the items of its push in their order; a
push returns true exactly when everything pushed before was popped; and the consumer gets everything
which is in the queue as a chain that ends with a null, whose last item is the reported tail. -/
theorem pushed_in_order [DecidableEq α] [DecidableEq P] {s : State α P}
    (h : (machine α P).ReachableBy Proper s) :
    (∃ q, Chain s.link s.head q.reverse ∧ s.popped ++ q = s.committed ∧
      (Chain s.popAll.link s.popAll.popHead q ∧ s.popAll.popTail = q.getLast? ∧
        s.popAll.popped = s.popped ++ q) ∧
      Chain s.popAllFastReversed.link s.popAllFastReversed.popHead q.reverse ∧
        s.popAllFastReversed.popped = s.popped ++ q) ∧
    s.resultsOk = true ∧
    ∀ a s', step s a = some s' → s'.committed = s.committed ∨
      ∃ p d, a = .cas p false ∧ s.pending p = some d ∧ s'.committed = s.committed ++ d.items ∧
        s'.pending p = none := by
  obtain ⟨q, hq⟩ : ∃ q, Inv s q := by
    refine (machine α P).invariant_by (P := fun s => ∃ q, Inv s q) ?_ ?_ h
    · rintro s ⟨hhead, hpending, hcommitted, hpopped, hresults⟩
      have hnone : ∀ p d, s.pending p ≠ some d := fun p d hd => by
        rw [hpending p] at hd
        cases hd
      exact ⟨[], hhead, by rw [hpopped, hcommitted]; rfl, List.nodup_nil,
        fun p d hd => absurd hd (hnone p d), fun p d hd => absurd hd (hnone p d),
        fun p p' d d' _ hd => absurd hd (hnone p d), hresults⟩
    · rintro s a s' ⟨q, hq⟩ hproper hstep
      exact hq.step hproper hstep
  exact ⟨⟨q, hq.chain, hq.items, hq.popAll.2, hq.popAllFastReversed.2⟩, hq.results,
    fun a s' hstep => step_committed hstep⟩

/-- Two producers, and the items 1, 2 and 3 in a chain. -/
def sample : State ℕ (Fin 2) :=
  ⟨fun a => if a = 1 then some 2 else if a = 2 then some 3 else none, none, fun _ => none, [], [],
    true, none, none⟩

/-- A chain of three items is linked twice, since another item is pushed in between and since a
compare-and-swap fails spuriously. -/
theorem pushed_in_order_sample : ∃ s : State ℕ (Fin 2), s.popped = [4, 1, 2, 3] ∧
    s.popTail = some 3 ∧ ∃ q, Chain s.link s.head q.reverse ∧ s.popped ++ q = s.committed := by
  obtain ⟨s, hs, hdata⟩ : ∃ s, (machine ℕ (Fin 2)).runBy Proper sample
      [.start 0 (.pushMany 1 [2, 3]), .load 0, .start 1 (.push 4), .load 1, .link 1, .cas 1 false,
        .link 0, .cas 0 false, .link 0, .cas 0 true, .link 0, .cas 0 false, .popAll] = some s ∧
      (s.popped, s.popTail) = ([4, 1, 2, 3], some 3) :=
    Option.map_eq_some_iff.mp (by decide +kernel)
  simp only [Prod.mk.injEq] at hdata
  obtain ⟨⟨q, hq, hitems, -⟩, -⟩ :=
    pushed_in_order (.of_runBy (.init ⟨rfl, fun _ => rfl, rfl, rfl, rfl⟩) hs)
  exact ⟨s, hdata.1, hdata.2, q, hq, hitems⟩

end MultiProducerQueueIntrusive

end Serverbox
