import Mathlib.Data.List.Nodup
import Mathlib.Data.List.Perm.Subperm
import Serverbox.Lib.Machine

/-!
# Stacks of coroutines

A coroutine which calls another one with `CoroCall` owns the frame of the called one, which knows
the caller; the bottom frame of such a stack belongs to a `CoroRef` outside, and knows the topmost
frame. A frame is destroyed when it ends, or with the whole stack when the `CoroRef` is cleared or
gets another value: then the frames are unrolled from the top, and the same code runs for every
one of them.

The frames are in a memory, and an access to a frame which was destroyed is a failure. The
recursion of `CoroHandleUnref` is bounded by the number of the frames which were ever created. A
frame is created when it is called or given to a new `CoroRef`, and a stack is released only while
none of its frames runs.

The history variables are the frames which were created, those which were destroyed in their
order, and for each bottom frame its stack from the top.

Source: `src/mg/box/Coro.h`, `src/mg/box/Coro.cpp`.

## Main definitions

* `Coro.unref`: `CoroHandleUnref`.
* `Coro.machine`: coroutines which call, suspend and end, and the `CoroRef`s outside.
* `Coro.Frames`: the frames of a stack with their links.

## Main results

* `Coro.unref_stack`: a stack is destroyed from the top, each frame once.
* `Coro.stack_ok`: the links of the stacks in every reachable state, and what each step destroys.
-/

namespace Serverbox

namespace Coro

/-- `CoroPromise`. -/
structure Promise (F : Type*) where
  next : Option F
  prev : Option F
  first : Option F
  last : Option F

/-- The promises of the frames which are not destroyed, and the destroyed frames in their order. -/
structure Heap (F : Type*) where
  mem : F → Option (Promise F)
  log : List F

variable {F R : Type*} [DecidableEq F] [DecidableEq R]

namespace Heap

/-- The fields of a promise are changed. -/
def modify (h : Heap F) (f : F) (g : Promise F → Promise F) : Option (Heap F) :=
  (h.mem f).map fun p => { h with mem := Function.update h.mem f (some (g p)) }

/-- The memory of a frame is freed. -/
def free (h : Heap F) (f : F) : Heap F :=
  { h with mem := Function.update h.mem f none, log := h.log ++ [f] }

/-- `get_return_object` of a new coroutine. -/
def create (h : Heap F) (f : F) : Heap F :=
  { h with mem := Function.update h.mem f (some ⟨none, none, some f, some f⟩) }

end Heap

/-- The walk to the top of the stack. -/
def walkTop (h : Heap F) : ℕ → F → Option F
  | 0, _ => none
  | n + 1, c => (h.mem c).bind fun p =>
    match p.next with
    | some x => walkTop h n x
    | none => some c

mutual

/-- `CoroHandleUnref`. -/
def unref : ℕ → Heap F → F → Option (Heap F)
  | 0, _, _ => none
  | n + 1, h, c => (walkTop h n c).bind fun top =>
    (unroll n h top).bind fun h => destroy n h c

/-- The loop of `CoroHandleUnref`. The assignment of an empty `CoroRef` releases the old one. -/
def unroll : ℕ → Heap F → F → Option (Heap F)
  | 0, _, _ => none
  | n + 1, h, top => (h.mem top).bind fun p =>
    match p.prev with
    | none => some h
    | some prev => (h.mem prev).bind fun q =>
      q.next.bind fun x =>
      (h.modify x fun p => { p with prev := none }).bind fun h =>
      (h.modify prev fun q => { q with next := none }).bind fun h =>
      (unref n h x).bind fun h => unroll n h prev

/-- `destroy` of a handle, with the destructor of the promise. -/
def destroy : ℕ → Heap F → F → Option (Heap F)
  | 0, _, _ => none
  | n + 1, h, c => (h.mem c).bind fun p =>
    match p.next with
    | none => some (h.free c)
    | some x => (h.modify c fun p => { p with next := none }).bind fun h =>
      (unref n h x).map fun h => h.free c

end

/-- Assignment to a `CoroRef` which holds `old`: `operator=` and `Clear`. -/
def release (n : ℕ) (h : Heap F) : Option F → Option (Heap F)
  | none => some h
  | some c => unref n h c

/-- The frames, what they do, and the `CoroRef`s outside. -/
structure State (F R : Type*) where
  heap : Heap F
  running : F → Bool
  done : F → Bool
  refs : R → Option F
  failed : Bool
  created : List F
  stack : F → List F

/-- No coroutine was created yet. -/
def State.new : State F R where
  heap := ⟨fun _ => none, []⟩
  running _ := false
  done _ := false
  refs _ := none
  failed := false
  created := []
  stack _ := []

namespace State

/-- The bound of the recursions. -/
def fuel (s : State F R) : ℕ := s.created.length + 3

/-- The heap after some operation. -/
def withHeap (s : State F R) (h : Option (Heap F)) : State F R :=
  match h with
  | some h => { s with heap := h }
  | none => { s with failed := true }

/-- The frames of a `CoroRef`, from the top. -/
def frames (s : State F R) (r : R) : List F :=
  match s.refs r with
  | some b => s.stack b
  | none => []

/-- None of the frames of a stack runs. -/
def suspended (s : State F R) (b : F) : Bool := (s.stack b).all fun f => !s.running f

/-- The `CoroRef` may be released. -/
def released (s : State F R) (r : R) : Bool :=
  match s.refs r with
  | some b => s.suspended b
  | none => true

end State

/-- What can happen: a `CoroRef` gets a new coroutine, a `CoroRef` is assigned from another one, is
cleared, or resumes its stack; a running frame calls a new coroutine, suspends, or ends. -/
inductive Action (F R : Type*)
  | start (r : R) (f : F)
  | assign (r r' : R)
  | clear (r : R)
  | resumeTop (r : R)
  | call (f g : F)
  | suspend (f : F)
  | finish (f : F)

/-- The constructor of a `CoroRef` from a new coroutine. -/
def start (s : State F R) (r : R) (f : F) : State F R :=
  { s with
    heap := s.heap.create f
    refs := Function.update s.refs r (some f)
    created := s.created ++ [f]
    stack := Function.update s.stack f [f] }

/-- The stack of a `CoroRef` is released, which has another value already. -/
def drop (s : State F R) (b : Option F) : State F R :=
  { s.withHeap (release s.fuel s.heap b) with
    stack := match b with
      | some b => Function.update s.stack b []
      | none => s.stack }

/-- `operator=`. -/
def assign (s : State F R) (r r' : R) : State F R :=
  drop { s with refs := Function.update (Function.update s.refs r (s.refs r')) r' none } (s.refs r)

/-- `Clear`. -/
def clear (s : State F R) (r : R) : State F R :=
  drop { s with refs := Function.update s.refs r none } (s.refs r)

/-- `ResumeTop`. -/
def resumeTop (s : State F R) (b : F) : State F R :=
  match (s.heap.mem b).bind Promise.last with
  | some t =>
    if (s.heap.mem t).isSome then { s with running := Function.update s.running t true }
    else { s with failed := true }
  | none => { s with failed := true }

/-- `CoroOpCall::await_suspend` on the memory, after the new coroutine was created. -/
def callHeap (n : ℕ) (h : Heap F) (f g : F) : Option (Heap F) :=
  (h.modify g fun p => { p with prev := some f }).bind fun h =>
  (h.mem f).bind fun p =>
  (h.modify f fun p => { p with next := some g }).bind fun h =>
  (release n h p.next).bind fun h =>
  (h.mem f).bind fun p =>
  (h.modify g fun q => { q with first := p.first }).bind fun h =>
  p.first.bind fun b => h.modify b fun q => { q with last := some g }

/-- The bottom of the stack of a frame. -/
def bottom (h : Heap F) (f : F) : F :=
  match (h.mem f).bind Promise.first with
  | some b => b
  | none => f

/-- A running frame calls a new coroutine. -/
def call (s : State F R) (f g : F) : State F R :=
  let b := bottom s.heap f
  { s.withHeap (callHeap s.fuel (s.heap.create g) f g) with
    running := Function.update (Function.update s.running f false) g true
    created := s.created ++ [g]
    stack := Function.update s.stack b (g :: s.stack b) }

/-- `CoroOpFinal::await_suspend` on the memory, for a frame with a previous one. -/
def finishHeap (n : ℕ) (h : Heap F) (f prev : F) : Option (Heap F) :=
  (h.modify f fun p => { p with prev := none }).bind fun h =>
  (h.mem prev).bind fun q =>
  (h.modify prev fun q => { q with next := none }).bind fun h =>
  (release n h q.next).bind fun h =>
  (h.mem prev).bind fun q =>
  q.first.bind fun b => h.modify b fun p => { p with last := some prev }

/-- `CoroOpFinal::await_suspend`: a running frame ends. -/
def finish (s : State F R) (f : F) : State F R :=
  match s.heap.mem f with
  | none => { s with failed := true }
  | some p =>
    match p.prev with
    | none =>
      { s with
        running := Function.update s.running f false
        done := Function.update s.done f true }
    | some prev =>
      let b := bottom s.heap f
      { s.withHeap (finishHeap s.fuel s.heap f prev) with
        running := Function.update (Function.update s.running f false) prev true
        stack := Function.update s.stack b (s.stack b).tail }

/-- One step. A new frame was not created before. -/
def step (s : State F R) : Action F R → Option (State F R)
  | .start r f => if s.refs r = none ∧ f ∉ s.created then some (start s r f) else none
  | .assign r r' =>
    if r ≠ r' ∧ s.released r then some (assign s r r') else none
  | .clear r => if s.released r then some (clear s r) else none
  | .resumeTop r =>
    match s.refs r with
    | some b => if s.suspended b ∧ s.done b = false then some (resumeTop s b) else none
    | none => none
  | .call f g => if s.running f ∧ g ∉ s.created then some (call s f g) else none
  | .suspend f =>
    if s.running f then some { s with running := Function.update s.running f false } else none
  | .finish f => if s.running f then some (finish s f) else none

/-- Any number of coroutines and `CoroRef`s. -/
def machine : Machine (State F R) (Action F R) where
  init s := s = .new
  step := step

/-! ### Stacks in the memory -/

/-- The frames of a stack from the top, with the given frame above them. -/
def Frames (m : F → Option (Promise F)) (b : F) : Option F → List F → Prop
  | _, [] => True
  | x, f :: l => (∃ p, m f = some p ∧ p.next = x ∧ p.prev = l.head? ∧ p.first = some b) ∧
    Frames m b (some f) l

section Frames

variable {m m' : F → Option (Promise F)} {b c f g t : F} {l r : List F} {x : Option F} {n : ℕ}
  {h h' : Heap F}

omit [DecidableEq F] in
/-- The links of a stack are in its frames. -/
theorem Frames.congr (hf : Frames m b x l) (heq : ∀ f ∈ l, ∀ p, m f = some p →
    ∃ k, m' f = some k ∧ k.next = p.next ∧ k.prev = p.prev ∧ k.first = p.first) :
    Frames m' b x l := by
  induction l generalizing x with
  | nil => trivial
  | cons f l ih =>
    refine ⟨?_, ih hf.2 fun g hg => heq g (List.mem_cons_of_mem _ hg)⟩
    obtain ⟨p, hp, hx, hprev, hfirst⟩ := hf.1
    obtain ⟨k, hk, hnext', hprev', hfirst'⟩ := heq f List.mem_cons_self p hp
    exact ⟨k, hk, hnext'.trans hx, hprev'.trans hprev, hfirst'.trans hfirst⟩

omit [DecidableEq F] in
/-- Frames which were not touched. -/
theorem Frames.same (hf : Frames m b x l) (heq : ∀ f ∈ l, m' f = m f) : Frames m' b x l :=
  hf.congr fun f hmem p hp => ⟨p, (heq f hmem).trans hp, rfl, rfl, rfl⟩

omit [DecidableEq F] in
theorem Frames.alive (hf : Frames m b x l) (hg : g ∈ l) : ∃ p, m g = some p ∧ p.first = some b := by
  induction l generalizing x with
  | nil => cases hg
  | cons f l ih =>
    rcases List.mem_cons.mp hg with rfl | hg
    · obtain ⟨p, hp, -, -, hfirst⟩ := hf.1
      exact ⟨p, hp, hfirst⟩
    · exact ih hf.2 hg

omit [DecidableEq F] in
theorem Frames.of_append (hf : Frames m b x (r ++ f :: l)) :
    ∃ p, m f = some p ∧ p.next = r.getLast?.or x := by
  induction r generalizing x with
  | nil =>
    obtain ⟨p, hp, hx, -, -⟩ := hf.1
    exact ⟨p, hp, by simpa using hx⟩
  | cons g r ih =>
    obtain ⟨p, hp, hx⟩ := ih hf.2
    refine ⟨p, hp, hx.trans ?_⟩
    cases r with
    | nil => rfl
    | cons d r => simp [List.getLast?_cons]

omit [DecidableEq F] in
/-- The walk from a frame to the top. -/
theorem walkTop_eq (hf : Frames h.mem b none (r ++ f :: l)) (hn : r.length < n) :
    walkTop h n f = (r ++ [f]).head? := by
  induction r using List.reverseRecOn generalizing f l n with
  | nil =>
    obtain ⟨n, rfl⟩ : ∃ k, n = k + 1 := ⟨n - 1, by simp at hn; omega⟩
    obtain ⟨p, hp, hx⟩ := hf.of_append (r := [])
    have hnext : p.next = none := by simpa using hx
    simp [walkTop, hp, hnext]
  | append_singleton r g ih =>
    obtain ⟨n, rfl⟩ : ∃ k, n = k + 1 := ⟨n - 1, by simp at hn; omega⟩
    obtain ⟨p, hp, hx⟩ := hf.of_append
    have hnext : p.next = some g := by simpa using hx
    rw [List.append_assoc, List.singleton_append] at hf
    rw [walkTop, hp, Option.bind_some, hnext]
    dsimp only
    rw [ih hf (by simpa using hn)]
    simp

theorem modify_eq {p : Promise F} (hm : h.mem f = some p) (k : Promise F → Promise F) :
    h.modify f k = some { h with mem := Function.update h.mem f (some (k p)) } := by
  rw [Heap.modify, hm, Option.map_some]

/-- A frame with no frame above it, which was unlinked from the one below. -/
theorem unref_single {p : Promise F} (hm : h.mem t = some p) (hnext : p.next = none)
    (hprev : p.prev = none) : unref (n + 2) h t = some (h.free t) := by
  have hwalk : walkTop h (n + 1) t = some t := by
    rw [walkTop, hm, Option.bind_some, hnext]
  have hroll : unroll (n + 1) h t = some h := by
    rw [unroll, hm, Option.bind_some, hprev]
  rw [unref, hwalk, Option.bind_some, hroll, Option.bind_some, destroy, hm, Option.bind_some, hnext]

/-- What is left of a stack which was unrolled: the frames were destroyed from the top, and the
bottom one has nothing above it. -/
structure Unrolled (h h' : Heap F) (l : List F) (b : F) : Prop where
  log : h'.log ++ [b] = h.log ++ l
  other : ∀ f ∉ l, h'.mem f = h.mem f
  gone : ∀ f ∈ l, f ≠ b → h'.mem f = none
  bottom : ∃ p, h'.mem b = some p ∧ p.next = none

theorem unroll_stack (hf : Frames h.mem b none (t :: l)) (hnd : (t :: l).Nodup)
    (hb : (t :: l).getLast? = some b) (hn : l.length + 2 ≤ n) :
    ∃ h', unroll n h t = some h' ∧ Unrolled h h' (t :: l) b := by
  obtain ⟨n, rfl⟩ : ∃ k, n = k + 1 := ⟨n - 1, by omega⟩
  induction l generalizing t h n with
  | nil =>
    obtain rfl : t = b := by simpa using hb
    obtain ⟨p, hp, hnext, hprev, -⟩ := hf.1
    refine ⟨h, by rw [unroll, hp, Option.bind_some, hprev]; rfl, rfl, fun _ _ => rfl, ?_,
      p, hp, hnext⟩
    intro f hmem hne
    exact absurd (List.mem_singleton.mp hmem) hne
  | cons q l ih =>
    obtain ⟨p, hp, hnext, hprev, hfirst⟩ := hf.1
    obtain ⟨k, hk, hknext, hkprev, hkfirst⟩ := hf.2.1
    have htq : t ≠ q := fun he => (List.nodup_cons.mp hnd).1 (he ▸ List.mem_cons_self)
    have hnd' : (q :: l).Nodup := (List.nodup_cons.mp hnd).2
    have hbot : (q :: l).getLast? = some b := by rwa [List.getLast?_cons_cons] at hb
    obtain ⟨n, rfl⟩ : ∃ k, n = k + 2 := ⟨n - 2, by simp at hn; omega⟩
    let h₁ : Heap F := { h with mem := Function.update h.mem t (some { p with prev := none }) }
    let h₂ : Heap F := { h₁ with mem := Function.update h₁.mem q (some { k with next := none }) }
    have hq₁ : h₁.mem q = some k := (Function.update_of_ne (Ne.symm htq) _ _).trans hk
    have ht₂ : h₂.mem t = some { p with prev := none } :=
      (Function.update_of_ne htq _ _).trans (Function.update_self ..)
    have hframes : Frames (h₂.free t).mem b none (q :: l) := by
      refine ⟨⟨{ k with next := none }, ?_, rfl, hkprev, hkfirst⟩, hf.2.2.same fun f hmem => ?_⟩
      · exact (Function.update_of_ne (Ne.symm htq) _ _).trans (Function.update_self ..)
      · have hft : f ≠ t := fun he => (List.nodup_cons.mp hnd).1 (he ▸ List.mem_cons_of_mem _ hmem)
        have hfq : f ≠ q := fun he => (List.nodup_cons.mp hnd').1 (he ▸ hmem)
        exact (Function.update_of_ne hft _ _).trans ((Function.update_of_ne hfq _ _).trans
          (Function.update_of_ne hft _ _))
    obtain ⟨h', hroll, hlog, hother, hgone, hbottom⟩ := ih (n := n + 1) hframes hnd' hbot
      (by simp at hn ⊢; omega)
    refine ⟨h', ?_, ?_, fun f hmem => ?_, fun f hmem hne => ?_, hbottom⟩
    · rw [unroll, hp, Option.bind_some, hprev]
      dsimp only [List.head?_cons]
      rw [hk, Option.bind_some, hknext, Option.bind_some, modify_eq hp, Option.bind_some,
        modify_eq hq₁, Option.bind_some, unref_single ht₂ hnext rfl, Option.bind_some]
      exact hroll
    · rw [hlog]
      simp [Heap.free, h₁, h₂]
    · obtain ⟨hft, hmem'⟩ := not_or.mp (mt List.mem_cons.mpr hmem)
      have hfq : f ≠ q := fun he => hmem' (he ▸ List.mem_cons_self)
      rw [hother f hmem']
      exact (Function.update_of_ne hft _ _).trans ((Function.update_of_ne hfq _ _).trans
        (Function.update_of_ne hft _ _))
    · by_cases hft : f = t
      · subst hft
        rw [hother f (List.nodup_cons.mp hnd).1]
        exact Function.update_self ..
      · exact hgone f ((List.mem_cons.mp hmem).resolve_left hft) hne

/-- A stack is destroyed from the top, each frame once. -/
theorem unref_stack (hf : Frames h.mem b none l) (hnd : l.Nodup) (hb : l.getLast? = some b)
    (hn : l.length + 2 ≤ n) : ∃ h', unref (n + 1) h b = some h' ∧ h'.log = h.log ++ l ∧
      (∀ f ∉ l, h'.mem f = h.mem f) ∧ ∀ f ∈ l, h'.mem f = none := by
  obtain ⟨r, rfl⟩ : ∃ r, l = r ++ [b] := by
    rcases List.eq_nil_or_concat' l with rfl | ⟨r, z, rfl⟩
    · cases hb
    · refine ⟨r, ?_⟩
      rw [List.getLast?_append, List.getLast?_singleton, Option.some_or] at hb
      rw [Option.some.inj hb]
  obtain ⟨t, l, hl⟩ : ∃ t l, r ++ [b] = t :: l := List.exists_cons_of_ne_nil (by simp)
  have hlt : r.length < n := by
    simp only [List.length_append, List.length_singleton] at hn
    omega
  have hwalk : walkTop h n b = some t := by
    rw [walkTop_eq (r := r) (l := []) hf hlt, hl, List.head?_cons]
  rw [hl] at hf hnd hb hn ⊢
  obtain ⟨h', hroll, hlog, hother, hgone, p, hp, hnext⟩ := unroll_stack (n := n) hf hnd hb
    (by rw [List.length_cons] at hn; omega)
  obtain ⟨n, rfl⟩ : ∃ k, n = k + 1 := ⟨n - 1, by omega⟩
  refine ⟨h'.free b, ?_, hlog, fun f hmem => ?_, fun f hmem => ?_⟩
  · rw [unref, hwalk, Option.bind_some, hroll, Option.bind_some, destroy, hp, Option.bind_some,
      hnext]
  · have hfb : f ≠ b := by
      rintro rfl
      exact hmem (List.mem_of_getLast? hb)
    exact (Function.update_of_ne hfb _ _).trans (hother f hmem)
  · by_cases hfb : f = b
    · subst hfb
      exact Function.update_self ..
    · exact (Function.update_of_ne hfb _ _).trans (hgone f hmem hfb)

/-- The links after a call. -/
structure Called (h h' : Heap F) (f g b : F) (p q : Promise F) : Prop where
  log : h'.log = h.log
  other : ∀ x, x ≠ f → x ≠ g → x ≠ b → h'.mem x = h.mem x
  new : h'.mem g = some ⟨none, some f, some b, some g⟩
  caller : ∃ k, h'.mem f = some k ∧ k.next = some g ∧ k.prev = p.prev ∧ k.first = p.first
  bottom : ∃ k, h'.mem b = some k ∧ k.last = some g ∧ k.prev = q.prev ∧ k.first = q.first ∧
    (b ≠ f → k.next = q.next)

theorem callHeap_eq {p q : Promise F} (hp : h.mem f = some p) (hnext : p.next = none)
    (hfirst : p.first = some b) (hq : h.mem b = some q) (hgf : g ≠ f) (hgb : g ≠ b) :
    ∃ h', callHeap n (h.create g) f g = some h' ∧ Called h h' f g b p q := by
  let h₀ : Heap F := h.create g
  let h₁ : Heap F := { h₀ with
    mem := Function.update h₀.mem g (some ⟨none, some f, some g, some g⟩) }
  let h₂ : Heap F := { h₁ with mem := Function.update h₁.mem f (some { p with next := some g }) }
  let h₃ : Heap F := { h₂ with
    mem := Function.update h₂.mem g (some ⟨none, some f, some b, some g⟩) }
  have hg₀ : h₀.mem g = some ⟨none, none, some g, some g⟩ := Function.update_self ..
  have hf₁ : h₁.mem f = some p := (Function.update_of_ne (Ne.symm hgf) _ _).trans
    ((Function.update_of_ne (Ne.symm hgf) _ _).trans hp)
  have hf₂ : h₂.mem f = some { p with next := some g } := Function.update_self ..
  have hg₂ : h₂.mem g = some ⟨none, some f, some g, some g⟩ :=
    (Function.update_of_ne hgf _ _).trans (Function.update_self ..)
  have hf₃ : h₃.mem f = some { p with next := some g } :=
    (Function.update_of_ne (Ne.symm hgf) _ _).trans hf₂
  have hg₃ : h₃.mem g = some ⟨none, some f, some b, some g⟩ := Function.update_self ..
  have hx₃ : ∀ x, x ≠ f → x ≠ g → h₃.mem x = h.mem x := fun x hxf hxg =>
    (Function.update_of_ne hxg _ _).trans ((Function.update_of_ne hxf _ _).trans
      ((Function.update_of_ne hxg _ _).trans (Function.update_of_ne hxg _ _)))
  obtain ⟨k, hk, hkprev, hkfirst, hknext, hkf⟩ : ∃ k, h₃.mem b = some k ∧ k.prev = q.prev ∧
      k.first = q.first ∧ (b ≠ f → k.next = q.next) ∧ (b = f → k.next = some g) := by
    by_cases hbf : b = f
    · subst hbf
      obtain rfl : p = q := Option.some.inj (hp.symm.trans hq)
      exact ⟨_, hf₃, rfl, rfl, fun hne => absurd rfl hne, fun _ => rfl⟩
    · exact ⟨q, (hx₃ b hbf (Ne.symm hgb)).trans hq, rfl, rfl, fun _ => rfl, fun he => absurd he hbf⟩
  refine ⟨{ h₃ with mem := Function.update h₃.mem b (some { k with last := some g }) }, ?_, rfl,
    fun x hxf hxg hxb => (Function.update_of_ne hxb _ _).trans (hx₃ x hxf hxg),
    (Function.update_of_ne hgb _ _).trans hg₃, ?_,
    ⟨_, Function.update_self .., rfl, hkprev, hkfirst, hknext⟩⟩
  · have e₁ : (h.create g).modify g (fun p => { p with prev := some f }) = some h₁ :=
      modify_eq hg₀ _
    have e₂ : h₁.modify f (fun p => { p with next := some g }) = some h₂ := modify_eq hf₁ _
    have e₃ : h₂.modify g (fun q => { q with first := p.first }) = some h₃ := by
      rw [modify_eq hg₂, hfirst]
    unfold callHeap
    rw [e₁, Option.bind_some, hf₁, Option.bind_some, e₂, Option.bind_some, hnext, release,
      Option.bind_some, hf₂, Option.bind_some, e₃, Option.bind_some, hfirst, Option.bind_some]
    exact modify_eq hk _
  · by_cases hbf : b = f
    · subst hbf
      obtain rfl : p = q := Option.some.inj (hp.symm.trans hq)
      exact ⟨_, Function.update_self .., hkf rfl, hkprev, hkfirst⟩
    · exact ⟨_, (Function.update_of_ne (Ne.symm hbf) _ _).trans hf₃, rfl, rfl, rfl⟩

/-- The links after the end of a frame. -/
structure Finished (h h' : Heap F) (f q b : F) (k u : Promise F) : Prop where
  log : h'.log = h.log ++ [f]
  other : ∀ x, x ≠ f → x ≠ q → x ≠ b → h'.mem x = h.mem x
  gone : h'.mem f = none
  caller : ∃ k', h'.mem q = some k' ∧ k'.next = none ∧ k'.prev = k.prev ∧ k'.first = k.first
  bottom : ∃ k', h'.mem b = some k' ∧ k'.last = some q ∧ k'.prev = u.prev ∧ k'.first = u.first ∧
    (b ≠ q → k'.next = u.next)

theorem finishHeap_eq {q : F} {p k u : Promise F} (hp : h.mem f = some p) (hnext : p.next = none)
    (hq : h.mem q = some k) (hk : k.next = some f) (hfirst : k.first = some b)
    (hb : h.mem b = some u) (hfq : f ≠ q) (hfb : f ≠ b) :
    ∃ h', finishHeap (n + 2) h f q = some h' ∧ Finished h h' f q b k u := by
  let h₁ : Heap F := { h with mem := Function.update h.mem f (some { p with prev := none }) }
  let h₂ : Heap F := { h₁ with mem := Function.update h₁.mem q (some { k with next := none }) }
  have hq₁ : h₁.mem q = some k := (Function.update_of_ne (Ne.symm hfq) _ _).trans hq
  have hf₂ : h₂.mem f = some { p with prev := none } :=
    (Function.update_of_ne hfq _ _).trans (Function.update_self ..)
  have hfree : unref (n + 2) h₂ f = some (h₂.free f) := unref_single hf₂ hnext rfl
  let h₃ : Heap F := h₂.free f
  have hq₃ : h₃.mem q = some { k with next := none } :=
    (Function.update_of_ne (Ne.symm hfq) _ _).trans (Function.update_self ..)
  have hx₃ : ∀ x, x ≠ f → x ≠ q → h₃.mem x = h.mem x := fun x hxf hxq =>
    (Function.update_of_ne hxf _ _).trans ((Function.update_of_ne hxq _ _).trans
      (Function.update_of_ne hxf _ _))
  obtain ⟨w, hw, hwprev, hwfirst, hwnext, hwq⟩ : ∃ w, h₃.mem b = some w ∧ w.prev = u.prev ∧
      w.first = u.first ∧ (b ≠ q → w.next = u.next) ∧ (b = q → w.next = none) := by
    by_cases hbq : b = q
    · subst hbq
      obtain rfl : k = u := Option.some.inj (hq.symm.trans hb)
      exact ⟨_, hq₃, rfl, rfl, fun hne => absurd rfl hne, fun _ => rfl⟩
    · exact ⟨u, (hx₃ b (Ne.symm hfb) hbq).trans hb, rfl, rfl, fun _ => rfl, fun he => absurd he hbq⟩
  refine ⟨{ h₃ with mem := Function.update h₃.mem b (some { w with last := some q }) }, ?_, rfl,
    fun x hxf hxq hxb => (Function.update_of_ne hxb _ _).trans (hx₃ x hxf hxq),
    (Function.update_of_ne hfb _ _).trans (Function.update_self ..), ?_,
    ⟨_, Function.update_self .., rfl, hwprev, hwfirst, hwnext⟩⟩
  · have e₁ : h.modify f (fun p => { p with prev := none }) = some h₁ := modify_eq hp _
    have e₂ : h₁.modify q (fun q => { q with next := none }) = some h₂ := modify_eq hq₁ _
    unfold finishHeap
    rw [e₁, Option.bind_some, hq₁, Option.bind_some, e₂, Option.bind_some, hk, release, hfree,
      Option.bind_some]
    show (h₃.mem q).bind _ = _
    rw [hq₃, Option.bind_some, hfirst, Option.bind_some]
    exact modify_eq hw _
  · by_cases hbq : b = q
    · subst hbq
      obtain rfl : k = u := Option.some.inj (hq.symm.trans hb)
      exact ⟨_, Function.update_self .., hwq rfl, hwprev, hwfirst⟩
    · exact ⟨_, (Function.update_of_ne (Ne.symm hbq) _ _).trans hq₃, rfl, rfl, rfl⟩

end Frames

/-! ### The invariant -/

section Invariant

/-- The stacks are in the memory, apart from each other and each with its owner; what was created
is in one of them or was destroyed once. -/
structure Inv (s : State F R) : Prop where
  frames : ∀ b, s.stack b ≠ [] → Frames s.heap.mem b none (s.stack b)
  last : ∀ b, s.stack b ≠ [] → (s.stack b).getLast? = some b ∧
    ∃ p, s.heap.mem b = some p ∧ p.last = (s.stack b).head?
  nodup : ∀ b, (s.stack b).Nodup
  apart : ∀ f b c, f ∈ s.stack b → f ∈ s.stack c → b = c
  alive : ∀ f, s.heap.mem f ≠ none → ∃ b, f ∈ s.stack b
  created : ∀ f, f ∈ s.created ↔ f ∈ s.heap.log ∨ ∃ b, f ∈ s.stack b
  log : s.heap.log.Nodup
  gone : ∀ f ∈ s.heap.log, ∀ b, f ∉ s.stack b
  owned : ∀ r b, s.refs r = some b → s.stack b ≠ []
  owner : ∀ b, s.stack b ≠ [] → ∃ r, s.refs r = some b
  single : ∀ r r' b, s.refs r = some b → s.refs r' = some b → r = r'
  running : ∀ f, s.running f = true → ∃ b l, s.stack b = f :: l
  failed : s.failed = false

namespace Inv

variable {s s' : State F R} {b c f g q t : F} {l : List F} {r r' : R}

omit [DecidableEq F] [DecidableEq R] in
theorem new : Inv (.new : State F R) where
  frames _ h := absurd rfl h
  last _ h := absurd rfl h
  nodup _ := List.nodup_nil
  apart _ _ _ h := by cases h
  alive _ h := absurd rfl h
  created f := ⟨nofun, by rintro (h | ⟨_, h⟩) <;> cases h⟩
  log := List.nodup_nil
  gone _ h := by cases h
  owned _ _ h := by cases h
  owner _ h := absurd rfl h
  single _ _ _ h := by cases h
  running _ h := by cases h
  failed := rfl

omit [DecidableEq F] [DecidableEq R] in
theorem bottom_mem (h : Inv s) (hb : s.stack b ≠ []) : b ∈ s.stack b :=
  List.mem_of_getLast? (h.last b hb).1

omit [DecidableEq F] [DecidableEq R] in
/-- A frame which was not created is nowhere. -/
theorem fresh (h : Inv s) (hf : f ∉ s.created) :
    s.heap.mem f = none ∧ f ∉ s.heap.log ∧ (∀ b, f ∉ s.stack b) ∧ s.stack f = [] := by
  have hno := mt (h.created f).mpr hf
  obtain ⟨hlog, hstack⟩ := not_or.mp hno
  have hstack' : ∀ b, f ∉ s.stack b := fun b hb => hstack ⟨b, hb⟩
  refine ⟨?_, hlog, hstack', ?_⟩
  · by_contra hne
    exact hstack (h.alive f hne)
  · by_contra hne
    exact hstack' f (h.bottom_mem hne)

omit [DecidableEq F] [DecidableEq R] in
/-- The number of the frames which were ever created bounds the recursion. -/
theorem length_le (h : Inv s) (b : F) : (s.stack b).length ≤ s.created.length :=
  ((h.nodup b).subperm fun f hf => (h.created f).mpr (.inr ⟨b, hf⟩)).length_le

/-- A `CoroRef` gets a new coroutine. -/
theorem start (h : Inv s) (hr : s.refs r = none) (hf : f ∉ s.created) : Inv (start s r f) := by
  obtain ⟨hmem, hlog, hstack, hnil⟩ := h.fresh hf
  have hself : (Coro.start s r f).stack f = [f] := Function.update_self ..
  have hother : ∀ b, b ≠ f → (Coro.start s r f).stack b = s.stack b :=
    fun b hb => Function.update_of_ne hb _ _
  have hm : ∀ g, g ≠ f → (Coro.start s r f).heap.mem g = s.heap.mem g :=
    fun g hg => Function.update_of_ne hg _ _
  have hmf : (Coro.start s r f).heap.mem f = some ⟨none, none, some f, some f⟩ :=
    Function.update_self ..
  have hmem_iff : ∀ g, (∃ b, g ∈ (Coro.start s r f).stack b) ↔ g = f ∨ ∃ b, g ∈ s.stack b := by
    intro g
    constructor
    · rintro ⟨b, hb⟩
      by_cases hbf : b = f
      · rw [hbf, hself] at hb
        exact .inl (List.mem_singleton.mp hb)
      · exact .inr ⟨b, hother b hbf ▸ hb⟩
    · rintro (rfl | ⟨b, hb⟩)
      · exact ⟨g, by rw [hself]; exact List.mem_singleton_self g⟩
      · have hbf : b ≠ f := by
          rintro rfl
          rw [hnil] at hb
          cases hb
        exact ⟨b, by rwa [hother b hbf]⟩
  refine ⟨fun b hb => ?_, fun b hb => ?_, fun b => ?_, fun g b c hb hc => ?_, fun g hg => ?_,
    fun g => ?_, h.log, fun g hg b hb => ?_, fun r' b hb => ?_, fun b hb => ?_,
    fun r₁ r₂ b h₁ h₂ => ?_, fun g hg => ?_, h.failed⟩
  · by_cases hbf : b = f
    · subst hbf
      rw [hself]
      exact ⟨⟨_, hmf, rfl, rfl, rfl⟩, trivial⟩
    · rw [hother b hbf] at hb ⊢
      exact (h.frames b hb).same fun g hg => hm g fun he => hstack b (he ▸ hg)
  · by_cases hbf : b = f
    · subst hbf
      rw [hself]
      exact ⟨rfl, _, hmf, rfl⟩
    · rw [hother b hbf] at hb ⊢
      rw [hm b hbf]
      exact h.last b hb
  · by_cases hbf : b = f
    · subst hbf
      rw [hself]
      exact List.nodup_singleton b
    · rw [hother b hbf]
      exact h.nodup b
  · have hne : ∀ {b}, b ≠ f → g ∈ (Coro.start s r f).stack b → g ≠ f := by
      rintro b hbf hb rfl
      rw [hother b hbf] at hb
      exact hstack b hb
    by_cases hbf : b = f
    · by_cases hcf : c = f
      · rw [hbf, hcf]
      · subst hbf
        rw [hself] at hb
        exact absurd (List.mem_singleton.mp hb) (hne hcf hc)
    · by_cases hcf : c = f
      · subst hcf
        rw [hself] at hc
        exact absurd (List.mem_singleton.mp hc) (hne hbf hb)
      · rw [hother b hbf] at hb
        rw [hother c hcf] at hc
        exact h.apart g b c hb hc
  · by_cases hgf : g = f
    · exact (hmem_iff g).mpr (.inl hgf)
    · rw [hm g hgf] at hg
      exact (hmem_iff g).mpr (.inr (h.alive g hg))
  · show g ∈ s.created ++ [f] ↔ g ∈ s.heap.log ∨ _
    rw [hmem_iff, List.mem_append, List.mem_singleton, h.created]
    exact ⟨by rintro ((h | h) | h) <;> simp [h], by rintro (h | h | h) <;> simp [h]⟩
  · have hg' : g ∈ s.heap.log := hg
    rcases (hmem_iff g).mp ⟨b, hb⟩ with rfl | ⟨c, hc⟩
    · exact hlog hg'
    · exact h.gone g hg' c hc
  · by_cases hr' : r' = r
    · subst hr'
      have hb' : Function.update s.refs r' (some f) r' = some b := hb
      rw [Function.update_self] at hb'
      obtain rfl : f = b := Option.some.inj hb'
      rw [hself]
      exact List.cons_ne_nil _ _
    · have hb' : s.refs r' = some b := (Function.update_of_ne hr' _ _).symm.trans hb
      have hne := h.owned r' b hb'
      have hbf : b ≠ f := by
        rintro rfl
        exact hne hnil
      rwa [hother b hbf]
  · by_cases hbf : b = f
    · exact ⟨r, by rw [hbf]; exact Function.update_self ..⟩
    · rw [hother b hbf] at hb
      obtain ⟨r', hr'⟩ := h.owner b hb
      have hne : r' ≠ r := by
        rintro rfl
        rw [hr] at hr'
        cases hr'
      exact ⟨r', (Function.update_of_ne hne _ _).trans hr'⟩
  · have hnew : ∀ {r₁}, (Coro.start s r f).refs r₁ = some b → r₁ = r ∧ b = f ∨
        r₁ ≠ r ∧ s.refs r₁ = some b := by
      intro r₁ h₁
      by_cases hr₁ : r₁ = r
      · subst hr₁
        have h₁' : Function.update s.refs r₁ (some f) r₁ = some b := h₁
        rw [Function.update_self] at h₁'
        exact .inl ⟨rfl, (Option.some.inj h₁').symm⟩
      · exact .inr ⟨hr₁, (Function.update_of_ne hr₁ _ _).symm.trans h₁⟩
    have hno : ∀ {r₁}, s.refs r₁ = some f → False := fun h₁ => h.owned _ f h₁ hnil
    rcases hnew h₁ with ⟨hr₁, hb₁⟩ | ⟨-, h₁⟩ <;> rcases hnew h₂ with ⟨hr₂, hb₂⟩ | ⟨-, h₂⟩
    · exact hr₁.trans hr₂.symm
    · exact (hno (hb₁ ▸ h₂)).elim
    · exact (hno (hb₂ ▸ h₁)).elim
    · exact h.single r₁ r₂ b h₁ h₂
  · obtain ⟨b, l, hb⟩ := h.running g hg
    refine ⟨b, l, ?_⟩
    have hbf : b ≠ f := by
      rintro rfl
      rw [hnil] at hb
      cases hb
    rwa [hother b hbf]

omit [DecidableEq R] in
/-- The stack of a `CoroRef` which has another value already is destroyed. -/
theorem drop (h : Inv s) {k : R → Option F} {o : Option F}
    (howned : ∀ r c, k r = some c → o ≠ some c ∧ ∃ r', s.refs r' = some c)
    (howner : ∀ c, o ≠ some c → (∃ r, s.refs r = some c) → ∃ r, k r = some c)
    (hsingle : ∀ r r' c, k r = some c → k r' = some c → r = r')
    (ho : ∀ b, o = some b → s.stack b ≠ [] ∧ s.suspended b = true) :
    Inv (drop { s with refs := k } o) ∧ ∀ b, o = some b →
      (Coro.drop { s with refs := k } o).heap.log = s.heap.log ++ s.stack b := by
  cases o with
  | none =>
    refine ⟨⟨h.frames, h.last, h.nodup, h.apart, h.alive, h.created, h.log, h.gone,
      fun r c hc => ?_, fun c hc => howner c nofun (h.owner c hc), hsingle, h.running, h.failed⟩,
      nofun⟩
    obtain ⟨-, r', hr'⟩ := howned r c hc
    exact h.owned r' c hr'
  | some b =>
    obtain ⟨hb, hsusp⟩ := ho b rfl
    obtain ⟨h', hrel, hlog, hother, hgone⟩ := unref_stack (n := s.created.length + 2)
      (h.frames b hb) (h.nodup b) (h.last b hb).1 (Nat.add_le_add_right (h.length_le b) 2)
    have hheap : Coro.drop { s with refs := k } (some b) =
        { s with refs := k, heap := h', stack := Function.update s.stack b [] } := by
      have hrel' : release (State.fuel { s with refs := k }) s.heap (some b) = some h' := hrel
      unfold Coro.drop State.withHeap
      rw [hrel']
    rw [hheap]
    have hst : ∀ c, c ≠ b → Function.update s.stack b [] c = s.stack c :=
      fun c hc => Function.update_of_ne hc _ _
    have hmem : ∀ {f c}, f ∈ Function.update s.stack b [] c ↔ c ≠ b ∧ f ∈ s.stack c := by
      intro f c
      by_cases hc : c = b
      · subst hc
        rw [Function.update_self]
        exact ⟨nofun, fun hf => absurd rfl hf.1⟩
      · rw [hst c hc]
        exact ⟨fun hf => ⟨hc, hf⟩, fun hf => hf.2⟩
    have hne : ∀ {c}, Function.update s.stack b [] c ≠ [] → c ≠ b ∧ s.stack c ≠ [] := by
      intro c hc
      have hcb : c ≠ b := by
        rintro rfl
        exact hc (Function.update_self ..)
      exact ⟨hcb, hst c hcb ▸ hc⟩
    have hsame : ∀ {f c}, c ≠ b → f ∈ s.stack c → h'.mem f = s.heap.mem f := fun {f c} hc hf =>
      hother f fun hmem => hc (h.apart f c b hf hmem)
    refine ⟨⟨fun c hc => ?_, fun c hc => ?_, fun c => ?_, fun f c d hc hd => ?_, fun f hf => ?_,
      fun f => ?_, ?_, fun f hf c hc => ?_, fun r c hc => ?_, fun c hc => ?_, hsingle,
      fun f hf => ?_, h.failed⟩, fun c hc => ?_⟩
    · obtain ⟨hcb, hc⟩ := hne hc
      show Frames h'.mem c none (Function.update s.stack b [] c)
      rw [hst c hcb]
      exact (h.frames c hc).same fun f hf => hsame hcb hf
    · obtain ⟨hcb, hc⟩ := hne hc
      show (Function.update s.stack b [] c).getLast? = some c ∧
        ∃ p, h'.mem c = some p ∧ p.last = (Function.update s.stack b [] c).head?
      rw [hst c hcb, hsame hcb (h.bottom_mem hc)]
      exact h.last c hc
    · show (Function.update s.stack b [] c).Nodup
      by_cases hcb : c = b
      · rw [hcb, Function.update_self]
        exact List.nodup_nil
      · rw [hst c hcb]
        exact h.nodup c
    · exact h.apart f c d (hmem.mp hc).2 (hmem.mp hd).2
    · have hfb : f ∉ s.stack b := fun hfb => hf (hgone f hfb)
      rw [hother f hfb] at hf
      obtain ⟨c, hc⟩ := h.alive f hf
      exact ⟨c, hmem.mpr ⟨fun he => hfb (he ▸ hc), hc⟩⟩
    · show f ∈ s.created ↔ f ∈ h'.log ∨ ∃ c, f ∈ Function.update s.stack b [] c
      rw [h.created, hlog, List.mem_append]
      constructor
      · rintro (hf | ⟨c, hc⟩)
        · exact .inl (.inl hf)
        · by_cases hcb : c = b
          · exact .inl (.inr (hcb ▸ hc))
          · exact .inr ⟨c, hmem.mpr ⟨hcb, hc⟩⟩
      · rintro ((hf | hf) | ⟨c, hc⟩)
        · exact .inl hf
        · exact .inr ⟨b, hf⟩
        · exact .inr ⟨c, (hmem.mp hc).2⟩
    · show h'.log.Nodup
      rw [hlog, List.nodup_append]
      refine ⟨h.log, h.nodup b, ?_⟩
      rintro f hf g hg rfl
      exact h.gone f hf b hg
    · obtain ⟨hcb, hc⟩ := hmem.mp hc
      have hf' : f ∈ h'.log := hf
      rw [hlog, List.mem_append] at hf'
      rcases hf' with hf' | hf'
      · exact h.gone f hf' c hc
      · exact hcb (h.apart f c b hc hf')
    · obtain ⟨hcb, r', hr'⟩ := howned r c hc
      have hcb' : c ≠ b := fun he => hcb (he ▸ rfl)
      show Function.update s.stack b [] c ≠ []
      rw [hst c hcb']
      exact h.owned r' c hr'
    · obtain ⟨hcb, hc⟩ := hne hc
      exact howner c (fun he => hcb (Option.some.inj he).symm) (h.owner c hc)
    · obtain ⟨c, l, hc⟩ := h.running f hf
      have hcb : c ≠ b := by
        rintro rfl
        have := List.all_eq_true.mp hsusp f (hc ▸ List.mem_cons_self)
        rw [show s.running f = true from hf] at this
        cases this
      exact ⟨c, l, (hst c hcb).trans hc⟩
    · obtain rfl := Option.some.inj hc
      exact hlog

omit [DecidableEq F] [DecidableEq R] in
/-- What may be released. -/
theorem releasable (h : Inv s) (hr : s.released r = true) :
    ∀ b, s.refs r = some b → s.stack b ≠ [] ∧ s.suspended b = true := by
  intro b hb
  rw [State.released, hb] at hr
  exact ⟨h.owned r b hb, hr⟩

/-- `Clear`. -/
theorem clear (h : Inv s) (hr : s.released r = true) :
    Inv (clear s r) ∧ ∀ b, s.refs r = some b →
      (Coro.clear s r).heap.log = s.heap.log ++ s.stack b := by
  have hk : ∀ {r' c}, Function.update s.refs r none r' = some c → r' ≠ r ∧ s.refs r' = some c := by
    intro r' c hc
    have hne : r' ≠ r := by
      rintro rfl
      rw [Function.update_self] at hc
      cases hc
    exact ⟨hne, by rwa [Function.update_of_ne hne] at hc⟩
  refine h.drop (fun r' c hc => ?_) (fun c hc => ?_) (fun r₁ r₂ c h₁ h₂ => ?_) (h.releasable hr)
  · obtain ⟨hne, hc⟩ := hk hc
    exact ⟨fun he => hne (h.single r' r c hc he), r', hc⟩
  · rintro ⟨r', hr'⟩
    have hne : r' ≠ r := by
      rintro rfl
      exact hc hr'
    exact ⟨r', by rwa [Function.update_of_ne hne]⟩
  · exact h.single r₁ r₂ c (hk h₁).2 (hk h₂).2

/-- `operator=`. -/
theorem assign (h : Inv s) (hne : r ≠ r') (hr : s.released r = true) :
    Inv (assign s r r') ∧ ∀ b, s.refs r = some b →
      (Coro.assign s r r').heap.log = s.heap.log ++ s.stack b := by
  have hk : ∀ {q c}, Function.update (Function.update s.refs r (s.refs r')) r' none q = some c →
      q = r ∧ s.refs r' = some c ∨ q ≠ r ∧ q ≠ r' ∧ s.refs q = some c := by
    intro q c hc
    have hq : q ≠ r' := by
      rintro rfl
      rw [Function.update_self] at hc
      cases hc
    rw [Function.update_of_ne hq] at hc
    by_cases hqr : q = r
    · subst hqr
      rw [Function.update_self] at hc
      exact .inl ⟨rfl, hc⟩
    · rw [Function.update_of_ne hqr] at hc
      exact .inr ⟨hqr, hq, hc⟩
  refine h.drop (fun q c hc => ?_) (fun c hc => ?_) (fun r₁ r₂ c h₁ h₂ => ?_) (h.releasable hr)
  · rcases hk hc with ⟨-, hc⟩ | ⟨hq, -, hc⟩
    · exact ⟨fun he => hne (h.single r r' c he hc), r', hc⟩
    · exact ⟨fun he => hq (h.single q r c hc he), q, hc⟩
  · rintro ⟨q, hq⟩
    by_cases hqr : q = r
    · exact absurd (hqr ▸ hq) hc
    · by_cases hqr' : q = r'
      · subst hqr'
        exact ⟨r, by rwa [Function.update_of_ne hne, Function.update_self]⟩
      · exact ⟨q, by rwa [Function.update_of_ne hqr', Function.update_of_ne hqr]⟩
  · rcases hk h₁ with ⟨hq₁, h₁⟩ | ⟨hq₁, hq₁', h₁⟩ <;> rcases hk h₂ with ⟨hq₂, h₂⟩ | ⟨hq₂, hq₂', h₂⟩
    · exact hq₁.trans hq₂.symm
    · exact absurd (h.single r₂ r' c h₂ h₁) hq₂'
    · exact absurd (h.single r₁ r' c h₁ h₂) hq₁'
    · exact h.single r₁ r₂ c h₁ h₂

omit [DecidableEq R] in
/-- The top of one stack has changed. -/
theorem replace (h : Inv s) {h' : Heap F} {l w created : List F} {run fin : F → Bool}
    (hb : s.stack b ≠ []) (hl : l ≠ []) (hframes : Frames h'.mem b none l)
    (hlast : l.getLast? = some b ∧ ∃ p, h'.mem b = some p ∧ p.last = l.head?) (hnd : l.Nodup)
    (hnew : ∀ x ∈ l, x ∈ s.stack b ∨ x ∉ s.created)
    (hmem : ∀ x, x ∉ l → x ∉ s.stack b → h'.mem x = s.heap.mem x)
    (hdead : ∀ x ∈ s.stack b, x ∉ l → h'.mem x = none) (hlog : h'.log = s.heap.log ++ w)
    (hgone : ∀ x, x ∈ w ↔ x ∈ s.stack b ∧ x ∉ l) (hgnd : w.Nodup)
    (hcreated : ∀ x, x ∈ created ↔ x ∈ s.created ∨ x ∈ l)
    (hrun : ∀ x, run x = true → l.head? = some x ∨ x ∉ s.stack b ∧ s.running x = true) :
    Inv { s with
      heap := h'
      running := run
      done := fin
      created := created
      stack := Function.update s.stack b l } := by
  have hself : Function.update s.stack b l b = l := Function.update_self ..
  have hst : ∀ c, c ≠ b → Function.update s.stack b l c = s.stack c :=
    fun c hc => Function.update_of_ne hc _ _
  have hout : ∀ {x c}, c ≠ b → x ∈ s.stack c → x ∉ l ∧ x ∉ s.stack b := by
    intro x c hc hx
    have hxb : x ∉ s.stack b := fun hxb => hc (h.apart x c b hx hxb)
    refine ⟨fun hxl => ?_, hxb⟩
    rcases hnew x hxl with hxl | hxl
    · exact hxb hxl
    · exact hxl ((h.created x).mpr (.inr ⟨c, hx⟩))
  have hne : ∀ c, Function.update s.stack b l c ≠ [] ↔ s.stack c ≠ [] := by
    intro c
    by_cases hc : c = b
    · rw [hc, hself]
      exact ⟨fun _ => hb, fun _ => hl⟩
    · rw [hst c hc]
  have hin : ∀ x, (∃ c, x ∈ Function.update s.stack b l c) ↔
      x ∈ l ∨ ∃ c, c ≠ b ∧ x ∈ s.stack c := by
    intro x
    constructor
    · rintro ⟨c, hx⟩
      by_cases hc : c = b
      · rw [hc, hself] at hx
        exact .inl hx
      · exact .inr ⟨c, hc, hst c hc ▸ hx⟩
    · rintro (hx | ⟨c, hc, hx⟩)
      · exact ⟨b, by rwa [hself]⟩
      · exact ⟨c, by rwa [hst c hc]⟩
  refine ⟨fun c hc => ?_, fun c hc => ?_, fun c => ?_, fun x c d hc hd => ?_, fun x hx => ?_,
    fun x => ?_, ?_, fun x hx c hc => ?_, fun r c hc => (hne c).mpr (h.owned r c hc),
    fun c hc => h.owner c ((hne c).mp hc), h.single, fun x hx => ?_, h.failed⟩
  · show Frames h'.mem c none (Function.update s.stack b l c)
    by_cases hcb : c = b
    · rw [hcb, hself]
      exact hframes
    · rw [hst c hcb]
      exact (h.frames c ((hne c).mp hc)).same fun x hx => hmem x (hout hcb hx).1 (hout hcb hx).2
  · show (Function.update s.stack b l c).getLast? = some c ∧
      ∃ p, h'.mem c = some p ∧ p.last = (Function.update s.stack b l c).head?
    by_cases hcb : c = b
    · rw [hcb, hself]
      exact hlast
    · have hc' := (hne c).mp hc
      have hcc := hout hcb (h.bottom_mem hc')
      rw [hst c hcb, hmem c hcc.1 hcc.2]
      exact h.last c hc'
  · show (Function.update s.stack b l c).Nodup
    by_cases hcb : c = b
    · rw [hcb, hself]
      exact hnd
    · rw [hst c hcb]
      exact h.nodup c
  · have hc' : x ∈ Function.update s.stack b l c := hc
    have hd' : x ∈ Function.update s.stack b l d := hd
    by_cases hcb : c = b <;> by_cases hdb : d = b
    · exact hcb.trans hdb.symm
    · rw [hcb, hself] at hc'
      rw [hst d hdb] at hd'
      exact absurd hc' (hout hdb hd').1
    · rw [hdb, hself] at hd'
      rw [hst c hcb] at hc'
      exact absurd hd' (hout hcb hc').1
    · rw [hst c hcb] at hc'
      rw [hst d hdb] at hd'
      exact h.apart x c d hc' hd'
  · by_cases hxl : x ∈ l
    · exact (hin x).mpr (.inl hxl)
    · have hxb : x ∉ s.stack b := fun hxb => hx (hdead x hxb hxl)
      have hx' : s.heap.mem x ≠ none := by
        rw [← hmem x hxl hxb]
        exact hx
      obtain ⟨c, hc⟩ := h.alive x hx'
      exact (hin x).mpr (.inr ⟨c, fun he => hxb (he ▸ hc), hc⟩)
  · show x ∈ created ↔ x ∈ h'.log ∨ ∃ c, x ∈ Function.update s.stack b l c
    rw [hcreated, hlog, List.mem_append, hin, hgone, h.created]
    constructor
    · rintro ((hx | ⟨c, hx⟩) | hx)
      · exact .inl (.inl hx)
      · by_cases hcb : c = b
        · subst hcb
          by_cases hxl : x ∈ l
          · exact .inr (.inl hxl)
          · exact .inl (.inr ⟨hx, hxl⟩)
        · exact .inr (.inr ⟨c, hcb, hx⟩)
      · exact .inr (.inl hx)
    · rintro ((hx | ⟨hx, -⟩) | hx | ⟨c, -, hx⟩)
      · exact .inl (.inl hx)
      · exact .inl (.inr ⟨b, hx⟩)
      · exact .inr hx
      · exact .inl (.inr ⟨c, hx⟩)
  · show h'.log.Nodup
    rw [hlog, List.nodup_append]
    refine ⟨h.log, hgnd, ?_⟩
    rintro x hx y hy rfl
    exact h.gone x hx b ((hgone x).mp hy).1
  · have hx' : x ∈ h'.log := hx
    rw [hlog, List.mem_append, hgone] at hx'
    rcases (hin x).mp ⟨c, hc⟩ with hxl | ⟨d, hdb, hd⟩
    · rcases hx' with hx' | hx'
      · rcases hnew x hxl with hxb | hxc
        · exact h.gone x hx' b hxb
        · exact hxc ((h.created x).mpr (.inl hx'))
      · exact hx'.2 hxl
    · rcases hx' with hx' | hx'
      · exact h.gone x hx' d hd
      · exact (hout hdb hd).2 hx'.1
  · rcases hrun x hx with hx | ⟨hxb, hx⟩
    · obtain ⟨y, m, rfl⟩ := List.exists_cons_of_ne_nil hl
      rw [List.head?_cons] at hx
      exact ⟨b, m, hself.trans (by rw [Option.some.inj hx])⟩
    · obtain ⟨c, m, hc⟩ := h.running x hx
      have hcb : c ≠ b := by
        rintro rfl
        exact hxb (hc ▸ List.mem_cons_self)
      exact ⟨c, m, (hst c hcb).trans hc⟩

omit [DecidableEq F] [DecidableEq R] in
/-- The frame on the top of a stack knows the bottom. -/
theorem bottom_eq (h : Inv s) (hb : s.stack b = f :: l) : bottom s.heap f = b := by
  have hf := h.frames b (hb ▸ List.cons_ne_nil f l)
  rw [hb] at hf
  obtain ⟨p, hp, -, -, hfirst⟩ := hf.1
  rw [Coro.bottom, hp, Option.bind_some, hfirst]

omit [DecidableEq R] in
/-- A running frame calls a new coroutine. -/
theorem call (h : Inv s) (hrun : s.running f = true) (hg : g ∉ s.created) :
    Inv (call s f g) ∧ ∃ b l, s.stack b = f :: l ∧
      (Coro.call s f g).stack = Function.update s.stack b (g :: f :: l) ∧
      (Coro.call s f g).heap.log = s.heap.log := by
  obtain ⟨b, l, hb⟩ := h.running f hrun
  have hbne : s.stack b ≠ [] := hb ▸ List.cons_ne_nil f l
  have hframes := h.frames b hbne
  rw [hb] at hframes
  obtain ⟨p, hp, hnext, hprev, hfirst⟩ := hframes.1
  obtain ⟨hlast, q, hq, hqlast⟩ := h.last b hbne
  obtain ⟨hgmem, -, hgstack, -⟩ := h.fresh hg
  have hgf : g ≠ f := by
    rintro rfl
    exact hgstack b (hb ▸ List.mem_cons_self)
  have hgb : g ≠ b := by
    rintro rfl
    exact hgstack g (h.bottom_mem hbne)
  obtain ⟨h', hcall, hc⟩ := callHeap_eq (n := s.fuel) hp hnext hfirst hq hgf hgb
  have heq : Coro.call s f g = { s with
      heap := h'
      running := Function.update (Function.update s.running f false) g true
      created := s.created ++ [g]
      stack := Function.update s.stack b (g :: f :: l) } := by
    unfold Coro.call State.withHeap
    rw [hcall]
    simp only [h.bottom_eq hb, hb]
  rw [heq]
  have hnd := h.nodup b
  rw [hb] at hnd
  have hgl : g ∉ f :: l := fun hmem => hgstack b (hb ▸ hmem)
  have hcaller := hc.caller
  have hbottom := hc.bottom
  refine ⟨h.replace (w := []) hbne (List.cons_ne_nil _ _) ?_ ⟨?_, ?_⟩ (List.nodup_cons.mpr
    ⟨hgl, hnd⟩) (fun x hx => ?_) (fun x hx hxb => ?_) (fun x hx hxl => ?_) ?_ (fun x => ?_)
    List.nodup_nil (fun x => ?_) (fun x hx => ?_), b, l, hb, rfl, hc.log⟩
  · refine ⟨⟨_, hc.new, rfl, rfl, rfl⟩, ?_, ?_⟩
    · obtain ⟨k, hk, hknext, hkprev, hkfirst⟩ := hcaller
      exact ⟨k, hk, hknext, hkprev.trans hprev, hkfirst.trans hfirst⟩
    · refine hframes.2.congr fun x hx u hu => ?_
      have hxf : x ≠ f := fun he => (List.nodup_cons.mp hnd).1 (he ▸ hx)
      have hxg : x ≠ g := fun he => hgl (List.mem_cons_of_mem _ (he ▸ hx))
      by_cases hxb : x = b
      · subst hxb
        obtain rfl : q = u := Option.some.inj (hq.symm.trans hu)
        obtain ⟨k, hk, -, hkprev, hkfirst, hknext⟩ := hbottom
        exact ⟨k, hk, hknext hxf, hkprev, hkfirst⟩
      · exact ⟨u, (hc.other x hxf hxg hxb).trans hu, rfl, rfl, rfl⟩
  · rw [hb] at hlast
    rwa [List.getLast?_cons_cons]
  · obtain ⟨k, hk, hklast, -⟩ := hbottom
    exact ⟨k, hk, hklast⟩
  · rcases List.mem_cons.mp hx with rfl | hx
    · exact .inr hg
    · exact .inl (hb ▸ hx)
  · obtain ⟨hxg, hxl⟩ := not_or.mp (mt List.mem_cons.mpr hx)
    refine hc.other x (fun he => hxl (he ▸ List.mem_cons_self)) hxg fun he => ?_
    exact hxb (by rw [he]; exact h.bottom_mem hbne)
  · exact absurd (List.mem_cons_of_mem _ (hb ▸ hx)) hxl
  · rw [List.append_nil]
    exact hc.log
  · refine ⟨nofun, fun hx => absurd (List.mem_cons_of_mem _ (hb ▸ hx.1)) hx.2⟩
  · rw [List.mem_append, List.mem_singleton, List.mem_cons]
    constructor
    · rintro (hx | hx)
      · exact .inl hx
      · exact .inr (.inl hx)
    · rintro (hx | hx | hx)
      · exact .inl hx
      · exact .inr hx
      · exact .inl ((h.created x).mpr (.inr ⟨b, hb ▸ hx⟩))
  · by_cases hxg : x = g
    · exact .inl (by rw [hxg, List.head?_cons])
    · rw [Function.update_of_ne hxg] at hx
      have hxf : x ≠ f := by
        rintro rfl
        rw [Function.update_self] at hx
        cases hx
      rw [Function.update_of_ne hxf] at hx
      refine .inr ⟨fun hxb => ?_, hx⟩
      obtain ⟨c, m, hcm⟩ := h.running x hx
      obtain rfl := h.apart x c b (hcm ▸ List.mem_cons_self) hxb
      rw [hb] at hcm
      exact hxf (List.cons.inj hcm).1.symm

omit [DecidableEq R] in
/-- A running frame ends. -/
theorem finish (h : Inv s) (hrun : s.running f = true) :
    Inv (finish s f) ∧ ∃ b l, s.stack b = f :: l ∧
      (l = [] ∧ (Coro.finish s f).stack = s.stack ∧ (Coro.finish s f).done f = true ∧
          (Coro.finish s f).heap.log = s.heap.log ∨
        l ≠ [] ∧ (Coro.finish s f).stack = Function.update s.stack b l ∧
        (Coro.finish s f).heap.log = s.heap.log ++ [f]) := by
  obtain ⟨b, l, hb⟩ := h.running f hrun
  have hbne : s.stack b ≠ [] := hb ▸ List.cons_ne_nil f l
  have hframes := h.frames b hbne
  rw [hb] at hframes
  obtain ⟨p, hp, hnext, hprev, hfirst⟩ := hframes.1
  obtain ⟨hlast, u, hu, -⟩ := h.last b hbne
  have hnd := h.nodup b
  rw [hb] at hnd hlast
  have hstay : ∀ x, Function.update s.running f false x = true → x ≠ f ∧ s.running x = true := by
    intro x hx
    have hxf : x ≠ f := by
      rintro rfl
      rw [Function.update_self] at hx
      cases hx
    exact ⟨hxf, by rwa [Function.update_of_ne hxf] at hx⟩
  cases l with
  | nil =>
    have heq : Coro.finish s f = { s with
        running := Function.update s.running f false
        done := Function.update s.done f true } := by
      unfold Coro.finish
      rw [hp]
      dsimp only
      rw [hprev]
      rfl
    rw [heq]
    exact ⟨⟨h.frames, h.last, h.nodup, h.apart, h.alive, h.created, h.log, h.gone, h.owned, h.owner,
      h.single, fun x hx => h.running x (hstay x hx).2, h.failed⟩, b, [], hb,
      .inl ⟨rfl, rfl, Function.update_self .., rfl⟩⟩
  | cons q l =>
    obtain ⟨k, hk, hknext, hkprev, hkfirst⟩ := hframes.2.1
    have hfq : f ≠ q := fun he => (List.nodup_cons.mp hnd).1 (he ▸ List.mem_cons_self)
    have hbot : (q :: l).getLast? = some b := by rwa [List.getLast?_cons_cons] at hlast
    have hbl : b ∈ q :: l := List.mem_of_getLast? hbot
    have hfb : f ≠ b := fun he => (List.nodup_cons.mp hnd).1 (he ▸ hbl)
    obtain ⟨h', hfin, hc⟩ := finishHeap_eq (n := s.created.length + 1) hp hnext hk hknext hkfirst hu
      hfq hfb
    have heq : Coro.finish s f = { s with
        heap := h'
        running := Function.update (Function.update s.running f false) q true
        stack := Function.update s.stack b (q :: l) } := by
      unfold Coro.finish State.withHeap
      rw [hp]
      dsimp only
      rw [hprev]
      dsimp only [List.head?_cons, State.fuel]
      rw [hfin]
      simp only [h.bottom_eq hb, hb, List.tail_cons]
    rw [heq]
    refine ⟨h.replace (w := [f]) hbne (List.cons_ne_nil _ _) ⟨?_, ?_⟩ ⟨hbot, ?_⟩
      (List.nodup_cons.mp hnd).2 (fun x hx => .inl (hb ▸ List.mem_cons_of_mem _ hx))
      (fun x hx hxb => ?_) (fun x hx hxl => ?_) hc.log (fun x => ?_) (by simp)
      (fun x => ?_) (fun x hx => ?_), b, q :: l, hb, .inr ⟨List.cons_ne_nil _ _, rfl, hc.log⟩⟩
    · obtain ⟨k', hk', hk'next, hk'prev, hk'first⟩ := hc.caller
      exact ⟨k', hk', hk'next, hk'prev.trans hkprev, hk'first.trans hkfirst⟩
    · refine hframes.2.2.congr fun x hx w hw => ?_
      have hxq : x ≠ q := fun he =>
        (List.nodup_cons.mp (List.nodup_cons.mp hnd).2).1 (he ▸ hx)
      have hxf : x ≠ f := fun he =>
        (List.nodup_cons.mp hnd).1 (he ▸ List.mem_cons_of_mem _ hx)
      by_cases hxb : x = b
      · subst hxb
        obtain rfl : u = w := Option.some.inj (hu.symm.trans hw)
        obtain ⟨k', hk', -, hk'prev, hk'first, hk'next⟩ := hc.bottom
        exact ⟨k', hk', hk'next hxq, hk'prev, hk'first⟩
      · exact ⟨w, (hc.other x hxf hxq hxb).trans hw, rfl, rfl, rfl⟩
    · obtain ⟨k', hk', hk'last, -⟩ := hc.bottom
      exact ⟨k', hk', hk'last⟩
    · refine hc.other x (fun he => ?_) (fun he => ?_) fun he => ?_
      · exact hxb (by rw [hb, he]; exact List.mem_cons_self)
      · exact hx (he ▸ List.mem_cons_self)
      · exact hx (he ▸ hbl)
    · rw [hb] at hx
      rw [(List.mem_cons.mp hx).resolve_right hxl]
      exact hc.gone
    · rw [hb, List.mem_singleton]
      constructor
      · rintro rfl
        exact ⟨List.mem_cons_self, (List.nodup_cons.mp hnd).1⟩
      · rintro ⟨hx, hxl⟩
        exact (List.mem_cons.mp hx).resolve_right hxl
    · refine ⟨.inl, fun hx => hx.elim id fun hx => (h.created x).mpr (.inr ⟨b, ?_⟩)⟩
      rw [hb]
      exact List.mem_cons_of_mem _ hx
    · by_cases hxq : x = q
      · exact .inl (by rw [hxq, List.head?_cons])
      · rw [Function.update_of_ne hxq] at hx
        obtain ⟨hxf, hx⟩ := hstay x hx
        refine .inr ⟨fun hxb => ?_, hx⟩
        obtain ⟨c, m, hcm⟩ := h.running x hx
        obtain rfl := h.apart x c b (hcm ▸ List.mem_cons_self) hxb
        rw [hb] at hcm
        exact hxf (List.cons.inj hcm).1.symm

omit [DecidableEq R] in
/-- `ResumeTop` resumes the topmost frame. -/
theorem resumeTop (h : Inv s) (hb : s.stack b ≠ []) :
    Inv (resumeTop s b) ∧ ∃ t l, s.stack b = t :: l ∧
      Coro.resumeTop s b = { s with running := Function.update s.running t true } := by
  obtain ⟨t, l, hl⟩ := List.exists_cons_of_ne_nil hb
  obtain ⟨-, p, hp, hlast⟩ := h.last b hb
  rw [hl, List.head?_cons] at hlast
  have hf := h.frames b hb
  rw [hl] at hf
  obtain ⟨q, hq, -⟩ := hf.1
  have heq : Coro.resumeTop s b = { s with running := Function.update s.running t true } := by
    unfold Coro.resumeTop
    rw [hp, Option.bind_some, hlast]
    dsimp only
    rw [hq, if_pos Option.isSome_some]
  refine ⟨?_, t, l, hl, heq⟩
  rw [heq]
  refine ⟨h.frames, h.last, h.nodup, h.apart, h.alive, h.created, h.log, h.gone, h.owned, h.owner,
    h.single, fun x hx => ?_, h.failed⟩
  by_cases hxt : x = t
  · exact ⟨b, l, hxt ▸ hl⟩
  · have hx' : Function.update s.running t true x = true := hx
    rw [Function.update_of_ne hxt] at hx'
    exact h.running x hx'

omit [DecidableEq R] in
/-- What the release of a stack destroys. -/
theorem drop_log {u : State F R} {o : Option F}
    (hsome : ∀ b, o = some b → (Coro.drop u o).heap.log = u.heap.log ++ u.stack b) :
    ∃ gone, (Coro.drop u o).heap.log = u.heap.log ++ gone ∧
      (gone = [] ∨ ∃ b, u.stack b = gone ++ (Coro.drop u o).stack b) := by
  cases o with
  | none => exact ⟨[], (List.append_nil _).symm, .inl rfl⟩
  | some b =>
    refine ⟨u.stack b, hsome b rfl, .inr ⟨b, ?_⟩⟩
    have hself : (Coro.drop u (some b)).stack b = [] := Function.update_self ..
    rw [hself, List.append_nil]

/-- A called frame comes above the caller. -/
theorem call_pushes (h : Inv s) (hs : Coro.step s (.call f g) = some s') :
    ∃ b l, s.stack b = f :: l ∧ s'.stack = Function.update s.stack b (g :: f :: l) ∧
      s'.heap.log = s.heap.log := by
  simp only [Coro.step, Option.ite_none_right_eq_some, Option.some.injEq] at hs
  obtain ⟨⟨hrun, hg⟩, rfl⟩ := hs
  exact (h.call hrun hg).2

omit [DecidableEq R] in
theorem drop_refs (u : State F R) (o : Option F) : (Coro.drop u o).refs = u.refs := by
  unfold Coro.drop State.withHeap
  cases release u.fuel u.heap o <;> rfl

/-- A `CoroRef` which is cleared destroys its frames. -/
theorem clear_destroys (h : Inv s) (hs : Coro.step s (.clear r) = some s') :
    s'.refs = Function.update s.refs r none ∧ s'.heap.log = s.heap.log ++ s.frames r := by
  simp only [Coro.step, Option.ite_none_right_eq_some, Option.some.injEq] at hs
  obtain ⟨hr, rfl⟩ := hs
  obtain ⟨-, hlog⟩ := h.clear hr
  refine ⟨drop_refs _ _, ?_⟩
  unfold State.frames
  cases ho : s.refs r with
  | some b => exact hlog b ho
  | none =>
    rw [Coro.clear, ho]
    exact (List.append_nil _).symm

/-- A `CoroRef` which is assigned destroys its frames and takes over those of the other one. -/
theorem assign_destroys (h : Inv s) (hs : Coro.step s (.assign r r') = some s') :
    s'.refs = Function.update (Function.update s.refs r (s.refs r')) r' none ∧
      s'.heap.log = s.heap.log ++ s.frames r := by
  simp only [Coro.step, Option.ite_none_right_eq_some, Option.some.injEq] at hs
  obtain ⟨⟨hne, hr⟩, rfl⟩ := hs
  obtain ⟨-, hlog⟩ := h.assign hne hr
  refine ⟨drop_refs _ _, ?_⟩
  unfold State.frames
  cases ho : s.refs r with
  | some b => exact hlog b ho
  | none =>
    rw [Coro.assign, ho]
    exact (List.append_nil _).symm

/-- A frame which ends is destroyed and the one below it goes on; the bottom frame stays until its
`CoroRef` is released. -/
theorem finish_destroys (h : Inv s) (hs : Coro.step s (.finish f) = some s') :
    ∃ b l, s.stack b = f :: l ∧
      (l = [] ∧ s'.stack = s.stack ∧ s'.done f = true ∧ s'.heap.log = s.heap.log ∨
        l ≠ [] ∧ s'.stack = Function.update s.stack b l ∧ s'.heap.log = s.heap.log ++ [f]) := by
  simp only [Coro.step, Option.ite_none_right_eq_some, Option.some.injEq] at hs
  obtain ⟨hrun, rfl⟩ := hs
  exact (h.finish hrun).2

/-- A step keeps the invariant, and destroys nothing but the top of one stack. -/
theorem step (h : Inv s) {a : Action F R} (hs : Coro.step s a = some s') :
    Inv s' ∧ ∃ gone, s'.heap.log = s.heap.log ++ gone ∧
      (gone = [] ∨ ∃ b, s.stack b = gone ++ s'.stack b) := by
  have hquiet : ∀ {u : State F R}, u.heap.log = s.heap.log → ∃ gone,
      u.heap.log = s.heap.log ++ gone ∧ (gone = [] ∨ ∃ b, s.stack b = gone ++ u.stack b) :=
    fun he => ⟨[], he.trans (List.append_nil _).symm, .inl rfl⟩
  cases a with
  | start r f =>
    simp only [Coro.step, Option.ite_none_right_eq_some, Option.some.injEq] at hs
    exact hs.2 ▸ ⟨h.start hs.1.1 hs.1.2, hquiet rfl⟩
  | assign r r' =>
    simp only [Coro.step, Option.ite_none_right_eq_some, Option.some.injEq] at hs
    obtain ⟨⟨hne, hr⟩, rfl⟩ := hs
    obtain ⟨hi, hlog⟩ := h.assign hne hr
    exact ⟨hi, drop_log hlog⟩
  | clear r =>
    simp only [Coro.step, Option.ite_none_right_eq_some, Option.some.injEq] at hs
    obtain ⟨hr, rfl⟩ := hs
    obtain ⟨hi, hlog⟩ := h.clear hr
    exact ⟨hi, drop_log hlog⟩
  | resumeTop r =>
    simp only [Coro.step] at hs
    cases hr : s.refs r with
    | none => simp [hr] at hs
    | some b =>
      simp only [hr, Option.ite_none_right_eq_some, Option.some.injEq] at hs
      obtain ⟨hi, t, l, -, heq⟩ := h.resumeTop (h.owned r b hr)
      refine hs.2 ▸ ⟨hi, hquiet ?_⟩
      rw [heq]
  | call f g =>
    simp only [Coro.step, Option.ite_none_right_eq_some, Option.some.injEq] at hs
    obtain ⟨hi, b, l, -, -, hlog⟩ := h.call hs.1.1 hs.1.2
    exact hs.2 ▸ ⟨hi, hquiet hlog⟩
  | suspend f =>
    simp only [Coro.step, Option.ite_none_right_eq_some, Option.some.injEq] at hs
    obtain ⟨-, rfl⟩ := hs
    refine ⟨⟨h.frames, h.last, h.nodup, h.apart, h.alive, h.created, h.log, h.gone, h.owned,
      h.owner, h.single, fun x hx => h.running x ?_, h.failed⟩, hquiet rfl⟩
    by_cases hxf : x = f
    · subst hxf
      have hx' : Function.update s.running x false x = true := hx
      rw [Function.update_self] at hx'
      cases hx'
    · exact (Function.update_of_ne hxf _ _).symm.trans hx
  | finish f =>
    simp only [Coro.step, Option.ite_none_right_eq_some, Option.some.injEq] at hs
    obtain ⟨hrun, rfl⟩ := hs
    obtain ⟨hi, b, l, hb, ⟨-, -, -, hlog⟩ | ⟨-, hstack, hlog⟩⟩ := h.finish hrun
    · exact ⟨hi, hquiet hlog⟩
    · refine ⟨hi, [f], hlog, .inr ⟨b, ?_⟩⟩
      rw [hstack, Function.update_self, hb]
      rfl

end Inv

/-- The invariant holds in every reachable state. -/
theorem inv {s : State F R} (h : machine.Reachable s) : Inv s := by
  refine machine.invariant (P := Inv) ?_ (fun s a s' hi hs => (hi.step hs).1) h
  rintro _ rfl
  exact .new

/-- **The stacks of coroutines.** In every reachable state nothing has failed, and for every
`CoroRef` the frames of its stack are linked both ways from the topmost one to the bottom, know the
bottom, and the bottom knows the topmost one. Each frame which was created is in the stack of a
`CoroRef` or was destroyed once. A step destroys nothing but the top of one stack, from the top. A
called frame comes above the caller. A `CoroRef` which is cleared or assigned destroys all its
frames, and the end of a frame destroys it unless it is the bottom one, which its `CoroRef` destroys
later. `ResumeTop` resumes the topmost frame and does nothing else. -/
theorem stack_ok {s : State F R} (h : machine.Reachable s) :
    s.failed = false ∧
    (∀ r b, s.refs r = some b → Frames s.heap.mem b none (s.stack b) ∧
      (s.stack b).getLast? = some b ∧ ∃ p, s.heap.mem b = some p ∧ p.last = (s.stack b).head?) ∧
    (∀ f, f ∈ s.created ↔ f ∈ s.heap.log ∨ ∃ r b, s.refs r = some b ∧ f ∈ s.stack b) ∧
    s.heap.log.Nodup ∧ (∀ f ∈ s.heap.log, s.heap.mem f = none ∧ ∀ b, f ∉ s.stack b) ∧
    (∀ a s', machine.step s a = some s' → ∃ gone, s'.heap.log = s.heap.log ++ gone ∧
      (gone = [] ∨ ∃ b, s.stack b = gone ++ s'.stack b)) ∧
    (∀ f g s', machine.step s (.call f g) = some s' → ∃ b l, s.stack b = f :: l ∧
      s'.stack = Function.update s.stack b (g :: f :: l) ∧ s'.heap.log = s.heap.log) ∧
    (∀ r s', machine.step s (.clear r) = some s' →
      s'.refs = Function.update s.refs r none ∧ s'.heap.log = s.heap.log ++ s.frames r) ∧
    (∀ r r' s', machine.step s (.assign r r') = some s' →
      s'.refs = Function.update (Function.update s.refs r (s.refs r')) r' none ∧
      s'.heap.log = s.heap.log ++ s.frames r) ∧
    (∀ f s', machine.step s (.finish f) = some s' → ∃ b l, s.stack b = f :: l ∧
      (l = [] ∧ s'.stack = s.stack ∧ s'.done f = true ∧ s'.heap.log = s.heap.log ∨
        l ≠ [] ∧ s'.stack = Function.update s.stack b l ∧ s'.heap.log = s.heap.log ++ [f])) ∧
    ∀ r s', machine.step s (.resumeTop r) = some s' → ∃ b t l, s.refs r = some b ∧
      s.stack b = t :: l ∧ s' = { s with running := Function.update s.running t true } := by
  have hi := inv h
  refine ⟨hi.failed, fun r b hr => ?_, fun f => ?_, hi.log, fun f hf => ⟨?_, hi.gone f hf⟩,
    fun a s' hs => (hi.step hs).2, fun f g s' hs => hi.call_pushes hs,
    fun r s' hs => hi.clear_destroys hs,
    fun r r' s' hs => hi.assign_destroys hs, fun f s' hs => hi.finish_destroys hs,
    fun r s' hs => ?_⟩
  · have hb := hi.owned r b hr
    exact ⟨hi.frames b hb, hi.last b hb⟩
  · rw [hi.created]
    refine or_congr_right ⟨?_, ?_⟩
    · rintro ⟨b, hb⟩
      obtain ⟨r, hr⟩ := hi.owner b (List.ne_nil_of_mem hb)
      exact ⟨r, b, hr, hb⟩
    · rintro ⟨r, b, -, hb⟩
      exact ⟨b, hb⟩
  · by_contra hne
    obtain ⟨b, hb⟩ := hi.alive f hne
    exact hi.gone f hf b hb
  · simp only [machine, step] at hs
    cases hr : s.refs r with
    | none => simp [hr] at hs
    | some b =>
      simp only [hr, Option.ite_none_right_eq_some, Option.some.injEq] at hs
      obtain ⟨-, t, l, hl, heq⟩ := hi.resumeTop (hi.owned r b hr)
      exact ⟨b, t, l, rfl, hl, hs.2.symm.trans heq⟩

/-- A stack of three frames, of which one ends and the others are released. -/
def three : List (Action ℕ Unit) :=
  [.start () 0, .resumeTop (), .call 0 1, .call 1 2, .suspend 2, .resumeTop (), .finish 2,
    .call 1 3, .suspend 3, .clear ()]

theorem stack_ok_three : ∃ s : State ℕ Unit, machine.Reachable s ∧ s.failed = false ∧
    s.heap.log = [2, 3, 1, 0] ∧ s.heap.log.Nodup := by
  have hrun : (machine.run (.new : State ℕ Unit) three).map (fun s => s.heap.log) =
      some [2, 3, 1, 0] := by
    decide +kernel
  obtain ⟨s, hs, hlog⟩ := Option.map_eq_some_iff.mp hrun
  have hr : machine.Reachable s := .of_run (.init rfl) hs
  obtain ⟨hf, -, -, hnd, -⟩ := stack_ok hr
  exact ⟨s, hr, hf, hlog, hnd⟩

end Invariant

end Coro

end Serverbox
