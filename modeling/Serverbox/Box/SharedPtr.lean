import Mathlib.Algebra.BigOperators.Group.Finset.Basic
import Mathlib.Algebra.BigOperators.Group.Finset.Piecewise
import Mathlib.Algebra.GroupWithZero.Nat
import Mathlib.Algebra.Order.BigOperators.Group.Finset
import Mathlib.Data.Fintype.Basic
import Serverbox.Lib.Machine

/-!
# The intrusive shared pointer

`mg::box::SharedPtrIntrusive` is a handle of an object which counts its references. A handle can be
a field of another object, and then it dies with it. A call of `PrivUnref` can destroy an object,
whose fields call it again: the calls which are still to be made stand on a stack, and each step of
the release makes the first of them.

The reference count is an integer, since the source checks its sign. The history variables tell
which objects were created, how many times each was destroyed, and how many references to each are
held by raw pointers.

Source: `src/mg/box/SharedPtr.h`, `src/mg/box/RefCount.h`.

## Main definitions

* `SharedPtr.Layout`: which handles are the fields of which objects.
* `SharedPtr.Op.run`: the operations.
* `SharedPtr.machine`: any operations on any handles and objects, and the steps of the release.

## Main results

* `SharedPtr.apart_counts`: the counts are right, and objects are destroyed once and when the last
  reference is gone, unless a handle is move-assigned from another handle of the same object.
* `SharedPtr.move_assign_leaks`: such an assignment leaks a reference.
-/

namespace Serverbox

namespace SharedPtr

/-- The handles which are fields of the objects, in the order in which they are destroyed. -/
structure Layout (ι α : Type*) where
  home : ι → Option α
  fields : α → List ι
  nodup : ∀ o, (fields o).Nodup
  mem_fields : ∀ o h, h ∈ fields o ↔ home h = some o

/-- The handles, the objects, and the calls of `PrivUnref` which are still to be made. -/
structure State (ι α : Type*) where
  ptr : ι → Option α
  live : ι → Bool
  count : α → ℤ
  pending : List α
  failed : Bool
  born : α → Bool
  deaths : α → ℕ
  raw : α → ℕ

variable {ι α : Type*} [DecidableEq ι] [DecidableEq α]

namespace State

/-- The object was created and not destroyed. -/
def alive (s : State ι α) (o : α) : Bool := s.born o && s.deaths o = 0

/-- An assertion of the source, or an access to an object. -/
def assert (s : State ι α) (b : Bool) : State ι α := { s with failed := s.failed || !b }

/-- `myObject` is set. -/
def setPtr (s : State ι α) (h : ι) (q : Option α) : State ι α :=
  { s with ptr := Function.update s.ptr h q }

/-- The lifetime of a handle starts. -/
def start (s : State ι α) (h : ι) (q : Option α) : State ι α :=
  { s.setPtr h q with live := Function.update s.live h true }

/-- `PrivRef` and `RefCount::Inc`. -/
def ref (s : State ι α) : Option α → State ι α
  | some o =>
    ({ s with count := Function.update s.count o (s.count o + 1) }.assert (s.alive o)).assert
      (1 ≤ s.count o + 1)
  | none => s

/-- `PrivUnref` is to be called. -/
def later (s : State ι α) (q : Option α) : State ι α :=
  { s with pending := q.toList ++ s.pending }

/-- The object is destroyed, and its fields with it. -/
def delete (F : Layout ι α) (s : State ι α) (o : α) : State ι α :=
  { s with
    deaths := Function.update s.deaths o (s.deaths o + 1)
    ptr := fun h => if F.home h = some o then none else s.ptr h
    live := fun h => if F.home h = some o then false else s.live h
    pending := (F.fields o).filterMap s.ptr ++ s.pending }

/-- `PrivUnref` and `RefCount::Dec`. -/
def unref (F : Layout ι α) (s : State ι α) (o : α) : State ι α :=
  let s' := ({ s with count := Function.update s.count o (s.count o - 1) }.assert
    (s.alive o)).assert (0 ≤ s.count o - 1)
  if s.count o - 1 = 0 then s'.delete F o else s'

/-- `new` of an object, whose count starts with the reference of the creator. -/
def create (F : Layout ι α) (s : State ι α) (o : α) : State ι α :=
  { s with
    born := Function.update s.born o true
    count := Function.update s.count o 1
    raw := Function.update s.raw o 1
    live := fun h => if F.home h = some o then true else s.live h }

/-- The copy constructor. -/
def constructCopy (s : State ι α) (h g : ι) : State ι α := (s.start h (s.ptr g)).ref (s.ptr g)

/-- The move constructor. -/
def constructMove (s : State ι α) (h g : ι) : State ι α :=
  (s.start h (s.ptr g)).setPtr g none

/-- The constructor from a pointer. -/
def constructRaw (s : State ι α) (h : ι) (q : Option α) : State ι α := (s.start h q).ref q

/-- `Wrap`: the handle takes over a raw reference. -/
def wrap (s : State ι α) (h : ι) : Option α → State ι α
  | some o => { s.start h (some o) with raw := Function.update s.raw o (s.raw o - 1) }
  | none => s.start h none

/-- `Unwrap`. -/
def unwrap (s : State ι α) (h : ι) : State ι α :=
  match s.ptr h with
  | some o => { s.setPtr h none with raw := Function.update s.raw o (s.raw o + 1) }
  | none => s.setPtr h none

/-- `Set`. -/
def set (s : State ι α) (h : ι) (q : Option α) : State ι α :=
  if s.ptr h = q then s else ((s.setPtr h q).ref q).later (s.ptr h)

/-- The copy assignment. -/
def assignCopy (s : State ι α) (h g : ι) : State ι α := s.set h (s.ptr g)

/-- The move assignment. -/
def assignMove (s : State ι α) (h g : ι) : State ι α :=
  let s' := (s.setPtr g none).setPtr h (s.ptr g)
  if s.ptr g ≠ s.ptr h then s'.later (s.ptr h) else s'

/-- `Clear`. -/
def clear (s : State ι α) (h : ι) : State ι α := (s.setPtr h none).later (s.ptr h)

/-- The destructor. -/
def destruct (s : State ι α) (h : ι) : State ι α :=
  { s.clear h with live := Function.update s.live h false }

end State

/-- An operation. -/
inductive Op (ι α : Type*)
  | create (o : α)
  | construct (h : ι)
  | constructCopy (h g : ι)
  | constructMove (h g : ι)
  | constructRaw (h : ι) (q : Option α)
  | wrap (h : ι) (q : Option α)
  | unwrap (h : ι)
  | assignCopy (h g : ι)
  | assignMove (h g : ι)
  | set (h : ι) (q : Option α)
  | clear (h : ι)
  | destruct (h : ι)

/-- The operation on the state. -/
def Op.run (F : Layout ι α) (s : State ι α) : Op ι α → State ι α
  | create o => s.create F o
  | construct h => s.start h none
  | constructCopy h g => s.constructCopy h g
  | constructMove h g => s.constructMove h g
  | constructRaw h q => s.constructRaw h q
  | wrap h q => s.wrap h q
  | unwrap h => s.unwrap h
  | assignCopy h g => s.assignCopy h g
  | assignMove h g => s.assignMove h g
  | set h q => s.set h q
  | clear h => s.clear h
  | destruct h => s.destruct h

/-- The contracts: handles are used during their lifetimes, which those of the fields share with
their objects, a pointer is taken from an object which is alive, and the reference which is wrapped
is held by a raw pointer. -/
def Op.allowed (F : Layout ι α) (s : State ι α) : Op ι α → Bool
  | create o => !s.born o
  | construct h => !s.live h && F.home h = none
  | constructCopy h g | constructMove h g => !s.live h && F.home h = none && s.live g
  | constructRaw h q => !s.live h && F.home h = none && q.all s.alive
  | wrap h q => !s.live h && F.home h = none && q.all fun o => 0 < s.raw o
  | assignCopy h g | assignMove h g => s.live h && s.live g
  | set h q => s.live h && q.all s.alive
  | unwrap h | clear h => s.live h
  | destruct h => s.live h && F.home h = none

/-- An operation, or a step of the release. -/
inductive Act (ι α : Type*)
  | call (a : Op ι α)
  | release

/-- One step. -/
def step (F : Layout ι α) (s : State ι α) : Act ι α → Option (State ι α)
  | .call a => if a.allowed F s then some (a.run F s) else none
  | .release =>
    match s.pending with
    | o :: l => some (({ s with pending := l } : State ι α).unref F o)
    | [] => none

/-- Any operations, and the releases which they cause. -/
def machine (F : Layout ι α) : Machine (State ι α) (Act ι α) where
  init s := s = ⟨fun _ => none, fun _ => false, fun _ => 0, [], false, fun _ => false,
    fun _ => 0, fun _ => 0⟩
  step := step F

/-- A move assignment is not from another handle of the same object. -/
def Apart (s : State ι α) : Act ι α → Prop
  | .call (.assignMove h g) => h ≠ g → s.ptr h = s.ptr g → s.ptr h = none
  | _ => True

instance (s : State ι α) : (a : Act ι α) → Decidable (Apart s a)
  | .call (.assignMove h g) =>
    inferInstanceAs (Decidable (h ≠ g → s.ptr h = s.ptr g → s.ptr h = none))
  | .call (.create _) | .call (.construct _) | .call (.constructCopy _ _)
  | .call (.constructMove _ _) | .call (.constructRaw _ _) | .call (.wrap _ _) | .call (.unwrap _)
  | .call (.assignCopy _ _) | .call (.set _ _) | .call (.clear _) | .call (.destruct _)
  | .release => .isTrue trivial

section Counting

/-- Whether the pointer designates the object, as a number. -/
def one (q : Option α) (o : α) : ℕ := if q = some o then 1 else 0

omit [DecidableEq α] in
theorem setPtr_ptr_self (s : State ι α) (h : ι) (q : Option α) : (s.setPtr h q).ptr h = q :=
  Function.update_self ..

omit [DecidableEq α] in
theorem setPtr_ptr_of_ne (s : State ι α) {h k : ι} (hk : k ≠ h) (q : Option α) :
    (s.setPtr h q).ptr k = s.ptr k :=
  Function.update_of_ne hk ..

omit [DecidableEq α] in
theorem start_ptr (s : State ι α) (h : ι) (q : Option α) :
    (s.start h q).ptr = (s.setPtr h q).ptr := rfl

omit [DecidableEq α] in
theorem start_live_of_ne (s : State ι α) {h k : ι} (hk : k ≠ h) (q : Option α) :
    (s.start h q).live k = s.live k :=
  Function.update_of_ne hk ..

variable [Fintype ι]

/-- The references to an object: its handles, the raw references, and those to be released. -/
def State.held (s : State ι α) (o : α) : ℕ :=
  ∑ h, one (s.ptr h) o + s.raw o + s.pending.count o

variable {F : Layout ι α} {s t : State ι α} {h g : ι} {q : Option α} {o p : α}

omit [DecidableEq ι] [Fintype ι] in
theorem one_some (o p : α) : one (some o) p = if p = o then 1 else 0 := by
  simp only [one, Option.some_inj, eq_comm]

theorem sum_update (f : ι → Option α) (h : ι) (q : Option α) (o : α) :
    ∑ k, one (Function.update f h q k) o + one (f h) o = ∑ k, one (f k) o + one q o := by
  rw [← Finset.add_sum_erase _ _ (Finset.mem_univ h),
    ← Finset.add_sum_erase _ (fun k => one (f k) o) (Finset.mem_univ h), Function.update_self]
  have hrest : ∑ k ∈ Finset.univ.erase h, one (Function.update f h q k) o =
      ∑ k ∈ Finset.univ.erase h, one (f k) o :=
    Finset.sum_congr rfl fun k hk => by rw [Function.update_of_ne (Finset.ne_of_mem_erase hk)]
  rw [hrest]
  omega

theorem held_setPtr (s : State ι α) (h : ι) (q : Option α) (o : α) :
    (s.setPtr h q).held o + one (s.ptr h) o = s.held o + one q o := by
  have := sum_update s.ptr h q o
  simp only [State.held, State.setPtr]
  omega

omit [DecidableEq ι] in
theorem held_later (s : State ι α) (q : Option α) (o : α) :
    (s.later q).held o = s.held o + one q o := by
  cases q with
  | none => rfl
  | some p =>
    have hcount : (p :: s.pending).count o = s.pending.count o + one (some p) o := by
      simp [List.count_cons, one]
    simp only [State.held, State.later, Option.toList_some, List.singleton_append, hcount]
    omega

omit [DecidableEq ι] [Fintype ι] in
theorem ref_count (s : State ι α) (q : Option α) (o : α) :
    (s.ref q).count o = s.count o + one q o := by
  cases q with
  | none => simp [State.ref, one]
  | some p =>
    by_cases hp : p = o
    · subst hp
      simp [State.ref, State.assert, one]
    · simp [State.ref, State.assert, one, hp, Function.update_of_ne (Ne.symm hp)]

omit [DecidableEq ι] [Fintype ι] in
/-- A reference leaves everything but the count and the assertions. -/
theorem ref_eq (s : State ι α) (q : Option α) :
    s.ref q = { s with count := (s.ref q).count, failed := (s.ref q).failed } := by
  cases q <;> rfl

omit [DecidableEq ι] in
theorem held_ref (s : State ι α) (q : Option α) (o : α) : (s.ref q).held o = s.held o := by
  rw [ref_eq]
  rfl

/-- The counts are right, the objects are alive while there are references to them, and nothing
else has been touched. -/
structure Inv (F : Layout ι α) (s : State ι α) : Prop where
  count : ∀ o, s.count o = s.held o
  alive : ∀ o, s.alive o = true ↔ 0 < s.held o
  deaths : ∀ o, s.deaths o ≤ 1 ∧ (s.born o = false → s.deaths o = 0)
  live : ∀ h, s.ptr h ≠ none → s.live h = true
  fields : ∀ h o, F.home h = some o → s.live h = s.alive o
  failed : s.failed = false

omit [DecidableEq ι] in
/-- A reference to an object which is alive passes the assertions. -/
theorem Inv.ref_failed (hs : Inv F s) (hq : ∀ o ∈ q, s.alive o = true)
    (hcount : t.count = s.count) (hfailed : t.failed = s.failed) (halive : t.alive = s.alive) :
    (t.ref q).failed = false := by
  cases q with
  | none =>
    rw [State.ref, hfailed]
    exact hs.failed
  | some o =>
    have ho := hq o rfl
    have hpos := (hs.alive o).mp ho
    have hc := hs.count o
    have hle : 1 ≤ s.count o + 1 := by omega
    simp [State.ref, State.assert, hcount, hfailed, halive, hs.failed, ho, hle]

omit [DecidableEq ι] in
/-- The operations which create and destroy nothing: the references are moved, and some are added
to an object which is alive. -/
theorem Inv.moved (hs : Inv F s) (hq : ∀ o ∈ q, s.alive o = true)
    (hheld : ∀ o, t.held o = s.held o + one q o) (hcount : ∀ o, t.count o = s.count o + one q o)
    (hborn : t.born = s.born) (hdeaths : t.deaths = s.deaths)
    (hlive : ∀ h, t.ptr h ≠ none → t.live h = true)
    (hfields : ∀ h o, F.home h = some o → t.live h = s.live h) (hfailed : t.failed = false) :
    Inv F t := by
  have halive : ∀ o, t.alive o = s.alive o := fun o => by
    rw [State.alive, State.alive, hborn, hdeaths]
  refine ⟨fun o => ?_, fun o => ?_, fun o => ?_, hlive, fun h o ho => ?_, hfailed⟩
  · rw [hcount, hheld, hs.count]
    omega
  · rw [halive, hs.alive, hheld]
    refine ⟨fun ho => by omega, fun ho => ?_⟩
    by_contra hzero
    have hone : one q o = 1 := by
      unfold one at ho ⊢
      split at ho <;> simp_all
    have hmem : q = some o := by
      unfold one at hone
      split at hone <;> simp_all
    exact hzero ((hs.alive o).mp (hq o hmem))
  · rw [hdeaths, hborn]
    exact hs.deaths o
  · rw [hfields h o ho, halive, hs.fields h o ho]

omit [DecidableEq ι] in
theorem Inv.ptr_eq_none (hs : Inv F s) (hh : s.live h = false) : s.ptr h = none := by
  by_contra hp
  rw [hs.live h hp] at hh
  cases hh

omit [DecidableEq ι] in
/-- The object of a handle is alive. -/
theorem Inv.alive_of_ptr (hs : Inv F s) (hp : s.ptr g = some o) : s.alive o = true := by
  rw [hs.alive]
  have hle : one (s.ptr g) o ≤ ∑ k, one (s.ptr k) o :=
    Finset.single_le_sum (f := fun k => one (s.ptr k) o) (fun _ _ => Nat.zero_le _)
      (Finset.mem_univ g)
  rw [hp, one, if_pos rfl] at hle
  unfold State.held
  omega

omit [DecidableEq ι] in
theorem held_raw (s : State ι α) (o : α) (n : ℕ) (p : α) :
    ({ s with raw := Function.update s.raw o n } : State ι α).held p +
      (if p = o then s.raw o else 0) = s.held p + if p = o then n else 0 := by
  by_cases hp : p = o
  · subst hp
    simp only [State.held, Function.update_self, if_true]
    omega
  · simp only [State.held, Function.update_of_ne hp, if_neg hp]

/-- A handle whose lifetime has not started starts with a pointer. -/
theorem Inv.held_start (hs : Inv F s) (hh : s.live h = false) (q : Option α) (o : α) :
    (s.start h q).held o = s.held o + one q o := by
  have hset := held_setPtr s h q o
  rw [hs.ptr_eq_none hh] at hset
  exact hset

theorem Inv.live_start (hs : Inv F s) (q : Option α) {k : ι} (hk : (s.start h q).ptr k ≠ none) :
    (s.start h q).live k = true := by
  by_cases hkh : k = h
  · subst hkh
    exact Function.update_self ..
  · rw [start_ptr, setPtr_ptr_of_ne s hkh] at hk
    rw [start_live_of_ne s hkh]
    exact hs.live k hk

omit [DecidableEq α] [Fintype ι] in
theorem fields_start (hh : F.home h = none) (q : Option α) {k : ι} {o : α}
    (hk : F.home k = some o) : (s.start h q).live k = s.live k := by
  refine Function.update_of_ne ?_ _ _
  rintro rfl
  rw [hh] at hk
  cases hk

/-- A pointer of a handle is changed. -/
theorem Inv.live_setPtr (hs : Inv F s) (hh : s.live h = true) (q : Option α) {k : ι}
    (hk : (s.setPtr h q).ptr k ≠ none) : s.live k = true := by
  by_cases hkh : k = h
  · rw [hkh, hh]
  · rw [setPtr_ptr_of_ne s hkh] at hk
    exact hs.live k hk

theorem Inv.constructRaw (hs : Inv F s) (hh : s.live h = false) (hhome : F.home h = none)
    (hq : ∀ o ∈ q, s.alive o = true) : Inv F (s.constructRaw h q) := by
  refine hs.moved hq (fun o => ?_) (fun o => ref_count _ q o) ?_ ?_ (fun k hk => ?_)
    (fun k o hk => ?_) (hs.ref_failed hq rfl rfl rfl)
  · rw [State.constructRaw, held_ref, hs.held_start hh]
  · rw [State.constructRaw, ref_eq]
    rfl
  · rw [State.constructRaw, ref_eq]
    rfl
  · rw [State.constructRaw, ref_eq] at hk ⊢
    exact hs.live_start q hk
  · rw [State.constructRaw, ref_eq]
    exact fields_start hhome q hk

theorem Inv.construct (hs : Inv F s) (hh : s.live h = false) (hhome : F.home h = none) :
    Inv F (s.start h none) :=
  hs.moved (q := none) nofun (fun o => hs.held_start hh none o)
    (fun _ => by simp [one, State.start, State.setPtr]) rfl rfl
    (fun _ hk => hs.live_start none hk) (fun _ _ hk => fields_start hhome none hk) hs.failed

theorem Inv.constructMove (hs : Inv F s) (hh : s.live h = false) (hhome : F.home h = none)
    (hg : s.live g = true) : Inv F (s.constructMove h g) := by
  have hgh : g ≠ h := by
    rintro rfl
    rw [hg] at hh
    cases hh
  refine hs.moved (q := none) nofun (fun o => ?_) (fun _ => by simp [one, State.constructMove,
    State.start, State.setPtr]) rfl rfl (fun k hk => ?_)
    (fun k o hk => fields_start hhome (s.ptr g) hk) hs.failed
  · have hstart := hs.held_start hh (s.ptr g) o
    have hset := held_setPtr (s.start h (s.ptr g)) g none o
    have hptr : (s.start h (s.ptr g)).ptr g = s.ptr g := Function.update_of_ne hgh _ _
    rw [hptr] at hset
    rw [State.constructMove]
    omega
  · by_cases hkg : k = g
    · rw [hkg, State.constructMove, setPtr_ptr_self] at hk
      exact absurd rfl hk
    · rw [State.constructMove, setPtr_ptr_of_ne _ hkg] at hk
      exact hs.live_start (s.ptr g) hk

theorem Inv.wrap (hs : Inv F s) (hh : s.live h = false) (hhome : F.home h = none)
    (hq : ∀ o ∈ q, 0 < s.raw o) : Inv F (s.wrap h q) := by
  cases q with
  | none => exact hs.construct hh hhome
  | some o =>
    have he : s.wrap h (some o) = { s.start h (some o) with
        raw := Function.update (s.start h (some o)).raw o (s.raw o - 1) } := rfl
    rw [he]
    refine hs.moved (q := none) nofun (fun p => ?_) (fun _ => by simp [one, State.start,
      State.setPtr]) rfl rfl (fun _ hk => hs.live_start (some o) hk)
      (fun _ _ hk => fields_start hhome (some o) hk) hs.failed
    have hstart := hs.held_start hh (some o) p
    have hraw := held_raw (s.start h (some o)) o (s.raw o - 1) p
    have hpos := hq o rfl
    rw [one_some] at hstart
    rw [show (s.start h (some o)).raw o = s.raw o from rfl] at hraw
    have hnone : one (none : Option α) p = 0 := rfl
    by_cases hpo : p = o
    · simp only [hpo, if_true] at hraw hstart hnone ⊢
      omega
    · simp only [hpo, if_false] at hraw hstart hnone ⊢
      omega

theorem Inv.set (hs : Inv F s) (hh : s.live h = true) (hq : ∀ o ∈ q, s.alive o = true) :
    Inv F (s.set h q) := by
  unfold State.set
  split
  · exact hs
  · refine hs.moved hq (fun o => ?_) (fun o => ?_) ?_ ?_ (fun k hk => ?_) (fun k o hk => ?_) ?_
    · have hset := held_setPtr s h q o
      rw [held_later, held_ref]
      omega
    · exact ref_count (s.setPtr h q) q o
    · rw [ref_eq]
      rfl
    · rw [ref_eq]
      rfl
    · rw [ref_eq] at hk ⊢
      exact hs.live_setPtr hh q hk
    · rw [ref_eq]
      rfl
    · exact hs.ref_failed (t := s.setPtr h q) hq rfl rfl rfl

theorem Inv.clear (hs : Inv F s) (hh : s.live h = true) : Inv F (s.clear h) := by
  refine hs.moved (q := none) nofun (fun o => ?_) (fun _ => by simp [one, State.clear,
    State.setPtr, State.later]) rfl rfl (fun k hk => hs.live_setPtr hh none hk) (fun _ _ _ => rfl)
    hs.failed
  have hset := held_setPtr s h none o
  rw [State.clear, held_later]
  omega

theorem Inv.destruct (hs : Inv F s) (hh : s.live h = true) (hhome : F.home h = none) :
    Inv F (s.destruct h) := by
  have hclear := hs.clear hh
  have hlive : ∀ k, k ≠ h → (s.destruct h).live k = s.live k := fun k hk =>
    Function.update_of_ne hk ..
  refine ⟨hclear.count, hclear.alive, hclear.deaths, fun k hk => ?_, fun k o hk => ?_,
    hclear.failed⟩
  · have hkh : k ≠ h := by
      rintro rfl
      exact hk (setPtr_ptr_self s k none)
    rw [hlive k hkh]
    exact hclear.live k hk
  · have hkh : k ≠ h := by
      rintro rfl
      rw [hhome] at hk
      cases hk
    rw [hlive k hkh]
    exact hclear.fields k o hk

theorem Inv.unwrap (hs : Inv F s) (hh : s.live h = true) : Inv F (s.unwrap h) := by
  have hlive := fun k (hk : (s.setPtr h none).ptr k ≠ none) => hs.live_setPtr hh none hk
  cases hp : s.ptr h with
  | none =>
    rw [State.unwrap, hp]
    refine hs.moved (q := none) nofun (fun o => ?_) (fun _ => by simp [one, State.setPtr]) rfl rfl
      hlive (fun _ _ _ => rfl) hs.failed
    have hset := held_setPtr s h none o
    rw [hp] at hset
    exact Nat.add_right_cancel hset
  | some o =>
    have he : s.unwrap h = { s.setPtr h none with
        raw := Function.update (s.setPtr h none).raw o (s.raw o + 1) } := by
      rw [State.unwrap, hp]
      rfl
    rw [he]
    refine hs.moved (q := none) nofun (fun p => ?_) (fun _ => by simp [one, State.setPtr]) rfl rfl
      hlive (fun _ _ _ => rfl) hs.failed
    have hset := held_setPtr s h none p
    have hraw := held_raw (s.setPtr h none) o (s.raw o + 1) p
    rw [hp, one_some] at hset
    rw [show (s.setPtr h none).raw o = s.raw o from rfl] at hraw
    by_cases hpo : p = o
    · simp only [hpo, if_true] at hraw hset ⊢
      omega
    · simp only [hpo, if_false] at hraw hset ⊢
      omega

/-- **The move assignment**, unless the two handles designate one object. -/
theorem Inv.assignMove (hs : Inv F s) (hh : s.live h = true) (hg : s.live g = true)
    (hap : h ≠ g → s.ptr h = s.ptr g → s.ptr h = none) : Inv F (s.assignMove h g) := by
  unfold State.assignMove
  by_cases hhg : h = g
  · subst hhg
    have hsame : (s.setPtr h none).setPtr h (s.ptr h) = s := by
      simp [State.setPtr]
    simp only [ne_eq, not_true_eq_false, if_false, hsame]
    exact hs
  have hheld : ∀ o, ((s.setPtr g none).setPtr h (s.ptr g)).held o + one (s.ptr h) o =
      s.held o := by
    intro o
    have hset₁ := held_setPtr s g none o
    have hset₂ := held_setPtr (s.setPtr g none) h (s.ptr g) o
    have hptr : (s.setPtr g none).ptr h = s.ptr h := Function.update_of_ne hhg _ _
    have hnone : one (none : Option α) o = 0 := rfl
    rw [hptr] at hset₂
    omega
  have hlive : ∀ k, ((s.setPtr g none).setPtr h (s.ptr g)).ptr k ≠ none → s.live k = true := by
    intro k hk
    by_cases hkh : k = h
    · rw [hkh, hh]
    · rw [setPtr_ptr_of_ne _ hkh] at hk
      exact hs.live_setPtr hg none hk
  dsimp only
  split
  · refine hs.moved (q := none) nofun (fun o => ?_) (fun _ => by simp [one, State.setPtr,
      State.later]) rfl rfl hlive (fun _ _ _ => rfl) hs.failed
    rw [held_later, hheld]
    rfl
  · rename_i heq
    have hnone := hap hhg (not_not.mp heq).symm
    refine hs.moved (q := none) nofun (fun o => ?_) (fun _ => by simp [one, State.setPtr]) rfl rfl
      hlive (fun _ _ _ => rfl) hs.failed
    have := hheld o
    rw [hnone] at this
    exact this

omit [DecidableEq ι] in
theorem Inv.create (hs : Inv F s) (ho : s.born o = false) : Inv F (s.create F o) := by
  have hdead : s.alive o = false := by rw [State.alive, ho, Bool.false_and]
  have hzero : s.held o = 0 := by
    by_contra hpos
    rw [(hs.alive o).mpr (Nat.pos_of_ne_zero hpos)] at hdead
    cases hdead
  have hraw : s.raw o = 0 := by
    unfold State.held at hzero
    omega
  have hheld : ∀ p, (s.create F o).held p = s.held p + if p = o then 1 else 0 := fun p => by
    have := held_raw s o 1 p
    rw [hraw, ite_self, Nat.add_zero] at this
    exact this
  have halive : ∀ p, (s.create F o).alive p = if p = o then true else s.alive p := fun p => by
    by_cases hp : p = o
    · subst hp
      simp [State.alive, State.create, (hs.deaths p).2 ho]
    · simp [State.alive, State.create, hp]
  refine ⟨fun p => ?_, fun p => ?_, fun p => ⟨(hs.deaths p).1, fun hp => (hs.deaths p).2 ?_⟩,
    fun k hk => ?_, fun k p hk => ?_, hs.failed⟩
  · rw [hheld]
    by_cases hp : p = o
    · subst hp
      rw [hzero]
      simp [State.create]
    · rw [if_neg hp, Nat.add_zero, ← hs.count]
      exact Function.update_of_ne hp ..
  · rw [halive, hheld]
    by_cases hp : p = o
    · simp [hp]
    · simpa [hp] using hs.alive p
  · by_cases hpo : p = o
    · rw [hpo, ho]
    · have hp' : Function.update s.born o true p = false := hp
      rwa [Function.update_of_ne hpo] at hp'
  · show (if F.home k = some o then true else s.live k) = true
    rw [hs.live k hk]
    split <;> rfl
  · show (if F.home k = some o then true else s.live k) = _
    rw [halive, hs.fields k p hk, hk]
    by_cases hp : p = o
    · simp [hp]
    · simp [hp]

/-- What the fields of an object carry is put on the stack. -/
theorem sum_delete (F : Layout ι α) (s : State ι α) (o : α) (f : α → ℕ) :
    ∑ h, ((s.delete F o).ptr h).elim 0 f + (((F.fields o).filterMap s.ptr).map f).sum =
      ∑ h, (s.ptr h).elim 0 f := by
  have hfields : (((F.fields o).filterMap s.ptr).map f).sum =
      ∑ h, if F.home h = some o then (s.ptr h).elim 0 f else 0 := calc
    (((F.fields o).filterMap s.ptr).map f).sum =
        ((F.fields o).map fun h => (s.ptr h).elim 0 f).sum := by
      induction F.fields o with
      | nil => rfl
      | cons h l ih =>
        cases hp : s.ptr h <;> simp [hp, ih]
    _ = ∑ h ∈ (F.fields o).toFinset, (s.ptr h).elim 0 f :=
      (List.sum_toFinset _ (F.nodup o)).symm
    _ = ∑ h, if F.home h = some o then (s.ptr h).elim 0 f else 0 := by
      rw [← Finset.sum_filter]
      refine Finset.sum_congr (Finset.ext fun h => ?_) fun _ _ => rfl
      simp [F.mem_fields]
  rw [hfields, ← Finset.sum_add_distrib]
  refine Finset.sum_congr rfl fun h _ => ?_
  show (if F.home h = some o then none else s.ptr h).elim 0 f + _ = _
  split <;> simp

theorem held_delete (F : Layout ι α) (s : State ι α) (o p : α) :
    (s.delete F o).held p = s.held p := by
  have hsum := sum_delete F s o fun q => if q = p then 1 else 0
  have hone : ∀ q : Option α, q.elim 0 (fun q => if q = p then 1 else 0) = one q p := fun q => by
    cases q <;> simp [one]
  have hcount : ∀ l : List α, (l.map fun q => if q = p then 1 else 0).sum = l.count p := fun l => by
    induction l with
    | nil => rfl
    | cons q l ih => simp [List.count_cons, ih, Nat.add_comm]
  simp only [hone, hcount] at hsum
  simp only [State.held, State.delete, List.count_append] at hsum ⊢
  omega

/-- One step of the release. -/
theorem Inv.unref {l : List α} (hs : Inv F s) (hl : s.pending = o :: l) :
    Inv F (({ s with pending := l } : State ι α).unref F o) := by
  have hheld : ∀ p, ({ s with pending := l } : State ι α).held p + (if p = o then 1 else 0) =
      s.held p := fun p => by
    simp only [State.held, hl, List.count_cons, beq_iff_eq, eq_comm (a := o)]
    omega
  have hpos : 0 < s.held o := by
    have := hheld o
    simp only [if_true] at this
    omega
  have halive := (hs.alive o).mpr hpos
  have hcount := hs.count o
  have hle : 1 ≤ s.count o := by omega
  obtain ⟨t, ht, htcount, htfailed, hteq⟩ : ∃ t : State ι α,
      (({ s with pending := l, count := Function.update s.count o (s.count o - 1) } :
        State ι α).assert (s.alive o)).assert (0 ≤ s.count o - 1) = t ∧
      t.count = Function.update s.count o (s.count o - 1) ∧ t.failed = false ∧
      t = { s with pending := l, count := t.count, failed := t.failed } :=
    ⟨_, rfl, rfl, by simp [State.assert, hs.failed, halive, hle], rfl⟩
  have htheld : ∀ p, t.held p + (if p = o then 1 else 0) = s.held p := fun p => by
    rw [hteq]
    exact hheld p
  have htcount' : ∀ p, t.count p = t.held p := fun p => by
    have hp := htheld p
    have hc := hs.count p
    rw [htcount]
    by_cases hpo : p = o
    · subst hpo
      rw [if_pos rfl] at hp
      rw [Function.update_self]
      omega
    · rw [if_neg hpo] at hp
      rw [Function.update_of_ne hpo]
      omega
  have hunref : ({ s with pending := l } : State ι α).unref F o =
      if s.count o - 1 = 0 then t.delete F o else t := by
    rw [← ht]
    rfl
  have htborn : t.born = s.born := by rw [hteq]
  have htdeaths : t.deaths = s.deaths := by rw [hteq]
  have htptr : t.ptr = s.ptr := by rw [hteq]
  have htlive : t.live = s.live := by rw [hteq]
  rw [hunref]
  split
  · rename_i hlast
    have hborn : s.born o = true ∧ s.deaths o = 0 := by simpa [State.alive] using halive
    have hdead : ∀ p, (t.delete F o).alive p = if p = o then false else s.alive p := fun p => by
      by_cases hpo : p = o
      · simp [State.alive, State.delete, hpo, htdeaths]
      · simp [State.alive, State.delete, hpo, htdeaths, htborn]
    refine ⟨fun p => ?_, fun p => ?_, fun p => ?_, fun k hk => ?_, fun k p hk => ?_, htfailed⟩
    · rw [held_delete]
      exact htcount' p
    · rw [held_delete, hdead]
      have hp := htheld p
      have hc := hs.count p
      by_cases hpo : p = o
      · subst hpo
        rw [if_pos rfl] at hp
        simp only [if_true, Bool.false_eq_true, false_iff]
        omega
      · rw [if_neg hpo] at hp ⊢
        rw [hs.alive p]
        omega
    · show Function.update t.deaths o (t.deaths o + 1) p ≤ 1 ∧
        (t.born p = false → Function.update t.deaths o (t.deaths o + 1) p = 0)
      rw [htdeaths, htborn]
      by_cases hpo : p = o
      · subst hpo
        rw [Function.update_self, hborn.1, hborn.2]
        exact ⟨le_rfl, nofun⟩
      · rw [Function.update_of_ne hpo]
        exact hs.deaths p
    · have hk' : (if F.home k = some o then none else s.ptr k) ≠ none := by
        rw [← htptr]
        exact hk
      show (if F.home k = some o then false else t.live k) = true
      rw [htlive]
      split at hk'
      · exact absurd rfl hk'
      · rename_i hhome
        rw [if_neg hhome]
        exact hs.live k hk'
    · show (if F.home k = some o then false else t.live k) = _
      rw [hdead, htlive, hs.fields k p hk, hk]
      by_cases hpo : p = o <;> simp [hpo]
  · rename_i hmore
    have htalive : t.alive = s.alive := by rw [hteq]; rfl
    refine ⟨htcount', fun p => ?_, fun p => ?_, fun k hk => ?_, fun k p hk => ?_, htfailed⟩
    · rw [htalive, hs.alive]
      have hp := htheld p
      by_cases hpo : p = o
      · subst hpo
        rw [if_pos rfl] at hp
        omega
      · rw [if_neg hpo] at hp
        omega
    · rw [htborn, htdeaths]
      exact hs.deaths p
    · rw [htptr] at hk
      rw [htlive]
      exact hs.live k hk
    · rw [htlive, htalive]
      exact hs.fields k p hk

/-- **One step** keeps the counts, unless it is an assignment between handles of one object. -/
theorem Inv.step (hs : Inv F s) {a : Act ι α} (ha : Apart s a) (ht : step F s a = some t) :
    Inv F t := by
  cases a with
  | release =>
    cases hl : s.pending with
    | nil => simp [SharedPtr.step, hl] at ht
    | cons o l =>
      simp only [SharedPtr.step, hl] at ht
      obtain rfl := Option.some.inj ht
      exact hs.unref hl
  | call a =>
    simp only [SharedPtr.step, Option.ite_none_right_eq_some] at ht
    obtain ⟨hok, ht⟩ := ht
    obtain rfl := Option.some.inj ht
    cases a with
    | create o => exact hs.create (by simpa [Op.allowed] using hok)
    | construct h =>
      obtain ⟨hh, hhome⟩ : s.live h = false ∧ F.home h = none := by simpa [Op.allowed] using hok
      exact hs.construct hh hhome
    | constructCopy h g =>
      obtain ⟨⟨hh, hhome⟩, -⟩ : (s.live h = false ∧ F.home h = none) ∧ s.live g = true := by
        simpa [Op.allowed] using hok
      exact hs.constructRaw hh hhome fun _ => hs.alive_of_ptr
    | constructMove h g =>
      obtain ⟨⟨hh, hhome⟩, hg⟩ : (s.live h = false ∧ F.home h = none) ∧ s.live g = true := by
        simpa [Op.allowed] using hok
      exact hs.constructMove hh hhome hg
    | constructRaw h q =>
      obtain ⟨⟨hh, hhome⟩, hq⟩ : (s.live h = false ∧ F.home h = none) ∧ q.all s.alive = true := by
        simpa [Op.allowed] using hok
      exact hs.constructRaw hh hhome fun o ho => by simpa [Option.mem_def.mp ho] using hq
    | wrap h q =>
      obtain ⟨⟨hh, hhome⟩, hq⟩ : (s.live h = false ∧ F.home h = none) ∧
          (q.all fun o => decide (0 < s.raw o)) = true := by
        simpa [Op.allowed] using hok
      exact hs.wrap hh hhome fun o ho => by simpa [Option.mem_def.mp ho] using hq
    | unwrap h => exact hs.unwrap hok
    | assignCopy h g =>
      obtain ⟨hh, -⟩ : s.live h = true ∧ s.live g = true := by simpa [Op.allowed] using hok
      exact hs.set hh fun _ => hs.alive_of_ptr
    | assignMove h g =>
      obtain ⟨hh, hg⟩ : s.live h = true ∧ s.live g = true := by simpa [Op.allowed] using hok
      exact hs.assignMove hh hg ha
    | set h q =>
      obtain ⟨hh, hq⟩ : s.live h = true ∧ q.all s.alive = true := by simpa [Op.allowed] using hok
      exact hs.set hh fun o ho => by simpa [Option.mem_def.mp ho] using hq
    | clear h => exact hs.clear hok
    | destruct h =>
      obtain ⟨hh, hhome⟩ : s.live h = true ∧ F.home h = none := by simpa [Op.allowed] using hok
      exact hs.destruct hh hhome

theorem inv_init (F : Layout ι α) (hs : (machine F).init s) : Inv F s := by
  have hs' : s = ⟨fun _ => none, fun _ => false, fun _ => 0, [], false, fun _ => false,
    fun _ => 0, fun _ => 0⟩ := hs
  subst hs'
  have hheld : ∀ o, State.held (⟨fun _ => none, fun _ => false, fun _ => 0, [], false,
      fun _ => false, fun _ => 0, fun _ => 0⟩ : State ι α) o = 0 := fun o => by
    simp [State.held, one]
  exact ⟨fun o => by rw [hheld]; rfl, fun o => by rw [hheld]; simp [State.alive],
    fun _ => ⟨Nat.zero_le _, fun _ => rfl⟩, fun _ h => absurd rfl h, fun _ _ _ => rfl, rfl⟩

/-- The number of the steps of the release which may follow. -/
def State.work (s : State ι α) : ℕ := s.pending.length + ∑ h, (s.ptr h).elim 0 fun _ => 1

theorem work_delete (F : Layout ι α) (s : State ι α) (o : α) : (s.delete F o).work = s.work := by
  have hsum := sum_delete F s o fun _ => 1
  rw [List.map_const', List.sum_replicate, Nat.nsmul_eq_mul, Nat.mul_one] at hsum
  have hlength : (s.delete F o).pending.length =
      ((F.fields o).filterMap s.ptr).length + s.pending.length := List.length_append ..
  unfold State.work
  omega

theorem work_unref (F : Layout ι α) {l : List α} (hl : s.pending = o :: l) :
    (({ s with pending := l } : State ι α).unref F o).work + 1 = s.work := by
  have hrest : ∀ t : State ι α, t.pending = l → t.ptr = s.ptr → t.work + 1 = s.work := by
    intro t hp hptr
    simp only [State.work, hp, hptr, hl, List.length_cons]
    omega
  unfold State.unref
  dsimp only
  split
  · rw [work_delete]
    exact hrest _ rfl rfl
  · exact hrest _ rfl rfl

/-- The release ends. -/
theorem release_ends (F : Layout ι α) (s : State ι α) :
    ∃ n t, (machine F).run s (List.replicate n .release) = some t ∧ t.pending = [] := by
  obtain ⟨m, hm⟩ : ∃ m, s.work = m := ⟨_, rfl⟩
  induction m generalizing s with
  | zero =>
    refine ⟨0, s, rfl, List.eq_nil_of_length_eq_zero ?_⟩
    unfold State.work at hm
    omega
  | succ m ih =>
    cases hl : s.pending with
    | nil => exact ⟨0, s, rfl, hl⟩
    | cons o l =>
      obtain ⟨n, t, ht, hp⟩ := ih (({ s with pending := l } : State ι α).unref F o)
        (by have := work_unref F hl; omega)
      refine ⟨n + 1, t, (machine F).run_cons_eq_some.mpr ⟨_, ?_, ht⟩, hp⟩
      simp only [machine, SharedPtr.step, hl]

/-- **Reference accounting.** In every run without a move assignment between two handles of the same
object: the count of an object is the number of the references to it, of which no one is still to be
released once the stack is empty; it is destroyed when the last of them is released, and once; no
assertion fails and no destroyed object is accessed; and every release ends. -/
theorem apart_counts {F : Layout ι α} {s : State ι α} (h : (machine F).ReachableBy Apart s) :
    (∀ o, s.count o = (Finset.univ.filter fun h => s.ptr h = some o).card + s.raw o +
        s.pending.count o ∧
      (s.born o = true → (s.deaths o = 1 ↔ s.count o = 0)) ∧ s.deaths o ≤ 1) ∧
    s.failed = false ∧
    ∃ n t, (machine F).run s (List.replicate n .release) = some t ∧ t.pending = [] := by
  have hinv : Inv F s :=
    (machine F).invariant_by (fun s hs => inv_init F hs) (fun s a s' hs ha ht => hs.step ha ht) h
  refine ⟨fun o => ⟨?_, fun hborn => ?_, (hinv.deaths o).1⟩, hinv.failed, release_ends F s⟩
  · have hcard : (Finset.univ.filter fun h => s.ptr h = some o).card = ∑ h, one (s.ptr h) o := by
      rw [Finset.card_filter]
      rfl
    rw [hinv.count, State.held, hcard, Int.natCast_add, Int.natCast_add]
  · have halive := hinv.alive o
    have hdeaths := (hinv.deaths o).1
    rw [hinv.count]
    simp only [State.alive, hborn, Bool.true_and, decide_eq_true_eq] at halive
    omega

end Counting

/-- The last handle is a field of the first object: a list with one link. -/
def Layout.link : Layout (Fin 3) ℕ where
  home h := if h = 2 then some 0 else none
  fields o := if o = 0 then [2] else []
  nodup o := by split <;> simp
  mem_fields o h := by by_cases ho : o = 0 <;> simp [ho, eq_comm]

/-- The assignment `ref = Move(ref->myNext)`: the first object is destroyed. -/
theorem apart_counts_sample : ∃ s : State (Fin 3) ℕ, s.ptr 0 = some 1 ∧ s.deaths 0 = 1 ∧
    (s.count 1 = (Finset.univ.filter fun h => s.ptr h = some 1).card + s.raw 1 +
      s.pending.count 1) ∧ s.failed = false := by
  obtain ⟨s, hs, hptr⟩ : ∃ s, (machine Layout.link).runBy Apart
      ⟨fun _ => none, fun _ => false, fun _ => 0, [], false, fun _ => false, fun _ => 0,
        fun _ => 0⟩
      [.call (.create 0), .call (.wrap 0 (some 0)), .call (.create 1), .call (.wrap 1 (some 1)),
        .call (.assignMove 2 1), .call (.assignMove 0 2), .release] = some s ∧
      (s.ptr 0, s.deaths 0) = (some 1, 1) :=
    Option.map_eq_some_iff.mp (by decide +kernel)
  obtain ⟨hcount, hfailed, -⟩ := apart_counts (.of_runBy (.init rfl) hs)
  obtain ⟨hptr, hdeaths⟩ := Prod.mk.inj hptr
  exact ⟨s, hptr, hdeaths, (hcount 1).1, hfailed⟩

/-- A handle is move-assigned from another handle of the same object, and cleared: nothing refers to
the object any more, and nothing is to be released, but it is not destroyed. -/
theorem move_assign_leaks : ∃ s : State (Fin 3) ℕ, (machine Layout.link).Reachable s ∧
    (∀ h, s.ptr h = none) ∧ s.raw 1 = 0 ∧ s.pending = [] ∧ s.count 1 = 1 ∧ s.deaths 1 = 0 := by
  obtain ⟨s, hs, hend⟩ : ∃ s, (machine Layout.link).run
      ⟨fun _ => none, fun _ => false, fun _ => 0, [], false, fun _ => false, fun _ => 0,
        fun _ => 0⟩
      [.call (.create 1), .call (.wrap 0 (some 1)), .call (.constructCopy 1 0),
        .call (.assignMove 0 1), .call (.clear 0), .release] = some s ∧
      decide ((∀ h, s.ptr h = none) ∧ s.raw 1 = 0 ∧ s.pending = [] ∧ s.count 1 = 1 ∧
        s.deaths 1 = 0) = true :=
    Option.map_eq_some_iff.mp (by decide +kernel)
  exact ⟨s, .of_run (.init rfl) hs, of_decide_eq_true hend⟩

end SharedPtr

end Serverbox
