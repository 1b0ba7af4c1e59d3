import Mathlib.Algebra.GroupWithZero.Nat
import Mathlib.Data.List.Basic
import Mathlib.Data.List.TakeDrop
import Mathlib.Data.Nat.Notation

/-!
# Moving a vector array past the bytes already done

A vectorized read or write of the kernel may handle only a part of the bytes. `IOVecPropagate` then
moves the array past that part, in place: whole vectors are emptied and left behind, the one where
the part ends is cut. The next operation starts from the result, so a mistake here repeats or skips
bytes of a stream.

The loop looks at the current vector before it asserts that one is left. A result which is `none`
is a read past the array, or a failed assertion.

Source: `src/mg/box/IOVec.h`, `src/mg/box/IOVec.cpp`.

## Main definitions

* `IOVecPropagate.IOVec`, `IOVecPropagate.ioVecPropagate`.
* `IOVecPropagate.bytesOf`: the bytes which an array denotes in a memory.

## Main results

* `IOVecPropagate.ioVecPropagate_eq_some`: the call ends inside the array.
* `IOVecPropagate.ioVecPropagate_spec`: what the result denotes, and calls in a row.
-/

namespace Serverbox

namespace IOVecPropagate

/-- `IOVec`: an address and a number of bytes from it. -/
structure IOVec where
  data : ℕ
  size : ℕ
  deriving DecidableEq

/-- The null pointer. -/
def nullptr : ℕ := 0

/-- A vector which is left behind. -/
def IOVec.spent : IOVec := ⟨nullptr, 0⟩

/-- The total size of an array. -/
def total (vectors : List IOVec) : ℕ := (vectors.map IOVec.size).sum

/-- The bytes of a vector in a memory. -/
def IOVec.bytes (memory : ℕ → UInt8) (v : IOVec) : List UInt8 :=
  (List.range' v.data v.size).map memory

/-- The bytes of an array in a memory. -/
def bytesOf (memory : ℕ → UInt8) (vectors : List IOVec) : List UInt8 :=
  vectors.flatMap (IOVec.bytes memory)

/-- `IOVecPropagate`: the vectors left behind, the vectors from the cursor on, and the count. -/
def ioVecPropagate : List IOVec → ℕ → ℕ → Option (List IOVec × List IOVec × ℕ)
  | vectors, count, 0 => some ([], vectors, count)
  | [], _, _ + 1 => none
  | v :: vectors, count, byteOffset + 1 =>
    if byteOffset + 1 < v.size then
      some ([], ⟨v.data + (byteOffset + 1), v.size - (byteOffset + 1)⟩ :: vectors, count)
    else do
      guard (count > 0)
      let (passed, rest, count) ← ioVecPropagate vectors (count - 1) (byteOffset + 1 - v.size)
      some (IOVec.spent :: passed, rest, count)

@[simp] theorem total_nil : total [] = 0 := rfl

@[simp] theorem total_cons (v : IOVec) (vectors : List IOVec) :
    total (v :: vectors) = v.size + total vectors := by
  simp [total]

@[simp] theorem IOVec.length_bytes (memory : ℕ → UInt8) (v : IOVec) :
    (v.bytes memory).length = v.size := by
  simp [IOVec.bytes]

@[simp] theorem bytesOf_nil (memory : ℕ → UInt8) : bytesOf memory [] = [] := rfl

@[simp] theorem bytesOf_cons (memory : ℕ → UInt8) (v : IOVec) (vectors : List IOVec) :
    bytesOf memory (v :: vectors) = v.bytes memory ++ bytesOf memory vectors := by
  simp [bytesOf]

/-- The bytes of a vector which is cut. -/
theorem IOVec.bytes_cut (memory : ℕ → UInt8) (v : IOVec) (n : ℕ) :
    IOVec.bytes memory ⟨v.data + n, v.size - n⟩ = (v.bytes memory).drop n := by
  simp only [IOVec.bytes, ← List.map_drop]
  congr 1
  rw [List.drop_range']
  simp

section Steps

variable {v : IOVec} {vectors : List IOVec} {count n : ℕ}

@[simp] theorem ioVecPropagate_zero :
    ioVecPropagate vectors count 0 = some ([], vectors, count) := by
  cases vectors <;> rfl

theorem ioVecPropagate_cons : ioVecPropagate (v :: vectors) count (n + 1) =
    if n + 1 < v.size then some ([], ⟨v.data + (n + 1), v.size - (n + 1)⟩ :: vectors, count)
    else (guard (count > 0) : Option Unit).bind fun _ =>
      (ioVecPropagate vectors (count - 1) (n + 1 - v.size)).bind
        fun r => some (IOVec.spent :: r.1, r.2.1, r.2.2) := rfl

/-- The vector where the part ends is cut. -/
theorem ioVecPropagate_cut (hpos : 0 < n) (h : n < v.size) :
    ioVecPropagate (v :: vectors) count n =
      some ([], ⟨v.data + n, v.size - n⟩ :: vectors, count) := by
  obtain ⟨n, rfl⟩ := Nat.exists_eq_succ_of_ne_zero (Nat.ne_of_gt hpos)
  rw [ioVecPropagate_cons, if_pos h]

/-- A vector which lies in the part is left behind. -/
theorem ioVecPropagate_pass (hpos : 0 < n) (h : v.size ≤ n) (hcount : 0 < count) :
    ioVecPropagate (v :: vectors) count n =
      (ioVecPropagate vectors (count - 1) (n - v.size)).map
        fun r => (IOVec.spent :: r.1, r.2.1, r.2.2) := by
  obtain ⟨n, rfl⟩ := Nat.exists_eq_succ_of_ne_zero (Nat.ne_of_gt hpos)
  rw [ioVecPropagate_cons, if_neg (by omega), guard, if_pos hcount, Option.map_eq_bind]
  rfl

end Steps

/-- The result of a call on a whole array with enough bytes. -/
structure Moved (vectors : List IOVec) (n : ℕ) (passed rest : List IOVec) : Prop where
  length : passed.length + rest.length = vectors.length
  passed : ∀ v ∈ passed, v = IOVec.spent
  bytes : ∀ memory, bytesOf memory rest = (bytesOf memory vectors).drop n
  total : total rest + n = total vectors

/-- The call ends inside the array. -/
theorem ioVecPropagate_eq_some (vectors : List IOVec) (n : ℕ) (hn : n ≤ total vectors) :
    ∃ passed rest, ioVecPropagate vectors vectors.length n = some (passed, rest, rest.length) ∧
      Moved vectors n passed rest := by
  induction vectors generalizing n with
  | nil =>
    obtain rfl : n = 0 := by simpa using hn
    exact ⟨[], [], by simp, by simp, by simp, by simp, by simp⟩
  | cons v vectors ih =>
    rcases Nat.eq_zero_or_pos n with rfl | hpos
    · exact ⟨[], v :: vectors, by simp, by simp, by simp, by simp, by simp⟩
    by_cases h : n < v.size
    · refine ⟨[], ⟨v.data + n, v.size - n⟩ :: vectors, ioVecPropagate_cut hpos h, by simp, by simp,
        fun memory => ?_, by simp; omega⟩
      rw [bytesOf_cons, bytesOf_cons, IOVec.bytes_cut, List.drop_append_of_le_length]
      rw [IOVec.length_bytes]
      exact Nat.le_of_lt h
    · rw [total_cons] at hn
      obtain ⟨passed, rest, hcall, hmoved⟩ := ih (n - v.size) (by omega)
      refine ⟨IOVec.spent :: passed, rest, ?_, ?_, ?_, fun memory => ?_, ?_⟩
      · rw [ioVecPropagate_pass hpos (by omega) (by simp), List.length_cons, Nat.add_sub_cancel,
          hcall]
        rfl
      · have := hmoved.length
        simp only [List.length_cons]
        omega
      · exact List.forall_mem_cons.2 ⟨rfl, hmoved.passed⟩
      · have hgone : (v.bytes memory).drop n = [] :=
          List.drop_of_length_le (by rw [IOVec.length_bytes]; omega)
        rw [hmoved.bytes, bytesOf_cons, List.drop_append, hgone, List.nil_append,
          IOVec.length_bytes]
      · have := hmoved.total
        rw [total_cons]
        omega

/-- A second call goes on where the first one has ended, and leaves the same array. -/
theorem ioVecPropagate_add (vectors : List IOVec) (a b : ℕ) (hab : a + b ≤ total vectors) :
    ioVecPropagate vectors vectors.length (a + b) =
      (do
        let (passed, rest, count) ← ioVecPropagate vectors vectors.length a
        let (passed', rest, count) ← ioVecPropagate rest count b
        some (passed ++ passed', rest, count)) := by
  induction vectors generalizing a b with
  | nil =>
    obtain ⟨rfl, rfl⟩ : a = 0 ∧ b = 0 := by simpa using hab
    rfl
  | cons v vectors ih =>
    rcases Nat.eq_zero_or_pos a with rfl | ha
    · simp only [Nat.zero_add, ioVecPropagate_zero, Option.bind_eq_bind, Option.bind_some,
        List.nil_append]
      cases ioVecPropagate (v :: vectors) (v :: vectors).length b <;> rfl
    rcases Nat.eq_zero_or_pos b with rfl | hb
    · simp only [Nat.add_zero, ioVecPropagate_zero, Option.bind_eq_bind, Option.bind_some,
        List.append_nil]
      cases ioVecPropagate (v :: vectors) (v :: vectors).length a <;> rfl
    by_cases h : a < v.size
    · -- The first call cuts the vector, the second one finds the cut vector.
      rw [ioVecPropagate_cut ha h, Option.bind_eq_bind, Option.bind_some]
      dsimp only
      by_cases h' : b < v.size - a
      · rw [ioVecPropagate_cut (by omega) (by omega), ioVecPropagate_cut hb h']
        simp [Nat.add_assoc, Nat.sub_sub]
      · rw [ioVecPropagate_pass (by omega) (by omega) (by simp),
          ioVecPropagate_pass hb (by simpa using h') (by simp)]
        have hoffset : a + b - v.size = b - (v.size - a) := by omega
        rw [hoffset]
        cases ioVecPropagate vectors ((v :: vectors).length - 1) (b - (v.size - a)) <;> rfl
    · rw [total_cons] at hab
      rw [ioVecPropagate_pass (by omega) (by omega) (by simp),
        ioVecPropagate_pass ha (by omega) (by simp)]
      have hoffset : a + b - v.size = a - v.size + b := by omega
      rw [hoffset, List.length_cons, Nat.add_sub_cancel, ih _ _ (by omega)]
      cases ioVecPropagate vectors vectors.length (a - v.size) with
      | none => rfl
      | some first =>
        obtain ⟨passed, rest, count⟩ := first
        simp only [Option.bind_eq_bind, Option.bind_some, Option.map_some]
        cases ioVecPropagate rest count b <;> rfl

/-- For every array and every offset not above its total size the call ends inside the array, its
result denotes the bytes past the offset, and two calls leave what one call with the sum of the
offsets leaves. -/
theorem ioVecPropagate_spec (vectors : List IOVec) (a : ℕ) (ha : a ≤ total vectors) :
    ∃ passed rest, ioVecPropagate vectors vectors.length a = some (passed, rest, rest.length) ∧
      Moved vectors a passed rest ∧
      ∀ b, a + b ≤ total vectors → ∃ passed' rest',
        ioVecPropagate rest rest.length b = some (passed', rest', rest'.length) ∧
        ioVecPropagate vectors vectors.length (a + b) =
          some (passed ++ passed', rest', rest'.length) := by
  obtain ⟨passed, rest, hcall, hmoved⟩ := ioVecPropagate_eq_some vectors a ha
  refine ⟨passed, rest, hcall, hmoved, fun b hab => ?_⟩
  have htotal := hmoved.total
  obtain ⟨passed', rest', hcall', -⟩ := ioVecPropagate_eq_some rest b (by omega)
  refine ⟨passed', rest', hcall', ?_⟩
  rw [ioVecPropagate_add vectors a b hab, hcall]
  simp only [Option.bind_eq_bind, Option.bind_some, hcall']

/-- Four vectors, two of them empty: the first part ends at a boundary, the second inside. -/
theorem ioVecPropagate_spec_four :
    let vectors : List IOVec := [⟨10, 2⟩, ⟨20, 0⟩, ⟨30, 3⟩, ⟨40, 0⟩]
    2 ≤ total vectors ∧
      ∃ passed rest, ioVecPropagate vectors vectors.length 2 = some (passed, rest, rest.length) ∧
        Moved vectors 2 passed rest ∧
        ∀ b, 2 + b ≤ total vectors → ∃ passed' rest',
          ioVecPropagate rest rest.length b = some (passed', rest', rest'.length) ∧
          ioVecPropagate vectors vectors.length (2 + b) =
            some (passed ++ passed', rest', rest'.length) :=
  ⟨by decide, ioVecPropagate_spec _ 2 (by decide)⟩

example : ioVecPropagate [⟨10, 2⟩, ⟨20, 0⟩, ⟨30, 3⟩, ⟨40, 0⟩] 4 3 =
    some ([IOVec.spent, IOVec.spent], [⟨31, 2⟩, ⟨40, 0⟩], 2) := by decide

end IOVecPropagate

end Serverbox
