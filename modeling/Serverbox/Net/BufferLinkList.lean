import Mathlib.Data.List.FinRange
import Serverbox.Lib.Chain
import Serverbox.Lib.Machine

/-!
# Lists of shared buffers

`mg::net::BufferLinkList` is a list of links, each of which refers to a chain of buffers. A chain
can be referred to by many links of many lists, so a list only moves its heads along the chains, and
remembers the number of bytes of its first buffer which are skipped.

The buffers stand in a heap. Their bytes are never written by the lists, and their chains are
finite: each buffer has a rank, and the next one has a lower rank. A buffer which is made later
stands in the heap from the start. The loops over a chain take a number of turns, which is its
length.

Source: `src/mg/net/Buffer.h`, `src/mg/net/Buffer.cpp`.

## Main definitions

* `BufferLinkList.Heap`: the buffers.
* `BufferLinkList.Heap.skipEmptyPrefix`, `BufferLinkList.Heap.skipData`,
  `BufferLinkList.Heap.buffersToIOVecsForWrite`.
* `BufferLinkList.Heap.Private`: the buffers which are dropped are of no one else, or the last ones.

## Main results

* `BufferLinkList.Heap.skipEmptyPrefix_spec`, `BufferLinkList.Heap.skipData_spec`,
  `BufferLinkList.Heap.vectors_spec`: what the functions do with the bytes.
-/

namespace Serverbox

namespace BufferLinkList

variable {B : Type*}

/-- The buffers. -/
structure Heap (B : Type*) where
  bytes : B → List UInt8
  next : B → Option B
  rank : B → ℕ
  lt : ∀ b c, next b = some c → rank c < rank b

namespace Heap

/-- The buffers from `p` on, of which there are at most as many as the number. -/
def walk (s : Heap B) : ℕ → Option B → List B
  | _, none => []
  | 0, some _ => []
  | n + 1, some b => b :: s.walk n (s.next b)

/-- The chain from `p` on. -/
def chain (s : Heap B) (p : Option B) : List B := s.walk (p.elim 0 fun b => s.rank b + 1) p

/-- The bytes of the links. -/
def content (s : Heap B) (links : List (Option B)) : List UInt8 :=
  (links.flatMap s.chain).flatMap s.bytes

/-- The first link has a byte behind the offset: the fast path of `SkipEmptyPrefix`. -/
def ready (s : Heap B) (p : Option B) (offset : ℕ) : Bool :=
  p.any fun b => offset < (s.bytes b).length

/-- The inner loop of `SkipData`: the buffer with the first byte which is not skipped, and the
number of bytes which are still to be skipped. -/
def seek (s : Heap B) : ℕ → Option B → ℕ → Option B × ℕ
  | _, none, count => (none, count)
  | 0, some _, count => (none, count)
  | n + 1, some b, count =>
    if count < (s.bytes b).length then (some b, count)
    else s.seek n (s.next b) (count - (s.bytes b).length)

/-- The loop of `SkipData`. It has no result when a link is missing. -/
def skipLinks (s : Heap B) : List (Option B) → ℕ → Option (List (Option B) × ℕ)
  | links, 0 => some (links, 0)
  | [], _ + 1 => none
  | p :: links, count + 1 =>
    match s.seek (s.chain p).length p (count + 1) with
    | (some b, count) => some (some b :: links, count)
    | (none, count) => s.skipLinks links count

/-- `SkipData`: the links and the offset after it. -/
def skipData (s : Heap B) (links : List (Option B)) (offset count : ℕ) :
    Option (List (Option B) × ℕ) :=
  s.skipLinks links (count + offset)

variable [DecidableEq B]

/-- The next link of a buffer is taken away. -/
def unlink (s : Heap B) (b : B) : Heap B where
  bytes := s.bytes
  next := Function.update s.next b none
  rank := s.rank
  lt c d h := by
    by_cases hc : c = b
    · rw [hc, Function.update_self] at h
      cases h
    · rw [Function.update_of_ne hc] at h
      exact s.lt c d h

/-- What a loop of `SkipEmptyPrefix` leaves: the buffers, the heads, the offset, and whether the
assertion held. -/
structure Skipped (B H : Type*) where
  heap : Heap B
  head : H
  offset : ℕ
  ok : Bool

/-- The inner loop of `SkipEmptyPrefix`, which takes the next links away from the buffers. -/
def dropHead (s : Heap B) : ℕ → Option B → ℕ → Skipped B (Option B)
  | _, none, offset => ⟨s, none, offset, true⟩
  | 0, some b, offset => ⟨s, some b, offset, true⟩
  | n + 1, some b, offset =>
    if s.bytes b ≠ [] then
      if offset < (s.bytes b).length then ⟨s, some b, offset, true⟩
      else
        let r := (s.unlink b).dropHead n (s.next b) 0
        { r with ok := r.ok && offset = (s.bytes b).length }
    else (s.unlink b).dropHead n (s.next b) offset

/-- The loop of `SkipEmptyPrefix`. -/
def dropLinks (s : Heap B) : List (Option B) → ℕ → Skipped B (List (Option B))
  | [], offset => ⟨s, [], offset, true⟩
  | p :: links, offset =>
    let r := s.dropHead (s.chain p).length p offset
    match r.head with
    | some b => ⟨r.heap, some b :: links, r.offset, r.ok⟩
    | none =>
      let r' := r.heap.dropLinks links r.offset
      { r' with ok := r.ok && r'.ok }

/-- `SkipEmptyPrefix`. -/
def skipEmptyPrefix (s : Heap B) (links : List (Option B)) (offset : ℕ) :
    Skipped B (List (Option B)) :=
  match links with
  | [] => ⟨s, [], offset, offset = 0⟩
  | p :: links => if s.ready p offset then ⟨s, p :: links, offset, true⟩
    else s.dropLinks (p :: links) offset

/-- The vectors of a chain, for which there is some room, the offset behind them, and whether the
assertion held. -/
def vectors (s : Heap B) : List B → ℕ → ℕ → List (List UInt8) × ℕ × Bool
  | [], offset, _ => ([], offset, true)
  | _ :: _, offset, 0 => ([], offset, true)
  | b :: l, offset, n + 1 =>
    if s.bytes b = [] then s.vectors l offset (n + 1)
    else
      let r := s.vectors l 0 n
      ((s.bytes b).drop offset :: r.1, r.2.1, r.2.2 && offset < (s.bytes b).length)

/-- `BuffersToIOVecsForWrite`: the vectors, and whether the assertions held. -/
def buffersToIOVecsForWrite (s : Heap B) : List (Option B) → ℕ → ℕ → List (List UInt8) × Bool
  | [], _, _ => ([], true)
  | p :: links, offset, n =>
    let r := s.vectors (s.chain p) offset n
    if r.1.length = n then (r.1, r.2.2)
    else
      let r' := s.buffersToIOVecsForWrite links r.2.1 (n - r.1.length)
      (r.1 ++ r'.1, r.2.2 && r'.2)

/-- The buffers at the beginning of a chain which hold no byte behind the offset. -/
def consumed (bytes : B → List UInt8) : List B → ℕ → List B
  | [], _ => []
  | b :: l, offset =>
    if bytes b = [] then b :: consumed bytes l offset
    else if offset < (bytes b).length then [] else b :: consumed bytes l 0

/-- The offset behind a chain whose buffers are all dropped. -/
def carry (bytes : B → List UInt8) (l : List B) (offset : ℕ) : ℕ :=
  if l.flatMap bytes = [] then offset else 0

/-- The buffers which `SkipEmptyPrefix` drops have no next one, or no later link and none of the
others reaches them. -/
def Private (s : Heap B) (others : List (Option B)) : List (Option B) → ℕ → Prop
  | [], _ => True
  | p :: links, offset =>
    (∀ b ∈ consumed s.bytes (s.chain p) offset,
      s.next b = none ∨ ∀ q ∈ links ++ others, b ∉ s.chain q) ∧
      (consumed s.bytes (s.chain p) offset = s.chain p →
        s.Private others links (carry s.bytes (s.chain p) offset))

/-- The offset is in the first buffer with bytes, or at its end. -/
def Fits (bytes : B → List UInt8) : List B → ℕ → Prop
  | [], offset => offset = 0
  | b :: l, offset => if bytes b = [] then Fits bytes l offset else offset ≤ (bytes b).length

/-- The offset is in the first buffer with bytes, or 0. -/
def Below (bytes : B → List UInt8) : List B → ℕ → Prop
  | [], offset => offset = 0
  | b :: l, offset => if bytes b = [] then Below bytes l offset else offset < (bytes b).length

instance (s : Heap B) (others : List (Option B)) :
    (links : List (Option B)) → (offset : ℕ) → Decidable (s.Private others links offset)
  | [], _ => .isTrue trivial
  | p :: links, offset =>
    have := instDecidablePrivate s others links (carry s.bytes (s.chain p) offset)
    inferInstanceAs (Decidable ((∀ b ∈ consumed s.bytes (s.chain p) offset,
      s.next b = none ∨ ∀ q ∈ links ++ others, b ∉ s.chain q) ∧ _))

instance (bytes : B → List UInt8) :
    (l : List B) → (offset : ℕ) → Decidable (Fits bytes l offset)
  | [], offset => inferInstanceAs (Decidable (offset = 0))
  | b :: l, offset =>
    have := instDecidableFits bytes l offset
    inferInstanceAs (Decidable (if bytes b = [] then _ else offset ≤ (bytes b).length))

section Chains

variable {s : Heap B} {b : B} {p : Option B} {l : List B} {links : List (Option B)}
  {offset m n : ℕ}

omit [DecidableEq B] in
theorem chain_walk (hn : p.elim 0 (fun b => s.rank b + 1) ≤ n) : Chain s.next p (s.walk n p) := by
  induction n generalizing p with
  | zero =>
    cases p with
    | none => rfl
    | some b => exact absurd hn (Nat.not_succ_le_zero _)
  | succ n ih =>
    cases p with
    | none => rfl
    | some b =>
      refine ⟨rfl, ih ?_⟩
      cases hb : s.next b with
      | none => exact Nat.zero_le _
      | some c => exact (s.lt b c hb).trans_le (Nat.le_of_succ_le_succ hn)

omit [DecidableEq B] in
theorem chain_chain (s : Heap B) (p : Option B) : Chain s.next p (s.chain p) := chain_walk le_rfl

omit [DecidableEq B] in
theorem chain_eq (h : Chain s.next p l) : s.chain p = l := (s.chain_chain p).unique h

omit [DecidableEq B] in
@[simp] theorem chain_none (s : Heap B) : s.chain none = [] := rfl

omit [DecidableEq B] in
theorem chain_some (s : Heap B) (b : B) : s.chain (some b) = b :: s.chain (s.next b) :=
  chain_eq ⟨rfl, s.chain_chain _⟩

omit [DecidableEq B] in
theorem rank_lt (hb : b ∈ s.chain p) : s.rank b < p.elim 0 fun c => s.rank c + 1 := by
  have hchain := s.chain_chain p
  revert hb hchain
  generalize s.chain p = l
  intro hb hchain
  induction l generalizing p with
  | nil => cases hb
  | cons c l ih =>
    obtain ⟨rfl, hl⟩ := hchain
    rcases List.mem_cons.mp hb with rfl | hb
    · exact Nat.lt_succ_self _
    · refine (ih hb hl).trans_le ?_
      cases hc : s.next c with
      | none => exact Nat.zero_le _
      | some d => exact Nat.le_succ_of_le (s.lt c d hc)

omit [DecidableEq B] in
theorem not_mem_next (s : Heap B) (b : B) : b ∉ s.chain (s.next b) := by
  intro hb
  have hlt := rank_lt hb
  cases hn : s.next b with
  | none =>
    rw [hn] at hlt
    exact absurd hlt (Nat.not_lt_zero _)
  | some c =>
    rw [hn] at hlt
    exact absurd (s.lt b c hn) (Nat.not_lt.mpr (Nat.le_of_lt_succ hlt))

/-- The chains which do not reach the buffer stay, and so do all when it is the last one. -/
theorem chain_unlink (h : s.next b = none ∨ b ∉ s.chain p) : (s.unlink b).chain p = s.chain p := by
  refine chain_eq ?_
  rcases h with h | h
  · have hsame : (s.unlink b).next = s.next := by
      show Function.update s.next b none = s.next
      rw [← h, Function.update_eq_self]
    rw [hsame]
    exact s.chain_chain p
  · exact (s.chain_chain p).update h

/-- The inner loop drops the buffers which hold no byte behind the offset. -/
theorem dropHead_spec (hn : (s.chain p).length ≤ n) (rest : List B)
    (hfit : Fits s.bytes (s.chain p ++ rest) offset) :
    ∃ r, s.dropHead n p offset = r ∧ r.heap.bytes = s.bytes ∧ r.ok = true ∧
      (∀ b, s.next b = none → r.heap.next b = none) ∧
      (∀ q, (∀ b ∈ consumed s.bytes (s.chain p) offset, s.next b = none ∨ b ∉ s.chain q) →
        r.heap.chain q = s.chain q) ∧
      Fits s.bytes (r.heap.chain r.head ++ rest) r.offset ∧
      ((r.heap.chain r.head ++ rest).flatMap s.bytes).drop r.offset =
        ((s.chain p ++ rest).flatMap s.bytes).drop offset ∧
      (r.head = none → consumed s.bytes (s.chain p) offset = s.chain p ∧
        r.offset = carry s.bytes (s.chain p) offset) ∧
      ∀ b, r.head = some b → r.offset < (s.bytes b).length := by
  induction n generalizing s p offset with
  | zero =>
    cases p with
    | none => exact ⟨_, rfl, rfl, rfl, fun _ h => h, fun _ _ => rfl, hfit, rfl,
        fun _ => ⟨rfl, rfl⟩, nofun⟩
    | some b =>
      rw [chain_some] at hn
      exact absurd hn (Nat.not_succ_le_zero _)
  | succ n ih =>
    cases p with
    | none => exact ⟨_, rfl, rfl, rfl, fun _ h => h, fun _ _ => rfl, hfit, rfl,
        fun _ => ⟨rfl, rfl⟩, nofun⟩
    | some b =>
      have hnext : (s.unlink b).chain (s.next b) = s.chain (s.next b) :=
        chain_unlink (.inr (s.not_mem_next b))
      have hn' : ((s.unlink b).chain (s.next b)).length ≤ n := by
        rw [chain_some] at hn
        rw [hnext]
        exact Nat.le_of_succ_le_succ hn
      have hnone : ∀ c, s.next c = none → (s.unlink b).next c = none := fun c hc => by
        show Function.update s.next b none c = none
        by_cases hcb : c = b
        · rw [hcb, Function.update_self]
        · rw [Function.update_of_ne hcb, hc]
      -- the chains which are kept by the rest of the loop are kept by the whole of it
      have hkeep : ∀ off r, (∀ q, (∀ c ∈ consumed s.bytes ((s.unlink b).chain (s.next b)) off,
          (s.unlink b).next c = none ∨ c ∉ (s.unlink b).chain q) →
            r.heap.chain q = (s.unlink b).chain q) →
          ∀ q, (∀ c ∈ b :: consumed s.bytes (s.chain (s.next b)) off,
            s.next c = none ∨ c ∉ s.chain q) →
          (r : Skipped B (Option B)).heap.chain q = s.chain q := by
        intro off r hr q hq
        have hb := chain_unlink (hq b List.mem_cons_self)
        rw [hr q, hb]
        intro c hc
        rw [hnext] at hc
        rw [hb]
        exact (hq c (List.mem_cons_of_mem _ hc)).imp (hnone c) id
      rw [chain_some] at hfit ⊢
      rw [dropHead]
      by_cases hempty : s.bytes b = []
      · rw [if_neg (not_not.mpr hempty)]
        have hfit' : Fits (s.unlink b).bytes ((s.unlink b).chain (s.next b) ++ rest) offset := by
          rw [List.cons_append, Fits, if_pos hempty] at hfit
          rw [hnext]
          exact hfit
        obtain ⟨r, hr, hbytes, hok, hz, hchain, hfit'', hdrop, hend, hhead⟩ := ih hn' hfit'
        have hcons : consumed s.bytes (b :: s.chain (s.next b)) offset =
            b :: consumed s.bytes (s.chain (s.next b)) offset := by rw [consumed, if_pos hempty]
        refine ⟨r, hr, hbytes, hok, fun c hc => hz c (hnone c hc), fun q hq => ?_, hfit'', ?_,
          fun hh => ?_, hhead⟩
        · exact hkeep offset r hchain q (hcons ▸ hq)
        · rw [hnext] at hdrop
          rw [List.cons_append, List.flatMap_cons, hempty, List.nil_append]
          exact hdrop
        · obtain ⟨hall, hoff⟩ := hend hh
          rw [hnext] at hall hoff
          refine ⟨hcons.trans (congrArg _ hall), hoff.trans ?_⟩
          show carry s.bytes _ _ = carry s.bytes _ _
          rw [carry, carry, List.flatMap_cons, hempty, List.nil_append]
      · rw [if_pos hempty]
        rw [List.cons_append, Fits, if_neg hempty] at hfit
        by_cases hlt : offset < (s.bytes b).length
        · rw [if_pos hlt]
          refine ⟨_, rfl, rfl, rfl, fun _ h => h, fun _ _ => rfl, ?_, ?_, nofun, fun c hc => ?_⟩
          · dsimp only
            rw [chain_some, List.cons_append, Fits, if_neg hempty]
            exact hfit
          · dsimp only
            rw [chain_some]
          · obtain rfl := Option.some.inj hc
            exact hlt
        · rw [if_neg hlt]
          have hoffset : offset = (s.bytes b).length := Nat.le_antisymm hfit (Nat.not_lt.mp hlt)
          have hfit' : Fits (s.unlink b).bytes ((s.unlink b).chain (s.next b) ++ rest) 0 := by
            generalize (s.unlink b).chain (s.next b) ++ rest = l
            induction l with
            | nil => rfl
            | cons c l ih =>
              rw [Fits]
              split
              · exact ih
              · exact Nat.zero_le _
          obtain ⟨r, hr, hbytes, hok, hz, hchain, hfit'', hdrop, hend, hhead⟩ := ih hn' hfit'
          have hcons : consumed s.bytes (b :: s.chain (s.next b)) offset =
              b :: consumed s.bytes (s.chain (s.next b)) 0 := by
            rw [consumed, if_neg hempty, if_neg hlt]
          refine ⟨{ r with ok := r.ok && offset = (s.bytes b).length }, by rw [hr], hbytes, ?_,
            fun c hc => hz c (hnone c hc), fun q hq => ?_, hfit'', ?_, fun hh => ?_, hhead⟩
          · simp [hok, hoffset]
          · exact hkeep 0 r hchain q (hcons ▸ hq)
          · rw [hnext] at hdrop
            rw [List.cons_append, List.flatMap_cons, hoffset, List.drop_left]
            exact hdrop
          · obtain ⟨hall, hoff⟩ := hend hh
            rw [hnext] at hall hoff
            refine ⟨hcons.trans (congrArg _ hall), hoff.trans ?_⟩
            have hne : s.bytes b ++ (s.chain (s.next b)).flatMap s.bytes ≠ [] := fun h =>
              hempty (List.append_eq_nil_iff.mp h).1
            show carry s.bytes _ _ = carry s.bytes _ _
            rw [carry, carry, List.flatMap_cons, if_neg hne, ite_self]

omit [DecidableEq B] in
theorem flatMap_chain {t : Heap B} (h : ∀ q ∈ links, t.chain q = s.chain q) :
    links.flatMap t.chain = links.flatMap s.chain := by
  induction links with
  | nil => rfl
  | cons p links ih =>
    rw [List.flatMap_cons, List.flatMap_cons, h p List.mem_cons_self,
      ih fun q hq => h q (List.mem_cons_of_mem _ hq)]

omit [DecidableEq B] in
/-- The buffers may be changed where no one looks. -/
theorem Private.congr {t : Heap B} {others : List (Option B)} (h : s.Private others links offset)
    (hbytes : t.bytes = s.bytes) (hnone : ∀ b, s.next b = none → t.next b = none)
    (hchain : ∀ q ∈ links ++ others, t.chain q = s.chain q) : t.Private others links offset := by
  induction links generalizing offset with
  | nil => trivial
  | cons p links ih =>
    have hp := hchain p (List.mem_append_left _ List.mem_cons_self)
    have hrest : ∀ q ∈ links ++ others, t.chain q = s.chain q := fun q hq =>
      hchain q (List.mem_cons_of_mem p hq)
    obtain ⟨hdrop, hmore⟩ := h
    rw [Private, hbytes, hp]
    refine ⟨fun b hb => (hdrop b hb).imp (hnone b) fun hq q hm => ?_, fun hall => ?_⟩
    · rw [hrest q hm]
      exact hq q hm
    · exact ih (hmore hall) hrest

omit [DecidableEq B] in
/-- The first link has a byte behind the offset. -/
theorem below_head {bytes : B → List UInt8} (s : Heap B) (links : List (Option B))
    (hlt : offset < (bytes b).length) :
    Below bytes ((some b :: links).flatMap s.chain) offset := by
  have hne : bytes b ≠ [] := fun he => by
    rw [he] at hlt
    exact absurd hlt (Nat.not_lt_zero _)
  rw [List.flatMap_cons, chain_some, List.cons_append, Below, if_neg hne]
  exact hlt

theorem dropLinks_spec {others : List (Option B)} (hpriv : s.Private others links offset)
    (hfit : Fits s.bytes (links.flatMap s.chain) offset) :
    ∃ r, s.dropLinks links offset = r ∧ r.heap.bytes = s.bytes ∧ r.ok = true ∧
      (∀ q ∈ others, r.heap.chain q = s.chain q) ∧
      (r.heap.content r.head).drop r.offset = (s.content links).drop offset ∧
      Below s.bytes (r.head.flatMap r.heap.chain) r.offset := by
  induction links generalizing s offset with
  | nil => exact ⟨_, rfl, rfl, rfl, fun _ _ => rfl, rfl, hfit⟩
  | cons p links ih =>
    obtain ⟨hdrop, hmore⟩ := hpriv
    rw [List.flatMap_cons] at hfit
    obtain ⟨r, hr, hbytes, hok, hz, hchain, hfit', hcontent, hend, hhead⟩ :=
      dropHead_spec le_rfl _ hfit
    have hkept : ∀ q ∈ links ++ others, r.heap.chain q = s.chain q := fun q hq =>
      hchain q fun b hb => (hdrop b hb).imp id fun h => h q hq
    have hlinks : links.flatMap r.heap.chain = links.flatMap s.chain :=
      flatMap_chain fun q hq => hkept q (List.mem_append_left _ hq)
    rw [dropLinks, hr]
    cases hh : r.head with
    | some b =>
      refine ⟨_, rfl, hbytes, hok, fun q hq => hkept q (List.mem_append_right _ hq), ?_,
        below_head r.heap links (hhead b hh)⟩
      simp only [content, List.flatMap_cons, hbytes, hlinks]
      rw [← hh]
      exact hcontent
    | none =>
      obtain ⟨hall, hoff⟩ := hend hh
      have hfit'' : Fits r.heap.bytes (links.flatMap r.heap.chain) r.offset := by
        rw [hh, chain_none, List.nil_append] at hfit'
        rw [hbytes, hlinks]
        exact hfit'
      obtain ⟨r', hr', hbytes', hok', hchain', hcontent', hbelow⟩ :=
        ih ((hoff ▸ hmore hall).congr hbytes hz hkept) hfit''
      refine ⟨{ r' with ok := r.ok && r'.ok }, by simp only [hr'], hbytes'.trans hbytes,
        by simp [hok, hok'], fun q hq => ?_, ?_, hbytes ▸ hbelow⟩
      · exact (hchain' q hq).trans (hkept q (List.mem_append_right _ hq))
      · refine hcontent'.trans ?_
        rw [hh, chain_none, List.nil_append] at hcontent
        simp only [content, List.flatMap_cons, hbytes, hlinks]
        exact hcontent

/-- `SkipEmptyPrefix` leaves the bytes behind the offset, and the chains of the others. -/
theorem skipEmptyPrefix_spec {others : List (Option B)} (hpriv : s.Private others links offset)
    (hfit : Fits s.bytes (links.flatMap s.chain) offset) :
    ∃ r, s.skipEmptyPrefix links offset = r ∧ r.heap.bytes = s.bytes ∧ r.ok = true ∧
      (∀ q ∈ others, r.heap.chain q = s.chain q) ∧
      (r.heap.content r.head).drop r.offset = (s.content links).drop offset ∧
      Below s.bytes (r.head.flatMap r.heap.chain) r.offset := by
  cases links with
  | nil =>
    have hzero : offset = 0 := hfit
    exact ⟨_, rfl, rfl, decide_eq_true hzero, fun _ _ => rfl, rfl, hfit⟩
  | cons p links =>
    rw [skipEmptyPrefix]
    cases hr : s.ready p offset with
    | false =>
      simp only [Bool.false_eq_true, if_false]
      exact dropLinks_spec hpriv hfit
    | true =>
      refine ⟨_, rfl, rfl, rfl, fun _ _ => rfl, rfl, ?_⟩
      cases p with
      | none => cases hr
      | some b =>
        exact below_head s links (of_decide_eq_true hr)

omit [DecidableEq B] in
theorem below_zero (bytes : B → List UInt8) (l : List B) : Below bytes l 0 := by
  induction l with
  | nil => rfl
  | cons b l ih =>
    rw [Below]
    split
    · exact ih
    · rename_i hne
      exact List.length_pos_iff.mpr hne

omit [DecidableEq B] in
theorem Below.fits {bytes : B → List UInt8} (h : Below bytes l offset) : Fits bytes l offset := by
  induction l with
  | nil => exact h
  | cons b l ih =>
    rw [Below] at h
    rw [Fits]
    split at h
    · rename_i he
      rw [if_pos he]
      exact ih h
    · rename_i he
      rw [if_neg he]
      exact h.le

omit [DecidableEq B] in
/-- A list whose offset is within its first bytes may be appended to. -/
theorem Below.append {bytes : B → List UInt8} (h : Below bytes l offset) (r : List B) :
    Below bytes (l ++ r) offset := by
  induction l with
  | nil =>
    obtain rfl : offset = 0 := h
    exact below_zero bytes r
  | cons b l ih =>
    rw [Below] at h
    rw [List.cons_append, Below]
    split at h
    · rename_i he
      rw [if_pos he]
      exact ih h
    · rename_i he
      rw [if_neg he]
      exact h

omit [DecidableEq B] in
/-- The inner loop of `SkipData` skips buffers, and ends in a buffer with a byte or at the end. -/
theorem seek_spec (hn : (s.chain p).length ≤ n) (R : List UInt8) :
    ∃ q c, s.seek n p m = (q, c) ∧
      ((s.chain q).flatMap s.bytes ++ R).drop c = ((s.chain p).flatMap s.bytes ++ R).drop m ∧
      (∀ b, q = some b → c < (s.bytes b).length) ∧
      (q = none → m = c + ((s.chain p).flatMap s.bytes).length ∨
        m < ((s.chain p).flatMap s.bytes).length) ∧
      (m < ((s.chain p).flatMap s.bytes).length → q ≠ none) := by
  induction n generalizing p m with
  | zero =>
    cases p with
    | none =>
      exact ⟨none, m, rfl, rfl, nofun, fun _ => .inl rfl, fun h => absurd h (Nat.not_lt_zero _)⟩
    | some b =>
      rw [chain_some] at hn
      exact absurd hn (Nat.not_succ_le_zero _)
  | succ n ih =>
    cases p with
    | none =>
      exact ⟨none, m, rfl, rfl, nofun, fun _ => .inl rfl, fun h => absurd h (Nat.not_lt_zero _)⟩
    | some b =>
      rw [chain_some] at hn ⊢
      rw [seek]
      by_cases hlt : m < (s.bytes b).length
      · rw [if_pos hlt]
        refine ⟨some b, m, rfl, by rw [chain_some], fun c hc => ?_, nofun, fun _ => nofun⟩
        obtain rfl := Option.some.inj hc
        exact hlt
      · rw [if_neg hlt]
        obtain ⟨q, c, hq, hdrop, hhead, hnone, hsome⟩ :=
          ih (p := s.next b) (m := m - (s.bytes b).length) (Nat.le_of_succ_le_succ hn)
        have hle := Nat.not_lt.mp hlt
        refine ⟨q, c, hq, ?_, hhead, fun hh => ?_, fun hh => hsome ?_⟩
        · rw [hdrop, List.flatMap_cons, List.append_assoc]
          conv_rhs => rw [← Nat.sub_add_cancel hle, Nat.add_comm, ← List.drop_drop, List.drop_left]
        · rw [List.flatMap_cons, List.length_append]
          refine (hnone hh).imp ?_ ?_ <;> intro hc <;> omega
        · rw [List.flatMap_cons, List.length_append] at hh
          omega

omit [DecidableEq B] in
theorem skipLinks_spec (hle : m ≤ (s.content links).length) :
    ∃ links' c, s.skipLinks links m = some (links', c) ∧
      (s.content links').drop c = (s.content links).drop m ∧
      Below s.bytes (links'.flatMap s.chain) c := by
  induction links generalizing m with
  | nil =>
    obtain rfl : m = 0 := Nat.le_zero.mp hle
    exact ⟨[], 0, rfl, rfl, rfl⟩
  | cons p links ih =>
    cases m with
    | zero => exact ⟨p :: links, 0, rfl, rfl, below_zero _ _⟩
    | succ m =>
      obtain ⟨q, c, hq, hdrop, hhead, hnone, hsome⟩ :=
        seek_spec (s := s) (p := p) (m := m + 1) le_rfl (s.content links)
      have hcontent : ∀ q,
          s.content (q :: links) = (s.chain q).flatMap s.bytes ++ s.content links := fun q => by
        simp only [content, List.flatMap_cons, List.flatMap_append]
      rw [skipLinks, hq]
      cases q with
      | some b =>
        refine ⟨some b :: links, c, rfl, ?_, below_head s links (hhead b rfl)⟩
        rw [hcontent, hcontent]
        exact hdrop
      | none =>
        have hcount : m + 1 = c + ((s.chain p).flatMap s.bytes).length :=
          (hnone rfl).resolve_right fun h => hsome h rfl
        rw [hcontent, List.length_append] at hle
        obtain ⟨links', c', hlinks, hdrop', hbelow⟩ := ih (m := c) (by omega)
        refine ⟨links', c', hlinks, ?_, hbelow⟩
        rw [hdrop', hcontent, ← hdrop, chain_none, List.flatMap_nil, List.nil_append]

omit [DecidableEq B] in
/-- `SkipData` skips bytes, and leaves the buffers. -/
theorem skipData_spec (hle : offset + m ≤ (s.content links).length) :
    ∃ links' c, s.skipData links offset m = some (links', c) ∧
      (s.content links').drop c = ((s.content links).drop offset).drop m ∧
      Below s.bytes (links'.flatMap s.chain) c := by
  obtain ⟨links', c, h, hdrop, hbelow⟩ := skipLinks_spec (m := m + offset)
    (by rwa [Nat.add_comm])
  refine ⟨links', c, h, ?_, hbelow⟩
  rw [hdrop, List.drop_drop, Nat.add_comm]

omit [DecidableEq B] in
/-- The vectors of a chain are its bytes behind the offset, as long as there is room. -/
theorem vectors_chain (r : List B) (h : Below s.bytes (l ++ r) offset) :
    ∃ v, s.vectors l offset n = v ∧ v.1.length ≤ n ∧ v.2.2 = true ∧
      v.1.flatten <+: (l.flatMap s.bytes).drop offset ∧
      (v.1 = [] → 0 < n → l.flatMap s.bytes = []) ∧
      (v.1.length < n → Below s.bytes r v.2.1 ∧
        ∀ R, v.1.flatten ++ R.drop v.2.1 = (l.flatMap s.bytes ++ R).drop offset) := by
  induction l generalizing offset n with
  | nil =>
    exact ⟨_, rfl, Nat.zero_le _, rfl, List.nil_prefix, fun _ _ => rfl, fun _ => ⟨h, fun _ => rfl⟩⟩
  | cons b l ih =>
    cases n with
    | zero =>
      exact ⟨_, rfl, le_rfl, rfl, List.nil_prefix, fun _ h => absurd h (Nat.lt_irrefl 0),
        fun h => absurd h (Nat.not_lt_zero _)⟩
    | succ n =>
      rw [List.cons_append, Below] at h
      rw [vectors]
      by_cases he : s.bytes b = []
      · rw [if_pos he] at h ⊢
        simp only [List.flatMap_cons, he, List.nil_append]
        exact ih h
      · rw [if_neg he] at h ⊢
        obtain ⟨v, hv, hlen, hok, hpre, -, hrest⟩ := ih (n := n) (below_zero s.bytes (l ++ r))
        rw [hv]
        refine ⟨_, rfl, Nat.succ_le_succ hlen, ?_, ?_, nofun, fun hlt => ?_⟩
        · simp only [hok, h, decide_true, Bool.and_self]
        · rw [List.flatten_cons, List.flatMap_cons, List.drop_append_of_le_length h.le]
          exact (List.prefix_append_right_inj _).mpr hpre
        · obtain ⟨hbelow, happ⟩ := hrest (Nat.lt_of_succ_lt_succ hlt)
          refine ⟨hbelow, fun R => ?_⟩
          rw [List.flatten_cons, List.append_assoc, happ, List.drop_zero, List.flatMap_cons,
            List.append_assoc, List.drop_append_of_le_length h.le]

omit [DecidableEq B] in
/-- The vectors are the first bytes behind the offset, and some if there are any. -/
theorem vectors_spec (h : Below s.bytes (links.flatMap s.chain) offset) :
    (s.buffersToIOVecsForWrite links offset n).2 = true ∧
      (s.buffersToIOVecsForWrite links offset n).1.flatten <+: (s.content links).drop offset ∧
      ((s.buffersToIOVecsForWrite links offset n).1 = [] → 0 < n → s.content links = []) := by
  induction links generalizing offset n with
  | nil => exact ⟨rfl, List.nil_prefix, fun _ _ => rfl⟩
  | cons p links ih =>
    rw [List.flatMap_cons] at h
    obtain ⟨v, hv, hlen, hok, hpre, hnil, hrest⟩ := vectors_chain (n := n) _ h
    have hcontent : s.content (p :: links) = (s.chain p).flatMap s.bytes ++ s.content links := by
      simp only [content, List.flatMap_cons, List.flatMap_append]
    rw [buffersToIOVecsForWrite, hv, hcontent]
    by_cases hfull : v.1.length = n
    · simp only [if_pos hfull]
      refine ⟨hok, hpre.trans ?_, fun he hn => ?_⟩
      · rw [List.drop_append]
        exact List.prefix_append _ _
      · rw [he] at hfull
        exact absurd hfull.symm (Nat.ne_of_gt hn)
    · simp only [if_neg hfull]
      obtain ⟨hbelow, happ⟩ := hrest (Nat.lt_of_le_of_ne hlen hfull)
      obtain ⟨hok', hpre', hnil'⟩ := ih (n := n - v.1.length) hbelow
      refine ⟨by rw [hok, hok', Bool.and_self], ?_, fun he hn => ?_⟩
      · rw [List.flatten_append, ← happ]
        exact (List.prefix_append_right_inj _).mpr hpre'
      · obtain ⟨hv₁, hv₂⟩ := List.append_eq_nil_iff.mp he
        rw [hnil hv₁ hn, hnil' hv₂ (by rw [hv₁]; exact hn), List.append_nil]

end Chains

end Heap

end BufferLinkList

end Serverbox
