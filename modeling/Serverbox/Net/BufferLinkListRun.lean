import Serverbox.Net.BufferLinkList

/-!
# Sending from lists of shared buffers

Any number of lists send the same buffers. An attempt to send skips the empty prefix of a list,
builds vectors from it, and skips the bytes which were transmitted, which are any number of the
first bytes of the vectors. Links are appended between the attempts. `sender` has the attempts of
the socket as its steps, and remembers what was appended and what was transmitted; `skipper` has
the single calls, at any offset.

Source: `src/mg/net/Buffer.cpp`, `src/mg/aio/TCPSocket.cpp`.

## Main definitions

* `BufferLinkList.sender`, `BufferLinkList.skipper`: the machines.
* `BufferLinkList.Sender.Spares`, `BufferLinkList.Shared.Spares`: the buffers which are dropped are
  of no one else, or the last ones.

## Main results

* `BufferLinkList.partial_sends`: the bytes which are sent, and those which are not yet, are those
  which were appended.
* `BufferLinkList.others_unchanged`: the calls on one list leave the other ones.
-/

namespace Serverbox

namespace BufferLinkList

variable {n : ℕ} {B : Type*} [DecidableEq B]

/-- The links of all lists but one. -/
def others (lists : Fin n → List (Option B)) (i : Fin n) : List (Option B) :=
  ((List.finRange n).filter fun j => j ≠ i).flatMap lists

omit [DecidableEq B] in
theorem mem_others {lists : Fin n → List (Option B)} {i j : Fin n} (hj : j ≠ i) {q : Option B}
    (hq : q ∈ lists j) : q ∈ others lists i :=
  List.mem_flatMap.mpr ⟨j, List.mem_filter.mpr ⟨List.mem_finRange j, by simpa using hj⟩, hq⟩

/-- The buffers, the lists and the bytes of the first buffers which are sent; the bytes which have
been appended and transmitted. -/
structure Sender (n : ℕ) (B : Type*) where
  heap : Heap B
  lists : Fin n → List (Option B)
  offset : Fin n → ℕ
  failed : Bool
  appended : Fin n → List UInt8
  sent : Fin n → List UInt8

namespace Sender

/-- The links are appended: `AppendRef`, `AppendCopy` or `AppendMove`. -/
def append (s : Sender n B) (i : Fin n) (links : List (Option B)) : Sender n B :=
  { s with
    lists := Function.update s.lists i (s.lists i ++ links)
    appended := Function.update s.appended i (s.appended i ++ s.heap.content links) }

/-- The vectors of the next attempt. -/
def vectors (s : Sender n B) (i : Fin n) (room : ℕ) : List (List UInt8) :=
  let r := s.heap.skipEmptyPrefix (s.lists i) (s.offset i)
  (r.heap.buffersToIOVecsForWrite r.head r.offset room).1

/-- `PrivSend` and `PrivSendCommit`: an attempt which transmits some bytes. -/
def attempt (s : Sender n B) (i : Fin n) (room count : ℕ) : Option (Sender n B) :=
  let r := s.heap.skipEmptyPrefix (s.lists i) (s.offset i)
  let s := { s with
    heap := r.heap
    lists := Function.update s.lists i r.head
    offset := Function.update s.offset i r.offset
    failed := s.failed || !r.ok }
  if r.head = [] then some s
  else
    let v := r.heap.buffersToIOVecsForWrite r.head r.offset room
    (r.heap.skipData r.head r.offset count).map fun l => { s with
      lists := Function.update s.lists i l.1
      offset := Function.update s.offset i l.2
      failed := s.failed || !v.2
      sent := Function.update s.sent i (s.sent i ++ v.1.flatten.take count) }

end Sender

/-- A step of the sending. -/
inductive Send (n : ℕ) (B : Type*)
  | append (i : Fin n) (links : List (Option B))
  | attempt (i : Fin n) (room count : ℕ)

/-- Links are appended, and any number of the bytes of the vectors are transmitted. -/
def sender : Machine (Sender n B) (Send n B) where
  init s := (∀ i, s.lists i = [] ∧ s.offset i = 0 ∧ s.appended i = [] ∧ s.sent i = []) ∧
    s.failed = false
  step s
  | .append i links => some (s.append i links)
  | .attempt i room count =>
    if count ≤ (s.vectors i room).flatten.length then s.attempt i room count else none

/-- The attempt drops no buffer with a next one which another link reaches. -/
def Sender.Spares (s : Sender n B) : Send n B → Prop
  | .append _ _ => True
  | .attempt i _ _ => s.heap.Private (others s.lists i) (s.lists i) (s.offset i)

instance (s : Sender n B) : (a : Send n B) → Decidable (s.Spares a)
  | .append _ _ => .isTrue trivial
  | .attempt i _ _ =>
    inferInstanceAs (Decidable (s.heap.Private (others s.lists i) (s.lists i) (s.offset i)))

/-- What was sent and what is still to be sent was appended. -/
structure Sender.Inv (s : Sender n B) : Prop where
  below : ∀ i, Heap.Below s.heap.bytes ((s.lists i).flatMap s.heap.chain) (s.offset i)
  bytes : ∀ i, s.sent i ++ (s.heap.content (s.lists i)).drop (s.offset i) = s.appended i
  failed : s.failed = false

namespace Sender

variable {s : Sender n B} {i : Fin n} {room count : ℕ}

omit [DecidableEq B] in
/-- An offset within the first bytes is at most the number of the bytes. -/
theorem below_le {bytes : B → List UInt8} {l : List B} {offset : ℕ}
    (h : Heap.Below bytes l offset) : offset ≤ (l.flatMap bytes).length := by
  induction l with
  | nil => exact h.le
  | cons b l ih =>
    rw [Heap.Below] at h
    rw [List.flatMap_cons, List.length_append]
    split at h
    · have := ih h
      omega
    · omega

omit [DecidableEq B] in
theorem Inv.append (h : s.Inv) (i : Fin n) (links : List (Option B)) : (s.append i links).Inv := by
  refine ⟨fun j => ?_, fun j => ?_, h.failed⟩
  · by_cases hj : j = i
    · subst hj
      simp only [Sender.append, Function.update_self, List.flatMap_append]
      exact (h.below j).append _
    · simpa only [Sender.append, Function.update_of_ne hj] using h.below j
  · by_cases hj : j = i
    · subst hj
      have hle : s.offset j ≤ (s.heap.content (s.lists j)).length := below_le (h.below j)
      have happ : s.heap.content (s.lists j ++ links) =
          s.heap.content (s.lists j) ++ s.heap.content links := by
        simp only [Heap.content, List.flatMap_append]
      simp only [Sender.append, Function.update_self]
      rw [happ, List.drop_append_of_le_length hle, ← List.append_assoc, h.bytes j]
    · simpa only [Sender.append, Function.update_of_ne hj] using h.bytes j

/-- **One attempt** transmits the next bytes. -/
theorem Inv.attempt (h : s.Inv)
    (hpriv : s.heap.Private (others s.lists i) (s.lists i) (s.offset i))
    (hcount : count ≤ (s.vectors i room).flatten.length) :
    (∃ t, s.attempt i room count = some t ∧ t.Inv) ∧
      (0 < room → (s.heap.content (s.lists i)).drop (s.offset i) ≠ [] → s.vectors i room ≠ []) := by
  obtain ⟨r, hr, hbytes, hok, hothers, hcontent, hbelow⟩ :=
    Heap.skipEmptyPrefix_spec hpriv (h.below i).fits
  rw [← hbytes] at hbelow
  obtain ⟨hvok, hpre, hnil⟩ := Heap.vectors_spec (n := room) hbelow
  have hvectors : s.vectors i room =
      (r.heap.buffersToIOVecsForWrite r.head r.offset room).1 := by rw [vectors, hr]
  rw [hvectors] at hcount ⊢
  have hlists : ∀ j, j ≠ i →
      (s.lists j).flatMap r.heap.chain = (s.lists j).flatMap s.heap.chain := fun j hj =>
    Heap.flatMap_chain fun q hq => hothers q (mem_others hj hq)
  -- the lists but the one of the attempt
  have hrest : ∀ j, j ≠ i →
      Heap.Below r.heap.bytes ((s.lists j).flatMap r.heap.chain) (s.offset j) ∧
        s.sent j ++ (r.heap.content (s.lists j)).drop (s.offset j) = s.appended j := fun j hj => by
    rw [Heap.content, hlists j hj, hbytes]
    exact ⟨h.below j, h.bytes j⟩
  have hinv : ∀ t : Sender n B, t.heap = r.heap → t.failed = false →
      (∀ j, j ≠ i → t.lists j = s.lists j ∧ t.offset j = s.offset j ∧ t.sent j = s.sent j) →
      t.appended = s.appended →
      Heap.Below r.heap.bytes ((t.lists i).flatMap r.heap.chain) (t.offset i) →
      t.sent i ++ (r.heap.content (t.lists i)).drop (t.offset i) = s.appended i → t.Inv := by
    intro t hheap hfailed hother happended hbelow' hsent
    refine ⟨fun j => ?_, fun j => ?_, hfailed⟩
    · rw [hheap]
      by_cases hj : j = i
      · rw [hj]
        exact hbelow'
      · obtain ⟨hl, ho, -⟩ := hother j hj
        rw [hl, ho]
        exact (hrest j hj).1
    · rw [hheap, happended]
      by_cases hj : j = i
      · rw [hj]
        exact hsent
      · obtain ⟨hl, ho, hs⟩ := hother j hj
        rw [hl, ho, hs]
        exact (hrest j hj).2
  refine ⟨?_, fun hroom hne hv => hne ?_⟩
  · unfold Sender.attempt
    simp only [hr]
    split
    · refine ⟨_, rfl, hinv _ rfl (by simp [h.failed, hok])
        (fun j hj => ⟨Function.update_of_ne hj .., Function.update_of_ne hj .., rfl⟩) rfl ?_ ?_⟩
      · simpa only [Function.update_self] using hbelow
      · simp only [Function.update_self]
        rw [hcontent, h.bytes]
    · have hle : r.offset + count ≤ (r.heap.content r.head).length := by
        have hlen := hpre.length_le
        rw [List.length_drop] at hlen
        have := below_le hbelow
        rw [Heap.content] at hlen ⊢
        omega
      obtain ⟨links, c, hskip, hdrop, hbelow'⟩ := Heap.skipData_spec hle
      rw [hskip]
      refine ⟨_, rfl, hinv _ rfl (by simp [h.failed, hok, hvok])
        (fun j hj => ⟨?_, ?_, Function.update_of_ne hj ..⟩) rfl ?_ ?_⟩
      · simp only [Function.update_of_ne hj]
      · simp only [Function.update_of_ne hj]
      · simpa only [Function.update_self] using hbelow'
      · simp only [Function.update_self]
        obtain ⟨rest, hrest'⟩ := hpre
        have htake : (r.heap.buffersToIOVecsForWrite r.head r.offset room).1.flatten.take count =
            ((r.heap.content r.head).drop r.offset).take count := by
          rw [← hrest', List.take_append_of_le_length hcount]
        rw [hdrop, htake, List.append_assoc, List.take_append_drop, hcontent, h.bytes]
  · rw [← hcontent, hnil hv hroom, List.drop_nil]

end Sender

/-- **Partial sends.** In every run whose attempts drop no shared buffer with a next one: what was
transmitted from a list, and what is still to be transmitted, was appended to it; the offset is
within the first buffer with bytes, or 0; no assertion fails; every attempt has a result, and it
builds a vector when there are unsent bytes. -/
theorem partial_sends {s : Sender n B} (h : sender.ReachableBy Sender.Spares s) :
    (∀ i, s.sent i ++ (s.heap.content (s.lists i)).drop (s.offset i) = s.appended i ∧
      Heap.Below s.heap.bytes ((s.lists i).flatMap s.heap.chain) (s.offset i)) ∧
    s.failed = false ∧
    ∀ i room count, s.Spares (.attempt i room count) →
      count ≤ (s.vectors i room).flatten.length →
      (∃ t, sender.step s (.attempt i room count) = some t) ∧
        (0 < room → (s.heap.content (s.lists i)).drop (s.offset i) ≠ [] →
          s.vectors i room ≠ []) := by
  have hinv : s.Inv := by
    refine sender.invariant_by (P := fun s : Sender n B => s.Inv) ?_ ?_ h
    · rintro s ⟨hs, hfailed⟩
      refine ⟨fun i => ?_, fun i => ?_, hfailed⟩
      · rw [(hs i).1, (hs i).2.1]
        exact rfl
      · rw [(hs i).1, (hs i).2.1, (hs i).2.2.1, (hs i).2.2.2]
        exact rfl
    · intro s a t hs ha ht
      cases a with
      | append i links =>
        obtain rfl := Option.some.inj ht
        exact hs.append i links
      | attempt i room count =>
        simp only [sender, Option.ite_none_right_eq_some] at ht
        obtain ⟨hcount, ht⟩ := ht
        obtain ⟨⟨t', ht', hinv⟩, -⟩ := hs.attempt ha hcount
        rw [ht'] at ht
        obtain rfl := Option.some.inj ht
        exact hinv
  refine ⟨fun i => ⟨hinv.bytes i, hinv.below i⟩, hinv.failed, fun i room count hspare hcount => ?_⟩
  obtain ⟨⟨t, ht, -⟩, hvec⟩ := hinv.attempt hspare hcount
  refine ⟨⟨t, ?_⟩, hvec⟩
  simp only [sender, if_pos hcount, ht]

/-- The buffers and the lists. -/
structure Shared (n : ℕ) (B : Type*) where
  heap : Heap B
  lists : Fin n → List (Option B)

/-- A call on a list; the offset is the one of the caller. -/
inductive Call (B : Type*)
  | append (links : List (Option B))
  | skipData (offset count : ℕ)
  | skipEmptyPrefix (offset : ℕ)

/-- The calls within their contracts: there are as many bytes as are skipped, and the offset is
within the first buffer with bytes, or at its end. -/
def skipper : Machine (Shared n B) (Fin n × Call B) where
  init s := ∀ i, s.lists i = []
  step s a :=
    match a.2 with
    | .append links => some { s with lists := Function.update s.lists a.1 (s.lists a.1 ++ links) }
    | .skipData offset count =>
      if offset + count ≤ (s.heap.content (s.lists a.1)).length then
        (s.heap.skipData (s.lists a.1) offset count).map fun l =>
          { s with lists := Function.update s.lists a.1 l.1 }
      else none
    | .skipEmptyPrefix offset =>
      if Heap.Fits s.heap.bytes ((s.lists a.1).flatMap s.heap.chain) offset then
        let r := s.heap.skipEmptyPrefix (s.lists a.1) offset
        some ⟨r.heap, Function.update s.lists a.1 r.head⟩
      else none

/-- The call drops no buffer with a next one which another link reaches. -/
def Shared.Spares (s : Shared n B) (a : Fin n × Call B) : Prop :=
  match a.2 with
  | .skipEmptyPrefix offset => s.heap.Private (others s.lists a.1) (s.lists a.1) offset
  | _ => True

instance (s : Shared n B) : (a : Fin n × Call B) → Decidable (s.Spares a)
  | (i, .skipEmptyPrefix offset) =>
    inferInstanceAs (Decidable (s.heap.Private (others s.lists i) (s.lists i) offset))
  | (_, .append _) | (_, .skipData _ _) => .isTrue trivial

/-- What the links of a list, or another holder of a buffer, can see of the heap. -/
structure SeesSame (s t : Shared n B) (j : Fin n) : Prop where
  lists : t.lists j = s.lists j
  chain : ∀ q ∈ s.lists j, t.heap.chain q = s.heap.chain q
  bytes : t.heap.bytes = s.heap.bytes

namespace SeesSame

variable {s t u : Shared n B} {i j : Fin n}

omit [DecidableEq B] in
theorem trans (h : SeesSame s t j) (h' : SeesSame t u j) : SeesSame s u j where
  lists := h'.lists.trans h.lists
  chain q hq := (h'.chain q (h.lists ▸ hq)).trans (h.chain q hq)
  bytes := h'.bytes.trans h.bytes

omit [DecidableEq B] in
theorem content (h : SeesSame s t j) : t.heap.content (t.lists j) = s.heap.content (s.lists j) := by
  rw [Heap.content, Heap.content, h.lists, h.bytes, Heap.flatMap_chain h.chain]

omit [DecidableEq B] in
theorem next (h : SeesSame s t j) {b : B} (hb : b ∈ (s.lists j).flatMap s.heap.chain) :
    t.heap.next b = s.heap.next b := by
  obtain ⟨q, hq, hbq⟩ := List.mem_flatMap.mp hb
  have ht := t.heap.chain_chain q
  rw [h.chain q hq] at ht
  exact ht.link_eq (s.heap.chain_chain q) hbq

/-- **One call** on another list. -/
theorem step {c : Call B} (hj : j ≠ i) (hstep : skipper.step s (i, c) = some t)
    (hspare : s.Spares (i, c)) : SeesSame s t j := by
  cases c with
  | append links =>
    obtain rfl := Option.some.inj hstep
    exact ⟨Function.update_of_ne hj .., fun _ _ => rfl, rfl⟩
  | skipData offset count =>
    simp only [skipper, Option.ite_none_right_eq_some] at hstep
    obtain ⟨-, hstep⟩ := hstep
    obtain ⟨l, -, rfl⟩ := Option.map_eq_some_iff.mp hstep
    exact ⟨Function.update_of_ne hj .., fun _ _ => rfl, rfl⟩
  | skipEmptyPrefix offset =>
    simp only [skipper, Option.ite_none_right_eq_some] at hstep
    obtain ⟨hfit, hstep⟩ := hstep
    obtain rfl := Option.some.inj hstep
    obtain ⟨r, hr, hbytes, -, hothers, -⟩ := Heap.skipEmptyPrefix_spec hspare hfit
    rw [hr]
    exact ⟨Function.update_of_ne hj .., fun q hq => hothers q (mem_others hj hq), hbytes⟩

end SeesSame

/-- **The other lists stay.** In every run of calls on one list which drop no shared buffer with a
next one, from any buffers and lists: every other list, and so every other holder of a buffer, has
the same links, and sees the same bytes and the same next links of its buffers. -/
theorem others_unchanged {s t : Shared n B} {i j : Fin n} (hj : j ≠ i) {calls : List (Call B)}
    (hrun : skipper.runBy Shared.Spares s (calls.map fun c => (i, c)) = some t) :
    t.lists j = s.lists j ∧ t.heap.content (t.lists j) = s.heap.content (s.lists j) ∧
      ∀ b ∈ (s.lists j).flatMap s.heap.chain,
        t.heap.bytes b = s.heap.bytes b ∧ t.heap.next b = s.heap.next b := by
  have hsame : SeesSame s t j := by
    induction calls generalizing s with
    | nil =>
      obtain rfl := Option.some.inj hrun
      exact ⟨rfl, fun _ _ => rfl, rfl⟩
    | cons c calls ih =>
      rw [List.map_cons, Machine.runBy] at hrun
      split at hrun
      · rename_i hspare
        obtain ⟨u, hu, hrun⟩ := Option.bind_eq_some_iff.mp hrun
        exact (SeesSame.step hj hu hspare).trans (ih hrun)
      · cases hrun
  exact ⟨hsame.lists, hsame.content, fun b hb => ⟨by rw [hsame.bytes], hsame.next hb⟩⟩

section Samples

/-- An empty buffer, and two with bytes behind it. -/
def Heap.sample : Heap (Fin 3) where
  bytes b := if b.val = 0 then [] else if b.val = 1 then [1, 2] else [3]
  next b := if h : b.val + 1 < 3 then some ⟨b.val + 1, h⟩ else none
  rank b := 3 - b
  lt := by decide

/-- A chain without its empty buffer is sent from two lists, in parts. -/
theorem partial_sends_sample : ∃ s : Sender 2 (Fin 3), s.sent 0 = [1, 2, 3] ∧ s.sent 1 = [1] ∧
    ∀ i, s.sent i ++ (s.heap.content (s.lists i)).drop (s.offset i) = s.appended i := by
  obtain ⟨s, hs, hsent⟩ : ∃ s, sender.runBy Sender.Spares
      (⟨.sample, fun _ => [], fun _ => 0, false, fun _ => [], fun _ => []⟩ : Sender 2 (Fin 3))
      [.append 0 [some 1], .append 1 [some 1], .attempt 0 1 1, .attempt 1 2 1,
        .append 1 [none, some 2], .attempt 0 2 2] = some s ∧
      (s.sent 0, s.sent 1) = ([1, 2, 3], [1]) :=
    Option.map_eq_some_iff.mp (by decide +kernel)
  obtain ⟨h, -⟩ := partial_sends (.of_runBy (.init ⟨fun _ => ⟨rfl, rfl, rfl, rfl⟩, rfl⟩) hs)
  obtain ⟨h₀, h₁⟩ := Prod.mk.inj hsent
  exact ⟨s, h₀, h₁, fun i => (h i).1⟩

/-- A chain with an empty first buffer is sent twice from one list: the second time its bytes are
lost. -/
theorem sent_twice_lost : ∃ s : Sender 1 (Fin 3), sender.Reachable s ∧ s.lists 0 = [] ∧
    s.sent 0 = [1, 2, 3] ∧ s.appended 0 = [1, 2, 3, 1, 2, 3] := by
  obtain ⟨s, hs, hend⟩ : ∃ s, sender.run
      (⟨.sample, fun _ => [], fun _ => 0, false, fun _ => [], fun _ => []⟩ : Sender 1 (Fin 3))
      [.append 0 [some 0], .append 0 [some 0], .attempt 0 8 3, .attempt 0 8 0] = some s ∧
      (s.lists 0, s.sent 0, s.appended 0) = ([], [1, 2, 3], [1, 2, 3, 1, 2, 3]) :=
    Option.map_eq_some_iff.mp (by decide +kernel)
  obtain ⟨hl, hend⟩ := Prod.mk.inj hend
  obtain ⟨hsent, happ⟩ := Prod.mk.inj hend
  exact ⟨s, .of_run (.init ⟨fun _ => ⟨rfl, rfl, rfl, rfl⟩, rfl⟩) hs, hl, hsent, happ⟩

/-- A list skips some bytes of the buffers which the other list has, too. -/
theorem others_unchanged_sample : ∃ t : Shared 2 (Fin 3), t.lists 0 = [some 2] ∧
    t.heap.content (t.lists 1) = [1, 2, 3] := by
  obtain ⟨t, ht, hlists⟩ : ∃ t, skipper.runBy Shared.Spares
      (⟨.sample, fun _ => [some 1]⟩ : Shared 2 (Fin 3))
      ([.skipEmptyPrefix 1, .skipData 0 2].map fun c => (0, c)) = some t ∧
      t.lists 0 = [some 2] :=
    Option.map_eq_some_iff.mp (by decide +kernel)
  obtain ⟨-, hcontent, -⟩ := others_unchanged (j := 1) (by decide) ht
  exact ⟨t, hlists, hcontent.trans (by decide)⟩

/-- Two lists have a chain with an empty first buffer: when one of them skips it, the other one
loses all the bytes. -/
theorem others_lost : ∃ t : Shared 2 (Fin 3),
    skipper.step ⟨.sample, fun _ => [some 0]⟩ (0, .skipEmptyPrefix 0) = some t ∧
      (Heap.sample.content [some 0]) = [1, 2, 3] ∧ t.lists 1 = [some 0] ∧
      t.heap.content (t.lists 1) = [] := by
  obtain ⟨t, ht, hend⟩ : ∃ t,
      skipper.step (⟨.sample, fun _ => [some 0]⟩ : Shared 2 (Fin 3)) (0, .skipEmptyPrefix 0) =
        some t ∧ (t.lists 1, t.heap.content (t.lists 1)) = ([some 0], []) :=
    Option.map_eq_some_iff.mp (by decide +kernel)
  obtain ⟨hl, hcontent⟩ := Prod.mk.inj hend
  exact ⟨t, ht, by decide, hl, hcontent⟩

end Samples

end BufferLinkList

end Serverbox
