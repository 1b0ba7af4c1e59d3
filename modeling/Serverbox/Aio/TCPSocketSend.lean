import Serverbox.Aio.TCPSocket

/-!
# The send queue of a TCP socket

`PrivSend` skips the empty prefix of the send queue, hands the kernel some vectors, and skips the
bytes which the kernel took. The links of the queue are deleted one after another, and the bytes
which are left are those of the same calls as before: the bytes which were handed to the kernel and
those which are still to be handed stand in one line, of which `PrivSend` moves the border only.

This holds when the empty prefix has no buffer with a next one which a later link reaches, because
`SkipEmptyPrefix` takes next links away.

Source: `src/mg/aio/TCPSocket.cpp`, `src/mg/net/Buffer.cpp`.

## Main definitions

* `TCPSocket.State.AtBuffer`: the offset is inside the first buffer of the send queue.
* `TCPSocket.Spares`: no next link is taken away which a link of the socket needs.

## Main results

* `TCPSocket.privSend_spec`: `PrivSend` keeps the line of the bytes.
-/

namespace Serverbox

namespace TCPSocket

open BufferLinkList (Heap)

variable {Θ B : Type*}

/-- The links of the queue of a call which has not appended them. -/
def Call.links : Call B → List (Option B)
  | send _ links => links
  | _ => []

/-- The bytes of the socket in the order in which they are to be handed to the kernel. -/
def State.stream (s : State Θ B) : List (ℕ × UInt8) :=
  s.wire ++ s.unsent ++ queueBytes s.heap s.frontSendQueue

/-- The offset is 0, or inside the first buffer of the send queue. -/
def AtBuffer (heap : Heap B) (heads : List (Option B)) (offset : ℕ) : Prop :=
  offset = 0 ∨ ∃ b l, heads = some b :: l ∧ offset < (heap.bytes b).length

/-- The offset of the send queue is 0, or inside its first buffer. -/
def State.AtBuffer (s : State Θ B) : Prop :=
  TCPSocket.AtBuffer s.heap (s.sendQueue.map Prod.snd) s.sendOffset

/-! ### Queues of links -/

section Queues

variable {heap : Heap B} {q q' : List (ℕ × Option B)} {heads : List (Option B)}

@[simp] theorem queueBytes_nil (heap : Heap B) : queueBytes heap [] = [] := rfl

theorem queueBytes_cons (heap : Heap B) (x : ℕ × Option B) (q : List (ℕ × Option B)) :
    queueBytes heap (x :: q) = tagged x.1 (heap.content [x.2]) ++ queueBytes heap q :=
  List.flatMap_cons

@[simp] theorem queueBytes_append (heap : Heap B) (q q' : List (ℕ × Option B)) :
    queueBytes heap (q ++ q') = queueBytes heap q ++ queueBytes heap q' :=
  List.flatMap_append

theorem content_single (heap : Heap B) (p : Option B) :
    heap.content [p] = (heap.chain p).flatMap heap.bytes := by
  simp [Heap.content]

theorem map_snd_tagged {α : Type*} (c : ℕ) (l : List α) : (tagged c l).map Prod.snd = l := by
  simp [tagged, Function.comp_def]

/-- The links of a call have its bytes. -/
@[simp] theorem queueBytes_tagged (heap : Heap B) (c : ℕ) (links : List (Option B)) :
    queueBytes heap (tagged c links) = tagged c (heap.content links) := by
  induction links with
  | nil => rfl
  | cons p links ih =>
    have hcons : tagged c (p :: links) = (c, p) :: tagged c links := rfl
    rw [hcons, queueBytes_cons, ih]
    simp [tagged, Heap.content]

theorem map_snd_queueBytes (heap : Heap B) (q : List (ℕ × Option B)) :
    (queueBytes heap q).map Prod.snd = heap.content (q.map Prod.snd) := by
  induction q with
  | nil => rfl
  | cons x q ih =>
    rw [queueBytes_cons, List.map_append, map_snd_tagged, ih]
    simp [Heap.content]

/-- The queues have the same bytes in two heaps whose chains are the same there. -/
theorem queueBytes_congr {heap' : Heap B} (hbytes : heap'.bytes = heap.bytes)
    (hchain : ∀ x ∈ q, heap'.chain x.2 = heap.chain x.2) :
    queueBytes heap' q = queueBytes heap q := by
  induction q with
  | nil => rfl
  | cons x q ih =>
    rw [queueBytes_cons, queueBytes_cons, content_single, content_single, hbytes,
      hchain x List.mem_cons_self, ih fun y hy => hchain y (List.mem_cons_of_mem _ hy)]

/-- All links are kept. -/
@[simp] theorem withHeads_self (q : List (ℕ × Option B)) :
    withHeads q (q.map Prod.snd) = q := by
  simp [withHeads, List.zip_map', List.map_id']

/-- The first link is moved along its chain. -/
theorem withHeads_cons (x : ℕ × Option B) (q : List (ℕ × Option B)) (p : Option B) :
    withHeads (x :: q) (p :: q.map Prod.snd) = (x.1, p) :: q := by
  simpa [withHeads] using withHeads_self q

/-- The first link is deleted. -/
theorem withHeads_drop (x : ℕ × Option B) (hle : heads.length ≤ q.length) :
    withHeads (x :: q) heads = withHeads q heads := by
  rw [withHeads, withHeads, List.length_cons, Nat.succ_sub hle, List.drop_succ_cons]

theorem map_snd_withHeads (hle : heads.length ≤ q.length) :
    (withHeads q heads).map Prod.snd = heads := by
  rw [withHeads, List.map_snd_zip]
  simp only [List.length_map, List.length_drop]
  omega

end Queues

/-! ### The functions of the list, link by link -/

section Links

variable {heap : Heap B} {q : List (ℕ × Option B)} {offset count : ℕ}

/-- The part of a queue behind an offset which is inside its first link. -/
theorem drop_queueBytes_cons (x : ℕ × Option B) (q : List (ℕ × Option B))
    (hle : offset ≤ (heap.content [x.2]).length) :
    (queueBytes heap (x :: q)).drop offset =
      tagged x.1 ((heap.content [x.2]).drop offset) ++ queueBytes heap q := by
  rw [queueBytes_cons, List.drop_append_of_le_length (by simpa [tagged] using hle)]
  simp [tagged]

theorem length_le_content {b : B} (hlt : offset < (heap.bytes b).length) :
    offset ≤ (heap.content [some b]).length := by
  rw [content_single, Heap.chain_some, List.flatMap_cons, List.length_append]
  omega

/-- `SkipData` skips the first bytes of the queue. -/
theorem skipLinks_queue (hle : count ≤ (queueBytes heap q).length) :
    ∃ heads c, heap.skipLinks (q.map Prod.snd) count = some (heads, c) ∧
      heads.length ≤ q.length ∧ AtBuffer heap heads c ∧
      (queueBytes heap (withHeads q heads)).drop c = (queueBytes heap q).drop count := by
  induction q generalizing count with
  | nil =>
    obtain rfl : count = 0 := Nat.le_zero.mp hle
    exact ⟨[], 0, rfl, le_rfl, .inl rfl, rfl⟩
  | cons x q ih =>
    cases count with
    | zero => exact ⟨(x :: q).map Prod.snd, 0, rfl, by simp, .inl rfl, by rw [withHeads_self]⟩
    | succ count =>
      obtain ⟨p, c, hseek, hdrop, hhead, hnone, hsome⟩ :=
        Heap.seek_spec (s := heap) (p := x.2) (m := count + 1) le_rfl []
      simp only [List.append_nil, ← content_single] at hdrop hnone hsome
      rw [List.map_cons, Heap.skipLinks, hseek]
      cases p with
      | some b =>
        have hlt := hhead b rfl
        refine ⟨_, c, rfl, by simp, .inr ⟨b, _, rfl, hlt⟩, ?_⟩
        -- the first link has a byte behind the skipped ones
        have hmore : count + 1 ≤ (heap.content [x.2]).length := by
          have hlen := congrArg List.length hdrop
          rw [content_single, Heap.chain_some, List.flatMap_cons, List.length_drop,
            List.length_append, List.length_drop] at hlen
          omega
        rw [withHeads_cons, drop_queueBytes_cons _ _ (length_le_content hlt),
          drop_queueBytes_cons _ _ hmore, hdrop]
      | none =>
        have hcount : count + 1 = c + (heap.content [x.2]).length :=
          (hnone rfl).resolve_right fun h => hsome h rfl
        have hlen : (tagged x.1 (heap.content [x.2])).length = (heap.content [x.2]).length := by
          simp [tagged]
        rw [queueBytes_cons, List.length_append, hlen] at hle
        have hle' : c ≤ (queueBytes heap q).length := by omega
        obtain ⟨heads, c', hskip, hheads, hat, hdrop'⟩ := ih hle'
        refine ⟨heads, c', hskip, by simp only [List.length_cons]; omega, hat, ?_⟩
        rw [withHeads_drop x hheads, hdrop', queueBytes_cons, hcount, Nat.add_comm,
          ← List.drop_drop, ← hlen, List.drop_left]

variable [DecidableEq B] {others : List (Option B)}

/-- `SkipEmptyPrefix` leaves the bytes of a queue without an offset. -/
theorem dropLinks_queue (hpriv : heap.Private others (q.map Prod.snd) 0) :
    ∃ r, heap.dropLinks (q.map Prod.snd) 0 = r ∧ r.head.length ≤ q.length ∧
      AtBuffer r.heap r.head r.offset ∧ r.heap.bytes = heap.bytes ∧
      (∀ p ∈ others, r.heap.chain p = heap.chain p) ∧
      (queueBytes r.heap (withHeads q r.head)).drop r.offset = queueBytes heap q := by
  induction q generalizing heap with
  | nil => exact ⟨_, rfl, le_rfl, .inl rfl, rfl, fun _ _ => rfl, rfl⟩
  | cons x q ih =>
    rw [List.map_cons] at hpriv ⊢
    obtain ⟨hdrop, hmore⟩ := hpriv
    obtain ⟨r, hr, hbytes, -, hz, hchain, -, hcontent, hend, hhead⟩ :=
      Heap.dropHead_spec (s := heap) (p := x.2) le_rfl [] (Heap.below_zero _ _).fits
    simp only [List.append_nil, List.drop_zero] at hcontent
    have hkept : ∀ p ∈ q.map Prod.snd ++ others, r.heap.chain p = heap.chain p := fun p hp =>
      hchain p fun b hb => (hdrop b hb).imp id fun h => h p hp
    have hrest : queueBytes r.heap q = queueBytes heap q := queueBytes_congr hbytes fun y hy =>
      hkept y.2 (List.mem_append_left _ (List.mem_map_of_mem hy))
    rw [Heap.dropLinks, hr]
    cases hh : r.head with
    | some b =>
      have hlt := hhead b hh
      rw [hh, ← hbytes, ← content_single] at hcontent
      rw [← hbytes] at hlt
      refine ⟨_, rfl, by simp, .inr ⟨b, _, rfl, hlt⟩, hbytes,
        fun p hp => hkept p (List.mem_append_right _ hp), ?_⟩
      dsimp only
      rw [withHeads_cons, drop_queueBytes_cons _ _ (length_le_content hlt), queueBytes_cons, hrest,
        hcontent, content_single, hbytes]
    | none =>
      obtain ⟨hall, hoff⟩ := hend hh
      have hcarry : r.offset = 0 := hoff.trans (ite_self _)
      have hnil : heap.content [x.2] = [] := by
        rw [content_single, ← hcontent, hh, Heap.chain_none, List.flatMap_nil, List.drop_nil]
      have hpriv' : r.heap.Private others (q.map Prod.snd) 0 :=
        (hcarry ▸ hoff ▸ hmore hall).congr hbytes hz hkept
      obtain ⟨r', hr', hle, hat, hbytes', hothers, hqueue⟩ := ih hpriv'
      rw [← hcarry] at hr'
      refine ⟨{ r' with ok := r.ok && r'.ok }, by simp only [hr'], Nat.le_succ_of_le hle, hat,
        hbytes'.trans hbytes, fun p hp => ?_, ?_⟩
      · exact (hothers p hp).trans (hkept p (List.mem_append_right _ hp))
      · dsimp only
        rw [withHeads_drop x hle, hqueue, hrest, queueBytes_cons, hnil]
        rfl

/-- `SkipEmptyPrefix` leaves the bytes of the queue behind the offset. -/
theorem skipEmptyPrefix_queue (hpriv : heap.Private others (q.map Prod.snd) offset)
    (hat : AtBuffer heap (q.map Prod.snd) offset) :
    ∃ r, heap.skipEmptyPrefix (q.map Prod.snd) offset = r ∧ r.head.length ≤ q.length ∧
      AtBuffer r.heap r.head r.offset ∧ r.heap.bytes = heap.bytes ∧
      (∀ p ∈ others, r.heap.chain p = heap.chain p) ∧
      (queueBytes r.heap (withHeads q r.head)).drop r.offset =
        (queueBytes heap q).drop offset := by
  cases q with
  | nil => exact ⟨_, rfl, le_rfl, hat, rfl, fun _ _ => rfl, rfl⟩
  | cons x q =>
    rw [List.map_cons, Heap.skipEmptyPrefix, ← List.map_cons (f := Prod.snd)]
    cases hr : heap.ready x.2 offset with
    | true =>
      rw [if_pos rfl]
      exact ⟨_, rfl, by simp, hat, rfl, fun _ _ => rfl, by rw [withHeads_self]⟩
    | false =>
      -- the fast path is not taken, so the offset is 0
      obtain rfl : offset = 0 := by
        refine hat.resolve_right ?_
        rintro ⟨b, l, hb, hlt⟩
        obtain ⟨hx, -⟩ := List.cons.inj hb
        rw [hx, Heap.ready, Option.any_some, decide_eq_false_iff_not] at hr
        exact hr hlt
      simpa using dropLinks_queue hpriv

end Links

/-! ### The send of the worker -/

/-- No next link is taken away which a link of the socket needs: `PrivSend` drops no buffer with a
next one which a later link of the send queue, a link of the front queue or of a call in progress
reaches, and another list drops none which any link of the socket reaches. -/
def Spares [DecidableEq B] (s : State Θ B) : Action Θ B → Prop
  | .work _ (.sent _ _) => ∀ θ,
    s.heap.Private (s.frontSendQueue.map Prod.snd ++ (s.call θ).links)
      (s.sendQueue.map Prod.snd) s.sendOffset
  | .unlink b => s.heap.next b = none ∨
    (∀ p ∈ (s.sendQueue ++ s.frontSendQueue).map Prod.snd, b ∉ s.heap.chain p) ∧
      ∀ θ, ∀ p ∈ (s.call θ).links, b ∉ s.heap.chain p
  | _ => True

section Send

variable {s t : State Θ B} {room count : ℕ}

theorem zip_fst_take {α β : Type*} (l : List (α × β)) (n : ℕ) :
    (l.map Prod.fst).zip ((l.map Prod.snd).take n) = l.take n := by
  induction l generalizing n with
  | nil => simp
  | cons x l ih =>
    cases n with
    | zero => simp
    | succ n => simp [ih n]

theorem AtBuffer.below {heap : Heap B} {heads : List (Option B)} {offset : ℕ}
    (h : AtBuffer heap heads offset) :
    Heap.Below heap.bytes (heads.flatMap heap.chain) offset := by
  obtain rfl | ⟨b, l, rfl, hlt⟩ := h
  · exact Heap.below_zero _ _
  · exact Heap.below_head _ _ hlt

/-- The queue may be appended to. -/
theorem AtBuffer.append {heap : Heap B} {heads : List (Option B)} {offset : ℕ}
    (h : AtBuffer heap heads offset) (heads' : List (Option B)) :
    AtBuffer heap (heads ++ heads') offset := by
  obtain rfl | ⟨b, l, rfl, hlt⟩ := h
  · exact .inl rfl
  · exact .inr ⟨b, l ++ heads', rfl, hlt⟩

/-- The offset is not behind the bytes. -/
theorem AtBuffer.le {heap : Heap B} {q : List (ℕ × Option B)} {offset : ℕ}
    (h : AtBuffer heap (q.map Prod.snd) offset) : offset ≤ (queueBytes heap q).length := by
  have hlen : (queueBytes heap q).length = (heap.content (q.map Prod.snd)).length := by
    rw [← map_snd_queueBytes, List.length_map]
  rw [hlen]
  obtain rfl | ⟨b, l, hl, hlt⟩ := h
  · exact Nat.zero_le _
  · rw [hl, Heap.content, List.flatMap_cons, Heap.chain_some, List.cons_append, List.flatMap_cons,
      List.length_append]
    omega

variable [DecidableEq B]

/-- `PrivSend` moves the border between what the kernel was handed and what it is to be handed.
Nothing but the heap, the send queue and its offset changes beside it. -/
theorem privSend_spec {others : List (Option B)}
    (hpriv : s.heap.Private others (s.sendQueue.map Prod.snd) s.sendOffset)
    (hat : s.AtBuffer) (hs : privSend s room count = some t) :
    (∃ heap queue offset wire,
      t = { s with heap := heap, sendQueue := queue, sendOffset := offset, wire := wire }) ∧
      t.heap.bytes = s.heap.bytes ∧ (∀ p ∈ others, t.heap.chain p = s.heap.chain p) ∧
      t.AtBuffer ∧ t.wire ++ t.unsent = s.wire ++ s.unsent := by
  obtain ⟨r, hr, hle, hat', hbytes, hothers, hqueue⟩ := skipEmptyPrefix_queue hpriv hat
  rw [privSend, hr] at hs
  dsimp only at hs
  have hheads := map_snd_withHeads (q := s.sendQueue) hle
  split at hs
  case isTrue =>
    obtain rfl := Option.some.inj hs
    refine ⟨⟨r.heap, _, r.offset, s.wire, rfl⟩, hbytes, hothers, ?_,
      congrArg (s.wire ++ ·) hqueue⟩
    rw [State.AtBuffer, hheads]
    exact hat'
  case isFalse =>
    obtain ⟨_, hcount, hs⟩ := Option.bind_eq_some_iff.mp hs
    obtain ⟨⟨heads, c⟩, hskip, rfl⟩ := Option.map_eq_some_iff.mp hs
    have hcount := of_decide_eq_true (assert_eq_some.mp hcount).1
    generalize hq : withHeads s.sendQueue r.head = q at hqueue hheads
    rw [← hheads] at hat' hskip hcount
    have hold : s.unsent = (queueBytes r.heap q).drop r.offset := hqueue.symm
    have hnew : State.unsent { s with heap := r.heap, sendQueue := q, sendOffset := r.offset } =
        (queueBytes r.heap q).drop r.offset := rfl
    have hle' := hat'.le
    -- the bytes which the kernel takes are the first ones of the queue
    obtain ⟨-, ⟨rest, hrest⟩, -⟩ := Heap.vectors_spec (n := room) hat'.below
    have hsnd : ((queueBytes r.heap q).drop r.offset).map Prod.snd =
        (r.heap.content (q.map Prod.snd)).drop r.offset := by
      rw [List.map_drop, map_snd_queueBytes]
    have htake : (r.heap.buffersToIOVecsForWrite (q.map Prod.snd) r.offset room).1.flatten.take
        count = (((queueBytes r.heap q).drop r.offset).map Prod.snd).take count := by
      rw [hsnd, ← hrest, List.take_append_of_le_length hcount]
    have hlen : count + r.offset ≤ (queueBytes r.heap q).length := by
      have hv := congrArg List.length (hsnd.trans hrest.symm)
      rw [List.length_map, List.length_drop, List.length_append] at hv
      omega
    obtain ⟨heads', c', hskip', hle'', hat'', hdrop⟩ := skipLinks_queue hlen
    obtain ⟨rfl, rfl⟩ := Prod.mk.inj (Option.some.inj (hskip'.symm.trans hskip))
    refine ⟨⟨r.heap, _, c', _, rfl⟩, hbytes, hothers, ?_, ?_⟩
    · rw [State.AtBuffer]
      dsimp only
      rw [map_snd_withHeads hle'']
      exact hat''
    · dsimp only
      rw [hnew, ← hheads, htake, zip_fst_take, State.unsent]
      dsimp only
      rw [hdrop, hold, List.append_assoc, Nat.add_comm, ← List.drop_drop, List.take_append_drop]

end Send

end TCPSocket

end Serverbox
