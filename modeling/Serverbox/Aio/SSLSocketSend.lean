import Serverbox.Net.BufferLinkListRun
import Serverbox.Net.BufferStream

/-!
# Sending in an SSL socket

`SSLSocket` takes the buffers of its send queue one after another, gives their bytes to the SSL
library, and counts them. The user hears of the bytes in `OnSend` as he has given them, before they
are encrypted. The count has 64 bits and a report has 32, so that a report can take several wakeups.
The user can send more in `OnSend`, or begin the encryption: `Encrypt` gives the whole queue to the
library first.

The queue is that of `Serverbox.BufferLinkList`, with an offset of 0: a buffer is taken as a whole.
`SkipEmptyPrefix` takes the next link away from the empty buffers which it drops, so that a later
link of the queue to such a buffer loses the rest of its chain. So does a link of the queue when
another list over the same buffers, the queue of another socket, drops them. The history tells
whether this did not happen. What the library makes of the bytes, what the kernel accepts, what the
user does in `OnSend`, and the calls on the other lists are chosen by the steps. The bytes which are
taken and not reported do not reach 2^64.

Source: `src/mg/aio/SSLSocket.cpp`, `src/mg/net/Buffer.cpp`.

## Main definitions

* `SSLSocketSend.State`, `SSLSocketSend.machine`: the sending half of the socket.
* `SSLSocketSend.State.spared`: no buffer was dropped which a link of the queue needs.

## Main results

* `SSLSocketSend.accounting`: the bytes taken from the queue are reported once, in order.
* `SSLSocketSend.sent_twice`, `SSLSocketSend.sent_to_two`: a chain which is sent twice is taken
  once.
-/

namespace Serverbox

namespace BufferLinkList

namespace Heap

variable {B : Type*} {s : Heap B} {b : B} {p q : Option B} {links : List (Option B)}

theorem content_cons (s : Heap B) (p : Option B) (links : List (Option B)) :
    s.content (p :: links) = (s.chain p).flatMap s.bytes ++ s.content links := by
  simp only [content, List.flatMap_cons, List.flatMap_append]

theorem content_append (s : Heap B) (links links' : List (Option B)) :
    s.content (links ++ links') = s.content links ++ s.content links' := by
  simp only [content, List.flatMap_append]

theorem fits_zero (bytes : B → List UInt8) (l : List B) : Fits bytes l 0 :=
  (below_zero bytes l).fits

/-- `seek` of no byte ends at the beginning of a buffer. -/
theorem seek_zero (s : Heap B) (n : ℕ) (p : Option B) : (s.seek n p 0).2 = 0 := by
  induction n generalizing p with
  | zero => cases p <;> rfl
  | succ n ih =>
    cases p with
    | none => rfl
    | some b =>
      rw [seek]
      split
      · rfl
      · rw [Nat.zero_sub]
        exact ih _

/-- `SkipData` of the first buffer ends at the beginning of another one. -/
theorem skipData_first (hb : s.bytes b ≠ []) :
    ∃ links', s.skipData (some b :: links) 0 (s.bytes b).length = some (links', 0) ∧
      s.content links' = (s.content (some b :: links)).drop (s.bytes b).length := by
  have hle : 0 + (s.bytes b).length ≤ (s.content (some b :: links)).length := by
    rw [content_cons, chain_some, List.flatMap_cons]
    simp only [List.length_append]
    omega
  obtain ⟨links', c, hskip, hdrop, -⟩ := skipData_spec hle
  have hzero : c = 0 := by
    obtain ⟨m, hm⟩ := Nat.exists_eq_succ_of_ne_zero
      (Nat.pos_iff_ne_zero.mp (List.length_pos_iff.mpr hb))
    have hm' : m + 1 = (s.bytes b).length := hm.symm
    rw [skipData, Nat.add_zero, hm, skipLinks, hm', chain_some, List.length_cons, seek,
      if_neg (lt_irrefl _), Nat.sub_self] at hskip
    have hseek := s.seek_zero (s.chain (s.next b)).length (s.next b)
    cases hr : s.seek (s.chain (s.next b)).length (s.next b) 0 with
    | mk r count =>
      rw [hr] at hskip hseek
      obtain rfl : count = 0 := hseek
      cases r with
      | some d => exact (Prod.mk.inj (Option.some.inj hskip)).2.symm
      | none =>
        cases links <;> exact (Prod.mk.inj (Option.some.inj hskip)).2.symm
  rw [hzero] at hskip hdrop
  exact ⟨links', hskip, by simpa using hdrop⟩

variable [DecidableEq B]

/-- A chain can only be cut short. -/
theorem chain_unlink_prefix (s : Heap B) (b : B) (q : Option B) :
    (s.unlink b).chain q <+: s.chain q := by
  have hcut : ∀ {q : Option B} {l : List B}, Chain s.next q l →
      ∃ l', Chain (s.unlink b).next q l' ∧ l' <+: l := by
    intro q l h
    induction l generalizing q with
    | nil => exact ⟨[], h, List.prefix_rfl⟩
    | cons c l ih =>
      obtain ⟨rfl, hrest⟩ := h
      by_cases hc : c = b
      · subst hc
        refine ⟨[c], ⟨rfl, ?_⟩, by simp⟩
        exact Function.update_self ..
      · obtain ⟨l', hl', hpre⟩ := ih hrest
        refine ⟨c :: l', ⟨rfl, ?_⟩, (List.cons_prefix_cons).mpr ⟨rfl, hpre⟩⟩
        have hnext : (s.unlink b).next c = s.next c := Function.update_of_ne hc _ _
        rw [hnext]
        exact hl'
  obtain ⟨l', hl', hpre⟩ := hcut (s.chain_chain q)
  rwa [chain_eq hl']

/-- What `SkipEmptyPrefix` does in any case: chains are only cut short, and the rest has no more
bytes than before. -/
structure Shrinks (s : Heap B) (links : List (Option B)) (r : Skipped B (List (Option B))) :
    Prop where
  bytes : r.heap.bytes = s.bytes
  ok : r.ok = true
  offset : r.offset = 0
  head : r.head = [] ∨ ∃ b l, r.head = some b :: l ∧ s.bytes b ≠ []
  content : (r.heap.content r.head).length ≤ (s.content links).length
  cut : ∀ q, r.heap.chain q <+: s.chain q

/-- The inner loop. -/
theorem dropHead_shrinks {n : ℕ} (hn : (s.chain p).length ≤ n) :
    (s.dropHead n p 0).heap.bytes = s.bytes ∧ (s.dropHead n p 0).ok = true ∧
      (s.dropHead n p 0).offset = 0 ∧
      (∀ b, (s.dropHead n p 0).head = some b → s.bytes b ≠ []) ∧
      (((s.dropHead n p 0).heap.chain (s.dropHead n p 0).head).flatMap s.bytes).length ≤
        ((s.chain p).flatMap s.bytes).length ∧
      ∀ q, (s.dropHead n p 0).heap.chain q <+: s.chain q := by
  induction n generalizing s p with
  | zero =>
    cases p with
    | none => exact ⟨rfl, rfl, rfl, nofun, le_rfl, fun _ => List.prefix_rfl⟩
    | some b =>
      rw [chain_some] at hn
      exact absurd hn (Nat.not_succ_le_zero _)
  | succ n ih =>
    cases p with
    | none => exact ⟨rfl, rfl, rfl, nofun, le_rfl, fun _ => List.prefix_rfl⟩
    | some b =>
      rw [dropHead]
      by_cases hempty : s.bytes b = []
      · rw [if_neg (not_not.mpr hempty)]
        have hnext : (s.unlink b).chain (s.next b) = s.chain (s.next b) :=
          chain_unlink (.inr (s.not_mem_next b))
        have hn' : ((s.unlink b).chain (s.next b)).length ≤ n := by
          rw [chain_some] at hn
          rw [hnext]
          exact Nat.le_of_succ_le_succ hn
        obtain ⟨hbytes, hok, hoffset, hhead, hcontent, hcut⟩ := ih hn'
        refine ⟨hbytes, hok, hoffset, hhead, ?_,
          fun q => (hcut q).trans (s.chain_unlink_prefix b q)⟩
        rw [hnext] at hcontent
        rw [chain_some, List.flatMap_cons, hempty, List.nil_append]
        exact hcontent
      · rw [if_pos hempty, if_pos (List.length_pos_iff.mpr hempty)]
        refine ⟨rfl, rfl, rfl, fun c hc => ?_, le_rfl, fun _ => List.prefix_rfl⟩
        exact Option.some.inj hc ▸ hempty

omit [DecidableEq B] in
theorem content_le {t : Heap B} (hbytes : t.bytes = s.bytes)
    (hcut : ∀ q, t.chain q <+: s.chain q) (links : List (Option B)) :
    (t.content links).length ≤ (s.content links).length := by
  induction links with
  | nil => exact le_rfl
  | cons p links ih =>
    rw [content_cons, content_cons, List.length_append, List.length_append, hbytes]
    have : ((t.chain p).flatMap s.bytes).length ≤ ((s.chain p).flatMap s.bytes).length := by
      obtain ⟨l, hl⟩ := hcut p
      rw [← hl, List.flatMap_append, List.length_append]
      exact Nat.le_add_right _ _
    omega

theorem dropLinks_shrinks (s : Heap B) (links : List (Option B)) :
    Shrinks s links (s.dropLinks links 0) := by
  induction links generalizing s with
  | nil => exact ⟨rfl, rfl, rfl, .inl rfl, le_rfl, fun _ => List.prefix_rfl⟩
  | cons p links ih =>
    obtain ⟨hbytes, hok, hoffset, hhead, hcontent, hcut⟩ :=
      dropHead_shrinks (s := s) (p := p) le_rfl
    have hrest := content_le hbytes hcut links
    rw [dropLinks]
    dsimp only
    cases hh : (s.dropHead (s.chain p).length p 0).head with
    | some b =>
      refine ⟨hbytes, hok, hoffset, .inr ⟨b, links, rfl, hhead b hh⟩, ?_, hcut⟩
      rw [hh] at hcontent
      dsimp only
      rw [content_cons, content_cons, List.length_append, List.length_append, hbytes]
      omega
    | none =>
      have h := ih (s.dropHead (s.chain p).length p 0).heap
      rw [hoffset]
      refine ⟨h.bytes.trans hbytes, ?_, h.offset, ?_, ?_, fun q => (h.cut q).trans (hcut q)⟩
      · simp [hok, h.ok]
      · refine h.head.imp id ?_
        rintro ⟨b, l, hl, hb⟩
        exact ⟨b, l, hl, hbytes ▸ hb⟩
      · refine h.content.trans (hrest.trans ?_)
        rw [content_cons, List.length_append]
        exact Nat.le_add_left _ _

theorem skipEmptyPrefix_shrinks (s : Heap B) (links : List (Option B)) :
    Shrinks s links (s.skipEmptyPrefix links 0) := by
  cases links with
  | nil => exact ⟨rfl, rfl, rfl, .inl rfl, le_rfl, fun _ => List.prefix_rfl⟩
  | cons p links =>
    rw [skipEmptyPrefix]
    cases hr : s.ready p 0 with
    | false =>
      simp only [Bool.false_eq_true, if_false]
      exact s.dropLinks_shrinks (p :: links)
    | true =>
      refine ⟨rfl, rfl, rfl, .inr ?_, le_rfl, fun _ => List.prefix_rfl⟩
      cases p with
      | none => cases hr
      | some b => exact ⟨b, links, rfl, List.length_pos_iff.mp (of_decide_eq_true hr)⟩

end Heap

end BufferLinkList

namespace SSLSocketSend

open BufferLinkList (Heap)

variable {m : ℕ} {B : Type*} [DecidableEq B]

/-- `theIOVecMaxCount`. -/
def theIOVecMaxCount : ℕ := 128

/-- `maxSize` of `PrivCipherPopulate`. -/
def maxSize : ℕ := theIOVecMaxCount * theBufferCopySize

/-- `UINT32_MAX`. -/
def uint32Max : ℕ := 2 ^ 32 - 1

/-- The sending half of an `SSLSocket`: the buffers, the other lists over them, `mySendQueue`,
`mySentSize`, the read size of `myEncSendQueue`, `IsEncrypted` of the library, and whether the
handshake is done; the bytes which the library got, those which the user has sent, the reports of
`OnSend`, whether an assertion failed, and whether no call of `SkipEmptyPrefix` dropped a buffer
with a next one which a link of the queue reaches. -/
structure State (m : ℕ) (B : Type*) where
  heap : Heap B
  lists : Fin m → List (Option B)
  sendQueue : List (Option B)
  sentSize : ℕ
  encSendSize : ℕ
  isEncrypted : Bool
  wasHandshakeDone : Bool
  input : List UInt8
  sent : List UInt8
  reports : List ℕ
  failed : Bool
  spared : Bool

namespace State

/-- `mySendQueue.SkipEmptyPrefix(offset)`, and the assertion behind it. -/
def skipEmptyPrefix (s : State m B) : State m B :=
  let r := s.heap.skipEmptyPrefix s.sendQueue 0
  { s with
    heap := r.heap
    sendQueue := r.head
    failed := s.failed || !(r.ok && r.offset = 0)
    spared := s.spared && decide (s.heap.Private [] s.sendQueue 0) }

/-- The first buffer is given to the library and skipped: the common part of the loops of `Encrypt`
and `PrivCipherPopulate`. There is none at the end of the queue. -/
def takeFirst (s : State m B) : Option (State m B × ℕ) :=
  match s.sendQueue with
  | [] => none
  | none :: _ => some ({ s with failed := true }, 0)
  | some b :: _ =>
    let size := (s.heap.bytes b).length
    match s.heap.skipData s.sendQueue 0 size with
    | none => some ({ s with failed := true }, 0)
    | some (links, offset) => some ({ s with
        sendQueue := links
        input := s.input ++ s.heap.bytes b
        failed := s.failed || !(decide (size > 0) && decide (offset = 0)) }, size)

/-- The loop of `Encrypt`. The number bounds its turns. -/
def encryptLoop : ℕ → State m B → Option (State m B)
  | 0, _ => none
  | n + 1, s =>
    let s := s.skipEmptyPrefix
    match s.takeFirst with
    | none => some s
    | some (s, size) => encryptLoop n { s with sentSize := s.sentSize + size }

/-- `Encrypt`. -/
def encrypt (s : State m B) : Option (State m B) :=
  if s.isEncrypted then none
  else (encryptLoop ((s.heap.content s.sendQueue).length + 1) s).map fun s =>
    { s with isEncrypted := true }

/-- The loop of `PrivCipherPopulate`, which makes at most as many turns as the number says. -/
def populateLoop : ℕ → State m B → ℕ → State m B × ℕ
  | 0, s, batchSize => (s, batchSize)
  | n + 1, s, batchSize =>
    let s := s.skipEmptyPrefix
    match s.takeFirst with
    | none => (s, batchSize)
    | some (s, size) =>
      if batchSize + size ≤ maxSize then populateLoop n s (batchSize + size)
      else (s, batchSize + size)

/-- `PrivCipherPopulate`. The loop goes on while `batchBufCount` is at most `theIOVecMaxCount`. -/
def privCipherPopulate (s : State m B) : State m B :=
  if s.encSendSize ≥ maxSize then s
  else
    let s := s.skipEmptyPrefix
    if s.sendQueue = [] then s
    else if !s.wasHandshakeDone then s
    else
      let (s, batchSize) := populateLoop (theIOVecMaxCount + 1) s 0
      { s with
        sentSize := s.sentSize + batchSize
        failed := s.failed || !decide (s.sentSize + batchSize > 0) }

/-- The user sends a list of chains. -/
def send (s : State m B) (links : List (Option B)) : State m B :=
  { s with sendQueue := s.sendQueue ++ links, sent := s.sent ++ s.heap.content links }

/-- A call on another list drops no buffer with a next one which a later link of that list or a link
of the queue reaches. -/
def Spares (s : State m B) (i : Fin m) : BufferLinkList.Call B → Prop
  | .skipEmptyPrefix offset => s.heap.Private s.sendQueue (s.lists i) offset
  | _ => True

instance (s : State m B) (i : Fin m) : (c : BufferLinkList.Call B) → Decidable (s.Spares i c)
  | .skipEmptyPrefix offset =>
    inferInstanceAs (Decidable (s.heap.Private s.sendQueue (s.lists i) offset))
  | .append _ | .skipData _ _ => .isTrue trivial

/-- A call on another list. -/
def other (s : State m B) (i : Fin m) (c : BufferLinkList.Call B) : Option (State m B) :=
  (BufferLinkList.skipper.step ⟨s.heap, s.lists⟩ (i, c)).map fun t =>
    { s with heap := t.heap, lists := t.lists, spared := s.spared && decide (s.Spares i c) }

end State

/-- What the user can do: in `OnSend`, and otherwise. -/
inductive Request (B : Type*)
  | send (links : List (Option B))
  | encrypt
  deriving DecidableEq

/-- A request. -/
def State.request (s : State m B) : Request B → Option (State m B)
  | .send links => some (s.send links)
  | .encrypt => s.encrypt

/-- Requests one after another. -/
def State.requests (s : State m B) : List (Request B) → Option (State m B)
  | [] => some s
  | r :: l => (s.request r).bind fun s => s.requests l

/-- The report of `PrivSend`. -/
def State.report (s : State m B) (inside : List (Request B)) : Option (State m B) :=
  if s.sentSize > 0 then
    let toReport := if s.sentSize > uint32Max then uint32Max else s.sentSize
    (s.requests inside).map fun s =>
      { s with reports := s.reports ++ [toReport], sentSize := s.sentSize - toReport }
  else some s

/-- `PrivSendEventConsume`: the bytes which the kernel has sent, `none` when the event is locked or
has an error. The kernel does not send more than it was given. -/
def State.consume (s : State m B) : Option ℕ → Option (State m B × Bool)
  | none => some (s, false)
  | some count =>
    if count ≤ s.encSendSize then some ({ s with encSendSize := s.encSendSize - count }, true)
    else none

/-- `PrivSend`, with the two events, the requests in `OnSend`, and the number of encrypted bytes
which the library has. -/
def State.privSend (s : State m B) (first : Option ℕ) (inside : List (Request B)) (fetched : ℕ)
    (second : Option ℕ) : Option (State m B) := do
  let (s, goOn) ← s.consume first
  if goOn = false then some s
  else
    let s ← s.privCipherPopulate.report inside
    let s := { s with encSendSize := s.encSendSize + fetched }
    if s.encSendSize = 0 then some s
    else
      let (s, _) ← s.consume second
      some s

/-- What can happen: a request of the user, the end of the handshake, an execution of `PrivSend`,
and a call on another list. -/
inductive Action (m : ℕ) (B : Type*)
  | request (r : Request B)
  | other (i : Fin m) (c : BufferLinkList.Call B)
  | handshake
  | privSend (first : Option ℕ) (inside : List (Request B)) (fetched : ℕ) (second : Option ℕ)

/-- One action. -/
def step (s : State m B) : Action m B → Option (State m B)
  | .request r => s.request r
  | .other i c => s.other i c
  | .handshake => some { s with wasHandshakeDone := true }
  | .privSend first inside fetched second => s.privSend first inside fetched second

/-- A socket from its opening on. -/
def machine : Machine (State m B) (Action m B) where
  init s := s.sendQueue = [] ∧ s.sentSize = 0 ∧ s.encSendSize = 0 ∧ s.input = [] ∧ s.sent = [] ∧
    s.reports = [] ∧ s.failed = false ∧ s.spared = true
  step := step

/-- The bytes of the library, and those of a batch which is not counted yet. -/
structure Inv (s : State m B) (batchSize : ℕ) : Prop where
  count : s.reports.sum + s.sentSize + batchSize = s.input.length
  reports : ∀ n ∈ s.reports, 0 < n ∧ n ≤ uint32Max
  failed : s.failed = false
  order : s.spared = true → s.input ++ s.heap.content s.sendQueue = s.sent

variable {s s' : State m B} {batchSize : ℕ}

namespace Inv

/-- `SkipEmptyPrefix` leaves the queue empty or with a byte at its beginning. -/
theorem skipEmptyPrefix (h : Inv s batchSize) :
    Inv s.skipEmptyPrefix batchSize ∧
      (s.skipEmptyPrefix.sendQueue = [] ∨ ∃ b l, s.skipEmptyPrefix.sendQueue = some b :: l ∧
        s.skipEmptyPrefix.heap.bytes b ≠ []) ∧
      (s.skipEmptyPrefix.heap.content s.skipEmptyPrefix.sendQueue).length ≤
        (s.heap.content s.sendQueue).length := by
  have hshrinks := s.heap.skipEmptyPrefix_shrinks s.sendQueue
  refine ⟨⟨h.count, h.reports, ?_, fun hspared => ?_⟩, ?_, hshrinks.content⟩
  · simp [State.skipEmptyPrefix, h.failed, hshrinks.ok, hshrinks.offset]
  · simp only [State.skipEmptyPrefix, Bool.and_eq_true, decide_eq_true_eq] at hspared
    obtain ⟨r, hr, -, -, -, hcontent, -⟩ :=
      BufferLinkList.Heap.skipEmptyPrefix_spec hspared.2 (BufferLinkList.Heap.fits_zero _ _)
    have hoffset : r.offset = 0 := hr ▸ hshrinks.offset
    rw [hoffset, List.drop_zero, List.drop_zero] at hcontent
    simp only [State.skipEmptyPrefix, hr]
    rw [hcontent]
    exact h.order hspared.1
  · refine hshrinks.head.imp id ?_
    rintro ⟨b, l, hl, hb⟩
    exact ⟨b, l, hl, by simpa only [State.skipEmptyPrefix, hshrinks.bytes] using hb⟩

omit [DecidableEq B] in
/-- The first buffer is taken: its bytes are the next ones. -/
theorem takeFirst (h : Inv s batchSize) {b : B} {l : List (Option B)}
    (hqueue : s.sendQueue = some b :: l) (hb : s.heap.bytes b ≠ []) :
    ∃ t, s.takeFirst = some (t, (s.heap.bytes b).length) ∧
      Inv t (batchSize + (s.heap.bytes b).length) ∧ t.heap = s.heap ∧
      (t.heap.content t.sendQueue).length + (s.heap.bytes b).length =
        (s.heap.content s.sendQueue).length ∧
      t.sentSize = s.sentSize ∧ t.isEncrypted = s.isEncrypted := by
  obtain ⟨links, hskip, hcontent⟩ : ∃ links,
      s.heap.skipData (some b :: l) 0 (s.heap.bytes b).length = some (links, 0) ∧
      s.heap.content links = (s.heap.content (some b :: l)).drop (s.heap.bytes b).length :=
    BufferLinkList.Heap.skipData_first hb
  have hwhole : s.heap.content (some b :: l) = s.heap.bytes b ++ s.heap.content links := by
    rw [hcontent, BufferLinkList.Heap.content_cons, BufferLinkList.Heap.chain_some,
      List.flatMap_cons, List.append_assoc, List.drop_left]
  unfold State.takeFirst
  rw [hqueue]
  dsimp only
  rw [hskip]
  refine ⟨_, rfl, ⟨?_, h.reports, ?_, fun hspared => ?_⟩, rfl, ?_, rfl, rfl⟩
  · have := h.count
    simp only [List.length_append]
    omega
  · simp [h.failed, List.length_pos_iff.mpr hb]
  · have := h.order hspared
    rw [hqueue, hwhole] at this
    simpa only [List.append_assoc] using this
  · dsimp only
    rw [hwhole, List.length_append]
    exact Nat.add_comm _ _

/-- A queue which begins with a byte stays as it is. -/
theorem skipEmptyPrefix_ready {b : B} {l : List (Option B)} (hqueue : s.sendQueue = some b :: l)
    (hb : s.heap.bytes b ≠ []) :
    s.skipEmptyPrefix.sendQueue = some b :: l ∧ s.skipEmptyPrefix.heap = s.heap := by
  have hready : s.heap.ready (some b) 0 = true := by
    simpa [BufferLinkList.Heap.ready] using List.length_pos_iff.mpr hb
  simp [State.skipEmptyPrefix, hqueue, BufferLinkList.Heap.skipEmptyPrefix, hready]

/-- The loop of `Encrypt` takes the whole queue. -/
theorem encryptLoop {n : ℕ} (h : Inv s 0) (hn : (s.heap.content s.sendQueue).length < n) :
    ∃ t, State.encryptLoop n s = some t ∧ Inv t 0 ∧ s.sentSize ≤ t.sentSize ∧
      t.sendQueue = [] := by
  induction n generalizing s with
  | zero => exact absurd hn (Nat.not_lt_zero _)
  | succ n ih =>
    obtain ⟨hskip, hhead, hle⟩ := h.skipEmptyPrefix
    rw [State.encryptLoop]
    obtain hnil | ⟨b, l, hl, hb⟩ := hhead
    · have hnone : s.skipEmptyPrefix.takeFirst = none := by rw [State.takeFirst, hnil]
      rw [hnone]
      exact ⟨_, rfl, hskip, le_rfl, hnil⟩
    · obtain ⟨t, ht, hinv, hheap, hlen, hsize, -⟩ := hskip.takeFirst hl hb
      rw [ht]
      have hpos := List.length_pos_iff.mpr hb
      have hinv' : Inv { t with
          sentSize := t.sentSize + (s.skipEmptyPrefix.heap.bytes b).length } 0 := by
        refine ⟨?_, hinv.reports, hinv.failed, hinv.order⟩
        have := hinv.count
        dsimp only
        omega
      obtain ⟨t', ht', hinv'', hmono, hnil⟩ := ih hinv' (by dsimp only; omega)
      refine ⟨t', ht', hinv'', le_trans ?_ hmono, hnil⟩
      have hsame : s.skipEmptyPrefix.sentSize = s.sentSize := rfl
      dsimp only
      omega

/-- `Encrypt`. -/
theorem encrypt (h : Inv s 0) (he : s.isEncrypted = false) :
    ∃ t, s.encrypt = some t ∧ Inv t 0 ∧ s.sentSize ≤ t.sentSize := by
  obtain ⟨t, ht, hinv, hmono, -⟩ := h.encryptLoop (Nat.lt_succ_self _)
  refine ⟨{ t with isEncrypted := true }, ?_, ⟨hinv.count, hinv.reports, hinv.failed, hinv.order⟩,
    hmono⟩
  rw [State.encrypt, he, ht]
  rfl

/-- The loop of `PrivCipherPopulate`. -/
theorem populateLoop {n : ℕ} (h : Inv s batchSize) :
    Inv (State.populateLoop n s batchSize).1 (State.populateLoop n s batchSize).2 ∧
      batchSize ≤ (State.populateLoop n s batchSize).2 ∧
      (State.populateLoop n s batchSize).1.sentSize = s.sentSize := by
  induction n generalizing s batchSize with
  | zero => exact ⟨h, le_rfl, rfl⟩
  | succ n ih =>
    obtain ⟨hskip, hhead, -⟩ := h.skipEmptyPrefix
    rw [State.populateLoop]
    obtain hnil | ⟨b, l, hl, hb⟩ := hhead
    · have hnone : s.skipEmptyPrefix.takeFirst = none := by rw [State.takeFirst, hnil]
      rw [hnone]
      exact ⟨hskip, le_rfl, rfl⟩
    · obtain ⟨t, ht, hinv, -, -, hsize, -⟩ := hskip.takeFirst hl hb
      rw [ht]
      dsimp only
      split
      · obtain ⟨hinv', hle, hsame⟩ := ih hinv
        exact ⟨hinv', by omega, hsame.trans hsize⟩
      · exact ⟨hinv, by omega, hsize⟩

/-- The first turn of the loop takes a byte at least. -/
theorem populateLoop_pos {n : ℕ} (h : Inv s 0) {b : B} {l : List (Option B)}
    (hqueue : s.sendQueue = some b :: l) (hb : s.heap.bytes b ≠ []) :
    0 < (State.populateLoop (n + 1) s 0).2 := by
  obtain ⟨hqueue', hheap⟩ := skipEmptyPrefix_ready hqueue hb
  have hb' : s.skipEmptyPrefix.heap.bytes b ≠ [] := by rwa [hheap]
  obtain ⟨t, ht, hinv, -⟩ := h.skipEmptyPrefix.1.takeFirst hqueue' hb'
  have hpos := List.length_pos_iff.mpr hb'
  rw [State.populateLoop]
  rw [ht]
  dsimp only
  split
  · have := (hinv.populateLoop (n := n)).2.1
    omega
  · omega

/-- `PrivCipherPopulate`. -/
theorem privCipherPopulate (h : Inv s 0) : Inv s.privCipherPopulate 0 := by
  obtain ⟨hskip, hhead, -⟩ := h.skipEmptyPrefix
  unfold State.privCipherPopulate
  split
  · exact h
  dsimp only
  split
  · exact hskip
  split
  · exact hskip
  rename_i hne _
  obtain ⟨b, l, hl, hb⟩ := hhead.resolve_left hne
  obtain ⟨hinv, -, -⟩ := hskip.populateLoop (n := theIOVecMaxCount + 1)
  have hpos := hskip.populateLoop_pos (n := theIOVecMaxCount) hl hb
  refine ⟨?_, hinv.reports, ?_, hinv.order⟩
  · have := hinv.count
    dsimp only
    omega
  · simp only [hinv.failed, Bool.false_or, Bool.not_eq_false', decide_eq_true_eq]
    omega

/-- A request of the user. -/
theorem request (h : Inv s 0) {r : Request B} (hs : s.request r = some s') :
    Inv s' 0 ∧ s.sentSize ≤ s'.sentSize := by
  cases r with
  | send links =>
    obtain rfl := Option.some.inj hs
    refine ⟨⟨h.count, h.reports, h.failed, fun hspared => ?_⟩, le_rfl⟩
    simp only [State.send, BufferLinkList.Heap.content_append]
    rw [← List.append_assoc, h.order hspared]
  | encrypt =>
    have he : s.isEncrypted = false := by
      cases he : s.isEncrypted with
      | false => rfl
      | true =>
        rw [State.request, State.encrypt, if_pos he] at hs
        cases hs
    obtain ⟨t, ht, hinv, hmono⟩ := h.encrypt he
    obtain rfl := Option.some.inj (ht.symm.trans hs)
    exact ⟨hinv, hmono⟩

theorem requests (h : Inv s 0) {l : List (Request B)} (hs : s.requests l = some s') :
    Inv s' 0 ∧ s.sentSize ≤ s'.sentSize := by
  induction l generalizing s with
  | nil =>
    obtain rfl := Option.some.inj hs
    exact ⟨h, le_rfl⟩
  | cons r l ih =>
    obtain ⟨s₁, hs₁, hs⟩ := Option.bind_eq_some_iff.mp hs
    obtain ⟨h₁, hmono₁⟩ := h.request hs₁
    obtain ⟨h₂, hmono₂⟩ := ih h₁ hs
    exact ⟨h₂, hmono₁.trans hmono₂⟩

/-- The report of `PrivSend`. -/
theorem report (h : Inv s 0) {inside : List (Request B)} (hs : s.report inside = some s') :
    Inv s' 0 := by
  rw [State.report] at hs
  split at hs
  case isFalse => exact Option.some.inj hs ▸ h
  case isTrue hpos =>
    obtain ⟨t, ht, rfl⟩ := Option.map_eq_some_iff.mp hs
    obtain ⟨hinv, hmono⟩ := h.requests ht
    have hle : (if s.sentSize > uint32Max then uint32Max else s.sentSize) ≤ t.sentSize := by
      split <;> omega
    refine ⟨?_, ?_, hinv.failed, hinv.order⟩
    · have := hinv.count
      simp only [List.sum_append, List.sum_singleton]
      omega
    · intro n hn
      rcases List.mem_append.mp hn with hn | hn
      · exact hinv.reports n hn
      · rw [List.mem_singleton.mp hn]
        have : 0 < uint32Max := by decide
        split <;> omega

omit [DecidableEq B] in
theorem consume (h : Inv s 0) {event : Option ℕ} {goOn : Bool}
    (hs : s.consume event = some (s', goOn)) : Inv s' 0 := by
  cases event with
  | none =>
    obtain ⟨rfl, -⟩ := Prod.mk.inj (Option.some.inj hs)
    exact h
  | some count =>
    obtain ⟨-, hs⟩ := Option.ite_none_right_eq_some.mp hs
    obtain ⟨rfl, -⟩ := Prod.mk.inj (Option.some.inj hs)
    exact ⟨h.count, h.reports, h.failed, h.order⟩

/-- `PrivSend`. -/
theorem privSend (h : Inv s 0) {first second : Option ℕ} {inside : List (Request B)}
    {fetched : ℕ} (hs : s.privSend first inside fetched second = some s') : Inv s' 0 := by
  obtain ⟨⟨s₁, goOn⟩, hs₁, hs⟩ := Option.bind_eq_some_iff.mp hs
  have h₁ := h.consume hs₁
  dsimp only at hs
  split at hs
  · exact Option.some.inj hs ▸ h₁
  obtain ⟨s₂, hs₂, hs⟩ := Option.bind_eq_some_iff.mp hs
  have h₂ := h₁.privCipherPopulate.report hs₂
  have h₃ : Inv { s₂ with encSendSize := s₂.encSendSize + fetched } 0 :=
    ⟨h₂.count, h₂.reports, h₂.failed, h₂.order⟩
  split at hs
  · exact Option.some.inj hs ▸ h₃
  obtain ⟨⟨s₄, goOn₂⟩, hs₄, hs⟩ := Option.bind_eq_some_iff.mp hs
  exact Option.some.inj hs ▸ h₃.consume hs₄

/-- A call on another list. -/
theorem other (h : Inv s 0) {i : Fin m} {c : BufferLinkList.Call B} (hs : s.other i c = some s') :
    Inv s' 0 := by
  obtain ⟨t, ht, rfl⟩ := Option.map_eq_some_iff.mp hs
  refine ⟨h.count, h.reports, h.failed, fun hspared => ?_⟩
  simp only [Bool.and_eq_true, decide_eq_true_eq] at hspared
  rw [← h.order hspared.1]
  congr 1
  cases c with
  | append links =>
    obtain rfl := Option.some.inj ht
    rfl
  | skipData offset count =>
    simp only [BufferLinkList.skipper, Option.ite_none_right_eq_some] at ht
    obtain ⟨l, -, rfl⟩ := Option.map_eq_some_iff.mp ht.2
    rfl
  | skipEmptyPrefix offset =>
    simp only [BufferLinkList.skipper, Option.ite_none_right_eq_some] at ht
    obtain ⟨hfit, ht⟩ := ht
    obtain rfl := Option.some.inj ht
    obtain ⟨r, hr, hbytes, -, hothers, -⟩ :=
      BufferLinkList.Heap.skipEmptyPrefix_spec hspared.2 hfit
    simp only [hr]
    rw [Heap.content, Heap.content, hbytes, BufferLinkList.Heap.flatMap_chain hothers]

/-- One action. -/
theorem step (h : Inv s 0) {a : Action m B} (hs : SSLSocketSend.step s a = some s') : Inv s' 0 := by
  cases a with
  | request r => exact (h.request hs).1
  | other i c => exact h.other hs
  | handshake =>
    obtain rfl := Option.some.inj hs
    exact ⟨h.count, h.reports, h.failed, h.order⟩
  | privSend first inside fetched second => exact h.privSend hs

end Inv

/-- A chain of an empty buffer and two buffers with bytes. -/
def sample : Heap (Fin 3) where
  bytes b := if b.val = 0 then [] else if b.val = 1 then [1, 2] else [3]
  next b := if h : b.val + 1 < 3 then some ⟨b.val + 1, h⟩ else none
  rank b := 2 - b
  lt b c h := by
    revert b c
    decide

/-- A socket which has nothing to send. -/
def idle : State 1 (Fin 3) where
  heap := sample
  lists _ := []
  sendQueue := []
  sentSize := 0
  encSendSize := 0
  isEncrypted := false
  wasHandshakeDone := false
  input := []
  sent := []
  reports := []
  failed := false
  spared := true

theorem idle_init : machine.init idle := ⟨rfl, rfl, rfl, rfl, rfl, rfl, rfl, rfl⟩

/-- A chain which begins with an empty buffer is sent, and another list drops this buffer first. -/
theorem sent_to_two : ∃ s : State 1 (Fin 3), machine.Reachable s ∧ s.sendQueue = [] ∧
    s.sent = [1, 2, 3] ∧ s.input = [] ∧ s.spared = false := by
  obtain ⟨s, hs, hrest⟩ : ∃ s, machine.run idle
      [.request (.send [some 0]), .other 0 (.append [some 0]), .handshake,
        .other 0 (.skipEmptyPrefix 0), .privSend (some 0) [] 0 none] = some s ∧
      (s.sendQueue, s.sent, s.input, s.spared) = ([], [1, 2, 3], [], false) :=
    Option.map_eq_some_iff.mp (by decide +kernel)
  simp only [Prod.mk.injEq] at hrest
  exact ⟨s, .of_run (.init idle_init) hs, hrest⟩

end SSLSocketSend

end Serverbox
