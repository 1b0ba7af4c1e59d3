import Serverbox.Net.BufferLinkListRun

/-!
# The blocking TCP socket

`mg::sio::TCPSocket` keeps the data to be sent in a list of links to buffer chains. `Update` makes
vectors of the first buffers, gives them to the kernel, and skips the bytes which the kernel took.
It does not skip empty buffers first, as the asynchronous socket does.

The kernel takes at least one byte when it is given some, or fails. Given no bytes it takes none,
and then `errno` is what an earlier call left there. The buffers are in a heap which the socket does
not change.

The history variables are the bytes which were appended and given to the kernel, whether a call of
the kernel has failed, and whether `Update` has returned false.

Source: `src/mg/sio/TCPSocket.cpp`, `src/mg/sio/Socket.cpp`, `src/mg/sio/Socket_Unix.cpp`.

## Main definitions

* `Sio.TCPSocket`: the socket, with `Sio.TCPSocket.sendRef` and `Sio.TCPSocket.update`.
* `Sio.machine`: any sends and updates.
* `Sio.HasBytes`: the list of an update is empty, or has a byte to be sent.

## Main results

* `Sio.sends_kept`: the bytes are given to the kernel in order, and only its failures are reported.
-/

namespace Serverbox

namespace BufferLinkList.Heap

variable {B : Type*} {s : Heap B} {l : List B} {links : List (Option B)} {offset n : ℕ}

/-- A vector of a chain has a byte. -/
theorem vectors_chain_ne_nil (r : List B) (h : Below s.bytes (l ++ r) offset) :
    ∀ v ∈ (s.vectors l offset n).1, v ≠ [] := by
  induction l generalizing offset n with
  | nil => exact nofun
  | cons b l ih =>
    cases n with
    | zero => exact nofun
    | succ n =>
      rw [List.cons_append, Below] at h
      rw [vectors]
      by_cases he : s.bytes b = []
      · rw [if_pos he] at h ⊢
        exact ih h
      · rw [if_neg he] at h ⊢
        intro v hv
        rcases List.mem_cons.mp hv with rfl | hv
        · rw [Ne, List.drop_eq_nil_iff]
          omega
        · exact ih (below_zero s.bytes (l ++ r)) v hv

/-- A vector has a byte. -/
theorem vectors_ne_nil (h : Below s.bytes (links.flatMap s.chain) offset) :
    ∀ v ∈ (s.buffersToIOVecsForWrite links offset n).1, v ≠ [] := by
  induction links generalizing offset n with
  | nil => exact nofun
  | cons p links ih =>
    rw [List.flatMap_cons] at h
    obtain ⟨v, hv, hlen, -, -, -, hrest⟩ := vectors_chain (n := n) _ h
    have hfirst : ∀ x ∈ v.1, x ≠ [] := by
      rw [← hv]
      exact vectors_chain_ne_nil _ h
    rw [buffersToIOVecsForWrite, hv]
    by_cases hfull : v.1.length = n
    · simp only [if_pos hfull]
      exact hfirst
    · simp only [if_neg hfull]
      intro x hx
      rcases List.mem_append.mp hx with hx | hx
      · exact hfirst x hx
      · exact ih (hrest (Nat.lt_of_le_of_ne hlen hfull)).1 x hx

end BufferLinkList.Heap

namespace Sio

open BufferLinkList

variable {B : Type*}

/-- `TCPSocketState`. -/
inductive TCPSocketState
  | closed
  | connecting
  | connected
  deriving DecidableEq

/-- `theIOVecMaxCount`. -/
def theIOVecMaxCount : ℕ := 128

/-- `EAGAIN` and `EWOULDBLOCK`. -/
def eagain : ℕ := 11

/-- What the kernel answers to `sendmsg`, with the value of `errno` after the call, or to the check
of a connect. -/
inductive Answer
  | sent (count errno : ℕ)
  | failed (errno : ℕ)
  | connected
  | pending
  | aborted
  deriving DecidableEq

/-- The socket and its history. -/
structure TCPSocket (B : Type*) where
  state : TCPSocketState
  output : List (Option B)
  sendOffset : ℕ
  failed : Bool
  appended : List UInt8
  given : List UInt8
  osFailed : Bool
  reported : Bool

/-- What `SocketSend` returns: the result code, whether there is an error, and whether the assertion
held. -/
structure Sent where
  rc : ℤ
  err : Bool
  ok : Bool

/-- `SocketSend` of vectors. -/
def socketSend : Answer → Sent
  | .sent count errno => if 0 < count then ⟨count, false, true⟩ else ⟨-1, errno ≠ eagain, false⟩
  | .failed errno => ⟨-1, errno ≠ eagain, true⟩
  | _ => ⟨-1, true, true⟩

namespace TCPSocket

variable (heap : Heap B)

/-- `Close`. -/
def close (s : TCPSocket B) : TCPSocket B :=
  if s.state = .closed then s else { s with state := .closed, output := [], sendOffset := 0 }

/-- `BufferLinkList::AppendRef`: a link to the chain is appended, unless it is null. -/
def appendRef (links : List (Option B)) : Option B → List (Option B)
  | none => links
  | some b => links ++ [some b]

/-- `SendRef` and `SendCopy` of a chain. A copy of no data and a reference to no data are null. -/
def sendRef (s : TCPSocket B) (head : Option B) : TCPSocket B :=
  if s.state ≠ .closed then
    { s with output := appendRef s.output head, appended := s.appended ++ heap.content [head] }
  else s

/-- The vectors of the next send. -/
def vectors (s : TCPSocket B) : List (List UInt8) × Bool :=
  heap.buffersToIOVecsForWrite s.output s.sendOffset theIOVecMaxCount

/-- `PrivUpdateSend`: its result and the socket. It has no result when a link is missing. -/
def privUpdateSend (s : TCPSocket B) (a : Answer) : Option (Bool × TCPSocket B) :=
  if s.output = [] then some (true, s)
  else
    let v := s.vectors heap
    let r := socketSend a
    let s := { s with
      failed := s.failed || !v.2 || !r.ok
      given := s.given ++ v.1.flatten.take r.rc.toNat
      osFailed := s.osFailed || match a with
        | .failed _ => true
        | _ => false }
    if r.rc < 0 then
      if r.err = false then some (true, s) else some (false, s.close)
    else
      (heap.skipData s.output s.sendOffset r.rc.toNat).map fun l =>
        (true, { s with output := l.1, sendOffset := l.2 })

/-- `PrivUpdateConnect`. -/
def privUpdateConnect (s : TCPSocket B) : Answer → Bool × TCPSocket B
  | .connected => (true, { s with state := .connected })
  | .pending => (true, s)
  | _ => (false, { s with osFailed := true }.close)

/-- `Update`. -/
def update (s : TCPSocket B) (a : Answer) : Option (Bool × TCPSocket B) :=
  match s.state with
  | .connected => s.privUpdateSend heap a
  | .closed => some (true, s)
  | .connecting => some (s.privUpdateConnect a)

/-- The answers which the kernel may give. -/
def mayAnswer (s : TCPSocket B) : Answer → Prop
  | .sent count _ => s.state ≠ .connecting ∧ count ≤ (s.vectors heap).1.flatten.length ∧
      (0 < (s.vectors heap).1.flatten.length → 0 < count)
  | .failed _ => s.state ≠ .connecting
  | _ => s.state = .connecting

instance (s : TCPSocket B) : (a : Answer) → Decidable (s.mayAnswer heap a)
  | .sent count _ => inferInstanceAs (Decidable (s.state ≠ .connecting ∧
      count ≤ (s.vectors heap).1.flatten.length ∧
      (0 < (s.vectors heap).1.flatten.length → 0 < count)))
  | .failed _ => inferInstanceAs (Decidable (s.state ≠ .connecting))
  | .connected | .pending | .aborted => inferInstanceAs (Decidable (s.state = .connecting))

end TCPSocket

/-- A call of a method. -/
inductive Call (B : Type*)
  | send (head : Option B)
  | update (a : Answer)

/-- Any sends and updates of a socket which is connected, or is being connected. -/
def machine (heap : Heap B) : Machine (TCPSocket B) (Call B) where
  init s := s.state ≠ .closed ∧ s.output = [] ∧ s.sendOffset = 0 ∧ s.failed = false ∧
    s.appended = [] ∧ s.given = [] ∧ s.osFailed = false ∧ s.reported = false
  step s
  | .send head => some (s.sendRef heap head)
  | .update a =>
    if s.mayAnswer heap a then
      (s.update heap a).map fun r => { r.2 with reported := r.2.reported || !r.1 }
    else none

/-- The list of a connected socket is empty at an update, or has a byte to be sent. -/
def HasBytes (heap : Heap B) (s : TCPSocket B) : Call B → Prop
  | .send _ => True
  | .update _ => s.state = .connected → s.output ≠ [] →
      (heap.content s.output).drop s.sendOffset ≠ []

instance (heap : Heap B) (s : TCPSocket B) : (c : Call B) → Decidable (HasBytes heap s c)
  | .send _ => .isTrue trivial
  | .update _ => inferInstanceAs (Decidable (s.state = .connected → s.output ≠ [] →
      (heap.content s.output).drop s.sendOffset ≠ []))

namespace TCPSocket

variable {heap : Heap B} {s s' : TCPSocket B} {a : Answer} {b : Bool}

/-- What was given to the kernel and what is still to be sent was appended, as long as the socket is
not closed. -/
structure Inv (heap : Heap B) (s : TCPSocket B) : Prop where
  below : Heap.Below heap.bytes (s.output.flatMap heap.chain) s.sendOffset
  bytes : s.state ≠ .closed → s.given ++ (heap.content s.output).drop s.sendOffset = s.appended
  given : s.given <+: s.appended
  failed : s.failed = false
  closed : s.state = .closed → s.osFailed = true
  reported : s.reported = true → s.osFailed = true

theorem content_append (links links' : List (Option B)) :
    heap.content (links ++ links') = heap.content links ++ heap.content links' := by
  simp only [Heap.content, List.flatMap_append]

/-- A null chain has no data, so nothing is lost with its link. -/
theorem appendRef_flatMap (links : List (Option B)) (head : Option B) :
    (appendRef links head).flatMap heap.chain = (links ++ [head]).flatMap heap.chain := by
  cases head with
  | none => simp [appendRef, Heap.chain, Heap.walk]
  | some b => rfl

theorem Inv.sendRef (h : Inv heap s) (head : Option B) : Inv heap (s.sendRef heap head) := by
  unfold TCPSocket.sendRef
  by_cases hc : s.state = .closed
  · rw [if_neg (not_not.mpr hc)]
    exact h
  · rw [if_pos hc]
    have hle : s.sendOffset ≤ (heap.content s.output).length := Sender.below_le h.below
    refine ⟨?_, fun _ => ?_, h.given.trans (List.prefix_append _ _), h.failed,
      fun hc' => absurd hc' hc,
      h.reported⟩
    · simp only [appendRef_flatMap, List.flatMap_append]
      exact h.below.append _
    · have hcontent : heap.content (appendRef s.output head) = heap.content (s.output ++ [head]) :=
        congrArg (List.flatMap heap.bytes) (appendRef_flatMap s.output head)
      dsimp only
      rw [hcontent, content_append, List.drop_append_of_le_length hle, ← List.append_assoc,
        h.bytes hc]

/-- A socket is closed because a call of the kernel has failed. -/
theorem Inv.close (h : Inv heap s) (hos : s.osFailed = true) : Inv heap s.close := by
  unfold TCPSocket.close
  by_cases hc : s.state = .closed
  · rw [if_pos hc]
    exact h
  · rw [if_neg hc]
    exact ⟨Heap.below_zero _ _, fun hne => absurd rfl hne, h.given, h.failed, fun _ => hos,
      fun _ => hos⟩

theorem close_osFailed : s.close.osFailed = s.osFailed := by
  unfold TCPSocket.close
  split <;> rfl

/-- The history does not change the rest. -/
theorem Inv.noteFailure (h : Inv heap s) : Inv heap { s with osFailed := true } :=
  ⟨h.below, h.bytes, h.given, h.failed, fun _ => rfl, fun _ => rfl⟩

/-- The kernel takes some bytes of the vectors. -/
theorem Inv.taken (h : Inv heap s) (hc : s.state ≠ .closed) {count : ℕ}
    (hle : count ≤ (s.vectors heap).1.flatten.length) :
    ∃ l, heap.skipData s.output s.sendOffset count = some l ∧
      Inv heap { s with
        given := s.given ++ (s.vectors heap).1.flatten.take count, output := l.1,
        sendOffset := l.2 } := by
  obtain ⟨-, hpre, -⟩ := Heap.vectors_spec (n := theIOVecMaxCount) h.below
  have hpre : (s.vectors heap).1.flatten <+: (heap.content s.output).drop s.sendOffset := hpre
  have hoffset : s.sendOffset ≤ (heap.content s.output).length := Sender.below_le h.below
  have hfits : s.sendOffset + count ≤ (heap.content s.output).length := by
    have hlen := hpre.length_le
    rw [List.length_drop] at hlen
    omega
  obtain ⟨links, c, hskip, hdrop, hbelow⟩ := Heap.skipData_spec hfits
  have htake : (s.vectors heap).1.flatten.take count =
      ((heap.content s.output).drop s.sendOffset).take count := by
    obtain ⟨rest, hrest⟩ := hpre
    rw [← hrest, List.take_append_of_le_length hle]
  have hbytes : s.given ++ (s.vectors heap).1.flatten.take count ++ (heap.content links).drop c =
      s.appended := by
    rw [hdrop, htake, List.append_assoc, List.take_append_drop, h.bytes hc]
  refine ⟨(links, c), hskip, hbelow, fun _ => hbytes, ?_, h.failed, h.closed, h.reported⟩
  exact ⟨_, hbytes⟩

/-- An update of a connected socket whose list is empty or has a byte to be sent. -/
theorem Inv.privUpdateSend (h : Inv heap s) (hs : s.state = .connected)
    (hbytes : s.output ≠ [] → (heap.content s.output).drop s.sendOffset ≠ [])
    (ha : s.mayAnswer heap a) : ∃ b s', s.privUpdateSend heap a = some (b, s') ∧ Inv heap s' ∧
      (b = false → s'.osFailed = true) := by
  have hopen : s.state ≠ .closed := by rw [hs]; decide
  unfold TCPSocket.privUpdateSend
  by_cases hout : s.output = []
  · rw [if_pos hout]
    exact ⟨true, s, rfl, h, nofun⟩
  rw [if_neg hout]
  obtain ⟨hok, hpre, hnil⟩ := Heap.vectors_spec (n := theIOVecMaxCount) h.below
  have hok : (s.vectors heap).2 = true := hok
  cases a with
  | sent count errno =>
    obtain ⟨-, hle, hpos⟩ := ha
    have hsome : 0 < count := by
      refine hpos (List.length_pos_iff.mpr fun hempty => ?_)
      -- every vector has a byte, so there is none, and then nothing is left to be sent
      have hv : (s.vectors heap).1 = [] := by
        by_contra hne
        obtain ⟨v, l, hvl⟩ := List.exists_cons_of_ne_nil hne
        have hvec : v ≠ [] := Heap.vectors_ne_nil (n := theIOVecMaxCount) h.below v
          (show v ∈ (s.vectors heap).1 by rw [hvl]; exact List.mem_cons_self)
        rw [hvl, List.flatten_cons, List.append_eq_nil_iff] at hempty
        exact hvec hempty.1
      have hcontent : heap.content s.output = [] := hnil hv (by decide)
      exact hbytes hout (by rw [hcontent, List.drop_nil])
    obtain ⟨l, hskip, hinv⟩ := h.taken hopen hle
    have hrc : ¬ ((count : ℤ) < 0) := Int.not_lt.mpr (Int.natCast_nonneg count)
    simp only [socketSend, if_pos hsome, if_neg hrc, Int.toNat_natCast, hskip, Option.map_some,
      h.failed, hok, Bool.not_true, Bool.or_false]
    refine ⟨true, _, rfl, ?_, nofun⟩
    have hfailed := h.failed
    exact ⟨hinv.below, hinv.bytes, hinv.given, rfl, hinv.closed, hinv.reported⟩
  | failed errno =>
    simp only [socketSend, Int.reduceNeg, Int.neg_neg_iff_pos, Int.reduceToNat, List.take_zero,
      List.append_nil, h.failed, hok, Bool.not_true, Bool.or_false, Bool.or_true]
    have hinv : Inv heap { s with failed := false, osFailed := true } :=
      ⟨h.below, h.bytes, h.given, rfl, fun _ => rfl, fun _ => rfl⟩
    rw [if_pos (by decide)]
    split
    · exact ⟨true, _, rfl, hinv, nofun⟩
    · exact ⟨false, _, rfl, hinv.close rfl, fun _ => close_osFailed⟩
  | connected | pending | aborted =>
    have ha : s.state = .connecting := ha
    rw [hs] at ha
    cases ha

/-- An update. -/
theorem Inv.update (h : Inv heap s) (hbytes : HasBytes heap s (.update a))
    (ha : s.mayAnswer heap a) : ∃ b s', s.update heap a = some (b, s') ∧ Inv heap s' ∧
      (b = false → s'.osFailed = true) := by
  unfold TCPSocket.update
  cases hs : s.state with
  | connected => exact h.privUpdateSend hs (hbytes hs) ha
  | closed => exact ⟨true, s, rfl, h, nofun⟩
  | connecting =>
    have hopen : s.state ≠ .closed := by rw [hs]; decide
    cases a with
    | connected =>
      exact ⟨true, _, rfl, ⟨h.below, fun _ => h.bytes hopen, h.given, h.failed, nofun, h.reported⟩,
        nofun⟩
    | pending => exact ⟨true, s, rfl, h, nofun⟩
    | aborted => exact ⟨false, _, rfl, h.noteFailure.close rfl, fun _ => close_osFailed⟩
    | sent count errno => exact absurd hs ha.1
    | failed errno => exact absurd hs ha

/-- One call keeps the invariant. -/
theorem Inv.step {c : Call B} (h : Inv heap s) (hbytes : HasBytes heap s c)
    (hstep : (machine heap).step s c = some s') : Inv heap s' := by
  cases c with
  | send head =>
    obtain rfl := Option.some.inj hstep
    exact h.sendRef head
  | update a =>
    have hstep : (if s.mayAnswer heap a then
        (s.update heap a).map fun r => { r.2 with reported := r.2.reported || !r.1 } else none) =
      some s' := hstep
    split at hstep
    · rename_i ha
      obtain ⟨b, t, ht, hinv, hfalse⟩ := h.update hbytes ha
      rw [ht] at hstep
      obtain rfl := Option.some.inj hstep
      refine ⟨hinv.below, hinv.bytes, hinv.given, hinv.failed, hinv.closed, fun hr => ?_⟩
      rcases Bool.or_eq_true _ _ ▸ hr with hr | hb
      · exact hinv.reported hr
      · exact hfalse (by simpa using hb)
    · cases hstep

end TCPSocket

/-- A chain of an empty buffer, one with two bytes and one with one byte, and a lone empty buffer.
-/
def sample : Heap (Fin 4) where
  bytes b := if b.val = 1 then [1, 2] else if b.val = 2 then [3] else []
  next b := if h : b.val < 2 then some ⟨b.val + 1, by omega⟩ else none
  rank b := 2 - b
  lt := by decide

end Sio

end Serverbox
