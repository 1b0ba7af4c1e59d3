import Serverbox.Net.SSLStream

/-!
# The output of the encrypted stream

`PopAppOutput` reads decrypted bytes into buffers until OpenSSL has no more, links these buffers to
a chain, and hands the chain out. The last answer of OpenSSL decides: when it is a fatal error the
chain is dropped.

The stream of `Serverbox.SSLStream` is extended by the bytes which are read, and by the history of
all the bytes which OpenSSL has delivered and of those which were handed out. A new stream, which is
not encrypted, hands out its network input.

Source: `src/mg/net/SSLStreamOpenSSL.cpp`.

## Main definitions

* `SSLStream.Output`: the stream with its output.
* `SSLStream.Output.popAppOutput`: `PopAppOutput`.
* `SSLStream.keepsOutput`: the calls in which a fatal error does not follow a successful read.

## Main results

* `SSLStream.Output.step_stream`: the steps are those of the stream.
* `SSLStream.output_kept`: everything which was delivered is handed out.
-/

namespace Serverbox

namespace SSLStream

/-- The stream, its network input as long as it is new, and the history: the bytes which the
successful reads delivered, the bytes which were handed out, and whether each returned size was the
size of the chain. -/
structure Output where
  stream : State
  netInput : List UInt8
  delivered : List UInt8
  handed : List UInt8
  sizesMatch : Bool

/-- What the loop of `PopAppOutput` leaves: the result of `PrivCheckError`, the chain, the count of
the bytes, and the stream. -/
structure Gathered where
  ok : Bool
  head : List (List UInt8)
  byteCount : ℕ
  stream : State

/-- The loop of `PopAppOutput` over the answers which are to come, with the bytes which the
successful reads store in the cached buffer. -/
def gatherLoop : List Answer → List (List UInt8) → List (List UInt8) → ℕ → State → Gathered
  | [], _, head, byteCount, s => ⟨true, head, byteCount, s.documented false⟩
  | a :: l, bytes, head, byteCount, s =>
    let s := { s with late := s.late || s.fatal, answers := l }
    if a = .done then
      gatherLoop l bytes.tail (head ++ [bytes.headD []]) (byteCount + (bytes.headD []).length) s
    else
      let r := s.checkError a
      ⟨r.1, head, byteCount, r.2⟩

/-- A call of a method with the answers of OpenSSL, and with the bytes which the reads deliver, or
which the network gives. -/
structure Call where
  method : Method
  answers : List Answer
  bytes : List (List UInt8)

namespace Output

/-- The constructor. -/
def init : Output := ⟨.init, [], [], [], true⟩

/-- A chain is handed out with a size. -/
def hand (o : Output) (head : List (List UInt8)) (size : ℕ) : Output :=
  { o with
    handed := o.handed ++ head.flatten
    sizesMatch := o.sizesMatch && decide (size = head.flatten.length) }

/-- `PopAppOutput`. -/
def popAppOutput (o : Output) (bytes : List (List UInt8)) : Output :=
  let r := o.stream.privUpdate
  if r.1 then
    let g := gatherLoop r.2.answers bytes [] 0 r.2
    let o := { o with stream := g.stream, delivered := o.delivered ++ g.head.flatten }
    if g.ok then o.hand g.head g.byteCount else o
  else
    let o := { o with stream := r.2 }
    if r.2.state = .new then { o.hand [o.netInput] o.netInput.length with netInput := [] } else o

/-- The call of a method. -/
def call (o : Output) (c : Call) : Output :=
  let o := { o with stream := { o.stream with answers := c.answers } }
  match c.method with
  | .popAppOutput => o.popAppOutput c.bytes
  | .appendNetInput => { o with netInput := o.netInput ++ c.bytes.flatten }
  | m => { o with stream := m.run o.stream }

/-- The reads fit into a buffer and are not empty. -/
def fits (c : Call) : Bool :=
  match c.method with
  | .popAppOutput => c.bytes.all fun b => decide (b ≠ [] ∧ b.length ≤ Chain.capacity)
  | _ => true

/-- One call; not enabled when the answers are not those to what the stream asks. -/
def step (o : Output) (c : Call) : Option Output :=
  let o' := o.call c
  if c.method.allowed o.stream = true ∧ fits c = true ∧ o'.stream.answers = [] ∧
      o'.stream.fits = true then
    some o'
  else none

/-- Any calls, with any answers and any bytes. -/
def machine : Machine Output Call where
  init o := o = .init
  step := step

/-- The answers to the reads of a call of `PopAppOutput`. -/
def readAnswers (o : Output) (c : Call) : List Answer :=
  ({ o.stream with answers := c.answers } : State).privUpdate.2.answers

end Output

/-- A fatal error follows a successful read. -/
def fatalAfterRead (l : List Answer) : Bool :=
  l.head? = some .done &&
    match (l.dropWhile (· = .done)).head? with
    | some (.failed (.fatal _)) => true
    | _ => false

/-- The calls which lose nothing: in `PopAppOutput` no fatal error follows a successful read, and a
new stream, which is not encrypted, has no network input. -/
def keepsOutput (o : Output) (c : Call) : Bool :=
  match c.method with
  | .popAppOutput => (o.stream.state ≠ .new || o.netInput = []) && !fatalAfterRead (o.readAnswers c)
  | _ => true

variable {o o' : Output} {c : Call} {s : State} {l : List Answer} {bytes head : List (List UInt8)}
  {n : ℕ}

/-- The stream goes through the loop without the bytes. -/
theorem gatherLoop_stream (l : List Answer) (bytes head : List (List UInt8)) (n : ℕ) (s : State) :
    (gatherLoop l bytes head n s).stream = State.readLoop l s := by
  induction l generalizing bytes head n s with
  | nil => rfl
  | cons a l ih =>
    rw [gatherLoop, State.readLoop]
    by_cases ha : a = .done
    · rw [if_pos ha, if_pos ha]
      exact ih _ _ _ _
    · rw [if_neg ha, if_neg ha]

/-- The count is the size of the chain. -/
theorem gatherLoop_byteCount (hn : n = head.flatten.length) :
    (gatherLoop l bytes head n s).byteCount =
      (gatherLoop l bytes head n s).head.flatten.length := by
  induction l generalizing bytes head n s with
  | nil => exact hn
  | cons a l ih =>
    rw [gatherLoop]
    by_cases ha : a = .done
    · rw [if_pos ha]
      refine ih ?_
      rw [hn, List.flatten_append, List.length_append, List.flatten_singleton]
    · rw [if_neg ha]
      exact hn

/-- Only a fatal error is reported. -/
theorem checkError_fatal {a : Answer} (h : (s.checkError a).1 = false) :
    ∃ code, a = .failed (.fatal code) := by
  cases a with
  | failed err =>
    cases err with
    | fatal code => exact ⟨code, rfl⟩
    | wantRead | wantWrite | zeroReturn => cases h
  | done | quiet | unasked => cases h

/-- The chain is dropped only when a fatal error ends the loop, and it is empty when the loop begins
with the error. -/
theorem gatherLoop_fails (h : (gatherLoop l bytes head n s).ok = false) :
    (∃ code, (l.dropWhile (· = .done)).head? = some (.failed (.fatal code))) ∧
      (l.head? ≠ some .done → (gatherLoop l bytes head n s).head = head) := by
  induction l generalizing bytes head n s with
  | nil => cases h
  | cons a l ih =>
    rw [gatherLoop] at h ⊢
    by_cases ha : a = .done
    · rw [if_pos ha] at h
      rw [List.dropWhile_cons_of_pos (by simpa using ha)]
      exact ⟨(ih h).1, fun hne => absurd (congrArg some ha) hne⟩
    · rw [if_neg ha] at h ⊢
      obtain ⟨code, hcode⟩ := checkError_fatal h
      rw [List.dropWhile_cons_of_neg (by simpa using ha)]
      exact ⟨⟨code, congrArg some hcode⟩, fun _ => rfl⟩

/-- When no fatal error follows a read, the chain is handed out or empty. -/
theorem gatherLoop_keeps (h : fatalAfterRead l = false)
    (hok : (gatherLoop l bytes [] 0 s).ok = false) : (gatherLoop l bytes [] 0 s).head = [] := by
  obtain ⟨⟨code, hcode⟩, hhead⟩ := gatherLoop_fails hok
  refine hhead fun hdone => ?_
  rw [fatalAfterRead, hdone, hcode] at h
  simp at h

namespace Output

/-- The output follows the stream: its steps are steps of the stream. -/
theorem step_stream (h : step o c = some o') :
    SSLStream.step o.stream (c.method, c.answers) = some o'.stream := by
  unfold step at h
  dsimp only at h
  split at h
  · rename_i hc
    obtain ⟨hallowed, -, hans, hfits⟩ := hc
    obtain rfl := Option.some.inj h
    have hrun : (o.call c).stream = c.method.run { o.stream with answers := c.answers } := by
      unfold call
      cases c.method with
      | popAppOutput =>
        dsimp only [Method.run]
        unfold popAppOutput State.popAppOutput
        dsimp only
        by_cases hr : ({ o.stream with answers := c.answers } : State).privUpdate.1 = true
        · rw [if_pos hr, if_pos hr, ← gatherLoop_stream _ c.bytes [] 0]
          split <;> rfl
        · rw [if_neg hr, if_neg hr]
          split <;> rfl
      | update | connect | shutdown | appendAppInputCopy data | appendNetInput | popNetOutput => rfl
    rw [hrun] at hans hfits ⊢
    unfold SSLStream.step
    exact if_pos ⟨hallowed, hans, hfits⟩
  · cases h

end Output

/-! ### A stream which was connected is not new -/

theorem close_ne_new (e : ℕ) (h : s.state ≠ .new) : (s.close e).state ≠ .new := by
  have hclosing : Stage.closing ≠ .new := by decide
  have hclosed : Stage.closed ≠ .new := by decide
  unfold State.close
  dsimp only
  repeat' split
  all_goals first | exact h | exact hclosing | exact hclosed

theorem checkError_ne_new (a : Answer) (h : s.state ≠ .new) : (s.checkError a).2.state ≠ .new := by
  have hclosing : Stage.closing ≠ .new := by decide
  cases a with
  | failed err =>
    cases err with
    | wantRead | wantWrite => exact h
    | zeroReturn => exact hclosing
    | fatal code => exact close_ne_new code h
  | done | quiet | unasked => exact h

theorem ask_state (s : State) : s.ask.2.state = s.state := by
  unfold State.ask
  split <;> rfl

theorem dataCall_state (s : State) : s.dataCall.2.state = s.state := ask_state _

theorem appWrite_ne_new (h : s.state ≠ .new) : s.appWrite.2.state ≠ .new := by
  have hcall := dataCall_state s
  unfold State.appWrite
  split
  · rename_i t ht
    rw [ht] at hcall
    exact hcall ▸ h
  · rename_i a t _ ht
    rw [ht] at hcall
    have hcheck := checkError_ne_new (s := t) a (hcall ▸ h)
    split <;> rename_i r <;> simpa [r] using hcheck

theorem flushLoop_ne_new (c : Chain) (h : s.state ≠ .new) :
    (State.flushLoop c s).2.state ≠ .new := by
  induction c generalizing s with
  | nil => exact h
  | cons b l ih =>
    obtain ⟨bytes, room⟩ := b
    rw [State.flushLoop]
    have happ : (({ s with appInput := (bytes, room) :: l } : State).assert
        (decide (bytes ≠ []))).appWrite.2.state ≠ .new := appWrite_ne_new h
    dsimp only
    split
    · exact h
    · split
      · exact happ
      · split
        · exact happ
        · split
          · exact ih happ
          · exact happ

/-- `PrivUpdate` does not make a stream new. -/
theorem privUpdate_ne_new (h : s.state ≠ .new) : s.privUpdate.2.state ≠ .new := by
  have hclosed : Stage.closed ≠ .new := by decide
  have hconnected : Stage.connected ≠ .new := by decide
  unfold State.privUpdate
  split
  · exact flushLoop_ne_new _ h
  · exact h
  · have hask := ask_state (s.assert (decide (s.appInput = [])))
    split <;> rename_i t ht <;> rw [ht] at hask
    · exact hclosed
    · exact hask ▸ h
    · exact checkError_ne_new _ (hask ▸ h)
  · exact h
  · have hcall := dataCall_state (s.assert (decide (s.error = 0)))
    split <;> rename_i t ht <;> rw [ht] at hcall
    · exact hconnected
    · exact checkError_ne_new _ (hcall ▸ h)

/-! ### Runs -/

namespace Output

/-- Everything which was delivered was handed out, with the right sizes. -/
def Kept (o : Output) : Prop := o.handed = o.delivered ∧ o.sizesMatch = true

/-- A chain is handed out with its size. -/
theorem Kept.hand (h : Kept o) (head : List (List UInt8)) {stream : State} {net : List UInt8} :
    Kept (({ o with
      stream, netInput := net, delivered := o.delivered ++ head.flatten } : Output).hand
      head head.flatten.length) := by
  refine ⟨?_, ?_⟩
  · simp only [Output.hand, h.1]
  · simp only [Output.hand, h.2, decide_true, Bool.and_self]

/-- A call of `PopAppOutput` in which no fatal error follows a read. -/
theorem Kept.popAppOutput (h : Kept o) (bytes : List (List UInt8))
    (hnew : o.stream.state = .new → o.netInput = [])
    (hfatal : fatalAfterRead o.stream.privUpdate.2.answers = false) :
    Kept (o.popAppOutput bytes) := by
  unfold Output.popAppOutput
  by_cases hr : o.stream.privUpdate.1 = true
  · rw [if_pos hr]
    set g := gatherLoop o.stream.privUpdate.2.answers bytes [] 0 o.stream.privUpdate.2 with hg
    have hcount : g.byteCount = g.head.flatten.length := gatherLoop_byteCount rfl
    dsimp only
    by_cases hok : g.ok = true
    · rw [if_pos hok, hcount]
      exact h.hand g.head
    · rw [if_neg hok]
      have hhead : g.head = [] := gatherLoop_keeps hfatal (Bool.not_eq_true _ ▸ hok)
      rw [hhead, List.flatten_nil, List.append_nil]
      exact h
  · rw [if_neg hr]
    dsimp only
    by_cases hstate : o.stream.privUpdate.2.state = .new
    · rw [if_pos hstate]
      have hnet : o.netInput = [] := hnew (by
        by_contra hne
        exact privUpdate_ne_new hne hstate)
      refine ⟨?_, ?_⟩
      · simp [Output.hand, hnet, h.1]
      · simp [Output.hand, h.2]
    · rw [if_neg hstate]
      exact h

theorem Kept.step (h : Kept o) (hkeeps : keepsOutput o c = true)
    (hstep : Output.step o c = some o') :
    Kept o' := by
  unfold Output.step at hstep
  dsimp only at hstep
  split at hstep
  · obtain rfl := Option.some.inj hstep
    unfold Output.call
    unfold keepsOutput at hkeeps
    cases hm : c.method with
    | popAppOutput =>
      rw [hm] at hkeeps
      simp only [Bool.and_eq_true, Bool.or_eq_true, decide_eq_true_eq, Bool.not_eq_true'] at hkeeps
      obtain ⟨hnew, hfatal⟩ := hkeeps
      refine Kept.popAppOutput (o := { o with stream := { o.stream with answers := c.answers } })
        h c.bytes (fun hs => hnew.resolve_left fun hne => hne hs) ?_
      exact hfatal
    | update | connect | shutdown | appendAppInputCopy data | appendNetInput | popNetOutput =>
      exact h
  · cases hstep

end Output

/-- **The output is not lost.** In every run in which no fatal error follows a successful read in
the same call of `PopAppOutput`, the bytes which were handed out are those which were delivered,
each once and in order, and each returned size is that of the chain. -/
theorem output_kept (h : Output.machine.ReachableBy (fun o c => keepsOutput o c = true) o) :
    o.handed = o.delivered ∧ o.sizesMatch = true := by
  refine Output.machine.invariant_by (P := Output.Kept) ?_ ?_ h
  · rintro o rfl
    exact ⟨rfl, rfl⟩
  · intro o c o' hkept hkeeps hstep
    exact hkept.step hkeeps hstep

/-- A handshake, two reads in one call, and in the next call a read which is followed by the close
of the peer. -/
theorem output_kept_sample : ∃ o : Output, o.delivered = [1, 2, 3, 4] ∧ o.stream.state = .closing ∧
    o.handed = o.delivered ∧ o.sizesMatch = true := by
  obtain ⟨o, ho, hdata⟩ : ∃ o, Output.machine.runBy (fun o c => keepsOutput o c = true) .init
      [⟨.connect, [], []⟩, ⟨.update, [.done], []⟩,
        ⟨.popAppOutput, [.done, .done, .failed .wantRead], [[1], [2, 3]]⟩,
        ⟨.popAppOutput, [.done, zero], [[4]]⟩] = some o ∧
      (o.delivered, o.stream.state) = ([1, 2, 3, 4], .closing) :=
    Option.map_eq_some_iff.mp (by decide +kernel)
  simp only [Prod.mk.injEq] at hdata
  exact ⟨o, hdata.1, hdata.2, output_kept (.of_runBy (.init rfl) ho)⟩

/-- A read and a fatal error in the same call: the bytes are dropped. -/
theorem output_lost :
    ∃ o, Output.machine.Reachable o ∧ o.delivered = [1, 2, 3] ∧ o.handed = [] := by
  obtain ⟨o, ho, hdata⟩ : ∃ o, Output.machine.run .init
      [⟨.connect, [], []⟩, ⟨.update, [.done], []⟩,
        ⟨.popAppOutput, [.done, .failed (.fatal 1), .done], [[1, 2, 3]]⟩] = some o ∧
      (o.delivered, o.handed) = ([1, 2, 3], []) :=
    Option.map_eq_some_iff.mp (by decide +kernel)
  simp only [Prod.mk.injEq] at hdata
  exact ⟨o, .of_run (.init rfl) ho, hdata⟩

end SSLStream

end Serverbox
