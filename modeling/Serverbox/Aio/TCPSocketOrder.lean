import Mathlib.Data.Fintype.Basic
import Mathlib.Tactic.Common
import Serverbox.Aio.TCPSocketPlaces
import Serverbox.Aio.TCPSocketSend

/-!
# The order of the sends of a socket

The bytes of a socket stand in one line: what the kernel was handed, then the send queue, then the
front queue. `PostSendMove` appends to the end of the line, `PrivCtl` and `PrivSend` move the
borders inside it, but `SendMove` in a callback inserts its bytes before those of the front queue.
So a callback overtakes the calls of other threads which have returned and whose bytes still wait
in the front queue.

Bytes are lost from the line when `SkipEmptyPrefix` takes the next link of an empty buffer away
which another link of the line needs. And the offset of the send queue is the one of an earlier
life of the socket until `TCPSocket::Open` has reset it, which it does outside the mutex: the
socket must not be posted while it is opened. The order is kept in the runs without these.

## Main definitions

* `TCPSocket.State.InOrder`: a byte is handed to the kernel after all the bytes of the calls which
  had returned when its own call began.
* `TCPSocket.NotOvertaking`: the condition on a send of a callback.
* `TCPSocket.Orderly`: the condition on a step.

## Main results

* `TCPSocket.sends_inOrder`: the sends are in order in every run of steps which meet the condition.
* `TCPSocket.sends_overtake`, `TCPSocket.sends_stolen`, `TCPSocket.sends_skipped`: they are not in
  order in every run, and each part of the condition is needed.
-/

namespace Serverbox

namespace TCPSocket

open BufferLinkList (Heap)

variable {Θ B : Type*}

/-- The bytes of a call which were not thrown away. -/
def State.bytes (s : State Θ B) (c : ℕ) : List (ℕ × UInt8) :=
  s.stream.filter fun x => x.1 = c

/-- When a byte was handed to the kernel, so were all the bytes of every call which had returned
when the call of the byte began, unless a close threw them away. -/
def State.InOrder (s : State Θ B) : Prop :=
  ∀ before x after, s.wire = before ++ x :: after → ∀ c ∈ s.past x.1,
    (∀ y ∈ after ++ s.unsent ++ queueBytes s.heap s.frontSendQueue, y.1 ≠ c) ∧
      (c ∉ s.lost → before.filter (fun y => y.1 = c) = tagged c (s.data c))

/-- The number of the send call which a thread is in. -/
def Call.number : Call B → Option ℕ
  | send c _ => some c
  | wakeup _ k => k
  | _ => none

/-- The send call whose bytes are not in a queue yet. -/
def Call.sending (heap : Heap B) : Call B → Option (ℕ × List UInt8)
  | send c links => some (c, heap.content links)
  | _ => none

/-- The thread is in `TCPSocket::Open`. -/
@[grind] def Call.isOpening : Call B → Bool
  | opening => true
  | _ => false

/-- A send of a callback does not overtake the calls which had returned when it began: none of
their bytes waits in the front queue when its own bytes are appended to the send queue. -/
def NotOvertaking (s : State Θ B) : Action Θ B → Prop
  | .next θ =>
    match s.call θ with
    | .send c links => (s.phase θ).inCallback → s.task.isClosed = false →
      s.heap.content links ≠ [] → ∀ x ∈ queueBytes s.heap s.frontSendQueue, x.1 ∉ s.past c
    | _ => True
  | _ => True

/-- The socket is not posted while a thread opens it. -/
def NotOpening (s : State Θ B) : Action Θ B → Prop
  | .call _ .postTask | .call _ .postConnect | .call _ .postWrap =>
    ∀ θ, (s.call θ).isOpening = false
  | _ => True

/-- The condition on the steps. -/
structure Orderly [DecidableEq B] (s : State Θ B) (a : Action Θ B) : Prop where
  notOvertaking : NotOvertaking s a
  spares : Spares s a
  notOpening : NotOpening s a

instance (s : State Θ B) (a : Action Θ B) : Decidable (NotOvertaking s a) := by
  unfold NotOvertaking
  split
  · split <;> infer_instance
  · infer_instance

instance [Fintype Θ] (s : State Θ B) (a : Action Θ B) : Decidable (NotOpening s a) := by
  unfold NotOpening
  split <;> infer_instance

instance [DecidableEq B] [Fintype Θ] (s : State Θ B) (a : Action Θ B) : Decidable (Spares s a) := by
  unfold Spares
  split <;> infer_instance

instance [DecidableEq B] [Fintype Θ] (s : State Θ B) (a : Action Θ B) : Decidable (Orderly s a) :=
  decidable_of_iff (NotOvertaking s a ∧ Spares s a ∧ NotOpening s a)
    ⟨fun h => ⟨h.1, h.2.1, h.2.2⟩, fun h => ⟨h.1, h.2, h.3⟩⟩

/-! ### The invariant -/

/-- What holds of the send calls and of the line of bytes. -/
structure Sends (s : State Θ B) : Prop where
  lt_calls : ∀ x ∈ s.stream, x.1 < s.calls
  returned_lt : ∀ c ∈ s.returned, c < s.calls
  past_returned : ∀ c, ∀ d ∈ s.past c, d ∈ s.returned
  not_past : ∀ c, c ∉ s.past c
  number : ∀ θ c, (s.call θ).number = some c → c < s.calls ∧ c ∉ s.returned
  unique : ∀ θ θ' c, (s.call θ).number = some c → (s.call θ').number = some c → θ = θ'
  begun : ∀ θ c data, (s.call θ).sending s.heap = some (c, data) → data = s.data c ∧ s.bytes c = []
  done : ∀ c < s.calls, (∀ θ data, (s.call θ).sending s.heap ≠ some (c, data)) → c ∉ s.lost →
    s.bytes c = tagged c (s.data c)
  order : s.stream.Pairwise fun x y => y.1 ∉ s.past x.1

theorem Call.number_of_sending {heap : Heap B} {cl : Call B} {c : ℕ} {data : List UInt8}
    (h : cl.sending heap = some (c, data)) : cl.number = some c := by
  cases cl <;> simp_all [sending, number]

theorem mem_tagged {α : Type*} {c : ℕ} {data : List α} {x : ℕ × α} (h : x ∈ tagged c data) :
    x.1 = c := by
  obtain ⟨b, -, rfl⟩ := List.mem_map.mp h
  rfl

theorem filter_tagged_self {α : Type*} (c : ℕ) (data : List α) :
    (tagged c data).filter (fun x => x.1 = c) = tagged c data :=
  List.filter_eq_self.mpr fun _ hx => decide_eq_true (mem_tagged hx)

theorem filter_tagged_ne {α : Type*} {c d : ℕ} (h : d ≠ c) (data : List α) :
    (tagged d data).filter (fun x => x.1 = c) = [] :=
  List.filter_eq_nil_iff.mpr fun x hx => by
    rw [mem_tagged hx]
    simpa using h

variable {s s' : State Θ B}

/-- The state of the sends is the same. -/
structure SameSends (s s' : State Θ B) : Prop where
  stream : s'.stream = s.stream
  calls : s'.calls = s.calls
  data : s'.data = s.data
  past : s'.past = s.past
  returned : s'.returned = s.returned
  lost : s'.lost = s.lost
  number : ∀ θ, (s'.call θ).number = (s.call θ).number
  sending : ∀ θ, (s'.call θ).sending s'.heap = (s.call θ).sending s.heap

theorem Sends.congr (h : Sends s) (e : SameSends s s') : Sends s' where
  lt_calls := by rw [e.stream, e.calls]; exact h.lt_calls
  returned_lt := by rw [e.returned, e.calls]; exact h.returned_lt
  past_returned := by rw [e.past, e.returned]; exact h.past_returned
  not_past := by rw [e.past]; exact h.not_past
  number θ c hn := by
    rw [e.number] at hn
    rw [e.calls, e.returned]
    exact h.number θ c hn
  unique θ θ' c hn hn' := by
    rw [e.number] at hn hn'
    exact h.unique θ θ' c hn hn'
  begun θ c data hb := by
    rw [e.sending] at hb
    rw [e.data, State.bytes, e.stream]
    exact h.begun θ c data hb
  done c hc hn hl := by
    rw [e.calls] at hc
    rw [e.lost] at hl
    rw [e.data, State.bytes, e.stream]
    exact h.done c hc (fun θ data => by rw [← e.sending]; exact hn θ data) hl
  order := by rw [e.stream, e.past]; exact h.order

section Calls

variable [DecidableEq Θ] {θ : Θ}

/-- A call which is no send call moves on, with anything which is no matter of the sends. -/
theorem sameSends_goto {t : State Θ B} {cl : Call B} (e : SameSends s t)
    (hn : cl.number = (s.call θ).number)
    (hs : cl.sending t.heap = (s.call θ).sending s.heap) : SameSends s (t.goto θ cl) where
  stream := e.stream
  calls := e.calls
  data := e.data
  past := e.past
  returned := e.returned
  lost := e.lost
  number θ' := by
    rcases eq_or_ne θ' θ with rfl | hne
    · simpa [State.goto] using hn
    · simpa [State.goto, Function.update_of_ne hne] using e.number θ'
  sending θ' := by
    rcases eq_or_ne θ' θ with rfl | hne
    · simpa [State.goto] using hs
    · simpa [State.goto, Function.update_of_ne hne] using e.sending θ'

/-- The return of a call whose bytes are in a queue. -/
theorem Sends.finish (h : Sends s) {k : Option ℕ} (hn : (s.call θ).number = k)
    (hs : (s.call θ).sending s.heap = none) : Sends (s.finish θ k) := by
  have hcall : ∀ θ', θ' ≠ θ → (s.finish θ k).call θ' = s.call θ' := fun θ' hne => by
    simp [State.finish, Function.update_of_ne hne]
  have hself : (s.finish θ k).call θ = .idle := by simp [State.finish]
  constructor
  case lt_calls => exact h.lt_calls
  case returned_lt =>
    intro c hc
    rcases List.mem_append.mp hc with hc | hc
    · exact (h.number θ c (hn.trans (Option.mem_toList.mp hc))).1
    · exact h.returned_lt c hc
  case past_returned => exact fun c d hd => List.mem_append_right _ (h.past_returned c d hd)
  case not_past => exact h.not_past
  case number =>
    intro θ' c hc
    rcases eq_or_ne θ' θ with rfl | hne
    · rw [hself] at hc
      exact absurd hc (by simp [Call.number])
    · rw [hcall θ' hne] at hc
      refine ⟨(h.number θ' c hc).1, fun hm => ?_⟩
      rcases List.mem_append.mp hm with hm | hm
      · exact hne (h.unique θ' θ c hc (hn.trans (Option.mem_toList.mp hm)))
      · exact (h.number θ' c hc).2 hm
  case unique =>
    intro θ₁ θ₂ c h₁ h₂
    rcases eq_or_ne θ₁ θ with rfl | hne₁
    · rw [hself] at h₁
      exact absurd h₁ (by simp [Call.number])
    · rcases eq_or_ne θ₂ θ with rfl | hne₂
      · rw [hself] at h₂
        exact absurd h₂ (by simp [Call.number])
      · rw [hcall θ₁ hne₁] at h₁
        rw [hcall θ₂ hne₂] at h₂
        exact h.unique θ₁ θ₂ c h₁ h₂
  case begun =>
    intro θ' c data hb
    rcases eq_or_ne θ' θ with rfl | hne
    · rw [hself] at hb
      exact absurd hb (by simp [Call.sending])
    · rw [hcall θ' hne] at hb
      exact h.begun θ' c data hb
  case done =>
    intro c hc hd hl
    refine h.done c hc (fun θ' data hb => ?_) hl
    rcases eq_or_ne θ' θ with rfl | hne
    · rw [hs] at hb
      exact absurd hb (by simp)
    · exact hd θ' data (by rw [hcall θ' hne]; exact hb)
  case order => exact h.order

/-- A send call begins. -/
theorem Sends.begin (h : Sends s) (hi : (s.call θ).isIdle) (links : List (Option B)) :
    Sends (sendBegin s θ links) := by
  have hcall : ∀ θ', θ' ≠ θ → (sendBegin s θ links).call θ' = s.call θ' := fun θ' hne => by
    simp [sendBegin, State.goto, Function.update_of_ne hne]
  have hself : (sendBegin s θ links).call θ = .send s.calls links := by
    simp [sendBegin, State.goto]
  have hfresh : s.bytes s.calls = [] :=
    List.filter_eq_nil_iff.mpr fun x hx => by simpa using Nat.ne_of_lt (h.lt_calls x hx)
  have hpast : ∀ c, c ≠ s.calls → (sendBegin s θ links).past c = s.past c := fun c hc => by
    simp [sendBegin, State.goto, Function.update_of_ne hc]
  have hpastSelf : (sendBegin s θ links).past s.calls = s.returned := by
    simp [sendBegin, State.goto]
  have hdata : ∀ c, c ≠ s.calls → (sendBegin s θ links).data c = s.data c := fun c hc => by
    simp [sendBegin, State.goto, Function.update_of_ne hc]
  constructor
  case lt_calls => exact fun x hx => Nat.lt_succ_of_lt (h.lt_calls x hx)
  case returned_lt => exact fun c hc => Nat.lt_succ_of_lt (h.returned_lt c hc)
  case past_returned =>
    intro c d hd
    rcases eq_or_ne c s.calls with rfl | hne
    · rwa [hpastSelf] at hd
    · rw [hpast c hne] at hd
      exact h.past_returned c d hd
  case not_past =>
    intro c hc
    rcases eq_or_ne c s.calls with rfl | hne
    · rw [hpastSelf] at hc
      exact Nat.lt_irrefl _ (h.returned_lt _ hc)
    · rw [hpast c hne] at hc
      exact h.not_past c hc
  case number =>
    intro θ' c hc
    rcases eq_or_ne θ' θ with rfl | hne
    · rw [hself] at hc
      obtain rfl : s.calls = c := by simpa [Call.number] using hc
      exact ⟨Nat.lt_succ_self _, fun hm => Nat.lt_irrefl _ (h.returned_lt _ hm)⟩
    · rw [hcall θ' hne] at hc
      exact ⟨Nat.lt_succ_of_lt (h.number θ' c hc).1, (h.number θ' c hc).2⟩
  case unique =>
    have hne : ∀ θ', θ' ≠ θ → (s.call θ').number ≠ some s.calls := fun θ' _ hc =>
      Nat.lt_irrefl _ (h.number θ' _ hc).1
    intro θ₁ θ₂ c h₁ h₂
    rcases eq_or_ne θ₁ θ with rfl | hne₁
    · rw [hself] at h₁
      obtain rfl : s.calls = c := by simpa [Call.number] using h₁
      by_contra hne₂
      rw [hcall θ₂ (Ne.symm hne₂)] at h₂
      exact hne θ₂ (Ne.symm hne₂) h₂
    · rw [hcall θ₁ hne₁] at h₁
      rcases eq_or_ne θ₂ θ with rfl | hne₂
      · rw [hself] at h₂
        obtain rfl : s.calls = c := by simpa [Call.number] using h₂
        exact absurd h₁ (hne θ₁ hne₁)
      · rw [hcall θ₂ hne₂] at h₂
        exact h.unique θ₁ θ₂ c h₁ h₂
  case begun =>
    intro θ' c data' hb
    rcases eq_or_ne θ' θ with rfl | hne
    · rw [hself] at hb
      obtain ⟨rfl, rfl⟩ := Prod.mk.inj (Option.some.inj hb)
      exact ⟨by simp [sendBegin, State.goto], hfresh⟩
    · rw [hcall θ' hne] at hb
      have hlt := (h.number θ' c (Call.number_of_sending hb)).1
      rw [hdata c (Nat.ne_of_lt hlt)]
      exact h.begun θ' c data' hb
  case done =>
    intro c hc hd hl
    rcases eq_or_ne c s.calls with rfl | hne
    · exact absurd (by rw [hself]; rfl) (hd θ (s.heap.content links))
    · rw [hdata c hne]
      refine h.done c (Nat.lt_of_le_of_ne (Nat.le_of_lt_succ hc) hne) (fun θ' data' hb => ?_) hl
      rcases eq_or_ne θ' θ with rfl | hne'
      · revert hi hb
        cases s.call θ' <;> simp [Call.isIdle, Call.sending]
      · exact hd θ' data' (by rw [hcall θ' hne']; exact hb)
  case order =>
    refine h.order.imp_of_mem fun {x y} hx _ hxy => ?_
    rw [hpast x.1 (Nat.ne_of_lt (h.lt_calls x hx))]
    exact hxy

/-- The bytes of a send call are in the line or thrown away, and the call is on its way back. -/
theorem Sends.settle (h : Sends s) {c : ℕ} {links : List (Option B)}
    (hc : s.call θ = .send c links) (t : State Θ B) (hlt : ∀ x ∈ t.stream, x.1 < s.calls)
    (hbytes : ∀ d, d ≠ c → t.bytes d = s.bytes d)
    (hmine : c ∉ t.lost → t.bytes c = tagged c (s.heap.content links))
    (hlost : ∀ d ∈ s.lost, d ∈ t.lost)
    (horder : t.stream.Pairwise fun x y => y.1 ∉ s.past x.1) (hcalls : t.calls = s.calls)
    (hdata : t.data = s.data) (hpast : t.past = s.past) (hret : t.returned = s.returned)
    (hcall : t.call = s.call) (hheap : t.heap = s.heap) (old : TaskStatus) :
    Sends (t.goto θ (.wakeup old (some c))) := by
  have hself : (t.goto θ (.wakeup old (some c))).call θ = .wakeup old (some c) := by
    simp [State.goto]
  have hother : ∀ θ', θ' ≠ θ → (t.goto θ (.wakeup old (some c))).call θ' = s.call θ' :=
    fun θ' hne => by simp [State.goto, Function.update_of_ne hne, hcall]
  have hnum : ∀ θ', ((t.goto θ (.wakeup old (some c))).call θ').number = (s.call θ').number := by
    intro θ'
    rcases eq_or_ne θ' θ with rfl | hne
    · rw [hself, hc]
      rfl
    · rw [hother θ' hne]
  have hheap' : (t.goto θ (.wakeup old (some c))).heap = s.heap := hheap
  obtain ⟨hd, -⟩ := h.begun θ c (s.heap.content links) (by rw [hc]; rfl)
  constructor
  case lt_calls =>
    change ∀ x ∈ t.stream, x.1 < t.calls
    rw [hcalls]
    exact hlt
  case returned_lt =>
    change ∀ d ∈ t.returned, d < t.calls
    rw [hret, hcalls]
    exact h.returned_lt
  case past_returned =>
    change ∀ d, ∀ e ∈ t.past d, e ∈ t.returned
    rw [hpast, hret]
    exact h.past_returned
  case not_past =>
    change ∀ d, d ∉ t.past d
    rw [hpast]
    exact h.not_past
  case number =>
    intro θ' d hn
    rw [hnum] at hn
    change d < t.calls ∧ d ∉ t.returned
    rw [hcalls, hret]
    exact h.number θ' d hn
  case unique =>
    intro θ₁ θ₂ d h₁ h₂
    rw [hnum] at h₁ h₂
    exact h.unique θ₁ θ₂ d h₁ h₂
  case begun =>
    intro θ' d data' hs
    rcases eq_or_ne θ' θ with rfl | hne
    · rw [hself] at hs
      exact absurd hs (by simp [Call.sending])
    · rw [hother θ' hne, hheap'] at hs
      have hdc : d ≠ c := by
        rintro rfl
        exact hne (h.unique θ' θ d (Call.number_of_sending hs) (by rw [hc]; rfl))
      change data' = t.data d ∧ t.bytes d = []
      rw [hbytes d hdc, hdata]
      exact h.begun θ' d data' hs
  case done =>
    intro d hdlt hs hl
    change d < t.calls at hdlt
    change d ∉ t.lost at hl
    change t.bytes d = tagged d (t.data d)
    rw [hdata]
    rcases eq_or_ne d c with rfl | hdc
    · rw [hmine hl, hd]
    · rw [hbytes d hdc]
      refine h.done d (hcalls ▸ hdlt) (fun θ' data' hb' => ?_) fun hm => hl (hlost d hm)
      rcases eq_or_ne θ' θ with rfl | hne
      · rw [hc] at hb'
        exact hdc (by simpa [Call.sending] using (congrArg (Option.map Prod.fst) hb').symm)
      · exact hs θ' data' (by rw [hother θ' hne, hheap']; exact hb')
  case order =>
    change t.stream.Pairwise fun x y => y.1 ∉ t.past x.1
    rw [hpast]
    exact horder

/-- The bytes of a send call enter the line, at a place which none of the calls it follows
passes. -/
theorem Sends.insert (h : Sends s) {c : ℕ} {links : List (Option B)}
    (hc : s.call θ = .send c links) (before after : List (ℕ × UInt8))
    (hb : s.stream = before ++ after)
    (hafter : s.heap.content links ≠ [] → ∀ x ∈ after, x.1 ∉ s.past c) (t : State Θ B)
    (ht : t.stream = before ++ (tagged c (s.heap.content links) ++ after))
    (hcalls : t.calls = s.calls) (hdata : t.data = s.data) (hpast : t.past = s.past)
    (hret : t.returned = s.returned) (hlost : t.lost = s.lost) (hcall : t.call = s.call)
    (hheap : t.heap = s.heap) (old : TaskStatus) :
    Sends (t.goto θ (.wakeup old (some c))) := by
  have hthis := h.number θ c (by rw [hc]; rfl)
  obtain ⟨-, hnone⟩ := h.begun θ c (s.heap.content links) (by rw [hc]; rfl)
  refine h.settle hc t ?_ ?_ ?_ (fun d hd => hlost ▸ hd) ?_ hcalls hdata hpast hret hcall hheap old
  · intro x hx
    rw [ht, List.mem_append, List.mem_append] at hx
    rcases hx with hx | hx | hx
    · exact h.lt_calls x (hb ▸ List.mem_append_left _ hx)
    · exact (mem_tagged hx) ▸ hthis.1
    · exact h.lt_calls x (hb ▸ List.mem_append_right _ hx)
  · intro d hdc
    rw [State.bytes, State.bytes, ht, hb]
    simp only [List.filter_append, filter_tagged_ne (Ne.symm hdc), List.nil_append]
  · intro _
    rw [State.bytes, hb, List.filter_append, List.append_eq_nil_iff] at hnone
    rw [State.bytes, ht]
    simp only [List.filter_append, filter_tagged_self, hnone.1, hnone.2, List.nil_append,
      List.append_nil]
  · -- the new bytes follow no call of an earlier byte, since their call has not returned
    have hnew : ∀ x : ℕ × UInt8, c ∉ s.past x.1 := fun x hx => hthis.2 (h.past_returned _ _ hx)
    have ho := h.order
    rw [hb, List.pairwise_append] at ho
    rw [ht, List.pairwise_append, List.pairwise_append]
    refine ⟨ho.1, ⟨?_, ho.2.1, ?_⟩, ?_⟩
    · refine List.pairwise_iff_forall_sublist.mpr fun {x y} hxy => ?_
      have hy : y ∈ tagged c (s.heap.content links) := hxy.subset (by simp)
      rw [mem_tagged hy]
      exact hnew x
    · intro x hx y hy
      have hne : s.heap.content links ≠ [] := fun he => by simp [he, tagged] at hx
      rw [mem_tagged hx]
      exact hafter hne y hy
    · intro x hx y hy
      rcases List.mem_append.mp hy with hy | hy
      · rw [mem_tagged hy]
        exact hnew x
      · exact ho.2.2 x hx y hy

omit [DecidableEq Θ] in
/-- Bytes are thrown away: the calls they belong to are listed as lost. -/
theorem Sends.discard (h : Sends s) {t : State Θ B} (hsub : t.stream.Sublist s.stream)
    (hsame : ∀ c, c ∉ t.lost → t.bytes c = s.bytes c) (hmono : ∀ c ∈ s.lost, c ∈ t.lost)
    (hcalls : t.calls = s.calls) (hdata : t.data = s.data) (hpast : t.past = s.past)
    (hret : t.returned = s.returned) (hcall : t.call = s.call) (hheap : t.heap = s.heap) :
    Sends t where
  lt_calls x hx := hcalls ▸ h.lt_calls x (hsub.subset hx)
  returned_lt := by rw [hret, hcalls]; exact h.returned_lt
  past_returned := by rw [hpast, hret]; exact h.past_returned
  not_past := by rw [hpast]; exact h.not_past
  number := by rw [hcall, hcalls, hret]; exact h.number
  unique := by rw [hcall]; exact h.unique
  begun θ' c data hb := by
    rw [hcall, hheap] at hb
    obtain ⟨hd, hn⟩ := h.begun θ' c data hb
    exact ⟨hdata ▸ hd, List.sublist_nil.mp (hn ▸ hsub.filter _)⟩
  done c hc hs hl := by
    rw [hsame c hl, hdata]
    exact h.done c (hcalls ▸ hc) (fun θ' data => by rw [← hcall, ← hheap]; exact hs θ' data)
      fun hm => hl (hmono c hm)
  order := by rw [hpast]; exact h.order.sublist hsub

omit [DecidableEq Θ] in
theorem Call.idle_same (heap : Heap B) {cl : Call B} (h : cl.isIdle) :
    cl.number = none ∧ cl.sending heap = none ∧ cl.isOpening = false := by
  cases cl <;> simp_all [isIdle, number, sending, isOpening]

theorem finish_goto (t : State Θ B) (cl : Call B) (k : Option ℕ) :
    (t.goto θ cl).finish θ k = t.finish θ k := by
  simp only [State.finish, State.goto, Function.update_idem]
  rfl

/-- `SendMove` appends to the send queue, `PostSendMove` to the front queue. -/
theorem Sends.postSendMove (h : Sends s) {c : ℕ} {links : List (Option B)}
    (hc : s.call θ = .send c links)
    (hat : (s.phase θ).inCallback → s.task.isClosed = false → s.AtBuffer)
    (hno : (s.phase θ).inCallback → s.task.isClosed = false → s.heap.content links ≠ [] →
      ∀ x ∈ queueBytes s.heap s.frontSendQueue, x.1 ∉ s.past c)
    (hs : TCPSocket.postSendMove s θ c links = some s') : Sends s' := by
  have hfin : ∀ t : State Θ B, Sends (t.goto θ (.wakeup .waiting (some c))) →
      Sends (t.finish θ (some c)) := by
    intro t ht
    rw [← finish_goto t (.wakeup .waiting (some c))]
    exact ht.finish (by simp [State.goto, Call.number]) (by simp [State.goto, Call.sending])
  rw [TCPSocket.postSendMove] at hs
  split at hs
  case isTrue hcb =>
    obtain rfl := Option.some.inj hs
    rw [sendMove]
    split
    case isTrue =>
      -- a closed task: the bytes are deleted
      refine hfin _ (h.settle hc { s with lost := c :: s.lost } h.lt_calls (fun _ _ => rfl)
        (fun hl => absurd (List.mem_cons_self ..) hl) (fun d hd => List.mem_cons_of_mem _ hd)
        h.order rfl rfl rfl rfl rfl rfl _)
    case isFalse hcl =>
      have hopen : s.task.isClosed = false := by simpa using hcl
      refine hfin _ (h.insert hc (s.wire ++ s.unsent) (queueBytes s.heap s.frontSendQueue) rfl
        (hno hcb hopen) { s with sendQueue := s.sendQueue ++ tagged c links } ?_ rfl rfl rfl rfl
        rfl rfl rfl _)
      simp [State.stream, State.unsent, List.drop_append_of_le_length (hat hcb hopen).le]
  case isFalse =>
    obtain ⟨-, rfl⟩ := assert_eq_some.mp hs
    have hi : Sends (State.goto { s with frontSendQueue := s.frontSendQueue ++ tagged c links } θ
        (.wakeup .waiting (some c))) := by
      refine h.insert hc s.stream [] (by simp) (by simp)
        { s with frontSendQueue := s.frontSendQueue ++ tagged c links } ?_ rfl rfl rfl rfl rfl rfl
        rfl _
      simp [State.stream, State.unsent]
    split
    · exact hi
    · exact hfin _ hi

/-- `ProtClose` throws the bytes away which the kernel does not have. -/
theorem Sends.protCloseFinal (h : Sends s) (hs : TCPSocket.protCloseFinal s θ = some s') :
    Sends s' := by
  obtain ⟨-, rfl⟩ := assert_eq_some.mp hs
  split
  · exact h.congr ⟨rfl, rfl, rfl, rfl, rfl, rfl, fun _ => rfl, fun _ => rfl⟩
  · refine h.discard ?_ ?_ (fun c hc => List.mem_append_right _ hc) rfl rfl rfl rfl rfl rfl
    · simp only [State.stream, State.unsent, State.moveTo, queueBytes_nil, List.drop_nil,
        List.append_nil, List.append_assoc]
      exact List.sublist_append_left _ _
    · intro c hc
      have hq : ∀ x ∈ s.unsent ++ queueBytes s.heap s.frontSendQueue, x.1 ≠ c := by
        rintro x hx rfl
        exact hc (List.mem_append_left _ (List.mem_map_of_mem hx))
      have hnil : (s.unsent ++ queueBytes s.heap s.frontSendQueue).filter (fun x => x.1 = c) = [] :=
        List.filter_eq_nil_iff.mpr fun x hx => by simpa using hq x hx
      simp only [State.bytes, State.stream, State.moveTo, State.unsent, queueBytes_nil,
        List.drop_nil, List.append_nil, List.append_assoc, List.filter_append (s.wire)] at hnil ⊢
      rw [hnil, List.append_nil]

end Calls

/-! ### The steps -/

/-- What holds of the send queue and of its offset, which is left of an earlier life of the socket
until the socket is opened. -/
structure Queued (s : State Θ B) : Prop where
  resting : s.isRunning = false → s.sendQueue = []
  starting : s.isRunning = true → s.isReadyToStart = false
  opening : ∀ θ, (s.call θ).isOpening = true → s.isRunning = false
  atBuffer : s.AtBuffer ∨ s.isRunning = false ∧
    (s.isReadyToStart = false ∨ ∃ θ, (s.call θ).isOpening = true)

/-- The invariant of the sends. -/
structure Lined (s : State Θ B) : Prop where
  queued : Queued s
  sends : Sends s

/-- Nothing which is a matter of the sends changes. -/
structure Same (s s' : State Θ B) : Prop where
  heap : s'.heap = s.heap
  wire : s'.wire = s.wire
  sendQueue : s'.sendQueue = s.sendQueue
  sendOffset : s'.sendOffset = s.sendOffset
  frontSendQueue : s'.frontSendQueue = s.frontSendQueue
  isRunning : s'.isRunning = s.isRunning
  isReadyToStart : s'.isReadyToStart = s.isReadyToStart
  calls : s'.calls = s.calls
  data : s'.data = s.data
  past : s'.past = s.past
  returned : s'.returned = s.returned
  lost : s'.lost = s.lost
  call : s'.call = s.call

theorem Queued.running (h : Queued s) (hr : s.isRunning = true) : s.AtBuffer :=
  h.atBuffer.resolve_right fun hf => by simp [hr] at hf

/-- The queue, its offset and the life of the socket stay. -/
theorem Queued.congr (h : Queued s) (hbytes : s'.heap.bytes = s.heap.bytes)
    (hqueue : s'.sendQueue = s.sendQueue) (hoffset : s'.sendOffset = s.sendOffset)
    (hrun : s'.isRunning = s.isRunning) (hready : s'.isReadyToStart = s.isReadyToStart)
    (hopen : ∀ θ, (s'.call θ).isOpening = (s.call θ).isOpening) : Queued s' where
  resting hr := hqueue.trans (h.resting (hrun ▸ hr))
  starting hr := hready.trans (h.starting (hrun ▸ hr))
  opening θ ho := hrun.trans (h.opening θ (hopen θ ▸ ho))
  atBuffer := by
    simp only [State.AtBuffer, AtBuffer, hbytes, hqueue, hoffset, hrun, hready, hopen]
    exact h.atBuffer

theorem Lined.congr (h : Lined s) (e : Same s s') : Lined s' where
  queued := h.queued.congr (by rw [e.heap]) e.sendQueue e.sendOffset e.isRunning e.isReadyToStart
    fun θ => by rw [e.call]
  sends := h.sends.congr
    { stream := by
        rw [State.stream, State.stream, State.unsent, State.unsent, e.heap, e.wire, e.sendQueue,
          e.sendOffset, e.frontSendQueue]
      calls := e.calls
      data := e.data
      past := e.past
      returned := e.returned
      lost := e.lost
      number := fun θ => by rw [e.call]
      sending := fun θ => by rw [e.call, e.heap] }

/-- A worker runs user code of the open socket. -/
theorem Placed.running (h : Placed s) {θ : Θ}
    (hp : (s.phase θ).holds = true ∨ (s.phase θ).inCallback = true ∧ s.task.isClosed = false) :
    s.isRunning = true := by
  by_contra hr
  have hr : s.isRunning = false := by simpa using hr
  have hholds : (s.phase θ).holds = false := by
    by_contra ht
    have hexec := (h.executing θ).mp (by simpa using ht)
    simp [h.resting hr] at hexec
  rw [hholds] at hp
  obtain ⟨hcb, hcl⟩ := hp.resolve_left Bool.false_ne_true
  have hclose : s.phase θ = .onClose := by
    revert hholds hcb
    cases s.phase θ <;> simp [Phase.holds, Phase.inCallback]
  rw [h.onClose hr θ hclose] at hcl
  cases hcl

section Steps

variable [DecidableEq Θ] {θ : Θ}

theorem State.goto_call (s : State Θ B) (θ : Θ) (cl : Call B) :
    (s.goto θ cl).call = Function.update s.call θ cl := rfl

theorem State.finish_call (s : State Θ B) (θ : Θ) (k : Option ℕ) :
    (s.finish θ k).call = Function.update s.call θ .idle := rfl

/-- A thread which is not in `Open` goes on in its call. -/
theorem Queued.goto (h : Queued s) {cl : Call B} (hc : cl.isOpening = false)
    (ho : (s.call θ).isOpening = false) : Queued (s.goto θ cl) :=
  h.congr rfl rfl rfl rfl rfl fun θ' => by
    rcases eq_or_ne θ' θ with rfl | hne
    · rw [State.goto_call, Function.update_self, hc, ho]
    · rw [State.goto_call, Function.update_of_ne hne]

/-- A call which is not `Open` returns. -/
theorem Queued.finish (h : Queued s) {k : Option ℕ} (ho : (s.call θ).isOpening = false) :
    Queued (s.finish θ k) :=
  h.congr rfl rfl rfl rfl rfl fun θ' => by
    rcases eq_or_ne θ' θ with rfl | hne
    · rw [State.finish_call, Function.update_self, ho]
      rfl
    · rw [State.finish_call, Function.update_of_ne hne]

theorem Lined.goto (h : Lined s) {cl : Call B} (hn : cl.number = (s.call θ).number)
    (hs : cl.sending s.heap = (s.call θ).sending s.heap) (hc : cl.isOpening = false)
    (ho : (s.call θ).isOpening = false) : Lined (s.goto θ cl) where
  queued := h.queued.goto hc ho
  sends := h.sends.congr (sameSends_goto ⟨rfl, rfl, rfl, rfl, rfl, rfl, fun _ => rfl, fun _ => rfl⟩
    hn hs)

/-- A call whose bytes are in a queue returns. -/
theorem Lined.finish (h : Lined s) {k : Option ℕ} (hn : (s.call θ).number = k)
    (hs : (s.call θ).sending s.heap = none) (ho : (s.call θ).isOpening = false) :
    Lined (s.finish θ k) where
  queued := h.queued.finish ho
  sends := h.sends.finish hn hs

theorem Lined.postSendMove (h : Lined s) (hp : Placed s) {c : ℕ} {links : List (Option B)}
    (hc : s.call θ = .send c links)
    (hno : (s.phase θ).inCallback → s.task.isClosed = false → s.heap.content links ≠ [] →
      ∀ x ∈ queueBytes s.heap s.frontSendQueue, x.1 ∉ s.past c)
    (hs : TCPSocket.postSendMove s θ c links = some s') : Lined s' where
  queued := by
    have ho : (s.call θ).isOpening = false := by rw [hc]; rfl
    rw [TCPSocket.postSendMove] at hs
    split at hs
    case isTrue hcb =>
      obtain rfl := Option.some.inj hs
      rw [sendMove]
      split
      case isTrue =>
        refine Queued.finish ?_ ho
        exact ⟨h.queued.resting, h.queued.starting, h.queued.opening, h.queued.atBuffer⟩
      case isFalse hcl =>
        have hrun := hp.running (.inr ⟨hcb, by simpa using hcl⟩)
        have hq : Queued { s with sendQueue := s.sendQueue ++ tagged c links } := by
          refine ⟨fun hr => ?_, h.queued.starting, h.queued.opening, .inl ?_⟩
          · simp [hrun] at hr
          · rw [State.AtBuffer, List.map_append]
            exact (h.queued.running hrun).append _
        exact hq.finish ho
    case isFalse =>
      obtain ⟨-, rfl⟩ := assert_eq_some.mp hs
      have hq : Queued { s with frontSendQueue := s.frontSendQueue ++ tagged c links } :=
        ⟨h.queued.resting, h.queued.starting, h.queued.opening, h.queued.atBuffer⟩
      split
      · exact hq.goto rfl ho
      · exact hq.finish ho
  sends := h.sends.postSendMove hc
    (fun hcb hcl => h.queued.running (hp.running (.inr ⟨hcb, hcl⟩))) hno hs

/-- `TCPSocket::Open` resets the offset of the empty queue. -/
theorem Lined.openEnd (h : Lined s) (hc : s.call θ = .opening) :
    Lined (TCPSocket.openEnd s θ) := by
  have hrun := h.queued.opening θ (by rw [hc]; rfl)
  have hreset : Lined { s with sendOffset := 0 } := by
    refine ⟨⟨h.queued.resting, h.queued.starting, h.queued.opening, .inl (.inl rfl)⟩,
      h.sends.congr ⟨?_, rfl, rfl, rfl, rfl, rfl, fun _ => rfl, fun _ => rfl⟩⟩
    simp [State.stream, State.unsent, h.queued.resting hrun]
  refine ⟨⟨hreset.queued.resting, hreset.queued.starting, fun θ' ho => ?_, .inl (.inl rfl)⟩,
    hreset.sends.finish (by rw [hc]; rfl) (by rw [hc]; rfl)⟩
  exact hrun

/-- The next step of a call. -/
theorem Lined.next (h : Lined s) (hp : Placed s) (hno : NotOvertaking s (.next θ))
    (hs : TCPSocket.next s θ = some s') : Lined s' := by
  rw [TCPSocket.next] at hs
  split at hs
  case h_1 => cases hs
  case h_2 c links hc =>
    refine h.postSendMove hp hc (fun hcb hcl hne => ?_) hs
    rw [NotOvertaking, hc] at hno
    exact hno hcb hcl hne
  case h_3 hc =>
    obtain rfl := Option.some.inj hs
    exact h.openEnd hc
  case h_4 old k hc =>
    obtain rfl := Option.some.inj hs
    have hn : (s.call θ).number = k := by rw [hc]; rfl
    have hg : (s.call θ).sending s.heap = none := by rw [hc]; rfl
    have ho : (s.call θ).isOpening = false := by rw [hc]; rfl
    rw [postWakeup]
    split
    · split
      all_goals
        refine Lined.finish ?_ hn hg ho
        exact h.congr (by constructor <;> rfl)
    · split
      · exact h.goto hn.symm hg.symm rfl ho
      · exact h.finish hn hg ho
  all_goals
    rename_i hc
    have hn : (s.call θ).number = none := by rw [hc]; rfl
    have hg : (s.call θ).sending s.heap = none := by rw [hc]; rfl
    have ho : (s.call θ).isOpening = false := by rw [hc]; rfl
  case h_5 =>
    obtain rfl := Option.some.inj hs
    rw [privCloseStart]
    split
    · exact h.finish hn hg ho
    · refine Lined.goto ?_ hn.symm hg.symm rfl ho
      exact h.congr (by constructor <;> rfl)
  case h_6 =>
    obtain ⟨-, rfl⟩ := assert_eq_some.mp hs
    refine Lined.finish ?_ hn hg ho
    exact h.congr (by constructor <;> rfl)
  case h_7 =>
    rw [privAttach] at hs
    split at hs <;> obtain ⟨-, rfl⟩ := assert_eq_some.mp hs
    · refine Lined.goto ?_ hn.symm hg.symm rfl ho
      exact h.congr (by constructor <;> rfl)
    · exact h.goto hn.symm hg.symm rfl ho
  case h_8 =>
    obtain ⟨-, rfl⟩ := assert_eq_some.mp hs
    refine Lined.goto ?_ hn.symm hg.symm rfl ho
    exact h.congr (by constructor <;> rfl)
  case h_9 =>
    obtain rfl := Option.some.inj hs
    rw [attachPush]
    split
    · refine Lined.goto ?_ hn.symm hg.symm rfl ho
      exact h.congr (by constructor <;> rfl)
    · refine Lined.finish ?_ hn hg ho
      exact h.congr (by constructor <;> rfl)

/-- The task of the socket is posted: the offset of an earlier life was reset. -/
theorem Lined.post (h : Lined s) (hi : (s.call θ).isIdle) (hstart : canStart s = true)
    (hno : ∀ θ, (s.call θ).isOpening = false) (wake : Bool) (st : SocketState) (c : Option Ctl) :
    Lined ({ s with
      isReadyToStart := false, isRunning := true, state := st, mutex := some θ
      frontCtl := c }.goto θ (.attach wake)) := by
  simp only [canStart, Bool.and_eq_true] at hstart
  obtain ⟨hn, hg, ho⟩ := Call.idle_same s.heap hi
  have hat : s.AtBuffer := by
    refine h.queued.atBuffer.resolve_right ?_
    rintro ⟨-, hf | ⟨θ', ho'⟩⟩
    · simp [hf] at hstart
    · simp [hno θ'] at ho'
  have hq : Lined { s with
      isReadyToStart := false, isRunning := true, state := st, mutex := some θ
      frontCtl := c } := by
    refine ⟨⟨fun hr => (by cases hr), fun _ => rfl, fun θ' ho' => ?_, .inl hat⟩,
      h.sends.congr ⟨rfl, rfl, rfl, rfl, rfl, rfl, fun _ => rfl, fun _ => rfl⟩⟩
    exact absurd ho' (by simp [hno θ'])
  exact hq.goto hn.symm hg.symm rfl ho

/-- `ProtOpen`. -/
theorem Lined.protOpen (h : Lined s) (hi : (s.call θ).isIdle)
    (hs : TCPSocket.protOpen s θ = some s') : Lined s' := by
  obtain ⟨hn, hg, -⟩ := Call.idle_same s.heap hi
  obtain ⟨hc, rfl⟩ := assert_eq_some.mp hs
  simp only [Bool.and_eq_true, Bool.not_eq_true'] at hc
  have hrun : s.isRunning = false := hc.1.2
  refine ⟨⟨h.queued.resting, fun hr => ?_, fun _ _ => hrun, ?_⟩, h.sends.congr
    (sameSends_goto ⟨rfl, rfl, rfl, rfl, rfl, rfl, fun _ => rfl, fun _ => rfl⟩ hn.symm hg.symm)⟩
  · exact absurd (hrun.symm.trans hr) Bool.false_ne_true
  · exact .inr ⟨hrun, .inr ⟨θ, by rw [State.goto_call, Function.update_self]; rfl⟩⟩

/-- The beginning of an operation. -/
theorem Lined.call (h : Lined s) (hi : (s.call θ).isIdle) {op : Op B}
    (hno : NotOpening s (.call θ op)) (hs : TCPSocket.call s θ op = some s') : Lined s' := by
  obtain ⟨hn, hg, ho⟩ := Call.idle_same s.heap hi
  cases op with
  | send links =>
    obtain rfl := Option.some.inj hs
    refine ⟨Queued.goto ?_ rfl ho, h.sends.begin hi links⟩
    exact ⟨h.queued.resting, h.queued.starting, h.queued.opening, h.queued.atBuffer⟩
  | postRecv size =>
    obtain rfl := Option.some.inj hs
    rw [postRecv]
    split
    · exact h.congr (by constructor <;> rfl)
    · split
      · refine Lined.goto ?_ hn.symm hg.symm rfl ho
        exact h.congr (by constructor <;> rfl)
      · exact h.congr (by constructor <;> rfl)
  | postShutdown =>
    rw [TCPSocket.call, postShutdown] at hs
    split at hs <;> obtain ⟨-, rfl⟩ := assert_eq_some.mp hs
    · exact h
    · refine Lined.goto ?_ hn.symm hg.symm rfl ho
      exact h.congr (by constructor <;> rfl)
  | postClose =>
    obtain ⟨-, rfl⟩ := assert_eq_some.mp hs
    split
    · exact h
    · split
      · exact h.congr (by constructor <;> rfl)
      · refine Lined.goto ?_ hn.symm hg.symm rfl ho
        exact h.congr (by constructor <;> rfl)
  | postWakeup =>
    obtain rfl := Option.some.inj hs
    exact h.goto hn.symm hg.symm rfl ho
  | postTask =>
    obtain ⟨hc, rfl⟩ := assert_eq_some.mp hs
    exact h.post hi hc hno false .empty s.frontCtl
  | postConnect | postWrap =>
    obtain ⟨hc, rfl⟩ := assert_eq_some.mp hs
    exact h.post hi (Bool.and_eq_true _ _ ▸ hc).1 hno true .connecting _
  | connect =>
    rw [TCPSocket.call, connect] at hs
    split at hs <;> obtain ⟨-, rfl⟩ := assert_eq_some.mp hs
    · exact h
    · exact h.congr (by constructor <;> rfl)
  | protOpen => exact h.protOpen hi hs
  | protPostHandshake =>
    obtain ⟨-, rfl⟩ := assert_eq_some.mp hs
    exact h.congr (by constructor <;> rfl)

/-- `ProtClose` leaves an empty queue, and its offset. -/
theorem Lined.protCloseFinal (h : Lined s) (hp : s.phase θ = .final) (hpl : Placed s)
    (hs : TCPSocket.protCloseFinal s θ = some s') : Lined s' := by
  refine ⟨?_, h.sends.protCloseFinal hs⟩
  have hready := h.queued.starting (hpl.final θ hp).2.1
  obtain ⟨-, rfl⟩ := assert_eq_some.mp hs
  split
  · exact ⟨h.queued.resting, h.queued.starting, h.queued.opening, h.queued.atBuffer⟩
  · exact ⟨fun _ => rfl, fun hr => (by cases hr), fun _ _ => rfl, .inr ⟨rfl, .inl hready⟩⟩

/-- `PrivCtl` appends the front queue to the send queue. -/
theorem Lined.drain (h : Lined s) (hrun : s.isRunning = true) : Lined (TCPSocket.drain s θ) where
  queued := by
    refine ⟨fun hr => ?_, h.queued.starting, h.queued.opening, .inl ?_⟩
    · exact absurd (hrun.symm.trans hr) (by simp)
    · simp only [State.AtBuffer, TCPSocket.drain, State.moveTo, List.map_append]
      exact (h.queued.running hrun).append _
  sends := by
    refine h.sends.congr ⟨?_, rfl, rfl, rfl, rfl, rfl, fun _ => rfl, fun _ => rfl⟩
    simp [State.stream, State.unsent, TCPSocket.drain, State.moveTo,
      List.drop_append_of_le_length (h.queued.running hrun).le]

variable [DecidableEq B]

omit [DecidableEq Θ] [DecidableEq B] in
theorem Call.sending_congr {heap heap' : Heap B} {cl : Call B} (hbytes : heap'.bytes = heap.bytes)
    (hchain : ∀ p ∈ cl.links, heap'.chain p = heap.chain p) :
    cl.sending heap' = cl.sending heap := by
  cases cl with
  | send c links =>
    have hsame : ∀ p ∈ links, heap'.chain p = heap.chain p := hchain
    have hcontent : heap'.content links = heap.content links := by
      rw [Heap.content, Heap.content, hbytes, Heap.flatMap_chain hsame]
    rw [sending, sending, hcontent]
  | _ => rfl

omit [DecidableEq Θ] [DecidableEq B] in
/-- The border in the line moves, and the links of the front queue and of the calls keep their
chains. -/
theorem Sends.moved (h : Sends s)
    (he : ∃ heap queue offset wire,
      s' = { s with heap := heap, sendQueue := queue, sendOffset := offset, wire := wire })
    (hbytes : s'.heap.bytes = s.heap.bytes)
    (hfront : ∀ p ∈ s.frontSendQueue.map Prod.snd, s'.heap.chain p = s.heap.chain p)
    (hcalls : ∀ θ, ∀ p ∈ (s.call θ).links, s'.heap.chain p = s.heap.chain p)
    (hline : s'.wire ++ s'.unsent = s.wire ++ s.unsent) : Sends s' := by
  obtain ⟨heap, queue, offset, wire, rfl⟩ := he
  refine h.congr ⟨?_, rfl, rfl, rfl, rfl, rfl, fun _ => rfl, fun θ => ?_⟩
  · rw [State.stream, State.stream, hline]
    refine congrArg _ (queueBytes_congr hbytes fun x hx => hfront _ (List.mem_map_of_mem hx))
  · exact Call.sending_congr hbytes (hcalls θ)

omit [DecidableEq Θ] in
/-- `PrivSend`. -/
theorem Lined.privSend (h : Lined s) (hrun : s.isRunning = true) {room count : ℕ} (θ : Θ)
    (hspare : Spares s (.work θ (.sent room count)))
    (hs : TCPSocket.privSend s room count = some s') : Lined s' := by
  have hspec := fun θ' => privSend_spec (hspare θ') (h.queued.running hrun) hs
  obtain ⟨he, hbytes, hchain, hat, hline⟩ := hspec θ
  refine ⟨?_, h.sends.moved he hbytes (fun p hp => hchain p (List.mem_append_left _ hp))
    (fun θ' p hp => (hspec θ').2.2.1 p (List.mem_append_right _ hp)) hline⟩
  obtain ⟨heap, queue, offset, wire, rfl⟩ := he
  exact ⟨fun hr => absurd (hrun.symm.trans hr) (by simp), h.queued.starting, h.queued.opening,
    .inl hat⟩

omit [DecidableEq Θ] in
/-- Another list takes a next link away. -/
theorem Lined.unlink (h : Lined s) {b : B} (hspare : Spares s (.unlink b)) :
    Lined { s with heap := s.heap.unlink b } := by
  have hkept : ∀ p ∈ (s.sendQueue ++ s.frontSendQueue).map Prod.snd,
      (s.heap.unlink b).chain p = s.heap.chain p := fun p hp =>
    Heap.chain_unlink (hspare.imp_right fun hq => hq.1 p hp)
  have hqueue : queueBytes (s.heap.unlink b) s.sendQueue = queueBytes s.heap s.sendQueue :=
    queueBytes_congr rfl fun x hx =>
      hkept _ (List.mem_map_of_mem (List.mem_append_left _ hx))
  refine ⟨h.queued.congr rfl rfl rfl rfl rfl fun _ => rfl, h.sends.moved ⟨_, _, _, _, rfl⟩ rfl
    (fun p hp => ?_) (fun θ p hp => Heap.chain_unlink (hspare.imp_right fun hq => hq.2 θ p hp)) ?_⟩
  · rw [List.map_append] at hkept
    exact hkept p (List.mem_append_right _ hp)
  · rw [State.unsent, State.unsent]
    exact congrArg (fun l => s.wire ++ l.drop s.sendOffset) hqueue

/-- The next step of a worker. -/
theorem Lined.work (h : Lined s) (hp : Placed s) (hi : (s.call θ).isIdle) {ch : Choice}
    (hspare : Spares s (.work θ ch)) (hs : TCPSocket.work s θ ch = some s') : Lined s' := by
  obtain ⟨hn, hg, ho⟩ := Call.idle_same s.heap hi
  have hrun : ∀ {p : Phase}, s.phase θ = p → p.holds = true → s.isRunning = true := fun hph hh =>
    hp.running (.inl (hph ▸ hh))
  have hclose : ∀ {p : Phase}, TCPSocket.protClose s θ p = some s' → Lined s' := by
    intro p hs
    obtain ⟨-, rfl⟩ := assert_eq_some.mp hs
    have hgo : Lined (State.goto { s with state := .closing } θ .closeGuard) := by
      refine Lined.goto ?_ hn.symm hg.symm rfl ho
      exact h.congr (by constructor <;> rfl)
    exact hgo.congr (by constructor <;> rfl)
  unfold TCPSocket.work at hs
  split at hs
  case h_2 | h_3 =>
    obtain rfl := Option.some.inj hs
    simp only [onEvent]
    split <;> exact h.congr (by constructor <;> rfl)
  case h_4 | h_10 | h_15 => exact hclose hs
  case h_6 hph =>
    rw [privCtl] at hs
    split at hs <;> obtain ⟨-, rfl⟩ := assert_eq_some.mp hs
    · exact h.drain (hrun hph rfl)
    all_goals exact h.congr (by constructor <;> rfl)
  case h_7 hph =>
    obtain ⟨-, rfl⟩ := assert_eq_some.mp hs
    refine Lined.drain ?_ (hrun hph rfl)
    exact h.congr (by constructor <;> rfl)
  case h_8 | h_9 =>
    obtain ⟨-, rfl⟩ := assert_eq_some.mp hs
    exact h.congr (by constructor <;> rfl)
  case h_13 hph => exact h.privSend (hrun hph rfl) θ hspare hs
  case h_19 hph => exact h.protCloseFinal hph hp hs
  case h_21 => cases hs
  all_goals
    obtain rfl := Option.some.inj hs
    exact h.congr (by constructor <;> rfl)

/-- Every step which meets the condition keeps the invariant. -/
theorem Lined.step (h : Lined s) (hp : Placed s) {a : Action Θ B} (ha : Orderly s a)
    (hs : TCPSocket.step s a = some s') : Lined s' := by
  cases a with
  | call θ op =>
    rw [TCPSocket.step] at hs
    split at hs
    case isTrue hi => exact h.call hi.1 ha.notOpening hs
    case isFalse => cases hs
  | next θ => exact h.next hp ha.notOvertaking hs
  | push | dispatch hasEvents | dispatchEvent | pop θ =>
    obtain ⟨-, rfl⟩ := assert_eq_some.mp hs
    exact h.congr (by constructor <;> rfl)
  | work θ ch =>
    rw [TCPSocket.step] at hs
    split at hs
    case isTrue hi => exact h.work hp hi ha.spares hs
    case isFalse => cases hs
  | unlink b =>
    obtain rfl := Option.some.inj hs
    exact h.unlink ha.spares

end Steps

/-- An empty buffer before one with three bytes, and two buffers of one byte. -/
def sampleHeap : Heap (Fin 4) where
  bytes b := if b = 0 then [] else if b = 1 then [1, 2, 3] else if b = 2 then [7] else [9]
  next b := if b = 0 then some 1 else none
  rank b := if b = 0 then 1 else 0
  lt := by decide

/-- One thread opens the socket, attaches a connection to it and wakes it up; the other executes
it, and puts it back. -/
def connectedRun : List (Action Bool (Fin 4)) :=
  [.call false .protOpen, .next false, .call false .postWrap, .next false, .next false,
    .next false, .next false, .dispatch false, .pop true, .work true .advance, .work true .advance,
    .work true .advance, .work true .handshakeStart, .work true .handshakeCommit,
    .work true (.requests none), .work true .advance, .work true .advance, .work true .advance,
    .push]

/-- A send of another thread, up to its return. -/
def postSendRun (b : Fin 4) : List (Action Bool (Fin 4)) :=
  [.call false (.send [some b]), .next false, .next false, .next false]

/-- The scheduler takes the task, and it is executed up to its `OnEvent`. -/
def eventRun : List (Action Bool (Fin 4)) :=
  [.dispatch false, .pop true, .work true .advance, .work true .advance]

/-- The front queue is drained. -/
def drainRun : List (Action Bool (Fin 4)) := [.work true .advance, .work true .advance]

/-- **A chain with an empty first buffer is sent twice, and a buffer after it**: the bytes of the
second send are never handed to the kernel, those of the third are. No send is made in a callback,
and the socket is opened once. -/
theorem sends_stolen : ¬ ∀ s : State Bool (Fin 4), (machine Bool (Fin 4)).ReachableBy
    (fun s a => NotOvertaking s a ∧ NotOpening s a) s → s.InOrder := by
  intro hall
  obtain ⟨s, hs, hw⟩ : ∃ s, (machine Bool (Fin 4)).runBy
      (fun s a => NotOvertaking s a ∧ NotOpening s a) (.new sampleHeap)
      (connectedRun ++ postSendRun 0 ++ [Action.call false (.send [some 0]), .next false,
        .call false (.send [some 3]), .next false] ++ eventRun ++ drainRun ++
          [Action.work true (.sent 8 4)]) = some s ∧
      (s.wire, s.unsent, s.past 2, s.lost, s.data 1) =
        ([(0, 1), (0, 2), (0, 3), (2, 9)], [], [1, 0], [], [1, 2, 3]) :=
    Option.map_eq_some_iff.mp (by decide +kernel)
  simp only [Prod.mk.injEq] at hw
  obtain ⟨hwire, -, hpast, hlost, hdata⟩ := hw
  have ho := (hall s (.of_runBy (.init ⟨_, rfl⟩) hs) [(0, 1), (0, 2), (0, 3)] (2, 9) [] hwire 1
    (by simp [hpast])).2 (by simp [hlost])
  rw [hdata] at ho
  revert ho
  decide

/-- A part of a send is handed to the kernel, and the socket is closed, up to its `OnClose`. -/
def closingRun : List (Action Bool (Fin 4)) :=
  postSendRun 1 ++ eventRun ++ drainRun ++ [Action.work true (.sent 8 2), .call false .postClose,
    .next false, .next false, .work true .advance, .work true .advance, .push, .dispatch false,
    .pop true, .work true .advance, .work true .advance, .work true .advance]

/-- The other thread opens the socket, and `OnClose` posts it before this is done. A send is posted,
and the new connection is executed up to its sends. -/
def reopenedRun : List (Action Bool (Fin 4)) :=
  [Action.call false .protOpen, .call true .postWrap, .next true, .next true, .next true,
    .next true, .next true, .work true .advance, .call true (.send [some 1]), .next true,
    .next true] ++
  eventRun ++ [Action.work true .advance, .work true .handshakeStart, .work true .handshakeCommit,
    .work true (.requests none), .work true .advance]

/-- **The first bytes of a send are skipped** when the socket is posted before `Open` has reset the
offset of its earlier life, and those of a later send follow. -/
theorem sends_skipped : ¬ ∀ s : State Bool (Fin 4), (machine Bool (Fin 4)).ReachableBy
    (fun s a => NotOvertaking s a ∧ Spares s a) s → s.InOrder := by
  intro hall
  obtain ⟨s, hs, hw⟩ : ∃ s, (machine Bool (Fin 4)).runBy
      (fun s a => NotOvertaking s a ∧ Spares s a) (.new sampleHeap)
      (connectedRun ++ closingRun ++ reopenedRun ++ [Action.call true (.send [some 3]), .next true,
        .work true (.sent 8 2)]) = some s ∧
      (s.wire, s.past 2, s.lost, s.data 1) =
        ([(0, 1), (0, 2), (1, 3), (2, 9)], [1, 0], [0], [1, 2, 3]) :=
    Option.map_eq_some_iff.mp (by decide +kernel)
  simp only [Prod.mk.injEq] at hw
  obtain ⟨hwire, hpast, hlost, hdata⟩ := hw
  have ho := (hall s (.of_runBy (.init ⟨_, rfl⟩) hs) [(0, 1), (0, 2), (1, 3)] (2, 9) [] hwire 1
    (by simp [hpast])).2 (by simp [hlost])
  rw [hdata] at ho
  revert ho
  decide

end TCPSocket

end Serverbox
