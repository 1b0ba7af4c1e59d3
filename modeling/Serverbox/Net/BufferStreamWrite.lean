import Mathlib.Data.List.Range
import Serverbox.Net.BufferStreamShape

/-!
# Writing to a buffer stream

Each operation which adds bytes or free space to a stream succeeds on a stream with a shape and
gives a stream with a shape. `WriteCopy` does it only when no buffer without data follows the one
it fills up, and `PropagateWritePos` of no bytes only when the write position has data or there is
no data at all.

## Main results

* `BufferStream.Shape.ensureWriteSize`, `BufferStream.Shape.propagateWritePos`,
  `BufferStream.Shape.writeCopy`, `BufferStream.Shape.writeRef`: the operations.
-/

namespace Serverbox

namespace BufferStream

variable {D : Bool} {J : ℕ → ℕ → UInt8} {s s' : BufferStream} {rd em : List Buffer}

theorem lastAddr_eq (l : List Buffer) : lastAddr l = (addrs l).getLast? := by
  rw [lastAddr, addrs, List.getLast?_map]

@[simp] theorem devAssert_true {p : Prop} [Decidable p] (h : p) : devAssert D p = some () :=
  if_pos fun _ => h

@[simp] theorem sub_of_le {a b : ℕ} (h : b ≤ a) : sub a b = some (a - b) := if_pos h

theorem Linked.congr (h : s.Linked) (ha : addrs s'.head = addrs s.head) (hf : s'.fresh = s.fresh)
    (ht : s'.tail = s.tail) : s'.Linked where
  nodup := ha ▸ h.nodup
  fresh := by rw [ha, hf]; exact h.fresh
  tail := by rw [ht, h.tail, lastAddr_eq, lastAddr_eq, ha]

/-- New buffers may be linked anywhere into the chain. -/
theorem Linked.insert (h : s.Linked) {x n z : List Buffer} (hs : s.head = x ++ z)
    (hnew : addrs n = List.range' s.fresh n.length) (hs' : s'.head = x ++ n ++ z)
    (hf : s'.fresh = s.fresh + n.length) (ht : s'.tail = lastAddr s'.head) : s'.Linked where
  nodup := by
    have hperm : (addrs s'.head).Perm (addrs s.head ++ addrs n) := by
      rw [hs', hs, addrs_append, addrs_append, addrs_append, List.append_assoc, List.append_assoc]
      exact List.perm_append_comm.append_left _
    rw [hperm.nodup_iff, List.nodup_append]
    refine ⟨h.nodup, hnew ▸ List.nodup_range', fun a ha b hb hab => ?_⟩
    have hlt := h.fresh a ha
    rw [hnew, List.mem_range'_1] at hb
    omega
  fresh := by
    intro a ha
    rw [hs', addrs_append, addrs_append, List.mem_append, List.mem_append] at ha
    rw [hf]
    rcases ha with (ha | ha) | ha
    · have := h.fresh a (by rw [hs, addrs_append]; exact List.mem_append_left _ ha)
      omega
    · rw [hnew, List.mem_range'_1] at ha
      omega
    · have := h.fresh a (by rw [hs, addrs_append]; exact List.mem_append_right _ ha)
      omega
  tail := ht

/-- A pointer at a buffer of the chain is followed to this buffer. -/
theorem Linked.split (h : s.Linked) {x z : List Buffer} {b : Buffer} (hs : s.head = x ++ b :: z) :
    Buffer.split s.head b.addr = some (x, b, z) := by
  rw [hs]
  have hnodup := h.nodup
  rw [hs, addrs_append, addrs_cons, List.nodup_append] at hnodup
  exact Buffer.split_append fun hb => hnodup.2.2 _ hb _ List.mem_cons_self rfl

theorem Linked.deref (h : s.Linked) {x z : List Buffer} {b : Buffer} (hs : s.head = x ++ b :: z) :
    s.deref (some b.addr) = some (x, b, z) := h.split hs

/-- Only the last buffer of the chain is the tail. -/
theorem Linked.eq_nil_of_tail (h : s.Linked) {x z : List Buffer} {b : Buffer}
    (hs : s.head = x ++ b :: z) (ht : s.tail = some b.addr) : z = [] := by
  have hlast := h.tail.symm.trans ht
  rw [hs, lastAddr_append_cons] at hlast
  rcases List.eq_nil_or_concat z with hz | ⟨z, c, rfl⟩
  · exact hz
  · have hnodup := h.nodup
    rw [List.concat_eq_append, ← List.cons_append, lastAddr_append_cons, lastAddr_singleton,
      Option.some.injEq] at hlast
    simp [hs, List.nodup_append, hlast] at hnodup

namespace Shape

variable (h : s.Shape rd em)
include h

/-- A stream without a write position has no free bytes. -/
theorem full (hw : s.wpos = none) : em = [] ∧ lastRoom rd = [] := by
  rw [h.wpos, writeAt] at hw
  split at hw
  · rename_i hroom
    cases em with
    | nil => exact ⟨rfl, hroom⟩
    | cons b em => simp at hw
  · rename_i hroom
    rcases List.eq_nil_or_concat rd with rfl | ⟨rd, b, rfl⟩
    · exact absurd rfl hroom
    · simp [List.concat_eq_append] at hw

/-- The buffer at the write position, the chain before it and the chain after it. -/
theorem writable (hw : s.wpos ≠ none) :
    ∃ before b after, s.head = before ++ b :: after ∧ s.wpos = some b.addr ∧ b.room ≠ [] ∧
      Written before ∧ Blank after ∧ bytesOf rd = bytesOf before ++ b.data ∧
      s.wsize = b.room.length + (roomOf after).length ∧
      (rd = before ++ [b] ∧ em = after ∨
        rd = before ∧ em = b :: after ∧ b.data = [] ∧ lastRoom before = []) := by
  have hhead := h.head
  have hwpos := h.wpos
  have hwsize := h.wsize
  have hrd := h.written
  have hem := h.blank
  rw [writeAt] at hwpos
  split at hwpos
  · rename_i hroom
    cases em with
    | nil => exact absurd hwpos hw
    | cons b em =>
      obtain ⟨⟨hd, hb⟩, hem⟩ := blank_cons.mp hem
      exact ⟨rd, b, em, hhead, hwpos, hb, hrd, hem, by rw [hd, List.append_nil],
        by rw [hwsize, hroom]; simp, .inr ⟨rfl, rfl, hd, hroom⟩⟩
  · rename_i hroom
    rcases List.eq_nil_or_concat rd with rfl | ⟨x, b, rfl⟩
    · exact absurd rfl hroom
    · rw [List.concat_eq_append] at *
      rw [lastRoom_append_cons, lastRoom_singleton] at hroom hwsize
      exact ⟨x, b, em, by rw [hhead, List.append_assoc]; rfl, by rw [hwpos]; simp, hroom,
        (written_append.mp hrd).1, hem, by simp, hwsize, .inl ⟨rfl, rfl⟩⟩

theorem wsize_pos (hw : s.wpos ≠ none) : 0 < s.wsize := by
  obtain ⟨before, b, after, -, -, hb, -, -, -, hwsize, -⟩ := h.writable hw
  have := List.length_pos_iff.mpr hb
  omega

theorem wsize_eq_zero (hw : s.wpos = none) : s.wsize = 0 := by
  obtain ⟨rfl, hroom⟩ := h.full hw
  rw [h.wsize, hroom]
  rfl

/-- One more buffer without data behind the tail. -/
theorem linkTail_eq (hne : s.head ≠ []) : BufferStream.linkTail J s = some { s with
    head := s.head ++ [bufferCopy J s.fresh], tail := some s.fresh, fresh := s.fresh + 1 } := by
  obtain ⟨x, b, hx⟩ : ∃ x b, s.head = x ++ [b] :=
    ⟨_, _, (List.dropLast_append_getLast hne).symm⟩
  have htail : s.tail = some b.addr := by rw [h.linked.tail, hx]; simp
  simp only [BufferStream.linkTail, htail, h.linked.deref hx, Option.bind_eq_bind,
    Option.bind_some, hx, List.append_assoc, List.cons_append, List.nil_append]

/-- The chain stays linked when a new buffer follows the tail. -/
theorem linked_concat (hs' : s'.head = s.head ++ [bufferCopy J s.fresh])
    (hf : s'.fresh = s.fresh + 1) (ht : s'.tail = some s.fresh) : s'.Linked :=
  h.linked.insert (x := s.head) (z := []) (n := [bufferCopy J s.fresh])
    (List.append_nil _).symm rfl (by rw [hs', List.append_nil]) hf (by rw [ht, hs']; simp)

/-- Reserved buffers do not move the write position. -/
theorem writeAt_append (hw : s.wpos ≠ none) (l : List Buffer) :
    writeAt rd (em ++ l) = writeAt rd em := by
  rw [h.wpos] at hw
  unfold writeAt at *
  split
  · cases em with
    | nil => simp_all
    | cons b em => rfl
  · rfl

/-- A new buffer behind a full chain. -/
theorem linkFirst_eq (hw : s.wpos = none) : BufferStream.linkFirst D J s = some { s with
    head := s.head ++ [bufferCopy J s.fresh], tail := some s.fresh, fresh := s.fresh + 1 } := by
  obtain ⟨rfl, hroom⟩ := h.full hw
  have hhead := h.head
  rw [List.append_nil] at hhead
  rw [BufferStream.linkFirst]
  rcases List.eq_nil_or_concat rd with rfl | ⟨x, b, rfl⟩
  · have hrsize : s.rsize = 0 := h.rsize
    have htail : s.tail = none := by rw [h.linked.tail, hhead]; rfl
    simp [hhead, hrsize, htail]
  · rw [List.concat_eq_append] at *
    have htail : s.tail = some b.addr := by rw [h.linked.tail, hhead]; simp
    have hb : b.pos = b.capacity := b.pos_eq_capacity.mpr (by simpa using hroom)
    have hne : s.head ≠ [] := by rw [hhead]; simp
    have hderef := h.linked.deref hhead
    rw [← htail] at hderef
    split
    · contradiction
    · simp only [hderef, Option.bind_eq_bind, Option.bind_some, devAssert_true hb,
        h.linkTail_eq hne]

/-- After it there is a write position, and the bytes are the same. -/
theorem firstWritable : ∃ s' l, BufferStream.firstWritable D J s = some s' ∧
    s'.wpos ≠ none ∧ (s.wpos = none → s'.wpos = s'.tail) ∧ (s.wpos ≠ none → s' = s) ∧
    Copies l ∧ s'.Shape rd (em ++ l) ∧ (l = [] ∨ s'.wsize = theBufferCopySize) := by
  by_cases hw : s.wpos = none
  · obtain ⟨rfl, hroom⟩ := h.full hw
    refine ⟨{ s with
      head := s.head ++ [bufferCopy J s.fresh], tail := some s.fresh, fresh := s.fresh + 1,
      wpos := some s.fresh, wsize := theBufferCopySize }, [bufferCopy J s.fresh], ?_, by simp,
      fun _ => rfl, fun hne => absurd hw hne, copies_bufferCopy J s.fresh, ?_, .inr rfl⟩
    · simp [BufferStream.firstWritable, hw, h.wsize_eq_zero hw, h.linkFirst_eq hw]
    · exact {
        head := by rw [h.head, List.append_nil, List.nil_append]
        linked := h.linked_concat rfl rfl rfl
        written := h.written
        blank := by simp [bufferCopy_room_ne]
        rsize := h.rsize
        rend := h.rend
        wpos := by simp [writeAt, hroom]
        wsize := by simp [hroom] }
  · exact ⟨s, [], by simp [BufferStream.firstWritable, hw], hw, fun hn => absurd hn hw,
      fun _ => rfl, Copies.nil, by rwa [List.append_nil], .inl rfl⟩

/-- One round of the loop of `EnsureWriteSize`. -/
theorem grow (hw : s.wpos ≠ none) : ∃ s', BufferStream.linkTail J s = some s' ∧
    s'.wpos = s.wpos ∧ ({ s' with wsize := s.wsize + theBufferCopySize } : BufferStream).Shape rd
      (em ++ [bufferCopy J s.fresh]) := by
  obtain ⟨before, b, after, hhead, -⟩ := h.writable hw
  have hne : s.head ≠ [] := by rw [hhead]; simp
  exact ⟨_, h.linkTail_eq hne, rfl, {
    head := by simp only [h.head, List.append_assoc]
    linked := h.linked_concat rfl rfl rfl
    written := h.written
    blank := by simp [h.blank, bufferCopy_room_ne]
    rsize := h.rsize
    rend := h.rend
    wpos := by rw [h.writeAt_append hw]; exact h.wpos
    wsize := by simp [h.wsize, Nat.add_assoc] }⟩

end Shape

/-- The loop of `EnsureWriteSize` reserves the whole size, and less than one buffer more. -/
theorem Shape.reserve {s : BufferStream} {em : List Buffer} {n : ℕ} (h : s.Shape rd em)
    (hw : s.wpos ≠ none) (hn : s.wsize < n) :
    ∃ s' l, BufferStream.reserve J n s = some s' ∧ s'.wpos ≠ none ∧ n ≤ s'.wsize ∧
      s'.wsize < n + theBufferCopySize ∧ Copies l ∧ s'.Shape rd (em ++ l) := by
  obtain ⟨s₁, hs₁, hw₁, h₁⟩ := h.grow (J := J) hw
  rw [BufferStream.reserve, hs₁]
  dsimp only
  split
  · rename_i hlt
    obtain ⟨s', l, hs', hw', hle, hlt', hl, h'⟩ := Shape.reserve h₁ (hw₁ ▸ hw) hlt
    exact ⟨s', _ :: l, hs', hw', hle, hlt', (copies_bufferCopy J s.fresh).append hl,
      by simpa using h'⟩
  · exact ⟨_, _, rfl, hw₁ ▸ hw, by dsimp only; omega, by dsimp only; omega,
      copies_bufferCopy J s.fresh, h₁⟩
termination_by n - s.wsize
decreasing_by simp only [theBufferCopySize, sizeofBuffer] at *; omega

/-- `EnsureWriteSize` makes the write size at least as large as asked, and reserves buffers only
when it has to. -/
theorem Shape.ensureWriteSize (h : s.Shape rd em) (aSize : ℕ) :
    ∃ s' l, BufferStream.ensureWriteSize D J s aSize = some s' ∧ aSize ≤ s'.wsize ∧
      (l = [] ∨ s'.wsize < aSize + theBufferCopySize) ∧ Copies l ∧ s'.Shape rd (em ++ l) := by
  rw [BufferStream.ensureWriteSize]
  by_cases henough : s.wsize ≥ aSize
  · exact ⟨s, [], by simp [henough], henough, .inl rfl, Copies.nil, by rwa [List.append_nil]⟩
  obtain ⟨s₁, l₁, hs₁, hw₁, -, -, hl₁, h₁, hone⟩ := h.firstWritable (D := D) (J := J)
  by_cases henough₁ : s₁.wsize ≥ aSize
  · refine ⟨s₁, l₁, ?_, henough₁, hone.imp_right fun hw => by omega, hl₁, h₁⟩
    simp only [if_neg henough, hs₁, Option.bind_eq_bind, Option.bind_some, if_pos henough₁,
      h₁.checked]
  obtain ⟨s₂, l₂, hs₂, hw₂, hle, hlt, hl₂, h₂⟩ := h₁.reserve (J := J) hw₁ (not_le.mp henough₁)
  obtain ⟨before, b, after, hhead, hwpos, hb, -⟩ := h₂.writable hw₂
  have hderef := h₂.linked.deref hhead
  rw [← hwpos] at hderef
  refine ⟨s₂, l₁ ++ l₂, ?_, hle, .inr hlt, hl₁.append hl₂, by rwa [← List.append_assoc]⟩
  simp only [if_neg henough, hs₁, Option.bind_eq_bind, Option.bind_some, if_neg henough₁, hs₂,
    hderef, devAssert_true (b.pos_lt_capacity.mpr hb), h₂.checked]

/-- The shape of a stream whose last buffer with data is `c`. -/
theorem shape_of_last {x y : List Buffer} {c : Buffer} (hlinked : s.Linked)
    (hhead : s.head = x ++ c :: y) (hx : Written (x ++ [c])) (hy : Blank y)
    (hrsize : s.rsize = (bytesOf (x ++ [c])).length) (hrend : s.rend = some c.addr)
    (hwpos : s.wpos = if c.room = [] then firstAddr y else some c.addr)
    (hwsize : s.wsize = c.room.length + (roomOf y).length) : s.Shape (x ++ [c]) y where
  head := by simp [hhead]
  linked := hlinked
  written := hx
  blank := hy
  rsize := hrsize
  rend := by simp [hrend]
  wpos := by simp [hwpos, writeAt]
  wsize := by simp [hwsize]

/-- The free bytes of a stream with a write position. -/
theorem Linked.free_eq (h : s.Linked) {x z : List Buffer} {b : Buffer} (hs : s.head = x ++ b :: z)
    (hw : s.wpos = some b.addr) : s.free = roomOf (b :: z) := by
  simp [free, chainFrom, hw, h.split hs]

/-- `PropagateWritePos` makes the first free bytes readable. Of no bytes it leaves the stream as it
was, when the write position is the read end. -/
theorem Shape.propagateWritePos (h : s.Shape rd em) {aSize : ℕ} (hle : aSize ≤ s.wsize)
    (hsound : 0 < aSize ∨ s.wpos = s.rend) :
    ∃ s' rd' em', BufferStream.propagateWritePos D s aSize = some s' ∧ s'.Shape rd' em' ∧
      bytesOf rd' = bytesOf rd ++ s.free.take aSize := by
  by_cases hw : s.wpos = none
  · -- there is nothing to write into
    have hwsize : s.wsize = 0 := h.wsize_eq_zero hw
    obtain rfl : aSize = 0 := by omega
    have hrend : s.rend = none := by simpa [hw, eq_comm] using hsound
    refine ⟨s, rd, em, ?_, h, by simp⟩
    have hs : ({ s with wpos := none, rend := none, wsize := 0 } : BufferStream) = s := by
      cases s
      simp_all
    simp [BufferStream.propagateWritePos, hw, chainFrom, buffersPropagateOnWrite, hwsize, deref,
      hs, h.checked]
  obtain ⟨before, b, after, hhead, hwpos, hb, hbefore, hafter, hbytes, hwsize, hrd⟩ :=
    h.writable hw
  have hchain : s.chainFrom s.wpos = some (before, b :: after) := by
    simp [chainFrom, hwpos, h.linked.split hhead]
  have hfree : s.free = roomOf (b :: after) := h.linked.free_eq hhead hwpos
  have hpos : s.wsize ≠ 0 := (h.wsize_pos hw).ne'
  rcases Nat.eq_zero_or_pos aSize with rfl | hn
  · -- no bytes: every pointer stays where it was
    have hrend : s.rend = s.wpos := by simpa [eq_comm] using hsound
    refine ⟨s, rd, em, ?_, h, by simp⟩
    have hs : ({ s with wpos := some b.addr, rend := some b.addr } : BufferStream) = s := by
      cases s
      simp_all
    have hderef := h.linked.deref hhead
    rw [BufferStream.propagateWritePos, hchain]
    simp [buffersPropagateOnWrite, ← hhead, hs, hpos, hderef, hb, h.checked]
  have hlen : s.wsize = (roomOf (b :: after)).length := by rw [hwsize]; simp
  obtain ⟨x, c, y, hrun, haddrs, hwritten, hblank, hbytes', hroom⟩ :=
    buffersPropagateOnWrite_spec hb hafter hn (hlen ▸ hle)
  have hrest : s.wsize - aSize = c.room.length + (roomOf y).length := by omega
  set s₁ : BufferStream := { s with
    head := before ++ (x ++ c :: y), wpos := some c.addr, rend := some c.addr,
    wsize := s.wsize - aSize, rsize := s.rsize + aSize } with hs₁
  have hhead₁ : s₁.head = (before ++ x) ++ c :: y := by simp [hs₁]
  have hlinked : s₁.Linked := h.linked.congr
    (by rw [hs₁, hhead, addrs_append, haddrs, addrs_append]) rfl rfl
  have hderef : s₁.deref (some c.addr) = some (before ++ x, c, y) := hlinked.deref hhead₁
  -- the stream with the write position which the last branches find
  have hshape : ∀ w, w = (if c.room = [] then firstAddr y else some c.addr) →
      ({ s₁ with wpos := w } : BufferStream).Shape ((before ++ x) ++ [c]) y := by
    intro w hw
    refine shape_of_last (hlinked.congr rfl rfl rfl) hhead₁ (by simp_all) hblank ?_ rfl hw hrest
    rw [List.append_assoc, bytesOf_append, hbytes', ← List.append_assoc, ← hbytes,
      List.length_append, ← h.rsize, List.length_take, Nat.min_eq_left (hlen ▸ hle)]
  have hnew : bytesOf (before ++ x ++ [c]) = bytesOf rd ++ s.free.take aSize := by
    rw [hfree, hbytes, List.append_assoc, List.append_assoc, bytesOf_append, hbytes']
  rw [BufferStream.propagateWritePos, hchain]
  simp only [devAssert_true hle, Option.bind_eq_bind, Option.bind_some, hrun, sub_of_le hle, ← hs₁,
    hderef]
  by_cases hzero : s.wsize - aSize = 0
  · -- the chain is full now
    have hc : c.room = [] := List.length_eq_zero_iff.mp (by omega)
    obtain rfl : y = [] := by
      cases y with
      | nil => rfl
      | cons e y =>
        have := List.length_pos_iff.mpr (blank_cons.mp hblank).1.2
        simp only [roomOf_cons, List.length_append] at hrest
        omega
    have hnone := hshape none (by simp [hc])
    refine ⟨_, _, _, ?_, hnone, hnew⟩
    have hfull : ∀ z ∈ some (before ++ x, c, ([] : List Buffer)), z.2.1.pos = z.2.1.capacity := by
      simp [hc]
    rw [if_pos hzero, devAssert_true hfull, Option.bind_some, hnone.checked]
  rw [if_neg hzero]
  by_cases hc : c.room = []
  · -- the last buffer is full, and the next one is the write position
    cases y with
    | nil => simp [hc] at hrest; omega
    | cons e y =>
      have hnext := hshape (some e.addr) (by simp [hc])
      refine ⟨_, _, _, ?_, hnext, hnew⟩
      have he : e.pos < e.capacity := e.pos_lt_capacity.mpr (blank_cons.mp hblank).1.2
      rw [if_pos (c.pos_eq_capacity.mpr hc), List.head?_cons, Option.bind_some, devAssert_true he,
        Option.bind_some, hnext.checked]
  · have hsame := hshape (some c.addr) (by simp [hc])
    refine ⟨_, _, _, ?_, hsame, hnew⟩
    rw [if_neg (mt c.pos_eq_capacity.mp hc)]
    exact hsame.checked D

/-- The loop of `WriteCopy`, which leaves the read end for its last round and adds the size to
the read size before its first one. It writes the bytes when they end before the write position is
full, or when no reserved buffer follows it. -/
theorem copyLoop_spec {rounds : ℕ} {l : List UInt8} (hrounds : l.length < rounds)
    (h : ({ s with rsize := (bytesOf rd).length, rend := lastAddr rd } : BufferStream).Shape rd em)
    (hw : s.wpos ≠ none) (hrsize : s.rsize = (bytesOf rd).length + l.length) (hne : l ≠ [])
    (hsound : s.wpos = s.tail ∨ ∀ x ∈ s.deref s.wpos, l.length < x.2.1.room.length) :
    ∃ s' rd' em', copyLoop D J rounds s l = some s' ∧ s'.Shape rd' em' ∧
      bytesOf rd' = bytesOf rd ++ l := by
  induction rounds generalizing s rd em l with
  | zero => omega
  | succ rounds ih =>
    obtain ⟨before, b, after, hhead, hwpos, hb, hbefore, hafter, hbytes, hwsize, -⟩ := h.writable hw
    dsimp only at hhead hwpos hwsize
    have hlinked : s.Linked := h.linked.congr rfl rfl rfl
    have hderef : s.deref s.wpos = some (before, b, after) := hwpos ▸ hlinked.deref hhead
    have hlen : 0 < b.room.length := List.length_pos_iff.mpr hb
    have hpos : 0 < l.length := List.length_pos_iff.mpr hne
    rw [copyLoop, hderef]
    simp only [Option.bind_eq_bind, Option.bind_some, devAssert_true (b.pos_lt_capacity.mpr hb),
      Buffer.capacity_sub_pos]
    by_cases hcap : b.room.length > l.length
    · -- the l end in this buffer
      have hle : l.length ≤ s.wsize := by omega
      have hshape : ({ s with
          head := before ++ b.append l :: after, rend := s.wpos,
          wsize := s.wsize - l.length } : BufferStream).Shape
          (before ++ [b.append l]) after := by
        refine shape_of_last (hlinked.congr (by simp [hhead]) rfl rfl) rfl (by simp [hbefore, hne])
          hafter ?_ hwpos ?_ ?_
        · simp only [hrsize, hbytes, bytesOf_append, bytesOf_cons, bytesOf_nil, Buffer.append_data,
            List.length_append, List.length_nil]
          omega
        · have : ¬ b.room.length ≤ l.length := by omega
          simp [hwpos, List.drop_eq_nil_iff, this]
        · simp only [Buffer.append_room, List.length_drop]
          omega
      refine ⟨_, _, _, ?_, hshape, by simp [hbytes]⟩
      rw [if_pos hcap, sub_of_le hle, Option.bind_some, hshape.checked]
    rw [if_neg hcap]
    -- this buffer gets full, so it is the last one
    have htail : s.wpos = s.tail := by
      refine hsound.resolve_right fun hx => hcap ?_
      exact hx _ (by rw [hderef]; rfl)
    obtain rfl : after = [] := hlinked.eq_nil_of_tail hhead (htail ▸ hwpos)
    set c := b.append (l.take b.room.length) with hc
    have hctake : (l.take b.room.length).length = b.room.length := by
      rw [List.length_take]
      omega
    have hcroom : c.room = [] := by
      rw [hc, Buffer.append_room, hctake, List.drop_length]
    have hcdata : c.data = b.data ++ l.take b.room.length := rfl
    have htake : l.take b.room.length ≠ [] := by
      rw [← List.length_pos_iff, hctake]
      exact hlen
    have hwritten : Written (before ++ [c]) := by simp [hbefore, hcdata, htake]
    have hnew : bytesOf (before ++ [c]) = bytesOf rd ++ l.take b.room.length := by
      simp [hbytes, hcdata]
    by_cases heq : b.room.length = l.length
    · -- the l end with this buffer
      rw [if_pos heq]
      have hall : l.take b.room.length = l := by rw [heq, List.take_length]
      have hshape : ({ s with
          head := before ++ [c], rend := s.wpos, wpos := none, wsize := 0 } : BufferStream).Shape
          (before ++ [c]) [] := by
        refine shape_of_last (hlinked.congr (by simp [hhead, hc]) rfl rfl) rfl hwritten Blank.nil ?_
          hwpos (by simp [hcroom]) (by simp [hcroom])
        rw [hrsize, hnew, hall, List.length_append]
      exact ⟨_, _, _, hshape.checked D, hshape, by rw [hnew, hall]⟩
    rw [if_neg heq]
    -- the next round has a new buffer
    set s₁ : BufferStream := { s with head := before ++ [c] } with hs₁
    have hlinked₁ : s₁.Linked := hlinked.congr (by simp [hs₁, hhead, hc]) rfl rfl
    have hderef₁ : s₁.deref s.tail = some (before, c, []) := by
      rw [← htail, hwpos]
      exact hlinked₁.deref rfl
    have hlink : BufferStream.linkTail J s₁ = some { s₁ with
        head := before ++ c :: [bufferCopy J s.fresh], tail := some s.fresh,
        fresh := s.fresh + 1 } := by
      rw [BufferStream.linkTail, show s₁.tail = s.tail from rfl, hderef₁]
      rfl
    have hnonempty : before ++ [c] ≠ [] := by simp
    simp only [devAssert_true hnonempty, Option.bind_some, hderef₁,
      devAssert_true (c.pos_eq_capacity.mpr hcroom), hlink]
    have hdrop : (l.drop b.room.length).length = l.length - b.room.length := List.length_drop
    have hshape : ({ s₁ with
        head := before ++ c :: [bufferCopy J s.fresh], tail := some s.fresh,
        fresh := s.fresh + 1, wpos := some s.fresh, wsize := theBufferCopySize,
        rsize := (bytesOf (before ++ [c])).length,
        rend := lastAddr (before ++ [c]) } : BufferStream).Shape
        (before ++ [c]) [bufferCopy J s.fresh] := by
      constructor
      · simp
      · exact hlinked₁.insert (x := before ++ [c]) (z := []) (n := [bufferCopy J s.fresh])
          (List.append_nil _).symm rfl (by simp) rfl (by simp [lastAddr_cons])
      · exact hwritten
      · simp [bufferCopy_room_ne]
      · rfl
      · rfl
      · simp [writeAt, hcroom]
      · simp [hcroom]
    obtain ⟨s', rd', em', hrun, hs', hrd'⟩ := ih (s := { s₁ with
        head := before ++ c :: [bufferCopy J s.fresh], tail := some s.fresh,
        fresh := s.fresh + 1, wpos := some s.fresh, wsize := theBufferCopySize })
      (l := l.drop b.room.length) (by omega) hshape (by simp)
      (by rw [hnew, List.length_append, hctake, hdrop]; change s.rsize = _; omega)
      (by rw [← List.length_pos_iff, hdrop]; omega) (.inl rfl)
    refine ⟨s', rd', em', hrun, hs', ?_⟩
    rw [hrd', hnew, List.append_assoc, List.take_append_drop]

/-- `WriteCopy` appends the bytes, when they end before the write position is full or when no
reserved buffer follows it. -/
theorem Shape.writeCopy (h : s.Shape rd em) {bytes : List UInt8}
    (hsound : bytes = [] ∨ s.wpos = none ∨ s.wpos = s.tail ∨
      ∀ x ∈ s.deref s.wpos, bytes.length < x.2.1.room.length) :
    ∃ s' rd' em', BufferStream.writeCopy D J s bytes = some s' ∧ s'.Shape rd' em' ∧
      bytesOf rd' = bytesOf rd ++ bytes := by
  by_cases hne : bytes = []
  · exact ⟨s, rd, em, by simp [BufferStream.writeCopy, hne], h, by simp [hne]⟩
  obtain ⟨s₁, l₁, hs₁, hw₁, hnone, hsame, -, h₁, -⟩ := h.firstWritable (D := D) (J := J)
  have hassert : s.wpos = none → s.head = [] → s.rend = none := by
    intro _ hhead
    obtain ⟨rfl, -⟩ := List.append_eq_nil_iff.mp (h.head.symm.trans hhead)
    exact h.rend
  have hsound₁ : s₁.wpos = s₁.tail ∨ ∀ x ∈ s₁.deref s₁.wpos, bytes.length < x.2.1.room.length := by
    by_cases hw : s.wpos = none
    · exact .inl (hnone hw)
    · rw [hsame hw]
      exact (hsound.resolve_left hne).resolve_left hw
  have h₂ : ({ s₁ with rsize := (bytesOf rd).length, rend := lastAddr rd } : BufferStream).Shape
      rd (em ++ l₁) := by
    rw [← h₁.rsize, ← h₁.rend]
    exact h₁
  obtain ⟨s', rd', em', hrun, hs', hrd'⟩ := copyLoop_spec (D := D) (J := J)
    (s := { s₁ with rsize := s₁.rsize + bytes.length }) (Nat.lt_succ_self _) h₂ hw₁
    (by rw [h₁.rsize]) hne hsound₁
  refine ⟨s', rd', em', ?_, hs', hrd'⟩
  rw [BufferStream.writeCopy, if_neg hne]
  simp only [devAssert_true hassert, Option.bind_eq_bind, Option.bind_some, hs₁]
  exact hrun

theorem length_adopt (fresh : ℕ) (chain : List (List UInt8 × List UInt8)) :
    (adopt fresh chain).length = chain.length := by
  induction chain generalizing fresh with
  | nil => rfl
  | cons b chain ih => rw [adopt, List.length_cons, List.length_cons, ih]

/-- The buffers of a caller take the next addresses. -/
theorem addrs_adopt (fresh : ℕ) (chain : List (List UInt8 × List UInt8)) :
    addrs (adopt fresh chain) = List.range' fresh (adopt fresh chain).length := by
  rw [length_adopt]
  induction chain generalizing fresh with
  | nil => rfl
  | cons b chain ih => rw [adopt, addrs_cons, ih, List.length_cons, List.range'_succ]

theorem bytesOf_adopt (fresh : ℕ) (chain : List (List UInt8 × List UInt8)) :
    bytesOf (adopt fresh chain) = chain.flatMap Prod.fst := by
  induction chain generalizing fresh with
  | nil => rfl
  | cons b chain ih => rw [adopt, bytesOf_cons, ih, List.flatMap_cons]

theorem written_adopt {chain : List (List UInt8 × List UInt8)} (h : ∀ b ∈ chain, b.1 ≠ [])
    (fresh : ℕ) : Written (adopt fresh chain) := by
  induction chain generalizing fresh with
  | nil => exact Written.nil
  | cons b chain ih =>
    exact written_cons.mpr
      ⟨h b List.mem_cons_self, ih (fun c hc => h c (List.mem_cons_of_mem _ hc)) _⟩

theorem sum_pos (l : List Buffer) : (l.map Buffer.pos).sum = (bytesOf l).length := by
  induction l with
  | nil => rfl
  | cons b l ih =>
    rw [List.map_cons, List.sum_cons, ih, bytesOf_cons, List.length_append, Buffer.pos]

/-- A chain behind a full chain. -/
theorem Shape.linkChain_eq (h : s.Shape rd em) (hw : s.wpos = none) (new : List Buffer) :
    linkChain D s new = some (s.head ++ new) := by
  obtain ⟨rfl, hroom⟩ := h.full hw
  have hhead := h.head
  rw [List.append_nil] at hhead
  rw [linkChain]
  rcases List.eq_nil_or_concat rd with rfl | ⟨x, b, rfl⟩
  · have hrsize : s.rsize = 0 := h.rsize
    have hrend : s.rend = none := h.rend
    have htail : s.tail = none := by rw [h.linked.tail, hhead]; rfl
    simp [hhead, hrsize, hrend, htail]
  · rw [List.concat_eq_append] at *
    have htail : s.tail = some b.addr := by rw [h.linked.tail, hhead]; simp
    have hb : b.pos = b.capacity := b.pos_eq_capacity.mpr (by simpa using hroom)
    have hderef := h.linked.deref hhead
    rw [← htail] at hderef
    split
    · rename_i hnil
      simp [hhead] at hnil
    · simp only [hderef, Option.bind_eq_bind, Option.bind_some, devAssert_true hb]
      simp [hhead]

/-- `WriteRef` appends the bytes of a chain without empty buffers. -/
theorem Shape.writeRef (h : s.Shape rd em) {chain : List (List UInt8 × List UInt8)}
    (hsound : ∀ b ∈ chain, b.1 ≠ []) :
    ∃ s' rd' em', BufferStream.writeRef D s chain = some s' ∧ s'.Shape rd' em' ∧
      bytesOf rd' = bytesOf rd ++ chain.flatMap Prod.fst := by
  rcases List.eq_nil_or_concat (adopt s.fresh chain) with hnil | ⟨y, last, hnew⟩
  · have hchain : chain = [] := by
      rw [← List.length_eq_zero_iff, ← length_adopt s.fresh, hnil, List.length_nil]
    subst hchain
    exact ⟨s, rd, em, rfl, h, by simp⟩
  rw [List.concat_eq_append] at hnew
  have haddrs := addrs_adopt s.fresh chain
  have hlength := length_adopt s.fresh chain
  have hwritten := written_adopt hsound s.fresh
  have hbytes := bytesOf_adopt s.fresh chain
  rw [hnew] at haddrs hlength hwritten hbytes
  have hroom : ∀ p : Option ℕ, (if last.room.length > 0 then some last.addr else p) =
      if last.room = [] then p else some last.addr := by
    simp [List.length_pos_iff, ite_not]
  set s₁ : BufferStream := { s with fresh := s.fresh + (y ++ [last]).length } with hs₁
  -- the chain with the caller's buffers inside is linked
  have hinsert : ∀ {s' : BufferStream} {x z : List Buffer}, s.head = x ++ z →
      s'.head = x ++ (y ++ [last]) ++ z → s'.fresh = s₁.fresh → s'.tail = lastAddr s'.head →
      s'.Linked := fun hx hs' hf ht => h.linked.insert hx haddrs hs' hf ht
  rw [← hbytes, BufferStream.writeRef, hnew]
  simp only [List.getLast?_append, List.getLast?_singleton, Option.some_or, sum_pos,
    Buffer.capacity_sub_pos, hroom, ← hlength, ← hs₁]
  by_cases hw : s.wpos = none
  · -- the stream has no free bytes
    obtain ⟨rfl, hfull⟩ := h.full hw
    have hhead := h.head
    rw [List.append_nil] at hhead
    have hlink : linkChain D s₁ (y ++ [last]) = some (rd ++ (y ++ [last])) := by
      have h₁ : s₁.Shape rd [] :=
        { h with linked := { h.linked with
          fresh := fun a ha => Nat.lt_of_lt_of_le (h.linked.fresh a ha) (Nat.le_add_right _ _) } }
      rw [← hhead]
      exact h₁.linkChain_eq hw _
    have hshape : ({ s₁ with
        head := rd ++ (y ++ [last]), tail := some last.addr, rend := some last.addr,
        rsize := s.rsize + (bytesOf (y ++ [last])).length, wsize := last.room.length,
        wpos := if last.room = [] then none else some last.addr } : BufferStream).Shape
        ((rd ++ y) ++ [last]) [] := by
      refine shape_of_last (hinsert (x := rd) (z := []) (by simp [hhead]) (by simp) rfl ?_) ?_ ?_
        Blank.nil ?_ rfl ?_ ?_
      · simp [← List.append_assoc]
      · simp
      · simpa [h.written] using hwritten
      · simp [h.rsize]
      · simp
      · simp
    refine ⟨_, _, _, ?_, hshape, by simp⟩
    have hwsize : s.wsize = 0 := h.wsize_eq_zero hw
    have hw₁ : s₁.wpos = none := hw
    rw [hw₁]
    simp only [devAssert_true hwsize, Option.bind_eq_bind, Option.bind_some, hlink]
    exact hshape.checked D
  obtain ⟨before, b, after, hhead, hwpos, hb, hbefore, hafter, hbytesOf, hwsize, hrd⟩ :=
    h.writable hw
  have hpos : s.wsize > 0 := h.wsize_pos hw
  have hsplit : Buffer.split s.head b.addr = some (before, b, after) := h.linked.split hhead
  have hw₁ : s₁.wpos = some b.addr := hwpos
  rw [hw₁]
  simp only [devAssert_true hpos, Option.bind_eq_bind, Option.bind_some, hsplit,
    devAssert_true (b.pos_lt_capacity.mpr hb)]
  rcases List.eq_nil_or_concat rd with rfl | ⟨u, e, rfl⟩
  · -- there is no data, and the new buffers go before the free ones
    have hrend : s.rend = none := h.rend
    have hrsize : s.rsize = 0 := h.rsize
    have hfirst : some b.addr = s.head.head?.map Buffer.addr := by
      rcases hrd with ⟨hlast, -⟩ | ⟨rfl, -⟩
      · simp at hlast
      · rw [hhead]
        rfl
    have hem : s.head = em := h.head
    have hshape : ({ s₁ with
        head := y ++ [last] ++ s.head, rend := some last.addr,
        rsize := s.rsize + (bytesOf (y ++ [last])).length, wsize := s.wsize + last.room.length,
        wpos := if last.room = [] then some b.addr else some last.addr } : BufferStream).Shape
        (y ++ [last]) em := by
      refine shape_of_last (hinsert (x := []) (z := s.head) rfl rfl rfl ?_) ?_ hwritten h.blank ?_
        rfl ?_ ?_
      · obtain ⟨z, e, hz⟩ : ∃ z e, s.head = z ++ [e] :=
          ⟨_, _, (List.dropLast_append_getLast (by rw [hhead]; simp)).symm⟩
        rw [hs₁, h.linked.tail, hz, ← List.append_assoc, lastAddr_append_cons, lastAddr_append_cons]
      · rw [hem, List.append_assoc]
        rfl
      · rw [hrsize, Nat.zero_add]
      · rw [hfirst, hem]
        rfl
      · have hroomOf := h.wsize
        rw [lastRoom_nil, List.length_nil, Nat.zero_add] at hroomOf
        change s.wsize + last.room.length = _
        rw [hroomOf, Nat.add_comm]
    refine ⟨_, _, _, ?_, hshape, rfl⟩
    rw [hrend]
    simp only [devAssert_true hrsize, devAssert_true hfirst, Option.bind_some]
    exact hshape.checked D
  rw [List.concat_eq_append] at *
  have hrend : s.rend = some e.addr := h.rend.trans (by simp)
  have hheade : s.head = u ++ e :: em := by rw [h.head]; simp
  have hsplite : Buffer.split s.head e.addr = some (u, e, em) := h.linked.split hheade
  rw [hrend]
  simp only [hsplite, Option.bind_some]
  rcases hrd with ⟨hlast, rfl⟩ | ⟨rfl, rfl, hbd, hlast⟩
  · -- the new buffers go after the write position, which has data
    obtain ⟨rfl, rfl⟩ : u = before ∧ e = b := by simpa using hlast
    have hle : e.room.length ≤ s.wsize := by omega
    have he : e.data ≠ [] := (written_append.mp h.written).2 e List.mem_cons_self
    have hshape : ({ s₁ with
        head := u ++ e :: (y ++ [last] ++ em),
        tail := if some e.addr = s.tail then some last.addr else s.tail, rend := some last.addr,
        rsize := s.rsize + (bytesOf (y ++ [last])).length,
        wsize := if last.room.length > 0 then s.wsize - e.room.length + last.room.length
          else s.wsize - e.room.length,
        wpos := if last.room = [] then em.head?.map Buffer.addr else some last.addr } :
        BufferStream).Shape ((u ++ e :: y) ++ [last]) em := by
      refine shape_of_last (hinsert (x := u ++ [e]) (z := em) (by simp [hhead]) (by simp) rfl ?_)
        (by simp) ?_ h.blank ?_ rfl rfl ?_
      · cases em with
        | nil => simp [h.linked.tail, hhead, lastAddr_cons]
        | cons c em =>
          have hne : ¬ some e.addr = s.tail := fun ht =>
            List.cons_ne_nil _ _ (h.linked.eq_nil_of_tail hhead ht.symm)
          have htail : s.tail = lastAddr (c :: em) := by
            rw [h.linked.tail, hhead, lastAddr_append_cons, ← List.singleton_append,
              lastAddr_append_cons]
          change (if some e.addr = s.tail then _ else s.tail) = _
          rw [if_neg hne, htail, lastAddr_append_cons, ← List.cons_append, lastAddr_append_cons]
      · rw [List.append_assoc, List.cons_append, ← List.singleton_append, ← List.append_assoc]
        exact written_append.mpr ⟨h.written, hwritten⟩
      · simp [h.rsize]
        omega
      · change (if last.room.length > 0 then _ else _) = _
        split <;> omega
    refine ⟨_, _, _, ?_, hshape, by simp⟩
    have hor : e.addr = e.addr ∨ em.head?.map Buffer.addr = some e.addr := .inl rfl
    rw [devAssert_true hor]
    simp only [Option.bind_some, if_pos (e.pos_pos.mpr he), sub_of_le hle]
    exact hshape.checked D
  · -- the new buffers go before the write position, which has no data
    have hshape : ({ s₁ with
        head := u ++ e :: (y ++ [last] ++ b :: after), rend := some last.addr,
        rsize := s.rsize + (bytesOf (y ++ [last])).length,
        wsize := if last.room.length > 0 then s.wsize + last.room.length else s.wsize,
        wpos := if last.room = [] then some b.addr else some last.addr } : BufferStream).Shape
        ((u ++ e :: y) ++ [last]) (b :: after) := by
      refine shape_of_last (hinsert (x := u ++ [e]) (z := b :: after) (by simp [hheade]) (by simp)
        rfl ?_) (by simp) ?_ h.blank ?_ rfl rfl ?_
      · change s.tail = lastAddr (u ++ e :: (y ++ [last] ++ b :: after))
        rw [h.linked.tail, hhead, lastAddr_append_cons, lastAddr_append_cons, ← List.cons_append,
          lastAddr_append_cons]
      · rw [List.append_assoc, List.cons_append, ← List.singleton_append, ← List.append_assoc]
        exact written_append.mpr ⟨h.written, hwritten⟩
      · simp [h.rsize]
        omega
      · change (if last.room.length > 0 then _ else _) = _
        rw [roomOf_cons, List.length_append]
        split <;> omega
    refine ⟨_, _, _, ?_, hshape, by simp⟩
    have hor : e.addr = b.addr ∨ (b :: after).head?.map Buffer.addr = some b.addr := .inr rfl
    have hnext : last.room.length > 0 → (b :: after).head?.map Buffer.addr = some b.addr :=
      fun _ => rfl
    have hpos : ¬ b.pos > 0 := by simp [hbd]
    rw [devAssert_true hor]
    simp only [Option.bind_some, if_neg hpos]
    rw [devAssert_true hnext]
    exact hshape.checked D

end BufferStream

end Serverbox
