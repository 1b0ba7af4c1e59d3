import Serverbox.Net.BufferStreamWrite

/-!
# Reading from a buffer stream

Each operation which consumes bytes succeeds on a stream with a shape, when it asks for no more
than the stream has, and gives a stream with a shape. The head which is read to its end stays only
when it is the write position.

## Main results

* `BufferStream.Shape.skipData`, `BufferStream.Shape.readData`, `BufferStream.Shape.peekData`,
  `BufferStream.Shape.popData`, `BufferStream.Shape.clear`: the operations.
-/

namespace Serverbox

namespace BufferStream

variable {D : Bool} {s s' : BufferStream} {rd em : List Buffer}

theorem lastAddr_append {x l : List Buffer} (hl : l ≠ []) : lastAddr (x ++ l) = lastAddr l := by
  obtain ⟨b, l, rfl⟩ := List.exists_cons_of_ne_nil hl
  exact lastAddr_append_cons x b l

/-- The end of a linked chain is linked. -/
theorem Linked.drop (h : s.Linked) {x l : List Buffer} (hs : s.head = x ++ l) (hl : l ≠ [])
    (ha : addrs s'.head = addrs l) (hf : s'.fresh = s.fresh) (ht : s'.tail = s.tail) :
    s'.Linked where
  nodup := by
    rw [ha]
    exact (List.nodup_append.mp (addrs_append x l ▸ hs ▸ h.nodup)).2.1
  fresh := by
    rw [ha, hf]
    intro a hal
    exact h.fresh a (by rw [hs, addrs_append]; exact List.mem_append_right _ hal)
  tail := by
    rw [ht, h.tail, hs, lastAddr_append hl, lastAddr_eq, lastAddr_eq, ha]

/-- `Clear`. -/
theorem clear_spec (s : BufferStream) :
    ∃ s', clear D s = some s' ∧ s'.Shape [] [] := by
  have hshape : ({ s with
      head := [], rsize := 0, rend := none, wpos := none, wsize := 0, tail := none } :
      BufferStream).Shape [] [] :=
    ⟨rfl, ⟨List.nodup_nil, by simp, rfl⟩, Written.nil, Blank.nil, rfl, rfl, rfl, rfl⟩
  exact ⟨_, hshape.checked D, hshape⟩

namespace Shape

variable {x z : List Buffer} {b : Buffer} (h : s.Shape (x ++ b :: z) em)
include h

/-- The head which has bytes left. -/
theorem partly {k : ℕ} (hk : k < b.data.length) : ({ s with
    head := b.propagate k :: (z ++ em), rsize := s.rsize - ((bytesOf x).length + k) } :
    BufferStream).Shape (b.propagate k :: z) em where
  head := rfl
  linked := h.linked.drop (x := x) (l := b :: (z ++ em)) (by simp [h.head]) (by simp) rfl rfl
    rfl
  written := by
    have hw := (written_cons.mp (written_append.mp h.written).2).2
    simp [hw, hk]
  blank := h.blank
  rsize := by
    have := h.rsize
    simp only [bytesOf_append, bytesOf_cons, List.length_append, Buffer.propagate_data,
      List.length_drop] at *
    omega
  rend := by
    rw [h.rend, lastAddr_append_cons, lastAddr_cons, lastAddr_cons, Buffer.propagate_addr]
  wpos := by
    have hroom : lastRoom (b.propagate k :: z) = lastRoom (b :: z) := by
      by_cases hz : z = []
      · rw [hz]
        rfl
      · rw [lastRoom_cons hz, lastRoom_cons hz]
    rw [h.wpos, writeAt, writeAt, lastRoom_append_cons, hroom, lastAddr_append_cons, lastAddr_cons,
      lastAddr_cons, Buffer.propagate_addr]
  wsize := by
    have hroom : lastRoom (b.propagate k :: z) = lastRoom (b :: z) := by
      by_cases hz : z = []
      · rw [hz]
        rfl
      · rw [lastRoom_cons hz, lastRoom_cons hz]
    rw [h.wsize, lastRoom_append_cons, hroom]

/-- The head is read to its end, and there is more data after it. -/
theorem dropped (hz : z ≠ []) : ({ s with
    head := z ++ em, rsize := s.rsize - ((bytesOf x).length + b.data.length) } :
    BufferStream).Shape z em where
  head := rfl
  linked := h.linked.drop (x := x ++ [b]) (l := z ++ em) (by simp [h.head]) (by simp [hz]) rfl rfl
    rfl
  written := (written_cons.mp (written_append.mp h.written).2).2
  blank := h.blank
  rsize := by
    have := h.rsize
    simp only [bytesOf_append, bytesOf_cons, List.length_append] at *
    omega
  rend := by rw [h.rend, lastAddr_append_cons, ← List.singleton_append, lastAddr_append hz]
  wpos := by
    rw [h.wpos, writeAt, writeAt, lastRoom_append_cons, lastRoom_cons hz, lastAddr_append_cons,
      ← List.singleton_append, lastAddr_append hz]
  wsize := by rw [h.wsize, lastRoom_append_cons, lastRoom_cons hz]

/-- The write position is not before the last buffer with data. -/
theorem wpos_ne (hz : z ≠ [] ∨ b.room = []) : some b.addr ≠ s.wpos := by
  have hnodup : (addrs (b :: (z ++ em))).Nodup := by
    have := h.nodup
    rw [List.append_assoc, List.cons_append, addrs_append] at this
    exact (List.nodup_append.mp this).2.1
  rw [addrs_cons, addrs_append, List.nodup_cons, List.mem_append, not_or] at hnodup
  intro hwpos
  rw [h.wpos, writeAt] at hwpos
  split at hwpos
  · -- the first buffer without data
    refine hnodup.1.2 ?_
    obtain ⟨e, he, hb⟩ := Option.map_eq_some_iff.mp hwpos.symm
    exact hb ▸ List.mem_map_of_mem (List.mem_of_mem_head? he)
  · rename_i hroom
    rw [lastRoom_append_cons] at hroom
    rcases hz with hz | hb
    · -- the last buffer with data
      refine hnodup.1.1 ?_
      rw [lastAddr_append_cons, ← List.singleton_append, lastAddr_append hz] at hwpos
      obtain ⟨e, he, hb⟩ := Option.map_eq_some_iff.mp hwpos.symm
      exact hb ▸ List.mem_map_of_mem (List.mem_of_mem_getLast? he)
    · by_cases hz : z = []
      · subst hz
        exact hroom hb
      · refine hnodup.1.1 ?_
        rw [lastAddr_append_cons, ← List.singleton_append, lastAddr_append hz] at hwpos
        obtain ⟨e, he, hb⟩ := Option.map_eq_some_iff.mp hwpos.symm
        exact hb ▸ List.mem_map_of_mem (List.mem_of_mem_getLast? he)

end Shape

section Exhausted

variable {x : List Buffer} {b : Buffer} (h : s.Shape (x ++ [b]) em)
include h

theorem Shape.rsize_exhausted : s.rsize - ((bytesOf x).length + b.data.length) = 0 := by
  have := h.rsize
  simp only [bytesOf_append, bytesOf_cons, bytesOf_nil, List.append_nil, List.length_append] at this
  omega

/-- All the data is read, and its last buffer is the write position. -/
theorem Shape.exhausted_open (hb : b.room ≠ []) : ({ s with
    head := b.propagate b.data.length :: em, rsize := 0, rend := none } :
    BufferStream).Shape [] (b.propagate b.data.length :: em) where
  head := rfl
  linked := h.linked.drop (x := x) (l := b :: em) (by simp [h.head]) (by simp) rfl rfl rfl
  written := Written.nil
  blank := by simp [hb, h.blank]
  rsize := rfl
  rend := rfl
  wpos := by simp [h.wpos, writeAt, hb]
  wsize := by simp [h.wsize]

/-- All the data is read, and its last buffer is full. -/
theorem Shape.exhausted_full (hb : b.room = []) (hem : em ≠ []) : ({ s with
    head := em, rsize := 0, rend := none } : BufferStream).Shape [] em where
  head := rfl
  linked := h.linked.drop (x := x ++ [b]) (l := em) (by simp [h.head]) hem rfl rfl rfl
  written := Written.nil
  blank := h.blank
  rsize := rfl
  rend := rfl
  wpos := by simp [h.wpos, writeAt, hb]
  wsize := by simp [h.wsize, hb]

theorem Shape.wsize_exhausted (hb : b.room = []) (hem : em = []) : s.wsize = 0 := by
  simp [h.wsize, hb, hem]

end Exhausted

theorem rsize_ne_zero {x z : List Buffer} {b : Buffer} {k : ℕ} (h : s.Shape (x ++ b :: z) em)
    (hk : k ≤ b.data.length) (hz : z ≠ [] ∨ k < b.data.length) :
    s.rsize - ((bytesOf x).length + k) ≠ 0 := by
  have hrsize := h.rsize
  simp only [bytesOf_append, bytesOf_cons, List.length_append] at hrsize
  rcases hz with hz | hk
  · obtain ⟨c, z, rfl⟩ := List.exists_cons_of_ne_nil hz
    have hc : c.data ≠ [] := by simpa using h.written c (by simp)
    have := List.length_pos_iff.mpr hc
    simp only [bytesOf_cons, List.length_append] at hrsize
    omega
  · omega

/-- The bytes left after the bytes before `b` and `k` bytes of `b`. -/
theorem drop_bytesOf (x z : List Buffer) (b : Buffer) {k : ℕ} (hk : k ≤ b.data.length) :
    (bytesOf (x ++ b :: z)).drop ((bytesOf x).length + k) = b.data.drop k ++ bytesOf z := by
  rw [bytesOf_append, bytesOf_cons, List.drop_length_add_append, List.drop_append_of_le_length hk]

/-- The first bytes, up to `k` bytes of `b`. -/
theorem take_bytesOf (x z : List Buffer) (b : Buffer) {k : ℕ} (hk : k ≤ b.data.length) :
    (bytesOf (x ++ b :: z)).take ((bytesOf x).length + k) = bytesOf x ++ b.data.take k := by
  rw [bytesOf_append, bytesOf_cons, List.take_length_add_append, List.take_append_of_le_length hk]

/-- The end of `SkipData` and of `ReadData` on a chain which begins with data. -/
theorem Shape.dropSpentHead (h : s.Shape rd em) (hrd : rd ≠ []) :
    BufferStream.dropSpentHead D s = some s := by
  obtain ⟨b, rd, rfl⟩ := List.exists_cons_of_ne_nil hrd
  have hb : b.data ≠ [] := (written_cons.mp h.written).1
  simp [BufferStream.dropSpentHead, h.head, hb]

theorem dropSpentHead_cons {b : Buffer} {l : List Buffer} (hs : s.head = b :: l)
    (hb : b.data = []) (hw : some b.addr ≠ s.wpos) (hl : l ≠ []) :
    BufferStream.dropSpentHead D s = some { s with head := l } := by
  simp [BufferStream.dropSpentHead, hs, hb, hw, hl]

/-- `SkipData` drops the first bytes. -/
theorem Shape.skipData (h : s.Shape rd em) {aSize : ℕ} (hle : aSize ≤ s.rsize) :
    ∃ s' rd' em', BufferStream.skipData D s aSize = some s' ∧ s'.Shape rd' em' ∧
      bytesOf rd' = (bytesOf rd).drop aSize := by
  suffices hmain : ∃ l s' rd' em', buffersPropagateOnRead s.head aSize = some l ∧
      afterSkip D { s with head := l, rsize := s.rsize - aSize } = some s' ∧
      s'.Shape rd' em' ∧ bytesOf rd' = (bytesOf rd).drop aSize by
    obtain ⟨l, s', rd', em', hl, hs', hshape, hbytes⟩ := hmain
    refine ⟨s', rd', em', ?_, hshape, hbytes⟩
    rw [BufferStream.skipData]
    simp only [devAssert_true hle, Option.bind_eq_bind, Option.bind_some, hl, sub_of_le hle, hs',
      hshape.checked]
  rcases Nat.eq_zero_or_pos aSize with rfl | hn
  · -- nothing to skip
    rw [buffersPropagateOnRead]
    by_cases hhead : s.head = []
    · obtain ⟨s', hs', hshape⟩ := clear_spec (D := D) s
      obtain ⟨rfl, rfl⟩ := List.append_eq_nil_iff.mp (h.head.symm.trans hhead)
      exact ⟨_, s', _, _, rfl, by rw [afterSkip, if_pos hhead]; exact hs', hshape, rfl⟩
    · refine ⟨_, s, rd, em, rfl, ?_, h, rfl⟩
      rw [afterSkip, if_neg hhead]
      by_cases hrd : rd = []
      · have hrend : s.rend = none := by rw [h.rend, hrd]; rfl
        have hrsize : s.rsize = 0 := by rw [h.rsize, hrd]; rfl
        have hs : ({ s with rend := none } : BufferStream) = s := by rw [← hrend]
        simpa [hrsize] using hs
      · have hrsize : ¬ s.rsize - 0 = 0 := by
          obtain ⟨b, rd, rfl⟩ := List.exists_cons_of_ne_nil hrd
          simp [h.rsize, (written_cons.mp h.written).1]
        rw [if_neg hrsize]
        exact h.dropSpentHead hrd
  obtain ⟨x, b, z, k, rfl, rfl, hk, hkb⟩ := exists_consumed hn (h.rsize ▸ hle)
  have hhead : s.head = x ++ b :: (z ++ em) := by simp [h.head]
  rw [hhead, buffersPropagateOnRead_spec hk hkb, drop_bytesOf x z b hkb]
  rcases Nat.lt_or_eq_of_le hkb with hlt | rfl
  · -- the head has bytes left
    have hshape := h.partly hlt
    have hne : ¬ ((b.propagate k).data = [] ∧ b.room = []) := by simp [hlt]
    refine ⟨_, _, _, _, by rw [if_neg hne], ?_, hshape, by simp⟩
    rw [afterSkip, if_neg (List.cons_ne_nil _ _), if_neg (rsize_ne_zero h hkb (.inr hlt))]
    exact hshape.dropSpentHead (List.cons_ne_nil _ _)
  have hdata : (b.propagate b.data.length).data = [] := by simp
  rw [List.drop_length, List.nil_append]
  by_cases hz : z = []
  · -- no data is left
    subst hz
    have hrsize := h.rsize_exhausted
    rw [List.nil_append]
    by_cases hroom : b.room = []
    · rw [if_pos ⟨hdata, hroom⟩]
      by_cases hem : em = []
      · obtain ⟨s', hs', hshape⟩ := clear_spec (D := D)
          ({ s with head := em, rsize := s.rsize - ((bytesOf x).length + b.data.length) })
        exact ⟨_, s', _, _, rfl, by rw [afterSkip, if_pos hem]; exact hs', hshape, rfl⟩
      · refine ⟨_, _, _, _, rfl, ?_, h.exhausted_full hroom hem, rfl⟩
        rw [afterSkip, if_neg hem, if_pos hrsize, hrsize]
    · rw [if_neg fun hc => hroom hc.2]
      refine ⟨_, _, _, _, rfl, ?_, h.exhausted_open hroom, rfl⟩
      rw [afterSkip, if_neg (List.cons_ne_nil _ _), if_pos hrsize, hrsize]
  · -- the next buffer has data
    have hshape := h.dropped hz
    have hne := rsize_ne_zero h hkb (.inl hz)
    have hl : z ++ em ≠ [] := by simp [hz]
    by_cases hroom : b.room = []
    · refine ⟨_, _, _, _, by rw [if_pos ⟨hdata, hroom⟩], ?_, hshape, rfl⟩
      rw [afterSkip, if_neg hl, if_neg hne]
      exact hshape.dropSpentHead hz
    · refine ⟨_, _, _, _, by rw [if_neg fun hc => hroom hc.2], ?_, hshape, rfl⟩
      rw [afterSkip, if_neg (List.cons_ne_nil _ _), if_neg hne]
      exact dropSpentHead_cons rfl hdata (h.wpos_ne (.inl hz)) hl

/-- `ReadData` copies the first bytes and drops them. -/
theorem Shape.readData (h : s.Shape rd em) {aSize : ℕ} (hle : aSize ≤ s.rsize) :
    ∃ s' rd' em', BufferStream.readData D s aSize = some ((bytesOf rd).take aSize, s') ∧
      s'.Shape rd' em' ∧ bytesOf rd' = (bytesOf rd).drop aSize := by
  rcases Nat.eq_zero_or_pos aSize with rfl | hn
  · exact ⟨s, rd, em, by simp [BufferStream.readData], h, rfl⟩
  obtain ⟨x, b, z, k, rfl, rfl, hk, hkb⟩ := exists_consumed hn (h.rsize ▸ hle)
  have hhead : s.head = x ++ b :: (z ++ em) := by simp [h.head]
  suffices hmain : ∃ s' rd' em', BufferStream.dropSpentHead D { s with
      head := b.propagate k :: (z ++ em), rsize := s.rsize - ((bytesOf x).length + k),
      rend := if s.rsize - ((bytesOf x).length + k) = 0 then none else s.rend } = some s' ∧
      (s'.head = [] ∨ s'.rsize > 0 ∨ s'.wsize > 0) ∧ s'.Shape rd' em' ∧
      bytesOf rd' = (bytesOf (x ++ b :: z)).drop ((bytesOf x).length + k) by
    obtain ⟨s', rd', em', hs', hassert, hshape, hbytes⟩ := hmain
    refine ⟨s', rd', em', ?_, hshape, hbytes⟩
    rw [BufferStream.readData, if_neg (by omega)]
    simp only [devAssert_true hle, Option.bind_eq_bind, Option.bind_some, sub_of_le hle, hhead,
      readLoop_spec hk hkb, hs', devAssert_true hassert, hshape.checked, take_bytesOf x z b hkb]
  rw [drop_bytesOf x z b hkb]
  rcases Nat.lt_or_eq_of_le hkb with hlt | rfl
  · -- the head has bytes left
    have hne := rsize_ne_zero h hkb (.inr hlt)
    rw [if_neg hne]
    have hshape := h.partly hlt
    exact ⟨_, _, _, hshape.dropSpentHead (List.cons_ne_nil _ _),
      .inr (.inl (Nat.pos_of_ne_zero hne)), hshape, by simp⟩
  have hdata : (b.propagate b.data.length).data = [] := by simp
  rw [List.drop_length, List.nil_append]
  by_cases hz : z = []
  · -- no data is left
    subst hz
    have hrsize := h.rsize_exhausted
    rw [List.nil_append, hrsize, if_pos rfl]
    by_cases hroom : b.room = []
    · have hw := h.wpos_ne (.inr hroom)
      by_cases hem : em = []
      · obtain ⟨s', hs', hshape⟩ := clear_spec (D := D)
          ({ s with head := [], rsize := 0, rend := none, wsize := 0 })
        have hwsize : s.wsize = 0 := h.wsize_exhausted hroom hem
        refine ⟨s', _, _, ?_, .inl hshape.head, hshape, rfl⟩
        subst hem
        simp [BufferStream.dropSpentHead, hw, hwsize, hs']
      · have hshape := h.exhausted_full hroom hem
        refine ⟨_, _, _, dropSpentHead_cons rfl hdata hw hem, .inr (.inr ?_), hshape, rfl⟩
        refine hshape.wsize_pos fun hnone => ?_
        obtain ⟨e, em, rfl⟩ := List.exists_cons_of_ne_nil hem
        rw [hshape.wpos] at hnone
        simp [writeAt] at hnone
    · have hshape := h.exhausted_open hroom
      have hw : s.wpos = some b.addr := by simp [h.wpos, writeAt, hroom]
      refine ⟨_, _, _, ?_, .inr (.inr (hshape.wsize_pos (by simp [hw]))), hshape, rfl⟩
      simp [BufferStream.dropSpentHead, hw]
  · -- the next buffer has data
    have hshape := h.dropped hz
    have hne := rsize_ne_zero h hkb (.inl hz)
    rw [if_neg hne]
    exact ⟨_, _, _, dropSpentHead_cons rfl hdata (h.wpos_ne (.inl hz)) (by simp [hz]),
      .inr (.inl (Nat.pos_of_ne_zero hne)), hshape, rfl⟩

/-- `PeekData` copies the first bytes. -/
theorem Shape.peekData (h : s.Shape rd em) {aSize : ℕ} (hle : aSize ≤ s.rsize) :
    BufferStream.peekData D s aSize = some ((bytesOf rd).take aSize) := by
  rcases Nat.eq_zero_or_pos aSize with rfl | hn
  · simp [BufferStream.peekData]
  obtain ⟨x, b, z, k, rfl, rfl, hk, hkb⟩ := exists_consumed hn (h.rsize ▸ hle)
  have hhead : s.head = x ++ b :: (z ++ em) := by simp [h.head]
  rw [BufferStream.peekData, if_neg (by omega)]
  simp only [devAssert_true hle, Option.bind_eq_bind, Option.bind_some, hhead,
    peekLoop_spec hk hkb, take_bytesOf x z b hkb]

/-- `PopData` hands out the buffers with data, and keeps the others. -/
theorem Shape.popData (h : s.Shape rd em) :
    ∃ s', BufferStream.popData D s = some (rd, s') ∧ s'.Shape [] em := by
  rcases List.eq_nil_or_concat rd with rfl | ⟨x, b, rfl⟩
  · have hrend : s.rend = none := h.rend
    have hrsize : s.rsize = 0 := h.rsize
    exact ⟨s, by simp [BufferStream.popData, hrend, hrsize], h⟩
  rw [List.concat_eq_append] at *
  have hrend : s.rend = some b.addr := h.rend.trans (by simp)
  have hhead : s.head = x ++ b :: em := by simp [h.head]
  have hb : b.pos > 0 := b.pos_pos.mpr (h.written b (by simp))
  have hpos : s.rsize > 0 := by
    have := h.rsize
    simp only [bytesOf_append, bytesOf_cons, bytesOf_nil, List.append_nil, List.length_append,
      Buffer.pos] at *
    omega
  rw [BufferStream.popData, hrend]
  simp only [devAssert_true hpos, Option.bind_eq_bind, Option.bind_some, h.linked.split hhead,
    devAssert_true hb, Buffer.capacity_sub_pos]
  by_cases hem : em = []
  · obtain ⟨s', hs', hshape⟩ := clear_spec (D := D)
      { s with head := em, rend := some b.addr }
    exact ⟨s', by rw [if_pos hem, hs', Option.bind_some], by rwa [hem]⟩
  · have hwsize := h.wsize
    rw [lastRoom_append_cons, lastRoom_singleton] at hwsize
    have hle : b.room.length ≤ s.wsize := by omega
    have hshape : ({ s with
        head := em, wsize := s.wsize - b.room.length, rsize := 0, rend := none,
        wpos := em.head?.map Buffer.addr } : BufferStream).Shape [] em := by
      refine ⟨rfl, h.linked.drop (x := x ++ [b]) (l := em) (by simp [hhead]) hem rfl rfl rfl,
        Written.nil, h.blank, rfl, rfl, rfl, ?_⟩
      rw [lastRoom_nil, List.length_nil, Nat.zero_add]
      change s.wsize - b.room.length = _
      omega
    exact ⟨_, by rw [if_neg hem, sub_of_le hle, Option.bind_some, hshape.checked]; rfl, hshape⟩

end BufferStream

end Serverbox
