import Serverbox.Net.BufferStreamFifo

/-!
# Scatter reads into a buffer stream

A receiver reserves free bytes with `EnsureWriteSize`, offers them to the kernel as the vectors of
`BuffersToIOVecsForRead`, and after the kernel has stored some bytes it moves the write position
with `PropagateWritePos`. The vectors are places in memory: the kernel knows nothing of the
positions of the buffers. The two walks over the chain have to agree.

Source: `src/mg/net/Buffer.cpp`.

## Main definitions

* `buffersToIOVecsForRead`: the vectors.
* `fillVectors`: what the kernel stores.

## Main results

* `fillVectors_eq`: the stored bytes are the first free bytes of the chain.
* `BufferStream.scatterRead_iff`: when the readable bytes grow by exactly the stored ones.
-/

namespace Serverbox

/-- `IOVec`: a place in the memory of a buffer, and its size. -/
structure IOVec where
  addr : ℕ
  offset : ℕ
  size : ℕ
  deriving DecidableEq

section Vectors

variable (debug : Bool)

/-- The loop of `BuffersToIOVecsForRead`. -/
def buffersToIOVecsLoop : List Buffer → ℕ → Option (List IOVec)
  | [], _ => some []
  | _ :: _, 0 => some []
  | b :: l, count + 1 => do
    BufferStream.devAssert debug (b.pos = 0)
    BufferStream.devAssert debug (b.capacity > 0)
    let vectors ← buffersToIOVecsLoop l count
    some (⟨b.addr, 0, b.capacity⟩ :: vectors)

/-- `BuffersToIOVecsForRead`. The first buffer is taken in any case. -/
def buffersToIOVecsForRead : List Buffer → ℕ → Option (List IOVec)
  | [], _ => none
  | b :: l, count => do
    BufferStream.devAssert debug (b.capacity > b.pos)
    let vectors ← buffersToIOVecsLoop debug l (count - 1)
    some (⟨b.addr, b.pos, b.capacity - b.pos⟩ :: vectors)

end Vectors

/-- Bytes are stored in the memory of a buffer. -/
def Buffer.poke (b : Buffer) (offset : ℕ) (bytes : List UInt8) : Buffer :=
  let memory := b.data ++ b.room
  let memory := memory.take offset ++ (bytes ++ memory.drop (offset + bytes.length))
  { b with data := memory.take b.pos, room := memory.drop b.pos }

/-- The kernel stores bytes in vectors, in order. -/
def fillVectors : List IOVec → List UInt8 → List Buffer → List Buffer
  | [], _, l => l
  | v :: vectors, bytes, l => fillVectors vectors (bytes.drop v.size)
      (l.map fun b => if b.addr = v.addr then b.poke v.offset (bytes.take v.size) else b)

/-- The kernel stores bytes in vectors of a stream. -/
def BufferStream.fillVectors (s : BufferStream) (vectors : List IOVec) (bytes : List UInt8) :
    BufferStream :=
  { s with head := Serverbox.fillVectors vectors bytes s.head }

/-- The free bytes of a buffer as a vector. -/
def Buffer.vector (b : Buffer) : IOVec := ⟨b.addr, b.pos, b.room.length⟩

theorem Buffer.poke_pos {b : Buffer} {bytes : List UInt8} : b.poke b.pos bytes = b.store bytes := by
  have htake : (b.data ++ b.room).take b.pos = b.data := List.take_left
  have hdrop : (b.data ++ b.room).drop (b.pos + bytes.length) = b.room.drop bytes.length := by
    rw [Buffer.pos, List.drop_append, List.drop_eq_nil_of_le (Nat.le_add_right _ _),
      List.nil_append, Nat.add_sub_cancel_left]
  rw [Buffer.poke, htake, hdrop, Buffer.store]
  simp only [Buffer.pos, List.take_left, List.drop_left]

section Chain

variable {debug : Bool} {b : Buffer} {l p : List Buffer} {bytes : List UInt8}

theorem buffersToIOVecsLoop_eq (h : BufferStream.Blank l) (count : ℕ) :
    buffersToIOVecsLoop debug l count = some ((l.take count).map Buffer.vector) := by
  induction l generalizing count with
  | nil => simp [buffersToIOVecsLoop]
  | cons b l ih =>
    obtain ⟨⟨hd, hroom⟩, hl⟩ := BufferStream.blank_cons.mp h
    have hpos : b.pos = 0 := b.pos_eq_zero.mpr hd
    have hcap : b.capacity = b.room.length := by simp [Buffer.capacity, hd]
    have hlen : b.capacity > 0 := hcap ▸ List.length_pos_iff.mpr hroom
    cases count with
    | zero => rfl
    | succ count =>
      rw [buffersToIOVecsLoop, BufferStream.devAssert_true hpos, BufferStream.devAssert_true hlen,
        ih hl]
      simp [Buffer.vector, hpos, hcap]

/-- The vectors are the free bytes of the first buffers. -/
theorem buffersToIOVecsForRead_eq (hb : b.room ≠ []) (h : BufferStream.Blank l) (count : ℕ) :
    buffersToIOVecsForRead debug (b :: l) count =
      some (((b :: l).take (count - 1 + 1)).map Buffer.vector) := by
  rw [buffersToIOVecsForRead, BufferStream.devAssert_true (b.pos_lt_capacity.mpr hb),
    buffersToIOVecsLoop_eq h]
  simp [Buffer.vector]

theorem buffersReceive_nil (l : List Buffer) : buffersReceive l [] = l := by
  induction l with
  | nil => rfl
  | cons b l ih => simp [buffersReceive, ih, Buffer.store]

/-- Bytes which are stored in the vectors of a chain are its first free bytes. -/
theorem fillVectors_eq {k : ℕ} (hnodup : (addrs (p ++ l)).Nodup)
    (hlen : bytes.length ≤ (((l.take k).map Buffer.vector).map IOVec.size).sum) :
    fillVectors ((l.take k).map Buffer.vector) bytes (p ++ l) = p ++ buffersReceive l bytes := by
  induction l generalizing p k bytes with
  | nil => rw [List.take_nil, List.map_nil, fillVectors, buffersReceive]
  | cons b l ih =>
    cases k with
    | zero =>
      obtain rfl : bytes = [] := List.length_eq_zero_iff.mp (by simpa using hlen)
      rw [List.take_zero, List.map_nil, fillVectors, buffersReceive_nil]
    | succ k =>
      have hmap : (p ++ b :: l).map (fun c => if c.addr = b.vector.addr then
            c.poke b.vector.offset (bytes.take b.vector.size) else c) =
          (p ++ [b.store (bytes.take b.room.length)]) ++ l := by
        have hne : ∀ c ∈ p ++ l, c.addr ≠ b.addr := fun c hc he => by
          rw [addrs_append, addrs_cons, List.nodup_middle,
            List.nodup_cons, ← addrs_append] at hnodup
          exact hnodup.1 (he ▸ List.mem_map_of_mem hc)
        have hsame : ∀ q ⊆ p ++ l, q.map (fun c => if c.addr = b.vector.addr then
            c.poke b.vector.offset (bytes.take b.vector.size) else c) = q := fun q hq =>
          (List.map_congr_left fun c hc => if_neg (hne c (hq hc))).trans (List.map_id q)
        rw [List.map_append, List.map_cons, hsame p (List.subset_append_left p l),
          hsame l (List.subset_append_right p l), if_pos (show b.addr = b.vector.addr from rfl),
          List.append_assoc, List.singleton_append]
        exact congrArg (fun c => p ++ c :: l) Buffer.poke_pos
      rw [List.take_succ_cons, List.map_cons, fillVectors, hmap, ih, buffersReceive,
        List.append_assoc, List.singleton_append]
      · rfl
      · rw [addrs_append, addrs_append] at *
        simpa [addrs] using hnodup
      · simp only [List.take_succ_cons, List.map_cons, List.sum_cons] at hlen
        rw [List.length_drop]
        omega

theorem roomOf_buffersReceive (h : bytes.length ≤ (BufferStream.roomOf l).length) :
    BufferStream.roomOf (buffersReceive l bytes) =
      bytes ++ (BufferStream.roomOf l).drop bytes.length := by
  induction l generalizing bytes with
  | nil =>
    obtain rfl : bytes = [] := List.length_eq_zero_iff.mp (by simpa using h)
    rfl
  | cons b l ih =>
    rw [BufferStream.roomOf_cons, List.length_append] at h
    have hrest : (bytes.drop b.room.length).length ≤ (BufferStream.roomOf l).length := by
      rw [List.length_drop]
      omega
    rw [buffersReceive, BufferStream.roomOf_cons, ih hrest, BufferStream.roomOf_cons,
      List.drop_append, Buffer.store]
    dsimp only
    rw [List.length_take, List.length_drop, ← List.append_assoc]
    by_cases hle : bytes.length ≤ b.room.length
    · rw [List.drop_eq_nil_of_le hle, List.take_of_length_le hle, Nat.min_eq_right hle,
        List.append_nil, Nat.sub_eq_zero_of_le hle, List.append_assoc]
    · have hge : b.room.length ≤ bytes.length := by omega
      rw [Nat.min_eq_left hge, List.drop_length, List.append_nil, ← List.append_assoc,
        List.take_append_drop, List.drop_eq_nil_of_le hge, List.append_nil]

/-- The vectors offer free bytes of the chain. -/
theorem sum_size_le (l : List Buffer) (k : ℕ) :
    (((l.take k).map Buffer.vector).map IOVec.size).sum ≤ (BufferStream.roomOf l).length := by
  induction l generalizing k with
  | nil => simp
  | cons b l ih =>
    cases k with
    | zero => simp
    | succ k =>
      rw [List.take_succ_cons, List.map_cons, List.map_cons, List.sum_cons,
        BufferStream.roomOf_cons, List.length_append]
      exact Nat.add_le_add_left (ih k) _

end Chain

namespace BufferStream

variable {D : Bool} {J : ℕ → ℕ → UInt8} {s : BufferStream} {rd em : List Buffer}

/-- `PrivCheck` looks for the read end before the first buffer without data. -/
theorem checkFrom_rend {e : Buffer} {f : Bool} {prev : Option ℕ} {r w : ℕ} (hrd : Written rd)
    (he : e.data = []) (h : checkFrom s (rd ++ e :: em) prev false f r w = true) :
    (lastAddr rd).or prev = s.rend := by
  induction rd generalizing f prev r w with
  | nil =>
    have hpos : e.pos = 0 := e.pos_eq_zero.mpr he
    simp only [List.nil_append, checkFrom, hpos, and_self, decide_eq_true_eq] at h
    exact h.1 trivial
  | cons b rd ih =>
    obtain ⟨hb, hrd⟩ := written_cons.mp hrd
    have hpos : ¬ b.pos = 0 := mt b.pos_eq_zero.mp hb
    rw [List.cons_append, checkFrom] at h
    simp only [hpos, false_and, decide_false, Bool.or_false, decide_eq_true_eq] at h
    rw [lastAddr_cons, Option.or_assoc, Option.some_or]
    exact ih hrd h.2.2.2

namespace Shape

variable (h : s.Shape rd em)
include h

/-- `PropagateWritePos` of no bytes only moves the read end. -/
theorem propagateWritePos_zero (hw : s.wpos ≠ none) :
    BufferStream.propagateWritePos D s 0 =
      BufferStream.checked D { s with rend := s.wpos } := by
  obtain ⟨before, b, after, hhead, hwpos, hb, -⟩ := h.writable hw
  have hchain : s.chainFrom s.wpos = some (before, b :: after) := by
    simp [chainFrom, hwpos, h.linked.split hhead]
  have hpos : s.wsize ≠ 0 := (h.wsize_pos hw).ne'
  have hderef : deref { s with rend := s.wpos } (some b.addr) = some (before, b, after) :=
    h.linked.deref hhead
  have hsame : (⟨before ++ b :: after, s.rsize, some b.addr, some b.addr, s.wsize, s.tail,
      s.fresh⟩ : BufferStream) = { s with rend := s.wpos } := by
    rw [← hhead, ← hwpos]
  rw [BufferStream.propagateWritePos, hchain]
  simp only [devAssert_true (Nat.zero_le _), Option.bind_eq_bind, Option.bind_some,
    buffersPropagateOnWrite, List.head?_cons, Option.map_some, sub_of_le (Nat.zero_le _),
    Nat.sub_zero, Nat.add_zero, hsame, if_neg hpos, hderef, if_neg (mt b.pos_eq_capacity.mp hb)]

/-- A read end which was moved to a write position without data does not pass `PrivCheck`. -/
theorem privCheck_moved (hw : s.wpos ≠ none) (hne : s.wpos ≠ s.rend) :
    BufferStream.privCheck { s with rend := s.wpos } = false := by
  obtain ⟨before, b, after, hhead, hwpos, -, -, -, -, -, hcases⟩ := h.writable hw
  rcases hcases with ⟨hrd, -⟩ | ⟨hrd, -, hdata, -⟩
  · -- the write position is the last buffer with data
    refine absurd ?_ hne
    rw [hwpos, h.rend, hrd, lastAddr_append_cons, lastAddr_singleton]
  · rw [Bool.eq_false_iff]
    intro hcheck
    obtain ⟨c, l, hcl⟩ : ∃ c l, s.head = c :: l := by
      rw [hhead]
      cases before <;> exact ⟨_, _, rfl⟩
    unfold BufferStream.privCheck at hcheck
    rw [hcl] at hcheck
    simp only [decide_eq_true_eq] at hcheck
    by_cases hrsize : s.rsize = 0
    · exact hw (hcheck.1 hrsize)
    · rw [← hcl, hhead, decide_eq_false hrsize] at hcheck
      have hrend := checkFrom_rend (hrd ▸ h.written) hdata hcheck.2
      rw [Option.or_none] at hrend
      exact hne (by rw [h.rend, hrd]; exact hrend.symm)

/-- The kernel stores bytes at the write position. -/
theorem fill {before l : List Buffer} {count : ℕ} {vectors : List IOVec} {bytes : List UInt8}
    (hw : s.wpos ≠ none) (hl : s.chainFrom s.wpos = some (before, l))
    (hv : buffersToIOVecsForRead D l count = some vectors)
    (hlen : bytes.length ≤ (vectors.map IOVec.size).sum) :
    ∃ rd' em', (s.fillVectors vectors bytes).Shape rd' em' ∧
      bytesOf rd' = bytesOf rd ∧
      (s.fillVectors vectors bytes).free.take bytes.length = bytes ∧
      bytes.length ≤ s.wsize := by
  obtain ⟨x, b, after, hhead, hwpos, hb, -, hblank, -, hwsize, -⟩ := h.writable hw
  have hchain : s.chainFrom s.wpos = some (x, b :: after) := by
    simp [chainFrom, hwpos, h.linked.split hhead]
  obtain ⟨rfl, rfl⟩ : before = x ∧ l = b :: after := by
    rw [hchain] at hl
    exact ⟨(congrArg Prod.fst (Option.some.inj hl)).symm,
      (congrArg Prod.snd (Option.some.inj hl)).symm⟩
  rw [buffersToIOVecsForRead_eq hb hblank] at hv
  obtain rfl := Option.some.inj hv
  have hroom : bytes.length ≤ (roomOf (b :: after)).length := hlen.trans (sum_size_le _ _)
  have hfill : Serverbox.fillVectors
      (((b :: after).take (count - 1 + 1)).map Buffer.vector) bytes s.head =
      before ++ buffersReceive (b :: after) bytes := by
    rw [hhead]
    exact fillVectors_eq (hhead ▸ h.linked.nodup) hlen
  obtain ⟨x', l', rd', em', hchain', hshape, hbytes⟩ := h.receive bytes
  obtain ⟨rfl, rfl⟩ : before = x' ∧ b :: after = l' := by
    rw [hchain] at hchain'
    exact ⟨congrArg Prod.fst (Option.some.inj hchain'), congrArg Prod.snd (Option.some.inj hchain')⟩
  rw [BufferStream.fillVectors, hfill]
  refine ⟨rd', em', hshape, hbytes, ?_, ?_⟩
  · rw [hshape.linked.free_eq (x := before) rfl hwpos]
    have hreceive := roomOf_buffersReceive hroom
    rw [buffersReceive] at hreceive
    rw [hreceive, List.take_left]
  · rw [hwsize]
    simpa using hroom

end Shape

/-- **Scatter reads.** Free bytes are reserved in any stream which is in its invariant, offered in
vectors of any limit, and the kernel stores any bytes which fit. The readable bytes grow by exactly
these bytes, in all cases but one: in a debug build `PropagateWritePos` of no bytes fails when the
write position is not the read end. -/
theorem scatterRead_iff (debug : Bool) (junk : ℕ → ℕ → UInt8) (s : BufferStream) (h : s.Inv)
    (size : ℕ) : ∃ s₁, ensureWriteSize debug junk s size = some s₁ ∧ ∀ count, s₁.wpos ≠ none →
      ∃ before l vectors, s₁.chainFrom s₁.wpos = some (before, l) ∧
        buffersToIOVecsForRead debug l count = some vectors ∧
        ∀ bytes : List UInt8, bytes.length ≤ (vectors.map IOVec.size).sum →
          ((∃ s₂, propagateWritePos debug (s₁.fillVectors vectors bytes) bytes.length = some s₂ ∧
              s₂.unread = s.unread ++ bytes ∧ s₂.rsize = s.rsize + bytes.length) ↔
            (bytes ≠ [] ∨ s₁.wpos = s₁.rend ∨ debug = false)) := by
  obtain ⟨rd, em, hshape⟩ := h
  obtain ⟨s₁, l₁, hs₁, -, -, -, h₁⟩ := hshape.ensureWriteSize (D := debug) (J := junk) size
  refine ⟨s₁, hs₁, fun count hw => ?_⟩
  obtain ⟨before, b, after, hhead, hwpos, hb, -, hblank, -⟩ := h₁.writable hw
  have hchain : s₁.chainFrom s₁.wpos = some (before, b :: after) := by
    simp [chainFrom, hwpos, h₁.linked.split hhead]
  have hunread : s₁.unread = s.unread := by rw [h₁.unread_eq, hshape.unread_eq]
  have hrsize : s₁.rsize = s.rsize := by rw [h₁.rsize, hshape.rsize]
  refine ⟨before, b :: after, _, hchain, buffersToIOVecsForRead_eq hb hblank count,
    fun bytes hlen => ?_⟩
  obtain ⟨rd₂, em₂, h₂, hbytes, hfree, hle⟩ :=
    h₁.fill hw hchain (D := debug) (buffersToIOVecsForRead_eq hb hblank count) hlen
  have hgrow : bytes ≠ [] ∨ s₁.wpos = s₁.rend → ∃ s₂, propagateWritePos debug
      (s₁.fillVectors (((b :: after).take (count - 1 + 1)).map Buffer.vector) bytes)
        bytes.length = some s₂ ∧
      s₂.unread = s.unread ++ bytes ∧ s₂.rsize = s.rsize + bytes.length := fun hsound => by
    obtain ⟨s₂, rd₃, em₃, hs₂, h₃, hbytes₃⟩ := h₂.propagateWritePos (D := debug) hle
      (hsound.imp_left List.length_pos_iff.mpr)
    have hunread₂ : s₂.unread = s.unread ++ bytes := by
      rw [h₃.unread_eq, hbytes₃, hfree, hbytes, ← h₁.unread_eq, hunread]
    refine ⟨s₂, hs₂, hunread₂, ?_⟩
    rw [h₃.rsize_eq, hunread₂, List.length_append, hshape.rsize_eq]
  by_cases hsound : bytes ≠ [] ∨ s₁.wpos = s₁.rend
  · exact iff_of_true (hgrow hsound) (hsound.imp_right .inl)
  · obtain ⟨hnil, hne⟩ := not_or.mp hsound
    obtain rfl : bytes = [] := not_not.mp hnil
    have hsame :
        s₁.fillVectors (((b :: after).take (count - 1 + 1)).map Buffer.vector) [] = s₁ := by
      have hhead₁ := fillVectors_eq (k := count - 1 + 1) (hhead ▸ h₁.linked.nodup)
        (show ([] : List UInt8).length ≤ _ from Nat.zero_le _)
      rw [buffersReceive_nil, ← hhead] at hhead₁
      rw [BufferStream.fillVectors, hhead₁]
    rw [hsame, List.length_nil, List.append_nil, Nat.add_zero]
    rw [h₁.propagateWritePos_zero (D := debug) hw]
    cases debug with
    | false =>
      refine iff_of_true ⟨{ s₁ with rend := s₁.wpos }, rfl, ?_, hrsize⟩ (.inr (.inr rfl))
      exact hunread
    | true =>
      have hfails : checked true { s₁ with rend := s₁.wpos } = none := by
        simp [checked, devAssert, h₁.privCheck_moved hw hne]
      refine iff_of_false ?_ (by simp [hne])
      rintro ⟨s₂, hs₂, -⟩
      rw [hfails] at hs₂
      cases hs₂

/-- A new stream, in which a byte is reserved and three are stored. -/
theorem scatterRead_iff_new : ∃ s₁, ensureWriteSize true (fun _ _ => 0) new 1 = some s₁ ∧
    ∀ count, s₁.wpos ≠ none → ∃ before l vectors, s₁.chainFrom s₁.wpos = some (before, l) ∧
      buffersToIOVecsForRead true l count = some vectors ∧
      ([1, 2, 3].length ≤ (vectors.map IOVec.size).sum → ∃ s₂, propagateWritePos true
        (s₁.fillVectors vectors [1, 2, 3]) 3 = some s₂ ∧
          s₂.unread = [1, 2, 3]) := by
  obtain ⟨s₁, hs₁, hall⟩ := scatterRead_iff true (fun _ _ => 0) new ⟨[], [], new_shape⟩ 1
  refine ⟨s₁, hs₁, fun count hw => ?_⟩
  obtain ⟨before, l, vectors, hl, hv, hbytes⟩ := hall count hw
  refine ⟨before, l, vectors, hl, hv, fun hlen => ?_⟩
  obtain ⟨s₂, hs₂, hunread, -⟩ := (hbytes [1, 2, 3] hlen).mpr (.inl (List.cons_ne_nil _ _))
  exact ⟨s₂, hs₂, hunread⟩

/-- A new stream in a debug build: a byte is reserved, a buffer is offered, and nothing is stored.
-/
theorem propagateWritePos_zero_fails :
    ((ensureWriteSize true (fun _ _ => 0) new 1).bind fun s =>
      (s.chainFrom s.wpos).bind fun r =>
      (buffersToIOVecsForRead true r.2 1).map fun vectors =>
        (vectors.map IOVec.size, propagateWritePos true (s.fillVectors vectors []) 0)) =
      some ([984], none) := by
  decide +kernel

/-- A stream outside its invariant. In a release build `PropagateWritePos` of no bytes moves the
read end to a buffer without data, `WriteRef` puts its chain behind it, and the bytes which are then
stored at the write position come before those of the chain. -/
theorem scatterRead_disordered :
    ((run false (fun _ _ => 0) new
        [.ensureWriteSize 1, .propagateWritePos 0, .writeRef [([97, 98, 99], [])]]).bind fun r =>
      (ensureWriteSize false (fun _ _ => 0) r.1 1).bind fun s =>
      (s.chainFrom s.wpos).bind fun l =>
      (buffersToIOVecsForRead false l.2 1).bind fun vectors =>
      (propagateWritePos false (s.fillVectors vectors [120, 121]) 2).map fun s₂ =>
        (r.1.unread, s₂.unread)) = some ([97, 98, 99], [120, 121, 97, 98, 99]) := by
  decide +kernel

end BufferStream

end Serverbox
