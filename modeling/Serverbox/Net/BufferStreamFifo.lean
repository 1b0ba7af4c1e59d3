import Serverbox.Net.BufferStreamRead

/-!
# A buffer stream is a queue of bytes

Sequences of calls on a stream are compared with an abstract queue of bytes. The comparison holds
for both builds, and for all the calls with admitted arguments except three kinds:

* `PropagateWritePos` of no bytes moves the read end to the write position. With data and no free
  bytes it is lost, and with a write position without data it points at a buffer without data.
* `WriteCopy` takes the buffer which it fills up for the last one, and leaves the buffers reserved
  behind it in the middle of the chain.
* `WriteRef` of a chain with an empty buffer makes this buffer the read end, or leaves it before
  the data.

## Main definitions

* `BufferStream.fifo`: the queue of bytes.
* `BufferStream.Op.admits`: the arguments which a call admits.
* `BufferStream.Op.sound`, `BufferStream.sound`: none of the calls is of the three kinds.

## Main results

* `BufferStream.run_fifo`: the calls are those of a queue of bytes.
* `BufferStream.run_inv`: the calls succeed and keep the representation invariant.
-/

namespace Serverbox

namespace BufferStream

/-! ### Bytes stored by the owner -/

/-- What the shape of a stream depends on. -/
def key (b : Buffer) : ℕ × List UInt8 × ℕ := (b.addr, b.data, b.room.length)

theorem addrs_of_key {l l' : List Buffer} (h : l'.map key = l.map key) : addrs l' = addrs l := by
  have := congrArg (List.map Prod.fst) h
  simpa [key, addrs, Function.comp_def] using this

theorem bytesOf_of_key {l l' : List Buffer} (h : l'.map key = l.map key) :
    bytesOf l' = bytesOf l := by
  have := congrArg (List.flatMap fun k => k.2.1) h
  simpa [key, bytesOf, List.flatMap_map] using this

theorem length_roomOf_of_key {l l' : List Buffer} (h : l'.map key = l.map key) :
    (roomOf l').length = (roomOf l).length := by
  have := congrArg (fun l => (l.map fun k => k.2.2).sum) h
  simpa [key, roomOf, List.length_flatMap, Function.comp_def] using this

theorem length_lastRoom_of_key {l l' : List Buffer} (h : l'.map key = l.map key) :
    (lastRoom l').length = (lastRoom l).length := by
  have hlast := congrArg (fun l => (l.getLast?.map fun k => k.2.2).getD 0) h
  simp only [List.getLast?_map, Option.map_map] at hlast
  cases h1 : l'.getLast? <;> cases h2 : l.getLast? <;>
    simp_all [lastRoom, key, Function.comp_def]

theorem written_of_key {l l' : List Buffer} (h : l'.map key = l.map key) (hl : Written l) :
    Written l' := by
  intro b hb
  have hk : key b ∈ l.map key := h ▸ List.mem_map_of_mem hb
  obtain ⟨c, hc, hck⟩ := List.mem_map.mp hk
  simp only [key, Prod.mk.injEq] at hck
  exact hck.2.1 ▸ hl c hc

theorem blank_of_key {l l' : List Buffer} (h : l'.map key = l.map key) (hl : Blank l) :
    Blank l' := by
  intro b hb
  have hk : key b ∈ l.map key := h ▸ List.mem_map_of_mem hb
  obtain ⟨c, hc, hck⟩ := List.mem_map.mp hk
  simp only [key, Prod.mk.injEq] at hck
  refine ⟨hck.2.1 ▸ (hl c hc).1, ?_⟩
  rw [← List.length_pos_iff, ← hck.2.2, List.length_pos_iff]
  exact (hl c hc).2

theorem Blank.sum_capacity {l : List Buffer} (h : Blank l) :
    (l.map Buffer.capacity).sum = (roomOf l).length := by
  induction l with
  | nil => rfl
  | cons b l ih =>
    obtain ⟨⟨hd, -⟩, hl⟩ := blank_cons.mp h
    rw [List.map_cons, List.sum_cons, ih hl, roomOf_cons, List.length_append, Buffer.capacity, hd,
      List.length_nil, Nat.zero_add]

/-- The bytes stored after the positions do not change the shape. -/
theorem Shape.of_key {s : BufferStream} {rd em l : List Buffer} (h : s.Shape rd em)
    (hl : l.map key = s.head.map key) :
    ({ s with head := l } : BufferStream).Shape (l.take rd.length) (l.drop rd.length) := by
  have hrd : (l.take rd.length).map key = rd.map key := by
    rw [List.map_take, hl, h.head, ← List.map_take, List.take_left]
  have hem : (l.drop rd.length).map key = em.map key := by
    rw [List.map_drop, hl, h.head, ← List.map_drop, List.drop_left]
  have hfirst : firstAddr (l.drop rd.length) = firstAddr em := by
    have := congrArg List.head? (addrs_of_key hem)
    simpa [addrs, firstAddr, List.head?_map] using this
  have hroom : lastRoom (l.take rd.length) = [] ↔ lastRoom rd = [] := by
    rw [← List.length_eq_zero_iff, length_lastRoom_of_key hrd, List.length_eq_zero_iff]
  constructor
  · exact (List.take_append_drop _ _).symm
  · exact h.linked.congr (addrs_of_key hl) rfl rfl
  · exact written_of_key hrd h.written
  · exact blank_of_key hem h.blank
  · rw [bytesOf_of_key hrd]
    exact h.rsize
  · rw [lastAddr_eq, addrs_of_key hrd, ← lastAddr_eq]
    exact h.rend
  · rw [writeAt, lastAddr_eq, addrs_of_key hrd, ← lastAddr_eq, hfirst]
    simp only [hroom]
    exact h.wpos
  · rw [length_lastRoom_of_key hrd, length_roomOf_of_key hem]
    exact h.wsize

theorem buffersReceive_key (l : List Buffer) (bytes : List UInt8) :
    (buffersReceive l bytes).map key = l.map key := by
  induction l generalizing bytes with
  | nil => rfl
  | cons b l ih =>
    have hlen : (b.store (bytes.take b.room.length)).room.length = b.room.length := by
      simp only [Buffer.store, List.length_append, List.length_take, List.length_drop]
      omega
    rw [buffersReceive, List.map_cons, List.map_cons, ih]
    simp [key, hlen]

/-- The owner stores bytes at the write position. -/
theorem Shape.receive {s : BufferStream} {rd em : List Buffer} (h : s.Shape rd em)
    (bytes : List UInt8) : ∃ before l rd' em', s.chainFrom s.wpos = some (before, l) ∧
      ({ s with head := before ++ buffersReceive l bytes } : BufferStream).Shape rd' em' ∧
      bytesOf rd' = bytesOf rd := by
  obtain ⟨before, l, hchain, hhead⟩ :
      ∃ before l, s.chainFrom s.wpos = some (before, l) ∧ s.head = before ++ l := by
    by_cases hw : s.wpos = none
    · exact ⟨s.head, [], by simp [chainFrom, hw], (List.append_nil _).symm⟩
    · obtain ⟨before, b, after, hhead, hwpos, -⟩ := h.writable hw
      exact ⟨before, b :: after, by simp [chainFrom, hwpos, h.linked.split hhead], hhead⟩
  have hkey : (before ++ buffersReceive l bytes).map key = s.head.map key := by
    rw [hhead, List.map_append, List.map_append, buffersReceive_key]
  have hshape := h.of_key hkey
  refine ⟨before, l, _, _, hchain, hshape, ?_⟩
  have hunread : bytesOf (before ++ buffersReceive l bytes) = s.unread := bytesOf_of_key hkey
  rw [← hshape.unread_eq, ← h.unread_eq, unread, hunread]

/-! ### The queue of bytes -/

/-- A queue of bytes: what it holds after one event, `none` when the bytes of the event are not
its first bytes. -/
def Fifo.step (queue : List UInt8) : Event → Option (List UInt8)
  | .quiet => some queue
  | .wrote bytes => some (queue ++ bytes)
  | .skipped size => if size ≤ queue.length then some (queue.drop size) else none
  | .read size bytes =>
    if size ≤ queue.length ∧ bytes = queue.take size then some (queue.drop size) else none
  | .peeked size bytes =>
    if size ≤ queue.length ∧ bytes = queue.take size then some queue else none
  | .popped bytes => if bytes = queue then some [] else none
  | .cleared => some []

/-- The queue of bytes, empty at first. -/
def fifo : Machine (List UInt8) Event := ⟨(· = []), Fifo.step⟩

/-- The arguments which a call admits. -/
def Op.admits (s : BufferStream) : Op → Bool
  | .propagateWritePos size => size ≤ s.wsize
  | .skipData size => size ≤ s.rsize
  | .readData size => size ≤ s.rsize
  | .peekData size => size ≤ s.rsize
  | _ => true

/-- The calls which keep the pointers right. -/
def Op.sound (s : BufferStream) : Op → Bool
  | .propagateWritePos size => 0 < size ∨ s.wpos = s.rend
  | .writeCopy bytes => bytes = [] ∨ s.wpos = none ∨ s.wpos = s.tail ∨
      ∀ x ∈ s.deref s.wpos, bytes.length < x.2.1.room.length
  | .writeRef chain => ∀ b ∈ chain, b.1 ≠ []
  | _ => true

variable (debug : Bool) (junk : ℕ → ℕ → UInt8)

/-- All the calls of a sequence have admitted arguments. -/
def admitted (s : BufferStream) : List Op → Bool
  | [] => true
  | op :: ops => op.admits s && (step debug junk s op).all fun (s', _) => admitted s' ops

/-- All the calls of a sequence keep the pointers right. -/
def sound (s : BufferStream) : List Op → Bool
  | [] => true
  | op :: ops => op.sound s && (step debug junk s op).all fun (s', _) => sound s' ops

variable {debug junk} {s : BufferStream}

/-- One call. -/
theorem Inv.step (h : s.Inv) {op : Op} (hadm : op.admits s = true) (hsound : op.sound s = true) :
    ∃ s' e, BufferStream.step debug junk s op = some (s', e) ∧ s'.Inv ∧
      fifo.step s.unread e = some s'.unread := by
  obtain ⟨rd, em, h⟩ := h
  have hunread := h.unread_eq
  cases op with
  | ensureWriteSize size =>
    obtain ⟨s', l, hs', -, -, -, h'⟩ := h.ensureWriteSize (D := debug) (J := junk) size
    exact ⟨s', .quiet, by simp [BufferStream.step, hs'], ⟨_, _, h'⟩,
      by rw [hunread, h'.unread_eq]; rfl⟩
  | receive bytes =>
    obtain ⟨before, l, rd', em', hchain, h', hbytes⟩ := h.receive bytes
    exact ⟨_, .quiet, by simp [BufferStream.step, hchain], ⟨_, _, h'⟩,
      by rw [hunread, h'.unread_eq, hbytes]; rfl⟩
  | propagateWritePos size =>
    obtain ⟨s', rd', em', hs', h', hbytes⟩ := h.propagateWritePos (D := debug)
      (by simpa [Op.admits] using hadm) (by simpa [Op.sound] using hsound)
    exact ⟨s', .wrote (s.free.take size), by simp [BufferStream.step, hs'], ⟨_, _, h'⟩,
      by rw [hunread, h'.unread_eq, hbytes]; rfl⟩
  | writeCopy bytes =>
    obtain ⟨s', rd', em', hs', h', hbytes⟩ := h.writeCopy (D := debug) (J := junk)
      (by simpa only [Op.sound, decide_eq_true_eq] using hsound)
    exact ⟨s', .wrote bytes, by simp [BufferStream.step, hs'], ⟨_, _, h'⟩,
      by rw [hunread, h'.unread_eq, hbytes]; rfl⟩
  | writeRef chain =>
    obtain ⟨s', rd', em', hs', h', hbytes⟩ := h.writeRef (D := debug)
      (by simpa only [Op.sound, decide_eq_true_eq] using hsound)
    exact ⟨s', .wrote (chain.flatMap Prod.fst), by simp [BufferStream.step, hs'], ⟨_, _, h'⟩,
      by rw [hunread, h'.unread_eq, hbytes]; rfl⟩
  | skipData size =>
    have hle : size ≤ s.rsize := by simpa [Op.admits] using hadm
    obtain ⟨s', rd', em', hs', h', hbytes⟩ := h.skipData (D := debug) hle
    refine ⟨s', .skipped size, by simp [BufferStream.step, hs'], ⟨_, _, h'⟩, ?_⟩
    rw [h'.unread_eq, hbytes, ← hunread]
    exact if_pos (h.rsize_eq ▸ hle)
  | readData size =>
    have hle : size ≤ s.rsize := by simpa [Op.admits] using hadm
    obtain ⟨s', rd', em', hs', h', hbytes⟩ := h.readData (D := debug) hle
    refine ⟨s', .read size ((bytesOf rd).take size), by simp [BufferStream.step, hs'], ⟨_, _, h'⟩,
      ?_⟩
    rw [h'.unread_eq, hbytes, ← hunread]
    exact if_pos ⟨h.rsize_eq ▸ hle, rfl⟩
  | peekData size =>
    have hle : size ≤ s.rsize := by simpa [Op.admits] using hadm
    have hs' := h.peekData (D := debug) hle
    refine ⟨s, .peeked size ((bytesOf rd).take size), by simp [BufferStream.step, hs'], ⟨_, _, h⟩,
      ?_⟩
    rw [← hunread]
    exact if_pos ⟨h.rsize_eq ▸ hle, rfl⟩
  | popData =>
    obtain ⟨s', hs', h'⟩ := h.popData (D := debug)
    refine ⟨s', .popped (bytesOf rd), by simp [BufferStream.step, hs'], ⟨_, _, h'⟩, ?_⟩
    rw [h'.unread_eq, hunread]
    exact if_pos rfl
  | clear =>
    obtain ⟨s', hs', h'⟩ := clear_spec (D := debug) s
    refine ⟨s', .cleared, by simp [BufferStream.step, hs'], ⟨_, _, h'⟩, ?_⟩
    rw [h'.unread_eq]
    rfl

/-- A sequence of calls from any state with the invariant. -/
theorem Inv.run (h : s.Inv) {ops : List Op} (hadm : admitted debug junk s ops = true)
    (hsound : sound debug junk s ops = true) :
    ∃ s' es, BufferStream.run debug junk s ops = some (s', es) ∧ s'.Inv ∧
      fifo.run s.unread es = some s'.unread := by
  induction ops generalizing s with
  | nil => exact ⟨s, [], rfl, h, rfl⟩
  | cons op ops ih =>
    simp only [admitted, sound, Bool.and_eq_true] at hadm hsound
    obtain ⟨s₁, e, hs₁, h₁, hfifo⟩ : ∃ s' e, BufferStream.step debug junk s op = some (s', e) ∧
        s'.Inv ∧ fifo.step s.unread e = some s'.unread := h.step hadm.1 hsound.1
    rw [hs₁] at hadm hsound
    obtain ⟨s', es, hs', h', hrun⟩ := ih h₁ hadm.2 hsound.2
    refine ⟨s', e :: es, ?_, h', fifo.run_cons_eq_some.mpr ⟨_, hfifo, hrun⟩⟩
    rw [BufferStream.run, hs₁]
    simp [hs']

/-- **A buffer stream is a queue of bytes**, in both builds: the calls succeed, the bytes which
they return are those of the queue, and the read size is the number of the bytes in the queue. -/
theorem run_fifo (debug : Bool) (junk : ℕ → ℕ → UInt8) (ops : List Op)
    (hadm : admitted debug junk new ops = true) (hsound : sound debug junk new ops = true) :
    ∃ s es, BufferStream.run debug junk new ops = some (s, es) ∧
      fifo.run [] es = some s.unread ∧ s.rsize = s.unread.length := by
  obtain ⟨s, es, hs, ⟨rd, em, h⟩, hfifo⟩ :=
    Inv.run ⟨_, _, new_shape⟩ hadm hsound
  exact ⟨s, es, hs, hfifo, h.rsize_eq⟩

/-- The calls of a receiver which reserves two buffers, and a reader. -/
theorem run_fifo_received : ∃ s es, BufferStream.run false (fun _ _ => 0) new
    [.ensureWriteSize 985, .receive [1, 2, 3], .propagateWritePos 3, .writeRef [([4], [5])],
      .peekData 2, .readData 2, .popData] = some (s, es) ∧
    fifo.run [] es = some s.unread ∧ s.rsize = s.unread.length :=
  run_fifo false (fun _ _ => 0) _ (by decide +kernel) (by decide +kernel)

/-- In a release build the bytes of a full buffer are not popped after `PropagateWritePos` of no
bytes. -/
theorem popData_loses_bytes :
    admitted false (fun _ _ => 0) new
      [.writeCopy (List.replicate theBufferCopySize 7), .propagateWritePos 0, .popData] = true ∧
    (BufferStream.run false (fun _ _ => 0) new
      [.writeCopy (List.replicate theBufferCopySize 7), .propagateWritePos 0, .popData]).map
        (fun x => (x.1.rsize, fifo.run [] x.2)) = some (theBufferCopySize, none) := by
  decide +kernel

/-- **The representation invariant**, in both builds: the calls succeed, no assertion fails, and
the pointers and the sizes describe the chain. -/
theorem run_inv (debug : Bool) (junk : ℕ → ℕ → UInt8) (ops : List Op)
    (hadm : admitted debug junk new ops = true) (hsound : sound debug junk new ops = true) :
    ∃ s es rd em, BufferStream.run debug junk new ops = some (s, es) ∧ s.privCheck = true ∧
      s.head = rd ++ em ∧ (∀ b ∈ rd, 0 < b.pos) ∧ (∀ b ∈ em, b.pos = 0 ∧ 0 < b.capacity) ∧
      s.rsize = (rd.map Buffer.pos).sum ∧ s.rend = rd.getLast?.map Buffer.addr ∧
      s.tail = s.head.getLast?.map Buffer.addr ∧ (s.wpos = none ↔ s.wsize = 0) ∧
      ((∃ b, rd.getLast? = some b ∧ b.pos < b.capacity ∧ s.wpos = some b.addr ∧
          s.wsize = b.capacity - b.pos + (em.map Buffer.capacity).sum) ∨
        (∀ b, rd.getLast? = some b → b.pos = b.capacity) ∧ s.wpos = em.head?.map Buffer.addr ∧
          s.wsize = (em.map Buffer.capacity).sum) := by
  obtain ⟨s, es, hs, ⟨rd, em, h⟩, -⟩ := Inv.run ⟨_, _, new_shape⟩ hadm hsound
  refine ⟨s, es, rd, em, hs, h.privCheck, h.head, ?_, ?_, ?_, h.rend, h.linked.tail, ?_, ?_⟩
  · exact fun b hb => b.pos_pos.mpr (h.written b hb)
  · intro b hb
    obtain ⟨hd, hroom⟩ := h.blank b hb
    refine ⟨b.pos_eq_zero.mpr hd, ?_⟩
    have := List.length_pos_iff.mpr hroom
    rw [Buffer.capacity]
    omega
  · rw [sum_pos, h.rsize]
  · exact ⟨h.wsize_eq_zero, fun h0 => by
      by_contra hw
      exact (h.wsize_pos hw).ne' h0⟩
  · have hem : (em.map Buffer.capacity).sum = (roomOf em).length := h.blank.sum_capacity
    have hwpos := h.wpos
    have hwsize := h.wsize
    rw [hem]
    rcases List.eq_nil_or_concat rd with rfl | ⟨x, b, rfl⟩
    · refine .inr ⟨by simp, hwpos, by simpa using hwsize⟩
    · rw [List.concat_eq_append, writeAt, lastRoom_append_cons, lastRoom_singleton,
        lastAddr_append_cons, lastAddr_singleton] at *
      by_cases hb : b.room = []
      · rw [if_pos hb] at hwpos
        exact .inr ⟨by simp [hb], hwpos, by simpa [hb] using hwsize⟩
      · rw [if_neg hb] at hwpos
        exact .inl ⟨b, by simp, b.pos_lt_capacity.mpr hb, hwpos, by simpa using hwsize⟩

/-- The calls of a sender who writes by copy and by reference. -/
theorem run_inv_sent : ∃ s es rd em, BufferStream.run true (fun _ _ => 0) new
    [.writeCopy [1, 2, 3], .writeRef [([4], []), ([5], [6])], .skipData 2] = some (s, es) ∧
      s.privCheck = true ∧
      s.head = rd ++ em ∧ (∀ b ∈ rd, 0 < b.pos) ∧ (∀ b ∈ em, b.pos = 0 ∧ 0 < b.capacity) ∧
      s.rsize = (rd.map Buffer.pos).sum ∧ s.rend = rd.getLast?.map Buffer.addr ∧
      s.tail = s.head.getLast?.map Buffer.addr ∧ (s.wpos = none ↔ s.wsize = 0) ∧
      ((∃ b, rd.getLast? = some b ∧ b.pos < b.capacity ∧ s.wpos = some b.addr ∧
          s.wsize = b.capacity - b.pos + (em.map Buffer.capacity).sum) ∨
        (∀ b, rd.getLast? = some b → b.pos = b.capacity) ∧ s.wpos = em.head?.map Buffer.addr ∧
          s.wsize = (em.map Buffer.capacity).sum) :=
  run_inv true (fun _ _ => 0) _ (by decide +kernel) (by decide +kernel)

/-- An assertion fails when `WriteCopy` fills up the first of two reserved buffers. -/
theorem writeCopy_fails :
    admitted true (fun _ _ => 0) new
      [.ensureWriteSize (theBufferCopySize + 1),
        .writeCopy (List.replicate theBufferCopySize 7)] = true ∧
    BufferStream.run true (fun _ _ => 0) new
      [.ensureWriteSize (theBufferCopySize + 1),
        .writeCopy (List.replicate theBufferCopySize 7)] = none := by
  decide +kernel

end BufferStream

end Serverbox
