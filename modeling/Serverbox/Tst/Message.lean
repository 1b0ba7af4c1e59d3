import Serverbox.Net.BufferStreamFifo

/-!
# Messages in a buffer stream

`WriteMessage` writes messages to a chain of buffers. A message is a header with the size of its
body, and the body. The place of the header is reserved when the message is opened, in one buffer,
and is filled when the message is closed, while more buffers may have come after it. `ReadMessage`
reads the values of a message from a buffer stream, which may have got the bytes of the chain in
any pieces.

The bytes of an integer are in the little-endian order. A chain is the list of the bytes of its
buffers, of which only the last one is written to, and the header place is the number of a buffer
with the offset in it. The bytes of a new message which are not written yet are arbitrary. The sizes
of a message are counted modulo `2 ^ 64`, and so is the sum in `IsComplete`.

Source: `src/mg/test/Message.h`, `src/mg/test/Message.cpp`.

## Main definitions

* `Message.WriteMessage`: the writer.
* `Message.isComplete`, `Message.readMessage`: the reader.
* `Message.machine`: a stream which gets the bytes of the messages in pieces, and its reader.

## Main results

* `Message.framing`: the messages are read as they were written, and `IsComplete` is right unless
  the announced size wraps around.
-/

namespace Serverbox

namespace Message

open BufferStream (devAssert)

/-! ### The bytes of the integers -/

/-- The bytes of an integer of the given size. -/
def toBytes : ℕ → ℕ → List UInt8
  | 0, _ => []
  | n + 1, v => UInt8.ofNat (v % 256) :: toBytes n (v / 256)

/-- The integer of some bytes. -/
def ofBytes : List UInt8 → ℕ
  | [] => 0
  | b :: l => b.toNat + 256 * ofBytes l

@[simp] theorem length_toBytes (n v : ℕ) : (toBytes n v).length = n := by
  induction n generalizing v with
  | zero => rfl
  | succ n ih => rw [toBytes, List.length_cons, ih]

theorem ofBytes_toBytes (n v : ℕ) : ofBytes (toBytes n v) = v % 256 ^ n := by
  induction n generalizing v with
  | zero => rw [Nat.pow_zero, Nat.mod_one]; rfl
  | succ n ih =>
    have hbyte : (UInt8.ofNat (v % 256)).toNat = v % 256 := by simp
    rw [toBytes, ofBytes, ih, hbyte, Nat.pow_succ, Nat.mul_comm (256 ^ n), Nat.mod_mul]

/-! ### The values of a message -/

/-- What is written to a message. -/
inductive Value
  | uint8 (v : UInt8)
  | uint16 (v : UInt16)
  | uint32 (v : UInt32)
  | uint64 (v : UInt64)
  | int8 (v : Int8)
  | int16 (v : Int16)
  | int32 (v : Int32)
  | int64 (v : Int64)
  | bool (v : Bool)
  | string (v : {l : List UInt8 // l.length < 2 ^ 64})
  | data (v : List UInt8)
  deriving DecidableEq

/-- What is read from a message. The size of raw data is known to the reader. -/
inductive Kind
  | uint8
  | uint16
  | uint32
  | uint64
  | int8
  | int16
  | int32
  | int64
  | bool
  | string
  | data (size : ℕ)
  deriving DecidableEq

/-- How a value is read. -/
def Value.kind : Value → Kind
  | uint8 _ => .uint8
  | uint16 _ => .uint16
  | uint32 _ => .uint32
  | uint64 _ => .uint64
  | int8 _ => .int8
  | int16 _ => .int16
  | int32 _ => .int32
  | int64 _ => .int64
  | bool _ => .bool
  | string _ => .string
  | data v => .data v.length

/-! ### The writer -/

/-- A chain of `BufferCopy`: the bytes of the buffers before `myPos`, and of this one. -/
structure Chain where
  before : List (List UInt8)
  pos : List UInt8
  deriving DecidableEq

/-- The buffers of a chain. -/
def Chain.buffers (c : Chain) : List (List UInt8) := c.before ++ [c.pos]

/-- `myPos = (myPos->myNext = BufferCopy::NewShared())`. -/
def Chain.link (c : Chain) : Chain := ⟨c.buffers, []⟩

/-- `WriteMessage`. The header place is the number of a buffer and the offset in it. -/
structure WriteMessage where
  head : Option Chain
  size : ℕ
  totalSize : ℕ
  headerPos : Option (ℕ × ℕ)
  deriving DecidableEq

/-- The constructor. -/
def WriteMessage.new : WriteMessage := ⟨none, 0, 0, none⟩

/-- `sizeof(MessageHeader)`. -/
def sizeofHeader : ℕ := 8

variable (debug : Bool) (junk : ℕ → UInt8)

/-- The loop of `WriteData`, which makes at most as many rounds as the first argument says. -/
def writeLoop : ℕ → Chain → List UInt8 → Option Chain
  | 0, _, _ => none
  | rounds + 1, c, data =>
    let cap := theBufferCopySize - c.pos.length
    let toWrite := if cap ≥ data.length then data.length else cap
    let c := { c with pos := c.pos ++ data.take toWrite }
    if data.length - toWrite = 0 then some c
    else writeLoop rounds c.link (data.drop toWrite)

/-- `WriteData`. -/
def writeData (w : WriteMessage) (data : List UInt8) : Option WriteMessage := do
  devAssert debug (w.headerPos ≠ none)
  let c ← w.head
  let c ← writeLoop (data.length + 2) c data
  some { w with
    head := some c
    totalSize := (w.totalSize + data.length) % 2 ^ 64
    size := (w.size + data.length) % 2 ^ 64 }

/-- `WriteUInt8`. -/
def writeUInt8 (w : WriteMessage) (v : UInt8) : Option WriteMessage :=
  writeData debug w (toBytes 1 v.toNat)

/-- `WriteUInt16`. -/
def writeUInt16 (w : WriteMessage) (v : UInt16) : Option WriteMessage :=
  writeData debug w (toBytes 2 v.toNat)

/-- `WriteUInt32`. -/
def writeUInt32 (w : WriteMessage) (v : UInt32) : Option WriteMessage :=
  writeData debug w (toBytes 4 v.toNat)

/-- `WriteUInt64`. -/
def writeUInt64 (w : WriteMessage) (v : UInt64) : Option WriteMessage :=
  writeData debug w (toBytes 8 v.toNat)

/-- `WriteInt8`, whose argument is unsigned. -/
def writeInt8 (w : WriteMessage) (v : UInt8) : Option WriteMessage :=
  writeData debug w (toBytes 1 v.toNat)

/-- `WriteInt16`, whose argument is unsigned. -/
def writeInt16 (w : WriteMessage) (v : UInt16) : Option WriteMessage :=
  writeData debug w (toBytes 2 v.toNat)

/-- `WriteInt32`, whose argument is unsigned. -/
def writeInt32 (w : WriteMessage) (v : UInt32) : Option WriteMessage :=
  writeData debug w (toBytes 4 v.toNat)

/-- `WriteInt64`, whose argument is unsigned. -/
def writeInt64 (w : WriteMessage) (v : UInt64) : Option WriteMessage :=
  writeData debug w (toBytes 8 v.toNat)

/-- `WriteBool`. -/
def writeBool (w : WriteMessage) (v : Bool) : Option WriteMessage :=
  writeData debug w (toBytes 1 v.toNat)

/-- `WriteString`. -/
def writeString (w : WriteMessage) (v : List UInt8) : Option WriteMessage := do
  let w ← writeData debug w (toBytes 8 v.length)
  writeData debug w v

/-- One value is written. A signed one is converted by the call. -/
def write (w : WriteMessage) : Value → Option WriteMessage
  | .uint8 v => writeUInt8 debug w v
  | .uint16 v => writeUInt16 debug w v
  | .uint32 v => writeUInt32 debug w v
  | .uint64 v => writeUInt64 debug w v
  | .int8 v => writeInt8 debug w v.toUInt8
  | .int16 v => writeInt16 debug w v.toUInt16
  | .int32 v => writeInt32 debug w v.toUInt32
  | .int64 v => writeInt64 debug w v.toUInt64
  | .bool v => writeBool debug w v
  | .string v => writeString debug w v.1
  | .data v => writeData debug w v

/-- `WriteMessage::Open`. -/
def openWrite (w : WriteMessage) : Option WriteMessage := do
  devAssert debug (w.headerPos = none)
  devAssert debug (w.size = 0)
  let c := w.head.getD ⟨[], []⟩
  let c := if theBufferCopySize - c.pos.length < sizeofHeader then c.link else c
  some { w with
    head := some { c with pos := c.pos ++ (List.range sizeofHeader).map junk }
    headerPos := some (c.before.length, c.pos.length)
    totalSize := (w.totalSize + sizeofHeader) % 2 ^ 64 }

/-- `memcpy` of the header to its place. -/
def Chain.patch (c : Chain) (i off : ℕ) (header : List UInt8) : Chain :=
  let f := fun b : List UInt8 => b.take off ++ header ++ b.drop (off + header.length)
  if i < c.before.length then { c with before := c.before.modify i f }
  else { c with pos := f c.pos }

/-- `WriteMessage::Close`. -/
def closeWrite (w : WriteMessage) : Option WriteMessage := do
  devAssert debug (w.headerPos ≠ none)
  let (i, off) ← w.headerPos
  let c ← w.head
  some { w with
    head := some (c.patch i off (toBytes sizeofHeader w.size))
    headerPos := none
    size := 0 }

/-- `TakeData`: the buffers and the writer. -/
def takeData (w : WriteMessage) : Option (List (List UInt8) × WriteMessage) := do
  devAssert debug (w.headerPos = none)
  devAssert debug (w.size = 0)
  some ((w.head.map Chain.buffers).getD [], { w with head := none, totalSize := 0 })

/-- The values of one message. -/
def writeValues (w : WriteMessage) : List Value → Option WriteMessage
  | [] => some w
  | v :: l => do
    let w ← write debug w v
    writeValues w l

/-- One message. -/
def writeMessage (w : WriteMessage) (m : List Value) : Option WriteMessage := do
  let w ← openWrite debug junk w
  let w ← writeValues debug w m
  closeWrite debug w

/-- What is done with the writer: a message is written, or its buffers are taken. -/
inductive Item
  | message (m : List Value)
  | take

/-- All the buffers which are taken from the writer, also after the last message. -/
def writeAll (w : WriteMessage) : List Item → Option (List (List UInt8))
  | [] => (takeData debug w).map Prod.fst
  | .message m :: l => do
    let w ← writeMessage debug junk w m
    writeAll w l
  | .take :: l => do
    let (bs, w) ← takeData debug w
    let bs' ← writeAll w l
    some (bs ++ bs')

/-- The messages of the items. -/
def messages : List Item → List (List Value)
  | [] => []
  | .message m :: l => m :: messages l
  | .take :: l => messages l

/-! ### The reader -/

/-- `IsComplete`. The sum is a 64-bit one. -/
def isComplete (s : BufferStream) : Option Bool :=
  if s.rsize < sizeofHeader then some false
  else (BufferStream.peekData debug s sizeofHeader).map fun header =>
    decide (s.rsize ≥ (sizeofHeader + ofBytes header) % 2 ^ 64)

/-- `ReadMessage::Open`. -/
def openRead (s : BufferStream) : Option BufferStream := do
  devAssert debug (s.rsize ≥ sizeofHeader)
  let (header, s) ← BufferStream.readData debug s sizeofHeader
  devAssert debug (s.rsize ≥ ofBytes header)
  some s

/-- The loop of `ReadString`, which makes at most as many rounds as the first argument says. -/
def readLoop : ℕ → BufferStream → ℕ → Option (List UInt8 × BufferStream)
  | 0, _, _ => none
  | rounds + 1, s, len =>
    if len > 0 then do
      let toRead := if 256 ≥ len then len else 256
      let (tmp, s) ← BufferStream.readData debug s toRead
      let (out, s) ← readLoop rounds s (len - toRead)
      some (tmp ++ out, s)
    else some ([], s)

/-- `ReadUInt8` and so on: the bytes of an integer of the given size. -/
def readInt (s : BufferStream) (size : ℕ) : Option (ℕ × BufferStream) :=
  (BufferStream.readData debug s size).map fun (bytes, s) => (ofBytes bytes, s)

/-- `ReadString`. -/
def readString (s : BufferStream) : Option (List UInt8 × BufferStream) := do
  let (len, s) ← readInt debug s 8
  readLoop debug (len + 1) s len

/-- One value is read. The length of a string has 64 bits. -/
def read (s : BufferStream) : Kind → Option (Value × BufferStream)
  | .uint8 => (readInt debug s 1).map fun (v, s) => (.uint8 (.ofNat v), s)
  | .uint16 => (readInt debug s 2).map fun (v, s) => (.uint16 (.ofNat v), s)
  | .uint32 => (readInt debug s 4).map fun (v, s) => (.uint32 (.ofNat v), s)
  | .uint64 => (readInt debug s 8).map fun (v, s) => (.uint64 (.ofNat v), s)
  | .int8 => (readInt debug s 1).map fun (v, s) => (.int8 (UInt8.ofNat v).toInt8, s)
  | .int16 => (readInt debug s 2).map fun (v, s) => (.int16 (UInt16.ofNat v).toInt16, s)
  | .int32 => (readInt debug s 4).map fun (v, s) => (.int32 (UInt32.ofNat v).toInt32, s)
  | .int64 => (readInt debug s 8).map fun (v, s) => (.int64 (UInt64.ofNat v).toInt64, s)
  | .bool => (readInt debug s 1).map fun (v, s) => (.bool (v != 0), s)
  | .string => (readString debug s).bind fun (v, s) =>
    if h : v.length < 2 ^ 64 then some (.string ⟨v, h⟩, s) else none
  | .data size => (BufferStream.readData debug s size).map fun (v, s) => (.data v, s)

/-- The values of one message. -/
def readValues (s : BufferStream) : List Kind → Option (List Value × BufferStream)
  | [] => some ([], s)
  | k :: l => do
    let (v, s) ← read debug s k
    let (vs, s) ← readValues s l
    some (v :: vs, s)

/-- One message: `ReadMessage::Open`, its values and `ReadMessage::Close`. -/
def readMessage (s : BufferStream) (kinds : List Kind) : Option (List Value × BufferStream) := do
  let s ← openRead debug s
  readValues debug s kinds

/-! ### The bytes on the wire -/

/-- The bytes of a value. -/
def Value.bytes : Value → List UInt8
  | uint8 v => toBytes 1 v.toNat
  | uint16 v => toBytes 2 v.toNat
  | uint32 v => toBytes 4 v.toNat
  | uint64 v => toBytes 8 v.toNat
  | int8 v => toBytes 1 v.toUInt8.toNat
  | int16 v => toBytes 2 v.toUInt16.toNat
  | int32 v => toBytes 4 v.toUInt32.toNat
  | int64 v => toBytes 8 v.toUInt64.toNat
  | bool v => toBytes 1 v.toNat
  | string v => toBytes 8 v.1.length ++ v.1
  | data v => v

/-- The body of a message. -/
def body (m : List Value) : List UInt8 := m.flatMap Value.bytes

/-- A message with its header. -/
def wire (m : List Value) : List UInt8 :=
  toBytes sizeofHeader ((body m).length % 2 ^ 64) ++ body m

/-- A buffer which is not empty and not overfull. -/
def Filled (b : List UInt8) : Prop := b ≠ [] ∧ b.length ≤ theBufferCopySize

section Writer

variable {D : Bool} {J : ℕ → UInt8} {w : WriteMessage} {done rest : List UInt8}

/-- The loop of `WriteData` fills the last buffer and links others. -/
theorem writeLoop_spec {rounds : ℕ} {c : Chain} {data : List UInt8}
    (hpos : c.pos.length ≤ theBufferCopySize)
    (hrounds : data.length + (if c.pos.length = theBufferCopySize then 1 else 0) < rounds) :
    ∃ c' d v, writeLoop rounds c data = some c' ∧ c'.buffers = c.before ++ (c.pos ++ d) :: v ∧
      d ++ v.flatten = data ∧ (c.pos ++ d).length ≤ theBufferCopySize ∧ (∀ b ∈ v, Filled b) ∧
      (c.pos.length < theBufferCopySize → data ≠ [] → d ≠ []) := by
  induction rounds generalizing c data with
  | zero => omega
  | succ rounds ih =>
    rw [writeLoop]
    by_cases hle : data.length ≤ theBufferCopySize - c.pos.length
    · refine ⟨⟨c.before, c.pos ++ data⟩, data, [], ?_, rfl, by simp, ?_, nofun, fun _ => id⟩
      · simp [hle]
      · rw [List.length_append]
        omega
    · have hsize : 0 < theBufferCopySize := by decide
      obtain ⟨c', d, v, hc', hbuf, hdata, hlen, hv, hd⟩ := @ih (Chain.link ⟨c.before, c.pos ++
        data.take (theBufferCopySize - c.pos.length)⟩)
        (data.drop (theBufferCopySize - c.pos.length)) (Nat.zero_le _) (by
          rw [if_neg (show ¬ (Chain.link _).pos.length = theBufferCopySize from
            fun he => by simp [Chain.link] at he; omega), List.length_drop]
          split at hrounds <;> omega)
      have hrest : data.drop (theBufferCopySize - c.pos.length) ≠ [] := fun he => by
        have := List.drop_eq_nil_iff.mp he
        omega
      refine ⟨c', data.take (theBufferCopySize - c.pos.length), d :: v, ?_, ?_, ?_, ?_, ?_, ?_⟩
      · simp only [ge_iff_le, hle, if_false]
        rw [if_neg (by omega)]
        exact hc'
      · rw [hbuf]
        simp [Chain.link, Chain.buffers]
      · rw [List.flatten_cons, hdata, List.take_append_drop]
      · rw [List.length_append, List.length_take]
        omega
      · simp only [List.mem_cons, forall_eq_or_imp]
        exact ⟨⟨hd hsize hrest, by simpa [Chain.link] using hlen⟩, hv⟩
      · intro hlt hne he
        rcases List.take_eq_nil_iff.mp he with h | h
        · omega
        · exact hne h

/-- The writer between two messages, with the bytes which it has. -/
structure Closed (w : WriteMessage) (done : List UInt8) : Prop where
  headerPos : w.headerPos = none
  size : w.size = 0
  buffers : ((w.head.map Chain.buffers).getD []).flatten = done
  filled : ∀ b ∈ (w.head.map Chain.buffers).getD [], Filled b

/-- The writer in a message, with the bytes before its header and those of its body. The header
place is in the buffer between the others. -/
structure Opened (w : WriteMessage) (done rest : List UInt8) : Prop where
  split : ∃ c x p y off, w.head = some c ∧ w.headerPos = some (x.length, off) ∧
    c.buffers = x ++ p :: y ∧ off + sizeofHeader ≤ p.length ∧ x.flatten ++ p.take off = done ∧
    p.drop (off + sizeofHeader) ++ y.flatten = rest ∧ ∀ b ∈ c.buffers, Filled b
  size : w.size = rest.length % 2 ^ 64

/-- A buffer of a chain is the last one, or stands before it. -/
theorem Chain.buffers_cases {c : Chain} {x y : List (List UInt8)} {p : List UInt8}
    (h : c.buffers = x ++ p :: y) :
    c.before = x ∧ c.pos = p ∧ y = [] ∨ ∃ z, c.before = x ++ p :: z ∧ y = z ++ [c.pos] := by
  rcases List.eq_nil_or_concat y with rfl | ⟨z, e, rfl⟩
  · obtain ⟨hx, hp⟩ := List.append_inj' h rfl
    exact .inl ⟨hx, by simpa using hp, rfl⟩
  · have hsplit : c.before ++ [c.pos] = (x ++ p :: z) ++ [e] := by
      rw [← Chain.buffers, h]
      simp
    obtain ⟨hx, hp⟩ := List.append_inj' hsplit rfl
    obtain rfl : c.pos = e := by simpa using hp
    exact .inr ⟨z, hx, List.concat_eq_append⟩

/-- The header place is reserved in the last buffer or in a new one. -/
theorem Closed.openWrite (h : Closed w done) :
    ∃ w', Message.openWrite D J w = some w' ∧ Opened w' done [] := by
  obtain ⟨head, size, totalSize, headerPos⟩ := w
  obtain ⟨hh, hs, hbuf, hfill⟩ := h
  dsimp only at hh hs hbuf hfill
  subst hh hs
  have hsize : sizeofHeader ≤ theBufferCopySize := by decide
  have hjunk : ((List.range sizeofHeader).map J).length = sizeofHeader := by simp
  generalize hj : (List.range sizeofHeader).map J = j at *
  have hopen : ∀ c : Chain, c.buffers.flatten = done → (∀ b ∈ c.before, Filled b) →
      c.pos.length + sizeofHeader ≤ theBufferCopySize →
      Opened ⟨some { c with pos := c.pos ++ j }, 0, (totalSize + sizeofHeader) % 2 ^ 64,
        some (c.before.length, c.pos.length)⟩ done [] := fun c hflat hfill hroom => by
    refine ⟨⟨{ c with pos := c.pos ++ j }, c.before, c.pos ++ j, [], c.pos.length, rfl, rfl, rfl,
      by rw [List.length_append, hjunk], ?_, ?_, fun b hb => ?_⟩, rfl⟩
    · rw [List.take_left, ← hflat, Chain.buffers, List.flatten_append, List.flatten_singleton]
    · rw [List.drop_eq_nil_of_le (by rw [List.length_append, hjunk]), List.flatten_nil]
      rfl
    · rcases List.mem_append.mp hb with hb | hb
      · exact hfill b hb
      · rw [List.mem_singleton.mp hb]
        refine ⟨fun he => ?_, by rw [List.length_append, hjunk]; exact hroom⟩
        rw [List.append_eq_nil_iff] at he
        rw [he.2] at hjunk
        cases hjunk
  simp only [Message.openWrite, hj, BufferStream.devAssert_true, Option.bind_eq_bind,
    Option.bind_some]
  refine ⟨_, rfl, ?_⟩
  cases head with
  | none =>
    exact hopen ⟨[], []⟩ (by simpa [Chain.buffers] using hbuf) (by rintro _ ⟨⟩)
      (by simpa using hsize)
  | some c =>
    simp only [Option.map_some, Option.getD_some] at hbuf hfill ⊢
    split
    case isTrue =>
      refine hopen c.link ?_ hfill (by simpa [Chain.link] using hsize)
      rw [← hbuf, Chain.link, Chain.buffers, List.flatten_append]
      simp
    case isFalse hroom =>
      have hlen := (hfill c.pos (by simp [Chain.buffers])).2
      exact hopen c hbuf (fun b hb => hfill b (List.mem_append_left _ hb)) (by omega)

/-- `WriteData` appends to the body. -/
theorem Opened.writeData (h : Opened w done rest) (data : List UInt8) :
    ∃ w', Message.writeData D w data = some w' ∧ Opened w' done (rest ++ data) := by
  obtain ⟨⟨c, x, p, y, off, hhead, hpos, hbuf, hoff, hdone, hrest, hfill⟩, hsize⟩ := h
  have hlast := hfill c.pos (by simp [Chain.buffers])
  obtain ⟨c', d, v, hc', hbuf', hdata, hlen, hv, -⟩ := @writeLoop_spec (data.length + 2) c data
    hlast.2 (by split <;> omega)
  simp only [Message.writeData, hpos, hhead, hc', ne_eq, reduceCtorEq, not_false_eq_true,
    BufferStream.devAssert_true, Option.bind_eq_bind, Option.bind_some]
  refine ⟨_, rfl, ?_, ?_⟩
  case refine_2 =>
    show (w.size + data.length) % 2 ^ 64 = _
    rw [hsize, List.length_append, Nat.mod_add_mod]
  have hfill' : ∀ b ∈ c'.buffers, Filled b := fun b hb => by
    rw [hbuf', List.mem_append, List.mem_cons] at hb
    rcases hb with hb | rfl | hb
    · exact hfill b (List.mem_append_left _ hb)
    · exact ⟨fun he => hlast.1 (List.append_eq_nil_iff.mp he).1, hlen⟩
    · exact hv b hb
  -- the buffer with the header place is the last one, or stays as it is
  rcases Chain.buffers_cases hbuf with ⟨hx, rfl, rfl⟩ | ⟨y, hx, rfl⟩
  · refine ⟨c', x, c.pos ++ d, v, off, rfl, rfl, hx ▸ hbuf', by rw [List.length_append]; omega, ?_,
      ?_, hfill'⟩
    · rw [List.take_append_of_le_length (by omega), hdone]
    · rw [List.drop_append_of_le_length hoff, ← hrest, List.flatten_nil, List.append_nil,
        List.append_assoc, hdata]
  · refine ⟨c', x, p, y ++ (c.pos ++ d) :: v, off, rfl, rfl, ?_, hoff, hdone, ?_, hfill'⟩
    · rw [hbuf', hx]
      simp
    · rw [← hrest, ← hdata]
      simp

/-- One value. -/
theorem Opened.write (h : Opened w done rest) (v : Value) :
    ∃ w', Message.write D w v = some w' ∧ Opened w' done (rest ++ v.bytes) := by
  cases v with
  | string v =>
    obtain ⟨w₁, hw₁, h₁⟩ := h.writeData (D := D) (toBytes 8 v.1.length)
    obtain ⟨w₂, hw₂, h₂⟩ := h₁.writeData (D := D) v.1
    rw [List.append_assoc] at h₂
    exact ⟨w₂, by simp [Message.write, writeString, hw₁, hw₂], h₂⟩
  | _ => exact h.writeData _

/-- The values of a message. -/
theorem Opened.writeValues (h : Opened w done rest) (m : List Value) :
    ∃ w', Message.writeValues D w m = some w' ∧ Opened w' done (rest ++ body m) := by
  induction m generalizing w rest with
  | nil => exact ⟨w, rfl, by simpa [body] using h⟩
  | cons v m ih =>
    obtain ⟨w₁, hw₁, h₁⟩ := h.write (D := D) v
    obtain ⟨w₂, hw₂, h₂⟩ := ih h₁
    rw [List.append_assoc] at h₂
    exact ⟨w₂, by simp [Message.writeValues, hw₁, hw₂], h₂⟩

theorem modify_middle {α : Type*} (x y : List α) (p : α) (f : α → α) :
    (x ++ p :: y).modify x.length f = x ++ f p :: y := by
  induction x with
  | nil => rfl
  | cons a x ih => rw [List.cons_append, List.length_cons, List.modify_succ_cons, ih]; rfl

/-- The header is put to its place. -/
theorem Opened.closeWrite (h : Opened w done rest) : ∃ w', Message.closeWrite D w = some w' ∧
    Closed w' (done ++ (toBytes sizeofHeader (rest.length % 2 ^ 64) ++ rest)) := by
  obtain ⟨⟨c, x, p, y, off, hhead, hpos, hbuf, hoff, hdone, hrest, hfill⟩, hsize⟩ := h
  have hlen : (toBytes sizeofHeader w.size).length = sizeofHeader := length_toBytes ..
  have hpatch : (c.patch x.length off (toBytes sizeofHeader w.size)).buffers =
      x ++ (p.take off ++ toBytes sizeofHeader w.size ++ p.drop (off + sizeofHeader)) :: y := by
    rcases Chain.buffers_cases hbuf with ⟨hx, rfl, rfl⟩ | ⟨y, hx, rfl⟩
    · rw [Chain.patch, if_neg (by rw [hx]; omega), Chain.buffers, hx, hlen]
    · rw [Chain.patch, if_pos (by rw [hx]; simp), Chain.buffers, hx, hlen, modify_middle]
      simp
  simp only [Message.closeWrite, hpos, hhead, ne_eq, reduceCtorEq, not_false_eq_true,
    BufferStream.devAssert_true, Option.bind_eq_bind, Option.bind_some]
  refine ⟨_, rfl, rfl, rfl, ?_, fun b hb => ?_⟩
  · show (c.patch x.length off (toBytes sizeofHeader w.size)).buffers.flatten = _
    rw [hpatch, ← hdone, ← hsize, ← hrest]
    simp
  · have hb' : b ∈ (c.patch x.length off (toBytes sizeofHeader w.size)).buffers := hb
    rw [hpatch, List.mem_append, List.mem_cons] at hb'
    rw [hbuf] at hfill
    rcases hb' with hb' | rfl | hb'
    · exact hfill b (List.mem_append_left _ hb')
    · have hp := (hfill p (by simp)).2
      refine ⟨fun he => ?_, ?_⟩
      · rw [List.append_eq_nil_iff, List.append_eq_nil_iff] at he
        rw [he.1.2] at hlen
        cases hlen
      · simp only [List.length_append, hlen, List.length_take, List.length_drop]
        omega
    · exact hfill b (List.mem_append_right _ (List.mem_cons_of_mem _ hb'))

/-- One message. -/
theorem Closed.writeMessage (h : Closed w done) (m : List Value) :
    ∃ w', Message.writeMessage D J w m = some w' ∧ Closed w' (done ++ wire m) := by
  obtain ⟨w₁, hw₁, h₁⟩ := h.openWrite (D := D) (J := J)
  obtain ⟨w₂, hw₂, h₂⟩ := h₁.writeValues (D := D) m
  obtain ⟨w₃, hw₃, h₃⟩ := h₂.closeWrite (D := D)
  exact ⟨w₃, by simp [Message.writeMessage, hw₁, hw₂, hw₃], h₃⟩

/-- The buffers are taken. -/
theorem Closed.takeData (h : Closed w done) : ∃ bs w', Message.takeData D w = some (bs, w') ∧
    bs.flatten = done ∧ (∀ b ∈ bs, Filled b) ∧ Closed w' [] := by
  obtain ⟨hh, hs, hbuf, hfill⟩ := h
  simp only [Message.takeData, hh, hs, BufferStream.devAssert_true, Option.bind_eq_bind,
    Option.bind_some]
  exact ⟨_, _, rfl, hbuf, hfill, rfl, rfl, rfl, fun _ hb => absurd hb List.not_mem_nil⟩

/-- All the buffers have the messages. -/
theorem Closed.writeAll (h : Closed w done) (items : List Item) :
    ∃ bs, Message.writeAll D J w items = some bs ∧
      bs.flatten = done ++ (messages items).flatMap wire ∧ ∀ b ∈ bs, Filled b := by
  induction items generalizing w done with
  | nil =>
    obtain ⟨bs, w', hw', hbs, hfill, -⟩ := h.takeData (D := D)
    exact ⟨bs, by rw [Message.writeAll, hw']; rfl, by simpa [messages] using hbs, hfill⟩
  | cons item items ih =>
    cases item with
    | message m =>
      obtain ⟨w₁, hw₁, h₁⟩ := h.writeMessage (D := D) (J := J) m
      obtain ⟨bs, hbs, hflat, hfill⟩ := ih h₁
      exact ⟨bs, by simp [Message.writeAll, hw₁, hbs], by simp [hflat, messages], hfill⟩
    | take =>
      obtain ⟨bs, w₁, hw₁, hbs, hfill, h₁⟩ := h.takeData (D := D)
      obtain ⟨bs', hbs', hflat, hfill'⟩ := ih h₁
      refine ⟨bs ++ bs', by simp [Message.writeAll, hw₁, hbs'], by simp [hflat, hbs, messages],
        fun b hb => ?_⟩
      exact (List.mem_append.mp hb).elim (hfill b) (hfill' b)

end Writer

section Reader

variable {D : Bool} {J : ℕ → ℕ → UInt8} {s s' : BufferStream} {bytes rest : List UInt8}

/-- The stream has the bytes which come after the read ones. -/
def Left (s : BufferStream) (rest : List UInt8) : Prop := s.Inv ∧ s.unread = rest

theorem Left.rsize (h : Left s rest) : s.rsize = rest.length := by
  obtain ⟨⟨rd, em, hs⟩, rfl⟩ := h
  exact hs.rsize_eq

/-- `ReadData` of the first bytes. -/
theorem Left.readData (h : Left s (bytes ++ rest)) {n : ℕ} (hn : n = bytes.length) :
    ∃ s', BufferStream.readData D s n = some (bytes, s') ∧ Left s' rest := by
  have hsize := h.rsize
  obtain ⟨⟨rd, em, hs⟩, hu⟩ := h
  rw [hs.unread_eq] at hu
  have hle : n ≤ s.rsize := by
    rw [hsize, hn, List.length_append]
    exact Nat.le_add_right _ _
  obtain ⟨s', rd', em', hs', hshape, hrest⟩ := hs.readData (D := D) hle
  rw [hu, hn, List.take_left] at hs'
  rw [hu, hn, List.drop_left] at hrest
  exact ⟨s', hn ▸ hs', ⟨⟨rd', em', hshape⟩, hshape.unread_eq.trans hrest⟩⟩

/-- An integer. -/
theorem Left.readInt {n v : ℕ} (h : Left s (toBytes n v ++ rest)) :
    ∃ s', Message.readInt D s n = some (v % 256 ^ n, s') ∧ Left s' rest := by
  obtain ⟨s', hs', h'⟩ := h.readData (D := D) (length_toBytes n v).symm
  exact ⟨s', by simp only [Message.readInt, hs', Option.map_some, ofBytes_toBytes], h'⟩

/-- The loop of `ReadString` reads all the bytes. -/
theorem Left.readLoop {rounds len : ℕ} (h : Left s (bytes ++ rest)) (hlen : len = bytes.length)
    (hrounds : len < rounds) :
    ∃ s', Message.readLoop D rounds s len = some (bytes, s') ∧ Left s' rest := by
  induction rounds generalizing s bytes len with
  | zero => omega
  | succ rounds ih =>
    rw [Message.readLoop]
    by_cases hpos : len > 0
    · rw [if_pos hpos]
      generalize hto : (if 256 ≥ len then len else 256) = n
      have hn : 0 < n ∧ n ≤ len := by split at hto <;> omega
      rw [← List.take_append_drop n bytes, List.append_assoc] at h
      obtain ⟨s₁, hs₁, h₁⟩ := h.readData (D := D) (n := n) (by rw [List.length_take]; omega)
      obtain ⟨s₂, hs₂, h₂⟩ := ih h₁
        (show len - n = _ by rw [List.length_drop, hlen]) (by omega)
      refine ⟨s₂, ?_, h₂⟩
      simp only [hs₁, hs₂, Option.bind_eq_bind, Option.bind_some, List.take_append_drop]
    · rw [if_neg hpos]
      obtain rfl : bytes = [] := List.length_eq_zero_iff.mp (by omega)
      exact ⟨s, rfl, h⟩

/-- A value is read as it was written. -/
theorem Left.read {v : Value} (h : Left s (v.bytes ++ rest)) :
    ∃ s', Message.read D s v.kind = some (v, s') ∧ Left s' rest := by
  have hint : ∀ {n m : ℕ} (f : ℕ → Value), Left s (toBytes n m ++ rest) → f (m % 256 ^ n) = v →
      ∃ s', ((Message.readInt D s n).map fun (x, s) => (f x, s)) = some (v, s') ∧ Left s' rest :=
    fun f h hf => by
      obtain ⟨s', hs', h'⟩ := h.readInt (D := D)
      exact ⟨s', by simp only [hs', Option.map_some, hf], h'⟩
  cases v with
  | uint8 v => exact hint (fun x => .uint8 (.ofNat x)) h (by simp)
  | uint16 v => exact hint (fun x => .uint16 (.ofNat x)) h (by simp)
  | uint32 v => exact hint (fun x => .uint32 (.ofNat x)) h (by simp)
  | uint64 v => exact hint (fun x => .uint64 (.ofNat x)) h (by simp)
  | int8 v => exact hint (fun x => .int8 (UInt8.ofNat x).toInt8) h (by simp)
  | int16 v => exact hint (fun x => .int16 (UInt16.ofNat x).toInt16) h (by simp)
  | int32 v => exact hint (fun x => .int32 (UInt32.ofNat x).toInt32) h (by simp)
  | int64 v => exact hint (fun x => .int64 (UInt64.ofNat x).toInt64) h (by simp)
  | bool v => exact hint (fun x => .bool (x != 0)) h (by cases v <;> rfl)
  | string v =>
    have hv : (v.1.length % 256 ^ 8) = v.1.length := Nat.mod_eq_of_lt v.2
    rw [Value.bytes, List.append_assoc] at h
    obtain ⟨s₁, hs₁, h₁⟩ := h.readInt (D := D)
    rw [hv] at hs₁
    obtain ⟨s₂, hs₂, h₂⟩ := h₁.readLoop (D := D) rfl (Nat.lt_succ_self _)
    refine ⟨s₂, ?_, h₂⟩
    simp only [Value.kind, Message.read, readString, hs₁, hs₂, Option.bind_eq_bind,
      Option.bind_some, v.2, dif_pos]
  | data v =>
    obtain ⟨s', hs', h'⟩ := h.readData (D := D) (n := v.length) rfl
    exact ⟨s', by simp only [Value.kind, Message.read, hs', Option.map_some, Value.bytes], h'⟩

/-- The values of a message are read as they were written. -/
theorem Left.readValues {m : List Value} (h : Left s (body m ++ rest)) :
    ∃ s', Message.readValues D s (m.map Value.kind) = some (m, s') ∧ Left s' rest := by
  induction m generalizing s with
  | nil => exact ⟨s, rfl, h⟩
  | cons v m ih =>
    rw [body, List.flatMap_cons, List.append_assoc] at h
    obtain ⟨s₁, hs₁, h₁⟩ := h.read (D := D)
    obtain ⟨s₂, hs₂, h₂⟩ := ih h₁
    refine ⟨s₂, ?_, h₂⟩
    rw [List.map_cons, Message.readValues, hs₁]
    simp only [Option.bind_eq_bind, Option.bind_some, hs₂]

theorem ofBytes_header (n : ℕ) : ofBytes (toBytes sizeofHeader (n % 2 ^ 64)) = n % 2 ^ 64 := by
  rw [ofBytes_toBytes]
  exact Nat.mod_mod_of_dvd n (dvd_refl _)

/-- A message is read as it was written, and the stream is left at the next one. -/
theorem Left.readMessage {m : List Value} (h : Left s (wire m ++ rest)) :
    ∃ s', Message.readMessage D s (m.map Value.kind) = some (m, s') ∧ Left s' rest := by
  have hsize := h.rsize
  rw [wire, List.append_assoc] at h
  obtain ⟨s₁, hs₁, h₁⟩ := h.readData (D := D) (n := sizeofHeader) (length_toBytes ..).symm
  obtain ⟨s₂, hs₂, h₂⟩ := h₁.readValues (D := D)
  have hle : s.rsize ≥ sizeofHeader := by
    rw [hsize, wire, List.length_append, List.length_append, length_toBytes]
    omega
  have hbody : s₁.rsize ≥ (body m).length % 2 ^ 64 := by
    rw [h₁.rsize, List.length_append]
    exact (Nat.mod_le _ _).trans (Nat.le_add_right _ _)
  refine ⟨s₂, ?_, h₂⟩
  simp only [Message.readMessage, openRead, hs₁, ofBytes_header, Option.bind_eq_bind,
    Option.bind_some, BufferStream.devAssert_true hle, BufferStream.devAssert_true hbody, hs₂]

/-- What `IsComplete` says. -/
theorem isComplete_eq (h : s.Inv) : Message.isComplete D s = some (decide (sizeofHeader ≤ s.rsize ∧
    (sizeofHeader + ofBytes (s.unread.take sizeofHeader)) % 2 ^ 64 ≤ s.rsize)) := by
  obtain ⟨rd, em, hs⟩ := h
  rw [Message.isComplete]
  split
  case isTrue hlt => simp [Nat.not_le.mpr hlt]
  case isFalse hge =>
    rw [hs.peekData (D := D) (Nat.not_lt.mp hge), hs.unread_eq]
    simp [Nat.not_lt.mp hge]

/-- A message which is there is complete. -/
theorem Left.isComplete {m : List Value} (h : Left s (wire m ++ rest)) :
    Message.isComplete D s = some true := by
  have hsize := h.rsize
  have htake : s.unread.take sizeofHeader = toBytes sizeofHeader ((body m).length % 2 ^ 64) := by
    rw [h.2, wire, List.append_assoc, List.take_left' (length_toBytes ..)]
  have hlen : (wire m ++ rest).length = sizeofHeader + (body m).length + rest.length := by
    rw [wire, List.length_append, List.length_append, length_toBytes]
  rw [isComplete_eq h.1, htake, ofBytes_header, Nat.add_mod_mod, hsize, hlen]
  have := Nat.mod_le (sizeofHeader + (body m).length) (2 ^ 64)
  simp only [Option.some.injEq, decide_eq_true_eq]
  omega

end Reader

/-! ### The receiver -/

/-- A stream which gets the bytes of the buffers: the bytes which are still to come, the messages
which are not read yet, and those which were read. -/
structure Receiver where
  stream : BufferStream
  coming : List UInt8
  left : List (List Value)
  got : List (List Value)

/-- The calls by which a stream gets bytes. -/
def isDelivery : BufferStream.Op → Bool
  | .ensureWriteSize _ | .receive _ | .propagateWritePos _ | .writeCopy _ | .writeRef _ => true
  | .skipData _ | .readData _ | .peekData _ | .popData | .clear => false

/-- What can happen: a call on the stream which may bring it the next bytes, and the reading of
a message whose bytes are there. -/
inductive Action
  | deliver (op : BufferStream.Op)
  | read

variable (J : ℕ → ℕ → UInt8)

/-- One step. -/
def step (s : Receiver) : Action → Option Receiver
  | .deliver op =>
    if isDelivery op && op.admits s.stream && op.sound s.stream then
      match BufferStream.step debug J s.stream op with
      | some (t, .quiet) => some { s with stream := t }
      | some (t, .wrote bytes) =>
        if bytes <+: s.coming then
          some { s with stream := t, coming := s.coming.drop bytes.length }
        else none
      | _ => none
    else none
  | .read =>
    match s.left with
    | [] => none
    | m :: l =>
      if (wire m).length ≤ s.stream.rsize then
        (readMessage debug s.stream (m.map Value.kind)).map fun (vs, t) =>
          { s with stream := t, left := l, got := s.got ++ [vs] }
      else none

/-- The receiver of the buffers which were taken from a writer. -/
def machine (items : List Item) : Machine Receiver Action where
  init s := ∃ bs, writeAll debug junk .new items = some bs ∧
    s = ⟨.new, bs.flatten, messages items, []⟩
  step := step debug J

/-- The size of the body which is announced in a stream. -/
def announced (s : BufferStream) : ℕ := ofBytes (s.unread.take sizeofHeader)

/-- The invariant: the bytes in the stream and those to come are those of the messages which
are not read yet. -/
structure Inv (items : List Item) (s : Receiver) : Prop where
  left : Left s.stream s.stream.unread
  bytes : s.stream.unread ++ s.coming = s.left.flatMap wire
  got : s.got ++ s.left = messages items

theorem closed_new : Closed .new [] := ⟨rfl, rfl, rfl, fun _ hb => absurd hb List.not_mem_nil⟩

section Receiving

variable {D : Bool} {K : ℕ → UInt8} {J : ℕ → ℕ → UInt8} {items : List Item} {s s' : Receiver}

/-- The bytes of a message which are there are the first ones of the stream. -/
theorem Inv.next (h : Inv items s) {m : List Value} {l : List (List Value)}
    (hl : s.left = m :: l) (hle : (wire m).length ≤ s.stream.rsize) :
    ∃ rest, s.stream.unread = wire m ++ rest ∧ rest ++ s.coming = l.flatMap wire := by
  have hbytes := h.bytes
  rw [hl, List.flatMap_cons, List.append_eq_append_iff] at hbytes
  rw [h.left.rsize] at hle
  rcases hbytes with ⟨t, ht, hrest⟩ | ⟨rest, hrest, hl⟩
  · have hnil : t = [] := by
      have := congrArg List.length ht
      rw [List.length_append] at this
      exact List.length_eq_zero_iff.mp (by omega)
    subst hnil
    exact ⟨[], by simpa using ht.symm, by simpa using hrest⟩
  · exact ⟨rest, hrest, hl.symm⟩

/-- A message which is there is complete, and is read as it was written. -/
theorem Inv.read (h : Inv items s) {m : List Value} {l : List (List Value)}
    (hl : s.left = m :: l) (hle : (wire m).length ≤ s.stream.rsize) :
    isComplete D s.stream = some true ∧
      ∃ t, readMessage D s.stream (m.map Value.kind) = some (m, t) ∧ Left t t.unread ∧
        t.unread ++ s.coming = l.flatMap wire := by
  obtain ⟨rest, hu, hrest⟩ := h.next hl hle
  have hleft : Left s.stream (wire m ++ rest) := ⟨h.left.1, hu⟩
  obtain ⟨t, ht, h'⟩ := hleft.readMessage (D := D)
  exact ⟨hleft.isComplete, t, ht, ⟨h'.1, rfl⟩, by rw [h'.2, hrest]⟩

theorem Inv.step {a : Action} (h : Inv items s) (hs : Message.step D J s a = some s') :
    Inv items s' := by
  cases a with
  | deliver op =>
    simp only [Message.step] at hs
    split at hs
    case isFalse => cases hs
    case isTrue hop =>
      simp only [Bool.and_eq_true] at hop
      obtain ⟨t, e, ht, hinv, hfifo⟩ : ∃ t e, BufferStream.step D J s.stream op = some (t, e) ∧
          t.Inv ∧ BufferStream.fifo.step s.stream.unread e = some t.unread :=
        h.left.1.step hop.1.2 hop.2
      rw [ht] at hs
      cases e with
      | quiet =>
        cases hs
        have hu : t.unread = s.stream.unread := (Option.some.inj hfifo).symm
        exact ⟨⟨hinv, rfl⟩, hu ▸ h.bytes, h.got⟩
      | wrote bytes =>
        dsimp only at hs
        split at hs
        case isFalse => cases hs
        case isTrue hpre =>
          cases hs
          have hu : t.unread = s.stream.unread ++ bytes := (Option.some.inj hfifo).symm
          obtain ⟨l, hl⟩ := hpre
          refine ⟨⟨hinv, rfl⟩, ?_, h.got⟩
          show t.unread ++ s.coming.drop bytes.length = _
          rw [← h.bytes, hu, ← hl, List.drop_left, List.append_assoc]
      | _ => cases hs
  | read =>
    simp only [Message.step] at hs
    split at hs
    case h_1 => cases hs
    case h_2 m l hl =>
      split at hs
      case isFalse => cases hs
      case isTrue hle =>
        obtain ⟨-, t, ht, ht', hrest⟩ := h.read (D := D) hl hle
        rw [ht] at hs
        cases hs
        exact ⟨ht', hrest, by rw [← h.got, hl, List.append_assoc]; rfl⟩

theorem inv (h : (machine D K J items).Reachable s) : Inv items s := by
  refine Machine.invariant (fun s hs => ?_) (fun _ _ _ hi hs => hi.step hs) h
  obtain ⟨bs, hbs, rfl⟩ := hs
  obtain ⟨bs', hbs', hflat, -⟩ := closed_new.writeAll (D := D) (J := K) items
  obtain rfl : bs = bs' := Option.some.inj (hbs.symm.trans hbs')
  exact ⟨⟨⟨_, _, BufferStream.new_shape⟩, rfl⟩, hflat, rfl⟩

end Receiving

theorem ofBytes_lt (l : List UInt8) : ofBytes l < 256 ^ l.length := by
  induction l with
  | nil => exact Nat.one_pos
  | cons b l ih =>
    have hb : b.toNat < 256 := b.toNat_lt
    rw [ofBytes, List.length_cons, Nat.pow_succ]
    omega

/-- `IsComplete` is right unless the sum of the sizes wraps around. -/
theorem isComplete_iff {D : Bool} {s : BufferStream} (h : s.Inv) :
    Message.isComplete D s =
        some (decide (sizeofHeader ≤ s.rsize ∧ sizeofHeader + announced s ≤ s.rsize)) ↔
      s.rsize < sizeofHeader ∨ sizeofHeader + announced s < 2 ^ 64 ∨
        sizeofHeader + announced s ≤ s.rsize := by
  have hlen : (s.unread.take sizeofHeader).length ≤ 8 := by
    rw [List.length_take]
    exact Nat.min_le_left _ _
  have hlt : announced s < 2 ^ 64 :=
    Nat.lt_of_lt_of_le (ofBytes_lt _) (Nat.pow_le_pow_right (n := 256) (by decide) hlen)
  have hmod := Nat.mod_le (sizeofHeader + announced s) (2 ^ 64)
  rw [isComplete_eq h, Option.some.injEq, decide_eq_decide]
  rw [show ofBytes (s.unread.take sizeofHeader) = announced s from rfl]
  by_cases hwrap : sizeofHeader + announced s < 2 ^ 64
  · rw [Nat.mod_eq_of_lt hwrap]
    exact ⟨fun _ => .inr (.inl hwrap), fun _ => .rfl⟩
  · have hsub : (sizeofHeader + announced s) % 2 ^ 64 < sizeofHeader := by
      rw [Nat.mod_eq_sub_mod (Nat.not_lt.mp hwrap), Nat.mod_eq_of_lt] <;>
        simp only [sizeofHeader] at * <;> omega
    omega

/-- **Messages are framed.** A writer gives buffers which are filled with the bytes of its
messages. In every state in which a receiver may be whose stream gets the bytes by admitted calls
within the conditions of the stream's own invariant (`BufferStream.Op.sound`), the messages which
were read and the ones which are left are those which were written, the bytes in the stream and
those to come are the bytes of the ones left, and no delivery fails; and a message whose bytes are
there is complete, and is read as it was written, after which the stream has the bytes of the
messages behind it. For every stream in its invariant, `IsComplete` tells whether the header and the
announced number of bytes are there if and only if there is no header, or the sum of its size and
the announced one does not wrap around, or the bytes are there anyway. -/
theorem framing (debug : Bool) (junk : ℕ → UInt8) (J : ℕ → ℕ → UInt8) (items : List Item) :
    (∃ bs, writeAll debug junk .new items = some bs ∧ (∀ b ∈ bs, Filled b) ∧
      bs.flatten = (messages items).flatMap wire) ∧
    (∀ s, (machine debug junk J items).Reachable s →
      s.got ++ s.left = messages items ∧ s.stream.unread ++ s.coming = s.left.flatMap wire ∧
      (∀ op, isDelivery op = true → op.admits s.stream = true → op.sound s.stream = true →
        (BufferStream.step debug J s.stream op).isSome = true) ∧
      ∀ m l, s.left = m :: l → (wire m).length ≤ s.stream.rsize →
        isComplete debug s.stream = some true ∧
        ∃ t, readMessage debug s.stream (m.map Value.kind) = some (m, t) ∧
          t.unread ++ s.coming = l.flatMap wire) ∧
    ∀ s : BufferStream, s.Inv →
      (isComplete debug s =
          some (decide (sizeofHeader ≤ s.rsize ∧ sizeofHeader + announced s ≤ s.rsize)) ↔
        s.rsize < sizeofHeader ∨ sizeofHeader + announced s < 2 ^ 64 ∨
          sizeofHeader + announced s ≤ s.rsize) := by
  refine ⟨?_, fun s h => ?_, fun s h => isComplete_iff h⟩
  · obtain ⟨bs, hbs, hflat, hfill⟩ := closed_new.writeAll (D := debug) (J := junk) items
    exact ⟨bs, hbs, hfill, hflat⟩
  · have hi := inv h
    refine ⟨hi.got, hi.bytes, fun op _ hadm hsound => ?_, fun m l hl hle => ?_⟩
    · obtain ⟨t, e, ht, -⟩ : ∃ t e, BufferStream.step debug J s.stream op = some (t, e) ∧
          t.Inv ∧ BufferStream.fifo.step s.stream.unread e = some t.unread :=
        hi.left.1.step hadm hsound
      rw [ht]
      rfl
    · obtain ⟨hc, t, ht, -, hrest⟩ := hi.read (D := debug) hl hle
      exact ⟨hc, t, ht, hrest⟩

/-- Two messages, the buffers of the first of which are taken before the second one. -/
def sampleItems : List Item :=
  [.message [.uint16 513, .string ⟨[97, 98], by decide⟩], .take, .message [.int8 (-1)]]

/-- The bytes of the messages. -/
def sampleBytes : List UInt8 := (messages sampleItems).flatMap wire

/-- The bytes are delivered in two pieces. -/
def sampleRun : List Action :=
  [.deliver (.writeRef [(sampleBytes.take 5, [])]), .deliver (.writeRef [(sampleBytes.drop 5, [])])]

/-- The first message is complete and is read. -/
theorem framing_sample : ∃ s, (machine true (fun _ => 0) (fun _ _ => 0) sampleItems).Reachable s ∧
    isComplete true s.stream = some true ∧
    ∃ t, readMessage true s.stream [.uint16, .string] =
      some ([.uint16 513, .string ⟨[97, 98], by decide⟩], t) := by
  obtain ⟨⟨bs, hbs, -, hflat⟩, hreach, -⟩ := framing true (fun _ => 0) (fun _ _ => 0) sampleItems
  have hrun : ((machine true (fun _ => 0) (fun _ _ => 0) sampleItems).run
      ⟨.new, sampleBytes, messages sampleItems, []⟩ sampleRun).map (fun s =>
        (s.left, decide ((wire [.uint16 513, .string ⟨[97, 98], by decide⟩]).length ≤
          s.stream.rsize))) =
      some ([[.uint16 513, .string ⟨[97, 98], by decide⟩], [.int8 (-1)]], true) := by
    decide +kernel
  simp only [Option.map_eq_some_iff, Prod.mk.injEq, decide_eq_true_eq] at hrun
  obtain ⟨s, hs, hl, hle⟩ := hrun
  have h : (machine true (fun _ => 0) (fun _ _ => 0) sampleItems).Reachable s :=
    .of_run (.init ⟨bs, hbs, by rw [hflat]; rfl⟩) hs
  obtain ⟨-, -, -, hread⟩ := hreach s h
  obtain ⟨hc, t, ht, -⟩ := hread _ _ hl hle
  exact ⟨s, h, hc, t, ht⟩

/-- The stream whose only 8 bytes announce as many bytes as there can be. -/
theorem isComplete_wraps : ¬ ∀ s : BufferStream, s.Inv →
    isComplete true s =
      some (decide (sizeofHeader ≤ s.rsize ∧ sizeofHeader + announced s ≤ s.rsize)) := by
  intro hall
  have hrun : (BufferStream.writeRef true .new [(List.replicate 8 255, [])]).map (fun s =>
      (isComplete true s, s.rsize, announced s)) = some (some true, 8, 2 ^ 64 - 1) := by
    decide +kernel
  obtain ⟨s, rd, em, hs, hshape, -⟩ : ∃ s rd em, BufferStream.writeRef true .new
      [(List.replicate 8 255, [])] = some s ∧ s.Shape rd em ∧ _ :=
    BufferStream.new_shape.writeRef (by decide)
  rw [hs] at hrun
  simp only [Option.map_some, Option.some.injEq, Prod.mk.injEq] at hrun
  have hfalse := hall s ⟨rd, em, hshape⟩
  rw [hrun.1, hrun.2.1, hrun.2.2] at hfalse
  exact absurd hfalse (by decide)

end Message

end Serverbox
