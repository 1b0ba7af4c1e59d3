import Mathlib.Algebra.BigOperators.Group.List.Basic
import Mathlib.Algebra.GroupWithZero.Nat
import Mathlib.Data.List.Nodup
import Serverbox.Lib.Machine

/-!
# The network buffer stream

`mg::net::BufferStream` is a chain of buffers. Each buffer has readable bytes, `[0, pos)`, and
free bytes, `[pos, capacity)`. The stream keeps pointers at the last buffer with data, at the
first buffer to write into, at the last buffer of the chain, and the two total sizes.

A chain is owned by its head pointer and then by the `myNext` of each buffer, so it is a list here.
A pointer into the chain is an address, and following a null or a dangling pointer is `none`. So is
a failed `MG_DEV_ASSERT` of a debug build, and the wrap around zero of an unsigned counter. In a
release build the assertions and `PrivCheck` are not compiled.

Source: `src/mg/net/Buffer.h`, `src/mg/net/Buffer.cpp`.

## Main definitions

* `Buffer`, `BufferStream`: a buffer and the stream.
* `BufferStream.ensureWriteSize`, `BufferStream.propagateWritePos`, `BufferStream.writeCopy`,
  `BufferStream.writeRef`, `BufferStream.skipData`, `BufferStream.readData`,
  `BufferStream.peekData`, `BufferStream.popData`, `BufferStream.clear`: the operations.
* `BufferStream.privCheck`: the check which a debug build makes after each operation.
* `BufferStream.step`, `BufferStream.run`: one call on a stream and a sequence of calls.
-/

namespace Serverbox

/-- `Buffer`: its address, the bytes before `myPos` and the bytes between `myPos` and
`myCapacity`. -/
structure Buffer where
  addr : ℕ
  data : List UInt8
  room : List UInt8
  deriving DecidableEq

namespace Buffer

/-- `myPos`. -/
def pos (b : Buffer) : ℕ := b.data.length

/-- `myCapacity`. -/
def capacity (b : Buffer) : ℕ := b.data.length + b.room.length

/-- `Propagate`: the first bytes are given away. -/
def propagate (b : Buffer) (size : ℕ) : Buffer := { b with data := b.data.drop size }

/-- `myPos += size`: the first free bytes become readable. -/
def fill (b : Buffer) (size : ℕ) : Buffer :=
  { b with data := b.data ++ b.room.take size, room := b.room.drop size }

/-- `memcpy` to `myWData + myPos` followed by `myPos += size`. -/
def append (b : Buffer) (bytes : List UInt8) : Buffer :=
  { b with data := b.data ++ bytes, room := b.room.drop bytes.length }

/-- Only `memcpy` to `myWData + myPos`. -/
def store (b : Buffer) (bytes : List UInt8) : Buffer :=
  { b with room := bytes ++ b.room.drop bytes.length }

end Buffer

/-- `sizeof(Buffer)` on a 64-bit platform: the virtual table, two 32-bit sizes, two pointers and
the padded reference counter. -/
def sizeofBuffer : ℕ := 40

/-- The capacity of a `BufferCopy`. -/
def theBufferCopySize : ℕ := 1024 - sizeofBuffer

/-- `BufferCopy::NewShared`. The memory comes from a pool, with arbitrary bytes inside. -/
def bufferCopy (junk : ℕ → ℕ → UInt8) (addr : ℕ) : Buffer :=
  ⟨addr, [], (List.range theBufferCopySize).map (junk addr)⟩

/-- The chain up to the buffer at an address, this buffer, and the chain after it. -/
def Buffer.split : List Buffer → ℕ → Option (List Buffer × Buffer × List Buffer)
  | [], _ => none
  | b :: l, p =>
    if b.addr = p then some ([], b, l)
    else (split l p).map fun (before, c, after) => (b :: before, c, after)

/-- `BuffersPropagateOnWrite`: the chain with the positions grown, and the last buffer changed. -/
def buffersPropagateOnWrite : List Buffer → ℕ → Option (List Buffer × Option ℕ)
  | l, 0 => some (l, l.head?.map Buffer.addr)
  | [], _ + 1 => none
  | b :: l, size + 1 =>
    let cap := b.capacity - b.pos
    if cap > size + 1 then some (b.fill (size + 1) :: l, some b.addr)
    else if cap = size + 1 then some (b.fill cap :: l, some b.addr)
    else (buffersPropagateOnWrite l (size + 1 - cap)).map fun (l', p) => (b.fill cap :: l', p)

/-- `BuffersPropagateOnRead`: the chain after its first bytes are given away. -/
def buffersPropagateOnRead : List Buffer → ℕ → Option (List Buffer)
  | l, 0 => some l
  | [], _ + 1 => none
  | b :: l, size + 1 =>
    if b.pos ≥ size + 1 then
      if (b.propagate (size + 1)).pos = 0 ∧ (b.propagate (size + 1)).capacity = 0 then some l
      else some (b.propagate (size + 1) :: l)
    else buffersPropagateOnRead l (size + 1 - b.pos)

/-- `BuffersToIOVecsForRead` and the bytes which a receiver stores in these vectors. -/
def buffersReceive : List Buffer → List UInt8 → List Buffer
  | [], _ => []
  | b :: l, bytes => b.store (bytes.take b.room.length) ::
      buffersReceive l (bytes.drop b.room.length)

/-- `BufferStream` and the next address which the allocator gives. -/
structure BufferStream where
  head : List Buffer
  rsize : ℕ
  rend : Option ℕ
  wpos : Option ℕ
  wsize : ℕ
  tail : Option ℕ
  fresh : ℕ
  deriving DecidableEq

namespace BufferStream

/-- `MG_DEV_ASSERT`, which only a debug build compiles. -/
def devAssert (debug : Bool) (cond : Prop) [Decidable cond] : Option Unit :=
  if debug = true → cond then some () else none

/-- The difference of two unsigned counters. -/
def sub (a b : ℕ) : Option ℕ := if b ≤ a then some (a - b) else none

/-- The constructor. -/
def new : BufferStream := ⟨[], 0, none, none, 0, none, 0⟩

/-- The buffer a pointer points at, with the chain before and after it. -/
def deref (s : BufferStream) (p : Option ℕ) : Option (List Buffer × Buffer × List Buffer) :=
  p.bind (Buffer.split s.head)

/-- The chain which a pointer points at, with the chain before it. -/
def chainFrom (s : BufferStream) : Option ℕ → Option (List Buffer × List Buffer)
  | none => some (s.head, [])
  | some p => (Buffer.split s.head p).map fun (before, b, after) => (before, b :: after)

/-- `PrivCheck` from one buffer on. `prev` is the buffer before it. -/
def checkFrom (s : BufferStream) : List Buffer → Option ℕ → Bool → Bool → ℕ → ℕ → Bool
  | [], prev, _, _, rsize, wsize => prev = s.tail ∧ rsize = s.rsize ∧ wsize = s.wsize
  | b :: l, prev, foundREnd, foundWPos, rsize, wsize =>
    let atREnd := b.pos = 0 ∧ foundREnd = false
    let atWPos := b.capacity - b.pos > 0 ∧ (∀ c ∈ l.head?, c.pos = 0) ∧ foundWPos = false
    let foundWPos' := foundWPos || decide atWPos
    (atREnd → prev = s.rend) ∧ (atWPos → some b.addr = s.wpos) ∧
      (foundWPos' → some b.addr ≠ s.wpos → b.pos = 0) ∧
      checkFrom s l (some b.addr) (foundREnd || decide atREnd) foundWPos' (rsize + b.pos)
        (if foundWPos' then wsize + (b.capacity - b.pos) else wsize)

/-- `PrivCheck`. -/
def privCheck (s : BufferStream) : Bool :=
  match s.head with
  | [] => s.rsize = 0 ∧ s.rend = none ∧ s.wpos = none ∧ s.wsize = 0 ∧ s.tail = none
  | l => (s.rsize = 0 → s.rend = none) ∧ checkFrom s l none (s.rsize = 0) false 0 0

/-- The end of an operation: the state passes `PrivCheck`. -/
def checked (debug : Bool) (s : BufferStream) : Option BufferStream := do
  devAssert debug s.privCheck
  some s

/-- `Clear`. -/
def clear (debug : Bool) (s : BufferStream) : Option BufferStream :=
  checked debug { s with
    head := [], rsize := 0, rend := none, wpos := none, wsize := 0, tail := none }

variable (debug : Bool) (junk : ℕ → ℕ → UInt8)

/-- `myTail = (myTail->myNext = BufferCopy::NewShared()).GetPointer()`. -/
def linkTail (s : BufferStream) : Option BufferStream := do
  let (before, b, _) ← s.deref s.tail
  some { s with
    head := before ++ b :: [bufferCopy junk s.fresh], tail := some s.fresh, fresh := s.fresh + 1 }

/-- A new buffer at the end of a chain which is empty or full. -/
def linkFirst (s : BufferStream) : Option BufferStream :=
  match s.head with
  | [] => do
    devAssert debug (s.rsize = 0)
    devAssert debug (s.tail = none)
    some { s with head := [bufferCopy junk s.fresh], tail := some s.fresh, fresh := s.fresh + 1 }
  | _ => do
    let (_, b, _) ← s.deref s.tail
    devAssert debug (b.pos = b.capacity)
    linkTail junk s

/-- A new write position, when there is none. -/
def firstWritable (s : BufferStream) : Option BufferStream := do
  if s.wpos ≠ none then some s
  else
    devAssert debug (s.wsize = 0)
    let s ← linkFirst debug junk s
    some { s with wpos := s.tail, wsize := theBufferCopySize }

/-- The loop of `EnsureWriteSize`. -/
def reserve (aSize : ℕ) (s : BufferStream) : Option BufferStream :=
  match linkTail junk s with
  | none => none
  | some s' =>
    if s.wsize + theBufferCopySize < aSize then
      reserve aSize { s' with wsize := s.wsize + theBufferCopySize }
    else some { s' with wsize := s.wsize + theBufferCopySize }
termination_by aSize - s.wsize
decreasing_by simp only [theBufferCopySize, sizeofBuffer] at *; omega

/-- `EnsureWriteSize`. -/
def ensureWriteSize (s : BufferStream) (aSize : ℕ) : Option BufferStream := do
  if s.wsize ≥ aSize then return s
  let s ← firstWritable debug junk s
  if s.wsize ≥ aSize then return ← checked debug s
  let s ← reserve junk aSize s
  let (_, b, _) ← s.deref s.wpos
  devAssert debug (b.pos < b.capacity)
  checked debug s

/-- `PropagateWritePos`. -/
def propagateWritePos (s : BufferStream) (aSize : ℕ) : Option BufferStream := do
  devAssert debug (s.wsize ≥ aSize)
  let (before, l) ← s.chainFrom s.wpos
  let (l, p) ← buffersPropagateOnWrite l aSize
  let wsize ← sub s.wsize aSize
  let s := { s with head := before ++ l, wpos := p, rend := p, wsize, rsize := s.rsize + aSize }
  if s.wsize = 0 then
    devAssert debug (∀ x ∈ s.deref s.wpos, x.2.1.pos = x.2.1.capacity)
    checked debug { s with wpos := none }
  else
    let (_, b, after) ← s.deref s.wpos
    if b.pos = b.capacity then
      let c ← after.head?
      devAssert debug (c.pos < c.capacity)
      checked debug { s with wpos := some c.addr }
    else checked debug s

/-- The loop of `WriteCopy`, which makes at most as many rounds as the first argument says. -/
def copyLoop : ℕ → BufferStream → List UInt8 → Option BufferStream
  | 0, _, _ => none
  | rounds + 1, s, bytes => do
    let (before, b, after) ← s.deref s.wpos
    devAssert debug (b.pos < b.capacity)
    let cap := b.capacity - b.pos
    if cap > bytes.length then
      let wsize ← sub s.wsize bytes.length
      checked debug { s with head := before ++ b.append bytes :: after, rend := s.wpos, wsize }
    else
      let s := { s with head := before ++ b.append (bytes.take cap) :: after }
      if cap = bytes.length then
        checked debug { s with rend := s.wpos, wpos := none, wsize := 0 }
      else
        devAssert debug (s.head ≠ [])
        let (_, t, _) ← s.deref s.tail
        devAssert debug (t.pos = t.capacity)
        let s ← linkTail junk s
        copyLoop rounds { s with wpos := s.tail, wsize := theBufferCopySize } (bytes.drop cap)

/-- `WriteCopy`. Each round of the loop but the first writes at least one byte. -/
def writeCopy (s : BufferStream) (bytes : List UInt8) : Option BufferStream := do
  if bytes = [] then return s
  devAssert debug (s.wpos = none → s.head = [] → s.rend = none)
  let s ← firstWritable debug junk s
  copyLoop debug junk (bytes.length + 1) { s with rsize := s.rsize + bytes.length } bytes

/-- The buffers of a caller's chain, with addresses of their own. -/
def adopt (fresh : ℕ) : List (List UInt8 × List UInt8) → List Buffer
  | [] => []
  | (data, room) :: l => ⟨fresh, data, room⟩ :: adopt (fresh + 1) l

/-- A chain at the end of a chain which is empty or full. -/
def linkChain (s : BufferStream) (aHead : List Buffer) : Option (List Buffer) :=
  match s.head with
  | [] => do
    devAssert debug (s.rsize = 0)
    devAssert debug (s.rend = none)
    devAssert debug (s.tail = none)
    some aHead
  | _ => do
    let (before, b, _) ← s.deref s.tail
    devAssert debug (b.pos = b.capacity)
    some (before ++ b :: aHead)

/-- `WriteRef`. -/
def writeRef (s : BufferStream) (chain : List (List UInt8 × List UInt8)) :
    Option BufferStream := do
  let aHead := adopt s.fresh chain
  let s := { s with fresh := s.fresh + chain.length }
  match aHead.getLast? with
  | none => some s
  | some last =>
    let size := (aHead.map Buffer.pos).sum
    let free := last.capacity - last.pos
    match s.wpos with
    | none =>
      devAssert debug (s.wsize = 0)
      let head ← linkChain debug s aHead
      checked debug { s with
        head, tail := some last.addr, rend := some last.addr, rsize := s.rsize + size
        wsize := free
        wpos := if free > 0 then some last.addr else none }
    | some w =>
      devAssert debug (s.wsize > 0)
      let (before, b, after) ← Buffer.split s.head w
      devAssert debug (b.pos < b.capacity)
      match s.rend with
      | none =>
        devAssert debug (s.rsize = 0)
        devAssert debug (some w = s.head.head?.map Buffer.addr)
        checked debug { s with
          head := aHead ++ s.head, rend := some last.addr, rsize := s.rsize + size,
          wsize := s.wsize + free, wpos := if free > 0 then some last.addr else some w }
      | some r =>
        let (upto, e, rest) ← Buffer.split s.head r
        devAssert debug (r = w ∨ rest.head?.map Buffer.addr = some w)
        if b.pos > 0 then
          let wsize ← sub s.wsize (b.capacity - b.pos)
          let tail := if some w = s.tail then some last.addr else s.tail
          checked debug { s with
            head := before ++ b :: (aHead ++ after), tail, rend := some last.addr,
            rsize := s.rsize + size, wsize := if free > 0 then wsize + free else wsize,
            wpos := if free > 0 then some last.addr else after.head?.map Buffer.addr }
        else
          devAssert debug (free > 0 → rest.head?.map Buffer.addr = some w)
          checked debug { s with
            head := upto ++ e :: (aHead ++ rest), rend := some last.addr, rsize := s.rsize + size,
            wsize := if free > 0 then s.wsize + free else s.wsize,
            wpos := if free > 0 then some last.addr else some w }

/-- The head of a stream being consumed: it goes away when it is empty and not the write position.
It was added by `WriteRef`, and then more was added after its free bytes. -/
def dropSpentHead (s : BufferStream) : Option BufferStream :=
  match s.head with
  | [] => none
  | b :: l =>
    if b.pos = 0 ∧ some b.addr ≠ s.wpos then
      if l = [] then do
        devAssert debug (s.wsize = 0)
        clear debug { s with head := l }
      else some { s with head := l }
    else some s

/-- The pointers after the skipped bytes are gone from the chain. -/
def afterSkip (s : BufferStream) : Option BufferStream :=
  if s.head = [] then clear debug s
  else if s.rsize = 0 then some { s with rend := none }
  else dropSpentHead debug s

/-- `SkipData`. -/
def skipData (s : BufferStream) (aSize : ℕ) : Option BufferStream := do
  devAssert debug (s.rsize ≥ aSize)
  let head ← buffersPropagateOnRead s.head aSize
  let rsize ← sub s.rsize aSize
  let s ← afterSkip debug { s with head, rsize }
  checked debug s

/-- The loop of `ReadData`: the bytes copied out and the chain left. -/
def readLoop : List Buffer → ℕ → Option (List UInt8 × List Buffer)
  | [], _ => none
  | b :: l, aSize =>
    let cap := b.pos
    let toRead := if cap > aSize then aSize else cap
    if aSize - toRead = 0 then some (b.data.take toRead, b.propagate toRead :: l)
    else (readLoop l (aSize - toRead)).map fun (bytes, l') => (b.data.take toRead ++ bytes, l')

/-- `ReadData`: the bytes and the stream. -/
def readData (s : BufferStream) (aSize : ℕ) : Option (List UInt8 × BufferStream) := do
  if aSize = 0 then return ([], s)
  devAssert debug (s.rsize ≥ aSize)
  let rsize ← sub s.rsize aSize
  let (bytes, head) ← readLoop s.head aSize
  let rend := if rsize = 0 then none else s.rend
  let s ← dropSpentHead debug { s with head, rsize, rend }
  devAssert debug (s.head = [] ∨ s.rsize > 0 ∨ s.wsize > 0)
  let s ← checked debug s
  some (bytes, s)

/-- The loop of `PeekData`. -/
def peekLoop : List Buffer → ℕ → Option (List UInt8)
  | [], _ => none
  | b :: l, aSize =>
    let cap := b.pos
    let toRead := if cap ≥ aSize then aSize else cap
    if aSize - toRead = 0 then some (b.data.take toRead)
    else (peekLoop l (aSize - toRead)).map fun bytes => b.data.take toRead ++ bytes

/-- `PeekData`. -/
def peekData (s : BufferStream) (aSize : ℕ) : Option (List UInt8) := do
  if aSize = 0 then return []
  devAssert debug (s.rsize ≥ aSize)
  peekLoop s.head aSize

/-- `PopData`: the chain which is handed out and the stream. -/
def popData (s : BufferStream) : Option (List Buffer × BufferStream) :=
  match s.rend with
  | none => do
    devAssert debug (s.rsize = 0)
    some ([], s)
  | some r => do
    devAssert debug (s.rsize > 0)
    let (before, b, after) ← Buffer.split s.head r
    devAssert debug (b.pos > 0)
    if after = [] then
      let s ← clear debug { s with head := after }
      some (before ++ [b], s)
    else
      let wsize ← sub s.wsize (b.capacity - b.pos)
      let s ← checked debug { s with
        head := after, wsize, rsize := 0, rend := none, wpos := after.head?.map Buffer.addr }
      some (before ++ [b], s)

/-- The calls on a stream. `receive` is not one of its methods: it is the owner of the stream who
stores bytes at the write position before `PropagateWritePos`. -/
inductive Op
  | ensureWriteSize (size : ℕ)
  | receive (bytes : List UInt8)
  | propagateWritePos (size : ℕ)
  | writeCopy (bytes : List UInt8)
  | writeRef (chain : List (List UInt8 × List UInt8))
  | skipData (size : ℕ)
  | readData (size : ℕ)
  | peekData (size : ℕ)
  | popData
  | clear
  deriving DecidableEq

/-- What a call did with the bytes of the stream. -/
inductive Event
  | quiet
  | wrote (bytes : List UInt8)
  | skipped (size : ℕ)
  | read (size : ℕ) (bytes : List UInt8)
  | peeked (size : ℕ) (bytes : List UInt8)
  | popped (bytes : List UInt8)
  | cleared
  deriving DecidableEq

/-- The bytes which a chain holds before the positions of its buffers. -/
def bytesOf (l : List Buffer) : List UInt8 := l.flatMap Buffer.data

/-- The bytes which a chain holds after the positions of its buffers. -/
def roomOf (l : List Buffer) : List UInt8 := l.flatMap Buffer.room

/-- The free bytes from the write position on. -/
def free (s : BufferStream) : List UInt8 :=
  match s.chainFrom s.wpos with
  | none => []
  | some (_, l) => roomOf l

/-- One call. -/
def step (s : BufferStream) : Op → Option (BufferStream × Event)
  | .ensureWriteSize size => (ensureWriteSize debug junk s size).map (·, .quiet)
  | .receive bytes => do
    let (before, l) ← s.chainFrom s.wpos
    some ({ s with head := before ++ buffersReceive l bytes }, .quiet)
  | .propagateWritePos size =>
    (propagateWritePos debug s size).map (·, .wrote (s.free.take size))
  | .writeCopy bytes => (writeCopy debug junk s bytes).map (·, .wrote bytes)
  | .writeRef chain => (writeRef debug s chain).map (·, .wrote (chain.flatMap Prod.fst))
  | .skipData size => (skipData debug s size).map (·, .skipped size)
  | .readData size => (readData debug s size).map fun (bytes, s) => (s, .read size bytes)
  | .peekData size => (peekData debug s size).map fun bytes => (s, .peeked size bytes)
  | .popData => (popData debug s).map fun (l, s) => (s, .popped (bytesOf l))
  | .clear => (clear debug s).map (·, .cleared)

/-- A sequence of calls, with what each of them did. -/
def run (s : BufferStream) : List Op → Option (BufferStream × List Event)
  | [] => some (s, [])
  | op :: ops => do
    let (s, e) ← step debug junk s op
    let (s, es) ← run s ops
    some (s, e :: es)

end BufferStream

end Serverbox
