import Mathlib.Order.Nat
import Serverbox.Net.BufferStream

/-!
# The shape of a buffer stream

The chain of a stream is a list of buffers with data followed by a list of buffers without data
and with free bytes. All the other fields of the stream are functions of these two lists. The
write position is the last buffer with data when it has free bytes, and else the first buffer
without data.

## Main definitions

* `BufferStream.Shape`: the fields of a stream with the given two lists.
* `BufferStream.unread`: the bytes of a stream which are not consumed yet.

## Main results

* `BufferStream.Shape.privCheck`: a stream with a shape passes `PrivCheck`.
* `buffersPropagateOnWrite_spec`, `buffersPropagateOnRead_spec`, `BufferStream.readLoop_spec`:
  what the loops over a chain do.
-/

namespace Serverbox

/-! ### Buffers and chains -/

@[simp] theorem Buffer.propagate_addr (b : Buffer) (n : ℕ) : (b.propagate n).addr = b.addr := rfl

@[simp] theorem Buffer.propagate_room (b : Buffer) (n : ℕ) : (b.propagate n).room = b.room := rfl

@[simp] theorem Buffer.propagate_data (b : Buffer) (n : ℕ) :
    (b.propagate n).data = b.data.drop n := rfl

@[simp] theorem Buffer.fill_addr (b : Buffer) (n : ℕ) : (b.fill n).addr = b.addr := rfl

@[simp] theorem Buffer.fill_room (b : Buffer) (n : ℕ) : (b.fill n).room = b.room.drop n := rfl

@[simp] theorem Buffer.fill_data (b : Buffer) (n : ℕ) :
    (b.fill n).data = b.data ++ b.room.take n := rfl

@[simp] theorem Buffer.append_addr (b : Buffer) (l : List UInt8) : (b.append l).addr = b.addr := rfl

@[simp] theorem Buffer.append_room (b : Buffer) (l : List UInt8) :
    (b.append l).room = b.room.drop l.length := rfl

@[simp] theorem Buffer.append_data (b : Buffer) (l : List UInt8) :
    (b.append l).data = b.data ++ l := rfl

@[simp] theorem Buffer.store_addr (b : Buffer) (l : List UInt8) : (b.store l).addr = b.addr := rfl

@[simp] theorem Buffer.store_data (b : Buffer) (l : List UInt8) : (b.store l).data = b.data := rfl

@[simp] theorem Buffer.capacity_sub_pos (b : Buffer) : b.capacity - b.pos = b.room.length := by
  simp [Buffer.capacity, Buffer.pos]

@[simp] theorem Buffer.pos_eq_zero (b : Buffer) : b.pos = 0 ↔ b.data = [] :=
  List.length_eq_zero_iff

@[simp] theorem Buffer.pos_pos (b : Buffer) : 0 < b.pos ↔ b.data ≠ [] :=
  List.length_pos_iff

@[simp] theorem Buffer.pos_eq_capacity (b : Buffer) : b.pos = b.capacity ↔ b.room = [] := by
  rw [← List.length_eq_zero_iff]
  simp [Buffer.capacity, Buffer.pos]

@[simp] theorem Buffer.pos_lt_capacity (b : Buffer) : b.pos < b.capacity ↔ b.room ≠ [] := by
  rw [← List.length_pos_iff]
  simp [Buffer.capacity, Buffer.pos]

@[simp] theorem bufferCopy_addr (junk : ℕ → ℕ → UInt8) (a : ℕ) : (bufferCopy junk a).addr = a := rfl

@[simp] theorem bufferCopy_data (junk : ℕ → ℕ → UInt8) (a : ℕ) :
    (bufferCopy junk a).data = [] := rfl

@[simp] theorem bufferCopy_room_length (junk : ℕ → ℕ → UInt8) (a : ℕ) :
    (bufferCopy junk a).room.length = theBufferCopySize := by
  simp [bufferCopy]

theorem bufferCopy_room_ne (junk : ℕ → ℕ → UInt8) (a : ℕ) : (bufferCopy junk a).room ≠ [] := by
  simp [← List.length_pos_iff, theBufferCopySize, sizeofBuffer]

/-- The addresses of a chain. -/
def addrs (l : List Buffer) : List ℕ := l.map Buffer.addr

@[simp] theorem addrs_nil : addrs [] = [] := rfl

@[simp] theorem addrs_cons (b : Buffer) (l : List Buffer) : addrs (b :: l) = b.addr :: addrs l :=
  rfl

@[simp] theorem addrs_append (l l' : List Buffer) : addrs (l ++ l') = addrs l ++ addrs l' :=
  List.map_append

/-- A pointer at a buffer of a chain is followed to this buffer. -/
theorem Buffer.split_append {x z : List Buffer} {b : Buffer} (h : b.addr ∉ addrs x) :
    Buffer.split (x ++ b :: z) b.addr = some (x, b, z) := by
  induction x with
  | nil => simp [Buffer.split]
  | cons c x ih =>
    simp only [addrs_cons, List.mem_cons, not_or] at h
    simp only [List.cons_append, Buffer.split, if_neg (Ne.symm h.1), ih h.2, Option.map_some]

namespace BufferStream

@[simp] theorem bytesOf_nil : bytesOf [] = [] := rfl

@[simp] theorem bytesOf_cons (b : Buffer) (l : List Buffer) :
    bytesOf (b :: l) = b.data ++ bytesOf l := rfl

@[simp] theorem bytesOf_append (l l' : List Buffer) :
    bytesOf (l ++ l') = bytesOf l ++ bytesOf l' :=
  List.flatMap_append

@[simp] theorem roomOf_nil : roomOf [] = [] := rfl

@[simp] theorem roomOf_cons (b : Buffer) (l : List Buffer) :
    roomOf (b :: l) = b.room ++ roomOf l := rfl

@[simp] theorem roomOf_append (l l' : List Buffer) : roomOf (l ++ l') = roomOf l ++ roomOf l' :=
  List.flatMap_append

/-- The buffers without data and with free bytes. -/
def Blank (l : List Buffer) : Prop := ∀ b ∈ l, b.data = [] ∧ b.room ≠ []

/-- The buffers with data. -/
def Written (l : List Buffer) : Prop := ∀ b ∈ l, b.data ≠ []

@[simp] theorem Blank.nil : Blank [] := by simp [Blank]

@[simp] theorem Written.nil : Written [] := by simp [Written]

@[simp] theorem blank_cons {b : Buffer} {l : List Buffer} :
    Blank (b :: l) ↔ (b.data = [] ∧ b.room ≠ []) ∧ Blank l := by simp [Blank]

@[simp] theorem written_cons {b : Buffer} {l : List Buffer} :
    Written (b :: l) ↔ b.data ≠ [] ∧ Written l := by simp [Written]

@[simp] theorem blank_append {l l' : List Buffer} : Blank (l ++ l') ↔ Blank l ∧ Blank l' :=
  List.forall_mem_append

@[simp] theorem written_append {l l' : List Buffer} :
    Written (l ++ l') ↔ Written l ∧ Written l' :=
  List.forall_mem_append

theorem Blank.bytesOf {l : List Buffer} (h : Blank l) : bytesOf l = [] := by
  induction l with
  | nil => rfl
  | cons b l ih => simp [(blank_cons.mp h).1.1, ih (blank_cons.mp h).2]

/-- The buffers which the stream allocated itself. -/
def Copies (l : List Buffer) : Prop := ∀ b ∈ l, b.capacity = theBufferCopySize

theorem Copies.nil : Copies [] := by simp [Copies]

theorem copies_bufferCopy (junk : ℕ → ℕ → UInt8) (a : ℕ) : Copies [bufferCopy junk a] := by
  simp [Copies, Buffer.capacity]

theorem Copies.append {l l' : List Buffer} (h : Copies l) (h' : Copies l') : Copies (l ++ l') :=
  List.forall_mem_append.mpr ⟨h, h'⟩

/-- The pointer at the last buffer of a chain. -/
def lastAddr (l : List Buffer) : Option ℕ := l.getLast?.map Buffer.addr

/-- The pointer at the first buffer of a chain. -/
def firstAddr (l : List Buffer) : Option ℕ := l.head?.map Buffer.addr

/-- The free bytes of the last buffer of a chain. -/
def lastRoom (l : List Buffer) : List UInt8 := (l.getLast?.map Buffer.room).getD []

@[simp] theorem lastAddr_nil : lastAddr [] = none := rfl

@[simp] theorem lastAddr_append_cons (x : List Buffer) (b : Buffer) (z : List Buffer) :
    lastAddr (x ++ b :: z) = lastAddr (b :: z) := by
  rw [lastAddr, List.getLast?_append_of_ne_nil _ (List.cons_ne_nil b z), lastAddr]

@[simp] theorem lastAddr_singleton (b : Buffer) : lastAddr [b] = some b.addr := rfl

theorem lastAddr_cons (b : Buffer) (l : List Buffer) :
    lastAddr (b :: l) = (lastAddr l).or (some b.addr) := by
  cases h : l.getLast? <;> simp [lastAddr, List.getLast?_cons, h]

theorem lastRoom_cons {b : Buffer} {l : List Buffer} (h : l ≠ []) :
    lastRoom (b :: l) = lastRoom l := by
  simp [lastRoom, List.getLast?_cons, List.getLast?_eq_some_getLast h]

@[simp] theorem firstAddr_nil : firstAddr [] = none := rfl

@[simp] theorem firstAddr_cons (b : Buffer) (l : List Buffer) :
    firstAddr (b :: l) = some b.addr := rfl

@[simp] theorem lastRoom_nil : lastRoom [] = [] := rfl

@[simp] theorem lastRoom_append_cons (x : List Buffer) (b : Buffer) (z : List Buffer) :
    lastRoom (x ++ b :: z) = lastRoom (b :: z) := by
  rw [lastRoom, List.getLast?_append_of_ne_nil _ (List.cons_ne_nil b z), lastRoom]

@[simp] theorem lastRoom_singleton (b : Buffer) : lastRoom [b] = b.room := rfl

/-- The write position of a chain of buffers with data and buffers without. -/
def writeAt (rd em : List Buffer) : Option ℕ :=
  if lastRoom rd = [] then firstAddr em else lastAddr rd

/-- The chain has distinct addresses, all given out by the allocator, and the tail points at its
last buffer. -/
structure Linked (s : BufferStream) : Prop where
  nodup : (addrs s.head).Nodup
  fresh : ∀ a ∈ addrs s.head, a < s.fresh
  tail : s.tail = lastAddr s.head

/-- The buffers with data, the buffers without, and the fields which describe them. -/
structure Shape (s : BufferStream) (rd em : List Buffer) : Prop where
  head : s.head = rd ++ em
  linked : s.Linked
  written : Written rd
  blank : Blank em
  rsize : s.rsize = (bytesOf rd).length
  rend : s.rend = lastAddr rd
  wpos : s.wpos = writeAt rd em
  wsize : s.wsize = (lastRoom rd).length + (roomOf em).length

/-- The representation invariant. -/
def Inv (s : BufferStream) : Prop := ∃ rd em, s.Shape rd em

/-- The bytes which are written and not consumed. -/
def unread (s : BufferStream) : List UInt8 := bytesOf s.head

theorem new_shape : new.Shape [] [] := by
  constructor <;> first | rfl | simp [new]
  constructor <;> simp

namespace Shape

variable {s : BufferStream} {rd em : List Buffer} (h : s.Shape rd em)
include h

theorem unread_eq : s.unread = bytesOf rd := by
  rw [unread, h.head, bytesOf_append, h.blank.bytesOf, List.append_nil]

theorem rsize_eq : s.rsize = s.unread.length := by rw [h.unread_eq, h.rsize]

theorem nodup : (addrs (rd ++ em)).Nodup := h.head ▸ h.linked.nodup

end Shape

/-- `PrivCheck` on buffers without data, once the write position is f. -/
theorem checkFrom_blank {s : BufferStream} {em : List Buffer} (he : Blank em) {p : Option ℕ}
    {f : Bool} {r w : ℕ} (hrend : f = true ∨ p = s.rend)
    (htail : s.tail = (lastAddr em).or p) (hr : s.rsize = r)
    (hw : s.wsize = w + (roomOf em).length) : checkFrom s em p f true r w = true := by
  induction em generalizing p f w with
  | nil => simpa [checkFrom, hr] using ⟨htail.symm, hw.symm⟩
  | cons b em ih =>
    obtain ⟨⟨hd, -⟩, he⟩ := blank_cons.mp he
    have hpos : b.pos = 0 := b.pos_eq_zero.mpr hd
    have hcap : b.capacity = b.room.length := by simp [Buffer.capacity, hd]
    have htail' : s.tail = (lastAddr em).or (some b.addr) := by
      rw [htail, lastAddr_cons, Option.or_assoc, Option.some_or]
    have next := ih he (p := some b.addr) (f := true) (w := w + b.room.length) (.inl rfl)
      htail' (by rw [hw, roomOf_cons, List.length_append, Nat.add_assoc])
    rcases hrend with rfl | rfl <;> simp [checkFrom, hpos, hcap, next]

theorem Blank.data_head {l : List Buffer} (h : Blank l) : ∀ c, l.head? = some c → c.data = [] :=
  fun c hc => (h c (List.mem_of_mem_head? hc)).1

/-- `PrivCheck` on a chain of buffers with data and buffers without, before the write position is
f. -/
theorem checkFrom_shape {s : BufferStream} {rd em : List Buffer} (hrd : Written rd)
    (he : Blank em) {p : Option ℕ} {f : Bool} {r : ℕ} (hrend : rd ≠ [] → s.rend = lastAddr rd)
    (hprev : rd = [] → f = true ∨ p = s.rend) (hwpos : s.wpos = writeAt rd em)
    (htail : s.tail = (lastAddr (rd ++ em)).or p) (hr : s.rsize = r + (bytesOf rd).length)
    (hw : s.wsize = (lastRoom rd).length + (roomOf em).length) :
    checkFrom s (rd ++ em) p f false r 0 = true := by
  induction rd generalizing p f r with
  | nil =>
    cases em with
    | nil => simpa [checkFrom, hr] using ⟨htail.symm, hw.symm⟩
    | cons b em =>
      -- the first buffer without data is the write position
      obtain ⟨⟨hd, hroom⟩, he'⟩ := blank_cons.mp he
      have hpos : b.pos = 0 := b.pos_eq_zero.mpr hd
      have hcap : b.capacity = b.room.length := by simp [Buffer.capacity, hd]
      have hlen : 0 < b.room.length := List.length_pos_iff.mpr hroom
      have hwb : s.wpos = some b.addr := by simpa [writeAt] using hwpos
      have next := checkFrom_blank he' (s := s) (p := some b.addr) (f := true) (r := r)
        (w := b.room.length) (.inl rfl)
        (by rw [htail, List.nil_append, lastAddr_cons, Option.or_assoc, Option.some_or])
        (by simpa using hr) (by simpa using hw)
      have hnext := eq_true he'.data_head
      rcases hprev rfl with rfl | rfl <;>
        simp [checkFrom, hpos, hcap, hlen, hwb, next, hnext]
  | cons b rd ih =>
    obtain ⟨hd, hrd⟩ := written_cons.mp hrd
    have htail' : s.tail = (lastAddr (rd ++ em)).or (some b.addr) := by
      rw [htail, List.cons_append, lastAddr_cons, Option.or_assoc, Option.some_or]
    have hr' : s.rsize = r + b.pos + (bytesOf rd).length := by
      rw [hr, bytesOf_cons, List.length_append, Buffer.pos, Nat.add_assoc]
    by_cases hrd0 : rd = []
    · subst hrd0
      have hrend' : s.rend = some b.addr := by simpa using hrend
      have hnext := eq_true he.data_head
      by_cases hroom : b.room = []
      · -- the last buffer with data is full
        have hem := ih hrd (p := some b.addr) (f := f) (r := r + b.pos) (by simp)
          (fun _ => .inr hrend'.symm) (by simpa [writeAt, hroom] using hwpos) htail' hr'
          (by simpa [hroom] using hw)
        simpa [checkFrom, hd, hroom] using hem
      · -- it has free bytes and is the write position
        have hlen : 0 < b.room.length := List.length_pos_iff.mpr hroom
        have hwb : s.wpos = some b.addr := by simpa [writeAt, hroom] using hwpos
        have next := checkFrom_blank he (s := s) (p := some b.addr) (f := f)
          (r := r + b.pos) (w := b.room.length) (.inr hrend'.symm) (by simpa using htail')
          (by simpa using hr') (by simpa using hw)
        simp [checkFrom, hd, hlen, hwb, next, hnext]
    · obtain ⟨c, rd', rfl⟩ := List.exists_cons_of_ne_nil hrd0
      have hc : c.data ≠ [] := (written_cons.mp hrd).1
      have hrd := ih hrd (p := some b.addr) (f := f) (r := r + b.pos)
        (fun _ => by simpa [lastAddr_cons] using hrend) (by simp)
        (by simpa [writeAt, lastRoom_cons, lastAddr_cons] using hwpos) htail' hr'
        (by simpa [lastRoom_cons] using hw)
      have hnext : ¬ ∀ x ∈ (c :: rd' ++ em).head?, x.data = [] := by simpa using hc
      rw [List.cons_append, checkFrom]
      simp only [hnext, false_and, and_false, decide_false, Bool.or_false, Buffer.pos_eq_zero, hd,
        false_imp_iff, Bool.false_eq_true, if_false, hrd, and_true, decide_true]

/-- A stream with a shape passes `PrivCheck`. -/
theorem Shape.privCheck {s : BufferStream} {rd em : List Buffer} (h : s.Shape rd em) :
    s.privCheck = true := by
  have hcheck := checkFrom_shape (p := none) (f := decide (s.rsize = 0)) (r := 0) h.written
    h.blank (fun _ => h.rend) (fun hrd => .inl (by simp [h.rsize, hrd])) h.wpos
    (by rw [h.linked.tail, h.head, Option.or_none]) (by rw [h.rsize, Nat.zero_add]) h.wsize
  rw [← h.head] at hcheck
  unfold BufferStream.privCheck
  split
  · rename_i hnil
    obtain ⟨rfl, rfl⟩ := List.append_eq_nil_iff.mp (h.head.symm.trans hnil)
    simp [h.rsize, h.rend, h.wpos, h.wsize, h.linked.tail, hnil, writeAt]
  · rw [decide_eq_true_iff]
    refine ⟨fun h0 => ?_, hcheck⟩
    cases rd with
    | nil => exact h.rend
    | cons b rd =>
      have := (written_cons.mp h.written).1
      simp [h.rsize, this] at h0

/-- A stream with a shape ends every operation successfully. -/
theorem Shape.checked {s : BufferStream} {rd em : List Buffer} (h : s.Shape rd em) (debug : Bool) :
    checked debug s = some s := by
  simp [BufferStream.checked, devAssert, h.privCheck]

/-! ### The loops over a chain -/

/-- `BuffersPropagateOnWrite` over a buffer with free bytes and the buffers without data after it
fills the buffers before the one it returns. -/
theorem buffersPropagateOnWrite_spec {b : Buffer} {l : List Buffer} {n : ℕ} (hb : b.room ≠ [])
    (hl : Blank l) (hn : 0 < n) (hle : n ≤ (roomOf (b :: l)).length) :
    ∃ x c y, buffersPropagateOnWrite (b :: l) n = some (x ++ c :: y, some c.addr) ∧
      addrs (x ++ c :: y) = addrs (b :: l) ∧ Written (x ++ [c]) ∧ Blank y ∧
      bytesOf (x ++ [c]) = b.data ++ (roomOf (b :: l)).take n ∧
      c.room.length + (roomOf y).length + n = (roomOf (b :: l)).length := by
  obtain ⟨n, rfl⟩ := Nat.exists_eq_add_one_of_ne_zero hn.ne'
  have hlen : 0 < b.room.length := List.length_pos_iff.mpr hb
  simp only [buffersPropagateOnWrite, Buffer.capacity_sub_pos]
  rcases lt_trichotomy (n + 1) b.room.length with hlt | heq | hgt
  · refine ⟨[], b.fill (n + 1), l, by simp [hlt], by simp, ?_, hl, ?_, ?_⟩
    · simp [hb]
    · simp [List.take_append_of_le_length hlt.le]
    · simp only [Buffer.fill_room, List.length_drop, roomOf_cons, List.length_append]
      omega
  · refine ⟨[], b.fill b.room.length, l, by simp [heq], by simp, by simp [hb], hl, ?_, ?_⟩
    · simp [heq]
    · simp only [Buffer.fill_room, List.length_drop, roomOf_cons, List.length_append]
      omega
  · cases l with
    | nil => simp at hle; omega
    | cons e l =>
      obtain ⟨⟨he, heroom⟩, hl⟩ := blank_cons.mp hl
      obtain ⟨x, c, y, hrun, haddrs, hwritten, hblank, hbytes, hroom⟩ :=
        buffersPropagateOnWrite_spec (n := n + 1 - b.room.length) heroom hl (by omega)
          (by rw [roomOf_cons, List.length_append] at hle; omega)
      refine ⟨b.fill b.room.length :: x, c, y, ?_, by simpa using haddrs, ?_, hblank, ?_, ?_⟩
      · simp [hrun, hgt.not_gt, hgt.ne]
      · simpa [hb] using hwritten
      · simp [List.take_append, hbytes, he, List.take_of_length_le hgt.le]
      · rw [roomOf_cons, List.length_append]
        omega

/-- A positive number of readable bytes ends inside one of the buffers with data. -/
theorem exists_consumed {rd : List Buffer} {n : ℕ} (hn : 0 < n) (hle : n ≤ (bytesOf rd).length) :
    ∃ x b z k, rd = x ++ b :: z ∧ n = (bytesOf x).length + k ∧ 0 < k ∧ k ≤ b.data.length := by
  induction rd generalizing n with
  | nil => simp at hle; omega
  | cons c rd ih =>
    rw [bytesOf_cons, List.length_append] at hle
    by_cases hc : n ≤ c.data.length
    · exact ⟨[], c, rd, n, rfl, by simp, hn, hc⟩
    · obtain ⟨x, b, z, k, rfl, hk, hpos, hkb⟩ := ih (n := n - c.data.length) (by omega) (by omega)
      exact ⟨c :: x, b, z, k, rfl, by rw [bytesOf_cons, List.length_append]; omega, hpos, hkb⟩

/-- `ReadData` copies the bytes and stops at the buffer where they end. -/
theorem readLoop_spec {x l : List Buffer} {b : Buffer} {k : ℕ} (hk : 0 < k)
    (hkb : k ≤ b.data.length) :
    readLoop (x ++ b :: l) ((bytesOf x).length + k) =
      some (bytesOf x ++ b.data.take k, b.propagate k :: l) := by
  induction x with
  | nil =>
    have htake : (if b.pos > k then k else b.pos) = k := by
      rw [Buffer.pos]
      split <;> omega
    simp [readLoop, htake]
  | cons c x ih =>
    have hc : ¬ c.pos > c.pos + (bytesOf x).length + k := by omega
    have hrest : c.pos + (bytesOf x).length + k - c.pos = (bytesOf x).length + k := by omega
    have hne : (bytesOf x).length + k ≠ 0 := by omega
    have hlen : (bytesOf (c :: x)).length + k = c.pos + (bytesOf x).length + k := by
      rw [bytesOf_cons, List.length_append, Buffer.pos]
    rw [List.cons_append, readLoop, hlen]
    simp only [if_neg hc, hrest, if_neg hne, ih, Option.map_some, bytesOf_cons, List.append_assoc]
    rw [Buffer.pos, List.take_length]

/-- `PeekData` copies the bytes. -/
theorem peekLoop_spec {x l : List Buffer} {b : Buffer} {k : ℕ} (hk : 0 < k)
    (hkb : k ≤ b.data.length) :
    peekLoop (x ++ b :: l) ((bytesOf x).length + k) = some (bytesOf x ++ b.data.take k) := by
  induction x with
  | nil => simp [peekLoop, Buffer.pos, hkb]
  | cons c x ih =>
    have hc : ¬ c.pos ≥ c.pos + (bytesOf x).length + k := by omega
    have hrest : c.pos + (bytesOf x).length + k - c.pos = (bytesOf x).length + k := by omega
    have hne : (bytesOf x).length + k ≠ 0 := by omega
    have hlen : (bytesOf (c :: x)).length + k = c.pos + (bytesOf x).length + k := by
      rw [bytesOf_cons, List.length_append, Buffer.pos]
    rw [List.cons_append, peekLoop, hlen]
    simp only [if_neg hc, hrest, if_neg hne, ih, Option.map_some, bytesOf_cons, List.append_assoc]
    rw [Buffer.pos, List.take_length]

/-- `BuffersPropagateOnRead` stops at the buffer where the bytes end, and drops it when neither
bytes nor free bytes are left in it. -/
theorem buffersPropagateOnRead_spec {x l : List Buffer} {b : Buffer} {k : ℕ} (hk : 0 < k)
    (hkb : k ≤ b.data.length) :
    buffersPropagateOnRead (x ++ b :: l) ((bytesOf x).length + k) =
      some (if (b.propagate k).data = [] ∧ b.room = [] then l else b.propagate k :: l) := by
  induction x with
  | nil =>
    obtain ⟨k, rfl⟩ := Nat.exists_eq_add_one_of_ne_zero hk.ne'
    have hpos : b.pos ≥ k + 1 := hkb
    have hcap : ((b.propagate (k + 1)).pos = 0 ∧ (b.propagate (k + 1)).capacity = 0) ↔
        ((b.propagate (k + 1)).data = [] ∧ b.room = []) := by
      rw [Buffer.pos_eq_zero, Buffer.capacity, Nat.add_eq_zero_iff, List.length_eq_zero_iff,
        List.length_eq_zero_iff, Buffer.propagate_room]
      tauto
    simp only [bytesOf_nil, List.length_nil, Nat.zero_add, List.nil_append, buffersPropagateOnRead,
      if_pos hpos, hcap]
    split <;> rfl
  | cons c x ih =>
    have hlen : (bytesOf (c :: x)).length + k = c.pos + (bytesOf x).length + (k - 1) + 1 := by
      rw [bytesOf_cons, List.length_append, Buffer.pos]
      omega
    have hc : ¬ c.pos ≥ c.pos + (bytesOf x).length + (k - 1) + 1 := by omega
    have hrest : c.pos + (bytesOf x).length + (k - 1) + 1 - c.pos = (bytesOf x).length + k := by
      omega
    rw [List.cons_append, hlen, buffersPropagateOnRead, if_neg hc, hrest, ih]

end BufferStream

end Serverbox
