import Serverbox.Net.BufferStreamShape

/-!
# Copies of buffers and references

`BuffersCopy` streams bytes, or the bytes of a chain, or of a list of chains, into new buffers of a
fixed capacity. Its step is `BuffersCopyAppend`, which fills the free bytes of the last buffer and
then links new ones. `BuffersRef` splits memory into buffers whose sizes fit into 32 bits.

The sizes are cast to 32 bits where the source does it. A chain under construction is the list of
the buffers before its last one, and the last one.

Source: `src/mg/net/Buffer.cpp`.

## Main definitions

* `buffersCopyAppend`, `buffersCopy`, `buffersCopyChain`, `buffersCopyLinks`, `buffersRef`.
* `IsCopy`: a chain of new buffers with the given bytes.

## Main results

* `buffersCopy_spec`: all of them keep the bytes, and the copies are new buffers.
-/

namespace Serverbox

/-- `UINT32_MAX`. -/
def uint32Max : ℕ := 2 ^ 32 - 1

/-- A cast to `uint32_t`. -/
def uint32 (n : ℕ) : ℕ := n % 2 ^ 32

/-- `memcpy` to `myWData + myPos`, and `myPos += size` with a cast. -/
def Buffer.copyIn (b : Buffer) (bytes : List UInt8) : Buffer :=
  (b.store bytes).fill (uint32 bytes.length)

/-- `BufferRaw::NewShared`: a reference to the first bytes of some memory. -/
def bufferRaw (addr : ℕ) (memory : List UInt8) (size : ℕ) : Buffer := ⟨addr, memory.take size, []⟩

section Definitions

variable (junk : ℕ → ℕ → UInt8)

/-- The loop of `BuffersCopyAppend`: the new buffers, without the last one and the last one. -/
def copyAppendLoop (fresh : ℕ) (data : List UInt8) : List Buffer × Buffer :=
  let cap := if data.length > theBufferCopySize then theBufferCopySize else uint32 data.length
  let b := (bufferCopy junk fresh).copyIn (data.take cap)
  if data.length > theBufferCopySize then
    let r := copyAppendLoop (fresh + 1) (data.drop cap)
    (b :: r.1, r.2)
  else ([], b)
termination_by data.length
decreasing_by
  rename_i h
  rw [dif_pos h, List.length_drop]
  simp only [theBufferCopySize, sizeofBuffer] at *
  omega

/-- `BuffersCopyAppend` to the last buffer of a chain: this buffer and the new ones, without the
last one and the last one. -/
def buffersCopyAppend (fresh : ℕ) (aHead : Buffer) (data : List UInt8) : List Buffer × Buffer :=
  if data.length = 0 then ([], aHead)
  else
    let cap := aHead.capacity - aHead.pos
    if cap ≥ data.length then ([], aHead.copyIn data)
    else
      let r := copyAppendLoop junk fresh (data.drop cap)
      (aHead.copyIn (data.take cap) :: r.1, r.2)

/-- `BuffersCopy` of bytes. -/
def buffersCopy (fresh : ℕ) (data : List UInt8) : List Buffer :=
  if data.length = 0 then []
  else
    let r := buffersCopyAppend junk (fresh + 1) (bufferCopy junk fresh) data
    r.1 ++ [r.2]

/-- The loop of `BuffersCopy` over a chain. -/
def copyBufs (fresh : ℕ) (tail : Buffer) : List Buffer → List Buffer × Buffer
  | [] => ([], tail)
  | b :: l =>
    let r := buffersCopyAppend junk fresh tail b.data
    let q := copyBufs (fresh + r.1.length) r.2 l
    (r.1 ++ q.1, q.2)

/-- `BuffersCopy` of a chain. The empty buffers at its beginning are skipped. -/
def buffersCopyChain (fresh : ℕ) (aHead : List Buffer) : List Buffer :=
  match aHead.dropWhile (·.pos = 0) with
  | [] => []
  | b :: l =>
    let r := copyBufs junk (fresh + 1) (bufferCopy junk fresh) (b :: l)
    r.1 ++ [r.2]

/-- The first buffer with data, with the rest of its chain, and the links behind. -/
def firstBuf : List (List Buffer) → Option (List Buffer × List (List Buffer))
  | [] => none
  | l :: links =>
    match l.dropWhile (·.pos = 0) with
    | [] => firstBuf links
    | b :: l => some (b :: l, links)

/-- The loop of `BuffersCopy` over links. -/
def copyLinks (fresh : ℕ) (tail : Buffer) (buf : List Buffer) : List (List Buffer) → List Buffer
  | [] =>
    let r := copyBufs junk fresh tail buf
    r.1 ++ [r.2]
  | l :: links =>
    let r := copyBufs junk fresh tail buf
    r.1 ++ copyLinks (fresh + r.1.length) r.2 l links

/-- `BuffersCopy` of links. -/
def buffersCopyLinks (fresh : ℕ) (aHead : List (List Buffer)) : List Buffer :=
  match firstBuf aHead with
  | none => []
  | some (buf, links) => copyLinks junk (fresh + 1) (bufferCopy junk fresh) buf links

/-- The loop of `BuffersRef` and the last buffer after it. -/
def refLoop (fresh : ℕ) (data : List UInt8) : List Buffer :=
  if data.length > uint32Max then
    bufferRaw fresh data uint32Max :: refLoop (fresh + 1) (data.drop uint32Max)
  else [bufferRaw fresh data (uint32 data.length)]
termination_by data.length
decreasing_by
  simp only [uint32Max, List.length_drop] at *
  omega

/-- `BuffersRef`. -/
def buffersRef (fresh : ℕ) (data : List UInt8) : List Buffer :=
  if data.length ≤ uint32Max then
    if data.length = 0 then [] else [bufferRaw fresh data (uint32 data.length)]
  else bufferRaw fresh data uint32Max :: refLoop (fresh + 1) (data.drop uint32Max)

end Definitions

/-- New buffers with the given bytes, each of which has its positions within its capacity. -/
structure IsCopy (fresh : ℕ) (l : List Buffer) (bytes : List UInt8) : Prop where
  content : BufferStream.bytesOf l = bytes
  fits : ∀ b ∈ l, b.pos ≤ b.capacity ∧ b.capacity = theBufferCopySize
  new : addrs l = List.range' fresh l.length

theorem uint32_of_lt {n : ℕ} (h : n < 2 ^ 32) : uint32 n = n := Nat.mod_eq_of_lt h

theorem Buffer.pos_le_capacity (b : Buffer) : b.pos ≤ b.capacity := Nat.le_add_right _ _

section CopyIn

variable {b : Buffer} {bytes : List UInt8} (hfit : bytes.length ≤ b.room.length)
  (hcap : b.capacity < 2 ^ 32)
include hfit hcap

/-- Bytes which fit are behind those which were there. -/
theorem Buffer.copyIn_data : (b.copyIn bytes).data = b.data ++ bytes := by
  have hlt : bytes.length < 2 ^ 32 := by
    rw [Buffer.capacity] at hcap
    omega
  rw [Buffer.copyIn, uint32_of_lt hlt, Buffer.fill_data, Buffer.store_data, Buffer.store,
    List.take_left]

/-- Bytes which fit do not change the capacity. -/
theorem Buffer.copyIn_capacity : (b.copyIn bytes).capacity = b.capacity := by
  have hlt : bytes.length < 2 ^ 32 := by
    rw [Buffer.capacity] at hcap
    omega
  have hroom : (b.copyIn bytes).room = b.room.drop bytes.length := by
    rw [Buffer.copyIn, uint32_of_lt hlt, Buffer.fill_room, Buffer.store, List.drop_left]
  rw [Buffer.capacity, Buffer.copyIn_data hfit hcap, hroom, Buffer.capacity, List.length_append,
    List.length_drop]
  omega

end CopyIn

@[simp] theorem Buffer.copyIn_addr (b : Buffer) (bytes : List UInt8) :
    (b.copyIn bytes).addr = b.addr := rfl

section Append

variable {junk : ℕ → ℕ → UInt8}

theorem bufferCopy_capacity (addr : ℕ) : (bufferCopy junk addr).capacity = theBufferCopySize := by
  rw [Buffer.capacity, bufferCopy_data, bufferCopy_room_length]
  exact Nat.zero_add _

theorem theBufferCopySize_lt : theBufferCopySize < 2 ^ 32 := by decide

/-- A new buffer with some bytes. -/
theorem isCopy_singleton {fresh : ℕ} {bytes : List UInt8} (h : bytes.length ≤ theBufferCopySize) :
    IsCopy fresh [(bufferCopy junk fresh).copyIn bytes] bytes := by
  have hfit : bytes.length ≤ (bufferCopy junk fresh).room.length := by
    rwa [bufferCopy_room_length]
  have hcap : (bufferCopy junk fresh).capacity < 2 ^ 32 := by
    rw [bufferCopy_capacity]
    exact theBufferCopySize_lt
  refine ⟨?_, fun b hb => ?_, rfl⟩
  · rw [BufferStream.bytesOf_cons, BufferStream.bytesOf_nil, List.append_nil,
      Buffer.copyIn_data hfit hcap, bufferCopy_data, List.nil_append]
  · rw [List.mem_singleton] at hb
    subst hb
    exact ⟨Buffer.pos_le_capacity _,
      (Buffer.copyIn_capacity hfit hcap).trans (bufferCopy_capacity fresh)⟩

/-- New buffers are followed by newer ones. -/
theorem IsCopy.append {fresh : ℕ} {l l' : List Buffer} {bytes bytes' : List UInt8}
    (h : IsCopy fresh l bytes) (h' : IsCopy (fresh + l.length) l' bytes') :
    IsCopy fresh (l ++ l') (bytes ++ bytes') where
  content := by rw [BufferStream.bytesOf_append, h.content, h'.content]
  fits := by
    intro b hb
    rcases List.mem_append.mp hb with hb | hb
    · exact h.fits b hb
    · exact h'.fits b hb
  new := by
    rw [addrs_append, h.new, h'.new, List.length_append, List.range'_append_1]

theorem IsCopy.nil {fresh : ℕ} : IsCopy fresh [] [] := ⟨rfl, nofun, rfl⟩

theorem copyAppendLoop_spec (fresh : ℕ) (data : List UInt8) :
    IsCopy fresh ((copyAppendLoop junk fresh data).1 ++ [(copyAppendLoop junk fresh data).2])
      data := by
  fun_induction copyAppendLoop junk fresh data with
  | case1 fresh data cap b hgt r ih =>
    have hcap : cap = theBufferCopySize := if_pos hgt
    have hlen : (data.take cap).length ≤ theBufferCopySize := by
      rw [hcap]
      exact List.length_take_le _ _
    have hfirst : IsCopy fresh [b] (data.take cap) := isCopy_singleton hlen
    have := hfirst.append ih
    rwa [List.take_append_drop] at this
  | case2 fresh data cap b hle =>
    have hle : data.length ≤ theBufferCopySize := Nat.not_lt.mp hle
    have hcap : cap = data.length := by
      have := theBufferCopySize_lt
      dsimp only [cap]
      rw [dif_neg (Nat.not_lt.mpr hle), uint32_of_lt (by omega)]
    have htake : data.take cap = data := by rw [hcap, List.take_length]
    rw [List.nil_append]
    dsimp only [b]
    rw [htake]
    exact isCopy_singleton hle

variable (junk) in
/-- The chain from the buffer on to which bytes are appended. -/
theorem buffersCopyAppend_spec (fresh : ℕ) {b : Buffer} (data : List UInt8)
    (hcap : b.capacity < 2 ^ 32) :
    ∃ c l, (buffersCopyAppend junk fresh b data).1 ++ [(buffersCopyAppend junk fresh b data).2] =
        c :: l ∧ c.addr = b.addr ∧ c.capacity = b.capacity ∧
      ∃ bytes, b.data ++ data = c.data ++ bytes ∧ IsCopy fresh l bytes := by
  have hroom : b.capacity - b.pos = b.room.length := b.capacity_sub_pos
  unfold buffersCopyAppend
  by_cases hzero : data.length = 0
  · obtain rfl : data = [] := List.length_eq_zero_iff.mp hzero
    rw [if_pos hzero]
    exact ⟨b, [], rfl, rfl, rfl, [], rfl, IsCopy.nil⟩
  · rw [if_neg hzero, hroom]
    dsimp only
    by_cases hfit : b.room.length ≥ data.length
    · rw [if_pos hfit]
      exact ⟨b.copyIn data, [], rfl, rfl, Buffer.copyIn_capacity hfit hcap, [],
        by rw [Buffer.copyIn_data hfit hcap, List.append_nil], IsCopy.nil⟩
    · rw [if_neg hfit]
      have hlen : (data.take b.room.length).length ≤ b.room.length := List.length_take_le _ _
      refine ⟨b.copyIn (data.take b.room.length), _, rfl, rfl, Buffer.copyIn_capacity hlen hcap,
        data.drop b.room.length, ?_, copyAppendLoop_spec fresh _⟩
      rw [Buffer.copyIn_data hlen hcap, List.append_assoc, List.take_append_drop]

variable (junk) in
/-- Bytes are appended to a chain of new buffers. -/
theorem IsCopy.copyAppend {fresh : ℕ} {l : List Buffer} {tail : Buffer} {bytes : List UInt8}
    (h : IsCopy fresh (l ++ [tail]) bytes) (data : List UInt8) :
    let r := buffersCopyAppend junk (fresh + l.length + 1) tail data
    IsCopy fresh (l ++ r.1 ++ [r.2]) (bytes ++ data) := by
  have htail := h.fits tail (List.mem_append_right l List.mem_cons_self)
  obtain ⟨c, l', hr, haddr, hcapacity, rest, hsplit, hcopy⟩ :=
    buffersCopyAppend_spec junk (fresh + l.length + 1) data
      (htail.2 ▸ theBufferCopySize_lt)
  have hfirst : IsCopy fresh (l ++ [c]) (BufferStream.bytesOf l ++ c.data) := by
    refine ⟨by simp, fun b hb => ?_, ?_⟩
    · rcases List.mem_append.mp hb with hb | hb
      · exact h.fits b (List.mem_append_left _ hb)
      · rw [List.mem_singleton.mp hb]
        exact ⟨Buffer.pos_le_capacity c, hcapacity.trans htail.2⟩
    · have := h.new
      simpa [haddr] using this
  have hall := hfirst.append (by simpa [Nat.add_assoc] using hcopy)
  dsimp only
  rw [List.append_assoc, hr]
  have hbytes : bytes ++ data = BufferStream.bytesOf l ++ c.data ++ rest := by
    have hcontent : BufferStream.bytesOf l ++ tail.data = bytes := by simpa using h.content
    rw [← hcontent, List.append_assoc, hsplit, List.append_assoc]
  rw [hbytes]
  simpa using hall

variable (junk) in
/-- A chain is appended to a chain of new buffers. -/
theorem IsCopy.copyBufs {fresh : ℕ} {l : List Buffer} {tail : Buffer} {bytes : List UInt8}
    (h : IsCopy fresh (l ++ [tail]) bytes) (src : List Buffer) :
    let r := copyBufs junk (fresh + l.length + 1) tail src
    IsCopy fresh (l ++ r.1 ++ [r.2]) (bytes ++ BufferStream.bytesOf src) := by
  induction src generalizing l tail bytes with
  | nil => simpa [Serverbox.copyBufs] using h
  | cons b src ih =>
    have hb := h.copyAppend junk b.data
    have hsrc := ih hb
    rw [List.length_append] at hsrc
    have hfresh : ∀ n, fresh + (l.length + n) + 1 = fresh + l.length + 1 + n := by
      intro n
      omega
    rw [hfresh] at hsrc
    rw [Serverbox.copyBufs]
    simpa [List.append_assoc] using hsrc

variable (junk) in
/-- A list of chains is appended to a chain of new buffers. -/
theorem IsCopy.copyLinks {fresh : ℕ} {l : List Buffer} {tail : Buffer} {bytes : List UInt8}
    (h : IsCopy fresh (l ++ [tail]) bytes) (buf : List Buffer) (links : List (List Buffer)) :
    IsCopy fresh (l ++ copyLinks junk (fresh + l.length + 1) tail buf links)
      (bytes ++ (BufferStream.bytesOf buf ++ links.flatMap BufferStream.bytesOf)) := by
  induction links generalizing l tail bytes buf with
  | nil =>
    have hbuf := h.copyBufs junk buf
    rw [Serverbox.copyLinks]
    simpa [List.append_assoc] using hbuf
  | cons first links ih =>
    have hbuf := h.copyBufs junk buf
    have hlinks := ih hbuf first
    rw [List.length_append] at hlinks
    have hfresh : ∀ n, fresh + (l.length + n) + 1 = fresh + l.length + 1 + n := by
      intro n
      omega
    rw [hfresh] at hlinks
    rw [Serverbox.copyLinks]
    simpa [List.append_assoc] using hlinks

end Append

/-- The buffers which are skipped have no data. -/
theorem bytesOf_dropWhile (l : List Buffer) :
    BufferStream.bytesOf (l.dropWhile (·.pos = 0)) = BufferStream.bytesOf l := by
  induction l with
  | nil => rfl
  | cons b l ih =>
    by_cases hb : b.pos = 0
    · rw [List.dropWhile_cons_of_pos (by simpa using hb), ih, BufferStream.bytesOf_cons,
        b.pos_eq_zero.mp hb, List.nil_append]
    · rw [List.dropWhile_cons_of_neg (by simpa using hb)]

theorem firstBuf_spec (links : List (List Buffer)) :
    match firstBuf links with
    | none => links.flatMap BufferStream.bytesOf = []
    | some (buf, rest) => links.flatMap BufferStream.bytesOf =
        BufferStream.bytesOf buf ++ rest.flatMap BufferStream.bytesOf := by
  induction links with
  | nil => rfl
  | cons l links ih =>
    have hskip := bytesOf_dropWhile l
    rw [firstBuf]
    cases hdrop : l.dropWhile (·.pos = 0) with
    | nil =>
      have hl : BufferStream.bytesOf l = [] := by rw [← hskip, hdrop]; rfl
      simpa [hl] using ih
    | cons b l' =>
      dsimp only
      rw [List.flatMap_cons, ← hskip, hdrop]

/-- The pieces of a reference. -/
structure IsRef (l : List Buffer) (bytes : List UInt8) : Prop where
  content : BufferStream.bytesOf l = bytes
  fits : ∀ b ∈ l, 0 < b.pos ∧ b.pos ≤ b.capacity ∧ b.capacity ≤ uint32Max

theorem isRef_singleton (addr : ℕ) {size : ℕ} (data : List UInt8) (hpos : 0 < size)
    (hle : size ≤ uint32Max) (hdata : size ≤ data.length) :
    IsRef [bufferRaw addr data size] (data.take size) := by
  refine ⟨by simp [bufferRaw], fun b hb => ?_⟩
  rw [List.mem_singleton] at hb
  subst hb
  have hlen : (data.take size).length = size := List.length_take_of_le hdata
  simp only [bufferRaw, Buffer.pos, Buffer.capacity, hlen, List.length_nil]
  omega

theorem IsRef.append {l l' : List Buffer} {bytes bytes' : List UInt8} (h : IsRef l bytes)
    (h' : IsRef l' bytes') : IsRef (l ++ l') (bytes ++ bytes') where
  content := by rw [BufferStream.bytesOf_append, h.content, h'.content]
  fits := by
    intro b hb
    rcases List.mem_append.mp hb with hb | hb
    · exact h.fits b hb
    · exact h'.fits b hb

/-- The last piece is all what is left. -/
theorem isRef_last {addr : ℕ} {data : List UInt8} (hpos : 0 < data.length)
    (hle : data.length ≤ uint32Max) :
    IsRef [bufferRaw addr data (uint32 data.length)] data := by
  have hlt : uint32 data.length = data.length := uint32_of_lt (by rw [uint32Max] at hle; omega)
  have := isRef_singleton addr data hpos hle (Nat.le_refl data.length)
  rwa [List.take_length, ← hlt] at this

theorem refLoop_spec (fresh : ℕ) (data : List UInt8) (hpos : 0 < data.length) :
    IsRef (refLoop fresh data) data := by
  fun_induction refLoop fresh data with
  | case1 fresh data hgt ih =>
    have hfirst := isRef_singleton fresh data (by decide : 0 < uint32Max)
      (Nat.le_refl _) (Nat.le_of_lt hgt)
    have hrest := ih (by rw [List.length_drop]; omega)
    have := hfirst.append hrest
    rwa [List.take_append_drop] at this
  | case2 fresh data hle => exact isRef_last hpos (Nat.not_lt.mp hle)

theorem buffersRef_spec (fresh : ℕ) (data : List UInt8) : IsRef (buffersRef fresh data) data := by
  unfold buffersRef
  by_cases hle : data.length ≤ uint32Max
  · rw [if_pos hle]
    by_cases hzero : data.length = 0
    · rw [if_pos hzero, List.length_eq_zero_iff.mp hzero]
      exact ⟨rfl, nofun⟩
    · rw [if_neg hzero]
      exact isRef_last (Nat.pos_of_ne_zero hzero) hle
  · rw [if_neg hle]
    have hgt : data.length > uint32Max := Nat.not_le.mp hle
    have hfirst := isRef_singleton fresh data (by decide : 0 < uint32Max)
      (Nat.le_refl _) (Nat.le_of_lt hgt)
    have hrest := refLoop_spec (fresh + 1) (data.drop uint32Max)
      (by rw [List.length_drop]; omega)
    have := hfirst.append hrest
    rwa [List.take_append_drop] at this

section Copies

variable {junk : ℕ → ℕ → UInt8}

variable (junk) in
/-- A new buffer without data. -/
theorem isCopy_new (fresh : ℕ) : IsCopy fresh ([] ++ [bufferCopy junk fresh]) [] := by
  refine ⟨by simp, fun b hb => ?_, rfl⟩
  rw [List.nil_append, List.mem_singleton] at hb
  subst hb
  exact ⟨Buffer.pos_le_capacity _, bufferCopy_capacity fresh⟩

theorem isCopy_buffersCopy (fresh : ℕ) (data : List UInt8) :
    IsCopy fresh (buffersCopy junk fresh data) data := by
  unfold buffersCopy
  by_cases hzero : data.length = 0
  · rw [if_pos hzero, List.length_eq_zero_iff.mp hzero]
    exact IsCopy.nil
  · rw [if_neg hzero]
    simpa using (isCopy_new junk fresh).copyAppend junk data

theorem isCopy_buffersCopyChain (fresh : ℕ) (l : List Buffer) :
    IsCopy fresh (buffersCopyChain junk fresh l) (BufferStream.bytesOf l) := by
  rw [← bytesOf_dropWhile]
  unfold buffersCopyChain
  cases l.dropWhile (·.pos = 0) with
  | nil => exact IsCopy.nil
  | cons b l' => simpa using (isCopy_new junk fresh).copyBufs junk (b :: l')

theorem isCopy_buffersCopyLinks (fresh : ℕ) (links : List (List Buffer)) :
    IsCopy fresh (buffersCopyLinks junk fresh links) (links.flatMap BufferStream.bytesOf) := by
  have hspec := firstBuf_spec links
  unfold buffersCopyLinks
  cases hfirst : firstBuf links with
  | none =>
    rw [hfirst] at hspec
    dsimp only at hspec
    rw [hspec]
    exact IsCopy.nil
  | some r =>
    obtain ⟨buf, rest⟩ := r
    rw [hfirst] at hspec
    dsimp only at hspec ⊢
    rw [hspec]
    simpa using (isCopy_new junk fresh).copyLinks junk buf rest

/-- New buffers are not those of a source which was there before. -/
theorem IsCopy.disjoint {fresh : ℕ} {l src : List Buffer} {bytes : List UInt8}
    (h : IsCopy fresh l bytes) (hsrc : ∀ b ∈ src, b.addr < fresh) :
    (addrs l).Disjoint (addrs src) := by
  intro a ha ha'
  rw [h.new, List.mem_range'_1] at ha
  obtain ⟨b, hb, rfl⟩ := List.mem_map.mp ha'
  have := hsrc b hb
  omega

end Copies

/-- **Copies and references.** From bytes, from a chain and from a list of chains, new buffers with
the same bytes are made, none of which is a buffer of the source; appending to the last buffer of a
chain keeps its bytes and its capacity; and a reference is split into buffers of 32-bit sizes. -/
theorem buffersCopy_spec (junk : ℕ → ℕ → UInt8) (fresh : ℕ) :
    (∀ data, IsCopy fresh (buffersCopy junk fresh data) data) ∧
    (∀ src, (∀ b ∈ src, b.addr < fresh) →
      IsCopy fresh (buffersCopyChain junk fresh src) (BufferStream.bytesOf src) ∧
        (addrs (buffersCopyChain junk fresh src)).Disjoint (addrs src)) ∧
    (∀ links, (∀ b ∈ links.flatten, b.addr < fresh) →
      IsCopy fresh (buffersCopyLinks junk fresh links) (links.flatMap BufferStream.bytesOf) ∧
        (addrs (buffersCopyLinks junk fresh links)).Disjoint (addrs links.flatten)) ∧
    (∀ (b : Buffer) data, b.capacity < 2 ^ 32 →
      ∃ c l, (buffersCopyAppend junk fresh b data).1 ++ [(buffersCopyAppend junk fresh b data).2] =
          c :: l ∧ c.addr = b.addr ∧ c.capacity = b.capacity ∧
        ∃ bytes, b.data ++ data = c.data ++ bytes ∧ IsCopy fresh l bytes) ∧
    ∀ data, IsRef (buffersRef fresh data) data :=
  ⟨isCopy_buffersCopy fresh,
    fun src hsrc => ⟨isCopy_buffersCopyChain fresh src,
      (isCopy_buffersCopyChain fresh src).disjoint hsrc⟩,
    fun links hlinks => ⟨isCopy_buffersCopyLinks fresh links,
      (isCopy_buffersCopyLinks fresh links).disjoint hlinks⟩,
    fun _ data hcap => buffersCopyAppend_spec junk fresh data hcap,
    buffersRef_spec fresh⟩

/-- A chain which begins with an empty buffer, a list with an empty chain, and a buffer with two
free bytes to which three are appended. -/
theorem buffersCopy_spec_sample :
    IsCopy 2 (buffersCopyChain (fun _ _ => 0) 2 [⟨0, [], [9]⟩, ⟨1, [7], []⟩]) [7] ∧
      IsCopy 2 (buffersCopyLinks (fun _ _ => 0) 2 [[], [⟨0, [], [9]⟩], [⟨1, [7], []⟩]]) [7] ∧
      ∃ c l, (buffersCopyAppend (fun _ _ => 0) 2 ⟨1, [7], [9, 9]⟩ [1, 2, 3]).1 ++
          [(buffersCopyAppend (fun _ _ => 0) 2 ⟨1, [7], [9, 9]⟩ [1, 2, 3]).2] = c :: l ∧
        c.addr = 1 ∧ c.capacity = 3 ∧
        ∃ bytes, [7, 1, 2, 3] = c.data ++ bytes ∧ IsCopy 2 l bytes :=
  ⟨((buffersCopy_spec _ 2).2.1 _ (by decide)).1, ((buffersCopy_spec _ 2).2.2.1 _ (by decide)).1,
    (buffersCopy_spec _ 2).2.2.2.1 _ _ (by decide)⟩

end Serverbox
