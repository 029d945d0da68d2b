import TPE.Library.RingBuffer
import TPE.Library.Runs

/-!
# The circular buffer of a fifo

`fifo.c` keeps the bytes of a fifo in a circular array of `BUF_SIZE` bytes with
three `int` fields: the index of the first free byte, the index of the first
used byte and the number of used bytes.

A transfer compares the old index with the new one to find out whether it ran
over the end of the array.  A transfer of no byte leaves the index where it is,
and the comparison takes that for a full turn: it copies up to the end of the
array and asks `memcpy` for a negative number of bytes more.  `memcpy` converts
the number to `uint64_t`, so it never stops inside the array.  The model makes
such a call a fault and gives the call's arguments.
-/

namespace TPE

open RingBuffer

/-- `BUF_SIZE` -/
abbrev bufSize : Nat := 1024

/-- What an `int` holds after an operation with the result `x`. -/
def int32 (x : Int) : Int := x.bmod (2 ^ 32)

theorem int32_of_range {x : Int} (lo : -2 ^ 31 ≤ x) (hi : x < 2 ^ 31) : int32 x = x := by
  rw [int32, Int.bmod_def]
  split <;> omega

theorem int32_lt (x : Int) : int32 x < 2 ^ 31 := by
  rw [int32, Int.bmod_def]
  split <;> omega

theorem le_int32 (x : Int) : -2 ^ 31 ≤ int32 x := by
  rw [int32, Int.bmod_def]
  split <;> omega

/-- A computation that succeeds is made of computations that succeed. -/
theorem Except.bind_eq_ok {ε α β : Type} {x : Except ε α} {f : α → Except ε β} {b : β}
    (h : (x >>= f) = .ok b) : ∃ a, x = .ok a ∧ f a = .ok b := by
  cases x with
  | error e => cases h
  | ok a => exact ⟨a, rfl, h⟩

/-- `circular_buffer` -/
structure CircularBuffer where
  /-- The bytes.  Only the indices below `bufSize` are in the array. -/
  buffer : Nat → UInt8
  /-- The index of the first free byte. -/
  freeSlot : Int
  /-- The index of the first used byte. -/
  current : Int
  /-- The number of used bytes. -/
  bufFill : Int

/-- A call of `memcpy` that leaves the array: the index it starts at and the
length it was handed. -/
structure Memcpy where
  offset : Int
  length : Int
deriving DecidableEq, Repr

/-- What a transfer returns, and the lengths it handed to `memcpy`. -/
structure Transfer where
  /-- The return value. -/
  count : Int
  /-- The buffer afterwards. -/
  cbuf : CircularBuffer
  /-- The caller's memory afterwards. -/
  mem : Nat → UInt8
  /-- The lengths handed to `memcpy`, first to last. -/
  lengths : List Int

namespace CircularBuffer

/-! ## The operations -/

/-- `create_circular_buffer`.  The array of the returned structure is not
initialised, so any bytes may be in it. -/
def create (garbage : Nat → UInt8) : CircularBuffer where
  buffer := garbage
  freeSlot := 0
  current := 0
  bufFill := 0

/-- `memcpy(c_buf->buffer + offset, source, length)` -/
def memcpyInto (buffer : Nat → UInt8) (offset : Int) (source : Nat → UInt8) (length : Int) :
    Except Memcpy (Nat → UInt8) :=
  if 0 ≤ offset ∧ 0 ≤ length ∧ offset + length ≤ bufSize then
    .ok (blit buffer offset.toNat source length.toNat)
  else .error ⟨offset, length⟩

/-- `memcpy(dest + at, c_buf->buffer + offset, length)` -/
def memcpyFrom (buffer : Nat → UInt8) (offset : Int) (dest : Nat → UInt8) (pos : Int)
    (length : Int) : Except Memcpy (Nat → UInt8) :=
  if 0 ≤ offset ∧ 0 ≤ length ∧ offset + length ≤ bufSize then
    .ok (blit dest pos.toNat (fun i => buffer (offset.toNat + i)) length.toNat)
  else .error ⟨offset, length⟩

/-- `write_circular_buffer(c_buf, source, bytes)` -/
def write (c : CircularBuffer) (source : Nat → UInt8) (bytes : Int) : Except Memcpy Transfer :=
  let writeBytes :=
    if int32 (c.bufFill + bytes) > bufSize then int32 (bufSize - c.bufFill) else bytes
  let aux := c.freeSlot
  let freeSlot := (int32 (c.freeSlot + writeBytes)).tmod bufSize
  let bufFill := int32 (c.bufFill + writeBytes)
  if aux < freeSlot then do
    let buffer ← memcpyInto c.buffer aux source writeBytes
    return ⟨writeBytes, { c with buffer, freeSlot, bufFill }, source, [writeBytes]⟩
  else do
    let firstBytes := int32 (bufSize - aux)
    let secondBytes := int32 (writeBytes - firstBytes)
    let buffer ← memcpyInto c.buffer aux source firstBytes
    let buffer ← memcpyInto buffer 0 (fun i => source (firstBytes.toNat + i)) secondBytes
    return ⟨writeBytes, { c with buffer, freeSlot, bufFill }, source, [firstBytes, secondBytes]⟩

/-- `read_circular_buffer(c_buf, dest, bytes)` -/
def read (c : CircularBuffer) (dest : Nat → UInt8) (bytes : Int) : Except Memcpy Transfer :=
  let readBytes := if c.bufFill < bytes then c.bufFill else bytes
  let aux := c.current
  let current := (int32 (c.current + readBytes)).tmod bufSize
  let bufFill := int32 (c.bufFill - readBytes)
  if aux < current then do
    let dest ← memcpyFrom c.buffer aux dest 0 readBytes
    return ⟨readBytes, { c with current, bufFill }, dest, [readBytes]⟩
  else do
    let firstBytes := int32 (bufSize - aux)
    let secondBytes := int32 (readBytes - firstBytes)
    let dest ← memcpyFrom c.buffer aux dest 0 firstBytes
    let dest ← memcpyFrom c.buffer 0 dest firstBytes secondBytes
    return ⟨readBytes, { c with current, bufFill }, dest, [firstBytes, secondBytes]⟩

/-! ## The queue a buffer stands for -/

/-- The three fields fit together. -/
structure Inv (c : CircularBuffer) : Prop where
  current_nonneg : 0 ≤ c.current
  current_lt : c.current < bufSize
  fill_nonneg : 0 ≤ c.bufFill
  fill_le : c.bufFill ≤ bufSize
  freeSlot_eq : c.freeSlot = (c.current + c.bufFill) % bufSize

/-- The queued bytes, oldest first: `buf_fill` bytes from `current` on. -/
def contents (c : CircularBuffer) : List UInt8 :=
  window c.buffer bufSize c.current.toNat c.bufFill.toNat

theorem length_contents (c : CircularBuffer) : c.contents.length = c.bufFill.toNat := by
  simp [contents]

/-- The bounded byte queue that a buffer with the invariant stands for. -/
def queue (c : CircularBuffer) (h : c.Inv) : BoundedQueue UInt8 bufSize :=
  ⟨c.contents, by have := h.fill_nonneg; have := h.fill_le; rw [length_contents]; omega⟩

theorem Inv.freeSlot_range {c : CircularBuffer} (h : c.Inv) :
    0 ≤ c.freeSlot ∧ c.freeSlot < bufSize := by
  rw [h.freeSlot_eq]
  exact ⟨Int.emod_nonneg _ (by decide), Int.emod_lt_of_pos _ (by decide)⟩

theorem create_inv (garbage : Nat → UInt8) : (create garbage).Inv := by
  constructor <;> simp [create]

/-- The first `n` bytes at an address. -/
def bytesAt (mem : Nat → UInt8) (n : Int) : List UInt8 := (List.range n.toNat).map mem

/-- A write does what `push` does to the byte queue: it appends the first bytes
of the source as far as they fit and returns their number. -/
def WriteRefines (c : CircularBuffer) (source : Nat → UInt8) (n : Int) : Prop :=
  ∃ t, c.write source n = .ok t ∧
    t.count = min n (bufSize - c.bufFill) ∧
    (∃ (h : c.Inv) (h' : t.cbuf.Inv), t.cbuf.queue h' = (c.queue h).push (bytesAt source n)) ∧
    t.cbuf.contents = c.contents ++ bytesAt source t.count ∧
    ∀ l ∈ t.lengths, 0 ≤ l ∧ l ≤ bufSize

/-- A read does what `pull` does to the byte queue, hands the removed bytes over
in order and writes nothing else. -/
def ReadRefines (c : CircularBuffer) (dest : Nat → UInt8) (n : Int) : Prop :=
  ∃ t, c.read dest n = .ok t ∧
    t.count = min n c.bufFill ∧
    (∃ (h : c.Inv) (h' : t.cbuf.Inv), t.cbuf.queue h' = (c.queue h).pull t.count.toNat) ∧
    bytesAt t.mem t.count = c.contents.take t.count.toNat ∧
    (∀ i : Nat, t.count ≤ i → t.mem i = dest i) ∧
    ∀ l ∈ t.lengths, 0 ≤ l ∧ l ≤ bufSize

/-! ## Transfers that move at least one byte -/

/-- A write fits when the buffer is not full and `buf_fill + bytes` is an `int`. -/
def WriteFits (c : CircularBuffer) (n : Int) : Prop :=
  c.bufFill < bufSize ∧ c.bufFill + n < 2 ^ 31

instance (c : CircularBuffer) (n : Int) : Decidable (c.WriteFits n) :=
  inferInstanceAs (Decidable (_ ∧ _))

/-- What a write of `m ≥ 1` bytes that fit does: one circular copy behind the
used bytes. -/
theorem write_eq {c : CircularBuffer} (h : c.Inv) (source : Nat → UInt8) {n : Int}
    (hn : 0 < n) (fits : c.WriteFits n) :
    ∃ ls : List Int, (∀ l ∈ ls, 0 ≤ l ∧ l ≤ bufSize) ∧
      c.write source n = .ok ⟨min n (bufSize - c.bufFill),
        { c with
          buffer := blitRing bufSize c.buffer c.freeSlot.toNat source
            (min n (bufSize - c.bufFill)).toNat
          freeSlot := (c.freeSlot + min n (bufSize - c.bufFill)) % bufSize
          bufFill := c.bufFill + min n (bufSize - c.bufFill) }, source, ls⟩ := by
  obtain ⟨hs0, hs1⟩ := h.freeSlot_range
  obtain ⟨hc0, hc1, hf0, hf1, -⟩ := h
  obtain ⟨hroom, hint⟩ := fits
  have hsize : ((bufSize : Nat) : Int) = 1024 := rfl
  set m : Int := min n (bufSize - c.bufFill) with hm
  have hm0 : 0 < m := by omega
  have hm1 : c.bufFill + m ≤ bufSize := by omega
  have hwrite : (if int32 (c.bufFill + n) > bufSize then int32 (bufSize - c.bufFill) else n) = m := by
    rw [int32_of_range (by omega) (by omega), int32_of_range (by omega) (by omega)]
    split <;> omega
  have hslot : (int32 (c.freeSlot + m)).tmod bufSize = (c.freeSlot + m) % bufSize := by
    rw [int32_of_range (by omega) (by omega), Int.tmod_eq_emod_of_nonneg (by omega)]
  have hfill : int32 (c.bufFill + m) = c.bufFill + m := int32_of_range (by omega) (by omega)
  unfold write
  simp only [hwrite, hslot, hfill]
  split
  next hshort =>
    refine ⟨[m], by simpa using ⟨by omega, by omega⟩, ?_⟩
    have hend : c.freeSlot + m < bufSize := by
      rw [hsize] at hshort
      omega
    rw [memcpyInto, if_pos ⟨hs0, by omega, by omega⟩, blitRing, if_pos (by omega)]
    rfl
  next hlong =>
    have hend : ¬c.freeSlot + m < bufSize := by
      rw [hsize] at hlong
      omega
    have h1 : int32 (bufSize - c.freeSlot) = bufSize - c.freeSlot :=
      int32_of_range (by omega) (by omega)
    have h2 : int32 (m - (bufSize - c.freeSlot)) = m - (bufSize - c.freeSlot) :=
      int32_of_range (by omega) (by omega)
    refine ⟨[bufSize - c.freeSlot, m - (bufSize - c.freeSlot)], ?_, ?_⟩
    · simp only [List.mem_cons, List.not_mem_nil, or_false, forall_eq_or_imp, forall_eq]
      omega
    · have e1 : ((bufSize : Int) - c.freeSlot).toNat = bufSize - c.freeSlot.toNat := by omega
      have e2 : (m - (bufSize - c.freeSlot)).toNat = m.toNat - (bufSize - c.freeSlot.toNat) := by
        omega
      simp only [h1, h2]
      rw [memcpyInto, if_pos ⟨hs0, by omega, by omega⟩, blitRing, if_neg (by omega), e1]
      show (do let buffer ← memcpyInto _ 0 _ _; _) = _
      rw [memcpyInto, if_pos ⟨le_refl _, by omega, by omega⟩, e2]
      rfl

theorem contents_write {c : CircularBuffer} (h : c.Inv) (source : Nat → UInt8) {m : Int}
    (hm : 0 ≤ m) (hroom : c.bufFill + m ≤ bufSize) (d : CircularBuffer)
    (hd : d = { c with
      buffer := blitRing bufSize c.buffer c.freeSlot.toNat source m.toNat
      freeSlot := (c.freeSlot + m) % bufSize
      bufFill := c.bufFill + m }) :
    d.Inv ∧ d.contents = c.contents ++ bytesAt source m := by
  subst hd
  obtain ⟨hc0, hc1, hf0, hf1, hs⟩ := h
  constructor
  · refine ⟨hc0, hc1, by dsimp only; omega, by dsimp only; omega, ?_⟩
    simp only [hs, Int.emod_add_emod]
    congr 1
    omega
  · have hslot : c.freeSlot.toNat = (c.current.toNat + c.bufFill.toNat) % bufSize := by
      rw [hs, Int.toNat_emod (by omega) (by decide), Int.toNat_add hc0 hf0, Int.toNat_natCast]
    simp only [contents, bytesAt, hslot]
    rw [Int.toNat_add hf0 hm]
    exact window_blitRing c.buffer source (by decide) (by omega)

/-- A write that fits does what `push` does. -/
theorem writeRefines_of_fits {c : CircularBuffer} (h : c.Inv) (source : Nat → UInt8) {n : Int}
    (hn : 0 < n) (fits : c.WriteFits n) : c.WriteRefines source n := by
  obtain ⟨ls, hls, heq⟩ := write_eq h source hn fits
  have hf1 := h.fill_le
  have hroom := fits.1
  obtain ⟨hinv, hcont⟩ := contents_write h source (m := min n (bufSize - c.bufFill))
    (by omega) (by omega) _ rfl
  refine ⟨_, heq, rfl, ⟨h, hinv, BoundedQueue.eq_of_items ?_⟩, hcont, hls⟩
  -- `push` cuts the block where the write does
  have htake : bytesAt source (min n (bufSize - c.bufFill)) =
      (bytesAt source n).take (c.queue h).room := by
    have hf0 := h.fill_nonneg
    simp only [bytesAt, BoundedQueue.room, queue, length_contents]
    rw [← List.map_take, List.take_range]
    congr 2
    omega
  rw [BoundedQueue.push_items, ← htake]
  exact hcont

/-- A write to a full buffer has nothing to copy, and the index does not move: the
second `memcpy` is asked for a negative number of bytes. -/
theorem write_full {c : CircularBuffer} (h : c.Inv) (source : Nat → UInt8) {n : Int}
    (hn : 0 < n) (hfull : c.bufFill = bufSize) (hint : c.bufFill + n < 2 ^ 31) :
    c.write source n = .error ⟨0, c.freeSlot - bufSize⟩ := by
  obtain ⟨hs0, hs1⟩ := h.freeSlot_range
  have hsize : ((bufSize : Nat) : Int) = 1024 := rfl
  have hwrite : (if int32 (c.bufFill + n) > bufSize then int32 (bufSize - c.bufFill) else n)
      = 0 := by
    rw [int32_of_range (by omega) (by omega), if_pos (by omega), hfull, Int.sub_self]
    rfl
  have hslot : (int32 (c.freeSlot + 0)).tmod bufSize = c.freeSlot := by
    rw [Int.add_zero, int32_of_range (by omega) (by omega), Int.tmod_eq_of_lt hs0 hs1]
  have h1 : int32 (bufSize - c.freeSlot) = bufSize - c.freeSlot :=
    int32_of_range (by omega) (by omega)
  have h2 : int32 (0 - (bufSize - c.freeSlot)) = c.freeSlot - bufSize := by
    rw [int32_of_range (by omega) (by omega)]
    omega
  simp only [write, hwrite, hslot, lt_irrefl, if_false, h1, h2]
  rw [memcpyInto, if_pos ⟨hs0, by omega, by omega⟩]
  change (do let buffer ← memcpyInto _ 0 _ (c.freeSlot - bufSize); _) = _
  rw [memcpyInto, if_neg (by omega)]
  rfl

theorem memcpyInto_ok {buffer buffer' source : Nat → UInt8} {offset length : Int}
    (h : memcpyInto buffer offset source length = .ok buffer') :
    0 ≤ offset ∧ 0 ≤ length ∧ offset + length ≤ bufSize := by
  unfold memcpyInto at h
  split at h
  next hin => exact hin
  next => cases h

/-- A write that returns is one that fits.  If the sum overflows, the request is
not cut and runs over the end of the array. -/
theorem fits_of_write {c : CircularBuffer} (h : c.Inv) {source : Nat → UInt8} {n : Int}
    (hn : 0 < n) (hint : n < 2 ^ 31) {t : Transfer} (ht : c.write source n = .ok t) :
    c.WriteFits n := by
  obtain ⟨hs0, hs1⟩ := h.freeSlot_range
  have hsize : ((bufSize : Nat) : Int) = 1024 := rfl
  have hf0 := h.fill_nonneg
  have hf1 := h.fill_le
  by_contra fits
  by_cases hover : c.bufFill + n < 2 ^ 31
  · have hfull : c.bufFill = bufSize := by
      unfold WriteFits at fits
      omega
    rw [write_full h source hn hfull hover] at ht
    cases ht
  · have hwrap : int32 (c.bufFill + n) = c.bufFill + n - 2 ^ 32 := by
      rw [int32, Int.bmod_def]
      split <;> omega
    have hwrite : (if int32 (c.bufFill + n) > bufSize then int32 (bufSize - c.bufFill) else n)
        = n := by
      rw [hwrap, if_neg (by omega)]
    simp only [write, hwrite] at ht
    split at ht
    next =>
      obtain ⟨buffer, hcopy, -⟩ := Except.bind_eq_ok ht
      have := memcpyInto_ok hcopy
      omega
    next =>
      obtain ⟨buffer, -, he⟩ := Except.bind_eq_ok ht
      obtain ⟨buffer', hcopy, -⟩ := Except.bind_eq_ok he
      have hin := memcpyInto_ok hcopy
      rw [int32_of_range (x := bufSize - c.freeSlot) (by omega) (by omega),
        int32_of_range (by omega) (by omega)] at hin
      omega

/-- A write to a full buffer, or one whose sum overflows, hands `memcpy` a length
that is not between 0 and `BUF_SIZE`. -/
theorem not_writeRefines {c : CircularBuffer} (h : c.Inv) (source : Nat → UInt8) {n : Int}
    (hn : 0 < n) (hint : n < 2 ^ 31) (fits : ¬c.WriteFits n) : ¬c.WriteRefines source n := by
  rintro ⟨t, ht, -⟩
  exact fits (fits_of_write h hn hint ht)

/-- What a read of `m ≥ 1` bytes does: one circular copy out of the used bytes. -/
theorem read_eq {c : CircularBuffer} (h : c.Inv) (dest : Nat → UInt8) {n : Int}
    (hn : 0 < n) (hfill : 0 < c.bufFill) :
    ∃ ls : List Int, (∀ l ∈ ls, 0 ≤ l ∧ l ≤ bufSize) ∧
      c.read dest n = .ok ⟨min n c.bufFill,
        { c with
          current := (c.current + min n c.bufFill) % bufSize
          bufFill := c.bufFill - min n c.bufFill },
        blitOut bufSize dest c.buffer c.current.toNat (min n c.bufFill).toNat, ls⟩ := by
  obtain ⟨hc0, hc1, hf0, hf1, -⟩ := h
  have hsize : ((bufSize : Nat) : Int) = 1024 := rfl
  set m : Int := min n c.bufFill with hm
  have hread : (if c.bufFill < n then c.bufFill else n) = m := by split <;> omega
  have hcur : (int32 (c.current + m)).tmod bufSize = (c.current + m) % bufSize := by
    rw [int32_of_range (by omega) (by omega), Int.tmod_eq_emod_of_nonneg (by omega)]
  have hleft : int32 (c.bufFill - m) = c.bufFill - m := int32_of_range (by omega) (by omega)
  unfold read
  simp only [hread, hcur, hleft]
  split
  next hshort =>
    refine ⟨[m], by simpa using ⟨by omega, by omega⟩, ?_⟩
    have hend : c.current + m < bufSize := by
      rw [hsize] at hshort
      omega
    rw [memcpyFrom, if_pos ⟨hc0, by omega, by omega⟩, blitOut, if_pos (by omega)]
    rfl
  next hlong =>
    have hend : ¬c.current + m < bufSize := by
      rw [hsize] at hlong
      omega
    have h1 : int32 (bufSize - c.current) = bufSize - c.current :=
      int32_of_range (by omega) (by omega)
    have h2 : int32 (m - (bufSize - c.current)) = m - (bufSize - c.current) :=
      int32_of_range (by omega) (by omega)
    refine ⟨[bufSize - c.current, m - (bufSize - c.current)], ?_, ?_⟩
    · simp only [List.mem_cons, List.not_mem_nil, or_false, forall_eq_or_imp, forall_eq]
      omega
    · have e1 : ((bufSize : Int) - c.current).toNat = bufSize - c.current.toNat := by omega
      have e2 : (m - (bufSize - c.current)).toNat = m.toNat - (bufSize - c.current.toNat) := by
        omega
      simp only [h1, h2]
      rw [memcpyFrom, if_pos ⟨hc0, by omega, by omega⟩, blitOut, if_neg (by omega), e1]
      change (do let dest ← memcpyFrom _ 0 _ _ _; _) = _
      rw [memcpyFrom, if_pos ⟨le_refl _, by omega, by omega⟩, e1, e2]
      simp only [Int.toNat_zero, Nat.zero_add]
      rfl

/-- A read from a buffer that holds a byte does what `pull` does. -/
theorem readRefines {c : CircularBuffer} (h : c.Inv) (dest : Nat → UInt8) {n : Int}
    (hn : 0 < n) (hfill : 0 < c.bufFill) : c.ReadRefines dest n := by
  obtain ⟨ls, hls, heq⟩ := read_eq h dest hn hfill
  have hcopy := h
  obtain ⟨hc0, hc1, hf0, hf1, hs⟩ := hcopy
  have hsize : ((bufSize : Nat) : Int) = 1024 := rfl
  set m : Int := min n c.bufFill with hm
  have hm0 : 0 ≤ m := by omega
  have hinv : CircularBuffer.Inv { c with
      current := (c.current + m) % bufSize
      bufFill := c.bufFill - m } := by
    refine ⟨Int.emod_nonneg _ (by decide), Int.emod_lt_of_pos _ (by decide), by dsimp only; omega,
      by dsimp only; omega, ?_⟩
    simp only [hs, Int.emod_add_emod]
    congr 1
    omega
  refine ⟨_, heq, rfl, ⟨h, hinv, BoundedQueue.eq_of_items ?_⟩, ?_, ?_, hls⟩
  · simp only [queue, contents, BoundedQueue.pull_items]
    rw [window_drop _ (by omega)]
    congr 1
    · rw [Int.toNat_emod (by omega) (by decide), Int.toNat_add hc0 hm0, Int.toNat_natCast]
    · omega
  · simp only [bytesAt, contents]
    rw [window_take _ (by omega)]
    exact blitOut_eq_window dest c.buffer (by omega) (by omega)
  · intro i hi
    exact blitOut_outside dest c.buffer (by dsimp only at hi; omega)

/-! ## The fields after a transfer -/

/-- What callers use of a write that fits. -/
theorem write_spec {c : CircularBuffer} (h : c.Inv) (source : Nat → UInt8) {n : Int}
    (hn : 0 < n) (fits : c.WriteFits n) :
    ∃ t, c.write source n = .ok t ∧ t.cbuf.Inv ∧ t.count = min n (bufSize - c.bufFill) ∧
      t.cbuf.bufFill = c.bufFill + t.count ∧
      t.cbuf.contents = c.contents ++ bytesAt source t.count := by
  obtain ⟨t, ht, hcount, ⟨-, hinv, -⟩, hcont, -⟩ := writeRefines_of_fits h source hn fits
  refine ⟨t, ht, hinv, hcount, ?_, hcont⟩
  have hlen := congrArg List.length hcont
  simp only [length_contents, List.length_append, bytesAt, List.length_map,
    List.length_range] at hlen
  have hroom := fits.1
  have := h.fill_nonneg
  have := hinv.fill_nonneg
  omega

/-- What callers use of a read of at least one byte. -/
theorem read_spec {c : CircularBuffer} (h : c.Inv) (dest : Nat → UInt8) {n : Int}
    (hn : 0 < n) (hfill : 0 < c.bufFill) :
    ∃ t, c.read dest n = .ok t ∧ t.cbuf.Inv ∧ t.count = min n c.bufFill ∧
      t.cbuf.bufFill = c.bufFill - t.count ∧
      bytesAt t.mem t.count = c.contents.take t.count.toNat ∧
      t.cbuf.contents = c.contents.drop t.count.toNat := by
  obtain ⟨t, ht, hcount, ⟨_, hinv, hqueue⟩, htaken, -, -⟩ := readRefines h dest hn hfill
  have hcont : t.cbuf.contents = c.contents.drop t.count.toNat :=
    congrArg BoundedQueue.items hqueue
  refine ⟨t, ht, hinv, hcount, ?_, htaken, hcont⟩
  have hlen := congrArg List.length hcont
  simp only [length_contents, List.length_drop] at hlen
  have := hinv.fill_nonneg
  omega

/-! ## Runs -/

/-- The calls made on the buffer of one fifo. -/
inductive Op where
  | write (source : Nat → UInt8) (n : Int)
  | read (dest : Nat → UInt8) (n : Int)

/-- The buffer of one fifo under the calls its callers can make: a positive
`int` of bytes, and a read only while `buf_fill > 0` (`try_read`). -/
def system : System CircularBuffer Op where
  init c := ∃ garbage, c = create garbage
  next
    | c, .write source n =>
        if 0 < n ∧ n < 2 ^ 31 then
          match c.write source n with
          | .ok t => some t.cbuf
          | .error _ => none
        else none
    | c, .read dest n =>
        if 0 < n ∧ n < 2 ^ 31 ∧ 0 < c.bufFill then
          match c.read dest n with
          | .ok t => some t.cbuf
          | .error _ => none
        else none

/-- Every write finds a buffer it fits in. -/
def WritesFit (c : CircularBuffer) : Op → Prop
  | .write _ n => c.WriteFits n
  | .read _ _ => True

/-- One step keeps the fields together. -/
theorem inv_next {c d : CircularBuffer} {op : Op} (h : c.Inv) (fits : c.WritesFit op)
    (hn : system.next c op = some d) : d.Inv := by
  cases op with
  | write source n =>
      simp only [system] at hn
      split at hn
      next hpos =>
        obtain ⟨t, ht, -, ⟨-, hinv, -⟩, -⟩ := writeRefines_of_fits h source hpos.1 fits
        rw [ht] at hn
        cases hn
        exact hinv
      next => cases hn
  | read dest n =>
      simp only [system] at hn
      split at hn
      next hpos =>
        obtain ⟨t, ht, -, ⟨-, hinv, -⟩, -⟩ := readRefines h dest hpos.1 hpos.2.2
        rw [ht] at hn
        cases hn
        exact hinv
      next => cases hn

theorem reachBy_inv {c : CircularBuffer} (h : system.ReachBy WritesFit c) : c.Inv :=
  h.invariant (by rintro _ ⟨garbage, rfl⟩; exact create_inv garbage)
    fun _ _ _ hi hg hn => inv_next hi hg hn

/-- In every run whose writes fit, the buffer is a byte queue of capacity
`BUF_SIZE`: the fields fit together, every read does what `pull` does, and a
write does what `push` does exactly when it fits. -/
theorem buffer_refines_queue {c : CircularBuffer} (h : system.ReachBy WritesFit c) :
    c.Inv ∧
    (∀ source n, 0 < n → n < 2 ^ 31 → (c.WriteRefines source n ↔ c.WriteFits n)) ∧
    (∀ dest n, 0 < n → n < 2 ^ 31 → 0 < c.bufFill → c.ReadRefines dest n) := by
  have hinv := reachBy_inv h
  refine ⟨hinv, fun source n hn hint => ?_, fun dest n hn _ hfill => readRefines hinv dest hn hfill⟩
  constructor
  · intro hw
    by_contra hfits
    exact not_writeRefines hinv source hn hint hfits hw
  · exact writeRefines_of_fits hinv source hn

/-- The buffer after one write of `BUF_SIZE` bytes. -/
def filled : CircularBuffer where
  buffer := blitRing bufSize (fun _ => 0) 0 (fun i => i.toUInt8) bufSize
  freeSlot := 0
  current := 0
  bufFill := bufSize

theorem next_filled :
    system.next (create fun _ => 0) (.write (fun i => i.toUInt8) bufSize) = some filled := rfl

/-- The full buffer is reached by writes that fit, and a read of it is in order. -/
theorem buffer_refines_queue_filled :
    filled.Inv ∧
    (∀ source n, 0 < n → n < 2 ^ 31 → (filled.WriteRefines source n ↔ filled.WriteFits n)) ∧
    (∀ dest n, 0 < n → n < 2 ^ 31 → 0 < filled.bufFill → filled.ReadRefines dest n) :=
  buffer_refines_queue (.step (.init ⟨fun _ => 0, rfl⟩) (by unfold WritesFit; decide) next_filled)

/-- One byte more for the full buffer: 1024 bytes are copied over the queued
ones, and then `memcpy` is asked for -1024 bytes. -/
theorem write_filled (source : Nat → UInt8) : filled.write source 1 = .error ⟨0, -1024⟩ := rfl

/-- Without the guard on writes the buffer is no byte queue. -/
theorem full_write_breaks_queue :
    ¬∀ c, system.Reach c →
      c.Inv ∧
      (∀ source n, 0 < n → n < 2 ^ 31 → c.WriteRefines source n) ∧
      (∀ dest n, 0 < n → n < 2 ^ 31 → 0 < c.bufFill → c.ReadRefines dest n) := by
  intro claim
  have hstart : system.Reach (create fun _ => 0) := .start ⟨_, rfl⟩
  have hreach : system.Reach filled := hstart.next next_filled
  obtain ⟨t, ht, -⟩ := (claim filled hreach).2.1 (fun _ => 7) 1 (by decide) (by decide)
  rw [write_filled] at ht
  cases ht

end CircularBuffer

end TPE
