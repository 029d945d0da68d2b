import TPE.Library.WriteLog

/-!
# Copying memory

`memcpy` copies words if both addresses and the length are multiples of four, and bytes else.
Both loops go forwards, so a copy to lower addresses may overlap with its source: a round
overwrites nothing that a later round reads.

Addresses are numbers, and the regions do not wrap around at the end of the memory.
-/

namespace TPE

open Function ByteMemory

namespace WriteLog

/-! ## The code -/

/-- `d[i] = s[i]` for arrays of elements of `size` bytes. -/
def copyElement (size dst src i : Nat) (m : WriteLog) : WriteLog :=
  m.writeAll (dst + size * i) ((List.range size).map fun j => m.bytes (src + size * i + j))

/-- A loop of `memcpy`, from index `i` on. -/
def copyLoop (size dst src : Nat) : Nat → Nat → WriteLog → WriteLog
  | 0, _, m => m
  | rounds + 1, i, m => copyLoop size dst src rounds (i + 1) (copyElement size dst src i m)

/-- `memcpy` of `lib.c` -/
def memcpy (destination source length : Nat) (m : WriteLog) : WriteLog :=
  if destination % 4 = 0 ∧ source % 4 = 0 ∧ length % 4 = 0 then
    copyLoop 4 destination source (length / 4) 0 m
  else copyLoop 1 destination source length 0 m

/-! ## The loops -/

/-- The two regions of `n` bytes have no byte in common, or the copy goes down. -/
def Copyable (dst src n : Nat) : Prop :=
  (∀ i < n, ∀ j < n, dst + i ≠ src + j) ∨ dst ≤ src

/-- An element is copied. -/
theorem bytes_copyElement (size dst src i : Nat) (m : WriteLog) :
    (copyElement size dst src i m).bytes =
      move m.bytes (dst + size * i) (src + size * i) size := by
  have hputs := puts_writeAll m (dst + size * i)
    ((List.range size).map fun j => m.bytes (src + size * i + j))
  rw [← copyElement] at hputs
  funext a
  by_cases hin : dst + size * i ≤ a ∧ a < dst + size * i + size
  · obtain ⟨j, rfl⟩ := Nat.exists_eq_add_of_le hin.1
    have hj : j < size := by omega
    rw [hputs.bytes j (by simpa using hj), move_inside hj]
    simp
  · rw [hputs.outside a (by simp; omega), move_outside (by omega)]

/-- Regions without a common byte stand one behind the other. -/
theorem Copyable.apart {dst src n : Nat} (h : Copyable dst src n) :
    dst ≤ src ∨ src + n ≤ dst := by
  rcases h with hdisjoint | hle
  · by_cases hlt : src < dst ∧ dst < src + n
    · exact absurd (show dst + 0 = src + (dst - src) by omega)
        (hdisjoint 0 (by omega) (dst - src) (by omega))
    · omega
  · exact .inl hle

/-- Round `i` overwrites nothing that the later rounds read. -/
theorem bytes_copyLoop {dst src size rounds i : Nat}
    (h : dst ≤ src ∨ src + size * (i + rounds) ≤ dst) (m : WriteLog) :
    (copyLoop size dst src rounds i m).bytes =
      move m.bytes (dst + size * i) (src + size * i) (size * rounds) := by
  induction rounds generalizing i m with
  | zero =>
      funext a
      rw [copyLoop, Nat.mul_zero, move_outside (by omega)]
  | succ rounds ih =>
      have hnext : ∀ a, a + size * (i + 1) = a + size * i + size := fun a => by
        rw [Nat.mul_succ, Nat.add_assoc]
      have hend : size * (i + (rounds + 1)) = size * i + size + size * rounds := by
        rw [Nat.mul_add, Nat.mul_succ]
        omega
      have hrest : dst ≤ src ∨ src + size * (i + 1 + rounds) ≤ dst := by
        rwa [Nat.add_assoc, Nat.add_comm 1]
      rw [copyLoop, ih hrest, bytes_copyElement, hnext dst, hnext src, move_move, Nat.mul_succ,
        Nat.add_comm (size * rounds)]
      intro b hb
      omega

/-- A loop over all elements copies the region. -/
theorem bytes_copyLoop_all {dst src size rounds length : Nat} (h : Copyable dst src length)
    (hlength : size * rounds = length) (m : WriteLog) :
    (copyLoop size dst src rounds 0 m).bytes = move m.bytes dst src length := by
  have hapart := h.apart
  rw [bytes_copyLoop (by rwa [Nat.zero_add, hlength]), hlength, Nat.mul_zero, Nat.add_zero,
    Nat.add_zero]

/-! ## The call -/

/-- By words or by bytes, `length` bytes are copied. -/
theorem bytes_memcpy {dst src length : Nat} (h : Copyable dst src length) (m : WriteLog) :
    (memcpy dst src length m).bytes = move m.bytes dst src length := by
  unfold memcpy
  split
  next haligned => exact bytes_copyLoop_all h (by omega) m
  next => exact bytes_copyLoop_all h (Nat.one_mul length) m

/-- The destination gets the old bytes of the source and nothing else changes.  So do the loop
over the words, for a length that is a multiple of four, and the loop over the bytes. -/
theorem memcpy_copies (destination source length : Nat) (m : WriteLog)
    (h : Copyable destination source length) :
    let m' := m.memcpy destination source length
    (∀ i < length, m'.bytes (destination + i) = m.bytes (source + i)) ∧
      (∀ b, b < destination ∨ destination + length ≤ b → m'.bytes b = m.bytes b) ∧
      (copyLoop 1 destination source length 0 m).bytes = m'.bytes ∧
      (length % 4 = 0 →
        (copyLoop 4 destination source (length / 4) 0 m).bytes = m'.bytes) := by
  intro m'
  have hmove : m'.bytes = move m.bytes destination source length := bytes_memcpy h m
  refine ⟨fun i hi => ?_, fun b hb => ?_, ?_, fun hwords => ?_⟩
  · rw [hmove, move_inside hi]
  · rw [hmove, move_outside hb]
  · rw [hmove, bytes_copyLoop_all h (Nat.one_mul length)]
  · rw [hmove, bytes_copyLoop_all h (by omega)]

/-- Eight bytes move down by four, as words. -/
theorem memcpy_copies_overlap :
    (∀ i < 8, (memcpy 8 12 8 ⟨UInt8.ofNat, []⟩).bytes (8 + i) = UInt8.ofNat (12 + i)) ∧
      (∀ b, b < 8 ∨ 8 + 8 ≤ b → (memcpy 8 12 8 ⟨UInt8.ofNat, []⟩).bytes b = UInt8.ofNat b) ∧
      (copyLoop 1 8 12 8 0 ⟨UInt8.ofNat, []⟩).bytes = (memcpy 8 12 8 ⟨UInt8.ofNat, []⟩).bytes ∧
      (8 % 4 = 0 → (copyLoop 4 8 12 (8 / 4) 0 ⟨UInt8.ofNat, []⟩).bytes =
        (memcpy 8 12 8 ⟨UInt8.ofNat, []⟩).bytes) :=
  memcpy_copies 8 12 8 ⟨UInt8.ofNat, []⟩ (.inr (by decide))

end WriteLog

end TPE
