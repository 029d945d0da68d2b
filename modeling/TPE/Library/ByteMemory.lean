import Mathlib.Data.List.TakeWhile
import TPE.Library.RingBuffer

/-!
# Bytes in a memory

A memory maps addresses to bytes.  A number is stored with its lowest byte
first, and a string ends in the byte 0.

A *vector* of strings is an array of addresses that ends in the address 0.
`VectorAt` describes one whose strings stand one behind the other, as they do
after a string was split in place.  Array and strings may be far apart: a copy
of the array still leads to the strings it was copied from.
-/

namespace TPE

namespace ByteMemory

open RingBuffer

variable {mem mem' : Nat → UInt8} {a a' b n v : Nat}

/-! ## Numbers -/

/-- The number in the `n` bytes at `a`. -/
def load (mem : Nat → UInt8) (a : Nat) : Nat → Nat
  | 0 => 0
  | n + 1 => (mem a).toNat + 256 * load mem (a + 1) n

/-- Write a number into the `n` bytes at `a`. -/
def store (mem : Nat → UInt8) (a v n : Nat) : Nat → UInt8 :=
  blit mem a (fun i => UInt8.ofNat (v / 256 ^ i)) n

/-- Copy `n` bytes. -/
def move (mem : Nat → UInt8) (dst src n : Nat) : Nat → UInt8 :=
  blit mem dst (fun i => mem (src + i)) n

theorem load_congr (h : ∀ i < n, mem' (a' + i) = mem (a + i)) : load mem' a' n = load mem a n := by
  induction n generalizing a a' with
  | zero => rfl
  | succ n ih =>
      have hfirst : mem' a' = mem a := h 0 (Nat.succ_pos n)
      have hrest : load mem' (a' + 1) n = load mem (a + 1) n := by
        apply ih
        intro i hi
        have := h (i + 1) (by omega)
        rwa [Nat.add_right_comm a' 1 i, Nat.add_right_comm a 1 i]
      simp [load, hfirst, hrest]

theorem load_of_bytes (h : ∀ i < n, mem (a + i) = UInt8.ofNat (v / 256 ^ i)) :
    load mem a n = v % 256 ^ n := by
  induction n generalizing a v with
  | zero => simp [load, Nat.mod_one]
  | succ n ih =>
      have hfirst : mem a = UInt8.ofNat v := by simpa using h 0 (Nat.succ_pos n)
      have hrest : load mem (a + 1) n = v / 256 % 256 ^ n := by
        apply ih
        intro i hi
        have hbyte := h (i + 1) (by omega)
        rwa [Nat.add_right_comm a 1 i, Nat.div_div_eq_div_mul, ← Nat.pow_succ']
      rw [load, hfirst, hrest, Nat.pow_succ', Nat.mod_mul]
      simp

theorem store_outside (h : b < a ∨ a + n ≤ b) : store mem a v n b = mem b :=
  blit_outside (by omega)

/-- What is stored is loaded. -/
theorem load_store (hv : v < 256 ^ n) : load (store mem a v n) a n = v := by
  rw [load_of_bytes (v := v), Nat.mod_eq_of_lt hv]
  intro i hi
  rw [store, blit_inside (by omega), Nat.add_sub_cancel_left]

/-- The bytes of the number that was loaded. -/
theorem load_byte {i : Nat} (hi : i < n) : UInt8.ofNat (load mem a n / 256 ^ i) = mem (a + i) := by
  induction n generalizing a i with
  | zero => exact absurd hi (Nat.not_lt_zero _)
  | succ n ih =>
      have hlow := (mem a).toNat_lt
      cases i with
      | zero =>
          refine UInt8.toNat_inj.mp ?_
          rw [UInt8.toNat_ofNat', load, Nat.pow_zero, Nat.div_one]
          change _ = (mem a).toNat
          omega
      | succ i =>
          have hdiv : load mem a (n + 1) / 256 = load mem (a + 1) n := by
            rw [load]
            omega
          rw [Nat.pow_succ', ← Nat.div_div_eq_div_mul, hdiv, ih (Nat.lt_of_succ_lt_succ hi)]
          congr 1
          omega

theorem move_inside {dst src i : Nat} (hi : i < n) : move mem dst src n (dst + i) = mem (src + i) := by
  rw [move, blit_inside (by omega), Nat.add_sub_cancel_left]

theorem move_outside {dst src : Nat} (h : b < dst ∨ dst + n ≤ b) : move mem dst src n b = mem b :=
  blit_outside (by omega)

/-- A number that is loaded and stored is copied. -/
theorem store_load {dst src : Nat} : store mem dst (load mem src n) n = move mem dst src n := by
  funext j
  by_cases hj : dst ≤ j ∧ j < dst + n
  · rw [store, move, blit_inside hj, blit_inside hj, load_byte (by omega)]
  · rw [store, move, blit_outside hj, blit_outside hj]

/-- Two copies in a row, when the first one spares the source of the second one. -/
theorem move_move {dst src m : Nat}
    (h : ∀ i < n, ¬(dst ≤ src + m + i ∧ src + m + i < dst + m)) :
    move (move mem dst src m) (dst + m) (src + m) n = move mem dst src (m + n) := by
  funext j
  by_cases hfirst : dst ≤ j ∧ j < dst + m
  · rw [move_outside (by omega), move, move, blit_inside hfirst, blit_inside (by omega)]
  · by_cases hj : dst + m ≤ j ∧ j < dst + m + n
    · rw [move, blit_inside hj, move, blit_outside (h _ (by omega)), move, blit_inside (by omega)]
      congr 1
      omega
    · rw [move_outside (by omega), move_outside (by omega), move_outside (by omega)]

/-! ## Strings -/

/-- The bytes of `s` stand at `a`. -/
def BytesAt (mem : Nat → UInt8) (a : Nat) (s : List UInt8) : Prop :=
  ∀ i, (h : i < s.length) → mem (a + i) = s[i]

/-- The string `s` stands at `a`. -/
def StringAt (mem : Nat → UInt8) (a : Nat) (s : List UInt8) : Prop :=
  BytesAt mem a s ∧ mem (a + s.length) = 0

variable {s : List UInt8}

theorem BytesAt.congr (h : BytesAt mem a s) (he : ∀ i < s.length, mem' (a + i) = mem (a + i)) :
    BytesAt mem' a s :=
  fun i hi => (he i hi).trans (h i hi)

theorem bytesAt_nil : BytesAt mem a [] := fun _ hi => absurd hi (Nat.not_lt_zero _)

theorem bytesAt_singleton {c : UInt8} : BytesAt mem a [c] ↔ mem a = c := by
  constructor
  · intro h
    exact h 0 Nat.one_pos
  · intro h i hi
    obtain rfl : i = 0 := Nat.lt_one_iff.mp hi
    exact h

/-- Strings of one length at one place are equal. -/
theorem BytesAt.unique {t : List UInt8} (h : BytesAt mem a s) (h' : BytesAt mem a t)
    (hlen : s.length = t.length) : s = t :=
  List.ext_getElem hlen fun i hs ht => (h i hs).symm.trans (h' i ht)

/-- One string behind the other. -/
theorem bytesAt_append {t : List UInt8} :
    BytesAt mem a (s ++ t) ↔ BytesAt mem a s ∧ BytesAt mem (a + s.length) t := by
  constructor
  · intro h
    refine ⟨fun i hi => ?_, fun i hi => ?_⟩
    · rw [h i (by rw [List.length_append]; omega), List.getElem_append_left hi]
    · rw [Nat.add_assoc, h (s.length + i) (by rw [List.length_append]; omega),
        List.getElem_append_right (Nat.le_add_right _ _)]
      simp
  · rintro ⟨hs, ht⟩ i hi
    by_cases hlt : i < s.length
    · rw [List.getElem_append_left hlt]
      exact hs i hlt
    · rw [List.getElem_append_right (Nat.not_lt.mp hlt)]
      rw [List.length_append] at hi
      have hbyte := ht (i - s.length) (by omega)
      rwa [Nat.add_assoc, Nat.add_sub_cancel' (Nat.not_lt.mp hlt)] at hbyte

/-- One byte more. -/
theorem BytesAt.snoc (h : BytesAt mem a s) {c : UInt8} (hc : mem (a + s.length) = c) :
    BytesAt mem a (s ++ [c]) := by
  intro i hi
  simp only [List.length_append, List.length_singleton] at hi
  by_cases hlast : i = s.length
  · subst hlast
    simp [hc]
  · rw [List.getElem_append_left (by omega)]
    exact h i (by omega)

theorem StringAt.congr (h : StringAt mem a s) (he : ∀ i ≤ s.length, mem' (a + i) = mem (a + i)) :
    StringAt mem' a s :=
  ⟨h.1.congr fun i hi => he i hi.le, (he _ le_rfl).trans h.2⟩

/-- The byte behind the first part of a string. -/
theorem StringAt.headD {t : List UInt8} (h : StringAt mem a (s ++ t)) :
    mem (a + s.length) = t.headD 0 := by
  cases t with
  | nil =>
      have hend := h.2
      rwa [List.append_nil] at hend
  | cons c t => exact (bytesAt_append.mp h.1).2 0 (Nat.succ_pos _)

/-- A string from one of its bytes on. -/
theorem StringAt.drop {t : List UInt8} (h : StringAt mem a (s ++ t)) :
    StringAt mem (a + s.length) t := by
  refine ⟨(bytesAt_append.mp h.1).2, ?_⟩
  rw [Nat.add_assoc, ← List.length_append]
  exact h.2

/-- The first byte of a string, and the string behind it. -/
theorem StringAt.cons {c : UInt8} (h : StringAt mem a (c :: s)) :
    mem a = c ∧ StringAt mem (a + 1) s :=
  ⟨h.1 0 (Nat.succ_pos _), StringAt.drop (s := [c]) h⟩

/-- Two memories with the same string agree on its bytes. -/
theorem StringAt.unique (h : StringAt mem a s) (h' : StringAt mem' a s) {i : Nat}
    (hi : i ≤ s.length) : mem' (a + i) = mem (a + i) := by
  rcases Nat.lt_or_eq_of_le hi with hlt | rfl
  · rw [h.1 i hlt, h'.1 i hlt]
  · rw [h.2, h'.2]

/-- The string at `a`, as far as it is in the `n` bytes from there on. -/
def readString (mem : Nat → UInt8) (a : Nat) : Nat → List UInt8
  | 0 => []
  | n + 1 => if mem a = 0 then [] else mem a :: readString mem (a + 1) n

theorem readString_congr (h : ∀ i < n, mem' (a + i) = mem (a + i)) :
    readString mem' a n = readString mem a n := by
  induction n generalizing a with
  | zero => rfl
  | succ n ih =>
      have hfirst : mem' a = mem a := h 0 (Nat.succ_pos n)
      rw [readString, readString, hfirst, ih fun i hi => ?_]
      have hbyte := h (i + 1) (Nat.succ_lt_succ hi)
      rwa [Nat.add_comm i, ← Nat.add_assoc] at hbyte

/-- A string is read from its bytes and its terminator. -/
theorem readString_congr_length
    (h : ∀ i ≤ (readString mem a n).length, mem' (a + i) = mem (a + i)) :
    readString mem' a n = readString mem a n := by
  induction n generalizing a with
  | zero => rfl
  | succ n ih =>
      have hfirst : mem' a = mem a := h 0 (Nat.zero_le _)
      rw [readString, hfirst]
      rw [readString] at h ⊢
      by_cases hzero : mem a = 0
      · rw [if_pos hzero, if_pos hzero]
      · rw [if_neg hzero, List.length_cons] at h
        rw [if_neg hzero, if_neg hzero, ih fun i hi => ?_]
        have hbyte := h (i + 1) (Nat.succ_le_succ hi)
        rwa [Nat.add_comm i, ← Nat.add_assoc] at hbyte

theorem zero_notMem_readString (mem : Nat → UInt8) (a n : Nat) :
    (0 : UInt8) ∉ readString mem a n := by
  induction n generalizing a with
  | zero => exact List.not_mem_nil
  | succ n ih =>
      rw [readString]
      split
      · exact List.not_mem_nil
      next hne =>
        rw [List.mem_cons, not_or]
        exact ⟨fun he => hne he.symm, ih (a + 1)⟩

/-- A string ends at the first 0. -/
theorem StringAt.readString (h : StringAt mem a s) (hn : s.length < n) :
    readString mem a n = s.takeWhile (· ≠ 0) := by
  induction s generalizing a n with
  | nil =>
      obtain ⟨m, rfl⟩ := Nat.exists_eq_succ_of_ne_zero (Nat.ne_of_gt hn)
      have hend : mem a = 0 := h.2
      rw [ByteMemory.readString, if_pos hend]
      rfl
  | cons c s ih =>
      obtain ⟨m, rfl⟩ := Nat.exists_eq_succ_of_ne_zero (Nat.ne_of_gt (Nat.zero_lt_of_lt hn))
      have hfirst : mem a = c := h.1 0 (Nat.succ_pos _)
      have hrest : StringAt mem (a + 1) s := by
        refine ⟨fun i hi => ?_, ?_⟩
        · have hbyte := h.1 (i + 1) (Nat.succ_lt_succ hi)
          rwa [← Nat.add_assoc, Nat.add_right_comm] at hbyte
        · rw [Nat.add_assoc, Nat.add_comm 1]
          exact h.2
      rw [ByteMemory.readString, hfirst, List.takeWhile_cons]
      by_cases hc : c = 0
      · simp [hc]
      · rw [if_neg hc, ih hrest (Nat.lt_of_succ_lt_succ hn)]
        simp [hc]

theorem takeWhile_ne_zero_iff : s.takeWhile (· ≠ 0) = s ↔ 0 ∉ s := by
  rw [List.takeWhile_eq_self_iff]
  constructor
  · intro h hm
    simpa using h 0 hm
  · intro h c hc
    refine decide_eq_true ?_
    rintro rfl
    exact h hc

/-- A string without a 0 in it is read as it is. -/
theorem StringAt.readString_eq (h : StringAt mem a s) (hzero : 0 ∉ s) (hn : s.length < n) :
    ByteMemory.readString mem a n = s :=
  (h.readString hn).trans (takeWhile_ne_zero_iff.mpr hzero)

/-! ## Vectors of strings -/

/-- The bytes that the strings take, with their terminators. -/
def span (ss : List (List UInt8)) : Nat := (ss.map fun s => s.length + 1).sum

@[simp] theorem span_nil : span [] = 0 := rfl

@[simp] theorem span_cons (s : List UInt8) (ss : List (List UInt8)) :
    span (s :: ss) = s.length + 1 + span ss := by
  simp [span]

/-- The addresses of the strings `ss`, which stand from `first` on, are in the
array at `vec`, with a 0 at the end. -/
def VectorAt (mem : Nat → UInt8) : Nat → Nat → List (List UInt8) → Prop
  | vec, _, [] => load mem vec 8 = 0
  | vec, first, s :: ss =>
      load mem vec 8 = first ∧ StringAt mem first s ∧
        VectorAt mem (vec + 8) (first + s.length + 1) ss

variable {ss : List (List UInt8)} {vec vec' first : Nat}

/-- The array may be copied, the strings may not. -/
theorem VectorAt.congr (h : VectorAt mem vec first ss)
    (hvec : ∀ i < 8 * (ss.length + 1), mem' (vec' + i) = mem (vec + i))
    (hstr : ∀ i < span ss, mem' (first + i) = mem (first + i)) : VectorAt mem' vec' first ss := by
  induction ss generalizing vec vec' first with
  | nil => exact (load_congr fun i hi => hvec i (by simpa using hi)).trans h
  | cons s ss ih =>
      obtain ⟨hptr, hs, hrest⟩ := h
      simp only [List.length_cons, span_cons] at hvec hstr
      refine ⟨(load_congr fun i hi => hvec i (by omega)).trans hptr,
        hs.congr fun i hi => hstr i (by omega), ih hrest (fun i hi => ?_) fun i hi => ?_⟩
      · rw [Nat.add_assoc, Nat.add_assoc]
        exact hvec (8 + i) (by omega)
      · have hadd : first + s.length + 1 + i = first + (s.length + 1 + i) := by omega
        rw [hadd]
        exact hstr (s.length + 1 + i) (by omega)

/-- Two memories with the same vector agree on the bytes of the strings. -/
theorem VectorAt.unique (h : VectorAt mem vec first ss) (h' : VectorAt mem' vec' first ss)
    {i : Nat} (hi : i < span ss) : mem' (first + i) = mem (first + i) := by
  induction ss generalizing vec vec' first i with
  | nil => exact absurd hi (Nat.not_lt_zero _)
  | cons s ss ih =>
      obtain ⟨-, hs, hrest⟩ := h
      obtain ⟨-, hs', hrest'⟩ := h'
      by_cases hin : i ≤ s.length
      · exact hs.unique hs' hin
      · have hadd : first + i = first + s.length + 1 + (i - (s.length + 1)) := by omega
        rw [span_cons] at hi
        rw [hadd]
        exact ih hrest hrest' (by omega)

/-- The array ends behind the last string. -/
theorem VectorAt.terminator (h : VectorAt mem vec first ss) :
    load mem (vec + 8 * ss.length) 8 = 0 := by
  induction ss generalizing vec first with
  | nil => exact h
  | cons s ss ih =>
      have hadd : vec + 8 * (s :: ss).length = vec + 8 + 8 * ss.length := by
        rw [List.length_cons]
        omega
      rw [hadd]
      exact ih h.2.2

/-- The array leads to every string. -/
theorem VectorAt.get (h : VectorAt mem vec first ss) {i : Nat} (hi : ss[i]? = some s) :
    StringAt mem (load mem (vec + 8 * i) 8) s ∧ first ≤ load mem (vec + 8 * i) 8 := by
  induction ss generalizing vec first i with
  | nil => simp at hi
  | cons s' ss ih =>
      obtain ⟨hptr, hs, hrest⟩ := h
      cases i with
      | zero =>
          obtain rfl : s' = s := by simpa using hi
          exact ⟨by simpa [hptr] using hs, by simp [hptr]⟩
      | succ i =>
          have hadd : vec + 8 * (i + 1) = vec + 8 + 8 * i := by omega
          obtain ⟨hstr, hle⟩ := ih hrest (by simpa using hi)
          rw [hadd]
          exact ⟨hstr, by omega⟩

/-- An array that still leads to every string leads to them at the same addresses. -/
theorem VectorAt.of_strings (h : VectorAt mem vec first ss)
    (hvec : ∀ i < 8 * (ss.length + 1), mem' (vec + i) = mem (vec + i))
    (hstr : ∀ i s, ss[i]? = some s → StringAt mem' (load mem' (vec + 8 * i) 8) s) :
    VectorAt mem' vec first ss := by
  induction ss generalizing vec first with
  | nil => exact (load_congr fun i hi => hvec i (by simpa using hi)).trans h
  | cons s ss ih =>
      obtain ⟨hptr, -, hrest⟩ := h
      simp only [List.length_cons] at hvec
      have hptr' : load mem' vec 8 = first := (load_congr fun i hi => hvec i (by omega)).trans hptr
      refine ⟨hptr', ?_, ih hrest (fun i hi => ?_) fun i s' hi => ?_⟩
      · have := hstr 0 s (by simp)
        rwa [Nat.mul_zero, Nat.add_zero, hptr'] at this
      · rw [Nat.add_assoc]
        exact hvec (8 + i) (by omega)
      · have hadd : vec + 8 + 8 * i = vec + 8 * (i + 1) := by omega
        rw [hadd]
        exact hstr (i + 1) s' (by simpa using hi)

end ByteMemory

end TPE
