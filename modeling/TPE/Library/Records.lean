import TPE.Library.ByteMemory

/-!
# Records with a length in front

A record is the length of a byte string, as a number of `w` bytes, and the string
itself.  A list of records has the number of its records in front.  A reader that
goes over such a list finds the next record behind the string it has just read.
-/

namespace TPE

namespace Records

open ByteMemory

variable {mem mem' : Nat → UInt8} {a n v w : Nat} {s : List UInt8} {ss : List (List UInt8)}

/-- The number `v` in `n` bytes, the lowest byte first. -/
def number : Nat → Nat → List UInt8
  | 0, _ => []
  | n + 1, v => UInt8.ofNat v :: number n (v / 256)

@[simp] theorem length_number (n v : Nat) : (number n v).length = n := by
  induction n generalizing v with
  | zero => rfl
  | succ n ih => rw [number, List.length_cons, ih]

/-- What is written as a number is loaded. -/
theorem load_number (h : BytesAt mem a (number n v)) (hv : v < 256 ^ n) : load mem a n = v := by
  induction n generalizing a v with
  | zero =>
      rw [Nat.pow_zero] at hv
      rw [load]
      omega
  | succ n ih =>
      have hfirst : mem a = UInt8.ofNat v := h 0 (by rw [length_number]; omega)
      have hrest : load mem (a + 1) n = v / 256 := by
        refine ih (fun i hi => ?_) (Nat.div_lt_of_lt_mul (by rwa [Nat.pow_succ'] at hv))
        have hbyte := h (i + 1) (by rw [length_number] at hi ⊢; omega)
        rwa [← Nat.add_assoc, Nat.add_right_comm] at hbyte
      rw [load, hfirst, hrest, UInt8.toNat_ofNat']
      omega

/-- A record. -/
def record (w : Nat) (s : List UInt8) : List UInt8 := number w s.length ++ s

/-- A list of records. -/
def records (w : Nat) (ss : List (List UInt8)) : List UInt8 :=
  number w ss.length ++ ss.flatMap (record w)

theorem length_record (w : Nat) (s : List UInt8) : (record w s).length = w + s.length := by
  rw [record, List.length_append, length_number]

/-- The length of a record and its string. -/
theorem record_read (h : BytesAt mem a (record w s)) (hs : s.length < 256 ^ w) :
    load mem a w = s.length ∧ BytesAt mem (a + w) s := by
  obtain ⟨hnumber, hstring⟩ := bytesAt_append.mp h
  rw [length_number] at hstring
  exact ⟨load_number hnumber hs, hstring⟩

/-- The number of records, and where the first one is. -/
theorem records_read (h : BytesAt mem a (records w ss)) (hss : ss.length < 256 ^ w) :
    load mem a w = ss.length ∧ BytesAt mem (a + w) (ss.flatMap (record w)) := by
  obtain ⟨hnumber, hrest⟩ := bytesAt_append.mp h
  rw [length_number] at hrest
  exact ⟨load_number hnumber hss, hrest⟩

/-- The first record and the place of the next one. -/
theorem flatMap_record_read (h : BytesAt mem a ((s :: ss).flatMap (record w))) :
    BytesAt mem a (record w s) ∧ BytesAt mem (a + w + s.length) (ss.flatMap (record w)) := by
  rw [List.flatMap_cons, bytesAt_append, length_record, ← Nat.add_assoc] at h
  exact h

end Records

end TPE
