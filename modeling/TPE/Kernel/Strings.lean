import Mathlib.Data.List.GetD
import Mathlib.Tactic.ByContra

/-!
# C strings

A C string is a sequence of bytes other than 0.  The 0 byte that ends it in
memory is not part of the sequence.  `strings.c` compares two strings byte by
byte, as `char`s, and returns the difference at the first place where they
differ or end.
-/

namespace TPE

/-- The bytes of a C string, without the terminator. -/
structure CString where
  bytes : List UInt8
  /-- The terminator is not inside. -/
  noNul : (0 : UInt8) ∉ bytes
deriving DecidableEq

namespace CString

/-- `str_len` -/
def strLen (s : CString) : Nat := s.bytes.length

/-- `s[i]`, a signed `char`.  Behind the last byte stands the terminator. -/
def charAt (s : CString) (i : Nat) : Int := (s.bytes.getD i 0).toInt8.toInt

/-- The loop of `strncmp` from index `i` on.  The first argument bounds the
number of rounds left. -/
def strncmpFrom (s t : CString) (n : Nat) : Nat → Nat → Int
  | 0, i => s.charAt i - t.charAt i
  | rounds + 1, i =>
      if i < n ∧ s.charAt i ≠ 0 ∧ t.charAt i ≠ 0 ∧ s.charAt i = t.charAt i then
        strncmpFrom s t n rounds (i + 1)
      else s.charAt i - t.charAt i

/-- `strncmp(s, t, n)`.  The loop stops at the end of `s` at the latest. -/
def strncmp (s t : CString) (n : Nat) : Int := strncmpFrom s t n (s.strLen + 1) 0

/-- `UINT_MAX` of `strings.c`. -/
def uintMax : Nat := 4294967295

/-- `strcmp(s, t)` -/
def strcmp (s t : CString) : Int := strncmp s t uintMax

theorem toInt8_inj {a b : UInt8} : a.toInt8 = b.toInt8 ↔ a = b := by
  constructor
  · intro h
    rw [← UInt8.toUInt8_toInt8 a, h, UInt8.toUInt8_toInt8]
  · exact congrArg _

theorem charAt_eq_iff {s t : CString} {i j : Nat} :
    s.charAt i = t.charAt j ↔ s.bytes.getD i 0 = t.bytes.getD j 0 := by
  unfold charAt
  rw [Int8.toInt_inj, toInt8_inj]

theorem charAt_eq_zero_iff {s : CString} {i : Nat} : s.charAt i = 0 ↔ s.strLen ≤ i := by
  have hz : (0 : Int) = (0 : UInt8).toInt8.toInt := rfl
  unfold charAt strLen
  rw [hz, Int8.toInt_inj, toInt8_inj]
  constructor
  · intro h
    by_contra hlt
    have hi : i < s.bytes.length := by omega
    have hmem : s.bytes[i] ∈ s.bytes := List.getElem_mem hi
    rw [List.getD_eq_getElem _ _ hi] at h
    rw [h] at hmem
    exact s.noNul hmem
  · intro h
    exact List.getD_eq_default _ _ h

theorem ext_of_charAt {s t : CString} (h : ∀ i, s.charAt i = t.charAt i) : s = t := by
  have hlen : s.strLen = t.strLen := by
    apply Nat.le_antisymm
    · exact charAt_eq_zero_iff.mp ((h t.strLen).trans (charAt_eq_zero_iff.mpr (Nat.le_refl _)))
    · exact charAt_eq_zero_iff.mp ((h s.strLen).symm.trans (charAt_eq_zero_iff.mpr (Nat.le_refl _)))
  have hbytes : s.bytes = t.bytes := by
    apply List.ext_getElem hlen
    intro i hs ht
    have hi := charAt_eq_iff.mp (h i)
    rwa [List.getD_eq_getElem _ _ hs, List.getD_eq_getElem _ _ ht] at hi
  cases s
  cases t
  simpa using hbytes

/-- The loop returns 0 exactly when the strings agree from `i` on. -/
theorem strncmpFrom_eq_zero_iff {s t : CString} {n : Nat} (hn : s.strLen < n) :
    ∀ {rounds i : Nat}, s.strLen < i + rounds →
      (strncmpFrom s t n rounds i = 0 ↔ ∀ j, i ≤ j → s.charAt j = t.charAt j)
  | 0, i, hi => by
      have hend : ∀ j, i ≤ j → s.charAt j = 0 := fun j hj => charAt_eq_zero_iff.mpr (by omega)
      rw [strncmpFrom, Int.sub_eq_zero]
      constructor
      · intro heq j hj
        rw [hend j hj]
        have ht : t.strLen ≤ i := charAt_eq_zero_iff.mp (heq.symm.trans (hend i (Nat.le_refl _)))
        exact (charAt_eq_zero_iff.mpr (by omega)).symm
      · intro h
        exact h i (Nat.le_refl _)
  | rounds + 1, i, hi => by
      rw [strncmpFrom]
      split
      next hgo =>
        rw [strncmpFrom_eq_zero_iff hn (by omega)]
        constructor
        · intro h j hj
          rcases Nat.eq_or_lt_of_le hj with rfl | hlt
          · exact hgo.2.2.2
          · exact h j hlt
        · intro h j hj
          exact h j (by omega)
      next hstop =>
        rw [Int.sub_eq_zero]
        constructor
        · intro heq j hj
          -- the loop stopped at equal bytes, so both strings end here
          have hzero : s.charAt i = 0 := by
            by_contra hne
            have hlt : i < s.strLen := by
              by_contra hge
              exact hne (charAt_eq_zero_iff.mpr (by omega))
            exact hstop ⟨by omega, hne, heq ▸ hne, heq⟩
          have hs := charAt_eq_zero_iff.mp hzero
          have ht := charAt_eq_zero_iff.mp (heq.symm.trans hzero)
          rw [charAt_eq_zero_iff.mpr (by omega : s.strLen ≤ j),
            charAt_eq_zero_iff.mpr (by omega : t.strLen ≤ j)]
        · intro h
          exact h i (Nat.le_refl _)

/-- `strcmp` returns 0 exactly on equal strings. -/
theorem strcmp_eq_zero_iff {s t : CString} (hs : s.strLen < uintMax) :
    strcmp s t = 0 ↔ s = t := by
  rw [strcmp, strncmp, strncmpFrom_eq_zero_iff hs (by omega)]
  constructor
  · intro h
    exact ext_of_charAt fun i => h i (Nat.zero_le _)
  · rintro rfl j _
    rfl

end CString

end TPE
