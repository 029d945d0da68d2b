import Mathlib.Logic.Basic

/-!
# Characters

`ctype.c` classifies a character that is given as an `int`.  `getchar` returns the
value of an `unsigned char`, and an element of a string is a `char`, which has a sign.
The classes below have no character from 128 on, so the sign makes no difference.
-/

namespace TPE

/-- A byte as a `char`. -/
def charValue (b : UInt8) : Int := b.toInt8.toInt

/-- `isblank` -/
def isblank (c : Int) : Prop := c = 9 ∨ c = 32

/-- `isspace` -/
def isspace (c : Int) : Prop := isblank c ∨ c = 11 ∨ c = 12 ∨ c = 13 ∨ c = 10

/-- `isdigit` -/
def isdigit (c : Int) : Prop := 48 ≤ c ∧ c ≤ 57

instance (c : Int) : Decidable (isblank c) := inferInstanceAs (Decidable (_ ∨ _))

instance (c : Int) : Decidable (isspace c) := inferInstanceAs (Decidable (_ ∨ _))

instance (c : Int) : Decidable (isdigit c) := inferInstanceAs (Decidable (_ ∧ _))

theorem charValue_eq (b : UInt8) :
    charValue b = if b.toNat < 128 then (b.toNat : Int) else b.toNat - 256 := by
  have hlt := b.toNat_lt
  rw [charValue, ← Int8.toInt_toBitVec, BitVec.toInt_eq_toNat_bmod, UInt8.toBitVec_toInt8,
    UInt8.toNat_toBitVec, Int.bmod_def]
  split
  · rw [if_pos (by omega)]
    omega
  · rw [if_neg (by omega)]
    omega

/-- White space, for a character of a stream or of a string. -/
def White (b : UInt8) : Prop := isspace b.toNat

instance : DecidablePred White := fun b => inferInstanceAs (Decidable (isspace b.toNat))

theorem isspace_charValue {b : UInt8} : isspace (charValue b) ↔ White b := by
  rw [charValue_eq]
  have hlt := b.toNat_lt
  simp only [White, isspace, isblank]
  omega

end TPE
