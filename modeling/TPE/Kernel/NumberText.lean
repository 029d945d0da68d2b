import Mathlib.Data.List.TakeWhile
import Mathlib.Data.Nat.Digits.Lemmas
import TPE.Library.WriteLog
import TPE.Kernel.CircularBuffer
import TPE.Kernel.Ctype

/-!
# Numbers as text

`itoa` of `lib.c` writes the digits of an `int` from the lowest one on, terminates the string
and reverses the digits in place.  `atoi` reads a number back.

`itoa` negates a negative number in base 10 only, and the smallest `int` is its own negative.
The remainders of a number that stays negative are negative, and their characters come before
'0'.
-/

namespace TPE

open Function ByteMemory WriteLog

namespace NumberText

/-! ## The code -/

/-- The character of a remainder, converted to `char`. -/
def digitChar (remainder : Int) : UInt8 :=
  UInt8.ofInt (if remainder < 10 then remainder + 48 else remainder + 65 - 10)

/-- The loop over the digits, with `p` and `len`.  An `int` has at most 32 digits in a base from
2 on, so the caller gives that many rounds. -/
def digitLoop (base : Int) : Nat → Int → Nat → Int → WriteLog → Option (Nat × Int × WriteLog)
  | 0, _, _, _, _ => none
  | rounds + 1, value, p, len, m =>
      let m := m.write p (digitChar (value.tmod base))
      let value := value.tdiv base
      if value ≠ 0 then digitLoop base rounds value (p + 1) (len + 1) m
      else some (p + 1, len + 1, m)

/-- The loop that reverses the string.  The first argument bounds the number of rounds. -/
def reverseLoop : Nat → Nat → Nat → WriteLog → WriteLog
  | 0, _, _, m => m
  | rounds + 1, p1, p2, m =>
      if p1 < p2 then
        let tmp := m.bytes p1
        reverseLoop rounds (p1 + 1) (p2 - 1) ((m.write p1 (m.bytes p2)).write p2 tmp)
      else m

/-- `itoa`: what it returns, and the memory. -/
def itoa (value : Int) (str : Nat) (base : Int) (m : WriteLog) : Option (Int × WriteLog) :=
  if value < 0 ∧ base = 10 then
    let m := m.write str 45
    (digitLoop base 32 (int32 (-value)) (str + 1) 1 m).map fun (p, len, m) =>
      (len, reverseLoop (p - (str + 1)) (str + 1) (p - 1) (m.write p 0))
  else
    (digitLoop base 32 value str 0 m).map fun (p, len, m) =>
      (len, reverseLoop (p - str) str (p - 1) (m.write p 0))

/-- The loop of `atoi` on the bytes in front of the terminator. -/
def atoiLoop : List UInt8 → Int → Int
  | [], num => num
  | c :: str, num =>
      if isdigit (charValue c) then
        atoiLoop str (int32 (int32 (int32 (num * 10) + charValue c) - 48))
      else num

/-- `atoi` on the bytes in front of the terminator. -/
def atoi (str : List UInt8) : Int :=
  match str.dropWhile fun c => isspace (charValue c) with
  | [] => int32 (0 * 1)
  | c :: rest =>
      if charValue c = 45 then int32 (atoiLoop rest 0 * -1)
      else if charValue c = 43 then int32 (atoiLoop rest 0 * 1)
      else int32 (atoiLoop (c :: rest) 0 * 1)

/-! ## What a text says -/

/-- The character of a digit. -/
def figure (d : Nat) : UInt8 := UInt8.ofNat (if d < 10 then 48 + d else 65 + (d - 10))

/-- The text is a numeral of `value`: digits of the base without a leading zero, behind a '-'
for a negative number in base 10.  In the other bases it denotes `value` modulo 2^32. -/
def Numeral (value : Int) (base : Nat) (text : List UInt8) : Prop :=
  ∃ digits : List Nat, digits ≠ [] ∧ (∀ d ∈ digits, d < base) ∧
    (1 < digits.length → digits.head? ≠ some 0) ∧
    text = (if value < 0 ∧ base = 10 then [45] else []) ++ digits.map figure ∧
    Nat.ofDigits base digits.reverse =
      if base = 10 then value.natAbs else (value % 2 ^ 32).toNat

/-! ## The loops -/

/-- The characters that the digit loop writes, the lowest digit in front. -/
def digitChars (base : Int) : Nat → Int → List UInt8
  | 0, _ => []
  | rounds + 1, value =>
      digitChar (value.tmod base) ::
        if value.tdiv base ≠ 0 then digitChars base rounds (value.tdiv base) else []

variable {m m' : WriteLog} {base value len : Int} {rounds str p p1 p2 : Nat} {cs : List UInt8}

/-- A number gets shorter. -/
theorem natAbs_tdiv_lt (hbase : 2 ≤ base) (hvalue : value.natAbs < 2 ^ (rounds + 1)) :
    (value.tdiv base).natAbs < 2 ^ rounds := by
  have hle : base.natAbs ≥ 2 := by omega
  rw [Int.natAbs_tdiv]
  calc value.natAbs / base.natAbs ≤ value.natAbs / 2 := Nat.div_le_div_left hle (by omega)
    _ < 2 ^ rounds := by omega

theorem digitLoop_eq (hbase : 2 ≤ base) (hvalue : value.natAbs < 2 ^ (rounds + 1)) :
    digitLoop base (rounds + 1) value p len m =
      some (p + (digitChars base (rounds + 1) value).length,
        len + (digitChars base (rounds + 1) value).length,
        m.writeAll p (digitChars base (rounds + 1) value)) := by
  induction rounds generalizing value p len m with
  | zero =>
      have hzero : value.tdiv base = 0 := by
        have hlt := natAbs_tdiv_lt hbase hvalue
        omega
      simp [digitLoop, digitChars, hzero, writeAll]
  | succ rounds ih =>
      rw [digitLoop, digitChars]
      by_cases hzero : value.tdiv base = 0
      · simp [hzero, writeAll]
      · simp only [ne_eq, hzero, not_false_eq_true, if_true, List.length_cons, writeAll]
        rw [ih (natAbs_tdiv_lt hbase hvalue)]
        congr 2
        · omega
        · congr 1
          push_cast
          omega

theorem reverse_of_length_le (h : cs.length ≤ 1) : cs.reverse = cs := by
  cases cs with
  | nil => rfl
  | cons c cs =>
      rw [List.length_cons] at h
      obtain rfl := List.length_eq_zero_iff.mp (show cs.length = 0 by omega)
      rfl

/-- The string is reversed, and only its bytes are written. -/
theorem reverseLoop_spec (hcs : BytesAt m.bytes p1 cs) (hp2 : p2 + 1 = p1 + cs.length)
    (hrounds : cs.length ≤ rounds + 1) :
    BytesAt (reverseLoop rounds p1 p2 m).bytes p1 cs.reverse ∧
      (∀ b, b < p1 ∨ p2 < b → (reverseLoop rounds p1 p2 m).bytes b = m.bytes b) ∧
      (∀ b ∈ m.written, b ∈ (reverseLoop rounds p1 p2 m).written) ∧
      ∀ b ∈ (reverseLoop rounds p1 p2 m).written, b ∈ m.written ∨ p1 ≤ b ∧ b ≤ p2 := by
  induction rounds generalizing p1 p2 m cs with
  | zero =>
      rw [reverse_of_length_le hrounds]
      exact ⟨hcs, fun _ _ => rfl, fun _ hb => hb, fun _ hb => Or.inl hb⟩
  | succ rounds ih =>
      rw [reverseLoop]
      by_cases hlt : p1 < p2
      · rw [if_pos hlt]
        obtain ⟨c, mid, d, rfl⟩ : ∃ c mid d, cs = [c] ++ (mid ++ [d]) := by
          cases cs with
          | nil => simp at hp2; omega
          | cons c cs =>
              rcases List.eq_nil_or_concat' cs with rfl | ⟨mid, d, rfl⟩
              · simp at hp2
                omega
              · exact ⟨c, mid, d, rfl⟩
        simp only [List.length_append, List.length_singleton] at hp2 hrounds
        obtain ⟨hc, hrest⟩ := bytesAt_append.mp hcs
        obtain ⟨hmid, hd⟩ := bytesAt_append.mp hrest
        rw [bytesAt_singleton] at hc hd
        rw [List.length_singleton] at hmid hd
        have hlast : p1 + 1 + mid.length = p2 := by omega
        rw [hlast] at hd
        rw [hc, hd]
        have hswap : BytesAt ((m.write p1 d).write p2 c).bytes (p1 + 1) mid := by
          refine hmid.congr fun i hi => ?_
          have hfirst : p1 + 1 + i ≠ p1 := by omega
          have hne : p1 + 1 + i ≠ p2 := by omega
          rw [bytes_write, bytes_write, update_of_ne hne, update_of_ne hfirst]
        have hnext : p2 - 1 + 1 = p1 + 1 + mid.length := by omega
        obtain ⟨hrev, hout, hmono, hin⟩ := ih hswap hnext (by omega)
        simp only [mem_written_write] at hmono hin
        refine ⟨?_, fun b hb => ?_, fun b hb => hmono b (Or.inr (Or.inr hb)), fun b hb => ?_⟩
        · rw [List.reverse_append, List.reverse_append, List.reverse_singleton,
            List.reverse_singleton, List.append_assoc, bytesAt_append, bytesAt_append,
            bytesAt_singleton, bytesAt_singleton, List.length_singleton, List.length_reverse, hlast]
          refine ⟨?_, hrev, ?_⟩
          · rw [hout p1 (by omega), bytes_write, update_of_ne (by omega), bytes_write, update_self]
          · rw [hout p2 (by omega), bytes_write, update_self]
        · rw [hout b (by omega), bytes_write, bytes_write, update_of_ne (by omega),
            update_of_ne (by omega)]
        · rcases hin b hb with (rfl | rfl | hb) | hb
          · exact Or.inr ⟨by omega, Nat.le_refl _⟩
          · exact Or.inr ⟨Nat.le_refl _, by omega⟩
          · exact Or.inl hb
          · exact Or.inr ⟨by omega, by omega⟩
      · rw [if_neg hlt]
        have hlen : cs.length ≤ 1 := by omega
        rw [reverse_of_length_le hlen]
        exact ⟨hcs, fun _ _ => rfl, fun _ hb => hb, fun _ hb => Or.inl hb⟩

/-! ## What `itoa` writes -/

/-- The text that `itoa` writes. -/
def itoaText (value base : Int) : List UInt8 :=
  if value < 0 ∧ base = 10 then 45 :: (digitChars base 32 (int32 (-value))).reverse
  else (digitChars base 32 value).reverse

theorem length_digitChars_le (base : Int) (rounds : Nat) (value : Int) :
    (digitChars base rounds value).length ≤ rounds := by
  induction rounds generalizing value with
  | zero => exact Nat.le_refl 0
  | succ rounds ih =>
      rw [digitChars, List.length_cons]
      refine Nat.succ_le_succ ?_
      split
      next => exact ih _
      next => exact Nat.zero_le rounds

theorem length_itoaText_le (value base : Int) : (itoaText value base).length ≤ 33 := by
  rw [itoaText]
  split
  next =>
    rw [List.length_cons, List.length_reverse]
    exact Nat.succ_le_succ (length_digitChars_le base 32 _)
  next =>
    rw [List.length_reverse]
    exact (length_digitChars_le base 32 value).trans (by decide)

/-- The digits of a number from `str` on, then the terminator, then the other way round. -/
theorem digitLoop_reverse (hbase : 2 ≤ base) (hvalue : value.natAbs ≤ 2 ^ 31) (str : Nat)
    (len : Int) (m : WriteLog) :
    ∃ m', (digitLoop base 32 value str len m).map (fun (p, len, m) =>
        (len, reverseLoop (p - str) str (p - 1) (m.write p 0))) =
          some (len + (digitChars base 32 value).length, m') ∧
      Puts m m' str ((digitChars base 32 value).length + 1)
        ((digitChars base 32 value).reverse ++ [0]) := by
  have hlt : value.natAbs < 2 ^ (31 + 1) := by omega
  have hput := (puts_writeAll m str (digitChars base 32 value)).concat 0 (Nat.le_refl _)
    (Nat.le_succ _)
  obtain ⟨hcs, hend⟩ := bytesAt_append.mp hput.bytes
  have hpos : 0 < (digitChars base 32 value).length := Nat.succ_pos _
  have hlast : str + (digitChars base 32 value).length - 1 + 1 =
      str + (digitChars base 32 value).length := by omega
  have hrounds : (digitChars base 32 value).length ≤
      str + (digitChars base 32 value).length - str + 1 := by omega
  obtain ⟨hrev, hout, hmono, hin⟩ := reverseLoop_spec hcs hlast hrounds
  rw [digitLoop_eq hbase hlt, Option.map_some]
  refine ⟨_, rfl, bytesAt_append.mpr ⟨hrev, ?_⟩, fun b hb => ?_, fun b => ?_⟩
  · rw [List.length_reverse, bytesAt_singleton, hout _ (by omega)]
    exact bytesAt_singleton.mp hend
  · rw [hout b (by omega), hput.outside b hb]
  · constructor
    · intro hb
      rcases hin b hb with hb | hb
      · exact (hput.written b).mp hb
      · exact Or.inr ⟨hb.1, by omega⟩
    · intro hb
      exact hmono b ((hput.written b).mpr hb)

/-- `itoa` writes its text with a terminator and returns the length of the text. -/
theorem itoa_puts (hbase : 2 ≤ base) (lo : -2 ^ 31 ≤ value) (hi : value < 2 ^ 31) (str : Nat)
    (m : WriteLog) :
    ∃ m', itoa value str base m = some (((itoaText value base).length : Int), m') ∧
      Puts m m' str ((itoaText value base).length + 1) (itoaText value base ++ [0]) := by
  rw [itoa, itoaText]
  by_cases hneg : value < 0 ∧ base = 10
  · have habs : (int32 (-value)).natAbs ≤ 2 ^ 31 := by
      rw [int32, Int.bmod_def]
      split
      · omega
      · omega
    obtain ⟨m', hrun, hput⟩ := digitLoop_reverse hbase habs (str + 1) 1 (m.write str 45)
    rw [if_pos hneg, if_pos hneg]
    refine ⟨m', ?_, ?_⟩
    · rw [hrun, List.length_cons, List.length_reverse]
      push_cast
      rw [add_comm]
    · have hall := (puts_write m str 45).trans hput (Nat.le_refl _) (Nat.le_add_right _ _)
      rw [List.length_singleton, Nat.add_comm 1] at hall
      rw [List.length_cons, List.length_reverse]
      exact hall
  · have habs : value.natAbs ≤ 2 ^ 31 := by omega
    obtain ⟨m', hrun, hput⟩ := digitLoop_reverse hbase habs str 0 m
    rw [if_neg hneg, if_neg hneg, List.length_reverse]
    rw [zero_add] at hrun
    exact ⟨m', hrun, hput⟩

/-! ## The digits of a number -/

theorem digitChar_natCast (d : Nat) : digitChar d = figure d := by
  rw [digitChar, figure, UInt8.ofInt]
  refine UInt8.toNat_inj.mp ?_
  rw [UInt8.toNat_ofNat', UInt8.toNat_ofNat']
  split <;> split <;> omega

/-- The characters of a number that is not negative are its digits. -/
theorem digitChars_natCast {base n : Nat} (hbase : 2 ≤ base) (hn : n < 2 ^ (rounds + 1)) :
    digitChars base (rounds + 1) n = (if n = 0 then [0] else Nat.digits base n).map figure := by
  induction rounds generalizing n with
  | zero =>
      have hzero : n / base = 0 := Nat.div_eq_of_lt (by omega)
      rw [digitChars, ← Int.ofNat_tmod, ← Int.ofNat_tdiv, digitChar_natCast, hzero,
        Nat.mod_eq_of_lt (by omega)]
      have hcases : n = 0 ∨ n = 1 := by omega
      rcases hcases with rfl | rfl
      · rfl
      · simp [Nat.digits_of_lt base 1 one_ne_zero (by omega)]
  | succ rounds ih =>
      rw [digitChars, ← Int.ofNat_tmod, ← Int.ofNat_tdiv, digitChar_natCast]
      by_cases hn0 : n = 0
      · subst hn0
        simp
      · have hdiv : n / base < 2 ^ (rounds + 1) := by
          calc n / base ≤ n / 2 := Nat.div_le_div_left hbase (by omega)
            _ < 2 ^ (rounds + 1) := by omega
        rw [if_neg hn0, Nat.digits_def' (by omega) (Nat.pos_of_ne_zero hn0), List.map_cons, ih hdiv]
        by_cases hzero : n / base = 0
        · simp [hzero]
        · rw [if_pos (by exact_mod_cast hzero), if_neg hzero]

/-- They are digits of the base without a leading zero and denote the number. -/
theorem exists_digits {base n : Nat} (hbase : 2 ≤ base) (hn : n < 2 ^ 32) :
    ∃ digits : List Nat, digits ≠ [] ∧ (∀ d ∈ digits, d < base) ∧
      (1 < digits.length → digits.head? ≠ some 0) ∧
      (digitChars base 32 n).reverse = digits.map figure ∧ Nat.ofDigits base digits.reverse = n := by
  refine ⟨(if n = 0 then [0] else Nat.digits base n).reverse, ?_, ?_, ?_, ?_, ?_⟩
  · split
    · simp
    next hn0 => exact List.reverse_ne_nil_iff.mpr (Nat.digits_ne_nil_iff_ne_zero.mpr hn0)
  · intro d hd
    rw [List.mem_reverse] at hd
    split at hd
    · rw [List.mem_singleton.mp hd]
      omega
    · exact Nat.digits_lt_base (by omega) hd
  · split
    · simp
    next hn0 =>
      intro _ hhead
      have hne : Nat.digits base n ≠ [] := Nat.digits_ne_nil_iff_ne_zero.mpr hn0
      rw [List.head?_reverse, List.getLast?_eq_some_getLast hne] at hhead
      exact Nat.getLast_digit_ne_zero base hn0 (Option.some.inj hhead)
  · rw [digitChars_natCast hbase hn, List.map_reverse]
  · rw [List.reverse_reverse]
    split
    next hn0 =>
      rw [hn0]
      simp
    · exact Nat.ofDigits_digits base n

/-- A digit of a negative number that is the only one has a character in front of '0'. -/
theorem digitChar_neg (hbase : 2 ≤ base) (hle : base ≤ 16) (hneg : value < 0)
    (hzero : value.tdiv base = 0) : (digitChar (value.tmod base)).toNat < 48 := by
  have hsplit := Int.mul_tdiv_add_tmod value base
  have hlt := Int.tmod_lt_of_pos (-value) (show 0 < base by omega)
  rw [Int.neg_tmod] at hlt
  rw [hzero, mul_zero, zero_add] at hsplit
  rw [digitChar, UInt8.ofInt, if_pos (by omega), UInt8.toNat_ofNat']
  omega

/-- The highest digit of a negative number is one. -/
theorem getLast_digitChars_neg (hbase : 2 ≤ base) (hle : base ≤ 16) (hneg : value < 0)
    (hvalue : value.natAbs < 2 ^ (rounds + 1)) :
    ∃ c, (digitChars base (rounds + 1) value).getLast? = some c ∧ c.toNat < 48 := by
  induction rounds generalizing value with
  | zero =>
      have hzero : value.tdiv base = 0 := by
        have hlt := natAbs_tdiv_lt hbase hvalue
        omega
      exact ⟨_, by simp [digitChars, hzero], digitChar_neg hbase hle hneg hzero⟩
  | succ rounds ih =>
      by_cases hzero : value.tdiv base = 0
      · exact ⟨_, by simp [digitChars, hzero], digitChar_neg hbase hle hneg hzero⟩
      · have hneg' : value.tdiv base < 0 := by
          have hnonneg := Int.tdiv_nonneg (show 0 ≤ -value by omega) (show 0 ≤ base by omega)
          rw [Int.neg_tdiv] at hnonneg
          omega
        obtain ⟨c, hlast, hc⟩ := ih hneg' (natAbs_tdiv_lt hbase hvalue)
        refine ⟨c, ?_, hc⟩
        rw [digitChars, if_pos hzero, List.getLast?_cons, hlast]
        rfl

/-! ## `atoi` on digits -/

theorem charValue_figure {d : Nat} (hd : d < 10) : charValue (figure d) = 48 + d := by
  rw [charValue_eq, figure, if_pos hd, UInt8.toNat_ofNat']
  split
  · push_cast
    omega
  · omega

/-- The loop computes the number modulo 2^32. -/
theorem atoiLoop_figures {digits : List Nat} (hdigits : ∀ d ∈ digits, d < 10) (n : Nat) :
    atoiLoop (digits.map figure) (int32 n) =
      int32 ((digits.foldl (fun n d => d + 10 * n) n : Nat) : Int) := by
  induction digits generalizing n with
  | nil => rfl
  | cons d digits ih =>
      have hd := hdigits d List.mem_cons_self
      have hnext : int32 (int32 (int32 (int32 n * 10) + charValue (figure d)) - 48) =
          int32 ((d + 10 * n : Nat) : Int) := by
        rw [charValue_figure hd, int32, int32, int32, int32, int32, Int.bmod_mul_bmod,
          Int.bmod_add_bmod, Int.bmod_sub_bmod]
        congr 1
        push_cast
        omega
      have hdigit : isdigit (charValue (figure d)) := by
        rw [charValue_figure hd, isdigit]
        omega
      rw [List.map_cons, atoiLoop, if_pos hdigit, hnext, ih fun e he =>
        hdigits e (List.mem_cons_of_mem d he)]
      rfl

theorem atoiLoop_ofDigits {digits : List Nat} (hdigits : ∀ d ∈ digits, d < 10) :
    atoiLoop (digits.map figure) 0 = int32 (Nat.ofDigits 10 digits.reverse : Nat) := by
  have hzero : (0 : Int) = int32 (0 : Nat) := rfl
  rw [hzero, atoiLoop_figures hdigits, Nat.ofDigits_eq_foldr, List.foldr_reverse]
  rfl

/-- `atoi` on a string that does not start with white space. -/
theorem atoi_cons {c : UInt8} (hspace : ¬isspace (charValue c)) (str : List UInt8) :
    atoi (c :: str) =
      if charValue c = 45 then int32 (atoiLoop str 0 * -1)
      else if charValue c = 43 then int32 (atoiLoop str 0 * 1)
      else int32 (atoiLoop (c :: str) 0 * 1) := by
  rw [atoi, List.dropWhile_cons_of_neg (by simpa using hspace)]

/-- `atoi` on a string that starts with a digit. -/
theorem atoi_figure {d : Nat} (hd : d < 10) (str : List UInt8) :
    atoi (figure d :: str) = int32 (atoiLoop (figure d :: str) 0 * 1) := by
  have hvalue := charValue_figure hd
  have hspace : ¬isspace (charValue (figure d)) := by
    rw [hvalue, isspace, isblank]
    omega
  rw [atoi_cons hspace, if_neg (by omega), if_neg (by omega)]

/-- `atoi` on a string that starts with a '-'. -/
theorem atoi_minus (str : List UInt8) : atoi (45 :: str) = int32 (atoiLoop str 0 * -1) := by
  have hminus : charValue 45 = 45 := by decide
  rw [atoi_cons (by decide), if_pos hminus]

/-- `atoi` reads digits. -/
theorem atoi_figures {digits : List Nat} (hne : digits ≠ []) (hdigits : ∀ d ∈ digits, d < 10) :
    atoi (digits.map figure) = int32 (Nat.ofDigits 10 digits.reverse : Nat) := by
  cases digits with
  | nil => exact absurd rfl hne
  | cons d digits =>
      have hloop := atoiLoop_ofDigits hdigits
      rw [List.map_cons] at hloop ⊢
      rw [atoi_figure (hdigits d List.mem_cons_self), hloop, mul_one, int32, int32, Int.bmod_bmod]

/-- `atoi` reads a '-' and digits. -/
theorem atoi_minus_figures {digits : List Nat} (hdigits : ∀ d ∈ digits, d < 10) :
    atoi (45 :: digits.map figure) = int32 (-(Nat.ofDigits 10 digits.reverse : Nat)) := by
  rw [atoi_minus, atoiLoop_ofDigits hdigits, int32, int32, int32, Int.bmod_mul_bmod, mul_neg,
    mul_one]

/-- The loop stops at the first character that is no digit. -/
theorem atoiLoop_append {digits : List Nat} {rest : List UInt8} (hdigits : ∀ d ∈ digits, d < 10)
    (hrest : ∀ c ∈ rest.head?, ¬isdigit (charValue c)) (num : Int) :
    atoiLoop (digits.map figure ++ rest) num = atoiLoop (digits.map figure) num := by
  induction digits generalizing num with
  | nil =>
      cases rest with
      | nil => rfl
      | cons c rest =>
          rw [List.map_nil, List.nil_append, atoiLoop, atoiLoop, if_neg (hrest c rfl)]
  | cons d digits ih =>
      have hdigit : isdigit (charValue (figure d)) := by
        rw [charValue_figure (hdigits d List.mem_cons_self), isdigit]
        have := hdigits d List.mem_cons_self
        omega
      rw [List.map_cons, List.cons_append, atoiLoop, atoiLoop, if_pos hdigit, if_pos hdigit]
      exact ih (fun e he => hdigits e (List.mem_cons_of_mem d he)) _

/-! ## A number in front of other characters -/

/-- The text of an `int` in front of something else: a sign or a digit, and digits behind it,
and `atoi` reads `value` as long as no further digit comes. -/
structure IntText (value : Int) (text : List UInt8) : Prop where
  first : ∃ c rest, text = c :: rest ∧ (c = 45 ∨ isdigit (charValue c)) ∧
    ∀ d ∈ rest, isdigit (charValue d)
  noNul : 0 ∉ text
  atoi_append : ∀ rest : List UInt8, (∀ c ∈ rest.head?, ¬isdigit (charValue c)) →
    atoi (text ++ rest) = value

/-! ## When `itoa` writes a numeral -/

/-- `itoa` writes a numeral of `value` and returns its length, and in base 10 `atoi` reads
`value` back. -/
def WritesNumeral (value : Int) (base : Nat) (str : Nat) (m : WriteLog) : Prop :=
  ∃ len m' text, itoa value str base m = some (len, m') ∧ StringAt m'.bytes str text ∧
    len = text.length ∧ Numeral value base text ∧
    (base = 10 → atoi (readString m'.bytes str (text.length + 1)) = value)

/-- The text of a numeral has no NUL. -/
theorem Numeral.noNul {base : Nat} {text : List UInt8} (h : Numeral value base text)
    (hbase : base ≤ 16) : 0 ∉ text := by
  obtain ⟨digits, -, hdigits, -, rfl, -⟩ := h
  intro hm
  rcases List.mem_append.mp hm with hm | hm
  · split at hm
    · cases List.mem_singleton.mp hm
    · cases hm
  · obtain ⟨d, hd, hzero⟩ := List.mem_map.mp hm
    have hfigure : ∀ d < 16, figure d ≠ 0 := by decide
    exact hfigure d (Nat.lt_of_lt_of_le (hdigits d hd) hbase) hzero

/-- The text of a number that is not negative, or that is negated in base 10. -/
theorem numeral_itoaText {base : Nat} (hbase : base = 2 ∨ base = 10 ∨ base = 16)
    (lo : -2 ^ 31 ≤ value) (hi : value < 2 ^ 31)
    (hgood : 0 ≤ value ∨ base = 10 ∧ value ≠ -2 ^ 31) :
    Numeral value base (itoaText value base) ∧
      (base = 10 → atoi (itoaText value base) = value) := by
  have htwo : 2 ≤ base := by omega
  have hbase10 : (base : Int) = 10 ↔ base = 10 := by omega
  by_cases hneg : value < 0
  · obtain ⟨rfl, hmin⟩ := hgood.resolve_left (by omega)
    obtain ⟨digits, hne, hdigits, hlead, hchars, hnum⟩ :=
      exists_digits htwo (show value.natAbs < 2 ^ 32 by omega)
    have habs : int32 (-value) = value.natAbs := by
      rw [int32_of_range (by omega) (by omega)]
      omega
    have htext : itoaText value (10 : Nat) = 45 :: digits.map figure := by
      rw [itoaText, if_pos ⟨hneg, rfl⟩, habs]
      exact congrArg (45 :: ·) hchars
    rw [htext]
    refine ⟨⟨digits, hne, hdigits, hlead, ?_, ?_⟩, fun _ => ?_⟩
    · rw [if_pos ⟨hneg, rfl⟩]
      rfl
    · rw [if_pos rfl, hnum]
    · rw [atoi_minus_figures hdigits, hnum, int32_of_range (by omega) (by omega)]
      omega
  · obtain ⟨n, rfl⟩ := Int.eq_ofNat_of_zero_le (Int.not_lt.mp hneg)
    obtain ⟨digits, hne, hdigits, hlead, hchars, hnum⟩ :=
      exists_digits htwo (show n < 2 ^ 32 by omega)
    have htext : itoaText n base = digits.map figure := by
      rw [itoaText, if_neg fun h => hneg h.1, hchars]
    rw [htext]
    refine ⟨⟨digits, hne, hdigits, hlead, ?_, ?_⟩, ?_⟩
    · rw [if_neg fun h => hneg h.1]
      rfl
    · rw [hnum]
      split
      · rfl
      · omega
    · rintro rfl
      rw [atoi_figures hne hdigits, hnum, int32_of_range (by omega) (by omega)]

/-- The text that `itoa` writes in base 10, for any but the smallest `int`. -/
theorem intText_itoaText (lo : -2 ^ 31 < value) (hi : value < 2 ^ 31) :
    IntText value (itoaText value 10) := by
  have hten : 10 = 2 ∨ 10 = 10 ∨ 10 = 16 := Or.inr (Or.inl rfl)
  obtain ⟨hnum, hatoi⟩ := numeral_itoaText hten lo.le hi (Or.inr ⟨rfl, lo.ne'⟩)
  have hnul := hnum.noNul (by decide)
  have hread := hatoi rfl
  obtain ⟨digits, hne, hdigits, -, htext, -⟩ := hnum
  rw [htext] at hread hnul
  rw [show (10 : Int) = (10 : Nat) from rfl, htext]
  have hfigure : ∀ d ∈ digits, isdigit (charValue (figure d)) := by
    intro d hd
    have hlt := hdigits d hd
    rw [charValue_figure hlt, isdigit]
    omega
  have hdigit : ∀ c ∈ digits.map figure, isdigit (charValue c) := by
    intro c hc
    obtain ⟨d, hd, rfl⟩ := List.mem_map.mp hc
    exact hfigure d hd
  by_cases hneg : value < 0
  · rw [if_pos ⟨hneg, rfl⟩, List.singleton_append] at hread hnul ⊢
    refine ⟨⟨45, _, rfl, .inl rfl, hdigit⟩, hnul, fun rest hrest => ?_⟩
    rw [List.cons_append, atoi_minus, atoiLoop_append hdigits hrest, ← atoi_minus, hread]
  · rw [if_neg fun h => hneg h.1, List.nil_append] at hread hnul ⊢
    obtain ⟨d, ds, rfl⟩ := List.exists_cons_of_ne_nil hne
    refine ⟨⟨figure d, ds.map figure, rfl, .inr (hfigure d List.mem_cons_self), fun c hc =>
      hdigit c (List.mem_cons_of_mem _ hc)⟩, hnul, fun rest hrest => ?_⟩
    have hd := hdigits d List.mem_cons_self
    have hloop := atoiLoop_append hdigits hrest 0
    rw [List.map_cons] at hread hloop ⊢
    rw [List.cons_append, atoi_figure hd, ← List.cons_append, hloop, ← atoi_figure hd, hread]

/-- The text of any other number is no numeral. -/
theorem not_numeral_itoaText {base : Nat} (hbase : base = 2 ∨ base = 10 ∨ base = 16)
    (lo : -2 ^ 31 ≤ value) (hbad : ¬(0 ≤ value ∨ base = 10 ∧ value ≠ -2 ^ 31)) :
    ¬Numeral value base (itoaText value base) := by
  rintro ⟨digits, hne, hdigits, -, htext, -⟩
  rw [not_or, Int.not_le] at hbad
  obtain ⟨hneg, hbad⟩ := hbad
  -- behind the sign there are the digits of a number that is still negative
  have hstill : ∃ v : Int, v < 0 ∧ v.natAbs < 2 ^ 32 ∧
      (digitChars base 32 v).reverse = digits.map figure := by
    by_cases hten : base = 10
    · subst hten
      obtain rfl : value = -2 ^ 31 := by
        by_contra hne
        exact hbad ⟨rfl, hne⟩
      rw [itoaText, if_pos ⟨by decide, rfl⟩, if_pos ⟨by decide, rfl⟩] at htext
      exact ⟨int32 (-(-2 ^ 31)), by decide, by decide, List.cons.inj htext |>.2⟩
    · have hnot : ¬(value < 0 ∧ base = 10) := fun h => hten h.2
      have hnot' : ¬(value < 0 ∧ (base : Int) = 10) := fun h => hten (by omega)
      rw [itoaText, if_neg hnot, if_neg hnot'] at htext
      exact ⟨value, hneg, by omega, htext⟩
  obtain ⟨v, hv, habs, hchars⟩ := hstill
  have hbase2 : 2 ≤ (base : Int) := by omega
  have hbase16 : (base : Int) ≤ 16 := by omega
  have hrounds : v.natAbs < 2 ^ (31 + 1) := habs
  obtain ⟨c, hlast, hc⟩ := getLast_digitChars_neg hbase2 hbase16 hv hrounds
  cases digits with
  | nil => exact hne rfl
  | cons d digits =>
      have hfirst := congrArg List.head? hchars
      rw [List.head?_reverse, hlast] at hfirst
      obtain rfl : c = figure d := Option.some.inj hfirst
      have hd := hdigits d List.mem_cons_self
      have hfigure : ∀ d < 16, 48 ≤ (figure d).toNat := by decide
      have hge := hfigure d (by omega)
      omega

/-- What `itoa` writes is its text. -/
theorem writesNumeral_iff {base : Nat} (hbase : base = 2 ∨ base = 10 ∨ base = 16)
    (lo : -2 ^ 31 ≤ value) (hi : value < 2 ^ 31) (str : Nat) (m : WriteLog) :
    WritesNumeral value base str m ↔ Numeral value base (itoaText value base) ∧
      (base = 10 → atoi (itoaText value base) = value) := by
  obtain ⟨m', hrun, hput⟩ := itoa_puts (show 2 ≤ (base : Int) by omega) lo hi str m
  have hstring := hput.stringAt
  have hread : Numeral value base (itoaText value base) →
      readString m'.bytes str ((itoaText value base).length + 1) = itoaText value base := by
    intro hnum
    exact hstring.readString_eq (hnum.noNul (by omega)) (Nat.lt_succ_self _)
  constructor
  · rintro ⟨len, m'', text, hrun', htext, hlen, hnum, hatoi⟩
    rw [hrun, Option.some.injEq, Prod.mk.injEq] at hrun'
    obtain ⟨rfl, rfl⟩ := hrun'
    have hsame : itoaText value base = text := hstring.1.unique htext.1 (by exact_mod_cast hlen)
    subst hsame
    rw [hread hnum] at hatoi
    exact ⟨hnum, hatoi⟩
  · rintro ⟨hnum, hatoi⟩
    refine ⟨_, m', _, hrun, hstring, rfl, hnum, ?_⟩
    rwa [hread hnum]

/-- `itoa` writes a numeral exactly if the number is not negative, or the base is 10 and it is
not the smallest `int`. -/
theorem itoa_iff {base : Nat} (hbase : base = 2 ∨ base = 10 ∨ base = 16) (lo : -2 ^ 31 ≤ value)
    (hi : value < 2 ^ 31) (str : Nat) (m : WriteLog) :
    WritesNumeral value base str m ↔ 0 ≤ value ∨ base = 10 ∧ value ≠ -2 ^ 31 := by
  rw [writesNumeral_iff hbase lo hi]
  constructor
  · rintro ⟨hnum, -⟩
    by_contra hbad
    exact not_numeral_itoaText hbase lo hbad hnum
  · exact numeral_itoaText hbase lo hi

theorem itoa_iff_minus : WritesNumeral (-15) 10 8 ⟨fun _ => 0, []⟩ ↔
    (0 : Int) ≤ -15 ∨ 10 = 10 ∧ (-15 : Int) ≠ -2 ^ 31 :=
  itoa_iff (Or.inr (Or.inl rfl)) (by decide) (by decide) 8 ⟨fun _ => 0, []⟩

/-- Of -1 in base 16 it writes "/". -/
theorem itoa_negative_hex :
    ¬∀ (value : Int) (base str : Nat) (m : WriteLog), base = 2 ∨ base = 10 ∨ base = 16 →
      -2 ^ 31 ≤ value → value < 2 ^ 31 → WritesNumeral value base str m := by
  intro h
  have hwrites := h (-1) 16 0 ⟨fun _ => 0, []⟩ (by decide) (by decide) (by decide)
  rw [writesNumeral_iff (by decide) (by decide) (by decide)] at hwrites
  exact not_numeral_itoaText (by decide) (by decide) (by decide) hwrites.1

end NumberText

end TPE
