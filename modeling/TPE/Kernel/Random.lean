import Mathlib.Data.Nat.Count
import Mathlib.Data.Int.CardIntervalMod
import TPE.Library.Congruential
import TPE.Kernel.CircularBuffer

/-!
# Random numbers

`rand_int` is a linear congruential generator on a 64 bit number, of which it returns the bits 16
to 30.  The dining philosophers sleep for `rand_int_range` seconds, and the producer produces what
`rand_int` returns.
-/

namespace TPE

open Function Congruential

namespace Random

/-! ## The code -/

/-- `rand_int`: what it returns, and `next`. -/
def randInt (next : Nat) : Nat × Nat :=
  let next := (next * 1103515245 + 12345) % 2 ^ 64
  (next / 65536 % 2 ^ 32 % 32768, next)

/-- `rand_int_range` -/
def randIntRange (low top : Int) (next : Nat) : Int × Nat :=
  if top ≤ low then (-1, next)
  else
    let r := int32 (top - low)
    let (n, next) := randInt next
    (int32 ((n : Int).tmod r + low), next)

/-- `srand` -/
def srand (seed : UInt32) : Nat := seed.toNat

/-- `next` after `n` calls. -/
def nextAfter (next n : Nat) : Nat := (fun next => (randInt next).2)^[n] next

/-- What call `n` of `rand_int` returns, counted from 0. -/
def randAt (next n : Nat) : Nat := (randInt (nextAfter next n)).1

/-- The same for `rand_int_range`. -/
def rangeAt (low top : Int) (next n : Nat) : Int := (randIntRange low top (nextAfter next n)).1

variable {next n v : Nat} {low top : Int}

/-! ## `rand_int` -/

theorem randInt_eq (next : Nat) : (randInt next).1 = bits 16 31 (step 1103515245 12345 next) := by
  rw [randInt, bits, step, Nat.mul_comm]
  generalize 1103515245 * next + 12345 = y
  have hsplit : ∀ m, y % (65536 * m) / 65536 = y / 65536 % m := fun m =>
    Nat.mod_mul_right_div_self y 65536 m
  have hhigh : y % 2 ^ 64 / 65536 = y / 65536 % 2 ^ 48 := hsplit (2 ^ 48)
  have hlow : y % 2 ^ 31 / 2 ^ 16 = y / 65536 % 32768 := hsplit 32768
  simp only [hhigh, hlow]
  rw [Nat.mod_mod_of_dvd _ (by decide), Nat.mod_mod_of_dvd _ (by decide)]

theorem nextAfter_modEq (next n : Nat) :
    nextAfter next n ≡ (step 1103515245 12345)^[n] next [MOD 2 ^ 64] := by
  induction n with
  | zero => exact Nat.ModEq.refl next
  | succ n ih =>
      rw [nextAfter, iterate_succ_apply', iterate_succ_apply']
      refine (Nat.mod_modEq _ _).trans ?_
      rw [Nat.mul_comm]
      exact step_modEq ih

/-- The calls return the bits of the generator. -/
theorem randAt_eq (next n : Nat) :
    randAt next n = bits 16 31 ((step 1103515245 12345)^[n] (step 1103515245 12345 next)) := by
  rw [randAt, randInt_eq, ← iterate_succ_apply, iterate_succ_apply']
  exact bits_congr (step_modEq ((nextAfter_modEq next n).of_dvd (by decide)))

theorem nextAfter_add (next m n : Nat) : nextAfter next (m + n) = nextAfter (nextAfter next m) n := by
  rw [Nat.add_comm]
  exact iterate_add_apply _ n m next

theorem randAt_add (next m n : Nat) : randAt next (m + n) = randAt (nextAfter next m) n := by
  rw [randAt, randAt, nextAfter_add]

/-- Among any `2 ^ 31` calls every number below `2 ^ 15` comes up `2 ^ 16` times, and the numbers
repeat after `2 ^ 31` calls and not before. -/
theorem rand_int_cycle (next : Nat) :
    (∀ start v, v < 32768 → ((Finset.range (2 ^ 31)).filter fun n =>
      randAt next (start + n) = v).card = 2 ^ 16) ∧
    ∀ d, Periodic (randAt next) d ↔ 2 ^ 31 ∣ d := by
  have ha : 1103515245 % 4 = 1 := by decide
  have hc : 12345 % 2 = 1 := by decide
  refine ⟨fun start v hv => ?_, fun d => ?_⟩
  · simp only [randAt_add]
    simp only [randAt_eq]
    refine (card_filter_bits (l := 16) (k := 31) ha hc (by decide) (· = v) _).trans ?_
    have hmem : v ∈ Finset.range (2 ^ (31 - 16)) := Finset.mem_range.mpr hv
    rw [Finset.filter_eq', if_pos hmem, Finset.card_singleton, Nat.mul_one]
  · have hperiod := bits_periodic_iff (l := 16) (k := 31) (d := d) ha hc (by decide)
      (step 1103515245 12345 next)
    simp only [← randAt_eq] at hperiod
    exact hperiod

/-! ## `rand_int_range` -/

theorem randInt_lt (next : Nat) : (randInt next).1 < 32768 := Nat.mod_lt _ (by decide)

/-- The remainder of what `rand_int` returns, and the lower bound. -/
theorem rangeAt_eq (hlt : low < top) (hlow : -2 ^ 31 ≤ low) (htop : top < 2 ^ 31)
    (hint : top - low < 2 ^ 31) (next n : Nat) :
    rangeAt low top next n = (randAt next n % (top - low).toNat : Nat) + low := by
  have hr : int32 (top - low) = (top - low).toNat := by
    rw [int32_of_range (by omega) hint]
    omega
  have hmod := Nat.mod_lt (randAt next n) (show 0 < (top - low).toNat by omega)
  rw [randAt] at hmod ⊢
  rw [rangeAt, randIntRange, if_neg (by omega)]
  simp only [hr, ← Int.ofNat_tmod]
  exact int32_of_range (by omega) (by omega)

/-- The numbers are in the range, and among any `2 ^ 31` calls each of them comes up as often as
the numbers below `2 ^ 15` leave it as a remainder, `2 ^ 16` times. -/
theorem rand_int_range_spread (hlt : low < top) (hlow : -2 ^ 31 ≤ low) (htop : top < 2 ^ 31)
    (hint : top - low < 2 ^ 31) (next : Nat) :
    (∀ n, low ≤ rangeAt low top next n ∧ rangeAt low top next n < top) ∧
    ∀ start v, low ≤ v → v < top →
      ((Finset.range (2 ^ 31)).filter fun n => rangeAt low top next (start + n) = v).card =
        2 ^ 16 * (32768 / (top - low).toNat +
          if (v - low).toNat < 32768 % (top - low).toNat then 1 else 0) := by
  have ha : 1103515245 % 4 = 1 := by decide
  have hc : 12345 % 2 = 1 := by decide
  have hpos : 0 < (top - low).toNat := by omega
  refine ⟨fun n => ?_, fun start v hlv hvt => ?_⟩
  · have hmod := Nat.mod_lt (randAt next n) hpos
    rw [rangeAt_eq hlt hlow htop hint]
    omega
  · have hv : (v - low).toNat % (top - low).toNat = (v - low).toNat :=
      Nat.mod_eq_of_lt (by omega)
    have hiff : ∀ n, rangeAt low top next (start + n) = v ↔
        randAt (nextAfter next start) n ≡ (v - low).toNat [MOD (top - low).toNat] := by
      intro n
      rw [rangeAt_eq hlt hlow htop hint, randAt_add, Nat.ModEq, hv]
      omega
    simp only [hiff]
    simp only [randAt_eq]
    refine (card_filter_bits (l := 16) (k := 31) ha hc (by decide)
      (· ≡ (v - low).toNat [MOD (top - low).toNat]) _).trans ?_
    have hrange : 2 ^ (31 - 16) = 32768 := by decide
    rw [← Nat.count_eq_card_filter_range, Nat.count_modEq_card _ hpos, hv, hrange]

/-- The seconds that a philosopher sleeps. -/
theorem rand_int_range_spread_sleep :
    (∀ n, 2 ≤ rangeAt 2 7 (srand 7) n ∧ rangeAt 2 7 (srand 7) n < 7) ∧
    ∀ start v, 2 ≤ v → v < 7 →
      ((Finset.range (2 ^ 31)).filter fun n => rangeAt 2 7 (srand 7) (start + n) = v).card =
        2 ^ 16 * (32768 / ((7 : Int) - 2).toNat +
          if (v - 2).toNat < 32768 % ((7 : Int) - 2).toNat then 1 else 0) :=
  rand_int_range_spread (by decide) (by decide) (by decide) (by decide) (srand 7)

end Random

end TPE
