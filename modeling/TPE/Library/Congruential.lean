import Mathlib.Data.Nat.ModEq
import Mathlib.Data.Nat.Prime.Basic
import Mathlib.Algebra.Ring.Periodic
import Mathlib.Logic.Function.Iterate
import Mathlib.Algebra.BigOperators.Group.Finset.Basic
import Mathlib.Order.Interval.Finset.Nat
import Mathlib.Tactic.Ring

/-!
# Linear congruential generators

A generator goes from `x` to `a * x + c`, and `k` bits of its state are kept.  If `a` is one more
than a multiple of four and `c` is odd, they take each of their values once in `2 ^ k` steps.

The argument is about `2 ^ k` steps at a time: they add an odd multiple of `2 ^ k`.  So they leave
the lower bits alone and turn bit `k` over.

A generator usually returns its upper bits only.  They have the same period, and each value comes
up equally often in it.
-/

namespace TPE

open Function

namespace Congruential

/-- One step. -/
def step (a c x : Nat) : Nat := a * x + c

/-- The lowest `k` bits but for the lowest `l`. -/
def bits (l k x : Nat) : Nat := x % 2 ^ k / 2 ^ l

variable {a c k l m n d x y : Nat}

theorem step_modEq (h : x ≡ y [MOD m]) : step a c x ≡ step a c y [MOD m] :=
  (h.mul_left a).add_right c

theorem iterate_modEq (h : x ≡ y [MOD m]) (n : Nat) :
    (step a c)^[n] x ≡ (step a c)^[n] y [MOD m] := by
  induction n with
  | zero => exact h
  | succ n ih =>
      rw [iterate_succ_apply', iterate_succ_apply']
      exact step_modEq ih

section FullPeriod

variable (ha : a % 4 = 1) (hc : c % 2 = 1)
include ha hc

/-- `2 ^ k` steps are one step with other numbers. -/
theorem exists_step_two_pow (k : Nat) :
    ∃ u w, ∀ x, (step a c)^[2 ^ k] x = (1 + 2 ^ (k + 2) * u) * x + 2 ^ k * (2 * w + 1) := by
  induction k with
  | zero =>
      refine ⟨a / 4, c / 2, fun x => ?_⟩
      have ha' : 1 + 2 ^ (0 + 2) * (a / 4) = a := by omega
      have hc' : 2 ^ 0 * (2 * (c / 2) + 1) = c := by omega
      rw [ha', hc']
      rfl
  | succ k ih =>
      obtain ⟨u, w, h⟩ := ih
      refine ⟨u + 2 ^ (k + 1) * u * u, w + 2 ^ k * u * (2 * w + 1), fun x => ?_⟩
      rw [Nat.pow_succ, Nat.mul_two, iterate_add_apply, h, h]
      ring

/-- They add `2 ^ k`, as far as the bits up to `k` are concerned. -/
theorem iterate_two_pow_modEq (k x : Nat) :
    (step a c)^[2 ^ k] x ≡ x + 2 ^ k [MOD 2 ^ (k + 1)] := by
  obtain ⟨u, w, h⟩ := exists_step_two_pow ha hc k
  have hsum : (step a c)^[2 ^ k] x = x + 2 ^ k + 2 ^ (k + 1) * (2 * u * x + w) := by
    rw [h]
    ring
  rw [hsum]
  exact Nat.add_modEq_left_iff.mpr ⟨_, rfl⟩

theorem iterate_mul_two_pow_modEq (k n x : Nat) :
    (step a c)^[2 ^ k * n] x ≡ x + 2 ^ k * n [MOD 2 ^ (k + 1)] := by
  induction n with
  | zero => exact Nat.ModEq.refl x
  | succ n ih =>
      rw [Nat.mul_succ, Nat.add_comm (2 ^ k * n), iterate_add_apply]
      refine (iterate_two_pow_modEq ha hc k _).trans ?_
      have hnext := ih.add_right (2 ^ k)
      rwa [Nat.add_assoc, Nat.add_comm (2 ^ k * n)] at hnext

/-- The lowest `k` bits come back after a multiple of `2 ^ k` steps, and not in between. -/
theorem iterate_modEq_self_iff (k n x : Nat) :
    (step a c)^[n] x ≡ x [MOD 2 ^ k] ↔ 2 ^ k ∣ n := by
  induction k with
  | zero => simp [Nat.modEq_one]
  | succ k ih =>
      constructor
      · intro h
        obtain ⟨q, rfl⟩ := ih.mp (h.of_dvd (pow_dvd_pow 2 (Nat.le_succ k)))
        have hsum := (iterate_mul_two_pow_modEq ha hc k q x).symm.trans h
        have hzero : 2 ^ k * q ≡ 0 [MOD 2 ^ (k + 1)] :=
          Nat.ModEq.add_left_cancel' x hsum
        exact (Nat.modEq_zero_iff_dvd).mp hzero
      · rintro ⟨q, rfl⟩
        rw [Nat.pow_succ, Nat.mul_assoc]
        refine (iterate_mul_two_pow_modEq ha hc k (2 * q) x).trans ?_
        rw [← Nat.mul_assoc, ← Nat.pow_succ]
        exact Nat.add_modEq_left_iff.mpr ⟨q, rfl⟩

theorem iterate_modEq_iff (h : m ≤ n) :
    (step a c)^[n] x ≡ (step a c)^[m] x [MOD 2 ^ k] ↔ 2 ^ k ∣ n - m := by
  rw [← iterate_modEq_self_iff ha hc k (n - m) ((step a c)^[m] x), ← iterate_add_apply,
    Nat.sub_add_cancel h]

/-- The states of `2 ^ k` steps differ in their lowest `k` bits. -/
theorem iterate_injOn (k x : Nat) :
    Set.InjOn (fun n => (step a c)^[n] x % 2 ^ k) (Finset.range (2 ^ k)) := by
  have hle : ∀ m n, m ≤ n → n < 2 ^ k →
      (step a c)^[n] x ≡ (step a c)^[m] x [MOD 2 ^ k] → m = n := by
    intro m n hmn hn h
    have hzero := Nat.eq_zero_of_dvd_of_lt ((iterate_modEq_iff ha hc hmn).mp h) (by omega)
    omega
  intro m hm n hn h
  rw [Finset.mem_coe, Finset.mem_range] at hm hn
  rcases Nat.le_total m n with hmn | hnm
  · exact hle m n hmn hn h.symm
  · exact (hle n m hnm hm h).symm

/-- So they take every value. -/
theorem image_iterate (k x : Nat) :
    (Finset.range (2 ^ k)).image (fun n => (step a c)^[n] x % 2 ^ k) = Finset.range (2 ^ k) := by
  refine Finset.eq_of_subset_of_card_le (fun y hy => ?_) ?_
  · obtain ⟨n, -, rfl⟩ := Finset.mem_image.mp hy
    exact Finset.mem_range.mpr (Nat.mod_lt _ (Nat.two_pow_pos k))
  · rw [Finset.card_image_of_injOn (iterate_injOn ha hc k x)]

/-- In `2 ^ k` steps a property of the bits holds as often as it holds of a number below `2 ^ k`. -/
theorem card_filter_iterate (P : Nat → Prop) [DecidablePred P] (k x : Nat) :
    ((Finset.range (2 ^ k)).filter fun n => P ((step a c)^[n] x % 2 ^ k)).card =
      ((Finset.range (2 ^ k)).filter P).card := by
  conv_rhs => rw [← image_iterate ha hc k x, Finset.filter_image]
  refine (Finset.card_image_of_injOn ((iterate_injOn ha hc k x).mono fun n hn => ?_)).symm
  exact Finset.mem_coe.mpr (Finset.mem_of_mem_filter n hn)

end FullPeriod

/-! ## The upper bits -/

/-- The numbers with given upper bits. -/
theorem card_filter_div_eq (hlk : l ≤ k) {v : Nat} (hv : v < 2 ^ (k - l)) :
    ((Finset.range (2 ^ k)).filter fun y => y / 2 ^ l = v).card = 2 ^ l := by
  have hpos : 0 < 2 ^ l := Nat.two_pow_pos l
  have hsplit : 2 ^ (k - l) * 2 ^ l = 2 ^ k := by rw [← Nat.pow_add, Nat.sub_add_cancel hlk]
  have htop : (v + 1) * 2 ^ l ≤ 2 ^ k := hsplit ▸ Nat.mul_le_mul_right _ hv
  have hset : (Finset.range (2 ^ k)).filter (fun y => y / 2 ^ l = v) =
      Finset.Ico (v * 2 ^ l) ((v + 1) * 2 ^ l) := by
    ext y
    rw [Finset.mem_filter, Finset.mem_range, Finset.mem_Ico, Nat.div_eq_iff hpos]
    rw [Nat.add_mul, Nat.one_mul] at htop ⊢
    omega
  rw [hset, Nat.card_Ico, Nat.add_mul, Nat.one_mul, Nat.add_sub_cancel_left]

/-- The numbers with a property of the upper bits. -/
theorem card_filter_div (hlk : l ≤ k) (P : Nat → Prop) [DecidablePred P] :
    ((Finset.range (2 ^ k)).filter fun y => P (y / 2 ^ l)).card =
      2 ^ l * ((Finset.range (2 ^ (k - l))).filter P).card := by
  have hsplit : 2 ^ l * 2 ^ (k - l) = 2 ^ k := by rw [← Nat.pow_add, Nat.add_sub_cancel' hlk]
  rw [Finset.card_eq_sum_card_fiberwise (f := (· / 2 ^ l))
    (t := (Finset.range (2 ^ (k - l))).filter P)]
  · have hfiber : ∀ v ∈ (Finset.range (2 ^ (k - l))).filter P,
        (((Finset.range (2 ^ k)).filter fun y => P (y / 2 ^ l)).filter (· / 2 ^ l = v)).card =
          2 ^ l := by
      intro v hv
      obtain ⟨hlt, hp⟩ := Finset.mem_filter.mp hv
      refine Eq.trans ?_ (card_filter_div_eq hlk (Finset.mem_range.mp hlt))
      rw [Finset.filter_filter]
      refine congrArg Finset.card (Finset.filter_congr fun y _ => and_iff_right_of_imp ?_)
      rintro rfl
      exact hp
    rw [Finset.sum_congr rfl hfiber, Finset.sum_const, smul_eq_mul, Nat.mul_comm]
  · intro y hy
    obtain ⟨hlt, hp⟩ := Finset.mem_filter.mp (Finset.mem_coe.mp hy)
    refine Finset.mem_coe.mpr (Finset.mem_filter.mpr ⟨Finset.mem_range.mpr ?_, hp⟩)
    exact Nat.div_lt_of_lt_mul (hsplit ▸ Finset.mem_range.mp hlt)

/-- The last bit turned over changes the upper bits. -/
theorem bits_add_two_pow_ne (hlk : l ≤ k) (x : Nat) :
    bits l (k + 1) (x + 2 ^ k) ≠ bits l (k + 1) x := by
  have hsplit : 2 ^ k = 2 ^ l * 2 ^ (k - l) := by rw [← Nat.pow_add, Nat.add_sub_cancel' hlk]
  have hpos : 0 < 2 ^ l := Nat.two_pow_pos l
  have hmore : 0 < 2 ^ (k - l) := Nat.two_pow_pos (k - l)
  have hlt := Nat.mod_lt x (Nat.two_pow_pos (k + 1))
  have hdouble : 2 ^ (k + 1) = 2 ^ k + 2 ^ k := by rw [Nat.pow_succ, Nat.mul_two]
  unfold bits
  rw [Nat.add_mod, Nat.mod_eq_of_lt (a := 2 ^ k) (by omega)]
  generalize x % 2 ^ (k + 1) = y at hlt ⊢
  by_cases hy : y < 2 ^ k
  · rw [Nat.mod_eq_of_lt (by omega), hsplit, Nat.add_mul_div_left _ _ hpos]
    omega
  · obtain ⟨z, rfl⟩ := Nat.exists_eq_add_of_le (Nat.not_lt.mp hy)
    have hturn : (2 ^ k + z + 2 ^ k) % 2 ^ (k + 1) = z := by
      rw [Nat.add_right_comm, ← hdouble, Nat.add_mod_left, Nat.mod_eq_of_lt (by omega)]
    rw [hturn, Nat.add_comm, hsplit, Nat.add_mul_div_left _ _ hpos]
    omega

theorem bits_congr (h : x ≡ y [MOD 2 ^ k]) : bits l k x = bits l k y := by
  have hmod : x % 2 ^ k = y % 2 ^ k := h
  rw [bits, bits, hmod]

/-- With two periods their greatest common divisor is one. -/
theorem periodic_gcd {α : Type*} {r : Nat → α} (hd : Periodic r d) (hm : Periodic r m) :
    Periodic r (d.gcd m) := by
  by_cases hlt : d.gcd m < m
  · obtain ⟨q, -, hq⟩ := Nat.exists_mul_mod_eq_gcd hlt
    intro n
    have hsum := Nat.mod_add_div (d * q) m
    rw [hq] at hsum
    have hback := hm.nat_mul (d * q / m) (n + d.gcd m)
    have hforth := hd.nat_mul q n
    rw [Nat.cast_id, Nat.mul_comm, Nat.add_assoc, hsum] at hback
    rw [Nat.cast_id, Nat.mul_comm] at hforth
    exact hback.symm.trans hforth
  · rcases Nat.eq_zero_or_pos m with rfl | hpos
    · rwa [Nat.gcd_zero_right]
    · rwa [Nat.le_antisymm (Nat.gcd_le_right d hpos) (Nat.not_lt.mp hlt)]

section Bits

variable (ha : a % 4 = 1) (hc : c % 2 = 1)
include ha hc

/-- In `2 ^ k` steps each value of the upper bits comes up `2 ^ l` times. -/
theorem card_filter_bits (hlk : l ≤ k) (P : Nat → Prop) [DecidablePred P] (x : Nat) :
    ((Finset.range (2 ^ k)).filter fun n => P (bits l k ((step a c)^[n] x))).card =
      2 ^ l * ((Finset.range (2 ^ (k - l))).filter P).card :=
  (card_filter_iterate ha hc (fun y => P (y / 2 ^ l)) k x).trans (card_filter_div hlk P)

/-- The period of the upper bits is that of the state. -/
theorem bits_periodic_iff (hlk : l < k) (x : Nat) :
    Periodic (fun n => bits l k ((step a c)^[n] x)) d ↔ 2 ^ k ∣ d := by
  have hfull : Periodic (fun n => bits l k ((step a c)^[n] x)) (2 ^ k) := fun n =>
    bits_congr ((iterate_modEq_iff ha hc (Nat.le_add_right n _)).mpr (by
      rw [Nat.add_sub_cancel_left]))
  constructor
  · intro h
    by_contra hdvd
    obtain ⟨k, rfl⟩ := Nat.exists_eq_succ_of_ne_zero (Nat.ne_zero_of_lt hlk)
    obtain ⟨j, hj, hgcd⟩ := (Nat.dvd_prime_pow Nat.prime_two).mp (Nat.gcd_dvd_right d (2 ^ (k + 1)))
    have hjk : j ≤ k := by
      refine Nat.le_of_lt_succ (Nat.lt_of_le_of_ne hj ?_)
      rintro rfl
      exact hdvd (Nat.gcd_eq_right_iff_dvd.mp hgcd)
    -- so half of `2 ^ (k + 1)` steps are a period, but they turn bit `k` over
    have hhalf := (periodic_gcd h hfull).nat_mul (2 ^ (k - j)) 0
    have hsize : 2 ^ (k - j) * 2 ^ j = 2 ^ k := by rw [← Nat.pow_add, Nat.sub_add_cancel hjk]
    rw [hgcd, Nat.cast_id, hsize, Nat.zero_add] at hhalf
    have hturned := bits_congr (l := l) (iterate_two_pow_modEq ha hc k x)
    exact bits_add_two_pow_ne (Nat.le_of_lt_succ hlk) x (hturned.symm.trans hhalf)
  · rintro ⟨q, rfl⟩
    have hmul := hfull.nat_mul q
    rwa [Nat.cast_id, Nat.mul_comm] at hmul

end Bits

end Congruential

end TPE
