import Mathlib.Logic.Function.Basic

/-!
# A round table whose last seat comes and goes

Seats `0` to `n - 1` stand around a table, so every seat has one to its left
and one to its right.  At a table for one both are the seat itself, and at a
table for two they are the same seat.

Two things are said about the people at the table.  `Apart` says that no two
neighbours have the property `P`, and `Served` that everybody with the property
`H` has a neighbour with `P`.  The lemmas say what becomes of both when one
person changes and when a seat is put between the last seat and seat `0`, or
taken from there.
-/

namespace TPE.RoundTable

open Function

/-- The seat to the left. -/
def leftOf (n i : Nat) : Nat := (i + n - 1) % n

/-- The seat to the right. -/
def rightOf (n i : Nat) : Nat := (i + 1) % n

variable {n i j : Nat}

theorem leftOf_zero : leftOf (n + 1) 0 = n := by
  simp [leftOf]

theorem leftOf_succ (h : i + 1 < n) : leftOf n (i + 1) = i := by
  rw [leftOf, show i + 1 + n - 1 = i + n by omega, Nat.add_mod_right, Nat.mod_eq_of_lt (by omega)]

theorem rightOf_last : rightOf (n + 1) n = 0 := by
  simp [rightOf]

theorem rightOf_of_lt (h : i + 1 < n) : rightOf n i = i + 1 := Nat.mod_eq_of_lt h

theorem leftOf_lt (h : i < n) : leftOf n i < n := Nat.mod_lt _ (by omega)

theorem rightOf_lt (h : i < n) : rightOf n i < n := Nat.mod_lt _ (by omega)

/-- Where the left neighbour sits. -/
theorem leftOf_cases (h : i < n) : i = 0 ∧ leftOf n i = n - 1 ∨ i ≠ 0 ∧ leftOf n i = i - 1 := by
  cases i with
  | zero =>
      cases n with
      | zero => omega
      | succ m => simp [leftOf_zero]
  | succ k => simp [leftOf_succ h]

/-- Where the right neighbour sits. -/
theorem rightOf_cases (h : i < n) : i + 1 = n ∧ rightOf n i = 0 ∨ i + 1 < n ∧ rightOf n i = i + 1 := by
  rcases Nat.lt_or_eq_of_le (Nat.succ_le_of_lt h) with hlt | rfl
  · exact Or.inr ⟨hlt, rightOf_of_lt hlt⟩
  · exact Or.inl ⟨rfl, rightOf_last⟩

/-- Left and right are inverse to each other. -/
theorem rightOf_leftOf (h : i < n) : rightOf n (leftOf n i) = i := by
  have hr := rightOf_cases (leftOf_lt h)
  rcases leftOf_cases h with hl | hl <;> omega

theorem leftOf_rightOf (h : i < n) : leftOf n (rightOf n i) = i := by
  have hl := leftOf_cases (rightOf_lt h)
  rcases rightOf_cases h with hr | hr <;> omega

/-! ## No two neighbours -/

/-- Two seats next to each other. -/
def Beside (n i j : Nat) : Prop := i ≠ j ∧ (j = leftOf n i ∨ j = rightOf n i)

theorem Beside.symm (hi : i < n) (h : Beside n i j) : Beside n j i := by
  obtain ⟨hne, rfl | rfl⟩ := h
  · exact ⟨hne.symm, Or.inr (rightOf_leftOf hi).symm⟩
  · exact ⟨hne.symm, Or.inl (leftOf_rightOf hi).symm⟩

/-- No two neighbours have the property. -/
def Apart (n : Nat) (P : Nat → Prop) : Prop := ∀ i < n, ∀ j, Beside n i j → P i → ¬P j

variable {P Q H : Nat → Prop}

theorem apart_zero : Apart 0 P := fun _ hi => absurd hi (Nat.not_lt_zero _)

/-- Fewer people with the property. -/
theorem Apart.mono (h : Apart n P) (le : ∀ i < n, Q i → P i) : Apart n Q := by
  intro i hi j hij hQi hQj
  have hj : j < n := by
    rcases hij.2 with rfl | rfl
    · exact leftOf_lt hi
    · exact rightOf_lt hi
  exact h i hi j hij (le i hi hQi) (le j hj hQj)

/-- Somebody between two people without the property gets it. -/
theorem Apart.join (h : Apart n P) (hi : i < n) (hl : ¬P (leftOf n i)) (hr : ¬P (rightOf n i)) :
    Apart n (update P i True) := by
  intro a ha b hab hPa hPb
  by_cases hai : a = i
  · subst hai
    rw [update_of_ne hab.1.symm] at hPb
    rcases hab.2 with rfl | rfl
    · exact hl hPb
    · exact hr hPb
  · rw [update_of_ne hai] at hPa
    by_cases hbi : b = i
    · subst hbi
      rcases (hab.symm ha).2 with rfl | rfl
      · exact hl hPa
      · exact hr hPa
    · rw [update_of_ne hbi] at hPb
      exact h a ha b hab hPa hPb

/-- A seat is put between the last one and seat `0`. -/
theorem Apart.insert (h : Apart n P) (hn : ¬P n) : Apart (n + 1) P := by
  intro i hi j hij hPi hPj
  have hin : i ≠ n := by rintro rfl; exact hn hPi
  have hjn : j ≠ n := by rintro rfl; exact hn hPj
  have hlt : i < n := by omega
  refine h i hlt j ⟨hij.1, ?_⟩ hPi hPj
  have hl := leftOf_cases hi
  have hr := rightOf_cases hi
  have hl' := leftOf_cases hlt
  have hr' := rightOf_cases hlt
  rcases hij.2 with hj | hj <;> omega

/-- The last seat is taken away while not both of its neighbours have the property. -/
theorem Apart.remove (h : Apart (n + 1) P)
    (hends : ¬(P (leftOf (n + 1) n) ∧ P (rightOf (n + 1) n))) : Apart n P := by
  intro i hi j hij hPi hPj
  have hi' : i < n + 1 := by omega
  have hne := hij.1
  by_cases hold : j = leftOf (n + 1) i ∨ j = rightOf (n + 1) i
  · exact h i hi' j ⟨hne, hold⟩ hPi hPj
  · -- the two sat on both sides of the seat that is gone
    rw [not_or] at hold
    have hln : leftOf (n + 1) n = n - 1 := by
      have hcases := leftOf_cases (n := n + 1) (i := n) (by omega)
      omega
    have hrn : rightOf (n + 1) n = 0 := rightOf_last
    have hpair : i = leftOf (n + 1) n ∧ j = rightOf (n + 1) n ∨
        j = leftOf (n + 1) n ∧ i = rightOf (n + 1) n := by
      rcases hij.2 with hj | hj
      · have hl := leftOf_cases hi'
        have hl' := leftOf_cases hi
        omega
      · have hr := rightOf_cases hi'
        have hr' := rightOf_cases hi
        omega
    rcases hpair with ⟨rfl, rfl⟩ | ⟨rfl, rfl⟩
    · exact hends ⟨hPi, hPj⟩
    · exact hends ⟨hPj, hPi⟩

/-! ## A neighbour for everybody in need -/

/-- Everybody with the property `H` has a neighbour with the property `P`. -/
def Served (n : Nat) (H P : Nat → Prop) : Prop :=
  ∀ i < n, H i → P (leftOf n i) ∨ P (rightOf n i)

theorem served_zero : Served 0 H P := fun _ hi => absurd hi (Nat.not_lt_zero _)

theorem Served.mono {H' P' : Nat → Prop} (h : Served n H P) (hH : ∀ i < n, H' i → H i)
    (hP : ∀ i < n, P i → P' i) : Served n H' P' := by
  intro i hi hHi
  exact (h i hi (hH i hi hHi)).imp (hP _ (leftOf_lt hi)) (hP _ (rightOf_lt hi))

/-- One more person in need, who has a neighbour. -/
theorem Served.add (h : Served n (fun j => H j ∧ j ≠ i) P)
    (hi : H i → P (leftOf n i) ∨ P (rightOf n i)) : Served n H P := by
  intro j hj hHj
  by_cases hji : j = i
  · subst hji
    exact hi hHj
  · exact h j hj ⟨hHj, hji⟩

/-- Somebody loses the property.  Only the two neighbours may be in need then. -/
theorem Served.leave (h : Served n H P) (hi : i < n) :
    Served n (fun j => (H j ∧ j ≠ rightOf n i) ∧ j ≠ leftOf n i) (update P i False) := by
  rintro j hj ⟨⟨hHj, hright⟩, hleft⟩
  have hl : leftOf n j ≠ i := by
    rintro rfl
    exact hright (rightOf_leftOf hj).symm
  have hr : rightOf n j ≠ i := by
    rintro rfl
    exact hleft (leftOf_rightOf hj).symm
  rw [update_of_ne hl, update_of_ne hr]
  exact h j hj hHj

/-- The people at the two ends have their neighbour on the other side. -/
def EndsServed (n : Nat) (H P : Nat → Prop) : Prop :=
  0 < n → (H (n - 1) → P (leftOf n (n - 1))) ∧ (H 0 → P (rightOf n 0))

/-- A seat is put between the last one and seat `0`, for somebody without either
property.  This separates the two people at the ends. -/
theorem Served.insert_iff (h : Served n H P) (hH : ¬H n) (hP : ¬P n) (hd : ∀ i < n, H i → ¬P i) :
    Served (n + 1) H P ↔ EndsServed n H P := by
  constructor
  · intro hs hpos
    have hlast : n - 1 < n := by omega
    have hl := leftOf_cases hlast
    have hr := rightOf_cases hpos
    have hl₁ := leftOf_cases (n := n + 1) (i := n - 1) (by omega)
    have hr₁ := rightOf_cases (n := n + 1) (i := n - 1) (by omega)
    have hl₂ := leftOf_cases (n := n + 1) (i := 0) (by omega)
    have hr₂ := rightOf_cases (n := n + 1) (i := 0) (by omega)
    constructor
    · intro hHl
      rcases hs (n - 1) (by omega) hHl with hside | hside
      · rcases hl₁ with ⟨-, he⟩ | ⟨hne, he⟩
        · rw [he] at hside
          exact absurd hside hP
        · rw [he] at hside
          rwa [show leftOf n (n - 1) = n - 1 - 1 by omega]
      · rw [show rightOf (n + 1) (n - 1) = n by omega] at hside
        exact absurd hside hP
    · intro hH0
      rcases hs 0 (by omega) hH0 with hside | hside
      · rw [show leftOf (n + 1) 0 = n by omega] at hside
        exact absurd hside hP
      · rcases hr with ⟨hone, he⟩ | ⟨-, he⟩
        · rw [show rightOf (n + 1) 0 = n by omega] at hside
          exact absurd hside hP
        · rw [show rightOf (n + 1) 0 = 1 by omega] at hside
          rwa [he]
  · intro hends i hi hHi
    have hin : i ≠ n := by rintro rfl; exact hH hHi
    have hlt : i < n := by omega
    obtain ⟨hlast, hfirst⟩ := hends (by omega)
    have hl := leftOf_cases hi
    have hr := rightOf_cases hi
    have hl' := leftOf_cases hlt
    have hr' := rightOf_cases hlt
    -- a table for one: the person in need would be the own neighbour
    have htwo : 1 < n := by
      by_contra hle
      have hone : n = 1 := by omega
      subst hone
      have hzero : i = 0 := by omega
      subst hzero
      exact hd 0 (by omega) hHi (hfirst hHi)
    by_cases hi0 : i = 0
    · subst hi0
      refine Or.inr ?_
      rw [show rightOf (n + 1) 0 = rightOf n 0 by omega]
      exact hfirst hHi
    · by_cases hil : i = n - 1
      · refine Or.inl ?_
        subst hil
        rw [show leftOf (n + 1) (n - 1) = leftOf n (n - 1) by omega]
        exact hlast hHi
      · rw [show leftOf (n + 1) i = leftOf n i by omega,
          show rightOf (n + 1) i = rightOf n i by omega]
        exact h i hlt hHi

/-- The last seat is taken away from somebody without the property `P`. -/
theorem Served.remove (h : Served (n + 1) H P) (hP : ¬P n) : Served n H P := by
  intro i hi hHi
  have hl := leftOf_cases (n := n + 1) (i := i) (by omega)
  have hr := rightOf_cases (n := n + 1) (i := i) (by omega)
  have hl' := leftOf_cases hi
  have hr' := rightOf_cases hi
  rcases h i (by omega) hHi with hside | hside
  · by_cases hn : leftOf (n + 1) i = n
    · exact absurd (hn ▸ hside) hP
    · rw [show leftOf n i = leftOf (n + 1) i by omega]
      exact Or.inl hside
  · by_cases hn : rightOf (n + 1) i = n
    · exact absurd (hn ▸ hside) hP
    · rw [show rightOf n i = rightOf (n + 1) i by omega]
      exact Or.inr hside

end TPE.RoundTable
