import Mathlib.Algebra.Order.BigOperators.Group.List
import Mathlib.Algebra.Order.Group.Int
import Mathlib.Algebra.Ring.Int.Defs

/-!
# Serving demands from a supply

Demands are served in order: each gets what it asks for as far as the supply
goes, and the first that meets an empty supply stops the service.

Whether a demand is served depends on the demands in front of it alone: they
have to leave something.
-/

namespace TPE

/-- What the demands get, first to last, up to the one that gets nothing. -/
def share : Int → List Int → List Int
  | _, [] => []
  | supply, a :: as => if 0 < supply then min a supply :: share (supply - min a supply) as else []

@[simp] theorem share_nil (supply : Int) : share supply [] = [] := rfl

variable {supply a : Int} {as : List Int}

theorem share_cons_pos (h : 0 < supply) :
    share supply (a :: as) = min a supply :: share (supply - min a supply) as := if_pos h

theorem share_of_le (h : supply ≤ 0) : share supply as = [] := by
  cases as with
  | nil => rfl
  | cons a as => exact if_neg (by omega)

theorem share_nonneg_sum (hpos : ∀ a ∈ as, 0 < a) : 0 ≤ as.sum := by
  exact List.sum_nonneg fun a ha => (hpos a ha).le

/-- No more is handed out than there is. -/
theorem sum_share_le (as : List Int) (hsupply : 0 ≤ supply) :
    (share supply as).sum ≤ supply := by
  induction as generalizing supply with
  | nil => exact hsupply
  | cons a as ih =>
      by_cases h : 0 < supply
      · rw [share_cons_pos h, List.sum_cons]
        have hrest : (share (supply - min a supply) as).sum ≤ supply - min a supply :=
          ih (by omega)
        omega
      · rw [share_of_le (by omega)]
        exact hsupply

theorem length_share_le (supply : Int) (as : List Int) :
    (share supply as).length ≤ as.length := by
  induction as generalizing supply with
  | nil => exact le_rfl
  | cons a as ih =>
      by_cases h : 0 < supply
      · rw [share_cons_pos h]
        exact Nat.succ_le_succ (ih _)
      · rw [share_of_le (by omega)]
        exact Nat.zero_le _

/-- The service ends with the demands or with the supply. -/
theorem share_exhausts (as : List Int) (hsupply : 0 ≤ supply) :
    (share supply as).length = as.length ∨ supply - (share supply as).sum = 0 := by
  induction as generalizing supply with
  | nil => exact Or.inl rfl
  | cons a as ih =>
      by_cases h : 0 < supply
      · rw [share_cons_pos h, List.sum_cons, List.length_cons, List.length_cons]
        have hrest : (share (supply - min a supply) as).length = as.length ∨
            supply - min a supply - (share (supply - min a supply) as).sum = 0 := ih (by omega)
        omega
      · rw [share_of_le (by omega), List.sum_nil]
        omega

/-- A demand is served if those in front of it do not exhaust the supply. -/
theorem lt_length_share_iff (supply : Int) (hpos : ∀ a ∈ as, 0 < a) {i : Nat} :
    i < (share supply as).length ↔ i < as.length ∧ (as.take i).sum < supply := by
  induction as generalizing supply i with
  | nil => simp
  | cons a as ih =>
      have hrest : ∀ b ∈ as, 0 < b := fun b hb => hpos b (List.mem_cons_of_mem _ hb)
      have ha : 0 < a := hpos a List.mem_cons_self
      have hfront : ∀ j, 0 ≤ (as.take j).sum := fun j =>
        share_nonneg_sum fun b hb => hrest b (List.mem_of_mem_take hb)
      by_cases h : 0 < supply
      · rw [share_cons_pos h]
        cases i with
        | zero => simpa using h
        | succ i =>
            simp only [List.length_cons, Nat.add_lt_add_iff_right, ih _ hrest, List.take_succ_cons,
              List.sum_cons]
            have := hfront i
            omega
      · rw [share_of_le (by omega)]
        have hle : 0 ≤ ((a :: as).take i).sum := by
          cases i with
          | zero => exact le_rfl
          | succ i =>
              have := hfront i
              rw [List.take_succ_cons, List.sum_cons]
              omega
        simp only [List.length_nil, Nat.not_lt_zero, false_iff, not_and, Int.not_lt]
        omega

section Parts

variable {α : Type*} (p : α → Prop) [DecidablePred p] (n : α → Int) {l : List α}

theorem sum_filter_add (l : List α) :
    ((l.filter (p ·)).map n).sum + ((l.filter (¬p ·)).map n).sum = (l.map n).sum := by
  induction l with
  | nil => rfl
  | cons x l ih =>
      by_cases hx : p x
      · simp only [hx, List.filter_cons, decide_true, if_true, not_true_eq_false, decide_false,
          Bool.false_eq_true, if_false, List.map_cons, List.sum_cons, ← ih]
        omega
      · simp only [hx, List.filter_cons, decide_true, if_true, not_false_eq_true, decide_false,
          Bool.false_eq_true, if_false, List.map_cons, List.sum_cons, ← ih]
        omega

/-- What goes to some of those who get something is no more than goes to all. -/
theorem sum_filter_le (hpos : ∀ x ∈ l, 0 < n x) :
    0 ≤ ((l.filter (p ·)).map n).sum ∧ ((l.filter (p ·)).map n).sum ≤ (l.map n).sum := by
  have hpart : ∀ l', l' ⊆ l → 0 ≤ (l'.map n).sum := by
    intro l' hsub
    refine List.sum_nonneg fun m hm => ?_
    obtain ⟨x, hx, rfl⟩ := List.mem_map.mp hm
    exact (hpos x (hsub hx)).le
  have hsplit := sum_filter_add p n l
  have hsome := hpart _ (List.filter_subset_self (p := (p ·)) l)
  have hothers := hpart _ (List.filter_subset_self (p := (¬p ·)) l)
  omega

/-- It is as much exactly if they are all. -/
theorem sum_filter_eq_iff (hpos : ∀ x ∈ l, 0 < n x) :
    ((l.filter (p ·)).map n).sum = (l.map n).sum ↔ ∀ x ∈ l, p x := by
  constructor
  · intro he x hx
    by_contra hnot
    have hsplit := sum_filter_add p n l
    have hmem : n x ∈ (l.filter (¬p ·)).map n :=
      List.mem_map_of_mem (List.mem_filter.mpr ⟨hx, by simpa using hnot⟩)
    have hall : ∀ m ∈ (l.filter (¬p ·)).map n, 0 < m := by
      intro m hm
      obtain ⟨y, hy, rfl⟩ := List.mem_map.mp hm
      exact hpos y (List.mem_filter.mp hy).1
    have hle := List.single_le_sum (fun m hm => (hall m hm).le) _ hmem
    have := hall _ hmem
    omega
  · intro hall
    rw [List.filter_eq_self.mpr fun x hx => by simpa using hall x hx]

end Parts

end TPE
