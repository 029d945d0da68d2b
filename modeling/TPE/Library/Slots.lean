import Mathlib.Data.List.Nodup
import Mathlib.Data.List.Perm.Basic
import Mathlib.Data.List.Range
import Mathlib.Logic.Function.Basic

/-!
# A table of slots

A table with `n` slots, each of which holds an object or the mark `e` for an
empty slot.  An object carries the number of its slot.

`SlotsOk` says that the occupied slots are the slots of the objects `live`.
Objects are inserted into an empty slot and cleared through their number.
-/

namespace TPE

open Function

variable {ι : Type*} {n : Nat} {e : ι} {table : Nat → ι} {number number' : ι → Nat}
  {live : List ι} {p : ι}

/-- The table holds the objects `live`, each in the slot with its number. -/
structure SlotsOk (n : Nat) (e : ι) (table : Nat → ι) (number : ι → Nat) (live : List ι) :
    Prop where
  nodup : live.Nodup
  noEmpty : e ∉ live
  entry : ∀ p ∈ live, number p < n ∧ table (number p) = p
  slot : ∀ i, i < n → table i ≠ e → table i ∈ live ∧ number (table i) = i

namespace SlotsOk

/-- An empty table. -/
theorem start (h : ∀ i, i < n → table i = e) : SlotsOk n e table number [] := by
  constructor
  · exact List.nodup_nil
  · simp
  · simp
  · intro i hi hne
    exact absurd (h i hi) hne

/-- An object goes into an empty slot. -/
theorem insert (h : SlotsOk n e table number live) {i : Nat} (hi : i < n) (hfree : table i = e)
    (hp : p ∉ live) (hne : p ≠ e) (hself : number' p = i)
    (hothers : ∀ q ∈ live, number' q = number q) :
    SlotsOk n e (update table i p) number' (p :: live) := by
  have hother : ∀ q ∈ live, number q ≠ i := by
    intro q hq he
    have htable := (h.entry q hq).2
    rw [he, hfree] at htable
    exact h.noEmpty (htable ▸ hq)
  constructor
  · exact List.nodup_cons.mpr ⟨hp, h.nodup⟩
  · simp [h.noEmpty, hne.symm]
  · intro q hq
    rcases List.mem_cons.mp hq with rfl | hq
    · rw [hself, update_self]
      exact ⟨hi, rfl⟩
    · rw [hothers q hq, update_of_ne (hother q hq)]
      exact h.entry q hq
  · intro j hj hocc
    by_cases hji : j = i
    · subst hji
      rw [update_self]
      exact ⟨List.mem_cons_self, hself⟩
    · rw [update_of_ne hji] at hocc ⊢
      obtain ⟨hmem, hnum⟩ := h.slot j hj hocc
      exact ⟨List.mem_cons_of_mem p hmem, (hothers _ hmem).trans hnum⟩

/-- Objects are told apart by their numbers. -/
theorem number_inj (h : SlotsOk n e table number live) {q : ι} (hp : p ∈ live) (hq : q ∈ live)
    (he : number p = number q) : p = q := by
  rw [← (h.entry p hp).2, ← (h.entry q hq).2, he]

theorem mem_iff (h : SlotsOk n e table number live) :
    p ∈ live ↔ p ≠ e ∧ ∃ i, i < n ∧ table i = p := by
  constructor
  · intro hp
    obtain ⟨hlt, hslot⟩ := h.entry p hp
    refine ⟨?_, _, hlt, hslot⟩
    rintro rfl
    exact h.noEmpty hp
  · rintro ⟨hne, i, hi, rfl⟩
    exact (h.slot i hi hne).1

/-- Clearing the slot of one object leaves those of the others. -/
theorem entry_of_clear (h : SlotsOk n e table number live) {q : ι} (hp : p ∈ live) (hq : q ∈ live)
    (hne : q ≠ p) : update table (number p) e (number q) = q := by
  have hnum : number q ≠ number p := fun he => hne (h.number_inj hq hp he)
  rw [update_of_ne hnum]
  exact (h.entry q hq).2

end SlotsOk

variable [DecidableEq ι]

/-- The numbers of the occupied slots, in their order. -/
def occupied (n : Nat) (e : ι) (table : Nat → ι) : List Nat :=
  (List.range n).filter fun i => table i ≠ e

theorem mem_occupied {i : Nat} : i ∈ occupied n e table ↔ i < n ∧ table i ≠ e := by
  simp [occupied]

theorem nodup_occupied : (occupied n e table).Nodup := by
  exact List.nodup_range.filter _

theorem occupied_sorted : (occupied n e table).Pairwise (· < ·) := by
  exact List.pairwise_lt_range.filter _

/-- The number of occupied slots after a write. -/
theorem length_occupied_update (e : ι) (table : Nat → ι) {i : Nat} (hi : i < n) (p : ι) :
    (occupied n e (update table i p)).length + (if table i ≠ e then 1 else 0) =
      (occupied n e table).length + if p ≠ e then 1 else 0 := by
  induction n with
  | zero => exact absurd hi (Nat.not_lt_zero i)
  | succ n ih =>
      simp only [occupied, List.range_succ, List.filter_append, List.length_append] at ih ⊢
      by_cases hin : i = n
      · subst hin
        have hbelow : (List.range i).filter (fun j => update table i p j ≠ e) =
            (List.range i).filter fun j => table j ≠ e := by
          refine List.filter_congr ?_
          intro j hj
          rw [update_of_ne (Nat.ne_of_lt (List.mem_range.mp hj))]
        rw [hbelow]
        by_cases hold : table i = e <;> by_cases hnew : p = e <;> simp [hold, hnew]
      · have hlast : update table i p n = table n := update_of_ne (Ne.symm hin) p table
        have hrest := ih (by omega)
        have hone : [n].filter (fun j => update table i p j ≠ e) =
            [n].filter fun j => table j ≠ e := by
          simp [List.filter_singleton, hlast]
        rw [hone]
        omega

/-! ## Enumeration -/

/-- A loop over the slots from `i` on that lists the objects it finds, and stops
when `left` of them are found. -/
def collectFrom (e : ι) (table : Nat → ι) : Nat → Nat → Int → List ι
  | 0, _, _ => []
  | rounds + 1, i, left =>
      if 0 < left then
        if table i ≠ e then table i :: collectFrom e table rounds (i + 1) (left - 1)
        else collectFrom e table rounds (i + 1) left
      else []

/-- The loop lists the occupied slots it has left, as many of them as it may. -/
theorem collectFrom_eq (rounds i : Nat) (left : Int) :
    collectFrom e table rounds i left =
      (((List.range' i rounds).filter fun i => table i ≠ e).take left.toNat).map table := by
  induction rounds generalizing i left with
  | zero => simp [collectFrom]
  | succ rounds ih =>
      rw [collectFrom, List.range'_succ, List.filter_cons]
      by_cases hleft : 0 < left
      · by_cases hocc : table i ≠ e
        · have hcount : left.toNat = (left - 1).toNat + 1 := by omega
          rw [if_pos hleft, if_pos hocc, if_pos (by simpa using hocc), ih, hcount,
            List.take_succ_cons, List.map_cons]
        · rw [if_pos hleft, if_neg hocc, if_neg (by simpa using hocc), ih]
      · rw [if_neg hleft, Int.toNat_of_nonpos (Int.not_lt.mp hleft), List.take_zero, List.map_nil]

/-- A count that is too small cuts the list off. -/
theorem collectFrom_take (left : Int) :
    collectFrom e table n 0 left = ((occupied n e table).take left.toNat).map table := by
  rw [collectFrom_eq, occupied, List.range_eq_range']

theorem collectFrom_occupied :
    collectFrom e table n 0 (occupied n e table).length = (occupied n e table).map table := by
  rw [collectFrom_take, Int.toNat_natCast, List.take_length]

theorem length_occupied_le : (occupied n e table).length ≤ n := by
  have hle := List.length_filter_le (fun i => decide (table i ≠ e)) (List.range n)
  simpa [occupied] using hle

/-- A slot is empty, or all of them are occupied. -/
theorem length_occupied_lt_iff :
    (occupied n e table).length < n ↔ ∃ i, i < n ∧ table i = e := by
  constructor
  · intro hlt
    by_contra hfull
    push Not at hfull
    have hall : occupied n e table = List.range n := by
      refine List.filter_eq_self.mpr ?_
      intro i hi
      simpa using hfull i (List.mem_range.mp hi)
    rw [hall, List.length_range] at hlt
    exact Nat.lt_irrefl n hlt
  · rintro ⟨i, hi, hempty⟩
    refine Nat.lt_of_le_of_ne length_occupied_le fun hlen => ?_
    have hall := List.length_filter_eq_length_iff.mp
      (hlen.trans List.length_range.symm) i (List.mem_range.mpr hi)
    exact absurd hempty (by simpa using hall)

/-! ## Enumeration into an array -/

section

variable {α : Type*}

/-- The same loop with an array: what it writes and to which index, from index `j` on, and
the index behind the last write. -/
def collectInto (e : ι) (table : Nat → ι) (value : ι → α) :
    Nat → Nat → Nat → Int → List (α × Nat) × Nat
  | 0, _, j, _ => ([], j)
  | rounds + 1, i, j, left =>
      if 0 < left then
        if table i ≠ e then
          let rest := collectInto e table value rounds (i + 1) (j + 1) (left - 1)
          ((value (table i), j) :: rest.1, rest.2)
        else collectInto e table value rounds (i + 1) j left
      else ([], j)

/-- The entries stand one behind the other. -/
theorem collectInto_eq (value : ι → α) (rounds i j : Nat) (left : Int) :
    collectInto e table value rounds i j left =
      (((collectFrom e table rounds i left).map value).zipIdx j,
        j + (collectFrom e table rounds i left).length) := by
  induction rounds generalizing i j left with
  | zero => rfl
  | succ rounds ih =>
      rw [collectInto, collectFrom]
      split
      · split
        · rw [ih]
          simp only [List.map_cons, List.zipIdx_cons, List.length_cons]
          rw [Nat.add_right_comm, Nat.add_assoc]
        · exact ih _ _ _
      · rfl

/-- The loop and a stop mark behind the last entry. -/
theorem collectInto_stop (value : ι → α) (n : Nat) (left : Int) (stop : α) :
    (collectInto e table value n 0 0 left).1 ++ [(stop, (collectInto e table value n 0 0 left).2)] =
      ((collectFrom e table n 0 left).map value ++ [stop]).zipIdx := by
  rw [collectInto_eq, List.zipIdx_append, List.length_map]
  rfl

/-- The writes fill an array of `size` elements from the front with `entries` and with `stop`
behind them. -/
structure Fills (size : Nat) (writes : List (α × Nat)) (entries : List α) (stop : α) : Prop where
  /-- Nothing behind the array is written. -/
  inside : ∀ w ∈ writes, w.2 < size
  written : writes = (entries ++ [stop]).zipIdx

/-- What was found is everything, and the stop mark fits behind it. -/
theorem fills_zipIdx_iff {size : Nat} {found entries : List α} {stop : α} :
    Fills size (found ++ [stop]).zipIdx entries stop ↔ found = entries ∧ found.length < size := by
  constructor
  · rintro ⟨hinside, hwritten⟩
    have hvalues := congrArg (List.map Prod.fst) hwritten
    rw [List.zipIdx_map_fst, List.zipIdx_map_fst] at hvalues
    have hlast : (stop, found.length) ∈ (found ++ [stop]).zipIdx := by
      rw [List.zipIdx_append]
      simp
    exact ⟨List.append_cancel_right hvalues, hinside _ hlast⟩
  · rintro ⟨rfl, hlt⟩
    refine ⟨?_, rfl⟩
    rintro ⟨a, i⟩ hw
    have hi := List.snd_lt_of_mem_zipIdx hw
    rw [List.length_append, List.length_singleton] at hi
    exact Nat.lt_of_lt_of_le hi hlt

end

namespace SlotsOk

/-- The slot of an object is cleared. -/
theorem clear (h : SlotsOk n e table number live) (hp : p ∈ live)
    (hsame : ∀ q ∈ live, number' q = number q) :
    SlotsOk n e (update table (number p) e) number' (live.erase p) := by
  constructor
  · exact h.nodup.erase p
  · intro he
    exact h.noEmpty (List.mem_of_mem_erase he)
  · intro q hq
    obtain ⟨hqp, hq⟩ := (h.nodup.mem_erase_iff).mp hq
    obtain ⟨hlt, hq'⟩ := h.entry q hq
    have hne : number q ≠ number p := by
      intro hnum
      rw [hnum, (h.entry p hp).2] at hq'
      exact hqp hq'.symm
    rw [hsame q hq, update_of_ne hne]
    exact ⟨hlt, hq'⟩
  · intro i hi hocc
    by_cases hip : i = number p
    · rw [hip, update_self] at hocc
      exact absurd rfl hocc
    · rw [update_of_ne hip] at hocc ⊢
      obtain ⟨hmem, hnum⟩ := h.slot i hi hocc
      refine ⟨(h.nodup.mem_erase_iff).mpr ⟨?_, hmem⟩, (hsame _ hmem).trans hnum⟩
      intro he
      rw [he] at hnum
      exact hip hnum.symm

/-- The occupied slots hold the objects, each once. -/
theorem map_occupied_perm (h : SlotsOk n e table number live) :
    ((occupied n e table).map table).Perm live := by
  have hinj : ((occupied n e table).map table).Nodup := by
    refine List.Nodup.map_on ?_ nodup_occupied
    intro i hi j hj he
    have hi' := h.slot i (mem_occupied.mp hi).1 (mem_occupied.mp hi).2
    have hj' := h.slot j (mem_occupied.mp hj).1 (mem_occupied.mp hj).2
    rw [← hi'.2, ← hj'.2, he]
  refine (List.perm_ext_iff_of_nodup hinj h.nodup).mpr ?_
  intro p
  simp only [List.mem_map, mem_occupied, h.mem_iff]
  constructor
  · rintro ⟨i, ⟨hi, hne⟩, rfl⟩
    exact ⟨hne, i, hi, rfl⟩
  · rintro ⟨hne, i, hi, rfl⟩
    exact ⟨i, ⟨hi, hne⟩, rfl⟩

theorem length_occupied (h : SlotsOk n e table number live) :
    (occupied n e table).length = live.length := by
  simpa using h.map_occupied_perm.length_eq

theorem length_le (h : SlotsOk n e table number live) : live.length ≤ n := by
  rw [← h.length_occupied]
  exact length_occupied_le

/-- A slot is empty as long as there are fewer objects than slots. -/
theorem exists_empty (h : SlotsOk n e table number live) (hlt : live.length < n) :
    ∃ i, i < n ∧ table i = e := by
  rw [← length_occupied_lt_iff, h.length_occupied]
  exact hlt

end SlotsOk

end TPE
