import Mathlib.Data.List.Basic
import Mathlib.Logic.Function.Basic
import Mathlib.Logic.Relation

/-!
# A stream that is handed out in parcels

What is put into a store is handed out in parcels, the oldest items first, and each parcel is for
one client.  A client takes its parcel some time later, and others may take theirs in between.

What was put in is what the parcels and the store hold, in order, and every client takes exactly
the parcels that were handed out to it.
-/

namespace TPE

open Function

/-- A store and what went through it. -/
@[ext] structure Parcels (ι α : Type*) where
  /-- What was put into the store. -/
  sent : List α
  /-- What is still in the store. -/
  store : List α
  /-- The parcels in the order in which they were handed out. -/
  handed : List (ι × List α)
  /-- The parcels in the order in which they were taken. -/
  taken : List (ι × List α)
  /-- The parcel that a client has not taken yet. -/
  ready : ι → Option (List α)

namespace Parcels

variable {ι α : Type*} [DecidableEq ι] {d e : Parcels ι α} {l : List (ι × List α)} {p q : ι}
  {xs : List α}

/-- The parcels for a client. -/
def parcelsFor (l : List (ι × List α)) (p : ι) : List (List α) :=
  (l.filter (·.1 = p)).map Prod.snd

/-- Nothing is lost, and nothing is taken twice or in another order. -/
structure Inv (d : Parcels ι α) : Prop where
  whole : d.sent = d.handed.flatMap Prod.snd ++ d.store
  each : ∀ p, parcelsFor d.handed p = parcelsFor d.taken p ++ (d.ready p).toList

/-- `xs` is put into the store. -/
def put (d : Parcels ι α) (xs : List α) : Parcels ι α :=
  { d with
    sent := d.sent ++ xs
    store := d.store ++ xs }

/-- The `n` oldest items are handed out to `p`. -/
def hand (d : Parcels ι α) (p : ι) (n : Nat) : Parcels ι α :=
  { d with
    store := d.store.drop n
    handed := d.handed ++ [(p, d.store.take n)]
    ready := update d.ready p (some (d.store.take n)) }

/-- `p` takes its parcel. -/
def take (d : Parcels ι α) (p : ι) (xs : List α) : Parcels ι α :=
  { d with
    taken := d.taken ++ [(p, xs)]
    ready := update d.ready p none }

/-- What can happen. -/
inductive Step (d : Parcels ι α) : Parcels ι α → Prop where
  | put (xs : List α) : Step d (d.put xs)
  | hand {p : ι} (n : Nat) (none : d.ready p = none) : Step d (d.hand p n)
  | take {p : ι} {xs : List α} (ready : d.ready p = some xs) : Step d (d.take p xs)

/-- Any number of steps. -/
abbrev Steps : Parcels ι α → Parcels ι α → Prop := Relation.ReflTransGen Step

theorem Steps.of_eq (h : e = d) : d.Steps e := h ▸ .refl

/-! ## The parcels of one client -/

theorem parcelsFor_append (l l' : List (ι × List α)) (p : ι) :
    parcelsFor (l ++ l') p = parcelsFor l p ++ parcelsFor l' p := by
  rw [parcelsFor, List.filter_append, List.map_append]
  rfl

theorem parcelsFor_singleton_self (p : ι) (xs : List α) : parcelsFor [(p, xs)] p = [xs] := by
  simp [parcelsFor]

theorem parcelsFor_singleton_of_ne (hne : q ≠ p) (xs : List α) : parcelsFor [(p, xs)] q = [] := by
  simp [parcelsFor, Ne.symm hne]

/-! ## Every step -/

theorem Inv.put (h : d.Inv) (xs : List α) : (d.put xs).Inv := by
  refine ⟨?_, h.each⟩
  rw [Parcels.put, h.whole, List.append_assoc]

theorem Inv.hand (h : d.Inv) (n : Nat) (hnone : d.ready p = none) : (d.hand p n).Inv := by
  refine ⟨?_, fun q => ?_⟩
  · simp only [Parcels.hand, List.flatMap_append, List.flatMap_singleton, List.append_assoc,
      List.take_append_drop]
    exact h.whole
  · have heach := h.each q
    simp only [Parcels.hand, parcelsFor_append]
    by_cases hq : q = p
    · subst hq
      rw [hnone, Option.toList_none, List.append_nil] at heach
      rw [heach, parcelsFor_singleton_self, update_self, Option.toList_some]
    · rw [heach, parcelsFor_singleton_of_ne hq, List.append_nil, update_of_ne hq]

theorem Inv.take (h : d.Inv) (hready : d.ready p = some xs) : (d.take p xs).Inv := by
  refine ⟨h.whole, fun q => ?_⟩
  have heach := h.each q
  simp only [Parcels.take, parcelsFor_append]
  by_cases hq : q = p
  · subst hq
    rw [hready, Option.toList_some] at heach
    rw [heach, parcelsFor_singleton_self, update_self, Option.toList_none, List.append_nil]
  · rw [heach, parcelsFor_singleton_of_ne hq, List.append_nil, update_of_ne hq]

theorem Inv.step (h : d.Inv) (hstep : d.Step e) : e.Inv := by
  cases hstep with
  | put xs => exact h.put xs
  | hand n hnone => exact h.hand n hnone
  | take hready => exact h.take hready

theorem Inv.steps (h : d.Inv) (hsteps : d.Steps e) : e.Inv := by
  induction hsteps with
  | refl => exact h
  | tail _ hstep ih => exact ih.step hstep

end Parcels

end TPE
