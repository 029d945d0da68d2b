import Mathlib.Data.List.Perm.Basic
import Mathlib.Data.List.Nodup
import Mathlib.Data.Set.Insert

/-!
# A pool of resources

Resources that are handed out and given back.  The pool has the free ones in
the order in which they are handed out, and its users have the others.

`Pool.Conserves all` says that nothing is lost and nothing is made up: the free
and the handed out resources together are those of `all`, each as often as it
is in `all`.

An `Allocator` is the interface of such a pool.  It is `Sound` if it hands out nothing that is
in use.
-/

namespace TPE

/-- The free resources and those handed out. -/
structure Pool (α : Type*) where
  free : List α
  handed : List α

namespace Pool

variable {α : Type*} {all free handed : List α} {a : α}

/-- The resources are those of `all`. -/
def Conserves (all : List α) (s : Pool α) : Prop := (s.free ++ s.handed).Perm all

namespace Conserves

theorem start : Conserves all ⟨all, []⟩ := by
  simp [Conserves]

/-- The first free resource is handed out. -/
theorem take (h : Conserves all ⟨a :: free, handed⟩) : Conserves all ⟨free, a :: handed⟩ := by
  exact List.perm_middle.trans h

/-- A resource is given back. -/
theorem give [DecidableEq α] (h : Conserves all ⟨free, handed⟩) (ha : a ∈ handed) :
    Conserves all ⟨a :: free, handed.erase a⟩ := by
  have hperm : handed.Perm (a :: handed.erase a) := List.perm_cons_erase ha
  have hmove : (free ++ a :: handed.erase a).Perm all := (hperm.symm.append_left free).trans h
  exact List.perm_middle.symm.trans hmove

theorem length_eq (h : Conserves all ⟨free, handed⟩) :
    free.length + handed.length = all.length := by
  have hlen := List.Perm.length_eq h
  simpa using hlen

theorem mem_all (h : Conserves all ⟨free, handed⟩) (ha : a ∈ handed) : a ∈ all := by
  exact h.subset (List.mem_append_right free ha)

variable (hall : all.Nodup)
include hall

theorem nodup (h : Conserves all ⟨free, handed⟩) : (free ++ handed).Nodup := by
  exact h.nodup_iff.mpr hall

theorem nodup_free (h : Conserves all ⟨free, handed⟩) : free.Nodup := by
  exact (List.nodup_append.mp (h.nodup hall)).1

theorem nodup_handed (h : Conserves all ⟨free, handed⟩) : handed.Nodup := by
  exact (List.nodup_append.mp (h.nodup hall)).2.1

/-- What is free is not handed out. -/
theorem fresh (h : Conserves all ⟨free, handed⟩) (ha : a ∈ free) : a ∉ handed := by
  intro hm
  exact (List.nodup_append.mp (h.nodup hall)).2.2 a ha a hm rfl

theorem mem_free_iff (h : Conserves all ⟨free, handed⟩) :
    a ∈ free ↔ a ∈ all ∧ a ∉ handed := by
  constructor
  · intro ha
    exact ⟨h.subset (List.mem_append_left handed ha), h.fresh hall ha⟩
  · rintro ⟨ha, hout⟩
    have hm : a ∈ free ++ handed := h.mem_iff.mpr ha
    simpa [hout] using hm

end Conserves

end Pool

/-! ## Allocators -/

/-- How resources of `α` are handed out and given back, with a state of type `σ`. -/
structure Allocator (α σ : Type*) where
  take : σ → Option (α × σ)
  give : σ → α → σ

/-- While the resources `used` are in use, as `Ok` says of the state, none of them is handed
out, and `null` never is. -/
structure Allocator.Sound {α σ : Type*} (A : Allocator α σ) (null : α) (Ok : σ → Set α → Prop) :
    Prop where
  take {s t : σ} {used : Set α} {a : α} : Ok s used → A.take s = some (a, t) →
    a ≠ null ∧ a ∉ used ∧ Ok t (insert a used)
  give {s : σ} {used : Set α} {a : α} : Ok s used → a ∈ used →
    Ok (A.give s a) {b ∈ used | b ≠ a}

namespace Allocator.Sound

variable {α σ : Type*} {A : Allocator α σ} {null : α} {Ok : σ → Set α → Prop} {s : σ}
  {used : Set α}

/-- Resources that are in use are given back one after the other. -/
theorem giveAll (hA : A.Sound null Ok) {l : List α} (h : Ok s used) (hl : ∀ a ∈ l, a ∈ used)
    (hnodup : l.Nodup) : Ok (l.foldl A.give s) {b ∈ used | b ∉ l} := by
  induction l generalizing s used with
  | nil => simpa using h
  | cons a l ih =>
      obtain ⟨ha, hnodup⟩ := List.nodup_cons.mp hnodup
      have hrest := ih (hA.give h (hl a List.mem_cons_self))
        (fun b hb => ⟨hl b (List.mem_cons_of_mem a hb), fun he => ha (he ▸ hb)⟩) hnodup
      have hused : {b ∈ {b ∈ used | b ≠ a} | b ∉ l} = {b ∈ used | b ∉ a :: l} := by
        ext b
        simp only [Set.mem_ofPred_eq, List.mem_cons, not_or, and_assoc]
      rwa [hused] at hrest

end Allocator.Sound

end TPE
