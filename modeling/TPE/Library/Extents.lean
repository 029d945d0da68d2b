import Mathlib.Data.List.Defs

/-!
# Extents

An *extent* is a run of blocks with consecutive numbers.  Two extents are *apart* if they have no
block in common.  Extents in the order of their blocks are *laid out* between two bounds if each
begins where the one before it has ended, or later.

First fit goes over the gaps of such a layout and takes the first one that is large enough.  It
finds a place whenever there is one, and no other place is in front of it.
-/

namespace TPE

/-- The blocks from `start` on, `length` of them. -/
structure Extent where
  start : Nat
  length : Nat

namespace Extent

/-- The first block behind. -/
def stop (e : Extent) : Nat := e.start + e.length

/-- The extents have no block in common. -/
def Apart (e f : Extent) : Prop := e.stop ≤ f.start ∨ f.stop ≤ e.start

instance (e f : Extent) : Decidable (e.Apart f) := inferInstanceAs (Decidable (_ ∨ _))

/-- The extent is among the blocks from `lo` up to `hi`. -/
def Within (lo hi : Nat) (e : Extent) : Prop := lo ≤ e.start ∧ e.stop ≤ hi

/-- The extents are laid out from `lo` up to `hi`. -/
def Laid (hi : Nat) : Nat → List Extent → Prop
  | lo, [] => lo ≤ hi
  | lo, e :: es => lo ≤ e.start ∧ Laid hi e.stop es

/-- The first gap for `n` blocks, from `lo` on. -/
def firstFit (hi n : Nat) : Nat → List Extent → Option Nat
  | lo, [] => if n ≤ hi - lo then some lo else none
  | lo, e :: es => if n ≤ e.start - lo then some lo else firstFit hi n e.stop es

variable {lo hi n a b : Nat} {e f : Extent} {es : List Extent}

theorem Apart.symm (h : e.Apart f) : f.Apart e := Or.symm h

/-- A part of an extent is apart from what that is apart from. -/
theorem Apart.mono (h : e.Apart f) {g : Extent} (hstart : e.start ≤ g.start)
    (hstop : g.stop ≤ e.stop) : g.Apart f := by
  rcases h with h | h
  · exact Or.inl (Nat.le_trans hstop h)
  · exact Or.inr (Nat.le_trans h hstart)

/-! ## Layouts -/

theorem Laid.start_le (h : Laid hi lo es) : lo ≤ hi := by
  induction es generalizing lo with
  | nil => exact h
  | cons e es ih =>
      have hstop := ih h.2
      exact Nat.le_trans h.1 (Nat.le_trans (Nat.le_add_right _ _) hstop)

theorem Laid.within (h : Laid hi lo es) (he : e ∈ es) : e.Within lo hi := by
  induction es generalizing lo with
  | nil => exact absurd he List.not_mem_nil
  | cons f es ih =>
      rcases List.mem_cons.mp he with rfl | he
      · exact ⟨h.1, h.2.start_le⟩
      · have hin := ih h.2 he
        exact ⟨Nat.le_trans h.1 (Nat.le_trans (Nat.le_add_right _ _) hin.1), hin.2⟩

/-- Extents that are in order, apart and within the bounds are laid out. -/
theorem laid_of_sorted (hle : lo ≤ hi) (hin : ∀ e ∈ es, e.Within lo hi)
    (hpos : ∀ e ∈ es, 0 < e.length) (hsorted : es.Pairwise fun e f => e.start ≤ f.start)
    (hapart : es.Pairwise Apart) : Laid hi lo es := by
  induction es generalizing lo with
  | nil => exact hle
  | cons e es ih =>
      obtain ⟨hfirst, hsorted⟩ := List.pairwise_cons.mp hsorted
      obtain ⟨haway, hapart⟩ := List.pairwise_cons.mp hapart
      have he := hin e List.mem_cons_self
      refine ⟨he.1, ih he.2 (fun f hf => ?_) (fun f hf => hpos f (List.mem_cons_of_mem _ hf))
        hsorted hapart⟩
      have hf' := hpos f (List.mem_cons_of_mem _ hf)
      have hlater := hfirst f hf
      refine ⟨?_, (hin f (List.mem_cons_of_mem _ hf)).2⟩
      rcases haway f hf with h | h
      · exact h
      · rw [stop] at h
        omega

/-! ## First fit -/

/-- What first fit finds is free. -/
theorem firstFit_free (hlaid : Laid hi lo es) (hn : 0 < n) (h : firstFit hi n lo es = some a) :
    Within lo hi ⟨a, n⟩ ∧ ∀ e ∈ es, Apart ⟨a, n⟩ e := by
  induction es generalizing lo with
  | nil =>
      rw [firstFit] at h
      split at h
      next hfits =>
        obtain rfl := Option.some.inj h
        refine ⟨⟨Nat.le_refl lo, ?_⟩, fun e he => absurd he List.not_mem_nil⟩
        have hstop : stop ⟨lo, n⟩ = lo + n := rfl
        omega
      next => cases h
  | cons e es ih =>
      rw [firstFit] at h
      split at h
      next hfits =>
        obtain rfl := Option.some.inj h
        -- the place ends in front of `e`, and all the others are behind `e`
        have hgap : stop ⟨lo, n⟩ ≤ e.start := by
          have hstop : stop ⟨lo, n⟩ = lo + n := rfl
          omega
        have hbehind : ∀ f ∈ e :: es, e.start ≤ f.start := by
          intro f hf
          rcases List.mem_cons.mp hf with rfl | hf
          · exact Nat.le_refl _
          · exact Nat.le_trans (Nat.le_add_right _ _) (hlaid.2.within hf).1
        refine ⟨⟨Nat.le_refl lo, ?_⟩, fun f hf => Or.inl (Nat.le_trans hgap (hbehind f hf))⟩
        exact Nat.le_trans hgap (Nat.le_trans (Nat.le_add_right _ _) hlaid.2.start_le)
      next =>
        obtain ⟨hin, hfree⟩ := ih hlaid.2 h
        refine ⟨⟨?_, hin.2⟩, fun f hf => ?_⟩
        · exact Nat.le_trans hlaid.1 (Nat.le_trans (Nat.le_add_right _ _) hin.1)
        · rcases List.mem_cons.mp hf with rfl | hf
          · exact Or.inr hin.1
          · exact hfree f hf

/-- No free place is in front of what first fit finds, and if it finds nothing there is none. -/
theorem firstFit_first (hn : 0 < n) (hlo : lo ≤ b) (hb : b + n ≤ hi)
    (hfree : ∀ e ∈ es, Apart ⟨b, n⟩ e) : ∃ a, firstFit hi n lo es = some a ∧ a ≤ b := by
  induction es generalizing lo with
  | nil =>
      refine ⟨lo, ?_, hlo⟩
      rw [firstFit, if_pos (by omega)]
  | cons e es ih =>
      rw [firstFit]
      split
      next => exact ⟨lo, rfl, hlo⟩
      next hgap =>
        refine ih ?_ fun f hf => hfree f (List.mem_cons_of_mem _ hf)
        rcases hfree e List.mem_cons_self with h | h
        · -- then the place is in the gap, which is too small
          have hstop : stop ⟨b, n⟩ = b + n := rfl
          omega
        · exact h

/-- First fit finds a place if there is one. -/
theorem firstFit_isSome_iff (hlaid : Laid hi lo es) (hn : 0 < n) :
    (firstFit hi n lo es).isSome ↔ ∃ b, Within lo hi ⟨b, n⟩ ∧ ∀ e ∈ es, Apart ⟨b, n⟩ e := by
  constructor
  · intro h
    obtain ⟨a, ha⟩ := Option.isSome_iff_exists.mp h
    exact ⟨a, firstFit_free hlaid hn ha⟩
  · rintro ⟨b, hin, hfree⟩
    obtain ⟨a, ha, -⟩ := firstFit_first hn hin.1 hin.2 hfree
    rw [ha]
    rfl

end Extent

end TPE
