import Mathlib.Data.List.Nodup
import Mathlib.Logic.Function.Basic

/-!
# Walks through linked nodes

A singly linked structure is a function `next` from a node to the node after
it.  A *walk* from `a` to `b` lists the nodes it leaves, `a` first, and ends at
`b`.  A list that ends in `NULL` is a walk to `NULL`, and a circular list is a
walk from a node to itself.

The lemmas split walks, say which writes of `next` leave them alone, and say
that a walk to a node it does not leave is unique and visits no node twice.
-/

namespace TPE

open Function

variable {α : Type*}

/-- Following `next` from `a` through the nodes of the list ends at `b`. -/
def Walk (next : α → α) : α → List α → α → Prop
  | a, [], b => a = b
  | a, x :: l, b => a = x ∧ Walk next (next a) l b

namespace Walk

variable {next next' : α → α} {a b c x y : α} {l l' : List α}

@[simp] theorem nil_iff : Walk next a [] b ↔ a = b := Iff.rfl

@[simp] theorem cons_iff : Walk next a (x :: l) b ↔ a = x ∧ Walk next (next a) l b := Iff.rfl

theorem append_iff : Walk next a (l ++ l') c ↔ ∃ b, Walk next a l b ∧ Walk next b l' c := by
  induction l generalizing a with
  | nil =>
      simp only [List.nil_append, nil_iff]
      exact ⟨fun h => ⟨a, rfl, h⟩, fun ⟨_, he, h⟩ => he ▸ h⟩
  | cons x l ih =>
      simp only [List.cons_append, cons_iff, ih]
      exact ⟨fun ⟨he, b, h, h'⟩ => ⟨b, ⟨he, h⟩, h'⟩, fun ⟨b, ⟨he, h⟩, h'⟩ => ⟨he, b, h, h'⟩⟩

theorem append (h : Walk next a l b) (h' : Walk next b l' c) : Walk next a (l ++ l') c :=
  append_iff.mpr ⟨b, h, h'⟩

/-- A walk whose last step leaves `x`. -/
theorem concat_iff : Walk next a (l ++ [x]) b ↔ Walk next a l x ∧ next x = b := by
  simp only [append_iff, cons_iff, nil_iff]
  constructor
  · rintro ⟨c, h, rfl, h'⟩
    exact ⟨h, h'⟩
  · rintro ⟨h, h'⟩
    exact ⟨x, h, rfl, h'⟩

/-- A walk only reads `next` at the nodes it leaves. -/
theorem congr (same : ∀ x ∈ l, next' x = next x) (h : Walk next a l b) : Walk next' a l b := by
  induction l generalizing a with
  | nil => exact h
  | cons x l ih =>
      obtain ⟨rfl, h⟩ := h
      refine ⟨rfl, ?_⟩
      rw [same a List.mem_cons_self]
      exact ih (fun y hy => same y (List.mem_cons_of_mem _ hy)) h

/-- A write of `next` at a node the walk does not leave. -/
theorem write [DecidableEq α] (hx : x ∉ l) (h : Walk next a l b) :
    Walk (update next x y) a l b := by
  apply h.congr
  intro z hz
  have hne : z ≠ x := by
    rintro rfl
    exact hx hz
  exact update_of_ne hne _ _

/-- The node `y` behind `x` is taken out of a walk. -/
theorem unlink [DecidableEq α] (h : Walk next a (l ++ x :: y :: l') b)
    (hnodup : (l ++ x :: y :: l').Nodup) :
    Walk (update next x (next y)) a (l ++ x :: l') b := by
  obtain ⟨c, hl, rfl, rfl, h'⟩ := append_iff.mp h
  obtain ⟨-, hx, hdisjoint⟩ := List.nodup_append.mp hnodup
  have hxl : c ∉ l := fun hm => hdisjoint c hm c List.mem_cons_self rfl
  have hxl' : c ∉ l' := fun hm =>
    (List.nodup_cons.mp hx).1 (List.mem_cons_of_mem _ hm)
  refine append (hl.write hxl) ⟨rfl, ?_⟩
  rw [update_self]
  exact h'.write hxl'

/-- Walks from one node to the same end are equal if neither leaves the end. -/
theorem unique (h : Walk next a l b) (h' : Walk next a l' b) (hb : b ∉ l) (hb' : b ∉ l') :
    l = l' := by
  induction l generalizing a l' with
  | nil =>
      cases l' with
      | nil => rfl
      | cons y l' =>
          obtain ⟨rfl, -⟩ := h'
          rw [nil_iff] at h
          exact absurd List.mem_cons_self (h ▸ hb')
  | cons x l ih =>
      obtain ⟨rfl, h⟩ := h
      cases l' with
      | nil =>
          rw [nil_iff] at h'
          exact absurd List.mem_cons_self (h' ▸ hb)
      | cons y l' =>
          obtain ⟨rfl, h'⟩ := h'
          rw [List.mem_cons, not_or] at hb hb'
          rw [ih h h' hb.2 hb'.2]

/-- A walk to a node it does not leave leaves no node twice. -/
theorem nodup (h : Walk next a l b) (hb : b ∉ l) : l.Nodup := by
  induction l generalizing a with
  | nil => exact List.nodup_nil
  | cons x l ih =>
      have hl := ih h.2 (fun hm => hb (List.mem_cons_of_mem _ hm))
      refine List.nodup_cons.mpr ⟨fun hx => ?_, hl⟩
      -- from the second `x` on, the walk would be as long as from the first
      obtain ⟨l₁, l₂, rfl⟩ := List.append_of_mem hx
      obtain ⟨rfl, -⟩ := id h
      have htail : Walk next a (a :: l₂) b := by
        obtain ⟨c, -, hc⟩ := append_iff.mp h.2
        obtain ⟨rfl, -⟩ := id hc
        exact hc
      have hlen := congrArg List.length (unique h htail hb (fun hm => hb
        (List.mem_cons_of_mem _ (List.mem_append_right _ hm))))
      simp only [List.length_cons, List.length_append] at hlen
      omega

end Walk

end TPE
