import Mathlib.Data.List.Induction

/-!
# Flags that share bits

Calls switch the flags of some indices on and off.  A flag is on when the last call with its
index switched it on.

A table that has one bit for several indices answers with the last call with any of them.
It is right about a history exactly if the flags of indices with the same bit agree.
-/

namespace TPE

variable {ι κ : Type*}

/-- What the last call with an index of `p` did. -/
def lastSet (p : ι → Bool) (calls : List (ι × Bool)) : Bool :=
  match calls.reverse.find? fun c => p c.1 with
  | none => false
  | some c => c.2

@[simp] theorem lastSet_nil (p : ι → Bool) : lastSet p [] = false := rfl

@[simp] theorem lastSet_concat (p : ι → Bool) (calls : List (ι × Bool)) (c : ι × Bool) :
    lastSet p (calls ++ [c]) = if p c.1 then c.2 else lastSet p calls := by
  rw [lastSet, List.reverse_append, List.reverse_singleton, List.singleton_append, List.find?_cons]
  cases p c.1 with
  | true => rfl
  | false => rfl

variable {p : ι → Bool} {calls : List (ι × Bool)}

theorem lastSet_eq_false (h : ∀ c ∈ calls, p c.1 = false) : lastSet p calls = false := by
  induction calls using List.reverseRecOn with
  | nil => rfl
  | append_singleton calls c ih =>
      rw [lastSet_concat, h c (by simp), if_neg Bool.false_ne_true]
      exact ih fun c hc => h c (List.mem_append_left _ hc)

/-- The last call with one of several indices is the last one with its own index. -/
theorem exists_lastSet [DecidableEq ι] (h : ∃ c ∈ calls, p c.1 = true) :
    ∃ c ∈ calls, p c.1 = true ∧ lastSet p calls = lastSet (fun i => i = c.1) calls := by
  induction calls using List.reverseRecOn with
  | nil =>
      obtain ⟨c, hc, -⟩ := h
      cases hc
  | append_singleton calls c ih =>
      by_cases hp : p c.1 = true
      · refine ⟨c, by simp, hp, ?_⟩
        rw [lastSet_concat, lastSet_concat, if_pos hp, if_pos (decide_eq_true rfl)]
      · obtain ⟨d, hd, hpd⟩ := h
        have hbefore : ∃ c ∈ calls, p c.1 = true := by
          rcases List.mem_append.mp hd with hd | hd
          · exact ⟨d, hd, hpd⟩
          · rw [List.mem_singleton.mp hd] at hpd
            exact absurd hpd hp
        obtain ⟨e, he, hpe, hlast⟩ := ih hbefore
        have hne : ¬decide (c.1 = e.1) = true := by
          rw [decide_eq_true_iff]
          intro hce
          exact hp (hce ▸ hpe)
        refine ⟨e, List.mem_append_left _ he, hpe, ?_⟩
        rw [lastSet_concat, lastSet_concat, if_neg hp, if_neg hne, hlast]

/-- The bits are right for all indices of `D` exactly if the flags that share one agree.  The
calls that meet a bit of `D` are calls with indices of `D`. -/
theorem sharedFlags_iff [DecidableEq ι] [DecidableEq κ] (slot : ι → κ) {D : ι → Prop}
    (hD : ∀ c ∈ calls, ∀ i, D i → slot c.1 = slot i → D c.1) :
    (∀ i, D i →
        lastSet (fun j => slot j = slot i) calls = lastSet (fun j => j = i) calls) ↔
      ∀ i j, D i → D j → slot i = slot j →
        lastSet (fun k => k = i) calls = lastSet (fun k => k = j) calls := by
  constructor
  · intro h i j hi hj hslot
    rw [← h i hi, ← h j hj, hslot]
  · intro h i hi
    by_cases hcall : ∃ c ∈ calls, decide (slot c.1 = slot i) = true
    · obtain ⟨c, hc, hp, hlast⟩ := exists_lastSet (p := fun j => slot j = slot i) hcall
      have hslot := of_decide_eq_true hp
      exact hlast.trans (h _ _ (hD c hc i hi hslot) hi hslot)
    · have hnone : ∀ c ∈ calls, decide (slot c.1 = slot i) = false := by
        intro c hc
        by_contra hne
        exact hcall ⟨c, hc, eq_true_of_ne_false hne⟩
      rw [lastSet_eq_false hnone, lastSet_eq_false]
      intro c hc
      have hne := of_decide_eq_false (hnone c hc)
      exact decide_eq_false fun he => hne (congrArg slot he)

end TPE
