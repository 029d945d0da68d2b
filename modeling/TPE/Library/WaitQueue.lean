import Mathlib.Data.Set.Insert
import Mathlib.Logic.Function.Basic

/-!
# Waiting for a ticket

A process that has to wait registers a ticket and blocks itself, in two steps.
Whoever takes the ticket wakes the process up.  Between the two steps the
ticket can be taken from a process that is not blocked yet: the wake-up is lost,
and the process blocks with nobody left to wake it.

`WaitInv` holds as long as a ticket is only taken when its process is past its
block.
-/

namespace TPE

open Function

/-- How far a process is with its ticket. -/
inductive Stage (τ : Type*) where
  /-- It has no ticket. -/
  | out
  /-- It has registered the ticket and not blocked itself yet. -/
  | registered (t : τ)
  /-- It has blocked itself and not resumed yet. -/
  | waiting (t : τ)

/-- The ticket of a process. -/
def Stage.ticket {τ : Type*} : Stage τ → Option τ
  | .out => none
  | .registered t => some t
  | .waiting t => some t

/-- The registered tickets and the processes. -/
@[ext]
structure WaitState (ι τ : Type*) where
  tickets : Set τ
  blocked : ι → Prop
  stage : ι → Stage τ

variable {ι τ : Type*} {s : WaitState ι τ}

/-- A process waits blocked exactly as long as its ticket is registered. -/
structure WaitInv (s : WaitState ι τ) : Prop where
  registered : ∀ p t, s.stage p = .registered t → t ∈ s.tickets
  waiting : ∀ p t, s.stage p = .waiting t → (t ∈ s.tickets ↔ s.blocked p)
  owner : ∀ t ∈ s.tickets, ∃ p, (s.stage p).ticket = some t
  unique : ∀ p q t, (s.stage p).ticket = some t → (s.stage q).ticket = some t → p = q

namespace WaitInv

theorem of_eq {s' : WaitState ι τ} (h : WaitInv s) (he : s' = s) : WaitInv s' := he ▸ h

/-- Before anybody waits. -/
theorem start (hstage : ∀ p, s.stage p = .out) (htickets : s.tickets = ∅) : WaitInv s := by
  refine ⟨fun p t h => ?_, fun p t h => ?_, fun t ht => ?_, fun p q t h => ?_⟩
  · rw [hstage p] at h
    cases h
  · rw [hstage p] at h
    cases h
  · rw [htickets] at ht
    exact absurd ht (Set.notMem_empty t)
  · rw [hstage p] at h
    cases h

/-- A blocked process still has its ticket registered: no wake-up is lost. -/
theorem ticket_mem (h : WaitInv s) {p : ι} {t : τ} (hp : s.stage p = .waiting t)
    (hb : s.blocked p) : t ∈ s.tickets :=
  (h.waiting p t hp).mpr hb

/-- What happens to processes without a ticket does not matter. -/
theorem reblock {blocked : ι → Prop} (h : WaitInv s)
    (hb : ∀ p, s.stage p ≠ .out → (blocked p ↔ s.blocked p)) : WaitInv { s with blocked } := by
  refine ⟨h.registered, fun p t hp => ?_, h.owner, h.unique⟩
  have hne : s.stage p ≠ .out := fun hout => nomatch hp.symm.trans hout
  exact (h.waiting p t hp).trans (hb p hne).symm

variable [DecidableEq ι]

/-- A process registers a ticket nobody has. -/
theorem register (h : WaitInv s) {p : ι} {t : τ} (hp : s.stage p = .out)
    (fresh : ∀ q, (s.stage q).ticket ≠ some t) :
    WaitInv { s with
      tickets := insert t s.tickets
      stage := update s.stage p (.registered t) } := by
  refine ⟨fun q u hq => ?_, fun q u hq => ?_, fun u hu => ?_, fun q r u hq hr => ?_⟩
  · by_cases hqp : q = p
    · subst hqp
      simp only [update_self] at hq
      cases hq
      exact Set.mem_insert _ _
    · simp only [update_of_ne hqp] at hq
      exact Set.mem_insert_of_mem _ (h.registered q u hq)
  · by_cases hqp : q = p
    · subst hqp
      simp only [update_self] at hq
      cases hq
    · simp only [update_of_ne hqp] at hq
      have hne : u ≠ t := by
        rintro rfl
        exact fresh q (hq ▸ rfl)
      rw [Set.mem_insert_iff, or_iff_right hne]
      exact h.waiting q u hq
  · rcases hu with rfl | hu
    · refine ⟨p, ?_⟩
      simp only [update_self]
      rfl
    · obtain ⟨q, hq⟩ := h.owner u hu
      have hqp : q ≠ p := by
        rintro rfl
        rw [hp] at hq
        cases hq
      refine ⟨q, ?_⟩
      simp only [update_of_ne hqp]
      exact hq
  · by_cases hqp : q = p
    · by_cases hrp : r = p
      · rw [hqp, hrp]
      · subst hqp
        simp only [update_self, update_of_ne hrp] at hq hr
        cases hq
        exact absurd hr (fresh r)
    · by_cases hrp : r = p
      · subst hrp
        simp only [update_self, update_of_ne hqp] at hq hr
        cases hr
        exact absurd hq (fresh q)
      · simp only [update_of_ne hqp, update_of_ne hrp] at hq hr
        exact h.unique q r u hq hr

/-- Stages change without a ticket changing hands. -/
theorem restage (h : WaitInv s) {p : ι} {stage : Stage τ}
    (hticket : stage.ticket = (s.stage p).ticket) {b : Prop}
    (hregistered : ∀ t, stage = .registered t → t ∈ s.tickets)
    (hwaiting : ∀ t, stage = .waiting t → (t ∈ s.tickets ↔ b)) :
    WaitInv { s with blocked := update s.blocked p b, stage := update s.stage p stage } := by
  have hsame : ∀ q, (update s.stage p stage q).ticket = (s.stage q).ticket := by
    intro q
    by_cases hqp : q = p
    · rw [hqp, update_self, hticket]
    · rw [update_of_ne hqp]
  refine ⟨fun q u hq => ?_, fun q u hq => ?_, fun u hu => ?_, fun q r u hq hr => ?_⟩
  · by_cases hqp : q = p
    · subst hqp
      simp only [update_self] at hq
      exact hregistered u hq
    · simp only [update_of_ne hqp] at hq
      exact h.registered q u hq
  · by_cases hqp : q = p
    · subst hqp
      simp only [update_self] at hq ⊢
      exact hwaiting u hq
    · simp only [update_of_ne hqp] at hq ⊢
      exact h.waiting q u hq
  · obtain ⟨q, hq⟩ := h.owner u hu
    exact ⟨q, (hsame q).trans hq⟩
  · exact h.unique q r u ((hsame q).symm.trans hq) ((hsame r).symm.trans hr)

/-- A process that has registered a ticket blocks itself. -/
theorem block (h : WaitInv s) {p : ι} {t : τ} (hp : s.stage p = .registered t) :
    WaitInv { s with
      blocked := update s.blocked p True
      stage := update s.stage p (.waiting t) } := by
  refine h.restage (by rw [hp]; rfl) (fun u hu => nomatch hu) fun u hu => ?_
  cases hu
  exact iff_of_true (h.registered p t hp) trivial

/-- A ticket is taken from a process past its block, and the process is woken up. -/
theorem wake (h : WaitInv s) {p : ι} {t : τ} (hp : s.stage p = .waiting t) :
    WaitInv { s with
      tickets := {u ∈ s.tickets | u ≠ t}
      blocked := update s.blocked p False } := by
  have hown : (s.stage p).ticket = some t := by
    rw [hp]
    rfl
  refine ⟨fun q u hq => ⟨h.registered q u hq, ?_⟩, fun q u hq => ?_, fun u hu => h.owner u hu.1,
    h.unique⟩
  · rintro rfl
    obtain rfl := h.unique p q u hown (hq ▸ rfl)
    rw [hp] at hq
    cases hq
  · by_cases hqp : q = p
    · subst hqp
      rw [hp] at hq
      cases hq
      simp only [update_self]
      exact iff_of_false (fun hu => hu.2 rfl) fun hf => hf
    · have hne : u ≠ t := by
        rintro rfl
        exact hqp (h.unique p q u hown (hq ▸ rfl)).symm
      simp only [update_of_ne hqp, Set.mem_ofPred_eq, and_iff_left hne]
      exact h.waiting q u hq

/-- A process that is not blocked any more resumes. -/
theorem resume (h : WaitInv s) {p : ι} {t : τ} (hp : s.stage p = .waiting t)
    (hb : ¬s.blocked p) : WaitInv { s with stage := update s.stage p .out } := by
  have ht : t ∉ s.tickets := (h.waiting p t hp).not.mpr hb
  have hother : ∀ q u, (update s.stage p .out q).ticket = some u → q ≠ p ∧ (s.stage q).ticket = some u := by
    intro q u hq
    by_cases hqp : q = p
    · rw [hqp, update_self] at hq
      cases hq
    · rw [update_of_ne hqp] at hq
      exact ⟨hqp, hq⟩
  refine ⟨fun q u hq => ?_, fun q u hq => ?_, fun u hu => ?_, fun q r u hq hr => ?_⟩
  · obtain ⟨hqp, -⟩ := hother q u (congrArg Stage.ticket hq)
    simp only [update_of_ne hqp] at hq
    exact h.registered q u hq
  · obtain ⟨hqp, -⟩ := hother q u (congrArg Stage.ticket hq)
    simp only [update_of_ne hqp] at hq
    exact h.waiting q u hq
  · obtain ⟨q, hq⟩ := h.owner u hu
    have hqp : q ≠ p := by
      rintro rfl
      rw [hp] at hq
      cases hq
      exact ht hu
    refine ⟨q, ?_⟩
    simp only [update_of_ne hqp]
    exact hq
  · exact h.unique q r u (hother q u hq).2 (hother r u hr).2

/-- The status of a process without a ticket changes. -/
theorem outside (h : WaitInv s) {p : ι} (b : Prop) (hp : s.stage p = .out) :
    WaitInv { s with blocked := update s.blocked p b } := by
  refine h.reblock fun q hq => ?_
  have hne : q ≠ p := by
    rintro rfl
    exact hq hp
  rw [update_of_ne hne]

end WaitInv

end TPE
