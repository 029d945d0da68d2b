import TPE.Library.Runs

/-!
# A processor for each process

The abstract picture of processes that take turns: every process has a
processor of its own, whose context is changed by the process itself and by
nobody else.  One process runs at a time.

A machine with one processor *shares* it if what its processes see are the
events of this picture (`Shares`).  As long as a process of such a machine does
not run, it keeps its context, whatever the others do (`Shares.context_eq`).
-/

namespace TPE

open Function

/-- The running process and the contexts of the processes that are alive. -/
@[ext]
structure Processors (π χ : Type*) where
  running : π
  context : π → Option χ

namespace Processors

/-- What can happen to the processes. -/
inductive Event (π χ : Type*) where
  /-- Nothing that a process can see. -/
  | idle
  /-- The running process comes to the context `c`. -/
  | compute (c : χ)
  /-- The processes `gone` end, and `p` runs from now on. -/
  | switch (p : π) (gone : List π)
  /-- The process `p` starts in the context `c`. -/
  | spawn (p : π) (c : χ)

variable {π χ : Type*} [DecidableEq π]

/-- One event. -/
def step (s : Processors π χ) : Event π χ → Option (Processors π χ)
  | .idle => some s
  | .compute c =>
      if (s.context s.running).isSome then
        some { s with context := update s.context s.running (some c) }
      else none
  | .switch p gone =>
      if p ∉ gone ∧ (s.context p).isSome then
        some ⟨p, fun q => if q ∈ gone then none else s.context q⟩
      else none
  | .spawn p c =>
      if (s.context p).isNone then some { s with context := update s.context p (some c) } else none

variable {s t : Processors π χ} {p : π} {e : Event π χ}

/-- An event in which `p` does not compute leaves its context alone, or ends it. -/
theorem step_context (hn : step s e = some t) (hp : (s.context p).isSome)
    (hrest : ∀ c, e = .compute c → s.running ≠ p) :
    t.context p = s.context p ∨ t.context p = none := by
  cases e with
  | idle =>
      cases hn
      exact Or.inl rfl
  | compute c =>
      obtain ⟨-, he⟩ := Option.ite_none_right_eq_some.mp hn
      cases he
      exact Or.inl (update_of_ne (hrest c rfl).symm _ _)
  | switch q gone =>
      obtain ⟨-, he⟩ := Option.ite_none_right_eq_some.mp hn
      cases he
      by_cases hgone : p ∈ gone
      · exact Or.inr (if_pos hgone)
      · exact Or.inl (if_neg hgone)
  | spawn q c =>
      obtain ⟨hq, he⟩ := Option.ite_none_right_eq_some.mp hn
      cases he
      refine Or.inl (update_of_ne ?_ _ _)
      rintro rfl
      rw [Option.isNone_iff_eq_none] at hq
      simp [hq] at hp

/-! ## Sharing one processor -/

section Sharing

variable {σ α : Type*} {M : System σ α} {view : σ → Processors π χ} {event : σ → α → σ → Event π χ}

/-- In every state that `M` reaches, what its processes see of a step is an event. -/
def Shares (M : System σ α) (view : σ → Processors π χ) (event : σ → α → σ → Event π χ) : Prop :=
  ∀ ⦃s a t⦄, M.Reach s → M.next s a = some t → step (view s) (event s a t) = some (view t)

/-- A step in which `p` stays alive and does not compute leaves its context alone. -/
theorem Shares.step_context (h : Shares M view event) {s t : σ} {a : α} {p : π}
    (hs : M.Reach s) (hn : M.next s a = some t) (hp : ((view s).context p).isSome)
    (hrest : ∀ c, event s a t = .compute c → (view s).running ≠ p) {c : χ}
    (hc : (view t).context p = some c) : (view s).context p = some c := by
  rcases Processors.step_context (h hs hn) hp hrest with hsame | hgone
  · rw [← hsame, hc]
  · rw [hgone] at hc
    cases hc

/-- What holds of the context of `p` and is kept by every computation of `p` holds as
long as `p` is alive, whatever the other processes do. -/
theorem Shares.context_invariant (h : Shares M view event) {s t : σ} {p : π} {P : χ → Prop}
    (hs : M.Reach s) (hstart : ∀ c, (view s).context p = some c → P c)
    (hrun : System.ReachBy { M with init := fun u => u = s } (fun u a =>
      ((view u).context p).isSome ∧ ∀ v c c', M.next u a = some v → (view u).running = p →
        event u a v = .compute c' → (view u).context p = some c → P c → P c') t) :
    ∀ c, (view t).context p = some c → P c := by
  have hinv : M.Reach t ∧ ∀ c, (view t).context p = some c → P c := by
    refine System.ReachBy.invariant
      (I := fun u => M.Reach u ∧ ∀ c, (view u).context p = some c → P c) ?_ ?_ hrun
    · rintro u rfl
      exact ⟨hs, hstart⟩
    · rintro u a v ⟨hu, hkeep⟩ ⟨halive, hguard⟩ hn
      refine ⟨hu.next hn, fun c hc => ?_⟩
      obtain ⟨c₀, hc₀⟩ := Option.isSome_iff_exists.mp halive
      by_cases hcompute : (view u).running = p ∧ ∃ c', event u a v = .compute c'
      · obtain ⟨hrunning, c', he⟩ := hcompute
        have hstep := h hu hn
        rw [he, step, if_pos (by rw [hrunning, hc₀]; rfl)] at hstep
        have hnew : (view v).context p = some c' := by
          rw [← Option.some.inj hstep, hrunning]
          exact update_self _ _ _
        rw [hnew] at hc
        exact Option.some.inj hc ▸ hguard v c₀ c' hn hrunning he hc₀ (hkeep c₀ hc₀)
      · refine hkeep c (h.step_context hu hn halive (fun c' he hrunning => ?_) hc)
        exact hcompute ⟨hrunning, c', he⟩
  exact hinv.2

/-- A process that stays alive and does not compute keeps its context. -/
theorem Shares.context_eq (h : Shares M view event) {s t : σ} {p : π} (hs : M.Reach s)
    (hrun : System.ReachBy { M with init := fun u => u = s } (fun u a =>
      ((view u).context p).isSome ∧
        ((view u).running = p → ∀ v c, M.next u a = some v → event u a v ≠ .compute c)) t)
    (hp : ((view t).context p).isSome) : (view t).context p = (view s).context p := by
  obtain ⟨c, hc⟩ := Option.isSome_iff_exists.mp hp
  have hkeep : (view s).context p = some c := by
    refine h.context_invariant hs (P := fun c => (view s).context p = some c) (fun _ hc => hc) ?_ c hc
    refine hrun.mono fun u a hguard => ⟨hguard.1, fun v c c' hn hrunning he _ _ => ?_⟩
    exact absurd he (hguard.2 hrunning v c' hn)
  rw [hc, hkeep]

end Sharing

end Processors

end TPE
