import Mathlib.Logic.Function.Basic

/-!
# Runs of an executable transition system

A *system* says in which states a run may start and what one step does.  The
step is a function that may fail, so a finite schedule can be executed.  A
choice the step leaves open is part of the action.

`ReachBy G` collects the states that runs reach when every step meets the
guard `G` in the state it is taken in.  `Reach` is the case without a guard.
The invariant rule is stated for guarded runs, so one induction serves both.
`execute` runs a finite schedule, and a schedule that succeeds is a run.
-/

namespace TPE

/-- Where runs start, and what one action does to a state. -/
structure System (σ : Type*) (α : Type*) where
  /-- The states a run may start in. -/
  init : σ → Prop
  /-- One step.  `none` says the action is not possible in this state. -/
  next : σ → α → Option σ

namespace System

variable {σ : Type*} {α : Type*} (M : System σ α)

/-- The states reached by runs all of whose steps meet the guard. -/
inductive ReachBy (G : σ → α → Prop) : σ → Prop where
  | init {s : σ} : M.init s → ReachBy G s
  | step {s t : σ} {a : α} : ReachBy G s → G s a → M.next s a = some t → ReachBy G t

/-- The states reached by any run. -/
def Reach (s : σ) : Prop := M.ReachBy (fun _ _ => True) s

variable {M}

/-- What holds at the start and is kept by every guarded step holds in every
state a guarded run reaches. -/
theorem ReachBy.invariant {G : σ → α → Prop} {I : σ → Prop}
    (start : ∀ s, M.init s → I s)
    (kept : ∀ s a t, I s → G s a → M.next s a = some t → I t)
    {s : σ} (h : M.ReachBy G s) : I s := by
  induction h with
  | init hs => exact start _ hs
  | step _ hg hn ih => exact kept _ _ _ ih hg hn

/-- A weaker guard admits more runs. -/
theorem ReachBy.mono {G H : σ → α → Prop} (le : ∀ s a, G s a → H s a)
    {s : σ} (h : M.ReachBy G s) : M.ReachBy H s := by
  induction h with
  | init hs => exact .init hs
  | step _ hg hn ih => exact .step ih (le _ _ hg) hn

theorem ReachBy.reach {G : σ → α → Prop} {s : σ} (h : M.ReachBy G s) : M.Reach s :=
  h.mono fun _ _ _ => trivial

theorem Reach.start {s : σ} (h : M.init s) : M.Reach s := ReachBy.init h

theorem Reach.next {s t : σ} {a : α} (h : M.Reach s) (hn : M.next s a = some t) : M.Reach t :=
  ReachBy.step h trivial hn

variable (M)

/-- Run a finite schedule. -/
def execute : σ → List α → Option σ
  | s, [] => some s
  | s, a :: as => (M.next s a).bind fun t => execute t as

variable {M}

/-- Executing a schedule from a reachable state stays among the reachable states. -/
theorem Reach.execute {as : List α} {s t : σ} (h : M.Reach s) (he : M.execute s as = some t) :
    M.Reach t := by
  induction as generalizing s with
  | nil =>
      simp only [System.execute, Option.some.injEq] at he
      exact he ▸ h
  | cons a as ih =>
      simp only [System.execute, Option.bind_eq_some_iff] at he
      obtain ⟨u, hu, he⟩ := he
      exact ih (h.next hu) he

/-- Run a finite schedule as long as its steps pass the test `ok`. -/
def executeBy (M : System σ α) (ok : σ → α → Bool) : σ → List α → Option σ
  | s, [] => some s
  | s, a :: as => if ok s a then (M.next s a).bind fun t => executeBy M ok t as else none

/-- A schedule whose steps pass a test for the guard is a guarded run. -/
theorem ReachBy.execute {G : σ → α → Prop} {ok : σ → α → Bool} (hok : ∀ s a, ok s a → G s a)
    {as : List α} {s t : σ} (h : M.ReachBy G s) (he : M.executeBy ok s as = some t) :
    M.ReachBy G t := by
  induction as generalizing s with
  | nil =>
      simp only [executeBy, Option.some.injEq] at he
      exact he ▸ h
  | cons a as ih =>
      rw [executeBy] at he
      split at he
      next hpass =>
        obtain ⟨u, hu, he⟩ := Option.bind_eq_some_iff.mp he
        exact ih (.step h (hok s a hpass) hu) he
      next => cases he

/-- A schedule that ends in a state that passes the test `f` reaches such a state. -/
theorem exists_reach_of_execute {s : σ} (hs : M.init s) (as : List α) (f : σ → Bool)
    (h : (M.execute s as).any f = true) : ∃ t, M.Reach t ∧ f t = true := by
  cases he : M.execute s as with
  | none => simp [he] at h
  | some t =>
      simp only [he, Option.any_some] at h
      exact ⟨t, Reach.execute (Reach.start hs) he, h⟩

/-- What is seen of each step of a schedule. -/
def trace {β : Type*} (M : System σ α) (see : σ → α → σ → β) : σ → List α → List β
  | _, [] => []
  | s, a :: as => ((M.next s a).map fun t => see s a t :: trace M see t as).getD []

end System

end TPE
