import Mathlib.Data.List.Nodup
import Mathlib.Logic.Function.Basic
import Mathlib.Tactic.ByContra

/-!
# Locks that are handed over

A lock with a queue of waiting processes.  A release with a waiting process
leaves the lock taken and wakes the first one, to which the lock belongs from
then on.  The woken process returns later and does not test the lock again.
The lock does not record its holder.

`LockInv` is the invariant, with the holder as a ghost, and `LockStep.inv` says
that every step keeps it.
-/

namespace TPE

open Function

/-- Where a process is with respect to the lock. -/
inductive Point where
  /-- It neither holds the lock nor waits for it. -/
  | idle
  /-- In a call that takes the lock, after it was queued. -/
  | waiting
  /-- After a call that took the lock and before the release. -/
  | critical
  /-- As before, and in a second call, after it was queued. -/
  | relocking
deriving DecidableEq, Repr

/-- In a call that takes the lock, after the process was queued. -/
def Point.inLock (pt : Point) : Prop := pt = .waiting ∨ pt = .relocking

/-- After a call that took the lock and before the release. -/
def Point.inSection (pt : Point) : Prop := pt = .critical ∨ pt = .relocking

instance (pt : Point) : Decidable pt.inLock := inferInstanceAs (Decidable (_ ∨ _))

theorem Point.not_inLock_of_critical {pt : Point} (h : pt = .critical) : ¬pt.inLock := by
  rintro (h' | h') <;> rw [h] at h' <;> cases h'

theorem Point.ne_idle_of_inLock {pt : Point} (h : pt.inLock) : pt ≠ .idle := by
  rintro rfl
  rcases h with h | h <;> cases h

theorem Point.ne_idle_of_inSection {pt : Point} (h : pt.inSection) : pt ≠ .idle := by
  rintro rfl
  rcases h with h | h <;> cases h

/-- A lock and the processes that use it. -/
@[ext]
structure LockState (ι : Type*) where
  locked : Prop
  /-- The waiting processes, first to last. -/
  queue : List ι
  blocked : ι → Prop
  point : ι → Point
  /-- When the process was last queued. -/
  arrived : ι → Nat
  clock : Nat

namespace LockState

variable {ι : Type*}

/-- The process holds the lock: it is in its section, or it was woken up and has
not returned yet. -/
def Holds (s : LockState ι) (p : ι) : Prop :=
  (s.point p).inSection ∨ s.point p = .waiting ∧ ¬s.blocked p

end LockState

variable {ι : Type*} {s t : LockState ι} {holder : Option ι}

/-- The invariant.  `holder` is the process the lock belongs to. -/
structure LockInv (s : LockState ι) (holder : Option ι) : Prop where
  queued : ∀ p ∈ s.queue, (s.point p).inLock ∧ s.blocked p
  woken : ∀ p, (s.point p).inLock → p ∉ s.queue → s.point p = .waiting ∧ ¬s.blocked p
  nodup : s.queue.Nodup
  arrival : s.queue.Pairwise fun p q => s.arrived p < s.arrived q
  clock : ∀ p ∈ s.queue, s.arrived p < s.clock
  word : s.locked ↔ holder.isSome
  owner : ∀ p, (s.point p).inSection ∨ s.point p = .waiting ∧ p ∉ s.queue ↔ holder = some p
  free : holder = none → s.queue = []

namespace LockInv

theorem of_eq (h : LockInv s holder) (he : t = s) : LockInv t holder := he ▸ h

/-- The queue holds the processes blocked in a call. -/
theorem mem_queue_iff (h : LockInv s holder) (p : ι) :
    p ∈ s.queue ↔ (s.point p).inLock ∧ s.blocked p := by
  refine ⟨h.queued p, fun ⟨hin, hblocked⟩ => ?_⟩
  by_contra hp
  exact (h.woken p hin hp).2 hblocked

/-- The ghost is the process that holds the lock. -/
theorem holds_iff (h : LockInv s holder) (p : ι) : s.Holds p ↔ holder = some p := by
  rw [← h.owner p]
  constructor
  · rintro (hsec | ⟨hw, hblocked⟩)
    · exact Or.inl hsec
    · exact Or.inr ⟨hw, fun hp => hblocked (h.queued p hp).2⟩
  · rintro (hsec | ⟨hw, hp⟩)
    · exact Or.inl hsec
    · exact Or.inr ⟨hw, (h.woken p (Or.inl hw) hp).2⟩

theorem holder_unique (h : LockInv s holder) {p q : ι} (hp : s.Holds p) (hq : s.Holds q) :
    p = q := by
  rw [h.holds_iff] at hp hq
  exact Option.some.inj (hp.symm.trans hq)

theorem locked_iff (h : LockInv s holder) : s.locked ↔ ∃ p, s.Holds p := by
  rw [h.word, Option.isSome_iff_exists]
  exact exists_congr fun p => (h.holds_iff p).symm

/-- Nobody waits for a free lock. -/
theorem free_idle (h : LockInv s holder) (hfree : ¬s.locked) (p : ι) : s.point p = .idle := by
  have hnone : holder = none := by
    rw [h.word] at hfree
    exact Option.not_isSome_iff_eq_none.mp hfree
  have hempty := h.free hnone
  have hown := h.owner p
  rw [hnone, hempty] at hown
  cases hpt : s.point p with
  | idle => rfl
  | waiting => exact nomatch hown.mp (Or.inr ⟨hpt, List.not_mem_nil⟩)
  | critical => exact nomatch hown.mp (Or.inl (Or.inl hpt))
  | relocking => exact nomatch hown.mp (Or.inl (Or.inr hpt))

/-- Before anybody calls. -/
theorem idle (hpoint : ∀ p, s.point p = .idle) (hqueue : s.queue = []) (hfree : ¬s.locked) :
    LockInv s none := by
  have hno : ∀ p, ¬(s.point p).inLock ∧ ¬(s.point p).inSection := by
    intro p
    rw [hpoint p]
    constructor
    · rintro (h | h) <;> cases h
    · rintro (h | h) <;> cases h
  have hmem : ∀ p, p ∉ s.queue := by
    rw [hqueue]
    exact fun p => List.not_mem_nil
  refine ⟨fun p hp => absurd hp (hmem p), fun p hp => absurd hp (hno p).1, ?_, ?_,
    fun p hp => absurd hp (hmem p), ?_, fun p => ?_, fun _ => hqueue⟩
  · rw [hqueue]
    exact List.nodup_nil
  · rw [hqueue]
    exact List.Pairwise.nil
  · exact ⟨fun h => absurd h hfree, fun h => nomatch h⟩
  · refine ⟨fun h => ?_, fun h => nomatch h⟩
    rcases h with h | h
    · exact absurd h (hno p).2
    · exact absurd (Or.inl h.1) (hno p).1

/-- What happens to processes that are not in a call does not matter. -/
theorem reblock (h : LockInv s holder) {blocked : ι → Prop}
    (hb : ∀ p, (s.point p).inLock → (blocked p ↔ s.blocked p)) :
    LockInv { s with blocked } holder := by
  refine ⟨fun q hq => ?_, fun q hq hqw => ?_, h.nodup, h.arrival, h.clock, h.word, h.owner, h.free⟩
  · obtain ⟨hin, hblocked⟩ := h.queued q hq
    exact ⟨hin, (hb q hin).mpr hblocked⟩
  · obtain ⟨hw, hblocked⟩ := h.woken q hq hqw
    exact ⟨hw, (hb q hq).not.mpr hblocked⟩

end LockInv

/-! ## One step -/

variable [DecidableEq ι]

/-- The steps of the processes.  A process that is not in a call may be blocked
and woken up for other reasons. -/
inductive LockStep : LockState ι → LockState ι → Prop where
  | acquire {s : LockState ι} (p : ι) (hout : ¬(s.point p).inLock) (hfree : ¬s.locked) :
      LockStep s { s with locked := True, point := update s.point p .critical }
  | wait {s : LockState ι} (p : ι) (hout : ¬(s.point p).inLock) (htaken : s.locked) :
      LockStep s { s with
        queue := s.queue ++ [p]
        blocked := update s.blocked p True
        point := update s.point p (if s.point p = .critical then .relocking else .waiting)
        arrived := update s.arrived p s.clock
        clock := s.clock + 1 }
  | resume {s : LockState ι} (p : ι) (hin : (s.point p).inLock) (hready : ¬s.blocked p) :
      LockStep s { s with point := update s.point p .critical }
  | release {s : LockState ι} (p : ι) (hcrit : s.point p = .critical) (hempty : s.queue = []) :
      LockStep s { s with locked := False, point := update s.point p .idle }
  | handover {s : LockState ι} (p q : ι) (rest : List ι) (hcrit : s.point p = .critical)
      (hq : s.queue = q :: rest) :
      LockStep s { s with
        queue := rest
        blocked := update s.blocked q False
        point := update s.point p .idle }
  | outside {s : LockState ι} (p : ι) (b : Prop) (hout : ¬(s.point p).inLock) :
      LockStep s { s with blocked := update s.blocked p b }

theorem LockInv.acquire (h : LockInv s holder) {p : ι} (hfree : ¬s.locked) :
    LockInv { s with locked := True, point := update s.point p .critical } (some p) := by
  have hidle := h.free_idle hfree
  have hempty : s.queue = [] := h.free (Option.not_isSome_iff_eq_none.mp (h.word.not.mp hfree))
  have hmem : ∀ q, q ∉ s.queue := by
    rw [hempty]
    exact fun q => List.not_mem_nil
  have hpoint : ∀ q, q ≠ p → update s.point p .critical q = .idle :=
    fun q hq => (update_of_ne hq _ _).trans (hidle q)
  have hself : update s.point p .critical p = .critical := update_self _ _ _
  refine ⟨fun q hq => absurd hq (hmem q), fun q hq => ?_, h.nodup, h.arrival,
    fun q hq => absurd hq (hmem q), ⟨fun _ => rfl, fun _ => trivial⟩, fun q => ?_,
    fun hnone => nomatch hnone⟩
  · exfalso
    by_cases hqp : q = p
    · subst hqp
      exact Point.not_inLock_of_critical hself hq
    · rcases hq with hq | hq
      · cases (hpoint q hqp).symm.trans hq
      · cases (hpoint q hqp).symm.trans hq
  · by_cases hqp : q = p
    · subst hqp
      exact ⟨fun _ => rfl, fun _ => Or.inl (Or.inl hself)⟩
    · refine ⟨fun hown => ?_, fun he => absurd (Option.some.inj he).symm hqp⟩
      rcases hown with (hq | hq) | hq
      · cases (hpoint q hqp).symm.trans hq
      · cases (hpoint q hqp).symm.trans hq
      · cases (hpoint q hqp).symm.trans hq.1

theorem LockInv.wait (h : LockInv s holder) {p : ι} (hout : ¬(s.point p).inLock)
    (htaken : s.locked) :
    LockInv { s with
      queue := s.queue ++ [p]
      blocked := update s.blocked p True
      point := update s.point p (if s.point p = .critical then .relocking else .waiting)
      arrived := update s.arrived p s.clock
      clock := s.clock + 1 } holder := by
  have hp : p ∉ s.queue := fun hm => hout (h.queued p hm).1
  have hne : ∀ q ∈ s.queue, q ≠ p := by
    rintro q hq rfl
    exact hp hq
  set pt : Point := if s.point p = .critical then .relocking else .waiting with hpt
  have hin : pt.inLock := by
    rw [hpt]
    split
    · exact Or.inr rfl
    · exact Or.inl rfl
  refine ⟨fun q hq => ?_, fun q hq hqw => ?_, ?_, ?_, fun q hq => ?_, h.word, fun q => ?_,
    fun hnone => ?_⟩
  · rcases List.mem_append.mp hq with hq | hq
    · simp only [update_of_ne (hne q hq)]
      exact h.queued q hq
    · rw [List.mem_singleton.mp hq]
      simp only [update_self]
      exact ⟨hin, trivial⟩
  · rw [List.mem_append, List.mem_singleton, not_or] at hqw
    simp only [update_of_ne hqw.2] at hq ⊢
    exact h.woken q hq hqw.1
  · refine List.nodup_append.mpr ⟨h.nodup, List.nodup_singleton p, fun a ha b hb => ?_⟩
    rw [List.mem_singleton.mp hb]
    exact hne a ha
  · refine List.pairwise_append.mpr ⟨?_, List.pairwise_singleton _ _, fun a ha b hb => ?_⟩
    · refine h.arrival.imp_of_mem fun ha hb hlt => ?_
      simp only [update_of_ne (hne _ ha), update_of_ne (hne _ hb)]
      exact hlt
    · rw [List.mem_singleton.mp hb]
      simp only [update_of_ne (hne a ha), update_self]
      exact h.clock a ha
  · rcases List.mem_append.mp hq with hq | hq
    · simp only [update_of_ne (hne q hq)]
      exact Nat.lt_succ_of_lt (h.clock q hq)
    · rw [List.mem_singleton.mp hq]
      simp only [update_self]
      exact Nat.lt_succ_self _
  · by_cases hqp : q = p
    · subst hqp
      simp only [update_self]
      rw [← h.owner q, hpt]
      constructor
      · rintro (hsec | ⟨-, hq⟩)
        · split at hsec
          next hcrit => exact Or.inl (Or.inl hcrit)
          next => rcases hsec with hsec | hsec <;> cases hsec
        · exact absurd (List.mem_append_right _ (List.mem_singleton_self q)) hq
      · rintro ((hcrit | hre) | ⟨hw, -⟩)
        · rw [if_pos hcrit]
          exact Or.inl (Or.inr rfl)
        · exact absurd (Or.inr hre) hout
        · exact absurd (Or.inl hw) hout
    · have hmem : q ∉ s.queue ++ [p] ↔ q ∉ s.queue := by
        rw [List.mem_append, List.mem_singleton, not_or]
        exact ⟨And.left, fun hq => ⟨hq, hqp⟩⟩
      simp only [update_of_ne hqp, hmem]
      exact h.owner q
  · rw [h.word, hnone] at htaken
    cases htaken

theorem LockInv.resume (h : LockInv s holder) {p : ι} (hin : (s.point p).inLock)
    (hready : ¬s.blocked p) :
    LockInv { s with point := update s.point p .critical } holder := by
  have hp : p ∉ s.queue := fun hm => hready (h.queued p hm).2
  have hpt : s.point p = .waiting := (h.woken p hin hp).1
  refine ⟨fun q hq => ?_, fun q hq hqw => ?_, h.nodup, h.arrival, h.clock, h.word, fun q => ?_,
    h.free⟩
  · have hne : q ≠ p := by
      rintro rfl
      exact hp hq
    simp only [update_of_ne hne]
    exact h.queued q hq
  · have hne : q ≠ p := by
      rintro rfl
      exact Point.not_inLock_of_critical (update_self _ _ _) hq
    simp only [update_of_ne hne] at hq ⊢
    exact h.woken q hq hqw
  · by_cases hqp : q = p
    · subst hqp
      simp only [update_self]
      rw [← h.owner q]
      exact ⟨fun _ => Or.inr ⟨hpt, hp⟩, fun _ => Or.inl (Or.inl rfl)⟩
    · simp only [update_of_ne hqp]
      exact h.owner q

theorem LockInv.release (h : LockInv s holder) {p : ι} (hcrit : s.point p = .critical)
    (hempty : s.queue = []) :
    LockInv { s with locked := False, point := update s.point p .idle } none := by
  have hholder : holder = some p := (h.owner p).mp (Or.inl (Or.inl hcrit))
  have hmem : ∀ q, q ∉ s.queue := by
    rw [hempty]
    exact fun q => List.not_mem_nil
  have hidle : ∀ q, update s.point p .idle q = .idle := by
    intro q
    by_cases hqp : q = p
    · rw [hqp, update_self]
    · rw [update_of_ne hqp]
      have hown := h.owner q
      rw [hholder] at hown
      cases hpt : s.point q with
      | idle => rfl
      | waiting => exact absurd (Option.some.inj (hown.mp (Or.inr ⟨hpt, hmem q⟩))).symm hqp
      | critical => exact absurd (Option.some.inj (hown.mp (Or.inl (Or.inl hpt)))).symm hqp
      | relocking => exact absurd (Option.some.inj (hown.mp (Or.inl (Or.inr hpt)))).symm hqp
  exact LockInv.idle hidle hempty fun hf => hf

theorem LockInv.handover (h : LockInv s holder) {p q : ι} {rest : List ι}
    (hcrit : s.point p = .critical) (hq : s.queue = q :: rest) :
    LockInv { s with
      queue := rest
      blocked := update s.blocked q False
      point := update s.point p .idle } (some q) := by
  have hholder : holder = some p := (h.owner p).mp (Or.inl (Or.inl hcrit))
  have hp : p ∉ s.queue := fun hm => Point.not_inLock_of_critical hcrit (h.queued p hm).1
  have hqmem : q ∈ s.queue := by
    rw [hq]
    exact List.mem_cons_self
  have hsub : ∀ r ∈ rest, r ∈ s.queue := by
    intro r hr
    rw [hq]
    exact List.mem_cons_of_mem _ hr
  have hnodup := h.nodup
  rw [hq, List.nodup_cons] at hnodup
  have hqp : q ≠ p := by
    rintro rfl
    exact hp hqmem
  -- the process at the head is not the holder, so it is not in its section
  have hqpt : s.point q = .waiting := by
    rcases (h.queued q hqmem).1 with hw | hre
    · exact hw
    · have := (h.owner q).mp (Or.inl (Or.inr hre))
      exact absurd (Option.some.inj (hholder.symm.trans this)).symm hqp
  refine ⟨fun r hr => ?_, fun r hr hrw => ?_, hnodup.2, ?_, fun r hr => h.clock r (hsub r hr), ?_,
    fun r => ?_, fun hnone => nomatch hnone⟩
  · have hrp : r ≠ p := by
      rintro rfl
      exact hp (hsub r hr)
    have hrq : r ≠ q := by
      rintro rfl
      exact hnodup.1 hr
    simp only [update_of_ne hrp, update_of_ne hrq]
    exact h.queued r (hsub r hr)
  · have hrp : r ≠ p := by
      rintro rfl
      simp only [update_self] at hr
      rcases hr with hr | hr <;> cases hr
    simp only [update_of_ne hrp] at hr ⊢
    by_cases hrq : r = q
    · subst hrq
      simp only [update_self]
      exact ⟨hqpt, fun hf => hf⟩
    · simp only [update_of_ne hrq]
      apply h.woken r hr
      rw [hq, List.mem_cons, not_or]
      exact ⟨hrq, hrw⟩
  · have harr := h.arrival
    rw [hq] at harr
    exact (List.pairwise_cons.mp harr).2
  · exact ⟨fun _ => rfl, fun _ => h.word.mpr (hholder ▸ rfl)⟩
  · by_cases hrp : r = p
    · subst hrp
      simp only [update_self]
      refine ⟨fun hown => ?_, fun he => absurd (Option.some.inj he) hqp⟩
      rcases hown with (hr | hr) | hr
      · cases hr
      · cases hr
      · cases hr.1
    · simp only [update_of_ne hrp]
      by_cases hrq : r = q
      · subst hrq
        exact ⟨fun _ => rfl, fun _ => Or.inr ⟨hqpt, hnodup.1⟩⟩
      · have hown := h.owner r
        rw [hholder, hq, List.mem_cons, not_or] at hown
        constructor
        · rintro (hsec | ⟨hw, hr⟩)
          · exact absurd (Option.some.inj (hown.mp (Or.inl hsec))).symm hrp
          · exact absurd (Option.some.inj (hown.mp (Or.inr ⟨hw, hrq, hr⟩))).symm hrp
        · intro he
          exact absurd (Option.some.inj he).symm hrq

theorem LockInv.outside (h : LockInv s holder) {p : ι} (b : Prop) (hout : ¬(s.point p).inLock) :
    LockInv { s with blocked := update s.blocked p b } holder := by
  refine h.reblock fun q hq => ?_
  have hne : q ≠ p := by
    rintro rfl
    exact hout hq
  rw [update_of_ne hne]

/-- Every step keeps the invariant. -/
theorem LockStep.inv (hstep : LockStep s t) (h : LockInv s holder) :
    ∃ holder', LockInv t holder' := by
  cases hstep with
  | acquire p hout hfree => exact ⟨_, h.acquire hfree⟩
  | wait p hout htaken => exact ⟨_, h.wait hout htaken⟩
  | resume p hin hready => exact ⟨_, h.resume hin hready⟩
  | release p hcrit hempty => exact ⟨_, h.release hcrit hempty⟩
  | handover p q rest hcrit hq => exact ⟨_, h.handover hcrit hq⟩
  | outside p b hout => exact ⟨_, h.outside b hout⟩

end TPE
