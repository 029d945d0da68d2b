import TPE.Kernel.Philosophers

/-!
# Runs of the dining philosophers

Two things are said about every state that a run of the philosophers and the
controlling process reaches: no two neighbours eat (`neighbours_apart`), and
every hungry philosopher has an eating neighbour (`none_stranded`).

The first holds in every run.  A new seat separates two neighbours, and a
philosopher that leaves makes two others neighbours only after it has seen that
one of them does not eat.

The second needs a guard.  `put_forks` tests both neighbours, but
`add_philosopher` tests nobody: a philosopher who sits down between an eating
one and a hungry one takes the only eating neighbour of the hungry one away.
-/

namespace TPE

open Function RoundTable

/-! ## The invariant -/

namespace PhiloRun

/-- The philosophers at the table are those with a process, only the last one
is marked and only while it is being removed, and a philosopher that sleeps the
first time, or has decided to go on, thinks. -/
structure PhiloInv (s : PhiloRun) : Prop where
  gone : ∀ i, s.point i = .gone ↔ s.vars.philosopherCount ≤ i
  marked : ∀ i < s.vars.philosopherCount, (s.vars.philoArray i).die = true →
    i + 1 = s.vars.philosopherCount ∧ s.controller = .removing s.vars.philosopherCount
  dying : ∀ i, s.point i = .dying → (s.vars.philoArray i).die = true
  thinks : ∀ i, s.point i = .sleeping ∨ s.point i = .deciding → s.vars.state i = .thinking
  dies : ∀ i, s.point i = .dying → s.vars.state i = .dying

variable {s t : PhiloRun} {i : Nat}

theorem PhiloInv.lt_count (h : PhiloInv s) (hi : s.point i ≠ .gone) :
    i < s.vars.philosopherCount :=
  Nat.lt_of_not_le fun hle => hi ((h.gone i).mpr hle)

/-- A philosopher at the table moves on.  Nobody is marked, and the others stay
where they are. -/
theorem PhiloInv.goto (h : PhiloInv s) {pt : PhiloPoint} {v : PhiloVars}
    (hi : s.point i ≠ .gone) (hpt : pt ≠ .gone)
    (hcount : v.philosopherCount = s.vars.philosopherCount)
    (hdie : ∀ j, (v.philoArray j).die = (s.vars.philoArray j).die)
    (hdying : pt = .dying → (s.vars.philoArray i).die = true ∧ v.state i = .dying)
    (hself : pt = .sleeping ∨ pt = .deciding → v.state i = .thinking)
    (hothers : ∀ j, j ≠ i → s.vars.state j ≠ .hungry → v.state j = s.vars.state j) :
    PhiloInv (s.goto i pt v) := by
  refine ⟨fun j => ?_, fun j hj hdj => ?_, fun j hj => ?_, fun j hj => ?_, fun j hj => ?_⟩ <;>
    simp only [PhiloRun.goto, hcount, hdie] at *
  · by_cases hji : j = i
    · subst hji
      rw [update_self]
      exact ⟨fun hg => absurd hg hpt, fun hle => absurd ((h.gone j).mpr hle) hi⟩
    · rw [update_of_ne hji]
      exact h.gone j
  · exact h.marked j hj hdj
  · by_cases hji : j = i
    · subst hji
      rw [update_self] at hj
      exact (hdying hj).1
    · rw [update_of_ne hji] at hj
      exact h.dying j hj
  · by_cases hji : j = i
    · subst hji
      rw [update_self] at hj
      exact hself hj
    · rw [update_of_ne hji] at hj
      have hthink := h.thinks j hj
      rw [hothers j hji (by simp [hthink]), hthink]
  · by_cases hji : j = i
    · subst hji
      rw [update_self] at hj
      exact (hdying hj).2
    · rw [update_of_ne hji] at hj
      have hdies := h.dies j hj
      rw [hothers j hji (by simp [hdies]), hdies]

theorem PhiloInv.add (h : PhiloInv s) (hc : ∀ n, s.controller ≠ .removing n) :
    PhiloInv s.add := by
  rw [PhiloRun.add]
  split
  next hroom =>
    refine ⟨fun j => ?_, fun j hj hdj => ?_, fun j hj => ?_, fun j hj => ?_, fun j hj => ?_⟩
    all_goals
      simp only [PhiloRun.goto] at *
      by_cases hjn : j = s.vars.philosopherCount
    · subst hjn
      simp [PhiloVars.addPhilosopher]
    · rw [update_of_ne hjn, h.gone j]
      simp only [PhiloVars.addPhilosopher]
      omega
    · subst hjn
      simp [PhiloVars.addPhilosopher] at hdj
    · simp only [PhiloVars.addPhilosopher, update_of_ne hjn] at hdj hj
      exact absurd (h.marked j (by omega) hdj).2 (hc _)
    · subst hjn
      simp at hj
    · rw [update_of_ne hjn] at hj
      simp only [PhiloVars.addPhilosopher, update_of_ne hjn]
      exact h.dying j hj
    · subst hjn
      simp [PhiloVars.state_addPhilosopher]
    · rw [update_of_ne hjn] at hj
      rw [PhiloVars.state_addPhilosopher, update_of_ne hjn]
      exact h.thinks j hj
    · subst hjn
      simp at hj
    · rw [update_of_ne hjn] at hj
      rw [PhiloVars.state_addPhilosopher, update_of_ne hjn]
      exact h.dies j hj
  next => exact h

theorem PhiloInv.markLast (h : PhiloInv s) (hc : ∀ n, s.controller ≠ .removing n)
    (hpos : 0 < s.vars.philosopherCount) :
    PhiloInv { s with
      vars := s.vars.markLast, controller := .removing s.vars.philosopherCount } := by
  have hstate : s.vars.markLast.state = s.vars.state :=
    PhiloVars.state_write (f := fun pd => { pd with die := true }) fun _ => rfl
  refine ⟨h.gone, fun j hj hdj => ⟨?_, rfl⟩, fun j hj => ?_, fun j hj => ?_, fun j hj => ?_⟩
  · by_contra hlast
    change j < s.vars.philosopherCount at hj
    change ¬j + 1 = s.vars.philosopherCount at hlast
    simp only [PhiloVars.markLast, PhiloVars.write,
      update_of_ne (show j ≠ s.vars.philosopherCount - 1 by omega)] at hdj
    exact hc _ (h.marked j hj hdj).2
  · simp only [PhiloVars.markLast, PhiloVars.write]
    by_cases hjl : j = s.vars.philosopherCount - 1
    · subst hjl
      simp
    · rw [update_of_ne hjl]
      exact h.dying j hj
  · rw [hstate]
    exact h.thinks j hj
  · rw [hstate]
    exact h.dies j hj

/-- The controller goes on, with nobody marked. -/
theorem PhiloInv.control (h : PhiloInv s) {c : ControllerPoint}
    (hc : s.controller ≠ .removing s.vars.philosopherCount) :
    PhiloInv { s with controller := c } :=
  ⟨h.gone, fun j hj hdj => absurd (h.marked j hj hdj).2 hc, h.dying, h.thinks, h.dies⟩

theorem PhiloInv.leave (h : PhiloInv s) (hi : s.point i ≠ .gone)
    (hdie : (s.vars.philoArray i).die = true) : PhiloInv (s.goto i .gone (s.vars.leave i)) := by
  obtain ⟨hlast, -⟩ := h.marked i (h.lt_count hi) hdie
  refine ⟨fun j => ?_, fun j hj hdj => ?_, fun j hj => ?_, fun j hj => ?_, fun j hj => ?_⟩
  all_goals
    simp only [PhiloRun.goto] at *
    by_cases hji : j = i
  · subst hji
    simp [PhiloVars.leave, ← hlast]
  · rw [update_of_ne hji, h.gone j]
    simp only [PhiloVars.leave]
    omega
  · subst hji
    simp only [PhiloVars.leave] at hj
    omega
  · simp only [PhiloVars.leave, PhiloVars.write, update_of_ne hji] at hj hdj
    have hj' := (h.marked j (by omega) hdj).1
    omega
  · subst hji
    simp at hj
  · rw [update_of_ne hji] at hj
    simp only [PhiloVars.leave, PhiloVars.write, update_of_ne hji]
    exact h.dying j hj
  · subst hji
    simp at hj
  · rw [update_of_ne hji] at hj
    rw [PhiloVars.state_leave]
    exact h.thinks j hj
  · subst hji
    simp at hj
  · rw [update_of_ne hji] at hj
    rw [PhiloVars.state_leave]
    exact h.dies j hj

/-! ## One step -/

/-- The two philosophers between whom a new one sits down are not hungry, or eat
from the other side. -/
def SeatsApart (v : PhiloVars) : Prop :=
  0 < v.philosopherCount →
    (v.state (v.philosopherCount - 1) = .hungry →
      v.state (PhiloVars.left (v.philosopherCount - 1) v.philosopherCount) = .eating) ∧
    (v.state 0 = .hungry → v.state (PhiloVars.right 0 v.philosopherCount) = .eating)

instance (v : PhiloVars) : Decidable (SeatsApart v) := inferInstanceAs (Decidable (_ → _))

theorem seatsApart_iff {v : PhiloVars} :
    SeatsApart v ↔ EndsServed v.philosopherCount v.Hungry v.Eats := by
  simp only [SeatsApart, EndsServed, PhiloVars.Hungry, PhiloVars.Eats]
  refine forall_congr' fun hpos => ?_
  rw [PhiloVars.left_eq (by omega), PhiloVars.right_eq hpos]

/-- No philosopher sits down between two neighbours of whom one is hungry and
eyes the forks of the other. -/
def SeatsWell (s : PhiloRun) : PhiloAction → Prop
  | .add => s.vars.philosopherCount < maxPhilosophers → SeatsApart s.vars
  | _ => True

/-- What a step keeps. -/
structure Keeps (s t : PhiloRun) (guard : Prop) : Prop where
  inv : PhiloInv t
  apart : s.vars.TableApart → t.vars.TableApart
  served : guard → s.vars.TableServed → t.vars.TableServed

/-- A step that leaves the states of the philosophers alone. -/
theorem Keeps.of_state {guard : Prop} (h : PhiloInv t)
    (hcount : t.vars.philosopherCount = s.vars.philosopherCount)
    (hstate : t.vars.state = s.vars.state) : Keeps s t guard := by
  have heats : t.vars.Eats = s.vars.Eats := by
    funext j
    rw [PhiloVars.Eats, hstate, PhiloVars.Eats]
  have hhungry : t.vars.Hungry = s.vars.Hungry := by
    funext j
    rw [PhiloVars.Hungry, hstate, PhiloVars.Hungry]
  constructor
  · exact h
  · intro ha
    rwa [PhiloVars.TableApart, hcount, heats]
  · intro _ hs
    rwa [PhiloVars.TableServed, hcount, heats, hhungry]

/-- A hungry philosopher does not eat. -/
theorem not_eats_of_hungry {v : PhiloVars} (h : v.Hungry i) : ¬v.Eats i := by
  rw [PhiloVars.Hungry] at h
  simp [PhiloVars.Eats, h]

/-- A new philosopher sits down between the last one and the first one. -/
theorem served_addPhilosopher_iff {v : PhiloVars} (h : v.TableServed) :
    v.addPhilosopher.TableServed ↔ SeatsApart v := by
  have hstate := PhiloVars.state_addPhilosopher (v := v)
  have hold : Served v.philosopherCount v.addPhilosopher.Hungry v.addPhilosopher.Eats := by
    refine h.mono (fun j hj hh => ?_) fun j hj he => ?_
    · rwa [PhiloVars.Hungry, hstate, update_of_ne (Nat.ne_of_lt hj)] at hh
    · rwa [PhiloVars.Eats, hstate, update_of_ne (Nat.ne_of_lt hj)]
  have hiff := hold.insert_iff (by simp [PhiloVars.Hungry, hstate])
    (by simp [PhiloVars.Eats, hstate]) fun _ _ hh => not_eats_of_hungry hh
  refine Iff.trans hiff (Iff.trans ?_ seatsApart_iff.symm)
  refine forall_congr' fun hpos => ?_
  have hother : ∀ j < v.philosopherCount, v.addPhilosopher.state j = v.state j := by
    intro j hj
    rw [hstate, update_of_ne (Nat.ne_of_lt hj)]
  simp only [PhiloVars.Hungry, PhiloVars.Eats]
  rw [hother _ (by omega), hother _ (leftOf_lt (by omega)), hother _ hpos, hother _ (rightOf_lt hpos)]

theorem keeps_add (h : PhiloInv s) (hc : ∀ n, s.controller ≠ .removing n) :
    Keeps s s.add (s.vars.philosopherCount < maxPhilosophers → SeatsApart s.vars) := by
  refine ⟨h.add hc, fun ha => ?_, fun hg hs => ?_⟩
  · rw [PhiloRun.add]
    split
    · exact ha.addPhilosopher
    · exact ha
  · rw [PhiloRun.add]
    split
    next hroom => exact (served_addPhilosopher_iff hs).mpr (hg hroom)
    next => exact hs

/-- A philosopher marks itself as dying.  It did not eat and was not hungry. -/
theorem keeps_setDying {v : PhiloVars} (hthink : v.state i = .thinking) :
    (v.TableApart → (v.setState i .dying).TableApart) ∧
      (v.TableServed → (v.setState i .dying).TableServed) := by
  refine ⟨fun h => h.setState (by decide), fun h => ?_⟩
  refine Served.mono h (fun j _ hj => ?_) fun j _ hj => ?_
  · rw [PhiloVars.Hungry, PhiloVars.state_setState] at hj
    by_cases hji : j = i
    · subst hji
      rw [update_self] at hj
      cases hj
    · rwa [update_of_ne hji] at hj
  · have hji : j ≠ i := by
      rintro rfl
      rw [PhiloVars.Eats, hthink] at hj
      cases hj
    rwa [PhiloVars.Eats, PhiloVars.state_setState, update_of_ne hji]

/-- The last philosopher leaves. -/
theorem keeps_leave {v : PhiloVars} (hlast : i + 1 = v.philosopherCount)
    (hdies : v.state i = .dying) (hends : ¬v.BothEating i) :
    (v.TableApart → (v.leave i).TableApart) ∧ (v.TableServed → (v.leave i).TableServed) := by
  refine ⟨fun h => h.leave hlast hends, fun h => ?_⟩
  have heats : (v.leave i).Eats = v.Eats := by
    funext j
    rw [PhiloVars.Eats, PhiloVars.state_leave, PhiloVars.Eats]
  have hhungry : (v.leave i).Hungry = v.Hungry := by
    funext j
    rw [PhiloVars.Hungry, PhiloVars.state_leave, PhiloVars.Hungry]
  have hcount : (v.leave i).philosopherCount = i := by
    simp [PhiloVars.leave, ← hlast]
  rw [PhiloVars.TableServed, heats, hhungry, hcount]
  rw [PhiloVars.TableServed, ← hlast] at h
  exact h.remove (by simp [PhiloVars.Eats, hdies])

/-- The loop of `should_die`, entered with the state `DYING` written. -/
theorem keeps_dieLoop {guard : Prop} {v : PhiloVars}
    (hdie : (v.philoArray i).die = true) (hdies : v.state i = .dying)
    (hinv : PhiloInv (s.goto i .dying v)) (ha : s.vars.TableApart → v.TableApart)
    (hs : s.vars.TableServed → v.TableServed) : Keeps s (s.dieLoop i v) guard := by
  rw [dieLoop]
  split
  next => exact ⟨hinv, ha, fun _ => hs⟩
  next hends =>
    have hpt : (s.goto i .dying v).point i ≠ .gone := by simp [PhiloRun.goto]
    obtain ⟨hlast, -⟩ := hinv.marked i (hinv.lt_count hpt) hdie
    have hleave := keeps_leave hlast hdies hends
    have hgone := hinv.leave hpt hdie
    simp only [PhiloRun.goto, update_idem] at hgone
    exact ⟨hgone, fun h => hleave.1 (ha h), fun _ h => hleave.2 (hs h)⟩

/-- Every step keeps the invariant and the order at the table. -/
theorem PhiloInv.next {a : PhiloAction} (h : PhiloInv s)
    (hn : philoSystem.next s a = some t) : Keeps s t (SeatsWell s a) := by
  cases a with
  | add =>
      simp only [philoSystem] at hn
      split at hn
      next hc =>
        cases hn
        have hadd := keeps_add h fun n => by simp [hc]
        have hcontrol : s.add.controller ≠ .removing s.add.vars.philosopherCount := by
          rw [PhiloRun.add]
          split <;> simp [PhiloRun.goto, hc]
        exact ⟨hadd.inv.control hcontrol, hadd.apart, hadd.served⟩
      next hc =>
        cases hn
        exact keeps_add h fun n => by simp [hc]
      next => cases hn
  | listen =>
      simp only [philoSystem] at hn
      split at hn
      next hc =>
        cases hn
        exact .of_state (h.control (by simp [hc])) rfl rfl
      next => cases hn
  | remove =>
      simp only [philoSystem] at hn
      split at hn
      next hc =>
        split at hn
        next hpos =>
          cases hn
          exact .of_state (h.markLast (fun n => by simp [hc]) hpos) rfl
            (PhiloVars.state_write (f := fun pd => { pd with die := true }) fun _ => rfl)
        next =>
          cases hn
          exact .of_state h rfl rfl
      next => cases hn
  | removeWake =>
      simp only [philoSystem] at hn
      split at hn
      next count hc =>
        split at hn
        next =>
          cases hn
          exact .of_state h rfl rfl
        next hne =>
          cases hn
          exact .of_state (h.control (by simp [hc, hne])) rfl rfl
      next => cases hn
  | shouldDie i =>
      simp only [philoSystem] at hn
      split at hn
      next hp =>
        have hi : s.point i ≠ .gone := by simp [hp]
        have hthink := h.thinks i (Or.inl hp)
        split at hn
        next hdie =>
          cases hn
          obtain ⟨ha, hs⟩ := keeps_setDying hthink
          refine keeps_dieLoop (by simpa using hdie) (by simp) (h.goto hi (by simp) rfl ?_ ?_
            (by simp) ?_) ha hs
          · exact fun j => PhiloVars.die_setState _
          · simp [hdie]
          · intro j hj _
            simp [hj]
        next =>
          cases hn
          refine .of_state (h.goto hi (by simp) rfl (fun _ => rfl) (by simp) ?_ ?_) rfl rfl
          · exact fun _ => hthink
          · exact fun _ _ _ => rfl
      next => cases hn
  | dieWake i =>
      simp only [philoSystem] at hn
      split at hn
      next hp =>
        cases hn
        have hi : s.point i ≠ .gone := by simp [hp]
        refine keeps_dieLoop (h.dying i hp) (h.dies i hp) (h.goto hi (by simp) rfl
          (fun _ => rfl) ?_ (by simp) ?_) id id
        · exact fun _ => ⟨h.dying i hp, h.dies i hp⟩
        · exact fun _ _ _ => rfl
      next => cases hn
  | takeForks i =>
      simp only [philoSystem] at hn
      split at hn
      next hp =>
        cases hn
        have hi : s.point i ≠ .gone := by simp [hp]
        have hthink := h.thinks i (Or.inr hp)
        refine ⟨h.goto hi (by simp) (by simp) (by simp) (by simp) (by simp) ?_, ?_, ?_⟩
        · intro j hj _
          rw [PhiloVars.takeForks, PhiloVars.state_test_of_not (Or.inl hj)]
          simp [hj]
        · exact fun ha => ha.takeForks (h.lt_count hi)
        · exact fun _ hs => hs.takeForks (h.lt_count hi) hthink
      next => cases hn
  | lock i =>
      simp only [philoSystem] at hn
      split at hn
      next hp =>
        cases hn
        have hi : s.point i ≠ .gone := by simp [hp]
        have hstate : (s.vars.write i fun pd =>
            { pd with mutex := (s.vars.philoArray i).mutex.lock }).state = s.vars.state :=
          PhiloVars.state_write fun _ => rfl
        refine .of_state (h.goto hi ?_ rfl ?_ ?_ ?_ ?_) rfl hstate
        · split <;> simp
        · intro j
          by_cases hji : j = i
          · subst hji
            simp [PhiloVars.write]
          · simp [PhiloVars.write, hji]
        · split <;> simp
        · split <;> simp
        · intro j _ _
          rw [hstate]
      next => cases hn
  | wake i =>
      simp only [philoSystem] at hn
      split at hn
      next hp =>
        cases hn
        have hi : s.point i ≠ .gone := by simp [hp.1]
        exact .of_state (h.goto hi (by simp) rfl (fun _ => rfl) (by simp) (by simp)
          fun _ _ _ => rfl) rfl rfl
      next => cases hn
  | putForks i =>
      simp only [philoSystem] at hn
      split at hn
      next hp =>
        cases hn
        have hi : s.point i ≠ .gone := by simp [hp]
        refine ⟨h.goto hi (by simp) (by simp) (by simp) (by simp) ?_ ?_, ?_, ?_⟩
        · intro _
          rw [PhiloVars.state_putForks (by simp)]
          simp
        · intro j hj hh
          rw [PhiloVars.state_putForks (by simp [hj, hh])]
          simp [hj]
        · exact fun ha => ha.putForks (h.lt_count hi)
        · exact fun _ hs => hs.putForks (h.lt_count hi)
      next => cases hn

theorem philoInv_of_init (h : philoSystem.init s) :
    PhiloInv s ∧ s.vars.TableApart ∧ s.vars.TableServed := by
  obtain ⟨philoNumber, hcount, hgone, hc⟩ := h
  refine ⟨⟨fun i => ?_, fun i hi => ?_, fun i hi => ?_, fun i hi => ?_, fun i hi => ?_⟩, ?_, ?_⟩
  · simp [hgone, hcount]
  · rw [hcount] at hi
    exact absurd hi (Nat.not_lt_zero i)
  · simp [hgone] at hi
  · simp [hgone] at hi
  · simp [hgone] at hi
  · rw [PhiloVars.TableApart, hcount]
    exact apart_zero
  · rw [PhiloVars.TableServed, hcount]
    exact served_zero

theorem philoInv_of_reach (h : philoSystem.Reach s) : PhiloInv s ∧ s.vars.TableApart :=
  h.invariant (fun _ hs => (philoInv_of_init hs).imp_right And.left) fun _ _ _ hi _ hn =>
    ⟨(hi.1.next hn).inv, (hi.1.next hn).apart hi.2⟩

theorem served_of_reachBy (h : philoSystem.ReachBy SeatsWell s) :
    PhiloInv s ∧ s.vars.TableServed :=
  h.invariant (fun _ hs => (philoInv_of_init hs).imp_right And.right) fun _ _ _ hi hg hn =>
    ⟨(hi.1.next hn).inv, (hi.1.next hn).served hg hi.2⟩

/-! ## What holds in every state -/

/-- No two distinct neighbours at the table eat. -/
def NeighboursApart (s : PhiloRun) : Prop :=
  ∀ i j, i < s.vars.philosopherCount → j < s.vars.philosopherCount → i ≠ j →
    j = PhiloVars.left i s.vars.philosopherCount ∨ j = PhiloVars.right i s.vars.philosopherCount →
    ¬(s.vars.state i = .eating ∧ s.vars.state j = .eating)

/-- Every hungry philosopher at the table has an eating neighbour. -/
def NoneStranded (s : PhiloRun) : Prop :=
  ∀ i < s.vars.philosopherCount, s.vars.state i = .hungry →
    s.vars.state (PhiloVars.left i s.vars.philosopherCount) = .eating ∨
      s.vars.state (PhiloVars.right i s.vars.philosopherCount) = .eating

instance (s : PhiloRun) : Decidable (NoneStranded s) :=
  inferInstanceAs (Decidable (∀ i < s.vars.philosopherCount, _ → _ ∨ _))

theorem noneStranded_iff : NoneStranded s ↔ s.vars.TableServed := by
  refine forall_congr' fun i => forall_congr' fun hi => ?_
  rw [PhiloVars.left_eq hi, PhiloVars.right_eq hi]
  exact Iff.rfl

/-- Mutual exclusion of neighbours, while philosophers come and go. -/
theorem neighbours_apart (h : philoSystem.Reach s) : NeighboursApart s := by
  have ha := (philoInv_of_reach h).2
  rintro i j hi - hne hij ⟨hei, hej⟩
  rw [PhiloVars.left_eq hi, PhiloVars.right_eq hi] at hij
  exact ha i hi j ⟨hne, hij⟩ hei hej

/-- Nobody is left hungry between free forks, as long as nobody sits down between
a hungry philosopher and the only neighbour that eats.  A philosopher who does
leaves one stranded. -/
theorem none_stranded (h : philoSystem.ReachBy SeatsWell s) :
    NoneStranded s ∧
      ∀ t, philoSystem.next s .add = some t → (NoneStranded t ↔ SeatsWell s .add) := by
  obtain ⟨hinv, hs⟩ := served_of_reachBy h
  refine ⟨noneStranded_iff.mpr hs, fun t hn => ⟨fun ht => ?_, fun hg => ?_⟩⟩
  · intro hroom
    have hvars : t.vars = s.vars.addPhilosopher := by
      simp only [philoSystem] at hn
      split at hn
      · cases hn
        simp [PhiloRun.add, hroom, PhiloRun.goto]
      · cases hn
        simp [PhiloRun.add, hroom, PhiloRun.goto]
      · cases hn
    rw [noneStranded_iff, hvars] at ht
    exact (served_addPhilosopher_iff hs).mp ht
  · exact noneStranded_iff.mpr ((hinv.next hn).served hg hs)

/-- The problem has been started for three philosophers. -/
def threeInvited : PhiloRun where
  vars := ⟨0, fun _ => ⟨.thinking, ⟨.unlocked, false⟩, false⟩⟩
  point _ := .gone
  controller := .starting 3

theorem init_threeInvited : philoSystem.init threeInvited := ⟨3, rfl, fun _ => rfl, rfl⟩

/-- All three sit at the table, the first one eats and the last one is hungry. -/
def oneEats : Option PhiloRun :=
  philoSystem.execute threeInvited
    [.add, .add, .add, .listen, .shouldDie 0, .takeForks 0, .shouldDie 2, .takeForks 2]

theorem neighbours_apart_oneEats : NeighboursApart (oneEats.get (by decide)) :=
  neighbours_apart (System.Reach.execute (.start init_threeInvited) (Option.some_get _).symm)

/-- A test for the guard. -/
def seatsWell (s : PhiloRun) : PhiloAction → Bool
  | .add => decide (SeatsApart s.vars)
  | _ => true

theorem seatsWell_of_test (s : PhiloRun) (a : PhiloAction) (h : seatsWell s a) : SeatsWell s a := by
  cases a with
  | add =>
      intro _
      simpa [seatsWell] using h
  | _ => trivial

/-- The same steps pass the test, and the next philosopher does not. -/
def oneEatsBy : Option PhiloRun :=
  philoSystem.executeBy seatsWell threeInvited
    [.add, .add, .add, .listen, .shouldDie 0, .takeForks 0, .shouldDie 2, .takeForks 2]

theorem none_stranded_oneEats :
    NoneStranded (oneEatsBy.get (by decide)) ∧
      ∀ t, philoSystem.next (oneEatsBy.get (by decide)) .add = some t →
        (NoneStranded t ↔ SeatsWell (oneEatsBy.get (by decide)) .add) :=
  none_stranded
    ((System.ReachBy.init init_threeInvited).execute seatsWell_of_test (Option.some_get _).symm)

/-- A fourth philosopher sits down between the hungry one and the one that eats,
and the hungry one is left between free forks. -/
theorem newcomer_strands : ¬∀ s, philoSystem.Reach s → NoneStranded s := by
  intro claim
  obtain ⟨t, ht, hf⟩ := System.exists_reach_of_execute init_threeInvited
    [.add, .add, .add, .listen, .shouldDie 0, .takeForks 0, .shouldDie 2, .takeForks 2, .add]
    (fun t => decide ¬NoneStranded t) (by decide)
  exact of_decide_eq_true hf (claim t ht)

end PhiloRun

end TPE
