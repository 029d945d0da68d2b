import TPE.Library.RoundTable
import TPE.Library.Runs
import TPE.Kernel.State

/-!
# The dining philosophers

`philo.c`: philosophers at a round table take and put down their forks under
one mutex, `critical_m`, and a controlling process adds and removes the last
philosopher at the table.  A philosopher that finds no forks waits for a mutex
of its own, which a neighbour unlocks when it has found out that both forks are
free.

A section under `critical_m` is one step.  A process in `cond_wait` does not
hold the mutex, and it may go on at any time, so the condition variables
themselves are not modelled.  The mutex of a philosopher is given by its word
and by whether the philosopher is in its queue.

The philosophers are numbered by their index in `philo_array`.  A philosopher
that is removed leaves its index to the next one that is added.
-/

namespace TPE

open Function RoundTable

/-! ## The variables -/

/-- `MAX_PHILOSOPHERS` -/
abbrev maxPhilosophers : Nat := 16

/-- `THINKING`, `HUNGRY`, `EATING` and `DYING` -/
inductive PhiloState where
  | thinking
  | hungry
  | eating
  | dying
deriving DecidableEq, Repr

/-- The mutex of a philosopher. -/
structure PhiloMutex where
  locked : Lock
  /-- The philosopher is in its queue. -/
  queued : Bool
deriving DecidableEq

namespace PhiloMutex

/-- `mutex_unlock`: the mutex is handed over to the philosopher in the queue. -/
def unlock (m : PhiloMutex) : PhiloMutex :=
  if m.queued then { m with queued := false } else { m with locked := .unlocked }

/-- `mutex_lock`: the philosopher gets the mutex or joins its queue. -/
def lock (m : PhiloMutex) : PhiloMutex :=
  match m.locked with
  | .unlocked => { m with locked := .locked }
  | .locked => { m with queued := true }

end PhiloMutex

/-- `philosopher_data` -/
structure PhilosopherData where
  state : PhiloState
  /-- `mut` -/
  mutex : PhiloMutex
  die : Bool
deriving DecidableEq

/-- The static variables of `philo.c`. -/
structure PhiloVars where
  philosopherCount : Nat
  /-- `philo_array` -/
  philoArray : Nat → PhilosopherData

namespace PhiloVars

/-! ## The functions -/

/-- `LEFT(x, N)` -/
def left (x N : Nat) : Nat := (x + N - 1) % (if N ≠ 0 then N else 1)

/-- `RIGHT(x, N)` -/
def right (x N : Nat) : Nat := (x + 1) % (if N ≠ 0 then N else 1)

/-- The state of the philosopher `i`. -/
def state (v : PhiloVars) (i : Nat) : PhiloState := (v.philoArray i).state

/-- Write the entry of the philosopher `i`. -/
def write (v : PhiloVars) (i : Nat) (f : PhilosopherData → PhilosopherData) : PhiloVars :=
  { v with philoArray := update v.philoArray i (f (v.philoArray i)) }

/-- `setState` -/
def setState (v : PhiloVars) (philo : Nat) (st : PhiloState) : PhiloVars :=
  v.write philo fun pd => { pd with state := st }

/-- `test` -/
def test (v : PhiloVars) (i : Nat) : PhiloVars :=
  if v.state i = .hungry ∧ v.state (left i v.philosopherCount) ≠ .eating ∧
      v.state (right i v.philosopherCount) ≠ .eating then
    (v.setState i .eating).write i fun pd => { pd with mutex := pd.mutex.unlock }
  else v

/-- The section of `take_forks`. -/
def takeForks (v : PhiloVars) (i : Nat) : PhiloVars := (v.setState i .hungry).test i

/-- `put_forks` -/
def putForks (v : PhiloVars) (i : Nat) : PhiloVars :=
  ((v.setState i .thinking).test (left i v.philosopherCount)).test (right i v.philosopherCount)

/-- The section of `add_philosopher`, when there is room.  The new philosopher's
mutex is opened and locked. -/
def addPhilosopher (v : PhiloVars) : PhiloVars :=
  { philosopherCount := v.philosopherCount + 1
    philoArray := update v.philoArray v.philosopherCount ⟨.thinking, ⟨.locked, false⟩, false⟩ }

/-- `remove_philosopher` marks the last philosopher. -/
def markLast (v : PhiloVars) : PhiloVars :=
  v.write (v.philosopherCount - 1) fun pd => { pd with die := true }

/-- The condition of the loop of `should_die`. -/
def BothEating (v : PhiloVars) (i : Nat) : Prop :=
  v.state (left i v.philosopherCount) = .eating ∧ v.state (right i v.philosopherCount) = .eating

instance (v : PhiloVars) (i : Nat) : Decidable (v.BothEating i) :=
  inferInstanceAs (Decidable (_ ∧ _))

/-- `should_die` behind its loop. -/
def leave (v : PhiloVars) (i : Nat) : PhiloVars :=
  { v.write i fun pd => { pd with die := false } with philosopherCount := v.philosopherCount - 1 }

end PhiloVars

/-! ## The processes -/

/-- The next statement of a philosopher. -/
inductive PhiloPoint where
  /-- There is no such philosopher. -/
  | gone
  /-- In the first `sleep`: `should_die`. -/
  | sleeping
  /-- `take_forks` up to the unlock of `critical_m`. -/
  | deciding
  /-- `mutex_lock` of the own mutex. -/
  | locking
  /-- In the queue of the own mutex, or taken from it. -/
  | waiting
  /-- In the second `sleep`: `put_forks`. -/
  | holding
  /-- In the `cond_wait` of `should_die`. -/
  | dying
deriving DecidableEq, Repr

/-- The next statement of the controlling process. -/
inductive ControllerPoint where
  /-- The loop of `start_philosophers_problem`, with the number of rounds left. -/
  | starting (rounds : Nat)
  /-- `listen_commands` -/
  | listening
  /-- In the `cond_wait` of `remove_philosopher`, with its local `count`. -/
  | removing (count : Nat)
deriving DecidableEq, Repr

/-- The variables with the points of the processes. -/
structure PhiloRun where
  vars : PhiloVars
  point : Nat → PhiloPoint
  controller : ControllerPoint

/-- What can happen in one step. -/
inductive PhiloAction where
  /-- The controlling process calls `add_philosopher`. -/
  | add
  /-- The controlling process enters `listen_commands`. -/
  | listen
  /-- The controlling process calls `remove_philosopher`. -/
  | remove
  /-- The controlling process returns from `cond_wait`. -/
  | removeWake
  /-- The section of `should_die`. -/
  | shouldDie (i : Nat)
  /-- A philosopher returns from `cond_wait`. -/
  | dieWake (i : Nat)
  /-- The section of `take_forks`. -/
  | takeForks (i : Nat)
  /-- `mutex_lock` of the own mutex. -/
  | lock (i : Nat)
  /-- A philosopher taken from the queue of its mutex goes on. -/
  | wake (i : Nat)
  /-- The section of `put_forks`. -/
  | putForks (i : Nat)

namespace PhiloRun

/-- A philosopher goes to the point `pt`, with the variables `v`. -/
def goto (s : PhiloRun) (i : Nat) (pt : PhiloPoint) (v : PhiloVars) : PhiloRun :=
  { s with vars := v, point := update s.point i pt }

/-- `add_philosopher`.  `execp` starts the new philosopher. -/
def add (s : PhiloRun) : PhiloRun :=
  if s.vars.philosopherCount < maxPhilosophers then
    s.goto s.vars.philosopherCount .sleeping s.vars.addPhilosopher
  else s

/-- The loop of `should_die` and what is behind it. -/
def dieLoop (s : PhiloRun) (i : Nat) (v : PhiloVars) : PhiloRun :=
  if v.BothEating i then s.goto i .dying v else s.goto i .gone (v.leave i)

/-- The own mutex of the philosopher `i` is locked. -/
def lockOwn (s : PhiloRun) (i : Nat) : PhiloRun :=
  let m := (s.vars.philoArray i).mutex
  s.goto i (match m.locked with | .unlocked => .holding | .locked => .waiting)
    (s.vars.write i fun pd => { pd with mutex := m.lock })

end PhiloRun

/-- The philosophers and the controlling process, from the start of the problem. -/
def philoSystem : System PhiloRun PhiloAction where
  init s := ∃ philoNumber, s.vars.philosopherCount = 0 ∧ (∀ i, s.point i = .gone) ∧
    s.controller =
      .starting (if philoNumber > maxPhilosophers then maxPhilosophers else philoNumber)
  next
    | s, .add =>
        match s.controller with
        | .starting (rounds + 1) => some { s.add with controller := .starting rounds }
        | .listening => some s.add
        | _ => none
    | s, .listen =>
        match s.controller with
        | .starting 0 => some { s with controller := .listening }
        | _ => none
    | s, .remove =>
        match s.controller with
        | .listening =>
            if 0 < s.vars.philosopherCount then
              some { s with vars := s.vars.markLast, controller := .removing s.vars.philosopherCount }
            else some s
        | _ => none
    | s, .removeWake =>
        match s.controller with
        | .removing count =>
            if count = s.vars.philosopherCount then some s
            else some { s with controller := .listening }
        | _ => none
    | s, .shouldDie i =>
        if s.point i = .sleeping then
          if (s.vars.philoArray i).die then some (s.dieLoop i (s.vars.setState i .dying))
          else some (s.goto i .deciding s.vars)
        else none
    | s, .dieWake i => if s.point i = .dying then some (s.dieLoop i s.vars) else none
    | s, .takeForks i =>
        if s.point i = .deciding then some (s.goto i .locking (s.vars.takeForks i)) else none
    | s, .lock i => if s.point i = .locking then some (s.lockOwn i) else none
    | s, .wake i =>
        if s.point i = .waiting ∧ (s.vars.philoArray i).mutex.queued = false then
          some (s.goto i .holding s.vars)
        else none
    | s, .putForks i =>
        if s.point i = .holding then some (s.goto i .sleeping (s.vars.putForks i)) else none

namespace PhiloVars

/-! ## Who eats and who is hungry -/

/-- The philosophers that eat. -/
def Eats (v : PhiloVars) (i : Nat) : Prop := v.state i = .eating

/-- The philosophers that wait for their forks. -/
def Hungry (v : PhiloVars) (i : Nat) : Prop := v.state i = .hungry

variable {v : PhiloVars} {i j : Nat}

theorem left_eq (h : i < v.philosopherCount) :
    left i v.philosopherCount = leftOf v.philosopherCount i := by
  simp [left, leftOf, Nat.ne_of_gt (Nat.zero_lt_of_lt h)]

theorem right_eq (h : i < v.philosopherCount) :
    right i v.philosopherCount = rightOf v.philosopherCount i := by
  simp [right, rightOf, Nat.ne_of_gt (Nat.zero_lt_of_lt h)]

theorem left_lt (h : i < v.philosopherCount) :
    left i v.philosopherCount < v.philosopherCount := by
  rw [left_eq h]
  exact leftOf_lt h

theorem right_lt (h : i < v.philosopherCount) :
    right i v.philosopherCount < v.philosopherCount := by
  rw [right_eq h]
  exact rightOf_lt h

@[simp] theorem count_write (f : PhilosopherData → PhilosopherData) :
    (v.write i f).philosopherCount = v.philosopherCount := rfl

@[simp] theorem count_setState (st : PhiloState) :
    (v.setState i st).philosopherCount = v.philosopherCount := rfl

@[simp] theorem state_setState (st : PhiloState) :
    (v.setState i st).state = update v.state i st := by
  funext j
  by_cases h : j = i
  · subst h
    simp [state, setState, write]
  · simp [state, setState, write, h]

/-- A write that leaves the state of the entry alone. -/
theorem state_write {f : PhilosopherData → PhilosopherData} (hf : ∀ pd, (f pd).state = pd.state) :
    (v.write i f).state = v.state := by
  funext j
  by_cases h : j = i
  · subst h
    simp [state, write, hf]
  · simp [state, write, h]

@[simp] theorem die_setState (st : PhiloState) :
    ((v.setState i st).philoArray j).die = (v.philoArray j).die := by
  by_cases h : j = i
  · subst h
    simp [setState, write]
  · simp [setState, write, h]

/-- What a test has done: the philosopher was hungry between two free forks and
eats, or nothing has changed. -/
theorem test_cases (v : PhiloVars) (i : Nat) :
    (v.Hungry i ∧ ¬v.Eats (left i v.philosopherCount) ∧ ¬v.Eats (right i v.philosopherCount) ∧
      (v.test i).state = update v.state i .eating) ∨
    ((v.Hungry i → v.Eats (left i v.philosopherCount) ∨ v.Eats (right i v.philosopherCount)) ∧
      v.test i = v) := by
  rw [test]
  split
  next h =>
    refine Or.inl ⟨h.1, h.2.1, h.2.2, ?_⟩
    rw [state_write (f := fun pd => { pd with mutex := pd.mutex.unlock }) fun _ => rfl,
      state_setState]
  next h =>
    refine Or.inr ⟨fun hi => ?_, rfl⟩
    by_contra hno
    obtain ⟨hl, hr⟩ := not_or.mp hno
    exact h ⟨hi, hl, hr⟩

@[simp] theorem count_test : (v.test i).philosopherCount = v.philosopherCount := by
  rw [test]
  split <;> rfl

@[simp] theorem die_test : ((v.test i).philoArray j).die = (v.philoArray j).die := by
  rw [test]
  split
  · by_cases h : j = i
    · subst h
      simp [setState, write]
    · simp [setState, write, h]
  · rfl

/-- A test changes no other philosopher, and one that is not hungry stays as it is. -/
theorem state_test_of_not (h : j ≠ i ∨ v.state j ≠ .hungry) : (v.test i).state j = v.state j := by
  rcases test_cases v i with ⟨hi, -, -, he⟩ | ⟨-, he⟩
  · rw [he]
    by_cases hj : j = i
    · subst hj
      exact absurd hi (h.resolve_left fun hne => hne rfl)
    · exact update_of_ne hj _ _
  · rw [he]

/-- A test makes nobody hungry. -/
theorem hungry_of_test (h : (v.test i).Hungry j) : v.Hungry j := by
  rcases test_cases v i with ⟨-, -, -, he⟩ | ⟨-, he⟩
  · rw [Hungry, he] at h
    by_cases hj : j = i
    · subst hj
      rw [update_self] at h
      cases h
    · rwa [update_of_ne hj] at h
  · rwa [he] at h

/-- A philosopher that was not hungry is not touched by the two tests of `put_forks`. -/
theorem state_putForks (h : (v.setState i .thinking).state j ≠ .hungry) :
    (v.putForks i).state j = (v.setState i .thinking).state j := by
  have hone := state_test_of_not (v := v.setState i .thinking) (i := left i v.philosopherCount)
    (Or.inr h)
  rw [putForks, state_test_of_not (Or.inr (by rwa [hone])), hone]

@[simp] theorem count_takeForks : (v.takeForks i).philosopherCount = v.philosopherCount := by
  simp [takeForks]

@[simp] theorem count_putForks : (v.putForks i).philosopherCount = v.philosopherCount := by
  simp [putForks]

@[simp] theorem die_takeForks : ((v.takeForks i).philoArray j).die = (v.philoArray j).die := by
  simp [takeForks]

@[simp] theorem die_putForks : ((v.putForks i).philoArray j).die = (v.philoArray j).die := by
  simp [putForks]

/-! ## No two neighbours eat -/

/-- No two neighbours eat. -/
abbrev TableApart (v : PhiloVars) : Prop := Apart v.philosopherCount v.Eats

theorem TableApart.setState {st : PhiloState} (h : v.TableApart) (hst : st ≠ .eating) :
    (v.setState i st).TableApart := by
  refine Apart.mono h fun j _ hj => ?_
  rw [Eats, state_setState] at hj
  by_cases hji : j = i
  · subst hji
    rw [update_self] at hj
    exact absurd hj hst
  · rwa [update_of_ne hji] at hj

theorem TableApart.test (h : v.TableApart) (hi : i < v.philosopherCount) : (v.test i).TableApart := by
  rcases test_cases v i with ⟨-, hl, hr, he⟩ | ⟨-, he⟩
  · rw [left_eq hi] at hl
    rw [right_eq hi] at hr
    have hjoin := Apart.join h hi hl hr
    rw [TableApart, count_test]
    refine hjoin.mono fun j _ hj => ?_
    rw [Eats, he] at hj
    by_cases hji : j = i
    · subst hji
      rw [update_self]
      trivial
    · rw [update_of_ne hji] at hj ⊢
      exact hj
  · rwa [he]

theorem TableApart.takeForks (h : v.TableApart) (hi : i < v.philosopherCount) :
    (v.takeForks i).TableApart :=
  (h.setState (by decide)).test hi

theorem TableApart.putForks (h : v.TableApart) (hi : i < v.philosopherCount) :
    (v.putForks i).TableApart := by
  have hthink : (v.setState i .thinking).TableApart := h.setState (by decide)
  have htest := hthink.test (left_lt hi)
  exact htest.test (by simpa using right_lt hi)

theorem state_addPhilosopher :
    v.addPhilosopher.state = update v.state v.philosopherCount .thinking := by
  funext j
  by_cases h : j = v.philosopherCount
  · subst h
    simp [state, addPhilosopher]
  · simp [state, addPhilosopher, h]

theorem TableApart.addPhilosopher (h : v.TableApart) : v.addPhilosopher.TableApart := by
  have hnew : ¬v.addPhilosopher.Eats v.philosopherCount := by
    simp [Eats, state_addPhilosopher]
  refine Apart.insert (Apart.mono h fun j hj he => ?_) hnew
  rwa [Eats, state_addPhilosopher, update_of_ne (Nat.ne_of_lt hj)] at he

theorem state_leave : (v.leave i).state = v.state :=
  state_write (v := v) (f := fun pd => { pd with die := false }) fun _ => rfl

/-- The last philosopher leaves when its neighbours do not both eat. -/
theorem TableApart.leave (h : v.TableApart) (hi : i + 1 = v.philosopherCount)
    (hends : ¬v.BothEating i) : (v.leave i).TableApart := by
  have hlt : i < v.philosopherCount := by omega
  rw [BothEating, left_eq hlt, right_eq hlt] at hends
  have hstate : (v.leave i).Eats = v.Eats := by
    funext j
    rw [Eats, state_leave, Eats]
  have hcount : (v.leave i).philosopherCount = i := by
    simp [PhiloVars.leave, ← hi]
  rw [TableApart, hstate, hcount]
  rw [← hi] at hends
  rw [TableApart, ← hi] at h
  exact h.remove hends

/-! ## Every hungry philosopher has an eating neighbour -/

/-- Every hungry philosopher has an eating neighbour. -/
abbrev TableServed (v : PhiloVars) : Prop := Served v.philosopherCount v.Hungry v.Eats

/-- A philosopher that has been tested needs no exception. -/
theorem served_test {H : Nat → Prop} (hi : i < v.philosopherCount)
    (h : Served v.philosopherCount (fun j => H j ∧ j ≠ i) v.Eats) :
    Served v.philosopherCount (fun j => H j ∧ (v.test i).Hungry j) (v.test i).Eats := by
  rcases test_cases v i with ⟨-, -, -, he⟩ | ⟨hside, he⟩
  · refine h.mono (fun j _ hj => ⟨hj.1, ?_⟩) fun j _ hj => ?_
    · rintro rfl
      have hh := hj.2
      simp [Hungry, he] at hh
    · rw [Eats, he]
      by_cases hji : j = i
      · subst hji
        rw [update_self]
      · rw [update_of_ne hji]
        exact hj
  · rw [he]
    refine Served.add (i := i) (h.mono (fun j _ hj => ⟨hj.1.1, hj.2⟩) fun _ _ hj => hj) ?_
    rintro ⟨-, hh⟩
    rw [left_eq hi, right_eq hi] at hside
    exact hside hh

/-- A philosopher that thought wants its forks. -/
theorem TableServed.takeForks (h : v.TableServed) (hi : i < v.philosopherCount)
    (hthink : v.state i = .thinking) : (v.takeForks i).TableServed := by
  have hset : Served v.philosopherCount
      (fun j => (v.setState i .hungry).Hungry j ∧ j ≠ i) (v.setState i .hungry).Eats := by
    refine h.mono (fun j _ hj => ?_) fun j _ hj => ?_
    · have hh := hj.1
      rwa [Hungry, state_setState, update_of_ne hj.2] at hh
    · have hji : j ≠ i := by
        rintro rfl
        rw [Eats, hthink] at hj
        cases hj
      rwa [Eats, state_setState, update_of_ne hji]
  have htest := served_test (v := v.setState i .hungry) hi hset
  rw [TableServed, count_takeForks]
  refine htest.mono (fun j _ hj => ⟨?_, hj⟩) fun _ _ hj => hj
  by_cases hji : j = i
  · subst hji
    simp [Hungry]
  · rwa [Hungry, PhiloVars.takeForks, state_test_of_not (Or.inl hji)] at hj

/-- A philosopher puts its forks down, and both neighbours are tested. -/
theorem TableServed.putForks (h : v.TableServed) (hi : i < v.philosopherCount) :
    (v.putForks i).TableServed := by
  have hl := left_lt hi
  have hr := right_lt hi
  set l := left i v.philosopherCount with hldef
  set r := right i v.philosopherCount with hrdef
  set w := v.setState i .thinking with hw
  have hwstate : w.state = update v.state i .thinking := state_setState _
  have hleave : Served w.philosopherCount (fun j => (w.Hungry j ∧ j ≠ r) ∧ j ≠ l) w.Eats := by
    have hgone := Served.leave h hi
    rw [← left_eq hi, ← right_eq hi] at hgone
    refine hgone.mono (fun j _ hj => ⟨⟨?_, hj.1.2⟩, hj.2⟩) fun j _ hj => ?_
    · have hh := hj.1.1
      rw [Hungry, hwstate] at hh
      by_cases hji : j = i
      · subst hji
        rw [update_self] at hh
        cases hh
      · rwa [update_of_ne hji] at hh
    · by_cases hji : j = i
      · subst hji
        rw [update_self] at hj
        exact hj.elim
      · rw [update_of_ne hji] at hj
        rwa [Eats, hwstate, update_of_ne hji]
  -- the two tests remove the two exceptions
  have hone := served_test (v := w) (i := l) hl hleave
  have htwo := served_test (v := w.test l) (i := r) (H := (w.test l).Hungry)
    (by rw [count_test]; exact hr) (by
      rw [count_test]
      exact hone.mono (fun j _ hj => ⟨⟨hungry_of_test hj.1, hj.2⟩, hj.1⟩) fun _ _ hj => hj)
  rw [TableServed, count_putForks]
  rw [count_test] at htwo
  exact htwo.mono (fun j _ hj => ⟨hungry_of_test hj, hj⟩) fun _ _ hj => hj

end PhiloVars

end TPE
