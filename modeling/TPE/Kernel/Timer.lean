import TPE.Library.Walk
import TPE.Kernel.ProcessManager

/-!
# The timer

`timer.c`: a process that sleeps has a node in a singly linked list, with the
number of timer ticks until it wakes up.  The handler of the timer interrupt
walks through the list, counts the ticks down and unlinks the nodes that are
due.
-/

namespace TPE

open Function

/-- `ticks - 1` in `uint64_t` -/
def countDown (ticks : Nat) : Nat := (ticks + 2 ^ 64 - 1) % 2 ^ 64

theorem countDown_eq {ticks : Nat} (pos : 0 < ticks) (fits : ticks < 2 ^ 64) :
    countDown ticks = ticks - 1 := by
  unfold countDown
  omega

namespace Kernel

/-- Write the sleep node at `a`. -/
def writeSleep (k : Kernel) (a : Addr) (f : SleepProcess → SleepProcess) : Kernel :=
  { k with sleepNodes := update k.sleepNodes a (f (k.sleepNodes a)) }

/-- The node after `a` in the list of sleeping processes. -/
def sleepNext (k : Kernel) (a : Addr) : Addr := (k.sleepNodes a).next

/-- The process of the sleep node `a`. -/
def sleeper (k : Kernel) (a : Addr) : Addr := (k.sleepNodes a).p

@[simp] theorem sleepNext_writeSleep (k : Kernel) (a : Addr) (f : SleepProcess → SleepProcess) :
    (k.writeSleep a f).sleepNext = update k.sleepNext a (f (k.sleepNodes a)).next := by
  funext b
  by_cases h : b = a
  · subst h
    simp [sleepNext, writeSleep]
  · simp [sleepNext, writeSleep, h]

@[simp] theorem sleeper_writeSleep (k : Kernel) (a : Addr) (f : SleepProcess → SleepProcess) :
    (k.writeSleep a f).sleeper = update k.sleeper a (f (k.sleepNodes a)).p := by
  funext b
  by_cases h : b = a
  · subst h
    simp [sleeper, writeSleep]
  · simp [sleeper, writeSleep, h]

/-- A write of the ticks of a node. -/
theorem sleepNext_writeTicks (k : Kernel) (a : Addr) (f : Nat → Nat) :
    (k.writeSleep a fun n => { n with ticks := f n.ticks }).sleepNext = k.sleepNext := by
  rw [sleepNext_writeSleep]
  exact update_eq_self a k.sleepNext

theorem sleeper_writeTicks (k : Kernel) (a : Addr) (f : Nat → Nat) :
    (k.writeSleep a fun n => { n with ticks := f n.ticks }).sleeper = k.sleeper := by
  rw [sleeper_writeSleep]
  exact update_eq_self a k.sleeper

/-- A write of the link of a node. -/
theorem sleeper_writeNext (k : Kernel) (a b : Addr) :
    (k.writeSleep a fun n => { n with next := b }).sleeper = k.sleeper := by
  rw [sleeper_writeSleep]
  exact update_eq_self a k.sleeper

/-- `wait_ticks` in `sleep` -/
def waitTicks (milliseconds : Nat) : Nat := milliseconds / 55

/-- `create_sleep_process` -/
def createSleepProcess (k : Kernel) (ticks : Nat) : Option (Addr × Kernel) :=
  k.getPage.map fun (a, k) =>
    (a, k.writeSleep a fun n => { n with ticks, p := k.getCurrentProcess })

/-- The first statement of `add_sleep_process`. -/
def linkSleepProcess (k : Kernel) (a : Addr) : Kernel :=
  k.writeSleep a fun n => { n with next := k.sleepingProcesses }

/-- The second statement of `add_sleep_process`. -/
def headSleepProcess (k : Kernel) (a : Addr) : Kernel := { k with sleepingProcesses := a }

/-- Unlink the node `a` behind `prev`, or at the head of the list if `prev` is `NULL`. -/
def unlinkSleepProcess (k : Kernel) (prev a : Addr) : Kernel :=
  if prev = null then { k with sleepingProcesses := k.sleepNext a }
  else k.writeSleep prev fun n => { n with next := k.sleepNext a }

/-- The loop of `timer_handler`, from the node `a` behind `prev` on. -/
def timerLoop : Nat → Kernel → Addr → Addr → Option Kernel
  | 0, _, _, _ => none
  | fuel + 1, k, prev, a =>
      if a = null then some k
      else
        let k := k.writeSleep a fun n => { n with ticks := countDown n.ticks }
        if (k.sleepNodes a).ticks = 0 then
          let k := k.unlinkSleepProcess prev a
          let k := { k with processes := Procs.unblockProcess k.processes (k.sleeper a) }
          timerLoop fuel (k.storePage a) prev (k.sleepNext a)
        else timerLoop fuel k a (k.sleepNext a)

/-- `timer_handler` -/
def timerHandler (fuel : Nat) (k : Kernel) : Option Kernel :=
  timerLoop fuel k null k.sleepingProcesses

/-- What `create_sleep_process` does. -/
structure SleepCreated (k : Kernel) (ticks : Nat) (a : Addr) (k' : Kernel) : Prop where
  getPage : k.pages.getPage = some (a, k'.pages)
  node : k'.sleepNodes a = { k.sleepNodes a with ticks, p := k.getCurrentProcess }
  others : ∀ b, b ≠ a → k'.sleepNodes b = k.sleepNodes b
  head : k'.sleepingProcesses = k.sleepingProcesses
  current : k'.getCurrentProcess = k.getCurrentProcess
  processes : k'.processes = k.processes

theorem createSleepProcess_spec {k k' : Kernel} {ticks : Nat} {a : Addr}
    (h : k.createSleepProcess ticks = some (a, k')) : SleepCreated k ticks a k' := by
  obtain ⟨⟨b, k₁⟩, hget, he⟩ := Option.map_eq_some_iff.mp h
  obtain ⟨pages, hpages, rfl⟩ := getPage_eq_some hget
  cases he
  exact ⟨hpages, update_self _ _ _, fun b hb => update_of_ne hb _ _, rfl, rfl, rfl⟩

/-- The node behind the nodes `done` of the list, or `NULL` if there is none. -/
def Behind (done : List Addr) (prev : Addr) : Prop :=
  done = [] ∧ prev = null ∨ ∃ d, done = d ++ [prev]

/-- An unlinked node is out of the list, and no node has another process or other ticks. -/
theorem unlinkSleepProcess_walk {k : Kernel} {done rest : List Addr} {prev a : Addr}
    (hwalk : Walk k.sleepNext k.sleepingProcesses (done ++ a :: rest) null)
    (hnull : null ∉ done ++ a :: rest) (hprev : Behind done prev) :
    Walk (k.unlinkSleepProcess prev a).sleepNext (k.unlinkSleepProcess prev a).sleepingProcesses
      (done ++ rest) null := by
  rcases hprev with ⟨rfl, rfl⟩ | ⟨d, rfl⟩
  · obtain ⟨he, hrest⟩ := hwalk
    rw [he] at hrest
    rw [unlinkSleepProcess, if_pos rfl]
    exact hrest
  · have hne : prev ≠ null := by
      rintro rfl
      exact hnull (List.mem_append_left _ (List.mem_append_right _ List.mem_cons_self))
    have hnodup := hwalk.nodup hnull
    rw [List.append_assoc] at hwalk hnodup ⊢
    rw [unlinkSleepProcess, if_neg hne, sleepNext_writeSleep]
    exact hwalk.unlink hnodup

/-- Behind the nodes `done` there is none of the nodes that follow them. -/
theorem Behind.notMem {done rest : List Addr} {prev : Addr} (h : Behind done prev)
    (hnodup : (done ++ rest).Nodup) (hnull : null ∉ rest) : prev ∉ rest := by
  rcases h with ⟨-, rfl⟩ | ⟨d, rfl⟩
  · exact hnull
  · intro hm
    exact (List.nodup_append.mp hnodup).2.2 prev
      (List.mem_append_right _ List.mem_cons_self) prev hm rfl

/-- An unlinking writes the head of the list or one link. -/
theorem unlinkSleepProcess_spec (k : Kernel) (prev a : Addr) :
    ∃ nodes head, k.unlinkSleepProcess prev a =
        { k with sleepNodes := nodes, sleepingProcesses := head } ∧
      (∀ b, (nodes b).p = (k.sleepNodes b).p ∧ (nodes b).ticks = (k.sleepNodes b).ticks) ∧
      ∀ b, b ≠ prev → nodes b = k.sleepNodes b := by
  unfold unlinkSleepProcess
  split
  · exact ⟨_, _, rfl, fun _ => ⟨rfl, rfl⟩, fun _ _ => rfl⟩
  · refine ⟨_, _, rfl, fun b => ?_, fun b hb => update_of_ne hb _ _⟩
    by_cases hb : b = prev
    · subst hb
      rw [update_self]
      exact ⟨rfl, rfl⟩
    · rw [update_of_ne hb]
      exact ⟨rfl, rfl⟩

/-! ## A round of the loop -/

/-- A node counts its ticks down. -/
def tickNode (k : Kernel) (a : Addr) : Kernel :=
  k.writeSleep a fun n => { n with ticks := countDown n.ticks }

theorem tickNode_self {k : Kernel} {a : Addr} :
    (k.tickNode a).sleepNodes a =
      { k.sleepNodes a with ticks := countDown (k.sleepNodes a).ticks } := update_self _ _ _

theorem sleepNext_tickNode (k : Kernel) (a : Addr) : (k.tickNode a).sleepNext = k.sleepNext :=
  sleepNext_writeTicks k a countDown

/-- The node behind `a`, after `a` was unlinked. -/
theorem sleepNext_unlinked (k : Kernel) (prev a : Addr) :
    (k.unlinkSleepProcess prev a).sleepNext a = k.sleepNext a := by
  unfold unlinkSleepProcess
  split
  · rfl
  · rw [sleepNext_writeSleep]
    by_cases h : a = prev
    · subst h
      exact update_self _ _ _
    · exact update_of_ne h _ _

/-- The kernel after the process of `a` was woken up, before the page of `a` is
given back. -/
def wokenUp (k : Kernel) (prev a : Addr) : Kernel :=
  let k := (k.tickNode a).unlinkSleepProcess prev a
  { k with processes := Procs.unblockProcess k.processes (k.sleeper a) }

theorem wokenUp_eq (k : Kernel) (prev a : Addr) :
    ∃ sleepNodes sleepingProcesses processes, k.wokenUp prev a =
      { k with sleepNodes, sleepingProcesses, processes } := by
  obtain ⟨nodes, head, he, -⟩ := unlinkSleepProcess_spec (k.tickNode a) prev a
  unfold wokenUp
  rw [he]
  exact ⟨nodes, head, _, rfl⟩

theorem sleepNext_wokenUp {k : Kernel} {prev a : Addr} :
    (k.wokenUp prev a).sleepNext a = k.sleepNext a := by
  refine (sleepNext_unlinked (k.tickNode a) prev a).trans ?_
  rw [sleepNext_tickNode]

theorem timerLoop_succ (fuel : Nat) (k : Kernel) (prev a : Addr) :
    timerLoop (fuel + 1) k prev a =
      if a = null then some k
      else if ((k.tickNode a).sleepNodes a).ticks = 0 then
        timerLoop fuel ((k.wokenUp prev a).storePage a) prev ((k.wokenUp prev a).sleepNext a)
      else timerLoop fuel (k.tickNode a) a ((k.tickNode a).sleepNext a) := rfl

/-- The list behind the nodes `done`, after the node `a` was unlinked and woken up. -/
theorem wokenUp_walk {k : Kernel} {done rest : List Addr} {prev a : Addr}
    (hwalk : Walk k.sleepNext k.sleepingProcesses (done ++ a :: rest) null)
    (hnull : null ∉ done ++ a :: rest) (hprev : Behind done prev) :
    Walk (k.wokenUp prev a).sleepNext (k.wokenUp prev a).sleepingProcesses (done ++ rest) null := by
  have hticked : Walk (k.tickNode a).sleepNext (k.tickNode a).sleepingProcesses
      (done ++ a :: rest) null := by
    rw [sleepNext_tickNode]
    exact hwalk
  exact unlinkSleepProcess_walk hticked hnull hprev

/-- The nodes ahead are linked as before. -/
theorem wokenUp_rest {k : Kernel} {rest : List Addr} {prev a : Addr}
    (hwalk : Walk k.sleepNext (k.sleepNext a) rest null) (hprev : prev ∉ rest) :
    Walk (k.wokenUp prev a).sleepNext ((k.wokenUp prev a).sleepNext a) rest null := by
  rw [sleepNext_wokenUp]
  refine hwalk.congr fun x hx => ?_
  have hne : x ≠ prev := fun he => hprev (he ▸ hx)
  obtain ⟨nodes, head, he, -, hother⟩ := unlinkSleepProcess_spec (k.tickNode a) prev a
  rw [← sleepNext_tickNode k a]
  show ((k.tickNode a).unlinkSleepProcess prev a).sleepNext x = _
  rw [he]
  exact congrArg SleepProcess.next (hother x hne)

end Kernel

end TPE
