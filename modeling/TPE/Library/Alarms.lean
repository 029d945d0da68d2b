import Mathlib.Data.List.Basic

/-!
# Alarms

A clock counts ticks and keeps all alarms that were ever set, the newest one first.  An alarm is
*pending* up to the tick it is due at, and *rings* at that tick.

How an alarm is kept until then does not matter here: a counter that is set to the number of
ticks and counts down is `remaining`.
-/

namespace TPE

variable {ι : Type*}

/-- Something that is due at a time. -/
structure Alarm (ι : Type*) where
  item : ι
  due : Nat
deriving DecidableEq

/-- The time and all alarms. -/
structure AlarmClock (ι : Type*) where
  now : Nat
  log : List (Alarm ι)

namespace AlarmClock

/-- Set an alarm for the `n`-th tick from now on. -/
def set (c : AlarmClock ι) (i : ι) (n : Nat) : AlarmClock ι :=
  { c with log := ⟨i, c.now + n⟩ :: c.log }

/-- A tick. -/
def tick (c : AlarmClock ι) : AlarmClock ι := { c with now := c.now + 1 }

/-- The alarms that have not rung. -/
def pending (c : AlarmClock ι) : List (Alarm ι) := c.log.filter fun x => c.now < x.due

/-- The alarms that ring at the next tick. -/
def ringing (c : AlarmClock ι) : List (Alarm ι) := c.pending.filter fun x => x.due = c.now + 1

/-- How many ticks are left. -/
def remaining (c : AlarmClock ι) (x : Alarm ι) : Nat := x.due - c.now

variable {c : AlarmClock ι} {x : Alarm ι} {i : ι} {n : Nat}

@[simp] theorem mem_pending : x ∈ c.pending ↔ x ∈ c.log ∧ c.now < x.due := by
  simp [pending]

theorem mem_ringing : x ∈ c.ringing ↔ x ∈ c.pending ∧ x.due = c.now + 1 := by
  rw [ringing, List.mem_filter, decide_eq_true_eq]

/-- An alarm that is set is pending. -/
theorem pending_set (hn : 0 < n) : (c.set i n).pending = ⟨i, c.now + n⟩ :: c.pending := by
  have hlt : c.now < c.now + n := by omega
  exact List.filter_cons_of_pos (decide_eq_true hlt)

/-- After a tick those are pending that did not ring. -/
theorem pending_tick : c.tick.pending = c.pending.filter fun x => ¬x.due = c.now + 1 := by
  rw [pending, pending, List.filter_filter]
  refine List.filter_congr fun x _ => ?_
  have hstep : c.now + 1 < x.due ↔ ¬x.due = c.now + 1 ∧ c.now < x.due := by omega
  simp [tick, hstep]

/-- An alarm rings or stays pending. -/
theorem pending_perm : (c.ringing ++ c.tick.pending).Perm c.pending := by
  have hsplit := List.filter_append_perm (fun x => decide (x.due = c.now + 1)) c.pending
  rw [pending_tick]
  simpa [ringing] using hsplit

end AlarmClock

end TPE
