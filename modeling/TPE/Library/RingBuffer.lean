import Mathlib.Data.List.Range
import Mathlib.Data.Nat.ModEq
import Mathlib.Tactic.Ring

/-!
# Circular arrays and bounded queues

A circular array of `n` cells holds its elements in a *window*: the cells from
`start` on, with indices taken modulo `n`.  A block copy (`blit`) overwrites a
stretch of cells.  A transfer that runs over the end of the array is made of
two block copies, and the lemmas below say what the window holds after it.

`BoundedQueue` is what such an array is for: a list of at most `cap` elements,
to which a block is appended as far as it fits and from which a block is taken
at the front.
-/

namespace TPE

/-! ## Bounded queues -/

/-- A queue that never holds more than `cap` elements. -/
structure BoundedQueue (α : Type*) (cap : Nat) where
  /-- The elements, oldest first. -/
  items : List α
  /-- The capacity is respected. -/
  bound : items.length ≤ cap

namespace BoundedQueue

variable {α : Type*} {cap : Nat}

/-- The queue with nothing in it. -/
def empty : BoundedQueue α cap := ⟨[], Nat.zero_le _⟩

/-- How much still fits. -/
def room (q : BoundedQueue α cap) : Nat := cap - q.items.length

/-- Append as much of a block as fits. -/
def push (q : BoundedQueue α cap) (block : List α) : BoundedQueue α cap :=
  ⟨q.items ++ block.take q.room, by
    have := q.bound
    simp only [List.length_append, List.length_take, room]
    omega⟩

/-- Drop the `n` oldest elements. -/
def pull (q : BoundedQueue α cap) (n : Nat) : BoundedQueue α cap :=
  ⟨q.items.drop n, by
    have := q.bound
    simp only [List.length_drop]
    omega⟩

@[simp] theorem push_items (q : BoundedQueue α cap) (block : List α) :
    (q.push block).items = q.items ++ block.take q.room := rfl

@[simp] theorem pull_items (q : BoundedQueue α cap) (n : Nat) :
    (q.pull n).items = q.items.drop n := rfl

theorem eq_of_items {q r : BoundedQueue α cap} (h : q.items = r.items) : q = r := by
  cases q
  cases r
  simpa using h

end BoundedQueue

/-! ## Windows -/

namespace RingBuffer

variable {α : Type*}

/-- The `fill` cells from `start` on in a circular array of `n` cells. -/
def window (cells : Nat → α) (n start fill : Nat) : List α :=
  (List.range fill).map fun i => cells ((start + i) % n)

@[simp] theorem length_window (cells : Nat → α) (n start fill : Nat) :
    (window cells n start fill).length = fill := by
  simp [window]

@[simp] theorem window_zero (cells : Nat → α) (n start : Nat) :
    window cells n start 0 = [] := rfl

theorem window_congr {cells cells' : Nat → α} {n start fill : Nat}
    (h : ∀ i < fill, cells' ((start + i) % n) = cells ((start + i) % n)) :
    window cells' n start fill = window cells n start fill := by
  apply List.map_congr_left
  intro i hi
  exact h i (List.mem_range.mp hi)

/-- A window is split at any place. -/
theorem window_add (cells : Nat → α) (n start f g : Nat) :
    window cells n start (f + g) =
      window cells n start f ++ window cells n ((start + f) % n) g := by
  unfold window
  rw [List.range_add, List.map_append, List.map_map]
  congr 1
  apply List.map_congr_left
  intro i _
  simp only [Function.comp_apply, Nat.mod_add_mod]
  congr 2
  ring

/-- Dropping elements moves the start of the window. -/
theorem window_drop (cells : Nat → α) {n start fill k : Nat} (hk : k ≤ fill) :
    (window cells n start fill).drop k = window cells n ((start + k) % n) (fill - k) := by
  obtain ⟨g, rfl⟩ := Nat.exists_eq_add_of_le hk
  rw [window_add, List.drop_left' (by simp), Nat.add_sub_cancel_left]

theorem window_take (cells : Nat → α) {n start fill k : Nat} (hk : k ≤ fill) :
    (window cells n start fill).take k = window cells n start k := by
  obtain ⟨g, rfl⟩ := Nat.exists_eq_add_of_le hk
  rw [window_add, List.take_left' (by simp)]

/-- The first cell of a window. -/
theorem window_succ (cells : Nat → α) (n start fill : Nat) :
    window cells n start (fill + 1) =
      cells (start % n) :: window cells n ((start + 1) % n) fill := by
  rw [Nat.add_comm, window_add]
  simp [window]

/-- A window depends on its start modulo the size of the array. -/
theorem window_mod (cells : Nat → α) (n start fill : Nat) :
    window cells n (start % n) fill = window cells n start fill := by
  simp [window]

/-- A write of the cell behind a window that leaves room for it. -/
theorem window_update (cells : Nat → α) {n start fill : Nat} (h : fill < n) (a : α) :
    window (Function.update cells ((start + fill) % n) a) n start (fill + 1) =
      window cells n start fill ++ [a] := by
  rw [window_add]
  congr 1
  · apply window_congr
    intro i hi
    apply Function.update_of_ne
    intro he
    have hmod : (start + i) % n = (start + fill) % n := he
    have hsub : n ∣ (start + fill) - (start + i) := (Nat.modEq_iff_dvd' (by omega)).mp hmod
    rw [show start + fill - (start + i) = fill - i by omega] at hsub
    exact absurd (Nat.le_of_dvd (by omega) hsub) (by omega)
  · simp [window]

/-! ## Block copies -/

/-- Overwrite the `len` cells from `pos` on. -/
def blit (dst : Nat → α) (pos : Nat) (src : Nat → α) (len : Nat) : Nat → α :=
  fun j => if pos ≤ j ∧ j < pos + len then src (j - pos) else dst j

theorem blit_inside {dst src : Nat → α} {pos len j : Nat} (h : pos ≤ j ∧ j < pos + len) :
    blit dst pos src len j = src (j - pos) := if_pos h

theorem blit_outside {dst src : Nat → α} {pos len j : Nat} (h : ¬(pos ≤ j ∧ j < pos + len)) :
    blit dst pos src len j = dst j := if_neg h

/-- Copy `len` cells into a circular array at `pos`: one block copy if they end
before the end of the array, else one up to the end and one from cell 0 on. -/
def blitRing (n : Nat) (dst : Nat → α) (pos : Nat) (src : Nat → α) (len : Nat) : Nat → α :=
  if pos + len < n then blit dst pos src len
  else blit (blit dst pos src (n - pos)) 0 (fun i => src (n - pos + i)) (len - (n - pos))

/-- What a circular copy leaves in the cells it writes. -/
theorem blitRing_inside {n pos len i : Nat} (dst src : Nat → α) (hpos : pos < n)
    (hlen : len ≤ n) (hi : i < len) :
    blitRing n dst pos src len ((pos + i) % n) = src i := by
  unfold blitRing
  split
  next hshort =>
    rw [Nat.mod_eq_of_lt (by omega), blit_inside (by omega)]
    congr 1
    omega
  next hlong =>
    by_cases hend : pos + i < n
    · -- the second block ends before `pos`, since `len ≤ n`
      rw [Nat.mod_eq_of_lt hend, blit_outside (by omega), blit_inside (by omega)]
      congr 1
      omega
    · rw [Nat.mod_eq_sub_mod (by omega), Nat.mod_eq_of_lt (by omega), blit_inside (by omega)]
      congr 1
      omega

/-- A circular copy leaves the cells of the same turn after it alone. -/
theorem blitRing_outside {n pos len i : Nat} (dst src : Nat → α) (hpos : pos < n)
    (hi : len ≤ i) (hin : i < n) :
    blitRing n dst pos src len ((pos + i) % n) = dst ((pos + i) % n) := by
  unfold blitRing
  split
  next hshort =>
    by_cases hend : pos + i < n
    · rw [Nat.mod_eq_of_lt hend, blit_outside (by omega)]
    · rw [Nat.mod_eq_sub_mod (by omega), Nat.mod_eq_of_lt (by omega), blit_outside (by omega)]
  next hlong =>
    rw [Nat.mod_eq_sub_mod (by omega), Nat.mod_eq_of_lt (by omega), blit_outside (by omega),
      blit_outside (by omega)]

/-- A circular copy behind a window appends to it. -/
theorem window_blitRing {n start fill len : Nat} (cells src : Nat → α) (hn : 0 < n)
    (hlen : fill + len ≤ n) :
    window (blitRing n cells ((start + fill) % n) src len) n start (fill + len) =
      window cells n start fill ++ (List.range len).map src := by
  have hpos : (start + fill) % n < n := Nat.mod_lt _ hn
  rw [window_add]
  congr 1
  · apply window_congr
    intro i hi
    -- the cell is `n - fill + i` places after the copy's first cell
    have hidx : (start + i) % n = ((start + fill) % n + (n - fill + i)) % n := by
      rw [Nat.mod_add_mod, show start + fill + (n - fill + i) = start + i + n by omega,
        Nat.add_mod_right]
    rw [hidx]
    exact blitRing_outside cells src hpos (by omega) (by omega)
  · apply List.map_congr_left
    intro i hi
    exact blitRing_inside cells src hpos (by omega) (List.mem_range.mp hi)

/-- Copy `len` cells of a circular array out of it, from `pos` on. -/
def blitOut (n : Nat) (dst : Nat → α) (cells : Nat → α) (pos len : Nat) : Nat → α :=
  if pos + len < n then blit dst 0 (fun i => cells (pos + i)) len
  else blit (blit dst 0 (fun i => cells (pos + i)) (n - pos)) (n - pos) cells (len - (n - pos))

/-- The cells copied out are the window. -/
theorem blitOut_eq_window {n pos len : Nat} (dst cells : Nat → α) (hpos : pos < n)
    (hlen : len ≤ n) :
    (List.range len).map (blitOut n dst cells pos len) = window cells n pos len := by
  apply List.map_congr_left
  intro i hi
  have hi : i < len := List.mem_range.mp hi
  unfold blitOut
  split
  next hshort =>
    rw [blit_inside (by omega), Nat.mod_eq_of_lt (by omega)]
    rfl
  next hlong =>
    by_cases hend : pos + i < n
    · rw [blit_outside (by omega), blit_inside (by omega), Nat.mod_eq_of_lt hend]
      rfl
    · rw [blit_inside (by omega), Nat.mod_eq_sub_mod (by omega), Nat.mod_eq_of_lt (by omega)]
      congr 1
      omega

/-- Copying out writes nothing behind the cells it copies. -/
theorem blitOut_outside {n pos len i : Nat} (dst cells : Nat → α) (hi : len ≤ i) :
    blitOut n dst cells pos len i = dst i := by
  unfold blitOut
  split
  next hshort => rw [blit_outside (by omega)]
  next hlong => rw [blit_outside (by omega), blit_outside (by omega)]

end RingBuffer

end TPE
