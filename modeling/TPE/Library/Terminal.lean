import Mathlib.Data.Fin.Basic

/-!
# A terminal

A terminal has rows of cells and a cursor on one of them.  What is placed goes to the cursor,
which then moves on.  Behind the last cell all rows move up by one.
-/

namespace TPE

variable {α : Type*} {rows cols : Nat}

/-- The cells and the cursor. -/
structure Terminal (α : Type*) (rows cols : Nat) where
  cells : Fin rows → Fin cols → α
  row : Fin rows
  col : Fin cols

namespace Terminal

/-- All cells are blank. -/
def cleared (blank : α) (hrows : 0 < rows) (hcols : 0 < cols) : Terminal α rows cols where
  cells _ _ := blank
  row := ⟨0, hrows⟩
  col := ⟨0, hcols⟩

/-- The cursor goes to the first cell. -/
def home (t : Terminal α rows cols) : Terminal α rows cols :=
  { t with
    row := ⟨0, t.row.pos⟩
    col := ⟨0, t.col.pos⟩ }

/-- Write the cell at the cursor. -/
def write (t : Terminal α rows cols) (c : α) : Terminal α rows cols :=
  { t with cells := fun r k => if r = t.row ∧ k = t.col then c else t.cells r k }

/-- The rows move up by one, and the last one is blank. -/
def scroll (t : Terminal α rows cols) (blank : α) : Terminal α rows cols :=
  { t with cells := fun r k => if h : r.val + 1 < rows then t.cells ⟨r.val + 1, h⟩ k else blank }

/-- The cursor goes to the start of the next row. -/
def newline (t : Terminal α rows cols) (blank : α) : Terminal α rows cols :=
  if h : t.row.val + 1 < rows then
    { t with
      row := ⟨t.row.val + 1, h⟩
      col := ⟨0, t.col.pos⟩ }
  else { t.scroll blank with col := ⟨0, t.col.pos⟩ }

/-- The cursor goes to the next cell. -/
def advance (t : Terminal α rows cols) (blank : α) : Terminal α rows cols :=
  if h : t.col.val + 1 < cols then { t with col := ⟨t.col.val + 1, h⟩ } else t.newline blank

/-- Write a cell and go on. -/
def place (t : Terminal α rows cols) (blank c : α) : Terminal α rows cols :=
  (t.write c).advance blank

/-- The cursor goes to the previous cell. -/
def retreat (t : Terminal α rows cols) : Terminal α rows cols :=
  if t.col.val ≠ 0 then
    { t with col := ⟨t.col.val - 1, Nat.lt_of_le_of_lt (Nat.sub_le _ _) t.col.isLt⟩ }
  else
    { t with
      row := ⟨t.row.val - 1, Nat.lt_of_le_of_lt (Nat.sub_le _ _) t.row.isLt⟩
      col := ⟨cols - 1, Nat.sub_lt t.col.pos Nat.one_pos⟩ }

/-- The cursor goes to the previous cell, which is blank then. -/
def back (t : Terminal α rows cols) (blank : α) : Terminal α rows cols :=
  if t.row.val = 0 ∧ t.col.val = 0 then t else t.retreat.write blank

/-- The number of the cell at the cursor. -/
def pos (t : Terminal α rows cols) : Nat := t.row.val * cols + t.col.val

variable {t : Terminal α rows cols} {blank c : α}

theorem pos_lt (t : Terminal α rows cols) : t.pos < rows * cols := by
  have hrow : (t.row.val + 1) * cols ≤ rows * cols := Nat.mul_le_mul_right _ t.row.isLt
  rw [Nat.succ_mul] at hrow
  have hcol := t.col.isLt
  unfold pos
  omega

theorem pos_div (t : Terminal α rows cols) : t.pos / cols = t.row.val := by
  rw [pos, Nat.mul_comm, Nat.mul_add_div t.col.pos, Nat.div_eq_of_lt t.col.isLt, Nat.add_zero]

theorem pos_mod (t : Terminal α rows cols) : t.pos % cols = t.col.val := by
  rw [pos, Nat.mul_comm, Nat.mul_add_mod, Nat.mod_eq_of_lt t.col.isLt]

/-- In the last row the next row is behind the last cell. -/
theorem next_row (h : ¬t.row.val + 1 < rows) : (t.row.val + 1) * cols = rows * cols := by
  have hlast : t.row.val + 1 = rows := Nat.le_antisymm t.row.isLt (Nat.not_lt.mp h)
  rw [hlast]

@[simp] theorem cells_retreat (t : Terminal α rows cols) : t.retreat.cells = t.cells := by
  unfold retreat
  split
  · rfl
  · rfl

theorem pos_eq_zero : t.pos = 0 ↔ t.row.val = 0 ∧ t.col.val = 0 := by
  have hcols := t.col.pos
  rw [pos, Nat.add_eq_zero_iff, Nat.mul_eq_zero, or_iff_left (Nat.ne_of_gt hcols)]

theorem pos_retreat (h : t.pos ≠ 0) : t.retreat.pos + 1 = t.pos := by
  unfold retreat
  split
  next hcol =>
    simp only [pos]
    omega
  next hcol =>
    have hcol0 : t.col.val = 0 := not_not.mp hcol
    have hrow : t.row.val ≠ 0 := fun hrow => h (pos_eq_zero.mpr ⟨hrow, hcol0⟩)
    obtain ⟨r, hr⟩ := Nat.exists_eq_succ_of_ne_zero hrow
    have hcols := t.col.pos
    simp only [pos, hr, hcol0, Nat.succ_mul, Nat.add_sub_cancel, Nat.succ_eq_add_one]
    omega

/-! ## Many newlines -/

theorem row_newline : (t.newline blank).row.val = min (t.row.val + 1) (rows - 1) := by
  have hrow := t.row.isLt
  rw [newline]
  split
  next h =>
    simp only
    omega
  next h =>
    simp only [scroll]
    omega

theorem row_newlines (blank : α) (t : Terminal α rows cols) (n : Nat) :
    ((newline · blank)^[n] t).row.val = min (t.row.val + n) (rows - 1) := by
  have hrow := t.row.isLt
  induction n with
  | zero =>
      rw [Function.iterate_zero, id_eq]
      omega
  | succ n ih =>
      rw [Function.iterate_succ_apply', row_newline, ih]
      omega

/-- The rows that newlines brought up from below are blank. -/
theorem cells_newlines (blank : α) (t : Terminal α rows cols) (n : Nat) {r : Fin rows} (k : Fin cols)
    (h : rows ≤ r.val + (t.row.val + n + 1 - rows)) :
    ((newline · blank)^[n] t).cells r k = blank := by
  have hr := r.isLt
  induction n generalizing r with
  | zero =>
      have hrow := t.row.isLt
      omega
  | succ n ih =>
      have hrow := row_newlines blank t n
      rw [Function.iterate_succ_apply', newline]
      split
      next hnext => omega
      next hlast =>
        simp only [scroll]
        split
        next hbelow => exact ih (by simp only; omega) hbelow
        next => rfl

/-- Twice as many newlines as there are rows, from any row, and the way back to the first cell. -/
theorem home_newlines (blank : α) (t : Terminal α rows cols) :
    ((newline · blank)^[2 * rows] t).home = cleared blank t.row.pos t.col.pos := by
  have hcells : ((newline · blank)^[2 * rows] t).cells = fun _ _ => blank := by
    funext r k
    exact cells_newlines blank t _ k (by omega)
  rw [home, hcells]
  rfl

end Terminal

end TPE
