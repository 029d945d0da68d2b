import TPE.Library.Terminal
import TPE.Kernel.Memcpy
import TPE.Kernel.VideoDriver

/-!
# The text console

`put_char` draws characters into cells of 8 x 16 pixels and keeps a cursor.  When the cursor
leaves the last cell, `scroll` moves the pixels up by the height of a cell with `memcpy`, which
copies forwards inside of the screen, and clears the last line.

A drawing is described by the pixels that it sets: `Draws f region picture` says that `f` gives
the pixels of `region` the colours of `picture` and leaves the others alone.  The screen shows
a terminal with a cell for each cell of pixels, and `put_char` does to the screen what the
terminal does.
-/

namespace TPE

open Function ByteMemory WriteLog

namespace VideoDriver

variable (v : VideoDriver)

/-! ## The code -/

/-- `HEIGHT` -/
def height : Nat := v.yRes / 16

/-- `WIDTH` -/
def width : Nat := v.xRes / 8

/-- `CURSOR_LIMIT` -/
def cursorLimit : Int := v.height * v.width

/-- `ROW` -/
def row (p : Int) : Int := p.tdiv v.width

/-- `COL` -/
def col (p : Int) : Int := p.tmod v.width

/-- `valid_pos` -/
def validPos (row col : Int) : Prop := row < v.height ∧ col < v.width ∧ 0 ≤ row ∧ 0 ≤ col

instance (row col : Int) : Decidable (v.validPos row col) :=
  inferInstanceAs (Decidable (_ ∧ _ ∧ _ ∧ _))

/-- `mask` of `print_char_line` -/
def mask (j : Nat) : UInt8 := [128, 64, 32, 16, 8, 4, 2, 1].getD j 0

/-- The colour of the pixel `j` of a line. -/
def lineColor (line : UInt8) (j : Nat) : Color :=
  if line &&& mask j ≠ 0 then v.charColor else v.bgColor

/-- `print_char_line` -/
def printCharLine (line : UInt8) (x y : Int) (m : WriteLog) : WriteLog :=
  (List.range 8).foldl (fun m (j : Nat) => (v.fill (v.lineColor line j) (x + j) y m).2) m

/-- `print_char` -/
def printChar (c : UInt8) (row col : Int) (m : WriteLog) : WriteLog :=
  if v.validPos row col then
    let y := row * 16
    let x := col * 8
    (List.range 16).foldl (fun m (i : Nat) => v.printCharLine (v.pixelMap c i) x (y + i) m) m
  else m

/-- `clear_line` -/
def clearLine (line : Int) (m : WriteLog) : WriteLog :=
  if 0 ≤ line ∧ line < v.height then
    (List.range v.width).foldl (fun m (i : Nat) => v.printChar 32 line i m) m
  else m

/-- `scroll`.  The products are `int`s, the address and the length have 64 bits. -/
def scroll (m : WriteLog) : WriteLog :=
  let secondLine := ((v.base + int32 (3 * v.xRes * 16)) % 2 ^ 64).toNat
  let length :=
    (int32 (int32 (v.yRes * v.xRes * 3) - int32 (16 * v.xRes * 3)) % 2 ^ 64).toNat
  v.clearLine (v.height - 1) (m.memcpy v.base secondLine length)

/-- The cursor and the memory. -/
structure Console where
  cursor : Int
  m : WriteLog

/-- The end of `put_char`: the cursor comes back to the screen. -/
def keepCursor (s : Console) : Console :=
  let s := if s.cursor < 0 then { s with cursor := 0 } else s
  if s.cursor ≥ v.cursorLimit then ⟨v.cursorLimit - v.width, v.scroll s.m⟩ else s

/-- `put_char` -/
def putChar (s : Console) (c : UInt8) : Console :=
  v.keepCursor <|
    if c = 8 then
      let cursor := s.cursor - 1
      ⟨cursor, v.printChar 32 (v.row cursor) (v.col cursor) s.m⟩
    else if c = 10 then { s with cursor := s.cursor + (v.width - v.col s.cursor) }
    else if c = 13 then { s with cursor := 0 }
    else if c ≠ 9 then ⟨s.cursor + 1, v.printChar c (v.row s.cursor) (v.col s.cursor) s.m⟩
    else s

/-- `clear` -/
def clear (s : Console) : Console where
  cursor := 0
  m := (List.range (v.width * v.height)).foldl
    (fun m (i : Nat) => v.printChar 32 (v.row i) (v.col i) m) s.m

/-- The screen is large enough for a cell, and its bytes have addresses and `int` offsets. -/
structure Fits : Prop where
  cols : 8 ≤ v.xRes
  rows : 16 ≤ v.yRes
  frame : 3 * (v.xRes * v.yRes) < 2 ^ 31
  addresses : v.base + 3 * (v.xRes * v.yRes) < 2 ^ 64

/-! ## Drawing -/

/-- The colour of a pixel. -/
def pixel (m : WriteLog) (x y : Nat) : Color where
  red := m.bytes (v.base + v.offset x y + 2)
  green := m.bytes (v.base + v.offset x y + 1)
  blue := m.bytes (v.base + v.offset x y)

/-- `f` gives the pixels of `region` the colours of `picture`, and no others. -/
def Draws (f : WriteLog → WriteLog) (region : Nat → Nat → Prop) (picture : Nat → Nat → Color) :
    Prop :=
  ∀ m x y, x < v.xRes → y < v.yRes →
    (region x y → v.pixel (f m) x y = picture x y) ∧
      (¬region x y → v.pixel (f m) x y = v.pixel m x y)

variable {v} {f : WriteLog → WriteLog} {region region' : Nat → Nat → Prop}
  {picture picture' : Nat → Nat → Color}

theorem Fits.height_pos (h : v.Fits) : 0 < v.height := Nat.div_pos h.rows (by decide)

theorem Fits.width_pos (h : v.Fits) : 0 < v.width := Nat.div_pos h.cols (by decide)

theorem Draws.congr (h : v.Draws f region picture)
    (hregion : ∀ x y, x < v.xRes → y < v.yRes → (region' x y ↔ region x y))
    (hpicture : ∀ x y, region' x y → picture' x y = picture x y) :
    v.Draws f region' picture' := by
  intro m x y hx hy
  have hr := hregion x y hx hy
  refine ⟨fun hin => ?_, fun hout => (h m x y hx hy).2 fun hin => hout (hr.mpr hin)⟩
  rw [hpicture x y hin]
  exact (h m x y hx hy).1 (hr.mp hin)

/-- A loop draws what its rounds draw. -/
theorem draws_foldl {f : Nat → WriteLog → WriteLog} {regions : Nat → Nat → Nat → Prop} {n : Nat}
    (h : ∀ k < n, v.Draws (f k) (regions k) picture) :
    v.Draws (fun m => (List.range n).foldl (fun m k => f k m) m)
      (fun x y => ∃ k < n, regions k x y) picture := by
  induction n with
  | zero =>
      intro m x y _ _
      exact ⟨fun ⟨k, hk, _⟩ => absurd hk (Nat.not_lt_zero k), fun _ => rfl⟩
  | succ n ih =>
      intro m x y hx hy
      have hbefore := ih (fun k hk => h k (Nat.lt_succ_of_lt hk)) m x y hx hy
      have hlast := h n (Nat.lt_succ_self n) ((List.range n).foldl (fun m k => f k m) m) x y hx hy
      simp only [List.range_succ, List.foldl_append, List.foldl_cons, List.foldl_nil]
      by_cases hn : regions n x y
      · exact ⟨fun _ => hlast.1 hn, fun hout => absurd ⟨n, Nat.lt_succ_self n, hn⟩ hout⟩
      · constructor
        · rintro ⟨k, hk, hin⟩
          rcases Nat.lt_succ_iff_lt_or_eq.mp hk with hlt | rfl
          · exact (hlast.2 hn).trans (hbefore.1 ⟨k, hlt, hin⟩)
          · exact absurd hin hn
        · intro hout
          exact (hlast.2 hn).trans
            (hbefore.2 fun ⟨k, hk, hin⟩ => hout ⟨k, Nat.lt_succ_of_lt hk, hin⟩)

/-- The lines of a glyph that is drawn from the pixel `(x, y)` on. -/
def glyph (v : VideoDriver) (c : UInt8) (i j : Nat) : Color := v.lineColor (v.pixelMap c i) j

theorem bytes_fill (h : v.Fits) (c : Color) {x y : Nat} (hx : x < v.xRes) (hy : y < v.yRes)
    (m : WriteLog) :
    (v.fill c x y m).2.bytes =
      update (update (update m.bytes (v.base + v.offset x y) c.blue)
        (v.base + v.offset x y + 1) c.green) (v.base + v.offset x y + 2) c.red := by
  have hframe := h.frame
  have haddresses := h.addresses
  have hle := offset_add_le hx hy
  have hmod : v.offset x y % 2 ^ 32 = v.offset x y := Nat.mod_eq_of_lt (by omega)
  have hlow : v.offset x y % 2 ^ 32 < 2 ^ 31 := by omega
  have hbyte : ∀ i < 3, v.pixelByte x y i = v.base + v.offset x y + i := by
    intro i hi
    rw [pixelByte_of_lt hlow (by omega), hmod]
  rw [fill, if_neg (not_not.mpr (validPixel_of_lt hx hy)), hbyte 0 (by decide),
    hbyte 1 (by decide), hbyte 2 (by decide)]
  rfl

theorem draws_fill (h : v.Fits) (c : Color) {x y : Nat} (hx : x < v.xRes) (hy : y < v.yRes) :
    v.Draws (fun m => (v.fill c x y m).2) (fun x' y' => x' = x ∧ y' = y) fun _ _ => c := by
  intro m x' y' hx' hy'
  simp only [pixel, bytes_fill h c hx hy]
  constructor
  · rintro ⟨rfl, rfl⟩
    simp
  · intro hne
    have hapart : v.offset x' y' + 3 ≤ v.offset x y ∨ v.offset x y + 3 ≤ v.offset x' y' :=
      offset_apart hx' hx hne
    have hkeep : ∀ i < 3, (update (update (update m.bytes (v.base + v.offset x y) c.blue)
        (v.base + v.offset x y + 1) c.green) (v.base + v.offset x y + 2) c.red)
          (v.base + v.offset x' y' + i) = m.bytes (v.base + v.offset x' y' + i) := by
      intro i hi
      rw [update_of_ne (by omega), update_of_ne (by omega), update_of_ne (by omega)]
    have hfirst := hkeep 0 (by decide)
    simp only [Nat.add_zero] at hfirst
    rw [hkeep 2 (by decide), hkeep 1 (by decide), hfirst]

/-- A line of a glyph. -/
theorem draws_printCharLine (h : v.Fits) (line : UInt8) {x y : Nat} (hx : x + 8 ≤ v.xRes)
    (hy : y < v.yRes) :
    v.Draws (v.printCharLine line x y) (fun x' y' => y' = y ∧ x ≤ x' ∧ x' < x + 8)
      fun x' _ => v.lineColor line (x' - x) := by
  have hloop : v.Draws (v.printCharLine line x y) (fun x' y' => ∃ k < 8, x' = x + k ∧ y' = y)
      fun x' _ => v.lineColor line (x' - x) := by
    refine draws_foldl fun k hk => ?_
    have hcast : ((x + k : Nat) : Int) = x + k := Int.natCast_add x k
    have hfill := draws_fill h (v.lineColor line k) (show x + k < v.xRes by omega) hy
    rw [hcast] at hfill
    refine hfill.congr (fun _ _ _ _ => Iff.rfl) fun x' y' hin => ?_
    rw [hin.1, Nat.add_sub_cancel_left]
  refine hloop.congr (fun x' y' _ _ => ?_) fun _ _ _ => rfl
  constructor
  · rintro ⟨rfl, hle, hlt⟩
    exact ⟨x' - x, by omega, by omega, rfl⟩
  · rintro ⟨k, hk, rfl, rfl⟩
    omega

/-- A character in a cell of the screen. -/
theorem draws_printChar (h : v.Fits) (c : UInt8) {r k : Nat} (hr : r < v.height)
    (hk : k < v.width) :
    v.Draws (v.printChar c r k) (fun x y => y / 16 = r ∧ x / 8 = k)
      fun x y => v.glyph c (y % 16) (x % 8) := by
  have hpos : v.validPos r k := by
    unfold validPos
    omega
  unfold height at hr
  unfold width at hk
  have hloop : v.Draws (v.printChar c r k)
      (fun x y => ∃ i < 16, y = r * 16 + i ∧ k * 8 ≤ x ∧ x < k * 8 + 8)
      fun x y => v.glyph c (y % 16) (x % 8) := by
    have hunfold : v.printChar c r k = fun m => (List.range 16).foldl
        (fun m (i : Nat) => v.printCharLine (v.pixelMap c i) ((k * 8 : Nat) : Int)
          ((r * 16 + i : Nat) : Int) m) m := by
      funext m
      rw [printChar, if_pos hpos]
      push_cast
      rfl
    rw [hunfold]
    refine draws_foldl fun i hi => ?_
    have hline := draws_printCharLine h (v.pixelMap c i) (x := k * 8) (y := r * 16 + i) (by omega)
      (by omega)
    refine hline.congr (fun _ _ _ _ => Iff.rfl) fun x y hin => ?_
    have hy : y % 16 = i := by omega
    have hx : x % 8 = x - k * 8 := by omega
    rw [glyph, hy, hx]
  refine hloop.congr (fun x y _ _ => ?_) fun _ _ _ => rfl
  constructor
  · rintro ⟨hy, hx⟩
    exact ⟨y % 16, Nat.mod_lt _ (by decide), by omega, by omega, by omega⟩
  · rintro ⟨i, hi, rfl, hle, hlt⟩
    omega

/-- A position off the screen is not drawn. -/
theorem printChar_of_not (c : UInt8) {r k : Int} (h : ¬v.validPos r k) (m : WriteLog) :
    v.printChar c r k m = m := by
  rw [printChar, if_neg h]

/-- The blank cells of a line. -/
theorem draws_clearLine (h : v.Fits) {r : Nat} (hr : r < v.height) :
    v.Draws (v.clearLine r) (fun x y => y / 16 = r ∧ x / 8 < v.width)
      fun x y => v.glyph 32 (y % 16) (x % 8) := by
  have hunfold : v.clearLine r = fun m => (List.range v.width).foldl
      (fun m (i : Nat) => v.printChar 32 r i m) m := by
    funext m
    rw [clearLine, if_pos (by omega)]
  have hloop : v.Draws (v.clearLine r) (fun x y => ∃ i < v.width, y / 16 = r ∧ x / 8 = i)
      fun x y => v.glyph 32 (y % 16) (x % 8) := by
    rw [hunfold]
    exact draws_foldl fun i hi => draws_printChar h 32 hr hi
  refine hloop.congr (fun x y _ _ => ?_) fun _ _ _ => rfl
  constructor
  · rintro ⟨hy, hx⟩
    exact ⟨x / 8, hx, hy, rfl⟩
  · rintro ⟨i, hi, hy, rfl⟩
    exact ⟨hy, hi⟩

/-- The blank cells of the screen. -/
theorem draws_clear (h : v.Fits) :
    v.Draws (fun m => (v.clear ⟨0, m⟩).m) (fun x y => y / 16 < v.height ∧ x / 8 < v.width)
      fun x y => v.glyph 32 (y % 16) (x % 8) := by
  have hloop : v.Draws (fun m => (v.clear ⟨0, m⟩).m)
      (fun x y => ∃ i < v.width * v.height, y / 16 = i / v.width ∧ x / 8 = i % v.width)
      fun x y => v.glyph 32 (y % 16) (x % 8) := by
    refine draws_foldl fun i hi => ?_
    have hrow : i / v.width < v.height := Nat.div_lt_of_lt_mul hi
    have hcol : i % v.width < v.width := Nat.mod_lt _ h.width_pos
    exact draws_printChar h 32 hrow hcol
  refine hloop.congr (fun x y _ _ => ?_) fun _ _ _ => rfl
  constructor
  · rintro ⟨hy, hx⟩
    refine ⟨v.width * (y / 16) + x / 8, ?_, ?_, ?_⟩
    · have hrow : v.width * (y / 16 + 1) ≤ v.width * v.height := Nat.mul_le_mul_left _ hy
      rw [Nat.mul_succ] at hrow
      omega
    · rw [Nat.mul_add_div (by omega), Nat.div_eq_of_lt hx, Nat.add_zero]
    · rw [Nat.mul_add_mod, Nat.mod_eq_of_lt hx]
  · rintro ⟨i, hi, hy, hx⟩
    rw [hy, hx]
    exact ⟨Nat.div_lt_of_lt_mul hi, Nat.mod_lt _ h.width_pos⟩

/-- Above the last line the pixels come from the height of a cell below. -/
theorem pixel_memcpy (m : WriteLog) {x y : Nat} (hx : x < v.xRes)
    (hy : y + 16 < v.yRes) :
    v.pixel (m.memcpy v.base (v.base + 48 * v.xRes) (3 * (v.xRes * v.yRes) - 48 * v.xRes)) x y =
      v.pixel m x (y + 16) := by
  have hdown : v.offset x (y + 16) = v.offset x y + 48 * v.xRes := by
    unfold offset
    rw [Nat.add_mul]
    omega
  have hle := offset_add_le hx hy
  rw [hdown] at hle
  have hbyte : ∀ i < 3, (m.memcpy v.base (v.base + 48 * v.xRes)
      (3 * (v.xRes * v.yRes) - 48 * v.xRes)).bytes (v.base + v.offset x y + i) =
        m.bytes (v.base + v.offset x (y + 16) + i) := by
    intro i hi
    rw [bytes_memcpy (.inr (Nat.le_add_right _ _)), Nat.add_assoc, move_inside (by omega), hdown]
    congr 1
    omega
  have hfirst := hbyte 0 (by decide)
  simp only [Nat.add_zero] at hfirst
  rw [pixel, pixel, hbyte 2 (by decide), hbyte 1 (by decide), hfirst]

/-- The address of the second line, when the offset is an `int`. -/
theorem secondLine_eq {base w n : Nat} (hrows : w * 16 ≤ n) (hframe : 3 * n < 2 ^ 31)
    (haddresses : base + 3 * n < 2 ^ 64) :
    ((base + int32 (3 * w * 16)) % 2 ^ 64).toNat = base + 48 * w := by
  rw [int32_of_range (by omega) (by omega)]
  omega

/-- The number of bytes that `scroll` moves. -/
theorem scrollLength_eq {w a : Nat} {n : Int} (hrows : w * 16 ≤ a) (hframe : 3 * a < 2 ^ 31)
    (hn : n = 3 * a) :
    (int32 (int32 n - int32 (16 * w * 3)) % 2 ^ 64).toNat = 3 * a - 48 * w := by
  have hsize : -2 ^ 31 ≤ n ∧ n < 2 ^ 31 := by omega
  have hline : -2 ^ 31 ≤ (16 * w * 3 : Int) ∧ (16 * w * 3 : Int) < 2 ^ 31 := by omega
  have hdiff : -2 ^ 31 ≤ n - 16 * w * 3 ∧ n - 16 * w * 3 < 2 ^ 31 := by omega
  have hlength : ((n - 16 * w * 3) % 2 ^ 64).toNat = 3 * a - 48 * w := by
    rw [Int.emod_eq_of_lt (by omega) (by omega)]
    omega
  rw [int32_of_range hsize.1 hsize.2, int32_of_range hline.1 hline.2,
    int32_of_range hdiff.1 hdiff.2, hlength]

/-- The arguments of `memcpy`. -/
theorem scroll_eq (h : v.Fits) (m : WriteLog) :
    v.scroll m = v.clearLine ((v.height - 1 : Nat) : Int)
      (m.memcpy v.base (v.base + 48 * v.xRes) (3 * (v.xRes * v.yRes) - 48 * v.xRes)) := by
  have hrows : v.xRes * 16 ≤ v.xRes * v.yRes := Nat.mul_le_mul_left _ h.rows
  have hcomm : (v.yRes : Int) * v.xRes * 3 = 3 * (v.xRes * v.yRes : Nat) := by
    push_cast
    ring
  have hlast : (v.height : Int) - 1 = (v.height - 1 : Nat) :=
    (Int.ofNat_sub h.height_pos).symm
  rw [scroll, secondLine_eq hrows h.frame h.addresses, scrollLength_eq hrows h.frame hcomm, hlast]

/-- In the cells of the screen the last line is blank and the others come from one line below. -/
theorem pixel_scroll (h : v.Fits) (m : WriteLog) {x y : Nat} (hx : x / 8 < v.width)
    (hy : y / 16 < v.height) :
    v.pixel (v.scroll m) x y =
      if y / 16 + 1 < v.height then v.pixel m x (y + 16) else v.glyph 32 (y % 16) (x % 8) := by
  have hheight := h.height_pos
  have hx' : x < v.xRes := by
    unfold width at hx
    omega
  have hclear := draws_clearLine h (Nat.sub_lt hheight Nat.one_pos)
    (m.memcpy v.base (v.base + 48 * v.xRes) (3 * (v.xRes * v.yRes) - 48 * v.xRes)) x y hx'
    (by unfold height at hy; omega)
  rw [← scroll_eq h] at hclear
  split
  next hnext =>
    rw [hclear.2 (by omega), pixel_memcpy m hx' (by unfold height at hnext; omega)]
  next hlast => exact hclear.1 ⟨by omega, hx⟩

variable {m : WriteLog} {s : Console}

/-! ## The cursor -/

theorem row_natCast (n : Nat) : v.row n = (n / v.width : Nat) := rfl

theorem col_natCast (n : Nat) : v.col n = (n % v.width : Nat) := rfl

theorem cursorLimit_eq : v.cursorLimit = (v.height * v.width : Nat) := by
  rw [cursorLimit]
  push_cast
  rfl

/-- A cursor on the screen stays. -/
theorem keepCursor_of_lt {n : Nat} (h : n < v.height * v.width) (hs : s.cursor = n) :
    v.keepCursor s = s := by
  have hlimit := cursorLimit_eq (v := v)
  have hnonneg : ¬s.cursor < 0 := by omega
  have hlt : ¬s.cursor ≥ v.cursorLimit := by omega
  simp only [keepCursor, if_neg hnonneg, if_neg hlt]

/-- A cursor in front of the screen comes to the origin. -/
theorem keepCursor_of_neg (hv : v.Fits) (hs : s.cursor < 0) :
    v.keepCursor s = { s with cursor := 0 } := by
  have hpos := Nat.mul_pos hv.height_pos hv.width_pos
  have hlimit := cursorLimit_eq (v := v)
  have hlt : ¬(0 : Int) ≥ v.cursorLimit := by omega
  simp only [keepCursor, if_pos hs, if_neg hlt]

/-- A cursor behind the screen comes to the last line, and the screen is scrolled. -/
theorem keepCursor_of_ge (hs : s.cursor = v.cursorLimit) :
    v.keepCursor s = ⟨v.cursorLimit - v.width, v.scroll s.m⟩ := by
  have hlimit := cursorLimit_eq (v := v)
  have hnonneg : ¬s.cursor < 0 := by omega
  have hge : s.cursor ≥ v.cursorLimit := by omega
  simp only [keepCursor, if_neg hnonneg, if_pos hge]

/-- In front of the first cell there is none. -/
theorem not_validPos_neg (hv : v.Fits) : ¬v.validPos (v.row (-1)) (v.col (-1)) := by
  have hwidth := hv.width_pos
  have hsplit := Int.mul_tdiv_add_tmod (-1) v.width
  rintro ⟨-, -, hrow, hcol⟩
  have hmul : 0 ≤ v.width * v.row (-1) := Int.mul_nonneg (by omega) hrow
  rw [row, col] at *
  omega

/-- What a character does to a terminal whose cells hold what `draw` makes of the characters. -/
def typedAs {α : Type*} {rows cols : Nat} (draw : UInt8 → α) (t : Terminal α rows cols) (c : UInt8) :
    Terminal α rows cols :=
  if c = 8 then t.back (draw 32)
  else if c = 10 then t.newline (draw 32)
  else if c = 13 then t.home
  else if c = 9 then t
  else t.place (draw 32) (draw c)

/-- `R` relates the memory to the cells of a terminal so that a character that is drawn and a scroll
do the same to both. -/
structure Tracks {α : Type*} (v : VideoDriver) (draw : UInt8 → α)
    (R : WriteLog → Terminal α v.height v.width → Prop) : Prop where
  congr : ∀ {m t t'}, R m t → t'.cells = t.cells → R m t'
  write : ∀ {m t}, R m t → ∀ c, R (v.printChar c t.row.val t.col.val m) (t.write (draw c))
  scroll : ∀ {m t}, R m t → R (v.scroll m) (t.scroll (draw 32))

/-- The cells are related, and the cursor is the terminal's. -/
structure Follows {α : Type*} (v : VideoDriver) (R : WriteLog → Terminal α v.height v.width → Prop)
    (s : Console) (t : Terminal α v.height v.width) : Prop where
  cursor : s.cursor = t.pos
  cells : R s.m t

section Tracks

variable {α : Type*} {draw : UInt8 → α} {R : WriteLog → Terminal α v.height v.width → Prop}
  {t : Terminal α v.height v.width} (hv : v.Fits) (hR : v.Tracks draw R)

include hv hR

/-- A cursor at the end of a row goes to the next row, which is below the screen after the last
one. -/
theorem Tracks.nextRow (hcells : R s.m t)
    (hs : s.cursor = ((t.row.val + 1) * v.width : Nat)) :
    v.Follows R (v.keepCursor s) (t.newline (draw 32)) := by
  have hwidth := hv.width_pos
  have hlimit := cursorLimit_eq (v := v)
  rw [Terminal.newline]
  split
  next hnext =>
    have hbelow : (t.row.val + 2) * v.width ≤ v.height * v.width :=
      Nat.mul_le_mul_right _ hnext
    rw [Nat.add_mul] at hbelow hs
    rw [keepCursor_of_lt (by omega) hs]
    refine ⟨?_, hR.congr hcells rfl⟩
    rw [hs, Terminal.pos, Nat.add_mul]
    rfl
  next hlast =>
    rw [Terminal.next_row hlast] at hs
    rw [keepCursor_of_ge (hs.trans hlimit.symm)]
    refine ⟨?_, hR.congr (hR.scroll hcells) rfl⟩
    have hrow := Terminal.next_row hlast
    rw [Nat.add_mul, Nat.one_mul] at hrow
    simp only [Terminal.pos, Terminal.scroll]
    omega

/-- A character is placed and the cursor goes on. -/
theorem Tracks.place (h : v.Follows R s t) (c : UInt8) :
    v.Follows R (v.keepCursor ⟨s.cursor + 1, v.printChar c t.row.val t.col.val s.m⟩)
      (t.place (draw 32) (draw c)) := by
  have hdrawn := hR.write h.cells c
  have hcell : t.pos = t.row.val * v.width + t.col.val := rfl
  have hcursor := h.cursor
  rw [Terminal.place, Terminal.advance]
  split
  next hnext =>
    let t' : Terminal α v.height v.width :=
      { t.write (draw c) with col := ⟨t.col.val + 1, hnext⟩ }
    have hpos : t'.pos = t.pos + 1 := rfl
    have hlt := t'.pos_lt
    have hs : s.cursor + 1 = (t'.pos : Nat) := by omega
    rw [keepCursor_of_lt hlt hs]
    exact ⟨hs, hR.congr hdrawn rfl⟩
  next hlast =>
    have hcol : t.col.val + 1 = v.width := Nat.le_antisymm t.col.isLt (Nat.not_lt.mp hlast)
    refine hR.nextRow hv hdrawn ?_
    have hrow : (t.row.val + 1) * v.width = t.pos + 1 := by
      rw [hcell, Nat.add_mul]
      omega
    have hwrite : (t.write (draw c)).row = t.row := rfl
    rw [hwrite, hrow]
    push_cast
    exact congrArg (· + 1) hcursor

/-- The previous cell is blank, if there is one. -/
theorem Tracks.back (h : v.Follows R s t) :
    v.Follows R (v.keepCursor ⟨s.cursor - 1,
      v.printChar 32 (v.row (s.cursor - 1)) (v.col (s.cursor - 1)) s.m⟩) (t.back (draw 32)) := by
  obtain ⟨hcursor, hcells⟩ := h
  rw [Terminal.back]
  split
  next horigin =>
    have hzero : t.pos = 0 := Terminal.pos_eq_zero.mpr horigin
    have hbefore : s.cursor - 1 = -1 := by omega
    have hneg : (-1 : Int) < 0 := by decide
    rw [hbefore, printChar_of_not 32 (not_validPos_neg hv), keepCursor_of_neg hv hneg]
    refine ⟨?_, hcells⟩
    rw [hzero]
    rfl
  next horigin =>
    have hne : t.pos ≠ 0 := fun hzero => horigin (Terminal.pos_eq_zero.mp hzero)
    have hretreat := Terminal.pos_retreat hne
    have hbefore : s.cursor - 1 = t.retreat.pos := by omega
    have hlt := t.retreat.pos_lt
    rw [keepCursor_of_lt hlt hbefore, hbefore, row_natCast, col_natCast, Terminal.pos_div,
      Terminal.pos_mod]
    exact ⟨rfl, hR.write (hR.congr hcells t.cells_retreat) 32⟩

/-- `put_char` does what the terminal does. -/
theorem Tracks.putChar (h : v.Follows R s t) (c : UInt8) :
    v.Follows R (v.putChar s c) (typedAs draw t c) := by
  obtain ⟨hcursor, hcells⟩ := h
  have hrow : v.row s.cursor = t.row.val := by
    rw [hcursor, row_natCast, Terminal.pos_div]
  have hcol : v.col s.cursor = t.col.val := by
    rw [hcursor, col_natCast, Terminal.pos_mod]
  unfold VideoDriver.putChar typedAs
  by_cases hback : c = 8
  · rw [if_pos hback, if_pos hback]
    exact hR.back hv ⟨hcursor, hcells⟩
  rw [if_neg hback, if_neg hback]
  by_cases hnewline : c = 10
  · rw [if_pos hnewline, if_pos hnewline]
    refine hR.nextRow hv hcells ?_
    have hcell : t.pos = t.row.val * v.width + t.col.val := rfl
    simp only [hcol]
    rw [hcursor, hcell, Nat.add_mul]
    push_cast
    omega
  rw [if_neg hnewline, if_neg hnewline]
  by_cases hreturn : c = 13
  · rw [if_pos hreturn, if_pos hreturn]
    have hfirst : 0 < v.height * v.width := Nat.mul_pos hv.height_pos hv.width_pos
    rw [keepCursor_of_lt hfirst rfl]
    refine ⟨?_, hR.congr hcells rfl⟩
    simp [Terminal.pos, Terminal.home]
  rw [if_neg hreturn, if_neg hreturn]
  by_cases htab : c = 9
  · rw [if_neg (not_not.mpr htab), if_pos htab, keepCursor_of_lt t.pos_lt hcursor]
    exact ⟨hcursor, hcells⟩
  · rw [if_pos htab, if_neg htab, hrow, hcol]
    exact hR.place hv ⟨hcursor, hcells⟩ c

theorem Tracks.foldl (h : v.Follows R s t) (chars : List UInt8) :
    v.Follows R (chars.foldl v.putChar s) (chars.foldl (typedAs draw) t) := by
  induction chars generalizing s t with
  | nil => exact h
  | cons c chars ih => exact ih (hR.putChar hv h c)

end Tracks

/-! ## The console and the terminal -/

/-- The cells of the screen show the characters of the terminal. -/
def Shows (v : VideoDriver) (m : WriteLog) (t : Terminal UInt8 v.height v.width) : Prop :=
  ∀ x y, (hx : x / 8 < v.width) → (hy : y / 16 < v.height) →
    v.pixel m x y = v.glyph (t.cells ⟨y / 16, hy⟩ ⟨x / 8, hx⟩) (y % 16) (x % 8)

/-- The screen shows the terminal, and the cursor is the terminal's. -/
structure Refines (v : VideoDriver) (s : Console) (t : Terminal UInt8 v.height v.width) : Prop where
  cursor : s.cursor = t.pos
  shows : v.Shows s.m t

/-- What a character does to the terminal.  A tab does nothing. -/
def typed {rows cols : Nat} (t : Terminal UInt8 rows cols) (c : UInt8) :
    Terminal UInt8 rows cols :=
  if c = 8 then t.back 32
  else if c = 10 then t.newline 32
  else if c = 13 then t.home
  else if c = 9 then t
  else t.place 32 c

variable {t t' : Terminal UInt8 v.height v.width}

theorem Shows.congr (h : v.Shows m t) (hcells : t'.cells = t.cells) : v.Shows m t' := by
  intro x y hx hy
  rw [hcells]
  exact h x y hx hy

/-- A character is drawn at the cursor. -/
theorem Shows.write (hv : v.Fits) (h : v.Shows m t) (c : UInt8) :
    v.Shows (v.printChar c t.row.val t.col.val m) (t.write c) := by
  intro x y hx hy
  have hx' : x < v.xRes := by
    unfold width at hx
    omega
  have hy' : y < v.yRes := by
    unfold height at hy
    omega
  have hdraws := draws_printChar hv c t.row.isLt t.col.isLt m x y hx' hy'
  simp only [Terminal.write, Fin.ext_iff]
  split
  next hat => exact hdraws.1 hat
  next hat => exact (hdraws.2 hat).trans (h x y hx hy)

/-- The lines move up. -/
theorem Shows.scroll (hv : v.Fits) (h : v.Shows m t) : v.Shows (v.scroll m) (t.scroll 32) := by
  intro x y hx hy
  rw [pixel_scroll hv m hx hy]
  simp only [Terminal.scroll]
  split
  next hnext =>
    have hdown : (y + 16) / 16 = y / 16 + 1 := by omega
    have hbelow := h x (y + 16) hx (by omega)
    simp only [hdown, Nat.add_mod_right] at hbelow
    exact hbelow
  next => rfl

/-! ## Runs -/

/-- After `clear` the terminal is blank. -/
theorem refines_clear (hv : v.Fits) (s : Console) :
    v.Refines (v.clear s) (Terminal.cleared 32 hv.height_pos hv.width_pos) := by
  refine ⟨?_, fun x y hx hy => ?_⟩
  · simp [clear, Terminal.pos, Terminal.cleared]
  · have hx' : x < v.xRes := by
      unfold width at hx
      omega
    have hy' : y < v.yRes := by
      unfold height at hy
      omega
    exact (draws_clear hv s.m x y hx' hy').1 ⟨hy, hx⟩

theorem tracks_shows (hv : v.Fits) : v.Tracks id v.Shows where
  congr := Shows.congr
  write := Shows.write hv
  scroll := Shows.scroll hv

theorem refines_foldl (hv : v.Fits) (h : v.Refines s t) (chars : List UInt8) :
    v.Refines (chars.foldl v.putChar s) (chars.foldl typed t) := by
  have hrun := (tracks_shows hv).foldl hv ⟨h.cursor, h.shows⟩ chars
  exact ⟨hrun.cursor, hrun.cells⟩

theorem fits_screen800 : screen800.Fits :=
  ⟨by decide, by decide, by decide, by decide⟩

end VideoDriver

end TPE
