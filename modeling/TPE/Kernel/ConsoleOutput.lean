import TPE.Kernel.Descriptors
import TPE.Kernel.TextConsole

/-!
# What the processes write on the screen

`sys_write` puts the bytes of a process on the screen, those for STDERR in red, and the processes
set the colours of characters and background.  So the cells of the screen have characters in
different colours, and a line that scrolls in is blank in the colours of the moment.

Here a cell of the terminal holds the picture of its pixels.  Whatever the screen shows is such a
terminal, and every call does to the screen what it does to the terminal.
-/

namespace TPE

open Function ByteMemory WriteLog

namespace VideoDriver

/-! ## The code -/

/-- What the driver keeps: the colours, the cursor and the memory. -/
structure Display where
  charColor : Color
  bgColor : Color
  console : Console

/-- The driver with the colours of the moment. -/
def colored (v : VideoDriver) (d : Display) : VideoDriver :=
  { v with
    charColor := d.charColor
    bgColor := d.bgColor }

/-- `valid_colors` -/
def validColors (r g b : Nat) : Prop := r ≤ 255 ∧ g ≤ 255 ∧ b ≤ 255

instance (r g b : Nat) : Decidable (validColors r g b) :=
  inferInstanceAs (Decidable (_ ∧ _ ∧ _))

/-- The colour that `set_color` stores. -/
def colorOf (r g b : Nat) : Color := ⟨UInt8.ofNat r, UInt8.ofNat g, UInt8.ofNat b⟩

/-- `set_char_color` -/
def setCharColor (r g b : Nat) (d : Display) : Nat × Display :=
  if ¬validColors r g b then (0, d) else (1, { d with charColor := colorOf r g b })

/-- `set_bg_color` -/
def setBgColor (r g b : Nat) (d : Display) : Nat × Display :=
  if ¬validColors r g b then (0, d) else (1, { d with bgColor := colorOf r g b })

/-- `put`.  The length is an `int`. -/
def put (v : VideoDriver) (str : Nat → UInt8) (len : Int) (d : Display) : Display :=
  { d with
    console := (List.range len.toNat).foldl (fun s i => (v.colored d).putChar s (str i)) d.console }

/-- `sys_write` on the streams: what it returns, and the screen.  For the other descriptors the
screen is not touched. -/
def sysWrite (v : VideoDriver) (fds : BitVec 64) (str : Nat → UInt8) (length : Nat) (d : Display) :
    Option Nat × Display :=
  if fds = stderr then
    let backup := d.charColor
    let d := (setCharColor 255 0 0 d).2
    let d := v.put str (int32 length) d
    let d := (setCharColor backup.red.toNat backup.green.toNat backup.blue.toNat d).2
    (some (length % 2 ^ 32), d)
  else if fds = stdout then (some length, v.put str (int32 length) d)
  else (none, d)

/-- The calls that change the screen. -/
inductive DisplayCall where
  | write (fds : BitVec 64) (str : Nat → UInt8) (length : Nat)
  | setCharColor (r g b : Nat)
  | setBgColor (r g b : Nat)

/-- What a call does. -/
def call (v : VideoDriver) (d : Display) : DisplayCall → Display
  | .write fds str length => (v.sysWrite fds str length d).2
  | .setCharColor r g b => (VideoDriver.setCharColor r g b d).2
  | .setBgColor r g b => (VideoDriver.setBgColor r g b d).2

/-- `putchar` -/
def putcharCall (c : UInt8) : DisplayCall := .write stdout (fun _ => c) 1

/-- The command `clear`. -/
def clearCommand (v : VideoDriver) : List DisplayCall :=
  List.replicate (2 * v.height) (putcharCall 10) ++ [putcharCall 13]

/-! ## The screen -/

/-- The pixels of a cell. -/
abbrev Picture := Fin 16 → Fin 8 → Color

/-- A character in the colours of the driver. -/
def picture (v : VideoDriver) (c : UInt8) : Picture := fun i j => v.glyph c i j

/-- A pixel of a cell. -/
def Picture.pixel (p : Picture) (x y : Nat) : Color :=
  p ⟨y % 16, Nat.mod_lt _ (by decide)⟩ ⟨x % 8, Nat.mod_lt _ (by decide)⟩

/-- The cells of the screen have the pixels of the terminal. -/
def Depicts (v : VideoDriver) (m : WriteLog) (t : Terminal Picture v.height v.width) : Prop :=
  ∀ x y, (hx : x / 8 < v.width) → (hy : y / 16 < v.height) →
    v.pixel m x y = (t.cells ⟨y / 16, hy⟩ ⟨x / 8, hx⟩).pixel x y

/-- So they do, and the cursor is the terminal's. -/
structure Mirrors (v : VideoDriver) (s : Console) (t : Terminal Picture v.height v.width) :
    Prop where
  cursor : s.cursor = t.pos
  depicts : v.Depicts s.m t

/-- The colours and a terminal. -/
structure Shown (rows cols : Nat) where
  charColor : Color
  bgColor : Color
  terminal : Terminal Picture rows cols

/-- What a call does to the terminal.  The colour of characters is as before after a write. -/
def Shown.call (v : VideoDriver) (t : Shown v.height v.width) : DisplayCall → Shown v.height v.width
  | .write fds str length =>
      let chars := (List.range (int32 length).toNat).map str
      if fds = stderr then
        { t with
          terminal := chars.foldl
            (typedAs (picture { v with charColor := ⟨255, 0, 0⟩, bgColor := t.bgColor })) t.terminal }
      else if fds = stdout then
        { t with
          terminal := chars.foldl
            (typedAs (picture { v with charColor := t.charColor, bgColor := t.bgColor }))
              t.terminal }
      else t
  | .setCharColor r g b => if validColors r g b then { t with charColor := colorOf r g b } else t
  | .setBgColor r g b => if validColors r g b then { t with bgColor := colorOf r g b } else t

/-- The screen shows the terminal, in these colours. -/
structure Presents (v : VideoDriver) (d : Display) (t : Shown v.height v.width) : Prop where
  charColor : d.charColor = t.charColor
  bgColor : d.bgColor = t.bgColor
  console : v.Mirrors d.console t.terminal

variable {v : VideoDriver} {s : Console} {m m' : WriteLog}
  {t t' : Terminal Picture v.height v.width}

/-! ## Characters -/

theorem Depicts.congr (h : v.Depicts m t) (hcells : t'.cells = t.cells) : v.Depicts m t' := by
  intro x y hx hy
  rw [hcells]
  exact h x y hx hy

/-- A character is drawn at the cursor. -/
theorem Depicts.write (hv : v.Fits) (h : v.Depicts m t) (c : UInt8) :
    v.Depicts (v.printChar c t.row.val t.col.val m) (t.write (v.picture c)) := by
  intro x y hx hy
  have hx' : x < v.xRes := by
    unfold width at hx
    omega
  have hy' : y < v.yRes := by
    unfold height at hy
    omega
  have hdraws := draws_printChar hv c t.row.isLt t.col.isLt m x y hx' hy'
  simp only [Terminal.write, Fin.ext_iff]
  split
  next hat => exact hdraws.1 hat
  next hat => exact (hdraws.2 hat).trans (h x y hx hy)

/-- The lines move up. -/
theorem Depicts.scroll (hv : v.Fits) (h : v.Depicts m t) :
    v.Depicts (v.scroll m) (t.scroll (v.picture 32)) := by
  intro x y hx hy
  rw [pixel_scroll hv m hx hy]
  simp only [Terminal.scroll]
  split
  next hnext =>
    have hdown : (y + 16) / 16 = y / 16 + 1 := by omega
    have hbelow := h x (y + 16) hx (by omega)
    simp only [Picture.pixel, hdown, Nat.add_mod_right] at hbelow
    exact hbelow
  next => rfl

theorem tracks_depicts (hv : v.Fits) : v.Tracks v.picture v.Depicts where
  congr := Depicts.congr
  write := Depicts.write hv
  scroll := Depicts.scroll hv

theorem Mirrors.foldl (hv : v.Fits) (h : v.Mirrors s t) (chars : List UInt8) :
    v.Mirrors (chars.foldl v.putChar s) (chars.foldl (typedAs v.picture) t) := by
  have hrun := (tracks_depicts hv).foldl hv ⟨h.cursor, h.depicts⟩ chars
  exact ⟨hrun.cursor, hrun.cells⟩

/-! ## Calls -/

variable {d : Display} {a : Shown v.height v.width}

theorem fits_colored (hv : v.Fits) (d : Display) : (v.colored d).Fits :=
  ⟨hv.cols, hv.rows, hv.frame, hv.addresses⟩

/-- The colours are not on the screen. -/
theorem mirrors_colored : (v.colored d).Mirrors s t ↔ v.Mirrors s t :=
  ⟨fun h => ⟨h.cursor, h.depicts⟩, fun h => ⟨h.cursor, h.depicts⟩⟩

/-- `put` does what the terminal does with characters in the colours of the moment. -/
theorem Mirrors.put (hv : v.Fits) (h : v.Mirrors d.console t) (str : Nat → UInt8) (len : Int) :
    v.Mirrors (v.put str len d).console
      (((List.range len.toNat).map str).foldl (typedAs (v.colored d).picture) t) := by
  have hrun := Mirrors.foldl (fits_colored hv d) (mirrors_colored.mpr h)
    ((List.range len.toNat).map str)
  rw [List.foldl_map] at hrun
  exact mirrors_colored.mp hrun

theorem colorOf_toNat (c : Color) : colorOf c.red.toNat c.green.toNat c.blue.toNat = c := by
  simp [colorOf]

/-- A colour that was read can be set again. -/
theorem validColors_toNat (c : Color) : validColors c.red.toNat c.green.toNat c.blue.toNat :=
  ⟨Nat.le_of_lt_succ c.red.toNat_lt, Nat.le_of_lt_succ c.green.toNat_lt,
    Nat.le_of_lt_succ c.blue.toNat_lt⟩

/-- A write leaves the colours alone. -/
theorem sysWrite_stderr (str : Nat → UInt8) (length : Nat) (d : Display) :
    (v.sysWrite stderr str length d).2 =
      { d with
        console := (v.put str (int32 length) { d with charColor := ⟨255, 0, 0⟩ }).console } := by
  have hback := validColors_toNat d.charColor
  simp only [sysWrite, if_pos, VideoDriver.setCharColor, if_neg (not_not.mpr hback), colorOf_toNat]
  rfl

theorem Presents.call (hv : v.Fits) (h : v.Presents d a) (c : DisplayCall) :
    v.Presents (v.call d c) (a.call v c) := by
  obtain ⟨charColor, bgColor, t⟩ := a
  obtain ⟨rfl, rfl, hconsole⟩ := h
  cases c with
  | write fds str length =>
      rw [VideoDriver.call, Shown.call]
      by_cases herr : fds = stderr
      · rw [herr, sysWrite_stderr, if_pos rfl]
        generalize int32 length = len
        exact ⟨rfl, rfl, Mirrors.put (d := { d with charColor := ⟨255, 0, 0⟩ }) hv hconsole str len⟩
      rw [if_neg herr, sysWrite, if_neg herr]
      by_cases hout : fds = stdout
      · rw [if_pos hout, if_pos hout]
        generalize int32 length = len
        exact ⟨rfl, rfl, Mirrors.put hv hconsole str len⟩
      · rw [if_neg hout, if_neg hout]
        exact ⟨rfl, rfl, hconsole⟩
  | setCharColor r g b =>
      rw [VideoDriver.call, Shown.call, VideoDriver.setCharColor]
      by_cases hvalid : validColors r g b
      · rw [if_neg (not_not.mpr hvalid), if_pos hvalid]
        exact ⟨rfl, rfl, hconsole⟩
      · rw [if_pos hvalid, if_neg hvalid]
        exact ⟨rfl, rfl, hconsole⟩
  | setBgColor r g b =>
      rw [VideoDriver.call, Shown.call, VideoDriver.setBgColor]
      by_cases hvalid : validColors r g b
      · rw [if_neg (not_not.mpr hvalid), if_pos hvalid]
        exact ⟨rfl, rfl, hconsole⟩
      · rw [if_pos hvalid, if_neg hvalid]
        exact ⟨rfl, rfl, hconsole⟩

theorem Presents.foldl (hv : v.Fits) (h : v.Presents d a) (calls : List DisplayCall) :
    v.Presents (calls.foldl v.call d) (calls.foldl (Shown.call v) a) := by
  induction calls generalizing d a with
  | nil => exact h
  | cons c calls ih => exact ih (h.call hv c)

/-! ## Runs -/

/-- The terminal that a screen shows. -/
def terminalOf (hv : v.Fits) (s : Console) : Terminal Picture v.height v.width where
  cells r k i j := v.pixel s.m (k.val * 8 + j.val) (r.val * 16 + i.val)
  row := ⟨s.cursor.toNat / v.width % v.height, Nat.mod_lt _ hv.height_pos⟩
  col := ⟨s.cursor.toNat % v.width, Nat.mod_lt _ hv.width_pos⟩

/-- Whatever is on the screen is the picture of a terminal. -/
theorem mirrors_terminalOf (hv : v.Fits) (h0 : 0 ≤ s.cursor) (hlt : s.cursor < v.cursorLimit) :
    v.Mirrors s (terminalOf hv s) := by
  have hlimit := cursorLimit_eq (v := v)
  have hrow : s.cursor.toNat / v.width < v.height :=
    Nat.div_lt_of_lt_mul (by rw [Nat.mul_comm]; omega)
  have hsplit := Nat.div_add_mod s.cursor.toNat v.width
  refine ⟨?_, fun x y hx hy => ?_⟩
  · simp only [Terminal.pos, terminalOf, Nat.mod_eq_of_lt hrow]
    rw [Nat.mul_comm] at hsplit
    omega
  · simp only [terminalOf, Picture.pixel]
    rw [Nat.div_add_mod', Nat.div_add_mod']

/-- From any screen, with the cursor on it, and after any calls the cells of the screen have the
pixels of the terminal that was on it and on which the same calls were made, the cursor is the
terminal's and on the screen, and the colours are those set last. -/
theorem display_refines (hv : v.Fits) (d : Display) (h0 : 0 ≤ d.console.cursor)
    (hlt : d.console.cursor < v.cursorLimit) (calls : List DisplayCall) :
    v.Presents (calls.foldl v.call d)
        (calls.foldl (Shown.call v) ⟨d.charColor, d.bgColor, terminalOf hv d.console⟩) ∧
      0 ≤ (calls.foldl v.call d).console.cursor ∧
      (calls.foldl v.call d).console.cursor < v.cursorLimit := by
  have hrun := Presents.foldl hv (a := ⟨d.charColor, d.bgColor, terminalOf hv d.console⟩)
    ⟨rfl, rfl, mirrors_terminalOf hv h0 hlt⟩ calls
  have hcursor := hrun.console.cursor
  have hpos := Terminal.pos_lt
    (calls.foldl (Shown.call v) ⟨d.charColor, d.bgColor, terminalOf hv d.console⟩).terminal
  have hlimit := cursorLimit_eq (v := v)
  exact ⟨hrun, by omega, by omega⟩

/-- A screen with white on black, the cursor in the second row. -/
def display800 : Display := ⟨⟨255, 255, 255⟩, ⟨0, 0, 0⟩, ⟨100, ⟨fun _ => 7, []⟩⟩⟩

/-- "H" in red and "i" on blue. -/
def calls800 : List DisplayCall :=
  [.write stderr (fun _ => 72) 1, .setBgColor 0 0 255, .setCharColor 0 256 0,
    .write stdout (fun _ => 105) 1]

theorem display_refines_800 :
    screen800.Presents (calls800.foldl screen800.call display800)
        (calls800.foldl (Shown.call screen800)
          ⟨display800.charColor, display800.bgColor,
            terminalOf fits_screen800 display800.console⟩) ∧
      0 ≤ (calls800.foldl screen800.call display800).console.cursor ∧
      (calls800.foldl screen800.call display800).console.cursor < screen800.cursorLimit :=
  display_refines fits_screen800 display800 (by decide) (by decide) calls800

/-- One character, in the colours of the moment. -/
theorem call_putchar (a : Shown v.height v.width) (c : UInt8) :
    a.call v (putcharCall c) =
      { a with
        terminal := typedAs
          (picture { v with charColor := a.charColor, bgColor := a.bgColor }) a.terminal c } := by
  have hone : (List.range (int32 (1 : Nat)).toNat).map (fun _ => c) = [c] := rfl
  rw [putcharCall, Shown.call, if_neg (by decide), if_pos rfl, hone]
  rfl

theorem call_newlines (a : Shown v.height v.width) (n : Nat) :
    (List.replicate n (putcharCall 10)).foldl (Shown.call v) a =
      { a with
        terminal := (Terminal.newline ·
          (picture { v with charColor := a.charColor, bgColor := a.bgColor } 32))^[n] a.terminal } := by
  induction n generalizing a with
  | zero => rfl
  | succ n ih =>
      rw [List.replicate_succ, List.foldl_cons, call_putchar, ih]
      rfl

/-- From any screen the command `clear` leaves the cells blank and the cursor in the first one,
as `clear` of the driver does. -/
theorem clear_command (hv : v.Fits) (d : Display) (h0 : 0 ≤ d.console.cursor)
    (hlt : d.console.cursor < v.cursorLimit) :
    ((v.clearCommand.foldl v.call d).console.cursor = 0 ∧
      ((v.colored d).clear d.console).cursor = 0) ∧
    ∀ x y, x / 8 < v.width → y / 16 < v.height →
      v.pixel (v.clearCommand.foldl v.call d).console.m x y =
          v.pixel ((v.colored d).clear d.console).m x y ∧
        v.pixel (v.clearCommand.foldl v.call d).console.m x y =
          (v.colored d).glyph 32 (y % 16) (x % 8) := by
  have hrun := (display_refines hv d h0 hlt v.clearCommand).1
  have hblank : v.clearCommand.foldl (Shown.call v)
      ⟨d.charColor, d.bgColor, terminalOf hv d.console⟩ =
        ⟨d.charColor, d.bgColor,
          Terminal.cleared ((v.colored d).picture 32) hv.height_pos hv.width_pos⟩ := by
    rw [clearCommand, List.foldl_append, call_newlines, List.foldl_cons, List.foldl_nil, call_putchar]
    exact congrArg (Shown.mk d.charColor d.bgColor)
      (Terminal.home_newlines ((v.colored d).picture 32) (terminalOf hv d.console))
  rw [hblank] at hrun
  obtain ⟨-, -, hcursor, hdepicts⟩ := hrun
  refine ⟨⟨?_, rfl⟩, fun x y hx hy => ?_⟩
  · rw [hcursor]
    simp [Terminal.pos, Terminal.cleared]
  · have hcommand := hdepicts x y hx hy
    have hx' : x < v.xRes := by
      unfold width at hx
      omega
    have hy' : y < v.yRes := by
      unfold height at hy
      omega
    have hdriver := (draws_clear (fits_colored hv d) d.console.m x y hx' hy').1 ⟨hy, hx⟩
    exact ⟨hcommand.trans hdriver.symm, hcommand⟩

theorem clear_command_800 :
    ((screen800.clearCommand.foldl screen800.call display800).console.cursor = 0 ∧
      ((screen800.colored display800).clear display800.console).cursor = 0) ∧
    ∀ x y, x / 8 < screen800.width → y / 16 < screen800.height →
      screen800.pixel (screen800.clearCommand.foldl screen800.call display800).console.m x y =
          screen800.pixel ((screen800.colored display800).clear display800.console).m x y ∧
        screen800.pixel (screen800.clearCommand.foldl screen800.call display800).console.m x y =
          (screen800.colored display800).glyph 32 (y % 16) (x % 8) :=
  clear_command fits_screen800 display800 (by decide) (by decide)

end VideoDriver

end TPE
