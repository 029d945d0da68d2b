import TPE.Library.WriteLog
import TPE.Kernel.CircularBuffer

/-!
# Pixels

`fill` of `videoDriver.c` paints a pixel, with three bytes for its colour.  `sys_paint` gives it
the coordinates of a process, which are numbers of 64 bits and become `int`s on the way.

`valid_pixel` accepts the column and the row behind the last ones, and an `int` that was cut
from a larger number may be valid.  So a call is right exactly if its coordinates are on the
screen or are no valid pixel as `int`s either.
-/

namespace TPE

open Function ByteMemory WriteLog

/-- `color` -/
structure Color where
  red : UInt8
  green : UInt8
  blue : UInt8
deriving DecidableEq

/-- What the driver reads: where the screen begins, the resolution, the colours of characters
and the font. -/
structure VideoDriver where
  /-- `video_base_ptr()` -/
  base : Nat
  xRes : Nat
  yRes : Nat
  charColor : Color
  bgColor : Color
  /-- `pixel_map(c)[i]` -/
  pixelMap : UInt8 → Nat → UInt8

namespace VideoDriver

/-! ## The code -/

variable (v : VideoDriver)

/-- `valid_pixel` -/
def validPixel (x y : Int) : Prop := 0 ≤ x ∧ x ≤ v.xRes ∧ 0 ≤ y ∧ y ≤ v.yRes

instance (x y : Int) : Decidable (v.validPixel x y) :=
  inferInstanceAs (Decidable (_ ∧ _ ∧ _ ∧ _))

/-- The address of the byte `i` behind the pointer of `fill`.  The offset is an `int`, the
address has 64 bits. -/
def pixelByte (x y : Int) (i : Nat) : Nat :=
  ((v.base + int32 (3 * int32 (x + int32 (y * v.xRes))) + i) % 2 ^ 64).toNat

/-- `fill`: what it returns, and the memory. -/
def fill (c : Color) (x y : Int) (m : WriteLog) : Int × WriteLog :=
  if ¬v.validPixel x y then (0, m)
  else
    (1, ((m.write (v.pixelByte x y 0) c.blue).write (v.pixelByte x y 1) c.green).write
      (v.pixelByte x y 2) c.red)

/-- `sys_paint`.  The coordinates become `int`s. -/
def sysPaint (color x y : Nat) (m : WriteLog) : Int × WriteLog :=
  v.fill ⟨UInt8.ofNat (color >>> 16), UInt8.ofNat (color >>> 8), UInt8.ofNat color⟩
    (int32 x) (int32 y) m

/-! ## Pixels of the screen -/

/-- The number of the first byte of a pixel. -/
def offset (x y : Nat) : Nat := 3 * (x + y * v.xRes)

variable {v} {x y x' y' i : Nat}

/-- A pixel of the screen is in the frame. -/
theorem offset_add_le (hx : x < v.xRes) (hy : y < v.yRes) :
    v.offset x y + 3 ≤ 3 * (v.xRes * v.yRes) := by
  have hrow : (y + 1) * v.xRes ≤ v.yRes * v.xRes := Nat.mul_le_mul_right _ hy
  rw [Nat.add_mul, Nat.one_mul, Nat.mul_comm v.yRes] at hrow
  unfold offset
  omega

/-- The pixels of the screen do not overlap. -/
theorem offset_apart (hx : x < v.xRes) (hx' : x' < v.xRes) (hne : ¬(x = x' ∧ y = y')) :
    v.offset x y + 3 ≤ v.offset x' y' ∨ v.offset x' y' + 3 ≤ v.offset x y := by
  unfold offset
  rcases Nat.lt_trichotomy y y' with hlt | rfl | hlt
  · have hrow : (y + 1) * v.xRes ≤ y' * v.xRes := Nat.mul_le_mul_right _ hlt
    rw [Nat.add_mul, Nat.one_mul] at hrow
    omega
  · have hx : x ≠ x' := fun he => hne ⟨he, rfl⟩
    omega
  · have hrow : (y' + 1) * v.xRes ≤ y * v.xRes := Nat.mul_le_mul_right _ hlt
    rw [Nat.add_mul, Nat.one_mul] at hrow
    omega

/-- The `int` that `fill` adds to the address. -/
theorem pixelByte_eq (x y i : Nat) :
    v.pixelByte x y i = ((v.base + int32 (v.offset x y) + i) % 2 ^ 64).toNat := by
  have hint : int32 (3 * int32 (x + int32 (y * v.xRes))) = int32 (v.offset x y) := by
    rw [int32, int32, int32, int32, Int.add_bmod_bmod, Int.mul_bmod_bmod, offset]
    push_cast
    rfl
  rw [pixelByte, hint]

/-- The bytes of a pixel whose offset is an `int`. -/
theorem pixelByte_of_lt (h : v.offset x y % 2 ^ 32 < 2 ^ 31)
    (hend : v.base + v.offset x y % 2 ^ 32 + i < 2 ^ 64) :
    v.pixelByte x y i = v.base + v.offset x y % 2 ^ 32 + i := by
  have hint : int32 (v.offset x y) = (v.offset x y % 2 ^ 32 : Nat) := by
    rw [int32, Int.bmod_def]
    split
    · push_cast
      rfl
    · omega
  rw [pixelByte_eq, hint]
  omega

theorem validPixel_of_lt (hx : x < v.xRes) (hy : y < v.yRes) : v.validPixel x y := by
  unfold validPixel
  omega

/-! ## Painting -/

/-- A screen of 800 x 600 pixels. -/
def screen800 : VideoDriver where
  base := 0xE0000000
  xRes := 800
  yRes := 600
  charColor := ⟨255, 255, 255⟩
  bgColor := ⟨0, 0, 0⟩
  pixelMap _ _ := 0

/-- A call of `sys_paint`. -/
structure Paint where
  color : Nat
  x : Nat
  y : Nat

namespace Paint

variable (v)

/-- What a call returns, and the addresses that it writes. -/
def Does (c : Paint) (r : Int) (written : List Nat) : Prop :=
  ∃ m', v.sysPaint c.color c.x c.y ⟨fun _ => 0, []⟩ = (r, m') ∧ m'.written = written

/-- The coordinates, as the process gave them, are on the screen. -/
def OnScreen (c : Paint) : Prop := c.x < v.xRes ∧ c.y < v.yRes

/-- A call is accepted exactly if its coordinates are on the screen, and then it writes inside
of the frame. -/
def Confined (c : Paint) : Prop :=
  ∀ r written, c.Does v r written → (r = 1 ↔ c.OnScreen v) ∧
    (r = 1 → ∀ a ∈ written, v.base ≤ a ∧ a < v.base + 3 * (v.xRes * v.yRes))

/-- Calls that are accepted with different coordinates write different bytes. -/
def WritesApart (c c' : Paint) : Prop :=
  ∀ written written', c.Does v 1 written → c'.Does v 1 written' →
    ¬(c.x = c'.x ∧ c.y = c'.y) → ∀ a ∈ written, a ∉ written'

/-- Coordinates that are a valid pixel as `int`s are on the screen. -/
def Inside (c : Paint) : Prop := v.validPixel (int32 c.x) (int32 c.y) → c.OnScreen v

/-- The offset of a pixel of the screen is not negative as an `int`. -/
def Low (c : Paint) : Prop := c.OnScreen v → v.offset c.x c.y % 2 ^ 32 < 2 ^ 31

/-- The offsets of two pixels of the screen are apart as `int`s. -/
def OffsetsApart (c c' : Paint) : Prop :=
  c.OnScreen v → c'.OnScreen v → ¬(c.x = c'.x ∧ c.y = c'.y) →
    v.offset c.x c.y % 2 ^ 32 + 3 ≤ v.offset c'.x c'.y % 2 ^ 32 ∨
      v.offset c'.x c'.y % 2 ^ 32 + 3 ≤ v.offset c.x c.y % 2 ^ 32

variable {v} {c c' : Paint} {r : Int} {written : List Nat}

/-- A valid pixel is written with three bytes. -/
theorem does_iff_of_valid (h : v.validPixel (int32 c.x) (int32 c.y)) :
    c.Does v r written ↔ r = 1 ∧ written = [v.pixelByte (int32 c.x) (int32 c.y) 2,
      v.pixelByte (int32 c.x) (int32 c.y) 1, v.pixelByte (int32 c.x) (int32 c.y) 0] := by
  rw [Does, sysPaint, fill, if_neg (not_not.mpr h)]
  constructor
  · rintro ⟨m', he, rfl⟩
    rw [Prod.mk.injEq] at he
    obtain ⟨rfl, rfl⟩ := he
    exact ⟨rfl, rfl⟩
  · rintro ⟨rfl, rfl⟩
    exact ⟨_, rfl, rfl⟩

/-- Any other pixel is not written. -/
theorem does_iff_of_not_valid (h : ¬v.validPixel (int32 c.x) (int32 c.y)) :
    c.Does v r written ↔ r = 0 ∧ written = [] := by
  rw [Does, sysPaint, fill, if_pos h]
  constructor
  · rintro ⟨m', he, rfl⟩
    rw [Prod.mk.injEq] at he
    obtain ⟨rfl, rfl⟩ := he
    exact ⟨rfl, rfl⟩
  · rintro ⟨rfl, rfl⟩
    exact ⟨_, rfl, rfl⟩

theorem int32_of_lt {n m : Nat} (h : n < m) (hm : m < 2 ^ 16) : int32 n = n :=
  int32_of_range (by omega) (by omega)

/-- The address of a byte of a pixel whose offset is not negative. -/
theorem pixelByte_of_low (hend : v.base + 3 * (v.xRes * v.yRes) ≤ 2 ^ 64) (h : c.OnScreen v)
    (hlow : v.offset c.x c.y % 2 ^ 32 < 2 ^ 31) {i : Nat} (hi : i < 3) :
    v.pixelByte c.x c.y i = v.base + v.offset c.x c.y % 2 ^ 32 + i := by
  have hle := offset_add_le h.1 h.2
  have hmod := Nat.mod_le (v.offset c.x c.y) (2 ^ 32)
  exact pixelByte_of_lt hlow (by omega)

section Frame

variable (hx : v.xRes < 2 ^ 16) (hy : v.yRes < 2 ^ 16)

include hx hy

/-- On the screen the coordinates stay the same. -/
theorem OnScreen.int32_eq (h : c.OnScreen v) :
    int32 c.x = c.x ∧ int32 c.y = c.y ∧ v.validPixel (int32 c.x) (int32 c.y) := by
  have hX : int32 c.x = c.x := int32_of_lt h.1 hx
  have hY : int32 c.y = c.y := int32_of_lt h.2 hy
  rw [hX, hY]
  exact ⟨rfl, rfl, validPixel_of_lt h.1 h.2⟩

/-- What an accepted call on the screen writes. -/
theorem OnScreen.does_iff (h : c.OnScreen v) : c.Does v r written ↔
    r = 1 ∧ written = [v.pixelByte c.x c.y 2, v.pixelByte c.x c.y 1, v.pixelByte c.x c.y 0] := by
  obtain ⟨hX, hY, hvalid⟩ := h.int32_eq hx hy
  rw [does_iff_of_valid hvalid, hX, hY]

variable (hend : v.base + 3 * (v.xRes * v.yRes) ≤ 2 ^ 64)

include hend

/-- A pixel with a negative offset begins outside of the frame. -/
theorem pixelByte_of_not_low (hlow : 2 ^ 31 ≤ v.offset c.x c.y % 2 ^ 32) :
    ¬(v.base ≤ v.pixelByte c.x c.y 0 ∧
      v.pixelByte c.x c.y 0 < v.base + 3 * (v.xRes * v.yRes)) := by
  have hsize : v.xRes * v.yRes ≤ 2 ^ 16 * 2 ^ 16 := Nat.mul_le_mul hx.le hy.le
  have hint : int32 (v.offset c.x c.y) = (v.offset c.x c.y % 2 ^ 32 : Nat) - 2 ^ 32 := by
    rw [int32, Int.bmod_def]
    split
    · omega
    · push_cast
      rfl
  rw [pixelByte_eq, hint]
  omega

/-- A call is confined exactly if its coordinates are not cut to a pixel, and its offset is not
negative. -/
theorem confined_iff : c.Confined v ↔ c.Inside v ∧ c.Low v := by
  constructor
  · intro h
    constructor
    · intro hvalid
      have hdoes := (does_iff_of_valid hvalid).mpr ⟨rfl, rfl⟩
      exact (h _ _ hdoes).1.mp rfl
    · intro hscreen
      by_contra hlow
      have hdoes := (hscreen.does_iff hx hy).mpr ⟨rfl, rfl⟩
      have hin := (h _ _ hdoes).2 rfl (v.pixelByte c.x c.y 0) (by simp)
      exact pixelByte_of_not_low hx hy hend (Nat.not_lt.mp hlow) hin
  · rintro ⟨hinside, hlow⟩ r written hdoes
    by_cases hvalid : v.validPixel (int32 c.x) (int32 c.y)
    · have hscreen := hinside hvalid
      rw [hscreen.does_iff hx hy] at hdoes
      obtain ⟨hr, hw⟩ := hdoes
      subst hr hw
      refine ⟨iff_of_true rfl hscreen, fun _ a ha => ?_⟩
      have hle := offset_add_le hscreen.1 hscreen.2
      have hmod := Nat.mod_le (v.offset c.x c.y) (2 ^ 32)
      have hbyte : ∃ i < 3, a = v.pixelByte c.x c.y i := by
        simp only [List.mem_cons, List.not_mem_nil, or_false] at ha
        rcases ha with he | he | he
        · exact ⟨2, by decide, he⟩
        · exact ⟨1, by decide, he⟩
        · exact ⟨0, by decide, he⟩
      obtain ⟨i, hi, he⟩ := hbyte
      rw [he, pixelByte_of_low hend hscreen (hlow hscreen) hi]
      omega
    · rw [does_iff_of_not_valid hvalid] at hdoes
      obtain ⟨hr, hw⟩ := hdoes
      subst hr hw
      have hscreen : ¬c.OnScreen v := fun h => hvalid (h.int32_eq hx hy).2.2
      exact ⟨iff_of_false (by decide) hscreen, fun hone => absurd hone (by decide)⟩

/-- Confined calls write different bytes exactly if their offsets are apart. -/
theorem writesApart_iff (hinside : c.Inside v) (hinside' : c'.Inside v) (hlow : c.Low v)
    (hlow' : c'.Low v) : WritesApart v c c' ↔ OffsetsApart v c c' := by
  constructor
  · intro h hscreen hscreen' hne
    have hdoes := (hscreen.does_iff hx hy).mpr ⟨rfl, rfl⟩
    have hdoes' := (hscreen'.does_iff hx hy).mpr ⟨rfl, rfl⟩
    have hbyte := fun i (hi : i < 3) => pixelByte_of_low hend hscreen (hlow hscreen) hi
    have hbyte' := fun i (hi : i < 3) => pixelByte_of_low hend hscreen' (hlow' hscreen') hi
    have hapart := h _ _ hdoes hdoes' hne
    simp only [List.mem_cons, List.not_mem_nil, or_false, forall_eq_or_imp, forall_eq,
      hbyte 0 (by decide), hbyte 1 (by decide), hbyte 2 (by decide), hbyte' 0 (by decide),
      hbyte' 1 (by decide), hbyte' 2 (by decide)] at hapart
    omega
  · intro h written written' hdoes hdoes' hne a ha ha'
    have hscreen : c.OnScreen v := by
      refine hinside ?_
      by_contra hvalid
      exact absurd ((does_iff_of_not_valid hvalid).mp hdoes).1 (by decide)
    have hscreen' : c'.OnScreen v := by
      refine hinside' ?_
      by_contra hvalid
      exact absurd ((does_iff_of_not_valid hvalid).mp hdoes').1 (by decide)
    have hapart := h hscreen hscreen' hne
    rw [hscreen.does_iff hx hy] at hdoes
    rw [hscreen'.does_iff hx hy] at hdoes'
    rw [hdoes.2] at ha
    rw [hdoes'.2] at ha'
    have hbyte := fun i (hi : i < 3) => pixelByte_of_low hend hscreen (hlow hscreen) hi
    have hbyte' := fun i (hi : i < 3) => pixelByte_of_low hend hscreen' (hlow' hscreen') hi
    simp only [List.mem_cons, List.not_mem_nil, or_false, hbyte 0 (by decide), hbyte 1 (by decide),
      hbyte 2 (by decide)] at ha
    simp only [List.mem_cons, List.not_mem_nil, or_false, hbyte' 0 (by decide),
      hbyte' 1 (by decide), hbyte' 2 (by decide)] at ha'
    omega

end Frame

/-- In a frame of at most 2^31 bytes every offset is an `int`. -/
theorem low_of_le (hsize : 3 * (v.xRes * v.yRes) ≤ 2 ^ 31) (c : Paint) :
    c.OnScreen v → v.offset c.x c.y % 2 ^ 32 = v.offset c.x c.y ∧ v.offset c.x c.y < 2 ^ 31 := by
  intro h
  have hle := offset_add_le h.1 h.2
  exact ⟨Nat.mod_eq_of_lt (by omega), by omega⟩

end Paint

end VideoDriver

end TPE
