import TPE.Library.RingBuffer
import TPE.Kernel.Strings

/-!
# The keyboard driver

`keyboardDriver.c`: the keyboard interrupt stores the scancode of a key in a
circular buffer of `BUFFSIZE` bytes, and `get_char` takes the oldest one and
translates it with the flags for shift and caps lock.  The two keys that change
the flags are not stored.

`store_scancode` also acts on processes: the escape key hands the foreground on,
and a stored key wakes up the process in the foreground.  What it does to them
is returned as a `KeyEffect` here.

`get_char` is put together from its statements, so that an interrupt can come
between any two of them.
-/

namespace TPE

open Function RingBuffer

/-- `BUFFSIZE` -/
abbrev buffSize : Nat := 128

/-- `ESCAPE` -/
abbrev escape : Int := 1

/-- `TOPCHARCODE` -/
abbrev topCharCode : Int := 128

/-- `RSHIFTCODE` -/
abbrev rShiftCode : Int := 42

/-- `LSHIFTCODE` -/
abbrev lShiftCode : Int := 54

/-- `CAPSLOCK` -/
abbrev capsLock : Int := 58

/-! ## The key map -/

/-- `kbdus`.  The entries behind the list are 0. -/
def kbdus : List Nat :=
  [0, 27, 49, 50, 51, 52, 53, 54, 55, 56, 57, 48, 45, 61, 8, 9, -- up to tab
   113, 119, 101, 114, 116, 121, 117, 105, 111, 112, 91, 93, 10, 0, -- up to control
   97, 115, 100, 102, 103, 104, 106, 107, 108, 59, 39, 96, 0, -- up to left shift
   92, 122, 120, 99, 118, 98, 110, 109, 44, 46, 47, 0, -- up to right shift
   42, 0, 32, 0, 0, 0, 0, 0, 0, 0, 0, 0, 0, 0, 0, 0, 0, 0, 45, 0, 0, 0, 43]

/-- `shiftkbdus` -/
def shiftkbdus : List Nat :=
  [0, 27, 33, 64, 35, 36, 37, 94, 38, 42, 40, 41, 95, 43, 8, 9,
   81, 87, 69, 82, 84, 89, 85, 73, 79, 80, 123, 125, 10, 0,
   65, 83, 68, 70, 71, 72, 74, 75, 76, 58, 34, 124, 0,
   62, 90, 88, 67, 86, 66, 78, 77, 60, 62, 63, 0,
   42, 0, 32, 0, 0, 0, 0, 0, 0, 0, 0, 0, 0, 0, 0, 0, 0, 0, 45, 0, 0, 0, 43]

/-- `capskbdus` -/
def capskbdus : List Nat :=
  [0, 27, 49, 50, 51, 52, 53, 54, 55, 56, 57, 48, 45, 61, 8, 9,
   81, 87, 69, 82, 84, 89, 85, 73, 79, 80, 91, 93, 10, 0,
   65, 83, 68, 70, 71, 72, 74, 75, 76, 59, 39, 92, 0,
   60, 90, 88, 67, 86, 66, 78, 77, 44, 46, 47, 0,
   42, 0, 32, 0, 0, 0, 0, 0, 0, 0, 0, 0, 0, 0, 0, 0, 0, 0, 45, 0, 0, 0, 43]

/-- `isAlpha`, by the positions of the three rows of letters. -/
def isAlpha (k : Int) : Prop := 16 ≤ k ∧ k ≤ 25 ∨ 30 ≤ k ∧ k ≤ 38 ∨ 44 ≤ k ∧ k ≤ 50

instance (k : Int) : Decidable (isAlpha k) := inferInstanceAs (Decidable (_ ∨ _ ∨ _))

/-! ## The variables -/

/-- The flags for shift and caps lock. -/
structure KeyFlags where
  shiftPressed : Bool
  capsLockPressed : Bool
  capsLockPressedCount : Nat
  capsLockActivated : Bool
deriving DecidableEq, Repr

/-- The static variables of `keyboardDriver.c`. -/
structure Keyboard where
  buffer : Nat → Int
  retIndex : Nat
  storeIndex : Nat
  /-- `buff_size` -/
  size : Nat
  flags : KeyFlags

/-- What `store_scancode` does to the processes. -/
inductive KeyEffect where
  | nothing
  /-- `set_foreground_force_process` with the parent of the foreground process. -/
  | escape
  /-- `unblock_read_process` of the foreground process. -/
  | wake
deriving DecidableEq, Repr

/-- `get_key`: the scancode as a `char`. -/
def getKey (code : UInt8) : Int := code.toInt8.toInt

namespace KeyFlags

/-- The flags at the start. -/
def start : KeyFlags := ⟨false, false, 0, false⟩

/-- `processKeyScanCode`: whether the key is one of shift and caps lock. -/
def processKeyScanCode (f : KeyFlags) (k : Int) : Bool × KeyFlags :=
  if k = rShiftCode ∨ k = lShiftCode then (true, { f with shiftPressed := !f.shiftPressed })
  else if k = capsLock then
    let f := { f with
      capsLockPressed := !f.capsLockPressed
      capsLockPressedCount := f.capsLockPressedCount + 1 }
    (true, if f.capsLockPressedCount % 2 = 0 then
      { f with capsLockActivated := !f.capsLockActivated, capsLockPressedCount := 0 } else f)
  else (false, f)

/-- `chooseKeyboard` -/
def chooseKeyboard (f : KeyFlags) (k : Int) : Int :=
  let at_ (map : List Nat) : Int := map.getD k.toNat 0
  if at_ kbdus = 0 then -1
  else if f.capsLockActivated ∧ ¬f.shiftPressed then at_ capskbdus
  else if ¬f.capsLockActivated ∧ f.shiftPressed then at_ shiftkbdus
  else if f.capsLockActivated ∧ f.shiftPressed then
    if isAlpha k then at_ kbdus else at_ shiftkbdus
  else at_ kbdus

end KeyFlags

/-- The key has a character. -/
def Printable (k : Int) : Prop := kbdus.getD k.toNat 0 ≠ 0

instance (k : Int) : Decidable (Printable k) := inferInstanceAs (Decidable (_ ≠ _))

namespace Keyboard

/-- The driver before the first interrupt. -/
def start : Keyboard := ⟨fun _ => 0, 0, 0, 0, .start⟩

/-- Store the key `k` in the buffer. -/
def store (kb : Keyboard) (k : Int) : Keyboard :=
  { kb with
    size := kb.size + 1
    buffer := update kb.buffer kb.storeIndex k
    storeIndex := kb.storeIndex + 1 }

/-- `store_index` at the end of `store_scancode`. -/
def wrapStore (kb : Keyboard) : Keyboard :=
  if kb.storeIndex = buffSize then { kb with storeIndex := 0 } else kb

/-- `store_scancode` -/
def storeScancode (kb : Keyboard) (code : UInt8) : KeyEffect × Keyboard :=
  let k := getKey code
  if kb.size = buffSize then (.nothing, kb)
  else if k = escape then (.escape, kb)
  else if 0 < k ∧ k < topCharCode then
    let (special, flags) := kb.flags.processKeyScanCode k
    if special then (.nothing, { kb with flags }.wrapStore)
    else (.wake, ({ kb with flags }.store k).wrapStore)
  else if k < 0 then
    (.nothing, { kb with flags := (kb.flags.processKeyScanCode (k + topCharCode)).2 }.wrapStore)
  else (.nothing, kb.wrapStore)

/-- `char k = buffer[ret_index++]` -/
def takeKey (kb : Keyboard) : Int × Keyboard :=
  (kb.buffer kb.retIndex, { kb with retIndex := kb.retIndex + 1 })

/-- `buff_size--` -/
def countKey (kb : Keyboard) : Keyboard := { kb with size := kb.size - 1 }

/-- `if (ret_index == BUFFSIZE) ret_index = 0` -/
def wrapRet (kb : Keyboard) : Keyboard :=
  if kb.retIndex = buffSize then { kb with retIndex := 0 } else kb

/-- `get_char` -/
def getChar (kb : Keyboard) : Int × Keyboard :=
  if kb.size = 0 then (-1, kb)
  else
    let (k, kb) := kb.takeKey
    let kb := kb.countKey.wrapRet
    (kb.flags.chooseKeyboard k, kb)

end Keyboard

/-! ## What a scancode means -/

/-- The key that a scancode puts into the buffer. -/
def storedKey (code : UInt8) : Option Int :=
  let k := getKey code
  if 0 < k ∧ k ≠ escape ∧ k ≠ rShiftCode ∧ k ≠ lShiftCode ∧ k ≠ capsLock then some k else none

/-- The flags after a scancode. -/
def KeyFlags.after (f : KeyFlags) (code : UInt8) : KeyFlags :=
  let k := getKey code
  (f.processKeyScanCode (if k < 0 then k + topCharCode else k)).2

/-- What a scancode does to the processes. -/
def effectOf (code : UInt8) : KeyEffect :=
  if getKey code = escape then .escape
  else if (storedKey code).isSome then .wake else .nothing

namespace KeyFlags

/-- Shift and caps lock are the special keys. -/
theorem processKeyScanCode_fst (f : KeyFlags) (k : Int) :
    (f.processKeyScanCode k).1 = true ↔ k = rShiftCode ∨ k = lShiftCode ∨ k = capsLock := by
  by_cases hshift : k = rShiftCode ∨ k = lShiftCode <;> by_cases hcaps : k = capsLock <;>
    simp [processKeyScanCode, hshift, hcaps]

/-- Another key leaves the flags alone. -/
theorem processKeyScanCode_of_not (f : KeyFlags) {k : Int}
    (h : ¬(k = rShiftCode ∨ k = lShiftCode ∨ k = capsLock)) :
    f.processKeyScanCode k = (false, f) := by
  obtain ⟨hr, hl, hc⟩ : k ≠ rShiftCode ∧ k ≠ lShiftCode ∧ k ≠ capsLock := by tauto
  simp [processKeyScanCode, hr, hl, hc]

/-- A key has a character, or every choice of the keyboard returns -1. -/
theorem chooseKeyboard_eq_neg_one_iff (f : KeyFlags) (k : Int) :
    f.chooseKeyboard k = -1 ↔ ¬Printable k := by
  rw [Printable, not_not]
  constructor
  · intro h
    by_contra hne
    simp only [chooseKeyboard, Nat.cast_eq_zero, hne, if_false] at h
    repeat' split at h
    all_goals omega
  · intro h
    simp [chooseKeyboard, -List.getD_eq_getElem?_getD, h]

/-- Only the two flags matter that the driver reads. -/
theorem chooseKeyboard_congr {f g : KeyFlags} (hs : f.shiftPressed = g.shiftPressed)
    (hc : f.capsLockActivated = g.capsLockActivated) (k : Int) :
    f.chooseKeyboard k = g.chooseKeyboard k := by
  simp only [chooseKeyboard, hs, hc]

end KeyFlags

namespace Keyboard

/-! ## The buffer as a queue of keys -/

/-- The fields of the buffer fit together.  `held` keys have been taken and not
been counted down yet. -/
structure Inv (kb : Keyboard) (held : Nat) : Prop where
  size_le : kb.size ≤ buffSize
  held_le : held ≤ kb.size
  store_eq : kb.storeIndex = (kb.retIndex + (kb.size - held)) % buffSize

/-- The keys in the buffer, oldest first. -/
def keys (kb : Keyboard) (held : Nat) : List Int :=
  window kb.buffer buffSize kb.retIndex (kb.size - held)

theorem start_inv : start.Inv 0 := ⟨by decide, by decide, rfl⟩

@[simp] theorem keys_start : start.keys 0 = [] := rfl

variable {kb : Keyboard} {held : Nat}

@[simp] theorem length_keys (kb : Keyboard) (held : Nat) :
    (kb.keys held).length = kb.size - held := by
  simp [keys]

theorem Inv.storeIndex_lt (h : kb.Inv held) : kb.storeIndex < buffSize := by
  rw [h.store_eq]
  exact Nat.mod_lt _ (by decide)

/-- The index is inside of the array already. -/
theorem Inv.wrapStore_eq (h : kb.Inv held) : kb.wrapStore = kb := by
  rw [wrapStore, if_neg (Nat.ne_of_lt h.storeIndex_lt)]

/-- The flags are not part of the buffer. -/
theorem Inv.setFlags (h : kb.Inv held) (flags : KeyFlags) : { kb with flags }.Inv held :=
  ⟨h.size_le, h.held_le, h.store_eq⟩

/-- A stored key is the newest one. -/
theorem Inv.store (h : kb.Inv held) (hroom : kb.size < buffSize) (k : Int) :
    (kb.store k).wrapStore.Inv held ∧ (kb.store k).wrapStore.keys held = kb.keys held ++ [k] ∧
      (kb.store k).wrapStore.size = kb.size + 1 ∧ (kb.store k).wrapStore.flags = kb.flags ∧
      (kb.store k).wrapStore.retIndex = kb.retIndex := by
  obtain ⟨hsize, hheld, hstore⟩ := h
  have hcount : kb.size + 1 - held = kb.size - held + 1 := by omega
  have hkeys : window (update kb.buffer kb.storeIndex k) buffSize kb.retIndex
      (kb.size + 1 - held) = kb.keys held ++ [k] := by
    rw [hcount, hstore]
    exact window_update kb.buffer (by omega) k
  have hnext : (if kb.storeIndex + 1 = buffSize then 0 else kb.storeIndex + 1) =
      (kb.retIndex + (kb.size + 1 - held)) % buffSize := by
    have hlt : kb.storeIndex < buffSize := hstore ▸ Nat.mod_lt _ (by decide)
    rw [hcount, ← Nat.add_assoc, ← Nat.mod_add_mod, ← hstore]
    split
    next hend => simp [hend]
    next hend => exact (Nat.mod_eq_of_lt (by omega)).symm
  have hwrap : (kb.store k).wrapStore = { kb.store k with
      storeIndex := if kb.storeIndex + 1 = buffSize then 0 else kb.storeIndex + 1 } := by
    by_cases hend : kb.storeIndex + 1 = buffSize <;> simp [wrapStore, Keyboard.store, hend]
  rw [hwrap]
  exact ⟨⟨Nat.succ_le_of_lt hroom, Nat.le_succ_of_le hheld, hnext⟩, hkeys, rfl, rfl, rfl⟩

/-- What an interrupt does while the buffer has room: the flags change, and a key
that is stored is the newest one. -/
theorem Inv.storeScancode (h : kb.Inv held) (hroom : kb.size < buffSize) (code : UInt8) :
    (kb.storeScancode code).1 = effectOf code ∧
    (kb.storeScancode code).2.Inv held ∧
    (kb.storeScancode code).2.keys held = kb.keys held ++ (storedKey code).toList ∧
    (kb.storeScancode code).2.flags = kb.flags.after code ∧
    (kb.storeScancode code).2.retIndex = kb.retIndex := by
  have hfull : kb.size ≠ buffSize := Nat.ne_of_lt hroom
  have hbyte : getKey code < topCharCode := by
    have := code.toInt8.toInt_lt
    simpa [getKey] using this
  rw [Keyboard.storeScancode, effectOf, KeyFlags.after, storedKey]
  generalize getKey code = k at hbyte ⊢
  rcases lt_trichotomy k 0 with hneg | rfl | hpos
  · -- a key is let go
    have hesc : k ≠ escape := by unfold escape; omega
    have hset := h.setFlags (kb.flags.processKeyScanCode (k + topCharCode)).2
    simp only [hfull, hesc, hneg, Int.not_lt.2 hneg.le, false_and, if_false, if_true,
      hset.wrapStore_eq]
    simp [hset, keys]
  · have hesc : (0 : Int) ≠ escape := by decide
    have hsame : kb.flags.processKeyScanCode 0 = (false, kb.flags) :=
      KeyFlags.processKeyScanCode_of_not kb.flags (by decide)
    simp [hfull, hesc, h.wrapStore_eq, h, hsame]
  · have hnotneg : ¬k < 0 := by omega
    by_cases hesc : k = escape
    · have hsame : kb.flags.processKeyScanCode k = (false, kb.flags) :=
        KeyFlags.processKeyScanCode_of_not kb.flags (by rw [hesc]; decide)
      simp only [hfull, hnotneg, hsame, if_false]
      simp [hesc, h]
    · by_cases hspecial : k = rShiftCode ∨ k = lShiftCode ∨ k = capsLock
      · -- the key changes the flags only
        have hset := h.setFlags (kb.flags.processKeyScanCode k).2
        have hnone : ¬(0 < k ∧ k ≠ escape ∧ k ≠ rShiftCode ∧ k ≠ lShiftCode ∧ k ≠ capsLock) := by
          tauto
        have hfst := (KeyFlags.processKeyScanCode_fst kb.flags k).2 hspecial
        rw [if_neg hnone]
        simp only [hfull, hesc, hnotneg, hpos, hbyte, hfst, and_self, if_false, if_true,
          hset.wrapStore_eq]
        simp [hset, keys]
      · -- the key is stored
        have hsome : 0 < k ∧ k ≠ escape ∧ k ≠ rShiftCode ∧ k ≠ lShiftCode ∧ k ≠ capsLock := by
          tauto
        have hsame := KeyFlags.processKeyScanCode_of_not kb.flags hspecial
        obtain ⟨hinv, hkeys, -, hflags, hret⟩ := h.store hroom k
        simp only [hfull, hesc, hnotneg, hpos, hbyte, hsame, hsome, and_self, ne_eq, if_false,
          if_true, not_false_eq_true]
        simp [hinv, hkeys, hflags, hret]

/-! ## Taking a key -/

/-- The oldest key is taken first. -/
theorem Inv.takeKey (h : kb.Inv 0) (hsize : kb.size ≠ 0) (hret : kb.retIndex < buffSize) :
    kb.takeKey.2.Inv 1 ∧ kb.keys 0 = kb.takeKey.1 :: kb.takeKey.2.keys 1 := by
  obtain ⟨hle, -, hstore⟩ := h
  have hcount : kb.size - 0 = kb.size - 1 + 1 := by omega
  refine ⟨⟨hle, Nat.one_le_iff_ne_zero.2 hsize, ?_⟩, ?_⟩
  · have hnext : kb.retIndex + kb.size = kb.retIndex + 1 + (kb.size - 1) := by omega
    simpa [Keyboard.takeKey, ← hnext] using hstore
  · simp [keys, Keyboard.takeKey, hcount, window_succ, window_mod, Nat.mod_eq_of_lt hret]

/-- The taken key is counted down. -/
theorem Inv.countKey (h : kb.Inv 1) : kb.countKey.Inv 0 ∧ kb.countKey.keys 0 = kb.keys 1 := by
  obtain ⟨hle, hheld, hstore⟩ := h
  exact ⟨⟨(Nat.sub_le ..).trans hle, Nat.zero_le _, hstore⟩, rfl⟩

/-- `ret_index` goes back to the start. -/
theorem Inv.wrapRet (h : kb.Inv held) (hret : kb.retIndex ≤ buffSize) :
    kb.wrapRet.Inv held ∧ kb.wrapRet.keys held = kb.keys held ∧
      kb.wrapRet.retIndex < buffSize := by
  obtain ⟨hle, hheld, hstore⟩ := h
  by_cases hend : kb.retIndex = buffSize
  · have hwrap : kb.wrapRet = { kb with retIndex := 0 } := by simp [Keyboard.wrapRet, hend]
    rw [hwrap]
    refine ⟨⟨hle, hheld, ?_⟩, ?_, show 0 < buffSize by decide⟩
    · simpa [hend] using hstore
    · simp [keys, hend, ← window_mod kb.buffer buffSize buffSize]
  · have hwrap : kb.wrapRet = kb := by simp [Keyboard.wrapRet, hend]
    rw [hwrap]
    exact ⟨⟨hle, hheld, hstore⟩, rfl, by omega⟩

@[simp] theorem takeKey_flags (kb : Keyboard) : kb.takeKey.2.flags = kb.flags := rfl

@[simp] theorem countKey_flags (kb : Keyboard) : kb.countKey.flags = kb.flags := rfl

@[simp] theorem wrapRet_flags (kb : Keyboard) : kb.wrapRet.flags = kb.flags := by
  simp only [wrapRet, apply_ite flags, ite_self]

/-- `get_char` returns the character of the oldest key. -/
theorem Inv.getChar (h : kb.Inv 0) (hsize : kb.size ≠ 0) (hret : kb.retIndex < buffSize) :
    ∃ k, kb.keys 0 = k :: kb.getChar.2.keys 0 ∧ kb.getChar.1 = kb.flags.chooseKeyboard k ∧
      kb.getChar.2.Inv 0 ∧ kb.getChar.2.flags = kb.flags ∧ kb.getChar.2.retIndex < buffSize := by
  obtain ⟨htaken, hkeys⟩ := h.takeKey hsize hret
  obtain ⟨hcounted, hcount⟩ := htaken.countKey
  obtain ⟨hwrapped, hwrap, hlt⟩ := hcounted.wrapRet (show kb.retIndex + 1 ≤ buffSize from hret)
  have hget : kb.getChar = (kb.flags.chooseKeyboard kb.takeKey.1, kb.takeKey.2.countKey.wrapRet) := by
    simp [Keyboard.getChar, hsize]
  rw [hget]
  refine ⟨kb.takeKey.1, ?_, rfl, hwrapped, by simp, hlt⟩
  rw [hkeys, hwrap, hcount]

end Keyboard

end TPE
