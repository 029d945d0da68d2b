import TPE.Kernel.KeyboardDriver

/-!
# The two shift keys

The driver keeps one flag for both shift keys and changes it whenever one of
them goes down or up.  While the buffer is full `store_scancode` returns before
it has read the scancode, so the flag misses what happens then.

A flag that is right stays right over an event at a shift key exactly if the
buffer is full and the other shift key is down, or neither is the case.
-/

namespace TPE

open Function

/-! ## Keys -/

/-- A key, by the scancode that it sends when it goes down. -/
structure Key where
  code : UInt8
  pos : 0 < code
  lt : code < 128
deriving DecidableEq

namespace Key

/-- The scancode of the key when it goes up. -/
def brk (k : Key) : UInt8 := k.code + 128

def rShift : Key := ⟨42, by decide, by decide⟩

def lShift : Key := ⟨54, by decide, by decide⟩

def IsShift (k : Key) : Prop := k = lShift ∨ k = rShift

instance : DecidablePred IsShift := fun k => inferInstanceAs (Decidable (k = lShift ∨ k = rShift))

/-- The other one of the two shift keys. -/
def otherShift (k : Key) : Key := if k = lShift then rShift else lShift

theorem getKey_code (k : Key) : getKey k.code = k.code.toNat := by
  have hlt : k.code.toNat < 128 := UInt8.lt_iff_toNat_lt.mp k.lt
  show k.code.toBitVec.toInt = _
  rw [BitVec.toInt_eq_toNat_cond, if_pos (by rw [UInt8.toNat_toBitVec]; omega),
    UInt8.toNat_toBitVec]

theorem getKey_brk (k : Key) : getKey k.brk = (k.code.toNat : Int) - 128 := by
  have hlt : k.code.toNat < 128 := UInt8.lt_iff_toNat_lt.mp k.lt
  have hsum : (k.code + 128).toNat = k.code.toNat + 128 := by
    rw [UInt8.toNat_add]
    exact Nat.mod_eq_of_lt (by simpa using by omega)
  show (k.code + 128).toBitVec.toInt = _
  rw [BitVec.toInt_eq_toNat_cond, if_neg (by rw [UInt8.toNat_toBitVec, hsum]; omega),
    UInt8.toNat_toBitVec, hsum]
  omega

theorem isShift_iff (k : Key) :
    k.IsShift ↔ (k.code.toNat : Int) = rShiftCode ∨ (k.code.toNat : Int) = lShiftCode := by
  have hcode : ∀ k' : Key, k = k' ↔ (k.code.toNat : Int) = k'.code.toNat := by
    intro k'
    rw [Int.ofNat_inj, UInt8.toNat_inj]
    constructor
    · rintro rfl
      rfl
    · intro h
      cases k
      cases k'
      simpa using h
  rw [IsShift, hcode, hcode, or_comm]
  rfl

end Key

/-! ## The flag -/

namespace KeyFlags

/-- Only a shift key changes the flag. -/
theorem shiftPressed_processKeyScanCode (f : KeyFlags) (k : Int) :
    (f.processKeyScanCode k).2.shiftPressed =
      if k = rShiftCode ∨ k = lShiftCode then !f.shiftPressed else f.shiftPressed := by
  unfold processKeyScanCode
  split
  · rfl
  · split
    · simp only
      split <;> rfl
    · rfl

theorem shiftPressed_after_code (f : KeyFlags) (k : Key) :
    (f.after k.code).shiftPressed = if k.IsShift then !f.shiftPressed else f.shiftPressed := by
  rw [after, k.getKey_code, if_neg (by omega), shiftPressed_processKeyScanCode]
  simp only [k.isShift_iff]

theorem shiftPressed_after_brk (f : KeyFlags) (k : Key) :
    (f.after k.brk).shiftPressed = if k.IsShift then !f.shiftPressed else f.shiftPressed := by
  have hlt : k.code.toNat < 128 := UInt8.lt_iff_toNat_lt.mp k.lt
  have hback : (k.code.toNat : Int) - 128 + topCharCode = k.code.toNat := Int.sub_add_cancel _ _
  rw [after, k.getKey_brk, if_pos (by omega), hback, shiftPressed_processKeyScanCode]
  simp only [k.isShift_iff]

end KeyFlags

namespace Keyboard

@[simp] theorem wrapStore_flags (kb : Keyboard) : kb.wrapStore.flags = kb.flags := by
  unfold wrapStore
  split <;> rfl

/-- A scancode is read and changes the flags, unless the buffer is full. -/
theorem flags_storeScancode (kb : Keyboard) (code : UInt8) :
    (kb.storeScancode code).2.flags =
      if kb.size = buffSize then kb.flags else kb.flags.after code := by
  have hbyte : getKey code < topCharCode := by
    have := code.toInt8.toInt_lt
    simpa [getKey] using this
  unfold storeScancode KeyFlags.after
  generalize getKey code = k at hbyte ⊢
  simp only
  split
  · rfl
  · by_cases hesc : k = escape
    · rw [if_pos hesc, hesc]
      exact (congrArg Prod.snd (kb.flags.processKeyScanCode_of_not (by decide))).symm
    · rw [if_neg hesc]
      by_cases hpos : 0 < k ∧ k < topCharCode
      · rw [if_pos hpos, if_neg (show ¬k < 0 by omega)]
        split
        · exact wrapStore_flags _
        · exact wrapStore_flags _
      · rw [if_neg hpos]
        by_cases hneg : k < 0
        · rw [if_pos hneg, if_pos hneg]
          exact wrapStore_flags _
        · have hzero : k = 0 := by omega
          rw [if_neg hneg, if_neg hneg, hzero]
          exact (wrapStore_flags _).trans
            (congrArg Prod.snd (kb.flags.processKeyScanCode_of_not (by decide))).symm

theorem flags_getChar (kb : Keyboard) : kb.getChar.2.flags = kb.flags := by
  unfold getChar
  split
  · rfl
  · simp

end Keyboard

/-! ## Runs -/

/-- What can happen to the keys and the driver. -/
inductive Stroke where
  | press (k : Key)
  | release (k : Key)
  /-- A call of `get_char`. -/
  | getChar
deriving DecidableEq

/-- The driver, and the keys that are down. -/
structure ShiftRun where
  kb : Keyboard
  down : Key → Bool

namespace ShiftRun

/-- No key is down. -/
def start : ShiftRun := ⟨.start, fun _ => false⟩

/-- A key that is up goes down, and one that is down goes up. -/
def Possible (s : ShiftRun) : Stroke → Prop
  | .press k => s.down k = false
  | .release k => s.down k = true
  | .getChar => True

instance (s : ShiftRun) : (e : Stroke) → Decidable (s.Possible e)
  | .press k => inferInstanceAs (Decidable (s.down k = false))
  | .release k => inferInstanceAs (Decidable (s.down k = true))
  | .getChar => inferInstanceAs (Decidable True)

/-- One event: its scancode is handled by `store_scancode`. -/
def step (s : ShiftRun) : Stroke → ShiftRun
  | .press k => ⟨(s.kb.storeScancode k.code).2, update s.down k true⟩
  | .release k => ⟨(s.kb.storeScancode k.brk).2, update s.down k false⟩
  | .getChar => ⟨s.kb.getChar.2, s.down⟩

/-- Every event is possible when it happens. -/
def AllPossible (s : ShiftRun) : List Stroke → Prop
  | [] => True
  | e :: es => s.Possible e ∧ (s.step e).AllPossible es

instance decidableAllPossible : (s : ShiftRun) → (es : List Stroke) → Decidable (s.AllPossible es)
  | _, [] => inferInstanceAs (Decidable True)
  | s, e :: es => @instDecidableAnd _ _ inferInstance (decidableAllPossible (s.step e) es)

/-- `shiftPressed` tells whether a shift key is down. -/
def Tracks (s : ShiftRun) : Prop :=
  s.kb.flags.shiftPressed = true ↔ s.down .lShift = true ∨ s.down .rShift = true

instance (s : ShiftRun) : Decidable s.Tracks := inferInstanceAs (Decidable (_ ↔ _))

/-- The flag is right now and after every event. -/
def TracksAlong (s : ShiftRun) : List Stroke → Prop
  | [] => s.Tracks
  | e :: es => s.Tracks ∧ (s.step e).TracksAlong es

/-- If the event is at a shift key, the buffer is full and the other shift key is
down, or neither is the case. -/
def InTime (s : ShiftRun) : Stroke → Prop
  | .press k => k.IsShift → (s.kb.size = buffSize ↔ s.down k.otherShift = true)
  | .release k => k.IsShift → (s.kb.size = buffSize ↔ s.down k.otherShift = true)
  | .getChar => True

instance (s : ShiftRun) : (e : Stroke) → Decidable (s.InTime e)
  | .press _ => inferInstanceAs (Decidable (_ → (_ ↔ _)))
  | .release _ => inferInstanceAs (Decidable (_ → (_ ↔ _)))
  | .getChar => inferInstanceAs (Decidable True)

/-- Every event is in time when it happens. -/
def AllInTime (s : ShiftRun) : List Stroke → Prop
  | [] => True
  | e :: es => s.InTime e ∧ (s.step e).AllInTime es

instance decidableAllInTime : (s : ShiftRun) → (es : List Stroke) → Decidable (s.AllInTime es)
  | _, [] => inferInstanceAs (Decidable True)
  | s, e :: es => @instDecidableAnd _ _ inferInstance (decidableAllInTime (s.step e) es)

variable {s : ShiftRun}

/-! ## One event -/

/-- Whether a shift key is down, read from one of them. -/
theorem down_shift_iff (down : Key → Bool) {k : Key} (hk : k.IsShift) :
    (down .lShift = true ∨ down .rShift = true) ↔ down k = true ∨ down k.otherShift = true := by
  rcases hk with rfl | rfl
  · exact Iff.rfl
  · exact or_comm

theorem otherShift_ne {k : Key} (hk : k.IsShift) : k.otherShift ≠ k := by
  rcases hk with rfl | rfl <;> decide

/-- An event at a key that is not a shift key. -/
theorem tracks_of_other (h : s.Tracks) {k : Key} (hk : ¬k.IsShift) {kb : Keyboard}
    (hkb : kb.flags.shiftPressed = s.kb.flags.shiftPressed) (b : Bool) :
    Tracks ⟨kb, update s.down k b⟩ := by
  obtain ⟨hl, hr⟩ := not_or.mp hk
  unfold Tracks at *
  simp only [hkb, update_of_ne (Ne.symm hl), update_of_ne (Ne.symm hr)]
  exact h

/-- The flag after an event at the key `k`. -/
theorem shiftPressed_storeScancode (kb : Keyboard) {k : Key} {code : UInt8}
    (hcode : code = k.code ∨ code = k.brk) :
    (kb.storeScancode code).2.flags.shiftPressed =
      if k.IsShift ∧ kb.size ≠ buffSize then !kb.flags.shiftPressed else kb.flags.shiftPressed := by
  rw [Keyboard.flags_storeScancode]
  by_cases hfull : kb.size = buffSize
  · simp [hfull]
  · rw [if_neg hfull]
    simp only [ne_eq, hfull, not_false_eq_true, and_true]
    rcases hcode with rfl | rfl
    · exact kb.flags.shiftPressed_after_code k
    · exact kb.flags.shiftPressed_after_brk k

/-- A flag that was right is right after an event exactly if the event is in time. -/
theorem tracks_step_iff (h : s.Tracks) {e : Stroke} (he : s.Possible e) :
    (s.step e).Tracks ↔ s.InTime e := by
  cases e with
  | press k =>
      have hflag := shiftPressed_storeScancode s.kb (k := k) (Or.inl rfl)
      by_cases hk : k.IsShift
      · have hother := update_of_ne (otherShift_ne hk) true s.down
        have hup : s.down k = false := he
        simp only [step, Tracks, InTime, hk, true_implies, hflag, true_and,
          down_shift_iff _ hk, update_self, hother, true_or, iff_true] at h ⊢
        rw [hup] at h
        cases hd : s.down k.otherShift <;> by_cases hfull : s.kb.size = buffSize <;>
          simp [hd, hfull] at h ⊢ <;> exact h
      · refine iff_of_true (tracks_of_other h hk ?_ true) fun hs => absurd hs hk
        rw [hflag, if_neg fun hs => hk hs.1]
  | release k =>
      have hflag := shiftPressed_storeScancode s.kb (k := k) (Or.inr rfl)
      by_cases hk : k.IsShift
      · have hother := update_of_ne (otherShift_ne hk) false s.down
        have hdown : s.down k = true := he
        simp only [step, Tracks, InTime, hk, true_implies, hflag, true_and,
          down_shift_iff _ hk, update_self, hother, hdown, true_or, iff_true] at h ⊢
        by_cases hfull : s.kb.size = buffSize <;> simp [h, hfull]
      · refine iff_of_true (tracks_of_other h hk ?_ false) fun hs => absurd hs hk
        rw [hflag, if_neg fun hs => hk hs.1]
  | getChar =>
      refine iff_of_true ?_ trivial
      unfold Tracks at *
      simp only [step, Keyboard.flags_getChar]
      exact h

/-! ## Sequences of events -/

theorem tracks_start : start.Tracks := by decide

theorem tracksAlong_iff_of_tracks {es : List Stroke} (h : s.Tracks) (hes : s.AllPossible es) :
    s.TracksAlong es ↔ s.AllInTime es := by
  induction es generalizing s with
  | nil => exact iff_of_true h trivial
  | cons e es ih =>
      obtain ⟨he, hes⟩ := hes
      have hstep := tracks_step_iff h he
      constructor
      · rintro ⟨-, halong⟩
        have ht : (s.step e).Tracks := by
          cases es with
          | nil => exact halong
          | cons => exact halong.1
        exact ⟨hstep.mp ht, (ih ht hes).mp halong⟩
      · rintro ⟨hintime, hall⟩
        have ht := hstep.mpr hintime
        exact ⟨h, (ih ht hes).mpr hall⟩

/-- The flag is right after every event exactly if every event is in time. -/
theorem tracksAlong_iff {es : List Stroke} (h : start.AllPossible es) :
    start.TracksAlong es ↔ start.AllInTime es :=
  tracksAlong_iff_of_tracks tracks_start h

/-- One shift key after the other, while the key A is down. -/
def oneByOne : List Stroke :=
  let a : Key := ⟨30, by decide, by decide⟩
  [.press .lShift, .press a, .getChar, .release .lShift, .press .rShift, .release a,
    .release .rShift]

theorem tracksAlong_oneByOne : start.TracksAlong oneByOne :=
  (tracksAlong_iff (by decide +kernel)).mpr (by decide +kernel)

/-- Both shift keys are pressed. -/
theorem shift_flag_cleared : ¬∀ es, start.AllPossible es → start.TracksAlong es := by
  intro hall
  have hboth : ((start.step (.press .lShift)).step (.press .rShift)).Tracks :=
    (hall [.press .lShift, .press .rShift] (by decide +kernel)).2.2
  exact absurd hboth (by decide +kernel)

end ShiftRun

end TPE
