import TPE.Kernel.Ctype
import TPE.Kernel.KeyboardDecode

/-!
# The keyboard buffer as a queue

Calls of `store_scancode` and of `get_char` in any order, each one without an interrupt.  The
buffer is a queue with room for `BUFFSIZE` scancodes.  A scancode that is no break code, not
the escape key and none of shift and caps lock goes in if there is room, and `get_char` takes
out the oldest one.

`acceptedCodes` says from the calls alone which scancodes went in.
-/

namespace TPE

open Function RingBuffer

/-! ## The scancodes that go in -/

/-- The scancodes for the buffer. -/
def Storable (code : UInt8) : Prop :=
  2 ≤ code.toNat ∧ code.toNat ≤ 127 ∧
    (code.toNat : Int) ≠ rShiftCode ∧ (code.toNat : Int) ≠ lShiftCode ∧
    (code.toNat : Int) ≠ capsLock

instance : DecidablePred Storable := fun code =>
  inferInstanceAs (Decidable (2 ≤ code.toNat ∧ code.toNat ≤ 127 ∧
    (code.toNat : Int) ≠ rShiftCode ∧ (code.toNat : Int) ≠ lShiftCode ∧
    (code.toNat : Int) ≠ capsLock))

namespace KeyboardEvent

/-- The scancode that goes into a queue with `pending` scancodes. -/
def accepted (pending : Nat) : KeyboardEvent → List Int
  | .scancode code => if pending < buffSize ∧ Storable code then [(code.toNat : Int)] else []
  | .getChar => []

/-- How many scancodes are pending then. -/
def pending (n : Nat) : KeyboardEvent → Nat
  | .scancode code => n + ((scancode code).accepted n).length
  | .getChar => n - 1

end KeyboardEvent

/-- The scancodes that arrive for the buffer while it has room, in order of arrival.  At first
`pending` scancodes are in the buffer. -/
def acceptedCodes (pending : Nat) : List KeyboardEvent → List Int
  | [] => []
  | e :: es => e.accepted pending ++ acceptedCodes (e.pending pending) es

/-- Break codes are negative keys, and 0 and the escape key come before the others. -/
theorem storedKey_eq (code : UInt8) :
    storedKey code = if Storable code then some (code.toNat : Int) else none := by
  have hlt := code.toNat_lt
  have hkey : getKey code = if code.toNat < 128 then (code.toNat : Int) else code.toNat - 256 :=
    charValue_eq code
  rw [storedKey, hkey]
  by_cases hmake : code.toNat < 128
  · rw [if_pos hmake]
    refine if_congr ?_ rfl rfl
    unfold Storable escape
    omega
  · have hnot : ¬Storable code := fun h => hmake (Nat.lt_succ_of_le h.2.1)
    rw [if_neg hmake, if_neg hnot, if_neg]
    omega

/-! ## The cells of the buffer -/

namespace Keyboard

@[simp] theorem wrapStore_buffer (kb : Keyboard) : kb.wrapStore.buffer = kb.buffer := by
  unfold wrapStore
  split <;> rfl

@[simp] theorem wrapRet_buffer (kb : Keyboard) : kb.wrapRet.buffer = kb.buffer := by
  unfold wrapRet
  split <;> rfl

/-- Only a key that is stored comes into the cells. -/
theorem buffer_storeScancode (kb : Keyboard) (code : UInt8) (i : Nat) :
    (kb.storeScancode code).2.buffer i = kb.buffer i ∨
      storedKey code = some ((kb.storeScancode code).2.buffer i) := by
  unfold storeScancode storedKey
  generalize getKey code = k
  by_cases hfull : kb.size = buffSize
  · simp [hfull]
  · by_cases hesc : k = escape
    · simp [hfull, hesc]
    · by_cases hmake : 0 < k ∧ k < topCharCode
      · by_cases hspecial : k = rShiftCode ∨ k = lShiftCode ∨ k = capsLock
        · have hfst := (KeyFlags.processKeyScanCode_fst kb.flags k).mpr hspecial
          simp [hfull, hesc, hmake, hfst]
        · -- the key goes into one of the cells
          have hsame := KeyFlags.processKeyScanCode_of_not kb.flags hspecial
          have hsome : 0 < k ∧ k ≠ escape ∧ k ≠ rShiftCode ∧ k ≠ lShiftCode ∧ k ≠ capsLock := by
            tauto
          by_cases hi : i = kb.storeIndex
          · simp [hfull, hesc, hmake, hsame, hsome, Keyboard.store, hi]
          · simp [hfull, hesc, hmake, hsame, Keyboard.store, hi]
      · by_cases hneg : k < 0 <;> simp [hfull, hesc, hmake, hneg]

theorem buffer_getChar (kb : Keyboard) : kb.getChar.2.buffer = kb.buffer := by
  unfold getChar
  split
  · rfl
  · exact wrapRet_buffer _

end Keyboard

/-! ## Runs -/

namespace KeyRun

/-- What the driver holds, and what was read, after the scancodes `accepted` went in. -/
structure Holds (r : KeyRun) (accepted : List Int) : Prop where
  inv : r.kb.Inv 0
  ret_lt : r.kb.retIndex < buffSize
  fifo : r.reads.map KeyRead.key ++ r.kb.keys 0 = accepted
  chars : ∀ x ∈ r.reads, x.char = x.flags.chooseKeyboard x.key
  cells : ∀ i, r.kb.buffer i = 0 ∨ r.kb.buffer i ∈ accepted

theorem holds_start : start.Holds [] :=
  ⟨Keyboard.start_inv, show 0 < buffSize by decide, rfl, by simp [start], fun _ => .inl rfl⟩

variable {r : KeyRun} {accepted : List Int}

/-- An interrupt puts its scancode behind the others, if there is room. -/
theorem Holds.scancode (h : r.Holds accepted) (code : UInt8) :
    (r.step (.scancode code)).Holds
        (accepted ++ (KeyboardEvent.scancode code).accepted r.kb.size) ∧
      (r.step (.scancode code)).kb.size = (KeyboardEvent.scancode code).pending r.kb.size := by
  rw [KeyboardEvent.pending]
  by_cases hfull : r.kb.size = buffSize
  · have hnone : (KeyboardEvent.scancode code).accepted r.kb.size = [] := by
      rw [KeyboardEvent.accepted, if_neg (by omega)]
    have hstep : r.step (.scancode code) = r := by
      rw [step, Keyboard.storeScancode, if_pos hfull]
    rw [hnone, hstep, List.append_nil]
    exact ⟨h, rfl⟩
  · have hroom : r.kb.size < buffSize := Nat.lt_of_le_of_ne h.inv.size_le hfull
    have haccepted :
        (KeyboardEvent.scancode code).accepted r.kb.size = (storedKey code).toList := by
      rw [KeyboardEvent.accepted, storedKey_eq]
      by_cases hcode : Storable code <;> simp [hroom, hcode]
    obtain ⟨-, hinv, hkeys, -, hret⟩ := h.inv.storeScancode hroom code
    rw [haccepted]
    refine ⟨⟨hinv, hret.symm ▸ h.ret_lt, ?_, h.chars, fun i => ?_⟩, ?_⟩
    · rw [step, hkeys, ← List.append_assoc, h.fifo]
    · rcases r.kb.buffer_storeScancode code i with hsame | hstored
      · rw [step, hsame]
        exact (h.cells i).imp_right (List.mem_append_left _)
      · exact .inr (List.mem_append_right _ (by simp [step, hstored]))
    · have hlength := congrArg List.length hkeys
      simpa [step] using hlength

/-- `get_char` takes out the oldest scancode. -/
theorem Holds.getChar (h : r.Holds accepted) :
    (r.step .getChar).Holds accepted ∧ (r.step .getChar).kb.size = r.kb.size - 1 := by
  by_cases hsize : r.kb.size = 0
  · have hstep : r.step .getChar = r := by
      rw [step, if_pos hsize]
    rw [hstep]
    exact ⟨h, by omega⟩
  · obtain ⟨k, hkeys, hstep, hinv, -, hret⟩ := step_getChar h.inv h.ret_lt hsize
    rw [hstep]
    refine ⟨⟨hinv, hret, ?_, fun x hx => ?_, fun i => ?_⟩, ?_⟩
    · rw [← h.fifo, hkeys]
      simp
    · rcases List.mem_append.mp hx with hold | hnew
      · exact h.chars x hold
      · rw [List.mem_singleton.mp hnew]
    · rw [Keyboard.buffer_getChar]
      exact h.cells i
    · have hlength := congrArg List.length hkeys
      simp only [Keyboard.length_keys, List.length_cons] at hlength
      exact Nat.eq_sub_of_add_eq hlength.symm

theorem Holds.run (h : r.Holds accepted) (events : List KeyboardEvent) :
    (r.run events).Holds (accepted ++ acceptedCodes r.kb.size events) := by
  induction events generalizing r accepted with
  | nil =>
      rw [acceptedCodes, List.append_nil]
      exact h
  | cons e es ih =>
      rw [acceptedCodes, ← List.append_assoc]
      cases e with
      | scancode code =>
          obtain ⟨hstep, hsize⟩ := h.scancode code
          rw [← hsize]
          exact ih hstep
      | getChar =>
          obtain ⟨hstep, hsize⟩ := h.getChar
          rw [KeyboardEvent.accepted, List.append_nil, KeyboardEvent.pending, ← hsize]
          exact ih hstep

/-- A shift key, a letter and its release, a read, the escape key and another letter. -/
example :
    acceptedCodes 0 [.scancode 42, .scancode 30, .scancode 158, .getChar, .scancode 1,
      .scancode 31] = [30, 31] := by
  decide

end KeyRun

end TPE
