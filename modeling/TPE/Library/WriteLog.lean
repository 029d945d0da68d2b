import TPE.Library.ByteMemory

/-!
# A memory with the places that were written

`WriteLog` is a memory of bytes that records the address of every write.

`Puts m m' a n s` says what a function that writes a string does: from `m` to `m'` it wrote
the `n` bytes from `a` on and no others, and the first of them are `s`.  The next string may
start inside these bytes, as it does when it overwrites a terminator.
-/

namespace TPE

open Function ByteMemory

structure WriteLog where
  bytes : Nat → UInt8
  /-- The last write is in front. -/
  written : List Nat

namespace WriteLog

/-- Write a byte. -/
def write (m : WriteLog) (a : Nat) (c : UInt8) : WriteLog :=
  ⟨update m.bytes a c, a :: m.written⟩

/-- Write one byte behind the other. -/
def writeAll (m : WriteLog) (a : Nat) : List UInt8 → WriteLog
  | [] => m
  | c :: s => (m.write a c).writeAll (a + 1) s

/-- The `n` bytes from `a` on were written, and the string is in front. -/
structure Puts (m m' : WriteLog) (a n : Nat) (s : List UInt8) : Prop where
  bytes : BytesAt m'.bytes a s
  outside : ∀ b, b < a ∨ a + n ≤ b → m'.bytes b = m.bytes b
  written : ∀ b, b ∈ m'.written ↔ b ∈ m.written ∨ a ≤ b ∧ b < a + n

variable {m m' m'' : WriteLog} {a n k : Nat} {c : UInt8} {s t : List UInt8}

@[simp] theorem bytes_write (m : WriteLog) (a : Nat) (c : UInt8) :
    (m.write a c).bytes = update m.bytes a c := rfl

@[simp] theorem mem_written_write {b : Nat} :
    b ∈ (m.write a c).written ↔ b = a ∨ b ∈ m.written := List.mem_cons

theorem Puts.refl (m : WriteLog) (a : Nat) : Puts m m a 0 [] :=
  ⟨bytesAt_nil, fun _ _ => rfl, fun b => by simp⟩

theorem puts_write (m : WriteLog) (a : Nat) (c : UInt8) : Puts m (m.write a c) a 1 [c] := by
  refine ⟨bytesAt_singleton.mpr (update_self _ _ _), fun b hb => update_of_ne (by omega) _ _,
    fun b => ?_⟩
  · have hat : b = a ↔ a ≤ b ∧ b < a + 1 := by omega
    rw [mem_written_write, or_comm, hat]

/-- One string behind the other, from the end of the first one on. -/
theorem Puts.trans (h : Puts m m' a n s) (h' : Puts m' m'' (a + s.length) k t)
    (hle : s.length ≤ n) (hover : n ≤ s.length + k) :
    Puts m m'' a (s.length + k) (s ++ t) := by
  refine ⟨bytesAt_append.mpr ⟨h.bytes.congr fun i hi => h'.outside _ (by omega), h'.bytes⟩,
    fun b hb => ?_, fun b => ?_⟩
  · rw [h'.outside b (by omega), h.outside b (by omega)]
  · rw [h'.written, h.written, or_assoc]
    exact or_congr_right (by omega)

theorem puts_writeAll (m : WriteLog) (a : Nat) (s : List UInt8) :
    Puts m (m.writeAll a s) a s.length s := by
  induction s generalizing m a with
  | nil => exact .refl m a
  | cons c s ih =>
      have hrest := (puts_write m a c).trans (ih (m.write a c) (a + 1)) (Nat.le_refl _)
        (Nat.le_add_right _ _)
      rwa [List.singleton_append, List.length_singleton, Nat.add_comm 1] at hrest

/-- A byte at the end of the string. -/
theorem Puts.concat (h : Puts m m' a n s) (c : UInt8) (hle : s.length ≤ n)
    (hover : n ≤ s.length + 1) :
    Puts m (m'.write (a + s.length) c) a (s.length + 1) (s ++ [c]) :=
  h.trans (puts_write m' _ c) hle hover

/-- A terminator at the end of the string. -/
theorem Puts.stringAt (h : Puts m m' a (s.length + 1) (s ++ [0])) : StringAt m'.bytes a s := by
  obtain ⟨hs, hend⟩ := bytesAt_append.mp h.bytes
  exact ⟨hs, hend 0 Nat.one_pos⟩

/-- The terminator need not belong to the string. -/
theorem Puts.left (h : Puts m m' a n (s ++ t)) : Puts m m' a n s :=
  ⟨(bytesAt_append.mp h.bytes).1, h.outside, h.written⟩

end WriteLog

end TPE
