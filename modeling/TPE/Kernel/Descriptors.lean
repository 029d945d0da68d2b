import TPE.Kernel.Fifo

/-!
# Descriptors in system calls

`sys_read`, `sys_write` and `sys_fifo_cl` take a descriptor of 64 bits.  The
fifo with the key `k` has the descriptor `k + FILE_DESCRIPTORS`, and the way back
goes through an `unsigned int` and an `int`.

`is_open` tests a key from above only, and `sys_fifo_cl` does not test the
descriptor.  Here is what each call does with every descriptor up to where it
works on a stream or on a fifo.
-/

namespace TPE

open Function

/-- `FILE_DESCRIPTORS` -/
abbrev fileDescriptors : BitVec 64 := 3

/-- `STDOUT` -/
abbrev stdout : BitVec 64 := 0

/-- `STDIN` -/
abbrev stdin : BitVec 64 := 1

/-- `STDERR` -/
abbrev stderr : BitVec 64 := 2

/-- `fifo_to_fds` -/
def fifoToFds (key : Int) : BitVec 32 := BitVec.ofInt 32 key + fileDescriptors.setWidth 32

/-- `fds_to_fifo` -/
def fdsToFifo (fds : BitVec 32) : Int := (fds - fileDescriptors.setWidth 32).toInt

/-- What a call does with its descriptor. -/
inductive FdsOutcome where
  /-- It goes on to the keyboard or to the screen. -/
  | stream
  /-- It goes on to the fifo with this key. -/
  | fifo (key : Int)
  /-- It returns at once. -/
  | returns (v : Int)
  /-- It returns a variable that nothing was assigned to. -/
  | unassigned
deriving DecidableEq, Repr

/-- The return value as a number of `n` bits. -/
def FdsOutcome.toUnsigned (n : Nat) : FdsOutcome → FdsOutcome
  | .returns v => .returns (v % 2 ^ n)
  | o => o

/-- A call: the entries of `open_fifos` that are read to test the descriptor, and
what comes of it. -/
structure FdsCall where
  reads : List Int
  outcome : FdsOutcome

/-- The entries of `open_fifos` that `is_open` reads. -/
def isOpenReads (key : Int) : List Int := if key < maxFifos then [key] else []

namespace Kernel

/-! ## The calls -/

/-- The test of `fifo_read`. -/
def fifoReadCall (k : Kernel) (key bytes : Int) : FdsCall :=
  ⟨isOpenReads key, if k.fifoIsOpen key ∧ 0 < bytes then .fifo key else .returns 0⟩

/-- The test of `fifo_write`. -/
def fifoWriteCall (k : Kernel) (key bytes : Int) : FdsCall :=
  ⟨isOpenReads key,
    if k.fifoIsOpen key ∧ 0 < bytes then .fifo key
    else if bytes ≤ 0 then .returns 0 else .returns notOpenError⟩

/-- The test of `fifo_close`. -/
def fifoCloseCall (k : Kernel) (key : Int) : FdsCall :=
  ⟨isOpenReads key, if k.fifoIsOpen key then .fifo key else .returns notOpenError⟩

/-- `sys_read` -/
def sysReadCall (k : Kernel) (fds bytes : BitVec 64) : FdsCall :=
  if fds = stdin then ⟨[], .stream⟩
  else if fileDescriptors ≤ fds then
    let c := k.fifoReadCall (fdsToFifo (fds.setWidth 32)) (bytes.setWidth 32).toInt
    { c with outcome := c.outcome.toUnsigned 32 }
  else ⟨[], .returns 0⟩

/-- `sys_write` -/
def sysWriteCall (k : Kernel) (fds length : BitVec 64) : FdsCall :=
  if fds = stderr then ⟨[], .stream⟩
  else if fds = stdout then ⟨[], .stream⟩
  else if fileDescriptors ≤ fds then
    let c := k.fifoWriteCall (fdsToFifo (fds.setWidth 32)) (length.setWidth 32).toInt
    { c with outcome := c.outcome.toUnsigned 32 }
  else ⟨[], .unassigned⟩

/-- `sys_fifo_cl` -/
def sysFifoClCall (k : Kernel) (fds : BitVec 64) : FdsCall :=
  let c := k.fifoCloseCall (fdsToFifo (fds.setWidth 32))
  { c with outcome := c.outcome.toUnsigned 64 }

variable {k : Kernel} {fds bytes : BitVec 64} {key : Int}

/-- `fifo_close` leaves the kernel alone if its test says so. -/
theorem fifoClose_of_returns {v : Int} (h : (k.fifoCloseCall key).outcome = .returns v) :
    k.fifoClose key = some (v, k) := by
  unfold fifoCloseCall at h
  unfold fifoClose
  simp only at h
  split at h
  next => cases h
  next hclosed =>
    cases h
    rw [if_neg hclosed]

/-! ## Descriptors and keys -/

/-- The descriptor of a fifo that is open for the running process. -/
def OpenFds (k : Kernel) (fds : BitVec 64) (key : Int) : Prop :=
  0 ≤ key ∧ key < maxFifos ∧ fds = (fifoToFds key).setWidth 64 ∧ k.fifoIsOpen key

/-- An error, for a caller that looks at an `int`. -/
def IsError (v : Int) : Prop := int32 v = notOpenError

instance : DecidablePred IsError := fun v => inferInstanceAs (Decidable (int32 v = notOpenError))

/-- What a call should do with a descriptor: `open_fifos` is read inside of its
bounds, only the fifo with this descriptor is used, and only if it is open, only a
standard stream is taken for one, and everything else is refused. -/
structure Validated (k : Kernel) (Standard : BitVec 64 → Prop) (fds : BitVec 64) (c : FdsCall) :
    Prop where
  inBounds : ∀ i ∈ c.reads, 0 ≤ i ∧ i < maxFifos
  stream : c.outcome = .stream → Standard fds
  fifo : ∀ key, c.outcome = .fifo key → k.OpenFds fds key
  refused : ¬Standard fds → (∀ key, ¬k.OpenFds fds key) → ∃ v, c.outcome = .returns v ∧ IsError v

theorem fifoToFds_fdsToFifo (x : BitVec 32) : fifoToFds (fdsToFifo x) = x := by
  rw [fifoToFds, fdsToFifo, BitVec.ofInt_toInt, BitVec.sub_add_cancel]

theorem fdsToFifo_fifoToFds (h0 : 0 ≤ key) (hlt : key < maxFifos) :
    fdsToFifo (((fifoToFds key).setWidth 64).setWidth 32) = key := by
  rw [BitVec.setWidth_setWidth_of_le _ (by omega), BitVec.setWidth_eq, fifoToFds, fdsToFifo,
    BitVec.add_sub_cancel]
  have hmax : key < 128 := hlt
  exact BitVec.toInt_ofInt_eq_self (by decide) (by omega) (by omega)

/-- The key of a descriptor of an open fifo. -/
theorem OpenFds.fdsToFifo_eq (h : k.OpenFds fds key) : fdsToFifo (fds.setWidth 32) = key := by
  obtain ⟨h0, hlt, rfl, -⟩ := h
  exact fdsToFifo_fifoToFds h0 hlt

/-- It is no standard stream. -/
theorem OpenFds.fileDescriptors_le (h : k.OpenFds fds key) : fileDescriptors ≤ fds := by
  obtain ⟨h0, hlt, rfl, -⟩ := h
  have hmax : key < 128 := hlt
  rw [BitVec.le_def, BitVec.toNat_setWidth, fifoToFds, BitVec.toNat_add, BitVec.toNat_ofInt]
  simp
  omega

/-- The test of a key reads `open_fifos` inside of its bounds unless the key is
negative. -/
theorem isOpenReads_inBounds : (∀ i ∈ isOpenReads key, 0 ≤ i ∧ i < maxFifos) ↔ 0 ≤ key := by
  unfold isOpenReads
  split
  next hlt =>
    constructor
    · intro h
      exact (h key List.mem_cons_self).1
    · intro h i hi
      rw [List.mem_singleton.mp hi]
      exact ⟨h, hlt⟩
  next hge =>
    constructor
    · intro _
      exact (Int.natCast_nonneg maxFifos).trans (not_lt.mp hge)
    · intro _ i hi
      cases hi

theorem toUnsigned_ite {c : Prop} [Decidable c] (n : Nat) (v : Int) :
    (if c then FdsOutcome.fifo key else .returns v).toUnsigned n =
      if c then .fifo key else .returns (v % 2 ^ n) := by
  split
  · rfl
  · rfl

/-! ## Which descriptors are validated -/

/-- A call that goes on with a fifo if that is open and a test is passed, and
returns something else if not. -/
theorem validated_iff {S : BitVec 64 → Prop} {T : Prop} [Decidable T] {v : Int}
    (hfds : ¬S fds) (hkey : fdsToFifo (fds.setWidth 32) = key) :
    Validated k S fds
        ⟨isOpenReads key, if k.fifoIsOpen key ∧ T then .fifo key else .returns v⟩ ↔
      (∃ key, k.OpenFds fds key) ∨ 0 ≤ key ∧ ¬(k.fifoIsOpen key ∧ T) ∧ IsError v := by
  constructor
  · intro h
    by_cases hopen : ∃ key, k.OpenFds fds key
    · exact Or.inl hopen
    · obtain ⟨v', hv', herror⟩ := h.refused hfds (not_exists.mp hopen)
      simp only at hv'
      split at hv'
      next => cases hv'
      next hclosed =>
        cases hv'
        exact Or.inr ⟨isOpenReads_inBounds.mp h.inBounds, hclosed, herror⟩
  · rintro (⟨key', hopen⟩ | ⟨h0, hclosed, herror⟩)
    · obtain rfl : key = key' := hkey.symm.trans hopen.fdsToFifo_eq
      refine ⟨isOpenReads_inBounds.mpr hopen.1, fun hs => ?_, fun key' he => ?_,
        fun _ hnone => absurd hopen (hnone key)⟩
      · simp only at hs
        split at hs
        next => cases hs
        next => cases hs
      · simp only at he
        split at he
        next =>
          cases he
          exact hopen
        next => cases he
    · rw [if_neg hclosed]
      exact ⟨isOpenReads_inBounds.mpr h0, fun hs => (by cases hs), fun key' he => (by cases he),
        fun _ _ => ⟨v, rfl, herror⟩⟩

/-- A standard stream that a call takes for one. -/
theorem validated_stream {Standard : BitVec 64 → Prop} (hfds : Standard fds) :
    Validated k Standard fds ⟨[], .stream⟩ :=
  ⟨fun _ hi => (by cases hi), fun _ => hfds, fun key he => (by cases he),
    fun hs => absurd hfds hs⟩

/-- A call that does not look at its descriptor. -/
theorem not_validated {Standard : BitVec 64 → Prop} {o : FdsOutcome} (hfds : ¬Standard fds)
    (hlow : ¬fileDescriptors ≤ fds) (ho : ∀ v, o = .returns v → ¬IsError v) :
    ¬Validated k Standard fds ⟨[], o⟩ := by
  intro h
  obtain ⟨v, hv, herror⟩ := h.refused hfds fun key hopen => hlow hopen.fileDescriptors_le
  exact ho v hv herror

/-- `sys_read` returns no error for any descriptor. -/
theorem validated_sysReadCall : Validated k (· = stdin) fds (k.sysReadCall fds bytes) ↔
    fds = stdin ∨ ∃ key, k.OpenFds fds key := by
  unfold sysReadCall
  split
  next hin => exact iff_of_true (validated_stream hin) (Or.inl hin)
  next hin =>
    rw [or_iff_right hin]
    split
    next =>
      simp only [fifoReadCall, toUnsigned_ite]
      rw [validated_iff (S := (· = stdin)) hin rfl, or_iff_left]
      rintro ⟨-, -, herror⟩
      exact absurd herror (by decide)
    next hlow =>
      refine iff_of_false (not_validated hin hlow fun v hv => ?_) ?_
      · cases hv
        decide
      · rintro ⟨key, hopen⟩
        exact hlow hopen.fileDescriptors_le

/-- `sys_write` refuses a closed fifo when there is something to write. -/
theorem validated_sysWriteCall :
    Validated k (fun fds => fds = stdout ∨ fds = stderr) fds (k.sysWriteCall fds bytes) ↔
      (fds = stdout ∨ fds = stderr) ∨ (∃ key, k.OpenFds fds key) ∨
        fileDescriptors ≤ fds ∧ 0 ≤ fdsToFifo (fds.setWidth 32) ∧
          ¬k.fifoIsOpen (fdsToFifo (fds.setWidth 32)) ∧ 0 < (bytes.setWidth 32).toInt := by
  unfold sysWriteCall
  split
  next herr => exact iff_of_true (validated_stream (Or.inr herr)) (Or.inl (Or.inr herr))
  next herr =>
    split
    next hout => exact iff_of_true (validated_stream (Or.inl hout)) (Or.inl (Or.inl hout))
    next hout =>
      have hfds : ¬(fds = stdout ∨ fds = stderr) := not_or.mpr ⟨hout, herr⟩
      rw [or_iff_right hfds]
      split
      next hle =>
        have hrefuse : (if (bytes.setWidth 32).toInt ≤ 0 then FdsOutcome.returns 0
            else .returns notOpenError) =
              .returns (if (bytes.setWidth 32).toInt ≤ 0 then 0 else notOpenError) := by
          split
          · rfl
          · rfl
        simp only [fifoWriteCall, hrefuse, toUnsigned_ite]
        rw [validated_iff (S := fun fds => fds = stdout ∨ fds = stderr) hfds rfl]
        refine or_congr_right ?_
        by_cases hpos : 0 < (bytes.setWidth 32).toInt
        · rw [if_neg (not_le.mpr hpos)]
          have herror : IsError (notOpenError % 2 ^ 32) := by decide
          simp only [hle, hpos, herror, and_true, true_and]
        · rw [if_pos (not_lt.mp hpos)]
          refine iff_of_false ?_ fun h => hpos h.2.2.2
          rintro ⟨-, -, herror⟩
          exact absurd herror (by decide)
      next hlow =>
        refine iff_of_false (not_validated hfds hlow fun v hv => by cases hv) ?_
        rintro (⟨key, hopen⟩ | ⟨hle, -⟩)
        · exact hlow hopen.fileDescriptors_le
        · exact hlow hle

/-- `sys_fifo_cl` takes a standard stream for an entry in front of `open_fifos`. -/
theorem validated_sysFifoClCall : Validated k (fun _ => False) fds (k.sysFifoClCall fds) ↔
    (∃ key, k.OpenFds fds key) ∨
      0 ≤ fdsToFifo (fds.setWidth 32) ∧ ¬k.fifoIsOpen (fdsToFifo (fds.setWidth 32)) := by
  unfold sysFifoClCall
  simp only [fifoCloseCall, toUnsigned_ite]
  have h := validated_iff (k := k) (S := fun _ => False) (T := True) (v := notOpenError % 2 ^ 64)
    not_false (rfl : fdsToFifo (fds.setWidth 32) = _)
  simp only [and_true] at h
  rw [h, and_iff_left (show IsError (notOpenError % 2 ^ 64) by decide)]

/-- For which descriptors the three calls do what they should. -/
theorem descriptors_validated (k : Kernel) (fds bytes : BitVec 64) :
    (Validated k (· = stdin) fds (k.sysReadCall fds bytes) ↔
      fds = stdin ∨ ∃ key, k.OpenFds fds key) ∧
    (Validated k (fun fds => fds = stdout ∨ fds = stderr) fds (k.sysWriteCall fds bytes) ↔
      (fds = stdout ∨ fds = stderr) ∨ (∃ key, k.OpenFds fds key) ∨
        fileDescriptors ≤ fds ∧ 0 ≤ fdsToFifo (fds.setWidth 32) ∧
          ¬k.fifoIsOpen (fdsToFifo (fds.setWidth 32)) ∧ 0 < (bytes.setWidth 32).toInt) ∧
    (Validated k (fun _ => False) fds (k.sysFifoClCall fds) ↔
      (∃ key, k.OpenFds fds key) ∨
        0 ≤ fdsToFifo (fds.setWidth 32) ∧ ¬k.fifoIsOpen (fdsToFifo (fds.setWidth 32))) :=
  ⟨validated_sysReadCall, validated_sysWriteCall, validated_sysFifoClCall⟩

/-- The first process has the first fifo open. -/
def oneFifoOpen : Kernel where
  nodes _ := ⟨0, 10, null⟩
  processes _ := { Process.zero with openFds := 1 }
  openFifos _ := ⟨.nil, .create fun _ => 0, .opened, 0, null⟩

/-- `sys_fifo_cl` closes the first fifo when it gets its descriptor plus 2^32, and
reads in front of the array when it gets `STDOUT`. -/
theorem descriptor_wraps :
    (¬∀ (k : Kernel) (fds : BitVec 64), Validated k (fun _ => False) fds (k.sysFifoClCall fds)) ∧
      (oneFifoOpen.sysFifoClCall 0x100000003).outcome = .fifo 0 ∧
      (oneFifoOpen.sysFifoClCall stdout).reads = [-3] := by
  refine ⟨fun hall => ?_, by decide +kernel, by decide +kernel⟩
  have hbad := (hall oneFifoOpen stdout).inBounds (-3) (by decide +kernel)
  exact absurd hbad.1 (by decide)

end Kernel

end TPE
