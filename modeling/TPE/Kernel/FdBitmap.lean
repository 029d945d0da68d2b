import TPE.Library.SharedFlags
import TPE.Kernel.FifoDescriptors
import TPE.Kernel.SchedulerRuns

/-!
# The bit map of descriptors

`set_file_open`, `set_file_closed` and `file_is_open` build their masks with the shift
`1 << fd` of an `int`.  The processor takes the shift count modulo 32, so the numbers `fd` and
`fd + 32`, which are both below `MAX_FDS`, have one bit in the map of 64 bits.
-/

namespace TPE

open Function

namespace Kernel

/-- `set_file_closed` -/
def setFileClosed (k : Kernel) (p : Addr) (fd : Int) : Kernel :=
  if fd ≥ maxFds then k
  else k.writeProcess p fun c =>
    { c with openFds := c.openFds &&& (~~~((1#32) <<< (fd % 32).toNat)).signExtend 64 }

/-- A call of `set_file_open` or of `set_file_closed`. -/
inductive FdCall where
  | setFileOpen (p : Addr) (fd : Int)
  | setFileClosed (p : Addr) (fd : Int)
deriving DecidableEq

/-- The descriptor that a call is made with. -/
def FdCall.fd : FdCall → Int
  | setFileOpen _ fd => fd
  | setFileClosed _ fd => fd

/-- The process and the descriptor, and whether the call opens it. -/
def FdCall.flag : FdCall → (Addr × Int) × Bool
  | setFileOpen p fd => ((p, fd), true)
  | setFileClosed p fd => ((p, fd), false)

def fdCall (k : Kernel) : FdCall → Kernel
  | .setFileOpen p fd => k.setFileOpen p fd
  | .setFileClosed p fd => k.setFileClosed p fd

/-- One call after the other. -/
def fdCalls (k : Kernel) (calls : List FdCall) : Kernel := calls.foldl fdCall k

/-- The last of the calls with `p` and `fd` was `set_file_open`. -/
def LastOpen (calls : List FdCall) (p : Addr) (fd : Int) : Prop :=
  lastSet (fun i => i = (p, fd)) (calls.map FdCall.flag) = true

instance (calls : List FdCall) (p : Addr) (fd : Int) : Decidable (LastOpen calls p fd) :=
  inferInstanceAs (Decidable (_ = _))

/-! ## One call -/

variable {k : Kernel} {p q : Addr} {fd g : Int} {calls : List FdCall}

/-- The complement of a mask, as an `int` and as a mask. -/
theorem signExtend_not_shift (fd : Int) :
    (~~~((1#32) <<< (fd % 32).toNat)).signExtend 64 = ~~~fdMask fd := by
  have hbits : ∀ n : Fin 32, (~~~((1#32) <<< n.val)).signExtend 64 =
      ~~~((1#32) <<< n.val).signExtend 64 := by decide +kernel
  exact hbits ⟨(fd % 32).toNat, by omega⟩

/-- A mask without the bits of another one. -/
theorem fdMask_clear (x : BitVec 64) (a b : Int) :
    x &&& ~~~fdMask a &&& fdMask b ≠ 0 ↔ x &&& fdMask b ≠ 0 ∧ a % 32 ≠ b % 32 := by
  rw [BitVec.and_assoc]
  by_cases hmod : a % 32 = b % 32
  · have hsame : fdMask a = fdMask b := by rw [fdMask, fdMask, hmod]
    have hnone : ~~~fdMask b &&& fdMask b = 0 := by
      rw [BitVec.and_comm]
      exact BitVec.and_not_self _
    rw [hsame, hnone]
    simp [hmod]
  · have hapart : fdMask a &&& fdMask b = 0 := fdMask_and_eq_zero.mpr hmod
    have hkeep : ~~~fdMask a &&& fdMask b = fdMask b := by
      ext i hi
      have hbit : (fdMask a &&& fdMask b)[i] = false := by
        rw [hapart]
        exact BitVec.getElem_zero hi
      rw [BitVec.getElem_and] at hbit
      rw [BitVec.getElem_and, BitVec.getElem_not]
      cases ha : (fdMask a)[i] with
      | false => rfl
      | true =>
          rw [ha, Bool.true_and] at hbit
          rw [hbit]
          rfl
    rw [hkeep]
    exact (and_iff_left hmod).symm

/-- What `set_file_closed` takes from the descriptors. -/
theorem fileIsOpen_setFileClosed :
    (k.setFileClosed p fd).fileIsOpen q g ↔
      k.fileIsOpen q g ∧ ¬(q = p ∧ fd < maxFds ∧ fd % 32 = g % 32) := by
  unfold setFileClosed
  split
  next hge =>
    refine (and_iff_left ?_).symm
    rintro ⟨-, hlt, -⟩
    omega
  next hlt =>
    have hlt' : fd < maxFds := by omega
    by_cases hq : q = p
    · subst hq
      simp only [fileIsOpen, writeProcess, update_self, signExtend_not_shift, fdMask_clear,
        true_and, hlt', and_assoc, ne_eq]
    · simp only [fileIsOpen, writeProcess, update_of_ne hq]
      simp [hq]

/-- A call, for a descriptor with the same bit and for the others. -/
theorem fileIsOpen_fdCall (c : FdCall) (hc : c.fd < maxFds) (hg : g < maxFds) :
    (k.fdCall c).fileIsOpen q g ↔
      if (c.flag.1.1 = q ∧ c.flag.1.2 % 32 = g % 32) then c.flag.2 = true else k.fileIsOpen q g := by
  cases c with
  | setFileOpen p fd =>
      have hfd : fd < maxFds := hc
      simp only [fdCall, FdCall.flag, fileIsOpen_setFileOpen, hfd, hg, true_and, eq_comm (a := q)]
      by_cases hsame : p = q ∧ fd % 32 = g % 32
      · simp [hsame]
      · simp [hsame]
  | setFileClosed p fd =>
      have hfd : fd < maxFds := hc
      simp only [fdCall, FdCall.flag, fileIsOpen_setFileClosed, hfd, true_and, eq_comm (a := q)]
      by_cases hsame : p = q ∧ fd % 32 = g % 32
      · simp [hsame]
      · simp [hsame]

/-! ## Histories -/

/-- The bit of a descriptor. -/
def fdSlot (i : Addr × Int) : Addr × Int := (i.1, i.2 % 32)

/-- A history is in the map bit by bit. -/
theorem fileIsOpen_fdCalls (hfds : (k.processes p).openFds = 0)
    (hcalls : ∀ c ∈ calls, c.fd < maxFds) (hg : g < maxFds) :
    (k.fdCalls calls).fileIsOpen p g ↔
      lastSet (fun i => fdSlot i = fdSlot (p, g)) (calls.map FdCall.flag) = true := by
  induction calls using List.reverseRecOn with
  | nil => simp [fdCalls, fileIsOpen, hfds]
  | append_singleton calls c ih =>
      have hbefore := ih fun c hc => hcalls c (List.mem_append_left _ hc)
      rw [fdCalls, List.foldl_append, List.foldl_cons, List.foldl_nil, ← fdCalls,
        fileIsOpen_fdCall c (hcalls c (by simp)) hg, hbefore, List.map_append, List.map_singleton,
        lastSet_concat]
      simp only [fdSlot, Prod.mk.injEq, decide_eq_true_eq]
      split
      · exact Iff.rfl
      · exact Iff.rfl

/-- The map answers with the last call with every descriptor exactly if the last calls with
`d` and with `d + 32` agree. -/
theorem fdBitmap_iff (hfds : (k.processes p).openFds = 0)
    (hcalls : ∀ c ∈ calls, 0 ≤ c.fd ∧ c.fd < maxFds) :
    (∀ fd : Int, 0 ≤ fd → fd < maxFds → ((k.fdCalls calls).fileIsOpen p fd ↔ LastOpen calls p fd)) ↔
      ∀ d : Int, 0 ≤ d → d < 32 → (LastOpen calls p d ↔ LastOpen calls p (d + 32)) := by
  have hmax : (maxFds : Int) = 64 := rfl
  have hD : ∀ c ∈ calls.map FdCall.flag, ∀ i : Addr × Int, i.1 = p ∧ 0 ≤ i.2 ∧ i.2 < maxFds →
      fdSlot c.1 = fdSlot i → c.1.1 = p ∧ 0 ≤ c.1.2 ∧ c.1.2 < maxFds := by
    intro flag hflag i hi hslot
    obtain ⟨c, hc, rfl⟩ := List.mem_map.mp hflag
    have hrange := hcalls c hc
    refine ⟨(congrArg Prod.fst hslot).trans hi.1, ?_⟩
    cases c with
    | setFileOpen q fd => exact hrange
    | setFileClosed q fd => exact hrange
  have hshared := sharedFlags_iff fdSlot hD
  constructor
  · intro hmap d hd hlt
    have hlow := hmap d hd (by omega)
    have hhigh := hmap (d + 32) (by omega) (by omega)
    have hslot : fdSlot (p, d + 32) = fdSlot (p, d) := by
      simp [fdSlot]
    rw [fileIsOpen_fdCalls hfds (fun c hc => (hcalls c hc).2) (by omega)] at hlow hhigh
    rw [hslot] at hhigh
    exact hlow.symm.trans hhigh
  · intro hpairs fd hfd hlt
    rw [fileIsOpen_fdCalls hfds (fun c hc => (hcalls c hc).2) hlt, LastOpen, Bool.coe_iff_coe]
    refine hshared.mpr ?_ (p, fd) ⟨rfl, hfd, hlt⟩
    rintro ⟨q, a⟩ ⟨r, b⟩ ⟨rfl, ha, halt⟩ ⟨rfl, hb, hblt⟩ hslot
    have hmod : a % 32 = b % 32 := congrArg Prod.snd hslot
    simp only at ha halt hb hblt
    rw [← Bool.coe_iff_coe]
    -- two numbers below 64 with one bit are equal or 32 apart
    have hcases : a = b ∨ b = a + 32 ∨ a = b + 32 := by omega
    rcases hcases with rfl | rfl | rfl
    · exact Iff.rfl
    · exact hpairs a ha (by omega)
    · exact (hpairs b hb (by omega)).symm

theorem fdBitmap_iff_agreeing :
    (∀ fd : Int, 0 ≤ fd → fd < maxFds →
        ((bootKernel.fdCalls [.setFileOpen 8 3, .setFileOpen 8 35]).fileIsOpen 8 fd ↔
          LastOpen [.setFileOpen 8 3, .setFileOpen 8 35] 8 fd)) ↔
      ∀ d : Int, 0 ≤ d → d < 32 →
        (LastOpen [.setFileOpen 8 3, .setFileOpen 8 35] 8 d ↔
          LastOpen [.setFileOpen 8 3, .setFileOpen 8 35] 8 (d + 32)) :=
  fdBitmap_iff rfl (by decide)

/-- When descriptor 0 was opened, descriptor 32 is open as well. -/
theorem fdBitmap_shared :
    ¬∀ (k : Kernel) (p : Addr) (calls : List FdCall), (k.processes p).openFds = 0 →
      (∀ c ∈ calls, 0 ≤ c.fd ∧ c.fd < maxFds) → ∀ fd : Int, 0 ≤ fd → fd < maxFds →
        ((k.fdCalls calls).fileIsOpen p fd ↔ LastOpen calls p fd) := by
  intro h
  have hbit := h bootKernel 8 [.setFileOpen 8 0] rfl (by decide) 32 (by decide) (by decide)
  exact absurd (hbit.mp (by decide)) (by decide)

end Kernel

end TPE
