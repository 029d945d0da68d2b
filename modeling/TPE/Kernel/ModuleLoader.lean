import Mathlib.Data.Nat.Digits.Defs
import TPE.Toolchain.ModulePacker

/-!
# The module loader

`loadModules` reads the list of modules behind the kernel and copies each module to
its target address.  `memcpy` copies by words if it can and by bytes else.

For each module `loadModule` prints a message.  The console writes it to the video
memory from its cursor on and does not stop at the end of the screen, so the cells
that the messages take must be apart from the image and from the targets.
-/

namespace TPE

open Function ByteMemory Records ModulePacker

/-- The memory, the cell of the console's cursor, and the bytes that were read: address and
number. -/
structure Boot where
  mem : Nat → UInt8
  cell : Nat
  reads : List (Nat × Nat)

/-! ## The console -/

/-- `video` -/
abbrev video : Nat := 0xB8000

/-- `width` -/
abbrev screenWidth : Nat := 80

namespace Boot

/-- `currentVideo` -/
def currentVideo (k : Boot) : Nat := video + 2 * k.cell

/-- `ncPrintChar` -/
def ncPrintChar (k : Boot) (character : Char) : Boot :=
  { k with mem := update k.mem k.currentVideo (UInt8.ofNat character.toNat), cell := k.cell + 1 }

/-- `ncPrint` -/
def ncPrint (k : Boot) (string : List Char) : Boot := string.foldl ncPrintChar k

/-- The loop of `ncNewline`.  The first argument bounds the number of rounds. -/
def ncNewlineLoop : Nat → Boot → Boot
  | 0, k => k
  | rounds + 1, k =>
      let k := k.ncPrintChar ' '
      if (k.currentVideo - video) % (screenWidth * 2) ≠ 0 then ncNewlineLoop rounds k else k

/-- `ncNewline` -/
def ncNewline (k : Boot) : Boot := ncNewlineLoop screenWidth k

end Boot

/-- The digits of a number, the lowest one first.  The first argument bounds their number. -/
def lowDigits (base : Nat) : Nat → Nat → List Nat
  | 0, _ => []
  | rounds + 1, value =>
      value % base :: if value / base ≠ 0 then lowDigits base rounds (value / base) else []

/-- `(remainder < 10) ? remainder + '0' : remainder + 'A' - 10` -/
def digitChar (remainder : Nat) : Char :=
  Char.ofNat (if remainder < 10 then remainder + 48 else remainder + 65 - 10)

/-- `uintToBase`, with a buffer of 64 characters. -/
def uintToBase (value base : Nat) : List Char := ((lowDigits base 64 value).map digitChar).reverse

namespace Boot

/-- `ncPrintHex` -/
def ncPrintHex (k : Boot) (value : Nat) : Boot := k.ncPrint (uintToBase value 16)

/-- `ncPrintDec` -/
def ncPrintDec (k : Boot) (value : Nat) : Boot := k.ncPrint (uintToBase value 10)

/-! ## The loader -/

/-- `d[i] = s[i]` for arrays of elements of `size` bytes. -/
def copyElement (size dst src i : Nat) (k : Boot) : Boot :=
  { k with
    mem := store k.mem (dst + size * i) (load k.mem (src + size * i) size) size
    reads := k.reads ++ [(src + size * i, size)] }

/-- A loop of `memcpy`, from index `i` on. -/
def copyLoop (size dst src : Nat) : Nat → Nat → Boot → Boot
  | 0, _, k => k
  | rounds + 1, i, k =>
      copyLoop size dst src rounds (i + 1) (copyElement size dst src i k)

/-- `memcpy` -/
def memcpy (k : Boot) (destination source length : Nat) : Boot :=
  if destination % 4 = 0 ∧ source % 4 = 0 ∧ length % 4 = 0 then
    copyLoop 4 destination source (length / 4) 0 k
  else copyLoop 1 destination source length 0 k

/-- `readUint32`: the number and the address behind it. -/
def readUint32 (k : Boot) (address : Nat) : Nat × Nat × Boot :=
  (load k.mem address 4, address + 4, { k with reads := k.reads ++ [(address, 4)] })

/-- `loadModule`: the address of the next module. -/
def loadModule (k : Boot) (module targetModuleAddress : Nat) : Nat × Boot :=
  let (moduleSize, module, k) := k.readUint32 module
  let k := k.ncPrint "  Will copy module at 0x".toList
  let k := k.ncPrintHex module
  let k := k.ncPrint " to 0x".toList
  let k := k.ncPrintHex targetModuleAddress
  let k := k.ncPrint " (".toList
  let k := k.ncPrintDec moduleSize
  let k := k.ncPrint " bytes)".toList
  let k := k.memcpy targetModuleAddress module moduleSize
  let k := k.ncPrint " [Done]".toList
  (module + moduleSize, k.ncNewline)

/-- The loop of `loadModules`.  `none` says that it reads behind the target addresses. -/
def loadLoop : Nat → List Nat → Nat × Boot → Option Boot
  | 0, _, s => some s.2
  | _ + 1, [], _ => none
  | rounds + 1, target :: targets, (currentModule, k) =>
      loadLoop rounds targets (k.loadModule currentModule target)

/-- `loadModules` -/
def loadModules (k : Boot) (payloadStart : Nat) (targetModuleAddress : List Nat) : Option Boot :=
  let (moduleCount, currentModule, k) := k.readUint32 payloadStart
  loadLoop moduleCount targetModuleAddress (currentModule, k)

end Boot

/-- The digits stand for the number. -/
theorem ofDigits_lowDigits {base rounds value : Nat} (h : value < base ^ (rounds + 1)) :
    Nat.ofDigits base (lowDigits base (rounds + 1) value) = value := by
  induction rounds generalizing value with
  | zero =>
      rw [Nat.zero_add, Nat.pow_one] at h
      rw [lowDigits, Nat.div_eq_of_lt h, if_neg (by simp), Nat.ofDigits_singleton, Nat.mod_eq_of_lt h]
  | succ rounds ih =>
      rw [lowDigits, Nat.ofDigits_cons]
      by_cases hmore : value / base ≠ 0
      · rw [if_pos hmore, ih (Nat.div_lt_of_lt_mul (by rwa [Nat.pow_succ'] at h)), Nat.mod_add_div]
      · rw [if_neg hmore, Nat.ofDigits_nil, Nat.mul_zero, Nat.add_zero]
        have hdiv := Nat.mod_add_div value base
        rwa [not_not.mp hmore, Nat.mul_zero, Nat.add_zero] at hdiv

example : uintToBase 0xB8000 16 = "B8000".toList := by decide +kernel

/-! ## What a call touches -/

/-- `a` is one of the `n` bytes from `start` on. -/
def Within (a start n : Nat) : Prop := start ≤ a ∧ a < start + n

namespace Boot

variable {k k₁ k₂ : Boot} {R S : Nat → Prop} {lo hi lo' hi' : Nat}

/-- Only bytes in `R` and the cells behind the cursor are written, and only bytes between `lo`
and `hi` are read. -/
structure Touches (R : Nat → Prop) (lo hi : Nat) (k k' : Boot) : Prop where
  cell_le : k.cell ≤ k'.cell
  mem_eq : ∀ a, ¬R a → (∀ j, k.cell ≤ j → j < k'.cell → a ≠ video + 2 * j) → k'.mem a = k.mem a
  reads : ∃ l, k'.reads = k.reads ++ l ∧ ∀ r ∈ l, lo ≤ r.1 ∧ r.1 + r.2 ≤ hi

theorem Touches.refl (k : Boot) : Touches R lo hi k k :=
  ⟨Nat.le_refl _, fun _ _ _ => rfl, [], by simp, by simp⟩

theorem Touches.trans (h : Touches R lo hi k k₁) (h' : Touches R lo hi k₁ k₂) :
    Touches R lo hi k k₂ := by
  have hle := h.cell_le
  have hle' := h'.cell_le
  obtain ⟨l, hl, hin⟩ := h.reads
  obtain ⟨l', hl', hin'⟩ := h'.reads
  refine ⟨Nat.le_trans hle hle', fun a ha hcells => ?_, l ++ l', ?_, fun r hr => ?_⟩
  · rw [h'.mem_eq a ha fun j hj hj' => hcells j (by omega) hj',
      h.mem_eq a ha fun j hj hj' => hcells j hj (by omega)]
  · rw [hl', hl, List.append_assoc]
  · exact (List.mem_append.mp hr).elim (hin r) (hin' r)

theorem Touches.mono (h : Touches R lo hi k k₁) (hR : ∀ a, R a → S a) (hlo : lo' ≤ lo)
    (hhi : hi ≤ hi') : Touches S lo' hi' k k₁ := by
  obtain ⟨l, hl, hin⟩ := h.reads
  refine ⟨h.cell_le, fun a ha => h.mem_eq a (mt (hR a) ha), l, hl, fun r hr => ?_⟩
  have := hin r hr
  omega

/-! ## Messages -/

/-- The first cell of the line below. -/
def nextLine (cell : Nat) : Nat := (cell / screenWidth + 1) * screenWidth

theorem touches_ncPrintChar (k : Boot) (character : Char) :
    Touches R lo hi k (k.ncPrintChar character) :=
  ⟨Nat.le_succ _, fun _ _ hcells => update_of_ne (hcells _ (Nat.le_refl _) (Nat.lt_succ_self _)) _ _,
    [], by simp [ncPrintChar], by simp⟩

theorem touches_ncPrint (k : Boot) (string : List Char) : Touches R lo hi k (k.ncPrint string) := by
  induction string generalizing k with
  | nil => exact .refl k
  | cons c string ih => exact (touches_ncPrintChar k c).trans (ih (k.ncPrintChar c))

theorem cell_ncPrint (k : Boot) (string : List Char) :
    (k.ncPrint string).cell = k.cell + string.length := by
  induction string generalizing k with
  | nil => rfl
  | cons c string ih =>
      have hrest : (k.ncPrint (c :: string)).cell = k.cell + 1 + string.length := ih (k.ncPrintChar c)
      rw [hrest, List.length_cons]
      omega

theorem touches_ncNewlineLoop (rounds : Nat) (k : Boot) :
    Touches R lo hi k (ncNewlineLoop rounds k) := by
  induction rounds generalizing k with
  | zero => exact .refl k
  | succ rounds ih =>
      rw [ncNewlineLoop]
      split
      · exact (touches_ncPrintChar k ' ').trans (ih _)
      · exact touches_ncPrintChar k ' '

/-- As many rounds as a line has cells are enough. -/
theorem cell_ncNewlineLoop {rounds : Nat} (k : Boot) (h : screenWidth ≤ k.cell % screenWidth + rounds) :
    (ncNewlineLoop rounds k).cell = nextLine k.cell := by
  induction rounds generalizing k with
  | zero => exact absurd (Nat.mod_lt k.cell (by decide : 0 < screenWidth)) (by omega)
  | succ rounds ih =>
      have hcell : (k.ncPrintChar ' ').cell = k.cell + 1 := rfl
      have hcolumn : ((k.ncPrintChar ' ').currentVideo - video) % (screenWidth * 2) =
          2 * ((k.cell + 1) % screenWidth) := by
        rw [currentVideo, hcell]
        simp only [screenWidth]
        omega
      simp only [ncNewlineLoop, hcolumn]
      simp only [screenWidth] at h ⊢
      split
      · rw [ih _ (by rw [hcell]; simp only [screenWidth]; omega), hcell]
        simp only [nextLine, screenWidth]
        omega
      · rw [hcell]
        simp only [nextLine, screenWidth]
        omega

theorem cell_ncNewline (k : Boot) : k.ncNewline.cell = nextLine k.cell :=
  cell_ncNewlineLoop k (Nat.le_add_left _ _)

/-! ## `memcpy` -/

/-- The loop copies the bytes of its elements, if they are not in the destination. -/
theorem copyLoop_mem (size dst src rounds i : Nat) (k : Boot)
    (h : ∀ a, Within a (src + size * i) (size * rounds) → ¬Within a (dst + size * i) (size * rounds)) :
    (copyLoop size dst src rounds i k).mem =
      move k.mem (dst + size * i) (src + size * i) (size * rounds) := by
  simp only [Within] at h
  induction rounds generalizing i k with
  | zero =>
      funext a
      rw [copyLoop, Nat.mul_zero, move_outside (by omega)]
  | succ rounds ih =>
      have hdst : dst + size * (i + 1) = dst + size * i + size := by rw [Nat.mul_succ, Nat.add_assoc]
      have hsrc : src + size * (i + 1) = src + size * i + size := by rw [Nat.mul_succ, Nat.add_assoc]
      rw [Nat.mul_succ] at h
      rw [copyLoop, ih, copyElement, hdst, hsrc, store_load, move_move, Nat.mul_succ, Nat.add_comm (size * rounds)]
      · intro b hb
        have := h (src + size * i + size + b) (by omega)
        omega
      · rw [hdst, hsrc]
        intro a ha
        have := h a (by omega)
        omega

theorem touches_copyElement (size dst src i : Nat) (k : Boot) :
    Touches (Within · (dst + size * i) size) (src + size * i) (src + size * i + size) k
      (copyElement size dst src i k) := by
  refine ⟨Nat.le_refl _, fun a ha _ => store_outside ?_, _, rfl, fun r hr => ?_⟩
  · simp only [Within] at ha
    omega
  · obtain rfl := List.mem_singleton.mp hr
    exact ⟨Nat.le_refl _, Nat.le_refl _⟩

theorem touches_copyLoop (size dst src rounds i : Nat) (k : Boot) :
    Touches (Within · (dst + size * i) (size * rounds)) (src + size * i)
      (src + size * i + size * rounds) k (copyLoop size dst src rounds i k) := by
  induction rounds generalizing i k with
  | zero => exact .refl k
  | succ rounds ih =>
      have hmul : size * (i + 1) = size * i + size := Nat.mul_succ size i
      have hmul' : size * (rounds + 1) = size * rounds + size := Nat.mul_succ size rounds
      refine Touches.trans ((touches_copyElement size dst src i k).mono (fun a ha => ?_) ?_ ?_)
        ((ih (i + 1) (copyElement size dst src i k)).mono (fun a ha => ?_) ?_ ?_)
      · simp only [Within, hmul'] at ha ⊢
        omega
      · omega
      · omega
      · simp only [Within, hmul, hmul'] at ha ⊢
        omega
      · omega
      · omega

theorem cell_copyLoop (size dst src rounds i : Nat) :
    (copyLoop size dst src rounds i k).cell = k.cell := by
  induction rounds generalizing i k with
  | zero => rfl
  | succ rounds ih => exact ih (i + 1)

/-- By words or by bytes, `length` bytes are copied. -/
theorem memcpy_spec (k : Boot) (dst src length : Nat)
    (h : ∀ a, Within a src length → ¬Within a dst length) :
    (k.memcpy dst src length).mem = move k.mem dst src length ∧
      Touches (Within · dst length) src (src + length) k (k.memcpy dst src length) ∧
      (k.memcpy dst src length).cell = k.cell := by
  have hloop : ∀ size rounds, size * rounds = length →
      (copyLoop size dst src rounds 0 k).mem = move k.mem dst src length ∧
        Touches (Within · dst length) src (src + length) k (copyLoop size dst src rounds 0 k) ∧
        (copyLoop size dst src rounds 0 k).cell = k.cell := by
    intro size rounds hlength
    have hmem := copyLoop_mem size dst src rounds 0 k
    have htouches := touches_copyLoop size dst src rounds 0 k
    simp only [Nat.mul_zero, Nat.add_zero, hlength] at hmem htouches
    exact ⟨hmem h, htouches, cell_copyLoop size dst src rounds 0⟩
  unfold memcpy
  split
  next haligned => exact hloop 4 (length / 4) (by omega)
  next => exact hloop 1 length (Nat.one_mul length)

/-! ## `loadModule` -/

/-- What is printed before the copy. -/
def copyMessage (module target size : Nat) : List (List Char) :=
  ["  Will copy module at 0x".toList, uintToBase module 16, " to 0x".toList,
    uintToBase target 16, " (".toList, uintToBase size 10, " bytes)".toList]

/-- What is printed behind it. -/
def doneMessage : List Char := " [Done]".toList

/-- The cell of the cursor behind the message for a module. -/
def messageEnd (cell module target size : Nat) : Nat :=
  nextLine (cell + (copyMessage module target size).flatten.length + doneMessage.length)

theorem touches_foldl_ncPrint (k : Boot) (strings : List (List Char)) :
    Touches R lo hi k (strings.foldl ncPrint k) := by
  induction strings generalizing k with
  | nil => exact .refl k
  | cons s strings ih => exact (touches_ncPrint k s).trans (ih (k.ncPrint s))

theorem cell_foldl_ncPrint (k : Boot) (strings : List (List Char)) :
    (strings.foldl ncPrint k).cell = k.cell + strings.flatten.length := by
  induction strings generalizing k with
  | nil => rfl
  | cons s strings ih =>
      rw [List.foldl_cons, ih, cell_ncPrint, List.flatten_cons, List.length_append, Nat.add_assoc]

theorem loadModule_eq (k : Boot) (module target : Nat) :
    k.loadModule module target =
      (module + 4 + load k.mem module 4,
        ((((copyMessage (module + 4) target (load k.mem module 4)).foldl ncPrint
          (k.readUint32 module).2.2).memcpy target (module + 4) (load k.mem module 4)).ncPrint
            doneMessage).ncNewline) := rfl

/-- A printed cell is not one of the bytes. -/
theorem Touches.bytesAt {a : Nat} {m : List UInt8} (h : Touches (fun _ => False) lo hi k k₁)
    (hbytes : BytesAt k.mem a m)
    (hcells : ∀ j, k.cell ≤ j → j < k₁.cell → ¬Within (video + 2 * j) a m.length) :
    BytesAt k₁.mem a m := by
  refine hbytes.congr fun i hi => h.mem_eq _ id fun j hj hj' he => hcells j hj hj' ?_
  rw [← he, Within]
  omega

/-- A module at `module`, whose size stands in front, is copied to `target`. -/
theorem loadModule_spec (target : Nat) {module : Nat} {m : List UInt8} (hm : m.length < 2 ^ 32)
    (h : BytesAt k.mem module (record 4 m))
    (hapart : ∀ a, Within a target m.length → ¬Within a module (4 + m.length))
    (hcells : ∀ j, k.cell ≤ j → j < messageEnd k.cell (module + 4) target m.length →
      ¬Within (video + 2 * j) module (4 + m.length) ∧ ¬Within (video + 2 * j) target m.length) :
    (k.loadModule module target).1 = module + 4 + m.length ∧
      (k.loadModule module target).2.cell = messageEnd k.cell (module + 4) target m.length ∧
      BytesAt (k.loadModule module target).2.mem target m ∧
      Touches (Within · target m.length) module (module + 4 + m.length) k
        (k.loadModule module target).2 := by
  obtain ⟨hsize, hbytes⟩ := record_read h (by simpa using hm)
  rw [loadModule_eq, hsize]
  generalize hk₁ : (k.readUint32 module).2.2 = k₁
  generalize hk₂ : (copyMessage (module + 4) target m.length).foldl ncPrint k₁ = k₂
  generalize hk₃ : k₂.memcpy target (module + 4) m.length = k₃
  generalize hk₄ : (k₃.ncPrint doneMessage).ncNewline = k₄
  have hread : Touches (fun _ => False) module (module + 4 + m.length) k k₁ := by
    rw [← hk₁]
    refine ⟨Nat.le_refl _, fun _ _ _ => rfl, _, rfl, fun r hr => ?_⟩
    obtain rfl := List.mem_singleton.mp hr
    exact ⟨Nat.le_refl _, Nat.le_add_right _ _⟩
  have hbefore : Touches (fun _ => False) module (module + 4 + m.length) k₁ k₂ :=
    hk₂ ▸ touches_foldl_ncPrint k₁ _
  have hafter : Touches (fun _ => False) module (module + 4 + m.length) k₃ k₄ :=
    hk₄ ▸ (touches_ncPrint k₃ _).trans (touches_ncNewlineLoop screenWidth _)
  obtain ⟨hmove, hcopy, hcell₃⟩ := memcpy_spec k₂ target (module + 4) m.length
    fun a ha ha' => hapart a ha' (by simp only [Within] at ha ⊢; omega)
  rw [hk₃] at hmove hcopy hcell₃
  have hcell₁ : k₁.cell = k.cell := by rw [← hk₁]; rfl
  have hcell₂ : k₂.cell = k.cell + (copyMessage (module + 4) target m.length).flatten.length := by
    rw [← hk₂, cell_foldl_ncPrint, hcell₁]
  have hcell₄ : k₄.cell = messageEnd k.cell (module + 4) target m.length := by
    rw [← hk₄, cell_ncNewline, cell_ncPrint, hcell₃, hcell₂, messageEnd]
  have hle := hafter.cell_le
  -- the bytes of the module are still there when they are copied
  have hbytes₂ : BytesAt k₂.mem (module + 4) m := by
    refine (hread.trans hbefore).bytesAt hbytes fun j hj hj' hin => ?_
    refine (hcells j hj (by omega)).1 ?_
    simp only [Within] at hin ⊢
    omega
  have hbytes₃ : BytesAt k₃.mem target m := by
    intro i hi
    rw [hmove, move_inside hi]
    exact hbytes₂ i hi
  refine ⟨rfl, hcell₄, ?_, ?_⟩
  · exact hafter.bytesAt hbytes₃ fun j hj hj' => (hcells j (by omega) (by omega)).2
  · refine Touches.trans ((hread.trans hbefore).mono (fun _ ha => ha.elim) (Nat.le_refl _)
      (Nat.le_refl _)) (Touches.trans (hcopy.mono (fun _ ha => ha) (by omega) (by omega))
        (hafter.mono (fun _ ha => ha.elim) (Nat.le_refl _) (Nat.le_refl _)))

/-! ## `loadModules` -/

/-- The cell of the cursor behind the messages for modules that stand at `module`, one behind
the other, and are copied to the given targets. -/
def screenEnd : Nat → Nat → List (Nat × List UInt8) → Nat
  | cell, _, [] => cell
  | cell, module, (target, m) :: placed =>
      screenEnd (messageEnd cell (module + 4) target m.length) (module + 4 + m.length) placed

theorem le_messageEnd (cell module target size : Nat) :
    cell ≤ messageEnd cell module target size := by
  rw [messageEnd]
  simp only [nextLine, screenWidth]
  omega

theorem le_screenEnd (cell module : Nat) (placed : List (Nat × List UInt8)) :
    cell ≤ screenEnd cell module placed := by
  induction placed generalizing cell module with
  | nil => exact Nat.le_refl cell
  | cons p placed ih => exact Nat.le_trans (le_messageEnd _ _ _ _) (ih _ _)

/-- `a` is in the target region of a module. -/
def InTargets (placed : List (Nat × List UInt8)) (a : Nat) : Prop :=
  ∃ p ∈ placed, Within a p.1 p.2.length

/-- No two target regions have a byte in common. -/
def Apart (placed : List (Nat × List UInt8)) : Prop :=
  placed.Pairwise fun p q => ∀ a, Within a p.1 p.2.length → ¬Within a q.1 q.2.length

theorem inTargets_cons {target a : Nat} {m : List UInt8} {placed : List (Nat × List UInt8)} :
    InTargets ((target, m) :: placed) a ↔ Within a target m.length ∨ InTargets placed a := by
  simp [InTargets]

/-- The target regions, the bytes from `lo` to `hi` and the cells of the messages are apart. -/
structure Clear (lo hi cell module : Nat) (placed : List (Nat × List UInt8)) : Prop where
  image : ∀ a, InTargets placed a → ¬(lo ≤ a ∧ a < hi)
  apart : Apart placed
  cells : ∀ j, cell ≤ j → j < screenEnd cell module placed →
    ¬(lo ≤ video + 2 * j ∧ video + 2 * j < hi) ∧ ¬InTargets placed (video + 2 * j)

/-- They are for the modules behind the first one. -/
theorem Clear.tail {cell module target : Nat} {m : List UInt8} {placed : List (Nat × List UInt8)}
    (h : Clear lo hi cell module ((target, m) :: placed)) :
    Clear lo hi (messageEnd cell (module + 4) target m.length) (module + 4 + m.length) placed := by
  refine ⟨fun a ha => h.image a (inTargets_cons.mpr (Or.inr ha)), (List.pairwise_cons.mp h.apart).2,
    fun j hj hj' => ?_⟩
  obtain ⟨himage, htargets⟩ := h.cells j (Nat.le_trans (le_messageEnd _ _ _ _) hj) hj'
  exact ⟨himage, fun ht => htargets (inTargets_cons.mpr (Or.inr ht))⟩

/-- Neither the cells of the first message nor the first target are in the image, and no such
cell is in that target. -/
theorem Clear.head {cell module target : Nat} {m : List UInt8} {placed : List (Nat × List UInt8)}
    (h : Clear lo hi cell module ((target, m) :: placed)) :
    (∀ a, Within a target m.length → ¬(lo ≤ a ∧ a < hi)) ∧
      ∀ j, cell ≤ j → j < messageEnd cell (module + 4) target m.length →
        ¬(lo ≤ video + 2 * j ∧ video + 2 * j < hi) ∧ ¬Within (video + 2 * j) target m.length := by
  refine ⟨fun a ha => h.image a (inTargets_cons.mpr (Or.inl ha)), fun j hj hj' => ?_⟩
  obtain ⟨himage, htargets⟩ := h.cells j hj (Nat.lt_of_lt_of_le hj' (le_screenEnd _ _ _))
  exact ⟨himage, fun ht => htargets (inTargets_cons.mpr (Or.inl ht))⟩

/-- What was copied to the first target stays there while the others are copied. -/
theorem Clear.kept {cell module target : Nat} {m : List UInt8} {placed : List (Nat × List UInt8)}
    (h : Clear lo hi cell module ((target, m) :: placed)) (hplaced : BytesAt k.mem target m)
    (hcell : k.cell = messageEnd cell (module + 4) target m.length)
    (hcell' : k₁.cell = screenEnd cell module ((target, m) :: placed))
    (htouches : Touches (InTargets placed) lo hi k k₁) : BytesAt k₁.mem target m := by
  have hle := le_messageEnd cell (module + 4) target m.length
  refine hplaced.congr fun i hi => htouches.mem_eq _ (fun ht => ?_) fun j hj hj' he => ?_
  · obtain ⟨q, hq, hq'⟩ := ht
    exact (List.pairwise_cons.mp h.apart).1 q hq _
      ⟨Nat.le_add_right _ _, Nat.add_lt_add_left hi target⟩ hq'
  · refine (h.cells j (by omega) (hcell' ▸ hj')).2 (inTargets_cons.mpr (Or.inl ?_))
    rw [← he]
    exact ⟨Nat.le_add_right _ _, Nat.add_lt_add_left hi target⟩

/-- The modules in a row are copied to their targets. -/
theorem loadLoop_spec {modules : List (List UInt8)} {targets : List Nat} {module : Nat}
    (hsize : ∀ m ∈ modules, m.length < 2 ^ 32) (hcount : modules.length ≤ targets.length)
    (h : BytesAt k.mem module (modules.flatMap (record 4))) (hlo : lo ≤ module)
    (hhi : module + (modules.flatMap (record 4)).length ≤ hi)
    (hclear : Clear lo hi k.cell module (targets.zip modules)) :
    ∃ k', loadLoop modules.length targets (module, k) = some k' ∧
      k'.cell = screenEnd k.cell module (targets.zip modules) ∧
      (∀ p ∈ targets.zip modules, BytesAt k'.mem p.1 p.2) ∧
      Touches (InTargets (targets.zip modules)) lo hi k k' := by
  induction modules generalizing k targets module with
  | nil =>
      rw [List.zip_nil_right]
      exact ⟨k, rfl, rfl, fun _ hp => absurd hp List.not_mem_nil, .refl k⟩
  | cons m modules ih =>
      cases targets with
      | nil => exact absurd hcount (by simp)
      | cons target targets =>
          rw [List.zip_cons_cons] at hclear ⊢
          obtain ⟨hfirst, hrest⟩ := flatMap_record_read h
          rw [List.flatMap_cons, List.length_append, length_record] at hhi
          obtain ⟨htarget, hcells⟩ := hclear.head
          obtain ⟨hnext, hcell, hplaced, htouches⟩ := loadModule_spec (k := k) target
            (hsize m List.mem_cons_self) hfirst
            (fun a ha hm => htarget a ha (by simp only [Within] at hm; omega))
            fun j hj hj' => by
              refine ⟨fun hm => (hcells j hj hj').1 ?_, (hcells j hj hj').2⟩
              simp only [Within] at hm
              omega
          generalize hrun : k.loadModule module target = r at hnext hcell hplaced htouches
          -- the modules that are left are still in the image
          have hrest' : BytesAt r.2.mem (module + 4 + m.length) (modules.flatMap (record 4)) := by
            refine hrest.congr fun i hi => htouches.mem_eq _ (fun ht => ?_) fun j hj hj' he => ?_
            · exact htarget _ ht (by omega)
            · exact (hcells j hj (hcell ▸ hj')).1 (by omega)
          obtain ⟨k', hloop, hcell', hplaced', htouches'⟩ := ih
            (fun m' hm' => hsize m' (List.mem_cons_of_mem m hm')) (Nat.le_of_succ_le_succ hcount)
            hrest' (by omega) (by omega) (hcell ▸ hclear.tail)
          have hr : r = (module + 4 + m.length, r.2) := Prod.ext hnext rfl
          have hcell'' : k'.cell = screenEnd k.cell module ((target, m) :: targets.zip modules) := by
            rw [hcell', hcell, screenEnd]
          refine ⟨k', by rw [List.length_cons, loadLoop, hrun, hr, hloop], hcell'', fun p hp => ?_, ?_⟩
          · rcases List.mem_cons.mp hp with rfl | hp
            · exact hclear.kept hplaced hcell hcell'' htouches'
            · exact hplaced' p hp
          · exact (htouches.mono (fun _ ha => inTargets_cons.mpr (Or.inl ha)) hlo (by omega)).trans
              (htouches'.mono (fun _ ha => inTargets_cons.mpr (Or.inr ha)) (Nat.le_refl _)
                (Nat.le_refl _))

/-! ## The image -/

/-- Where the image is loaded. -/
abbrev loadAddress : Nat := 0x100000

/-- The image is in the memory, and there is a target for each module.  The target regions are
disjoint, and disjoint from the image. -/
structure Loadable (fileArray : FileArray) (targets : List Nat) (k : Boot) : Prop where
  sizes : ∀ m ∈ fileArray.modules, m.length < 2 ^ 32
  image : BytesAt k.mem loadAddress (buildImage fileArray)
  targets_le : fileArray.modules.length ≤ targets.length
  apart : Apart (targets.zip fileArray.modules)
  outside : ∀ a, InTargets (targets.zip fileArray.modules) a →
    ¬Within a loadAddress (buildImage fileArray).length

/-- The cells of the messages are apart from the image and from the target regions. -/
def ScreenApart (fileArray : FileArray) (targets : List Nat) (k : Boot) : Prop :=
  ∀ j, k.cell ≤ j →
    j < screenEnd k.cell (loadAddress + fileArray.kernel.length + 4)
      (targets.zip fileArray.modules) →
    ¬Within (video + 2 * j) loadAddress (buildImage fileArray).length ∧
      ¬InTargets (targets.zip fileArray.modules) (video + 2 * j)

/-- Each module is at its target, and nothing behind the image was read. -/
structure Loaded (fileArray : FileArray) (targets : List Nat) (k k' : Boot) : Prop where
  modules : ∀ (i : Nat) (m : List UInt8) (target : Nat), fileArray.modules[i]? = some m →
    targets[i]? = some target → BytesAt k'.mem target m
  reads : ∃ l, k'.reads = k.reads ++ l ∧
    ∀ r ∈ l, loadAddress ≤ r.1 ∧ r.1 + r.2 ≤ loadAddress + (buildImage fileArray).length

/-- `loadModules` on the image of `buildImage` copies each module to its target, reads the
image only, and writes the target regions and the cells of its messages only. -/
theorem loadModules_buildImage {fileArray : FileArray} {targets : List Nat} {k : Boot}
    (h : Loadable fileArray targets k) (hscreen : ScreenApart fileArray targets k) :
    ∃ k', k.loadModules (loadAddress + fileArray.kernel.length) targets = some k' ∧
      Loaded fileArray targets k k' ∧
      ∀ a, ¬InTargets (targets.zip fileArray.modules) a →
        (∀ j, k.cell ≤ j →
          j < screenEnd k.cell (loadAddress + fileArray.kernel.length + 4)
            (targets.zip fileArray.modules) →
          a ≠ video + 2 * j) →
        k'.mem a = k.mem a := by
  have himage := buildImage_eq fileArray h.sizes
  have hbytes := h.image
  rw [himage, bytesAt_append] at hbytes
  have hlength : fileArray.modules.length < 256 ^ 4 := by
    have := fileArray.length_lt
    omega
  obtain ⟨hmoduleCount, hrecords⟩ := records_read hbytes.2 hlength
  have hend : loadAddress + (buildImage fileArray).length =
      loadAddress + fileArray.kernel.length + 4 +
        (fileArray.modules.flatMap (record 4)).length := by
    rw [himage, records, List.length_append, List.length_append, length_number]
    omega
  have hclear : Clear loadAddress (loadAddress + (buildImage fileArray).length) k.cell
      (loadAddress + fileArray.kernel.length + 4) (targets.zip fileArray.modules) :=
    ⟨h.outside, h.apart, hscreen⟩
  obtain ⟨k', hloop, hcell, hplaced, htouches⟩ := loadLoop_spec
    (k := (k.readUint32 (loadAddress + fileArray.kernel.length)).2.2) h.sizes h.targets_le hrecords
    (by omega) (by omega) hclear
  have hread : Touches (InTargets (targets.zip fileArray.modules)) loadAddress
      (loadAddress + (buildImage fileArray).length) k
      (k.readUint32 (loadAddress + fileArray.kernel.length)).2.2 := by
    refine ⟨Nat.le_refl _, fun _ _ _ => rfl, _, rfl, fun r hr => ?_⟩
    obtain rfl := List.mem_singleton.mp hr
    exact ⟨Nat.le_add_right _ _, by simp only; omega⟩
  have hall := hread.trans htouches
  refine ⟨k', ?_, ⟨fun i m target hm ht => ?_, hall.reads⟩, fun a ha hcells => ?_⟩
  · rw [loadModules, readUint32, hmoduleCount]
    exact hloop
  · exact hplaced (target, m) (List.mem_of_getElem? (List.getElem?_zip_eq_some.mpr ⟨ht, hm⟩))
  · exact hall.mem_eq a ha fun j hj hj' => hcells j hj (by rw [hcell] at hj'; exact hj')

/-- A kernel of one byte and a module of one byte. -/
def twoBytes : FileArray := ⟨[0x90], [[7]], by decide⟩

/-- Their image at the load address. -/
def twoBytesLoaded : Boot :=
  ⟨fun a => if loadAddress ≤ a then [0x90, 1, 0, 0, 0, 1, 0, 0, 0, 7].getD (a - loadAddress) 0 else 0,
    0, []⟩

theorem buildImage_twoBytes : buildImage twoBytes = [0x90, 1, 0, 0, 0, 1, 0, 0, 0, 7] :=
  (buildImage_eq twoBytes (by decide)).trans (by decide)

theorem inTargets_twoBytes {a : Nat} (h : InTargets ([0x400000].zip twoBytes.modules) a) :
    a = 0x400000 := by
  obtain ⟨p, hp, hlo, hhi⟩ := h
  obtain rfl : p = (0x400000, [7]) := List.mem_singleton.mp hp
  exact Nat.le_antisymm (Nat.le_of_lt_succ hhi) hlo

theorem loadable_twoBytes : Loadable twoBytes [0x400000] twoBytesLoaded := by
  refine ⟨by decide, ?_, by decide, List.pairwise_singleton _ _, fun a ha => ?_⟩
  · rw [buildImage_twoBytes, BytesAt]
    decide +kernel
  · rw [inTargets_twoBytes ha, buildImage_twoBytes]
    rw [Within]
    decide

theorem screenApart_twoBytes : ScreenApart twoBytes [0x400000] twoBytesLoaded := by
  have hend : screenEnd twoBytesLoaded.cell (loadAddress + twoBytes.kernel.length + 4)
      ([0x400000].zip twoBytes.modules) = 80 := by decide +kernel
  intro j _ hj
  rw [hend] at hj
  refine ⟨fun hin => ?_, fun hin => ?_⟩
  · have : loadAddress ≤ video + 2 * j := hin.1
    simp only [loadAddress, video] at this
    omega
  · have := inTargets_twoBytes hin
    simp only [video] at this
    omega

theorem loadModules_twoBytes :
    ∃ k', twoBytesLoaded.loadModules (loadAddress + 1) [0x400000] = some k' ∧
      k'.mem 0x400000 = 7 := by
  obtain ⟨k', hload, hloaded, -⟩ := loadModules_buildImage loadable_twoBytes screenApart_twoBytes
  exact ⟨k', hload, hloaded.modules 0 [7] 0x400000 rfl rfl 0 (by decide)⟩

/-- The message is written to the screen, which is no target. -/
theorem message_changes_screen :
    ¬∀ (fileArray : FileArray) (targets : List Nat) (k : Boot), Loadable fileArray targets k →
      ∃ k', k.loadModules (loadAddress + fileArray.kernel.length) targets = some k' ∧
        Loaded fileArray targets k k' ∧
        ∀ a, ¬InTargets (targets.zip fileArray.modules) a → k'.mem a = k.mem a := by
  intro hall
  obtain ⟨k', hload, -, hsame⟩ := hall twoBytes [0x400000] twoBytesLoaded loadable_twoBytes
  have hcell : (twoBytesLoaded.loadModules (loadAddress + twoBytes.kernel.length) [0x400000]).map
      (fun k => k.mem video) = some 32 := by decide +kernel
  rw [hload, Option.map_some, hsame video fun h => absurd (inTargets_twoBytes h) (by decide)] at hcell
  revert hcell
  decide

end Boot

end TPE
