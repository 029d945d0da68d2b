import TPE.Library.WordStack
import TPE.Kernel.AllocatorRuns
import TPE.Kernel.Process

/-!
# Switching the context

The assembly of `interrupts.asm` and `fill_stack`.  An interrupt pushes the
context of the running process on that process's stack: the processor pushes
what `iretq` pops, and `pushState` pushes the registers.  Whoever is to run next
is resumed from its stack pointer by `popState` and `iretq`.

`fill_stack` writes such a context for a process that never ran.

The gates of the interrupts are interrupt gates of the kernel's own privilege
level, so no stack is switched, and the processor aligns the stack pointer to 16
bytes before it pushes.  Faults of `iretq` and of the segment loads are left out.
-/

namespace TPE

open WordStack

open ByteMemory (load)

open Kernel (fillStack)

/-! ## Registers -/

/-- The registers that `pushState` pushes. -/
inductive Reg where
  | rax | rbx | rcx | rdx | rbp | rdi | rsi
  | r8 | r9 | r10 | r11 | r12 | r13 | r14 | r15
  | fs | gs
deriving DecidableEq, Repr

/-- `fs` and `gs` are segment selectors. -/
def Reg.width : Reg → Nat
  | .fs | .gs => 16
  | _ => 64

theorem Reg.width_le (r : Reg) : r.width ≤ 64 := by
  cases r <;> decide

abbrev Regs := RegFile Reg.width

/-- The context of a process. -/
@[ext]
structure Cpu where
  regs : Regs
  rip : BitVec 64
  cs : BitVec 16
  rflags : BitVec 64
  rsp : BitVec 64
  ss : BitVec 16

/-! ## Saving a context -/

/-- The pushes of `pushState`, in their order. -/
def pushStateRegs : List Reg :=
  [.rax, .rbx, .rcx, .rdx, .rbp, .rdi, .rsi, .r8, .r9, .r10, .r11, .r12, .r13, .r14, .r15, .fs, .gs]

/-- The pops of `popState`, in their order. -/
def popStateRegs : List Reg :=
  [.gs, .fs, .r15, .r14, .r13, .r12, .r11, .r10, .r9, .r8, .rsi, .rdi, .rbp, .rdx, .rcx, .rbx, .rax]

/-- `pushState` -/
def pushState (regs : Regs) (s : Stack) : Stack := saveRegs pushStateRegs regs s

/-- `popState` -/
def popState (regs : Regs) (s : Stack) : Regs × Stack := restoreRegs popStateRegs regs s

theorem popStateRegs_eq : popStateRegs = pushStateRegs.reverse := rfl

theorem mem_popStateRegs (r : Reg) : r ∈ popStateRegs := by
  cases r <;> decide

/-- What the processor pushes when it enters an interrupt, from the top down. -/
def Cpu.hardwareWords (c : Cpu) : List Nat :=
  [c.ss.toNat, c.rsp.toNat, c.rflags.toNat, c.cs.toNat, c.rip.toNat]

/-- The processor enters an interrupt gate: it aligns the stack and pushes. -/
def enterInterrupt (c : Cpu) (mem : Nat → UInt8) : Stack :=
  pushAll ⟨mem, c.rsp.toNat - c.rsp.toNat % 16⟩ c.hardwareWords

/-- `iretq` -/
def iretq (regs : Regs) (s : Stack) : Cpu :=
  let (rip, s) := pop s
  let (cs, s) := pop s
  let (rflags, s) := pop s
  let (rsp, s) := pop s
  let (ss, _) := pop s
  { regs
    rip := BitVec.ofNat 64 rip
    cs := BitVec.ofNat 16 cs
    rflags := BitVec.ofNat 64 rflags
    rsp := BitVec.ofNat 64 rsp
    ss := BitVec.ofNat 16 ss }

/-- An interrupt up to the end of `pushState`. -/
def saveContext (c : Cpu) (mem : Nat → UInt8) : Stack := pushState c.regs (enterInterrupt c mem)

/-- `_change_process(rsp)`, the end of every handler: `mov rsp`, `popState` and
`iretq`.  The registers `left` are what the C functions left in them. -/
def changeProcess (left : Regs) (mem : Nat → UInt8) (rsp : Nat) : Cpu :=
  let (regs, s) := popState left ⟨mem, rsp⟩
  iretq regs s

/-! ## The saved context -/

/-- The words of a saved context, from the stack pointer up. -/
def Cpu.frame (c : Cpu) : List Nat := regWords c.regs popStateRegs ++ c.hardwareWords.reverse

/-- The bytes of a saved context. -/
abbrev frameSize : Nat := 176

variable {c : Cpu} {left : Regs} {mem : Nat → UInt8} {sp b : Nat}

theorem length_frame (c : Cpu) : 8 * c.frame.length = frameSize := by
  simp [Cpu.frame, Cpu.hardwareWords, popStateRegs]

theorem Cpu.hardwareWords_lt (c : Cpu) : ∀ w ∈ c.hardwareWords, w < 2 ^ 64 := by
  have hcs := c.cs.isLt
  have hss := c.ss.isLt
  simp only [hardwareWords, List.forall_mem_cons, List.not_mem_nil, false_imp_iff, implies_true,
    and_true]
  exact ⟨by omega, c.rsp.isLt, c.rflags.isLt, by omega, c.rip.isLt⟩

/-- The context that `iretq` loads. -/
theorem iretq_eq {regs : Regs} {s : Stack} (hlt : s.sp + 40 < 2 ^ 64)
    (hat : WordsAt s.mem s.sp c.hardwareWords.reverse) : iretq regs s = { c with regs } := by
  obtain ⟨hrip, hcs, hflags, hrsp, hss, -⟩ := hat
  have hone : s.sp + 8 < 2 ^ 64 := by omega
  have htwo : s.sp + 8 + 8 < 2 ^ 64 := by omega
  have hthree : s.sp + 8 + 8 + 8 < 2 ^ 64 := by omega
  have hfour : s.sp + 8 + 8 + 8 + 8 < 2 ^ 64 := by omega
  simp only [iretq, pop, Nat.mod_eq_of_lt hone, Nat.mod_eq_of_lt htwo, Nat.mod_eq_of_lt hthree,
    Nat.mod_eq_of_lt hfour, hrip, hcs, hflags, hrsp, hss, BitVec.ofNat_toNat, BitVec.setWidth_eq]

/-- A handler that pops the registers `rs` restores these and what `iretq` loads. -/
theorem iretq_restoreRegs {rs : List Reg} (hlt : sp + 8 * rs.length + 40 < 2 ^ 64)
    (hat : WordsAt mem sp (regWords c.regs rs ++ c.hardwareWords.reverse)) :
    iretq (restoreRegs rs left ⟨mem, sp⟩).1 (restoreRegs rs left ⟨mem, sp⟩).2 =
      { c with regs := fun r => if r ∈ rs then c.regs r else left r } := by
  obtain ⟨hregs, hhard⟩ := wordsAt_append.mp hat
  rw [length_regWords] at hhard
  have hpop : restoreRegs rs left ⟨mem, sp⟩ =
      (fun r => if r ∈ rs then c.regs r else left r, ⟨mem, sp + 8 * rs.length⟩) :=
    restoreRegs_eq (by simp only; omega) hregs
  rw [hpop]
  exact iretq_eq hlt hhard

/-- What a handler that pushes the registers `rs` makes of the stack: the context
stands below the old stack pointer, and every other byte is as before. -/
theorem saveRegs_interrupt (rs : List Reg) (c : Cpu) (mem : Nat → UInt8)
    (hroom : 8 * rs.length + 40 + 15 ≤ c.rsp.toNat) :
    (saveRegs rs c.regs (enterInterrupt c mem)).sp =
      c.rsp.toNat - c.rsp.toNat % 16 - (8 * rs.length + 40) ∧
    WordsAt (saveRegs rs c.regs (enterInterrupt c mem)).mem
      (c.rsp.toNat - c.rsp.toNat % 16 - (8 * rs.length + 40))
      (regWords c.regs rs.reverse ++ c.hardwareWords.reverse) ∧
    ∀ b, b < c.rsp.toNat - c.rsp.toNat % 16 - (8 * rs.length + 40) ∨ c.rsp.toNat ≤ b →
      (saveRegs rs c.regs (enterInterrupt c mem)).mem b = mem b := by
  have hlt := c.rsp.isLt
  have hmod := Nat.mod_lt c.rsp.toNat (show 0 < 16 by decide)
  have hhard : 8 * c.hardwareWords.length = 40 := rfl
  obtain ⟨hsp₁, hat₁, hout₁⟩ := pushAll_spec (s := ⟨mem, c.rsp.toNat - c.rsp.toNat % 16⟩)
    (by rw [hhard]; simp only; omega) (by simp only; omega) c.hardwareWords_lt
  rw [hhard] at hsp₁ hat₁ hout₁
  simp only at hsp₁ hat₁ hout₁
  have hbase : (enterInterrupt c mem).sp = c.rsp.toNat - c.rsp.toNat % 16 - 40 := hsp₁
  have hregs : 8 * (regWords c.regs rs).length = 8 * rs.length := by rw [length_regWords]
  obtain ⟨hsp₂, hat₂, hout₂⟩ := pushAll_spec (s := enterInterrupt c mem) (by omega) (by omega)
    (regWords_lt Reg.width_le c.regs rs)
  rw [hregs, hbase] at hsp₂ hat₂ hout₂
  have hsp : c.rsp.toNat - c.rsp.toNat % 16 - (8 * rs.length + 40) =
      c.rsp.toNat - c.rsp.toNat % 16 - 40 - 8 * rs.length := by omega
  rw [hsp]
  refine ⟨hsp₂, ?_, fun b hb => ?_⟩
  · have hrev : regWords c.regs rs.reverse = (regWords c.regs rs).reverse := List.map_reverse
    have htop : c.rsp.toNat - c.rsp.toNat % 16 - 40 - 8 * rs.length +
        8 * (regWords c.regs rs.reverse).length = c.rsp.toNat - c.rsp.toNat % 16 - 40 := by
      rw [length_regWords, List.length_reverse]
      omega
    rw [wordsAt_append, htop, hrev]
    refine ⟨hat₂, hat₁.congr fun b hge _ => ?_⟩
    exact hout₂ b (Or.inr hge)
  · refine (hout₂ b (by omega)).trans ?_
    exact hout₁ b (by omega)

/-- Whoever is resumed from a saved context has that context, whatever is in the
registers before. -/
theorem changeProcess_eq (hlt : sp + frameSize < 2 ^ 64) (hat : WordsAt mem sp c.frame) :
    changeProcess left mem sp = c := by
  have hlen : 8 * popStateRegs.length + 40 = frameSize := rfl
  have hall : (fun r => if r ∈ popStateRegs then c.regs r else left r) = c.regs := by
    funext r
    rw [if_pos (mem_popStateRegs r)]
  refine (iretq_restoreRegs (by omega) hat).trans ?_
  rw [hall]

/-- What an interrupt makes of the stack: the context stands below the old stack
pointer, and every other byte is as before. -/
theorem saveContext_spec (c : Cpu) (mem : Nat → UInt8) (hroom : frameSize + 15 ≤ c.rsp.toNat) :
    (saveContext c mem).sp = c.rsp.toNat - c.rsp.toNat % 16 - frameSize ∧
    WordsAt (saveContext c mem).mem (saveContext c mem).sp c.frame ∧
    ∀ b, b < (saveContext c mem).sp ∨ c.rsp.toNat ≤ b → (saveContext c mem).mem b = mem b := by
  have hlen : 8 * pushStateRegs.length + 40 = frameSize := rfl
  obtain ⟨hsp, hat, hout⟩ := saveRegs_interrupt pushStateRegs c mem (by omega)
  rw [hlen] at hsp hat hout
  have hsp' : (saveContext c mem).sp = c.rsp.toNat - c.rsp.toNat % 16 - frameSize := hsp
  rw [hsp', Cpu.frame, popStateRegs_eq]
  exact ⟨rfl, hat, hout⟩

/-! ## A process that never ran -/

/-- `StackFrame` -/
structure StackFrame where
  gs : Nat
  fs : Nat
  r15 : Nat
  r14 : Nat
  r13 : Nat
  r12 : Nat
  r11 : Nat
  r10 : Nat
  r9 : Nat
  r8 : Nat
  rsi : Nat
  rdi : Nat
  rbp : Nat
  rdx : Nat
  rcx : Nat
  rbx : Nat
  rax : Nat
  rip : Nat
  cs : Nat
  eflags : Nat
  rsp : Nat
  ss : Nat
  base : Nat

/-- The fields in the order in which they are in memory. -/
def StackFrame.words (f : StackFrame) : List Nat :=
  [f.gs, f.fs, f.r15, f.r14, f.r13, f.r12, f.r11, f.r10, f.r9, f.r8, f.rsi, f.rdi, f.rbp, f.rdx,
    f.rcx, f.rbx, f.rax, f.rip, f.cs, f.eflags, f.rsp, f.ss, f.base]

/-- What `fill_stack` writes into the frame at the end of the stack page. -/
def newFrame (rip stackPage params : Nat) : StackFrame where
  gs := 0x001
  fs := 0x002
  r15 := 0x003
  r14 := 0x004
  r13 := 0x005
  r12 := 0x006
  r11 := 0x007
  r10 := 0x008
  r9 := 0x009
  r8 := 0x00A
  rsi := 0x00B
  rdi := params
  rbp := 0x00D
  rdx := 0x00E
  rcx := 0x00F
  rbx := 0x010
  rax := 0x011
  rip
  cs := 0x008
  eflags := 0x202
  -- the address of `base`
  rsp := (fillStack stackPage + 22 * 8) % 2 ^ 64
  ss := 0x000
  base := 0x000

/-- The memory after `fill_stack(rip, stack_page, params)`. -/
def writeFrame (mem : Nat → UInt8) (rip stackPage params : Nat) : Nat → UInt8 :=
  storeWords mem (fillStack stackPage) (newFrame rip stackPage params).words

/-- The registers of a process that never ran. -/
def newRegs (params : BitVec 64) : Regs
  | .gs => 0x001
  | .fs => 0x002
  | .r15 => 0x003
  | .r14 => 0x004
  | .r13 => 0x005
  | .r12 => 0x006
  | .r11 => 0x007
  | .r10 => 0x008
  | .r9 => 0x009
  | .r8 => 0x00A
  | .rsi => 0x00B
  | .rdi => params
  | .rbp => 0x00D
  | .rdx => 0x00E
  | .rcx => 0x00F
  | .rbx => 0x010
  | .rax => 0x011

/-- The context in which a process starts: at its entry point, with its
parameter as first argument, with interrupts enabled and an empty stack. -/
def Cpu.start (rip params : BitVec 64) (stackPage : Nat) : Cpu where
  regs := newRegs params
  rip
  cs := 0x008
  rflags := 0x202
  rsp := BitVec.ofNat 64 (stackPage - 8)
  ss := 0x000

theorem fillStack_eq {page : Nat} (hle : 184 ≤ page) (hlt : page < 2 ^ 64) :
    fillStack page = page - 184 := by
  unfold fillStack
  omega

/-- The frame is the saved context of the start, with the word `base` above. -/
theorem newFrame_words (rip params : BitVec 64) {page : Nat} (hle : 184 ≤ page)
    (hlt : page < 2 ^ 64) :
    (newFrame rip.toNat page params.toNat).words = (Cpu.start rip params page).frame ++ [0] := by
  have hrsp : (fillStack page + 22 * 8) % 2 ^ 64 = page - 8 := by
    rw [fillStack_eq hle hlt]
    omega
  have hmod : (page - 8) % 2 ^ 64 = page - 8 := Nat.mod_eq_of_lt (by omega)
  simp only [StackFrame.words, newFrame, hrsp, Cpu.frame, Cpu.hardwareWords, Cpu.start, regWords,
    popStateRegs, newRegs, List.map_cons, List.map_nil, List.reverse_cons, List.reverse_nil,
    List.nil_append, List.cons_append, BitVec.toNat_ofNat, hmod]
  rfl

/-- `fill_stack` writes the context in which the process is to start and the word
`base` above it, and nothing outside of the frame. -/
theorem writeFrame_spec (mem : Nat → UInt8) (rip params : BitVec 64) {page : Nat}
    (hle : 184 ≤ page) (hlt : page < 2 ^ 64) :
    WordsAt (writeFrame mem rip.toNat page params.toNat) (fillStack page)
      (Cpu.start rip params page).frame ∧
    load (writeFrame mem rip.toNat page params.toNat) (page - 8) 8 = 0 ∧
    ∀ b, b < page - 184 ∨ page ≤ b → writeFrame mem rip.toNat page params.toNat b = mem b := by
  have hwords := newFrame_words rip params hle hlt
  have hlen : 8 * (newFrame rip.toNat page params.toNat).words.length = 184 := rfl
  have hat : WordsAt (writeFrame mem rip.toNat page params.toNat) (fillStack page)
      (newFrame rip.toNat page params.toNat).words := by
    refine wordsAt_storeWords ?_
    have hrip := rip.isLt
    have hparams := params.isLt
    simp only [StackFrame.words, newFrame, List.forall_mem_cons, List.not_mem_nil,
      false_imp_iff, implies_true, and_true]
    omega
  rw [hwords] at hat
  obtain ⟨hframe, hbase, -⟩ := wordsAt_append.mp hat
  have hsize : frameSize = 176 := rfl
  have htop : fillStack page + frameSize = page - 8 := by
    rw [fillStack_eq hle hlt]
    omega
  rw [length_frame, htop] at hbase
  refine ⟨hframe, hbase, fun b hb => ?_⟩
  refine storeWords_outside ?_
  rw [hlen, fillStack_eq hle hlt]
  omega

end TPE
