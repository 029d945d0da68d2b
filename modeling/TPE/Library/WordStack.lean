import TPE.Library.ByteMemory

/-!
# A stack of machine words

A stack grows down in a memory of bytes, and its pointer is a 64-bit number.
A word takes 8 bytes.

`WordsAt mem a ws` says that the words `ws` stand one above the other from `a`
on.  Pushed words stand there in the reverse order, and everything outside of
them is as before (`pushAll_spec`).

A register file maps each register to a number of the register's own width.
Registers are saved by pushing them and restored by popping into them, so a
list of registers is restored by the reverse list (`restoreRegs_eq`).
-/

namespace TPE

namespace WordStack

open ByteMemory Function

/-- A memory and a stack pointer. -/
structure Stack where
  mem : Nat → UInt8
  sp : Nat

/-! ## Words in a memory -/

/-- The words `ws` stand from `a` on. -/
def WordsAt (mem : Nat → UInt8) : Nat → List Nat → Prop
  | _, [] => True
  | a, w :: ws => load mem a 8 = w ∧ WordsAt mem (a + 8) ws

/-- Write the words `ws` from `a` on. -/
def storeWords (mem : Nat → UInt8) : Nat → List Nat → Nat → UInt8
  | _, [] => mem
  | a, w :: ws => storeWords (store mem a w 8) (a + 8) ws

variable {mem mem' : Nat → UInt8} {a b v : Nat} {ws : List Nat}

theorem wordsAt_append {vs : List Nat} :
    WordsAt mem a (vs ++ ws) ↔ WordsAt mem a vs ∧ WordsAt mem (a + 8 * vs.length) ws := by
  induction vs generalizing a with
  | nil => simp [WordsAt]
  | cons v vs ih =>
      have hend : a + 8 + 8 * vs.length = a + 8 * (v :: vs).length := by
        rw [List.length_cons]
        omega
      rw [List.cons_append, WordsAt, WordsAt, ih, hend, and_assoc]

/-- Words are read off the bytes they stand on. -/
theorem WordsAt.congr (h : WordsAt mem a ws)
    (hsame : ∀ b, a ≤ b → b < a + 8 * ws.length → mem' b = mem b) : WordsAt mem' a ws := by
  induction ws generalizing a with
  | nil => trivial
  | cons w ws ih =>
      rw [List.length_cons] at hsame
      obtain ⟨hw, hws⟩ := h
      refine ⟨?_, ih hws fun b hb hlt => hsame b (by omega) (by omega)⟩
      rw [← hw]
      exact load_congr fun i hi => hsame (a + i) (by omega) (by omega)

theorem storeWords_outside (h : b < a ∨ a + 8 * ws.length ≤ b) : storeWords mem a ws b = mem b := by
  induction ws generalizing mem a with
  | nil => rfl
  | cons w ws ih =>
      rw [List.length_cons] at h
      rw [storeWords, ih (by omega), store_outside (by omega)]

theorem wordsAt_storeWords (hw : ∀ w ∈ ws, w < 2 ^ 64) : WordsAt (storeWords mem a ws) a ws := by
  induction ws generalizing mem a with
  | nil => trivial
  | cons w ws ih =>
      have hlt : w < 256 ^ 8 := hw w List.mem_cons_self
      have hread : load (store mem a w 8) a 8 = w := load_store hlt
      refine ⟨?_, ih fun v hv => hw v (List.mem_cons_of_mem w hv)⟩
      refine Eq.trans (load_congr fun i hi => ?_) hread
      have hbelow : a + i < a + 8 := by omega
      exact storeWords_outside (Or.inl hbelow)

/-! ## Push and pop -/

/-- Push a word. -/
def push (s : Stack) (v : Nat) : Stack :=
  let sp := (s.sp + 2 ^ 64 - 8) % 2 ^ 64
  ⟨store s.mem sp v 8, sp⟩

/-- Pop a word. -/
def pop (s : Stack) : Nat × Stack := (load s.mem s.sp 8, { s with sp := (s.sp + 8) % 2 ^ 64 })

/-- Push one word after the other. -/
def pushAll (s : Stack) (ws : List Nat) : Stack := ws.foldl push s

variable {s : Stack}

/-- With room on the stack, the pointer does not wrap around. -/
theorem push_eq (hroom : 8 ≤ s.sp) (hlt : s.sp < 2 ^ 64) :
    push s v = ⟨store s.mem (s.sp - 8) v 8, s.sp - 8⟩ := by
  have hsp : (s.sp + 2 ^ 64 - 8) % 2 ^ 64 = s.sp - 8 := by omega
  simp only [push, hsp]

theorem pop_eq (hlt : s.sp + 8 < 2 ^ 64) (hw : WordsAt s.mem s.sp (v :: ws)) :
    pop s = (v, ⟨s.mem, s.sp + 8⟩) := by
  rw [pop, hw.1, Nat.mod_eq_of_lt hlt]

/-- Pushed words stand below the old pointer, the last one lowest, and all other
bytes are as before. -/
theorem pushAll_spec (hroom : 8 * ws.length ≤ s.sp) (hlt : s.sp < 2 ^ 64)
    (hw : ∀ w ∈ ws, w < 2 ^ 64) :
    (pushAll s ws).sp = s.sp - 8 * ws.length ∧
    WordsAt (pushAll s ws).mem (s.sp - 8 * ws.length) ws.reverse ∧
    ∀ b, b < s.sp - 8 * ws.length ∨ s.sp ≤ b → (pushAll s ws).mem b = s.mem b := by
  induction ws generalizing s with
  | nil => exact ⟨rfl, trivial, fun _ _ => rfl⟩
  | cons w ws ih =>
      rw [List.length_cons] at hroom
      have hpush := push_eq (v := w) (s := s) (by omega) hlt
      have hword : w < 256 ^ 8 := hw w List.mem_cons_self
      obtain ⟨hsp, hat, hout⟩ := ih (s := push s w) (by rw [hpush]; simp only; omega)
        (by rw [hpush]; simp only; omega) fun v hv => hw v (List.mem_cons_of_mem w hv)
      have hrun : pushAll s (w :: ws) = pushAll (push s w) ws := List.foldl_cons ..
      have hlen : s.sp - 8 * (w :: ws).length = s.sp - 8 - 8 * ws.length := by
        rw [List.length_cons]
        omega
      have htop : s.sp - 8 - 8 * ws.length + 8 * ws.reverse.length = s.sp - 8 := by
        rw [List.length_reverse]
        omega
      rw [hpush] at hsp hat hout
      simp only at hsp hat hout
      rw [hrun, hpush, hlen]
      refine ⟨hsp, ?_, fun b hb => ?_⟩
      · rw [List.reverse_cons, wordsAt_append, htop]
        refine ⟨hat, ?_, trivial⟩
        have hread : load (store s.mem (s.sp - 8) w 8) (s.sp - 8) 8 = w := load_store hword
        refine Eq.trans (load_congr fun i _ => ?_) hread
        exact hout (s.sp - 8 + i) (by omega)
      · rw [hout b (by omega)]
        exact store_outside (by omega)

/-! ## Registers -/

section Registers

variable {ι : Type*} {width : ι → Nat}

/-- The contents of the registers. -/
abbrev RegFile (width : ι → Nat) : Type _ := (r : ι) → BitVec (width r)

/-- The words that are pushed for the registers `rs`. -/
def regWords (f : RegFile width) (rs : List ι) : List Nat := rs.map fun r => (f r).toNat

/-- Push the registers `rs`. -/
def saveRegs (rs : List ι) (f : RegFile width) (s : Stack) : Stack := pushAll s (regWords f rs)

/-- Pop into the registers `rs`. -/
def restoreRegs [DecidableEq ι] : List ι → RegFile width → Stack → RegFile width × Stack
  | [], f, s => (f, s)
  | r :: rs, f, s => restoreRegs rs (update f r (BitVec.ofNat _ (pop s).1)) (pop s).2

@[simp] theorem length_regWords (f : RegFile width) (rs : List ι) :
    (regWords f rs).length = rs.length := List.length_map _

theorem regWords_lt (hwidth : ∀ r, width r ≤ 64) (f : RegFile width) (rs : List ι) :
    ∀ w ∈ regWords f rs, w < 2 ^ 64 := by
  intro w hw
  obtain ⟨r, -, rfl⟩ := List.mem_map.mp hw
  exact (f r).isLt.trans_le (Nat.pow_le_pow_right (by decide) (hwidth r))

/-- The registers whose words stand on the stack are restored, the others keep
what they have. -/
theorem restoreRegs_eq [DecidableEq ι] {rs : List ι} {f g : RegFile width} (hlt : s.sp + 8 * rs.length < 2 ^ 64)
    (hat : WordsAt s.mem s.sp (regWords f rs)) :
    restoreRegs rs g s = (fun r => if r ∈ rs then f r else g r, ⟨s.mem, s.sp + 8 * rs.length⟩) := by
  induction rs generalizing s g with
  | nil => simp [restoreRegs]
  | cons q rs ih =>
      rw [List.length_cons] at hlt
      have hpop : pop s = ((f q).toNat, ⟨s.mem, s.sp + 8⟩) := pop_eq (by omega) hat
      have hend : s.sp + 8 + 8 * rs.length = s.sp + 8 * (q :: rs).length := by
        rw [List.length_cons]
        omega
      rw [restoreRegs, hpop, ih (by simp only; omega) hat.2, hend, BitVec.ofNat_toNat,
        BitVec.setWidth_eq]
      congr 1
      funext r
      by_cases hr : r ∈ rs
      · rw [if_pos hr, if_pos (List.mem_cons_of_mem q hr)]
      · rw [if_neg hr]
        by_cases hq : r = q
        · subst hq
          rw [update_self, if_pos List.mem_cons_self]
        · rw [update_of_ne hq, if_neg fun h => (List.mem_cons.mp h).elim hq hr]

end Registers

end WordStack

end TPE
