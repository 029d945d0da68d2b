import TPE.Library.Runs
import TPE.Kernel.Foreground
import TPE.Kernel.KeyboardDriver

/-!
# Waiting for a key

`sys_read` of the standard input by one process, with keyboard interrupts
between any two of its statements.  When `get_char` returns -1 the process marks
itself `BLOCKED_READ`, and the interrupt that stores the next key wakes the
process in the foreground up.

From the -1 on the process is committed to the block, and a key with a character
that is in the buffer by then does not wake it up.  `NothingMissed` collects the
three ways such a key gets there: it is behind a key without a character, it is
pressed before the block, or it is pressed while another process is in the
foreground.
-/

namespace TPE

open Function

/-! ## The reader -/

/-- The next statement of the process in `sys_read`. -/
inductive ReadPoint where
  | idle
  /-- The test of the foreground. -/
  | entered
  /-- `block_foreground_process` -/
  | blockingForeground
  /-- `yield_process` -/
  | yieldingForeground
  /-- `while (i < bytes)` -/
  | looping
  /-- `if (buff_size == 0)` -/
  | testing
  /-- `char k = buffer[ret_index++]` -/
  | taking
  /-- `buff_size--` -/
  | counting (key : Int)
  /-- The test of `ret_index`. -/
  | wrapping (key : Int)
  /-- `return chooseKeyboard(k)` -/
  | choosing (key : Int)
  /-- `if (c != -1)` -/
  | gotten (c : Int)
  /-- `_sti` -/
  | enabling
  /-- `block_read_process` -/
  | blocking
  /-- `yield_process` -/
  | yielding
deriving DecidableEq, Repr

namespace ReadPoint

/-- The keys that are taken and not counted down yet. -/
def held : ReadPoint → Nat
  | .counting _ => 1
  | _ => 0

/-- `ret_index` may be at the end of the array. -/
def Unwrapped : ReadPoint → Prop
  | .counting _ => True
  | .wrapping _ => True
  | _ => False

/-- `get_char` returns -1 or has returned it, and the process will block itself. -/
def Committed : ReadPoint → Prop
  | .counting key => ¬Printable key
  | .wrapping key => ¬Printable key
  | .choosing key => ¬Printable key
  | .gotten c => c = -1
  | .enabling => True
  | .blocking => True
  | _ => False

instance : (pt : ReadPoint) → Decidable pt.Committed
  | .counting key => inferInstanceAs (Decidable (¬Printable key))
  | .wrapping key => inferInstanceAs (Decidable (¬Printable key))
  | .choosing key => inferInstanceAs (Decidable (¬Printable key))
  | .gotten c => inferInstanceAs (Decidable (c = -1))
  | .enabling | .blocking => isTrue trivial
  | .idle | .entered | .blockingForeground | .yieldingForeground | .looping | .testing
  | .taking | .yielding => isFalse id

end ReadPoint

/-- The kernel, the driver and the call of `sys_read`. -/
structure KeyboardRun where
  k : Kernel
  kb : Keyboard
  point : ReadPoint
  /-- `buffer` -/
  buffer : Nat → Int
  bytes : Nat
  i : Nat

/-- What can happen in one step. -/
inductive ReadAction where
  /-- The keyboard interrupt. -/
  | interrupt (code : UInt8)
  /-- The scheduler dispatches the process of a node. -/
  | dispatch (node : Addr)
  /-- The reader calls `sys_read`. -/
  | call (bytes : Nat)
  /-- The reader does the next statement of its call. -/
  | advance

namespace Kernel

/-- What `store_scancode` does to the processes. -/
def keyEffect (k : Kernel) : KeyEffect → Kernel
  | .nothing => k
  | .escape => k.storeEscape
  | .wake => { k with processes := Procs.unblockReadProcess k.processes k.foreground }

end Kernel

namespace KeyboardRun

/-- `store_scancode` -/
def interrupt (s : KeyboardRun) (code : UInt8) : KeyboardRun :=
  let (effect, kb) := s.kb.storeScancode code
  { s with kb, k := s.k.keyEffect effect }

/-- The next statement of the process `p` in `sys_read`. -/
def advance (p : Addr) (s : KeyboardRun) : Option KeyboardRun :=
  match s.point with
  | .idle => none
  | .entered =>
      some { s with point := if p ≠ s.k.foreground then .blockingForeground else .looping }
  | .blockingForeground =>
      some { s with
        k := { s.k with processes := Procs.blockForegroundProcess s.k.processes p }
        point := .yieldingForeground }
  | .yieldingForeground =>
      if s.k.processes.isBlockedProcess p then none else some { s with point := .looping }
  | .looping => some { s with point := if s.i < s.bytes then .testing else .idle }
  | .testing => some { s with point := if s.kb.size = 0 then .gotten (-1) else .taking }
  | .taking => some { s with kb := s.kb.takeKey.2, point := .counting s.kb.takeKey.1 }
  | .counting key => some { s with kb := s.kb.countKey, point := .wrapping key }
  | .wrapping key => some { s with kb := s.kb.wrapRet, point := .choosing key }
  | .choosing key => some { s with point := .gotten (s.kb.flags.chooseKeyboard key) }
  | .gotten c =>
      some (if c ≠ -1 then
        { s with buffer := update s.buffer s.i c, i := (s.i + 1) % 2 ^ 32, point := .looping }
      else { s with point := .enabling })
  | .enabling => some { s with point := .blocking }
  | .blocking =>
      some { s with
        k := { s.k with processes := Procs.blockReadProcess s.k.processes p }
        point := .yielding }
  | .yielding =>
      if s.k.processes.isBlockedProcess p then none else some { s with point := .looping }

/-- The keys in the buffer. -/
def keys (s : KeyboardRun) : List Int := s.kb.keys s.point.held

end KeyboardRun

/-- The process `p` reads from the keyboard, again and again. -/
def keyboardSystem (p : Addr) : System KeyboardRun ReadAction where
  init s := p ≠ null ∧ (s.k.processes p).st ≠ .blockedRead ∧ s.kb = .start ∧ s.point = .idle
  next
    | s, .interrupt code => some (s.interrupt code)
    | s, .dispatch node =>
        if s.k.Dispatchable node then some { s with k := { s.k with current := node } } else none
    | s, .call bytes =>
        if s.k.getCurrentProcess = p ∧ s.point = .idle then
          some { s with point := .entered, bytes, i := 0 }
        else none
    | s, .advance => if s.k.getCurrentProcess = p then s.advance p else none

/-- `get_char` takes no key without a character in front of one with a character.
And no key with a character is stored while the process is committed to the
block, or sleeps and is not in the foreground. -/
def NothingMissed (p : Addr) (s : KeyboardRun) : ReadAction → Prop
  | .advance => s.point = .taking → ∀ key rest, s.keys = key :: rest → ¬Printable key →
      ∀ c ∈ rest, ¬Printable c
  | .interrupt code => s.kb.size < buffSize → ∀ c, storedKey code = some c → Printable c →
      ¬s.point.Committed ∧ ((s.k.processes p).st = .blockedRead → s.k.foreground = p)
  | _ => True

/-! ## The invariant -/

namespace KeyboardRun

/-- No key in the buffer has a character. -/
def NothingPrintable (s : KeyboardRun) : Prop := ∀ c ∈ s.keys, ¬Printable c

/-- A process that is committed to the block, or sleeps, leaves no key with a
character behind. -/
structure Inv (p : Addr) (s : KeyboardRun) : Prop where
  ne_null : p ≠ null
  buffer : s.kb.Inv s.point.held
  ret_le : s.kb.retIndex ≤ buffSize
  ret_lt : ¬s.point.Unwrapped → s.kb.retIndex < buffSize
  taking : s.point = .taking → s.kb.size ≠ 0
  committed : s.point.Committed → s.NothingPrintable
  sleeping : (s.k.processes p).st = .blockedRead → s.point = .yielding ∧ s.NothingPrintable

variable {p : Addr} {s t : KeyboardRun}

theorem Inv.start (h : (keyboardSystem p).init s) : s.Inv p := by
  obtain ⟨hp, hst, hkb, hpt⟩ := h
  refine ⟨hp, ?_, ?_, ?_, ?_, ?_, fun hr => absurd hr hst⟩
  · rw [hkb, hpt]
    exact Keyboard.start_inv
  · rw [hkb]
    exact Nat.zero_le _
  · rw [hkb]
    exact fun _ => show 0 < buffSize by decide
  · simp [hpt]
  · simp [hpt, ReadPoint.Committed]

/-- A process that is not at the end of its block is awake. -/
theorem Inv.awake (h : s.Inv p) (hpt : s.point ≠ .yielding) :
    (s.k.processes p).st ≠ .blockedRead :=
  fun hst => hpt (h.sleeping hst).1

/-! ## The interrupt -/

/-- No interrupt puts a process to sleep. -/
theorem blockedRead_of_keyEffect {k : Kernel} {effect : KeyEffect}
    (h : ((k.keyEffect effect).processes p).st = .blockedRead) :
    (k.processes p).st = .blockedRead := by
  cases effect with
  | nothing => exact h
  | escape =>
      simp only [Kernel.keyEffect, Kernel.storeEscape, Kernel.setForegroundForceProcess] at h
      split at h
      next =>
        rcases Procs.MayUnblock.unblockForegroundProcess k.processes
          (k.getProcessByPid (k.ppidProcess k.foreground)) p with hq | ⟨-, hq⟩
        · exact hq ▸ h
        · simp [hq] at h
      next => exact h
  | wake =>
      simp only [Kernel.keyEffect, Procs.unblockReadProcess] at h
      split at h
      next hfg =>
        by_cases hp : p = k.foreground
        · exact hp ▸ hfg
        · rwa [Procs.unblockProcess_of_ne hp] at h
      next => exact h

/-- A stored key wakes the process in the foreground up. -/
theorem keyEffect_wake {k : Kernel} (hp : k.foreground ≠ null) :
    ((k.keyEffect .wake).processes k.foreground).st ≠ .blockedRead := by
  simp only [Kernel.keyEffect, Procs.unblockReadProcess]
  split
  next hst =>
    rw [Procs.unblockProcess_st_self hp (by simp [hst])]
    decide
  next hst => exact hst

/-- The key that is stored is the last one in the buffer. -/
theorem keys_interrupt (h : s.kb.Inv s.point.held) (hroom : s.kb.size < buffSize) (code : UInt8) :
    (s.interrupt code).keys = s.keys ++ (storedKey code).toList :=
  (h.storeScancode hroom code).2.2.1

theorem NothingPrintable.interrupt (hs : s.NothingPrintable) (h : s.kb.Inv s.point.held)
    (hroom : s.kb.size < buffSize) {code : UInt8}
    (hkey : ∀ c, storedKey code = some c → ¬Printable c) :
    (s.interrupt code).NothingPrintable := by
  intro c hc
  rw [keys_interrupt h hroom, List.mem_append] at hc
  rcases hc with hold | hnew
  · exact hs c hold
  · exact hkey c (by simpa using hnew)

theorem Inv.interrupt (h : s.Inv p) {code : UInt8}
    (hguard : NothingMissed p s (.interrupt code)) : (s.interrupt code).Inv p := by
  by_cases hfull : s.kb.size = buffSize
  · have hsame : s.interrupt code = s := by
      simp [KeyboardRun.interrupt, Keyboard.storeScancode, hfull, Kernel.keyEffect]
    rwa [hsame]
  · have hroom : s.kb.size < buffSize := Nat.lt_of_le_of_ne h.buffer.size_le hfull
    obtain ⟨heffect, hinv, hkeys, -, hret⟩ := h.buffer.storeScancode hroom code
    have hk : (s.interrupt code).k = s.k.keyEffect (effectOf code) :=
      congrArg s.k.keyEffect heffect
    refine ⟨h.ne_null, hinv, hret.symm ▸ h.ret_le, fun hu => hret.symm ▸ h.ret_lt hu,
      fun htaking => ?_, fun hcommitted => ?_, fun hst => ?_⟩
    · have hlen := congrArg List.length hkeys
      have hsize := h.taking htaking
      simp only [Keyboard.length_keys, List.length_append] at hlen
      show (s.kb.storeScancode code).2.size ≠ 0
      have hheld : s.point.held = 0 := by rw [show s.point = .taking from htaking]; rfl
      omega
    · exact (h.committed hcommitted).interrupt h.buffer hroom
        fun c hc hprint => (hguard hroom c hc hprint).1 hcommitted
    · rw [hk] at hst
      have hold := blockedRead_of_keyEffect hst
      obtain ⟨hpt, hnothing⟩ := h.sleeping hold
      refine ⟨hpt, hnothing.interrupt h.buffer hroom fun c hc hprint => ?_⟩
      -- the process is in the foreground, and the key wakes it up
      have hfg := (hguard hroom c hc hprint).2 hold
      have hne : getKey code ≠ escape := by
        intro he
        simp [storedKey, he] at hc
      have hwake : effectOf code = .wake := by simp [effectOf, hne, hc]
      rw [hwake, ← hfg] at hst
      exact keyEffect_wake (hfg ▸ h.ne_null) hst

/-! ## The statements of `sys_read` -/

/-- A step that leaves the driver alone. -/
theorem Inv.goto (h : s.Inv p) (hkb : t.kb = s.kb) (hheld : t.point.held = s.point.held)
    (hret : s.point.Unwrapped → t.point.Unwrapped)
    (htaking : t.point = .taking → s.kb.size ≠ 0)
    (hcommitted : t.point.Committed → s.point.Committed ∨ s.NothingPrintable)
    (hawake : (t.k.processes p).st ≠ .blockedRead) : t.Inv p := by
  have hkeys : t.keys = s.keys := by simp [keys, hkb, hheld]
  refine ⟨h.ne_null, ?_, ?_, fun hu => ?_, fun ht => ?_, fun hc => ?_,
    fun hst => absurd hst hawake⟩
  · rw [hkb, hheld]
    exact h.buffer
  · rw [hkb]
    exact h.ret_le
  · rw [hkb]
    exact h.ret_lt fun hs => hu (hret hs)
  · rw [hkb]
    exact htaking ht
  · rw [NothingPrintable, hkeys]
    exact (hcommitted hc).elim h.committed id

/-- `get_char` takes a key. -/
theorem Inv.takeKey (h : s.Inv p) (hpt : s.point = .taking)
    (hguard : NothingMissed p s .advance) :
    Inv p { s with kb := s.kb.takeKey.2, point := .counting s.kb.takeKey.1 } := by
  have hbuffer : s.kb.Inv 0 := by simpa [hpt, ReadPoint.held] using h.buffer
  have hlt : s.kb.retIndex < buffSize := h.ret_lt (by simp [hpt, ReadPoint.Unwrapped])
  obtain ⟨hinv, hkeys⟩ := hbuffer.takeKey (h.taking hpt) hlt
  have hfront : s.keys = s.kb.takeKey.1 :: s.kb.takeKey.2.keys 1 := by
    simpa [keys, hpt, ReadPoint.held] using hkeys
  exact ⟨h.ne_null, hinv, hlt, fun hu => absurd trivial hu, fun ht => (nomatch ht),
    fun hc => hguard hpt _ _ hfront hc, fun hst => absurd hst (h.awake (by simp [hpt]))⟩

/-- The key is counted down. -/
theorem Inv.countKey (h : s.Inv p) {key : Int} (hpt : s.point = .counting key) :
    Inv p { s with kb := s.kb.countKey, point := .wrapping key } := by
  have hbuffer : s.kb.Inv 1 := by simpa [hpt, ReadPoint.held] using h.buffer
  obtain ⟨hinv, hkeys⟩ := hbuffer.countKey
  have hsame : keys { s with kb := s.kb.countKey, point := .wrapping key } = s.keys := by
    simpa [keys, hpt, ReadPoint.held] using hkeys
  refine ⟨h.ne_null, hinv, h.ret_le, fun hu => absurd trivial hu, fun ht => (nomatch ht),
    fun hc => ?_, fun hst => absurd hst (h.awake (by simp [hpt]))⟩
  rw [NothingPrintable, hsame]
  exact h.committed (by rw [hpt]; exact hc)

/-- `ret_index` is back inside of the array. -/
theorem Inv.wrapRet (h : s.Inv p) {key : Int} (hpt : s.point = .wrapping key) :
    Inv p { s with kb := s.kb.wrapRet, point := .choosing key } := by
  have hbuffer : s.kb.Inv 0 := by simpa [hpt, ReadPoint.held] using h.buffer
  obtain ⟨hinv, hkeys, hlt⟩ := hbuffer.wrapRet h.ret_le
  have hsame : keys { s with kb := s.kb.wrapRet, point := .choosing key } = s.keys := by
    simpa [keys, hpt, ReadPoint.held] using hkeys
  refine ⟨h.ne_null, hinv, hlt.le, fun _ => hlt, fun ht => (nomatch ht), fun hc => ?_,
    fun hst => absurd hst (h.awake (by simp [hpt]))⟩
  rw [NothingPrintable, hsame]
  exact h.committed (by rw [hpt]; exact hc)

/-- The process falls asleep, with nothing to read. -/
theorem Inv.block (h : s.Inv p) (hpt : s.point = .blocking) :
    Inv p { s with
      k := { s.k with processes := Procs.blockReadProcess s.k.processes p }
      point := .yielding } := by
  have hbuffer : s.kb.Inv 0 := by simpa [hpt, ReadPoint.held] using h.buffer
  have hnothing := h.committed (by rw [hpt]; trivial)
  have hsame : s.keys = s.kb.keys 0 := by simp [keys, hpt, ReadPoint.held]
  refine ⟨h.ne_null, hbuffer, h.ret_le, fun _ => h.ret_lt (by simp [hpt, ReadPoint.Unwrapped]),
    fun ht => (nomatch ht), fun hc => hc.elim, fun _ => ⟨rfl, ?_⟩⟩
  rw [NothingPrintable, hsame] at hnothing
  exact hnothing

/-- Every statement keeps the invariant. -/
theorem Inv.advance (h : s.Inv p) (hguard : NothingMissed p s .advance)
    (ha : s.advance p = some t) : t.Inv p := by
  cases hpt : s.point with
  | idle => simp [KeyboardRun.advance, hpt] at ha
  | entered =>
      simp only [KeyboardRun.advance, hpt, Option.some.injEq] at ha
      subst ha
      have hawake := h.awake (by simp [hpt])
      split <;> exact h.goto rfl (by simp [hpt, ReadPoint.held])
        (by simp [hpt, ReadPoint.Unwrapped]) (by simp) (by simp [ReadPoint.Committed]) hawake
  | blockingForeground =>
      simp only [KeyboardRun.advance, hpt, Option.some.injEq] at ha
      subst ha
      have hawake : ((Procs.blockForegroundProcess s.k.processes p) p).st ≠ .blockedRead := by
        simp [Procs.blockForegroundProcess, h.ne_null]
      exact h.goto rfl (by simp [hpt, ReadPoint.held]) (by simp [hpt, ReadPoint.Unwrapped])
        (by simp) (by simp [ReadPoint.Committed]) hawake
  | yieldingForeground =>
      simp only [KeyboardRun.advance, hpt] at ha
      split at ha
      next => cases ha
      next =>
        cases ha
        exact h.goto rfl (by simp [hpt, ReadPoint.held]) (by simp [hpt, ReadPoint.Unwrapped])
          (by simp) (by simp [ReadPoint.Committed]) (h.awake (by simp [hpt]))
  | looping =>
      simp only [KeyboardRun.advance, hpt, Option.some.injEq] at ha
      subst ha
      have hawake := h.awake (by simp [hpt])
      split <;> exact h.goto rfl (by simp [hpt, ReadPoint.held])
        (by simp [hpt, ReadPoint.Unwrapped]) (by simp) (by simp [ReadPoint.Committed]) hawake
  | testing =>
      simp only [KeyboardRun.advance, hpt, Option.some.injEq] at ha
      subst ha
      have hawake := h.awake (by simp [hpt])
      split
      next hsize =>
        -- the buffer is empty
        have hnone : s.keys = [] := by simp [keys, Keyboard.keys, hsize]
        exact h.goto rfl (by simp [hpt, ReadPoint.held]) (by simp [hpt, ReadPoint.Unwrapped])
          (by simp) (fun _ => Or.inr (by simp [NothingPrintable, hnone])) hawake
      next hsize =>
        exact h.goto rfl (by simp [hpt, ReadPoint.held]) (by simp [hpt, ReadPoint.Unwrapped])
          (fun _ => hsize) (by simp [ReadPoint.Committed]) hawake
  | taking =>
      simp only [KeyboardRun.advance, hpt, Option.some.injEq] at ha
      exact ha ▸ h.takeKey hpt hguard
  | counting key =>
      simp only [KeyboardRun.advance, hpt, Option.some.injEq] at ha
      exact ha ▸ h.countKey hpt
  | wrapping key =>
      simp only [KeyboardRun.advance, hpt, Option.some.injEq] at ha
      exact ha ▸ h.wrapRet hpt
  | choosing key =>
      simp only [KeyboardRun.advance, hpt, Option.some.injEq] at ha
      subst ha
      have hcommitted : ReadPoint.Committed (.gotten (s.kb.flags.chooseKeyboard key)) →
          s.point.Committed := by
        rw [hpt]
        exact (KeyFlags.chooseKeyboard_eq_neg_one_iff s.kb.flags key).mp
      exact h.goto rfl (by simp [hpt, ReadPoint.held]) (by simp [hpt, ReadPoint.Unwrapped])
        (by simp) (fun hc => Or.inl (hcommitted hc)) (h.awake (by simp [hpt]))
  | gotten c =>
      simp only [KeyboardRun.advance, hpt, Option.some.injEq] at ha
      subst ha
      have hawake := h.awake (by simp [hpt])
      split
      next =>
        exact h.goto rfl (by simp [hpt, ReadPoint.held]) (by simp [hpt, ReadPoint.Unwrapped])
          (by simp) (by simp [ReadPoint.Committed]) hawake
      next hc =>
        exact h.goto rfl (by simp [hpt, ReadPoint.held]) (by simp [hpt, ReadPoint.Unwrapped])
          (by simp) (fun _ => Or.inl (by simpa [hpt, ReadPoint.Committed] using hc)) hawake
  | enabling =>
      simp only [KeyboardRun.advance, hpt, Option.some.injEq] at ha
      subst ha
      exact h.goto rfl (by simp [hpt, ReadPoint.held]) (by simp [hpt, ReadPoint.Unwrapped])
        (by simp) (fun _ => Or.inl (by simp [hpt, ReadPoint.Committed])) (h.awake (by simp [hpt]))
  | blocking =>
      simp only [KeyboardRun.advance, hpt, Option.some.injEq] at ha
      exact ha ▸ h.block hpt
  | yielding =>
      simp only [KeyboardRun.advance, hpt] at ha
      split at ha
      next => cases ha
      next hb =>
        cases ha
        have hawake : (s.k.processes p).st ≠ .blockedRead :=
          fun hst => hb fun _ => Or.inr (Or.inl hst)
        exact h.goto rfl (by simp [hpt, ReadPoint.held]) (by simp [hpt, ReadPoint.Unwrapped])
          (by simp) (by simp [ReadPoint.Committed]) hawake

/-- Every guarded step keeps the invariant. -/
theorem Inv.next {a : ReadAction} (h : s.Inv p) (hguard : NothingMissed p s a)
    (hn : (keyboardSystem p).next s a = some t) : t.Inv p := by
  cases a with
  | interrupt code => exact Option.some.inj hn ▸ h.interrupt hguard
  | dispatch node =>
      simp only [keyboardSystem] at hn
      split at hn
      next =>
        cases hn
        exact { h with }
      next => cases hn
  | call bytes =>
      simp only [keyboardSystem] at hn
      split at hn
      next hcall =>
        cases hn
        exact h.goto rfl (by simp [hcall.2, ReadPoint.held])
          (by simp [hcall.2, ReadPoint.Unwrapped]) (by simp) (by simp [ReadPoint.Committed])
          (h.awake (by simp [hcall.2]))
      next => cases hn
  | advance =>
      simp only [keyboardSystem] at hn
      split at hn
      next => exact h.advance hguard hn
      next => cases hn

theorem inv_of_reachBy (h : (keyboardSystem p).ReachBy (NothingMissed p) s) : s.Inv p :=
  h.invariant (fun _ => Inv.start) fun _ _ _ hi hg hn => hi.next hg hn

/-! ## What holds in every state -/

/-- A process that sleeps until a key comes leaves no key with a character in the
buffer. -/
def SleepsOnNothing (p : Addr) (s : KeyboardRun) : Prop :=
  (s.k.processes p).st = .blockedRead → s.NothingPrintable

/-- The first of two processes is in the foreground. -/
def keyboardStart : KeyboardRun where
  k := { Kernel.twoProcesses with foreground := 10 }
  kb := .start
  point := .idle
  buffer _ := 0
  bytes := 0
  i := 0

theorem init_keyboardStart : (keyboardSystem 10).init keyboardStart :=
  ⟨by decide, by decide, rfl, rfl⟩

/-- A test for the guard. -/
def missesNothing (p : Addr) (s : KeyboardRun) : ReadAction → Bool
  | .advance => decide (s.point ≠ .taking) || s.keys.tail.all fun c => decide (¬Printable c)
  | .interrupt code =>
      (storedKey code).all fun c => decide (¬Printable c) ||
        decide (¬s.point.Committed) && decide ((s.k.processes p).st ≠ .blockedRead)
  | _ => true

theorem nothingMissed_of_test (s : KeyboardRun) (a : ReadAction) (h : missesNothing p s a) :
    NothingMissed p s a := by
  cases a with
  | advance =>
      intro hpt key rest hkeys _ c hc
      simp only [missesNothing, hpt, hkeys, List.tail_cons, ne_eq, not_true, decide_false,
        Bool.false_or, List.all_eq_true, decide_eq_true_eq] at h
      exact h c hc
  | interrupt code =>
      intro _ c hc hprint
      simp only [missesNothing, hc, Option.all_some, hprint, not_true, decide_false, Bool.false_or,
        Bool.and_eq_true, decide_eq_true_eq] at h
      exact ⟨h.1, fun hst => absurd hst h.2⟩
  | dispatch node => trivial
  | call bytes => trivial

/-- A key is pressed, the process reads it and waits for the next one. -/
def oneKeyRead : Option KeyboardRun :=
  (keyboardSystem 10).executeBy (missesNothing 10) keyboardStart
    (.interrupt 30 :: .call 2 :: List.replicate 13 .advance)

end KeyboardRun

end TPE
