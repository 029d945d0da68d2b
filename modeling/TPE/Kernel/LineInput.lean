import TPE.Library.Runs
import TPE.Kernel.Stdio

/-!
# One line buffer for all processes

Any number of processes in `getchar`, with the steps of all of them in any
order.  `buffer` and `buffi` are static, so there is one of each.  The index of
`fill_buffer` is a local variable, and a process keeps it while it waits for a
character.

`left p` is the value of `buffi` that process `p` left, and `writer` tells which
process stored an element last.  A process gets the characters of its own input
as long as it finds `buffi` as it left it and the elements as it stored them.
-/

namespace TPE

open Function Stdio

/-! ## The steps of `getchar` -/

/-- The next statement of a process. -/
inductive LinePoint where
  | idle
  /-- `if (buffi == 0)` -/
  | entered
  /-- `sys_read`, with the index of `fill_buffer`. -/
  | filling (i : Nat)
  /-- The body of the loop. -/
  | typed (i : Nat) (c : UInt8)
  /-- `c = buffer[buffi++]` -/
  | loading
  /-- `if (c == '\n' || buffi == BUFFER_SIZE)` -/
  | gotten (c : UInt8)
  /-- `buffi = 0` -/
  | resetting (c : UInt8)
deriving DecidableEq, Repr

/-- The process is in `fill_buffer` with the index `i`. -/
def LinePoint.HasIndex (pt : LinePoint) (i : Nat) : Prop :=
  pt = .filling i ∨ ∃ c, pt = .typed i c

/-- The static variables, and for each process its next statement, the characters it has not
read and the characters `getchar` has returned to it. -/
structure LineRun (ι : Type*) where
  io : Stdin
  point : ι → LinePoint
  input : ι → List UInt8
  out : ι → List UInt8
  left : ι → Nat
  writer : Nat → Option ι

namespace LineRun

variable {ι : Type*} [DecidableEq ι]

/-- The next statement of process `p`. -/
def next (s : LineRun ι) (p : ι) : Option (LineRun ι) :=
  match s.point p with
  | .idle => some { s with point := update s.point p .entered }
  | .entered =>
      some { s with point := update s.point p (if s.io.buffi = 0 then .filling 0 else .loading) }
  | .filling i =>
      match s.input p with
      | [] => none
      | c :: input =>
          some { s with
            point := update s.point p (.typed i c)
            input := update s.input p input }
  | .typed i c =>
      let f := fillBody c ⟨i, s.io.buffer, s.io.screen⟩
      some { s with
        io := { s.io with buffer := f.buffer, screen := f.screen }
        point := update s.point p
          (if c ≠ newline ∧ f.i < bufferSize - 1 then .filling f.i else .loading)
        writer := if c = backspace then s.writer else update s.writer i (some p) }
  | .loading =>
      some { s with
        io := { s.io with buffi := s.io.buffi + 1 }
        point := update s.point p (.gotten (s.io.buffer s.io.buffi))
        left := update s.left p (s.io.buffi + 1) }
  | .gotten c =>
      if c = newline ∨ s.io.buffi = bufferSize then
        some { s with point := update s.point p (.resetting c) }
      else
        some { s with
          point := update s.point p .idle
          out := update s.out p (s.out p ++ [c]) }
  | .resetting c =>
      some { s with
        io := { s.io with buffi := 0 }
        point := update s.point p .idle
        out := update s.out p (s.out p ++ [c])
        left := update s.left p 0 }

end LineRun

variable {ι : Type*} [DecidableEq ι]

/-- Before any call.  `input p` is what the calls of `sys_read` return to process `p`. -/
def LineRun.start (t : Stdin) (input : ι → List UInt8) : LineRun ι :=
  ⟨{ t with buffi := 0 }, fun _ => .idle, input, fun _ => [], fun _ => 0, fun _ => none⟩

/-- The processes in `getchar`. -/
def lineSystem (t : Stdin) (input : ι → List UInt8) : System (LineRun ι) ι where
  init s := s = .start t input
  next := LineRun.next

namespace LineRun

/-- At its next statement `p` finds `buffi` as it left it, and loads an element that it
stored last, or the last one, which is never stored. -/
def OwnLook (s : LineRun ι) (p : ι) : LinePoint → Prop
  | .entered => s.io.buffi = s.left p
  | .loading =>
      s.io.buffi = s.left p ∧ (s.writer s.io.buffi = some p ∨ s.io.buffi = bufferSize - 1)
  | .gotten c => c = newline ∨ s.io.buffi = s.left p
  | _ => True

instance (s : LineRun ι) (p : ι) : (pt : LinePoint) → Decidable (s.OwnLook p pt)
  | .idle => inferInstanceAs (Decidable True)
  | .entered => inferInstanceAs (Decidable (_ = _))
  | .filling _ => inferInstanceAs (Decidable True)
  | .typed _ _ => inferInstanceAs (Decidable True)
  | .loading => inferInstanceAs (Decidable (_ ∧ (_ ∨ _)))
  | .gotten _ => inferInstanceAs (Decidable (_ ∨ _))
  | .resetting _ => inferInstanceAs (Decidable True)

/-- So does every step of `p`.  Nothing is said of the other processes. -/
def OwnLooks (p : ι) (s : LineRun ι) (a : ι) : Prop := a = p → s.OwnLook p (s.point p)

instance (p : ι) (s : LineRun ι) (a : ι) : Decidable (OwnLooks p s a) :=
  inferInstanceAs (Decidable (_ → _))

/-- The index of `fill_buffer` does not get to the last element. -/
def Bounded (s : LineRun ι) : Prop := ∀ p i, (s.point p).HasIndex i → i < bufferSize - 1

end LineRun

/-! ## A process that is alone -/

/-- Where a process is in `getchar`, when the buffer is `mine` and the calls from now on
return `l` if it is alone.  `left` is the value of `buffi` that it left, `input` is not read,
and `z` is the last element. -/
def Ahead (z : UInt8) (mine : Nat → UInt8) (left : Nat) (input l : List UInt8) : LinePoint → Prop
  | .idle | .entered => ∃ u, Unread ⟨mine, left, []⟩ u ∧ l = u ++ deliveredFrom z [] input
  | .filling i =>
      ∃ cur, Typed ⟨i, mine, []⟩ cur ∧ Kept cur ∧ left = 0 ∧ l = deliveredFrom z cur input
  | .typed i c =>
      ∃ cur, Typed ⟨i, mine, []⟩ cur ∧ Kept cur ∧ left = 0 ∧ l = deliveredFrom z cur (c :: input)
  | .loading => ∃ u, Line mine left u ∧ l = u ++ deliveredFrom z [] input
  | .gotten c =>
      ∃ u, (if c = newline ∨ left = bufferSize then u = [] else Line mine left u) ∧ 0 < left ∧
        l = c :: (u ++ deliveredFrom z [] input)
  | .resetting c => l = c :: deliveredFrom z [] input

namespace Ahead

variable {z c : UInt8} {mine : Nat → UInt8} {left i : Nat} {input l : List UInt8}

/-- The test of `buffi`. -/
theorem entered (h : Ahead z mine left input l .entered) :
    Ahead z mine left input l (if left = 0 then .filling 0 else .loading) := by
  obtain ⟨u, hu, hl⟩ := h
  by_cases hleft : left = 0
  · rw [Unread, if_pos hleft] at hu
    rw [if_pos hleft]
    exact ⟨[], Typed.nil ⟨mine, 0, []⟩, Kept.nil, hleft, by rw [hl, hu, List.nil_append]⟩
  · rw [Unread, if_neg hleft] at hu
    rw [if_neg hleft]
    exact ⟨u, hu, hl⟩

/-- The index of `fill_buffer`. -/
theorem index_lt (h : Ahead z mine left input l (.typed i c)) : i < bufferSize - 1 := by
  obtain ⟨cur, htyped, hcur, -⟩ := h
  have hi : i = cur.length := htyped.i_eq
  exact hi ▸ hcur.short

/-- The body of the loop of `fill_buffer`, and its test. -/
theorem typed (h : Ahead z mine left input l (.typed i c)) (hz : mine (bufferSize - 1) = z) :
    Ahead z (fillBody c ⟨i, mine, []⟩).buffer left input l
      (if c ≠ newline ∧ (fillBody c ⟨i, mine, []⟩).i < bufferSize - 1 then
        .filling (fillBody c ⟨i, mine, []⟩).i
      else .loading) := by
  have hlt := h.index_lt
  obtain ⟨cur, htyped, hcur, hleft, hl⟩ := h
  have hbody := htyped.body c
  by_cases hc : c = newline ∨ bufferSize - 1 ≤ (edit cur c).length
  · have hstop : ¬(c ≠ newline ∧ (fillBody c ⟨i, mine, []⟩).i < bufferSize - 1) := by
      rw [hbody.i_eq, ← Nat.not_le]
      exact fun hgo => hc.elim hgo.1 hgo.2
    have hlast : (fillBody c ⟨i, mine, []⟩).buffer (bufferSize - 1) = z := by
      have hne : bufferSize - 1 ≠ i := by omega
      exact (fillBody_outside c hne).trans hz
    have hline := (hcur.complete hc).line hbody
    rw [hlast] at hline
    rw [if_neg hstop]
    exact ⟨_, hleft ▸ hline, by rw [hl, deliveredFrom, chunksFrom_cons_of hc, List.flatMap_cons]; rfl⟩
  · have hgo : c ≠ newline ∧ (fillBody c ⟨i, mine, []⟩).i < bufferSize - 1 := by
      rw [hbody.i_eq]
      rwa [not_or, Nat.not_le] at hc
    rw [if_pos hgo]
    refine ⟨_, ⟨hbody.i_eq, hbody.holds⟩, hcur.edit hc, hleft, ?_⟩
    rw [hl, deliveredFrom, chunksFrom_cons_of_not hc]
    rfl

/-- `c = buffer[buffi++]` -/
theorem loading (h : Ahead z mine left input l .loading) :
    Ahead z mine (left + 1) input l (.gotten (mine left)) := by
  obtain ⟨u, hline, hl⟩ := h
  cases u with
  | nil => exact absurd hline id
  | cons c u =>
      obtain ⟨hc, hrest⟩ := hline
      exact ⟨u, by rwa [hc], Nat.succ_pos left, by rw [hl, hc, List.cons_append]⟩

/-- `getchar` returns with something left in the buffer. -/
theorem returned (h : Ahead z mine left input l (.gotten c)) (hc : ¬(c = newline ∨ left = bufferSize)) :
    ∃ l', l = c :: l' ∧ Ahead z mine left input l' .idle := by
  obtain ⟨u, hu, hpos, hl⟩ := h
  rw [if_neg hc] at hu
  exact ⟨_, hl, u, by rw [Unread, if_neg (Nat.ne_of_gt hpos)]; exact hu, rfl⟩

/-- The end of the line, or of the array. -/
theorem ended (h : Ahead z mine left input l (.gotten c)) (hc : c = newline ∨ left = bufferSize) :
    Ahead z mine left input l (.resetting c) := by
  obtain ⟨u, hu, -, hl⟩ := h
  rw [if_pos hc] at hu
  rw [Ahead, hl, hu, List.nil_append]

/-- `getchar` returns with nothing left in the buffer. -/
theorem reset (h : Ahead z mine left input l (.resetting c)) :
    ∃ l', l = c :: l' ∧ Ahead z mine 0 input l' .idle :=
  ⟨_, h, [], by rw [Unread, if_pos rfl], rfl⟩

end Ahead

namespace LineRun

/-! ## The processes side by side -/

/-- The elements that `p` stored last are as in `mine`, and so is the last one. -/
def Agrees (s : LineRun ι) (p : ι) (mine : Nat → UInt8) : Prop :=
  ∀ k, s.writer k = some p ∨ k = bufferSize - 1 → s.io.buffer k = mine k

/-- Process `p` goes on as if it were alone. -/
def Session (z : UInt8) (typed : List UInt8) (p : ι) (s : LineRun ι) : Prop :=
  ∃ mine l, s.Agrees p mine ∧ mine (bufferSize - 1) = z ∧
    Ahead z mine (s.left p) (s.input p) l (s.point p) ∧ s.out p ++ l = deliveredFrom z [] typed

variable {s s' : LineRun ι} {p q : ι} {z : UInt8} {typed : List UInt8}

/-- Two buffers that agree where `p` stored last, and at the last element, agree there when `p`
executes the body of the loop on both of them. -/
theorem fillBody_agrees {κ : Type*} {p : κ} {writer : Nat → Option κ} {buffer mine : Nat → UInt8}
    {last : Nat} (h : ∀ k, writer k = some p ∨ k = last → buffer k = mine k) (i : Nat) (c : UInt8)
    (screen : List UInt8) (k : Nat)
    (hk : (if c = backspace then writer else update writer i (some p)) k = some p ∨ k = last) :
    (fillBody c ⟨i, buffer, screen⟩).buffer k = (fillBody c ⟨i, mine, []⟩).buffer k := by
  rw [fillBody_buffer, fillBody_buffer]
  by_cases hc : c = backspace
  · rw [if_pos hc] at hk
    rw [if_pos hc, if_pos hc]
    exact h k hk
  · rw [if_neg hc] at hk
    rw [if_neg hc, if_neg hc]
    by_cases hki : k = i
    · subst hki
      rw [update_self, update_self]
    · rw [update_of_ne hki] at hk
      rw [update_of_ne hki, update_of_ne hki]
      exact h k hk

/-- What a step of process `p` changes: what belongs to `p`, and one element if it stores
one.  The index of `p` in `fill_buffer` is an old one, or below the last element. -/
theorem next_spec (h : s.next p = some s') :
    (∃ pt input out left, s'.point = update s.point p pt ∧ s'.input = update s.input p input ∧
      s'.out = update s.out p out ∧ s'.left = update s.left p left ∧
      ∀ i, pt.HasIndex i → (s.point p).HasIndex i ∨ i < bufferSize - 1) ∧
      ((s'.io.buffer = s.io.buffer ∧ s'.writer = s.writer) ∨
        ∃ i c, s.point p = .typed i c ∧ s'.io.buffer = update s.io.buffer i c ∧
          s'.writer = update s.writer i (some p)) := by
  have hinput := (update_eq_self p s.input).symm
  have hout := (update_eq_self p s.out).symm
  have hleft := (update_eq_self p s.left).symm
  unfold next at h
  split at h
  next =>
    cases h
    exact ⟨⟨_, _, _, _, rfl, hinput, hout, hleft, by simp [LinePoint.HasIndex]⟩, Or.inl ⟨rfl, rfl⟩⟩
  next =>
    cases h
    refine ⟨⟨_, _, _, _, rfl, hinput, hout, hleft, fun i hi => Or.inr ?_⟩, Or.inl ⟨rfl, rfl⟩⟩
    split at hi
    · obtain rfl : 0 = i := by simpa [LinePoint.HasIndex] using hi
      decide
    · simp [LinePoint.HasIndex] at hi
  next i hpt =>
    split at h
    next => cases h
    next c input hc =>
      cases h
      refine ⟨⟨_, _, _, _, rfl, rfl, hout, hleft, fun j hj => Or.inl ?_⟩, Or.inl ⟨rfl, rfl⟩⟩
      obtain rfl : i = j := by simpa [LinePoint.HasIndex] using hj
      exact Or.inl hpt
  next i c hpt =>
    cases h
    refine ⟨⟨_, _, _, _, rfl, hinput, hout, hleft, fun j hj => Or.inr ?_⟩, ?_⟩
    · split at hj
      next hgo =>
        obtain rfl : _ = j := by simpa [LinePoint.HasIndex] using hj
        exact hgo.2
      next => simp [LinePoint.HasIndex] at hj
    · simp only [fillBody_buffer]
      by_cases hc : c = backspace
      · exact Or.inl ⟨if_pos hc, if_pos hc⟩
      · exact Or.inr ⟨i, c, hpt, if_neg hc, if_neg hc⟩
  next =>
    cases h
    exact ⟨⟨_, _, _, _, rfl, hinput, hout, rfl, by simp [LinePoint.HasIndex]⟩, Or.inl ⟨rfl, rfl⟩⟩
  next =>
    split at h
    next =>
      cases h
      exact ⟨⟨_, _, _, _, rfl, hinput, hout, hleft, by simp [LinePoint.HasIndex]⟩,
        Or.inl ⟨rfl, rfl⟩⟩
    next =>
      cases h
      exact ⟨⟨_, _, _, _, rfl, hinput, rfl, hleft, by simp [LinePoint.HasIndex]⟩,
        Or.inl ⟨rfl, rfl⟩⟩
  next =>
    cases h
    exact ⟨⟨_, _, _, _, rfl, hinput, rfl, rfl, by simp [LinePoint.HasIndex]⟩, Or.inl ⟨rfl, rfl⟩⟩

theorem bounded_next (hs : s.Bounded) (h : s.next q = some s') : s'.Bounded := by
  obtain ⟨⟨pt, -, -, -, hpoint, -, -, -, hindex⟩, -⟩ := next_spec h
  intro p i hi
  rw [hpoint] at hi
  by_cases hpq : p = q
  · subst hpq
    rw [update_self] at hi
    exact (hindex i hi).elim (hs p i) id
  · rw [update_of_ne hpq] at hi
    exact hs p i hi

/-- A step of another process keeps a session. -/
theorem Session.other (h : s.Session z typed p) (hs : s.Bounded) (hn : s.next q = some s')
    (hpq : p ≠ q) : s'.Session z typed p := by
  obtain ⟨mine, l, hagrees, hz, hahead, hout⟩ := h
  obtain ⟨⟨_, _, _, _, hpoint, hinput, hout', hleft, -⟩, hstore⟩ := next_spec hn
  refine ⟨mine, l, fun k hk => ?_, hz, ?_, ?_⟩
  · rcases hstore with ⟨hbuffer, hwriter⟩ | ⟨i, c, hpt, hbuffer, hwriter⟩
    · rw [hbuffer]
      rw [hwriter] at hk
      exact hagrees k hk
    · have hi := hs q i (Or.inr ⟨c, hpt⟩)
      -- the element is not the last one, and `p` is not the one who stored it last
      have hne : k ≠ i := by
        rintro rfl
        rw [hwriter, update_self, Option.some.injEq] at hk
        rcases hk with hk | hk
        · exact hpq hk.symm
        · omega
      rw [hbuffer, update_of_ne hne]
      rw [hwriter, update_of_ne hne] at hk
      exact hagrees k hk
  · rwa [hpoint, hinput, hleft, update_of_ne hpq, update_of_ne hpq, update_of_ne hpq]
  · rwa [hout', update_of_ne hpq]

/-- A step of the process itself. -/
theorem Session.own (h : s.Session z typed p) (hlooks : OwnLooks p s p) (hn : s.next p = some s') :
    s'.Session z typed p := by
  obtain ⟨mine, l, hagrees, hz, hahead, hout⟩ := h
  replace hlooks := hlooks rfl
  unfold next at hn
  split at hn
  next hpt =>
    cases hn
    rw [hpt] at hahead
    refine ⟨mine, l, hagrees, hz, ?_, hout⟩
    simp only [update_self]
    exact hahead
  next hpt =>
    cases hn
    rw [hpt] at hahead
    rw [hpt] at hlooks
    have hbuffi : s.io.buffi = s.left p := hlooks
    refine ⟨mine, l, hagrees, hz, ?_, hout⟩
    simp only [update_self, hbuffi]
    exact hahead.entered
  next i hpt =>
    split at hn
    · cases hn
    next c input hinput =>
      cases hn
      rw [hpt, hinput] at hahead
      refine ⟨mine, l, hagrees, hz, ?_, hout⟩
      simp only [update_self]
      exact hahead
  next i c hpt =>
    cases hn
    rw [hpt] at hahead
    have hlt := hahead.index_lt
    refine ⟨(fillBody c ⟨i, mine, []⟩).buffer, l, fillBody_agrees hagrees i c _, ?_, ?_, hout⟩
    · have hne : bufferSize - 1 ≠ i := by omega
      exact (fillBody_outside c hne).trans hz
    · have hi : (fillBody c ⟨i, s.io.buffer, s.io.screen⟩).i = (fillBody c ⟨i, mine, []⟩).i := by
        rw [fillBody_i, fillBody_i]
      simp only [update_self, hi]
      exact hahead.typed hz
  next hpt =>
    cases hn
    rw [hpt] at hahead
    rw [hpt] at hlooks
    refine ⟨mine, l, hagrees, hz, ?_, hout⟩
    simp only [update_self, hagrees _ hlooks.2]
    rw [hlooks.1]
    exact hahead.loading
  next c hpt =>
    rw [hpt] at hahead
    rw [hpt] at hlooks
    have htest : (c = newline ∨ s.io.buffi = bufferSize) ↔ (c = newline ∨ s.left p = bufferSize) := by
      rcases hlooks with hc | heq
      · exact ⟨fun _ => Or.inl hc, fun _ => Or.inl hc⟩
      · rw [heq]
    split at hn
    next hend =>
      cases hn
      refine ⟨mine, l, hagrees, hz, ?_, hout⟩
      simp only [update_self]
      exact hahead.ended (htest.mp hend)
    next hgo =>
      cases hn
      obtain ⟨l', rfl, hidle⟩ := hahead.returned (mt htest.mpr hgo)
      exact ⟨mine, l', hagrees, hz, by simpa using hidle, by simpa using hout⟩
  next c hpt =>
    cases hn
    rw [hpt] at hahead
    obtain ⟨l', rfl, hidle⟩ := hahead.reset
    exact ⟨mine, l', hagrees, hz, by simpa using hidle, by simpa using hout⟩

/-! ## Runs -/

/-- Every run in which the process finds what it left. -/
theorem session_of_reachBy {t : Stdin} {input : ι → List UInt8}
    (h : (lineSystem t input).ReachBy (OwnLooks p) s) :
    s.Bounded ∧ s.Session (t.buffer (bufferSize - 1)) (input p) p := by
  refine h.invariant (I := fun s => s.Bounded ∧ s.Session (t.buffer (bufferSize - 1)) (input p) p)
    (fun s hs => ?_) fun s q s' hs hlooks hn => ⟨bounded_next hs.1 hn, ?_⟩
  · obtain rfl : s = start t input := hs
    refine ⟨fun p i hp => by simp [start, LinePoint.HasIndex] at hp, t.buffer, _, fun k _ => rfl, rfl, ⟨[], ?_, rfl⟩, rfl⟩
    rw [start, Unread, if_pos rfl]
  · by_cases hpq : p = q
    · subst hpq
      exact hs.2.own hlooks hn
    · exact hs.2.other hs.1 hn hpq

/-- The characters that process `p` gets are those that it gets when it is alone. -/
def Alone (t : Stdin) (input : ι → List UInt8) (s : LineRun ι) (p : ι) : Prop :=
  getchars (s.out p).length { t with buffi := 0 } (input p) = some (s.out p)

/-- A process gets the characters of its own input, as if it were alone, in every run in
which it finds `buffi` as it left it and the elements it loads as it stored them. -/
theorem alone_of_reachBy (t : Stdin) (input : ι → List UInt8) (p : ι)
    (h : (lineSystem t input).ReachBy (OwnLooks p) s) : s.Alone t input p := by
  obtain ⟨mine, l, -, -, -, hout⟩ := (session_of_reachBy h).2
  rw [Alone, getchars_eq (s := []) _ (by rw [Unread, if_pos rfl]), List.nil_append, ← hout,
    if_pos (by simp), List.take_left]

/-- Two processes, and a line for each. -/
def twoLines (p : Fin 2) : List UInt8 := if p = 0 then [97, 10] else [120, 10]

/-- The second process waits for its first character while the first one gets its line. -/
def inTurn : Option (LineRun (Fin 2)) :=
  (lineSystem ⟨fun _ => 0, 0, []⟩ twoLines).executeBy (fun s a => decide (OwnLooks 0 s a))
    (start ⟨fun _ => 0, 0, []⟩ twoLines)
    (List.replicate 2 1 ++ List.replicate 13 0 ++ List.replicate 6 1)

theorem alone_inTurn : (inTurn.get (by decide +kernel)).Alone ⟨fun _ => 0, 0, []⟩ twoLines 0 :=
  alone_of_reachBy _ _ 0 ((System.ReachBy.init rfl).execute (fun _ _ => of_decide_eq_true)
    (Option.some_get _).symm)

/-- The second process stores a character while the first one is in the middle of its line,
and the first one gets it. -/
theorem line_overwritten : ¬∀ s, (lineSystem ⟨fun _ => 0, 0, []⟩ twoLines).Reach s →
    ∀ p, s.Alone ⟨fun _ => 0, 0, []⟩ twoLines p := by
  intro hall
  obtain ⟨s, hs, hf⟩ := System.exists_reach_of_execute
    (M := lineSystem ⟨fun _ => 0, 0, []⟩ twoLines) (s := start ⟨fun _ => 0, 0, []⟩ twoLines) rfl
    (List.replicate 4 0 ++ List.replicate 4 1 ++ List.replicate 4 0)
    (fun s => decide (s.out 0 = [120])) (by decide +kernel)
  have halone := hall s hs 0
  rw [Alone, of_decide_eq_true hf] at halone
  revert halone
  decide +kernel

end LineRun

end TPE
