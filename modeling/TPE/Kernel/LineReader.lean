import Mathlib.Data.List.TakeWhile
import TPE.Library.ByteMemory
import TPE.Library.Runs
import TPE.Library.Squeeze
import TPE.Kernel.CircularBuffer
import TPE.Kernel.Ctype
import TPE.Kernel.Stdio

/-!
# Lines without spaces

`readline_no_spaces` reads a line for the shell.  It drops white space at both ends
and all but the first of several white-space characters in a row.

Its loop takes a character from `getchar` before it tests whether the array is full,
so the character that it finds full is gone.  `readline` tests first.
-/

namespace TPE

open Function ByteMemory

namespace LineReader

open Stdio

/-! ## The code -/

/-- The loop of `readline_no_spaces` on the characters that `getchar` returns.  `space` says
that `state` is `SPACE`.  `none` says that the loop waits for another character. -/
def noSpacesLoop (str : Nat) (maxlen : UInt32) :
    List UInt8 → Nat → Bool → (Nat → UInt8) → Option (Nat × (Nat → UInt8) × List UInt8)
  | [], _, _, _ => none
  | c :: input, i, space, mem =>
      if c ≠ newline ∧ i < (maxlen - 1).toNat then
        if space = false then
          noSpacesLoop str maxlen input (i + 1) (if isspace c.toNat then true else space)
            (update mem (str + i) c)
        else if ¬isspace c.toNat then
          noSpacesLoop str maxlen input (i + 1) false (update mem (str + i) c)
        else noSpacesLoop str maxlen input i space mem
      else some (i, mem, input)

/-- `readline_no_spaces`: what it returns, the memory, and the characters that are left. -/
def readlineNoSpaces (str : Nat) (maxlen : UInt32) (mem : Nat → UInt8) (input : List UInt8) :
    Option (Int × (Nat → UInt8) × List UInt8) :=
  (noSpacesLoop str maxlen input 0 true mem).map fun (i, mem, input) =>
    let i := if 0 < i ∧ isspace (charValue (mem (str + (i - 1)))) then i - 1 else i
    (int32 i, update mem (str + i) 0, input)

/-- The loop of `readline`. -/
def readlineLoop (str : Nat) (maxlen : UInt32) :
    List UInt8 → Nat → (Nat → UInt8) → Option (Nat × (Nat → UInt8) × List UInt8)
  | [], i, mem => if i < (maxlen - 1).toNat then none else some (i, mem, [])
  | c :: input, i, mem =>
      if i < (maxlen - 1).toNat then
        if c ≠ newline then readlineLoop str maxlen input (i + 1) (update mem (str + i) c)
        else some (i, mem, input)
      else some (i, mem, c :: input)

/-- `readline` -/
def readline (str : Nat) (maxlen : UInt32) (mem : Nat → UInt8) (input : List UInt8) :
    Option (Int × (Nat → UInt8) × List UInt8) :=
  (readlineLoop str maxlen input 0 mem).map fun (i, mem, input) =>
    (int32 i, update mem (str + i) 0, input)

/-! ## Where a line ends -/

/-- When `kept` is kept already, the line goes on with `pre` and ends at `c`: the first newline,
or the first character that comes when `room` characters are kept. -/
def EndsLine (room : Nat) : List UInt8 → List UInt8 → UInt8 → Prop
  | kept, [], c => c = newline ∨ room ≤ kept.length
  | kept, d :: pre, c =>
      d ≠ newline ∧ kept.length < room ∧ EndsLine room (squeezeStep White kept d) pre c

variable {mem mem' : Nat → UInt8} {str i j room : Nat} {maxlen : UInt32} {c d : UInt8}
  {kept pre pre' input rest rest' : List UInt8} {space : Bool}

/-- A stream has one line at most. -/
theorem EndsLine.unique (h : EndsLine room kept pre c) (h' : EndsLine room kept pre' d)
    (he : pre ++ c :: rest = pre' ++ d :: rest') : pre = pre' ∧ c = d := by
  induction pre generalizing kept pre' with
  | nil =>
      cases pre' with
      | nil => exact ⟨rfl, (List.cons.inj he).1⟩
      | cons x pre' =>
          obtain ⟨rfl, -⟩ := List.cons.inj he
          rcases h with hc | hfull
          · exact absurd hc h'.1
          · exact absurd h'.2.1 (Nat.not_lt.mpr hfull)
  | cons x pre ih =>
      cases pre' with
      | nil =>
          obtain ⟨rfl, -⟩ := List.cons.inj he
          rcases h' with hd | hfull
          · exact absurd hd h.1
          · exact absurd h.2.1 (Nat.not_lt.mpr hfull)
      | cons y pre' =>
          obtain ⟨rfl, htail⟩ := List.cons.inj he
          obtain ⟨rfl, hcd⟩ := ih h.2.2 h'.2.2 htail
          exact ⟨rfl, hcd⟩

/-! ## The loop -/

/-- The loop has stored what is kept. -/
structure Holding (mem : Nat → UInt8) (str i : Nat) (space : Bool) (kept : List UInt8) : Prop where
  i_eq : i = kept.length
  bytes : BytesAt mem str kept
  space_iff : space = true ↔ EndsApart White kept

theorem Holding.nil (mem : Nat → UInt8) (str : Nat) : Holding mem str 0 true [] :=
  ⟨rfl, bytesAt_nil, iff_of_true rfl endsApart_nil⟩

/-- A character is stored. -/
theorem Holding.store (h : Holding mem str i space kept) (c : UInt8) :
    Holding (update mem (str + i) c) str (i + 1) (decide (White c)) (kept ++ [c]) := by
  obtain ⟨rfl, hbytes, -⟩ := h
  refine ⟨by simp, BytesAt.snoc (hbytes.congr fun k hk => ?_) (update_self _ _ _), ?_⟩
  · exact update_of_ne (by omega) _ _
  · rw [decide_eq_true_iff, endsApart_concat]

/-- A round of the loop. -/
theorem Holding.round (h : Holding mem str i space kept) (hc : c ≠ newline)
    (hroom : i < (maxlen - 1).toNat) (input : List UInt8) :
    ∃ mem' space', Holding mem' str (squeezeStep White kept c).length space' (squeezeStep White kept c) ∧
      noSpacesLoop str maxlen (c :: input) i space mem =
        noSpacesLoop str maxlen input (squeezeStep White kept c).length space' mem' := by
  have hstore := h.store c
  have hlen : (kept ++ [c]).length = i + 1 := by rw [h.i_eq, List.length_append]; rfl
  rw [noSpacesLoop, if_pos ⟨hc, hroom⟩, squeezeStep]
  by_cases hspace : space = false
  · have hkeep : ¬(EndsApart White kept ∧ White c) := by
      rw [← h.space_iff, hspace]
      simp
    rw [if_pos hspace, if_neg hkeep, hlen]
    refine ⟨_, _, hstore, ?_⟩
    congr 1
    rw [hspace]
    by_cases hw : isspace c.toNat
    · rw [if_pos hw]
      exact (decide_eq_true hw).symm
    · rw [if_neg hw]
      exact (decide_eq_false hw).symm
  · have hends : EndsApart White kept := h.space_iff.mp (by simpa using hspace)
    rw [if_neg hspace]
    by_cases hw : isspace c.toNat
    · rw [if_neg (not_not.mpr hw), if_pos ⟨hends, hw⟩, ← h.i_eq]
      exact ⟨_, _, h, rfl⟩
    · have hkeep : ¬(EndsApart White kept ∧ White c) := fun hand => hw hand.2
      have hsolid : decide (White c) = false := decide_eq_false hw
      rw [if_pos hw, if_neg hkeep, hlen]
      exact ⟨_, _, hsolid ▸ hstore, rfl⟩

/-- The loop reads up to the end of the line and has stored what is kept of it, or it waits. -/
theorem noSpacesLoop_spec (h : Holding mem str i space kept) (hle : i ≤ (maxlen - 1).toNat)
    (input : List UInt8) :
    noSpacesLoop str maxlen input i space mem = none ∨
      ∃ pre c rest mem' space', input = pre ++ c :: rest ∧ EndsLine (maxlen - 1).toNat kept pre c ∧
        Holding mem' str (pre.foldl (squeezeStep White) kept).length space'
          (pre.foldl (squeezeStep White) kept) ∧
        (pre.foldl (squeezeStep White) kept).length ≤ (maxlen - 1).toNat ∧
        noSpacesLoop str maxlen input i space mem =
          some ((pre.foldl (squeezeStep White) kept).length, mem', rest) := by
  induction input generalizing i space kept mem with
  | nil => exact Or.inl rfl
  | cons c input ih =>
      by_cases hgo : c ≠ newline ∧ i < (maxlen - 1).toNat
      · obtain ⟨mem', space', hstep, he⟩ := h.round hgo.1 hgo.2 input
        have hle' : (squeezeStep White kept c).length ≤ (maxlen - 1).toNat := by
          have hgrow : (squeezeStep White kept c).length ≤ kept.length + 1 := length_squeezeStep_le
          rw [← h.i_eq] at hgrow
          omega
        rw [he]
        rcases ih hstep hle' with hwait | ⟨pre, d, rest, mem'', space'', rfl, hline, hheld, hlen, hrun⟩
        · exact Or.inl hwait
        · exact Or.inr ⟨c :: pre, d, rest, mem'', space'', rfl, ⟨hgo.1, h.i_eq ▸ hgo.2, hline⟩, hheld,
            hlen, hrun⟩
      · refine Or.inr ⟨[], c, input, mem, space, rfl, ?_, h.i_eq ▸ h, h.i_eq ▸ hle, ?_⟩
        · rw [not_and_or, not_not, Nat.not_lt, h.i_eq] at hgo
          exact hgo
        · rw [noSpacesLoop, if_neg hgo, h.i_eq]
          rfl

/-- The index behind the correction. -/
theorem Holding.trim (h : Holding mem str i space kept) :
    (if 0 < i ∧ isspace (charValue (mem (str + (i - 1)))) then i - 1 else i) =
      (trimEnd White kept).length := by
  obtain ⟨rfl, hbytes, -⟩ := h
  rcases List.eq_nil_or_concat' kept with rfl | ⟨l, c, rfl⟩
  · rfl
  · have hlast : mem (str + ((l ++ [c]).length - 1)) = c := by
      have hbyte := hbytes l.length (by simp)
      simpa using hbyte
    have hne : l ++ [c] ≠ [] := by simp
    have hpos : 0 < (l ++ [c]).length := by simp
    rw [hlast, trimEnd]
    by_cases hw : White c
    · rw [if_pos ⟨hpos, isspace_charValue.mpr hw⟩, if_pos ⟨hne, endsApart_concat.mpr hw⟩,
        List.length_dropLast]
    · rw [if_neg (fun hand => hw (isspace_charValue.mp hand.2)),
        if_neg (fun hand => hw (endsApart_concat.mp hand.2))]

/-- What is behind the end is cut off. -/
theorem BytesAt.trimEnd (h : BytesAt mem str kept) : BytesAt mem str (trimEnd White kept) := by
  rw [TPE.trimEnd]
  split
  next hdrop =>
    obtain ⟨l, c, rfl⟩ := (List.eq_nil_or_concat' kept).resolve_left hdrop.1
    rw [List.dropLast_concat]
    exact (bytesAt_append.mp h).1
  next => exact h

/-- A call stores the squeezed line, or it waits. -/
theorem readlineNoSpaces_spec (str : Nat) (maxlen : UInt32) (mem : Nat → UInt8)
    (input : List UInt8) :
    readlineNoSpaces str maxlen mem input = none ∨
      ∃ pre c rest mem', input = pre ++ c :: rest ∧ EndsLine (maxlen - 1).toNat [] pre c ∧
        StringAt mem' str (trimEnd White (squeeze White pre)) ∧
        (trimEnd White (squeeze White pre)).length ≤ (maxlen - 1).toNat ∧
        readlineNoSpaces str maxlen mem input =
          some (int32 (trimEnd White (squeeze White pre)).length, mem', rest) := by
  rcases noSpacesLoop_spec (Holding.nil mem str) (Nat.zero_le _) input with
    hwait | ⟨pre, c, rest, mem', space', hinput, hline, hheld, hlen, hrun⟩
  · left
    rw [readlineNoSpaces, hwait]
    rfl
  · have htrim := hheld.trim
    refine Or.inr ⟨pre, c, rest, update mem' (str + (trimEnd White (squeeze White pre)).length) 0,
      hinput, hline, ⟨?_, update_self _ _ _⟩, length_trimEnd_le.trans hlen, ?_⟩
    · refine (BytesAt.trimEnd hheld.bytes).congr fun k hk => update_of_ne ?_ _ _
      exact fun he => absurd (Nat.add_left_cancel he) (Nat.ne_of_lt hk)
    · rw [readlineNoSpaces, hrun, Option.map_some]
      simp only [htrim]
      rfl

/-! ## Runs -/

/-- A call, what it returned and the string it stored. -/
structure Call where
  maxlen : UInt32
  returned : Int
  line : List UInt8

/-- The memory, what `getchar` will return, what it has returned, and the calls. -/
structure ReadRun where
  mem : Nat → UInt8
  input : List UInt8
  consumed : List UInt8
  calls : List Call

/-- Calls of `readline_no_spaces`, each with its `str` and its `maxlen`. -/
def readSystem : System ReadRun (Nat × UInt32) where
  init s := s.consumed = [] ∧ s.calls = []
  next s a :=
    if 2 ≤ a.2 then
      (readlineNoSpaces a.1 a.2 s.mem s.input).map fun (returned, mem, rest) =>
        { mem
          input := rest
          consumed := s.consumed ++ s.input.take (s.input.length - rest.length)
          calls := s.calls ++ [⟨a.2, returned, readString mem a.1 a.2.toNat⟩] }
    else none

/-- The string is short enough, it has single white-space characters inside of it only, and
its length is returned. -/
structure Stored (call : Call) : Prop where
  length : call.line.length ≤ call.maxlen.toNat - 1
  squeezed : Squeezed White call.line
  last : ∀ c ∈ call.line.getLast?, ¬White c
  returned : call.returned = call.line.length

/-- So are all strings, and they have the characters that were read and are not white space. -/
def LinesOk (s : ReadRun) : Prop :=
  (∀ call ∈ s.calls, Stored call) ∧
    solid White (s.calls.flatMap Call.line) = solid White s.consumed

/-- The line ends at a white-space character (which a newline is), has no NUL in it, and its
length is an `int`. -/
def EndsWhite (s : ReadRun) (a : Nat × UInt32) : Prop :=
  ∀ pre c rest, s.input = pre ++ c :: rest → EndsLine (a.2.toNat - 1) [] pre c →
    White c ∧ 0 ∉ pre ∧ (trimEnd White (squeeze White pre)).length < 2 ^ 31

/-! ## One call -/

theorem mem_trimEnd_squeeze (hd : ¬White d) :
    d ∈ trimEnd White (squeeze White pre) ↔ d ∈ pre := by
  have hsolid : ∀ l : List UInt8, d ∈ solid White l ↔ d ∈ l := by
    intro l
    simp [solid, hd]
  rw [← hsolid, solid_trimEnd, solid_squeeze, hsolid]

/-- What a call stores for the line `pre` that ends at `c` is right exactly if the line meets
the condition. -/
theorem stored_iff (maxlen : UInt32) {line : List UInt8}
    (hline : line = trimEnd White (squeeze White pre))
    (hlen : line.length ≤ maxlen.toNat - 1) :
    Stored ⟨maxlen, int32 line.length, line.takeWhile (· ≠ 0)⟩ ∧
        solid White (line.takeWhile (· ≠ 0)) = solid White (pre ++ [c]) ↔
      White c ∧ 0 ∉ pre ∧ line.length < 2 ^ 31 := by
  have hzero : (0 : UInt8) ∈ line ↔ 0 ∈ pre := by
    rw [hline]
    exact mem_trimEnd_squeeze (by decide)
  have hsolid : solid White line = solid White pre := by
    rw [hline, solid_trimEnd, solid_squeeze]
  have hmax := maxlen.toNat_lt
  constructor
  · rintro ⟨⟨-, -, -, hret⟩, hkept⟩
    have hfront : line.takeWhile (· ≠ 0) <+: line := List.takeWhile_prefix _
    have hle := hfront.length_le
    -- a negative number is not a length
    have hint : line.length < 2 ^ 31 := by
      by_contra hge
      simp only [int32, Int.bmod_def] at hret
      split at hret <;> omega
    simp only at hret
    rw [int32_of_range (by omega) (by omega)] at hret
    have hwhole : line.takeWhile (· ≠ 0) = line := hfront.eq_of_length (by omega)
    have hnul : (0 : UInt8) ∉ line := takeWhile_ne_zero_iff.mp hwhole
    rw [hwhole, hsolid, solid_append] at hkept
    refine ⟨?_, fun hm => hnul (hzero.mpr hm), hint⟩
    by_contra hc
    rw [solid_singleton_of_not hc] at hkept
    exact absurd hkept (by simp)
  · rintro ⟨hc, hnul, hint⟩
    have hwhole : line.takeWhile (· ≠ 0) = line :=
      takeWhile_ne_zero_iff.mpr fun hm => hnul (hzero.mp hm)
    have hret : int32 line.length = line.length := int32_of_range (by omega) (by omega)
    rw [hwhole, hsolid, solid_append, solid_singleton_of hc, List.append_nil]
    have hsqueezed : Squeezed White line := hline ▸ (squeezed_squeeze pre).trimEnd
    have hlast : ∀ d ∈ line.getLast?, ¬White d := hline ▸ (squeezed_squeeze pre).trimEnd_last
    rw [hret]
    exact ⟨⟨hlen, hsqueezed, hlast, rfl⟩, rfl⟩

variable {s t : ReadRun} {a : Nat × UInt32}

/-- A call keeps the strings right exactly if it meets the condition. -/
theorem LinesOk.next (h : LinesOk s) (hn : readSystem.next s a = some t) :
    LinesOk t ↔ EndsWhite s a := by
  simp only [readSystem] at hn
  split at hn
  next htwo =>
    have htwo' : 2 ≤ a.2.toNat := UInt32.le_iff_toNat_le.mp htwo
    have hroom : (a.2 - 1).toNat = a.2.toNat - 1 := by
      rw [UInt32.toNat_sub_of_le _ _ (UInt32.le_iff_toNat_le.mpr (by
        rw [UInt32.toNat_one]
        omega))]
      rfl
    rcases readlineNoSpaces_spec a.1 a.2 s.mem s.input with
      hwait | ⟨pre, c, rest, mem', hinput, hline, hstring, hlen, hrun⟩
    · rw [hwait] at hn
      cases hn
    · rw [hroom] at hline hlen
      simp only [hrun, Option.map_some, Option.some.injEq] at hn
      subst hn
      have htake : s.input.take (s.input.length - rest.length) = pre ++ [c] := by
        have hle : (pre ++ c :: rest).length - rest.length = (pre ++ [c]).length := by
          simp only [List.length_append, List.length_cons, List.length_nil]
          omega
        rw [hinput, hle, List.append_cons pre c rest, List.take_left]
      have hcut : LinesOk
          { mem := mem'
            input := rest
            consumed := s.consumed ++ s.input.take (s.input.length - rest.length)
            calls := s.calls ++ [⟨a.2, int32 (trimEnd White (squeeze White pre)).length,
              readString mem' a.1 a.2.toNat⟩] } ↔
          White c ∧ 0 ∉ pre ∧ (trimEnd White (squeeze White pre)).length < 2 ^ 31 := by
        rw [← stored_iff a.2 rfl hlen, LinesOk]
        simp only [hstring.readString (n := a.2.toNat) (by omega), htake, List.flatMap_append,
          List.flatMap_cons, List.flatMap_nil, List.append_nil, solid_append (l := s.consumed),
          solid_append (l := s.calls.flatMap Call.line), h.2, List.append_cancel_left_eq,
          List.forall_mem_append, List.forall_mem_singleton]
        exact ⟨fun hall => ⟨hall.1.2, hall.2⟩, fun hall => ⟨⟨h.1, hall.1⟩, hall.2⟩⟩
      refine hcut.trans ⟨fun hgood pre' c' rest' hinput' hline' => ?_, fun hg => hg _ _ _ hinput hline⟩
      obtain ⟨rfl, rfl⟩ := hline.unique hline' (hinput.symm.trans hinput')
      exact hgood
  next => cases hn

/-- The strings are right in every run whose calls meet the condition, and a call keeps them
right exactly if it does. -/
theorem lines_kept (h : readSystem.ReachBy EndsWhite s) :
    LinesOk s ∧ ∀ a t, readSystem.next s a = some t → (LinesOk t ↔ EndsWhite s a) := by
  have hinv : LinesOk s := by
    refine h.invariant (fun s hs => ⟨?_, ?_⟩) fun _ _ _ hi hg hn => (hi.next hn).mpr hg
    · rw [hs.2]
      exact fun _ hm => absurd hm List.not_mem_nil
    · rw [hs.1, hs.2]
      rfl
  exact ⟨hinv, fun a t hn => hinv.next hn⟩

instance : ∀ room kept pre c, Decidable (EndsLine room kept pre c)
  | _, _, [], _ => inferInstanceAs (Decidable (_ ∨ _))
  | room, kept, d :: pre, c =>
      have := instDecidableEndsLine room (squeezeStep White kept d) pre c
      inferInstanceAs (Decidable (_ ∧ _ ∧ _))

/-- Before the first call, when the given characters come from `getchar`. -/
def unread (input : List UInt8) : ReadRun := ⟨fun _ => 0, input, [], []⟩

theorem endsWhite_short : EndsWhite (unread [32, 97, 32, 32, 98, 10]) (0, 16) := by
  intro pre c rest hinput hline
  have hfirst : EndsLine 15 [] [32, 97, 32, 32, 98] 10 := by decide
  have hwhole : [32, 97, 32, 32, 98] ++ 10 :: [] = pre ++ c :: rest := hinput
  obtain ⟨rfl, rfl⟩ := hfirst.unique hline hwhole
  decide

/-- A call has stored "a b". -/
def shortLine : Option ReadRun := readSystem.next (unread [32, 97, 32, 32, 98, 10]) (0, 16)

theorem lines_kept_short :
    LinesOk (shortLine.get (by decide +kernel)) ∧ ∀ a t,
      readSystem.next (shortLine.get (by decide +kernel)) a = some t →
        (LinesOk t ↔ EndsWhite (shortLine.get (by decide +kernel)) a) :=
  lines_kept (.step (.init ⟨rfl, rfl⟩) endsWhite_short (Option.some_get _).symm)

/-- Of "ab" two calls that have room for one character store "a" and nothing. -/
theorem longLine_cut : ¬∀ s, readSystem.Reach s → LinesOk s := by
  intro hall
  obtain ⟨t, ht, hf⟩ := System.exists_reach_of_execute (M := readSystem)
    (s := unread [97, 98, 10]) ⟨rfl, rfl⟩ [(0, 2), (0, 2)]
    (fun t => decide (solid White (t.calls.flatMap Call.line) ≠ solid White t.consumed))
    (by decide +kernel)
  exact of_decide_eq_true hf (hall t ht).2

/-! ## `readline` -/

/-- The loop of `readline` stores every character that it reads but the newline. -/
theorem readlineLoop_spec (hbytes : BytesAt mem str kept)
    (h : readlineLoop str maxlen input kept.length mem = some (j, mem', rest)) :
    ∃ pre, BytesAt mem' str (kept ++ pre) ∧ j = (kept ++ pre).length ∧
      (input = pre ++ rest ∨ input = pre ++ newline :: rest) := by
  induction input generalizing kept mem with
  | nil =>
      rw [readlineLoop] at h
      split at h
      next => cases h
      next =>
        cases h
        exact ⟨[], by rwa [List.append_nil], by rw [List.append_nil], Or.inl rfl⟩
  | cons c input ih =>
      rw [readlineLoop] at h
      split at h
      next =>
        split at h
        next =>
          have hstored : BytesAt (update mem (str + kept.length) c) str (kept ++ [c]) :=
            BytesAt.snoc (hbytes.congr fun k hk => update_of_ne (by omega) _ _) (update_self _ _ _)
          obtain ⟨pre, hpre, hj, hinput⟩ := ih hstored (by rwa [List.length_append])
          rw [List.append_assoc] at hpre hj
          exact ⟨c :: pre, hpre, hj, hinput.imp (congrArg (c :: ·)) (congrArg (c :: ·))⟩
        next hc =>
          cases h
          exact ⟨[], by rwa [List.append_nil], by rw [List.append_nil],
            Or.inr (congrArg (· :: _) (not_not.mp hc))⟩
      next =>
        cases h
        exact ⟨[], by rwa [List.append_nil], by rw [List.append_nil], Or.inl rfl⟩

/-- A line that fits is read as it is. -/
theorem readlineLoop_line {line : List UInt8} (hline : newline ∉ line)
    (hbytes : BytesAt mem str kept) (hlen : kept.length + line.length ≤ (maxlen - 1).toNat) :
    ∃ mem' rest', readlineLoop str maxlen (line ++ newline :: rest) kept.length mem =
        some ((kept ++ line).length, mem', rest') ∧ BytesAt mem' str (kept ++ line) := by
  induction line generalizing kept mem with
  | nil =>
      rw [List.nil_append, List.append_nil, readlineLoop, if_neg (not_not.mpr rfl)]
      split
      · exact ⟨mem, rest, rfl, hbytes⟩
      · exact ⟨mem, newline :: rest, rfl, hbytes⟩
  | cons c line ih =>
      obtain ⟨hc, hline⟩ := not_or.mp (mt List.mem_cons.mpr hline)
      rw [List.length_cons] at hlen
      have hstored : BytesAt (update mem (str + kept.length) c) str (kept ++ [c]) :=
        BytesAt.snoc (hbytes.congr fun k hk => update_of_ne (by omega) _ _) (update_self _ _ _)
      obtain ⟨mem', rest', hrun, hbytes'⟩ := ih hline hstored (by
        rw [List.length_append, List.length_singleton]
        omega)
      rw [List.length_append, List.length_singleton] at hrun
      rw [List.append_assoc] at hrun hbytes'
      rw [List.cons_append, readlineLoop, if_pos (by omega), if_pos (Ne.symm hc)]
      exact ⟨mem', rest', hrun, hbytes'⟩

/-- A call of `readline` loses no character. -/
theorem readline_spec {r : Int} (h : readline str maxlen mem input = some (r, mem', rest)) :
    ∃ line, StringAt mem' str line ∧ (input = line ++ rest ∨ input = line ++ newline :: rest) := by
  obtain ⟨⟨i, m, rest'⟩, hloop, he⟩ := Option.map_eq_some_iff.mp h
  simp only [Prod.mk.injEq] at he
  obtain ⟨-, rfl, rfl⟩ := he
  have hempty : BytesAt mem str [] := bytesAt_nil
  obtain ⟨line, hbytes, rfl, hinput⟩ := readlineLoop_spec hempty hloop
  rw [List.nil_append] at hbytes ⊢
  refine ⟨line, ⟨hbytes.congr fun k hk => update_of_ne ?_ _ _, update_self _ _ _⟩, hinput⟩
  exact fun he => absurd (Nat.add_left_cancel he) (Nat.ne_of_lt hk)

end LineReader

end TPE
