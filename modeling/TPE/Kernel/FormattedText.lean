import Mathlib.Data.List.Chain
import TPE.Kernel.LineReader
import TPE.Kernel.NumberText

/-!
# Formatted text

`printf` writes the arguments into a format, and `scanf` reads a line and takes them out of it
again.  Both walk through the format, `scanf` with one index for the format and one for the line.

A `%%` in the format is one character of the line.  `scanf` moves its index twice for it, once
where it compares the character and once at the end of the round, and it counts the `%%` as if it
had stored something.

The strings and the line are shorter than 2^31 characters, so the indices and `argc` are numbers.
-/

namespace TPE

open Function ByteMemory NumberText

namespace FormattedText

open Stdio LineReader

/-! ## The code -/

/-- `AUX_SIZE` -/
abbrev auxSize : Nat := 64

/-- An argument: an `int`, or a string by its bytes in front of the terminator. -/
inductive VaArg where
  | int (value : Int)
  | str (s : List UInt8)
deriving DecidableEq, Repr

/-- `va_arg(args, int)` -/
def vaInt : List VaArg → Option (Int × List VaArg)
  | .int value :: args => some (value, args)
  | _ => none

/-- `va_arg(args, char *)` -/
def vaStr : List VaArg → Option (List UInt8 × List VaArg)
  | .str s :: args => some (s, args)
  | _ => none

/-- `itoa` into `aux`, then `prints`: what is printed, and `aux`. -/
def printNumber (base value : Int) (aux : WriteLog) : Option (List UInt8 × WriteLog) :=
  (NumberText.itoa value 0 base aux).map fun (_, aux) => (readString aux.bytes 0 auxSize, aux)

/-- `printi` -/
def printi : Int → WriteLog → Option (List UInt8 × WriteLog) := printNumber 10

/-- `printb` -/
def printb : Int → WriteLog → Option (List UInt8 × WriteLog) := printNumber 2

/-- `printx` -/
def printx : Int → WriteLog → Option (List UInt8 × WriteLog) := printNumber 16

/-- The loop of `fprintformat` on the characters of the format: what it returns, and what was
printed.  `none` says that an argument is missing or has the other type. -/
def fprintformat : List UInt8 → List VaArg → Int → WriteLog → List UInt8 →
    Option (Int × List UInt8)
  | [], _, len, _, out => some (len, out)
  | c :: format, args, len, aux, out =>
      if c ≠ 37 then fprintformat format args (int32 (len + 1)) aux (out ++ [c])
      else
        match format with
        | [] => some (len, out) -- the symbol is the terminator
        | symbol :: format =>
            if symbol = 100 ∨ symbol = 105 then
              (vaInt args).bind fun (value, args) => (printi value aux).bind fun (text, aux) =>
                fprintformat format args (int32 (len + text.length)) aux (out ++ text)
            else if symbol = 115 then
              (vaStr args).bind fun (s, args) =>
                fprintformat format args (int32 (len + s.length)) aux (out ++ s)
            else if symbol = 120 then
              (vaInt args).bind fun (value, args) => (printx value aux).bind fun (text, aux) =>
                fprintformat format args (int32 (len + text.length)) aux (out ++ text)
            else if symbol = 98 then
              (vaInt args).bind fun (value, args) => (printb value aux).bind fun (text, aux) =>
                fprintformat format args (int32 (len + text.length)) aux (out ++ text)
            else if symbol = 99 then
              (vaInt args).bind fun (value, args) =>
                fprintformat format args (int32 (len + 1)) aux (out ++ [UInt8.ofInt value])
            else if symbol = 37 then
              fprintformat format args (int32 (len + 1)) aux (out ++ [37])
            else some (len, out)

/-- `printf`.  The array `aux` has any contents. -/
def printf (format : List UInt8) (args : List VaArg) (aux : WriteLog) :
    Option (Int × List UInt8) :=
  fprintformat format args 0 aux []

/-- `while (isdigit(aux[j+1])) j++` -/
def digitRun (aux : Nat → UInt8) : Nat → Nat → Option Nat
  | 0, _ => none
  | fuel + 1, j => if isdigit (charValue (aux (j + 1))) then digitRun aux fuel (j + 1) else some j

/-- The loop of `scanf`: `argc`, and what is stored through the pointers, in their order. -/
def scanLoop (format aux : Nat → UInt8) :
    Nat → Nat → Nat → Nat → List VaArg → Option (Nat × List VaArg)
  | 0, _, _, _, _ => none
  | fuel + 1, i, j, argc, stored =>
      if aux j ≠ 0 ∧ format i ≠ 0 then
        if format i = 37 then
          if format (i + 1) = 100 then
            if aux j ≠ 43 ∧ aux j ≠ 45 ∧ ¬isdigit (charValue (aux j)) then some (argc, stored)
            else
              let num := atoi (readString aux j bufferSize)
              (digitRun aux fuel j).bind fun j =>
                scanLoop format aux fuel (i + 1 + 1) (j + 1) (argc + 1) (stored ++ [.int num])
          else if format (i + 1) = 115 then
            some (argc + 1, stored ++ [.str (readString aux j bufferSize)])
          else if format (i + 1) = 37 ∧ aux j ≠ 37 then some (argc, stored)
          else
            -- `aux[j++]` was read if the symbol is '%'
            let j := if format (i + 1) = 37 then j + 1 else j
            scanLoop format aux fuel (i + 1 + 1) (j + 1) (argc + 1) stored
        else if format i ≠ aux j then some (argc, stored)
        else scanLoop format aux fuel (i + 1) (j + 1) argc stored
      else some (argc, stored)

/-- `scanf` on the characters that `getchar` returns.  The array `aux` has any contents first. -/
def scanf (fuel : Nat) (format aux : Nat → UInt8) (input : List UInt8) :
    Option (Nat × List VaArg × List UInt8) :=
  (readline 0 1024 aux input).bind fun (_, aux, input) =>
    (scanLoop format aux fuel 0 0 0 []).map fun (argc, stored) => (argc, stored, input)

/-! ## Formats -/

/-- A part of a format. -/
inductive Item where
  | literal (c : UInt8)
  /-- `%%` -/
  | percent
  /-- `%d` -/
  | number
deriving DecidableEq, Repr

/-- The characters of a part. -/
def Item.render : Item → List UInt8
  | .literal c => [c]
  | .percent => [37, 37]
  | .number => [37, 100]

/-- The characters of a format. -/
def render (items : List Item) : List UInt8 := items.flatMap Item.render

/-- What a format prints. -/
def textOf : List Item → List Int → List UInt8
  | [], _ => []
  | .literal c :: items, args => c :: textOf items args
  | .percent :: items, args => 37 :: textOf items args
  | .number :: items, value :: args => itoaText value 10 ++ textOf items args
  | .number :: items, [] => textOf items []

/-- A character that is none of '%', the digits and the signs. -/
def Plain (c : UInt8) : Prop :=
  c ≠ 0 ∧ c ≠ 37 ∧ c ≠ 43 ∧ c ≠ 45 ∧ ¬isdigit (charValue c)

/-- Two numbers do not stand side by side, and the literals are plain. -/
structure WellFormed (items : List Item) : Prop where
  plain : ∀ c, .literal c ∈ items → Plain c
  separated : items.IsChain fun a b => ¬(a = .number ∧ b = .number)

/-- The arguments fit the directives, and `itoa` can write them. -/
structure Fitting (items : List Item) (args : List Int) : Prop where
  count : args.length = items.count .number
  range : ∀ v, v ∈ args → -2 ^ 31 < v ∧ v < 2 ^ 31

variable {items : List Item} {args : List Int} {format aux : Nat → UInt8} {i j fuel argc : Nat}
  {stored : List VaArg} {value : Int} {c : UInt8} {s text : List UInt8}
  {r : Nat × List VaArg}

theorem WellFormed.tail {a : Item} (h : WellFormed (a :: items)) : WellFormed items :=
  ⟨fun c hc => h.plain c (List.mem_cons_of_mem _ hc), h.separated.tail⟩

/-- What comes behind a number does not start with a digit. -/
theorem WellFormed.headD (h : WellFormed (.number :: items)) (args : List Int) :
    ¬isdigit (charValue ((textOf items args).headD 0)) := by
  have hnul : ¬isdigit (charValue 0) := by decide
  have hpercent : ¬isdigit (charValue 37) := by decide
  cases items with
  | nil => exact hnul
  | cons a items =>
      cases a with
      | literal c =>
          have hplain := h.plain c (by simp)
          exact hplain.2.2.2.2
      | percent => exact hpercent
      | number => exact absurd ⟨rfl, rfl⟩ (List.isChain_cons_cons.mp h.separated).1

/-- An item that takes no argument. -/
theorem Fitting.tail {a : Item} (h : Fitting (a :: items) args) (ha : a ≠ .number) :
    Fitting items args := by
  refine ⟨?_, h.range⟩
  rw [h.count, List.count_cons_of_ne ha]

/-- A number takes the first argument. -/
theorem Fitting.number (h : Fitting (.number :: items) args) :
    ∃ value rest, args = value :: rest ∧ IntText value (itoaText value 10) ∧
      Fitting items rest := by
  have hcount := h.count
  rw [List.count_cons_self] at hcount
  obtain ⟨value, rest, rfl⟩ := List.exists_cons_of_length_eq_add_one hcount
  obtain ⟨lo, hi⟩ := h.range value List.mem_cons_self
  exact ⟨value, rest, rfl, intText_itoaText lo hi, Nat.succ.inj hcount,
    fun v hv => h.range v (List.mem_cons_of_mem _ hv)⟩

/-- A text has no terminator in it. -/
theorem noNul_textOf (hwf : WellFormed items) (hfit : Fitting items args) :
    0 ∉ textOf items args := by
  induction items generalizing args with
  | nil => exact List.not_mem_nil
  | cons a items ih =>
      cases a with
      | literal c =>
          have hplain := hwf.plain c List.mem_cons_self
          rw [textOf, List.mem_cons, not_or]
          exact ⟨hplain.1.symm, ih hwf.tail (hfit.tail (by simp))⟩
      | percent =>
          rw [textOf, List.mem_cons, not_or]
          exact ⟨by decide, ih hwf.tail (hfit.tail (by simp))⟩
      | number =>
          obtain ⟨value, rest, rfl, hint, hrest⟩ := hfit.number
          rw [textOf, List.mem_append, not_or]
          exact ⟨hint.noNul, ih hwf.tail hrest⟩

/-! ## What `printf` prints -/

theorem printi_eq (lo : -2 ^ 31 < value) (hi : value < 2 ^ 31) (m : WriteLog) :
    ∃ m', printi value m = some (itoaText value 10, m') := by
  obtain ⟨m', hrun, hput⟩ := itoa_puts (by decide : (2 : Int) ≤ 10) lo.le hi 0 m
  have hlen := length_itoaText_le value 10
  have hread : readString m'.bytes 0 auxSize = itoaText value 10 := by
    have hroom : (itoaText value 10).length < auxSize := Nat.lt_of_le_of_lt hlen (by decide)
    exact hput.stringAt.readString_eq (intText_itoaText lo hi).noNul hroom
  refine ⟨m', ?_⟩
  rw [printi, printNumber, hrun, Option.map_some]
  exact congrArg (fun text => some (text, m')) hread

theorem int32_add_int32 (a b : Int) : int32 (int32 a + b) = int32 (a + b) := Int.bmod_add_bmod

theorem fprintformat_literal (hc : c ≠ 37) (rest : List UInt8) (args : List VaArg) (len : Int)
    (m : WriteLog) (out : List UInt8) :
    fprintformat (c :: rest) args len m out =
      fprintformat rest args (int32 (len + 1)) m (out ++ [c]) :=
  (fprintformat.eq_def _ _ _ _ _).trans (if_pos hc)

theorem fprintformat_number {m m' : WriteLog} (hprint : printi value m = some (text, m'))
    (rest : List UInt8) (args : List VaArg) (len : Int) (out : List UInt8) :
    fprintformat (37 :: 100 :: rest) (.int value :: args) len m out =
      fprintformat rest args (int32 (len + text.length)) m' (out ++ text) := by
  rw [fprintformat, if_neg (not_not.mpr rfl), if_pos (.inl rfl), vaInt, Option.bind_some]
  change (printi value m).bind (fun p => fprintformat rest args (int32 (len + p.1.length)) p.2
    (out ++ p.1)) = _
  rw [hprint, Option.bind_some]

/-- `printf` prints the text of the format and returns its length. -/
theorem fprintformat_render (hwf : WellFormed items) (hfit : Fitting items args) (len : Int)
    (m : WriteLog) (out : List UInt8) :
    fprintformat (render items) (args.map .int) (int32 len) m out =
      some (int32 (len + (textOf items args).length), out ++ textOf items args) := by
  induction items generalizing args len m out with
  | nil =>
      rw [textOf, List.length_nil, List.append_nil, Nat.cast_zero, add_zero]
      rfl
  | cons a items ih =>
      rw [render, List.flatMap_cons]
      cases a with
      | literal c =>
          have hplain := hwf.plain c List.mem_cons_self
          rw [Item.render, List.singleton_append, fprintformat_literal hplain.2.1, int32_add_int32]
          refine (ih hwf.tail (hfit.tail (by simp)) _ _ _).trans ?_
          rw [textOf, List.append_assoc, List.singleton_append, List.length_cons, add_assoc,
            Nat.cast_succ, add_comm 1]
      | percent =>
          have hstep : fprintformat (Item.percent.render ++ items.flatMap Item.render)
              (args.map .int) (int32 len) m out =
              fprintformat (render items) (args.map .int) (int32 (int32 len + 1)) m
                (out ++ [37]) := rfl
          rw [hstep, int32_add_int32, ih hwf.tail (hfit.tail (by simp)), textOf, List.append_assoc,
            List.singleton_append, List.length_cons, add_assoc, Nat.cast_succ, add_comm 1]
      | number =>
          obtain ⟨value, rest, rfl, hint, hfit'⟩ := hfit.number
          obtain ⟨lo, hi⟩ := hfit.range value List.mem_cons_self
          obtain ⟨m', hprint⟩ := printi_eq lo hi m
          refine (fprintformat_number hprint _ _ _ _).trans ?_
          rw [int32_add_int32]
          refine (ih hwf.tail hfit' _ _ _).trans ?_
          rw [textOf, List.append_assoc, List.length_append, Nat.cast_add, add_assoc]

/-! ## What `scanf` reads -/

/-- The loop over the digits stops at the last one. -/
theorem digitRun_eq {digits : List UInt8} (hbytes : BytesAt aux (j + 1) digits)
    (hdigits : ∀ d ∈ digits, isdigit (charValue d))
    (hend : ¬isdigit (charValue (aux (j + 1 + digits.length)))) :
    digitRun aux fuel j = if digits.length < fuel then some (j + digits.length) else none := by
  induction digits generalizing j fuel with
  | nil =>
      cases fuel with
      | zero => rfl
      | succ fuel =>
          have hstop : ¬isdigit (charValue (aux (j + 1))) := hend
          rw [digitRun, if_neg hstop, List.length_nil, if_pos (Nat.succ_pos fuel)]
          rfl
  | cons d digits ih =>
      cases fuel with
      | zero => rfl
      | succ fuel =>
          have hfirst : aux (j + 1) = d := hbytes 0 (Nat.succ_pos _)
          have hrest : BytesAt aux (j + 1 + 1) digits :=
            (bytesAt_append (s := [d])).mp hbytes |>.2
          have hlast : j + 1 + (d :: digits).length = j + 1 + 1 + digits.length := by
            rw [List.length_cons]
            omega
          rw [hlast] at hend
          rw [digitRun, hfirst, if_pos (hdigits d List.mem_cons_self),
            ih hrest (fun e he => hdigits e (List.mem_cons_of_mem _ he)) hend, List.length_cons,
            Nat.add_right_comm j, Nat.add_assoc j]
          simp only [Nat.succ_lt_succ_iff]

/-- A round that compares a character. -/
theorem scanLoop_literal (haux : aux j = c) (hformat : format i = c) (hc : Plain c) :
    scanLoop format aux (fuel + 1) i j argc stored =
      scanLoop format aux fuel (i + 1) (j + 1) argc stored := by
  rw [scanLoop, haux, hformat, if_pos ⟨hc.1, hc.1⟩, if_neg hc.2.1, if_neg (not_not.mpr rfl)]

/-- A round that finds `%%` goes two characters on, and it counts. -/
theorem scanLoop_percent (haux : aux j = 37) (hformat : format i = 37)
    (hsymbol : format (i + 1) = 37) :
    scanLoop format aux (fuel + 1) i j argc stored =
      scanLoop format aux fuel (i + 2) (j + 2) (argc + 1) stored := by
  rw [scanLoop, haux, hformat, hsymbol, if_pos (by decide), if_pos rfl, if_neg (by decide),
    if_neg (by decide), if_neg (by decide), if_pos rfl]

/-- A round that reads a number goes behind its last digit. -/
theorem scanLoop_number (hint : IntText value s) (haux : StringAt aux j (s ++ text))
    (hnul : 0 ∉ text) (hend : ¬isdigit (charValue (text.headD 0)))
    (hshort : (s ++ text).length < bufferSize) (hformat : format i = 37)
    (hsymbol : format (i + 1) = 100) :
    scanLoop format aux (fuel + 1) i j argc stored =
      if s.length - 1 < fuel then
        scanLoop format aux fuel (i + 2) (j + s.length) (argc + 1) (stored ++ [.int value])
      else none := by
  have hread : readString aux j bufferSize = s ++ text := by
    refine haux.readString_eq ?_ hshort
    rw [List.mem_append, not_or]
    exact ⟨hint.noNul, hnul⟩
  have hvalue : atoi (readString aux j bufferSize) = value := by
    rw [hread]
    refine hint.atoi_append text fun d hd => ?_
    rwa [List.headD_eq_head?_getD, Option.mem_def.mp hd] at hend
  rw [haux.headD.symm] at hend
  obtain ⟨c, digits, rfl, hc, hdigits⟩ := hint.first
  obtain ⟨hfirst, hrest⟩ := haux.cons
  have hsign : ¬(aux j ≠ 43 ∧ aux j ≠ 45 ∧ ¬isdigit (charValue (aux j))) := by
    rw [hfirst]
    exact fun h => hc.elim h.2.1 h.2.2
  have hgo : aux j ≠ 0 ∧ format i ≠ 0 := by
    rw [hfirst, hformat]
    refine ⟨?_, by decide⟩
    rintro rfl
    exact hint.noNul List.mem_cons_self
  have hrun : digitRun aux fuel j =
      if digits.length < fuel then some (j + digits.length) else none :=
    digitRun_eq (bytesAt_append.mp hrest.1).1 hdigits (by
      have hlast : j + 1 + digits.length = j + (c :: digits).length := by
        rw [List.length_cons]
        omega
      rwa [hlast])
  rw [scanLoop, if_pos hgo, if_pos hformat, if_pos hsymbol, if_neg hsign, hvalue, hrun,
    List.length_cons, Nat.add_sub_cancel]
  by_cases hfuel : digits.length < fuel
  · rw [if_pos hfuel, if_pos hfuel]
    rfl
  · rw [if_neg hfuel, if_neg hfuel]
    rfl

/-- A round for a part other than `%%` stores the argument, if the part has one, and goes behind
the text. -/
theorem scanLoop_item {a : Item} (hwf : WellFormed (a :: items)) (hfit : Fitting (a :: items) args)
    (ha : a ≠ .percent) (haux : StringAt aux j (textOf (a :: items) args))
    (hformat : StringAt format i (render (a :: items)))
    (hshort : (textOf (a :: items) args).length < bufferSize) :
    ∃ now rest i' n, args = now ++ rest ∧ Fitting items rest ∧ 0 < n ∧
      (textOf (a :: items) args).length = n + (textOf items rest).length ∧
      StringAt aux (j + n) (textOf items rest) ∧ StringAt format i' (render items) ∧
      ∀ fuel argc stored, scanLoop format aux (fuel + 1) i j argc stored =
        if n - 1 < fuel then
          scanLoop format aux fuel i' (j + n) (argc + now.length) (stored ++ now.map .int)
        else none := by
  rw [render, List.flatMap_cons] at hformat
  cases a with
  | literal c =>
      obtain ⟨hc, htext⟩ := haux.cons
      obtain ⟨hf, hrest⟩ := hformat.cons
      refine ⟨[], args, i + 1, 1, rfl, hfit.tail (by simp), Nat.one_pos, ?_, htext, hrest,
        fun fuel argc stored => ?_⟩
      · rw [textOf, List.length_cons, Nat.add_comm]
      · rw [scanLoop_literal hc hf (hwf.plain c List.mem_cons_self), List.map_nil, List.append_nil]
        cases fuel with
        | zero => rfl
        | succ fuel => rw [if_pos (Nat.succ_pos fuel), List.length_nil, Nat.add_zero argc]
  | percent => exact absurd rfl ha
  | number =>
      obtain ⟨value, rest, rfl, hint, hfit'⟩ := hfit.number
      obtain ⟨hf, hsymbol⟩ := hformat.cons
      obtain ⟨hsymbol, hrest⟩ := hsymbol.cons
      rw [textOf] at haux hshort ⊢
      have hpos : 0 < (itoaText value 10).length := by
        obtain ⟨c, digits, hs, -⟩ := hint.first
        rw [hs]
        exact Nat.succ_pos _
      refine ⟨[value], rest, i + 1 + 1, (itoaText value 10).length, rfl, hfit', hpos,
        List.length_append, haux.drop, hrest, fun fuel argc stored => ?_⟩
      exact scanLoop_number hint haux (noNul_textOf hwf.tail hfit') (hwf.headD rest) hshort hf
        hsymbol

/-- Without `%%` the loop gets to the end and stores the arguments. -/
theorem scanLoop_render (hwf : WellFormed items) (hfit : Fitting items args)
    (hitems : .percent ∉ items) (haux : StringAt aux j (textOf items args))
    (hformat : StringAt format i (render items)) (hshort : (textOf items args).length < bufferSize)
    (hfuel : (textOf items args).length < fuel) :
    scanLoop format aux fuel i j argc stored =
      some (argc + args.length, stored ++ args.map .int) := by
  induction items generalizing args i j argc stored fuel with
  | nil =>
      obtain rfl : args = [] := List.eq_nil_of_length_eq_zero hfit.count
      obtain ⟨fuel, rfl⟩ := Nat.exists_eq_succ_of_ne_zero (Nat.ne_zero_of_lt hfuel)
      have hend : ¬(aux j ≠ 0 ∧ format i ≠ 0) := fun h => h.1 haux.2
      rw [scanLoop, if_neg hend, List.map_nil, List.append_nil]
      rfl
  | cons a items ih =>
      obtain ⟨ha, hrest⟩ := not_or.mp (mt List.mem_cons.mpr hitems)
      obtain ⟨fuel, rfl⟩ := Nat.exists_eq_succ_of_ne_zero (Nat.ne_zero_of_lt hfuel)
      obtain ⟨now, rest, i', n, rfl, hfit', hpos, hlen, htext, hformat', hstep⟩ :=
        scanLoop_item hwf hfit (Ne.symm ha) haux hformat hshort
      rw [hlen] at hshort hfuel
      rw [hstep, if_pos (by omega), ih hwf.tail hfit' hrest htext hformat' (by omega) (by omega),
        List.length_append, List.map_append, List.append_assoc, Nat.add_assoc]

/-- `argc` grows with every argument that is stored. -/
theorem scanLoop_le (h : scanLoop format aux fuel i j argc stored = some r) :
    argc + r.2.length ≤ r.1 + stored.length := by
  induction fuel generalizing i j argc stored with
  | zero => cases h
  | succ fuel ih =>
      have hstop : some (argc, stored) = some r → argc + r.2.length ≤ r.1 + stored.length := by
        intro he
        obtain rfl := Option.some.inj he
        exact Nat.le_refl _
      rw [scanLoop] at h
      split at h
      next =>
        split at h
        next =>
          split at h
          next =>
            split at h
            next => exact hstop h
            next =>
              obtain ⟨k, -, hnext⟩ := Option.bind_eq_some_iff.mp h
              have hle := ih hnext
              rw [List.length_append, List.length_singleton] at hle
              omega
          next =>
            split at h
            next =>
              obtain rfl := Option.some.inj h
              rw [List.length_append, List.length_singleton]
              omega
            next =>
              split at h
              next => exact hstop h
              next =>
                have hle := ih h
                omega
        next =>
          split at h
          next => exact hstop h
          next => exact ih h
      next => exact hstop h

/-- With `%%` it counts more than it stores, whatever stands behind. -/
theorem scanLoop_lt (hwf : WellFormed items) (hfit : Fitting items args)
    (hitems : .percent ∈ items) (haux : StringAt aux j (textOf items args))
    (hformat : StringAt format i (render items)) (hshort : (textOf items args).length < bufferSize)
    (h : scanLoop format aux fuel i j argc stored = some r) :
    argc + r.2.length < r.1 + stored.length := by
  induction items generalizing args i j argc stored fuel with
  | nil => exact absurd hitems List.not_mem_nil
  | cons a items ih =>
      cases fuel with
      | zero => cases h
      | succ fuel =>
          by_cases ha : a = .percent
          · subst ha
            obtain ⟨hc, -⟩ := haux.cons
            obtain ⟨hf, hsymbol⟩ := hformat.cons
            rw [scanLoop_percent hc hf hsymbol.cons.1] at h
            have hle := scanLoop_le h
            omega
          · have hrest : .percent ∈ items := (List.mem_cons.mp hitems).resolve_left (Ne.symm ha)
            obtain ⟨now, rest, i', n, rfl, hfit', hpos, hlen, htext, hformat', hstep⟩ :=
              scanLoop_item hwf hfit ha haux hformat hshort
            rw [hstep] at h
            split at h
            next =>
              have hlt := ih hwf.tail hfit' hrest htext hformat' (by omega) h
              rw [List.length_append, List.length_map] at hlt
              omega
            next => cases h

/-! ## Both together -/

/-- `scanf` on the line `text` returns the number of `%d` and stores the arguments. -/
def ReadsBack (items : List Item) (args : List Int) (text : List UInt8) (format aux : Nat → UInt8)
    (rest : List UInt8) : Prop :=
  ∃ n, ∀ fuel, n ≤ fuel → ∃ rest', scanf fuel format aux (text ++ newline :: rest) =
    some (items.count .number, args.map .int, rest')

/-- `scanf` has the line in front of its loop. -/
theorem scanf_line (hline : newline ∉ text) (hshort : text.length < bufferSize)
    (format aux : Nat → UInt8) (rest : List UInt8) :
    ∃ aux' rest', StringAt aux' 0 text ∧ ∀ fuel, scanf fuel format aux (text ++ newline :: rest) =
      (scanLoop format aux' fuel 0 0 0 []).map fun (argc, stored) => (argc, stored, rest') := by
  have hroom : ([] : List UInt8).length + text.length ≤ ((1024 : UInt32) - 1).toNat := by
    rw [List.length_nil, Nat.zero_add]
    exact Nat.le_of_lt_succ hshort
  have hempty : BytesAt aux 0 [] := bytesAt_nil
  obtain ⟨mem, rest', hrun, hbytes⟩ : ∃ mem rest',
      readlineLoop 0 1024 (text ++ newline :: rest) 0 aux = some (text.length, mem, rest') ∧
        BytesAt mem 0 text := readlineLoop_line hline hempty hroom
  refine ⟨update mem (0 + text.length) 0, rest', ⟨?_, update_self _ _ _⟩, fun fuel => ?_⟩
  · exact hbytes.congr fun k hk => update_of_ne (by omega) _ _
  · have hread : readline 0 1024 aux (text ++ newline :: rest) =
        some (int32 text.length, update mem (0 + text.length) 0, rest') :=
      congrArg (Option.map _) hrun
    rw [scanf, hread]
    rfl

/-- `scanf` reads back what was printed exactly if the format has no `%%` in it. -/
theorem readsBack_iff (hwf : WellFormed items) (hfit : Fitting items args)
    (hline : newline ∉ textOf items args) (hshort : (textOf items args).length < bufferSize)
    (hformat : StringAt format 0 (render items)) (aux : Nat → UInt8) (rest : List UInt8) :
    ReadsBack items args (textOf items args) format aux rest ↔ .percent ∉ items := by
  obtain ⟨aux', rest', haux, hscan⟩ := scanf_line hline hshort format aux rest
  constructor
  · rintro ⟨n, hn⟩ hitems
    obtain ⟨rest'', hrun⟩ := hn n (Nat.le_refl n)
    rw [hscan] at hrun
    obtain ⟨r, hloop, he⟩ := Option.map_eq_some_iff.mp hrun
    obtain ⟨hargc, hstored, -⟩ : r.1 = items.count .number ∧ r.2 = args.map .int ∧ _ := by
      simpa using he
    have hlt := scanLoop_lt hwf hfit hitems haux hformat hshort hloop
    rw [hargc, hstored, List.length_map, ← hfit.count, List.length_nil] at hlt
    omega
  · intro hitems
    refine ⟨(textOf items args).length + 1, fun fuel hfuel => ⟨rest', ?_⟩⟩
    rw [hscan, scanLoop_render hwf hfit hitems haux hformat hshort hfuel, ← hfit.count,
      Nat.zero_add, List.nil_append]
    rfl

/-- `printf` prints a text, and if it fits a line, `scanf` reads it back exactly if the format has
no `%%` in it. -/
theorem scanf_printf (hwf : WellFormed items) (hfit : Fitting items args) (m : WriteLog) :
    ∃ text, printf (render items) (args.map .int) m = some (int32 text.length, text) ∧
      (newline ∉ text → text.length < bufferSize →
        ∀ (format aux : Nat → UInt8) (rest : List UInt8), StringAt format 0 (render items) →
          (ReadsBack items args text format aux rest ↔ .percent ∉ items)) := by
  refine ⟨textOf items args, ?_, fun hline hshort format aux rest hformat =>
    readsBack_iff hwf hfit hline hshort hformat aux rest⟩
  have hprint := fprintformat_render hwf hfit 0 m []
  rwa [zero_add, List.nil_append] at hprint

theorem scanf_printf_pair :
    ∃ text, printf (render [.number, .literal 120, .number]) [.int (-12), .int 7] ⟨fun _ => 0, []⟩ =
        some (int32 text.length, text) ∧
      (newline ∉ text → text.length < bufferSize →
        ∀ (format aux : Nat → UInt8) (rest : List UInt8),
          StringAt format 0 (render [.number, .literal 120, .number]) →
            (ReadsBack [.number, .literal 120, .number] [-12, 7] text format aux rest ↔
              .percent ∉ [Item.number, .literal 120, .number])) := by
  have hwf : WellFormed [.number, .literal 120, .number] := by
    refine ⟨fun c hc => ?_, by simp⟩
    obtain rfl : c = 120 := by simpa using hc
    exact ⟨by decide, by decide, by decide, by decide, by decide⟩
  have hfit : Fitting [.number, .literal 120, .number] [-12, 7] := ⟨by decide, by decide⟩
  exact scanf_printf hwf hfit ⟨fun _ => 0, []⟩

/-- The format `%%` prints one character, and `scanf` returns 1 for it. -/
theorem scanf_counts_percent :
    ¬∀ (items : List Item) (args : List Int) (m : WriteLog) (text : List UInt8),
      WellFormed items → Fitting items args →
        printf (render items) (args.map .int) m = some (int32 text.length, text) →
          newline ∉ text → text.length < bufferSize →
            ∀ (format aux : Nat → UInt8) (rest : List UInt8), StringAt format 0 (render items) →
              ReadsBack items args text format aux rest := by
  intro h
  have hformat : StringAt (fun i => if i < 2 then 37 else 0) 0 (render [.percent]) := by
    refine ⟨fun i hi => ?_, rfl⟩
    have hlt : i = 0 ∨ i = 1 := by
      change i < 2 at hi
      omega
    rcases hlt with rfl | rfl
    · rfl
    · rfl
  obtain ⟨n, hn⟩ := h [.percent] [] ⟨fun _ => 0, []⟩ [37] ⟨by simp, by simp⟩ ⟨rfl, by simp⟩ rfl
    (by decide) (by decide) _ (fun _ => 0) [] hformat
  obtain ⟨rest', hrun⟩ := hn (n + 2) (Nat.le_add_right n 2)
  have hone : (scanf (n + 2) (fun i => if i < 2 then 37 else 0) (fun _ => 0) [37, newline]).map
      (fun r => r.1) = some 1 := rfl
  have hzero : (scanf (n + 2) (fun i => if i < 2 then 37 else 0) (fun _ => 0) [37, newline]).map
      (fun r => r.1) = some 0 := congrArg (Option.map fun r => r.1) hrun
  cases hone.symm.trans hzero

/-- For the format `%%%d` it takes the 4 of 42 for the second character of the `%%`. -/
example : scanf 9 (fun i => [37, 37, 37, 100].getD i 0) (fun _ => 0) [37, 52, 50, newline] =
    some (2, [.int 2], []) := rfl

end FormattedText

end TPE
