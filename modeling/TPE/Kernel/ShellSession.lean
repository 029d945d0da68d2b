import TPE.Kernel.ArgumentPage
import TPE.Kernel.Shell

/-!
# A session with the shell

`shell` reads a line, takes it apart and calls `execute`, again and again.  The characters come
through `getchar` from `fill_buffer`, which carries out the backspaces, and `readline_no_spaces`
drops the white space around the words.  `execute` compares the name with those of its table, and
`execp` splits the argument string into the words of the argument vector.

A session is all of these together.  What was typed are the lines of the input, and each of them
asks for a command: its first word, the words behind it, and whether a separate '&' ends it.
-/

namespace TPE

open Function ByteMemory

namespace Shell

open Stdio LineReader

/-! ## The code -/

/-- The loop of `readline_no_spaces` with its calls of `getchar`.  The first argument behind
`maxlen` bounds the rounds. -/
def noSpacesGetchar (str : Nat) (maxlen : UInt32) :
    Nat → Nat → Bool → (Nat → UInt8) → Stdin → List UInt8 →
      Option (Nat × (Nat → UInt8) × Stdin × List UInt8)
  | 0, _, _, _, _, _ => none
  | rounds + 1, i, space, mem, t, input =>
      (getchar t input).bind fun (c, t, input) =>
        if c ≠ newline ∧ i < (maxlen - 1).toNat then
          if space = false then
            noSpacesGetchar str maxlen rounds (i + 1) (if isspace c.toNat then true else space)
              (update mem (str + i) c) t input
          else if ¬isspace c.toNat then
            noSpacesGetchar str maxlen rounds (i + 1) false (update mem (str + i) c) t input
          else noSpacesGetchar str maxlen rounds i space mem t input
        else some (i, mem, t, input)

/-- `readline_no_spaces` -/
def readlineStdin (str : Nat) (maxlen : UInt32) (rounds : Nat) (mem : Nat → UInt8) (t : Stdin)
    (input : List UInt8) : Option ((Nat → UInt8) × Stdin × List UInt8) :=
  (noSpacesGetchar str maxlen rounds 0 true mem t input).map fun (i, mem, t, input) =>
    let i := if 0 < i ∧ isspace (charValue (mem (str + (i - 1)))) then i - 1 else i
    (update mem (str + i) 0, t, input)

/-- The bytes of a text. -/
def bytesOf (text : List Char) : List UInt8 := text.map fun c => c.toNat.toUInt8

/-- The names of the table `commands`. -/
def commands : List CString :=
  [⟨bytesOf ['h', 'e', 'l', 'p'], by decide⟩,
    ⟨bytesOf ['t', 'i', 'm', 'e'], by decide⟩,
    ⟨bytesOf ['c', 'l', 'e', 'a', 'r'], by decide⟩,
    ⟨bytesOf ['e', 'c', 'h', 'o'], by decide⟩,
    ⟨bytesOf ['t', 'e', 's', 't'], by decide⟩,
    ⟨bytesOf ['p', 'h', 'i', 'l', 'o'], by decide⟩,
    ⟨bytesOf ['p', 'r', 'o', 'd', 'c', 'o', 'n'], by decide⟩,
    ⟨bytesOf ['w', 'r', 'i', 't', 'e'], by decide⟩,
    ⟨bytesOf ['r', 'e', 'a', 'd'], by decide⟩,
    ⟨bytesOf ['t', 'e', 's', 't', '2'], by decide⟩,
    ⟨bytesOf ['k', 'i', 'l', 'l'], by decide⟩,
    ⟨bytesOf ['p', 'r', 'i', 'n', 't'], by decide⟩,
    ⟨bytesOf ['p', 's'], by decide⟩,
    ⟨bytesOf ['i', 'p', 'c', 's'], by decide⟩,
    ⟨bytesOf ['s', 'h', 'e', 'l', 'l'], by decide⟩]

/-- A call of `execp`: the number of the command in the table, the argument string, and whether
`sys_set_foreground` follows. -/
structure ExecpCall where
  command : Nat
  arg : CString
  foreground : Bool
deriving DecidableEq

/-- What `execute` returns. -/
inductive Validity where
  | valid
  | unsupported
deriving DecidableEq

/-- The loop of `execute`, from the entry `i` on. -/
def executeFrom (name args : CString) (foreground : Int) :
    List CString → Nat → Validity → Validity × List ExecpCall
  | [], _, v => (v, [])
  | c :: cs, i, v =>
      if CString.strcmp name c = 0 then
        let (v, calls) := executeFrom name args foreground cs (i + 1) .valid
        (v, ⟨i, args, foreground ≠ 0⟩ :: calls)
      else executeFrom name args foreground cs (i + 1) v

/-- `execute` -/
def execute (name args : CString) (foreground : Int) : Validity × List ExecpCall :=
  executeFrom name args foreground commands 0 .unsupported

/-- The string of an array that a function is called with. -/
def ShellMem.cstring (s : ShellMem) (a : ShellArray) (i : Int) : CString :=
  ⟨s.string a i, zero_notMem_readString _ _ _⟩

/-- The array `buffer` was written. -/
def ShellMem.withBuffer (s : ShellMem) (mem : Nat → UInt8) : ShellMem where
  bytes x := if x.1 = .buffer ∧ 0 ≤ x.2 then mem x.2.toNat else s.bytes x
  touched := s.touched

/-- The shell's arrays, the buffer of `getchar`, the characters that `sys_read` will return, and
what `execute` did. -/
structure Session where
  mem : ShellMem
  stdin : Stdin
  input : List UInt8
  log : List (Validity × List ExecpCall)

/-- One round of the loop of `shell`. -/
def shellRound (rounds : Nat) (s : Session) : Option Session := do
  let (mem, stdin, input) ← readlineStdin 0 256 rounds (s.mem.text .buffer) s.stdin s.input
  let (call, mem) ← shellLine (s.mem.withBuffer mem)
  match call with
  | none => some { s with mem, stdin, input }
  | some call =>
      some
        { mem, stdin, input
          log := s.log ++
            [execute (mem.cstring .cmdName 0) (mem.cstring .buffer call.args) call.foreground] }

/-- The shell, with nothing in the buffer of `getchar`, when the characters of `input` are typed.
An action gives the rounds that reading a line may take. -/
def session (input : List UInt8) : System Session Nat where
  init s := s.stdin.buffi = 0 ∧ s.input = input ∧ s.log = []
  next s rounds := shellRound rounds s

/-! ## What was typed -/

/-- The lines that are typed, with the backspaces carried out and without their newlines. -/
def linesOf (input : List UInt8) : List (List UInt8) := (chunksFrom [] input).map List.dropLast

/-- The words of a line. -/
def typedWords (line : List UInt8) : List (List UInt8) :=
  words 32 (trimEnd White (squeeze White line))

/-- What a line asks for. -/
structure Request where
  name : List UInt8
  args : List (List UInt8)
  foreground : Bool
deriving DecidableEq

/-- A line with words asks for a command.  A '&' at its end is no argument. -/
def requested (line : List UInt8) : List Request :=
  match typedWords line with
  | [] => []
  | w :: ws =>
      if ws.getLast? = some [38] then [⟨w, ws.dropLast, false⟩] else [⟨w, ws, true⟩]

/-- `execute` did what was asked for: the command of this name was started with these words as its
arguments, or there is none.  The page that `execp` fills has room for 30 words. -/
def Serves (done : Validity × List ExecpCall) (r : Request) : Prop :=
  match commands.findIdx? (·.bytes = r.name) with
  | none => done = (.unsupported, [])
  | some i => ∃ arg, done = (.valid, [⟨i, arg, r.foreground⟩]) ∧ wordsOf arg = r.args ∧
      (r.args.length ≤ 30 → ∀ memory functionPtr m, IsPage memory → functionPtr < 2 ^ 64 →
        ArgsSplit arg functionPtr memory m)

/-- The line has no NUL in it, its text fits into the array, and it is not just a '&'. -/
structure Entered (line : List UInt8) : Prop where
  noNul : (0 : UInt8) ∉ line
  fits : EndsLine 255 [] line newline
  notAmp : trimEnd White (squeeze White line) ≠ [38]

/-! ## Reading through `getchar` -/

variable {t t' : Stdin} {u input rest : List UInt8} {c : UInt8} {str i j rounds : Nat}
  {maxlen : UInt32} {space : Bool} {mem mem' : Nat → UInt8}

/-- The characters that calls of `getchar` will return. -/
def stream (t : Stdin) (u input : List UInt8) : List UInt8 :=
  u ++ deliveredFrom (t.buffer (bufferSize - 1)) [] input

/-- `getchar` waits, or it takes the first character of the stream. -/
theorem getchar_stream (h : Unread t u) (input : List UInt8) :
    (getchar t input = none ∧ stream t u input = []) ∨
      ∃ c t' input' u', getchar t input = some (c, t', input') ∧ Unread t' u' ∧
        stream t u input = c :: stream t' u' input' := by
  unfold stream
  by_cases ht : t.buffi = 0
  · obtain rfl : u = [] := by rwa [Unread, if_pos ht] at h
    rw [List.nil_append]
    rcases getchar_empty ht input with
      ⟨hwait, hnone⟩ | ⟨c, t', rest, s, chunk, hget, hchunks, hserved, hunread, hlast⟩
    · exact Or.inl ⟨hwait, by rw [deliveredFrom, hnone]; rfl⟩
    · refine Or.inr ⟨c, t', rest, s, hget, hunread, ?_⟩
      rw [deliveredFrom, hchunks, List.flatMap_cons, hserved, hlast]
      rfl
  · rw [Unread, if_neg ht] at h
    obtain ⟨u', hu, hunread⟩ := readBuffer_line h
    refine Or.inr ⟨_, _, _, u', by rw [getchar, if_neg ht], hunread, ?_⟩
    rw [hu]
    rfl

/-- The loop waits or runs out of rounds, or it does on the stream what it does on a list. -/
theorem noSpacesGetchar_spec (rounds : Nat) (h : Unread t u) (input : List UInt8) :
    (noSpacesGetchar str maxlen rounds i space mem t input = none ∧
      (rounds ≤ (stream t u input).length ∨
        noSpacesLoop str maxlen (stream t u input) i space mem = none)) ∨
    ∃ j mem' t' input' u', Unread t' u' ∧
      noSpacesGetchar str maxlen rounds i space mem t input = some (j, mem', t', input') ∧
      noSpacesLoop str maxlen (stream t u input) i space mem =
        some (j, mem', stream t' u' input') := by
  induction rounds generalizing t u i space mem input with
  | zero => exact Or.inl ⟨rfl, Or.inl (Nat.zero_le _)⟩
  | succ rounds ih =>
      rcases getchar_stream h input with
        ⟨hwait, hnil⟩ | ⟨c, t', input', u', hget, hunread, hcons⟩
      · left
        rw [noSpacesGetchar, hwait, hnil]
        exact ⟨rfl, Or.inr rfl⟩
      · rw [noSpacesGetchar, hget, hcons, noSpacesLoop, Option.bind_some]
        simp only [List.length_cons, Nat.add_le_add_iff_right]
        split
        · split
          · exact ih hunread input'
          · split
            · exact ih hunread input'
            · exact ih hunread input'
        · exact Or.inr ⟨i, mem, t', input', u', hunread, rfl, rfl⟩

/-- `readline_no_spaces` the same. -/
theorem readlineStdin_spec (rounds : Nat) (h : Unread t u) (input : List UInt8) :
    (readlineStdin str maxlen rounds mem t input = none ∧
      (rounds ≤ (stream t u input).length ∨
        readlineNoSpaces str maxlen mem (stream t u input) = none)) ∨
    ∃ mem' t' input' u' r, Unread t' u' ∧
      readlineStdin str maxlen rounds mem t input = some (mem', t', input') ∧
      readlineNoSpaces str maxlen mem (stream t u input) =
        some (r, mem', stream t' u' input') := by
  have hloops : (noSpacesGetchar str maxlen rounds 0 true mem t input = none ∧ _) ∨ _ :=
    noSpacesGetchar_spec rounds h input
  rcases hloops with ⟨hnone, hwait⟩ | ⟨j, mem', t', input', u', hunread, hrun, hloop⟩
  · left
    rw [readlineStdin, hnone, readlineNoSpaces]
    refine ⟨rfl, hwait.imp_right fun hloop => ?_⟩
    rw [hloop]
    rfl
  · right
    rw [readlineStdin, hrun, readlineNoSpaces, hloop]
    exact ⟨_, t', input', u', _, hunread, rfl, rfl⟩

/-- The loop does not wait behind the end of a line. -/
theorem noSpacesLoop_ended {pre kept : List UInt8} (h : Holding mem str i space kept)
    (hline : EndsLine (maxlen - 1).toNat kept pre c) (rest : List UInt8) :
    (noSpacesLoop str maxlen (pre ++ c :: rest) i space mem).isSome := by
  induction pre generalizing kept i space mem with
  | nil =>
      have hend : ¬(c ≠ newline ∧ i < (maxlen - 1).toNat) := by
        rintro ⟨hc, hlt⟩
        rw [h.i_eq] at hlt
        exact hline.elim hc (Nat.not_le.mpr hlt)
      rw [List.nil_append, noSpacesLoop, if_neg hend]
      rfl
  | cons d pre ih =>
      obtain ⟨hd, hroom, hline⟩ := hline
      obtain ⟨mem', space', hheld, he⟩ := h.round hd (h.i_eq ▸ hroom) (pre ++ c :: rest)
      rw [List.cons_append, he]
      exact ih hheld hline

/-- A line that is typed is stored squeezed. -/
theorem readlineStdin_line {line : List UInt8} (rounds : Nat) (h : Unread t u)
    (hstream : stream t u input = line ++ newline :: rest) (hline : EndsLine 255 [] line newline) :
    (readlineStdin 0 256 rounds mem t input = none ∧ rounds ≤ (stream t u input).length) ∨
    ∃ mem' t' input' u', Unread t' u' ∧
      readlineStdin 0 256 rounds mem t input = some (mem', t', input') ∧
      stream t' u' input' = rest ∧
      StringAt mem' 0 (trimEnd White (squeeze White line)) ∧
      (trimEnd White (squeeze White line)).length < 256 := by
  have hroom : ((256 : UInt32) - 1).toNat = 255 := rfl
  have hreads : (readlineStdin 0 256 rounds mem t input = none ∧ _) ∨ _ :=
    readlineStdin_spec rounds h input
  rcases hreads with ⟨hnone, hwait⟩ | ⟨mem', t', input', u', r, hunread, hrun, hread⟩
  · refine Or.inl ⟨hnone, hwait.resolve_right fun hread => ?_⟩
    have hsome : (noSpacesLoop 0 256 (line ++ newline :: rest) 0 true mem).isSome :=
      noSpacesLoop_ended (Holding.nil mem 0) (hroom ▸ hline) rest
    rw [readlineNoSpaces, Option.map_eq_none_iff, hstream] at hread
    rw [hread] at hsome
    cases hsome
  · rcases readlineNoSpaces_spec 0 256 mem (stream t u input) with
      hwait | ⟨pre, c, rest', mem'', hinput, hends, hstring, hlen, hrun'⟩
    · rw [hread] at hwait
      cases hwait
    · rw [hroom] at hends hlen
      obtain ⟨rfl, rfl⟩ := hends.unique hline (hinput.symm.trans hstream)
      rw [hread, Option.some.injEq, Prod.mk.injEq, Prod.mk.injEq] at hrun'
      obtain ⟨-, rfl, hrest⟩ := hrun'
      have hsame : rest' = rest := by
        rw [hinput] at hstream
        exact (List.cons.inj (List.append_cancel_left hstream)).2
      exact Or.inr ⟨mem', t', input', u', hunread, hrun, hrest.trans hsame, hstring,
        Nat.lt_succ_of_le hlen⟩

/-! ## `execute` -/

theorem bytes_inj {a b : CString} : a.bytes = b.bytes ↔ a = b := by
  cases a
  cases b
  simp

/-- The table is searched for the name. -/
theorem executeFrom_eq (name args : CString) (foreground : Int) (hname : name.strLen < CString.uintMax)
    (cs : List CString) (hcs : cs.Nodup) (i : Nat) (v : Validity) :
    executeFrom name args foreground cs i v =
      match cs.findIdx? (·.bytes = name.bytes) with
      | none => (v, [])
      | some k => (.valid, [⟨i + k, args, foreground ≠ 0⟩]) := by
  induction cs generalizing i v with
  | nil => rfl
  | cons c cs ih =>
      obtain ⟨hc, hcs⟩ := List.nodup_cons.mp hcs
      have hbytes : c.bytes = name.bytes ↔ name = c := bytes_inj.trans eq_comm
      have hcmp := CString.strcmp_eq_zero_iff (t := c) hname
      rw [executeFrom, List.findIdx?_cons]
      by_cases he : name = c
      · rw [if_pos (hcmp.mpr he), ih hcs, decide_eq_true (hbytes.mpr he)]
        subst he
        -- no other entry has this name
        have hnone : cs.findIdx? (·.bytes = name.bytes) = none := by
          refine List.findIdx?_eq_none_iff.mpr fun d hd => decide_eq_false fun hbytes' => hc ?_
          rwa [← bytes_inj.mp hbytes']
        rw [hnone]
        rfl
      · rw [if_neg (mt hcmp.mp he), ih hcs, decide_eq_false (mt hbytes.mp he)]
        cases cs.findIdx? (·.bytes = name.bytes) with
        | none => rfl
        | some k =>
            simp only [Option.map_some, Bool.false_eq_true, if_false]
            rw [Nat.add_assoc, Nat.add_comm 1]

/-- The words of an argument string are found again, and the page has room for 30. -/
theorem args_split {arg : CString} {ws : List (List UInt8)} (harg : arg.bytes = [32].intercalate ws)
    (hws : ∀ v ∈ ws, v ≠ [] ∧ 32 ∉ v) (hlen : arg.bytes.length ≤ 255) :
    wordsOf arg = ws ∧ (ws.length ≤ 30 → ∀ memory functionPtr m, IsPage memory →
      functionPtr < 2 ^ 64 → ArgsSplit arg functionPtr memory m) := by
  have hwords : wordsOf arg = ws := by
    rw [wordsOf, harg]
    cases ws with
    | nil => rfl
    | cons w ws =>
        have hne : [32].intercalate (w :: ws) ≠ [] := by
          rw [intercalate_cons_eq]
          exact List.append_ne_nil_of_left_ne_nil (hws w List.mem_cons_self).1 _
        rw [if_neg hne]
        exact List.splitOn_intercalate 32 (fun v hv => (hws v hv).2) (List.cons_ne_nil w ws)
  refine ⟨hwords, fun hmax memory functionPtr m hpage hfp => ?_⟩
  refine argsSplit_of_le ⟨hlen, fun w hw => ?_⟩ hpage hfp (hwords.symm ▸ hmax)
  rw [hwords] at hw
  exact (hws w hw).1

/-- `execute` on the name and the argument string of a request. -/
theorem execute_serves {name arg : CString} {r : Request} {foreground : Int}
    (hname : name.bytes = r.name) (harg : arg.bytes = [32].intercalate r.args)
    (hfg : decide (foreground ≠ 0) = r.foreground) (hargs : ∀ v ∈ r.args, v ≠ [] ∧ 32 ∉ v)
    (hshort : name.bytes.length < CString.uintMax) (hlen : arg.bytes.length ≤ 255) :
    Serves (execute name arg foreground) r := by
  have hnodup : commands.Nodup := by decide
  have hrun := executeFrom_eq name arg foreground hshort commands hnodup 0 .unsupported
  rw [Serves, execute, hrun, hname]
  cases commands.findIdx? (·.bytes = r.name) with
  | none => rfl
  | some k =>
      refine ⟨arg, ?_, args_split harg hargs hlen⟩
      change (Validity.valid, [ExecpCall.mk (0 + k) arg (decide (foreground ≠ 0))]) = _
      rw [Nat.zero_add, hfg]

/-! ## One line -/

theorem text_withBuffer (s : ShellMem) (mem : Nat → UInt8) :
    (s.withBuffer mem).text .buffer = mem := by
  funext n
  change (if ShellArray.buffer = .buffer ∧ (0 : Int) ≤ n then mem (n : Int).toNat
    else s.bytes (.buffer, n)) = _
  rw [if_pos ⟨rfl, Int.natCast_nonneg n⟩]
  rfl

theorem length_intercalate_dropLast (ws : List (List UInt8)) :
    ([32].intercalate ws.dropLast).length ≤ ([32].intercalate ws).length := by
  rcases List.eq_nil_or_concat' ws with rfl | ⟨ws, v, rfl⟩
  · exact Nat.le_refl _
  · rw [List.dropLast_concat, ← tail_flatMap, ← tail_flatMap, List.flatMap_append,
      List.length_tail, List.length_tail, List.length_append]
    omega

/-- A line that is not blank is squeezed to its words. -/
theorem squeezed_typedWords {line : List UInt8}
    (hne : trimEnd White (squeeze White line) ≠ []) :
    ∃ w ws, (∀ v ∈ w :: ws, v ≠ [] ∧ 32 ∉ v) ∧
      trimEnd White (squeeze White line) = w ++ ws.flatMap ((32 : UInt8) :: ·) ++ [] ∧
      typedWords line = w :: ws := by
  have hsqueezed : Squeezed (· = 32) (trimEnd White (squeeze White line)) :=
    (squeezed_squeeze line).trimEnd.mono (by
      rintro c rfl
      decide)
  obtain ⟨w, ws, tail, hws, htext, htail⟩ := hsqueezed.exists_words hne
  -- it ends in a word
  obtain rfl : tail = [] := by
    refine htail.resolve_right fun he => ?_
    have hlast := (squeezed_squeeze line : Squeezed White (squeeze White line)).trimEnd_last 32
    rw [htext, he, List.getLast?_concat] at hlast
    exact hlast rfl (by decide)
  refine ⟨w, ws, hws, htext, ?_⟩
  rw [typedWords, htext, words_append hws (Or.inl rfl)]

/-- What `shell` makes of a line that it has read. -/
theorem shellLine_serves {line : List UInt8} {m : ShellMem} (hline : Entered line)
    (hstring : StringAt (m.text .buffer) 0 (trimEnd White (squeeze White line)))
    (hlen : (trimEnd White (squeeze White line)).length < 256) :
    ∃ call m', shellLine m = some (call, m') ∧
      List.Forall₂ Serves
        (call.elim [] fun call =>
          [execute (m'.cstring .cmdName 0) (m'.cstring .buffer call.args) call.foreground])
        (requested line) := by
  have hzero : (0 : UInt8) ∉ trimEnd White (squeeze White line) :=
    fun hm => hline.noNul ((mem_trimEnd_squeeze (by decide)).mp hm)
  by_cases hnil : trimEnd White (squeeze White line) = []
  · have hfirst : m.bytes (.buffer, 0) = 0 := by
      rw [hnil] at hstring
      exact hstring.2
    have hnone : requested line = [] := by
      rw [requested, typedWords, hnil]
      rfl
    refine ⟨none, m.touch .buffer 0, ?_, hnone ▸ .nil⟩
    rw [shellLine]
    exact if_neg (not_not.mpr hfirst)
  · obtain ⟨w, ws, hws, htext, hwords⟩ := squeezed_typedWords hnil
    have hamp := hline.notAmp
    rw [htext] at hstring hlen hzero hamp
    obtain ⟨call, m', hrun, -, hcall⟩ := shellLine_words hws (Or.inl rfl) hzero hlen hamp hstring
    refine ⟨some call, m', hrun, ?_⟩
    have hfree : ∀ v ∈ ws, v ≠ [] ∧ 32 ∉ v := fun v hv => hws v (List.mem_cons_of_mem w hv)
    rw [List.append_nil, List.length_append] at hlen
    have hshort : w.length < CString.uintMax := by
      rw [CString.uintMax]
      omega
    have hargs : ([32].intercalate ws).length ≤ 255 := by
      rw [← tail_flatMap, List.length_tail]
      omega
    rw [requested, hwords]
    simp only [and_true, List.append_nil, tail_flatMap] at hcall ⊢
    split at hcall
    next hlast =>
      obtain ⟨hname, harg, hfg⟩ := Command.mk.inj hcall
      rw [if_pos hlast]
      refine .cons (execute_serves hname harg (by rw [hfg]; rfl)
        (fun v hv => hfree v ((List.dropLast_sublist ws).subset hv))
        (lt_of_eq_of_lt (congrArg List.length hname) hshort) ?_) .nil
      change (m'.string .buffer call.args).length ≤ 255
      rw [harg]
      exact (length_intercalate_dropLast ws).trans hargs
    next hlast =>
      obtain ⟨hname, harg, hfg⟩ := Command.mk.inj hcall
      rw [if_neg hlast]
      refine .cons (execute_serves hname harg (by rw [hfg]; rfl) hfree
        (lt_of_eq_of_lt (congrArg List.length hname) hshort) ?_) .nil
      change (m'.string .buffer call.args).length ≤ 255
      rw [harg]
      exact hargs

/-- One round of `shell` on a line that is typed. -/
theorem shellRound_line {s : Session} {line : List UInt8} (rounds : Nat) (h : Unread s.stdin u)
    (hstream : stream s.stdin u s.input = line ++ newline :: rest) (hline : Entered line) :
    (shellRound rounds s = none ∧ rounds ≤ (stream s.stdin u s.input).length) ∨
    ∃ t u' entries, shellRound rounds s = some t ∧ Unread t.stdin u' ∧
      stream t.stdin u' t.input = rest ∧ t.log = s.log ++ entries ∧
      List.Forall₂ Serves entries (requested line) := by
  have hreads : (readlineStdin 0 256 rounds (s.mem.text .buffer) s.stdin s.input = none ∧ _) ∨ _ :=
    readlineStdin_line rounds h hstream hline.fits
  rcases hreads with ⟨hnone, hle⟩ | ⟨mem', t', input', u', hunread, hrun, hrest, hstring, hlen⟩
  · left
    rw [shellRound, hnone]
    exact ⟨rfl, hle⟩
  · right
    rw [← text_withBuffer s.mem mem'] at hstring
    obtain ⟨call, m', hcall, hserves⟩ := shellLine_serves hline hstring hlen
    rw [shellRound, hrun, Option.bind_eq_bind, Option.bind_some]
    dsimp only
    rw [hcall, Option.bind_eq_bind, Option.bind_some]
    cases call with
    | none => exact ⟨_, u', [], rfl, hunread, hrest, (List.append_nil _).symm, hserves⟩
    | some call => exact ⟨_, u', _, rfl, hunread, hrest, rfl, hserves⟩

/-- With no line left `shell` waits. -/
theorem shellRound_nil {s : Session} (rounds : Nat) (h : Unread s.stdin u)
    (hstream : stream s.stdin u s.input = []) : shellRound rounds s = none := by
  have hreads : (readlineStdin 0 256 rounds (s.mem.text .buffer) s.stdin s.input = none ∧ _) ∨ _ :=
    readlineStdin_spec rounds h s.input
  rcases hreads with ⟨hnone, -⟩ | ⟨mem', t', input', u', r, -, -, hread⟩
  · rw [shellRound, hnone]
    rfl
  · rw [hstream] at hread
    cases hread

/-! ## Sessions -/

/-- After `n` rounds the first `n` lines are served, and the others are still to come. -/
def Served (input : List UInt8) (n : Nat) (s : Session) : Prop :=
  (∃ u, Unread s.stdin u ∧
    stream s.stdin u s.input = ((linesOf input).drop n).flatMap (· ++ [newline])) ∧
  List.Forall₂ Serves s.log (((linesOf input).take n).flatMap requested)

theorem Served.start {s : Session} (hs : (session input).init s) (hshort : ShortLines 0 input) :
    Served input 0 s := by
  obtain ⟨hi, rfl, hlog⟩ := hs
  refine ⟨⟨[], by rw [Unread, if_pos hi], ?_⟩, hlog ▸ .nil⟩
  have hended := (chunks_ended_iff Kept.nil s.input).mpr hshort
  rw [stream, List.nil_append, deliveredFrom, List.drop_zero, linesOf, List.flatMap_map]
  refine List.flatMap_congr fun chunk hchunk => ?_
  have hlast := hended chunk hchunk
  obtain ⟨line, rfl⟩ := List.getLast?_eq_some_iff.mp hlast
  rw [served, if_pos hlast, List.dropLast_concat]

theorem Served.next {s t : Session} {n rounds : Nat} (h : Served input n s)
    (hlines : ∀ line ∈ linesOf input, Entered line) (hn : (session input).next s rounds = some t) :
    n < (linesOf input).length ∧ Served input (n + 1) t := by
  obtain ⟨⟨u, hunread, hstream⟩, hlog⟩ := h
  have hrun : shellRound rounds s = some t := hn
  by_cases hn' : n < (linesOf input).length
  · rw [List.drop_eq_getElem_cons hn', List.flatMap_cons, List.append_assoc] at hstream
    rcases shellRound_line rounds hunread hstream (hlines _ (List.getElem_mem hn')) with
      ⟨hnone, -⟩ | ⟨t', u', entries, hrun', hunread', hrest, hentries, hserves⟩
    · rw [hnone] at hrun
      cases hrun
    · rw [hrun, Option.some.injEq] at hrun'
      subst hrun'
      refine ⟨hn', ⟨u', hunread', hrest⟩, ?_⟩
      rw [hentries, List.take_succ_eq_append_getElem hn', List.flatMap_append, List.flatMap_singleton]
      exact List.rel_append hlog hserves
  · rw [List.drop_eq_nil_of_le (Nat.not_lt.mp hn')] at hstream
    rw [shellRound_nil rounds hunread hstream] at hrun
    cases hrun

/-- With enough rounds for reading, the next line is read. -/
theorem Served.progress {s : Session} {n : Nat} (h : Served input n s)
    (hlines : ∀ line ∈ linesOf input, Entered line) (hn : n < (linesOf input).length) :
    ∃ rounds, ((session input).next s rounds).isSome := by
  obtain ⟨⟨u, hunread, hstream⟩, -⟩ := h
  rw [List.drop_eq_getElem_cons hn, List.flatMap_cons, List.append_assoc] at hstream
  refine ⟨(stream s.stdin u s.input).length + 1, ?_⟩
  rcases shellRound_line ((stream s.stdin u s.input).length + 1) hunread hstream
    (hlines _ (List.getElem_mem hn)) with ⟨-, hle⟩ | ⟨t, -, -, hrun, -⟩
  · omega
  · exact Option.isSome_iff_exists.mpr ⟨t, hrun⟩

theorem Served.execute {acts : List Nat} {s t : Session} {n : Nat} (h : Served input n s)
    (hlines : ∀ line ∈ linesOf input, Entered line) (hn : n ≤ (linesOf input).length)
    (hrun : (session input).execute s acts = some t) :
    n + acts.length ≤ (linesOf input).length ∧ Served input (n + acts.length) t := by
  induction acts generalizing s n with
  | nil =>
      obtain rfl : s = t := Option.some.inj hrun
      exact ⟨hn, h⟩
  | cons rounds acts ih =>
      rw [System.execute] at hrun
      obtain ⟨s', hstep, hrest⟩ := Option.bind_eq_some_iff.mp hrun
      obtain ⟨hlt, h'⟩ := h.next hlines hstep
      rw [List.length_cons, Nat.add_comm acts.length, ← Nat.add_assoc]
      exact ih h' hlt hrest

/-- Without other white space than spaces the words are those between the spaces. -/
theorem typedWords_eq {line : List UInt8} (h : ∀ c ∈ line, White c → c = 32) :
    typedWords line = words 32 line :=
  words_trimEnd_squeeze h

instance (line : List UInt8) : Decidable (Entered line) :=
  decidable_of_iff ((0 : UInt8) ∉ line ∧ EndsLine 255 [] line newline ∧
      trimEnd White (squeeze White line) ≠ [38])
    ⟨fun h => ⟨h.1, h.2.1, h.2.2⟩, fun h => ⟨h.noNul, h.fits, h.notAmp⟩⟩

/-- " echo  a b ", "x" behind a character that is taken back, nothing, and "ps &". -/
def typed : List UInt8 :=
  bytesOf [' ', 'e', 'c', 'h', 'o', ' ', ' ', 'a', ' ', 'b', ' ', '\n', 'y'] ++ [backspace] ++
    bytesOf ['x', '\n', '\n', 'p', 's', ' ', '&', '\n']

def typing : Session where
  mem := ⟨fun _ => 0, []⟩
  stdin := ⟨fun _ => 0, 0, []⟩
  input := typed
  log := []

/-- All four lines are read. -/
def typedLines : Option Session := (session typed).execute typing [20, 20, 20, 20]

end Shell

end TPE
