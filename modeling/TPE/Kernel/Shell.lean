import Mathlib.Data.List.GetD
import TPE.Kernel.LineReader

/-!
# The command line

The shell takes a line apart: `extract_cmd_name` copies the first word, `check_foreground` looks
for a separate '&' at the end of the rest and cuts it off, and `execute` gets the name, the rest
behind its space and whether there was a '&'.

`check_foreground` looks at the two characters in front of the end of the rest.  When there is no
rest these are the last characters of the name, and a name of one character has only one.
-/

namespace TPE

open Function ByteMemory

namespace Shell

/-- `buffer` and `cmd_name` -/
inductive ShellArray where
  | buffer
  | cmdName
deriving DecidableEq

/-- The arrays of the shell, with what is around them, and the elements that were read or
written. -/
structure ShellMem where
  bytes : ShellArray × Int → UInt8
  touched : List (ShellArray × Int)

namespace ShellMem

/-- An element is read. -/
def touch (s : ShellMem) (a : ShellArray) (i : Int) : ShellMem :=
  { s with touched := (a, i) :: s.touched }

/-- An element is written. -/
def write (s : ShellMem) (a : ShellArray) (i : Int) (c : UInt8) : ShellMem where
  bytes := update s.bytes (a, i) c
  touched := (a, i) :: s.touched

/-- An array from its first element on. -/
def text (s : ShellMem) (a : ShellArray) (n : Nat) : UInt8 := s.bytes (a, n)

/-- The string that starts at an element. -/
def string (s : ShellMem) (a : ShellArray) (i : Int) : List UInt8 :=
  readString (s.text a) i.toNat 256

end ShellMem

/-! ## The code -/

/-- `extract_cmd_name`, from the index `i` on.  The first argument bounds the rounds. -/
def extractCmdName : Nat → Int → ShellMem → Option (Int × ShellMem)
  | 0, _, _ => none
  | rounds + 1, i, s =>
      let s := s.touch .buffer i
      let c := s.bytes (.buffer, i)
      if c ≠ 0 ∧ c ≠ 32 then extractCmdName rounds (i + 1) (s.write .cmdName i c)
      else some (i, s.write .cmdName i 0)

/-- `str_len(buffer + p)`, from the index `i` on. -/
def strLen (p : Int) : Nat → Int → ShellMem → Option (Int × ShellMem)
  | 0, _, _ => none
  | rounds + 1, i, s =>
      let s := s.touch .buffer (p + i)
      if s.bytes (.buffer, p + i) ≠ 0 then strLen p rounds (i + 1) s else some (i, s)

/-- `check_foreground(buffer + p)` -/
def checkForeground (p : Int) (s : ShellMem) : Option (Int × ShellMem) := do
  let (len, s) ← strLen p 256 0 s
  let s := s.touch .buffer (p + (len - 1))
  if s.bytes (.buffer, p + (len - 1)) = 38 then
    if len = 1 then some (0, s.write .buffer (p + (len - 1)) 0)
    else
      let s := s.touch .buffer (p + (len - 2))
      if s.bytes (.buffer, p + (len - 2)) = 32 then some (0, s.write .buffer (p + (len - 2)) 0)
      else some (1, s)
  else some (1, s)

/-- A call of `execute`.  The name is in `cmd_name`, and the other arguments are a pointer into
`buffer` and the flag. -/
structure ExecuteCall where
  args : Int
  foreground : Int

/-- What `shell` does with a line.  A string of the arrays ends within 256 elements, so the loops
get 256 rounds. -/
def shellLine (s : ShellMem) : Option (Option ExecuteCall × ShellMem) := do
  let s := s.touch .buffer 0
  if s.bytes (.buffer, 0) ≠ 0 then
    let (nameLen, s) ← extractCmdName 256 0 s
    let (foreground, s) ← checkForeground nameLen s
    let s := s.touch .buffer nameLen
    let argumentsFlag := if s.bytes (.buffer, nameLen) ≠ 0 then 1 else 0
    some (some ⟨nameLen + argumentsFlag, foreground⟩, s)
  else some (none, s)

/-! ## What the shell is for -/

/-- A command. -/
structure Command where
  name : List UInt8
  args : List UInt8
  foreground : Int
deriving DecidableEq

/-- The first word is the name and the others are the arguments, without a '&' at the end. -/
def parse (line : List UInt8) : Command :=
  match words 32 line with
  | [] => ⟨[], [], 1⟩
  | w :: ws =>
      if ws.getLast? = some [38] then ⟨w, [32].intercalate ws.dropLast, 0⟩
      else ⟨w, [32].intercalate ws, 1⟩

/-- From any arrays with the line in `buffer`, the shell calls `execute` with the command and
stays inside of the arrays. -/
def Parses (line : List UInt8) : Prop :=
  ∀ s : ShellMem, s.touched = [] → StringAt (s.text .buffer) 0 line →
    ∃ call s', shellLine s = some (some call, s') ∧
      ⟨s'.string .cmdName 0, s'.string .buffer call.args, call.foreground⟩ = parse line ∧
      ∀ t ∈ s'.touched, 0 ≤ t.2 ∧ t.2 < 256

/-- The line is one that `readline_no_spaces` stores in an array of 256 characters. -/
def Readable (line : List UInt8) : Prop :=
  ∃ str mem input ret mem' rest,
    LineReader.readlineNoSpaces str 256 mem input = some (ret, mem', rest) ∧
      line = readString mem' str 256

/-! ## The loops -/

variable {s s' : ShellMem} {rounds n k : Nat} {line w rest : List UInt8}

/-- Up to `s'` nothing but elements below `n` was touched. -/
def Stays (s s' : ShellMem) (n : Nat) : Prop :=
  ∀ t ∈ s'.touched, t ∈ s.touched ∨ 0 ≤ t.2 ∧ t.2 < n

theorem Stays.trans {s'' : ShellMem} (h : Stays s s' n) (h' : Stays s' s'' n) : Stays s s'' n := by
  intro t ht
  rcases h' t ht with ht | hin
  · exact h t ht
  · exact Or.inr hin

theorem stays_touch (s : ShellMem) (a : ShellArray) {i : Int} (lo : 0 ≤ i) (hi : i < n) :
    Stays s (s.touch a i) n := by
  intro t ht
  rcases List.mem_cons.mp ht with rfl | ht
  · exact Or.inr ⟨lo, hi⟩
  · exact Or.inl ht

theorem stays_write (s : ShellMem) (a : ShellArray) {i : Int} (c : UInt8) (lo : 0 ≤ i)
    (hi : i < n) : Stays s (s.write a i c) n := by
  intro t ht
  rcases List.mem_cons.mp ht with rfl | ht
  · exact Or.inr ⟨lo, hi⟩
  · exact Or.inl ht

theorem Stays.mono (h : Stays s s' n) (hle : n ≤ k) : Stays s s' k := by
  intro t ht
  rcases h t ht with ht | hin
  · exact Or.inl ht
  · exact Or.inr ⟨hin.1, by omega⟩

@[simp] theorem text_touch (a b : ShellArray) (i : Int) : (s.touch a i).text b = s.text b := rfl

/-- A write changes one element of one array. -/
theorem text_write (a : ShellArray) (k : Nat) (c : UInt8) :
    (s.write a k c).text a = update (s.text a) k c := by
  funext n
  by_cases hn : n = k
  · subst hn
    rw [update_self]
    exact update_self _ _ _
  · rw [update_of_ne hn]
    exact update_of_ne (by simp [hn]) _ _

theorem text_write_of_ne {a b : ShellArray} (h : b ≠ a) (i : Int) (c : UInt8) :
    (s.write a i c).text b = s.text b := by
  funext n
  exact update_of_ne (by simp [h]) _ _

/-- The byte behind a part of the line. -/
theorem byte_behind (h : StringAt (s.text .buffer) 0 (w ++ rest)) :
    s.bytes (.buffer, (w.length : Int)) = rest.headD 0 := by
  have hnext := h.headD
  rwa [Nat.zero_add] at hnext

theorem string_behind (h : StringAt (s.text .buffer) 0 (w ++ rest)) :
    StringAt (s.text .buffer) w.length rest := by
  have hdrop := h.drop
  rwa [Nat.zero_add] at hdrop

/-- The first word is copied. -/
theorem extractCmdName_spec {done : List UInt8}
    (hline : StringAt (s.text .buffer) 0 (done ++ (w ++ rest)))
    (hw : ∀ c ∈ w, c ≠ 0 ∧ c ≠ 32) (hrest : ∀ c ∈ rest.head?, c = 32)
    (hdone : BytesAt (s.text .cmdName) 0 done) (hrounds : w.length < rounds) :
    ∃ s', extractCmdName rounds done.length s =
        some (((done.length + w.length : Nat) : Int), s') ∧
      s'.text .buffer = s.text .buffer ∧ StringAt (s'.text .cmdName) 0 (done ++ w) ∧
      Stays s s' (done.length + w.length + 1) := by
  induction w generalizing done s rounds with
  | nil =>
      obtain ⟨r, rfl⟩ := Nat.exists_eq_succ_of_ne_zero (Nat.ne_of_gt (Nat.zero_lt_of_lt hrounds))
      have hbyte : s.bytes (.buffer, (done.length : Int)) = rest.headD 0 := byte_behind hline
      have hend : ¬(s.bytes (.buffer, (done.length : Int)) ≠ 0 ∧
          s.bytes (.buffer, (done.length : Int)) ≠ 32) := by
        rw [hbyte, not_and_not_right]
        intro hne
        cases rest with
        | nil => exact absurd rfl hne
        | cons c rest => exact hrest c rfl
      have htouch :
          Stays s (s.touch .buffer done.length) (done.length + ([] : List UInt8).length + 1) :=
        stays_touch s _ (by omega) (by simp)
      rw [extractCmdName, ShellMem.touch, if_neg hend, ← ShellMem.touch]
      refine ⟨_, rfl, text_write_of_ne (by decide) _ _, ?_,
        htouch.trans (stays_write _ _ 0 (by omega) (by simp))⟩
      rw [List.append_nil, text_write, text_touch]
      refine ⟨hdone.congr fun i hi => update_of_ne (by omega) _ _, ?_⟩
      rw [Nat.zero_add, update_self]
  | cons c w ih =>
      obtain ⟨r, rfl⟩ := Nat.exists_eq_succ_of_ne_zero (Nat.ne_of_gt (Nat.zero_lt_of_lt hrounds))
      have hbyte : s.bytes (.buffer, (done.length : Int)) = c := byte_behind hline
      have hgo : s.bytes (.buffer, (done.length : Int)) ≠ 0 ∧
          s.bytes (.buffer, (done.length : Int)) ≠ 32 := by
        rw [hbyte]
        exact hw c List.mem_cons_self
      let s₁ := (s.touch .buffer done.length).write .cmdName done.length c
      have hbuffer : s₁.text .buffer = s.text .buffer := text_write_of_ne (by decide) _ _
      have hcopied : BytesAt (s₁.text .cmdName) 0 (done ++ [c]) := by
        have hname : s₁.text .cmdName = update (s.text .cmdName) done.length c := text_write _ _ _
        rw [hname]
        refine BytesAt.snoc (hdone.congr fun i hi => update_of_ne (by omega) _ _) ?_
        rw [Nat.zero_add, update_self]
      have hline₁ : StringAt (s₁.text .buffer) 0 (done ++ [c] ++ (w ++ rest)) := by
        rw [hbuffer, List.append_assoc]
        exact hline
      obtain ⟨s', hrun, hsame, hname, hstays⟩ := ih hline₁
        (fun d hd => hw d (List.mem_cons_of_mem c hd)) hcopied (Nat.lt_of_succ_lt_succ hrounds)
      have hfirst : Stays s s₁ (done.length + (c :: w).length + 1) :=
        (stays_touch s _ (by omega) (by simp; omega)).trans
          (stays_write _ _ c (by omega) (by simp; omega))
      simp only [List.length_append, List.length_singleton] at hrun hstays
      have hlen : done.length + 1 + w.length = done.length + (c :: w).length := by
        rw [List.length_cons]
        omega
      rw [hlen] at hrun hstays
      have hread : (s.touch .buffer done.length).bytes (.buffer, (done.length : Int)) = c := hbyte
      rw [extractCmdName, ShellMem.touch, if_pos hgo, ← ShellMem.touch, hread]
      refine ⟨s', ?_, hsame.trans hbuffer, ?_, hfirst.trans hstays⟩
      · push_cast at hrun ⊢
        exact hrun
      · rw [List.append_assoc] at hname
        exact hname

/-- The rest is measured. -/
theorem strLen_spec {p i : Nat} (hrest : StringAt (s.text .buffer) (p + i) rest)
    (hzero : (0 : UInt8) ∉ rest) (hrounds : rest.length < rounds) :
    ∃ s', strLen p rounds i s = some (((i + rest.length : Nat) : Int), s') ∧
      s'.bytes = s.bytes ∧ Stays s s' (p + i + rest.length + 1) := by
  induction rest generalizing i s rounds with
  | nil =>
      obtain ⟨r, rfl⟩ := Nat.exists_eq_succ_of_ne_zero (Nat.ne_of_gt (Nat.zero_lt_of_lt hrounds))
      have hend : s.bytes (.buffer, (p : Int) + i) = 0 := hrest.2
      rw [strLen, ShellMem.touch, if_neg (not_not.mpr hend), ← ShellMem.touch]
      exact ⟨_, rfl, rfl, stays_touch s _ (by omega) (by simp)⟩
  | cons c rest ih =>
      obtain ⟨r, rfl⟩ := Nat.exists_eq_succ_of_ne_zero (Nat.ne_of_gt (Nat.zero_lt_of_lt hrounds))
      have hbyte : s.bytes (.buffer, (p : Int) + i) = c := hrest.1 0 (Nat.succ_pos _)
      have hne : s.bytes (.buffer, (p : Int) + i) ≠ 0 := by
        rw [hbyte]
        rintro rfl
        exact hzero List.mem_cons_self
      have hrest₁ : StringAt ((s.touch .buffer (p + i)).text .buffer) (p + (i + 1)) rest := by
        have hdrop : StringAt (s.text .buffer) (p + i) ([c] ++ rest) := hrest
        exact hdrop.drop
      obtain ⟨s', hrun, hsame, hstays⟩ := ih hrest₁
        (fun h => hzero (List.mem_cons_of_mem c h)) (Nat.lt_of_succ_lt_succ hrounds)
      have hlen : i + 1 + rest.length = i + (c :: rest).length := by
        rw [List.length_cons]
        omega
      have hlen' : p + (i + 1) + rest.length + 1 = p + i + (c :: rest).length + 1 := by
        rw [List.length_cons]
        omega
      rw [hlen] at hrun
      rw [hlen'] at hstays
      rw [strLen, ShellMem.touch, if_pos hne, ← ShellMem.touch]
      refine ⟨s', ?_, hsame, (stays_touch s _ (by omega) (by simp; omega)).trans hstays⟩
      push_cast at hrun ⊢
      exact hrun

/-! ## The '&' -/

/-- A line ends in a separate '&'. -/
theorem ends_ampersand_iff {front : List UInt8} {c d : UInt8} :
    (∃ front', front ++ [d] ++ [c] = front' ++ [32, 38]) ↔ d = 32 ∧ c = 38 := by
  constructor
  · rintro ⟨front', he⟩
    rw [List.append_assoc] at he
    have hend : [d, c] = [32, 38] := (List.append_inj' he rfl).2
    rw [List.cons.injEq, List.cons.injEq] at hend
    exact ⟨hend.1, hend.2.1⟩
  · rintro ⟨rfl, rfl⟩
    exact ⟨front, List.append_assoc front [32] [38]⟩

/-- A '&' at the end is not all that is behind the name, for the rest begins with a space. -/
theorem length_rest_ne_one {front : List UInt8} (hsplit : front ++ [38] = w ++ rest)
    (hrest : ∀ c ∈ rest.head?, c = 32) : rest.length ≠ 1 := by
  intro hone
  obtain ⟨d, rfl⟩ := List.length_eq_one_iff.mp hone
  have hd : [38] = [d] := (List.append_inj' hsplit rfl).2
  have hspace := hrest d rfl
  rw [← (List.cons.inj hd).1] at hspace
  exact absurd hspace (by decide)

/-- A separate '&' is behind the name, for the name has no space. -/
theorem ampersand_behind {front : List UInt8} (h : w ++ rest = front ++ [32, 38])
    (hspace : (32 : UInt8) ∉ w) : ∃ front', front = w ++ front' ∧ rest = front' ++ [32, 38] := by
  rcases List.append_eq_append_iff.mp h with ⟨f, hf, hr⟩ | ⟨f, hf, hr⟩
  · exact ⟨f, hf, hr⟩
  · cases f with
    | nil => exact ⟨[], by rw [hf, List.append_nil, List.append_nil], hr.symm⟩
    | cons c f =>
        obtain rfl : 32 = c := (List.cons.inj hr).1
        exact absurd (hf ▸ List.mem_append_right _ List.mem_cons_self) hspace

/-- What `check_foreground` finds at the end of a line that is not just a '&'. -/
theorem checkForeground_spec (hline : StringAt (s.text .buffer) 0 line) (hzero : (0 : UInt8) ∉ line)
    (hsplit : line = w ++ rest) (hw : w ≠ []) (hrest : ∀ c ∈ rest.head?, c = 32)
    (hlen : rest.length < 256) (hamp : line ≠ [38]) :
    ∃ fg s', checkForeground w.length s = some (fg, s') ∧ Stays s s' (line.length + 1) ∧
      s'.text .cmdName = s.text .cmdName ∧
      ((fg = 0 ∧ ∃ front, line = front ++ [32, 38] ∧ StringAt (s'.text .buffer) 0 front) ∨
        (fg = 1 ∧ (¬∃ front, line = front ++ [32, 38]) ∧ s'.text .buffer = s.text .buffer)) := by
  have hmeasure : StringAt (s.text .buffer) (w.length + 0) rest := string_behind (hsplit ▸ hline)
  have hzero' : (0 : UInt8) ∉ rest := fun h => hzero (hsplit ▸ List.mem_append_right w h)
  obtain ⟨s₁, hrun, hbytes, hstays⟩ := strLen_spec hmeasure hzero' hlen
  have htext : ∀ a, s₁.text a = s.text a := by
    intro a
    funext n
    exact congrFun hbytes (a, (n : Int))
  have hwlen : 0 < w.length := List.length_pos_iff.mpr hw
  have htotal : line.length = w.length + rest.length := by rw [hsplit, List.length_append]
  have hend : w.length + 0 + rest.length + 1 = line.length + 1 := by omega
  rw [Nat.zero_add, Nat.cast_zero] at hrun
  rw [hend] at hstays
  have hne : line ≠ [] := by
    rw [hsplit]
    exact List.append_ne_nil_of_left_ne_nil hw rest
  obtain ⟨front, c, rfl⟩ := (List.eq_nil_or_concat' line).resolve_left hne
  have hindex : (w.length : Int) + ((rest.length : Nat) - 1) = (front.length : Nat) := by
    rw [List.length_append, List.length_singleton] at htotal
    omega
  rw [← htext] at hline
  have hlast : s₁.bytes (.buffer, (front.length : Int)) = c := byte_behind hline
  have hread : (s₁.touch .buffer front.length).bytes (.buffer, (front.length : Int)) = c := hlast
  have htouch : Stays s (s₁.touch .buffer front.length) ((front ++ [c]).length + 1) :=
    hstays.trans (stays_touch _ _ (by omega)
      (by simp only [List.length_append, List.length_singleton]; omega))
  rw [checkForeground, hrun, Option.bind_eq_bind, Option.bind_some]
  dsimp only
  rw [hindex, hread]
  by_cases hc : c = 38
  · -- the rest has more than the '&', for it begins with a space
    have hlong : (rest.length : Int) ≠ 1 := by
      rw [hc] at hsplit
      exact_mod_cast length_rest_ne_one hsplit hrest
    have hfront : front ≠ [] := by
      rintro rfl
      exact hamp (by rw [hc]; rfl)
    obtain ⟨front, d, rfl⟩ := (List.eq_nil_or_concat' front).resolve_left hfront
    have hindex' : (w.length : Int) + ((rest.length : Nat) - 2) = (front.length : Nat) := by
      rw [List.length_append, List.length_singleton] at hindex
      push_cast at hindex
      omega
    have hbefore : s₁.bytes (.buffer, (front.length : Int)) = d :=
      byte_behind (List.append_assoc front [d] [c] ▸ hline)
    have hread' : ((s₁.touch .buffer (front ++ [d]).length).touch .buffer front.length).bytes
        (.buffer, (front.length : Int)) = d := hbefore
    have htouch' := htouch.trans (stays_touch (s₁.touch .buffer (front ++ [d]).length) .buffer
      (show (0 : Int) ≤ front.length by omega) (show (front.length : Int) <
        ((front ++ [d] ++ [c]).length + 1 : Nat) by
          simp only [List.length_append, List.length_singleton]; omega))
    rw [if_pos hc, if_neg hlong, hindex', hread']
    by_cases hd : d = 32
    · rw [if_pos hd]
      refine ⟨0, _, rfl, htouch'.trans (stays_write _ _ 0 (by omega)
          (by simp only [List.length_append, List.length_singleton]; omega)),
        (text_write_of_ne (by decide) _ _).trans (htext _), Or.inl ⟨rfl, front, ?_, ?_⟩⟩
      · rw [hc, hd, List.append_assoc]
        rfl
      · rw [text_write, text_touch, text_touch]
        have hbytes' := (bytesAt_append.mp (bytesAt_append.mp hline.1).1).1
        refine ⟨hbytes'.congr fun i hi => update_of_ne (by omega) _ _, ?_⟩
        rw [Nat.zero_add, update_self]
    · rw [if_neg hd]
      refine ⟨1, _, rfl, htouch', htext _, Or.inr ⟨rfl, ?_, htext _⟩⟩
      exact fun hend => hd (ends_ampersand_iff.mp hend).1
  · rw [if_neg hc]
    refine ⟨1, _, rfl, htouch, htext _, Or.inr ⟨rfl, ?_, htext _⟩⟩
    rintro ⟨front', he⟩
    have hend : front ++ [c] = (front' ++ [32]) ++ [38] := by
      rw [he, List.append_assoc]
      rfl
    exact hc (List.cons.inj (List.append_inj' hend rfl).2).1

/-! ## A line -/

/-- A string that stands in an array is read. -/
theorem string_of {a : ShellArray} (h : StringAt (s.text a) n line) (hzero : (0 : UInt8) ∉ line)
    (hlen : line.length < 256) : s.string a n = line := by
  rw [ShellMem.string, Int.toNat_natCast, h.readString_eq hzero hlen]

/-- The arguments start behind the space that ends the name. -/
theorem string_args (hline : StringAt (s.text .buffer) 0 (w ++ rest))
    (hzero : (0 : UInt8) ∉ w ++ rest) (hrest : ∀ c ∈ rest.head?, c = 32)
    (hlen : (w ++ rest).length < 256) :
    s.string .buffer (w.length + if s.bytes (.buffer, (w.length : Int)) ≠ 0 then 1 else 0) =
      rest.tail := by
  have hbyte : s.bytes (.buffer, (w.length : Int)) = rest.headD 0 := byte_behind hline
  rw [hbyte]
  cases rest with
  | nil =>
      have hend : StringAt (s.text .buffer) w.length [] := string_behind hline
      rw [List.headD_nil, if_neg (not_not.mpr rfl), Int.add_zero]
      exact string_of hend List.not_mem_nil (by decide)
  | cons c rest =>
      obtain rfl : c = 32 := hrest c rfl
      rw [List.append_cons] at hline hzero hlen
      have hdrop : StringAt (s.text .buffer) (w.length + 1) rest := by
        have hbehind := string_behind hline
        rwa [List.length_append] at hbehind
      rw [List.length_append] at hlen
      rw [List.headD_cons, if_pos (by decide), List.tail_cons]
      exact string_of hdrop (fun h => hzero (List.mem_append_right _ h)) (by omega)

/-- What `shell` does with a line that is not just a '&'. -/
theorem shellLine_spec (hline : StringAt (s.text .buffer) 0 (w ++ rest))
    (hzero : (0 : UInt8) ∉ w ++ rest) (hw : w ≠ []) (hspace : (32 : UInt8) ∉ w)
    (hrest : ∀ c ∈ rest.head?, c = 32) (hlen : (w ++ rest).length < 256)
    (hamp : w ++ rest ≠ [38]) :
    ∃ call s', shellLine s = some (some call, s') ∧ Stays s s' 256 ∧
      s'.string .cmdName 0 = w ∧
      ((call.foreground = 0 ∧ ∃ front, rest = front ++ [32, 38] ∧
          s'.string .buffer call.args = front.tail) ∨
        (call.foreground = 1 ∧ (¬∃ front, rest = front ++ [32, 38]) ∧
          s'.string .buffer call.args = rest.tail)) := by
  have hzerow : (0 : UInt8) ∉ w := fun h => hzero (List.mem_append_left _ h)
  have hlenw : w.length ≤ (w ++ rest).length := by simp
  have hlenr : rest.length ≤ (w ++ rest).length := by simp
  have hfirst : s.bytes (.buffer, 0) ≠ 0 := by
    obtain ⟨c, w, rfl⟩ := List.exists_cons_of_ne_nil hw
    have hc : s.bytes (.buffer, 0) = c := hline.1 0 (Nat.succ_pos _)
    rw [hc]
    rintro rfl
    exact hzerow List.mem_cons_self
  have hchars : ∀ c ∈ w, c ≠ 0 ∧ c ≠ 32 := by
    intro c hc
    refine ⟨?_, ?_⟩
    · rintro rfl
      exact hzerow hc
    · rintro rfl
      exact hspace hc
  have hcopy : StringAt ((s.touch .buffer 0).text .buffer) 0 ([] ++ (w ++ rest)) := hline
  obtain ⟨s₁, hrun₁, hbuffer₁, hname₁, hstays₁⟩ := extractCmdName_spec hcopy hchars hrest
    bytesAt_nil (show w.length < 256 by omega)
  rw [List.length_nil, Nat.cast_zero, Nat.zero_add] at hrun₁
  rw [List.length_nil, Nat.zero_add] at hstays₁
  rw [List.nil_append] at hname₁
  have hline₁ : StringAt (s₁.text .buffer) 0 (w ++ rest) := by
    rw [hbuffer₁]
    exact hline
  obtain ⟨fg, s₂, hrun₂, hstays₂, hname₂, hcut⟩ := checkForeground_spec hline₁ hzero rfl hw hrest
    (by omega) hamp
  have hname : (s₂.touch .buffer w.length).string .cmdName 0 = w := by
    rw [← hname₂] at hname₁
    exact string_of hname₁ hzerow (by omega)
  have hstays : Stays s (s₂.touch .buffer w.length) 256 :=
    (((stays_touch s _ (Int.le_refl 0) (by decide)).trans (hstays₁.mono (by omega))).trans
      (hstays₂.mono (by omega))).trans (stays_touch _ _ (by omega) (by omega))
  have hfirst' : (s.touch .buffer 0).bytes (.buffer, 0) ≠ 0 := hfirst
  rw [shellLine, if_pos hfirst', hrun₁, Option.bind_eq_bind, Option.bind_some]
  dsimp only
  rw [hrun₂, Option.bind_some]
  refine ⟨_, _, rfl, hstays, hname, ?_⟩
  rcases hcut with ⟨rfl, front, hfront, hbuffer₂⟩ | ⟨rfl, hnone, hbuffer₂⟩
  · -- the '&' is behind the name
    obtain ⟨front, rfl, rfl⟩ := ampersand_behind hfront hspace
    rw [← List.append_assoc] at hzero hlen
    rw [List.length_append] at hlen
    refine Or.inl ⟨rfl, front, rfl, string_args (s := s₂.touch .buffer w.length) hbuffer₂
      (fun h => hzero (List.mem_append_left _ h)) ?_ (by omega)⟩
    intro c hc
    refine hrest c ?_
    rw [List.head?_append]
    exact Option.mem_def.mpr (by rw [Option.mem_def.mp hc]; rfl)
  · refine Or.inr ⟨rfl, ?_, string_args (s := s₂.touch .buffer w.length) ?_ hzero hrest hlen⟩
    · rintro ⟨front, rfl⟩
      exact hnone ⟨w ++ front, (List.append_assoc _ _ _).symm⟩
    · rw [text_touch, hbuffer₂]
      exact hline₁

/-! ## Every line -/

/-- What `readline_no_spaces` stores has single separators, and it ends in the array. -/
theorem Readable.squeezed (h : Readable line) :
    Squeezed (· = 32) line ∧ (0 : UInt8) ∉ line ∧ line.length < 256 := by
  obtain ⟨str, mem, input, ret, mem', rest, hrun, rfl⟩ := h
  rcases LineReader.readlineNoSpaces_spec str 256 mem input with
    hwait | ⟨pre, c, rest', mem'', -, -, hstring, hlen, hrun'⟩
  · rw [hwait] at hrun
    cases hrun
  · rw [hrun, Option.some.injEq, Prod.mk.injEq, Prod.mk.injEq] at hrun'
    obtain ⟨-, rfl, -⟩ := hrun'
    have hroom : ((256 : UInt32) - 1).toNat = 255 := rfl
    rw [hroom] at hlen
    rw [hstring.readString (by omega)]
    have hfront := List.takeWhile_prefix (· ≠ 0) (l := trimEnd White (squeeze White pre))
    refine ⟨((squeezed_squeeze pre).trimEnd.of_prefix hfront).mono ?_, ?_, ?_⟩
    · rintro c rfl
      decide
    · intro hm
      have hpass := List.mem_takeWhile_imp hm
      exact absurd hpass (by decide)
    · exact Nat.lt_succ_of_le (hfront.length_le.trans hlen)

variable {ws : List (List UInt8)} {tail : List UInt8}

/-- The words of a line are found again. -/
theorem parse_append (hws : ∀ v ∈ w :: ws, v ≠ [] ∧ 32 ∉ v) (htail : tail = [] ∨ tail = [32]) :
    parse (w ++ ws.flatMap (32 :: ·) ++ tail) =
      if ws.getLast? = some [38] then ⟨w, [32].intercalate ws.dropLast, 0⟩
      else ⟨w, [32].intercalate ws, 1⟩ := by
  rw [parse, words_append hws htail]

/-- The last word is a '&' if and only if the line ends in one behind a space. -/
theorem getLast_amp_iff (hws : ∀ v ∈ ws, v ≠ [] ∧ 32 ∉ v) :
    ws.getLast? = some [38] ↔ ∃ front, ws.flatMap (32 :: ·) = front ++ [32, 38] := by
  rcases List.eq_nil_or_concat' ws with rfl | ⟨ws, v, rfl⟩
  · simp
  · rw [List.getLast?_concat, Option.some.injEq, List.flatMap_append, List.flatMap_singleton]
    constructor
    · rintro rfl
      exact ⟨_, rfl⟩
    · rintro ⟨front, he⟩
      obtain ⟨hne, hfree⟩ := hws v (by simp)
      obtain ⟨u, c, rfl⟩ := (List.eq_nil_or_concat' v).resolve_left hne
      have he' : ws.flatMap (32 :: ·) ++ 32 :: u ++ [c] = front ++ [32] ++ [38] := by
        rw [List.append_assoc, List.cons_append, he, List.append_assoc]
        rfl
      obtain ⟨hrest, hc⟩ := List.append_inj' he' rfl
      -- a longer word would have the space in it
      rcases List.eq_nil_or_concat' u with rfl | ⟨u, d, rfl⟩
      · exact hc
      · rw [← List.cons_append, ← List.append_assoc] at hrest
        have hd := (List.append_inj' hrest rfl).2
        rw [hd] at hfree
        exact absurd (by simp) hfree

/-- What `shell` makes of the words of a line that is not just a '&'. -/
theorem shellLine_words (hws : ∀ v ∈ w :: ws, v ≠ [] ∧ 32 ∉ v) (htail : tail = [] ∨ tail = [32])
    (hzero : (0 : UInt8) ∉ w ++ ws.flatMap (32 :: ·) ++ tail)
    (hlen : (w ++ ws.flatMap (32 :: ·) ++ tail).length < 256)
    (hamp : w ++ ws.flatMap (32 :: ·) ++ tail ≠ [38])
    (hline : StringAt (s.text .buffer) 0 (w ++ ws.flatMap (32 :: ·) ++ tail)) :
    ∃ call s', shellLine s = some (some call, s') ∧ Stays s s' 256 ∧
      (⟨s'.string .cmdName 0, s'.string .buffer call.args, call.foreground⟩ : Command) =
        if ws.getLast? = some [38] ∧ tail = [] then ⟨w, [32].intercalate ws.dropLast, 0⟩
        else ⟨w, (ws.flatMap (32 :: ·) ++ tail).tail, 1⟩ := by
  have hrest : ∀ c ∈ (ws.flatMap (32 :: ·) ++ tail).head?, c = 32 := by
    intro c hc
    cases ws with
    | nil =>
        rcases htail with rfl | rfl
        · cases hc
        · exact (Option.some.inj hc).symm
    | cons v ws => exact (Option.some.inj hc).symm
  have hfree : ∀ v ∈ ws, v ≠ [] ∧ 32 ∉ v := fun v hv => hws v (List.mem_cons_of_mem w hv)
  rw [List.append_assoc] at hzero hlen hamp hline
  obtain ⟨hw, hspace⟩ := hws w List.mem_cons_self
  obtain ⟨call, s', hrun, hstays, hname, hcall⟩ := shellLine_spec hline hzero hw hspace hrest
    hlen hamp
  refine ⟨call, s', hrun, hstays, ?_⟩
  have hend : (∃ front, ws.flatMap (32 :: ·) ++ tail = front ++ [32, 38]) ↔
      ws.getLast? = some [38] ∧ tail = [] := by
    rcases htail with rfl | rfl
    · rw [List.append_nil, getLast_amp_iff hfree, and_iff_left rfl]
    · refine iff_of_false ?_ fun h => absurd h.2 (by decide)
      rintro ⟨front, he⟩
      have he' := congrArg List.getLast? he
      rw [List.getLast?_concat, List.getLast?_append] at he'
      exact absurd (Option.some.inj he') (by decide)
  rw [hname]
  rcases hcall with ⟨hfg, front, hfront, hargs⟩ | ⟨hfg, hnone, hargs⟩
  · obtain ⟨hlast, rfl⟩ := hend.mp ⟨front, hfront⟩
    obtain ⟨ws, rfl⟩ := List.getLast?_eq_some_iff.mp hlast
    rw [List.append_nil, List.flatMap_append] at hfront
    have hcut : ws.flatMap (32 :: ·) = front := (List.append_inj' hfront rfl).1
    rw [if_pos (And.intro hlast rfl), hfg, hargs, List.dropLast_concat, ← hcut, tail_flatMap]
  · rw [if_neg (mt hend.mpr hnone), hfg, hargs]

/-- Arrays with a line in `buffer`. -/
def holding (line : List UInt8) : ShellMem where
  bytes t := if t.1 = .buffer ∧ 0 ≤ t.2 then line.getD t.2.toNat 0 else 0
  touched := []

theorem holding_stringAt (line : List UInt8) : StringAt ((holding line).text .buffer) 0 line := by
  have hbyte : ∀ i : Nat, (holding line).text .buffer (0 + i) = line.getD i 0 := by
    intro i
    rw [Nat.zero_add]
    change (if ShellArray.buffer = .buffer ∧ (0 : Int) ≤ i then line.getD (i : Int).toNat 0 else 0) = _
    rw [if_pos ⟨rfl, Int.natCast_nonneg i⟩]
    rfl
  refine ⟨fun i hi => ?_, ?_⟩
  · rw [hbyte, List.getD_eq_getElem _ _ hi]
  · rw [hbyte, List.getD_eq_default _ _ (Nat.le_refl _)]

/-- Of a '&' the shell reads the character in front of `buffer`. -/
theorem not_parses_amp : ¬Parses [38] := by
  intro h
  obtain ⟨call, s', hrun, -, hin⟩ := h (holding [38]) rfl (holding_stringAt _)
  have htouch : (shellLine (holding [38])).map
      (fun r => decide ((ShellArray.buffer, (-1 : Int)) ∈ r.2.touched)) = some true := by
    decide +kernel
  rw [hrun, Option.map_some, Option.some.injEq] at htouch
  exact absurd (hin _ (of_decide_eq_true htouch)).1 (by decide)

/-- The shell takes a line apart exactly if it is not just a '&' and has no space behind other
words than the first one. -/
theorem parses_iff (hline : Readable line) (hne : line ≠ []) :
    Parses line ↔ line ≠ [38] ∧ (line.getLast? = some 32 → (words 32 line).length = 1) := by
  obtain ⟨hsqueezed, hzero, hlen⟩ := hline.squeezed
  obtain ⟨w, ws, tail, hws, rfl, htail⟩ := hsqueezed.exists_words hne
  by_cases hamp : w ++ ws.flatMap (32 :: ·) ++ tail = [38]
  · rw [hamp]
    exact iff_of_false not_parses_amp fun h => h.1 rfl
  · have hparse := parse_append hws htail
    rw [words_append hws htail, List.length_cons, Nat.add_eq_right, List.length_eq_zero_iff,
      and_iff_right hamp]
    constructor
    · intro h hlast
      obtain ⟨call, s', hrun, hcall, -⟩ := h _ rfl (holding_stringAt _)
      obtain ⟨call', s'', hrun', -, hcall'⟩ :=
        shellLine_words hws htail hzero hlen hamp (holding_stringAt _)
      rw [hrun, Option.some.injEq, Prod.mk.injEq, Option.some.injEq] at hrun'
      obtain ⟨rfl, rfl⟩ := hrun'
      rw [hcall, hparse] at hcall'
      rcases htail with rfl | rfl
      · rw [List.append_nil] at hlast
        exact absurd hlast (getLast?_words hws)
      · by_contra hmore
        have hspace : ws.flatMap (32 :: ·) ≠ [] := by
          obtain ⟨v, ws, rfl⟩ := List.exists_cons_of_ne_nil hmore
          exact List.cons_ne_nil _ _
        have hopen : ¬(ws.getLast? = some [38] ∧ [(32 : UInt8)] = []) :=
          fun h => absurd h.2 (by decide)
        rw [if_neg hopen, List.tail_append_of_ne_nil hspace, tail_flatMap] at hcall'
        split at hcall'
        · exact absurd (Command.mk.inj hcall').2.2 (by decide)
        · have hlen' := congrArg List.length (Command.mk.inj hcall').2.1
          rw [List.length_append] at hlen'
          exact absurd hlen' (Nat.ne_of_lt (Nat.lt_succ_self _))
    · intro hcond s hs hbuffer
      obtain ⟨call, s', hrun, hstays, hcall⟩ := shellLine_words hws htail hzero hlen hamp hbuffer
      refine ⟨call, s', hrun, ?_, fun t ht => ?_⟩
      · rw [hcall, hparse]
        rcases htail with rfl | rfl
        · simp only [and_true, List.append_nil, tail_flatMap]
        · rw [List.getLast?_concat] at hcond
          obtain rfl := hcond rfl
          rfl
      · rcases hstays t ht with hin | hin
        · rw [hs] at hin
          exact absurd hin List.not_mem_nil
        · exact hin

/-- "ls &" is a line that can be read. -/
theorem readable_background : Readable [108, 115, 32, 38] := by
  have hrun : (LineReader.readlineNoSpaces 0 256 (fun _ => 0) [108, 115, 32, 38, 10]).map
      (fun r => readString r.2.1 0 256) = some [108, 115, 32, 38] := by decide +kernel
  obtain ⟨⟨ret, mem', rest⟩, hread, hstring⟩ := Option.map_eq_some_iff.mp hrun
  exact ⟨0, _, _, ret, mem', rest, hread, hstring.symm⟩

theorem parses_iff_background :
    Parses [108, 115, 32, 38] ↔ ([108, 115, 32, 38] : List UInt8) ≠ [38] ∧
      (([108, 115, 32, 38] : List UInt8).getLast? = some 32 →
        (words 32 ([108, 115, 32, 38] : List UInt8)).length = 1) :=
  parses_iff readable_background (by decide)

/-- Of a line that is just a '&' the shell reads in front of `buffer`. -/
theorem parses_amp_fails :
    ¬∀ line, Readable line → line ≠ [] → (∀ c ∈ line, White c → c = 32) → Parses line := by
  have hrun : (LineReader.readlineNoSpaces 0 256 (fun _ => 0) [38, 10]).map
      (fun r => readString r.2.1 0 256) = some [38] := by decide +kernel
  obtain ⟨⟨ret, mem', rest⟩, hread, hstring⟩ := Option.map_eq_some_iff.mp hrun
  have hblank : ∀ c ∈ [(38 : UInt8)], White c → c = 32 := by
    intro c hc hwhite
    obtain rfl := List.mem_singleton.mp hc
    exact absurd hwhite (by decide)
  intro h
  exact not_parses_amp
    (h [38] ⟨0, _, _, ret, mem', rest, hread, hstring.symm⟩ (List.cons_ne_nil _ _) hblank)

end Shell

end TPE
