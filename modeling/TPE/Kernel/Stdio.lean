import Mathlib.Logic.Function.Basic

/-!
# The line buffer of the standard input

`fill_buffer` reads characters until a newline or until 1023 of them are kept,
and takes a backspace as the deletion of the last one kept.  `getchar` returns
the characters of the buffer one by one, and calls `fill_buffer` when the index
is 0.

`chunksFrom` is what the input says: the pieces that are typed, with the backspaces
carried out.  `getchar` stops at a newline or at the end of the array, and the
array has one element more than `fill_buffer` fills.  So a chunk that is not
ended by a newline is returned with that element behind it, which nothing
writes.
-/

namespace TPE

open Function

namespace Stdio

/-! ## The code -/

/-- `BUFFER_SIZE` -/
abbrev bufferSize : Nat := 1024

/-- `'\b'` -/
abbrev backspace : UInt8 := 8

/-- `'\t'` -/
abbrev tab : UInt8 := 9

/-- `'\n'` -/
abbrev newline : UInt8 := 10

/-- What the loop of `fill_buffer` works on: its index, the buffer, and the
characters `putchar` has shown. -/
structure Fill where
  i : Nat
  buffer : Nat → UInt8
  screen : List UInt8

/-- The body of the loop, behind the `sys_read` that returns `c`. -/
def fillBody (c : UInt8) (f : Fill) : Fill :=
  if c = backspace ∧ 0 < f.i then
    { f with
      i := f.i - 1
      screen := if f.buffer (f.i - 1) ≠ tab then f.screen ++ [c] else f.screen }
  else if c ≠ backspace then
    { i := f.i + 1, buffer := update f.buffer f.i c, screen := f.screen ++ [c] }
  else f

/-- The loop on the characters that `sys_read` returns.  `none` says that it waits for
another one. -/
def fillLoop : List UInt8 → Fill → Option (Fill × List UInt8)
  | [], _ => none
  | c :: input, f =>
      if c ≠ newline ∧ (fillBody c f).i < bufferSize - 1 then fillLoop input (fillBody c f)
      else some (fillBody c f, input)

/-- The static variables, and the screen. -/
structure Stdin where
  buffer : Nat → UInt8
  buffi : Nat
  screen : List UInt8

/-- `fill_buffer` -/
def fillBuffer (t : Stdin) (input : List UInt8) : Option (Stdin × List UInt8) :=
  (fillLoop input ⟨0, t.buffer, t.screen⟩).map fun r =>
    ({ t with buffer := r.1.buffer, screen := r.1.screen }, r.2)

/-- `c = buffer[buffi++]` and the reset behind it. -/
def readBuffer (t : Stdin) : UInt8 × Stdin :=
  (t.buffer t.buffi,
    { t with
      buffi :=
        if t.buffer t.buffi = newline ∨ t.buffi + 1 = bufferSize then 0 else t.buffi + 1 })

/-- `getchar` -/
def getchar (t : Stdin) (input : List UInt8) : Option (UInt8 × Stdin × List UInt8) :=
  if t.buffi = 0 then
    (fillBuffer t input).map fun r => ((readBuffer r.1).1, (readBuffer r.1).2, r.2)
  else some ((readBuffer t).1, (readBuffer t).2, input)

/-- The characters that `n` calls of `getchar` return. -/
def getchars : Nat → Stdin → List UInt8 → Option (List UInt8)
  | 0, _, _ => some []
  | n + 1, t, input =>
      (getchar t input).bind fun r => (getchars n r.2.1 r.2.2).map (r.1 :: ·)

/-! ## What was typed -/

/-- A backspace deletes the last character that is kept.  Any other one is kept. -/
def edit (cur : List UInt8) (c : UInt8) : List UInt8 :=
  if c = backspace then cur.dropLast else cur ++ [c]

/-- The chunks that are complete in the input, when `cur` is kept of the first one. -/
def chunksFrom : List UInt8 → List UInt8 → List (List UInt8)
  | _, [] => []
  | cur, c :: input =>
      if c = newline ∨ bufferSize - 1 ≤ (edit cur c).length then
        edit cur c :: chunksFrom [] input
      else chunksFrom (edit cur c) input

/-- What `getchar` returns for a chunk.  `z` is the last element of the array. -/
def served (z : UInt8) (chunk : List UInt8) : List UInt8 :=
  if chunk.getLast? = some newline then chunk else chunk ++ [z]

/-- What `getchar` returns for an input of which `cur` is kept already. -/
def deliveredFrom (z : UInt8) (cur input : List UInt8) : List UInt8 :=
  (chunksFrom cur input).flatMap (served z)

/-- Fewer than 1023 characters of a line are kept before its newline comes.  `kept` are
kept of the first line. -/
def ShortLines : Nat → List UInt8 → Prop
  | _, [] => True
  | kept, c :: input =>
      if c = newline then ShortLines 0 input
      else if c = backspace then ShortLines (kept - 1) input
      else kept + 1 < bufferSize - 1 ∧ ShortLines (kept + 1) input

instance : (kept : Nat) → (input : List UInt8) → Decidable (ShortLines kept input)
  | _, [] => inferInstanceAs (Decidable True)
  | kept, c :: input =>
      have := instDecidableShortLines 0 input
      have := instDecidableShortLines (kept - 1) input
      have := instDecidableShortLines (kept + 1) input
      inferInstanceAs (Decidable (if c = newline then ShortLines 0 input
        else if c = backspace then ShortLines (kept - 1) input
        else kept + 1 < bufferSize - 1 ∧ ShortLines (kept + 1) input))

variable {f f' : Fill} {t : Stdin} {buffer : Nat → UInt8} {c z : UInt8}
  {s cur chunk input rest : List UInt8} {n i off : Nat}

theorem edit_of_ne (h : c ≠ backspace) : edit cur c = cur ++ [c] := by
  rw [edit, if_neg h]

theorem edit_backspace : edit cur backspace = cur.dropLast := by
  rw [edit, if_pos rfl]

theorem edit_subset {d : UInt8} (h : d ∈ edit cur c) : d ∈ cur ∨ d = c := by
  rw [edit] at h
  split at h
  · exact Or.inl (List.dropLast_subset cur h)
  · simpa using h

theorem chunksFrom_cons_of (h : c = newline ∨ bufferSize - 1 ≤ (edit cur c).length) :
    chunksFrom cur (c :: input) = edit cur c :: chunksFrom [] input := by
  rw [chunksFrom, if_pos h]

theorem chunksFrom_cons_of_not (h : ¬(c = newline ∨ bufferSize - 1 ≤ (edit cur c).length)) :
    chunksFrom cur (c :: input) = chunksFrom (edit cur c) input := by
  rw [chunksFrom, if_neg h]

/-! ## A chunk -/

/-- What is kept of a chunk that is not complete. -/
structure Kept (cur : List UInt8) : Prop where
  newline_free : newline ∉ cur
  short : cur.length < bufferSize - 1

/-- A chunk has a newline at its end and nowhere else, or 1023 characters. -/
structure Chunk (s : List UInt8) : Prop where
  newline_last : ∀ k, s[k]? = some newline → k + 1 = s.length
  ended : s.getLast? = some newline ∨ s.length = bufferSize - 1
  short : s.length ≤ bufferSize - 1
  nonempty : s ≠ []

theorem Kept.nil : Kept [] := ⟨List.not_mem_nil, by decide⟩

/-- A character that does not complete the chunk. -/
theorem Kept.edit (h : Kept cur) (hc : ¬(c = newline ∨ bufferSize - 1 ≤ (edit cur c).length)) :
    Kept (edit cur c) := by
  rw [not_or, Nat.not_le] at hc
  refine ⟨fun hmem => ?_, hc.2⟩
  rcases edit_subset hmem with hold | hnew
  · exact h.newline_free hold
  · exact hc.1 hnew.symm

/-- A character that completes the chunk. -/
theorem Kept.complete (h : Kept cur) (hc : c = newline ∨ bufferSize - 1 ≤ (Stdio.edit cur c).length) :
    Chunk (Stdio.edit cur c) := by
  have hshort := h.short
  have hne : c ≠ backspace := by
    rintro rfl
    rw [edit_backspace, List.length_dropLast] at hc
    rcases hc with hc | hc
    · exact absurd hc (by decide)
    · omega
  rw [edit_of_ne hne] at hc ⊢
  refine ⟨fun k hk => ?_, ?_, by rw [List.length_append, List.length_singleton]; omega, by simp⟩
  · by_cases hlt : k < cur.length
    · rw [List.getElem?_append_left hlt] at hk
      exact absurd (List.mem_of_getElem? hk) h.newline_free
    · have := (List.getElem?_eq_some_iff.mp hk).1
      rw [List.length_append, List.length_singleton] at this ⊢
      omega
  · rcases hc with rfl | hc
    · exact Or.inl (by simp)
    · rw [List.length_append, List.length_singleton] at hc ⊢
      exact Or.inr (by omega)

/-! ## The buffer is filled with a chunk -/

/-- The buffer holds `s` from `off` on. -/
def Holds (buffer : Nat → UInt8) (off : Nat) (s : List UInt8) : Prop :=
  ∀ k c, s[k]? = some c → buffer (off + k) = c

/-- The loop holds the characters that are kept. -/
structure Typed (f : Fill) (cur : List UInt8) : Prop where
  i_eq : f.i = cur.length
  holds : Holds f.buffer 0 cur

theorem Typed.nil (t : Stdin) : Typed ⟨0, t.buffer, t.screen⟩ [] :=
  ⟨rfl, fun k c h => by simp at h⟩

/-- The index and the buffer behind the body. -/
theorem fillBody_i (c : UInt8) (f : Fill) :
    (fillBody c f).i = if c = backspace then f.i - 1 else f.i + 1 := by
  rw [fillBody]
  by_cases hc : c = backspace
  · rw [if_pos hc]
    split
    next => rfl
    next hback =>
      have hzero : ¬0 < f.i := fun h => hback ⟨hc, h⟩
      rw [if_neg (by simp [hc])]
      omega
  · rw [if_neg (by simp [hc]), if_pos hc, if_neg hc]

theorem fillBody_buffer (c : UInt8) (f : Fill) :
    (fillBody c f).buffer = if c = backspace then f.buffer else update f.buffer f.i c := by
  rw [fillBody]
  by_cases hc : c = backspace
  · rw [if_pos hc]
    split
    · rfl
    · rw [if_neg (by simp [hc])]
  · rw [if_neg (by simp [hc]), if_pos hc, if_neg hc]

/-- The body writes the element of its index only. -/
theorem fillBody_outside (c : UInt8) {k : Nat} (h : k ≠ f.i) :
    (fillBody c f).buffer k = f.buffer k := by
  rw [fillBody_buffer]
  split
  · rfl
  · exact update_of_ne h _ _

/-- The body edits what is kept. -/
theorem Typed.body (h : Typed f cur) (c : UInt8) : Typed (fillBody c f) (edit cur c) := by
  by_cases hc : c = backspace
  · refine ⟨?_, fun k d hk => ?_⟩
    · rw [fillBody_i, if_pos hc, hc, edit_backspace, List.length_dropLast, h.i_eq]
    · rw [fillBody_buffer, if_pos hc]
      rw [hc, edit_backspace, List.dropLast_eq_take, List.getElem?_take] at hk
      split at hk
      · exact h.holds k d hk
      · cases hk
  · rw [edit_of_ne hc]
    refine ⟨?_, fun k d hk => ?_⟩
    · rw [fillBody_i, if_neg hc, List.length_append, List.length_singleton, h.i_eq]
    · rw [fillBody_buffer, if_neg hc]
      by_cases hlt : k < cur.length
      · rw [List.getElem?_append_left hlt] at hk
        rw [update_of_ne (by rw [h.i_eq]; omega)]
        exact h.holds k d hk
      · have hk' := (List.getElem?_eq_some_iff.mp hk).1
        rw [List.length_append, List.length_singleton] at hk'
        obtain rfl : k = cur.length := by omega
        rw [List.getElem?_concat_length] at hk
        rw [Nat.zero_add, h.i_eq, update_self]
        exact Option.some.inj hk

/-- The loop fills the buffer with the next chunk of the input, or waits. -/
theorem fillLoop_chunk (h : Typed f cur) (hcur : Kept cur) (input : List UInt8) :
    (fillLoop input f = none ∧ chunksFrom cur input = []) ∨
      ∃ f' rest chunk, fillLoop input f = some (f', rest) ∧
        chunksFrom cur input = chunk :: chunksFrom [] rest ∧ Typed f' chunk ∧ Chunk chunk ∧
        f'.buffer (bufferSize - 1) = f.buffer (bufferSize - 1) := by
  induction input generalizing f cur with
  | nil => exact Or.inl ⟨rfl, rfl⟩
  | cons c input ih =>
      have hbody := h.body c
      have hlast : (fillBody c f).buffer (bufferSize - 1) = f.buffer (bufferSize - 1) := by
        refine fillBody_outside c ?_
        have := hcur.short
        rw [h.i_eq]
        omega
      by_cases hc : c = newline ∨ bufferSize - 1 ≤ (edit cur c).length
      · have hstop : ¬(c ≠ newline ∧ (fillBody c f).i < bufferSize - 1) := by
          rw [hbody.i_eq]
          rintro ⟨hne, hlt⟩
          rcases hc with hc | hc
          · exact hne hc
          · omega
        exact Or.inr ⟨_, _, _, by rw [fillLoop, if_neg hstop], chunksFrom_cons_of hc, hbody,
          hcur.complete hc, hlast⟩
      · have hgo : c ≠ newline ∧ (fillBody c f).i < bufferSize - 1 := by
          rw [hbody.i_eq]
          rwa [not_or, Nat.not_le] at hc
        rw [fillLoop, if_pos hgo, chunksFrom_cons_of_not hc, ← hlast]
        exact ih hbody (hcur.edit hc)

/-! ## The buffer is emptied -/

/-- From `off` on the buffer holds `s`, and `getchar` resets its index exactly at the end
of `s`. -/
def Line (buffer : Nat → UInt8) : Nat → List UInt8 → Prop
  | _, [] => False
  | off, c :: s =>
      buffer off = c ∧ if c = newline ∨ off + 1 = bufferSize then s = [] else Line buffer (off + 1) s

/-- What is left in the buffer. -/
def Unread (t : Stdin) (s : List UInt8) : Prop :=
  if t.buffi = 0 then s = [] else Line t.buffer t.buffi s

/-- From `off` on the rest of a chunk is emptied, and the last element of the array if the
chunk is not ended by a newline. -/
theorem line_served (hs : s ≠ []) (hholds : Holds buffer off s)
    (hlast : ∀ k, s[k]? = some newline → k + 1 = s.length) (hle : off + s.length ≤ bufferSize - 1)
    (hended : s.getLast? = some newline ∨ off + s.length = bufferSize - 1) :
    Line buffer off (served (buffer (bufferSize - 1)) s) := by
  induction s generalizing off with
  | nil => exact absurd rfl hs
  | cons c s ih =>
      have hc : buffer off = c := hholds 0 c rfl
      rw [List.length_cons] at hle
      by_cases hnl : c = newline
      · have hnil : s = [] := by
          have := hlast 0 (by rw [hnl]; rfl)
          rw [List.length_cons] at this
          exact List.length_eq_zero_iff.mp (by omega)
        subst hnl hnil
        exact ⟨hc, by rw [if_pos (Or.inl rfl)]⟩
      · have hmore : ¬(c = newline ∨ off + 1 = bufferSize) := by
          rw [not_or]
          exact ⟨hnl, by omega⟩
        cases s with
        | nil =>
            have hoff : off + 1 = bufferSize - 1 := by
              rcases hended with hended | hended
              · exact absurd (Option.some.inj hended) hnl
              · exact hended
            rw [served, if_neg (by simpa using hnl)]
            refine ⟨hc, ?_⟩
            rw [if_neg hmore]
            refine ⟨by rw [hoff], ?_⟩
            rw [if_pos (Or.inr (by omega))]
        | cons d s =>
            have hrest : Line buffer (off + 1) (served (buffer (bufferSize - 1)) (d :: s)) := by
              refine ih (List.cons_ne_nil d s) (fun k e hk => ?_) (fun k hk => ?_) (by omega) ?_
              · rw [Nat.add_assoc, Nat.add_comm 1]
                exact hholds (k + 1) e hk
              · have := hlast (k + 1) hk
                rw [List.length_cons] at this
                omega
              · rw [List.getLast?_cons_cons, List.length_cons] at hended
                rcases hended with hended | hended
                · exact Or.inl hended
                · exact Or.inr (by omega)
            have hcons : served (buffer (bufferSize - 1)) (c :: d :: s) =
                c :: served (buffer (bufferSize - 1)) (d :: s) := by
              rw [served, served, List.getLast?_cons_cons]
              split
              · rfl
              · rfl
            rw [hcons]
            exact ⟨hc, by rw [if_neg hmore]; exact hrest⟩

/-- What `getchar` returns for a chunk that was filled in. -/
theorem Chunk.line (h : Chunk s) (hf : Typed f s) :
    Line f.buffer 0 (served (f.buffer (bufferSize - 1)) s) := by
  have hshort := h.short
  exact line_served h.nonempty hf.holds h.newline_last (by omega)
    (h.ended.imp_right fun hlen => by omega)

/-- `getchar` returns the first character that is left. -/
theorem readBuffer_line (h : Line t.buffer t.buffi s) :
    ∃ s', s = (readBuffer t).1 :: s' ∧ Unread (readBuffer t).2 s' := by
  cases s with
  | nil => exact absurd h id
  | cons c s =>
      obtain ⟨hc, hrest⟩ := h
      refine ⟨s, by rw [readBuffer, hc], ?_⟩
      by_cases hend : c = newline ∨ t.buffi + 1 = bufferSize
      · rw [if_pos hend] at hrest
        simp only [readBuffer, Unread, hc, if_pos hend, if_true]
        exact hrest
      · rw [if_neg hend] at hrest
        simp only [readBuffer, Unread, hc, if_neg hend, Nat.add_one_ne_zero, if_false]
        exact hrest

/-! ## `getchar` -/

/-- A call of `getchar` with nothing in the buffer takes the next chunk. -/
theorem getchar_empty (ht : t.buffi = 0) (input : List UInt8) :
    (getchar t input = none ∧ chunksFrom [] input = []) ∨
      ∃ c t' rest s chunk, getchar t input = some (c, t', rest) ∧ chunksFrom [] input = chunk :: chunksFrom [] rest ∧
        served (t.buffer (bufferSize - 1)) chunk = c :: s ∧ Unread t' s ∧
        t'.buffer (bufferSize - 1) = t.buffer (bufferSize - 1) := by
  rw [getchar, if_pos ht, fillBuffer]
  rcases fillLoop_chunk (Typed.nil t) Kept.nil input with
    ⟨hwait, hnone⟩ | ⟨f', rest, chunk, hfill, hchunks, htyped, hchunk, hlast⟩
  · exact Or.inl ⟨by rw [hwait]; rfl, hnone⟩
  · have hline := hchunk.line htyped
    obtain ⟨s, hserved, hunread⟩ :=
      readBuffer_line (t := { t with buffer := f'.buffer, screen := f'.screen }) (ht ▸ hline)
    refine Or.inr ⟨_, _, rest, s, chunk, by rw [hfill]; rfl, hchunks, ?_, hunread, hlast⟩
    rw [← hserved, hlast]

/-- `n` calls of `getchar` return the first `n` characters of what is left in the buffer
and what the input delivers.  If there are fewer, they wait. -/
theorem getchars_eq (n : Nat) (h : Unread t s) (input : List UInt8) :
    getchars n t input =
      if n ≤ (s ++ deliveredFrom (t.buffer (bufferSize - 1)) [] input).length then
        some ((s ++ deliveredFrom (t.buffer (bufferSize - 1)) [] input).take n)
      else none := by
  induction n generalizing t s input with
  | zero => rfl
  | succ n ih =>
      rw [getchars]
      by_cases ht : t.buffi = 0
      · obtain rfl : s = [] := by rwa [Unread, if_pos ht] at h
        rw [List.nil_append]
        rcases getchar_empty ht input with
          ⟨hwait, hnone⟩ | ⟨c, t', rest, s, chunk, hget, hchunks, hserved, hunread, hlast⟩
        · rw [hwait, deliveredFrom, hnone]
          rfl
        · have hdelivered : deliveredFrom (t.buffer (bufferSize - 1)) [] input =
              c :: (s ++ deliveredFrom (t.buffer (bufferSize - 1)) [] rest) := by
            rw [deliveredFrom, hchunks, List.flatMap_cons, hserved, List.cons_append, deliveredFrom]
          rw [hget, Option.bind_some, ih hunread rest, hlast, hdelivered]
          simp only [List.length_cons, Nat.add_le_add_iff_right, List.take_succ_cons]
          split
          · rfl
          · rfl
      · rw [Unread, if_neg ht] at h
        obtain ⟨s', rfl, hunread⟩ := readBuffer_line h
        have hsame : (readBuffer t).2.buffer = t.buffer := rfl
        rw [getchar, if_neg ht, Option.bind_some, ih hunread input, hsame, List.cons_append]
        simp only [List.length_cons, Nat.add_le_add_iff_right, List.take_succ_cons]
        split
        · rfl
        · rfl

example : getchars 3 ⟨fun _ => 0, 0, []⟩ [8, 97, 98, 8, 99, 10] = some [97, 99, 10] := by decide

/-! ## Chunks and lines -/

/-- One character is added to each chunk that is not ended by a newline. -/
theorem length_delivered (z : UInt8) (l : List (List UInt8)) :
    (l.flatMap (served z)).length =
      l.flatten.length + l.countP fun s => s.getLast? ≠ some newline := by
  induction l with
  | nil => rfl
  | cons s l ih =>
      rw [List.flatMap_cons, List.flatten_cons, List.length_append, List.length_append, ih, served]
      by_cases hs : s.getLast? = some newline
      · rw [if_pos hs, List.countP_cons_of_neg (by simpa using hs)]
        omega
      · rw [if_neg hs, List.countP_cons_of_pos (by simpa using hs), List.length_append,
          List.length_singleton]
        omega

/-- Nothing is added to chunks that are ended by newlines. -/
theorem delivered_of_ended {l : List (List UInt8)} (h : ∀ s ∈ l, s.getLast? = some newline) :
    l.flatMap (served z) = l.flatten := by
  induction l with
  | nil => rfl
  | cons s l ih =>
      rw [List.flatMap_cons, List.flatten_cons, served, if_pos (h s List.mem_cons_self),
        ih fun s' hs' => h s' (List.mem_cons_of_mem s hs')]

/-- Every chunk is ended by a newline exactly if no line reaches 1023 characters before its
newline. -/
theorem chunks_ended_iff (hcur : Kept cur) (input : List UInt8) :
    (∀ s ∈ chunksFrom cur input, s.getLast? = some newline) ↔ ShortLines cur.length input := by
  induction input generalizing cur with
  | nil => simp [chunksFrom, ShortLines]
  | cons c input ih =>
      by_cases hnl : c = newline
      · have hlast : (edit cur c).getLast? = some newline := by
          rw [hnl, edit_of_ne (by decide), List.getLast?_concat]
        rw [chunksFrom_cons_of (Or.inl hnl), ShortLines, if_pos hnl, List.forall_mem_cons]
        exact ⟨fun h => (ih Kept.nil).mp h.2, fun h => ⟨hlast, (ih Kept.nil).mpr h⟩⟩
      · rw [ShortLines, if_neg hnl]
        by_cases hb : c = backspace
        · have hlen : (edit cur c).length = cur.length - 1 := by
            rw [hb, edit_backspace, List.length_dropLast]
          have hgo : ¬(c = newline ∨ bufferSize - 1 ≤ (edit cur c).length) := by
            have := hcur.short
            rw [not_or]
            exact ⟨hnl, by omega⟩
          rw [if_pos hb, chunksFrom_cons_of_not hgo, ih (hcur.edit hgo), hlen]
        · have hlen : (edit cur c).length = cur.length + 1 := by
            rw [edit_of_ne hb, List.length_append, List.length_singleton]
          rw [if_neg hb]
          by_cases hfull : bufferSize - 1 ≤ (edit cur c).length
          · -- the chunk is full, and its last character is not a newline
            have hlast : (edit cur c).getLast? ≠ some newline := by
              rw [edit_of_ne hb, List.getLast?_concat]
              exact fun h => hnl (Option.some.inj h)
            rw [chunksFrom_cons_of (Or.inr hfull), List.forall_mem_cons]
            exact ⟨fun h => absurd h.1 hlast, fun h => by omega⟩
          · have hgo : ¬(c = newline ∨ bufferSize - 1 ≤ (edit cur c).length) := by
              rw [not_or]
              exact ⟨hnl, hfull⟩
            rw [chunksFrom_cons_of_not hgo, ih (hcur.edit hgo), hlen]
            exact ⟨fun h => ⟨by omega, h⟩, fun h => h.2⟩

/-! ## Exactly what was typed -/

/-- The calls of `getchar` return the concatenation of the chunks. -/
def ReturnsChunks (buffer : Nat → UInt8) (screen input : List UInt8) : Prop :=
  ∀ n, getchars n ⟨buffer, 0, screen⟩ input =
    if n ≤ (chunksFrom [] input).flatten.length then some ((chunksFrom [] input).flatten.take n)
    else none

/-- They do exactly if every chunk is ended by a newline. -/
theorem returnsChunks_iff_ended (buffer : Nat → UInt8) (screen input : List UInt8) :
    ReturnsChunks buffer screen input ↔ ∀ s ∈ chunksFrom [] input, s.getLast? = some newline := by
  have hrun : ∀ n, getchars n ⟨buffer, 0, screen⟩ input =
      if n ≤ (deliveredFrom (buffer (bufferSize - 1)) [] input).length then
        some ((deliveredFrom (buffer (bufferSize - 1)) [] input).take n)
      else none :=
    fun n => getchars_eq (s := []) n (by rw [Unread, if_pos rfl]) input
  constructor
  · intro h s hs
    by_contra hne
    -- one call more than there are characters in the chunks returns
    have hlen : (deliveredFrom (buffer (bufferSize - 1)) [] input).length =
        (chunksFrom [] input).flatten.length +
          (chunksFrom [] input).countP fun s => s.getLast? ≠ some newline :=
      length_delivered _ _
    have hpos : 0 < (chunksFrom [] input).countP fun s => s.getLast? ≠ some newline :=
      List.countP_pos_iff.mpr ⟨s, hs, by simpa using hne⟩
    have hmore := h ((chunksFrom [] input).flatten.length + 1)
    rw [hrun, if_pos (by omega), if_neg (by omega)] at hmore
    cases hmore
  · intro h n
    rw [hrun, deliveredFrom, delivered_of_ended h]

/-- The calls of `getchar` return the concatenation of the chunks exactly if no line reaches
1023 characters before its newline. -/
theorem returnsChunks_iff (buffer : Nat → UInt8) (screen input : List UInt8) :
    ReturnsChunks buffer screen input ↔ ShortLines 0 input :=
  (returnsChunks_iff_ended buffer screen input).trans (chunks_ended_iff Kept.nil input)

/-- A line of 1023 characters: one more is returned that was not typed. -/
theorem longLine_not_returned :
    ¬ReturnsChunks (fun _ => 0) [] (List.replicate 1023 97) := by
  rw [returnsChunks_iff_ended, chunks_ended_iff Kept.nil]
  decide +kernel

end Stdio

end TPE
