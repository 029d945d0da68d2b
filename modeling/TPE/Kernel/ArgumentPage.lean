import TPE.Kernel.Executer

/-!
# The words of an argument string

`build_arguments` writes the address of a word into the next entry of an array,
and the bytes of the words behind the `MAX_ARGS` entries of that array.  It does
not count the words.

With 31 words or more an entry is written over the first bytes of the string.
An address has zeros in its high bytes, and two bytes side by side are not both
spaces, so some word has a zero in the middle then.
-/

namespace TPE

open Function ByteMemory

variable {argStrings arguments p i j : Nat} {m : Nat → UInt8} {w : List UInt8} {arg : CString}

/-! ## Bytes that stay -/

/-- The loop writes entries from `i` on and string bytes from `j` on. -/
theorem buildLoop_outside (w cs : List UInt8) {a : Nat} (hstring : a < argStrings + j)
    (harray : a < arguments + 8 * i ∨ arguments + 8 * (i + (wordsFrom w cs).length + 1) ≤ a) :
    buildLoop argStrings arguments cs j i p m a = m a := by
  induction cs generalizing i j p m w with
  | nil =>
      simp only [wordsFrom_nil, List.length_singleton] at harray
      rw [buildLoop, store_outside (by omega)]
      exact endWord_outside (by omega) (by omega)
  | cons c cs ih =>
      by_cases hc : c = space
      · subst hc
        rw [wordsFrom_space, List.length_cons] at harray
        have hrest := ih (i := i + 1) (j := j + 1) (p := argStrings + j + 1)
          (m := endWord argStrings arguments j i p m) [] (by omega) (by omega)
        rw [buildLoop, if_pos rfl, hrest]
        exact endWord_outside (by omega) (by omega)
      · rw [wordsFrom_cons w cs hc] at harray
        have hrest := ih (j := j + 1) (p := p) (m := update m (argStrings + j) c) (w ++ [c])
          (by omega) harray
        rw [buildLoop, if_neg hc, hrest]
        exact update_of_ne (by omega) _ _

/-! ## Bytes that are read through the array -/

/-- If the array leads to the words that are left, the bytes near the start of the
string are those of the words. -/
theorem buildLoop_byte (cs : List UInt8) (hptr : p + w.length = argStrings + j)
    (hi : argStrings + i ≤ p) (hlay : argStrings = arguments + 8 * 31)
    (hrange : argStrings + j + cs.length < 2 ^ 64)
    (hwords : ∀ t word, (wordsFrom w cs)[t]? = some word →
      StringAt (buildLoop argStrings arguments cs j i p m)
        (load (buildLoop argStrings arguments cs j i p m) (arguments + 8 * (i + t)) 8) word)
    {k : Nat} {c : UInt8} (hk : (w ++ cs)[k]? = some c) (hc : c ≠ space)
    (hnear : p + k < argStrings + 30) :
    buildLoop argStrings arguments cs j i p m (p + k) = c := by
  induction cs generalizing i j p m w k with
  | nil =>
      simp only [wordsFrom_nil, List.append_nil] at hwords hk
      obtain ⟨hlt, hget⟩ := List.getElem?_eq_some_iff.mp hk
      have hload : load (endWord argStrings arguments j i p m) (arguments + 8 * i) 8 = p :=
        load_store (by omega)
      have hentry : load (buildLoop argStrings arguments [] j i p m) (arguments + 8 * (i + 0)) 8 =
          p :=
        (load_congr fun b hb => store_outside (Or.inl (by omega))).trans hload
      have hword := hwords 0 w rfl
      rw [hentry] at hword
      rw [hword.1 k hlt, hget]
  | cons d cs ih =>
      simp only [List.length_cons] at hrange
      by_cases hd : d = space
      · subst hd
        rw [wordsFrom_space] at hwords
        rw [buildLoop, if_pos rfl] at hwords ⊢
        by_cases hlt : k < w.length
        · -- the byte is in the word that ends here
          have hload : load (endWord argStrings arguments j i p m) (arguments + 8 * i) 8 = p :=
            load_store (by omega)
          have hentry : load (buildLoop argStrings arguments cs (j + 1) (i + 1) (argStrings + j + 1)
              (endWord argStrings arguments j i p m)) (arguments + 8 * (i + 0)) 8 = p :=
            (load_congr fun b hb => buildLoop_outside [] cs (by omega) (by omega)).trans hload
          have hword := hwords 0 w rfl
          rw [hentry] at hword
          rw [List.getElem?_append_left hlt] at hk
          rw [hword.1 k hlt, (List.getElem?_eq_some_iff.mp hk).2]
        · have hne : k ≠ w.length := by
            rintro rfl
            simp at hk
            exact hc hk.symm
          have hrest : ([] ++ cs)[k - (w.length + 1)]? = some c := by
            rw [List.getElem?_append_right (by omega),
              show k - w.length = k - (w.length + 1) + 1 by omega, List.getElem?_cons_succ] at hk
            exact hk
          have hbyte := ih (i := i + 1) (j := j + 1) (p := argStrings + j + 1) (w := [])
            (m := endWord argStrings arguments j i p m) rfl (by omega) (by omega)
            (fun t word ht => by
              have hnext := hwords (t + 1) word (by simpa using ht)
              rwa [show i + (t + 1) = i + 1 + t by omega] at hnext) hrest (by omega)
          rwa [show argStrings + j + 1 + (k - (w.length + 1)) = p + k by omega] at hbyte
      · rw [wordsFrom_cons w cs hd] at hwords
        rw [buildLoop, if_neg hd] at hwords ⊢
        refine ih (w := w ++ [d]) ?_ hi (by omega) hwords (by simpa using hk) hnear
        rw [List.length_append, List.length_singleton]
        omega

/-! ## The entry over the string -/

/-- The high bytes of an address are 0. -/
theorem store_high {a v b : Nat} (hv : v < 256 ^ 5) (hb : 5 ≤ b ∧ b < 8) :
    store m a v 8 (a + b) = 0 := by
  have hle : 256 ^ 5 ≤ 256 ^ b := Nat.pow_le_pow_right (by decide) hb.1
  rw [store, RingBuffer.blit_inside (by omega), Nat.add_sub_cancel_left,
    Nat.div_eq_of_lt (hv.trans_le hle)]
  rfl

/-- The entry with the number 31 is written over the string. -/
theorem buildLoop_clobbers (w cs : List UInt8) (hi : i ≤ 31)
    (hwords : 31 ≤ i + (wordsFrom w cs).length) (hij : i ≤ j)
    (hlay : argStrings = arguments + 8 * 31) (hptr : p < 256 ^ 5)
    (hrange : argStrings + j + cs.length < 256 ^ 5) {b : Nat} (hb : 5 ≤ b ∧ b < 8) :
    buildLoop argStrings arguments cs j i p m (argStrings + b) = 0 := by
  induction cs generalizing i j p m w with
  | nil =>
      simp only [wordsFrom_nil, List.length_singleton] at hwords
      by_cases hlast : i = 31
      · -- the last word
        subst hlast
        rw [buildLoop, store_outside (by omega), endWord, hlay]
        exact store_high hptr hb
      · -- the end of the array
        rw [buildLoop, hlay, show i + 1 = 31 by omega]
        exact store_high (by decide) hb
  | cons c cs ih =>
      simp only [List.length_cons] at hrange
      by_cases hc : c = space
      · subst hc
        rw [wordsFrom_space, List.length_cons] at hwords
        rw [buildLoop, if_pos rfl]
        by_cases hlast : i = 31
        · subst hlast
          rw [buildLoop_outside [] cs (by omega) (by omega), endWord, hlay]
          exact store_high hptr hb
        · exact ih [] (by omega) (by omega) (by omega) (by omega) (by omega)
      · rw [wordsFrom_cons w cs hc] at hwords
        rw [buildLoop, if_neg hc]
        exact ih (w ++ [c]) hi hwords (by omega) hptr (by omega)

/-- Two spaces side by side have an empty word between them. -/
theorem nil_mem_wordsFrom (w cs : List UInt8) {k : Nat} (h : cs[k]? = some space)
    (h' : cs[k + 1]? = some space) : [] ∈ wordsFrom w cs := by
  induction cs generalizing w k with
  | nil => simp at h
  | cons c cs ih =>
      cases k with
      | zero =>
          obtain rfl : c = space := by simpa using h
          cases cs with
          | nil => simp at h'
          | cons d ds =>
              obtain rfl : d = space := by simpa using h'
              rw [wordsFrom_space, wordsFrom_space]
              exact List.mem_cons_of_mem _ List.mem_cons_self
      | succ k =>
          have htail := fun w => ih w (by simpa using h) (by simpa using h')
          by_cases hc : c = space
          · subst hc
            rw [wordsFrom_space]
            exact List.mem_cons_of_mem _ (htail [])
          · rw [wordsFrom_cons w cs hc]
            exact htail _

theorem length_wordsFrom_le (w cs : List UInt8) : (wordsFrom w cs).length ≤ cs.length + 1 := by
  induction cs generalizing w with
  | nil => simp
  | cons c cs ih =>
      by_cases hc : c = space
      · subst hc
        rw [wordsFrom_space]
        exact Nat.succ_le_succ (ih [])
      · rw [wordsFrom_cons w cs hc]
        exact (ih _).trans (Nat.le_succ _)

/-! ## Which strings are split -/

/-- An argument string as the shell passes it on: a line of at most 255 characters,
its words apart by single spaces and none at either end. -/
structure ShellArg (arg : CString) : Prop where
  length : arg.strLen ≤ 255
  words : ∀ w ∈ wordsOf arg, w ≠ []

instance (arg : CString) : Decidable (ShellArg arg) :=
  decidable_of_iff (arg.strLen ≤ 255 ∧ ∀ w ∈ wordsOf arg, w ≠ [])
    ⟨fun h => ⟨h.1, h.2⟩, fun h => ⟨h.length, h.words⟩⟩

/-- The page of `execp` holds the address of the function, addresses of the words
in their order, and `NULL` behind them. -/
def ArgsSplit (arg : CString) (functionPtr memory : Addr) (m : Addr → UInt8) : Prop :=
  let page := execpPage memory functionPtr arg m
  load page memory 8 = functionPtr ∧
    (∀ i w, (wordsOf arg)[i]? = some w → StringAt page (load page (memory + 8 + 8 * i) 8) w) ∧
    load page (memory + 8 + 8 * (wordsOf arg).length) 8 = null

variable {functionPtr memory : Nat}

/-- With at most 30 words everything fits. -/
theorem argsSplit_of_le (harg : ShellArg arg) (hpage : IsPage memory) (hfp : functionPtr < 2 ^ 64)
    (hwords : (wordsOf arg).length ≤ 30) : ArgsSplit arg functionPtr memory m := by
  have hlen := harg.length
  have hmax : maxArgs * 8 = 256 := rfl
  have hpageSize : pageSize = 4096 := rfl
  have hfits : ArgFits arg := ⟨hwords, by omega⟩
  have hsize : memoryPagesEnd ≤ 2 ^ 64 := by decide
  have hvector : VectorAt (execpPage memory functionPtr arg m) (memory + 8)
      (memory + maxArgs * 8) (wordsOf arg) :=
    execpPage_vector hfits functionPtr (hpage.range.2.trans hsize)
  refine ⟨?_, fun i w hi => (hvector.get hi).1, hvector.terminator⟩
  have hload : load (store m memory functionPtr 8) memory 8 = functionPtr := load_store (by omega)
  refine (load_congr fun b hb => ?_).trans hload
  unfold execpPage buildArguments
  split
  · exact store_outside (Or.inl (by omega))
  · exact buildLoop_outside [] arg.bytes (by omega) (by omega)

/-- With more the entry with the number 31 spoils a word. -/
theorem not_argsSplit (harg : ShellArg arg) (hpage : IsPage memory)
    (hwords : 31 ≤ (wordsOf arg).length) : ¬ArgsSplit arg functionPtr memory m := by
  rintro ⟨-, hsplit, -⟩
  have hlen : arg.bytes.length ≤ 255 := harg.length
  have hend := hpage.range.2
  have hsmall : memoryPagesEnd + 1024 < 256 ^ 5 := by decide
  have hpageSize : pageSize = 4096 := rfl
  have hmax : maxArgs * 8 = 256 := rfl
  have hne : arg.bytes ≠ [] := by
    intro hnil
    simp [wordsOf, hnil] at hwords
  have hwordsOf : wordsOf arg = wordsFrom [] arg.bytes := by
    rw [wordsOf, if_neg hne, wordsFrom_nil_left]
  have hpageEq : execpPage memory functionPtr arg m =
      buildLoop (memory + maxArgs * 8) (memory + 8) arg.bytes 0 0 (memory + maxArgs * 8)
        (store m memory functionPtr 8) := by
    rw [execpPage, buildArguments, if_neg hne]
  rw [hwordsOf] at hwords hsplit
  rw [hpageEq] at hsplit
  -- one of two bytes in the middle of the entry is no space
  obtain ⟨b, c, hb, hget, hc⟩ : ∃ b c, (b = 5 ∨ b = 6) ∧ arg.bytes[b]? = some c ∧ c ≠ space := by
    have hmany := hwords.trans (length_wordsFrom_le [] arg.bytes)
    have h5 : arg.bytes[5]? = some arg.bytes[5] := List.getElem?_eq_getElem (by omega)
    have h6 : arg.bytes[6]? = some arg.bytes[6] := List.getElem?_eq_getElem (by omega)
    by_cases hspace : arg.bytes[5] = space
    · refine ⟨6, _, Or.inr rfl, h6, fun hspace' => ?_⟩
      refine harg.words [] ?_ rfl
      rw [hwordsOf]
      exact nil_mem_wordsFrom [] _ (k := 5) (hspace ▸ h5) (hspace' ▸ h6)
    · exact ⟨5, _, Or.inl rfl, h5, hspace⟩
  have hzero := buildLoop_clobbers (m := store m memory functionPtr 8) (i := 0) (j := 0)
    (b := b) [] arg.bytes (by omega) (by omega) le_rfl
    (show memory + maxArgs * 8 = memory + 8 + 8 * 31 by omega)
    (show memory + maxArgs * 8 < 256 ^ 5 by omega) (by omega) (by omega)
  have hbyte := buildLoop_byte (m := store m memory functionPtr 8) (i := 0) (j := 0) (w := [])
    (k := b) arg.bytes (show memory + maxArgs * 8 + 0 = memory + maxArgs * 8 + 0 from rfl) le_rfl
    (show memory + maxArgs * 8 = memory + 8 + 8 * 31 by omega) (by omega)
    (fun t word ht => by rw [Nat.zero_add]; exact hsplit t word ht) hget hc (by omega)
  rw [hzero] at hbyte
  exact arg.noNul (hbyte ▸ List.mem_of_getElem? hget)

/-- An argument string of the shell is split as it should exactly if it has at most
30 words. -/
theorem argsSplit_iff (harg : ShellArg arg) (hpage : IsPage memory) (hfp : functionPtr < 2 ^ 64) :
    ArgsSplit arg functionPtr memory m ↔ (wordsOf arg).length ≤ 30 :=
  ⟨fun h => by_contra fun hmore => not_argsSplit harg hpage (by omega) h,
    argsSplit_of_le harg hpage hfp⟩

theorem argsSplit_twoWords : ArgsSplit ExecRun.twoWords 0x100000 (pageAddr 1) fun _ => 0 :=
  (argsSplit_iff (by decide +kernel) ⟨1, rfl⟩ (by decide)).mpr (by decide +kernel)

/-- 31 words of one letter. -/
def manyWords : CString :=
  ⟨(List.replicate 30 [97, space]).flatten ++ [97], by decide +kernel⟩

theorem manyWords_not_split : ¬∀ arg memory functionPtr m, ShellArg arg → IsPage memory →
    functionPtr < 2 ^ 64 → ArgsSplit arg functionPtr memory m :=
  fun hall => not_argsSplit (by decide +kernel) ⟨1, rfl⟩ (by decide +kernel)
    (hall manyWords (pageAddr 1) 0 (fun _ => 0) (by decide +kernel) ⟨1, rfl⟩ (by decide))

end TPE
