import TPE.Library.ByteMemory
import TPE.Library.Runs
import TPE.Kernel.MemoryAllocator

/-!
# The arguments of a new process

`executer.c`: `execp` puts the address of a function and its arguments on a page
and starts `executer` with it.  The page begins with an array of `MAX_ARGS`
addresses, and the words of the argument string follow, split in place.
`executer` copies the page to one of its own and calls the function, and the
page of `execp` is given back.

The copied addresses still lead to the words on the page that was given back.
So the function sees its arguments as long as nobody writes to these words, and
`args_survive` says that a write to them is the one thing that spoils them.
-/

namespace TPE

open Function ByteMemory

/-- `MAX_ARGS` -/
abbrev maxArgs : Nat := 32

/-- `' '` -/
abbrev space : UInt8 := 32

/-! ## The page of `execp` -/

/-- The two statements that end a word: `arg_strings[j] = '\0'` and
`arguments[i] = ptr`. -/
def endWord (argStrings arguments : Addr) (j i : Nat) (ptr : Addr) (mem : Addr → UInt8) :
    Addr → UInt8 :=
  store (update mem (argStrings + j) 0) (arguments + 8 * i) ptr 8

/-- The loop of `build_arguments` from the index `j` on, and what follows it.  The
first argument is the rest of `arg`. -/
def buildLoop (argStrings arguments : Addr) :
    List UInt8 → Nat → Nat → Addr → (Addr → UInt8) → Addr → UInt8
  | [], j, i, ptr, mem =>
      store (endWord argStrings arguments j i ptr mem) (arguments + 8 * (i + 1)) null 8
  | c :: cs, j, i, ptr, mem =>
      if c = space then
        buildLoop argStrings arguments cs (j + 1) (i + 1) (argStrings + j + 1)
          (endWord argStrings arguments j i ptr mem)
      else buildLoop argStrings arguments cs (j + 1) i ptr (update mem (argStrings + j) c)

/-- `build_arguments` -/
def buildArguments (arg : CString) (argStrings arguments : Addr) (mem : Addr → UInt8) :
    Addr → UInt8 :=
  if arg.bytes = [] then store mem arguments null 8
  else buildLoop argStrings arguments arg.bytes 0 0 argStrings mem

/-- The memory after `execp` has filled its page `memory`. -/
def execpPage (memory functionPtr : Addr) (arg : CString) (mem : Addr → UInt8) : Addr → UInt8 :=
  buildArguments arg (memory + maxArgs * 8) (memory + 8) (store mem memory functionPtr 8)

/-- The loop of `executer` that counts the arguments.  The first argument bounds
the number of rounds. -/
def countArgs (mem : Addr → UInt8) (argv : Addr) : Nat → Nat → Option Nat
  | 0, _ => none
  | fuel + 1, argc =>
      if load mem (argv + 8 * argc) 8 = null then some argc else countArgs mem argv fuel (argc + 1)

/-- The words that are given to `execp`. -/
def wordsOf (arg : CString) : List (List UInt8) :=
  if arg.bytes = [] then [] else arg.bytes.splitOn space

/-- At most 30 words, and the string fits behind the array. -/
structure ArgFits (arg : CString) : Prop where
  words : (wordsOf arg).length ≤ 30
  bytes : maxArgs * 8 + arg.strLen + 1 ≤ pageSize

instance (arg : CString) : Decidable (ArgFits arg) :=
  decidable_of_iff ((wordsOf arg).length ≤ 30 ∧ maxArgs * 8 + arg.strLen + 1 ≤ pageSize)
    ⟨fun h => ⟨h.1, h.2⟩, fun h => ⟨h.words, h.bytes⟩⟩

/-! ## What is on the page -/

/-- The words of a string of which the first `w` bytes of the current word are
behind us. -/
def wordsFrom (w cs : List UInt8) : List (List UInt8) := (cs.splitOn space).modifyHead (w ++ ·)

@[simp] theorem wordsFrom_nil (w : List UInt8) : wordsFrom w [] = [w] := by
  simp [wordsFrom]

@[simp] theorem wordsFrom_nil_left (cs : List UInt8) : wordsFrom [] cs = cs.splitOn space := by
  cases h : cs.splitOn space <;> simp [wordsFrom, h]

theorem wordsFrom_space (w cs : List UInt8) :
    wordsFrom w (space :: cs) = w :: wordsFrom [] cs := by
  rw [wordsFrom_nil_left]
  simp [wordsFrom, List.splitOn_cons_eq_if_modifyHead]

theorem wordsFrom_cons (w cs : List UInt8) {c : UInt8} (hc : c ≠ space) :
    wordsFrom w (c :: cs) = wordsFrom (w ++ [c]) cs := by
  cases h : cs.splitOn space <;>
    simp [wordsFrom, List.splitOn_cons_eq_if_modifyHead, hc, h]

variable {argStrings arguments ptr i j : Nat} {mem : Nat → UInt8} {w : List UInt8}

theorem endWord_outside {a : Nat} (hbyte : a ≠ argStrings + j)
    (harray : a < arguments + 8 * i ∨ arguments + 8 * i + 8 ≤ a) :
    endWord argStrings arguments j i ptr mem a = mem a := by
  rw [endWord, store_outside harray, update_of_ne hbyte]

/-- The word ends, and its address is in the array. -/
theorem endWord_string (arguments : Nat) (hptr : ptr + w.length = argStrings + j) (hle : argStrings ≤ ptr)
    (hw : BytesAt mem ptr w) (harray : arguments + 8 * i + 8 ≤ argStrings)
    (hrange : argStrings + j < 2 ^ 64) :
    load (endWord argStrings arguments j i ptr mem) (arguments + 8 * i) 8 = ptr ∧
    StringAt (endWord argStrings arguments j i ptr mem) ptr w := by
  refine ⟨load_store (by omega), hw.congr fun k hk => ?_, ?_⟩
  · exact endWord_outside (by omega) (Or.inr (by omega))
  · rw [hptr, endWord, store_outside (Or.inr (by omega)), update_self]

/-- The loop writes the words that are left, each with its address in the array.
`w` is the part of the current word that is written already. -/
theorem buildLoop_vector (cs : List UInt8) (hptr : ptr + w.length = argStrings + j)
    (hle : argStrings ≤ ptr) (hw : BytesAt mem ptr w)
    (harray : arguments + 8 * (i + (wordsFrom w cs).length + 1) ≤ argStrings)
    (hrange : argStrings + j + cs.length < 2 ^ 64) :
    VectorAt (buildLoop argStrings arguments cs j i ptr mem) (arguments + 8 * i) ptr
      (wordsFrom w cs) ∧
    ∀ a, a < arguments + 8 * i ∨ argStrings ≤ a ∧ a < argStrings + j →
      buildLoop argStrings arguments cs j i ptr mem a = mem a := by
  induction cs generalizing i j ptr mem w with
  | nil =>
      simp only [wordsFrom_nil, List.length_singleton, List.length_nil] at harray hrange ⊢
      obtain ⟨hload, hstring⟩ :=
        endWord_string (i := i) arguments hptr hle hw (by omega) (by omega)
      refine ⟨⟨?_, hstring.congr fun k hk => ?_, ?_⟩, fun a ha => ?_⟩
      · refine (load_congr fun k hk => ?_).trans hload
        exact store_outside (Or.inl (by omega))
      · exact store_outside (Or.inr (by omega))
      · exact load_store (by decide)
      · rw [buildLoop, store_outside (by omega)]
        exact endWord_outside (by omega) (by omega)
  | cons c cs ih =>
      simp only [List.length_cons] at hrange
      by_cases hc : c = space
      · -- the word ends here
        subst hc
        rw [wordsFrom_space, List.length_cons] at harray
        rw [wordsFrom_space, buildLoop, if_pos rfl]
        obtain ⟨hload, hstring⟩ :=
          endWord_string (i := i) arguments hptr hle hw (by omega) (by omega)
        have hstart : argStrings + j + 1 + ([] : List UInt8).length = argStrings + (j + 1) := rfl
        have hempty : BytesAt (endWord argStrings arguments j i ptr mem) (argStrings + j + 1) [] :=
          bytesAt_nil
        obtain ⟨hrest, hsame⟩ :=
          ih (i := i + 1) hstart (by omega) hempty (by omega) (by omega)
        refine ⟨⟨?_, hstring.congr fun k hk => hsame _ (by omega), ?_⟩, fun a ha => ?_⟩
        · exact (load_congr fun k hk => hsame _ (by omega)).trans hload
        · rw [show ptr + w.length + 1 = argStrings + j + 1 by omega]
          exact hrest
        · rw [hsame a (by omega)]
          exact endWord_outside (by omega) (by omega)
      · -- the word goes on
        rw [wordsFrom_cons w cs hc] at harray ⊢
        rw [buildLoop, if_neg hc]
        have hw' : BytesAt (update mem (argStrings + j) c) ptr (w ++ [c]) := by
          refine (hw.congr fun k hk => update_of_ne (by omega) _ _).snoc ?_
          rw [hptr, update_self]
        have hnext : ptr + (w ++ [c]).length = argStrings + (j + 1) := by
          rw [List.length_append, List.length_singleton]
          omega
        obtain ⟨hrest, hsame⟩ := ih (i := i) hnext hle hw' harray (by omega)
        refine ⟨hrest, fun a ha => ?_⟩
        rw [hsame a (by omega)]
        exact update_of_ne (by omega) _ _

/-- The page of `execp` holds the words. -/
theorem execpPage_vector {arg : CString} (h : ArgFits arg) (functionPtr : Nat) {memory : Nat}
    (hrange : memory + pageSize ≤ 2 ^ 64) :
    VectorAt (execpPage memory functionPtr arg mem) (memory + 8) (memory + maxArgs * 8)
      (wordsOf arg) := by
  have hwords := h.words
  have hbytes := h.bytes
  have hmax : maxArgs * 8 = 256 := rfl
  have hlen : arg.strLen = arg.bytes.length := rfl
  rw [execpPage, buildArguments]
  unfold wordsOf at hwords ⊢
  split
  next => exact load_store (by decide)
  next hne =>
    rw [if_neg hne, ← wordsFrom_nil_left] at hwords
    rw [← wordsFrom_nil_left]
    exact (buildLoop_vector arg.bytes (i := 0) (j := 0) (w := []) rfl le_rfl bytesAt_nil (by omega)
      (by omega)).1

theorem span_wordsFrom (w cs : List UInt8) :
    span (wordsFrom w cs) = w.length + cs.length + 1 := by
  induction cs generalizing w with
  | nil => simp
  | cons c cs ih =>
      by_cases hc : c = space
      · subst hc
        rw [wordsFrom_space, span_cons, ih]
        simp only [List.length_cons, List.length_nil]
        omega
      · rw [wordsFrom_cons w cs hc, ih]
        simp only [List.length_append, List.length_cons, List.length_nil]
        omega

/-- The words with their terminators take as much room as the string. -/
theorem span_wordsOf_le (arg : CString) : span (wordsOf arg) ≤ arg.strLen + 1 := by
  unfold wordsOf
  split
  next => exact Nat.zero_le _
  next =>
    rw [← wordsFrom_nil_left, span_wordsFrom]
    simp [CString.strLen]

/-- The loop of `executer` stops at the first `NULL`. -/
theorem countArgs_eq {mem : Nat → UInt8} {argv n m fuel : Nat} (hn : n ≤ m)
    (hne : ∀ i, n ≤ i → i < m → load mem (argv + 8 * i) 8 ≠ null)
    (hend : load mem (argv + 8 * m) 8 = null) (hfuel : m < n + fuel) :
    countArgs mem argv fuel n = some m := by
  induction fuel generalizing n with
  | zero => omega
  | succ fuel ih =>
      rw [countArgs]
      by_cases hlast : n = m
      · rw [hlast, if_pos hend]
      · rw [if_neg (hne n le_rfl (by omega))]
        exact ih (by omega) (fun i hi => hne i (by omega)) (by omega)

/-! ## Pages -/

/-- A data page is inside of the data pages. -/
theorem IsPage.range {p : Nat} (hp : IsPage p) : dataAddress ≤ p ∧ p + pageSize ≤ memoryPagesEnd := by
  obtain ⟨i, rfl⟩ := hp
  have := i.toNat_lt
  have hsize : stackSize.toNat = 255 := rfl
  unfold pageAddr memoryPagesEnd pageSize dataAddress
  omega

/-- Two data pages have no byte in common. -/
theorem IsPage.apart {p q a : Nat} (hp : IsPage p) (hq : IsPage q) (hne : p ≠ q)
    (ha : p ≤ a ∧ a < p + pageSize) : a < q ∨ q + pageSize ≤ a := by
  obtain ⟨i, rfl⟩ := hp
  obtain ⟨j, rfl⟩ := hq
  unfold pageAddr pageSize at *
  omega

/-! ## Runs -/

/-- The memory, the allocator and the pages of everybody else. -/
structure ExecRun where
  mem : Addr → UInt8
  pages : PageStack
  /-- The page of `executer`, once it has copied its parameters. -/
  child : Option Addr
  /-- `execp` has given its page back. -/
  freed : Bool
  /-- The data pages of all other processes. -/
  owned : List Addr

/-- What can happen in one step. -/
inductive ExecAction where
  /-- `executer` gets its page and copies the parameters. -/
  | copy
  /-- `execp` gives its page back.  -/
  | free
  /-- Another process gets a page. -/
  | malloc
  /-- Another process gives a page back. -/
  | release (page : Addr)
  /-- Another process writes a byte. -/
  | write (a : Addr) (x : UInt8)

namespace ExecRun

/-- Another process may write to its own pages, and outside of the data pages. -/
def MayWrite (s : ExecRun) (a : Addr) : Prop :=
  (∃ page ∈ s.owned, page ≤ a ∧ a < page + pageSize) ∨ a < dataAddress ∨ memoryPagesEnd ≤ a

instance (s : ExecRun) (a : Addr) : Decidable (s.MayWrite a) :=
  inferInstanceAs (Decidable (_ ∨ _ ∨ _))

/-- `execp` has started `executer` with the words of `arg` on the page `memory`.
The page is given back after it was copied. -/
def system (arg : CString) (memory : Addr) : System ExecRun ExecAction where
  init s := (∃ functionPtr mem, s.mem = execpPage memory functionPtr arg mem) ∧
    s.child = none ∧ s.freed = false ∧ memory ∉ s.owned ∧
    s.pages.PagesOk {a | a = memory ∨ a ∈ s.owned}
  next
    | s, .copy =>
        if s.child = none then
          s.pages.getPage.map fun (page, pages) =>
            { s with mem := move s.mem page memory pageSize, pages, child := some page }
        else none
    | s, .free =>
        if s.child ≠ none ∧ s.freed = false then
          some { s with pages := s.pages.storePage memory, freed := true }
        else none
    | s, .malloc =>
        s.pages.getPage.map fun (page, pages) => { s with pages, owned := page :: s.owned }
    | s, .release page =>
        if page ∈ s.owned then
          some { s with pages := s.pages.storePage page, owned := s.owned.filter (· ≠ page) }
        else none
    | s, .write a x => if s.MayWrite a then some { s with mem := update s.mem a x } else none

/-- The function of the new process sees its arguments. -/
def Observes (arg : CString) (s : ExecRun) : Prop :=
  ∀ page, s.child = some page →
    countArgs s.mem (page + 8) pageSize 0 = some (wordsOf arg).length ∧
    (∀ i w, (wordsOf arg)[i]? = some w → StringAt s.mem (load s.mem (page + 8 + 8 * i) 8) w) ∧
    load s.mem (page + 8 + 8 * (wordsOf arg).length) 8 = null

/-- Nobody changes the words on the page of `execp`. -/
def SparesWords (arg : CString) (memory : Addr) (s : ExecRun) : ExecAction → Prop
  | .write a x => memory + maxArgs * 8 ≤ a → a < memory + maxArgs * 8 + span (wordsOf arg) →
      x = s.mem a
  | _ => True

/-! ## What holds in every run -/

/-- The page with the array that leads to the words: that of `execp` until
`executer` has a copy. -/
def arrayPage (memory : Nat) (s : ExecRun) : Nat := s.child.getD memory

/-- The page of `executer` is its own, that of `execp` is its own until it is given
back, and the array leads to the words. -/
structure Inv (arg : CString) (memory : Addr) (s : ExecRun) : Prop where
  pages : s.pages.PagesOk
    {a | a = memory ∧ s.freed = false ∨ s.child = some a ∨ a ∈ s.owned}
  isPage : IsPage memory
  freed : s.child = none → s.freed = false
  parent : s.freed = false → memory ∉ s.owned
  child : ∀ page, s.child = some page → page ≠ memory ∧ page ∉ s.owned
  vector : VectorAt s.mem (s.arrayPage memory + 8) (memory + maxArgs * 8) (wordsOf arg)

variable {arg : CString} {memory : Nat} {s t : ExecRun}

theorem Inv.start (hfits : ArgFits arg) (h : (system arg memory).init s) : s.Inv arg memory := by
  obtain ⟨⟨functionPtr, mem, hmem⟩, hchild, hfreed, hparent, hpages⟩ := h
  have hpage : IsPage memory := hpages.isPage memory (Or.inl rfl)
  have hend := hpage.range.2
  have hsize : memoryPagesEnd ≤ 2 ^ 64 := by decide
  refine ⟨hpages.mono ?_, hpage, fun _ => hfreed, fun _ => hparent, ?_, ?_⟩
  · rintro a (⟨ha, -⟩ | ha | ha)
    · exact Or.inl ha
    · rw [hchild] at ha
      cases ha
    · exact Or.inr ha
  · intro page hp
    rw [hchild] at hp
    cases hp
  · rw [arrayPage, hchild, hmem]
    exact execpPage_vector hfits functionPtr (hend.trans hsize)

theorem Inv.isPage_array (h : s.Inv arg memory) : IsPage (s.arrayPage memory) := by
  unfold arrayPage
  cases hc : s.child with
  | none => exact h.isPage
  | some page => exact h.pages.isPage page (Or.inr (Or.inl hc))

/-- The page with the array belongs to nobody else. -/
theorem Inv.array_notMem (h : s.Inv arg memory) : s.arrayPage memory ∉ s.owned := by
  unfold arrayPage
  cases hc : s.child with
  | none => exact h.parent (h.freed hc)
  | some page => exact (h.child page hc).2

/-- Nobody may write to a page that is not his. -/
theorem Inv.outside (h : s.Inv arg memory) {page a : Nat} (hpage : IsPage page)
    (hnot : page ∉ s.owned) (ha : s.MayWrite a) : a < page ∨ page + pageSize ≤ a := by
  rcases ha with ⟨q, hq, hin⟩ | ha | ha
  · have hne : q ≠ page := fun he => hnot (he ▸ hq)
    exact (h.pages.isPage q (Or.inr (Or.inr hq))).apart hpage hne hin
  · exact Or.inl (ha.trans_le hpage.range.1)
  · exact Or.inr (hpage.range.2.trans ha)

/-- A write to another page leaves the array alone. -/
theorem Inv.array_same (h : s.Inv arg memory) (hfits : ArgFits arg) {a : Nat} (x : UInt8)
    (ha : s.MayWrite a) : ∀ i < 8 * ((wordsOf arg).length + 1),
      update s.mem a x (s.arrayPage memory + 8 + i) = s.mem (s.arrayPage memory + 8 + i) := by
  intro i hi
  have hout := h.outside h.isPage_array h.array_notMem ha
  have hwords := hfits.words
  have hsize : pageSize = 4096 := rfl
  have hne : s.arrayPage memory + 8 + i ≠ a := by omega
  exact update_of_ne hne _ _

/-- `executer` copies the array. -/
theorem Inv.copy (h : s.Inv arg memory) (hfits : ArgFits arg) (hnone : s.child = none)
    {page : Addr} {pages : PageStack} (hget : s.pages.getPage = some (page, pages)) :
    Inv arg memory
      { s with mem := move s.mem page memory pageSize, pages, child := some page } := by
  obtain ⟨hfresh, hpage, hpages⟩ := h.pages.getPage hget
  have hfreed := h.freed hnone
  have hne : page ≠ memory := fun he => hfresh (Or.inl ⟨he, hfreed⟩)
  have hwords := hfits.words
  have hbytes := hfits.bytes
  have hspan := span_wordsOf_le arg
  have hsize : pageSize = 4096 := rfl
  have hmax : maxArgs * 8 = 256 := rfl
  refine ⟨hpages.mono ?_, h.isPage, fun hc => (nomatch hc), h.parent, ?_, ?_⟩
  · rintro a (ha | ha | ha)
    · exact Or.inr (Or.inl ha)
    · exact Or.inl (Option.some.inj ha).symm
    · exact Or.inr (Or.inr (Or.inr ha))
  · intro q hq
    obtain rfl := Option.some.inj hq
    exact ⟨hne, fun hmem => hfresh (Or.inr (Or.inr hmem))⟩
  · have hvector := h.vector
    rw [arrayPage, hnone] at hvector
    refine VectorAt.congr hvector (fun i hi => ?_) fun i hi => ?_
    · show move s.mem page memory pageSize (page + 8 + i) = s.mem (memory + 8 + i)
      rw [Nat.add_assoc, Nat.add_assoc]
      exact move_inside (by omega)
    · exact move_outside (h.isPage.apart hpage hne.symm ⟨by omega, by omega⟩)

/-- A write that spares the words. -/
theorem Inv.write (h : s.Inv arg memory) (hfits : ArgFits arg) {a : Nat} {x : UInt8}
    (ha : s.MayWrite a) (hguard : SparesWords arg memory s (.write a x)) :
    Inv arg memory { s with mem := update s.mem a x } := by
  refine { h with vector := h.vector.congr (h.array_same hfits x ha) fun i hi => ?_ }
  by_cases hword : memory + maxArgs * 8 + i = a
  · subst hword
    exact (update_self _ _ _).trans (hguard (Nat.le_add_right _ _) (Nat.add_lt_add_left hi _))
  · exact update_of_ne hword _ _

/-- Every step that spares the words keeps the invariant. -/
theorem Inv.next {a : ExecAction} (h : s.Inv arg memory) (hfits : ArgFits arg)
    (hguard : SparesWords arg memory s a) (hn : (system arg memory).next s a = some t) :
    t.Inv arg memory := by
  cases a with
  | copy =>
      simp only [system] at hn
      split at hn
      next hnone =>
        obtain ⟨⟨page, pages⟩, hget, rfl⟩ := Option.map_eq_some_iff.mp hn
        exact h.copy hfits hnone hget
      next => cases hn
  | free =>
      simp only [system] at hn
      split at hn
      next hfree =>
        cases hn
        have hused := h.pages.storePage (Or.inl ⟨rfl, hfree.2⟩)
        refine { h with
          pages := hused.mono ?_
          freed := fun hc => absurd hc hfree.1
          parent := fun hf => (nomatch hf) }
        rintro a (⟨-, hf⟩ | ha | ha)
        · cases hf
        · exact ⟨Or.inr (Or.inl ha), (h.child a ha).1⟩
        · exact ⟨Or.inr (Or.inr ha), fun he => h.parent hfree.2 (he ▸ ha)⟩
      next => cases hn
  | malloc =>
      obtain ⟨⟨page, pages⟩, hget, rfl⟩ := Option.map_eq_some_iff.mp hn
      obtain ⟨hfresh, -, hused⟩ := h.pages.getPage hget
      refine { h with
        pages := hused.mono ?_
        parent := fun hf => ?_
        child := fun q hq => ⟨(h.child q hq).1, ?_⟩ }
      · rintro a (ha | ha | ha)
        · exact Or.inr (Or.inl ha)
        · exact Or.inr (Or.inr (Or.inl ha))
        · rcases List.mem_cons.mp ha with rfl | ha
          · exact Or.inl rfl
          · exact Or.inr (Or.inr (Or.inr ha))
      · rw [List.mem_cons, not_or]
        exact ⟨fun he => hfresh (Or.inl ⟨he.symm, hf⟩), h.parent hf⟩
      · rw [List.mem_cons, not_or]
        exact ⟨fun he => hfresh (Or.inr (Or.inl (he ▸ hq))), (h.child q hq).2⟩
  | release page =>
      simp only [system] at hn
      split at hn
      next hmem =>
        cases hn
        have hused := h.pages.storePage (Or.inr (Or.inr hmem))
        refine { h with
          pages := hused.mono ?_
          parent := fun hf hin => h.parent hf (List.mem_filter.mp hin).1
          child := fun q hq =>
            ⟨(h.child q hq).1, fun hin => (h.child q hq).2 (List.mem_filter.mp hin).1⟩ }
        rintro a (⟨ha, hf⟩ | ha | ha)
        · exact ⟨Or.inl ⟨ha, hf⟩, fun he => h.parent hf (ha ▸ he ▸ hmem)⟩
        · exact ⟨Or.inr (Or.inl ha), fun he => (h.child a ha).2 (he ▸ hmem)⟩
        · obtain ⟨hin, hne⟩ := List.mem_filter.mp ha
          exact ⟨Or.inr (Or.inr hin), of_decide_eq_true hne⟩
      next => cases hn
  | write a x =>
      simp only [system] at hn
      split at hn
      next ha =>
        cases hn
        exact h.write hfits ha hguard
      next => cases hn

theorem inv_of_reachBy (hfits : ArgFits arg)
    (h : (system arg memory).ReachBy (SparesWords arg memory) s) : s.Inv arg memory :=
  h.invariant (fun _ => Inv.start hfits) fun _ _ _ hi hg hn => hi.next hfits hg hn

/-- The array shows the words to the function. -/
theorem Inv.observes (h : s.Inv arg memory) (hfits : ArgFits arg) : s.Observes arg := by
  intro page hp
  have hvector := h.vector
  rw [arrayPage, hp] at hvector
  have hwords := hfits.words
  have hpos : 0 < maxArgs * 8 := by decide
  refine ⟨countArgs_eq (Nat.zero_le _) (fun i _ hi => ?_) hvector.terminator ?_,
    fun i w hi => (hvector.get hi).1, hvector.terminator⟩
  · have hle := (hvector.get (List.getElem?_eq_getElem hi)).2
    exact Nat.ne_of_gt ((Nat.lt_add_left memory hpos).trans_le hle)
  · rw [Nat.zero_add]
    exact hwords.trans_lt (by decide)

/-- A write that changes a word is seen. -/
theorem Inv.not_observes (h : s.Inv arg memory) (hfits : ArgFits arg) {a : Nat} {x : UInt8}
    (ha : s.MayWrite a) (hobs : Observes arg { s with mem := update s.mem a x }) :
    SparesWords arg memory s (.write a x) := by
  intro hlo hhi
  replace hlo : memory + maxArgs * 8 ≤ a := hlo
  replace hhi : a < memory + maxArgs * 8 + span (wordsOf arg) := hhi
  have hspan := span_wordsOf_le arg
  have hbytes := hfits.bytes
  cases hc : s.child with
  | none =>
      -- the page is not given back yet
      have hout := h.outside h.isPage (h.parent (h.freed hc)) ha
      omega
  | some page =>
      have hsame := h.array_same hfits x ha
      have hvector := h.vector
      rw [arrayPage, hc] at hsame hvector
      have hvector' := hvector.of_strings hsame (hobs page hc).2.1
      have heq := hvector.unique hvector' (i := a - (memory + maxArgs * 8)) (by omega)
      rw [Nat.add_sub_of_le hlo, update_self] at heq
      exact heq

/-- In every run that spares the words the function sees its arguments, and the
next step leaves it so exactly when it spares the words too. -/
theorem args_survive (hfits : ArgFits arg)
    (h : (system arg memory).ReachBy (SparesWords arg memory) s) :
    s.Observes arg ∧ ∀ a t, (system arg memory).next s a = some t →
      (t.Observes arg ↔ SparesWords arg memory s a) := by
  have hi := inv_of_reachBy hfits h
  refine ⟨hi.observes hfits, fun a t hn => ⟨fun hobs => ?_, fun hg => ?_⟩⟩
  · cases a with
    | write a x =>
        simp only [system] at hn
        split at hn
        next ha =>
          cases hn
          exact hi.not_observes hfits ha hobs
        next => cases hn
    | _ => trivial
  · exact (hi.next hfits hg hn).observes hfits

/-! ## A page that is handed out again -/

/-- The allocator after `execp` got the first page. -/
def firstTaken : PageStack :=
  { PageStack.initializeMemoryAllocator ⟨fun _ => 0, 0⟩ with currentIndex := 1 }

/-- `execp` with an argument, on the first page. -/
def execStart (arg : CString) : ExecRun where
  mem := execpPage (pageAddr 1) 0 arg fun _ => 0
  pages := firstTaken
  child := none
  freed := false
  owned := []

theorem init_execStart (arg : CString) : (system arg (pageAddr 1)).init (execStart arg) := by
  have hget : (PageStack.initializeMemoryAllocator ⟨fun _ => 0, 0⟩).getPage =
      some (pageAddr 1, firstTaken) := rfl
  refine ⟨⟨0, fun _ => 0, rfl⟩, rfl, rfl, List.not_mem_nil, ?_⟩
  refine (PageStack.initial_pagesOk.getPage hget).2.2.mono ?_
  rintro a (rfl | ha)
  · exact Or.inl rfl
  · exact absurd ha List.not_mem_nil

/-- Two words. -/
def twoWords : CString := ⟨[97, 98, 32, 99], by decide⟩

/-- A test for the guard: no write at all. -/
def writesNothing (_ : ExecRun) : ExecAction → Bool
  | .write _ _ => false
  | _ => true

theorem sparesWords_of_writesNothing (s : ExecRun) (a : ExecAction) (h : writesNothing s a) :
    SparesWords arg memory s a := by
  cases a with
  | write a x => cases h
  | _ => trivial

/-- The page of `execp` is given back, and another process gets it. -/
def pageRecycled : Option ExecRun :=
  (system twoWords (pageAddr 1)).executeBy writesNothing (execStart twoWords)
    [.copy, .free, .malloc]

theorem args_survive_recycled :
    (pageRecycled.get (by decide +kernel)).Observes twoWords ∧
    ∀ a t, (system twoWords (pageAddr 1)).next (pageRecycled.get (by decide +kernel)) a = some t →
      (t.Observes twoWords ↔
        SparesWords twoWords (pageAddr 1) (pageRecycled.get (by decide +kernel)) a) :=
  args_survive (by decide +kernel) ((System.ReachBy.init (init_execStart twoWords)).execute
    sparesWords_of_writesNothing (Option.some_get _).symm)

/-- The other process writes to it, and the function finds another word. -/
theorem args_overwritten :
    ¬∀ arg memory s, ArgFits arg → (system arg memory).Reach s → s.Observes arg := by
  intro hall
  obtain ⟨t, ht, hf⟩ := System.exists_reach_of_execute (init_execStart twoWords)
    [.copy, .free, .malloc, .write (pageAddr 1 + 256) 122]
    (fun t => decide (t.child = some (pageAddr 2)) &&
      decide (load t.mem (pageAddr 2 + 8) 8 = pageAddr 1 + 256) &&
      decide (t.mem (pageAddr 1 + 256) = 122)) (by decide +kernel)
  simp only [Bool.and_eq_true, decide_eq_true_eq] at hf
  obtain ⟨⟨hchild, hptr⟩, hbyte⟩ := hf
  have hword := (hall twoWords (pageAddr 1) t (by decide +kernel) ht (pageAddr 2) hchild).2.1 0
    [97, 98] (by decide +kernel)
  have hfirst := hword.1 0 (by decide)
  rw [Nat.mul_zero, Nat.add_zero, Nat.add_zero, hptr, hbyte] at hfirst
  exact absurd hfirst (by decide)

end ExecRun

end TPE
