import TPE.Kernel.CallRuns
import TPE.Kernel.DataPages
import TPE.Kernel.NumberText

/-!
# The text of a process

`get_process_info` collects what `ps` shows about a process, and `process_string` writes it as
one line into an array of `MAX_PROCESS_STRING` bytes.  No step looks at the size of the array.
The addresses of the data pages come last, and a process has up to 64 of them.
-/

namespace TPE

open ByteMemory WriteLog NumberText

/-- `MAX_PROCESS_STRING` -/
abbrev maxProcessString : Nat := 256

/-- `RUNNING`, `READY` and `BLOCKED` of `process_info.h`. -/
inductive InfoStatus where
  | running
  | ready
  | blocked
deriving DecidableEq

/-- `process_info` -/
structure ProcessInfo where
  isForeground : Bool
  st : InfoStatus
  pid : Nat
  ppid : Nat
  name : CString
  stackAddress : Addr
  /-- `mem_pages`, with the `NULL` that is written behind the last page. -/
  memPages : List Addr

/-- `get_process_info`.  It keeps the scheduler off with the quantum, which is the same again
when it returns. -/
def Kernel.getProcessInfo (k : Kernel) (p : Addr) : ProcessInfo where
  isForeground := k.foreground = p
  st :=
    if p = k.getCurrentProcess then .running
    else if k.processes.isBlockedProcess p then .blocked
    else .ready
  pid := (k.processes p).pid
  ppid := (k.processes p).ppid
  name := (k.processes p).name
  stackAddress := (k.processes p).stackPage
  memPages := (k.processes p).dataPagesProcess

namespace ProcessInfo

/-! ## The code -/

/-- `SEPARATOR` -/
def separator : UInt8 := 32

/-- `FOREGROUND` and `BACKGROUND` -/
def ground (p : ProcessInfo) : CString :=
  if p.isForeground then .ofString "foreground" else .ofString "background"

/-- `state` -/
def state : InfoStatus → CString
  | .running => .ofString "RUNNING"
  | .ready => .ofString "READY"
  | .blocked => .ofString "BLOCKED"

/-- `strcpysep`: what it returns, and the memory.  `strcpy` copies the terminator, too. -/
def strcpysep (dst : Nat) (source : CString) (m : WriteLog) : Nat × WriteLog :=
  let m := m.writeAll dst (source.bytes ++ [0])
  let len := source.strLen
  (len + 1, (m.write (dst + len) separator).write (dst + (len + 1)) 0)

/-- The loop over `mem_pages`, from one entry on. -/
def pagesLoop (buffer : Nat) : List Addr → Nat → WriteLog → Option (Nat × WriteLog)
  | [], i, m => some (i, m)
  | page :: pages, i, m =>
      if page ≠ null then do
        let (len, m) ← NumberText.itoa (int32 page) (buffer + i) 16 m
        let i := i + len.toNat
        if pages.headD null ≠ null then
          pagesLoop buffer pages (i + 2) ((m.write (buffer + i) 44).write (buffer + (i + 1)) 32)
        else pagesLoop buffer pages i m
      else some (i, m)

/-- `process_string`: what it returns, and the memory. -/
def processString (p : ProcessInfo) (buffer : Nat) (m : WriteLog) : Option (Nat × WriteLog) := do
  let i := 0
  let (len, m) ← NumberText.itoa (int32 p.pid) (buffer + i) 10 m
  let i := i + len.toNat
  let m := m.write (buffer + i) separator
  let i := i + 1
  let (len, m) := strcpysep (buffer + i) p.name m
  let i := i + len
  let (len, m) := strcpysep (buffer + i) (.ofString "PPID") m
  let i := i + len
  let (len, m) ← NumberText.itoa (int32 p.ppid) (buffer + i) 10 m
  let i := i + len.toNat
  let m := m.write (buffer + i) separator
  let i := i + 1
  let (len, m) := strcpysep (buffer + i) p.ground m
  let i := i + len
  let (len, m) := strcpysep (buffer + i) (state p.st) m
  let i := i + len
  let (len, m) := strcpysep (buffer + i) (.ofString "Stack Address: ") m
  let i := i + len
  let (len, m) ← NumberText.itoa (int32 p.stackAddress) (buffer + i) 16 m
  let i := i + len.toNat
  let m := m.write (buffer + i) separator
  let i := i + 1
  let (i, m) ←
    if p.memPages.headD null ≠ null then
      let (len, m) := strcpysep (buffer + i) (.ofString "Memory Address: ") m
      pagesLoop buffer p.memPages (i + len) m
    else some (i, m)
  some (i, m.write (buffer + i) 0)

/-! ## The text -/

/-- The addresses, with commas. -/
def pagesText : List Addr → List UInt8
  | [] => []
  | [page] => itoaText (int32 page) 16
  | page :: next :: pages =>
      itoaText (int32 page) 16 ++ [44] ++ [32] ++ pagesText (next :: pages)

/-- The text up to the address of the stack. -/
def headText (p : ProcessInfo) : List UInt8 :=
  itoaText (int32 p.pid) 10 ++ [separator] ++ (p.name.bytes ++ [separator]) ++
    ((CString.ofString "PPID").bytes ++ [separator]) ++ itoaText (int32 p.ppid) 10 ++ [separator] ++
    (p.ground.bytes ++ [separator]) ++ ((state p.st).bytes ++ [separator]) ++
    ((CString.ofString "Stack Address: ").bytes ++ [separator]) ++
    itoaText (int32 p.stackAddress) 16 ++ [separator]

/-- The text, when `pages` are in front of the `NULL`. -/
def processText (p : ProcessInfo) (pages : List Addr) : List UInt8 :=
  if pages = [] then p.headText
  else p.headText ++ ((CString.ofString "Memory Address: ").bytes ++ [separator]) ++ pagesText pages

/-! ## One piece behind the other -/

/-- From `m` to `m'` the `i` bytes `s` were written from `buffer` on, and perhaps a terminator. -/
structure Filled (m m' : WriteLog) (buffer i : Nat) (s : List UInt8) : Prop where
  length : i = s.length
  puts : ∃ n, i ≤ n ∧ n ≤ i + 1 ∧ Puts m m' buffer n s

variable {m m' : WriteLog} {buffer i : Nat} {s : List UInt8} {value base : Int} {p : ProcessInfo}

theorem Filled.start (m : WriteLog) (buffer : Nat) : Filled m m buffer 0 [] :=
  ⟨rfl, 0, Nat.le_refl _, Nat.zero_le _, .refl m buffer⟩

/-- A character behind the text. -/
theorem Filled.char (h : Filled m m' buffer i s) (c : UInt8) :
    Filled m (m'.write (buffer + i) c) buffer (i + 1) (s ++ [c]) := by
  obtain ⟨rfl, n, hle, hover, hputs⟩ := h
  refine ⟨by simp, s.length + 1, Nat.le_refl _, Nat.le_succ _, hputs.concat c hle hover⟩

/-- A number behind the text. -/
theorem Filled.itoa (h : Filled m m' buffer i s) (hbase : 2 ≤ base) (value : Int) :
    ∃ len m'', NumberText.itoa (int32 value) (buffer + i) base m' = some (len, m'') ∧
      Filled m m'' buffer (i + len.toNat) (s ++ itoaText (int32 value) base) := by
  obtain ⟨rfl, n, hle, hover, hputs⟩ := h
  obtain ⟨m'', hrun, hput⟩ := itoa_puts hbase (le_int32 value) (int32_lt value)
    (buffer + s.length) m'
  have hall := hputs.trans hput hle (by omega)
  rw [← List.append_assoc] at hall
  refine ⟨_, m'', hrun, ?_, _, ?_, ?_, hall.left⟩
  · rw [Int.toNat_natCast, List.length_append]
  · rw [Int.toNat_natCast]
    omega
  · rw [Int.toNat_natCast]
    omega

/-- A string and a separator behind the text. -/
theorem Filled.strcpysep (h : Filled m m' buffer i s) (source : CString) :
    ∃ len m'', strcpysep (buffer + i) source m' = (len, m'') ∧
      Filled m m'' buffer (i + len) (s ++ (source.bytes ++ [separator])) := by
  obtain ⟨rfl, n, hle, hover, hputs⟩ := h
  have hcopy := puts_writeAll m' (buffer + s.length) (source.bytes ++ [0])
  rw [List.length_append] at hcopy
  have hsep := hcopy.left.concat separator (Nat.le_succ _) (Nat.le_refl _)
  have hend := hsep.concat 0 (by simp) (by simp)
  have hall := hputs.trans hend hle (by simp; omega)
  rw [← List.append_assoc] at hall
  simp only [List.length_append, List.length_singleton] at hall
  refine ⟨_, _, rfl, ?_, _, ?_, ?_, hall.left⟩
  · rw [List.length_append, List.length_append, CString.strLen]
    rfl
  · rw [CString.strLen]
    omega
  · rw [CString.strLen]
    omega

/-- The terminator. -/
theorem Filled.finish (h : Filled m m' buffer i s) :
    Puts m (m'.write (buffer + i) 0) buffer (s.length + 1) (s ++ [0]) := by
  obtain ⟨rfl, n, hle, hover, hputs⟩ := h
  exact hputs.concat 0 hle hover

/-- The loop writes the addresses up to the `NULL`. -/
theorem Filled.pagesLoop {pages : List Addr} (h : Filled m m' buffer i s)
    (hpages : ∀ page ∈ pages, page ≠ null) :
    ∃ j m'', pagesLoop buffer (pages ++ [null]) i m' = some (j, m'') ∧
      Filled m m'' buffer j (s ++ pagesText pages) := by
  induction pages generalizing m' i s with
  | nil =>
      refine ⟨i, m', ?_, ?_⟩
      · rw [List.nil_append, ProcessInfo.pagesLoop, if_neg (by simp)]
      · rwa [pagesText, List.append_nil]
  | cons page pages ih =>
      have hbase : (2 : Int) ≤ 16 := by decide
      obtain ⟨len, m₁, hrun, hfilled⟩ := h.itoa hbase (page : Int)
      rw [List.cons_append, ProcessInfo.pagesLoop, if_pos (hpages page List.mem_cons_self), hrun]
      simp only [Option.bind_eq_bind, Option.bind_some]
      cases pages with
      | nil =>
          rw [if_neg (by simp)]
          refine ⟨i + len.toNat, m₁, ?_, hfilled⟩
          rw [List.nil_append, ProcessInfo.pagesLoop, if_neg (by simp)]
      | cons next pages =>
          have hnext : next ≠ null := hpages next (by simp)
          rw [if_pos (by simpa using hnext)]
          have hcomma := (hfilled.char 44).char 32
          obtain ⟨j, m₂, hrun', hrest⟩ := ih hcomma fun q hq => hpages q (List.mem_cons_of_mem _ hq)
          refine ⟨j, m₂, hrun', ?_⟩
          rw [pagesText]
          simpa only [List.append_assoc] using hrest

/-- `process_string` writes the text with a terminator, and nothing else. -/
theorem processString_puts {pages : List Addr} (hmem : p.memPages = pages ++ [null])
    (hpages : ∀ page ∈ pages, page ≠ null) (buffer : Nat) (m : WriteLog) :
    ∃ i m', processString p buffer m = some (i, m') ∧
      Puts m m' buffer ((processText p pages).length + 1) (processText p pages ++ [0]) := by
  have hten : (2 : Int) ≤ 10 := by decide
  have hsixteen : (2 : Int) ≤ 16 := by decide
  obtain ⟨l₁, m₁, hrun₁, h₁⟩ := (Filled.start m buffer).itoa hten (p.pid : Int)
  obtain ⟨l₂, m₂, hrun₂, h₂⟩ := (h₁.char separator).strcpysep p.name
  obtain ⟨l₃, m₃, hrun₃, h₃⟩ := h₂.strcpysep (.ofString "PPID")
  obtain ⟨l₄, m₄, hrun₄, h₄⟩ := h₃.itoa hten (p.ppid : Int)
  obtain ⟨l₅, m₅, hrun₅, h₅⟩ := (h₄.char separator).strcpysep p.ground
  obtain ⟨l₆, m₆, hrun₆, h₆⟩ := h₅.strcpysep (state p.st)
  obtain ⟨l₇, m₇, hrun₇, h₇⟩ := h₆.strcpysep (.ofString "Stack Address: ")
  obtain ⟨l₈, m₈, hrun₈, h₈⟩ := h₇.itoa hsixteen (p.stackAddress : Int)
  have h := h₈.char separator
  rw [List.nil_append] at h
  rw [processString, hrun₁, Option.bind_eq_bind, Option.bind_some]
  dsimp only
  rw [hrun₂]
  dsimp only
  rw [hrun₃]
  dsimp only
  rw [hrun₄, Option.bind_some]
  dsimp only
  rw [hrun₅]
  dsimp only
  rw [hrun₆]
  dsimp only
  rw [hrun₇]
  dsimp only
  rw [hrun₈, Option.bind_some]
  dsimp only
  cases pages with
  | nil =>
      rw [hmem, List.nil_append, if_neg (by simp), processText, if_pos rfl, headText]
      exact ⟨_, _, rfl, h.finish⟩
  | cons page pages =>
      have hfirst : (page :: pages ++ [null]).headD null ≠ null := hpages page List.mem_cons_self
      obtain ⟨l₉, m₉, hrun₉, h₉⟩ := h.strcpysep (.ofString "Memory Address: ")
      obtain ⟨j, m', hloop, h'⟩ := h₉.pagesLoop hpages
      rw [hmem, if_pos hfirst, hrun₉]
      dsimp only
      rw [hloop, Option.bind_eq_bind, Option.bind_some, processText,
        if_neg (List.cons_ne_nil _ _), headText]
      exact ⟨_, _, rfl, h'.finish⟩

/-! ## The length of the text -/

/-- The number of digits that `itoa` writes for `n`. -/
def figures (base n : Nat) : Nat := if n = 0 then 1 else (Nat.digits base n).length

theorem length_itoaText {base n : Nat} (hbase : 2 ≤ base) (hn : n < 2 ^ 31) :
    (itoaText (int32 n) base).length = figures base n := by
  have hrounds : n < 2 ^ (31 + 1) := by omega
  have hpos : ¬((n : Int) < 0 ∧ (base : Int) = 10) := by omega
  rw [int32_of_range (by omega) (by omega), itoaText, if_neg hpos, List.length_reverse,
    digitChars_natCast hbase hrounds, List.length_map, figures]
  split
  · rfl
  · rfl

/-- The address of a data page has six digits. -/
theorem figures_page {a : Addr} (h : IsPage a) : figures 16 a = 6 := by
  obtain ⟨i, rfl⟩ := h
  have hlt := i.toNat_lt
  have hlow : 16 ^ 5 ≤ pageAddr i := by
    have hbase : 16 ^ 5 ≤ dataAddress := by decide
    exact Nat.le_trans hbase (Nat.le_add_left dataAddress _)
  have hhigh : pageAddr i < 16 ^ 6 := by
    have hsize : i.toNat * 0x1000 + 0x500000 < 16 ^ 6 := by omega
    exact hsize
  have hle := (Nat.digits_length_le_iff (show 1 < 16 by decide) (pageAddr i)).mpr hhigh
  have hgt := (Nat.lt_digits_length_iff (show 1 < 16 by decide) (pageAddr i)).mpr hlow
  rw [figures, if_neg (Nat.ne_of_gt (Nat.lt_of_lt_of_le (by decide) hlow))]
  exact Nat.le_antisymm hle hgt

theorem length_pagesText {pages : List Addr} (h : ∀ page ∈ pages, IsPage page)
    (hne : pages ≠ []) : (pagesText pages).length + 2 = 8 * pages.length := by
  have hpage : ∀ a : Addr, IsPage a → (itoaText (int32 a) 16).length = 6 := by
    intro a ha
    have hsmall : a < 2 ^ 31 := by
      obtain ⟨i, rfl⟩ := ha
      have hlt := i.toNat_lt
      have hsize : i.toNat * 0x1000 + 0x500000 < 2 ^ 31 := by omega
      exact hsize
    exact (length_itoaText (by decide) hsmall).trans (figures_page ha)
  induction pages with
  | nil => exact absurd rfl hne
  | cons page pages ih =>
      have hfirst := hpage page (h page List.mem_cons_self)
      cases pages with
      | nil =>
          rw [pagesText, hfirst]
          rfl
      | cons next pages =>
          have hrest := ih (fun q hq => h q (List.mem_cons_of_mem _ hq)) (List.cons_ne_nil _ _)
          simp only [pagesText, List.length_append, List.length_cons, List.length_nil, hfirst]
            at hrest ⊢
          omega

theorem length_ground (p : ProcessInfo) : p.ground.bytes.length = 10 := by
  rw [ground]
  split
  · rfl
  · rfl

/-- The bytes that the pages take, from "Memory Address: " on. -/
def pagesLength (n : Nat) : Nat := if n = 0 then 0 else 8 * n + 15

/-- The length of the text. -/
theorem length_processText (p : ProcessInfo) (pages : List Addr) (hpid : p.pid < 2 ^ 31)
    (hppid : p.ppid < 2 ^ 31) (hstack : p.stackAddress < 2 ^ 31)
    (h : ∀ page ∈ pages, IsPage page) :
    (processText p pages).length =
      figures 10 p.pid + p.name.strLen + figures 10 p.ppid + (state p.st).strLen +
        figures 16 p.stackAddress + pagesLength pages.length + 37 := by
  have hhead : p.headText.length = figures 10 p.pid + p.name.strLen + figures 10 p.ppid +
      (state p.st).strLen + figures 16 p.stackAddress + 37 := by
    have hppidText : (CString.ofString "PPID").bytes.length = 4 := rfl
    have hstackText : (CString.ofString "Stack Address: ").bytes.length = 15 := rfl
    have h₁ : (itoaText (int32 p.pid) 10).length = figures 10 p.pid :=
      length_itoaText (by decide) hpid
    have h₂ : (itoaText (int32 p.ppid) 10).length = figures 10 p.ppid :=
      length_itoaText (by decide) hppid
    have h₃ : (itoaText (int32 p.stackAddress) 16).length = figures 16 p.stackAddress :=
      length_itoaText (by decide) hstack
    simp only [headText, List.length_append, List.length_singleton, length_ground, hppidText,
      hstackText, h₁, h₂, h₃, CString.strLen]
    omega
  rw [processText, pagesLength]
  by_cases hnil : pages = []
  · rw [if_pos hnil, hhead, hnil]
    simp
  · have hlen : pages.length ≠ 0 := fun hzero => hnil (List.length_eq_zero_iff.mp hzero)
    have hpages := length_pagesText h hnil
    have hmemText : (CString.ofString "Memory Address: ").bytes.length = 16 := rfl
    rw [if_neg hnil, if_neg hlen]
    simp only [List.length_append, List.length_singleton, hhead, hmemText]
    omega

end ProcessInfo

namespace Kernel

open ProcessInfo

/-- What `process_string` writes about a process stays inside of the caller's array. -/
def FitsBuffer (k : Kernel) (p : Addr) (buffer : Nat) (bytes : Nat → UInt8) : Prop :=
  ∃ i m', processString (k.getProcessInfo p) buffer ⟨bytes, []⟩ = some (i, m') ∧
    ∀ a ∈ m'.written, buffer ≤ a ∧ a < buffer + maxProcessString

variable {k : Kernel} {p : Addr}

/-- `process_string` stays inside of the array exactly if the text and its terminator fit. -/
theorem fitsBuffer_iff_length (hcount : (k.processes p).Counted)
    (hpages : ∀ page ∈ (k.processes p).recorded, IsPage page) (buffer : Nat)
    (bytes : Nat → UInt8) :
    k.FitsBuffer p buffer bytes ↔
      (processText (k.getProcessInfo p) (k.processes p).recorded).length + 1 ≤
        maxProcessString := by
  have hmem : (k.getProcessInfo p).memPages = (k.processes p).recorded ++ [null] :=
    hcount.dataPagesProcess_eq
  obtain ⟨i, m', hrun, hputs⟩ := processString_puts hmem (fun page h => (hpages page h).ne_null)
    buffer ⟨bytes, []⟩
  have hwritten : ∀ a, a ∈ m'.written ↔ buffer ≤ a ∧
      a < buffer + ((processText (k.getProcessInfo p) (k.processes p).recorded).length + 1) := by
    intro a
    rw [hputs.written]
    exact or_iff_right List.not_mem_nil
  constructor
  · rintro ⟨j, m'', hrun', hin⟩
    rw [hrun, Option.some.injEq, Prod.mk.injEq] at hrun'
    obtain ⟨-, rfl⟩ := hrun'
    -- the terminator is the last byte
    have hlast := hin _ ((hwritten _).mpr ⟨Nat.le_add_right _ _,
      Nat.add_lt_add_left (Nat.lt_succ_self _) buffer⟩)
    omega
  · intro hfits
    exact ⟨i, m', hrun, fun a ha => ⟨((hwritten a).mp ha).1,
      Nat.lt_of_lt_of_le ((hwritten a).mp ha).2 (Nat.add_le_add_left hfits buffer)⟩⟩

/-- The address of a stack is an `int`. -/
theorem stackPage_lt {a : Addr} (h : a = 0 ∨ a ∈ stackPages) : a < 2 ^ 31 := by
  rcases h with rfl | h
  · decide
  · obtain ⟨i, hi, rfl⟩ := mem_stackPages.mp h
    have haddress : stackAddress = 0x601000 := by decide
    have hsize : stackPageSize = 0x100000 := rfl
    have hmax : maxProcesses = 128 := rfl
    have hsmall : (i + 1) * 0x100000 + 0x601000 < 2 ^ 31 := by omega
    rw [stackPage, haddress, hsize]
    exact hsmall

/-- The line fits exactly if its parts are short enough together. -/
theorem fitsBuffer_iff (hpid : (k.processes p).pid < maxProcesses)
    (hppid : (k.processes p).ppid < maxProcesses)
    (hstack : (k.processes p).stackPage = 0 ∨ (k.processes p).stackPage ∈ stackPages)
    (hcount : (k.processes p).Counted) (hpages : ∀ page ∈ (k.processes p).recorded, IsPage page)
    (buffer : Nat) (bytes : Nat → UInt8) :
    k.FitsBuffer p buffer bytes ↔
      figures 10 (k.processes p).pid + (k.processes p).name.strLen +
        figures 10 (k.processes p).ppid + (state (k.getProcessInfo p).st).strLen +
        figures 16 (k.processes p).stackPage + pagesLength (k.processes p).recorded.length + 38 ≤
      maxProcessString := by
  have hmax : maxProcesses < 2 ^ 31 := by decide
  have hlen := length_processText (k.getProcessInfo p) (k.processes p).recorded (hpid.trans hmax)
    (hppid.trans hmax) (stackPage_lt hstack) hpages
  rw [fitsBuffer_iff_length hcount hpages, hlen]
  exact Iff.rfl

/-- Every process has `n` data pages. -/
def loaded (n : Nat) : Kernel where
  processes := fun _ =>
    { Process.zero with
      pid := 1
      stackPage := stackPage 0
      nDataPage := n
      dataPage := fun i => if i < n then pageAddr (UInt8.ofNat (i + 1)) else null }

theorem isPage_loaded {n : Nat} : ∀ page ∈ ((loaded n).processes p).recorded, IsPage page := by
  intro page h
  obtain ⟨i, hi, rfl⟩ := List.mem_map.mp h
  have hne := of_decide_eq_true (List.mem_filter.mp hi).2
  simp only [loaded] at hne ⊢
  split
  · exact ⟨_, rfl⟩
  next hge =>
    rw [if_neg hge] at hne
    exact absurd rfl hne

theorem counted_loaded : ((loaded 1).processes 8).Counted ∧ ((loaded 25).processes 8).Counted := by
  unfold Process.Counted
  decide +kernel

theorem stackPage_mem : stackPage 0 ∈ stackPages := mem_stackPages.mpr ⟨0, by decide, rfl⟩

theorem fitsBuffer_iff_loaded : (loaded 1).FitsBuffer 8 0 fun _ => 0 :=
  (fitsBuffer_iff (k := loaded 1) (p := 8) (by decide) (by decide) (Or.inr stackPage_mem)
    counted_loaded.1 isPage_loaded 0 fun _ => 0).mpr (by decide +kernel)

/-- With 25 pages the line does not fit. -/
theorem fitsBuffer_manyPages :
    ¬∀ (k : Kernel) (p : Addr) (buffer : Nat) (bytes : Nat → UInt8),
      (k.processes p).name.strLen ≤ 63 → (k.processes p).pid < maxProcesses →
      (k.processes p).ppid < maxProcesses →
      (k.processes p).stackPage = 0 ∨ (k.processes p).stackPage ∈ stackPages →
      (k.processes p).Counted → (∀ page ∈ (k.processes p).recorded, IsPage page) →
      k.FitsBuffer p buffer bytes := by
  intro h
  have hfits := h (loaded 25) 8 0 (fun _ => 0) (by decide) (by decide) (by decide)
    (Or.inr stackPage_mem) counted_loaded.2 isPage_loaded
  have hlen := length_processText ((loaded 25).getProcessInfo 8) ((loaded 25).processes 8).recorded
    (by decide) (by decide) (stackPage_lt (Or.inr stackPage_mem)) isPage_loaded
  rw [fitsBuffer_iff_length counted_loaded.2 isPage_loaded, hlen] at hfits
  exact absurd hfits (by decide +kernel)

end Kernel

end TPE
