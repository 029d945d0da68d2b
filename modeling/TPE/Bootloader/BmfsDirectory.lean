import Mathlib.Data.List.TakeWhile
import TPE.Library.Extents
import TPE.Bootloader.Bmfs

/-!
# The directory as a list of entries

`Lists directory es` says that the entries of a directory up to its end are `es`.  What the loops of
`findfile`, `create` and `list` find is said by this list, and what the commands write to the bytes
of the directory changes one entry of it or puts one behind it.
-/

namespace TPE

open RingBuffer ByteMemory

namespace Bmfs

variable {directory directory' : Nat → UInt8} {es : List BMFSEntry} {e f : BMFSEntry}
  {filename : CString} {i slot : Nat}

/-! ## Entries and their bytes -/

/-- An entry is 64 bytes. -/
theorem entryAt_congr (h : ∀ j < 64, directory' (64 * i + j) = directory (64 * i + j)) :
    entryAt directory' i = entryAt directory i := by
  have field : ∀ at', at' + 8 ≤ 64 →
      load directory' (64 * i + at') 8 = load directory (64 * i + at') 8 := by
    intro at' hat
    refine load_congr fun j hj => ?_
    rw [Nat.add_assoc, h _ (by omega)]
  rw [entryAt, entryAt, readString_congr h, field 32 (by decide), field 40 (by decide),
    field 48 (by decide)]

/-! ## The entries up to the end -/

/-- The entries in front of the end of the directory. -/
def entries (directory : Nat → UInt8) : List BMFSEntry :=
  (table directory).takeWhile (·.firstByte ≠ 0)

/-- The entry is one of a file. -/
def BMFSEntry.Live (e : BMFSEntry) : Prop := e.firstByte ≠ 1

instance (e : BMFSEntry) : Decidable e.Live := inferInstanceAs (Decidable (_ ≠ _))

/-- The blocks of a file. -/
def BMFSEntry.extent (e : BMFSEntry) : Extent := ⟨e.startingBlock, e.reservedBlocks⟩

theorem BMFSEntry.extent_start (e : BMFSEntry) : e.extent.start = e.startingBlock := rfl

theorem BMFSEntry.extent_stop (e : BMFSEntry) :
    e.extent.stop = e.startingBlock + e.reservedBlocks := rfl

/-- The directory has these entries, and then it ends. -/
structure Lists (directory : Nat → UInt8) (es : List BMFSEntry) : Prop where
  split : ∃ rest, table directory = es ++ rest ∧ ∀ r ∈ rest.head?, r.firstByte = 0
  used : ∀ e ∈ es, e.firstByte ≠ 0

@[simp] theorem length_table (directory : Nat → UInt8) : (table directory).length = 64 := by
  rw [table, List.length_map, List.length_range]

theorem lists_entries (directory : Nat → UInt8) : Lists directory (entries directory) := by
  refine ⟨⟨(table directory).dropWhile (·.firstByte ≠ 0), ?_, fun r hr => ?_⟩, fun e he => ?_⟩
  · exact List.takeWhile_append_dropWhile.symm
  · have hhead := List.head?_dropWhile_not (·.firstByte ≠ 0) (table directory)
    rw [Option.mem_def.mp hr] at hhead
    simpa using hhead
  · simpa using List.mem_takeWhile_imp he

/-- No other entries are listed. -/
theorem Lists.entries_eq (h : Lists directory es) : entries directory = es := by
  obtain ⟨rest, htable, hend⟩ := h.split
  have hused : ∀ e ∈ es, decide (e.firstByte ≠ 0) = true := fun e he => by simpa using h.used e he
  rw [entries, htable, List.takeWhile_append_of_pos hused]
  cases rest with
  | nil => rw [List.takeWhile_nil, List.append_nil]
  | cons r rest =>
      have hr : r.firstByte = 0 := hend r rfl
      rw [List.takeWhile_cons_of_neg (by simp [hr]), List.append_nil]

/-- Only the table counts. -/
theorem Lists.congr (h : Lists directory es) (he : ∀ i < 4096, directory' i = directory i) :
    Lists directory' es := by
  have htable : table directory' = table directory := by
    refine List.map_congr_left fun i hi => entryAt_congr fun j hj => he _ ?_
    have hlt := List.mem_range.mp hi
    omega
  exact ⟨htable ▸ h.split, h.used⟩

theorem Lists.length_le (h : Lists directory es) : es.length ≤ 64 := by
  obtain ⟨rest, htable, -⟩ := h.split
  have hlen := congrArg List.length htable
  rw [length_table, List.length_append] at hlen
  omega

theorem Lists.entry (h : Lists directory es) (he : es[i]? = some e) : entryAt directory i = e := by
  obtain ⟨rest, htable, -⟩ := h.split
  obtain ⟨hi, -⟩ := List.getElem?_eq_some_iff.mp he
  have hlt : i < 64 := Nat.lt_of_lt_of_le hi h.length_le
  have happend : (es ++ rest)[i]? = es[i]? := List.getElem?_append_left hi
  rw [← happend, ← htable, table, List.getElem?_map, List.getElem?_range hlt] at he
  exact Option.some.inj he

/-! ## The loops over the entries -/

/-- What the loop of `findfile` finds is an entry of a file of this name. -/
theorem findIn_some {rest : List BMFSEntry} {tint j : Nat}
    (hend : ∀ r ∈ rest.head?, r.firstByte = 0)
    (h : findIn filename tint (es ++ rest) = some (j, e)) :
    ∃ i, j = tint + i ∧ es[i]? = some e ∧ e.Live ∧ e.fileName = filename.bytes := by
  induction es generalizing tint with
  | nil =>
      cases rest with
      | nil => cases h
      | cons r rest =>
          rw [List.nil_append, findIn, if_pos (hend r rfl)] at h
          cases h
  | cons f es ih =>
      have behind : findIn filename (tint + 1) (es ++ rest) = some (j, e) →
          ∃ i, j = tint + i ∧ (f :: es)[i]? = some e ∧ e.Live ∧ e.fileName = filename.bytes := by
        intro h
        obtain ⟨i, rfl, he⟩ := ih h
        exact ⟨i + 1, by omega, he⟩
      rw [List.cons_append, findIn] at h
      split at h
      next => cases h
      next =>
        split at h
        next => exact behind h
        next hlive =>
          split at h
          next hname =>
            obtain ⟨rfl, rfl⟩ := Prod.mk.inj (Option.some.inj h)
            exact ⟨0, rfl, rfl, hlive, hname.symm⟩
          next => exact behind h

/-- If it finds nothing, there is no such entry. -/
theorem findIn_none {rest : List BMFSEntry} {tint : Nat} (hused : ∀ e ∈ es, e.firstByte ≠ 0)
    (h : findIn filename tint (es ++ rest) = none) :
    ∀ e ∈ es, e.Live → e.fileName ≠ filename.bytes := by
  induction es generalizing tint with
  | nil => exact fun e he => absurd he List.not_mem_nil
  | cons f es ih =>
      have ih : findIn filename (tint + 1) (es ++ rest) = none →
          ∀ e ∈ es, e.Live → e.fileName ≠ filename.bytes :=
        ih fun e he => hused e (List.mem_cons_of_mem _ he)
      rw [List.cons_append, findIn, if_neg (hused f List.mem_cons_self)] at h
      intro e he hlive
      split at h
      next hdel =>
        rcases List.mem_cons.mp he with rfl | he
        · exact absurd hdel hlive
        · exact ih h e he hlive
      next =>
        split at h
        next => cases h
        next hname =>
          rcases List.mem_cons.mp he with rfl | he
          · exact fun hn => hname hn.symm
          · exact ih h e he hlive

theorem Lists.findfile_some (h : Lists directory es)
    (hfind : findfile filename directory = some (i, e)) :
    es[i]? = some e ∧ e.Live ∧ e.fileName = filename.bytes := by
  obtain ⟨rest, htable, hend⟩ := h.split
  rw [findfile, htable] at hfind
  obtain ⟨j, rfl, he⟩ := findIn_some hend hfind
  rwa [Nat.zero_add]

theorem Lists.findfile_none (h : Lists directory es) (hfind : findfile filename directory = none) :
    ∀ e ∈ es, e.Live → e.fileName ≠ filename.bytes := by
  obtain ⟨rest, htable, -⟩ := h.split
  rw [findfile, htable] at hfind
  exact findIn_none h.used hfind

/-- The files have different names. -/
def NamesDiffer (es : List BMFSEntry) : Prop :=
  ∀ (i j : Nat) (e f : BMFSEntry), es[i]? = some e → es[j]? = some f → e.Live → f.Live →
    e.fileName = f.fileName → i = j

theorem Lists.findfile_eq_some (h : Lists directory es) (hnames : NamesDiffer es) :
    findfile filename directory = some (i, e) ↔
      es[i]? = some e ∧ e.Live ∧ e.fileName = filename.bytes := by
  constructor
  · exact h.findfile_some
  · rintro ⟨hi, hlive, hname⟩
    cases hfind : findfile filename directory with
    | none => exact absurd hname (h.findfile_none hfind e (List.mem_of_getElem? hi) hlive)
    | some found =>
        obtain ⟨j, f⟩ := found
        obtain ⟨hj, hflive, hfname⟩ := h.findfile_some hfind
        obtain rfl := hnames i j e f hi hj hlive hflive (hname.trans hfname.symm)
        rw [hi] at hj
        rw [Option.some.inj hj]

/-- The lines of `list` are those of the files. -/
theorem listFrom_append {rest : List BMFSEntry} (hused : ∀ e ∈ es, e.firstByte ≠ 0)
    (hend : ∀ r ∈ rest.head?, r.firstByte = 0) :
    listFrom (es ++ rest) = (es.filter (·.Live)).map fun e =>
      (e.fileName, e.fileSize, e.reservedBlocks * 2 % 2 ^ 64) := by
  induction es with
  | nil =>
      cases rest with
      | nil => rfl
      | cons r rest =>
          rw [List.nil_append, listFrom, if_pos (hend r rfl)]
          rfl
  | cons e es ih =>
      have ih := ih fun f hf => hused f (List.mem_cons_of_mem _ hf)
      rw [List.cons_append, listFrom, if_neg (hused e List.mem_cons_self), List.filter_cons]
      split
      next hdel => rw [if_neg (by simp [BMFSEntry.Live, hdel]), ih]
      next hlive => rw [if_pos (by simp [BMFSEntry.Live, hlive]), List.map_cons, ih]

/-- The first unused entry, or the end. -/
def firstFree (es : List BMFSEntry) : Nat := es.findIdx fun e => ¬e.Live

theorem firstFree_cons (e : BMFSEntry) (es : List BMFSEntry) :
    firstFree (e :: es) = if e.firstByte = 1 then 0 else firstFree es + 1 := by
  rw [firstFree, List.findIdx_cons, ← firstFree]
  by_cases hdel : e.firstByte = 1
  · simp [BMFSEntry.Live, hdel]
  · simp [BMFSEntry.Live, hdel]

/-- The loop of `create` that counts the entries, when an entry ends the directory. -/
theorem countEntries_ended {r : BMFSEntry} {rest : List BMFSEntry} (tint : Nat)
    (free : Option Nat) (hused : ∀ e ∈ es, e.firstByte ≠ 0) (hend : r.firstByte = 0) :
    countEntries tint free (es ++ r :: rest) =
      (tint + es.length, some (free.getD (tint + firstFree es))) := by
  induction es generalizing tint free with
  | nil =>
      rw [List.nil_append, countEntries, if_pos hend]
      cases free with
      | none => rfl
      | some slot => rfl
  | cons e es ih =>
      have ih := fun free => ih (tint + 1) free fun f hf => hused f (List.mem_cons_of_mem _ hf)
      rw [List.cons_append, countEntries, if_neg (hused e List.mem_cons_self), firstFree_cons,
        List.length_cons]
      split
      next =>
        rw [ih]
        cases free with
        | none => simp [Nat.add_right_comm, Nat.add_assoc]
        | some slot => simp [Nat.add_right_comm, Nat.add_assoc]
      next => rw [ih, Nat.add_assoc, Nat.add_assoc, Nat.add_comm 1, Nat.add_comm 1]

/-- And when the directory is full. -/
theorem countEntries_full (tint : Nat) (free : Option Nat) (hused : ∀ e ∈ es, e.firstByte ≠ 0) :
    countEntries tint free es =
      (0, free.or (if firstFree es < es.length then some (tint + firstFree es) else none)) := by
  induction es generalizing tint free with
  | nil => simp [countEntries]
  | cons e es ih =>
      have ih := fun free => ih (tint + 1) free fun f hf => hused f (List.mem_cons_of_mem _ hf)
      rw [countEntries, if_neg (hused e List.mem_cons_self), firstFree_cons, List.length_cons]
      split
      next =>
        rw [ih, if_pos (Nat.succ_pos _)]
        cases free with
        | none => rfl
        | some slot => rfl
      next =>
        rw [ih]
        simp only [Nat.add_lt_add_iff_right, Nat.add_assoc, Nat.add_comm 1]

theorem firstFree_le (es : List BMFSEntry) : firstFree es ≤ es.length := List.findIdx_le_length

/-- The first unused entry is unused. -/
theorem not_live_firstFree (he : es[firstFree es]? = some e) : ¬e.Live := by
  obtain ⟨hi, rfl⟩ := List.getElem?_eq_some_iff.mp he
  have hfound := List.findIdx_getElem (w := hi)
  exact of_decide_eq_true hfound

/-! ## Writing to the directory -/

/-- The directories differ in entry `slot` only, which is `e`. -/
structure Rewrites (directory directory' : Nat → UInt8) (slot : Nat) (e : BMFSEntry) : Prop where
  here : entryAt directory' slot = e
  others : ∀ j ≠ slot, entryAt directory' j = entryAt directory j

theorem Rewrites.table_eq (h : Rewrites directory directory' slot e) :
    table directory' = (table directory).set slot e := by
  refine List.ext_getElem (by simp) fun i hi hi' => ?_
  rw [List.getElem_set]
  simp only [table, List.getElem_map, List.getElem_range]
  split
  next hslot => rw [← hslot, h.here]
  next hslot => exact h.others i (Ne.symm hslot)

/-- An entry in front of the end is written. -/
theorem Lists.set (h : Lists directory es) (hw : Rewrites directory directory' slot e)
    (hslot : slot < es.length) (he : e.firstByte ≠ 0) : Lists directory' (es.set slot e) := by
  obtain ⟨rest, htable, hend⟩ := h.split
  refine ⟨⟨rest, ?_, hend⟩, fun f hf => ?_⟩
  · rw [hw.table_eq, htable, List.set_append_left _ _ hslot]
  · rcases List.mem_or_eq_of_mem_set hf with hf | rfl
    · exact h.used f hf
    · exact he

/-- The lists differ in entry `i` only, which is `e` in the second one and may be new. -/
def Written (es : List BMFSEntry) (i : Nat) (e : BMFSEntry) (es' : List BMFSEntry) : Prop :=
  ∀ k, es'[k]? = if k = i then some e else es[k]?

theorem written_set (hi : i < es.length) (e : BMFSEntry) : Written es i e (es.set i e) := by
  intro k
  rw [List.getElem?_set]
  rcases eq_or_ne i k with rfl | h
  · rw [if_pos rfl, if_pos hi, if_pos rfl]
  · rw [if_neg h, if_neg h.symm]

theorem written_snoc (es : List BMFSEntry) (e : BMFSEntry) :
    Written es es.length e (es ++ [e]) := by
  intro k
  split
  next h => rw [h, List.getElem?_concat_length]
  next h =>
    rcases Nat.lt_or_ge k es.length with hk | hk
    · rw [List.getElem?_append_left hk]
    · rw [List.getElem?_eq_none (by simp; omega), List.getElem?_eq_none hk]

/-- A directory with these entries, that ends behind them. -/
theorem lists_of_entries (hlen : es.length ≤ 64)
    (hentry : ∀ i e, es[i]? = some e → entryAt directory i = e) (hused : ∀ e ∈ es, e.firstByte ≠ 0)
    (hend : es.length < 64 → (entryAt directory es.length).firstByte = 0) : Lists directory es := by
  refine ⟨⟨(table directory).drop es.length, ?_, fun r hr => ?_⟩, hused⟩
  · have htake : (table directory).take es.length = es := by
      refine List.ext_getElem (by simp [hlen]) fun i hi hi' => ?_
      rw [List.getElem_take]
      simp only [table, List.getElem_map, List.getElem_range]
      exact hentry i _ (List.getElem?_eq_getElem hi')
    conv_lhs => rw [← List.take_append_drop es.length (table directory), htake]
  · rw [List.head?_drop] at hr
    obtain ⟨hlt, rfl⟩ := List.getElem?_eq_some_iff.mp (Option.mem_def.mp hr)
    simp only [table, List.getElem_map, List.getElem_range]
    exact hend (by simpa using hlt)

/-- An entry is written where the directory ended, and the next one ends it. -/
theorem Lists.snoc (h : Lists directory es) (hlt : es.length < 64) (he : e.firstByte ≠ 0)
    (hsame : ∀ j < es.length, entryAt directory' j = entryAt directory j)
    (hhere : entryAt directory' es.length = e)
    (hend : es.length + 1 < 64 → (entryAt directory' (es.length + 1)).firstByte = 0) :
    Lists directory' (es ++ [e]) := by
  refine lists_of_entries ?_ (fun i f hf => ?_) (fun f hf => ?_) fun hfull => ?_
  · rw [List.length_append, List.length_singleton]
    exact hlt
  · rcases Nat.lt_or_ge i es.length with hi | hi
    · rw [List.getElem?_append_left hi] at hf
      rw [hsame i hi]
      exact h.entry hf
    · rw [List.getElem?_append_right hi] at hf
      obtain ⟨hzero, rfl⟩ := List.getElem?_eq_some_iff.mp hf
      obtain rfl : i = es.length := by simp at hzero; omega
      simpa using hhere
  · rcases List.mem_append.mp hf with hf | hf
    · exact h.used f hf
    · rw [List.mem_singleton.mp hf]
      exact he
  · rw [List.length_append, List.length_singleton] at hfull ⊢
    exact hend hfull

/-- The name of a file to come: a string that fits into an entry and does not look like a mark. -/
structure Nameable (filename : CString) : Prop where
  pos : filename.bytes ≠ []
  short : filename.bytes.length ≤ 31
  unmarked : filename.bytes.head? ≠ some 1

instance (filename : CString) : Decidable (Nameable filename) :=
  decidable_of_iff (filename.bytes ≠ [] ∧ filename.bytes.length ≤ 31 ∧ filename.bytes.head? ≠ some 1)
    ⟨fun h => ⟨h.1, h.2.1, h.2.2⟩, fun h => ⟨h.pos, h.short, h.unmarked⟩⟩

theorem firstByte_ne_zero (hpos : filename.bytes ≠ []) {start blocks size : Nat} :
    (BMFSEntry.mk filename.bytes start blocks size).firstByte ≠ 0 := by
  have hnul := filename.noNul
  rw [BMFSEntry.firstByte]
  cases hbytes : filename.bytes with
  | nil => exact absurd hbytes hpos
  | cons c cs =>
      rw [hbytes] at hnul
      exact fun hc => hnul (hc ▸ List.mem_cons_self)

theorem Nameable.live (h : Nameable filename) {start blocks size : Nat} :
    (BMFSEntry.mk filename.bytes start blocks size).Live := by
  have hmark := h.unmarked
  rw [BMFSEntry.Live, BMFSEntry.firstByte]
  cases hbytes : filename.bytes with
  | nil => exact absurd hbytes h.pos
  | cons c cs =>
      rw [hbytes] at hmark
      exact fun hc => hmark (congrArg some hc)

theorem strcpy_outside {a b : Nat} (h : b < a ∨ a + filename.bytes.length < b) :
    strcpy directory a filename b = directory b :=
  blit_outside (by omega)

theorem stringAt_strcpy (a : Nat) : StringAt (strcpy directory a filename) a filename.bytes := by
  refine ⟨fun i hi => ?_, ?_⟩
  · rw [strcpy, blit_inside (by omega), Nat.add_sub_cancel_left]
    exact List.getD_eq_getElem _ _ hi
  · rw [strcpy, blit_inside (by omega), Nat.add_sub_cancel_left]
    exact List.getD_eq_default _ _ (Nat.le_refl _)

theorem load_store_apart {mem : Nat → UInt8} {a b v n m : Nat} (h : a + n ≤ b ∨ b + m ≤ a) :
    load (store mem b v m) a n = load mem a n :=
  load_congr fun i hi => store_outside (by omega)

/-- `addEntry` writes the entry of a new file. -/
theorem rewrites_addEntry (hname : filename.bytes.length ≤ 31) {start blocks : Nat}
    (hstart : start < 2 ^ 64) (hblocks : blocks < 2 ^ 64) :
    Rewrites directory (addEntry directory slot start blocks filename) slot
      ⟨filename.bytes, start, blocks, 0⟩ := by
  have field : ∀ (mem : Nat → UInt8) at', 32 ≤ at' →
      load (strcpy mem (64 * slot) filename) (64 * slot + at') 8 =
        load mem (64 * slot + at') 8 := fun mem at' hat =>
    load_congr fun i hi => strcpy_outside (by omega)
  refine ⟨?_, fun j hj => entryAt_congr fun i hi => ?_⟩
  · have hread : readString (addEntry directory slot start blocks filename) (64 * slot) 64 =
        filename.bytes := (stringAt_strcpy _).readString_eq filename.noNul (by omega)
    rw [entryAt, hread, addEntry]
    simp only [field _ _ (Nat.le_refl 32), field _ 40 (by decide), field _ 48 (by decide)]
    rw [load_store_apart (by omega), load_store_apart (by omega), load_store hstart,
      load_store_apart (by omega), load_store hblocks, load_store (by decide)]
  · have hout : 64 * j + i < 64 * slot ∨ 64 * slot + 64 ≤ 64 * j + i := by omega
    rw [addEntry, strcpy_outside (by omega), store_outside (by omega), store_outside (by omega),
      store_outside (by omega)]

theorem markEntry_here (mark : UInt8) : markEntry directory slot mark (64 * slot) = mark :=
  blit_inside (by omega)

theorem markEntry_outside {mark : UInt8} {a : Nat} (h : a ≠ 64 * slot) :
    markEntry directory slot mark a = directory a :=
  blit_outside (by omega)

/-- A mark takes the place of the first character of a name. -/
theorem rewrites_markEntry {mark : UInt8} (hmark : mark ≠ 0) (he : entryAt directory slot = e)
    (hused : e.firstByte ≠ 0) :
    Rewrites directory (markEntry directory slot mark) slot
      { e with fileName := mark :: e.fileName.tail } := by
  subst he
  have field : ∀ at', 0 < at' → at' + 8 ≤ 64 →
      load (markEntry directory slot mark) (64 * slot + at') 8 =
        load directory (64 * slot + at') 8 := fun at' hat hle =>
    load_congr fun i hi => markEntry_outside (by omega)
  refine ⟨?_, fun j hj => entryAt_congr fun i hi => markEntry_outside (by omega)⟩
  rw [entryAt, field 32 (by decide) (by decide), field 40 (by decide) (by decide),
    field 48 (by decide) (by decide)]
  have hfirst : directory (64 * slot) ≠ 0 := by
    intro hzero
    refine hused ?_
    rw [BMFSEntry.firstByte, entryAt, readString, if_pos hzero]
    rfl
  have hold : readString directory (64 * slot) 64 =
      directory (64 * slot) :: readString directory (64 * slot + 1) 63 := by
    rw [readString, if_neg hfirst]
  have hnew : readString (markEntry directory slot mark) (64 * slot) 64 =
      mark :: readString directory (64 * slot + 1) 63 := by
    rw [readString, markEntry_here, if_neg hmark,
      readString_congr fun i hi => markEntry_outside (by omega)]
  rw [hnew, entryAt, hold, List.tail_cons]

/-- The mark 0 ends the directory. -/
theorem entryAt_markEntry_zero : (entryAt (markEntry directory slot 0) slot).firstByte = 0 := by
  rw [BMFSEntry.firstByte, entryAt, readString, if_pos (markEntry_here 0)]
  rfl

theorem entryAt_markEntry {mark : UInt8} (h : i ≠ slot) :
    entryAt (markEntry directory slot mark) i = entryAt directory i :=
  entryAt_congr fun j hj => markEntry_outside (by omega)

/-- The size of a file is written. -/
theorem rewrites_size (he : entryAt directory slot = e) (hname : e.fileName.length ≤ 31) {size : Nat}
    (hsize : size < 2 ^ 64) :
    Rewrites directory (store directory (64 * slot + 48) size 8) slot { e with fileSize := size } := by
  subst he
  refine ⟨?_, fun j hj => entryAt_congr fun i hi => store_outside (by omega)⟩
  rw [entryAt, load_store_apart (by omega), load_store_apart (by omega), load_store hsize,
    readString_congr_length fun i hi => store_outside (Or.inl ?_)]
  · rfl
  · have hle : i ≤ 31 := Nat.le_trans hi hname
    omega

end Bmfs

end TPE
