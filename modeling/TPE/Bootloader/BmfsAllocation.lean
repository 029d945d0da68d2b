import Mathlib.Data.List.Sort
import TPE.Bootloader.BmfsDirectory

/-!
# Where a new file is put

`create` goes over the gaps between the files in the order of their blocks, which is first fit.
When no gap is large enough it goes on with the unused entries, and then takes the end of one of
them for the end of the last file.  So it may put the new file on top of others.
-/

namespace TPE

open Extent

namespace Bmfs

variable {es files unused : List BMFSEntry} {e f : BMFSEntry} {hi n numBlocks prev a : Nat}

/-! ## Sorting -/

/-- `qsort` with `StartingBlockCmp`: the elements are the same, and none compares less than one in
front of it.  First blocks are so small that their difference is an `int`. -/
def Sorts (qsort : List BMFSEntry → List BMFSEntry) : Prop :=
  ∀ es, (∀ e ∈ es, e.startingBlock < 2 ^ 31) →
    (qsort es).Perm es ∧ (qsort es).Pairwise fun ea eb => 0 ≤ startingBlockCmp eb ea

/-- Where `StartingBlockCmp` puts an entry. -/
def BMFSEntry.rank (e : BMFSEntry) : Nat := if e.firstByte = 1 then 2 ^ 31 else e.startingBlock

/-- Sorting by insertion. -/
def insertionQsort (es : List BMFSEntry) : List BMFSEntry :=
  es.insertionSort fun ea eb => ea.rank ≤ eb.rank

theorem startingBlockCmp_live (he : e.Live) (hf : f.Live) (hes : e.startingBlock < 2 ^ 31)
    (hfs : f.startingBlock < 2 ^ 31) :
    startingBlockCmp e f = e.startingBlock - f.startingBlock := by
  rw [startingBlockCmp, if_neg he, if_neg hf]
  exact int32_of_range (by omega) (by omega)

theorem sorts_insertionQsort : Sorts insertionQsort := by
  intro es hsmall
  have hperm : (insertionQsort es).Perm es := List.perm_insertionSort _ es
  have htotal : Std.Total fun ea eb : BMFSEntry => ea.rank ≤ eb.rank :=
    ⟨fun ea eb => Nat.le_total ea.rank eb.rank⟩
  have htrans : IsTrans BMFSEntry fun ea eb => ea.rank ≤ eb.rank :=
    ⟨fun _ _ _ => Nat.le_trans⟩
  refine ⟨hperm, (List.pairwise_insertionSort _ es).imp_of_mem fun {ea eb} ha hb hle => ?_⟩
  have hea := hsmall ea (hperm.mem_iff.mp ha)
  have heb := hsmall eb (hperm.mem_iff.mp hb)
  rw [BMFSEntry.rank, BMFSEntry.rank] at hle
  by_cases hdead : eb.firstByte = 1
  · rw [startingBlockCmp, if_pos hdead]
    decide
  · rw [if_neg hdead] at hle
    split at hle
    next => omega
    next hlive =>
      rw [startingBlockCmp_live hdead hlive heb hea]
      omega

/-- The files come first, in the order of their blocks. -/
theorem sorted_split (hsmall : ∀ e ∈ es, e.startingBlock < 2 ^ 31)
    (hsorted : es.Pairwise fun ea eb => 0 ≤ startingBlockCmp eb ea) :
    ∃ files unused, es = files ++ unused ∧ (∀ e ∈ files, e.Live) ∧ (∀ e ∈ unused, ¬e.Live) ∧
      files.Pairwise fun e f => e.startingBlock ≤ f.startingBlock := by
  induction es with
  | nil => exact ⟨[], [], rfl, by simp, by simp, List.Pairwise.nil⟩
  | cons e es ih =>
      obtain ⟨hfirst, hsorted⟩ := List.pairwise_cons.mp hsorted
      have hrest := fun f hf => hsmall f (List.mem_cons_of_mem _ hf)
      by_cases he : e.Live
      · obtain ⟨files, unused, rfl, hfiles, hunused, hasc⟩ := ih hrest hsorted
        refine ⟨e :: files, unused, rfl, List.forall_mem_cons.mpr ⟨he, hfiles⟩, hunused,
          List.pairwise_cons.mpr ⟨fun f hf => ?_, hasc⟩⟩
        have hmem := List.mem_append_left unused hf
        have hcmp := hfirst f hmem
        rw [startingBlockCmp_live (hfiles f hf) he (hrest f hmem)
          (hsmall e List.mem_cons_self)] at hcmp
        omega
      · -- behind an unused entry there is no file
        refine ⟨[], e :: es, rfl, by simp, List.forall_mem_cons.mpr ⟨he, fun f hf hlive => ?_⟩,
          List.Pairwise.nil⟩
        have hcmp := hfirst f hf
        rw [startingBlockCmp, if_neg hlive, if_pos (not_not.mp he)] at hcmp
        omega

/-! ## The loop over the gaps -/

theorem sub64_eq {a b : Nat} (hle : b ≤ a) (ha : a < 2 ^ 64) : sub64 a b = a - b := by
  rw [sub64]
  omega

/-- The first end of an unused entry behind which there is room up to `hi`. -/
def unusedEnd (hi n : Nat) (unused : List BMFSEntry) : Option Nat :=
  (unused.map (·.extent.stop)).find? fun p => n ≤ hi - p

/-- Behind the files. -/
theorem findArea_unused (hnb : 1 ≤ numBlocks) (hnb' : numBlocks < 2 ^ 31)
    (hprev : prev ≤ numBlocks - 1) (hunused : ∀ e ∈ unused, ¬e.Live)
    (hstop : ∀ e ∈ unused, e.extent.stop ≤ numBlocks - 1) :
    findArea n numBlocks prev unused =
      if n ≤ numBlocks - 1 - prev then prev
      else (unusedEnd (numBlocks - 1) n unused).getD 0 := by
  have hlast : sub64 numBlocks 1 = numBlocks - 1 := sub64_eq hnb (by omega)
  induction unused generalizing prev with
  | nil => rw [findArea, hlast, sub64_eq hprev (by omega)]; rfl
  | cons e unused ih =>
      have hend := hstop e List.mem_cons_self
      have hsum : (e.startingBlock + e.reservedBlocks) % 2 ^ 64 = e.extent.stop :=
        Nat.mod_eq_of_lt (by rw [e.extent_stop] at hend; omega)
      have ih := ih hend (fun f hf => hunused f (List.mem_cons_of_mem _ hf))
        fun f hf => hstop f (List.mem_cons_of_mem _ hf)
      rw [findArea, if_pos (not_not.mp (hunused e List.mem_cons_self)), hlast,
        sub64_eq hprev (by omega), hsum, ih, unusedEnd, unusedEnd, List.map_cons, List.find?_cons]
      split
      next => rfl
      next =>
        by_cases hroom : n ≤ numBlocks - 1 - e.extent.stop
        · rw [if_pos hroom, decide_eq_true hroom]
          rfl
        · rw [if_neg hroom, decide_eq_false hroom]

/-- Over the files it is first fit. -/
theorem findArea_files (hnb : 1 ≤ numBlocks) (hnb' : numBlocks < 2 ^ 31)
    (hlaid : Laid (numBlocks - 1) prev (files.map (·.extent))) (hfiles : ∀ e ∈ files, e.Live)
    (hunused : ∀ e ∈ unused, ¬e.Live) (hstop : ∀ e ∈ unused, e.extent.stop ≤ numBlocks - 1) :
    findArea n numBlocks prev (files ++ unused) =
      (firstFit (numBlocks - 1) n prev (files.map (·.extent)) <|>
        unusedEnd (numBlocks - 1) n unused).getD 0 := by
  induction files generalizing prev with
  | nil =>
      rw [List.nil_append, findArea_unused hnb hnb' hlaid.start_le hunused hstop, List.map_nil,
        firstFit]
      split
      next => rfl
      next => rfl
  | cons e files ih =>
      have hle := hlaid.2.start_le
      have hstart : prev ≤ e.startingBlock := hlaid.1
      have hstops : e.startingBlock + e.reservedBlocks ≤ numBlocks - 1 := hle
      have hsum : (e.startingBlock + e.reservedBlocks) % 2 ^ 64 = e.extent.stop :=
        Nat.mod_eq_of_lt (by omega)
      rw [List.cons_append, findArea, if_neg (hfiles e List.mem_cons_self),
        sub64_eq hstart (by omega), hsum, ih hlaid.2 fun f hf => hfiles f (List.mem_cons_of_mem _ hf),
        List.map_cons, firstFit, e.extent_start]
      split
      next => rfl
      next => rfl

/-! ## The place of a new file -/

/-- No two files share a block. -/
def FilesApart (es : List BMFSEntry) : Prop :=
  ∀ (i j : Nat) (e f : BMFSEntry), es[i]? = some e → es[j]? = some f → e.Live → f.Live → i ≠ j →
    e.extent.Apart f.extent

/-- The blocks of the entries are those of the disk between the first and the last one. -/
def Placed (numBlocks : Nat) (es : List BMFSEntry) : Prop :=
  ∀ e ∈ es, e.extent.Within 1 (numBlocks - 1) ∧ 0 < e.reservedBlocks

/-- The `n` blocks from `b` on belong to no file. -/
def Free (numBlocks : Nat) (es : List BMFSEntry) (n b : Nat) : Prop :=
  Within 1 (numBlocks - 1) ⟨b, n⟩ ∧ ∀ e ∈ es, e.Live → Apart ⟨b, n⟩ e.extent

instance (numBlocks : Nat) (es : List BMFSEntry) (n b : Nat) :
    Decidable (Free numBlocks es n b) :=
  inferInstanceAs (Decidable ((_ ≤ _ ∧ _ ≤ _) ∧ ∀ e ∈ es, e.Live → Apart ⟨b, n⟩ e.extent))

/-- There are `n` free blocks in a row. -/
def HasRoom (numBlocks : Nat) (es : List BMFSEntry) (n : Nat) : Prop := ∃ b, Free numBlocks es n b

/-- Behind no unused entry there is room for `n` blocks. -/
def NoneBehind (numBlocks : Nat) (es : List BMFSEntry) (n : Nat) : Prop :=
  ∀ e ∈ es, ¬e.Live → numBlocks - 1 < e.extent.stop + n

section Split

variable (hperm : (files ++ unused).Perm es) (hfiles : ∀ e ∈ files, e.Live)
include hperm hfiles

/-- Files in order that share no block are laid out. -/
theorem laid_files (hnb : 2 ≤ numBlocks)
    (hasc : files.Pairwise fun e f => e.startingBlock ≤ f.startingBlock)
    (hplaced : Placed numBlocks es) (hapart : FilesApart es) :
    Laid (numBlocks - 1) 1 (files.map (·.extent)) := by
  have hmem : ∀ e ∈ files, e ∈ es := fun e he =>
    hperm.mem_iff.mp (List.mem_append_left unused he)
  have hpairs : es.Pairwise fun e f => e.Live → f.Live → e.extent.Apart f.extent :=
    List.pairwise_iff_getElem.mpr fun i j hi hj hlt he hf =>
      hapart i j _ _ (List.getElem?_eq_getElem hi) (List.getElem?_eq_getElem hj) he hf
        (Nat.ne_of_lt hlt)
  have haway : files.Pairwise fun e f => e.extent.Apart f.extent := by
    have hsym : ∀ e f : BMFSEntry, (e.Live → f.Live → e.extent.Apart f.extent) →
        f.Live → e.Live → f.extent.Apart e.extent := fun e f h hf he => (h he hf).symm
    have hall := (hperm.pairwise_iff fun {e f} => hsym e f).mpr hpairs
    exact (List.pairwise_append.mp hall).1.imp_of_mem fun he hf h => h (hfiles _ he) (hfiles _ hf)
  refine laid_of_sorted (by omega) ?_ ?_ (List.pairwise_map.mpr hasc) (List.pairwise_map.mpr haway)
  · exact List.forall_mem_map.mpr fun e he => (hplaced e (hmem e he)).1
  · exact List.forall_mem_map.mpr fun e he => (hplaced e (hmem e he)).2

/-- The free blocks are those between the files. -/
theorem free_iff_files (hunused : ∀ e ∈ unused, ¬e.Live) (b : Nat) : Free numBlocks es n b ↔
    Within 1 (numBlocks - 1) ⟨b, n⟩ ∧ ∀ x ∈ files.map (·.extent), Apart ⟨b, n⟩ x := by
  refine and_congr_right fun _ => ?_
  rw [List.forall_mem_map]
  constructor
  · intro h e he
    exact h e (hperm.mem_iff.mp (List.mem_append_left unused he)) (hfiles e he)
  · intro h e he hl
    have hsplit := List.mem_append.mp (hperm.mem_iff.mpr he)
    exact h e (hsplit.resolve_right fun hu => hunused e hu hl)

end Split

/-- What the loop finds: the first free place, or the end of an unused entry if there is none. -/
theorem findArea_spec {qsort : List BMFSEntry → List BMFSEntry} (hqsort : Sorts qsort)
    (hnb : 2 ≤ numBlocks) (hnb' : numBlocks < 2 ^ 31) (hn : 0 < n) (hplaced : Placed numBlocks es)
    (hapart : FilesApart es) :
    (Free numBlocks es n (findArea n numBlocks 1 (qsort es)) ∧
      ∀ b, Free numBlocks es n b → findArea n numBlocks 1 (qsort es) ≤ b) ∨
    ¬HasRoom numBlocks es n ∧
      ((findArea n numBlocks 1 (qsort es) = 0 ∧ NoneBehind numBlocks es n) ∨
        ∃ e ∈ es, ¬e.Live ∧ findArea n numBlocks 1 (qsort es) = e.extent.stop ∧
          e.extent.stop + n ≤ numBlocks - 1) := by
  have hsmall : ∀ e ∈ es, e.startingBlock < 2 ^ 31 := by
    intro e he
    have hin := (hplaced e he).1.2
    rw [e.extent_stop] at hin
    omega
  obtain ⟨hperm, hsorted⟩ := hqsort es hsmall
  obtain ⟨files, unused, hsplit, hfiles, hunused, hasc⟩ :=
    sorted_split (fun e he => hsmall e (hperm.mem_iff.mp he)) hsorted
  have hmem : ∀ e, e ∈ es ↔ e ∈ files ∨ e ∈ unused := by
    intro e
    rw [← hperm.mem_iff, hsplit, List.mem_append]
  rw [hsplit] at hperm
  have hlaid := laid_files hperm hfiles hnb hasc hplaced hapart
  have hfree : ∀ b, Free numBlocks es n b ↔ _ := free_iff_files hperm hfiles hunused
  have hstop : ∀ e ∈ unused, e.extent.stop ≤ numBlocks - 1 := fun e he =>
    (hplaced e ((hmem e).mpr (Or.inr he))).1.2
  rw [hsplit, findArea_files (by omega) hnb' hlaid hfiles hunused hstop]
  cases hfit : firstFit (numBlocks - 1) n 1 (files.map (·.extent)) with
  | some a =>
      refine Or.inl ⟨(hfree a).mpr (firstFit_free hlaid hn hfit), fun b hb => ?_⟩
      obtain ⟨hin, haway⟩ := (hfree b).mp hb
      obtain ⟨c, hc, hle⟩ := firstFit_first hn hin.1 hin.2 haway
      rw [hfit] at hc
      obtain rfl := Option.some.inj hc
      exact hle
  | none =>
      refine Or.inr ⟨?_, ?_⟩
      · rintro ⟨b, hb⟩
        have hsome := (firstFit_isSome_iff hlaid hn).mpr ⟨b, (hfree b).mp hb⟩
        rw [hfit] at hsome
        cases hsome
      · cases hend : unusedEnd (numBlocks - 1) n unused with
        | none =>
            refine Or.inl ⟨rfl, fun e he hdel => ?_⟩
            have he' : e ∈ unused := ((hmem e).mp he).resolve_left fun hf => hdel (hfiles e hf)
            have hnone := List.find?_eq_none.mp hend _ (List.mem_map_of_mem he')
            have hle := hstop e he'
            simp only [decide_eq_true_eq] at hnone
            omega
        | some p =>
            have hroom := List.find?_some hend
            obtain ⟨e, he, rfl⟩ := List.mem_map.mp (List.mem_of_find?_eq_some hend)
            have hle := hstop e he
            simp only [decide_eq_true_eq] at hroom
            exact Or.inr ⟨e, (hmem e).mpr (Or.inr he), hunused e he, rfl, by omega⟩

/-! ## `create` -/

section Create

variable {qsort : List BMFSEntry → List BMFSEntry} {disk : Disk} {filename : CString}

theorem directory_flush {directory : Nat → UInt8} {i : Nat} (hi : i < 4096) :
    (disk.flush directory).directory i = directory i := by
  rw [Disk.directory, Disk.flush, Disk.bytes_write, RingBuffer.blit_inside (by omega),
    Nat.add_sub_cancel_left]

theorem Lists.flush {directory : Nat → UInt8} (h : Lists directory es) :
    Lists (disk.flush directory).directory es :=
  h.congr fun _ hi => directory_flush hi

/-- What `create` writes when the directory ends in front of its last entry. -/
theorem createNew_ended (qsort : List BMFSEntry → List BMFSEntry) (filename : CString) (n : Nat)
    (hlists : Lists disk.directory es) (hlt : es.length < 64) :
    createNew qsort disk filename n =
      let start := findArea n disk.numBlocks 1 (qsort es)
      let directory := addEntry disk.directory (firstFree es) start n filename
      if start = 0 then (.noArea, disk)
      else (.complete, disk.flush
        (if firstFree es = es.length ∧ es.length + 1 < 64 then markEntry directory (es.length + 1) 0
        else directory)) := by
  obtain ⟨rest, htable, hend⟩ := hlists.split
  cases rest with
  | nil =>
      have hlen := congrArg List.length htable
      rw [length_table, List.append_nil] at hlen
      omega
  | cons r rest =>
      rw [createNew, htable, countEntries_ended 0 none hlists.used (hend r rfl)]
      simp only [Nat.zero_add, List.take_left', Option.getD_none]

/-- The new entry takes the place of an unused one, or is put behind the others. -/
theorem lists_addEntry {directory : Nat → UInt8} (hlists : Lists directory es)
    (hlt : es.length < 64) (hname : Nameable filename) (hn : n < 2 ^ 64) (ha : a < 2 ^ 64) :
    ∃ es', Written es (firstFree es) ⟨filename.bytes, a, n, 0⟩ es' ∧
      Lists (if firstFree es = es.length ∧ es.length + 1 < 64 then
          markEntry (addEntry directory (firstFree es) a n filename) (es.length + 1) 0
        else addEntry directory (firstFree es) a n filename) es' := by
  have hused : (BMFSEntry.mk filename.bytes a n 0).firstByte ≠ 0 := firstByte_ne_zero hname.pos
  have hw : Rewrites directory (addEntry directory (firstFree es) a n filename) (firstFree es)
      ⟨filename.bytes, a, n, 0⟩ := rewrites_addEntry hname.short ha hn
  rcases Nat.lt_or_eq_of_le (firstFree_le es) with hfree | hfree
  · refine ⟨_, written_set hfree _, ?_⟩
    rw [if_neg fun h => Nat.ne_of_lt hfree h.1]
    exact hlists.set hw hfree hused
  · rw [hfree] at hw ⊢
    refine ⟨_, written_snoc es _, hlists.snoc hlt hused ?_ ?_ fun hlast => ?_⟩
    · intro j hj
      split
      next => rw [entryAt_markEntry (by omega), hw.others j (Nat.ne_of_lt hj)]
      next => exact hw.others j (Nat.ne_of_lt hj)
    · split
      next => rw [entryAt_markEntry (by omega), hw.here]
      next => exact hw.here
    · rw [if_pos ⟨rfl, hlast⟩]
      exact entryAt_markEntry_zero

/-- What `create` writes when no entry ends the directory. -/
theorem createNew_full (qsort : List BMFSEntry → List BMFSEntry) (filename : CString) (n : Nat)
    (hlists : Lists disk.directory es) (hfull : es.length = 64)
    (hqsort : qsort [] = []) (hnb : 2 ≤ disk.numBlocks) (hnb' : disk.numBlocks < 2 ^ 31) :
    createNew qsort disk filename n =
      if firstFree es < 64 then
        if n ≤ disk.numBlocks - 2 then
          (.complete, disk.flush
            (if firstFree es = 0 then
              markEntry (addEntry disk.directory (firstFree es) 1 n filename) 1 0
            else addEntry disk.directory (firstFree es) 1 n filename))
        else (.noArea, disk)
      else (.noEntry, disk) := by
  obtain ⟨rest, htable, -⟩ := hlists.split
  obtain rfl : rest = [] := by
    have hlen := congrArg List.length htable
    rw [length_table, List.length_append] at hlen
    exact List.length_eq_zero_iff.mp (by omega)
  rw [createNew, htable, List.append_nil, countEntries_full 0 none hlists.used, hfull]
  by_cases hfree : firstFree es < 64
  · have hlast : sub64 disk.numBlocks 1 = disk.numBlocks - 1 := sub64_eq (by omega) (by omega)
    have hroom : sub64 (disk.numBlocks - 1) 1 = disk.numBlocks - 2 := sub64_eq (by omega) (by omega)
    simp only [if_pos hfree, Option.none_or, List.take_zero, hqsort, findArea, hlast, hroom,
      Nat.zero_add]
    by_cases hn : n ≤ disk.numBlocks - 2
    · simp [hn]
    · simp [hn]
  · simp only [if_neg hfree, Option.none_or]

end Create

end Bmfs

end TPE
