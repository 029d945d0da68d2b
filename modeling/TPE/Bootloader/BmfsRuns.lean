import TPE.Bootloader.BmfsFiles

/-!
# Runs of the file system tool

From a formatted disk on, any commands are carried out one after the other.  What is on the disk is
always what the commands make of the map of files, no file loses a byte to another one, and the
first and the last block stay as they are, up to the tag and the directory.  So the boot loader and
the kernel in the first block stay as they are.
-/

namespace TPE

open Function Extent ByteMemory

namespace Bmfs

variable {qsort : List BMFSEntry → List BMFSEntry} {disk : Disk} {es es' : List BMFSEntry}
  {e f : BMFSEntry} {filename : CString} {n a : Nat}

/-! ## When a new file does no harm -/

/-- `create` puts `n` blocks on free blocks or nowhere, and no file is lost. -/
def Placeable (numBlocks : Nat) (es : List BMFSEntry) (n : Nat) : Prop :=
  if es.length < 64 then HasRoom numBlocks es n ∨ NoneBehind numBlocks es n
  else (∀ e ∈ es, e.Live) ∨ numBlocks - 2 < n ∨
    Free numBlocks es n 1 ∧ (firstFree es = 0 → ∀ e ∈ es, ¬e.Live)

theorem placeable_of_free {numBlocks b : Nat} (hlt : es.length < 64) (hfree : Free numBlocks es n b) :
    Placeable numBlocks es n := by
  rw [Placeable, if_pos hlt]
  exact Or.inl ⟨b, hfree⟩

/-- The names are names, the local files are so short that an `int` counts their bytes, and a new
file does no harm. -/
def Orderly (disk : Disk) : Command → Prop
  | .create filename filesize => Nameable filename ∧
      (1 ≤ filesize.toInt → filesOn disk filename = none →
        Placeable disk.numBlocks (entries disk.directory) (blocksOf filesize.toInt.toNat))
  | .write _ tfile => tfile.length < 2 ^ 31
  | _ => True

/-! ## `format` -/

theorem bytes_format (disk : Disk) (a : Nat) : (format disk).bytes a =
    if 4096 ≤ a ∧ a < 8192 then 0
    else if 1024 ≤ a ∧ a < 1536 then fsTag.getD (a - 1024) 0 else disk.bytes a := rfl

theorem size_format (hsize : 6291456 ≤ disk.size) : (format disk).size = disk.size := by
  have htag := disk.size_write (fun i => fsTag.getD i 0) (a := 1024) (n := 512) (by omega)
  rw [format, Disk.flush, Disk.size_write, htag]
  omega

/-- A formatted disk has no files. -/
theorem sound_format (hge : 6291456 ≤ disk.size) (hlt : disk.size < 2 ^ 52) :
    Sound (format disk) [] := by
  have hsize := size_format hge
  refine ⟨hsize ▸ hge, hsize ▸ hlt, ?_, ?_, ?_, ?_, ?_, ?_⟩
  · have htag : StringAt (format disk).bytes 1024 fsTag := by
      refine ⟨fun i hi => ?_, ?_⟩
      · have hi' : i < 4 := hi
        rw [bytes_format, if_neg (by omega), if_pos (by omega), Nat.add_sub_cancel_left]
        exact List.getD_eq_getElem _ _ hi
      · rw [bytes_format, if_neg (by decide), if_pos (by decide)]
        rfl
    rw [Disk.Tagged, htag.readString_eq (by decide) (by decide)]
  · refine lists_of_entries (Nat.zero_le _) (fun i e he => by simp at he)
      (fun e he => absurd he List.not_mem_nil) fun _ => ?_
    have hzero : (format disk).directory (64 * 0) = 0 := by
      rw [Disk.directory, bytes_format, if_pos (by decide)]
    rw [List.length_nil, BMFSEntry.firstByte, entryAt, readString, if_pos hzero]
    rfl
  · exact fun e he => absurd he List.not_mem_nil
  · exact fun i j e f he => by simp at he
  · exact fun i j e f he => by simp at he
  · exact fun e he => absurd he List.not_mem_nil

theorem filesOn_format (hge : 6291456 ≤ disk.size) (hlt : disk.size < 2 ^ 52) :
    filesOn (format disk) = fun _ => none := by
  funext filename
  exact (sound_format hge hlt).filesOn_eq_none.mpr fun e he => absurd he List.not_mem_nil

theorem Sound.kept_format (h : Sound disk es) : Kept disk (format disk) := by
  obtain ⟨hge, -⟩ := h.numBlocks
  have hlast : 2 * blockSize ≤ (disk.numBlocks - 1) * blockSize :=
    Nat.mul_le_mul_right _ (by omega)
  refine ⟨size_format h.size_ge, fun a ha => ?_⟩
  simp only [Untouched, blockSize] at ha hlast
  rw [bytes_format, if_neg (by omega), if_neg (by omega)]

/-! ## `list` -/

/-- The name of an entry is a string. -/
theorem Lists.name {directory : Nat → UInt8} (h : Lists directory es) (he : e ∈ es) :
    ∃ filename : CString, e.fileName = filename.bytes := by
  obtain ⟨i, hi⟩ := List.mem_iff_getElem?.mp he
  obtain rfl := h.entry hi
  exact ⟨⟨_, zero_notMem_readString _ _ _⟩, rfl⟩

theorem Sound.answers_list (h : Sound disk es) :
    Answers (filesOn disk) .list (.listing (listFrom (table disk.directory))) := by
  obtain ⟨rest, htable, hend⟩ := h.lists.split
  refine ⟨_, rfl, ?_, fun line => ?_⟩
  · rw [htable, listFrom_append h.lists.used hend, List.map_map]
    refine List.pairwise_map.mpr (List.pairwise_filter.mpr (List.pairwise_iff_getElem.mpr ?_))
    intro i j hi hj hlt he hf hname
    exact Nat.ne_of_lt hlt (h.names i j _ _ (List.getElem?_eq_getElem hi)
      (List.getElem?_eq_getElem hj) (of_decide_eq_true he) (of_decide_eq_true hf) hname)
  · rw [htable, listFrom_append h.lists.used hend, List.mem_map]
    have hlength : ∀ e : BMFSEntry, (disk.contents e).length = e.fileSize := fun e => by
      rw [Disk.contents, List.length_map, List.length_range]
    have hmib : ∀ e ∈ es, e.reservedBlocks * 2 % 2 ^ 64 = e.reservedBlocks * 2 := by
      intro e he
      have hstop := (h.placed e he).1.2
      have hnb := h.numBlocks.2.1
      rw [e.extent_stop] at hstop
      exact Nat.mod_eq_of_lt (by omega)
    constructor
    · rintro ⟨e, he, rfl⟩
      obtain ⟨he, hlive⟩ := List.mem_filter.mp he
      obtain ⟨filename, hname⟩ := h.lists.name he
      refine ⟨filename, _, h.filesOn_eq_some.mpr ⟨e, he, of_decide_eq_true hlive, hname, rfl⟩, ?_⟩
      rw [hlength, hmib e he, hname]
    · rintro ⟨filename, file, hfile, rfl⟩
      obtain ⟨e, he, hlive, hname, rfl⟩ := h.filesOn_eq_some.mp hfile
      refine ⟨e, List.mem_filter.mpr ⟨he, decide_eq_true hlive⟩, ?_⟩
      rw [hlength, hmib e he, hname]

/-! ## `create` -/

theorem blocksOf_pos (hn : 1 ≤ n) : 0 < blocksOf n := by
  rw [blocksOf]
  split
  · omega
  · omega

theorem blocksOf_lt (filesize : Int32) : blocksOf filesize.toInt.toNat < 2 ^ 31 := by
  have hlt := filesize.toInt_lt
  rw [blocksOf]
  split
  · omega
  · omega

/-- The file that `create` makes. -/
structure Created (disk disk' : Disk) (filename : CString) (n : Nat) : Prop where
  sound : ∃ es', Sound disk' es'
  kept : Kept disk disk'
  files : filesOn disk' = update (filesOn disk) filename (some ⟨n, []⟩)

/-- A directory that ends in front of its last entry: the new file gets the first free place, or if
there is none the end of an unused entry. -/
theorem Sound.createNew_ended (hqsort : Sorts qsort) (h : Sound disk es) (hname : Nameable filename)
    (hn : 0 < n) (hn' : n < 2 ^ 64) (hlt : es.length < 64) :
    (createNew qsort disk filename n = (.noArea, disk) ∧ ¬HasRoom disk.numBlocks es n ∧
      NoneBehind disk.numBlocks es n) ∨
    ∃ directory es' start, createNew qsort disk filename n = (.complete, disk.flush directory) ∧
      Written es (firstFree es) ⟨filename.bytes, start, n, 0⟩ es' ∧ Lists directory es' ∧
      ((Free disk.numBlocks es n start ∧ ∀ b, Free disk.numBlocks es n b → start ≤ b) ∨
        ¬HasRoom disk.numBlocks es n ∧ ¬NoneBehind disk.numBlocks es n ∧
          Within 1 (disk.numBlocks - 1) ⟨start, n⟩) := by
  obtain ⟨hge, hnb, -⟩ := h.numBlocks
  have hcreate := Bmfs.createNew_ended qsort filename n h.lists hlt
  have hspec := findArea_spec hqsort (by omega) hnb hn h.placed h.apart
  generalize findArea n disk.numBlocks 1 (qsort es) = start at hspec hcreate
  have complete : 1 ≤ start → start < 2 ^ 64 → ∃ directory es',
      createNew qsort disk filename n = (.complete, disk.flush directory) ∧
      Written es (firstFree es) ⟨filename.bytes, start, n, 0⟩ es' ∧ Lists directory es' := by
    intro hstart hsmall
    obtain ⟨es', hw, hlists⟩ := lists_addEntry h.lists hlt hname hn' hsmall
    simp only [if_neg (Nat.ne_of_gt hstart)] at hcreate
    exact ⟨_, es', hcreate, hw, hlists⟩
  rcases hspec with ⟨hfree, hfirst⟩ | ⟨hroom, ⟨hzero, hnone⟩ | ⟨e, he, hdead, hstop, hbehind⟩⟩
  · -- a gap that is large enough
    obtain ⟨hlow, hhigh⟩ := hfree.1
    have hsum : start + n ≤ disk.numBlocks - 1 := hhigh
    obtain ⟨directory, es', hcreate, hw, hlists⟩ := complete hlow (by omega)
    exact Or.inr ⟨directory, es', start, hcreate, hw, hlists, Or.inl ⟨hfree, hfirst⟩⟩
  · simp only [hzero, if_true] at hcreate
    exact Or.inl ⟨hcreate, hroom, hnone⟩
  · -- the end of an unused entry is taken for the end of the files
    subst hstop
    have hpos : 1 ≤ e.extent.stop := Nat.le_trans (h.placed e he).1.1 (Nat.le_add_right _ _)
    obtain ⟨directory, es', hcreate, hw, hlists⟩ := complete hpos (by omega)
    refine Or.inr ⟨directory, es', _, hcreate, hw, hlists,
      Or.inr ⟨hroom, fun hnone => ?_, hpos, hbehind⟩⟩
    exact absurd hbehind (Nat.not_le.mpr (hnone e he hdead))

/-- A directory that no entry ends, and in which an entry is unused. -/
theorem Sound.createNew_full (hqsort : Sorts qsort) (h : Sound disk es) (hname : Nameable filename)
    (hn : n < 2 ^ 64) (hfull : es.length = 64) :
    (createNew qsort disk filename n = (.noEntry, disk) ∧ ∀ e ∈ es, e.Live) ∨
    (createNew qsort disk filename n = (.noArea, disk) ∧ disk.numBlocks - 2 < n) ∨
    n ≤ disk.numBlocks - 2 ∧ firstFree es < 64 ∧
      ∃ directory es', createNew qsort disk filename n = (.complete, disk.flush directory) ∧
        Lists directory es' ∧
        if firstFree es = 0 then es' = [⟨filename.bytes, 1, n, 0⟩]
        else Written es (firstFree es) ⟨filename.bytes, 1, n, 0⟩ es' := by
  obtain ⟨hge, hnb, -⟩ := h.numBlocks
  have hnil : qsort [] = [] := List.perm_nil.mp (hqsort [] (by simp)).1
  have hcreate := Bmfs.createNew_full qsort filename n h.lists hfull
    hnil (by omega) hnb
  have hused : (BMFSEntry.mk filename.bytes 1 n 0).firstByte ≠ 0 := firstByte_ne_zero hname.pos
  have hw : Rewrites disk.directory (addEntry disk.directory (firstFree es) 1 n filename)
      (firstFree es) ⟨filename.bytes, 1, n, 0⟩ := rewrites_addEntry hname.short (by decide) hn
  by_cases hfree : firstFree es < 64
  · rw [if_pos hfree] at hcreate
    by_cases hroom : n ≤ disk.numBlocks - 2
    · rw [if_pos hroom] at hcreate
      refine Or.inr (Or.inr ⟨hroom, hfree, ?_⟩)
      by_cases hzero : firstFree es = 0
      · rw [if_pos hzero] at hcreate
        rw [hzero] at hw hcreate
        have hlists : Lists (markEntry (addEntry disk.directory 0 1 n filename) 1 0)
            [⟨filename.bytes, 1, n, 0⟩] := by
          refine lists_of_entries (by simp) (fun i e he => ?_)
            (fun e he => List.mem_singleton.mp he ▸ hused) fun _ => entryAt_markEntry_zero
          rw [List.getElem?_singleton] at he
          split at he
          next hi => rw [hi, entryAt_markEntry (by decide), hw.here, Option.some.inj he]
          next => cases he
        exact ⟨_, _, hcreate, hlists, (if_pos hzero).symm ▸ rfl⟩
      · rw [if_neg hzero] at hcreate
        refine ⟨_, _, hcreate, h.lists.set hw (hfull ▸ hfree) hused, ?_⟩
        rw [if_neg hzero]
        exact written_set (hfull ▸ hfree) _
    · rw [if_neg hroom] at hcreate
      exact Or.inr (Or.inl ⟨hcreate, Nat.not_le.mp hroom⟩)
  · rw [if_neg hfree] at hcreate
    refine Or.inl ⟨hcreate, fun e he => ?_⟩
    have hall := List.findIdx_eq_length.mp
      (Nat.le_antisymm (firstFree_le es) (hfull ▸ Nat.not_lt.mp hfree))
    exact not_not.mp (of_decide_eq_false (hall e he))

/-- A new file that is the only one. -/
theorem Sound.create_only (h : Sound disk es) (hname : Nameable filename)
    (hdead : ∀ e ∈ es, ¬e.Live) {directory : Nat → UInt8}
    (hlists : Lists directory [⟨filename.bytes, 1, n, 0⟩]) (hn : 0 < n)
    (hroom : n ≤ disk.numBlocks - 2) : Created disk (disk.flush directory) filename n := by
  obtain ⟨hge, -⟩ := h.numBlocks
  have hkept := h.kept_flush directory
  have hnb : (disk.flush directory).numBlocks = disk.numBlocks := by
    rw [Disk.numBlocks, hkept.size_eq, Disk.numBlocks]
  have hsame : ∀ (i j : Nat) (e f : BMFSEntry), [(⟨filename.bytes, 1, n, 0⟩ : BMFSEntry)][i]? = some e →
      [(⟨filename.bytes, 1, n, 0⟩ : BMFSEntry)][j]? = some f → i = j := by
    intro i j e f hi hj
    have hi := (List.getElem?_eq_some_iff.mp hi).1
    have hj := (List.getElem?_eq_some_iff.mp hj).1
    simp only [List.length_singleton] at hi hj
    omega
  have hs : Sound (disk.flush directory) [⟨filename.bytes, 1, n, 0⟩] := by
    refine ⟨hkept.size_eq ▸ h.size_ge, hkept.size_eq ▸ h.size_lt,
      tagged_congr h.tagged fun _ ha => bytes_flush (Or.inl ha), hlists.flush, ?_,
      fun i j e f hi hj _ _ hne => absurd (hsame i j e f hi hj) hne,
      fun i j e f hi hj _ _ _ => hsame i j e f hi hj, ?_⟩
    · rw [Placed, hnb, List.forall_mem_singleton]
      refine ⟨⟨Nat.le_refl 1, ?_⟩, hn⟩
      change 1 + n ≤ disk.numBlocks - 1
      omega
    · rw [List.forall_mem_singleton]
      exact ⟨hname.short, Nat.zero_le _⟩
  refine ⟨⟨_, hs⟩, hkept, funext fun other => ?_⟩
  by_cases hother : other = filename
  · subst hother
    rw [update_self]
    exact hs.filesOn_eq_some.mpr ⟨_, List.mem_singleton_self _, hname.live, rfl, rfl⟩
  · rw [update_of_ne hother, h.filesOn_eq_none.mpr fun e he hl => absurd hl (hdead e he),
      hs.filesOn_eq_none, List.forall_mem_singleton]
    exact fun _ hbytes => hother (cstring_ext hbytes.symm)

/-- A new file that does no harm. -/
theorem Sound.createNew (hqsort : Sorts qsort) (h : Sound disk es) (hname : Nameable filename)
    (hfresh : filesOn disk filename = none) (hn : 0 < n) (hn' : n < 2 ^ 64)
    (hplace : Placeable disk.numBlocks es n) :
    (∃ disk', Bmfs.createNew qsort disk filename n = (.complete, disk') ∧
      Created disk disk' filename n) ∨
    Bmfs.createNew qsort disk filename n = (.noEntry, disk) ∨
    Bmfs.createNew qsort disk filename n = (.noArea, disk) := by
  rw [Placeable] at hplace
  split at hplace
  next hlt =>
    rcases h.createNew_ended hqsort hname hn hn' hlt with ⟨hcreate, -⟩ |
      ⟨directory, es', start, hcreate, hw, hlists, ⟨hfree, -⟩ | ⟨hroom, hbehind, -⟩⟩
    · exact Or.inr (Or.inr hcreate)
    · obtain ⟨hs, hfiles⟩ := h.create hname hfresh hw hlists (fun f => not_live_firstFree) hn hfree
      exact Or.inl ⟨_, hcreate, ⟨es', hs⟩, h.kept_flush _, hfiles⟩
    · exact absurd hplace (not_or.mpr ⟨hroom, hbehind⟩)
  next hfull =>
    have hfull : es.length = 64 := Nat.le_antisymm h.lists.length_le (Nat.not_lt.mp hfull)
    rcases h.createNew_full hqsort hname hn' hfull with
      ⟨hcreate, -⟩ | ⟨hcreate, -⟩ | ⟨hfits, hfree, directory, es', hcreate, hlists, hw⟩
    · exact Or.inr (Or.inl hcreate)
    · exact Or.inr (Or.inr hcreate)
    · obtain ⟨e, he⟩ : ∃ e, es[firstFree es]? = some e :=
        ⟨_, List.getElem?_eq_getElem (hfull ▸ hfree)⟩
      have hdead := not_live_firstFree he
      rcases hplace with hlive | hlarge | ⟨hfree1, hzero⟩
      · exact absurd (hlive e (List.mem_of_getElem? he)) hdead
      · omega
      · refine Or.inl ⟨_, hcreate, ?_⟩
        split at hw
        next hfirst =>
          -- no file was there, and only the new one is
          subst hw
          exact h.create_only hname (hzero hfirst) hlists hn hfits
        next hfirst =>
          obtain ⟨hs, hfiles⟩ :=
            h.create hname hfresh hw hlists (fun f => not_live_firstFree) hn hfree1
          exact ⟨⟨es', hs⟩, h.kept_flush _, hfiles⟩

/-! ## All commands -/

/-- What a command should come to: the invariant and the bytes outside are kept, the files are what
the command makes of them, and the reply is one that they allow. -/
structure Serves (disk : Disk) (command : Command) (outcome : Reply × Disk) : Prop where
  sound : ∃ es, Sound outcome.2 es
  kept : Kept disk outcome.2
  files : filesOn outcome.2 = after (filesOn disk) command outcome.1
  answers : Answers (filesOn disk) command outcome.1

/-- A command that leaves the disk as it is. -/
theorem Sound.unchanged (h : Sound disk es) {command : Command} {reply : Reply}
    (hafter : after (filesOn disk) command reply = filesOn disk)
    (hreply : Answers (filesOn disk) command reply) : Serves disk command (reply, disk) :=
  ⟨⟨es, h⟩, .refl disk, hafter.symm, hreply⟩

theorem filesOn_of_findfile {slot : Nat}
    (hfind : findfile filename disk.directory = some (slot, e)) :
    filesOn disk filename = some ⟨e.reservedBlocks, disk.contents e⟩ := by
  rw [filesOn, hfind, Option.map_some]

theorem filesOn_of_notFound (hfind : findfile filename disk.directory = none) :
    filesOn disk filename = none := by
  rw [filesOn, hfind, Option.map_none]

theorem Sound.serves_create (hqsort : Sorts qsort) (h : Sound disk es) {filesize : Int32}
    (ho : Orderly disk (.create filename filesize)) (hsize : 1 ≤ filesize.toInt) :
    Serves disk (.create filename filesize)
      (Bmfs.create qsort disk filename filesize.toInt.toNat) := by
  obtain ⟨hname, hplace⟩ := ho
  rw [Bmfs.create]
  cases hfind : findfile filename disk.directory with
  | some found =>
      refine h.unchanged rfl ?_
      rw [Answers, if_pos hsize, filesOn_of_findfile hfind]
      rfl
  | none =>
      have hfresh := filesOn_of_notFound hfind
      have hplace := hplace hsize hfresh
      rw [h.lists.entries_eq] at hplace
      have answers : ∀ reply, reply = .complete ∨ reply = .noEntry ∨ reply = .noArea →
          Answers (filesOn disk) (.create filename filesize) reply := by
        intro reply hreply
        rw [Answers, if_pos hsize, hfresh]
        exact hreply
      have hlt := blocksOf_lt filesize
      rcases h.createNew hqsort hname hfresh (blocksOf_pos (by omega)) (by omega) hplace with
        ⟨disk', hcreate, hmade⟩ | hcreate | hcreate
      · simp only [hcreate]
        exact ⟨hmade.sound, hmade.kept, hmade.files, answers _ (Or.inl rfl)⟩
      · simp only [hcreate]
        exact h.unchanged rfl (answers _ (Or.inr (Or.inl rfl)))
      · simp only [hcreate]
        exact h.unchanged rfl (answers _ (Or.inr (Or.inr rfl)))

theorem Sound.serves_read (h : Sound disk es) (filename : CString) :
    Serves disk (.read filename) (Bmfs.read disk filename, disk) := by
  refine h.unchanged rfl ?_
  rw [Answers, Bmfs.read, filesOn]
  cases findfile filename disk.directory with
  | none => rfl
  | some found => rfl

theorem Sound.serves_write (h : Sound disk es) (filename : CString) (tfile : List UInt8) :
    Serves disk (.write filename tfile) (Bmfs.write disk filename tfile) := by
  rw [Bmfs.write]
  cases hfind : findfile filename disk.directory with
  | none =>
      refine h.unchanged rfl ?_
      rw [Answers, filesOn_of_notFound hfind]
  | some found =>
      obtain ⟨slot, e⟩ := found
      have hfile := filesOn_of_findfile hfind
      have he := List.mem_of_getElem? (h.lists.findfile_some hfind).1
      obtain ⟨-, -, hhigh⟩ := h.offset he
      obtain ⟨-, -, hdisk⟩ := h.numBlocks
      have hlast : (disk.numBlocks - 1) * blockSize ≤ disk.numBlocks * blockSize :=
        Nat.mul_le_mul_right _ (Nat.sub_le _ _)
      have hsize := h.size_lt
      have hmod : e.reservedBlocks * blockSize % 2 ^ 64 = e.reservedBlocks * blockSize :=
        Nat.mod_eq_of_lt (by omega)
      simp only [hmod]
      split
      next hlong =>
        refine h.unchanged rfl ?_
        rw [Answers, hfile]
        exact (if_pos hlong).symm
      next hshort =>
        obtain ⟨hs, hkept, hfiles⟩ := h.putFile hfind (Nat.not_lt.mp hshort)
        refine ⟨hs, hkept, ?_, ?_⟩
        · rw [after, hfile]
          exact hfiles
        · rw [Answers, hfile]
          exact (if_neg hshort).symm

theorem Sound.serves_delete (h : Sound disk es) (filename : CString) :
    Serves disk (.delete filename) (Bmfs.delete disk filename) := by
  rw [Bmfs.delete]
  cases hfind : findfile filename disk.directory with
  | none =>
      refine h.unchanged rfl ?_
      rw [Answers, filesOn_of_notFound hfind]
      rfl
  | some found =>
      obtain ⟨slot, e⟩ := found
      obtain ⟨es', hs, hfiles⟩ := h.delete hfind
      refine ⟨⟨es', hs⟩, h.kept_flush _, hfiles, ?_⟩
      rw [Answers, filesOn_of_findfile hfind]
      rfl

/-- A step keeps the invariant and does to the files what the command says. -/
theorem Sound.step (hqsort : Sorts qsort) (h : Sound disk es) {command : Command}
    (ho : Orderly disk command) : Serves disk command (main qsort disk command) := by
  rw [main.eq_def, if_pos h.tagged]
  cases command with
  | list => exact h.unchanged rfl h.answers_list
  | format force =>
      cases force with
      | false => exact h.unchanged rfl rfl
      | true =>
          exact ⟨⟨_, sound_format h.size_ge h.size_lt⟩, h.kept_format,
            filesOn_format h.size_ge h.size_lt, rfl⟩
  | create filename filesize =>
      by_cases hsize : 1 ≤ filesize.toInt
      · simp only [if_pos hsize]
        exact h.serves_create hqsort ho hsize
      · simp only [if_neg hsize]
        refine h.unchanged rfl ?_
        rw [Answers, if_neg hsize]
  | read filename => exact h.serves_read filename
  | write filename tfile => exact h.serves_write filename tfile
  | delete filename => exact h.serves_delete filename

/-! ## Runs -/

/-- The disk as it was formatted, the disk, and the files that the commands should have left. -/
structure FsRun where
  first : Disk
  disk : Disk
  files : Files

/-- The tool on a disk from its format on.  The size of the disk in MiB is an `unsigned int`. -/
def fsSystem (qsort : List BMFSEntry → List BMFSEntry) : System FsRun Command where
  init s := ∃ disk : Disk, 6291456 ≤ disk.size ∧ disk.size < 2 ^ 52 ∧
    s = ⟨format disk, format disk, fun _ => none⟩
  next s command :=
    let outcome := main qsort s.disk command
    some { s with disk := outcome.2, files := after s.files command outcome.1 }

/-- The disk holds the files of the map, each on blocks of its own between the first and the last
block, and nothing else has changed. -/
structure Holds (s : FsRun) : Prop where
  files : filesOn s.disk = s.files
  names : NamesDiffer (entries s.disk.directory)
  apart : FilesApart (entries s.disk.directory)
  placed : Placed s.disk.numBlocks (entries s.disk.directory)
  kept : Kept s.first s.disk

theorem fsSystem_inv (hqsort : Sorts qsort) {s : FsRun}
    (h : (fsSystem qsort).ReachBy (fun s => Orderly s.disk) s) :
    (∃ es, Sound s.disk es) ∧ filesOn s.disk = s.files ∧ Kept s.first s.disk := by
  refine h.invariant (I := fun s =>
    (∃ es, Sound s.disk es) ∧ filesOn s.disk = s.files ∧ Kept s.first s.disk) ?_ ?_
  · rintro s ⟨disk, hge, hlt, rfl⟩
    exact ⟨⟨_, sound_format hge hlt⟩, filesOn_format hge hlt, .refl _⟩
  · rintro s command t ⟨⟨es, hs⟩, hfiles, hkept⟩ ho hnext
    obtain rfl := Option.some.inj hnext
    have hserves := hs.step hqsort ho
    exact ⟨hserves.sound, hfiles ▸ hserves.files, hkept.trans hserves.kept⟩

/-- In every run of orderly commands the disk holds the files that the commands should have left, and
each reply is one that these files allow. -/
theorem files_kept (hqsort : Sorts qsort) {s : FsRun}
    (h : (fsSystem qsort).ReachBy (fun s => Orderly s.disk) s) :
    Holds s ∧ ∀ command, Orderly s.disk command →
      Answers s.files command (main qsort s.disk command).1 := by
  obtain ⟨⟨es, hs⟩, hfiles, hkept⟩ := fsSystem_inv hqsort h
  have hentries := hs.lists.entries_eq
  refine ⟨⟨hfiles, hentries.symm ▸ hs.names, hentries.symm ▸ hs.apart, hentries.symm ▸ hs.placed,
    hkept⟩, fun command ho => ?_⟩
  rw [← hfiles]
  exact (hs.step hqsort ho).answers

/-- A test for the guard: a directory that ends, and enough free blocks in a row. -/
def keepsOrder (s : FsRun) : Command → Bool
  | .create filename filesize =>
      decide (Nameable filename) && decide ((entries s.disk.directory).length < 64) &&
        (List.range s.disk.numBlocks).any fun b =>
          decide (Free s.disk.numBlocks (entries s.disk.directory) (blocksOf filesize.toInt.toNat) b)
  | .write _ tfile => decide (tfile.length < 2 ^ 31)
  | _ => true

theorem orderly_of_keepsOrder (s : FsRun) (command : Command) (h : keepsOrder s command) :
    Orderly s.disk command := by
  cases command with
  | create filename filesize =>
      simp only [keepsOrder, Bool.and_eq_true, decide_eq_true_eq, List.any_eq_true] at h
      obtain ⟨⟨hname, hlt⟩, b, -, hfree⟩ := h
      exact ⟨hname, fun _ _ => placeable_of_free hlt hfree⟩
  | write filename tfile =>
      have hlt : tfile.length < 2 ^ 31 := of_decide_eq_true h
      exact hlt
  | list => trivial
  | format force => trivial
  | read filename => trivial
  | delete filename => trivial

/-- A disk of ten blocks. -/
def blank : Disk := ⟨20971520, fun _ => 0, fun _ _ => rfl⟩

/-- The names "x", "y" and "z". -/
def nameX : CString := ⟨[120], by decide⟩

def nameY : CString := ⟨[121], by decide⟩

def nameZ : CString := ⟨[122], by decide⟩

/-- "x" gets the blocks 1 and 2 and "y" the blocks 3 to 8, both are written, and "x" is deleted. -/
def fragmented : Option FsRun :=
  (fsSystem insertionQsort).executeBy keepsOrder ⟨format blank, format blank, fun _ => none⟩
    [.create nameX 4, .create nameY 12, .write nameX [1, 2], .write nameY [3, 4, 5],
      .delete nameX]

theorem reachBy_fragmented : (fsSystem insertionQsort).ReachBy (fun s => Orderly s.disk)
    (fragmented.get (by decide +kernel)) :=
  System.ReachBy.execute orderly_of_keepsOrder
    (.init ⟨blank, by decide, by decide, rfl⟩) (Option.some_get _).symm

theorem files_kept_fragmented : Holds (fragmented.get (by decide +kernel)) ∧
    ∀ command, Orderly (fragmented.get (by decide +kernel)).disk command →
      Answers (fragmented.get (by decide +kernel)).files command
        (main insertionQsort (fragmented.get (by decide +kernel)).disk command).1 :=
  files_kept sorts_insertionQsort reachBy_fragmented

/-! ## When `create` does harm -/

/-- The files on the disk besides the new one, and that no two files share a block. -/
def Harmless (disk disk' : Disk) (filename : CString) : Prop :=
  (∀ other, other ≠ filename → filesOn disk' other = filesOn disk other) ∧
    FilesApart (entries disk'.directory)

/-- A new file on blocks of another one. -/
theorem not_filesApart (hname : Nameable filename)
    (hw : Written es (firstFree es) ⟨filename.bytes, a, n, 0⟩ es')
    (hin : Within 1 (disk.numBlocks - 1) ⟨a, n⟩) (hfree : ¬Free disk.numBlocks es n a) :
    ¬FilesApart es' := by
  intro hapart
  refine hfree ⟨hin, fun f hf hlive => ?_⟩
  obtain ⟨k, hk⟩ := List.mem_iff_getElem?.mp hf
  have hne : k ≠ firstFree es := by
    rintro rfl
    exact not_live_firstFree hk hlive
  have hnew := (hw (firstFree es)).trans (if_pos rfl)
  have hold := (hw k).trans ((if_neg hne).trans hk)
  exact hapart _ k _ f hnew hold hname.live hlive hne.symm

/-- If only the new file is left and no other one is gone, there was none. -/
theorem Sound.dead_of_only (h : Sound disk es) {disk' : Disk} {size : Nat}
    (hlists : Lists disk'.directory [⟨filename.bytes, a, n, size⟩])
    (hfresh : filesOn disk filename = none)
    (hfiles : ∀ other, other ≠ filename → filesOn disk' other = filesOn disk other) :
    ∀ e ∈ es, ¬e.Live := by
  intro e he hlive
  obtain ⟨other, hother⟩ := h.lists.name he
  have hsome := h.filesOn_eq_some.mpr ⟨e, he, hlive, hother, rfl⟩
  have hne : other ≠ filename := by
    rintro rfl
    rw [hfresh] at hsome
    cases hsome
  rw [← hfiles other hne, filesOn] at hsome
  obtain ⟨found, hfind, -⟩ := Option.map_eq_some_iff.mp hsome
  obtain ⟨hmem, -, hbytes⟩ := hlists.findfile_some hfind
  rw [List.mem_singleton.mp (List.mem_of_getElem? hmem)] at hbytes
  exact hne (cstring_ext hbytes.symm)

theorem Sound.harmless_iff (hqsort : Sorts qsort) (h : Sound disk es) (hname : Nameable filename)
    (hfresh : filesOn disk filename = none) (hn : 0 < n) (hn' : n < 2 ^ 64) :
    Harmless disk (Bmfs.createNew qsort disk filename n).2 filename ↔
      Placeable disk.numBlocks es n := by
  constructor
  · rintro ⟨hfiles, hapart⟩
    rw [Placeable]
    split
    next hlt =>
      rcases h.createNew_ended hqsort hname hn hn' hlt with ⟨-, -, hnone⟩ |
        ⟨directory, es', start, hcreate, hw, hlists, ⟨hfree, -⟩ | ⟨hroom, -, hin⟩⟩
      · exact Or.inr hnone
      · exact Or.inl ⟨start, hfree⟩
      · rw [hcreate, hlists.flush.entries_eq] at hapart
        exact absurd hapart (not_filesApart hname hw hin fun hfree => hroom ⟨start, hfree⟩)
    next hfull =>
      have hfull : es.length = 64 := Nat.le_antisymm h.lists.length_le (Nat.not_lt.mp hfull)
      rcases h.createNew_full hqsort hname hn' hfull with
        ⟨-, hlive⟩ | ⟨-, hlarge⟩ | ⟨hfits, hfree, directory, es', hcreate, hlists, hw⟩
      · exact Or.inl hlive
      · exact Or.inr (Or.inl hlarge)
      · rw [hcreate] at hfiles hapart
        have hin : Within 1 (disk.numBlocks - 1) ⟨1, n⟩ := by
          refine ⟨Nat.le_refl 1, ?_⟩
          have hge := h.numBlocks.1
          change 1 + n ≤ disk.numBlocks - 1
          omega
        refine Or.inr (Or.inr ?_)
        split at hw
        next hzero =>
          subst hw
          have hdead := h.dead_of_only hlists.flush hfresh hfiles
          exact ⟨⟨hin, fun f hf hlive => absurd hlive (hdead f hf)⟩, fun _ => hdead⟩
        next hzero =>
          rw [hlists.flush.entries_eq] at hapart
          exact ⟨not_not.mp fun hfree => not_filesApart hname hw hin hfree hapart,
            fun hfirst => absurd hfirst hzero⟩
  · intro hplace
    rcases h.createNew hqsort hname hfresh hn hn' hplace with
      ⟨disk', hcreate, ⟨es', hs⟩, -, hfiles⟩ | hcreate | hcreate
    · rw [hcreate]
      refine ⟨fun other hother => ?_, hs.lists.entries_eq.symm ▸ hs.apart⟩
      rw [hfiles, update_of_ne hother]
    · rw [hcreate]
      exact ⟨fun _ _ => rfl, h.lists.entries_eq.symm ▸ h.apart⟩
    · rw [hcreate]
      exact ⟨fun _ _ => rfl, h.lists.entries_eq.symm ▸ h.apart⟩

/-- What `main` does with a new name. -/
theorem Sound.main_create (h : Sound disk es) {filesize : Int32} (hsize : 1 ≤ filesize.toInt)
    (hfresh : filesOn disk filename = none) :
    main qsort disk (.create filename filesize) =
      Bmfs.createNew qsort disk filename (blocksOf filesize.toInt.toNat) := by
  have hfind : findfile filename disk.directory = none := Option.map_eq_none_iff.mp hfresh
  rw [main.eq_def, if_pos h.tagged]
  simp only [if_pos hsize, Bmfs.create, hfind]

/-- In every state that orderly commands reach, a new file is put on blocks of another one or makes
one disappear exactly if it is not placeable. -/
theorem create_harmless_iff (hqsort : Sorts qsort) {s : FsRun}
    (h : (fsSystem qsort).ReachBy (fun s => Orderly s.disk) s) (hname : Nameable filename)
    (hfresh : s.files filename = none) {filesize : Int32} (hsize : 1 ≤ filesize.toInt) :
    Harmless s.disk (main qsort s.disk (.create filename filesize)).2 filename ↔
      Placeable s.disk.numBlocks (entries s.disk.directory) (blocksOf filesize.toInt.toNat) := by
  obtain ⟨⟨es, hs⟩, hfiles, -⟩ := fsSystem_inv hqsort h
  rw [← hfiles] at hfresh
  have hlt := blocksOf_lt filesize
  rw [hs.main_create hsize hfresh, hs.lists.entries_eq]
  exact hs.harmless_iff hqsort hname hfresh (blocksOf_pos (by omega)) (by omega)

/-- Three blocks for "z", when "y" has the blocks 3 to 8 and "x" had the blocks 1 and 2. -/
theorem create_harmless_iff_fragmented :
    Harmless (fragmented.get (by decide +kernel)).disk
      (main insertionQsort (fragmented.get (by decide +kernel)).disk (.create nameZ 6)).2 nameZ ↔
    Placeable (fragmented.get (by decide +kernel)).disk.numBlocks
      (entries (fragmented.get (by decide +kernel)).disk.directory)
      (blocksOf (6 : Int32).toInt.toNat) :=
  create_harmless_iff sorts_insertionQsort reachBy_fragmented (by decide) (by decide +kernel)
    (by decide)

-- "z" is put on block 3, which is one of "y"
example : (findfile nameZ (main insertionQsort (fragmented.get (by decide +kernel)).disk
    (.create nameZ 6)).2.directory).map (·.2.startingBlock) = some 3 := by
  decide +kernel

/-- A new file gets the first place with enough free blocks.  When there is none, and none behind an
unused entry, it is refused. -/
theorem create_first_fit (hqsort : Sorts qsort) {s : FsRun}
    (h : (fsSystem qsort).ReachBy (fun s => Orderly s.disk) s) (hname : Nameable filename)
    (hfresh : s.files filename = none) {filesize : Int32} (hsize : 1 ≤ filesize.toInt)
    (hend : (entries s.disk.directory).length < 64)
    (hplace : Placeable s.disk.numBlocks (entries s.disk.directory)
      (blocksOf filesize.toInt.toNat)) :
    let n := blocksOf filesize.toInt.toNat
    let free := Free s.disk.numBlocks (entries s.disk.directory) n
    let outcome := main qsort s.disk (.create filename filesize)
    ((∀ b, ¬free b) → outcome = (.noArea, s.disk)) ∧
    ∀ b, free b → outcome.1 = .complete ∧
      ∃ slot e, findfile filename outcome.2.directory = some (slot, e) ∧ e.reservedBlocks = n ∧
        free e.startingBlock ∧ e.startingBlock ≤ b := by
  obtain ⟨⟨es, hs⟩, hfiles, -⟩ := fsSystem_inv hqsort h
  rw [← hfiles] at hfresh
  rw [hs.lists.entries_eq] at hend hplace ⊢
  rw [Placeable, if_pos hend] at hplace
  have hlt := blocksOf_lt filesize
  intro n free outcome
  have hn : 0 < n := blocksOf_pos (by omega)
  have houtcome : outcome = Bmfs.createNew qsort s.disk filename n := hs.main_create hsize hfresh
  rcases hs.createNew_ended hqsort hname hn (Nat.lt_trans hlt (by decide)) hend with
    ⟨hcreate, hroom, -⟩ |
    ⟨directory, es', start, hcreate, hw, hlists, ⟨hfree, hfirst⟩ | ⟨hroom, hbehind, -⟩⟩
  · rw [houtcome, hcreate]
    exact ⟨fun _ => rfl, fun b hb => absurd ⟨b, hb⟩ hroom⟩
  · rw [houtcome, hcreate]
    obtain ⟨hs', -⟩ := hs.create hname hfresh hw hlists (fun f => not_live_firstFree) hn hfree
    refine ⟨fun hnone => absurd hfree (hnone start), fun b hb =>
      ⟨rfl, firstFree es, ⟨filename.bytes, start, n, 0⟩, ?_, rfl, hfree, hfirst b hb⟩⟩
    exact (hs'.lists.findfile_eq_some hs'.names).mpr
      ⟨(hw (firstFree es)).trans (if_pos rfl), hname.live, rfl⟩
  · exact absurd hplace (not_or.mpr ⟨hroom, hbehind⟩)

/-- Two blocks for "z", which gets those that "x" had. -/
theorem create_first_fit_fragmented :
    let s := fragmented.get (by decide +kernel)
    let n := blocksOf (4 : Int32).toInt.toNat
    let free := Free s.disk.numBlocks (entries s.disk.directory) n
    let outcome := main insertionQsort s.disk (.create nameZ 4)
    ((∀ b, ¬free b) → outcome = (.noArea, s.disk)) ∧
    ∀ b, free b → outcome.1 = .complete ∧
      ∃ slot e, findfile nameZ outcome.2.directory = some (slot, e) ∧ e.reservedBlocks = n ∧
        free e.startingBlock ∧ e.startingBlock ≤ b :=
  create_first_fit sorts_insertionQsort reachBy_fragmented (by decide) (by decide +kernel)
    (by decide) (by decide +kernel)
    (placeable_of_free (b := 1) (by decide +kernel) (by decide +kernel))

end Bmfs

end TPE
