import Mathlib.Logic.Function.Basic
import TPE.Library.Runs
import TPE.Bootloader.BmfsAllocation

/-!
# The files on a disk

A disk stands for a map from names to files.  A file is the number of blocks that are reserved for
it and the bytes that were written to it last.  The commands do to this map what their names say,
as long as no file is put on top of another one.

`Placeable` says of the directory when `create` puts a new file on blocks that are free, or puts it
nowhere.  There are two ways to miss it: no gap is large enough, but there is an unused entry with
enough blocks behind it, or no entry ends the directory.
-/

namespace TPE

open Function Extent ByteMemory

namespace Bmfs

variable {qsort : List BMFSEntry → List BMFSEntry} {disk disk' : Disk} {es es' : List BMFSEntry}
  {e f : BMFSEntry} {filename : CString} {i n a : Nat}

/-! ## The map -/

/-- A file: how many blocks are reserved for it, and its bytes. -/
structure StoredFile where
  reserved : Nat
  contents : List UInt8
deriving DecidableEq

/-- The files by their names. -/
abbrev Files := CString → Option StoredFile

/-- The files on a disk. -/
def filesOn (disk : Disk) : Files := fun filename =>
  (findfile filename disk.directory).map fun found =>
    ⟨found.2.reservedBlocks, disk.contents found.2⟩

/-- What a command with this reply does to the files. -/
def after (files : Files) : Command → Reply → Files
  | .create filename filesize, .complete =>
      update files filename (some ⟨blocksOf filesize.toInt.toNat, []⟩)
  | .write filename tfile, .complete =>
      update files filename ((files filename).map fun file => { file with contents := tfile })
  | .delete filename, .complete => update files filename none
  | .format _, .complete => fun _ => none
  | _, _ => files

/-- The replies that the files allow. -/
def Answers (files : Files) : Command → Reply → Prop
  | .list, reply => ∃ lines, reply = .listing lines ∧ (lines.map (·.1)).Nodup ∧
      ∀ line, line ∈ lines ↔ ∃ filename file, files filename = some file ∧
        line = (filename.bytes, file.contents.length, file.reserved * 2)
  | .format force, reply => reply = if force then .complete else .aborted
  | .create filename filesize, reply =>
      if 1 ≤ filesize.toInt then
        if (files filename).isSome then reply = .fileExists
        else reply = .complete ∨ reply = .noEntry ∨ reply = .noArea
      else reply = .invalidSize
  | .read filename, reply =>
      reply = match files filename with
        | none => .notFound
        | some file => .contents file.contents
  | .write filename tfile, reply =>
      reply = match files filename with
        | none => .notFound
        | some file => if file.reserved * blockSize < tfile.length then .noSpace else .complete
  | .delete filename, reply =>
      reply = if (files filename).isSome then .complete else .notFound

/-! ## The invariant -/

/-- A formatted disk with the entries `es`. -/
structure Sound (disk : Disk) (es : List BMFSEntry) : Prop where
  size_ge : 6291456 ≤ disk.size
  size_lt : disk.size < 2 ^ 52
  tagged : disk.Tagged
  lists : Lists disk.directory es
  placed : Placed disk.numBlocks es
  apart : FilesApart es
  names : NamesDiffer es
  fits : ∀ e ∈ es, e.fileName.length ≤ 31 ∧ e.fileSize ≤ e.reservedBlocks * blockSize

theorem Sound.numBlocks (h : Sound disk es) :
    3 ≤ disk.numBlocks ∧ disk.numBlocks < 2 ^ 31 ∧ disk.numBlocks * blockSize ≤ disk.size := by
  have hge := h.size_ge
  have hlt := h.size_lt
  simp only [Disk.numBlocks, blockSize]
  omega

/-- Where a file is on the disk. -/
theorem Sound.offset (h : Sound disk es) (he : e ∈ es) :
    e.offset = e.startingBlock * blockSize ∧ blockSize ≤ e.offset ∧
      e.offset + e.reservedBlocks * blockSize ≤ (disk.numBlocks - 1) * blockSize := by
  obtain ⟨hge, hlt, -⟩ := h.numBlocks
  obtain ⟨hstart, hstop⟩ := (h.placed e he).1
  rw [e.extent_start] at hstart
  rw [e.extent_stop] at hstop
  have hoffset : e.offset = e.startingBlock * blockSize := by
    refine Nat.mod_eq_of_lt ?_
    simp only [blockSize]
    omega
  refine ⟨hoffset, ?_, ?_⟩
  · rw [hoffset]
    exact Nat.le_mul_of_pos_left _ hstart
  · rw [hoffset, ← Nat.add_mul]
    exact Nat.mul_le_mul_right _ hstop

theorem cstring_ext {s t : CString} (h : s.bytes = t.bytes) : s = t := by
  cases s
  cases t
  cases h
  rfl

theorem Sound.filesOn_eq_some (h : Sound disk es) {file : StoredFile} :
    filesOn disk filename = some file ↔
      ∃ e ∈ es, e.Live ∧ e.fileName = filename.bytes ∧
        file = ⟨e.reservedBlocks, disk.contents e⟩ := by
  rw [filesOn, Option.map_eq_some_iff]
  constructor
  · rintro ⟨⟨i, e⟩, hfind, rfl⟩
    obtain ⟨hi, hlive, hname⟩ := h.lists.findfile_some hfind
    exact ⟨e, List.mem_of_getElem? hi, hlive, hname, rfl⟩
  · rintro ⟨e, he, hlive, hname, rfl⟩
    obtain ⟨i, hi⟩ := List.mem_iff_getElem?.mp he
    exact ⟨(i, e), (h.lists.findfile_eq_some h.names).mpr ⟨hi, hlive, hname⟩, rfl⟩

theorem Sound.filesOn_eq_none (h : Sound disk es) :
    filesOn disk filename = none ↔ ∀ e ∈ es, e.Live → e.fileName ≠ filename.bytes := by
  rw [Option.eq_none_iff_forall_ne_some]
  constructor
  · exact fun hnone e he hlive hname => hnone _ (h.filesOn_eq_some.mpr ⟨e, he, hlive, hname, rfl⟩)
  · intro hno file hfile
    obtain ⟨e, he, hlive, hname, -⟩ := h.filesOn_eq_some.mp hfile
    exact hno e he hlive hname

/-! ## A step -/

/-- An entry was written, and the disk did not change elsewhere in front of the files. -/
structure Rewritten (disk : Disk) (es : List BMFSEntry) (i : Nat) (e : BMFSEntry) (disk' : Disk)
    (es' : List BMFSEntry) : Prop where
  written : Written es i e es'
  lists : Lists disk'.directory es'
  size_eq : disk'.size = disk.size
  front : ∀ a < 4096, disk'.bytes a = disk.bytes a

theorem Rewritten.mem (h : Rewritten disk es i e disk' es') : e ∈ es' :=
  List.mem_of_getElem? ((h.written i).trans (if_pos rfl))

theorem Rewritten.mem_other (h : Rewritten disk es i e disk' es') (hf : f ∈ es') :
    f = e ∨ ∃ k ≠ i, es[k]? = some f := by
  obtain ⟨k, hk⟩ := List.mem_iff_getElem?.mp hf
  rw [h.written k] at hk
  split at hk
  next => exact Or.inl (Option.some.inj hk).symm
  next hne => exact Or.inr ⟨k, hne, hk⟩

theorem tagged_congr (h : disk.Tagged) (hfront : ∀ a < 4096, disk'.bytes a = disk.bytes a) :
    disk'.Tagged := by
  rw [Disk.Tagged, readString_congr fun i hi => hfront _ (by omega)]
  exact h

/-- The invariant is kept if the new entry is apart from the other files. -/
theorem Rewritten.sound (h : Rewritten disk es i e disk' es') (hs : Sound disk es)
    (hplaced : e.extent.Within 1 (disk.numBlocks - 1) ∧ 0 < e.reservedBlocks)
    (hfits : e.fileName.length ≤ 31 ∧ e.fileSize ≤ e.reservedBlocks * blockSize)
    (haway : e.Live → ∀ k f, k ≠ i → es[k]? = some f → f.Live →
      e.extent.Apart f.extent ∧ e.fileName ≠ f.fileName) : Sound disk' es' := by
  have hnb : disk'.numBlocks = disk.numBlocks := by rw [Disk.numBlocks, h.size_eq, Disk.numBlocks]
  refine ⟨h.size_eq ▸ hs.size_ge, h.size_eq ▸ hs.size_lt, tagged_congr hs.tagged h.front, h.lists,
    fun f hf => ?_, fun j k f g hj hk hf hg hne => ?_, fun j k f g hj hk hf hg hname => ?_,
    fun f hf => ?_⟩
  · rw [hnb]
    rcases h.mem_other hf with rfl | ⟨k, -, hk⟩
    · exact hplaced
    · exact hs.placed f (List.mem_of_getElem? hk)
  · rw [h.written] at hj hk
    split at hj
    next hji =>
      obtain rfl := Option.some.inj hj
      rw [if_neg fun hki => hne (hji.trans hki.symm)] at hk
      exact (haway hf k g (fun hki => hne (hji.trans hki.symm)) hk hg).1
    next hji =>
      split at hk
      next =>
        obtain rfl := Option.some.inj hk
        exact (haway hg j f hji hj hf).1.symm
      next => exact hs.apart j k f g hj hk hf hg hne
  · rw [h.written] at hj hk
    split at hj
    next hji =>
      obtain rfl := Option.some.inj hj
      split at hk
      next hki => exact hji.trans hki.symm
      next hki => exact absurd hname (haway hf k g hki hk hg).2
    next hji =>
      split at hk
      next =>
        obtain rfl := Option.some.inj hk
        exact absurd hname.symm (haway hg j f hji hj hf).2
      next => exact hs.names j k f g hj hk hf hg hname
  · rcases h.mem_other hf with rfl | ⟨k, -, hk⟩
    · exact hfits
    · exact hs.fits f (List.mem_of_getElem? hk)

/-- The map changes at one name. -/
theorem Rewritten.filesOn (h : Rewritten disk es i e disk' es') (hs : Sound disk es)
    (hs' : Sound disk' es') (filename : CString)
    (hold : ∀ f, es[i]? = some f → f.Live → f.fileName = filename.bytes)
    (hnew : e.Live → e.fileName = filename.bytes)
    (honly : ∀ k f, k ≠ i → es[k]? = some f → f.Live → f.fileName ≠ filename.bytes)
    (hsame : ∀ k f, k ≠ i → es[k]? = some f → f.Live → disk'.contents f = disk.contents f) :
    Bmfs.filesOn disk' = update (Bmfs.filesOn disk) filename
      (if e.Live then some ⟨e.reservedBlocks, disk'.contents e⟩ else none) := by
  funext other
  by_cases hother : other = filename
  · subst hother
    rw [update_self]
    split
    next hlive => exact hs'.filesOn_eq_some.mpr ⟨e, h.mem, hlive, hnew hlive, rfl⟩
    next hdead =>
      refine hs'.filesOn_eq_none.mpr fun f hf hlive => ?_
      rcases h.mem_other hf with rfl | ⟨k, hne, hk⟩
      · exact absurd hlive hdead
      · exact honly k f hne hk hlive
  · rw [update_of_ne hother]
    have hdiffer : ∀ f : BMFSEntry, f.fileName = filename.bytes → f.fileName ≠ other.bytes :=
      fun f hf hf' => hother (cstring_ext (hf'.symm.trans hf))
    refine Option.ext fun file => ?_
    rw [hs'.filesOn_eq_some, hs.filesOn_eq_some]
    constructor
    · rintro ⟨f, hf, hlive, hname, rfl⟩
      rcases h.mem_other hf with rfl | ⟨k, hne, hk⟩
      · exact absurd hname (hdiffer f (hnew hlive))
      · exact ⟨f, List.mem_of_getElem? hk, hlive, hname, by rw [hsame k f hne hk hlive]⟩
    · rintro ⟨f, hf, hlive, hname, rfl⟩
      obtain ⟨k, hk⟩ := List.mem_iff_getElem?.mp hf
      have hne : k ≠ i := by
        rintro rfl
        exact hdiffer f (hold f hk hlive) hname
      have hk' : es'[k]? = some f := by rw [h.written k, if_neg hne, hk]
      exact ⟨f, List.mem_of_getElem? hk', hlive, hname, by rw [hsame k f hne hk hlive]⟩

/-! ## Bytes on the disk -/

theorem bytes_flush {directory : Nat → UInt8} (h : a < 4096 ∨ 8192 ≤ a) :
    (disk.flush directory).bytes a = disk.bytes a := by
  rw [Disk.flush, Disk.bytes_write, RingBuffer.blit_outside (by omega)]

theorem Sound.size_flush (h : Sound disk es) (directory : Nat → UInt8) :
    (disk.flush directory).size = disk.size :=
  disk.size_write _ (Nat.le_trans (by decide) h.size_ge)

/-- The contents of a file are read from its blocks. -/
theorem contents_congr (hsize : disk'.size = disk.size)
    (hbytes : ∀ i < e.fileSize, disk'.bytes (e.offset + i) = disk.bytes (e.offset + i)) :
    disk'.contents e = disk.contents e := by
  refine List.map_congr_left fun i hi => ?_
  rw [Disk.getc, Disk.getc, hsize, hbytes i (List.mem_range.mp hi)]

theorem Sound.contents_flush (h : Sound disk es) (he : e ∈ es) (directory : Nat → UInt8) :
    (disk.flush directory).contents e = disk.contents e := by
  obtain ⟨-, hlow, -⟩ := h.offset he
  refine contents_congr (h.size_flush directory) fun i _ => bytes_flush (Or.inr ?_)
  simp only [blockSize] at hlow
  omega

/-- What is neither the tag, nor the directory, nor one of the blocks for files. -/
def Untouched (numBlocks a : Nat) : Prop :=
  a < 1024 ∨ 1536 ≤ a ∧ a < 4096 ∨ 8192 ≤ a ∧ a < blockSize ∨ (numBlocks - 1) * blockSize ≤ a

/-- The second disk has the same size and the same bytes outside of tag, directory and files. -/
structure Kept (disk disk' : Disk) : Prop where
  size_eq : disk'.size = disk.size
  bytes_eq : ∀ a, Untouched disk.numBlocks a → disk'.bytes a = disk.bytes a

theorem Kept.refl (disk : Disk) : Kept disk disk := ⟨rfl, fun _ _ => rfl⟩

theorem Kept.trans {disk'' : Disk} (h : Kept disk disk') (h' : Kept disk' disk'') :
    Kept disk disk'' := by
  have hnb : disk'.numBlocks = disk.numBlocks := by rw [Disk.numBlocks, h.size_eq, Disk.numBlocks]
  exact ⟨h'.size_eq.trans h.size_eq, fun a ha =>
    (h'.bytes_eq a (hnb ▸ ha)).trans (h.bytes_eq a ha)⟩

theorem Sound.kept_flush (h : Sound disk es) (directory : Nat → UInt8) :
    Kept disk (disk.flush directory) := by
  obtain ⟨hge, -⟩ := h.numBlocks
  refine ⟨h.size_flush directory, fun a ha => bytes_flush ?_⟩
  rcases ha with ha | ha | ha | ha
  · omega
  · omega
  · omega
  · have hlast : 2 * blockSize ≤ (disk.numBlocks - 1) * blockSize :=
      Nat.mul_le_mul_right _ (by omega)
    simp only [blockSize] at hlast ha
    omega

/-! ## The commands -/

/-- The directory is written back with one entry changed. -/
theorem Sound.rewritten_flush (h : Sound disk es) {directory : Nat → UInt8}
    (hw : Written es i e es') (hlists : Lists directory es') :
    Rewritten disk es i e (disk.flush directory) es' :=
  ⟨hw, hlists.flush, h.size_flush directory, fun _ ha => bytes_flush (Or.inl ha)⟩

/-- A new file on free blocks. -/
theorem Sound.create (h : Sound disk es) (hname : Nameable filename)
    (hfresh : filesOn disk filename = none) {directory : Nat → UInt8}
    (hw : Written es i ⟨filename.bytes, a, n, 0⟩ es') (hlists : Lists directory es')
    (hold : ∀ f, es[i]? = some f → ¬f.Live) (hn : 0 < n) (hfree : Free disk.numBlocks es n a) :
    Sound (disk.flush directory) es' ∧
      filesOn (disk.flush directory) = update (filesOn disk) filename (some ⟨n, []⟩) := by
  have hr := h.rewritten_flush hw hlists
  have hunique := h.filesOn_eq_none.mp hfresh
  have hs : Sound (disk.flush directory) es' :=
    hr.sound h ⟨hfree.1, hn⟩ ⟨hname.short, Nat.zero_le _⟩ fun _ k f _ hk hlive =>
      ⟨hfree.2 f (List.mem_of_getElem? hk) hlive,
        fun hf => hunique f (List.mem_of_getElem? hk) hlive hf.symm⟩
  refine ⟨hs, ?_⟩
  rw [hr.filesOn h hs filename (fun f hf hlive => absurd hlive (hold f hf)) (fun _ => rfl)
    (fun k f _ hk => hunique f (List.mem_of_getElem? hk))
    fun k f _ hk _ => h.contents_flush (List.mem_of_getElem? hk) directory, if_pos hname.live]
  rfl

/-- `delete` of a file -/
theorem Sound.delete (h : Sound disk es) {slot : Nat}
    (hfind : findfile filename disk.directory = some (slot, e)) :
    ∃ es', Sound (disk.flush (markEntry disk.directory slot 1)) es' ∧
      filesOn (disk.flush (markEntry disk.directory slot 1)) =
        update (filesOn disk) filename none := by
  obtain ⟨hslot, hlive, hname⟩ := h.lists.findfile_some hfind
  have he := List.mem_of_getElem? hslot
  obtain ⟨hlt, -⟩ := List.getElem?_eq_some_iff.mp hslot
  have hfirst := h.lists.used e he
  have hmarked : Rewrites disk.directory (markEntry disk.directory slot 1) slot
      { e with fileName := 1 :: e.fileName.tail } :=
    rewrites_markEntry (by decide) (h.lists.entry hslot) hfirst
  have hdead : ¬({ e with fileName := 1 :: e.fileName.tail } : BMFSEntry).Live := not_not.mpr rfl
  have hr := h.rewritten_flush (written_set hlt _) (h.lists.set hmarked hlt (by simp [BMFSEntry.firstByte]))
  have hs := hr.sound h (h.placed e he) ⟨?_, (h.fits e he).2⟩ fun hl => absurd hl hdead
  · refine ⟨_, hs, ?_⟩
    rw [hr.filesOn h hs filename ?_ (fun hl => absurd hl hdead) ?_ ?_, if_neg hdead]
    · intro f hf _
      rw [hslot] at hf
      exact (Option.some.inj hf) ▸ hname
    · intro k f hne hk hf hfname
      exact hne (h.names k slot f e hk hslot hf hlive (hfname.trans hname.symm))
    · exact fun k f _ hk _ => h.contents_flush (List.mem_of_getElem? hk) _
  · have hshort := (h.fits e he).1
    cases hbytes : e.fileName with
    | nil => simp
    | cons c cs => rwa [hbytes] at hshort

/-- The disk after `write`. -/
def Disk.putFile (disk : Disk) (slot : Nat) (e : BMFSEntry) (tfile : List UInt8) : Disk :=
  (disk.write e.offset (fun i => tfile.getD i 0) tfile.length).flush
    (store disk.directory (64 * slot + 48) tfile.length 8)

section PutFile

variable {slot : Nat} {tfile : List UInt8}

theorem Sound.size_putFile (h : Sound disk es) (he : e ∈ es)
    (hfit : tfile.length ≤ e.reservedBlocks * blockSize) :
    (disk.putFile slot e tfile).size = disk.size := by
  obtain ⟨-, -, hhigh⟩ := h.offset he
  obtain ⟨-, -, hdisk⟩ := h.numBlocks
  have hblocks : (disk.numBlocks - 1) * blockSize ≤ disk.numBlocks * blockSize :=
    Nat.mul_le_mul_right _ (Nat.sub_le _ _)
  have hwrite := disk.size_write (fun i => tfile.getD i 0) (a := e.offset) (n := tfile.length)
    (by omega)
  have hge := h.size_ge
  rw [Disk.putFile, Disk.flush, Disk.size_write, hwrite]
  omega

/-- Outside of the directory and of the file nothing changes. -/
theorem bytes_putFile_outside (hdir : a < 4096 ∨ 8192 ≤ a)
    (hfile : a < e.offset ∨ e.offset + tfile.length ≤ a) :
    (disk.putFile slot e tfile).bytes a = disk.bytes a := by
  rw [Disk.putFile, bytes_flush hdir, Disk.bytes_write, RingBuffer.blit_outside (by omega)]

theorem bytes_putFile_inside (hlow : blockSize ≤ e.offset) (hi : i < tfile.length) :
    (disk.putFile slot e tfile).bytes (e.offset + i) = tfile[i] := by
  simp only [blockSize] at hlow
  rw [Disk.putFile, bytes_flush (by omega), Disk.bytes_write, RingBuffer.blit_inside (by omega),
    Nat.add_sub_cancel_left]
  exact List.getD_eq_getElem _ _ hi

/-- What was written is in the file. -/
theorem Sound.contents_putFile (h : Sound disk es) (he : e ∈ es)
    (hfit : tfile.length ≤ e.reservedBlocks * blockSize) :
    (disk.putFile slot e tfile).contents { e with fileSize := tfile.length } = tfile := by
  obtain ⟨-, hlow, hhigh⟩ := h.offset he
  obtain ⟨-, -, hdisk⟩ := h.numBlocks
  have hblocks : (disk.numBlocks - 1) * blockSize ≤ disk.numBlocks * blockSize :=
    Nat.mul_le_mul_right _ (Nat.sub_le _ _)
  refine List.ext_getElem (by simp [Disk.contents]) fun i hi hi' => ?_
  simp only [Disk.contents, List.getElem_map, List.getElem_range]
  have hbyte : (disk.putFile slot e tfile).bytes (e.offset + i) = tfile[i] :=
    bytes_putFile_inside hlow hi'
  rw [Disk.getc, h.size_putFile he hfit, if_pos (by simp only [BMFSEntry.offset] at *; omega)]
  exact hbyte

/-- A file that is apart keeps its contents. -/
theorem Sound.contents_putFile_other (h : Sound disk es) (he : e ∈ es) (hf : f ∈ es)
    (hfit : tfile.length ≤ e.reservedBlocks * blockSize) (hapart : e.extent.Apart f.extent) :
    (disk.putFile slot e tfile).contents f = disk.contents f := by
  obtain ⟨heoff, -, -⟩ := h.offset he
  obtain ⟨hfoff, hlow, -⟩ := h.offset hf
  have hsize := (h.fits f hf).2
  refine contents_congr (h.size_putFile he hfit) fun i hi => bytes_putFile_outside ?_ ?_
  · simp only [blockSize] at hlow
    omega
  · rcases hapart with hle | hle
    · right
      have hmul := Nat.mul_le_mul_right blockSize hle
      rw [e.extent_stop, f.extent_start, Nat.add_mul, ← heoff, ← hfoff] at hmul
      omega
    · left
      have hmul := Nat.mul_le_mul_right blockSize hle
      rw [f.extent_stop, e.extent_start, Nat.add_mul, ← heoff, ← hfoff] at hmul
      omega

/-- `write` of a file that fits -/
theorem Sound.putFile (h : Sound disk es)
    (hfind : findfile filename disk.directory = some (slot, e))
    (hfit : tfile.length ≤ e.reservedBlocks * blockSize) :
    (∃ es', Sound (disk.putFile slot e tfile) es') ∧ Kept disk (disk.putFile slot e tfile) ∧
      filesOn (disk.putFile slot e tfile) =
        update (filesOn disk) filename (some ⟨e.reservedBlocks, tfile⟩) := by
  obtain ⟨hslot, hlive, hname⟩ := h.lists.findfile_some hfind
  have he := List.mem_of_getElem? hslot
  obtain ⟨hlt, -⟩ := List.getElem?_eq_some_iff.mp hslot
  obtain ⟨-, hlow, hhigh⟩ := h.offset he
  obtain ⟨-, -, hdisk⟩ := h.numBlocks
  have hlen : tfile.length < 2 ^ 64 := by
    have hlast : (disk.numBlocks - 1) * blockSize ≤ disk.numBlocks * blockSize :=
      Nat.mul_le_mul_right _ (Nat.sub_le _ _)
    have hsize := h.size_lt
    omega
  have hsized := rewrites_size (h.lists.entry hslot) (h.fits e he).1 hlen
  have hr : Rewritten disk es slot { e with fileSize := tfile.length }
      (disk.putFile slot e tfile) (es.set slot { e with fileSize := tfile.length }) := by
    refine ⟨written_set hlt _, (h.lists.set hsized hlt (h.lists.used e he)).flush,
      h.size_putFile he hfit, fun a ha => bytes_putFile_outside (Or.inl ha) (Or.inl ?_)⟩
    simp only [blockSize] at hlow
    omega
  have haway : ∀ k f, k ≠ slot → es[k]? = some f → f.Live → e.extent.Apart f.extent :=
    fun k f hne hk hf => h.apart slot k e f hslot hk hlive hf hne.symm
  have hdiffer : ∀ k f, k ≠ slot → es[k]? = some f → f.Live → e.fileName ≠ f.fileName :=
    fun k f hne hk hf hn => hne (h.names k slot f e hk hslot hf hlive hn.symm)
  have hs := hr.sound h (h.placed e he) ⟨(h.fits e he).1, hfit⟩ fun _ k f hne hk hf =>
    ⟨haway k f hne hk hf, hdiffer k f hne hk hf⟩
  refine ⟨⟨_, hs⟩, ⟨h.size_putFile he hfit, fun a ha => ?_⟩, ?_⟩
  · have hlast : 1 * blockSize ≤ (disk.numBlocks - 1) * blockSize :=
      Nat.mul_le_mul_right _ (by have := h.numBlocks.1; omega)
    rcases ha with ha | ha | ha | ha
    · exact bytes_putFile_outside (by omega) (by simp only [blockSize] at hlow; omega)
    · exact bytes_putFile_outside (by omega) (by simp only [blockSize] at hlow; omega)
    · exact bytes_putFile_outside (by omega) (by omega)
    · exact bytes_putFile_outside (by simp only [blockSize] at hlast ha; omega) (by omega)
  · rw [hr.filesOn h hs filename ?_ (fun _ => hname) ?_ ?_]
    · rw [if_pos (show BMFSEntry.Live { e with fileSize := tfile.length } from hlive),
        h.contents_putFile he hfit]
    · intro f hf _
      rw [hslot] at hf
      exact (Option.some.inj hf) ▸ hname
    · exact fun k f hne hk hf hfname => hdiffer k f hne hk hf (hname.trans hfname.symm)
    · exact fun k f hne hk hf => h.contents_putFile_other he (List.mem_of_getElem? hk) hfit
        (haway k f hne hk hf)

end PutFile

end Bmfs

end TPE
