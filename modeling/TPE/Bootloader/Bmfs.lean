import TPE.Library.ByteMemory
import TPE.Kernel.CircularBuffer
import TPE.Kernel.Strings

/-!
# The BareMetal file system

The tool `bmfs` makes the disk image that the kernel is booted from, and keeps files on it.  The
disk is divided into blocks of 2 MiB.  The first block holds the tag of the file system and a
directory of 64 entries, and the last block is not used.  A file has consecutive blocks.

An entry whose name begins with 0x00 ends the directory, and one whose name begins with 0x01 is
unused.  `create` sorts a copy of the entries by their first blocks, the unused ones last, and goes
over the gaps between them.

Every command reads the directory from the disk and writes the whole of it back.  `qsort` is a
parameter, since it may leave the unused entries in any order.
-/

namespace TPE

open RingBuffer ByteMemory

namespace Bmfs

/-- The bytes of a block. -/
abbrev blockSize : Nat := 2097152

/-! ## The disk -/

/-- A file in which the disk is. -/
structure Disk where
  size : Nat
  bytes : Nat → UInt8
  /-- Behind the end of the file there is nothing. -/
  beyond : ∀ a, size ≤ a → bytes a = 0

namespace Disk

/-- `n` bytes are written from the offset `a` on. -/
def write (disk : Disk) (a : Nat) (source : Nat → UInt8) (n : Nat) : Disk where
  size := if n = 0 then disk.size else max disk.size (a + n)
  bytes := blit disk.bytes a source n
  beyond := by
    intro b hb
    rw [blit_outside]
    · refine disk.beyond b ?_
      split at hb
      · exact hb
      · exact (Nat.le_max_left _ _).trans hb
    · split at hb
      · omega
      · omega

theorem bytes_write (disk : Disk) (a : Nat) (source : Nat → UInt8) (n : Nat) :
    (disk.write a source n).bytes = blit disk.bytes a source n := rfl

theorem size_write (disk : Disk) {a n : Nat} (source : Nat → UInt8) (h : a + n ≤ disk.size) :
    (disk.write a source n).size = disk.size := by
  rw [write]
  split
  next => rfl
  next => exact Nat.max_eq_left h

/-- `getc` at the offset `a` -/
def getc (disk : Disk) (a : Nat) : UInt8 := if a < disk.size then disk.bytes a else 255

end Disk

/-! ## The directory -/

/-- `struct BMFSEntry`, without the unused field.  The name is a string. -/
structure BMFSEntry where
  fileName : List UInt8
  startingBlock : Nat
  reservedBlocks : Nat
  fileSize : Nat
deriving DecidableEq

/-- `FileName[0]` -/
def BMFSEntry.firstByte (entry : BMFSEntry) : UInt8 := entry.fileName.headD 0

/-- Entry `tint` of `Directory`. -/
def entryAt (directory : Nat → UInt8) (tint : Nat) : BMFSEntry where
  fileName := readString directory (64 * tint) 64
  startingBlock := load directory (64 * tint + 32) 8
  reservedBlocks := load directory (64 * tint + 40) 8
  fileSize := load directory (64 * tint + 48) 8

/-- All 64 entries. -/
def table (directory : Nat → UInt8) : List BMFSEntry := (List.range 64).map (entryAt directory)

/-- The loop of `findfile`, from the entry `tint` on. -/
def findIn (filename : CString) : Nat → List BMFSEntry → Option (Nat × BMFSEntry)
  | _, [] => none
  | tint, entry :: rest =>
      if entry.firstByte = 0 then none
      else if entry.firstByte = 1 then findIn filename (tint + 1) rest
      else if filename.bytes = entry.fileName then some (tint, entry)
      else findIn filename (tint + 1) rest

/-- `findfile`: the number of the entry, and the entry. -/
def findfile (filename : CString) (directory : Nat → UInt8) : Option (Nat × BMFSEntry) :=
  findIn filename 0 (table directory)

/-! ## The allocation of blocks -/

/-- `StartingBlockCmp`.  The difference becomes an `int`. -/
def startingBlockCmp (ea eb : BMFSEntry) : Int :=
  if ea.firstByte = 1 then 1
  else if eb.firstByte = 1 then -1
  else int32 (ea.startingBlock - eb.startingBlock)

/-- `a - b` in `unsigned long long` -/
def sub64 (a b : Nat) : Nat := (a + 2 ^ 64 - b) % 2 ^ 64

/-- The loop of `create` that counts the entries: `num_used_entries` and `first_free_entry`.  When
no entry ends the directory, the count stays 0. -/
def countEntries : Nat → Option Nat → List BMFSEntry → Nat × Option Nat
  | _, firstFree, [] => (0, firstFree)
  | tint, firstFree, entry :: rest =>
      if entry.firstByte = 0 then (tint, firstFree <|> some tint)
      else if entry.firstByte = 1 then countEntries (tint + 1) (firstFree <|> some tint) rest
      else countEntries (tint + 1) firstFree rest

/-- The loop of `create` over the sorted entries: `new_file_start`, which is 0 if the file fits
nowhere. -/
def findArea (blocksRequested numBlocks : Nat) : Nat → List BMFSEntry → Nat
  | prevFileEnd, [] =>
      if blocksRequested ≤ sub64 (sub64 numBlocks 1) prevFileEnd then prevFileEnd else 0
  | prevFileEnd, entry :: rest =>
      let thisFileStart := if entry.firstByte = 1 then sub64 numBlocks 1 else entry.startingBlock
      if blocksRequested ≤ sub64 thisFileStart prevFileEnd then prevFileEnd
      else findArea blocksRequested numBlocks
        ((entry.startingBlock + entry.reservedBlocks) % 2 ^ 64) rest

/-- `strcpy` to the offset `a` of `Directory` -/
def strcpy (directory : Nat → UInt8) (a : Nat) (s : CString) : Nat → UInt8 :=
  blit directory a (fun i => s.bytes.getD i 0) (s.bytes.length + 1)

/-- The entry of a new file. -/
def addEntry (directory : Nat → UInt8) (slot start blocks : Nat) (filename : CString) :
    Nat → UInt8 :=
  let directory := store directory (64 * slot + 32) start 8
  let directory := store directory (64 * slot + 40) blocks 8
  let directory := store directory (64 * slot + 48) 0 8
  strcpy directory (64 * slot) filename

/-- `FileName[0] = mark` -/
def markEntry (directory : Nat → UInt8) (slot : Nat) (mark : UInt8) : Nat → UInt8 :=
  blit directory (64 * slot) (fun _ => mark) 1

/-! ## The commands -/

/-- What a command comes to. -/
inductive Reply where
  /-- "Complete" or "Format complete." -/
  | complete
  /-- "Format aborted!" -/
  | aborted
  /-- "Error: Not a valid BMFS drive" -/
  | notFormatted
  /-- "Error: Invalid file size." -/
  | invalidSize
  /-- "Error: File already exists." -/
  | fileExists
  /-- "Cannot create file: no free directory entries." -/
  | noEntry
  /-- "Cannot create file of size %lld MiB." -/
  | noArea
  /-- "Error: File not found in BMFS." -/
  | notFound
  /-- "Not enough reserved space in BMFS." -/
  | noSpace
  /-- The bytes of the local file that was written. -/
  | contents (file : List UInt8)
  /-- The lines: name, size and reserved MiB. -/
  | listing (lines : List (List UInt8 × Nat × Nat))
deriving DecidableEq

/-- The blocks that `create` asks for. -/
def blocksOf (maxsize : Nat) : Nat := (if maxsize % 2 ≠ 0 then maxsize + 1 else maxsize) / 2

/-- The loop of `list`. -/
def listFrom : List BMFSEntry → List (List UInt8 × Nat × Nat)
  | [] => []
  | entry :: rest =>
      if entry.firstByte = 0 then []
      else if entry.firstByte = 1 then listFrom rest
      else (entry.fileName, entry.fileSize, entry.reservedBlocks * 2 % 2 ^ 64) :: listFrom rest

/-- What `main` reads into `Directory`. -/
def Disk.directory (disk : Disk) (i : Nat) : UInt8 := disk.bytes (4096 + i)

/-- `Directory` is written to the disk. -/
def Disk.flush (disk : Disk) (directory : Nat → UInt8) : Disk := disk.write 4096 directory 4096

/-- `disksize / 2`.  The size in MiB is an `unsigned int`. -/
def Disk.numBlocks (disk : Disk) : Nat := disk.size / 1048576 % 2 ^ 32 / 2

/-- Where a file begins on the disk. -/
def BMFSEntry.offset (entry : BMFSEntry) : Nat := entry.startingBlock * blockSize % 2 ^ 64

/-- The bytes that `read` takes from the disk. -/
def Disk.contents (disk : Disk) (entry : BMFSEntry) : List UInt8 :=
  (List.range entry.fileSize).map fun tint => disk.getc (entry.offset + tint)

/-- `fs_tag` -/
def fsTag : List UInt8 := [66, 77, 70, 83]

/-- `format` -/
def format (disk : Disk) : Disk :=
  (disk.write 1024 (fun i => fsTag.getD i 0) 512).flush fun _ => 0

/-- `create`, when the directory has no file of this name. -/
def createNew (qsort : List BMFSEntry → List BMFSEntry) (disk : Disk) (filename : CString)
    (blocksRequested : Nat) : Reply × Disk :=
  match countEntries 0 none (table disk.directory) with
  | (_, none) => (.noEntry, disk)
  | (numUsedEntries, some firstFreeEntry) =>
      let dirCopy := qsort ((table disk.directory).take numUsedEntries)
      let newFileStart := findArea blocksRequested disk.numBlocks 1 dirCopy
      if newFileStart = 0 then (.noArea, disk)
      else
        let directory :=
          addEntry disk.directory firstFreeEntry newFileStart blocksRequested filename
        let directory :=
          if firstFreeEntry = numUsedEntries ∧ numUsedEntries + 1 < 64 then
            markEntry directory (numUsedEntries + 1) 0
          else directory
        (.complete, disk.flush directory)

/-- `create` -/
def create (qsort : List BMFSEntry → List BMFSEntry) (disk : Disk) (filename : CString)
    (maxsize : Nat) : Reply × Disk :=
  match findfile filename disk.directory with
  | some _ => (.fileExists, disk)
  | none => createNew qsort disk filename (blocksOf maxsize)

/-- `read` -/
def read (disk : Disk) (filename : CString) : Reply :=
  match findfile filename disk.directory with
  | none => .notFound
  | some (_, tempentry) => .contents (disk.contents tempentry)

/-- `write`, with the bytes of the local file -/
def write (disk : Disk) (filename : CString) (tfile : List UInt8) : Reply × Disk :=
  match findfile filename disk.directory with
  | none => (.notFound, disk)
  | some (slot, tempentry) =>
      if tempentry.reservedBlocks * blockSize % 2 ^ 64 < tfile.length then (.noSpace, disk)
      else
        let directory := store disk.directory (64 * slot + 48) tfile.length 8
        (.complete,
          (disk.write tempentry.offset (fun i => tfile.getD i 0) tfile.length).flush directory)

/-- `delete` -/
def delete (disk : Disk) (filename : CString) : Reply × Disk :=
  match findfile filename disk.directory with
  | none => (.notFound, disk)
  | some (slot, _) => (.complete, disk.flush (markEntry disk.directory slot 1))

/-- A call of the tool. -/
inductive Command where
  | list
  /-- With `/FORCE` or without. -/
  | format (force : Bool)
  /-- With the size in MiB. -/
  | create (filename : CString) (filesize : Int32)
  | read (filename : CString)
  /-- With the bytes of the local file. -/
  | write (filename : CString) (tfile : List UInt8)
  | delete (filename : CString)

/-- `tolower` -/
def tolower (c : UInt8) : UInt8 := if 65 ≤ c ∧ c ≤ 90 then c + 32 else c

/-- `strcasecmp(DiskInfo, fs_tag) == 0` -/
def Disk.Tagged (disk : Disk) : Prop :=
  (readString disk.bytes 1024 512).map tolower = fsTag.map tolower

instance (disk : Disk) : Decidable disk.Tagged := inferInstanceAs (Decidable (_ = _))

/-- `main`: what it replies, and the disk. -/
def main (qsort : List BMFSEntry → List BMFSEntry) (disk : Disk) (command : Command) :
    Reply × Disk :=
  if disk.Tagged then
    match command with
    | .list => (.listing (listFrom (table disk.directory)), disk)
    | .format true => (.complete, Bmfs.format disk)
    | .format false => (.aborted, disk)
    | .create filename filesize =>
        if 1 ≤ filesize.toInt then Bmfs.create qsort disk filename filesize.toInt.toNat
        else (.invalidSize, disk)
    | .read filename => (Bmfs.read disk filename, disk)
    | .write filename tfile => Bmfs.write disk filename tfile
    | .delete filename => Bmfs.delete disk filename
  else
    match command with
    | .format _ => (.complete, Bmfs.format disk)
    | _ => (.notFormatted, disk)

end Bmfs

end TPE
