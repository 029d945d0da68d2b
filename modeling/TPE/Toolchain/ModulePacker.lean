import TPE.Library.Records

/-!
# The module packer

`ModulePacker` puts the kernel and the modules into one file.  Behind the bytes of
the kernel it writes how many modules there are, and then the size and the bytes of
each of them.  A file is copied in pieces of `BUFFER_SIZE` bytes until `feof`.
-/

namespace TPE

open Records

namespace ModulePacker

/-- `BUFFER_SIZE` -/
abbrev bufferSize : Nat := 128

/-- `array_t`: the kernel file and the module files. -/
structure FileArray where
  kernel : List UInt8
  modules : List (List UInt8)
  /-- `length` is an `int`. -/
  length_lt : modules.length + 1 < 2 ^ 31

/-- `length` -/
def FileArray.length (fileArray : FileArray) : Nat := fileArray.modules.length + 1

/-- A file that is read: the bytes that are left, and whether a read has found its end. -/
structure Source where
  rest : List UInt8
  eof : Bool

/-- `fopen(file, "r")` -/
def fopen (file : List UInt8) : Source := ⟨file, false⟩

/-- `fread(buffer, 1, n, source)` -/
def fread (n : Nat) (source : Source) : List UInt8 × Source :=
  (source.rest.take n, ⟨source.rest.drop n, source.eof || decide (source.rest.length < n)⟩)

/-- `write_file`.  What is written is put behind `target`. -/
def writeFile (target : List UInt8) (source : Source) : List UInt8 :=
  if source.eof then target
  else writeFile (target ++ (fread bufferSize source).1) (fread bufferSize source).2
termination_by if source.eof then 0 else source.rest.length + 1
decreasing_by
  have hpos : 0 < bufferSize := by decide
  simp only [fread, List.length_drop, Bool.or_eq_true, decide_eq_true_eq]
  split
  · omega
  · omega

/-- `write_size` -/
def writeSize (target file : List UInt8) : List UInt8 :=
  target ++ number 4 (file.length % 2 ^ 32)

/-- `buildImage`.  The files can be opened, since `checkFiles` was called. -/
def buildImage (fileArray : FileArray) : List UInt8 :=
  fileArray.modules.foldl
    (fun target file => writeFile (writeSize target file) (fopen file))
    (writeFile [] (fopen fileArray.kernel) ++ number 4 (fileArray.length - 1))

/-- The whole file is copied. -/
theorem writeFile_rest (target rest : List UInt8) : writeFile target ⟨rest, false⟩ = target ++ rest := by
  induction hn : rest.length using Nat.strong_induction_on generalizing target rest with
  | _ n ih =>
      rw [writeFile, if_neg Bool.false_ne_true, fread]
      by_cases hlast : rest.length < bufferSize
      · -- the read finds the end of the file
        rw [writeFile, if_pos (by simp [hlast]), List.take_of_length_le (Nat.le_of_lt hlast)]
      · have hshort : (rest.drop bufferSize).length < n := by
          have hpos : 0 < bufferSize := by decide
          rw [List.length_drop]
          omega
        have heof : (false || decide (rest.length < bufferSize)) = false := by simp [hlast]
        rw [heof, ih _ hshort _ _ rfl, List.append_assoc, List.take_append_drop]

/-- The image is the kernel with the list of the modules behind it. -/
theorem buildImage_eq (fileArray : FileArray) (hsize : ∀ m ∈ fileArray.modules, m.length < 2 ^ 32) :
    buildImage fileArray = fileArray.kernel ++ records 4 fileArray.modules := by
  have hfold : ∀ (ms : List (List UInt8)) (target : List UInt8), (∀ m ∈ ms, m.length < 2 ^ 32) →
      ms.foldl (fun target file => writeFile (writeSize target file) (fopen file)) target =
        target ++ ms.flatMap (record 4) := by
    intro ms
    induction ms with
    | nil =>
        intro target _
        simp
    | cons m ms ih =>
        intro target hms
        rw [List.foldl_cons, ih _ fun m' hm' => hms m' (List.mem_cons_of_mem m hm'), fopen,
          writeFile_rest, writeSize, Nat.mod_eq_of_lt (hms m List.mem_cons_self), List.flatMap_cons,
          record, List.append_assoc, List.append_assoc, List.append_assoc]
  rw [buildImage, hfold _ _ hsize, fopen, writeFile_rest, List.nil_append, FileArray.length,
    Nat.add_sub_cancel, List.append_assoc, records]

end ModulePacker

end TPE
