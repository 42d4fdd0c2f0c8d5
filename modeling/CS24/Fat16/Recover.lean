import CS24.Fat16.DirectoryTree

/-!
# Walking the directories of a disk image

`fat16.c` and `recover.c`.  A disk image is a file of bytes.  `follow` reads one
record after the other, adds a node for each that is not hidden, walks into
subdirectories, and stops at the end of the directory.  It may walk in circles, so
`fuel` bounds its turns.  Besides the children of the directory it returns the
positions of the records it read, which the C code does not keep.
-/

namespace Fat16

/-- A disk image; positions in it fit a `long`. -/
structure Disk where
  bytes : List UInt8
  length_lt : bytes.length < 2 ^ 63

/-- The fields of a `bios_parameter_block_t` that the walk uses. -/
structure BiosParameterBlock where
  bytesPerSector : Nat
  sectorsPerCluster : Nat
  reservedSectors : Nat
  numFats : Nat
  maxRootEntries : Nat
  sectorsPerFat : Nat

/-- A `directory_entry_t`, as far as the walk uses it. -/
structure DirectoryEntry where
  filename : List UInt8
  extension : List UInt8
  «attribute» : UInt8
  firstCluster : Nat
  fileSize : Nat

namespace Disk

variable (disk : Disk)

/-- `fread` of one item of `size` bytes; an item of no bytes counts as not read. -/
def fread (pos size : Nat) : Option (List UInt8) :=
  if 0 < size ∧ pos + size ≤ disk.bytes.length then some ((disk.bytes.drop pos).take size)
  else none

/-- A number of `k` bytes in a record, the low byte first. -/
def field (bytes : List UInt8) (offset k : Nat) : Nat :=
  Nat.ofDigits 256 (((bytes.drop offset).take k).map UInt8.toNat)

/-- The record at `pos`. -/
def readEntry (pos : Nat) : Option DirectoryEntry :=
  (disk.fread pos 32).map fun bytes =>
    { filename := bytes.take 8
      extension := (bytes.drop 8).take 3
      «attribute» := bytes.getD 11 0
      firstCluster := field bytes 26 2
      fileSize := field bytes 28 4 }

/-- The parameter block, at `MASTER_BOOT_RECORD_SIZE`. -/
def readBlock : Option BiosParameterBlock :=
  (disk.fread 0x20B 51).map fun bytes =>
    { bytesPerSector := field bytes 0 2
      sectorsPerCluster := field bytes 2 1
      reservedSectors := field bytes 3 2
      numFats := field bytes 5 1
      maxRootEntries := field bytes 6 2
      sectorsPerFat := field bytes 11 2 }

end Disk

/-- `get_root_directory_location` -/
def getRootDirectoryLocation (bpb : BiosParameterBlock) : Nat :=
  (1 + bpb.reservedSectors + bpb.numFats * bpb.sectorsPerFat) * bpb.bytesPerSector

/-- `get_offset_from_cluster`, a `size_t`; clusters 0 and 1 wrap around. -/
def getOffsetFromCluster (cluster : Nat) (bpb : BiosParameterBlock) : Nat :=
  (getRootDirectoryLocation bpb + bpb.maxRootEntries * 32 +
    (cluster + (2 ^ 64 - 2)) * bpb.sectorsPerCluster * bpb.bytesPerSector) % 2 ^ 64

namespace DirectoryEntry

variable (entry : DirectoryEntry)

/-- `is_directory` -/
def isDirectory : Bool := entry.«attribute» &&& 0x10 ≠ 0

/-- `is_hidden` -/
def isHidden : Bool :=
  entry.filename[0]? = some 46 ∨ entry.filename[1]? = some 46 ∨ entry.«attribute» = 0 ∨
    entry.«attribute» &&& (0x2 ||| 0x4 ||| 0x8) ≠ 0

/-- `get_file_name`, up to the first zero; `0xE5` marks a deleted file. -/
def getFileName : CString :=
  let filename := (entry.filename.takeWhile (· ≠ 32)).map fun c => if c = 0xE5 then 63 else c
  let extension := if entry.extension[0]? = some 32 then []
    else 46 :: entry.extension.takeWhile (· ≠ 32)
  (filename ++ extension).takeWhile (· ≠ 0)

end DirectoryEntry

/-- `fseek(disk, offset, SEEK_SET)` from `pos`; it fails if `offset` is no `long`. -/
def seek (pos offset : Nat) : Nat := if offset < 2 ^ 63 then offset else pos

/-- The records that an activation of `follow` reads, by their positions: the last one,
or one and then the rest; `into` is a record of a directory, whose own records come
first. -/
inductive Walk
  | stop (pos : Nat)
  | next (pos : Nat) (rest : Walk)
  | into (pos : Nat) (inner rest : Walk)
  deriving DecidableEq, Repr

/-- How `follow` ends: with the children of the directory, in a failed assertion, or not
within the fuel. -/
inductive Outcome
  | done (children : List Node) (walk : Walk)
  | abort
  | timeout

/-- The same end, after more records. -/
def Outcome.after (f : Walk → Walk) : Outcome → Outcome
  | done children walk => done children (f walk)
  | o => o

/-- `follow`, with the children of `node` so far.  A subdirectory is added to them
before the walk goes into it, and its place depends on its name alone. -/
def follow (disk : Disk) (bpb : BiosParameterBlock) : Nat → Nat → List Node → Outcome
  | 0, _, _ => .timeout
  | fuel + 1, pos, node =>
    match disk.readEntry pos with
    | none => .abort
    | some entry =>
      let location := pos + 32
      if entry.isHidden then (follow disk bpb fuel location node).after (.next pos)
      else
        let filename := entry.getFileName
        if filename = [] then .done node (.stop pos)
        else
          let offset := seek location (getOffsetFromCluster entry.firstCluster bpb)
          if entry.isDirectory then
            match follow disk bpb fuel offset [] with
            | .done children walk =>
              (follow disk bpb fuel location (addChild node (.directory filename children))).after
                (.into pos walk)
            | o => o
          else
            match disk.fread offset entry.fileSize with
            | none => .abort
            | some contents =>
              (follow disk bpb fuel location (addChild node (.file filename contents))).after
                (.next pos)

/-- `main`, up to the printing of the tree. -/
def recover (disk : Disk) (fuel : Nat) : Outcome :=
  match disk.readBlock with
  | none => .abort
  | some bpb => follow disk bpb fuel (getRootDirectoryLocation bpb) []

end Fat16
