import CS24.Fat16.CreatedTree
import CS24.Lib.Cursor

/-!
# Volumes

A volume is a tree of records with the contents of its files.  `Volume.encode` lays it out as a FAT16
image: the parameter block, the root directory, and then the files and directories one after the
other, each from the start of a cluster.  `recover` on that image makes the tree of the volume.

A directory ends with a record without a name that is not hidden; those that are zero altogether do
not end one for `follow`.
-/

namespace Fat16

open Cursor FileSystem SortedList

/-- What a directory holds.  The layout sets `firstCluster` and `fileSize` of the records. -/
inductive Item
  | hidden (entry : DirectoryEntry)
  | file (entry : DirectoryEntry) (contents : List UInt8)
  | directory (entry : DirectoryEntry) (items : List Item)

/-! ## The layout -/

/-- The clusters that so many bytes take. -/
def clustersFor (size length : Nat) : Nat := (length + size - 1) / size

/-- Zeros up to the end of the last cluster. -/
def pad (size : Nat) (bytes : List UInt8) : List UInt8 :=
  bytes ++ List.replicate (clustersFor size bytes.length * size - bytes.length) 0

mutual

/-- The clusters of an item and of what is below it. -/
def Item.clusters (size : Nat) : Item → Nat
  | .hidden _ => 0
  | .file _ contents => clustersFor size contents.length
  | .directory _ items => clustersFor size (32 * (items.length + 1)) + clustersOf size items

def clustersOf (size : Nat) : List Item → Nat
  | [] => 0
  | item :: items => item.clusters size + clustersOf size items

end

/-- The record of an item whose clusters begin with `first`. -/
def Item.record (first : Nat) : Item → DirectoryEntry
  | .hidden entry => entry
  | .file entry contents => { entry with firstCluster := first, fileSize := contents.length }
  | .directory entry _ => { entry with firstCluster := first }

/-- The records of the items, whose clusters are in order from `first` on. -/
def recordsOf (size first : Nat) : List Item → List DirectoryEntry
  | [] => []
  | item :: items => item.record first :: recordsOf size (first + item.clusters size) items

/-- The bytes of a directory. -/
def directoryBytes (stop : DirectoryEntry) (size first : Nat) (items : List Item) : List UInt8 :=
  (recordsOf size first items ++ [stop]).flatMap DirectoryEntry.encode

mutual

/-- What is in the clusters of an item: the contents of a file, or the records of a directory and
then what is below it. -/
def Item.data (stop : DirectoryEntry) (size first : Nat) : Item → List UInt8
  | .hidden _ => []
  | .file _ contents => pad size contents
  | .directory _ items =>
    let inside := first + clustersFor size (32 * (items.length + 1))
    pad size (directoryBytes stop size inside items) ++ dataOf stop size inside items

def dataOf (stop : DirectoryEntry) (size first : Nat) : List Item → List UInt8
  | [] => []
  | item :: items => item.data stop size first ++ dataOf stop size (first + item.clusters size) items

end

/-- The parameter block; the fields that nothing uses are 0. -/
def BiosParameterBlock.encode (bpb : BiosParameterBlock) : List UInt8 :=
  littleEndian 2 bpb.bytesPerSector ++ (littleEndian 1 bpb.sectorsPerCluster ++
    (littleEndian 2 bpb.reservedSectors ++ (littleEndian 1 bpb.numFats ++
      (littleEndian 2 bpb.maxRootEntries ++ (List.replicate 3 0 ++
        (littleEndian 2 bpb.sectorsPerFat ++ List.replicate 38 0))))))

/-- The bytes of a cluster. -/
def BiosParameterBlock.clusterSize (bpb : BiosParameterBlock) : Nat :=
  bpb.sectorsPerCluster * bpb.bytesPerSector

/-- A volume; `stop` is the record at the end of its directories. -/
structure Volume where
  bpb : BiosParameterBlock
  stop : DirectoryEntry
  items : List Item

/-- The image of a volume. -/
def Volume.encode (v : Volume) : List UInt8 :=
  List.replicate 0x20B 0 ++ (v.bpb.encode ++
    (List.replicate (getRootDirectoryLocation v.bpb - (0x20B + 51)) 0 ++
      (directoryBytes v.stop v.bpb.clusterSize 2 v.items ++
        (List.replicate (32 * v.bpb.maxRootEntries - 32 * (v.items.length + 1)) 0 ++
          dataOf v.stop v.bpb.clusterSize 2 v.items))))

/-! ## The tree of a volume -/

mutual

/-- The node of an item that is not hidden. -/
def Item.nodes : Item → List Node
  | .hidden _ => []
  | .file entry contents => [.file entry.getFileName contents]
  | .directory entry items => [.directory entry.getFileName (sort nameRank (nodesOf items))]

def nodesOf : List Item → List Node
  | [] => []
  | item :: items => item.nodes ++ nodesOf items

end

/-- The nodes of the root directory. -/
def Volume.tree (v : Volume) : List Node := sort nameRank (nodesOf v.items)

mutual

/-- The records are what FAT16 has for such items; a file has some contents. -/
def Item.Fits : Item → Prop
  | .hidden entry => entry.Typed ∧ entry.isHidden = true ∧ entry.isEnd = false
  | .file entry contents => entry.Typed ∧ entry.Kept ∧ entry.isDirectory = false ∧
      contents ≠ [] ∧ contents.length < 256 ^ 4
  | .directory entry items => entry.Typed ∧ entry.Kept ∧ entry.isDirectory = true ∧ ItemsFit items

def ItemsFit : List Item → Prop
  | [] => True
  | item :: items => item.Fits ∧ ItemsFit items

end

/-- The volume has the sizes that its parameter block allows, and a boot record. -/
structure Volume.Fits (v : Volume) : Prop where
  typed : v.bpb.Typed
  cluster : 0 < v.bpb.clusterSize
  boot : 0x20B + 51 ≤ getRootDirectoryLocation v.bpb
  root : v.items.length + 1 ≤ v.bpb.maxRootEntries
  stop : v.stop.Typed ∧ v.stop.isEnd = true ∧ v.stop.isHidden = false
  items : ItemsFit v.items
  clusters : 2 + clustersOf v.bpb.clusterSize v.items ≤ 2 ^ 16

/-! ## Sizes -/

section Sizes

variable {stop entry : DirectoryEntry} {bpb : BiosParameterBlock} {item : Item} {items : List Item}
  {size first length cluster : Nat} {bytes : List UInt8}

/-- The clusters for some bytes have room for them. -/
theorem le_clustersFor (h : 0 < size) : length ≤ clustersFor size length * size := by
  rw [clustersFor]
  have hdiv := Nat.div_add_mod (length + size - 1) size
  have hmod := Nat.mod_lt (length + size - 1) h
  rw [Nat.mul_comm] at hdiv
  omega

/-- Some bytes need a cluster. -/
theorem clustersFor_pos (h : 0 < size) (hlength : 0 < length) : 0 < clustersFor size length := by
  have hle : length ≤ clustersFor size length * size := le_clustersFor h
  exact Nat.pos_of_mul_pos_right (Nat.lt_of_lt_of_le hlength hle)

/-- Padded bytes fill their clusters. -/
theorem pad_length (h : 0 < size) : (pad size bytes).length = clustersFor size bytes.length * size := by
  have hle : bytes.length ≤ clustersFor size bytes.length * size := le_clustersFor h
  rw [pad, List.length_append, List.length_replicate]
  omega

/-- Each item has a record. -/
theorem recordsOf_length : ∀ (items : List Item) (first : Nat),
    (recordsOf size first items).length = items.length
  | [], first => rfl
  | item :: items, first => by rw [recordsOf, List.length_cons, recordsOf_length items, List.length_cons]

/-- A record that is not hidden has a cluster. -/
theorem record_typed (hsize : 0 < size) (h : item.Fits) (hclusters : first + item.clusters size ≤ 2 ^ 16) :
    (item.record first).Typed := by
  cases item with
  | hidden entry => exact h.1
  | file entry contents =>
      obtain ⟨htyped, -, -, hne, hlength⟩ := h
      have hpos : 0 < clustersFor size contents.length :=
        clustersFor_pos hsize (List.length_pos_iff.mpr hne)
      rw [Item.clusters] at hclusters
      exact ⟨htyped.filename, htyped.extension, by dsimp only [Item.record]; omega, hlength⟩
  | directory entry items =>
      rw [Item.Fits] at h
      have hpos : 0 < clustersFor size (32 * (items.length + 1)) := clustersFor_pos hsize (by omega)
      rw [Item.clusters] at hclusters
      exact ⟨h.1.filename, h.1.extension, by dsimp only [Item.record]; omega, h.1.fileSize⟩

/-- The records of a volume that fits have fields of the right sizes. -/
theorem records_typed (hsize : 0 < size) : ∀ (items : List Item) (first : Nat), ItemsFit items →
    first + clustersOf size items ≤ 2 ^ 16 → ∀ e ∈ recordsOf size first items, e.Typed
  | [], first, _, _ => fun e he => absurd he List.not_mem_nil
  | item :: items, first, hfit, hclusters => by
      rw [ItemsFit] at hfit
      rw [clustersOf] at hclusters
      intro e he
      rcases List.mem_cons.mp he with rfl | he
      · exact record_typed hsize hfit.1 (by omega)
      · exact records_typed hsize items _ hfit.2 (by omega) e he

/-- A directory has a record for each item, and one for its end. -/
theorem directoryBytes_length (hsize : 0 < size) (hstop : stop.Typed) (hfit : ItemsFit items)
    (hclusters : first + clustersOf size items ≤ 2 ^ 16) :
    (directoryBytes stop size first items).length = 32 * (items.length + 1) := by
  rw [directoryBytes, flatMap_encode_length, List.length_append, recordsOf_length, List.length_singleton]
  intro e he
  rcases List.mem_append.mp he with he | he
  · exact records_typed hsize items first hfit hclusters e he
  · rwa [List.mem_singleton.mp he]

mutual

/-- What is in the clusters fills them. -/
theorem data_length (hsize : 0 < size) (hstop : stop.Typed) : ∀ (item : Item) (first : Nat), item.Fits →
    first + item.clusters size ≤ 2 ^ 16 →
    (item.data stop size first).length = item.clusters size * size
  | .hidden entry, first, _, _ => by rw [Item.data, Item.clusters, Nat.zero_mul, List.length_nil]
  | .file entry contents, first, _, _ => by rw [Item.data, Item.clusters, pad_length hsize]
  | .directory entry items, first, hfit, hclusters => by
      rw [Item.Fits] at hfit
      rw [Item.clusters] at hclusters
      obtain ⟨-, -, -, hfit⟩ := hfit
      rw [Item.data, Item.clusters, List.length_append, pad_length hsize,
        directoryBytes_length hsize hstop hfit (by omega),
        dataOf_length hsize hstop items _ hfit (by omega), Nat.add_mul]

/-- The data of some items fill their clusters. -/
theorem dataOf_length (hsize : 0 < size) (hstop : stop.Typed) : ∀ (items : List Item) (first : Nat),
    ItemsFit items → first + clustersOf size items ≤ 2 ^ 16 →
    (dataOf stop size first items).length = clustersOf size items * size
  | [], first, _, _ => by rw [dataOf, clustersOf, Nat.zero_mul, List.length_nil]
  | item :: items, first, hfit, hclusters => by
      rw [ItemsFit] at hfit
      rw [clustersOf] at hclusters
      rw [dataOf, clustersOf, List.length_append, data_length hsize hstop item first hfit.1 (by omega),
        dataOf_length hsize hstop items _ hfit.2 (by omega), Nat.add_mul]

end

/-- Where a cluster is. -/
def BiosParameterBlock.offset (bpb : BiosParameterBlock) (cluster : Nat) : Nat :=
  getRootDirectoryLocation bpb + bpb.maxRootEntries * 32 + (cluster - 2) * bpb.clusterSize

/-- The root directory lies at an offset that is not too large, -/
theorem root_le (hbpb : bpb.Typed) : getRootDirectoryLocation bpb ≤ 2 ^ 41 := by
  have hfats : bpb.numFats * bpb.sectorsPerFat ≤ 2 ^ 8 * 2 ^ 16 :=
    Nat.mul_le_mul hbpb.numFats.le hbpb.sectorsPerFat.le
  have hreserved := hbpb.reservedSectors
  have hroot : (1 + bpb.reservedSectors + bpb.numFats * bpb.sectorsPerFat) * bpb.bytesPerSector ≤
      2 ^ 25 * 2 ^ 16 := Nat.mul_le_mul (by omega) hbpb.bytesPerSector.le
  exact hroot

/-- clusters are not too large, -/
theorem clusterSize_le (hbpb : bpb.Typed) : bpb.clusterSize ≤ 2 ^ 24 := by
  have hcluster : bpb.sectorsPerCluster * bpb.bytesPerSector ≤ 2 ^ 8 * 2 ^ 16 :=
    Nat.mul_le_mul hbpb.sectorsPerCluster.le hbpb.bytesPerSector.le
  exact hcluster

/-- and so no cluster lies behind what a `long` can address. -/
theorem offset_lt (hbpb : bpb.Typed) (hhigh : cluster ≤ 2 ^ 16) : bpb.offset cluster < 2 ^ 63 := by
  have hroot := root_le hbpb
  have hentries := hbpb.maxRootEntries
  have hdata : (cluster - 2) * bpb.clusterSize ≤ 2 ^ 16 * 2 ^ 24 :=
    Nat.mul_le_mul (by omega) (clusterSize_le hbpb)
  rw [BiosParameterBlock.offset]
  omega

/-- The offsets of the clusters of an image. -/
theorem getOffsetFromCluster_eq (hbpb : bpb.Typed) (hlow : 2 ≤ cluster) (hhigh : cluster ≤ 2 ^ 16) :
    getOffsetFromCluster cluster bpb = bpb.offset cluster := by
  have hoffset : bpb.offset cluster < 2 ^ 63 := offset_lt hbpb hhigh
  have hwrap : (cluster + (2 ^ 64 - 2)) * bpb.sectorsPerCluster * bpb.bytesPerSector =
      (cluster - 2) * bpb.clusterSize + 2 ^ 64 * bpb.clusterSize := by
    have hsplit : cluster + (2 ^ 64 - 2) = cluster - 2 + 2 ^ 64 := by omega
    rw [hsplit, Nat.mul_assoc, Nat.add_mul, BiosParameterBlock.clusterSize]
  rw [getOffsetFromCluster, hwrap, ← Nat.add_assoc, Nat.add_mul_mod_self_left]
  exact Nat.mod_eq_of_lt (by rw [BiosParameterBlock.offset] at hoffset; omega)

/-- Clusters lie one behind the other. -/
theorem offset_add (hlow : 2 ≤ cluster) :
    bpb.offset (cluster + length) = bpb.offset cluster + length * bpb.clusterSize := by
  have hsub : cluster + length - 2 = cluster - 2 + length := by omega
  rw [BiosParameterBlock.offset, BiosParameterBlock.offset, hsub, Nat.add_mul]
  omega

end Sizes

/-! ## What is read from an image -/

section Reading

variable {disk : Disk} {bpb : BiosParameterBlock} {stop entry : DirectoryEntry} {bytes : List UInt8}
  {pos : Nat}

/-- What lies at a place is read there. -/
theorem fread_lies (h : Lies disk.bytes bytes pos) (hne : bytes ≠ []) :
    disk.fread pos bytes.length = some bytes := by
  obtain ⟨rest, hrest⟩ := h
  have hsplit : disk.bytes = disk.bytes.take pos ++ (bytes ++ rest) := by
    rw [hrest, List.take_append_drop]
  refine fread_append (disk.bytes.take pos) rest hsplit ?_ hne
  have hlength := congrArg List.length hrest
  have hpos := List.length_pos_iff.mpr hne
  rw [List.length_append, List.length_drop] at hlength
  rw [List.length_take]
  omega

/-- A record that lies on the disk is read. -/
theorem readEntry_lies (h : Lies disk.bytes entry.encode pos) (htyped : entry.Typed) :
    disk.readEntry pos = some entry := by
  obtain ⟨rest, hrest⟩ := h
  have hsplit : disk.bytes = disk.bytes.take pos ++ (entry.encode ++ rest) := by
    rw [hrest, List.take_append_drop]
  refine readEntry_append (disk.bytes.take pos) rest hsplit ?_ htyped
  have hlength := congrArg List.length hrest
  have hencode := encode_length htyped
  rw [List.length_append, List.length_drop] at hlength
  rw [List.length_take]
  omega

/-- What is padded lies there without the padding. -/
theorem lies_pad {size : Nat} (h : Lies disk.bytes (pad size bytes) pos) : Lies disk.bytes bytes pos :=
  (lies_append.mp h).1

/-- The records of a directory and its end. -/
theorem directoryBytes_nil (size first : Nat) : directoryBytes stop size first [] = stop.encode := by
  rw [directoryBytes, recordsOf, List.nil_append, List.flatMap_cons, List.flatMap_nil, List.append_nil]

/-- The first record of a directory, and the others. -/
theorem directoryBytes_cons (size first : Nat) (item : Item) (items : List Item) :
    directoryBytes stop size first (item :: items) = (item.record first).encode ++
      directoryBytes stop size (first + item.clusters size) items := by
  rw [directoryBytes, recordsOf, List.cons_append, List.flatMap_cons, directoryBytes]

/-- A directory with all that is below it. -/
structure Laid (disk : Disk) (bpb : BiosParameterBlock) (stop : DirectoryEntry) (first pos : Nat)
    (items : List Item) : Prop where
  records : Lies disk.bytes (directoryBytes stop bpb.clusterSize first items) pos
  data : Lies disk.bytes (dataOf stop bpb.clusterSize first items) (bpb.offset first)
  low : 2 ≤ first
  high : first + clustersOf bpb.clusterSize items ≤ 2 ^ 16

section Laid

variable {first : Nat} {item : Item} {items : List Item}

/-- The clusters of what is laid out have numbers of two bytes. -/
theorem Laid.fits (h : Laid disk bpb stop first pos (item :: items)) :
    first + item.clusters bpb.clusterSize + clustersOf bpb.clusterSize items ≤ 2 ^ 16 := by
  have hhigh := h.high
  rw [clustersOf] at hhigh
  omega

/-- The record of the first item is read, -/
theorem Laid.read (hcluster : 0 < bpb.clusterSize) (hfit : item.Fits)
    (h : Laid disk bpb stop first pos (item :: items)) : disk.readEntry pos = some (item.record first) := by
  have hfits := h.fits
  have hrecords := h.records
  rw [directoryBytes_cons] at hrecords
  exact readEntry_lies (lies_append.mp hrecords).1 (record_typed hcluster hfit (by omega))

/-- What is in the clusters of the first item. -/
theorem Laid.own (h : Laid disk bpb stop first pos (item :: items)) :
    Lies disk.bytes (item.data stop bpb.clusterSize first) (bpb.offset first) := by
  have hdata := h.data
  rw [dataOf] at hdata
  exact (lies_append.mp hdata).1

/-- and the other items are laid out behind it. -/
theorem Laid.rest (hcluster : 0 < bpb.clusterSize) (hstop : stop.Typed) (hfit : item.Fits)
    (h : Laid disk bpb stop first pos (item :: items)) :
    Laid disk bpb stop (first + item.clusters bpb.clusterSize) (pos + 32) items := by
  have hfits := h.fits
  have hrecords := h.records
  have hdata := h.data
  rw [directoryBytes_cons, lies_append, encode_length (record_typed hcluster hfit (by omega))] at hrecords
  rw [dataOf, lies_append, data_length hcluster hstop item first hfit (by omega), ← offset_add h.low] at hdata
  exact ⟨hrecords.2, hdata.2, Nat.le_add_right_of_le h.low, hfits⟩

/-- What is in the clusters of a directory. -/
theorem Laid.inside {inner : List Item} (hcluster : 0 < bpb.clusterSize) (hstop : stop.Typed)
    (hfit : Item.Fits (.directory entry inner))
    (h : Laid disk bpb stop first pos (.directory entry inner :: items)) :
    Laid disk bpb stop (first + clustersFor bpb.clusterSize (32 * (inner.length + 1))) (bpb.offset first)
      inner := by
  have hfits := h.fits
  have hown := h.own
  rw [Item.Fits] at hfit
  rw [Item.clusters] at hfits
  rw [Item.data, lies_append, pad_length hcluster,
    directoryBytes_length hcluster hstop hfit.2.2.2 (by omega), ← offset_add h.low] at hown
  exact ⟨lies_pad hown.1, hown.2, Nat.le_add_right_of_le h.low, by omega⟩

end Laid

/-- **The walk over a directory of an image.** By induction on the items. -/
theorem follow_items (hbpb : bpb.Typed) (hcluster : 0 < bpb.clusterSize)
    (hstop : stop.Typed ∧ stop.isEnd = true ∧ stop.isHidden = false) :
    ∀ (items : List Item) (first pos : Nat), ItemsFit items → Laid disk bpb stop first pos items →
    ∃ fuel, ∀ node, ∃ walk,
      follow disk bpb fuel pos node = .done ((nodesOf items).foldl addChild node) walk
  | [], first, pos, _, hlaid => by
      have hrecord := hlaid.records
      rw [directoryBytes_nil] at hrecord
      have hread := readEntry_lies hrecord hstop.1
      have hname := DirectoryEntry.getFileName_of_isEnd hstop.2.1
      exact ⟨1, fun node => ⟨_, Turns.follow hread (.stop hstop.2.2 hname rfl rfl)⟩⟩
  | .hidden entry :: items, first, pos, hfit, hlaid => by
      rw [ItemsFit] at hfit
      have hread := hlaid.read hcluster hfit.1
      obtain ⟨fuel, hrest⟩ := follow_items hbpb hcluster hstop items _ _ hfit.2
        (hlaid.rest hcluster hstop.1 hfit.1)
      refine ⟨fuel + 1, fun node => ?_⟩
      obtain ⟨walk, hrest⟩ := hrest node
      exact ⟨_, Turns.follow hread (.hidden hfit.1.2.1 hrest rfl)⟩
  | .file entry contents :: items, first, pos, hfit, hlaid => by
      rw [ItemsFit] at hfit
      obtain ⟨-, hkept, hfile, hne, -⟩ := hfit.1
      have hread := hlaid.read hcluster hfit.1
      have hfits := hlaid.fits
      obtain ⟨fuel, hrest⟩ := follow_items hbpb hcluster hstop items _ _ hfit.2
        (hlaid.rest hcluster hstop.1 hfit.1)
      have hcontents : disk.fread (bpb.offset first) contents.length = some contents :=
        fread_lies (lies_pad hlaid.own) hne
      rw [← getOffsetFromCluster_eq hbpb hlaid.low (by omega)] at hcontents
      have hseek : seek (pos + 32) (getOffsetFromCluster first bpb) = getOffsetFromCluster first bpb :=
        if_pos (Disk.fread_lt hcontents).2
      rw [← hseek] at hcontents
      refine ⟨fuel + 1, fun node => ?_⟩
      obtain ⟨walk, hrest⟩ := hrest (addChild node (.file entry.getFileName contents))
      exact ⟨_, Turns.follow hread (.file hkept.1 hkept.2 hfile hcontents hrest rfl)⟩
  | .directory entry inner :: items, first, pos, hfit, hlaid => by
      rw [ItemsFit] at hfit
      have hinside := hlaid.inside hcluster hstop.1 hfit.1
      obtain ⟨-, hkept, hdirectory, hinner⟩ := hfit.1
      have hread := hlaid.read hcluster hfit.1
      have hfits := hlaid.fits
      obtain ⟨fuel₁, hfollow₁⟩ := follow_items hbpb hcluster hstop inner _ _ hinner hinside
      obtain ⟨fuel₂, hfollow₂⟩ := follow_items hbpb hcluster hstop items _ _ hfit.2
        (hlaid.rest hcluster hstop.1 hfit.1)
      obtain ⟨walk₁, hfollow₁⟩ := hfollow₁ []
      have hlow : bpb.offset first < 2 ^ 63 := offset_lt hbpb (by omega)
      have hseek : seek (pos + 32) (getOffsetFromCluster first bpb) = bpb.offset first := by
        rw [getOffsetFromCluster_eq hbpb hlaid.low (by omega), seek, if_pos hlow]
      refine ⟨max fuel₁ fuel₂ + 1, fun node => ?_⟩
      obtain ⟨walk₂, hfollow₂⟩ := hfollow₂ (addChild node
        (.directory entry.getFileName (sort nameRank (nodesOf inner))))
      have hfollow₁ := follow_mono hfollow₁ (le_max_left fuel₁ fuel₂)
      have hfollow₂ := follow_mono hfollow₂ (le_max_right fuel₁ fuel₂)
      rw [← hseek, foldl_addChild] at hfollow₁
      exact ⟨_, Turns.follow hread (.directory hkept.1 hkept.2 hdirectory hfollow₁ hfollow₂ rfl)⟩

end Reading

/-! ## The program -/

/-- `main` of `recover.c`, in the directory `cwd`: what is printed and the file system afterwards;
`none` is a failed assertion, or not enough fuel. -/
def recoverMain (disk : Disk) (fuel : Nat) (cwd : Place) (files : Files) : Option (List UInt8 × Files) :=
  match recover disk fuel with
  | .done children _ => do
    let files ← runCalls cwd files (createDirectoryTree (root children))
    some (printDirectoryTree (root children), files)
  | _ => none

section Program

variable {v : Volume} {cwd : Place} {files : Files}

/-- A parameter block has 51 bytes. -/
theorem block_length (bpb : BiosParameterBlock) : bpb.encode.length = 51 := by
  simp only [BiosParameterBlock.encode, List.length_append, littleEndian_length, List.length_replicate]

/-- The parameter block is read back. -/
theorem readBlock_encode {disk : Disk} {bpb : BiosParameterBlock} (hbpb : bpb.Typed)
    (h : Lies disk.bytes bpb.encode 0x20B) : disk.readBlock = some bpb := by
  have hne : bpb.encode ≠ [] := fun hnil => by
    have hlength := block_length bpb
    rw [hnil] at hlength
    cases hlength
  have hread : disk.fread 0x20B 51 = some bpb.encode := by
    rw [← block_length bpb]
    exact fread_lies h hne
  have hfield : ∀ (front rest : List UInt8) (offset k n : Nat),
      bpb.encode = front ++ (littleEndian k n ++ rest) → front.length = offset → n < 256 ^ k →
      Disk.field bpb.encode offset k = n := by
    rintro front rest _ k n hbytes rfl hn
    rw [Disk.field, hbytes, List.drop_left, List.take_left' littleEndian_length, ofDigits_littleEndian,
      Nat.mod_eq_of_lt hn]
  have h0 := hfield [] _ 0 2 bpb.bytesPerSector rfl rfl hbpb.bytesPerSector
  have h2 := hfield (littleEndian 2 bpb.bytesPerSector) _ 2 1 bpb.sectorsPerCluster rfl rfl
    hbpb.sectorsPerCluster
  have h3 := hfield (littleEndian 2 bpb.bytesPerSector ++ littleEndian 1 bpb.sectorsPerCluster) _ 3 2
    bpb.reservedSectors (by simp only [BiosParameterBlock.encode, List.append_assoc]; rfl) rfl
      hbpb.reservedSectors
  have h5 := hfield (littleEndian 2 bpb.bytesPerSector ++ (littleEndian 1 bpb.sectorsPerCluster ++
    littleEndian 2 bpb.reservedSectors)) _ 5 1 bpb.numFats
    (by simp only [BiosParameterBlock.encode, List.append_assoc]; rfl) rfl hbpb.numFats
  have h6 := hfield (littleEndian 2 bpb.bytesPerSector ++ (littleEndian 1 bpb.sectorsPerCluster ++
    (littleEndian 2 bpb.reservedSectors ++ littleEndian 1 bpb.numFats))) _ 6 2 bpb.maxRootEntries
    (by simp only [BiosParameterBlock.encode, List.append_assoc]; rfl) rfl hbpb.maxRootEntries
  have h11 := hfield (littleEndian 2 bpb.bytesPerSector ++ (littleEndian 1 bpb.sectorsPerCluster ++
    (littleEndian 2 bpb.reservedSectors ++ (littleEndian 1 bpb.numFats ++
      (littleEndian 2 bpb.maxRootEntries ++ List.replicate 3 0))))) _ 11 2 bpb.sectorsPerFat
    (by simp only [BiosParameterBlock.encode, List.append_assoc]; rfl) rfl hbpb.sectorsPerFat
  rw [Disk.readBlock, hread, Option.map_some, h0, h2, h3, h5, h6, h11]

/-- The size of a volume. -/
theorem encode_volume_length (h : v.Fits) : v.encode.length = getRootDirectoryLocation v.bpb +
    32 * v.bpb.maxRootEntries + clustersOf v.bpb.clusterSize v.items * v.bpb.clusterSize := by
  have hboot := h.boot
  have hroot := h.root
  rw [Volume.encode]
  simp only [List.length_append, List.length_replicate, block_length,
    directoryBytes_length h.cluster h.stop.1 h.items h.clusters,
    dataOf_length h.cluster h.stop.1 v.items 2 h.items h.clusters]
  omega

/-- A volume that fits can be addressed with a `long`. -/
theorem Volume.Fits.length_lt (h : v.Fits) : v.encode.length < 2 ^ 63 := by
  have hclusters := h.clusters
  have hroot := root_le h.typed
  have hentries := h.typed.maxRootEntries
  have hdata : clustersOf v.bpb.clusterSize v.items * v.bpb.clusterSize ≤ 2 ^ 16 * 2 ^ 24 :=
    Nat.mul_le_mul (by omega) (clusterSize_le h.typed)
  rw [encode_volume_length h]
  omega

/-- The image as a file. -/
def Volume.disk (v : Volume) (h : v.Fits) : Disk := ⟨v.encode, h.length_lt⟩

/-- What is written somewhere lies there. -/
theorem lies_self {bytes rest : List UInt8} (front : List UInt8) :
    Lies (front ++ (bytes ++ rest)) bytes front.length := by
  rw [Lies, List.drop_left]
  exact List.prefix_append _ _

/-- The root directory and what is below it. -/
theorem Volume.laid (h : v.Fits) :
    Laid (v.disk h) v.bpb v.stop 2 (getRootDirectoryLocation v.bpb) v.items := by
  have hboot := h.boot
  have hroot := h.root
  have hbytes : (v.disk h).bytes = v.encode := rfl
  refine ⟨?_, ?_, le_refl 2, h.clusters⟩
  · have hlies := @lies_self (directoryBytes v.stop v.bpb.clusterSize 2 v.items)
      (List.replicate (32 * v.bpb.maxRootEntries - 32 * (v.items.length + 1)) 0 ++
        dataOf v.stop v.bpb.clusterSize 2 v.items)
      (List.replicate 0x20B 0 ++ (v.bpb.encode ++
        List.replicate (getRootDirectoryLocation v.bpb - (0x20B + 51)) 0))
    simp only [List.append_assoc, List.length_append, List.length_replicate, block_length] at hlies
    rw [hbytes, Volume.encode]
    convert hlies using 1
    omega
  · have hlies := @lies_self (dataOf v.stop v.bpb.clusterSize 2 v.items) []
      (List.replicate 0x20B 0 ++ (v.bpb.encode ++
        (List.replicate (getRootDirectoryLocation v.bpb - (0x20B + 51)) 0 ++
          (directoryBytes v.stop v.bpb.clusterSize 2 v.items ++
            List.replicate (32 * v.bpb.maxRootEntries - 32 * (v.items.length + 1)) 0))))
    simp only [List.append_assoc, List.length_append, List.length_replicate, block_length, List.append_nil,
      directoryBytes_length h.cluster h.stop.1 h.items h.clusters] at hlies
    rw [hbytes, Volume.encode]
    convert hlies using 1
    rw [BiosParameterBlock.offset]
    omega

/-- **The tree of a volume.** `recover` returns it from the image. -/
theorem recover_volume (h : v.Fits) :
    ∃ enough walk, ∀ fuel, enough ≤ fuel → recover (v.disk h) fuel = .done v.tree walk := by
  have hblock : Lies (v.disk h).bytes v.bpb.encode 0x20B := by
    have hlies := @lies_self v.bpb.encode (List.replicate (getRootDirectoryLocation v.bpb - (0x20B + 51)) 0 ++
      (directoryBytes v.stop v.bpb.clusterSize 2 v.items ++
        (List.replicate (32 * v.bpb.maxRootEntries - 32 * (v.items.length + 1)) 0 ++
          dataOf v.stop v.bpb.clusterSize 2 v.items))) (List.replicate 0x20B 0)
    rw [List.length_replicate] at hlies
    exact hlies
  obtain ⟨enough, hfollow⟩ := follow_items h.typed h.cluster h.stop v.items 2
    (getRootDirectoryLocation v.bpb) h.items (Volume.laid h)
  obtain ⟨walk, hfollow⟩ := hfollow []
  refine ⟨enough, walk, fun fuel hfuel => ?_⟩
  rw [recover, readBlock_encode h.typed hblock]
  dsimp only
  rw [follow_mono hfollow hfuel, foldl_addChild, Volume.tree]

/-- **Recovery.** On the image of a volume, in a directory without an entry `ROOT`, the program
prints the tree of the volume and makes it: its directories, and its files with their contents,
those included whose records are marked as deleted.  The rest of the file system stays. -/
theorem recoverMain_volume (h : v.Fits) (hnames : Nameable v.tree) (hcwd : files cwd = some .directory)
    (hnew : ∀ r, files (r ++ ROOT :: cwd) = none) :
    ∃ enough files', (∀ fuel, enough ≤ fuel → recoverMain (v.disk h) fuel cwd files =
        some (printDirectoryTree (root v.tree), files')) ∧
      files' (ROOT :: cwd) = some .directory ∧
      (∀ spot ∈ spotsOf v.tree, files' (spot.place (ROOT :: cwd)) = some spot.entry) ∧
      ∀ q, q ≠ ROOT :: cwd → (∀ spot ∈ spotsOf v.tree, q ≠ spot.place (ROOT :: cwd)) →
        files' q = files q := by
  obtain ⟨enough, walk, hrecover⟩ := recover_volume h
  obtain ⟨files', hrun, hcreated⟩ := createDirectoryTree_runs hnames hcwd hnew
  refine ⟨enough, files', ?_, ?_, ?_, ?_⟩
  · intro fuel hfuel
    rw [recoverMain, hrecover fuel hfuel]
    dsimp only
    rw [hrun]
    rfl
  · exact hcreated.there _ List.mem_cons_self
  · intro spot hspot
    have hthere := hcreated.there _ (List.mem_cons_of_mem _ (List.mem_map_of_mem hspot))
    rwa [under_place] at hthere
  · intro q hroot hq
    refine hcreated.other q fun spot hspot => ?_
    rcases List.mem_cons.mp hspot with rfl | hspot
    · exact hroot
    · obtain ⟨inner, hinner, rfl⟩ := List.mem_map.mp hspot
      rw [under_place]
      exact hq inner hinner

end Program

/-- A record with this name; the attribute says whether it is of a directory. -/
def namedEntry (name : List UInt8) (attr : UInt8) : DirectoryEntry :=
  ⟨name ++ List.replicate (8 - name.length) 32, List.replicate 3 32, attr, 0, 0⟩

/-- A directory `D` with the record of itself and a deleted file. -/
def deletedVolume : Volume where
  bpb := formattedBlock
  stop := endEntry
  items := [.directory (namedEntry [68] 0x10)
    [.hidden (namedEntry [46] 0x10), .file (namedEntry [0xE5, 65] 0x20) [7, 8, 9]]]

/-- The volume fits, -/
theorem deletedVolume_fits : deletedVolume.Fits where
  typed := ⟨by decide, by decide, by decide, by decide, by decide, by decide⟩
  cluster := by decide
  boot := by decide
  root := by decide
  stop := ⟨⟨rfl, rfl, by decide, by decide⟩, by decide, by decide⟩
  items := by
    have htyped : ∀ (name : List UInt8) (attr : UInt8), name.length ≤ 8 → (namedEntry name attr).Typed := by
      intro name attr h
      refine ⟨?_, rfl, by change 0 < _; decide, by change 0 < _; decide⟩
      rw [namedEntry, List.length_append, List.length_replicate]
      omega
    simp only [deletedVolume, ItemsFit, Item.Fits, and_true]
    exact ⟨htyped _ _ (by decide), ⟨by decide, by decide⟩, by decide,
      ⟨htyped _ _ (by decide), by decide, by decide⟩,
      htyped _ _ (by decide), ⟨by decide, by decide⟩, by decide, by decide, by decide⟩
  clusters := by decide

/-- and its tree has the file under the name with a `?`. -/
theorem deletedVolume_tree : deletedVolume.tree = [.directory [68] [.file [63, 65] [7, 8, 9]]] := by
  have hnames : (namedEntry [68] 0x10).getFileName = [68] ∧
      (namedEntry [0xE5, 65] 0x20).getFileName = [63, 65] := by decide
  simp only [Volume.tree, deletedVolume, nodesOf, Item.nodes, hnames, List.nil_append, List.append_nil,
    sort, List.mergeSort_singleton]

/-- The deleted file is recovered as `ROOT/D/?A`. -/
theorem deletedVolume_recovered : ∃ enough files',
    (∀ fuel, enough ≤ fuel → recoverMain (deletedVolume.disk deletedVolume_fits) fuel [] emptyFiles =
      some (printDirectoryTree (root deletedVolume.tree), files')) ∧
    files' [ROOT] = some .directory ∧
    (∀ spot ∈ spotsOf deletedVolume.tree, files' (spot.place [ROOT]) = some spot.entry) ∧
    ∀ q, q ≠ [ROOT] → (∀ spot ∈ spotsOf deletedVolume.tree, q ≠ spot.place [ROOT]) →
      files' q = emptyFiles q := by
  have hnames : Nameable deletedVolume.tree := by
    rw [deletedVolume_tree]
    refine ⟨?_, by simp, ?_⟩
    · simp only [List.mem_singleton, forall_eq]
      exact ⟨by decide, by decide, by decide, by decide⟩
    · simp only [List.mem_singleton, Node.directory.injEq, and_imp, forall_eq_apply_imp_iff, forall_eq]
      refine ⟨?_, by simp, by simp⟩
      simp only [List.mem_singleton, forall_eq]
      exact ⟨by decide, by decide, by decide, by decide⟩
  exact recoverMain_volume deletedVolume_fits hnames (if_pos rfl) fun r => if_neg (by simp)

end Fat16
