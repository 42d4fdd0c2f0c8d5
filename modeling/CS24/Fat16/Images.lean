import CS24.Fat16.Recover

/-!
# Images of given records

The bytes of a record, and images that begin with zeros and go on with records and data.
What stands in such an image is read from it.
-/

namespace Fat16

/-- The low `k` bytes of a number, the lowest first. -/
def littleEndian : Nat → Nat → List UInt8
  | 0, _ => []
  | k + 1, v => UInt8.ofNat v :: littleEndian k (v / 256)

/-- The bytes of a record; those that the walk does not look at are 0. -/
def DirectoryEntry.encode (entry : DirectoryEntry) : List UInt8 :=
  entry.filename ++ (entry.extension ++ (entry.«attribute» :: (List.replicate 14 0 ++
    (littleEndian 2 entry.firstCluster ++ littleEndian 4 entry.fileSize))))

/-- The fields have the sizes of their types. -/
structure DirectoryEntry.Typed (entry : DirectoryEntry) : Prop where
  filename : entry.filename.length = 8
  extension : entry.extension.length = 3
  firstCluster : entry.firstCluster < 256 ^ 2
  fileSize : entry.fileSize < 256 ^ 4

/-- `boot` zeros, then the records, then the data. -/
def image (boot : Nat) (entries : List DirectoryEntry) (data : List UInt8) : List UInt8 :=
  List.replicate boot 0 ++ (entries.flatMap DirectoryEntry.encode ++ data)

section Records

variable {disk : Disk} {entry : DirectoryEntry} {entries : List DirectoryEntry}
  {bytes data front rest : List UInt8} {pos boot k v : Nat}

theorem littleEndian_length : (littleEndian k v).length = k := by
  induction k generalizing v with
  | zero => rfl
  | succ k ih => rw [littleEndian, List.length_cons, ih]

theorem ofDigits_littleEndian :
    Nat.ofDigits 256 ((littleEndian k v).map UInt8.toNat) = v % 256 ^ k := by
  induction k generalizing v with
  | zero => simp [littleEndian, Nat.mod_one]
  | succ k ih =>
      have hmod : v % (256 * 256 ^ k) = v % 256 + 256 * (v / 256 % 256 ^ k) := Nat.mod_mul
      have hpow : 256 ^ (k + 1) = 256 * 256 ^ k := Nat.pow_succ'
      rw [littleEndian, List.map_cons, Nat.ofDigits_cons, ih, UInt8.toNat_ofNat', hpow, hmod]

theorem encode_length (h : entry.Typed) : entry.encode.length = 32 := by
  simp [DirectoryEntry.encode, h.filename, h.extension, littleEndian_length]

/-- Bytes that stand at a place are read there. -/
theorem fread_append (front rest : List UInt8) (hdisk : disk.bytes = front ++ (bytes ++ rest))
    (hpos : front.length = pos) (hbytes : bytes ≠ []) :
    disk.fread pos bytes.length = some bytes := by
  have hlength := List.length_pos_iff.mpr hbytes
  rw [Disk.fread, hdisk, ← hpos, List.drop_left, List.take_left, if_pos]
  simp only [List.length_append]
  omega

/-- A record that stands at a place is read there. -/
theorem readEntry_append (front rest : List UInt8)
    (hdisk : disk.bytes = front ++ (entry.encode ++ rest)) (hpos : front.length = pos)
    (h : entry.Typed) : disk.readEntry pos = some entry := by
  have hlength := encode_length h
  have hread : disk.fread pos entry.encode.length = some entry.encode := by
    refine fread_append front rest hdisk hpos ?_
    intro hnil
    rw [hnil] at hlength
    cases hlength
  rw [hlength] at hread
  have hhead : (entry.filename ++ (entry.extension ++ (entry.«attribute» ::
      List.replicate 14 (0 : UInt8)))).length = 26 := by
    simp [h.filename, h.extension]
  have hencode : entry.encode = (entry.filename ++ (entry.extension ++ (entry.«attribute» ::
      List.replicate 14 0))) ++ (littleEndian 2 entry.firstCluster ++ littleEndian 4 entry.fileSize) := by
    simp only [DirectoryEntry.encode, List.append_assoc, List.cons_append]
  have hcluster : Disk.field entry.encode 26 2 = entry.firstCluster := by
    rw [Disk.field, hencode, List.drop_left' hhead, List.take_left' littleEndian_length,
      ofDigits_littleEndian, Nat.mod_eq_of_lt h.firstCluster]
  have hsize : Disk.field entry.encode 28 4 = entry.fileSize := by
    rw [Disk.field, hencode, ← List.append_assoc, List.drop_left' (by
        rw [List.length_append, hhead, littleEndian_length]),
      List.take_of_length_le littleEndian_length.le, ofDigits_littleEndian,
      Nat.mod_eq_of_lt h.fileSize]
  have hname : entry.encode.take 8 = entry.filename := List.take_left' h.filename
  have hdrop : entry.encode.drop 8 = _ := List.drop_left' h.filename
  have hextension : (entry.encode.drop 8).take 3 = entry.extension := by
    rw [hdrop, List.take_left' h.extension]
  have hattribute : entry.encode.getD 11 0 = entry.«attribute» := by
    rw [DirectoryEntry.encode, List.getD_append_right _ _ _ _ (by rw [h.filename]; decide),
      h.filename, List.getD_append_right _ _ _ _ (by rw [h.extension]), h.extension]
    rfl
  rw [Disk.readEntry, hread, Option.map_some, hcluster, hsize, hname, hextension, hattribute]

theorem flatMap_encode_length (h : ∀ e ∈ entries, e.Typed) :
    (entries.flatMap DirectoryEntry.encode).length = 32 * entries.length := by
  induction entries with
  | nil => rfl
  | cons e entries ih =>
      rw [List.flatMap_cons, List.length_append, encode_length (h e List.mem_cons_self),
        ih fun e he => h e (List.mem_cons_of_mem _ he), List.length_cons]
      omega

/-- Records that stand behind one another. -/
theorem readEntry_records (front : List UInt8) (hdisk : disk.bytes =
    front ++ (entries.flatMap DirectoryEntry.encode ++ data)) (h : ∀ e ∈ entries, e.Typed) {i : Nat}
    (hi : entries[i]? = some entry) (hpos : front.length + 32 * i = pos) :
    disk.readEntry pos = some entry := by
  have hmem := List.mem_of_getElem? hi
  obtain ⟨hlt, hget⟩ := List.getElem?_eq_some_iff.mp hi
  have hsplit : entries = entries.take i ++ entry :: entries.drop (i + 1) := by
    rw [← hget, List.getElem_cons_drop, List.take_append_drop]
  refine readEntry_append (front ++ (entries.take i).flatMap DirectoryEntry.encode)
    ((entries.drop (i + 1)).flatMap DirectoryEntry.encode ++ data) ?_ ?_ (h entry hmem)
  · rw [hdisk]
    conv_lhs => rw [hsplit]
    simp only [List.flatMap_append, List.flatMap_cons, List.append_assoc]
  · rw [List.length_append, flatMap_encode_length fun e he => h e (List.mem_of_mem_take he),
      List.length_take]
    omega

/-- The records of an image. -/
theorem readEntry_image (hdisk : disk.bytes = image boot entries data) (h : ∀ e ∈ entries, e.Typed)
    {i : Nat} (hi : entries[i]? = some entry) : disk.readEntry (boot + 32 * i) = some entry :=
  readEntry_records (List.replicate boot 0) hdisk h hi (by rw [List.length_replicate])

theorem image_length (h : ∀ e ∈ entries, e.Typed) :
    (image boot entries data).length = boot + (32 * entries.length + data.length) := by
  rw [image, List.length_append, List.length_append, List.length_replicate,
    flatMap_encode_length h]

/-- The data of an image. -/
theorem fread_image (boot : Nat) (front rest : List UInt8)
    (hdisk : disk.bytes = image boot entries (front ++ (bytes ++ rest)))
    (h : ∀ e ∈ entries, e.Typed) (hbytes : bytes ≠ [])
    (hpos : boot + 32 * entries.length + front.length = pos) :
    disk.fread pos bytes.length = some bytes := by
  refine fread_append (List.replicate boot 0 ++ (entries.flatMap DirectoryEntry.encode ++ front))
    rest ?_ ?_ hbytes
  · rw [hdisk, image]
    simp only [List.append_assoc]
  · rw [List.length_append, List.length_append, List.length_replicate, flatMap_encode_length h,
      ← Nat.add_assoc, hpos]

end Records

end Fat16
