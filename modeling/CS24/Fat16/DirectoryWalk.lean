import CS24.Fat16.Recover

/-!
# Where the walk over a directory stops

A directory ends at the first record whose name starts with a zero.  `Contains` says
what the image holds by that rule: the nodes of a directory, and the records that
have to be read for them.  `follow` tests first whether a record is hidden, and then
whether its name comes out empty.  The two agree on an image exactly when each
record of the image is one that the tests recognise.
-/

namespace Fat16

namespace DirectoryEntry

/-- The end of a directory: the first byte of the name is 0. -/
def isEnd (entry : DirectoryEntry) : Bool := entry.filename[0]? = some 0

/-- The tests of `follow` treat the record as what it is: an end is not hidden, and a
record that is neither an end nor hidden has a name and, unless it is a directory,
contents. -/
def Recognised (entry : DirectoryEntry) : Prop :=
  if entry.isEnd then entry.isHidden = false
  else entry.isHidden = false →
    entry.getFileName ≠ [] ∧ (entry.isDirectory = false → 0 < entry.fileSize)

/-- A record that is recognised, is seen and does not end the directory has a name, and contents
if it is a file. -/
theorem Recognised.of_visible {entry : DirectoryEntry} (h : entry.Recognised)
    (hend : entry.isEnd = false) (hvisible : entry.isHidden = false) :
    entry.getFileName ≠ [] ∧ (entry.isDirectory = false → 0 < entry.fileSize) := by
  rw [Recognised, hend] at h
  exact h hvisible

/-- The record at the end has no name. -/
theorem getFileName_of_isEnd {entry : DirectoryEntry} (h : entry.isEnd = true) :
    entry.getFileName = [] := by
  obtain ⟨filename, extension, attr, cluster, size⟩ := entry
  cases filename with
  | nil => cases h
  | cons c rest =>
      obtain rfl : c = 0 := by simpa [isEnd] using h
      simp [getFileName]

end DirectoryEntry

section Image

variable (disk : Disk) (bpb : BiosParameterBlock)

/-- The contents of a file; an empty file has no cluster. -/
def contentsOf (entry : DirectoryEntry) : Option (List UInt8) :=
  if entry.fileSize = 0 then some []
  else disk.fread (getOffsetFromCluster entry.firstCluster bpb) entry.fileSize

/-- From the record at `pos` on, a directory of the image holds these nodes, in the order
of their records, and these are the records up to its end, with those of its
subdirectories. -/
inductive Contains : Nat → List Node → Walk → Prop
  | stop {pos : Nat} {entry : DirectoryEntry} : disk.readEntry pos = some entry →
      entry.isEnd = true → Contains pos [] (.stop pos)
  | hidden {pos : Nat} {entry : DirectoryEntry} {nodes : List Node} {walk : Walk} :
      disk.readEntry pos = some entry → entry.isEnd = false → entry.isHidden = true →
      Contains (pos + 32) nodes walk → Contains pos nodes (.next pos walk)
  | file {pos : Nat} {entry : DirectoryEntry} {contents : List UInt8} {nodes : List Node}
      {walk : Walk} : disk.readEntry pos = some entry → entry.isEnd = false →
      entry.isHidden = false → entry.isDirectory = false →
      contentsOf disk bpb entry = some contents → Contains (pos + 32) nodes walk →
      Contains pos (.file entry.getFileName contents :: nodes) (.next pos walk)
  | directory {pos : Nat} {entry : DirectoryEntry} {children nodes : List Node}
      {inner walk : Walk} : disk.readEntry pos = some entry → entry.isEnd = false →
      entry.isHidden = false → entry.isDirectory = true →
      Contains (getOffsetFromCluster entry.firstCluster bpb) children inner →
      Contains (pos + 32) nodes walk →
      Contains pos (.directory entry.getFileName (children.foldl addChild []) :: nodes)
        (.into pos inner walk)

/-- The positions of the records of a directory, up to its end, and of the directories
below it. -/
inductive InImage (start : Nat) : Nat → Prop
  | start : InImage start start
  | next {pos : Nat} {entry : DirectoryEntry} : InImage start pos →
      disk.readEntry pos = some entry → entry.isEnd = false → InImage start (pos + 32)
  | into {pos : Nat} {entry : DirectoryEntry} : InImage start pos →
      disk.readEntry pos = some entry → entry.isEnd = false → entry.isHidden = false →
      entry.isDirectory = true → InImage start (getOffsetFromCluster entry.firstCluster bpb)

end Image

/-! ## Records -/

section Records

variable {disk : Disk} {bpb : BiosParameterBlock} {start pos pos' fuel fuel' : Nat}
  {entry entry' : DirectoryEntry} {node nodes children : List Node} {walk : Walk}

/-- The walk goes on where it is. -/
theorem InImage.trans (h : InImage disk bpb start pos) (h' : InImage disk bpb pos pos') :
    InImage disk bpb start pos' := by
  induction h' with
  | start => exact h
  | next _ hread hend ih => exact ih.next hread hend
  | into _ hread hend hhidden hdirectory ih => exact ih.into hread hend hhidden hdirectory

/-- A record is the first one, or it is among those behind the first one, or among those
of the directory that the first one is of. -/
theorem InImage.cases_head (h : InImage disk bpb start pos) (hread : disk.readEntry start = some entry) :
    pos = start ∨ (entry.isEnd = false ∧ InImage disk bpb (start + 32) pos) ∨
      (entry.isEnd = false ∧ entry.isHidden = false ∧ entry.isDirectory = true ∧
        InImage disk bpb (getOffsetFromCluster entry.firstCluster bpb) pos) := by
  induction h with
  | start => exact .inl rfl
  | next _ hread' hend ih =>
      rcases ih with rfl | ⟨h1, h2⟩ | ⟨h1, h2, h3, h4⟩
      · obtain rfl := Option.some.inj (hread.symm.trans hread')
        exact .inr (.inl ⟨hend, .start⟩)
      · exact .inr (.inl ⟨h1, h2.next hread' hend⟩)
      · exact .inr (.inr ⟨h1, h2, h3, h4.next hread' hend⟩)
  | into _ hread' hend hhidden hdirectory ih =>
      rcases ih with rfl | ⟨h1, h2⟩ | ⟨h1, h2, h3, h4⟩
      · obtain rfl := Option.some.inj (hread.symm.trans hread')
        exact .inr (.inr ⟨hend, hhidden, hdirectory, .start⟩)
      · exact .inr (.inl ⟨h1, h2.into hread' hend hhidden hdirectory⟩)
      · exact .inr (.inr ⟨h1, h2, h3, h4.into hread' hend hhidden hdirectory⟩)

/-- Only something can be read, and only at offsets that fit in a `long`. -/
theorem Disk.fread_lt {size : Nat} {bytes : List UInt8} (h : disk.fread pos size = some bytes) :
    0 < size ∧ pos < 2 ^ 63 := by
  have hlength := disk.length_lt
  rw [Disk.fread] at h
  split at h
  · omega
  · cases h

/-- So directories lie there. -/
theorem Contains.lt (h : Contains disk bpb pos nodes walk) : pos < 2 ^ 63 := by
  have hread : ∀ entry, disk.readEntry pos = some entry → pos < 2 ^ 63 := by
    intro entry hread
    obtain ⟨bytes, hbytes, -⟩ := Option.map_eq_some_iff.mp hread
    exact (Disk.fread_lt hbytes).2
  cases h with
  | stop h _ => exact hread _ h
  | hidden h _ _ _ => exact hread _ h
  | file h _ _ _ _ _ => exact hread _ h
  | directory h _ _ _ _ _ => exact hread _ h

/-! ## The walk -/

/-- A walk that goes on and ends has ended behind that. -/
theorem Outcome.after_eq_done {f : Walk → Walk} {o : Outcome} (h : o.after f = .done children walk) :
    ∃ walk', o = .done children walk' ∧ walk = f walk' := by
  cases o with
  | done children' walk' =>
      obtain ⟨rfl, rfl⟩ := Outcome.done.inj h
      exact ⟨walk', rfl, rfl⟩
  | abort | timeout => cases h

/-- What a turn of the loop comes to, by the record it reads. -/
inductive Turns (disk : Disk) (bpb : BiosParameterBlock) (fuel pos : Nat) (node : List Node)
    (children : List Node) (walk : Walk) (entry : DirectoryEntry) : Prop
  | hidden {walk' : Walk} : entry.isHidden = true →
      follow disk bpb fuel (pos + 32) node = .done children walk' → walk = .next pos walk' →
      Turns disk bpb fuel pos node children walk entry
  | stop : entry.isHidden = false → entry.getFileName = [] → children = node →
      walk = .stop pos → Turns disk bpb fuel pos node children walk entry
  | file {contents : List UInt8} {walk' : Walk} : entry.isHidden = false →
      entry.getFileName ≠ [] → entry.isDirectory = false →
      disk.fread (seek (pos + 32) (getOffsetFromCluster entry.firstCluster bpb)) entry.fileSize =
        some contents →
      follow disk bpb fuel (pos + 32) (addChild node (.file entry.getFileName contents)) =
        .done children walk' → walk = .next pos walk' →
      Turns disk bpb fuel pos node children walk entry
  | directory {inside : List Node} {inner walk' : Walk} : entry.isHidden = false →
      entry.getFileName ≠ [] → entry.isDirectory = true →
      follow disk bpb fuel (seek (pos + 32) (getOffsetFromCluster entry.firstCluster bpb)) [] =
        .done inside inner →
      follow disk bpb fuel (pos + 32) (addChild node (.directory entry.getFileName inside)) =
        .done children walk' → walk = .into pos inner walk' →
      Turns disk bpb fuel pos node children walk entry

/-- A walk that ends has read its first record. -/
theorem exists_readEntry (h : follow disk bpb (fuel + 1) pos node = .done children walk) :
    ∃ entry, disk.readEntry pos = some entry := by
  rw [follow] at h
  split at h
  · cases h
  · exact ⟨_, ‹_›⟩

/-- A walk that ends begins with a turn of the loop. -/
theorem follow_turns (h : follow disk bpb fuel' pos node = .done children walk)
    (hread : disk.readEntry pos = some entry) :
    ∃ fuel, fuel' = fuel + 1 ∧ Turns disk bpb fuel pos node children walk entry := by
  cases fuel' with
  | zero => cases h
  | succ fuel =>
      refine ⟨fuel, rfl, ?_⟩
      rw [follow, hread] at h
      simp only at h
      by_cases hhidden : entry.isHidden = true
      · rw [if_pos hhidden] at h
        obtain ⟨walk', hwalk, heq⟩ := Outcome.after_eq_done h
        exact .hidden hhidden hwalk heq
      · rw [if_neg hhidden] at h
        have hvisible : entry.isHidden = false := Bool.eq_false_of_not_eq_true hhidden
        by_cases hname : entry.getFileName = []
        · rw [if_pos hname] at h
          obtain ⟨rfl, rfl⟩ := Outcome.done.inj h
          exact .stop hvisible hname rfl rfl
        · rw [if_neg hname] at h
          by_cases hdirectory : entry.isDirectory = true
          · rw [if_pos hdirectory] at h
            split at h
            · rename_i inside inner hinner
              obtain ⟨walk', hwalk, heq⟩ := Outcome.after_eq_done h
              exact .directory hvisible hname hdirectory hinner hwalk heq
            · rename_i hnot
              exact absurd h (hnot _ _)
          · rw [if_neg hdirectory] at h
            split at h
            · cases h
            · rename_i contents hcontents
              obtain ⟨walk', hwalk, heq⟩ := Outcome.after_eq_done h
              exact .file hvisible hname (Bool.eq_false_of_not_eq_true hdirectory) hcontents
                hwalk heq

/-- The turn of the loop, from what the rest of the walk comes to. -/
theorem Turns.follow (hread : disk.readEntry pos = some entry)
    (h : Turns disk bpb fuel pos node children walk entry) :
    follow disk bpb (fuel + 1) pos node = .done children walk := by
  cases h with
  | hidden hhidden hrest heq => simp [Fat16.follow, hread, hhidden, hrest, heq, Outcome.after]
  | stop hvisible hname hchildren heq => simp [Fat16.follow, hread, hvisible, hname, hchildren, heq]
  | file hvisible hname hdirectory hcontents hrest heq =>
      simp [Fat16.follow, hread, hvisible, hname, hdirectory, hcontents, hrest, heq, Outcome.after]
  | directory hvisible hname hdirectory hinner hrest heq =>
      simp [Fat16.follow, hread, hvisible, hname, hdirectory, hinner, hrest, heq, Outcome.after]

/-- More fuel does not change the end of the walk. -/
theorem follow_mono (h : follow disk bpb fuel pos node = .done children walk)
    (hle : fuel ≤ fuel') : follow disk bpb fuel' pos node = .done children walk := by
  induction fuel generalizing fuel' pos node children walk with
  | zero => cases h
  | succ fuel ih =>
      obtain ⟨fuel, rfl⟩ : ∃ k, fuel' = k + 1 := ⟨fuel' - 1, by omega⟩
      have hle := Nat.le_of_succ_le_succ hle
      obtain ⟨entry, hread⟩ := exists_readEntry h
      obtain ⟨k, hk, hturns⟩ := follow_turns h hread
      obtain rfl := Nat.succ.inj hk
      refine Turns.follow hread ?_
      cases hturns with
      | hidden hhidden hrest heq => exact .hidden hhidden (ih hrest hle) heq
      | stop hvisible hname hchildren heq => exact .stop hvisible hname hchildren heq
      | file hvisible hname hdirectory hcontents hrest heq =>
          exact .file hvisible hname hdirectory hcontents (ih hrest hle) heq
      | directory hvisible hname hdirectory hinner hrest heq =>
          exact .directory hvisible hname hdirectory (ih hinner hle) (ih hrest hle) heq

/-- If all records are recognised, the walk finds what the image contains. -/
theorem Contains.follow (h : Contains disk bpb pos nodes walk)
    (hrecognised : ∀ p e, InImage disk bpb pos p → disk.readEntry p = some e → e.Recognised) :
    ∃ fuel, ∀ node, follow disk bpb fuel pos node = .done (nodes.foldl addChild node) walk := by
  induction h with
  | stop hread hend =>
      have hentry := hrecognised _ _ .start hread
      rw [DirectoryEntry.Recognised, if_pos hend] at hentry
      refine ⟨1, ?_⟩
      intro node
      exact Turns.follow hread (.stop hentry (DirectoryEntry.getFileName_of_isEnd hend) rfl rfl)
  | hidden hread hend hhidden _ ih =>
      obtain ⟨fuel, hrest⟩ := ih fun p e hp => hrecognised p e
        (InImage.trans (.next .start hread hend) hp)
      refine ⟨fuel + 1, ?_⟩
      intro node
      exact Turns.follow hread (.hidden hhidden (hrest node) rfl)
  | file hread hend hvisible hdirectory hcontents _ ih =>
      obtain ⟨hname, hsize⟩ := (hrecognised _ _ .start hread).of_visible hend hvisible
      have hsize := hsize hdirectory
      rw [contentsOf, if_neg (by omega)] at hcontents
      obtain ⟨fuel, hrest⟩ := ih fun p e hp => hrecognised p e
        (InImage.trans (.next .start hread hend) hp)
      refine ⟨fuel + 1, ?_⟩
      intro node
      refine Turns.follow hread (.file hvisible hname hdirectory ?_ (hrest _) rfl)
      rw [seek, if_pos (Disk.fread_lt hcontents).2, hcontents]
  | @directory pos entry children nodes inner walk hread hend hvisible hdirectory hinside _
      ihinside ih =>
      obtain ⟨hname, -⟩ := (hrecognised _ _ .start hread).of_visible hend hvisible
      obtain ⟨fuel1, hinner⟩ := ihinside fun p e hp => hrecognised p e
        (InImage.trans (.into .start hread hend hvisible hdirectory) hp)
      obtain ⟨fuel2, hrest⟩ := ih fun p e hp => hrecognised p e
        (InImage.trans (.next .start hread hend) hp)
      refine ⟨max fuel1 fuel2 + 1, ?_⟩
      intro node
      have hseek : seek (pos + 32) (getOffsetFromCluster entry.firstCluster bpb) =
          getOffsetFromCluster entry.firstCluster bpb := if_pos hinside.lt
      have hinner := follow_mono (hinner []) (le_max_left fuel1 fuel2)
      have hrest := follow_mono (hrest (addChild node
        (.directory entry.getFileName (children.foldl addChild [])))) (le_max_right fuel1 fuel2)
      rw [← hseek] at hinner
      exact Turns.follow hread (.directory hvisible hname hdirectory hinner hrest rfl)

/-- The last record of a walk is the only one that can end it. -/
theorem Turns.recognised (h : Turns disk bpb fuel pos node children walk entry)
    (hread : disk.readEntry pos = some entry) (hwalk : Contains disk bpb pos nodes walk) :
    entry.Recognised := by
  unfold DirectoryEntry.Recognised
  cases hwalk with
  | stop hread' hend =>
      obtain rfl := Option.some.inj (hread.symm.trans hread')
      rw [if_pos hend]
      cases h with
      | hidden _ _ heq => cases heq
      | stop hvisible _ _ _ => exact hvisible
      | file _ _ _ _ _ heq => cases heq
      | directory _ _ _ _ _ heq => cases heq
  | hidden hread' hend hhidden _ =>
      obtain rfl := Option.some.inj (hread.symm.trans hread')
      simp [hend, hhidden]
  | file hread' hend hvisible hdirectory _ _ =>
      obtain rfl := Option.some.inj (hread.symm.trans hread')
      simp only [hend, Bool.false_eq_true, if_false]
      intro _
      cases h with
      | hidden hhidden _ _ => simp [hvisible] at hhidden
      | stop _ _ _ heq => cases heq
      | file _ hname _ hcontents _ _ => exact ⟨hname, fun _ => (Disk.fread_lt hcontents).1⟩
      | directory _ _ _ _ _ heq => cases heq
  | directory hread' hend hvisible hdirectory _ _ =>
      obtain rfl := Option.some.inj (hread.symm.trans hread')
      simp only [hend, Bool.false_eq_true, if_false]
      intro _
      cases h with
      | hidden _ _ heq => cases heq
      | stop _ _ _ heq => cases heq
      | file _ _ _ _ _ heq => cases heq
      | directory _ hname _ _ _ _ => exact ⟨hname, fun hfile => by simp [hdirectory] at hfile⟩

/-- The walk behind a record. -/
theorem Turns.next (h : Turns disk bpb fuel pos node children (.next pos walk) entry) :
    ∃ node', Fat16.follow disk bpb fuel (pos + 32) node' = .done children walk := by
  cases h with
  | hidden _ hrest heq =>
      obtain ⟨-, rfl⟩ := Walk.next.inj heq
      exact ⟨_, hrest⟩
  | stop _ _ _ heq => cases heq
  | file _ _ _ _ hrest heq =>
      obtain ⟨-, rfl⟩ := Walk.next.inj heq
      exact ⟨_, hrest⟩
  | directory _ _ _ _ _ heq => cases heq

/-- The walks inside a subdirectory and behind its record. -/
theorem Turns.into {inner : Walk}
    (h : Turns disk bpb fuel pos node children (.into pos inner walk) entry) :
    (∃ node', Fat16.follow disk bpb fuel (pos + 32) node' = .done children walk) ∧
      ∃ inside, Fat16.follow disk bpb fuel
        (seek (pos + 32) (getOffsetFromCluster entry.firstCluster bpb)) [] = .done inside inner := by
  cases h with
  | hidden _ _ heq => cases heq
  | stop _ _ _ heq => cases heq
  | file _ _ _ _ _ heq => cases heq
  | directory _ _ _ hinner hrest heq =>
      obtain ⟨-, rfl, rfl⟩ := Walk.into.inj heq
      exact ⟨⟨_, hrest⟩, _, hinner⟩

/-- If the walk reads just the records of the image, they are all recognised. -/
theorem Contains.recognised (h : Contains disk bpb pos nodes walk)
    (hfollow : Fat16.follow disk bpb fuel pos node = .done children walk) :
    ∀ p e, InImage disk bpb pos p → disk.readEntry p = some e → e.Recognised := by
  intro p e hp he
  induction h generalizing fuel node children with
  | @stop pos entry hread hend =>
      obtain ⟨fuel, rfl, hturns⟩ := follow_turns hfollow hread
      rcases hp.cases_head hread with rfl | ⟨hend', -⟩ | ⟨hend', -⟩
      · obtain rfl := Option.some.inj (hread.symm.trans he)
        exact hturns.recognised hread (.stop hread hend)
      · simp [hend] at hend'
      · simp [hend] at hend'
  | hidden hread hend hhidden hrest ih =>
      obtain ⟨fuel, rfl, hturns⟩ := follow_turns hfollow hread
      obtain ⟨node', hnext⟩ := hturns.next
      rcases hp.cases_head hread with rfl | ⟨-, hp⟩ | ⟨-, hvisible, -⟩
      · obtain rfl := Option.some.inj (hread.symm.trans he)
        exact hturns.recognised hread (.hidden hread hend hhidden hrest)
      · exact ih hnext hp
      · simp [hhidden] at hvisible
  | file hread hend hvisible hdirectory hcontents hrest ih =>
      obtain ⟨fuel, rfl, hturns⟩ := follow_turns hfollow hread
      obtain ⟨node', hnext⟩ := hturns.next
      rcases hp.cases_head hread with rfl | ⟨-, hp⟩ | ⟨-, -, hdirectory', -⟩
      · obtain rfl := Option.some.inj (hread.symm.trans he)
        exact hturns.recognised hread (.file hread hend hvisible hdirectory hcontents hrest)
      · exact ih hnext hp
      · simp [hdirectory] at hdirectory'
  | directory hread hend hvisible hdirectory hinside hrest ihinside ih =>
      obtain ⟨fuel, rfl, hturns⟩ := follow_turns hfollow hread
      obtain ⟨⟨node', hnext⟩, inside, hinner⟩ := hturns.into
      rw [seek, if_pos hinside.lt] at hinner
      rcases hp.cases_head hread with rfl | ⟨-, hp⟩ | ⟨-, -, -, hp⟩
      · obtain rfl := Option.some.inj (hread.symm.trans he)
        exact hturns.recognised hread (.directory hread hend hvisible hdirectory hinside hrest)
      · exact ih hnext hp
      · exact ihinside hinner hp

/-- **The walk over an image.** `follow` ends with what the root directory contains, and
has read its records, those of the directories below it, and no others, if and only if
the image does contain a finite tree of directories, and every record of it is one that
the tests recognise. -/
theorem follow_iff (disk : Disk) (bpb : BiosParameterBlock) :
    (∃ nodes walk fuel, Contains disk bpb (getRootDirectoryLocation bpb) nodes walk ∧
      Fat16.follow disk bpb fuel (getRootDirectoryLocation bpb) [] =
        .done (nodes.foldl addChild []) walk) ↔
    (∃ nodes walk, Contains disk bpb (getRootDirectoryLocation bpb) nodes walk) ∧
      ∀ p e, InImage disk bpb (getRootDirectoryLocation bpb) p → disk.readEntry p = some e →
        e.Recognised := by
  constructor
  · rintro ⟨nodes, walk, fuel, hcontains, hfollow⟩
    exact ⟨⟨nodes, walk, hcontains⟩, hcontains.recognised hfollow⟩
  · rintro ⟨⟨nodes, walk, hcontains⟩, hrecognised⟩
    obtain ⟨fuel, hfollow⟩ := hcontains.follow hrecognised
    exact ⟨nodes, walk, fuel, hcontains, hfollow []⟩

end Records

/-! ## A formatted image -/

section Zeros

variable {disk : Disk} {bpb : BiosParameterBlock} {front : List UInt8} {n pos size : Nat}

/-- Reading from the zeros at the end of an image. -/
theorem fread_zeros (hdisk : disk.bytes = front ++ List.replicate n 0) (hpos : front.length ≤ pos) :
    disk.fread pos size =
      if 0 < size ∧ pos + size ≤ front.length + n then some (List.replicate size 0) else none := by
  have hlength : disk.bytes.length = front.length + n := by
    rw [hdisk, List.length_append, List.length_replicate]
  rw [Disk.fread, hlength]
  split
  · rw [hdisk, List.drop_append, List.drop_of_length_le hpos, List.nil_append, List.drop_replicate,
      List.take_replicate]
    congr 2
    omega
  · rfl

/-- A record of zeros. -/
def zeroEntry : DirectoryEntry := ⟨List.replicate 8 0, List.replicate 3 0, 0, 0, 0⟩

/-- A record of zeros is read while there are 32 bytes. -/
theorem readEntry_zeros (hdisk : disk.bytes = front ++ List.replicate n 0)
    (hpos : front.length ≤ pos) : disk.readEntry pos =
      if pos + 32 ≤ front.length + n then some zeroEntry else none := by
  rw [Disk.readEntry, fread_zeros hdisk hpos]
  by_cases hle : pos + 32 ≤ front.length + n
  · rw [if_pos ⟨by omega, hle⟩, if_pos hle]
    rfl
  · rw [if_neg (fun h => hle h.2), if_neg hle]
    rfl

/-- The walk over zeros never stops at one. -/
theorem follow_zeros (hdisk : disk.bytes = front ++ List.replicate n 0)
    (hpos : front.length ≤ pos) (fuel : Nat) (node children : List Node) (walk : Walk) :
    follow disk bpb fuel pos node ≠ .done children walk := by
  intro h
  induction fuel generalizing pos walk with
  | zero => cases h
  | succ fuel ih =>
      rw [follow, readEntry_zeros hdisk hpos] at h
      split at h
      · cases h
      · rename_i entry hentry
        split at hentry
        · obtain rfl := Option.some.inj hentry
          have hhidden : zeroEntry.isHidden = true := rfl
          rw [if_pos hhidden] at h
          obtain ⟨walk', hwalk, -⟩ := Outcome.after_eq_done h
          exact ih (by omega) walk' hwalk
        · cases hentry

end Zeros

/-- The parameters of a formatted image of five sectors: one FAT, and a root directory of
one sector. -/
def formattedBlock : BiosParameterBlock := ⟨512, 1, 1, 1, 16, 1⟩

/-- The image: the parameters at their place, and zeros. -/
def formatted : Disk where
  bytes := List.replicate 0x20B 0 ++
    [0x00, 0x02, 1, 0x01, 0x00, 1, 0x10, 0x00, 0x05, 0x00, 0xF8, 0x01, 0x00] ++
      List.replicate 2024 0
  length_lt := by
    rw [List.length_append, List.length_append, List.length_replicate, List.length_replicate]
    decide

/-- The parameter block of the formatted disk is read. -/
theorem formatted_readBlock : formatted.readBlock = some formattedBlock := by
  have hdrop : formatted.bytes.drop 0x20B =
      [0x00, 0x02, 1, 0x01, 0x00, 1, 0x10, 0x00, 0x05, 0x00, 0xF8, 0x01, 0x00] ++
        List.replicate 2024 0 := by
    have hbytes : formatted.bytes = List.replicate 0x20B 0 ++ (_ ++ List.replicate 2024 0) :=
      List.append_assoc _ _ _
    rw [hbytes]
    exact List.drop_left' List.length_replicate
  have hlength : formatted.bytes.length = 2560 := by
    rw [formatted, List.length_append, List.length_append, List.length_replicate,
      List.length_replicate]
    rfl
  rw [Disk.readBlock, Disk.fread, hlength, if_pos (by decide), hdrop]
  rfl

/-- **An empty image.** The root directory of the formatted image is empty, but the walk
takes its end for a hidden record, and reads on to the end of the image, where the
assertion on `fread` fails. -/
theorem formatted_passes_end :
    formatted.readBlock = some formattedBlock ∧
      Contains formatted formattedBlock (getRootDirectoryLocation formattedBlock) []
        (.stop (getRootDirectoryLocation formattedBlock)) ∧
      ∀ fuel children walk, follow formatted formattedBlock fuel
        (getRootDirectoryLocation formattedBlock) [] ≠ .done children walk := by
  have hfront : (List.replicate 0x20B (0 : UInt8) ++
      [0x00, 0x02, 1, 0x01, 0x00, 1, 0x10, 0x00, 0x05, 0x00, 0xF8, 0x01, 0x00]).length = 536 := by
    rw [List.length_append, List.length_replicate]
    rfl
  have hpos : getRootDirectoryLocation formattedBlock = 1536 := rfl
  have hread : formatted.readEntry (getRootDirectoryLocation formattedBlock) = some zeroEntry := by
    rw [readEntry_zeros rfl (by omega), hfront, if_pos (by decide)]
  refine ⟨formatted_readBlock, .stop hread rfl, ?_⟩
  intro fuel children walk
  exact follow_zeros rfl (by omega) fuel [] children walk

end Fat16
