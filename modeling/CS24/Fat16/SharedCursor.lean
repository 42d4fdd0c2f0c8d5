import CS24.Fat16.DirectoryWalk
import CS24.Fat16.Images
import CS24.Fat16.SortedChildren

/-!
# One file position for all directories

`follow` reads through one `FILE *`: the records of a directory, the contents of its files
and the records of its subdirectories all move the position, and `fseek` brings it back
behind the record.  `followFile` is `follow` with that position as a state.  `Lists` is
what the image holds by the tests of `follow`, and it mentions no position but those that
the records name.
-/

namespace Fat16

open SortedList

/-- How `follow` leaves: with the children of the directory and the position of the file,
in a failed assertion, or not within the fuel. -/
inductive Return
  | done (children : List Node) (pos : Nat)
  | abort
  | timeout

/-- `fread` of one item, and the position behind it. -/
def Disk.freadNext (disk : Disk) (size pos : Nat) : Option (List UInt8 × Nat) :=
  (disk.fread pos size).map fun bytes => (bytes, pos + size)

/-- `fread` of one record, and the position behind it. -/
def Disk.readNext (disk : Disk) (pos : Nat) : Option (DirectoryEntry × Nat) :=
  (disk.readEntry pos).map fun entry => (entry, pos + 32)

/-- `follow`, at the position `pos` of the file. -/
def followFile (disk : Disk) (bpb : BiosParameterBlock) : Nat → Nat → List Node → Return
  | 0, _, _ => .timeout
  | fuel + 1, pos, node =>
    match disk.readNext pos with
    | none => .abort
    | some (entry, pos) =>
      if entry.isHidden then followFile disk bpb fuel pos node
      else
        let filename := entry.getFileName
        if filename = [] then .done node pos
        else
          let location := pos
          let pos := seek pos (getOffsetFromCluster entry.firstCluster bpb)
          if entry.isDirectory then
            match followFile disk bpb fuel pos [] with
            | .done children pos =>
              followFile disk bpb fuel (seek pos location)
                (addChild node (.directory filename children))
            | r => r
          else
            match disk.freadNext entry.fileSize pos with
            | none => .abort
            | some (contents, pos) =>
              followFile disk bpb fuel (seek pos location)
                (addChild node (.file filename contents))

namespace DirectoryEntry

/-- The record ends the loop of `follow`. -/
def Stops (entry : DirectoryEntry) : Prop := entry.isHidden = false ∧ entry.getFileName = []

/-- `follow` adds a node for the record. -/
def Kept (entry : DirectoryEntry) : Prop := entry.isHidden = false ∧ entry.getFileName ≠ []

/-- A record that is kept does not end its directory. -/
theorem Kept.not_stops {entry : DirectoryEntry} (h : entry.Kept) : ¬ entry.Stops :=
  fun hstops => h.2 hstops.2

end DirectoryEntry

section Image

variable (disk : Disk) (bpb : BiosParameterBlock)

/-- The nodes of the records from `pos` on, up to the first one that is not hidden and has no
name; a directory has those of its own records, sorted by name. -/
inductive Lists : Nat → List Node → Prop
  | stop {pos : Nat} {entry : DirectoryEntry} : disk.readEntry pos = some entry →
      entry.Stops → Lists pos []
  | hidden {pos : Nat} {entry : DirectoryEntry} {nodes : List Node} :
      disk.readEntry pos = some entry → entry.isHidden = true → Lists (pos + 32) nodes →
      Lists pos nodes
  | file {pos : Nat} {entry : DirectoryEntry} {contents : List UInt8} {nodes : List Node} :
      disk.readEntry pos = some entry → entry.Kept → entry.isDirectory = false →
      contentsOf disk bpb entry = some contents → Lists (pos + 32) nodes →
      Lists pos (.file entry.getFileName contents :: nodes)
  | directory {pos : Nat} {entry : DirectoryEntry} {children nodes : List Node} :
      disk.readEntry pos = some entry → entry.Kept → entry.isDirectory = true →
      Lists (getOffsetFromCluster entry.firstCluster bpb) children → Lists (pos + 32) nodes →
      Lists pos (.directory entry.getFileName (sort nameRank children) :: nodes)

/-- The positions of the records of a directory, up to the one that ends it, and of the
directories below it. -/
inductive Reaches (start : Nat) : Nat → Prop
  | start : Reaches start start
  | next {pos : Nat} {entry : DirectoryEntry} : Reaches start pos →
      disk.readEntry pos = some entry → ¬ entry.Stops → Reaches start (pos + 32)
  | into {pos : Nat} {entry : DirectoryEntry} : Reaches start pos →
      disk.readEntry pos = some entry → entry.Kept → entry.isDirectory = true →
      Reaches start (getOffsetFromCluster entry.firstCluster bpb)

end Image

/-- The fields of the parameter block are in the ranges of their types. -/
structure BiosParameterBlock.Typed (bpb : BiosParameterBlock) : Prop where
  bytesPerSector : bpb.bytesPerSector < 2 ^ 16
  sectorsPerCluster : bpb.sectorsPerCluster < 2 ^ 8
  reservedSectors : bpb.reservedSectors < 2 ^ 16
  numFats : bpb.numFats < 2 ^ 8
  maxRootEntries : bpb.maxRootEntries < 2 ^ 16
  sectorsPerFat : bpb.sectorsPerFat < 2 ^ 16

section Walks

variable {disk : Disk} {bpb : BiosParameterBlock} {start pos pos' fuel : Nat}
  {entry : DirectoryEntry} {node nodes nodes' children : List Node} {walk : Walk} {finish : Nat}

/-! ## The position of the file -/

/-- Records that can be read lie at offsets that fit in a `long`. -/
theorem readEntry_lt (h : disk.readEntry pos = some entry) : pos + 32 < 2 ^ 63 := by
  obtain ⟨bytes, hbytes, -⟩ := Option.map_eq_some_iff.mp h
  have hlength := disk.length_lt
  rw [Disk.fread] at hbytes
  split at hbytes
  · omega
  · cases hbytes

/-- Where a walk leaves the file. -/
def Walk.last : Walk → Nat
  | .stop pos => pos + 32
  | .next _ rest => rest.last
  | .into _ _ rest => rest.last

/-- The end of `follow`, with the position of the file for the records it read. -/
def Outcome.leave : Outcome → Return
  | .done children walk => .done children walk.last
  | .abort => .abort
  | .timeout => .timeout

/-- Where the cursor is left does not depend on the way there, -/
theorem Outcome.leave_next {o : Outcome} : (o.after (.next pos)).leave = o.leave := by
  cases o <;> rfl

/-- nor on the directories that it went into. -/
theorem Outcome.leave_into {o : Outcome} : (o.after (.into pos walk)).leave = o.leave := by
  cases o <;> rfl

/-- **The shared position.** Whatever the contents and the subdirectories do to the position of
the file, the next record that is read is the one behind the last one. -/
theorem followFile_eq (fuel pos : Nat) (node : List Node) :
    followFile disk bpb fuel pos node = (follow disk bpb fuel pos node).leave := by
  induction fuel generalizing pos node with
  | zero => rfl
  | succ fuel ih =>
      rw [followFile, follow, Disk.readNext]
      cases hread : disk.readEntry pos with
      | none => rfl
      | some entry =>
          -- back behind the record, wherever the file is
          have hback : ∀ p, seek p (pos + 32) = pos + 32 := fun p => if_pos (readEntry_lt hread)
          simp only [Option.map_some]
          split
          · rw [ih, Outcome.leave_next]
          · split
            · rfl
            · split
              · rw [ih]
                cases follow disk bpb fuel
                    (seek (pos + 32) (getOffsetFromCluster entry.firstCluster bpb)) [] with
                | done children walk =>
                    simp only [Outcome.leave.eq_1]
                    rw [hback, ih, Outcome.leave_into]
                | abort | timeout => rfl
              · rw [Disk.freadNext]
                cases disk.fread (seek (pos + 32) (getOffsetFromCluster entry.firstCluster bpb))
                    entry.fileSize with
                | none => rfl
                | some contents =>
                    simp only [Option.map_some]
                    rw [hback, ih, Outcome.leave_next]

/-- What is returned with the shared cursor is returned with offsets too. -/
theorem followFile_eq_done (h : followFile disk bpb fuel pos node = .done children finish) :
    ∃ walk, follow disk bpb fuel pos node = .done children walk ∧ walk.last = finish := by
  rw [followFile_eq] at h
  cases hfollow : follow disk bpb fuel pos node with
  | done children' walk =>
      rw [hfollow] at h
      obtain ⟨rfl, rfl⟩ := Return.done.inj h
      exact ⟨walk, rfl, rfl⟩
  | abort | timeout =>
      rw [hfollow] at h
      cases h

/-! ## What the image lists -/

/-- The walk goes on where it is. -/
theorem Reaches.trans (h : Reaches disk bpb start pos) (h' : Reaches disk bpb pos pos') :
    Reaches disk bpb start pos' := by
  induction h' with
  | start => exact h
  | next _ hread hstops ih => exact ih.next hread hstops
  | into _ hread hkept hdirectory ih => exact ih.into hread hkept hdirectory

/-- It goes on behind a record that does not end the directory, -/
theorem Reaches.behind (hread : disk.readEntry start = some entry) (hstops : ¬ entry.Stops)
    (h : Reaches disk bpb (start + 32) pos) : Reaches disk bpb start pos :=
  Reaches.trans (.next .start hread hstops) h

/-- and into a directory that is kept. -/
theorem Reaches.inside (hread : disk.readEntry start = some entry) (hkept : entry.Kept)
    (hdirectory : entry.isDirectory = true)
    (h : Reaches disk bpb (getOffsetFromCluster entry.firstCluster bpb) pos) :
    Reaches disk bpb start pos :=
  Reaches.trans (.into .start hread hkept hdirectory) h

/-- A record is the first one, or behind the first one, or in the directory of the first
one. -/
theorem Reaches.cases_head (h : Reaches disk bpb start pos) (hread : disk.readEntry start = some entry) :
    pos = start ∨ (¬ entry.Stops ∧ Reaches disk bpb (start + 32) pos) ∨
      (entry.Kept ∧ entry.isDirectory = true ∧
        Reaches disk bpb (getOffsetFromCluster entry.firstCluster bpb) pos) := by
  induction h with
  | start => exact .inl rfl
  | next _ hread' hstops ih =>
      rcases ih with rfl | ⟨h1, h2⟩ | ⟨h1, h2, h3⟩
      · obtain rfl := Option.some.inj (hread.symm.trans hread')
        exact .inr (.inl ⟨hstops, .start⟩)
      · exact .inr (.inl ⟨h1, h2.next hread' hstops⟩)
      · exact .inr (.inr ⟨h1, h2, h3.next hread' hstops⟩)
  | into _ hread' hkept hdirectory ih =>
      rcases ih with rfl | ⟨h1, h2⟩ | ⟨h1, h2, h3⟩
      · obtain rfl := Option.some.inj (hread.symm.trans hread')
        exact .inr (.inr ⟨hkept, hdirectory, .start⟩)
      · exact .inr (.inl ⟨h1, h2.into hread' hkept hdirectory⟩)
      · exact .inr (.inr ⟨h1, h2, h3.into hread' hkept hdirectory⟩)

/-- Directories lie at offsets that fit in a `long`. -/
theorem Lists.lt (h : Lists disk bpb pos nodes) : pos < 2 ^ 63 := by
  cases h with
  | stop hread _ | hidden hread _ _ | file hread _ _ _ _ | directory hread _ _ _ _ =>
      exact (Nat.le_add_right pos 32).trans_lt (readEntry_lt hread)

/-- What is listed from a record on. -/
theorem Lists.cases_read (h : Lists disk bpb pos nodes) (hread : disk.readEntry pos = some entry) :
    (entry.Stops ∧ nodes = []) ∨ (entry.isHidden = true ∧ Lists disk bpb (pos + 32) nodes) ∨
      (∃ contents rest, entry.Kept ∧ entry.isDirectory = false ∧
        contentsOf disk bpb entry = some contents ∧ Lists disk bpb (pos + 32) rest ∧
        nodes = .file entry.getFileName contents :: rest) ∨
      ∃ children rest, entry.Kept ∧ entry.isDirectory = true ∧
        Lists disk bpb (getOffsetFromCluster entry.firstCluster bpb) children ∧
        Lists disk bpb (pos + 32) rest ∧
        nodes = .directory entry.getFileName (sort nameRank children) :: rest := by
  cases h with
  | stop hread' hstops =>
      obtain rfl := Option.some.inj (hread.symm.trans hread')
      exact .inl ⟨hstops, rfl⟩
  | hidden hread' hhidden hrest =>
      obtain rfl := Option.some.inj (hread.symm.trans hread')
      exact .inr (.inl ⟨hhidden, hrest⟩)
  | file hread' hkept hfile hcontents hrest =>
      obtain rfl := Option.some.inj (hread.symm.trans hread')
      exact .inr (.inr (.inl ⟨_, _, hkept, hfile, hcontents, hrest, rfl⟩))
  | directory hread' hkept hdirectory hinside hrest =>
      obtain rfl := Option.some.inj (hread.symm.trans hread')
      exact .inr (.inr (.inr ⟨_, _, hkept, hdirectory, hinside, hrest, rfl⟩))

/-- The nodes of a directory are determined by the image. -/
theorem Lists.unique (h : Lists disk bpb pos nodes) (h' : Lists disk bpb pos nodes') :
    nodes' = nodes := by
  induction h generalizing nodes' with
  | stop hread hstops =>
      rcases h'.cases_read hread with h' | h' | h' | h' <;>
        grind [DirectoryEntry.Kept, DirectoryEntry.Stops]
  | hidden hread hhidden _ ih =>
      rcases h'.cases_read hread with h' | ⟨-, hrest⟩ | h' | h'
      · grind [DirectoryEntry.Stops]
      · exact ih hrest
      · grind [DirectoryEntry.Kept]
      · grind [DirectoryEntry.Kept]
  | file hread hkept hfile hcontents _ ih =>
      rcases h'.cases_read hread with h' | h' | ⟨contents, rest, -, -, hcontents', hrest, rfl⟩ | h'
      · grind [DirectoryEntry.Kept, DirectoryEntry.Stops]
      · grind [DirectoryEntry.Kept]
      · rw [Option.some.inj (hcontents'.symm.trans hcontents), ih hrest]
      · grind
  | directory hread hkept hdirectory _ _ ihinside ih =>
      rcases h'.cases_read hread with h' | h' | h' | ⟨children, rest, -, -, hinside, hrest, rfl⟩
      · grind [DirectoryEntry.Kept, DirectoryEntry.Stops]
      · grind [DirectoryEntry.Kept]
      · grind
      · rw [ihinside hinside, ih hrest]

/-! ## The walk and the listing -/

/-- A field of `k` bytes has less than `256 ^ k` values. -/
theorem field_lt {bytes : List UInt8} {offset k : Nat} : Disk.field bytes offset k < 256 ^ k := by
  refine (Nat.ofDigits_lt_base_pow_length (by decide) ?_).trans_le ?_
  · intro d hd
    obtain ⟨c, -, rfl⟩ := List.mem_map.mp hd
    exact c.toNat_lt
  · refine Nat.pow_le_pow_right (by decide) ?_
    rw [List.length_map]
    exact List.length_take_le _ _

/-- Clusters from 2 on have their place in the range of a `long`. -/
theorem getOffsetFromCluster_lt {cluster : Nat} (hbpb : bpb.Typed) (hlow : 2 ≤ cluster)
    (hhigh : cluster < 2 ^ 16) : getOffsetFromCluster cluster bpb < 2 ^ 63 := by
  obtain ⟨h1, h2, h3, h4, h5, h6⟩ := hbpb
  have hfats : bpb.numFats * bpb.sectorsPerFat ≤ 2 ^ 8 * 2 ^ 16 := Nat.mul_le_mul h4.le h6.le
  have hroot : getRootDirectoryLocation bpb ≤ (2 ^ 25) * 2 ^ 16 :=
    Nat.mul_le_mul (by omega) h1.le
  have hdata : (cluster - 2) * (bpb.sectorsPerCluster * bpb.bytesPerSector) ≤ 2 ^ 16 * (2 ^ 8 * 2 ^ 16) :=
    Nat.mul_le_mul (by omega) (Nat.mul_le_mul h2.le h1.le)
  have hwrap : (cluster + (2 ^ 64 - 2)) * bpb.sectorsPerCluster * bpb.bytesPerSector =
      (cluster - 2) * (bpb.sectorsPerCluster * bpb.bytesPerSector) +
        2 ^ 64 * (bpb.sectorsPerCluster * bpb.bytesPerSector) := by
    rw [show cluster + (2 ^ 64 - 2) = cluster - 2 + 2 ^ 64 by omega, Nat.mul_assoc, Nat.add_mul]
  rw [getOffsetFromCluster, hwrap, ← Nat.add_assoc, Nat.add_mul_mod_self_left]
  refine (Nat.mod_le _ _).trans_lt ?_
  omega

/-- The number of a cluster has two bytes. -/
theorem firstCluster_lt (h : disk.readEntry pos = some entry) : entry.firstCluster < 2 ^ 16 := by
  obtain ⟨bytes, -, rfl⟩ := Option.map_eq_some_iff.mp h
  exact field_lt

/-- What the walk finds is what the image lists. -/
theorem follow_lists (hbpb : bpb.Typed) (h : follow disk bpb fuel pos node = .done children walk)
    (hclusters : ∀ p e, Reaches disk bpb pos p → disk.readEntry p = some e → e.Kept →
      2 ≤ e.firstCluster) :
    ∃ nodes, Lists disk bpb pos nodes ∧ children = nodes.foldl addChild node := by
  induction fuel generalizing pos node children walk with
  | zero => cases h
  | succ fuel ih =>
      obtain ⟨entry, hread⟩ := exists_readEntry h
      obtain ⟨k, hk, hturns⟩ := follow_turns h hread
      obtain rfl := Nat.succ.inj hk
      have hbehind : ¬ entry.Stops → ∀ p e, Reaches disk bpb (pos + 32) p →
          disk.readEntry p = some e → e.Kept → 2 ≤ e.firstCluster :=
        fun hstops p e hp => hclusters p e (hp.behind hread hstops)
      -- the seek to the place of the cluster succeeds
      have hseek : entry.Kept → seek (pos + 32) (getOffsetFromCluster entry.firstCluster bpb) =
          getOffsetFromCluster entry.firstCluster bpb := fun hkept =>
        if_pos (getOffsetFromCluster_lt hbpb (hclusters pos entry .start hread hkept)
          (firstCluster_lt hread))
      cases hturns with
      | hidden hhidden hrest heq =>
          have hstops : ¬ entry.Stops := fun hs => by simp [hs.1] at hhidden
          obtain ⟨nodes, hlists, hchildren⟩ := ih hrest (hbehind hstops)
          exact ⟨nodes, .hidden hread hhidden hlists, hchildren⟩
      | stop hvisible hname hchildren heq => exact ⟨[], .stop hread ⟨hvisible, hname⟩, hchildren⟩
      | file hvisible hname hfile hcontents hrest heq =>
          have hkept : entry.Kept := ⟨hvisible, hname⟩
          obtain ⟨nodes, hlists, hchildren⟩ := ih hrest (hbehind hkept.not_stops)
          rw [hseek hkept] at hcontents
          have hsize : entry.fileSize ≠ 0 := Nat.ne_of_gt (Disk.fread_lt hcontents).1
          have hcontents : contentsOf disk bpb entry = some _ := (if_neg hsize).trans hcontents
          exact ⟨_, .file hread hkept hfile hcontents hlists, hchildren⟩
      | directory hvisible hname hdirectory hinner hrest heq =>
          have hkept : entry.Kept := ⟨hvisible, hname⟩
          obtain ⟨nodes, hlists, hchildren⟩ := ih hrest (hbehind hkept.not_stops)
          rw [hseek hkept] at hinner
          obtain ⟨inside, hinside, rfl⟩ := ih hinner fun p e hp =>
            hclusters p e (hp.inside hread hkept hdirectory)
          rw [foldl_addChild] at hchildren
          exact ⟨_, .directory hread hkept hdirectory hinside hlists, hchildren⟩

/-- If no file that the image lists is empty, the walk finds what is listed. -/
theorem Lists.follow (h : Lists disk bpb pos nodes)
    (hsizes : ∀ p e, Reaches disk bpb pos p → disk.readEntry p = some e → e.Kept →
      e.isDirectory = false → e.fileSize ≠ 0) :
    ∃ fuel, ∀ node, ∃ walk, follow disk bpb fuel pos node = .done (nodes.foldl addChild node) walk := by
  induction h with
  | stop hread hstops =>
      refine ⟨1, ?_⟩
      intro node
      exact ⟨_, Turns.follow hread (.stop hstops.1 hstops.2 rfl rfl)⟩
  | @hidden pos entry nodes hread hhidden _ ih =>
      have hstops : ¬ entry.Stops := fun hs => by simp [hs.1] at hhidden
      obtain ⟨fuel, hrest⟩ := ih fun p e hp => hsizes p e (hp.behind hread hstops)
      refine ⟨fuel + 1, ?_⟩
      intro node
      obtain ⟨walk, hrest⟩ := hrest node
      exact ⟨_, Turns.follow hread (.hidden hhidden hrest rfl)⟩
  | @file pos entry contents nodes hread hkept hfile hcontents _ ih =>
      obtain ⟨fuel, hrest⟩ := ih fun p e hp => hsizes p e (hp.behind hread hkept.not_stops)
      rw [contentsOf, if_neg (hsizes pos entry .start hread hkept hfile)] at hcontents
      have hseek : seek (pos + 32) (getOffsetFromCluster entry.firstCluster bpb) =
          getOffsetFromCluster entry.firstCluster bpb := if_pos (Disk.fread_lt hcontents).2
      refine ⟨fuel + 1, ?_⟩
      intro node
      obtain ⟨walk, hrest⟩ := hrest (addChild node (.file entry.getFileName contents))
      rw [← hseek] at hcontents
      exact ⟨_, Turns.follow hread (.file hkept.1 hkept.2 hfile hcontents hrest rfl)⟩
  | @directory pos entry children nodes hread hkept hdirectory hinside _ ihinside ih =>
      obtain ⟨fuel1, hinner⟩ := ihinside fun p e hp =>
        hsizes p e (hp.inside hread hkept hdirectory)
      obtain ⟨fuel2, hrest⟩ := ih fun p e hp => hsizes p e (hp.behind hread hkept.not_stops)
      have hseek : seek (pos + 32) (getOffsetFromCluster entry.firstCluster bpb) =
          getOffsetFromCluster entry.firstCluster bpb := if_pos hinside.lt
      refine ⟨max fuel1 fuel2 + 1, ?_⟩
      intro node
      obtain ⟨inner, hinner⟩ := hinner []
      obtain ⟨walk, hrest⟩ := hrest (addChild node
        (.directory entry.getFileName (sort nameRank children)))
      have hinner := follow_mono hinner (le_max_left fuel1 fuel2)
      rw [← hseek, foldl_addChild] at hinner
      exact ⟨_, Turns.follow hread (.directory hkept.1 hkept.2 hdirectory hinner
        (follow_mono hrest (le_max_right fuel1 fuel2)) rfl)⟩

/-- Behind a record that does not end the directory, there is more. -/
theorem Lists.behind (h : Lists disk bpb pos nodes) (hread : disk.readEntry pos = some entry)
    (hstops : ¬ entry.Stops) : ∃ rest, Lists disk bpb (pos + 32) rest := by
  rcases h.cases_read hread with ⟨hs, -⟩ | ⟨-, hrest⟩ | ⟨_, rest, -, -, -, hrest, -⟩ |
    ⟨_, rest, -, -, -, hrest, -⟩
  · exact absurd hs hstops
  · exact ⟨_, hrest⟩
  · exact ⟨_, hrest⟩
  · exact ⟨_, hrest⟩

/-- A directory in a directory that lists its files lists its own. -/
theorem Lists.inside (h : Lists disk bpb pos nodes) (hread : disk.readEntry pos = some entry)
    (hkept : entry.Kept) (hdirectory : entry.isDirectory = true) :
    ∃ children, Lists disk bpb (getOffsetFromCluster entry.firstCluster bpb) children := by
  rcases h.cases_read hread with ⟨hs, -⟩ | ⟨hhidden, -⟩ | ⟨_, _, -, hfile, -⟩ |
    ⟨children, _, -, -, hinside, -⟩
  · exact absurd hs hkept.not_stops
  · exact absurd (hhidden.symm.trans hkept.1) Bool.noConfusion
  · exact absurd (hfile.symm.trans hdirectory) Bool.noConfusion
  · exact ⟨_, hinside⟩

/-- The walk goes on behind a record that does not end the directory. -/
theorem Turns.behind (h : Turns disk bpb fuel pos node children walk entry) (hstops : ¬ entry.Stops) :
    ∃ node' walk', Fat16.follow disk bpb fuel (pos + 32) node' = .done children walk' := by
  cases h with
  | hidden _ hrest _ | file _ _ _ _ hrest _ | directory _ _ _ _ hrest _ => exact ⟨_, _, hrest⟩
  | stop hvisible hname _ _ => exact absurd ⟨hvisible, hname⟩ hstops

/-- The walk into a subdirectory. -/
theorem Turns.inside (h : Turns disk bpb fuel pos node children walk entry) (hkept : entry.Kept)
    (hdirectory : entry.isDirectory = true) :
    ∃ inside inner, Fat16.follow disk bpb fuel
      (seek (pos + 32) (getOffsetFromCluster entry.firstCluster bpb)) [] = .done inside inner := by
  cases h with
  | hidden hhidden _ _ => exact absurd (hhidden.symm.trans hkept.1) Bool.noConfusion
  | stop _ hname _ _ => exact absurd hname hkept.2
  | file _ _ hfile _ _ _ => exact absurd (hfile.symm.trans hdirectory) Bool.noConfusion
  | directory _ _ _ hinner _ _ => exact ⟨_, _, hinner⟩

/-- The contents of a file were read. -/
theorem Turns.fileSize_pos (h : Turns disk bpb fuel pos node children walk entry) (hkept : entry.Kept)
    (hfile : entry.isDirectory = false) : 0 < entry.fileSize := by
  cases h with
  | hidden hhidden _ _ => exact absurd (hhidden.symm.trans hkept.1) Bool.noConfusion
  | stop _ hname _ _ => exact absurd hname hkept.2
  | file _ _ _ hcontents _ _ => exact (Disk.fread_lt hcontents).1
  | directory _ _ hdirectory _ _ _ => exact absurd (hfile.symm.trans hdirectory) Bool.noConfusion

/-- A walk that returns met no empty file. -/
theorem Lists.fileSize_pos (h : Lists disk bpb start nodes)
    (hfollow : Fat16.follow disk bpb fuel start node = .done children walk)
    (hreaches : Reaches disk bpb start pos) (hread : disk.readEntry pos = some entry)
    (hkept : entry.Kept) (hfile : entry.isDirectory = false) : 0 < entry.fileSize := by
  induction fuel generalizing start node nodes children walk with
  | zero => cases hfollow
  | succ fuel ih =>
      obtain ⟨first, hfirst⟩ := exists_readEntry hfollow
      obtain ⟨k, hk, hturns⟩ := follow_turns hfollow hfirst
      obtain rfl := Nat.succ.inj hk
      rcases hreaches.cases_head hfirst with rfl | ⟨hstops, hbehind⟩ | ⟨hkept', hdirectory, hin⟩
      · obtain rfl := Option.some.inj (hread.symm.trans hfirst)
        exact hturns.fileSize_pos hkept hfile
      · obtain ⟨rest, hrest⟩ := h.behind hfirst hstops
        obtain ⟨node', walk', hfollow'⟩ := hturns.behind hstops
        exact ih hrest hfollow' hbehind
      · obtain ⟨inside, hinside⟩ := h.inside hfirst hkept' hdirectory
        obtain ⟨inner, walk', hinner⟩ := hturns.inside hkept' hdirectory
        rw [seek, if_pos hinside.lt] at hinner
        exact ih hinside hinner hin

/-- **One position is enough.** On every image on which `follow` returns, and on which the
records it adds have clusters from 2 on: the tree it builds with one file position for all
directories is the one that the image lists, and the image lists no other. -/
theorem followFile_eq_lists (hbpb : bpb.Typed)
    (h : followFile disk bpb fuel pos [] = .done children finish)
    (hclusters : ∀ p e, Reaches disk bpb pos p → disk.readEntry p = some e → e.Kept →
      2 ≤ e.firstCluster) :
    ∃ nodes, Lists disk bpb pos nodes ∧ (∀ nodes', Lists disk bpb pos nodes' → nodes' = nodes) ∧
      children = sort nameRank nodes := by
  obtain ⟨walk, hfollow, -⟩ := followFile_eq_done h
  obtain ⟨nodes, hlists, hchildren⟩ := follow_lists hbpb hfollow hclusters
  exact ⟨nodes, hlists, fun nodes' h' => hlists.unique h', hchildren.trans foldl_addChild⟩

end Walks

/-! ## A small image -/

/-- A root directory of two records behind one boot sector; sectors and clusters have 64
bytes. -/
def smallBlock : BiosParameterBlock := ⟨64, 1, 0, 0, 2, 0⟩

/-- The record of a file `A` of `size` bytes in the first cluster. -/
def smallEntry (size : UInt8) : DirectoryEntry :=
  ⟨65 :: List.replicate 7 32, List.replicate 3 32, 0x20, 2, size.toNat⟩

/-- A record without a name that is marked as an archive, so that it is not hidden. -/
def endEntry : DirectoryEntry := ⟨List.replicate 8 0, List.replicate 3 0, 0x20, 0, 0⟩

/-- The records of the small disk have fields of the right sizes. -/
theorem smallEntry_typed (size : UInt8) : ∀ e ∈ [smallEntry size, endEntry], e.Typed := by
  have hsize := size.toNat_lt
  intro e he
  simp only [List.mem_cons, List.not_mem_nil, or_false] at he
  rcases he with rfl | rfl
  · refine ⟨rfl, rfl, ?_, ?_⟩ <;> simp only [smallEntry] <;> omega
  · exact ⟨rfl, rfl, by decide, by decide⟩

/-- An image with the file `A` in its root directory. -/
def smallDisk (size : UInt8) : Disk where
  bytes := image 64 [smallEntry size, endEntry] (List.replicate 64 7)
  length_lt := by
    rw [image_length (smallEntry_typed size), List.length_replicate]
    simp only [List.length_cons, List.length_nil]
    decide

section Small

variable {size : UInt8}

/-- The record of its file, -/
theorem smallDisk_readEntry : (smallDisk size).readEntry 64 = some (smallEntry size) :=
  readEntry_image (i := 0) rfl (smallEntry_typed size) rfl

/-- and the record behind it. -/
theorem smallDisk_end : (smallDisk size).readEntry 96 = some endEntry :=
  readEntry_image (i := 1) rfl (smallEntry_typed size) rfl

/-- The file is kept, -/
theorem smallEntry_kept : (smallEntry size).Kept := by
  refine ⟨?_, by simp [DirectoryEntry.getFileName, smallEntry]⟩
  simp [DirectoryEntry.isHidden, smallEntry]
  decide

/-- it is no directory, -/
theorem smallEntry_isDirectory : (smallEntry size).isDirectory = false := by
  have hand : (0x20 : UInt8) &&& 0x10 = 0 := by decide
  simp [DirectoryEntry.isDirectory, smallEntry, hand]

/-- and the record behind it ends the directory. -/
theorem endEntry_stops : endEntry.Stops := ⟨by decide, by decide⟩

/-- The contents are sevens. -/
theorem smallDisk_contents (h : size ≤ 64) :
    contentsOf (smallDisk size) smallBlock (smallEntry size) =
      some (List.replicate size.toNat 7) := by
  have hle : size.toNat ≤ 64 := UInt8.le_iff_toNat_le.mp h
  have hoffset : getOffsetFromCluster 2 smallBlock = 128 := by decide
  by_cases hzero : size.toNat = 0
  · rw [hzero]
    exact if_pos hzero
  · have hdata : List.replicate 64 (7 : UInt8) =
        [] ++ (List.replicate size.toNat 7 ++ List.replicate (64 - size.toNat) 7) := by
      rw [List.nil_append, ← List.replicate_add, Nat.add_sub_of_le hle]
    have hread : (smallDisk size).fread 128 (List.replicate size.toNat (7 : UInt8)).length =
        some (List.replicate size.toNat 7) :=
      fread_image 64 [] (List.replicate (64 - size.toNat) 7) (by rw [← hdata]; rfl)
        (smallEntry_typed size) (by simpa using hzero) rfl
    rw [List.length_replicate, ← hoffset] at hread
    exact (if_neg hzero).trans hread

/-- The image lists `A`, whatever its size. -/
theorem smallDisk_lists (h : size ≤ 64) :
    Lists (smallDisk size) smallBlock 64
      [.file (smallEntry size).getFileName (List.replicate size.toNat 7)] :=
  .file smallDisk_readEntry smallEntry_kept smallEntry_isDirectory (smallDisk_contents h)
    (.stop smallDisk_end endEntry_stops)

end Small

/-! ## An image with a directory -/

/-- As `smallBlock`, with four records in the root directory. -/
def nestedBlock : BiosParameterBlock := ⟨64, 1, 0, 0, 4, 0⟩

/-- The record of a directory `D` in the first cluster. -/
def directoryEntry : DirectoryEntry := ⟨68 :: List.replicate 7 32, List.replicate 3 32, 0x10, 2, 0⟩

/-- The record of a file `B.C` of two bytes in the second cluster. -/
def innerEntry : DirectoryEntry := ⟨66 :: List.replicate 7 32, [67, 32, 32], 0x20, 3, 2⟩

/-- The record of a file `A` of three bytes in the third cluster. -/
def outerEntry : DirectoryEntry := ⟨65 :: List.replicate 7 32, List.replicate 3 32, 0x20, 4, 3⟩

/-- The root directory with `D` and `A`, and the directory `D` with `B.C`. -/
def nestedRecords : List DirectoryEntry :=
  [directoryEntry, outerEntry, endEntry, endEntry, innerEntry, endEntry]

/-- The records have fields of the right sizes. -/
theorem nestedRecords_typed : ∀ e ∈ nestedRecords, e.Typed := by
  simp only [nestedRecords, List.forall_mem_cons, List.not_mem_nil, false_implies, implies_true, and_true]
  have hend : endEntry.Typed := ⟨rfl, rfl, by decide, by decide⟩
  exact ⟨⟨rfl, rfl, by decide, by decide⟩, ⟨rfl, rfl, by decide, by decide⟩, hend, hend,
    ⟨rfl, rfl, by decide, by decide⟩, hend⟩

/-- The image, with the contents of the two files behind the records. -/
def nestedDisk : Disk where
  bytes := image 64 nestedRecords (List.replicate 64 8 ++ List.replicate 64 7)
  length_lt := by
    rw [image_length nestedRecords_typed, List.length_append, List.length_replicate, List.length_replicate]
    decide

section Nested

variable {pos : Nat} {entry : DirectoryEntry}

/-- They are read one after the other. -/
theorem nestedDisk_readEntry {i : Nat} (h : nestedRecords[i]? = some entry) :
    nestedDisk.readEntry (64 + 32 * i) = some entry :=
  readEntry_image rfl nestedRecords_typed h

/-- What is read at a record is that record. -/
theorem nestedDisk_entry {i : Nat} {record : DirectoryEntry} (h : nestedRecords[i]? = some record)
    (hread : nestedDisk.readEntry (64 + 32 * i) = some entry) : entry = record :=
  Option.some.inj (hread.symm.trans (nestedDisk_readEntry h))

/-- The directory is kept, -/
theorem directoryEntry_kept : directoryEntry.Kept := ⟨by decide, by decide⟩

/-- and so are the file in it -/
theorem innerEntry_kept : innerEntry.Kept := ⟨by decide, by decide⟩

/-- and the file beside it. -/
theorem outerEntry_kept : outerEntry.Kept := ⟨by decide, by decide⟩

/-- The walk reads the two records and the end of the root directory, and those of `D`. -/
theorem nestedDisk_reaches (h : Reaches nestedDisk nestedBlock 64 pos) :
    ∃ i ∈ [0, 1, 2, 4, 5], pos = 64 + 32 * i := by
  induction h with
  | start => exact ⟨0, by decide, rfl⟩
  | @next pos entry _ hread hstops ih =>
      obtain ⟨i, hi, rfl⟩ := ih
      simp only [List.mem_cons, List.not_mem_nil, or_false] at hi
      rcases hi with rfl | rfl | rfl | rfl | rfl
      · exact ⟨1, by decide, rfl⟩
      · exact ⟨2, by decide, rfl⟩
      · obtain rfl := nestedDisk_entry (i := 2) rfl hread
        exact absurd endEntry_stops hstops
      · exact ⟨5, by decide, rfl⟩
      · obtain rfl := nestedDisk_entry (i := 5) rfl hread
        exact absurd endEntry_stops hstops
  | @into pos entry _ hread hkept hdirectory ih =>
      obtain ⟨i, hi, rfl⟩ := ih
      simp only [List.mem_cons, List.not_mem_nil, or_false] at hi
      rcases hi with rfl | rfl | rfl | rfl | rfl
      · obtain rfl := nestedDisk_entry (i := 0) rfl hread
        exact ⟨4, by decide, by decide⟩
      · obtain rfl := nestedDisk_entry (i := 1) rfl hread
        exact absurd hdirectory (by decide)
      · obtain rfl := nestedDisk_entry (i := 2) rfl hread
        exact absurd hdirectory (by decide)
      · obtain rfl := nestedDisk_entry (i := 4) rfl hread
        exact absurd hdirectory (by decide)
      · obtain rfl := nestedDisk_entry (i := 5) rfl hread
        exact absurd hdirectory (by decide)

/-- What is added are the directory and the two files. -/
theorem nestedDisk_kept (h : Reaches nestedDisk nestedBlock 64 pos)
    (hread : nestedDisk.readEntry pos = some entry) (hkept : entry.Kept) :
    entry ∈ [directoryEntry, outerEntry, innerEntry] := by
  obtain ⟨i, hi, rfl⟩ := nestedDisk_reaches h
  simp only [List.mem_cons, List.not_mem_nil, or_false] at hi
  rcases hi with rfl | rfl | rfl | rfl | rfl
  · obtain rfl := nestedDisk_entry (i := 0) rfl hread
    exact List.mem_cons_self
  · obtain rfl := nestedDisk_entry (i := 1) rfl hread
    exact List.mem_cons_of_mem _ List.mem_cons_self
  · obtain rfl := nestedDisk_entry (i := 2) rfl hread
    exact absurd endEntry_stops hkept.not_stops
  · obtain rfl := nestedDisk_entry (i := 4) rfl hread
    exact List.mem_cons_of_mem _ (List.mem_cons_of_mem _ List.mem_cons_self)
  · obtain rfl := nestedDisk_entry (i := 5) rfl hread
    exact absurd endEntry_stops hkept.not_stops

/-- The contents of the file in the directory, -/
theorem nestedDisk_inner : contentsOf nestedDisk nestedBlock innerEntry = some [8, 8] := by
  have hdisk : nestedDisk.bytes = image 64 nestedRecords
      ([] ++ (List.replicate 2 8 ++ (List.replicate 62 8 ++ List.replicate 64 7))) := by
    rw [List.nil_append, ← List.append_assoc, ← List.replicate_add]
    rfl
  have hread := fread_image 64 _ _ hdisk nestedRecords_typed (by decide) rfl
  exact (if_neg (by decide)).trans hread

/-- and those of the file beside it. -/
theorem nestedDisk_outer : contentsOf nestedDisk nestedBlock outerEntry = some [7, 7, 7] := by
  have hdisk : nestedDisk.bytes = image 64 nestedRecords
      (List.replicate 64 8 ++ (List.replicate 3 7 ++ List.replicate 61 7)) := by
    rw [← List.replicate_add]
    rfl
  have hread := fread_image 64 _ _ hdisk nestedRecords_typed (by decide) rfl
  exact (if_neg (by decide)).trans hread

/-- The disk lists a directory with a file in it, and a file. -/
theorem nestedDisk_lists : Lists nestedDisk nestedBlock 64
    [.directory [68] [.file [66, 46, 67] [8, 8]], .file [65] [7, 7, 7]] := by
  have hnames : directoryEntry.getFileName = [68] ∧ innerEntry.getFileName = [66, 46, 67] ∧
      outerEntry.getFileName = [65] := by decide
  obtain ⟨hdirectory, hinner, houter⟩ := hnames
  have hinside : Lists nestedDisk nestedBlock 192 [.file innerEntry.getFileName [8, 8]] :=
    .file (nestedDisk_readEntry (i := 4) rfl) innerEntry_kept (by decide) nestedDisk_inner
      (.stop (nestedDisk_readEntry (i := 5) rfl) endEntry_stops)
  have hsort : sort nameRank [.file innerEntry.getFileName [8, 8]] = [.file innerEntry.getFileName [8, 8]] :=
    List.mergeSort_singleton _
  rw [← hdirectory, ← hinner, ← houter, ← hsort]
  exact .directory (nestedDisk_readEntry (i := 0) rfl) directoryEntry_kept (by decide) hinside
    (.file (nestedDisk_readEntry (i := 1) rfl) outerEntry_kept (by decide) nestedDisk_outer
      (.stop (nestedDisk_readEntry (i := 2) rfl) endEntry_stops))

/-- The tree, with the nodes of the root directory in the order of their names. -/
theorem nestedDisk_follow : ∃ fuel finish, followFile nestedDisk nestedBlock fuel 64 [] =
    .done [.file [65] [7, 7, 7], .directory [68] [.file [66, 46, 67] [8, 8]]] finish := by
  obtain ⟨fuel, hfollow⟩ := nestedDisk_lists.follow fun p e hreaches hread hkept hfile => by
    have hmem := nestedDisk_kept hreaches hread hkept
    simp only [List.mem_cons, List.not_mem_nil, or_false] at hmem
    rcases hmem with rfl | rfl | rfl
    · exact absurd hfile (by decide)
    · decide
    · decide
  obtain ⟨walk, hfollow⟩ := hfollow []
  refine ⟨fuel, walk.last, ?_⟩
  rw [followFile_eq, hfollow]
  rfl

end Nested

/-- That is what the walk with the shared cursor returns. -/
theorem nestedDisk_eq_lists : ∃ fuel children finish nodes,
    followFile nestedDisk nestedBlock fuel 64 [] = .done children finish ∧
      Lists nestedDisk nestedBlock 64 nodes ∧
      (∀ nodes', Lists nestedDisk nestedBlock 64 nodes' → nodes' = nodes) ∧
      children = sort nameRank nodes := by
  obtain ⟨fuel, finish, hfollow⟩ := nestedDisk_follow
  have hclusters : ∀ p e, Reaches nestedDisk nestedBlock 64 p → nestedDisk.readEntry p = some e →
      e.Kept → 2 ≤ e.firstCluster := by
    intro p e hreaches hread hkept
    have hmem := nestedDisk_kept hreaches hread hkept
    simp only [List.mem_cons, List.not_mem_nil, or_false] at hmem
    rcases hmem with rfl | rfl | rfl <;> decide
  obtain ⟨nodes, hnodes⟩ := followFile_eq_lists
    ⟨by decide, by decide, by decide, by decide, by decide, by decide⟩ hfollow hclusters
  exact ⟨fuel, _, finish, nodes, hfollow, hnodes⟩

/-! ## Files of all lengths -/

/-- **Files of all lengths.** On every image that lists the files of its directories, `follow`
returns with all of them exactly if none of their records has a `file_size` of 0. -/
theorem followFile_files_iff {disk : Disk} {bpb : BiosParameterBlock} {pos : Nat} {nodes : List Node}
    (h : Lists disk bpb pos nodes) :
    (∃ fuel finish, followFile disk bpb fuel pos [] = .done (sort nameRank nodes) finish) ↔
      ∀ p e, Reaches disk bpb pos p → disk.readEntry p = some e → e.Kept →
        e.isDirectory = false → e.fileSize ≠ 0 := by
  constructor
  · rintro ⟨fuel, finish, hfollow⟩ p e hreaches hread hkept hfile
    obtain ⟨walk, hfollow, -⟩ := followFile_eq_done hfollow
    exact Nat.ne_of_gt (h.fileSize_pos hfollow hreaches hread hkept hfile)
  · intro hsizes
    obtain ⟨fuel, hfollow⟩ := h.follow hsizes
    obtain ⟨walk, hfollow⟩ := hfollow []
    refine ⟨fuel, walk.last, ?_⟩
    rw [followFile_eq, hfollow, foldl_addChild]
    rfl

theorem smallDisk_files :
    (∃ fuel finish, followFile (smallDisk 3) smallBlock fuel 64 [] =
        .done (sort nameRank [.file (smallEntry 3).getFileName (List.replicate 3 7)]) finish) ↔
      ∀ p e, Reaches (smallDisk 3) smallBlock 64 p → (smallDisk 3).readEntry p = some e → e.Kept →
        e.isDirectory = false → e.fileSize ≠ 0 :=
  followFile_files_iff (smallDisk_lists (by decide))

/-- **An empty file.** The image lists the empty file `A`, but the assertion on `fread` fails
there. -/
theorem smallDisk_empty_file :
    Lists (smallDisk 0) smallBlock 64 [.file (smallEntry 0).getFileName []] ∧
      ∀ fuel, followFile (smallDisk 0) smallBlock (fuel + 1) 64 [] = .abort := by
  refine ⟨smallDisk_lists (by decide), ?_⟩
  intro fuel
  have hname : (smallEntry 0).getFileName ≠ [] := smallEntry_kept.2
  have hsize : (smallEntry 0).fileSize = 0 := rfl
  have hempty : ∀ pos, (smallDisk 0).freadNext 0 pos = none := fun _ => rfl
  simp only [followFile, Disk.readNext, smallDisk_readEntry, Option.map_some, smallEntry_kept.1,
    smallEntry_isDirectory, hname, hsize, hempty, Bool.false_eq_true, if_false]

end Fat16
