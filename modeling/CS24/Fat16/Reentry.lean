import CS24.Fat16.SharedCursor
import CS24.Lib.System

/-!
# Directories inside themselves

`follow` goes into every directory that a record names, also if it is inside that directory
already.  `Gets` are the records that its loop gets to, after subdirectories that come to
their ends, and `Opens` are the subdirectories that it goes into.  A walk comes to an end,
or to a failed assertion, just if it opens no directory that it is inside of.
-/

namespace Fat16

open Relation System

section Image

variable (disk : Disk) (bpb : BiosParameterBlock)

/-- Where `follow` looks for the records or the contents of a record at `pos`. -/
def target (pos : Nat) (entry : DirectoryEntry) : Nat :=
  seek (pos + 32) (getOffsetFromCluster entry.firstCluster bpb)

/-- The loop of `follow` at a record comes to the end of the directory. -/
inductive Completes : Nat → Prop
  | stop {pos : Nat} {entry : DirectoryEntry} : disk.readEntry pos = some entry →
      entry.Stops → Completes pos
  | hidden {pos : Nat} {entry : DirectoryEntry} : disk.readEntry pos = some entry →
      entry.isHidden = true → Completes (pos + 32) → Completes pos
  | file {pos : Nat} {entry : DirectoryEntry} {contents : List UInt8} :
      disk.readEntry pos = some entry → entry.Kept → entry.isDirectory = false →
      disk.fread (target bpb pos entry) entry.fileSize = some contents →
      Completes (pos + 32) → Completes pos
  | directory {pos : Nat} {entry : DirectoryEntry} : disk.readEntry pos = some entry →
      entry.Kept → entry.isDirectory = true → Completes (target bpb pos entry) →
      Completes (pos + 32) → Completes pos

/-- The loop of `follow` in the directory at `start` gets to the record at a position. -/
inductive Gets (start : Nat) : Nat → Prop
  | start : Gets start start
  | hidden {pos : Nat} {entry : DirectoryEntry} : Gets start pos →
      disk.readEntry pos = some entry → entry.isHidden = true → Gets start (pos + 32)
  | file {pos : Nat} {entry : DirectoryEntry} {contents : List UInt8} : Gets start pos →
      disk.readEntry pos = some entry → entry.Kept → entry.isDirectory = false →
      disk.fread (target bpb pos entry) entry.fileSize = some contents → Gets start (pos + 32)
  | directory {pos : Nat} {entry : DirectoryEntry} : Gets start pos →
      disk.readEntry pos = some entry → entry.Kept → entry.isDirectory = true →
      Completes disk bpb (target bpb pos entry) → Gets start (pos + 32)

/-- The walk goes from the directory at `start` into the one at `inside`. -/
def Opens (start inside : Nat) : Prop :=
  ∃ pos entry, Gets disk bpb start pos ∧ disk.readEntry pos = some entry ∧ entry.Kept ∧
    entry.isDirectory = true ∧ inside = target bpb pos entry

/-- The walk from a record on is over within the fuel: it returns or an assertion fails. -/
def Ends (fuel pos : Nat) : Prop := ∃ node, follow disk bpb fuel pos node ≠ .timeout

end Image

variable {disk : Disk} {bpb : BiosParameterBlock} {start pos inside fuel fuel' : Nat}
  {entry : DirectoryEntry} {node node' children : List Node} {walk : Walk}

/-! ## One turn of the loop -/

section Turn

variable (hread : disk.readEntry pos = some entry)
include hread

/-- A hidden record is passed over, -/
theorem follow_hidden (hhidden : entry.isHidden = true) :
    follow disk bpb (fuel + 1) pos node = (follow disk bpb fuel (pos + 32) node).after (.next pos) := by
  simp [follow, hread, hhidden]

/-- one that ends the directory ends the walk, -/
theorem follow_stop (hstops : entry.Stops) :
    follow disk bpb (fuel + 1) pos node = .done node (.stop pos) := by
  simp [follow, hread, hstops.1, hstops.2]

/-- a file is read and added, -/
theorem follow_file (hkept : entry.Kept) (hfile : entry.isDirectory = false) :
    follow disk bpb (fuel + 1) pos node =
      match disk.fread (target bpb pos entry) entry.fileSize with
      | none => .abort
      | some contents =>
        (follow disk bpb fuel (pos + 32) (addChild node (.file entry.getFileName contents))).after
          (.next pos) := by
  simp only [follow, hread, hkept.1, hkept.2, hfile, Bool.false_eq_true, if_false]
  rfl

/-- and a directory is walked and added. -/
theorem follow_directory (hkept : entry.Kept) (hdirectory : entry.isDirectory = true) :
    follow disk bpb (fuel + 1) pos node =
      match follow disk bpb fuel (target bpb pos entry) [] with
      | .done children walk =>
        (follow disk bpb fuel (pos + 32)
          (addChild node (.directory entry.getFileName children))).after (.into pos walk)
      | o => o := by
  simp only [follow, hread, hkept.1, hkept.2, hdirectory, Bool.false_eq_true, if_false, if_true]
  rfl

end Turn

/-- A record is hidden, ends the directory, or is added. -/
theorem entry_cases (entry : DirectoryEntry) :
    entry.isHidden = true ∨ entry.Stops ∨ (entry.Kept ∧ entry.isDirectory = false) ∨
      (entry.Kept ∧ entry.isDirectory = true) := by
  by_cases hhidden : entry.isHidden = true
  · exact .inl hhidden
  · have hvisible := Bool.eq_false_of_not_eq_true hhidden
    by_cases hname : entry.getFileName = []
    · exact .inr (.inl ⟨hvisible, hname⟩)
    · rcases hdirectory : entry.isDirectory
      · exact .inr (.inr (.inl ⟨⟨hvisible, hname⟩, rfl⟩))
      · exact .inr (.inr (.inr ⟨⟨hvisible, hname⟩, rfl⟩))

/-- A walk that goes on runs out of fuel behind that if at all. -/
theorem Outcome.after_ne_timeout {f : Walk → Walk} {o : Outcome} : o.after f ≠ .timeout ↔ o ≠ .timeout := by
  cases o <;> simp [Outcome.after]

/-- More fuel does not change the end of the walk, also if it is a failed assertion. -/
theorem follow_stable (h : follow disk bpb fuel pos node ≠ .timeout) (hle : fuel ≤ fuel') :
    follow disk bpb fuel' pos node = follow disk bpb fuel pos node := by
  induction fuel generalizing fuel' pos node with
  | zero => exact absurd rfl h
  | succ fuel ih =>
      obtain ⟨fuel', rfl⟩ : ∃ k, fuel' = k + 1 := ⟨fuel' - 1, by omega⟩
      have hle := Nat.le_of_succ_le_succ hle
      cases hread : disk.readEntry pos with
      | none => simp [follow, hread]
      | some entry =>
          rcases entry_cases entry with hhidden | hstops | ⟨hkept, hfile⟩ | ⟨hkept, hdirectory⟩
          · rw [follow_hidden hread hhidden, Outcome.after_ne_timeout] at h
            rw [follow_hidden hread hhidden, follow_hidden hread hhidden, ih h hle]
          · rw [follow_stop hread hstops, follow_stop hread hstops]
          · rw [follow_file hread hkept hfile] at h ⊢
            rw [follow_file hread hkept hfile]
            cases hcontents : disk.fread (target bpb pos entry) entry.fileSize with
            | none => rfl
            | some contents =>
                rw [hcontents] at h
                simp only [Outcome.after_ne_timeout] at h
                simp only [ih h hle]
          · rw [follow_directory hread hkept hdirectory] at h ⊢
            rw [follow_directory hread hkept hdirectory]
            cases hinside : follow disk bpb fuel (target bpb pos entry) [] with
            | done children walk =>
                rw [ih (by rw [hinside]; exact Outcome.noConfusion) hle, hinside]
                rw [hinside] at h
                simp only [Outcome.after_ne_timeout] at h
                simp only [ih h hle]
            | abort => rw [ih (by rw [hinside]; exact Outcome.noConfusion) hle, hinside]
            | timeout =>
                rw [hinside] at h
                exact absurd rfl h

/-- The nodes so far do not matter. -/
theorem completes_of_follow (h : follow disk bpb fuel pos node = .done children walk) :
    Completes disk bpb pos := by
  induction fuel generalizing pos node children walk with
  | zero => cases h
  | succ fuel ih =>
      obtain ⟨entry, hread⟩ := exists_readEntry h
      obtain ⟨k, hk, hturns⟩ := follow_turns h hread
      obtain rfl := Nat.succ.inj hk
      cases hturns with
      | hidden hhidden hrest _ => exact .hidden hread hhidden (ih hrest)
      | stop hvisible hname _ _ => exact .stop hread ⟨hvisible, hname⟩
      | file hvisible hname hfile hcontents hrest _ =>
          exact .file hread ⟨hvisible, hname⟩ hfile hcontents (ih hrest)
      | directory hvisible hname hdirectory hinner hrest _ =>
          exact .directory hread ⟨hvisible, hname⟩ hdirectory (ih hinner) (ih hrest)

/-- **A walk that completes returns** with enough fuel.  By induction on the walk. -/
theorem Completes.follow (h : Completes disk bpb pos) :
    ∃ fuel, ∀ node, ∃ children walk, follow disk bpb fuel pos node = .done children walk := by
  induction h with
  | stop hread hstops => exact ⟨1, fun node => ⟨_, _, follow_stop hread hstops⟩⟩
  | hidden hread hhidden _ ih =>
      obtain ⟨fuel, hrest⟩ := ih
      refine ⟨fuel + 1, ?_⟩
      intro node
      obtain ⟨children, walk, hrest⟩ := hrest node
      exact ⟨_, _, Turns.follow hread (.hidden hhidden hrest rfl)⟩
  | file hread hkept hfile hcontents _ ih =>
      obtain ⟨fuel, hrest⟩ := ih
      refine ⟨fuel + 1, ?_⟩
      intro node
      obtain ⟨children, walk, hrest⟩ := hrest (addChild node _)
      exact ⟨_, _, Turns.follow hread (.file hkept.1 hkept.2 hfile hcontents hrest rfl)⟩
  | directory hread hkept hdirectory _ _ ihinside ih =>
      obtain ⟨fuel1, hinside⟩ := ihinside
      obtain ⟨fuel2, hrest⟩ := ih
      obtain ⟨inside, inner, hinside⟩ := hinside []
      refine ⟨max fuel1 fuel2 + 1, ?_⟩
      intro node
      obtain ⟨children, walk, hrest⟩ := hrest (addChild node (.directory _ inside))
      exact ⟨_, _, Turns.follow hread (.directory hkept.1 hkept.2 hdirectory
        (follow_mono hinside (le_max_left _ _)) (follow_mono hrest (le_max_right _ _)) rfl)⟩

/-! ## Walks that end -/

/-- A walk that is over got over every record on its way with less fuel. -/
theorem Ends.gets (h : Ends disk bpb fuel start) (hgets : Gets disk bpb start pos) :
    ∃ k ≤ fuel, Ends disk bpb k pos := by
  -- one turn of the loop, when the walk goes on behind the record
  have hturn : ∀ {pos : Nat} {k : Nat} {node : List Node}, k ≤ fuel →
      (∀ k, follow disk bpb (k + 1) pos node ≠ .timeout → Ends disk bpb k (pos + 32)) →
      follow disk bpb k pos node ≠ .timeout → ∃ k ≤ fuel, Ends disk bpb k (pos + 32) := by
    intro pos k node hk hnext hends
    cases k with
    | zero => exact absurd rfl hends
    | succ k => exact ⟨k, by omega, hnext k hends⟩
  induction hgets with
  | start => exact ⟨fuel, le_rfl, h⟩
  | hidden _ hread hhidden ih =>
      obtain ⟨k, hk, node, hends⟩ := ih
      refine hturn hk ?_ hends
      intro k hends
      rw [follow_hidden hread hhidden, Outcome.after_ne_timeout] at hends
      exact ⟨_, hends⟩
  | file _ hread hkept hfile hcontents ih =>
      obtain ⟨k, hk, node, hends⟩ := ih
      refine hturn hk ?_ hends
      intro k hends
      rw [follow_file hread hkept hfile, hcontents] at hends
      exact ⟨_, Outcome.after_ne_timeout.mp hends⟩
  | @directory pos entry _ hread hkept hdirectory hcompletes ih =>
      obtain ⟨k, hk, node, hends⟩ := ih
      refine hturn hk ?_ hends
      intro k hends
      obtain ⟨enough, hinside⟩ := hcompletes.follow
      obtain ⟨children, walk, hinside⟩ := hinside []
      rw [follow_directory hread hkept hdirectory] at hends
      cases hfollow : follow disk bpb k (target bpb pos entry) [] with
      | done children' walk' =>
          rw [hfollow] at hends
          exact ⟨_, Outcome.after_ne_timeout.mp hends⟩
      | abort =>
          -- the subdirectory comes to its end with enough fuel
          have hne : follow disk bpb k (target bpb pos entry) [] ≠ .timeout := by
            rw [hfollow]
            exact Outcome.noConfusion
          have hmax := follow_stable hne (le_max_left k enough)
          rw [follow_mono hinside (le_max_right k enough), hfollow] at hmax
          cases hmax
      | timeout =>
          rw [hfollow] at hends
          exact absurd rfl hends

/-- A walk that is over took less fuel inside the directories it opened. -/
theorem Ends.opens (h : Ends disk bpb fuel start) (hopens : Opens disk bpb start inside) :
    ∃ k < fuel, Ends disk bpb k inside := by
  obtain ⟨pos, entry, hgets, hread, hkept, hdirectory, rfl⟩ := hopens
  obtain ⟨k, hk, node, hends⟩ := h.gets hgets
  cases k with
  | zero => exact absurd rfl hends
  | succ k =>
      refine ⟨k, by omega, [], ?_⟩
      intro htimeout
      rw [follow_directory hread hkept hdirectory, htimeout] at hends
      exact hends rfl

/-- Directories that are opened and have records are in the image. -/
theorem Opens.finite : {start | ∃ inside, Opens disk bpb start inside}.Finite := by
  refine (Set.finite_lt_nat disk.bytes.length).subset ?_
  rintro start ⟨inside, pos, entry, hgets, hread, -⟩
  have hle : ∀ {pos}, Gets disk bpb start pos → start ≤ pos := by
    intro pos hgets
    induction hgets with
    | start => exact le_rfl
    | hidden _ _ _ ih | file _ _ _ _ _ ih | directory _ _ _ _ _ ih => omega
  have hstart := hle hgets
  obtain ⟨bytes, hbytes, -⟩ := Option.map_eq_some_iff.mp hread
  rw [Disk.fread] at hbytes
  split at hbytes
  · change start < disk.bytes.length
    omega
  · cases hbytes

/-- The loop comes to an end if the walks into subdirectories do. -/
theorem ends_of_opens (h : ∀ inside, Opens disk bpb start inside →
    ∃ fuel, follow disk bpb fuel inside [] ≠ .timeout) (hgets : Gets disk bpb start pos) :
    ∃ fuel, ∀ node, follow disk bpb fuel pos node ≠ .timeout := by
  induction hn : disk.bytes.length - pos using Nat.strong_induction_on generalizing pos with
  | _ n ih =>
      cases hread : disk.readEntry pos with
      | none =>
          refine ⟨1, ?_⟩
          intro node
          simp [follow, hread]
      | some entry =>
          have hnext : Gets disk bpb start (pos + 32) →
              ∃ fuel, ∀ node, follow disk bpb fuel (pos + 32) node ≠ .timeout := by
            intro hgets'
            obtain ⟨bytes, hbytes, -⟩ := Option.map_eq_some_iff.mp hread
            rw [Disk.fread] at hbytes
            split at hbytes
            · exact ih _ (by omega) hgets' rfl
            · cases hbytes
          rcases entry_cases entry with hhidden | hstops | ⟨hkept, hfile⟩ | ⟨hkept, hdirectory⟩
          · obtain ⟨fuel, hrest⟩ := hnext (.hidden hgets hread hhidden)
            refine ⟨fuel + 1, ?_⟩
            intro node
            rw [follow_hidden hread hhidden, Outcome.after_ne_timeout]
            exact hrest node
          · refine ⟨1, ?_⟩
            intro node
            rw [follow_stop hread hstops]
            exact Outcome.noConfusion
          · cases hcontents : disk.fread (target bpb pos entry) entry.fileSize with
            | none =>
                refine ⟨1, ?_⟩
                intro node
                rw [follow_file hread hkept hfile, hcontents]
                exact Outcome.noConfusion
            | some contents =>
                obtain ⟨fuel, hrest⟩ := hnext (.file hgets hread hkept hfile hcontents)
                refine ⟨fuel + 1, ?_⟩
                intro node
                rw [follow_file hread hkept hfile, hcontents]
                exact Outcome.after_ne_timeout.mpr (hrest _)
          · obtain ⟨fuel1, hinside⟩ := h _ ⟨pos, entry, hgets, hread, hkept, hdirectory, rfl⟩
            cases hfollow : follow disk bpb fuel1 (target bpb pos entry) [] with
            | done children walk =>
                obtain ⟨fuel2, hrest⟩ := hnext
                  (.directory hgets hread hkept hdirectory (completes_of_follow hfollow))
                refine ⟨max fuel1 fuel2 + 1, ?_⟩
                intro node
                rw [follow_directory hread hkept hdirectory,
                  follow_mono hfollow (le_max_left fuel1 fuel2)]
                refine Outcome.after_ne_timeout.mpr ?_
                rw [follow_stable (hrest _) (le_max_right fuel1 fuel2)]
                exact hrest _
            | abort =>
                refine ⟨fuel1 + 1, ?_⟩
                intro node
                rw [follow_directory hread hkept hdirectory, hfollow]
                exact Outcome.noConfusion
            | timeout => exact absurd hfollow hinside

/-- **Walks end outside of circles.** On every image, a call of `follow` returns or stops with a
failed assertion after finitely many records just if no directory on its way is opened again
from inside itself. -/
theorem follow_ends_iff :
    (∃ fuel, follow disk bpb fuel start node ≠ .timeout) ↔
      ∀ dir, ReflTransGen (Opens disk bpb) start dir → ¬ TransGen (Opens disk bpb) dir dir := by
  have hfalls : ∀ n a b, Ends disk bpb n a → Opens disk bpb a b → ∃ m < n, Ends disk bpb m b :=
    fun _ _ _ hends => hends.opens
  constructor
  · rintro ⟨fuel, hfollow⟩ dir hdir
    obtain ⟨k, hk⟩ : ∃ k, Ends disk bpb k dir := by
      induction hdir with
      | refl => exact ⟨fuel, node, hfollow⟩
      | tail _ hopens ih =>
          obtain ⟨k, hk⟩ := ih
          obtain ⟨m, -, hm⟩ := hk.opens hopens
          exact ⟨m, hm⟩
    exact not_transGen_self hfalls hk
  · intro hacyclic
    have hacc := acc_of_acyclic Opens.finite hacyclic
    obtain ⟨fuel, hends⟩ : ∃ fuel, ∀ node, follow disk bpb fuel start node ≠ .timeout := by
      clear hacyclic
      induction hacc with
      | intro dir _ ih =>
          refine ends_of_opens ?_ .start
          intro inside hopens
          obtain ⟨fuel, hends⟩ := ih inside hopens
          exact ⟨fuel, hends []⟩
    exact ⟨fuel, hends node⟩

/-! ## A directory inside itself -/

/-- The record of a directory `D` in the first cluster. -/
def circleEntry : DirectoryEntry := ⟨68 :: List.replicate 7 32, List.replicate 3 32, 0x10, 2, 0⟩

/-- The root directory with `D`, and `D` with itself. -/
def circleEntries : List DirectoryEntry := [circleEntry, endEntry, circleEntry, endEntry]

/-- The records have fields of the right sizes. -/
theorem circleEntries_typed : ∀ e ∈ circleEntries, e.Typed := by
  intro e he
  simp only [circleEntries, List.mem_cons, List.not_mem_nil, or_false] at he
  rcases he with rfl | rfl | rfl | rfl <;> exact ⟨rfl, rfl, by decide, by decide⟩

/-- An image with the directory `D` in its root directory, and again in `D` itself. -/
def circleDisk : Disk where
  bytes := image 64 circleEntries []
  length_lt := by
    rw [image_length circleEntries_typed]
    decide

/-- The directory is the one that its record is in. -/
theorem circleEntry_target (pos : Nat) : target smallBlock pos circleEntry = 128 := by
  have hoffset : getOffsetFromCluster 2 smallBlock = 128 := by decide
  simp [target, seek, circleEntry, hoffset]

/-- The directory `D` is an entry of itself. -/
theorem circleDisk_inside (fuel : Nat) : follow circleDisk smallBlock fuel 128 [] = .timeout := by
  have hinside : circleDisk.readEntry 128 = some circleEntry :=
    readEntry_image (i := 2) rfl circleEntries_typed rfl
  induction fuel with
  | zero => rfl
  | succ fuel ih =>
      rw [follow_directory hinside ⟨by decide, by decide⟩ (by decide), circleEntry_target, ih]

/-- **A circle.** The walk over the image never comes to an end. -/
theorem circleDisk_follow : getRootDirectoryLocation smallBlock = 64 ∧
    ∀ fuel, follow circleDisk smallBlock fuel 64 [] = .timeout := by
  have hroot : circleDisk.readEntry 64 = some circleEntry :=
    readEntry_image (i := 0) rfl circleEntries_typed rfl
  refine ⟨by decide, fun fuel => ?_⟩
  cases fuel with
  | zero => rfl
  | succ fuel =>
      rw [follow_directory hroot ⟨by decide, by decide⟩ (by decide),
        circleEntry_target, circleDisk_inside]

end Fat16
