import Mathlib.Data.List.DropRight

/-!
# Directories and files by their places

A file system without links: a place is the list of the names from an entry up to the root.
Paths come as their components, where the empty name and `.` stay and `..` goes up.
-/

namespace FileSystem

abbrev Name := List UInt8

/-- The names from an entry up to the root, its own first. -/
abbrev Place := List Name

inductive Entry
  | directory
  | file (contents : List UInt8)
  deriving DecidableEq

abbrev Files := Place → Option Entry

/-- The names that do not name an entry. -/
def Special (name : Name) : Prop := name = [] ∨ name = [46] ∨ name = [46, 46]

instance (name : Name) : Decidable (Special name) := inferInstanceAs (Decidable (_ ∨ _ ∨ _))

/-- One component further. -/
def step (place : Place) (name : Name) : Place :=
  if name = [] ∨ name = [46] then place else if name = [46, 46] then place.tail else name :: place

/-- Where a path leads, if it leads anywhere. -/
def place (cwd : Place) (names : List Name) : Place := names.foldl step cwd

/-- The directory at the end of a path, through directories. -/
def walk (files : Files) (cwd : Place) : List Name → Option Place
  | [] => if files cwd = some .directory then some cwd else none
  | name :: names =>
    if files cwd = some .directory then walk files (step cwd name) names else none

/-- The place of an entry in a directory that is there. -/
def target (files : Files) (cwd : Place) (names : List Name) : Option Place :=
  match names.getLast? with
  | none => none
  | some name =>
    if Special name then none else (walk files cwd names.dropLast).map (name :: ·)

def update (files : Files) (place : Place) (entry : Entry) : Files :=
  fun q => if q = place then some entry else files q

/-- `mkdir`, whose result is not looked at; slashes at the end of a path do not count. -/
def mkdir (files : Files) (cwd : Place) (names : List Name) : Files :=
  match target files cwd (names.rdropWhile (· = [])) with
  | none => files
  | some p => if files p = none then update files p .directory else files

/-- `fopen` with `"w"`, and what is written until `fclose`. -/
def write (files : Files) (cwd : Place) (names : List Name) (contents : List UInt8) : Option Files :=
  match target files cwd names with
  | none => none
  | some p => if files p = some .directory then none else some (update files p (.file contents))

/-- The contents of the file that a path names. -/
def read (files : Files) (cwd : Place) (names : List Name) : Option (List UInt8) :=
  match (target files cwd names).bind files with
  | some (.file contents) => some contents
  | _ => none

/-- The directories of one state are directories of the other. -/
def Grows (files files' : Files) : Prop :=
  ∀ p, files p = some .directory → files' p = some .directory

section Rules

variable {files files' files'' : Files} {cwd p q : Place} {name : Name} {names : List Name}
  {contents : List UInt8} {entry : Entry}

/-- Directories stay when nothing happens, -/
theorem Grows.refl : Grows files files := fun _ h => h

/-- and when two steps keep them. -/
theorem Grows.trans (h : Grows files files') (h' : Grows files' files'') : Grows files files'' :=
  fun p hp => h' p (h p hp)

/-- The new entry is there, -/
theorem update_same : update files p entry p = some entry := if_pos rfl

/-- and the others are as before. -/
theorem update_other (h : q ≠ p) : update files p entry q = files q := if_neg h

/-- The place of a longer path is below that of its front. -/
theorem place_append {names' : List Name} : place cwd (names ++ names') = place (place cwd names) names' :=
  List.foldl_append

/-- A plain name goes one down. -/
theorem step_of_not_special (h : ¬ Special name) : step cwd name = name :: cwd := by
  simp only [Special, not_or] at h
  simp [step, h]

/-- A path that can be walked leads to its place, which is a directory. -/
theorem walk_eq (h : walk files cwd names = some p) :
    p = place cwd names ∧ files p = some .directory := by
  induction names generalizing cwd with
  | nil =>
      rw [walk] at h
      split at h
      · obtain rfl := Option.some.inj h
        exact ⟨rfl, ‹_›⟩
      · cases h
  | cons name names ih =>
      rw [walk] at h
      split at h
      · exact ih h
      · cases h

/-- It can be walked when there are more directories, -/
theorem walk_mono (hgrows : Grows files files') (h : walk files cwd names = some p) :
    walk files' cwd names = some p := by
  induction names generalizing cwd with
  | nil =>
      rw [walk] at h ⊢
      split at h
      · rw [if_pos (hgrows cwd ‹_›), h]
      · cases h
  | cons name names ih =>
      rw [walk] at h ⊢
      split at h
      · rw [if_pos (hgrows cwd ‹_›), ih h]
      · cases h

/-- **Target.** The place of an entry is where its path leads. -/
theorem target_eq (h : target files cwd names = some p) : p = place cwd names := by
  rw [target] at h
  split at h
  · cases h
  · rename_i name hlast
    split at h
    · cases h
    · rename_i hspecial
      obtain ⟨parent, hwalk, rfl⟩ := Option.map_eq_some_iff.mp h
      obtain ⟨hnames, rfl⟩ := List.getLast?_eq_some_iff.mp hlast
      obtain ⟨rfl, -⟩ := walk_eq hwalk
      rw [List.dropLast_concat, place_append]
      exact (step_of_not_special hspecial).symm

/-- Slashes at the end do not count. -/
theorem place_rdropWhile : place cwd (names.rdropWhile (· = [])) = place cwd names := by
  induction names using List.reverseRecOn with
  | nil => rfl
  | append_singleton names name ih =>
      by_cases hname : name = []
      · rw [List.rdropWhile_concat_pos _ _ _ (by simpa using hname), ih, place_append, hname]
        rfl
      · rw [List.rdropWhile_concat_neg _ _ _ (by simpa using hname)]

/-- An update keeps the directories if it does not replace one. -/
theorem grows_update (h : files p ≠ some .directory) : Grows files (update files p entry) := by
  intro q hq
  rw [update_other, hq]
  rintro rfl
  exact h hq

/-- What `mkdir` does. -/
theorem mkdir_cases : mkdir files cwd names = files ∨ (files (place cwd names) = none ∧
    mkdir files cwd names = update files (place cwd names) .directory) := by
  rw [mkdir]
  split
  · exact .inl rfl
  · rename_i p htarget
    obtain rfl := target_eq htarget
    rw [place_rdropWhile]
    split
    · exact .inr ⟨‹_›, rfl⟩
    · exact .inl rfl

/-- `mkdir` keeps the directories, -/
theorem grows_mkdir : Grows files (mkdir files cwd names) := by
  rcases mkdir_cases with heq | ⟨hnone, heq⟩
  · rw [heq]
    exact Grows.refl
  · rw [heq]
    exact grows_update (by simp [hnone])

/-- What a write does. -/
theorem write_cases (h : write files cwd names contents = some files') :
    target files cwd names = some (place cwd names) ∧ files (place cwd names) ≠ some .directory ∧
      files' = update files (place cwd names) (.file contents) := by
  rw [write] at h
  split at h
  · cases h
  · rename_i p htarget
    split at h
    · cases h
    · rename_i hfile
      obtain rfl := target_eq htarget
      exact ⟨htarget, hfile, (Option.some.inj h).symm⟩

/-- and so does writing a file. -/
theorem grows_write (h : write files cwd names contents = some files') : Grows files files' := by
  obtain ⟨-, hfile, rfl⟩ := write_cases h
  exact grows_update hfile

end Rules

end FileSystem
