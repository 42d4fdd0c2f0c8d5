import CS24.Fat16.OutputFiles

/-!
# The tree in the file system

If the names of a tree are names that a path can have, and no two children of a directory share
one, `create_directory_tree` makes what the tree says: a directory for each directory, a file with
its contents for each file, and nothing else.
-/

namespace Fat16

open FileSystem

/-- Names that paths can have, and no two children of one name. -/
inductive Nameable : List Node → Prop
  | mk {children : List Node} : (∀ child ∈ children, Plain child.name) →
      (children.map Node.name).Nodup →
      (∀ name inner, .directory name inner ∈ children → Nameable inner) → Nameable children

/-- The place of a spot, below the place of the tree. -/
def Spot.place (base : Place) (spot : Spot) : Place := spot.1.reverse ++ base

/-- What is at the place. -/
def Spot.entry (spot : Spot) : Entry :=
  match spot.2 with
  | none => .directory
  | some contents => .file contents

/-- The spots are there, and the rest is as it was. -/
structure Created (files files' : Files) (base : Place) (spots : List Spot) : Prop where
  there : ∀ spot ∈ spots, files' (spot.place base) = some spot.entry
  other : ∀ q, (∀ spot ∈ spots, q ≠ spot.place base) → files' q = files q

section Trees

variable {cwd base : Place} {files files' files'' : Files} {node child : Node} {children : List Node}
  {path name name' : CString} {names : List Name} {contents : List UInt8}
  {level : Nat} {spot : Spot} {spots spots' : List Spot}
  {calls calls' : List Call}

/-- Calls, and those behind them. -/
theorem runCalls_append (h : runCalls cwd files calls = some files')
    (h' : runCalls cwd files' calls' = some files'') :
    runCalls cwd files (calls ++ calls') = some files'' := by
  induction calls generalizing files with
  | nil =>
      obtain rfl := Option.some.inj h
      exact h'
  | cons call calls ih =>
      obtain ⟨middle, hcall, hcalls⟩ := runCalls_cons h
      rw [List.cons_append, runCalls, hcall]
      exact ih hcalls

/-- A spot of a node is at the place of the node, or below it. -/
theorem spot_place (h : spot ∈ node.spots) : ∃ r, spot.place base = r ++ node.name :: base := by
  cases node with
  | file name contents =>
      obtain rfl := List.mem_singleton.mp h
      exact ⟨[], rfl⟩
  | directory name children =>
      rcases List.mem_cons.mp h with rfl | h
      · exact ⟨[], rfl⟩
      · obtain ⟨inner, -, rfl⟩ := List.mem_map.mp h
        exact ⟨inner.1.reverse, by simp [Spot.place, Spot.under, Node.name]⟩

/-- What is below one name is not below another one. -/
theorem name_eq_of_place {r s : Place} (h : r ++ name :: base = s ++ name' :: base) : name = name' := by
  have hparts : r ++ [name] = s ++ [name'] := by
    have happend : (r ++ [name]) ++ base = (s ++ [name']) ++ base := by simpa using h
    exact List.append_cancel_right happend
  obtain ⟨-, hlast⟩ := List.append_inj' hparts rfl
  exact List.singleton_inj.mp hlast

/-- The paths behind `path` go through these directories. -/
def Leads (path : CString) (names : List Name) : Prop :=
  ∀ name, Plain name → components (curPath path name) = names ++ [name]

/-- The empty path leads to where it begins, -/
theorem leads_nil : Leads [] [] := fun _ hname => components_of_not_mem hname.no_slash

/-- and a name more leads inside. -/
theorem Leads.inside (h : Leads path names) (hname : Plain name) :
    Leads (curPath path name) (names ++ [name]) := by
  intro name' hname'
  have hne : curPath path name ≠ [] := by
    rw [curPath]
    split
    · exact hname.ne_nil
    · exact List.append_ne_nil_of_right_ne_nil _ (List.cons_ne_nil _ _)
  rw [curPath, if_neg hne, components_append, h name hname, components_of_not_mem hname'.no_slash]

/-- A plain name is not `.`, `..` or empty. -/
theorem Plain.not_special (h : Plain name) : ¬ Special name := by
  rintro (hnil | hdot | hdots)
  · exact h.ne_nil hnil
  · exact h.ne_dot hdot
  · exact h.ne_dots hdots

/-- The place of a new entry in a directory. -/
theorem target_child (hwalk : walk files cwd names = some base) (hname : Plain name) :
    FileSystem.target files cwd (names ++ [name]) = some (name :: base) := by
  rw [FileSystem.target, List.getLast?_concat]
  dsimp only
  rw [if_neg hname.not_special, List.dropLast_concat, hwalk, Option.map_some]

/-- A directory is made in one that is there, -/
theorem mkdir_child (hwalk : walk files cwd names = some base) (hname : Plain name)
    (hnew : files (name :: base) = none) :
    mkdir files cwd (names ++ [name]) = update files (name :: base) .directory := by
  rw [mkdir, List.rdropWhile_concat_neg _ _ _ (by simpa using hname.ne_nil), target_child hwalk hname]
  dsimp only
  rw [if_pos hnew]

/-- and so is a file. -/
theorem write_child (hwalk : walk files cwd names = some base) (hname : Plain name)
    (hnew : files (name :: base) = none) :
    write files cwd (names ++ [name]) contents = some (update files (name :: base) (.file contents)) := by
  rw [write, target_child hwalk hname]
  dsimp only
  rw [if_neg (by simp [hnew])]

/-- A new directory can be walked to. -/
theorem walk_child (hwalk : walk files cwd names = some base) (hname : Plain name)
    (hnew : files (name :: base) = none) :
    walk (update files (name :: base) .directory) cwd (names ++ [name]) = some (name :: base) := by
  have hgrows : Grows files (update files (name :: base) .directory) := grows_update (by simp [hnew])
  have hwalk' := walk_mono hgrows hwalk
  clear hwalk
  induction names generalizing cwd with
  | nil =>
      rw [walk] at hwalk'
      split_ifs at hwalk' with hdirectory
      obtain rfl := Option.some.inj hwalk'
      rw [List.nil_append, walk, if_pos hdirectory, step_of_not_special hname.not_special, walk,
        if_pos update_same]
  | cons n names ih =>
      rw [walk] at hwalk'
      split_ifs at hwalk' with hdirectory
      rw [List.cons_append, walk, if_pos hdirectory]
      exact ih hwalk'

/-- A spot of a directory is at the place of the directory, or is a spot in it. -/
theorem under_place : (spot.under name).place base = spot.place (name :: base) := by
  simp [Spot.place, Spot.under]

mutual

/-- One node, in a directory that can be walked to. -/
theorem createTree_runs : ∀ (node : Node) (level : Nat) (path : CString) (names : List Name) (base : Place)
    (files : Files), Leads path names → walk files cwd names = some base → Plain node.name →
    (∀ name inner, node = .directory name inner → Nameable inner) →
    (∀ r, files (r ++ node.name :: base) = none) →
    ∃ files', runCalls cwd files (createTree level path node) = some files' ∧
      Created files files' base node.spots
  | .file name contents, level, path, names, base, files, hpath, hwalk, hname, _, hnew => by
      replace hname : Plain name := hname
      have hempty : files (name :: base) = none := hnew []
      refine ⟨update files (name :: base) (.file contents), ?_, ?_, ?_⟩
      · rw [createTree, runCalls, Call.run]
        dsimp only
        rw [hpath name hname, write_child hwalk hname hempty]
        rfl
      · intro spot hspot
        obtain rfl := List.mem_singleton.mp hspot
        exact update_same
      · intro q hq
        exact update_other (hq _ (List.mem_singleton.mpr rfl))
  | .directory name children, level, path, names, base, files, hpath, hwalk, hname, hinner, hnew => by
      replace hname : Plain name := hname
      have hempty : files (name :: base) = none := hnew []
      have hnew' : ∀ child ∈ children, ∀ r,
          update files (name :: base) .directory (r ++ child.name :: name :: base) = none := by
        intro child _ r
        rw [update_other]
        · have hbelow := hnew (r ++ [child.name])
          rwa [List.append_assoc] at hbelow
        · intro heq
          have hlength := congrArg List.length heq
          simp only [List.length_append, List.length_cons] at hlength
          omega
      obtain ⟨files', hrun, hcreated⟩ := createChildren_runs children (level + 1) (curPath path name)
        (names ++ [name]) (name :: base) (update files (name :: base) .directory) (hpath.inside hname)
        (walk_child hwalk hname hempty) (hinner name children rfl) hnew'
      refine ⟨files', ?_, ?_, ?_⟩
      · rw [createTree, runCalls, Call.run]
        dsimp only
        rw [hpath name hname, mkdir_child hwalk hname hempty]
        exact hrun
      · intro spot hspot
        rcases List.mem_cons.mp hspot with rfl | hspot
        · have hother : files' (name :: base) = update files (name :: base) .directory (name :: base) := by
            refine hcreated.other _ ?_
            intro spot hspot heq
            have hlength := congrArg List.length heq
            have hpos := List.length_pos_iff.mpr (spotsOf_ne_nil hspot)
            simp only [Spot.place, List.length_append, List.length_reverse, List.length_cons] at hlength
            omega
          exact hother.trans update_same
        · obtain ⟨inner, hmem, rfl⟩ := List.mem_map.mp hspot
          rw [under_place, hcreated.there inner hmem]
          rfl
      · intro q hq
        have hspots : ∀ spot ∈ spotsOf children, q ≠ spot.place (name :: base) := by
          intro spot hspot
          rw [← under_place]
          exact hq _ (List.mem_cons_of_mem _ (List.mem_map_of_mem hspot))
        rw [hcreated.other q hspots]
        exact update_other (hq _ List.mem_cons_self)

/-- The children of a directory that can be walked to, in the order of the list. -/
theorem createChildren_runs : ∀ (children : List Node) (level : Nat) (path : CString) (names : List Name)
    (base : Place) (files : Files), Leads path names → walk files cwd names = some base →
    Nameable children → (∀ child ∈ children, ∀ r, files (r ++ child.name :: base) = none) →
    ∃ files', runCalls cwd files (createChildren level path children) = some files' ∧
      Created files files' base (spotsOf children)
  | [], level, path, names, base, files, _, _, _, _ =>
      ⟨files, rfl, fun spot hspot => absurd hspot List.not_mem_nil, fun _ _ => rfl⟩
  | child :: children, level, path, names, base, files, hpath, hwalk, hnames, hnew => by
      obtain ⟨hplain, hnodup, hinner⟩ := hnames
      rw [List.map_cons, List.nodup_cons] at hnodup
      have hdistinct : ∀ other ∈ children, other.name ≠ child.name := fun other hother heq =>
        hnodup.1 (List.mem_map.mpr ⟨other, hother, heq⟩)
      obtain ⟨files₁, hrun₁, hcreated₁⟩ := createTree_runs child level path names base files hpath hwalk
        (hplain child List.mem_cons_self)
        (fun name inner heq => hinner name inner (heq ▸ List.mem_cons_self))
        (hnew child List.mem_cons_self)
      -- what is below the names of the others is still new
      have hnew₁ : ∀ other ∈ children, ∀ r, files₁ (r ++ other.name :: base) = none := by
        intro other hother r
        rw [hcreated₁.other, hnew other (List.mem_cons_of_mem _ hother) r]
        intro spot hspot heq
        obtain ⟨s, hs⟩ : ∃ s, spot.place base = s ++ child.name :: base := spot_place hspot
        exact hdistinct other hother (name_eq_of_place (heq.trans hs))
      have hnames₁ : Nameable children := ⟨fun other hother => hplain other (List.mem_cons_of_mem _ hother),
        hnodup.2, fun name inner hmem => hinner name inner (List.mem_cons_of_mem _ hmem)⟩
      obtain ⟨files₂, hrun₂, hcreated₂⟩ := createChildren_runs children level path names base files₁ hpath
        (walk_mono (grows_runCalls hrun₁) hwalk) hnames₁ hnew₁
      refine ⟨files₂, ?_, ?_, ?_⟩
      · rw [createChildren]
        exact runCalls_append hrun₁ hrun₂
      · intro spot hspot
        rw [spotsOf, List.mem_append] at hspot
        rcases hspot with hspot | hspot
        · rw [hcreated₂.other, hcreated₁.there spot hspot]
          intro spot' hspot' heq
          obtain ⟨s, hs⟩ : ∃ s, spot.place base = s ++ child.name :: base := spot_place hspot
          rw [spotsOf_eq] at hspot'
          obtain ⟨other, hother, hspot'⟩ := List.mem_flatMap.mp hspot'
          obtain ⟨s', hs'⟩ : ∃ s, spot'.place base = s ++ other.name :: base := spot_place hspot'
          exact hdistinct other hother (name_eq_of_place (hs'.symm.trans (heq.symm.trans hs)))
        · exact hcreated₂.there spot hspot
      · intro q hq
        rw [spotsOf] at hq
        rw [hcreated₂.other q fun spot hspot => hq spot (List.mem_append_right _ hspot),
          hcreated₁.other q fun spot hspot => hq spot (List.mem_append_left _ hspot)]

end

/-- `ROOT` is a plain name. -/
theorem plain_ROOT : Plain ROOT := ⟨by decide, by decide, by decide, by decide⟩

/-- **The tree in the file system.** In a directory without an entry `ROOT`,
`create_directory_tree` makes the root directory and what is in it, and leaves the rest alone. -/
theorem createDirectoryTree_runs (h : Nameable children) (hcwd : files cwd = some .directory)
    (hnew : ∀ r, files (r ++ ROOT :: cwd) = none) :
    ∃ files', runCalls cwd files (createDirectoryTree (root children)) = some files' ∧
      Created files files' cwd (root children).spots := by
  have hwalk : walk files cwd [] = some cwd := if_pos hcwd
  refine createTree_runs (root children) 0 [] [] cwd files leads_nil hwalk plain_ROOT ?_ hnew
  rintro name inner ⟨⟩
  exact h

end Trees

end Fat16
