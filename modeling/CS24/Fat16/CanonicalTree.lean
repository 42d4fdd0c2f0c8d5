import CS24.Fat16.DirectoryTree

/-!
# The directory tree of a set of files

`add_file` keeps trees canonical: at every level the children are in the order of
their names, and no directory is empty.  A canonical tree is determined by the
files in it, and `add_file` adds its file and no other, so the tree of a set of
files does not depend on the order in which they come.
-/

namespace Fat16

open SortedList

/-- The names along a path. -/
def components (path : CString) : List CString :=
  match _h : fromSlash path with
  | [] => [path]
  | _ :: rest => beforeSlash path :: components rest
termination_by path.length
decreasing_by exact length_lt_of_fromSlash _h

/-- The names of `children`, in the order of `strcmp`, increase. -/
abbrev Ordered (children : List Node) : Prop := Ascending (fun child : Node => rank child.name) children

/-- There is a file under these names, with these contents. -/
inductive Holds : List Node → List CString → CString → Prop
  | file {children : List Node} {name contents : CString} :
      .file name contents ∈ children → Holds children [name] contents
  | inside {children inner : List Node} {name : CString} {names : List CString}
      {contents : CString} : .directory name inner ∈ children → Holds inner names contents →
      Holds children (name :: names) contents

/-- Children in order of their names at every level, and no empty directory below. -/
inductive Canonical : List Node → Prop
  | mk {children : List Node} : Ordered children →
      (∀ name inner, .directory name inner ∈ children → inner ≠ []) →
      (∀ name inner, .directory name inner ∈ children → Canonical inner) → Canonical children

/-! ## Canonical trees -/

section Canonical

variable {children children' inner : List Node} {child child' : Node} {name contents : CString}
  {names : List CString}

/-- A file has a name. -/
theorem Holds.ne_nil (h : Holds children names contents) : names ≠ [] := by
  cases h <;> exact List.cons_ne_nil _ _

/-- A file is among the children or in a directory among them. -/
theorem holds_cons : Holds children (name :: names) contents ↔
    (names = [] ∧ .file name contents ∈ children) ∨
      ∃ inner, .directory name inner ∈ children ∧ Holds inner names contents := by
  constructor
  · rintro (hmem | ⟨hmem, hinner⟩)
    · exact .inl ⟨rfl, hmem⟩
    · exact .inr ⟨_, hmem, hinner⟩
  · rintro (⟨rfl, hmem⟩ | ⟨inner, hmem, hinner⟩)
    · exact .file hmem
    · exact .inside hmem hinner

/-- An empty directory has no files. -/
theorem not_holds_nil : ¬ Holds [] names contents := by
  intro h
  cases h <;> contradiction

/-- A path of one name is that of a child. -/
theorem holds_singleton : Holds children [name] contents ↔ .file name contents ∈ children := by
  rw [holds_cons]
  constructor
  · rintro (⟨-, hmem⟩ | ⟨inner, -, hinner⟩)
    · exact hmem
    · exact absurd rfl hinner.ne_nil
  · intro hmem
    exact .inl ⟨rfl, hmem⟩

/-- Under the name of a file is its contents. -/
theorem holds_file {contents' : CString} :
    Holds [.file name contents] names contents' ↔ names = [name] ∧ contents' = contents := by
  constructor
  · rintro (hmem | ⟨hmem, -⟩)
    · cases List.mem_singleton.mp hmem
      exact ⟨rfl, rfl⟩
    · cases List.mem_singleton.mp hmem
  · rintro ⟨rfl, rfl⟩
    exact .file (List.mem_singleton.mpr rfl)

/-- The files in a directory that is alone. -/
theorem holds_directory : Holds [.directory name inner] names contents ↔
    ∃ rest, names = name :: rest ∧ Holds inner rest contents := by
  constructor
  · rintro (hmem | ⟨hmem, hinner⟩)
    · cases List.mem_singleton.mp hmem
    · cases List.mem_singleton.mp hmem
      exact ⟨_, rfl, hinner⟩
  · rintro ⟨rest, rfl, hinner⟩
    exact .inside (List.mem_singleton.mpr rfl) hinner

/-- A file is in one of the children. -/
theorem holds_iff_exists : Holds children names contents ↔
    ∃ child ∈ children, Holds [child] names contents := by
  constructor
  · rintro (hmem | ⟨hmem, hinner⟩)
    · exact ⟨_, hmem, holds_file.mpr ⟨rfl, rfl⟩⟩
    · exact ⟨_, hmem, holds_directory.mpr ⟨_, rfl, hinner⟩⟩
  · rintro ⟨child, hmem, hholds⟩
    cases child with
    | file name contents =>
        obtain ⟨rfl, rfl⟩ := holds_file.mp hholds
        exact .file hmem
    | directory name inner =>
        obtain ⟨rest, rfl, hinner⟩ := holds_directory.mp hholds
        exact .inside hmem hinner

/-- An empty directory is canonical. -/
theorem canonical_nil : Canonical [] :=
  .mk List.Pairwise.nil (fun _ _ hmem => absurd hmem List.not_mem_nil)
    fun _ _ hmem => absurd hmem List.not_mem_nil

/-- The children of a canonical directory are ordered, -/
theorem Canonical.ordered (h : Canonical children) : Ordered children := by
  obtain ⟨hordered, -, -⟩ := h
  exact hordered

/-- and the directories in it are canonical and not empty. -/
theorem Canonical.inside (h : Canonical children) (hmem : .directory name inner ∈ children) :
    inner ≠ [] ∧ Canonical inner := by
  obtain ⟨-, hne, hinner⟩ := h
  exact ⟨hne name inner hmem, hinner name inner hmem⟩

/-- A name belongs to one child. -/
theorem Canonical.eq_of_name (h : Canonical children) (hchild : child ∈ children)
    (hchild' : child' ∈ children) (hname : child.name = child'.name) : child = child' :=
  h.ordered.eq_of_key hchild hchild' (congrArg rank hname)

/-- A canonical tree that is not empty holds a file. -/
theorem Canonical.exists_holds (h : Canonical children) (hne : children ≠ []) :
    ∃ names contents, Holds children names contents := by
  induction h with
  | @mk children _ hinner _ ih =>
      obtain ⟨child, hchild⟩ := List.exists_mem_of_ne_nil children hne
      cases child with
      | file name contents => exact ⟨_, _, .file hchild⟩
      | directory name inner =>
          obtain ⟨names, contents, hholds⟩ := ih name inner hchild (hinner name inner hchild)
          exact ⟨_, _, .inside hchild hholds⟩

/-- There is a file under every name. -/
theorem Canonical.exists_under (h : Canonical children) (hmem : child ∈ children) :
    ∃ names contents, Holds children (child.name :: names) contents := by
  cases child with
  | file name contents => exact ⟨[], contents, .file hmem⟩
  | directory name inner =>
      obtain ⟨hne, hinner⟩ := h.inside hmem
      obtain ⟨names, contents, hholds⟩ := hinner.exists_holds hne
      exact ⟨names, contents, .inside hmem hholds⟩

/-- What is under the name of a directory is inside the directory. -/
theorem Canonical.holds_inner (h : Canonical children) (hmem : .directory name inner ∈ children) :
    Holds children (name :: names) contents ↔ Holds inner names contents := by
  rw [holds_cons]
  constructor
  · rintro (⟨-, hfile⟩ | ⟨inner', hmem', hinner⟩)
    · cases h.eq_of_name hmem hfile rfl
    · cases h.eq_of_name hmem hmem' rfl
      exact hinner
  · intro hinner
    exact .inr ⟨inner, hmem, hinner⟩

/-- The directories of a tree whose files are in another tree are there too. -/
theorem Canonical.exists_directory (h : Canonical children) (hmem : .directory name inner ∈ children)
    (hsub : ∀ names contents, Holds children names contents → Holds children' names contents) :
    ∃ inner', .directory name inner' ∈ children' := by
  obtain ⟨hne, hinner⟩ := h.inside hmem
  obtain ⟨names, contents, hholds⟩ := hinner.exists_holds hne
  rcases holds_cons.mp (hsub _ _ (.inside hmem hholds)) with ⟨hnil, -⟩ | ⟨inner', hmem', -⟩
  · exact absurd hnil hholds.ne_nil
  · exact ⟨inner', hmem'⟩

/-- **Extensionality.** Canonical trees with the same files are equal. -/
theorem Canonical.ext (h : Canonical children) (h' : Canonical children')
    (hsame : ∀ names contents, Holds children names contents ↔ Holds children' names contents) :
    children = children' := by
  induction h generalizing children' with
  | @mk children hordered hne hinner ih =>
      have h : Canonical children := .mk hordered hne hinner
      have hfile : ∀ name contents, .file name contents ∈ children ↔
          .file name contents ∈ children' := by
        intro name contents
        rw [← holds_singleton, ← holds_singleton, hsame]
      have hdirectory : ∀ name inner, .directory name inner ∈ children →
          .directory name inner ∈ children' := by
        intro name inner hmem
        obtain ⟨inner', hmem'⟩ := h.exists_directory hmem fun _ _ => (hsame _ _).mp
        have heq : inner = inner' := by
          refine ih name inner hmem (h'.inside hmem').2 ?_
          intro names contents
          rw [← h.holds_inner hmem, ← h'.holds_inner hmem', hsame]
        rwa [heq]
      refine hordered.ext h'.ordered ?_
      intro child
      cases child with
      | file name contents => exact hfile name contents
      | directory name inner =>
          refine ⟨hdirectory name inner, ?_⟩
          intro hmem'
          obtain ⟨inner', hmem⟩ := h'.exists_directory hmem' fun _ _ => (hsame _ _).mpr
          cases h'.eq_of_name hmem' (hdirectory name inner' hmem) rfl
          exact hmem

end Canonical

/-! ## The operations -/

section Operations

variable {directory directory' inner : List Node} {child x : Node} {path name contents : CString}
  {names : List CString} {i : Nat}

/-- A new child is added to those that were there. -/
theorem mem_addChild : x ∈ addChild directory child ↔ x = child ∨ x ∈ directory := by
  rw [addChild, bubble_perm.mem_iff, List.mem_cons]

/-- So are its files. -/
theorem holds_addChild : Holds (addChild directory child) names contents ↔
    Holds [child] names contents ∨ Holds directory names contents := by
  have hdirectory : Holds directory names contents ↔ _ := holds_iff_exists
  rw [holds_iff_exists, hdirectory]
  constructor
  · rintro ⟨x, hmem, hholds⟩
    rcases mem_addChild.mp hmem with rfl | hmem
    · exact .inl hholds
    · exact .inr ⟨x, hmem, hholds⟩
  · rintro (hholds | ⟨x, hmem, hholds⟩)
    · exact ⟨child, mem_addChild.mpr (.inl rfl), hholds⟩
    · exact ⟨x, mem_addChild.mpr (.inr hmem), hholds⟩

/-- The order is kept if the name is new. -/
theorem ordered_addChild (h : Ordered directory) (hnew : ∀ x ∈ directory, x.name ≠ child.name) :
    Ordered (addChild directory child) := by
  refine ascending_bubble ?_ h fun x hx heq => hnew x hx (rank_injective heq)
  intro x y
  rw [decide_eq_true_iff, strcmp_lt]

/-- The child that is found has the name, -/
theorem getChild_some (h : getChild directory name = some i) :
    ∃ child, directory[i]? = some child ∧ child.name = name := by
  obtain ⟨child, hchild, hcmp⟩ := search_some h
  exact ⟨child, hchild, (strcmp_eq.mp hcmp).symm⟩

/-- and no child has it if none is found. -/
theorem getChild_none (hordered : Sorted (fun child : Node => rank child.name) directory)
    (h : getChild directory name = none) :
    ∀ x ∈ directory, x.name ≠ name := by
  intro x hx heq
  obtain ⟨i, hi, hxi⟩ := List.getElem_of_mem hx
  have hless : ∀ x : Node, strcmp name x.name = .lt → rank name < rank x.name :=
    fun _ => strcmp_lt.mp
  have hgreater : ∀ x : Node, strcmp name x.name = .gt → rank x.name < rank name :=
    fun _ => strcmp_gt
  exact search_none hless hgreater hordered le_rfl h (Nat.zero_le i) hi
    (List.getElem?_eq_some_iff.mpr ⟨hi, hxi⟩) (congrArg rank heq)

/-- The tree with a new child is canonical if the child is. -/
theorem Canonical.addChild (h : Canonical directory)
    (hnew : ∀ x ∈ directory, x.name ≠ child.name)
    (hchild : ∀ name inner, child = .directory name inner → inner ≠ [] ∧ Canonical inner) :
    Canonical (addChild directory child) := by
  have hinside : ∀ name inner, .directory name inner ∈ Fat16.addChild directory child →
      inner ≠ [] ∧ Canonical inner := by
    intro name inner hmem
    rcases mem_addChild.mp hmem with heq | hmem
    · exact hchild name inner heq.symm
    · exact h.inside hmem
  exact .mk (ordered_addChild h.ordered hnew) (fun name inner hmem => (hinside name inner hmem).1)
    fun name inner hmem => (hinside name inner hmem).2

/-- Two positions have different names. -/
theorem Canonical.position (h : Canonical directory) {j : Nat} (hi : directory[i]? = some child)
    (hj : directory[j]? = some x) (hname : x.name = child.name) : i = j := by
  have hkey : rank x.name = rank child.name := congrArg rank hname
  rcases lt_trichotomy i j with hlt | heq | hgt
  · exact absurd hkey.symm (ne_of_lt (h.ordered.key_lt hlt hi hj))
  · exact heq
  · exact absurd hkey (ne_of_lt (h.ordered.key_lt hgt hj hi))

/-- `set` exchanges a child for another of the same name. -/
theorem Canonical.mem_set (h : Canonical directory) (hi : directory[i]? = some child) {new : Node}
    (hname : new.name = child.name) :
    x ∈ directory.set i new ↔ x = new ∨ (x ∈ directory ∧ x.name ≠ new.name) := by
  obtain ⟨hlt, -⟩ := List.getElem?_eq_some_iff.mp hi
  have hself : (directory.set i new)[i]? = some new := List.getElem?_set_self hlt
  have hother : ∀ j, i ≠ j → (directory.set i new)[j]? = directory[j]? :=
    fun j hne => List.getElem?_set_ne hne
  constructor
  · intro hmem
    obtain ⟨j, hj⟩ := List.mem_iff_getElem?.mp hmem
    by_cases hij : i = j
    · subst hij
      exact .inl (Option.some.inj (hj.symm.trans hself))
    · rw [hother j hij] at hj
      refine .inr ⟨List.mem_of_getElem? hj, ?_⟩
      intro heq
      exact hij (h.position hi hj (heq.trans hname))
  · rintro (rfl | ⟨hmem, hne⟩)
    · exact List.mem_of_getElem? hself
    · obtain ⟨j, hj⟩ := List.mem_iff_getElem?.mp hmem
      have hij : i ≠ j := by
        rintro rfl
        obtain rfl := Option.some.inj (hj.symm.trans hi)
        exact hne hname.symm
      exact List.mem_of_getElem? ((hother j hij).trans hj)

/-- A child may be replaced by another one of its name. -/
theorem Canonical.ordered_set (h : Canonical directory) (hi : directory[i]? = some child)
    {new : Node} (hname : new.name = child.name) : Ordered (directory.set i new) := by
  have hkeys : (directory.set i new).map (fun child : Node => rank child.name) =
      directory.map fun child : Node => rank child.name := by
    refine List.ext_getElem? fun j => ?_
    rw [List.getElem?_map, List.getElem?_map]
    by_cases hij : i = j
    · subst hij
      obtain ⟨hlt, -⟩ := List.getElem?_eq_some_iff.mp hi
      rw [List.getElem?_set_self hlt, hi, Option.map_some, Option.map_some, hname]
    · rw [List.getElem?_set_ne hij]
  have hordered := h.ordered
  unfold Ordered Ascending at hordered ⊢
  rwa [← List.pairwise_map, hkeys, List.pairwise_map]

/-- The tree with other children in one of its directories is canonical if they are. -/
theorem Canonical.set (h : Canonical directory) (hi : directory[i]? = some (.directory name inner))
    {inner' : List Node} (hne : inner' ≠ []) (hinner : Canonical inner') :
    Canonical (directory.set i (.directory name inner')) := by
  have hinside : ∀ name' inner'', .directory name' inner'' ∈
      directory.set i (.directory name inner') → inner'' ≠ [] ∧ Canonical inner'' := by
    intro name' inner'' hmem
    have hname : (Node.directory name inner').name = (Node.directory name inner).name := rfl
    rcases (h.mem_set hi hname).mp hmem with heq | ⟨hmem, -⟩
    · obtain ⟨-, rfl⟩ := Node.directory.inj heq
      exact ⟨hne, hinner⟩
    · exact h.inside hmem
  exact .mk (h.ordered_set hi rfl) (fun name inner hmem => (hinside name inner hmem).1)
    fun name inner hmem => (hinside name inner hmem).2

/-- The file may be added: its path does not go through a file, and it is not the path
of a file or of a directory of files. -/
def Fits (directory : List Node) (names : List CString) : Prop :=
  ∀ names' contents, Holds directory names' contents → ¬ names' <+: names ∧ ¬ names <+: names'

/-- Each path fits in an empty directory. -/
theorem fits_nil : Fits [] names := fun _ _ h => absurd h not_holds_nil

/-- What `add_file` is for: the tree stays canonical and gets one more file. -/
def Adds (directory : List Node) (names : List CString) (contents : CString)
    (directory' : List Node) : Prop :=
  directory' ≠ [] ∧ Canonical directory' ∧ ∀ names' contents',
    Holds directory' names' contents' ↔
      Holds directory names' contents' ∨ (names' = names ∧ contents' = contents)

/-- A path without a slash has one component, -/
theorem components_of_nil (h : fromSlash path = []) : components path = [path] := by
  unfold components
  split
  · rfl
  · rename_i heq
    cases h.symm.trans heq

/-- and one with a slash has the name before it and the components behind it. -/
theorem components_of_cons {slash : UInt8} {rest : CString} (h : fromSlash path = slash :: rest) :
    components path = beforeSlash path :: components rest := by
  rw [components]
  split
  · rename_i heq
    cases h.symm.trans heq
  · rename_i heq
    obtain ⟨-, rfl⟩ := List.cons.inj (h.symm.trans heq)
    rfl

/-- There is at least one. -/
theorem components_ne_nil : components path ≠ [] := by
  cases h : fromSlash path with
  | nil =>
      rw [components_of_nil h]
      exact List.cons_ne_nil _ _
  | cons slash rest =>
      rw [components_of_cons h]
      exact List.cons_ne_nil _ _

/-- The new file is the child. -/
theorem adds_file (h : Canonical directory) (hnew : ∀ x ∈ directory, x.name ≠ name) :
    Adds directory [name] contents (addChild directory (.file name contents)) := by
  refine ⟨List.ne_nil_of_mem (mem_addChild.mpr (.inl rfl)), h.addChild hnew ?_, ?_⟩
  · intro name inner heq
    cases heq
  · intro names' contents'
    rw [holds_addChild, holds_file, or_comm]

/-- The new file is inside a new directory. -/
theorem adds_directory (h : Canonical directory) (hnew : ∀ x ∈ directory, x.name ≠ name)
    (hinner : Adds [] names contents inner) :
    Adds directory (name :: names) contents (addChild directory (.directory name inner)) := by
  obtain ⟨hne, hcanonical, hholds⟩ := hinner
  refine ⟨List.ne_nil_of_mem (mem_addChild.mpr (.inl rfl)), h.addChild hnew ?_, ?_⟩
  · intro name' inner' heq
    obtain ⟨-, rfl⟩ := Node.directory.inj heq
    exact ⟨hne, hcanonical⟩
  · intro names' contents'
    rw [holds_addChild, holds_directory, or_comm]
    refine or_congr Iff.rfl ?_
    constructor
    · rintro ⟨rest, rfl, hrest⟩
      rcases (hholds _ _).mp hrest with hnil | ⟨rfl, rfl⟩
      · exact absurd hnil not_holds_nil
      · exact ⟨rfl, rfl⟩
    · rintro ⟨rfl, rfl⟩
      exact ⟨names, rfl, (hholds _ _).mpr (.inr ⟨rfl, rfl⟩)⟩

/-- The new file is inside a directory that was there. -/
theorem adds_inside (h : Canonical directory) (hi : directory[i]? = some (.directory name inner))
    {inner' : List Node} (hinner : Adds inner names contents inner') :
    Adds directory (name :: names) contents (directory.set i (.directory name inner')) := by
  obtain ⟨hne, hcanonical, hholds⟩ := hinner
  have hset : Canonical (directory.set i (.directory name inner')) := h.set hi hne hcanonical
  have hname : (Node.directory name inner').name = (Node.directory name inner).name := rfl
  have hnew : .directory name inner' ∈ directory.set i (.directory name inner') :=
    (h.mem_set hi hname).mpr (.inl rfl)
  have hmem := List.mem_of_getElem? hi
  refine ⟨List.ne_nil_of_mem hnew, hset, ?_⟩
  intro names' contents'
  cases names' with
  | nil =>
      constructor
      · intro hnil
        exact absurd rfl hnil.ne_nil
      · rintro (hnil | ⟨hnil, -⟩)
        · exact absurd rfl hnil.ne_nil
        · cases hnil
  | cons name' rest =>
      by_cases hsame : name' = name
      · subst hsame
        rw [hset.holds_inner hnew, h.holds_inner hmem, hholds]
        simp
      · -- the other children are the same
        have hfile : ∀ c, .file name' c ∈ directory.set i (.directory name inner') ↔
            .file name' c ∈ directory := by
          intro c
          rw [h.mem_set hi hname]
          exact ⟨fun hm => (hm.resolve_left Node.noConfusion).1, fun hm => .inr ⟨hm, hsame⟩⟩
        have hdirectory : ∀ c, .directory name' c ∈ directory.set i (.directory name inner') ↔
            .directory name' c ∈ directory := by
          intro c
          rw [h.mem_set hi hname]
          refine ⟨fun hm => (hm.resolve_left ?_).1, fun hm => .inr ⟨hm, hsame⟩⟩
          intro heq
          exact hsame (Node.directory.inj heq).1
        rw [holds_cons, holds_cons, hfile]
        simp only [hdirectory]
        simp [hsame]

/-- **One file.** `add_file` succeeds on a path that fits, keeps the tree canonical, and adds this
file only.  By induction along its recursion. -/
theorem addFile_spec (h : Canonical directory) (hfits : Fits directory (components path)) :
    ∃ directory', addFile contents directory path = some directory' ∧
      Adds directory (components path) contents directory' := by
  fun_induction addFile contents directory path with
  | case1 directory path hslash i hchild =>
      obtain ⟨child, hi, rfl⟩ := getChild_some hchild
      obtain ⟨names, contents', hholds⟩ := h.exists_under (List.mem_of_getElem? hi)
      rw [components_of_nil hslash] at hfits
      exact absurd (List.prefix_append [child.name] names) (hfits _ _ hholds).2
  | case2 directory path hslash hchild =>
      rw [components_of_nil hslash]
      exact ⟨_, rfl, adds_file h (getChild_none h.ordered.sorted hchild)⟩
  | case3 directory path slash rest hslash hchild ih =>
      obtain ⟨inner, hinner, hadds⟩ := ih canonical_nil fits_nil
      rw [components_of_cons hslash, hinner]
      exact ⟨_, rfl, adds_directory h (getChild_none h.ordered.sorted hchild) hadds⟩
  | case4 directory path slash rest hslash i hchild name children hi ih =>
      obtain ⟨child, hi', hname⟩ := getChild_some hchild
      obtain rfl := Option.some.inj (hi.symm.trans hi')
      have hmem := List.mem_of_getElem? hi
      have hname : name = beforeSlash path := hname
      rw [components_of_cons hslash, ← hname] at hfits ⊢
      have hinside : Fits children (components rest) := by
        intro names contents' hholds
        obtain ⟨hbelow, habove⟩ := hfits _ _ (.inside hmem hholds)
        rw [List.cons_prefix_cons] at hbelow habove
        exact ⟨fun hp => hbelow ⟨rfl, hp⟩, fun hp => habove ⟨rfl, hp⟩⟩
      obtain ⟨inner, hinner, hadds⟩ := ih (h.inside hmem).2 hinside
      rw [hinner]
      exact ⟨_, rfl, adds_inside h hi hadds⟩
  | case5 directory path slash rest hslash i hchild hi =>
      obtain ⟨child, hi', hname⟩ := getChild_some hchild
      cases child with
      | file name contents' =>
          have hname : name = beforeSlash path := hname
          rw [components_of_cons hslash, ← hname] at hfits
          have hbelow := (hfits _ _ (.file (List.mem_of_getElem? hi'))).1
          exact absurd (List.cons_prefix_cons.mpr ⟨rfl, List.nil_prefix⟩) hbelow
      | directory name inner => exact absurd hi' (hi name inner)

end Operations

/-! ## Sets of files -/

section Files

variable {directory directory' : List Node} {files files' : List (CString × CString)}
  {p q names names' : List CString} {path path' contents : CString}

/-- A path is what is before its first slash, and what is behind it. -/
theorem path_of_cons {slash : UInt8} {rest : CString} (h : fromSlash path = slash :: rest) :
    path = beforeSlash path ++ 47 :: rest := by
  have hslash : slash = 47 := by
    have hhead := List.head?_dropWhile_not (fun c : UInt8 => c ≠ 47) path
    rw [show path.dropWhile (fun c : UInt8 => c ≠ 47) = slash :: rest from h] at hhead
    simpa using hhead
  have happend : beforeSlash path ++ fromSlash path = path := List.takeWhile_append_dropWhile
  rw [h, hslash] at happend
  exact happend.symm

/-- The names along one path begin the names along another only if the paths are
equal, or the one is the path of a directory that the other goes through. -/
theorem eq_or_prefix_of_components (h : components path <+: components path') :
    path = path' ∨ path ++ [47] <+: path' := by
  fun_induction components path generalizing path' with
  | case1 path hslash =>
      cases hslash' : fromSlash path' with
      | nil =>
          rw [components_of_nil hslash', List.cons_prefix_cons] at h
          exact .inl h.1
      | cons slash rest =>
          rw [components_of_cons hslash', List.cons_prefix_cons] at h
          rw [path_of_cons hslash', ← h.1]
          exact .inr ⟨rest, by simp⟩
  | case2 path slash rest hslash ih =>
      cases hslash' : fromSlash path' with
      | nil =>
          rw [components_of_nil hslash', List.cons_prefix_cons] at h
          exact absurd (List.prefix_nil.mp h.2) components_ne_nil
      | cons slash' rest' =>
          rw [components_of_cons hslash', List.cons_prefix_cons] at h
          rw [path_of_cons hslash, path_of_cons hslash', ← h.1]
          rcases ih h.2 with rfl | ⟨tail, rfl⟩
          · exact .inl rfl
          · exact .inr ⟨tail, by simp⟩

/-- Neither path is the other one or goes through it as through a directory. -/
def Apart (path path' : CString) : Prop :=
  path ≠ path' ∧ ¬ path ++ [47] <+: path' ∧ ¬ path' ++ [47] <+: path

/-- Paths that are apart do not go through each other. -/
theorem Apart.components (h : Apart path path') :
    ¬ components path <+: components path' ∧ ¬ components path' <+: components path := by
  obtain ⟨hne, hbelow, habove⟩ := h
  constructor
  · intro hp
    rcases eq_or_prefix_of_components hp with heq | hp
    · exact hne heq
    · exact hbelow hp
  · intro hp
    rcases eq_or_prefix_of_components hp with heq | hp
    · exact hne heq.symm
    · exact habove hp

/-- Being apart is symmetric. -/
theorem Apart.symm (h : Apart path path') : Apart path' path :=
  ⟨h.1.symm, h.2.2, h.2.1⟩

/-- The run lemma: the tree stays canonical, and the files in it are those that were
added. -/
theorem addFiles_spec (hfiles : files.Pairwise fun f g => Apart f.1 g.1)
    (h : Canonical directory) (hfits : ∀ f ∈ files, Fits directory (components f.1)) :
    ∃ directory', addFiles files directory = some directory' ∧ Canonical directory' ∧
      ∀ names contents, Holds directory' names contents ↔ Holds directory names contents ∨
        ∃ f ∈ files, names = components f.1 ∧ contents = f.2 := by
  induction files generalizing directory with
  | nil => exact ⟨directory, rfl, h, by simp⟩
  | cons f files ih =>
      obtain ⟨path, contents⟩ := f
      obtain ⟨hfirst, hfiles⟩ := List.pairwise_cons.mp hfiles
      obtain ⟨next, hnext, -, hcanonical, hholds⟩ :
          ∃ next, addFile contents directory path = some next ∧ _ :=
        addFile_spec h (hfits _ List.mem_cons_self)
      have hfits' : ∀ f ∈ files, Fits next (components f.1) := by
        intro f hf names contents' hmem
        rcases (hholds _ _).mp hmem with hold | ⟨rfl, rfl⟩
        · exact hfits f (List.mem_cons_of_mem _ hf) names contents' hold
        · exact (hfirst f hf).components
      obtain ⟨last, hlast, hcanonical', hholds'⟩ := ih hfiles hcanonical hfits'
      refine ⟨last, ?_, hcanonical', ?_⟩
      · rw [addFiles, hnext]
        exact hlast
      · intro names contents'
        rw [hholds', hholds, or_assoc]
        simp

/-- **The order of insertions does not matter.** For files none of which is at the path
of another one or inside it, and for any two orders of adding them to an empty root:
both ways lead to the same tree, with the same text, which holds these files and no
others. -/
theorem addFiles_perm (hfiles : files.Pairwise fun f g => Apart f.1 g.1)
    (hperm : files.Perm files') :
    ∃ tree tree', addFiles files [] = some tree ∧ addFiles files' [] = some tree' ∧
      tree = tree' ∧ Canonical tree ∧
      (∀ names contents, Holds tree names contents ↔
        ∃ f ∈ files, names = components f.1 ∧ contents = f.2) ∧
      printDirectoryTree (root tree) = printDirectoryTree (root tree') := by
  have hfiles' : files'.Pairwise fun f g => Apart f.1 g.1 :=
    hperm.pairwise hfiles fun h => h.symm
  obtain ⟨tree, htree, hcanonical, hholds⟩ :=
    addFiles_spec hfiles canonical_nil fun _ _ => fits_nil
  obtain ⟨tree', htree', hcanonical', hholds'⟩ :=
    addFiles_spec hfiles' canonical_nil fun _ _ => fits_nil
  have heq : tree = tree' := by
    refine hcanonical.ext hcanonical' ?_
    intro names contents
    rw [hholds, hholds']
    simp only [hperm.mem_iff]
  refine ⟨tree, tree', htree, htree', heq, hcanonical, ?_, by rw [heq]⟩
  intro names contents
  rw [hholds]
  exact or_iff_right not_holds_nil

end Files

/-- The files `d/a` and `b`. -/
def twoFiles : List (CString × CString) := [([100, 47, 97], [120]), ([98], [121])]

/-- Two files, in both orders. -/
theorem twoFiles_perm :
    ∃ tree tree', addFiles twoFiles [] = some tree ∧ addFiles twoFiles.reverse [] = some tree' ∧
      tree = tree' ∧ Canonical tree ∧
      (∀ names contents, Holds tree names contents ↔
        ∃ f ∈ twoFiles, names = components f.1 ∧ contents = f.2) ∧
      printDirectoryTree (root tree) = printDirectoryTree (root tree') := by
  refine addFiles_perm ?_ twoFiles.reverse_perm.symm
  simp [twoFiles, Apart]

end Fat16
