import CS24.Fat16.Reentry

/-!
# The paths that the recovery writes to

`create_tree` and `create_directory_tree`.  `Call` is a call of `mkdir`, or of `fopen` with
what is written then; an assertion that fails cuts the list of calls off.  A spot is a node
of a tree with the names on the way to it, and the spots of the tree that `follow` builds are
the records that it adds.
-/

namespace Fat16

open SortedList

/-- A call at a depth of the recursion, which the C code does not keep; `contents` is `none`
for `mkdir`. -/
structure Call where
  level : Nat
  path : CString
  contents : Option (List UInt8)
  deriving DecidableEq, Repr

/-- `cur_path` -/
def curPath (path name : CString) : CString := if path = [] then name else path ++ 47 :: name

mutual

/-- `create_tree` -/
def createTree (level : Nat) (path : CString) : Node → List Call
  | .file name contents => [⟨level, curPath path name, some contents⟩]
  | .directory name children =>
    ⟨level, curPath path name, none⟩ :: createChildren (level + 1) (curPath path name) children

/-- The loop of `create_tree` over the children. -/
def createChildren (level : Nat) (path : CString) : List Node → List Call
  | [] => []
  | child :: children => createTree level path child ++ createChildren level path children

end

/-- `create_directory_tree` -/
def createDirectoryTree (node : Node) : List Call := createTree 0 [] node

/-- The names from the root of a tree to a node, and the contents of a file. -/
abbrev Spot := List CString × Option (List UInt8)

/-- A spot in the directory `name`. -/
def Spot.under (name : CString) (spot : Spot) : Spot := (name :: spot.1, spot.2)

mutual

/-- The nodes of a tree. -/
def Node.spots : Node → List Spot
  | .file name contents => [([name], some contents)]
  | .directory name children => ([name], none) :: (spotsOf children).map (Spot.under name)

/-- The nodes of trees. -/
def spotsOf : List Node → List Spot
  | [] => []
  | child :: children => child.spots ++ spotsOf children

end

/-- Names with a slash between each two. -/
def join : List CString → CString
  | [] => []
  | [name] => name
  | name :: names => name ++ 47 :: join names

section Paths

variable {path name : CString} {names names' : List CString} {node child : Node}
  {children nodes : List Node} {spot : Spot}

/-- The spots of some nodes are those of each node. -/
theorem spotsOf_eq (nodes : List Node) : spotsOf nodes = nodes.flatMap Node.spots := by
  induction nodes with
  | nil => rw [spotsOf, List.flatMap_nil]
  | cons node nodes ih => rw [spotsOf, ih, List.flatMap_cons]

/-- A new child adds its spots. -/
theorem spotsOf_addChild : (spotsOf (addChild nodes child)).Perm (spotsOf nodes ++ child.spots) := by
  rw [spotsOf_eq, spotsOf_eq]
  refine (bubble_perm.flatMap_right _).trans ?_
  rw [List.flatMap_cons]
  exact List.perm_append_comm

/-- The path of several names. -/
theorem join_cons (h : names ≠ []) : join (name :: names) = name ++ 47 :: join names := by
  cases names with
  | nil => exact absurd rfl h
  | cons n names => rfl

/-- A spot has a name. -/
theorem spotsOf_ne_nil (h : spot ∈ spotsOf nodes) : spot.1 ≠ [] := by
  rw [spotsOf_eq] at h
  obtain ⟨node, -, hspot⟩ := List.mem_flatMap.mp h
  cases node with
  | file name contents =>
      rw [Node.spots, List.mem_singleton] at hspot
      subst hspot
      exact List.cons_ne_nil _ _
  | directory name children =>
      rw [Node.spots, List.mem_cons] at hspot
      rcases hspot with rfl | hspot
      · exact List.cons_ne_nil _ _
      · obtain ⟨inner, -, rfl⟩ := List.mem_map.mp hspot
        exact List.cons_ne_nil _ _

/-- The call for a spot in a tree that is created in the directory at `path`. -/
def Spot.call (level : Nat) (path : CString) (spot : Spot) : Call :=
  ⟨level + (spot.1.length - 1), path ++ 47 :: join spot.1, spot.2⟩

/-- A spot in a directory is made below the path of the directory. -/
theorem call_under {level : Nat} (h : spot.1 ≠ []) :
    Spot.call level path (spot.under name) = Spot.call (level + 1) (path ++ 47 :: name) spot := by
  have hlength := List.length_pos_iff.mpr h
  have hjoin : join (name :: spot.1) = name ++ 47 :: join spot.1 := join_cons h
  simp only [Spot.call, Spot.under, hjoin, List.length_cons, List.append_assoc, List.cons_append]
  congr 1
  omega

mutual

/-- The calls for a tree are those for its spots. -/
theorem createTree_eq : ∀ (node : Node) (level : Nat) (path : CString), path ≠ [] →
    createTree level path node = node.spots.map (Spot.call level path)
  | .file name contents, level, path, h => by
      simp [createTree, Node.spots, Spot.call, curPath, h, join]
  | .directory name children, level, path, h => by
      have hpath : curPath path name = path ++ 47 :: name := if_neg h
      have hchildren := createChildren_eq children (level + 1) (path ++ 47 :: name)
        (List.append_ne_nil_of_left_ne_nil h _)
      have hunder : (spotsOf children).map (Spot.call (level + 1) (path ++ 47 :: name)) =
          (spotsOf children).map (Spot.call level path ∘ Spot.under name) :=
        List.map_congr_left fun spot hspot => (call_under (spotsOf_ne_nil hspot)).symm
      rw [createTree, hpath, hchildren, hunder, Node.spots, List.map_cons, List.map_map]
      rfl

/-- So are those for its children. -/
theorem createChildren_eq : ∀ (children : List Node) (level : Nat) (path : CString), path ≠ [] →
    createChildren level path children = (spotsOf children).map (Spot.call level path)
  | [], level, path, h => by rw [createChildren, spotsOf, List.map_nil]
  | child :: children, level, path, h => by
      rw [createChildren, spotsOf, List.map_append, createTree_eq child level path h,
        createChildren_eq children level path h]

end

/-- `"ROOT"` -/
def ROOT : CString := [82, 79, 79, 84]

/-- The calls for a whole tree: `ROOT`, and what is in it. -/
theorem createDirectoryTree_root : createDirectoryTree (root children) =
    ⟨0, ROOT, none⟩ :: (spotsOf children).map (Spot.call 1 ROOT) := by
  have hchildren := createChildren_eq children 1 ROOT (by decide)
  rw [← hchildren]
  rfl

end Paths

/-! ## The records that are added -/

/-- The loop over the records from `start` on gets to the one at a position. -/
inductive Scans (disk : Disk) (start : Nat) : Nat → Prop
  | start : Scans disk start start
  | next {pos : Nat} {entry : DirectoryEntry} : Scans disk start pos →
      disk.readEntry pos = some entry → ¬ entry.Stops → Scans disk start (pos + 32)

/-- The walk over the directory at `start` adds a record, behind or below it: the route is the
positions of the records of the directories on the way and of the record itself, and the
names are theirs. -/
inductive Added (disk : Disk) (bpb : BiosParameterBlock) :
    Nat → List Nat → List CString → DirectoryEntry → Prop
  | here {start pos : Nat} {entry : DirectoryEntry} : Scans disk start pos →
      disk.readEntry pos = some entry → entry.Kept →
      Added disk bpb start [pos] [entry.getFileName] entry
  | inside {start pos : Nat} {entry inner : DirectoryEntry} {route : List Nat}
      {names : List CString} : Scans disk start pos → disk.readEntry pos = some entry →
      entry.Kept → entry.isDirectory = true →
      Added disk bpb (target bpb pos entry) route names inner →
      Added disk bpb start (pos :: route) (entry.getFileName :: names) inner

section Records

variable {disk : Disk} {bpb : BiosParameterBlock} {start pos fuel : Nat} {entry inner : DirectoryEntry}
  {route : List Nat} {names : List CString} {node children : List Node} {walk : Walk}

/-- A scan goes forward. -/
theorem Scans.le (h : Scans disk start pos) : start ≤ pos := by
  induction h with
  | start => exact le_rfl
  | next _ _ _ ih => omega

/-- It may begin one record earlier, -/
theorem Scans.behind (h : Scans disk (start + 32) pos) (hread : disk.readEntry start = some entry)
    (hstops : ¬ entry.Stops) : Scans disk start pos := by
  induction h with
  | start => exact .next .start hread hstops
  | next _ hread hstops ih => exact .next ih hread hstops

/-- and is at its first record or behind it. -/
theorem Scans.cases_head (h : Scans disk start pos) (hread : disk.readEntry start = some entry) :
    pos = start ∨ (¬ entry.Stops ∧ Scans disk (start + 32) pos) := by
  induction h with
  | start => exact .inl rfl
  | next _ hread' hstops ih =>
      rcases ih with rfl | ⟨h1, h2⟩
      · obtain rfl := Option.some.inj (hread.symm.trans hread')
        exact .inr ⟨hstops, .start⟩
      · exact .inr ⟨h1, .next h2 hread' hstops⟩

/-- What is added behind a record is added. -/
theorem Added.behind (h : Added disk bpb (start + 32) route names inner)
    (hread : disk.readEntry start = some entry) (hstops : ¬ entry.Stops) :
    Added disk bpb start route names inner := by
  cases h with
  | here hscans hread' hkept => exact .here (hscans.behind hread hstops) hread' hkept
  | inside hscans hread' hkept hdirectory hinner =>
      exact .inside (hscans.behind hread hstops) hread' hkept hdirectory hinner

/-- A record that is added is the first one, or below it, or behind it. -/
theorem Added.cases_head (h : Added disk bpb start route names inner)
    (hread : disk.readEntry start = some entry) :
    (entry.Kept ∧ route = [start] ∧ names = [entry.getFileName] ∧ inner = entry) ∨
      (∃ route' names', entry.Kept ∧ entry.isDirectory = true ∧ route = start :: route' ∧
        names = entry.getFileName :: names' ∧
        Added disk bpb (target bpb start entry) route' names' inner) ∨
      (¬ entry.Stops ∧ Added disk bpb (start + 32) route names inner) := by
  cases h with
  | here hscans hread' hkept =>
      rcases hscans.cases_head hread with rfl | ⟨hstops, hbehind⟩
      · obtain rfl := Option.some.inj (hread.symm.trans hread')
        exact .inl ⟨hkept, rfl, rfl, rfl⟩
      · exact .inr (.inr ⟨hstops, .here hbehind hread' hkept⟩)
  | inside hscans hread' hkept hdirectory hinner =>
      rcases hscans.cases_head hread with rfl | ⟨hstops, hbehind⟩
      · obtain rfl := Option.some.inj (hread.symm.trans hread')
        exact .inr (.inl ⟨_, _, hkept, hdirectory, rfl, rfl, hinner⟩)
      · exact .inr (.inr ⟨hstops, .inside hbehind hread' hkept hdirectory hinner⟩)

/-- A route has a last record. -/
theorem Added.route_ne_nil (h : Added disk bpb start route names inner) : route ≠ [] := by
  cases h <;> exact List.cons_ne_nil _ _

/-- A route starts behind the start. -/
theorem Added.le_head (h : Added disk bpb start route names inner) : ∀ p ∈ route.head?, start ≤ p := by
  cases h with
  | here hscans _ _ | inside hscans _ _ _ _ =>
      intro p hp
      obtain rfl := Option.some.inj hp
      exact hscans.le

/-- A record with its route. -/
abbrev Routed := List Nat × Spot

/-- The list has the records that are added, each once. -/
structure Routes (disk : Disk) (bpb : BiosParameterBlock) (start : Nat) (records : List Routed) :
    Prop where
  nodup : (records.map Prod.fst).Nodup
  added : ∀ r ∈ records, ∃ entry, Added disk bpb start r.1 r.2.1 entry ∧
    (r.2.2 = none ↔ entry.isDirectory = true)
  complete : ∀ route names entry, Added disk bpb start route names entry →
    ∃ contents, (route, names, contents) ∈ records ∧ (contents = none ↔ entry.isDirectory = true)

/-- A record that is not kept adds no routes. -/
theorem Routes.behind {records : List Routed} (h : Routes disk bpb (start + 32) records)
    (hread : disk.readEntry start = some entry) (hstops : ¬ entry.Stops) (hkept : ¬ entry.Kept) :
    Routes disk bpb start records := by
  refine ⟨h.nodup, ?_, ?_⟩
  · intro r hr
    obtain ⟨e, hadded, hcontents⟩ := h.added r hr
    exact ⟨e, hadded.behind hread hstops, hcontents⟩
  · intro route names e hadded
    rcases hadded.cases_head hread with ⟨hk, -⟩ | ⟨_, _, hk, -⟩ | ⟨-, hbehind⟩
    · exact absurd hk hkept
    · exact absurd hk hkept
    · exact h.complete route names e hbehind

/-- The records of a directory that starts with one that is added, with those below it. -/
theorem Routes.cons {records below : List Routed} (h : Routes disk bpb (start + 32) records)
    (contents : Option (List UInt8)) (hread : disk.readEntry start = some entry)
    (hkept : entry.Kept) (hcontents : contents = none ↔ entry.isDirectory = true)
    (hbelow : (entry.isDirectory = false ∧ below = []) ∨ Routes disk bpb (target bpb start entry) below ∧
      entry.isDirectory = true) :
    Routes disk bpb start ((([start], [entry.getFileName], contents) :
      Routed) :: (below.map fun r => (start :: r.1, r.2.under entry.getFileName)) ++ records) := by
  have hmem : ∀ r ∈ below, entry.isDirectory = true ∧
      ∃ e, Added disk bpb (target bpb start entry) r.1 r.2.1 e ∧
      (r.2.2 = none ↔ e.isDirectory = true) := by
    intro r hr
    rcases hbelow with ⟨-, rfl⟩ | ⟨hroutes, hdirectory⟩
    · cases hr
    · exact ⟨hdirectory, hroutes.added r hr⟩
  refine ⟨?_, ?_, ?_⟩
  · rw [List.map_append, List.map_cons, List.map_map]
    refine List.nodup_append.mpr ⟨List.nodup_cons.mpr ⟨?_, ?_⟩, h.nodup, ?_⟩
    · intro hin
      obtain ⟨r, hr, heq⟩ := List.mem_map.mp hin
      obtain ⟨-, e, hadded, -⟩ := hmem r hr
      exact hadded.route_ne_nil (List.cons.inj heq).2
    · have hinj : Function.Injective (List.cons start) := List.cons_injective
      have hnodup : (below.map Prod.fst).Nodup := by
        rcases hbelow with ⟨-, rfl⟩ | ⟨hroutes, -⟩
        · exact List.nodup_nil
        · exact hroutes.nodup
      have hmap := hnodup.map hinj
      rwa [List.map_map] at hmap
    · -- the routes behind the record start behind it
      intro route hroute route' hroute' heq
      subst heq
      have hhead : route.head? = some start := by
        rcases List.mem_cons.mp hroute with rfl | hin
        · rfl
        · obtain ⟨r, -, rfl⟩ := List.mem_map.mp hin
          rfl
      obtain ⟨r, hr, rfl⟩ := List.mem_map.mp hroute'
      obtain ⟨e, hadded, -⟩ := h.added r hr
      have := hadded.le_head start hhead
      omega
  · intro r hr
    rw [List.mem_append, List.mem_cons] at hr
    rcases hr with (rfl | hr) | hr
    · exact ⟨entry, .here .start hread hkept, hcontents⟩
    · obtain ⟨inner, hinner, rfl⟩ := List.mem_map.mp hr
      obtain ⟨hdirectory, e, hadded, hcontents'⟩ := hmem inner hinner
      exact ⟨e, .inside .start hread hkept hdirectory hadded, hcontents'⟩
    · obtain ⟨e, hadded, hcontents'⟩ := h.added r hr
      exact ⟨e, hadded.behind hread hkept.not_stops, hcontents'⟩
  · intro route names e hadded
    rcases hadded.cases_head hread with ⟨-, rfl, rfl, rfl⟩ |
      ⟨route', names', -, hdirectory, rfl, rfl, hinner⟩ | ⟨-, hbehind⟩
    · exact ⟨contents, List.mem_append_left _ List.mem_cons_self, hcontents⟩
    · rcases hbelow with ⟨hfile, -⟩ | ⟨hroutes, -⟩
      · exact absurd (hfile.symm.trans hdirectory) Bool.noConfusion
      · obtain ⟨c, hc, hcontents'⟩ := hroutes.complete route' names' e hinner
        refine ⟨c, ?_, hcontents'⟩
        refine List.mem_append_left _ (List.mem_cons_of_mem _ ?_)
        exact List.mem_map.mpr ⟨_, hc, rfl⟩
    · obtain ⟨c, hc, hcontents'⟩ := h.complete route names e hbehind
      exact ⟨c, List.mem_append_right _ hc, hcontents'⟩

/-- **The spots of the tree.** The tree that `follow` builds has a node for each record that it
adds, under the names of the record's route, and no others. -/
theorem follow_spots (h : follow disk bpb fuel pos node = .done children walk) :
    ∃ records, Routes disk bpb pos records ∧
      (spotsOf children).Perm (spotsOf node ++ records.map Prod.snd) := by
  induction fuel generalizing pos node children walk with
  | zero => cases h
  | succ fuel ih =>
      obtain ⟨entry, hread⟩ := exists_readEntry h
      obtain ⟨k, hk, hturns⟩ := follow_turns h hread
      obtain rfl := Nat.succ.inj hk
      cases hturns with
      | hidden hhidden hrest _ =>
          obtain ⟨records, hroutes, hperm⟩ := ih hrest
          refine ⟨records, hroutes.behind hread ?_ ?_, hperm⟩
          · intro hstops
            exact absurd (hhidden.symm.trans hstops.1) Bool.noConfusion
          · intro hkept
            exact absurd (hhidden.symm.trans hkept.1) Bool.noConfusion
      | stop hvisible hname hchildren _ =>
          refine ⟨[], ⟨List.nodup_nil, fun r hr => absurd hr List.not_mem_nil, ?_⟩, ?_⟩
          · intro route names e hadded
            rcases hadded.cases_head hread with ⟨hk, -⟩ | ⟨_, _, hk, -⟩ | ⟨hstops, -⟩
            · exact absurd hname hk.2
            · exact absurd hname hk.2
            · exact absurd ⟨hvisible, hname⟩ hstops
          · rw [hchildren, List.map_nil, List.append_nil]
      | @file contents walk' hvisible hname hfile hcontents hrest _ =>
          obtain ⟨records, hroutes, hperm⟩ := ih hrest
          refine ⟨_, hroutes.cons (some contents) hread ⟨hvisible, hname⟩ (by simp [hfile])
            (.inl ⟨hfile, rfl⟩), ?_⟩
          refine hperm.trans ((spotsOf_addChild.append_right _).trans ?_)
          rw [Node.spots, List.append_assoc]
          exact List.Perm.refl _
      | @directory inside inner walk' hvisible hname hdirectory hinner hrest _ =>
          obtain ⟨records, hroutes, hperm⟩ := ih hrest
          obtain ⟨below, hbelow, hinside⟩ := ih hinner
          refine ⟨_, hroutes.cons none hread ⟨hvisible, hname⟩ (by simp [hdirectory])
            (.inr ⟨hbelow, hdirectory⟩), ?_⟩
          refine hperm.trans ((spotsOf_addChild.append_right _).trans ?_)
          rw [Node.spots, List.append_assoc, List.map_append, List.map_cons, List.map_map]
          refine List.Perm.append_left _ ?_
          refine List.Perm.cons _ (List.Perm.append_right _ ?_)
          have hmap := hinside.map (Spot.under entry.getFileName)
          rwa [spotsOf, List.nil_append, List.map_map] at hmap

end Records

/-! ## One component for each name -/

/-- A name of one component of a path, which does not lead back. -/
structure Plain (name : CString) : Prop where
  ne_nil : name ≠ []
  no_slash : 47 ∉ name
  ne_dot : name ≠ [46]
  ne_dots : name ≠ [46, 46]

/-- The path is `ROOT`, followed by one component for each level of the tree. -/
def Call.Inside (call : Call) : Prop :=
  ∃ names, call.path = join (ROOT :: names) ∧ names.length = call.level ∧ ∀ name ∈ names, Plain name

/-- The bytes of a name field that `get_file_name` takes. -/
def shown (field : List UInt8) : List UInt8 := field.takeWhile fun c => c ≠ 32 ∧ c ≠ 0

/-- The bytes of the record make one component: there is no slash in what is taken of the file
name, nor in what is taken of the extension (which is not looked at behind a zero in the
file name); and if the file name is blank, the extension is not blank behind at most one dot. -/
def DirectoryEntry.OneComponent (entry : DirectoryEntry) : Prop :=
  47 ∉ shown entry.filename ∧
    (0 ∉ entry.filename.takeWhile (· ≠ 32) → 47 ∉ shown entry.extension) ∧
    (entry.filename[0]? = some 32 → shown entry.extension ≠ [] ∧ shown entry.extension ≠ [46])

section Names

variable {path name p q : CString} {names names' : List CString} {entry : DirectoryEntry}

/-- A name without a slash is one component. -/
theorem components_of_not_mem (h : 47 ∉ path) : components path = [path] := by
  refine components_of_nil ?_
  rw [fromSlash, List.dropWhile_eq_nil_iff]
  intro c hc
  have hne : c ≠ 47 := by
    rintro rfl
    exact h hc
  simpa using hne

/-- The components of two paths with a slash between them. -/
theorem components_append : components (p ++ 47 :: q) = components p ++ components q := by
  fun_induction components p with
  | case1 p hslash =>
      have hno : ∀ c ∈ p, decide (c ≠ 47) = true := List.dropWhile_eq_nil_iff.mp hslash
      have hfrom : fromSlash (p ++ 47 :: q) = 47 :: q := by
        rw [fromSlash, List.dropWhile_append_of_pos hno]
        rfl
      have hbefore : beforeSlash (p ++ 47 :: q) = p := by
        rw [beforeSlash, List.takeWhile_append_of_pos hno]
        simp
      rw [components_of_cons hfrom, hbefore, List.singleton_append]
  | case2 p slash rest hslash ih =>
      have hp := path_of_cons hslash
      have hno : ∀ c ∈ beforeSlash p, decide (c ≠ 47) = true := by
        intro c hc
        rw [beforeSlash] at hc
        have htake := List.mem_takeWhile_imp hc
        simpa using htake
      have hfrom : fromSlash (p ++ 47 :: q) = 47 :: (rest ++ 47 :: q) := by
        conv_lhs => rw [hp]
        rw [fromSlash, List.append_assoc, List.dropWhile_append_of_pos hno]
        rfl
      have hbefore : beforeSlash (p ++ 47 :: q) = beforeSlash p := by
        conv_lhs => rw [hp]
        rw [beforeSlash, List.append_assoc, List.takeWhile_append_of_pos hno]
        simp
      rw [components_of_cons hfrom, hbefore, ih, List.cons_append]

/-- The components of a path are those of its names. -/
theorem components_join (h : names ≠ []) : components (join names) = names.flatMap components := by
  induction names with
  | nil => exact absurd rfl h
  | cons name names ih =>
      cases names with
      | nil => rw [join, List.flatMap_singleton]
      | cons n names =>
          rw [join_cons (List.cons_ne_nil _ _), components_append, ih (List.cons_ne_nil _ _)]
          rfl

/-- Names without slashes are their own components. -/
theorem flatMap_components (h : ∀ name ∈ names, 47 ∉ name) : names.flatMap components = names := by
  induction names with
  | nil => rfl
  | cons name names ih =>
      rw [List.flatMap_cons, components_of_not_mem (h name List.mem_cons_self),
        ih fun n hn => h n (List.mem_cons_of_mem _ hn), List.singleton_append]

/-- A name has at least one component. -/
theorem le_length_flatMap_components : names.length ≤ (names.flatMap components).length := by
  induction names with
  | nil => exact le_rfl
  | cons name names ih =>
      have hpos : 0 < (components name).length := List.length_pos_iff.mpr components_ne_nil
      rw [List.flatMap_cons, List.length_append, List.length_cons]
      omega

/-- Names with as many components as they are have no slashes. -/
theorem flatMap_components_eq (h : (names.flatMap components).length = names.length) :
    names.flatMap components = names := by
  induction names with
  | nil => rfl
  | cons name names ih =>
      have hpos : 0 < (components name).length := List.length_pos_iff.mpr components_ne_nil
      have hle : names.length ≤ (names.flatMap components).length := le_length_flatMap_components
      rw [List.flatMap_cons, List.length_append, List.length_cons] at h
      obtain ⟨c, hc⟩ := List.length_eq_one_iff.mp (show (components name).length = 1 by omega)
      cases hslash : fromSlash name with
      | nil =>
          rw [List.flatMap_cons, components_of_nil hslash, ih (by omega), List.singleton_append]
      | cons slash rest =>
          have hrest : 0 < (components rest).length := List.length_pos_iff.mpr components_ne_nil
          rw [components_of_cons hslash, List.length_cons] at h
          omega

/-- The call for a spot is inside `ROOT` if the names on the way are plain. -/
theorem inside_iff (h : names ≠ []) {contents : Option (List UInt8)} :
    (Spot.call 1 ROOT (names, contents)).Inside ↔ ∀ name ∈ names, Plain name := by
  have hlength := List.length_pos_iff.mpr h
  have hpath : (Spot.call 1 ROOT (names, contents)).path = join (ROOT :: names) := (join_cons h).symm
  have hlevel : (Spot.call 1 ROOT (names, contents)).level = names.length := by
    simp only [Spot.call]
    omega
  rw [Call.Inside, hpath, hlevel]
  constructor
  · rintro ⟨names', heq, hlength', hplain⟩
    have hcomponents := congrArg components heq
    rw [components_join (List.cons_ne_nil _ _), components_join (List.cons_ne_nil _ _),
      List.flatMap_cons, List.flatMap_cons, List.append_cancel_left_eq,
      flatMap_components fun n hn => (hplain n hn).no_slash] at hcomponents
    have hself : names.flatMap components = names :=
      flatMap_components_eq (by rw [hcomponents, hlength'])
    rw [← hself, hcomponents]
    exact hplain
  · intro hplain
    exact ⟨names, rfl, rfl, hplain⟩

/-- A slash in a name is one in what is taken of the fields. -/
theorem slash_mem_getFileName : 47 ∈ entry.getFileName ↔ 47 ∈ shown entry.filename ∨
    (0 ∉ entry.filename.takeWhile (· ≠ 32) ∧ 47 ∈ shown entry.extension) := by
  generalize hstem : entry.filename.takeWhile (· ≠ 32) = stem
  have hfilename : shown entry.filename = stem.takeWhile (· ≠ 0) := by
    rw [← hstem, List.takeWhile_takeWhile, shown]
    simp [and_comm]
  have hdeleted : ((fun c => decide (c ≠ 0)) ∘ fun c : UInt8 => if c = 0xE5 then 63 else c) =
      fun c => decide (c ≠ 0) := by
    funext c
    by_cases hc : c = 0xE5
    · subst hc
      rfl
    · simp [hc]
  have hmap (l : List UInt8) : (47 ∈ l.map fun c => if c = 0xE5 then (63 : UInt8) else c) ↔ 47 ∈ l := by
    rw [List.mem_map]
    constructor
    · rintro ⟨c, hc, heq⟩
      split at heq
      · exact absurd heq (by decide)
      · rwa [← heq]
    · intro hc
      exact ⟨47, hc, rfl⟩
  have hextension : (47 ∈ (if entry.extension[0]? = some 32 then []
      else 46 :: entry.extension.takeWhile (· ≠ 32)).takeWhile (· ≠ 0)) ↔ 47 ∈ shown entry.extension := by
    have hshown : shown entry.extension = (entry.extension.takeWhile (· ≠ 32)).takeWhile (· ≠ 0) := by
      rw [List.takeWhile_takeWhile, shown]
      simp [and_comm]
    rw [hshown]
    cases entry.extension with
    | nil => simp
    | cons c cs =>
        by_cases hc : c = 32
        · simp [hc]
        · simp [hc]
  rw [DirectoryEntry.getFileName, hstem, hfilename, List.takeWhile_append, List.takeWhile_map,
    hdeleted]
  by_cases hzero : 0 ∈ stem
  · have hne : (stem.takeWhile (· ≠ 0)).length ≠ stem.length := by
      intro heq
      have hself := (List.takeWhile_sublist fun c : UInt8 => decide (c ≠ 0)).eq_of_length heq
      have hin := hself ▸ hzero
      have htake := List.mem_takeWhile_imp hin
      simp at htake
    rw [List.length_map, List.length_map, if_neg hne, hmap]
    simp [hzero]
  · have hself : stem.takeWhile (· ≠ 0) = stem := by
      rw [List.takeWhile_eq_self_iff]
      intro c hc
      have hne : c ≠ 0 := by
        rintro rfl
        exact hzero hc
      simpa using hne
    rw [hself, if_pos rfl, List.mem_append, hmap, hextension]
    simp [hzero]

/-- **One component.** The name of a record that is added is a component of a path, and not one
that leads back, just if its bytes make one. -/
theorem DirectoryEntry.Kept.plain_iff (h : entry.Kept) (hlength : entry.filename.length = 8) :
    Plain entry.getFileName ↔ entry.OneComponent := by
  obtain ⟨c, cs, hfilename⟩ := List.exists_cons_of_length_pos (show 0 < entry.filename.length by omega)
  have hvisible := h.1
  simp only [DirectoryEntry.isHidden, hfilename, List.getElem?_cons_zero, decide_eq_false_iff_not,
    not_or] at hvisible
  have hdot : c ≠ 46 := fun hc => hvisible.1 (congrArg some hc)
  have hslash : 47 ∉ entry.getFileName ↔ 47 ∉ shown entry.filename ∧
      (0 ∉ entry.filename.takeWhile (· ≠ 32) → 47 ∉ shown entry.extension) := by
    rw [slash_mem_getFileName, not_or, not_and]
  by_cases hblank : c = 32
  · -- the name is the extension, behind a dot
    have hname : entry.getFileName = 46 :: shown entry.extension := by
      have hne := h.2
      rw [DirectoryEntry.getFileName, hfilename, hblank] at hne ⊢
      by_cases hextension : entry.extension[0]? = some 32
      · simp [hextension] at hne
      · simp [hextension, List.takeWhile_takeWhile, shown, and_comm]
    constructor
    · rintro ⟨-, hno, hne_dot, hne_dots⟩
      obtain ⟨hstem, hextension⟩ := hslash.mp hno
      refine ⟨hstem, hextension, fun _ => ⟨?_, ?_⟩⟩
      · intro hnil
        rw [hname, hnil] at hne_dot
        exact hne_dot rfl
      · intro hone
        rw [hname, hone] at hne_dots
        exact hne_dots rfl
    · rintro ⟨hstem, hextension, hblanks⟩
      obtain ⟨hne, hone⟩ := hblanks (by rw [hfilename, hblank]; rfl)
      refine ⟨h.2, hslash.mpr ⟨hstem, hextension⟩, ?_, ?_⟩
      · rw [hname]
        simpa using hne
      · rw [hname]
        simpa using hone
  · -- the name does not start with a dot
    have hhead : entry.getFileName.head? ≠ some 46 := by
      rw [DirectoryEntry.getFileName, hfilename]
      by_cases hzero : c = 0
      · simp [hzero]
      · by_cases hdeleted : c = 0xE5
        · simp [hdeleted]
        · simp [hblank, hzero, hdeleted, hdot]
    constructor
    · rintro ⟨-, hno, -, -⟩
      obtain ⟨hstem, hextension⟩ := hslash.mp hno
      refine ⟨hstem, hextension, fun hspace => absurd ?_ hblank⟩
      simpa [hfilename] using hspace
    · rintro ⟨hstem, hextension, -⟩
      refine ⟨h.2, hslash.mpr ⟨hstem, hextension⟩, ?_, ?_⟩
      · intro heq
        exact hhead (by rw [heq]; rfl)
      · intro heq
        exact hhead (by rw [heq]; rfl)

end Names

section Trees

variable {disk : Disk} {bpb : BiosParameterBlock} {start pos fuel : Nat} {entry inner : DirectoryEntry}
  {route : List Nat} {names : List CString} {name : CString} {children : List Node} {walk : Walk}

/-- A read returns as many bytes as it is asked for. -/
theorem Disk.fread_length {size : Nat} {bytes : List UInt8} (h : disk.fread pos size = some bytes) :
    bytes.length = size := by
  rw [Disk.fread] at h
  split at h
  · obtain rfl := Option.some.inj h
    rw [List.length_take, List.length_drop]
    omega
  · cases h

/-- The name of a record has eight characters. -/
theorem filename_length (h : disk.readEntry pos = some entry) : entry.filename.length = 8 := by
  obtain ⟨bytes, hread, rfl⟩ := Option.map_eq_some_iff.mp h
  rw [List.length_take, Disk.fread_length hread]
  rfl

/-- A record that is added has a name, and was read. -/
theorem Added.kept (h : Added disk bpb start route names inner) :
    inner.Kept ∧ inner.filename.length = 8 := by
  induction h with
  | here _ hread hkept => exact ⟨hkept, filename_length hread⟩
  | inside _ _ _ _ _ ih => exact ih

/-- The names on the way to a record are those of records that are added. -/
theorem Added.exists_of_mem (h : Added disk bpb start route names inner) (hname : name ∈ names) :
    ∃ route' names' e, Added disk bpb start route' names' e ∧ e.getFileName = name := by
  induction h with
  | here hscans hread hkept =>
      obtain rfl := List.mem_singleton.mp hname
      exact ⟨_, _, _, .here hscans hread hkept, rfl⟩
  | inside hscans hread hkept hdirectory _ ih =>
      rcases List.mem_cons.mp hname with rfl | hname
      · exact ⟨_, _, _, .here hscans hread hkept, rfl⟩
      · obtain ⟨route', names', e, hadded, heq⟩ := ih hname
        exact ⟨_, _, e, .inside hscans hread hkept hdirectory hadded, heq⟩

/-- The name of a record is the last on the way to it. -/
theorem Added.getFileName_mem (h : Added disk bpb start route names inner) :
    inner.getFileName ∈ names := by
  induction h with
  | here _ _ _ => exact List.mem_singleton.mpr rfl
  | inside _ _ _ _ _ ih => exact List.mem_cons_of_mem _ ih

/-- **Below the root directory.** If `follow` returns, then the paths that `create_tree` uses
are all `ROOT` and one component for each level, exactly if the bytes of every record that is
added make one component. -/
theorem createDirectoryTree_inside_iff (h : follow disk bpb fuel pos [] = .done children walk) :
    (∀ call ∈ createDirectoryTree (root children), call.Inside) ↔
      ∀ route names e, Added disk bpb pos route names e → e.OneComponent := by
  obtain ⟨records, hroutes, hspots⟩ := follow_spots h
  rw [spotsOf, List.nil_append] at hspots
  rw [createDirectoryTree_root]
  constructor
  · intro hinside route names e hadded
    obtain ⟨contents, hmem, -⟩ := hroutes.complete route names e hadded
    have hspot : (names, contents) ∈ spotsOf children :=
      hspots.mem_iff.mpr (List.mem_map_of_mem hmem)
    have hcall := hinside _ (List.mem_cons_of_mem _ (List.mem_map_of_mem hspot))
    have hplain := (inside_iff (spotsOf_ne_nil hspot)).mp hcall _ hadded.getFileName_mem
    exact (hadded.kept.1.plain_iff hadded.kept.2).mp hplain
  · intro hone call hcall
    rcases List.mem_cons.mp hcall with rfl | hcall
    · exact ⟨[], rfl, rfl, fun _ hname => absurd hname List.not_mem_nil⟩
    · obtain ⟨spot, hspot, rfl⟩ := List.mem_map.mp hcall
      obtain ⟨r, hr, rfl⟩ := List.mem_map.mp (hspots.mem_iff.mp hspot)
      obtain ⟨e, hadded, -⟩ := hroutes.added r hr
      refine (inside_iff (spotsOf_ne_nil hspot)).mpr ?_
      intro name hname
      obtain ⟨route', names', e', hadded', rfl⟩ := hadded.exists_of_mem hname
      exact (hadded'.kept.1.plain_iff hadded'.kept.2).mpr (hone route' names' e' hadded')

end Trees

/-- The names on the disk have no slashes. -/
theorem nestedDisk_inside : ∃ fuel children walk,
    follow nestedDisk nestedBlock fuel 64 [] = .done children walk ∧
      ((∀ call ∈ createDirectoryTree (root children), call.Inside) ↔
        ∀ route names e, Added nestedDisk nestedBlock 64 route names e → e.OneComponent) := by
  obtain ⟨fuel, finish, hfollow⟩ := nestedDisk_follow
  obtain ⟨walk, hfollow, -⟩ := followFile_eq_done hfollow
  exact ⟨fuel, _, walk, hfollow, createDirectoryTree_inside_iff hfollow⟩

/-! ## Two files -/

/-- The boot sector and the FAT of `formatted`. -/
def boot : List UInt8 :=
  List.replicate 0x20B 0 ++ ([0x00, 0x02, 1, 0x01, 0x00, 1, 0x10, 0x00, 0x05, 0x00, 0xF8, 0x01, 0x00] ++
    List.replicate 1000 0)

/-- The zeros at the end of the root directory, and the first two clusters. -/
def clusters : List UInt8 := List.replicate 416 0 ++ ([7, 7, 7] ++ (List.replicate 509 0 ++ [8, 8, 8]))

/-- An image with two records in its root directory. -/
def pairDisk (a b : DirectoryEntry) (h : ∀ e ∈ [a, b, endEntry], e.Typed) : Disk where
  bytes := boot ++ ([a, b, endEntry].flatMap DirectoryEntry.encode ++ clusters)
  length_lt := by
    simp only [boot, clusters, List.length_append, List.length_replicate, flatMap_encode_length h,
      List.length_cons, List.length_nil]
    decide

/-- The record of a file of three bytes, in a cluster. -/
def fileEntry (filename extension : List UInt8) (cluster : Nat) : DirectoryEntry :=
  ⟨filename, extension, 0x20, cluster, 3⟩

/-- The boot sector of the disk, and the tables behind it. -/
theorem boot_length : boot.length = 1536 := by
  rw [boot, List.length_append, List.length_append, List.length_replicate, List.length_replicate]
  rfl

section Pair

variable {a b entry : DirectoryEntry} (h : ∀ e ∈ [a, b, endEntry], e.Typed)

/-- Its parameter block is read, -/
theorem pairDisk_readBlock : (pairDisk a b h).readBlock = some formattedBlock := by
  generalize hrest : [0x00, 0x02, 1, 0x01, 0x00, 1, 0x10, 0x00, 0x05, 0x00, 0xF8, 0x01, 0x00] ++
    List.replicate 1000 0 ++ ([a, b, endEntry].flatMap DirectoryEntry.encode ++ clusters) = rest
  have hbytes : (pairDisk a b h).bytes = List.replicate 0x20B 0 ++ rest := by
    rw [← hrest]
    exact List.append_assoc _ _ _
  have hlength : 0x20B + 51 ≤ (pairDisk a b h).bytes.length := by
    simp only [pairDisk, List.length_append, boot_length]
    omega
  have hdrop : (List.replicate 0x20B 0 ++ rest).drop 0x20B = rest :=
    List.drop_left' List.length_replicate
  rw [Disk.readBlock, Disk.fread, if_pos ⟨by decide, hlength⟩, hbytes, hdrop, ← hrest]
  rfl

/-- and so are the contents of the first file -/
theorem pairDisk_first : (pairDisk a b h).fread 2048 [7, 7, 7].length = some [7, 7, 7] := by
  have hbytes : (pairDisk a b h).bytes =
      (boot ++ ([a, b, endEntry].flatMap DirectoryEntry.encode ++ List.replicate 416 0)) ++
        ([7, 7, 7] ++ (List.replicate 509 0 ++ [8, 8, 8])) := by
    simp only [pairDisk, clusters, List.append_assoc]
  have hlength : (boot ++ ([a, b, endEntry].flatMap DirectoryEntry.encode ++
      List.replicate 416 (0 : UInt8))).length = 2048 := by
    simp only [List.length_append, boot_length, flatMap_encode_length h, List.length_replicate,
      List.length_cons, List.length_nil]
  have hread := fread_append _ _ hbytes hlength (List.cons_ne_nil _ _)
  exact hread

/-- and of the second one. -/
theorem pairDisk_second : (pairDisk a b h).fread 2560 [8, 8, 8].length = some [8, 8, 8] := by
  have hbytes : (pairDisk a b h).bytes =
      (boot ++ ([a, b, endEntry].flatMap DirectoryEntry.encode ++ (List.replicate 416 0 ++
        ([7, 7, 7] ++ List.replicate 509 0)))) ++ ([8, 8, 8] ++ []) := by
    simp only [pairDisk, clusters, List.append_assoc, List.append_nil]
  have hlength : (boot ++ ([a, b, endEntry].flatMap DirectoryEntry.encode ++ (List.replicate 416 0 ++
      ([7, 7, 7] ++ List.replicate 509 (0 : UInt8))))).length = 2560 := by
    simp only [List.length_append, boot_length, flatMap_encode_length h, List.length_replicate,
      List.length_cons, List.length_nil]
  have hread := fread_append _ _ hbytes hlength (List.cons_ne_nil _ _)
  exact hread

/-- The image lists its two files. -/
theorem pairDisk_lists (hkept : a.Kept ∧ b.Kept) (hfile : a.isDirectory = false ∧ b.isDirectory = false)
    (hsize : a.fileSize = 3 ∧ b.fileSize = 3) (hcluster : a.firstCluster = 2 ∧ b.firstCluster = 3) :
    Lists (pairDisk a b h) formattedBlock 1536
      [.file a.getFileName [7, 7, 7], .file b.getFileName [8, 8, 8]] := by
  have hread (i : Nat) (e : DirectoryEntry) (hi : [a, b, endEntry][i]? = some e) :
      (pairDisk a b h).readEntry (1536 + 32 * i) = some e :=
    readEntry_records boot rfl h hi (by rw [boot_length])
  have hfirst : contentsOf (pairDisk a b h) formattedBlock a = some [7, 7, 7] := by
    have hoffset : getOffsetFromCluster 2 formattedBlock = 2048 := by decide
    rw [contentsOf, if_neg (by omega), hcluster.1, hsize.1, hoffset]
    exact pairDisk_first h
  have hsecond : contentsOf (pairDisk a b h) formattedBlock b = some [8, 8, 8] := by
    have hoffset : getOffsetFromCluster 3 formattedBlock = 2560 := by decide
    rw [contentsOf, if_neg (by omega), hcluster.2, hsize.2, hoffset]
    exact pairDisk_second h
  exact .file (hread 0 a rfl) hkept.1 hfile.1 hfirst
    (.file (hread 1 b rfl) hkept.2 hfile.2 hsecond (.stop (hread 2 endEntry rfl) endEntry_stops))

/-- The two files are recovered. -/
theorem pairDisk_recover (hkept : a.Kept ∧ b.Kept) (hfile : a.isDirectory = false ∧ b.isDirectory = false)
    (hsize : a.fileSize = 3 ∧ b.fileSize = 3) (hcluster : a.firstCluster = 2 ∧ b.firstCluster = 3) :
    ∃ fuel walk, follow (pairDisk a b h) formattedBlock fuel 1536 [] =
      .done ([.file a.getFileName [7, 7, 7], .file b.getFileName [8, 8, 8]].foldl addChild []) walk := by
  have hread (i : Nat) (e : DirectoryEntry) (hi : [a, b, endEntry][i]? = some e) :
      (pairDisk a b h).readEntry (1536 + 32 * i) = some e :=
    readEntry_records boot rfl h hi (by rw [boot_length])
  obtain ⟨fuel, hfollow⟩ := (pairDisk_lists h hkept hfile hsize hcluster).follow
    fun p e hreaches hpe _ _ => by
      rcases hreaches.cases_head (hread 0 a rfl) with rfl | ⟨-, hreaches⟩ | ⟨-, hdirectory, -⟩
      · obtain rfl := Option.some.inj (hpe.symm.trans (hread 0 a rfl))
        omega
      · rcases hreaches.cases_head (hread 1 b rfl) with rfl | ⟨-, hreaches⟩ | ⟨-, hdirectory, -⟩
        · obtain rfl := Option.some.inj (hpe.symm.trans (hread 1 b rfl))
          omega
        · rcases hreaches.cases_head (hread 2 endEntry rfl) with rfl | ⟨hnot, -⟩ | ⟨hnot, -⟩
          · obtain rfl := Option.some.inj (hpe.symm.trans (hread 2 endEntry rfl))
            rename_i hkept' _
            exact absurd endEntry_stops hkept'.not_stops
          · exact absurd endEntry_stops hnot
          · exact absurd endEntry_stops hnot.not_stops
        · exact absurd (hfile.2.symm.trans hdirectory) Bool.noConfusion
      · exact absurd (hfile.1.symm.trans hdirectory) Bool.noConfusion
  obtain ⟨walk, hwalk⟩ := hfollow []
  exact ⟨fuel, walk, hwalk⟩

end Pair

/-- The records of a file `A`, and of a file without a name whose extension is a dot. -/
theorem parent_typed : ∀ e ∈ [fileEntry (65 :: List.replicate 7 32) [32, 32, 32] 2,
    fileEntry (List.replicate 8 32) [46, 32, 32] 3, endEntry], e.Typed := by
  simp only [List.forall_mem_cons, List.not_mem_nil, false_implies, implies_true, and_true]
  exact ⟨⟨rfl, rfl, by decide, by decide⟩, ⟨rfl, rfl, by decide, by decide⟩,
    ⟨rfl, rfl, by decide, by decide⟩⟩

/-- **A name that leads out.** A blank file name with a dot for its extension becomes `..`, and
`create_tree` opens the path `ROOT/..`. -/
theorem parent_outside : ∃ fuel children walk,
    recover (pairDisk _ _ parent_typed) fuel = .done children walk ∧
      ∃ call ∈ createDirectoryTree (root children), call.path = ROOT ++ [47, 46, 46] ∧
        ¬ call.Inside := by
  obtain ⟨fuel, walk, hfollow⟩ := pairDisk_recover parent_typed ⟨⟨rfl, by decide⟩, rfl, by decide⟩
    ⟨rfl, rfl⟩ ⟨rfl, rfl⟩ ⟨rfl, rfl⟩
  refine ⟨fuel, [.file [46, 46] [8, 8, 8], .file [65] [7, 7, 7]], walk, ?_,
    Spot.call 1 ROOT ([[46, 46]], some [8, 8, 8]), ?_, rfl, ?_⟩
  · rw [recover, pairDisk_readBlock]
    exact hfollow
  · exact List.mem_cons_of_mem _ List.mem_cons_self
  · intro hinside
    have hplain := (inside_iff (List.cons_ne_nil _ _)).mp hinside [46, 46] List.mem_cons_self
    exact hplain.ne_dots rfl

end Fat16
