import CS24.Lib.SortedList

/-!
# Directory trees

`directory_tree.c`, and `get_child` and `add_file` of `test_tree.c`.  A
`directory_node_t` is the list of its children; where the C code changes a node
through a pointer, the functions here return the list of children with the new
node in it.  Strings are C strings without the terminating zero.  A failed
assertion and `abort` are `none`.
-/

namespace Fat16

open SortedList

/-- `char *` -/
abbrev CString := List UInt8

/-- A `node_t`, by its type. -/
inductive Node
  | file (name : CString) (contents : List UInt8)
  | directory (name : CString) (children : List Node)

/-- `node->name` -/
def Node.name : Node → CString
  | file name _ => name
  | directory name _ => name

/-- `strcmp`, which compares bytes as unsigned. -/
def strcmp : CString → CString → Ordering
  | [], [] => .eq
  | [], _ :: _ => .lt
  | _ :: _, [] => .gt
  | a :: s, b :: t => (compare a.toNat b.toNat).then (strcmp s t)

/-- `add_child_directory_tree` -/
def addChild (dnode : List Node) (child : Node) : List Node :=
  bubble (fun cur previous => strcmp cur.name previous.name = .lt) (dnode ++ [child]) dnode.length

mutual

/-- `print_subtree` -/
def printSubtree (depth : Nat) : Node → List UInt8
  | .file name _ => List.replicate (4 * depth) 32 ++ name ++ [10]
  | .directory name children =>
    List.replicate (4 * depth) 32 ++ name ++ [10] ++ printChildren (depth + 1) children

/-- The loop of `print_subtree` over the children. -/
def printChildren (depth : Nat) : List Node → List UInt8
  | [] => []
  | child :: children => printSubtree depth child ++ printChildren depth children

end

/-- `print_directory_tree` -/
def printDirectoryTree (node : Node) : List UInt8 := printSubtree 0 node

/-- The root, whose name is `"ROOT"`. -/
def root (children : List Node) : Node := .directory [82, 79, 79, 84] children

/-- `get_child`, as the position of the child. -/
def getChild (directory : List Node) (name : CString) : Option Nat :=
  search (fun child => strcmp name child.name) directory 0 directory.length

/-- `strchr(s, '/')`: the rest of the string from the first slash on; `[]` is `NULL`. -/
def fromSlash (s : CString) : CString := s.dropWhile (· ≠ 47)

/-- The string up to the first slash, once that is overwritten with a zero. -/
def beforeSlash (s : CString) : CString := s.takeWhile (· ≠ 47)

theorem length_lt_of_fromSlash {s rest : CString} {slash : UInt8}
    (h : fromSlash s = slash :: rest) : rest.length < s.length := by
  have hle := (List.dropWhile_sublist (· ≠ 47) (l := s)).length_le
  unfold fromSlash at h
  rw [h, List.length_cons] at hle
  exact hle

/-- `add_file`.  A missing directory is added before the loop goes on inside it, and
its place among the children depends on its name alone. -/
def addFile (contents : CString) (directory : List Node) (path : CString) : Option (List Node) :=
  match _h : fromSlash path with
  | [] =>
    match getChild directory path with
    | some _ => none
    | none => some (addChild directory (.file path contents))
  | _ :: rest =>
    match getChild directory (beforeSlash path) with
    | none => do
      let children ← addFile contents [] rest
      some (addChild directory (.directory (beforeSlash path) children))
    | some i =>
      match directory[i]? with
      | some (.directory name children) => do
        let children ← addFile contents children rest
        some (directory.set i (.directory name children))
      | _ => none
termination_by path.length
decreasing_by all_goals exact length_lt_of_fromSlash _h

/-- `add_file` for one file after the other. -/
def addFiles : List (CString × CString) → List Node → Option (List Node)
  | [], directory => some directory
  | (path, contents) :: files, directory => do
    let directory ← addFile contents directory path
    addFiles files directory

/-! ## Names -/

/-- The order of names. -/
def rank (name : CString) : List ℕ := name.map UInt8.toNat

theorem rank_injective : Function.Injective rank :=
  List.map_injective_iff.mpr fun _ _ h => UInt8.toNat_inj.mp h

theorem strcmp_lt {s t : CString} : strcmp s t = .lt ↔ rank s < rank t := by
  induction s generalizing t with
  | nil =>
      cases t with
      | nil => simp [strcmp, rank]
      | cons b t => simp [strcmp, rank]
  | cons a s ih =>
      cases t with
      | nil => simp [strcmp, rank]
      | cons b t =>
          change _ ↔ a.toNat :: rank s < b.toNat :: rank t
          rw [List.cons_lt_cons_iff, strcmp, Ordering.then_eq_lt, ih, Nat.compare_eq_lt,
            Nat.compare_eq_eq]

theorem strcmp_eq {s t : CString} : strcmp s t = .eq ↔ s = t := by
  induction s generalizing t with
  | nil => cases t <;> simp [strcmp]
  | cons a s ih =>
      cases t with
      | nil => simp [strcmp]
      | cons b t =>
          rw [strcmp, Ordering.then_eq_eq, ih, Nat.compare_eq_eq, UInt8.toNat_inj, List.cons.injEq]

theorem strcmp_gt {s t : CString} (h : strcmp s t = .gt) : rank t < rank s := by
  have hne : s ≠ t := by
    rintro rfl
    rw [strcmp_eq.mpr rfl] at h
    cases h
  have hnlt : ¬ rank s < rank t := by
    rw [← strcmp_lt, h]
    exact Ordering.noConfusion
  exact lt_of_le_of_ne (not_lt.mp hnlt) fun heq => hne (rank_injective heq.symm)

end Fat16
