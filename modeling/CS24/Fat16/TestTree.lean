import CS24.Fat16.CreatedTree

/-!
# The test program for trees

`main` of `test_tree.c`: the lines of its input are paths with contents, which are added to an
empty tree one after the other; then the tree is printed and made in a new directory.
-/

namespace Fat16

open FileSystem

/-- A line of the input. -/
def lineOf (file : CString × CString) : List UInt8 := file.1 ++ 58 :: (file.2 ++ [10])

section Lines

variable {file : CString × CString} {list : List (CString × CString)} {line rest : List UInt8}
  {directory : List Node}

end Lines

/-! ## Files that do not fit -/

section Conflicts

variable {directory directory' children inner : List Node} {path contents name : CString}
  {names : List CString} {files : List (CString × CString)} {i : Nat}

end Conflicts

/-! ## The files in the file system -/

section Output

variable {cwd base : Place} {files files' : Files} {children inner : List Node} {child : Node}
  {name output : CString} {names : List CString} {contents : List UInt8}
  {list : List (CString × CString)}

mutual

/-- The files of a node are its spots with contents. -/
theorem holds_of_spot : ∀ (node : Node) (names : List CString) (contents : List UInt8),
    (names, some contents) ∈ node.spots → Holds [node] names contents
  | .file name contents, names, contents', h => by
      obtain ⟨rfl, hcontents⟩ := Prod.mk.inj (List.mem_singleton.mp h)
      obtain rfl := Option.some.inj hcontents
      exact .file (List.mem_singleton.mpr rfl)
  | .directory name inner, names, contents', h => by
      rcases List.mem_cons.mp h with heq | h
      · cases heq
      · obtain ⟨⟨rest, spot⟩, hmem, heq⟩ := List.mem_map.mp h
        obtain ⟨rfl, rfl⟩ := Prod.mk.inj heq
        exact .inside (List.mem_singleton.mpr rfl) (holds_of_spots inner rest contents' hmem)

theorem holds_of_spots : ∀ (nodes : List Node) (names : List CString) (contents : List UInt8),
    (names, some contents) ∈ spotsOf nodes → Holds nodes names contents
  | [], names, contents, h => absurd h List.not_mem_nil
  | node :: nodes, names, contents, h => by
      rw [spotsOf, List.mem_append] at h
      rw [holds_iff_exists]
      rcases h with h | h
      · exact ⟨node, List.mem_cons_self, holds_of_spot node names contents h⟩
      · obtain ⟨other, hmem, hholds⟩ := holds_iff_exists.mp (holds_of_spots nodes names contents h)
        exact ⟨other, List.mem_cons_of_mem _ hmem, hholds⟩

end

theorem Holds.spot (h : Holds children names contents) : (names, some contents) ∈ spotsOf children := by
  induction h with
  | file hmem =>
      rw [spotsOf_eq]
      exact List.mem_flatMap.mpr ⟨_, hmem, List.mem_singleton.mpr rfl⟩
  | inside hmem _ ih =>
      rw [spotsOf_eq]
      exact List.mem_flatMap.mpr ⟨_, hmem, List.mem_cons_of_mem _ (List.mem_map_of_mem ih)⟩

end Output

end Fat16
