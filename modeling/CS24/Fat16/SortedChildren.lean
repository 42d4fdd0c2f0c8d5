import CS24.Fat16.CanonicalTree

/-!
# The children of a directory

`add_child_directory_tree` takes names that are there already, although the header says
that they are not permitted.  The children are then what a stable sort of the nodes
makes of them, and `get_child` of `test_tree.c` finds one of the nodes with a name.
-/

namespace Fat16

open SortedList

variable {nodes children : List Node} {node child : Node} {name : CString}

theorem strcmp_ne_gt {s t : CString} : strcmp s t ≠ .gt ↔ rank s ≤ rank t := by
  constructor
  · intro h
    rcases hcmp : strcmp s t with _ | _ | _
    · exact (strcmp_lt.mp hcmp).le
    · rw [strcmp_eq.mp hcmp]
    · exact absurd hcmp h
  · intro h hgt
    exact absurd (strcmp_gt hgt) (not_lt.mpr h)

/-- The key of a child. -/
abbrev nameRank (child : Node) : List ℕ := rank child.name

/-- The order that `add_child_directory_tree` looks at. -/
theorem less_iff (x y : Node) : decide (strcmp x.name y.name = .lt) = true ↔ nameRank x < nameRank y := by
  rw [decide_eq_true_iff, strcmp_lt]

/-- Adding one node after the other is a stable sort by names. -/
theorem foldl_addChild : nodes.foldl addChild [] = sort nameRank nodes := foldl_bubble less_iff

/-- `get_child`; `none` is an access outside the array of children. -/
def getChildNode (directory : List Node) (name : CString) : Option (Option Node) :=
  probe (fun child => strcmp name child.name) directory 0 directory.length

/-- The search for a name in sorted children. -/
theorem getChildNode_spec (h : Sorted nameRank children) (name : CString) :
    ∃ found, getChildNode children name = some found ∧
      (∀ child, found = some child → child ∈ children ∧ child.name = name) ∧
      (found = none → ∀ child ∈ children, child.name ≠ name) := by
  refine ⟨_, probe_eq le_rfl, ?_, ?_⟩
  · intro child hfound
    obtain ⟨i, hi, hchild⟩ := Option.bind_eq_some_iff.mp hfound
    obtain ⟨child', hchild', hname⟩ := getChild_some hi
    obtain rfl := Option.some.inj (hchild.symm.trans hchild')
    exact ⟨List.mem_of_getElem? hchild, hname⟩
  · intro hfound
    cases hsearch : getChild children name with
    | none => exact getChild_none h hsearch
    | some i =>
        obtain ⟨child, hchild, -⟩ := getChild_some hsearch
        have hbind : (getChild children name).bind (children[·]?) = none := hfound
        rw [hsearch, Option.bind_some, hchild] at hbind
        cases hbind

/-- **Sorted insertion and lookup.** After any sequence of insertions into an empty directory
its children are the inserted nodes, they do not decrease, and nodes with one name are in the
order of their insertion.  So `get_child` ends, looks at no place outside the array, and
finds a child with a name just if one was inserted. -/
theorem addChild_sorts (nodes : List Node) :
    (nodes.foldl addChild []).Perm nodes ∧
      (nodes.foldl addChild []).Pairwise (fun x y => strcmp x.name y.name ≠ .gt) ∧
      (∀ name, (nodes.foldl addChild []).filter (fun child => child.name = name) =
        nodes.filter fun child => child.name = name) ∧
      ∀ name, ∃ found, getChildNode (nodes.foldl addChild []) name = some found ∧
        (∀ child, found = some child → child ∈ nodes ∧ child.name = name) ∧
        (found = none ↔ ∀ node ∈ nodes, node.name ≠ name) := by
  rw [foldl_addChild]
  have hsorted : Sorted nameRank (sort nameRank nodes) := sorted_sort
  have hperm : (sort nameRank nodes).Perm nodes := List.mergeSort_perm ..
  refine ⟨hperm, hsorted.imp strcmp_ne_gt.mpr, ?_, ?_⟩
  · intro name
    simpa only [nameRank, rank_injective.eq_iff] using
      @filter_sort _ _ _ nameRank nodes (rank name)
  · intro name
    obtain ⟨found, hget, hsome, hnone⟩ := getChildNode_spec hsorted name
    refine ⟨found, hget, ?_, ?_⟩
    · intro child hfound
      obtain ⟨hmem, hname⟩ := hsome child hfound
      exact ⟨hperm.mem_iff.mp hmem, hname⟩
    · constructor
      · intro hfound node hnode
        exact hnone hfound node (hperm.mem_iff.mpr hnode)
      · intro hall
        by_contra hfound
        obtain ⟨child, hchild⟩ := Option.ne_none_iff_exists'.mp hfound
        obtain ⟨hmem, hname⟩ := hsome child hchild
        exact hall child (hperm.mem_iff.mp hmem) hname

end Fat16
