import CS24.Basic.Compile
import CS24.Lib.X86Rules

/-!
# The labels of compiled code

The code of a node defines labels with the numbers that its compilation took from
the counters, each at most once.  As the counters only grow, the labels of a
program are distinct, and every jump finds its target.
-/

namespace Basic

open X86

/-- The label has a number that was taken between two values of the counters. -/
def Label.Taken (before after : Ids) : Label → Prop
  | .if id | .endIf id => before.ifId ≤ id ∧ id < after.ifId
  | .while id | .endWhile id => before.whileId ≤ id ∧ id < after.whileId

instance (before after : Ids) (l : Label) : Decidable (l.Taken before after) := by
  cases l <;> unfold Label.Taken <;> infer_instance

/-- The counters have grown, and every label of the code has a taken number and is
defined once. -/
structure Fresh (before after : Ids) (code : Code) : Prop where
  ifId_le : before.ifId ≤ after.ifId
  whileId_le : before.whileId ≤ after.whileId
  count_le : ∀ l, (labels code).count l ≤ if l.Taken before after then 1 else 0

variable {i j k : Ids} {code code' : Code}

/-- Code without labels uses no numbers. -/
theorem Fresh.of_labels_nil (h : labels code = []) : Fresh i i code :=
  ⟨le_refl _, le_refl _, by simp [h]⟩

/-- In a sequence the second part counts on where the first one stops. -/
theorem Fresh.append (h : Fresh i j code) (h' : Fresh j k code') : Fresh i k (code ++ code') := by
  refine ⟨h.ifId_le.trans h'.ifId_le, h.whileId_le.trans h'.whileId_le, fun l => ?_⟩
  have h1 := h.count_le l
  have h2 := h'.count_le l
  obtain ⟨hif, hwhile, -⟩ := h
  obtain ⟨hif', hwhile', -⟩ := h'
  rw [labels_append, List.count_append]
  cases l <;> simp only [Label.Taken] at * <;> grind

/-- The counters do not matter where no labels are defined. -/
theorem Fresh.append_nil (h : Fresh i j code) (h' : labels code' = []) :
    Fresh i j (code ++ code') := h.append (Fresh.of_labels_nil h')

/-- A multiplication has no labels. -/
theorem labels_multiplication (right : Node) : labels [multiplication right] = [] := by
  unfold multiplication
  split
  · dsimp only
    split_ifs <;> rfl
  · rfl

/-- The code of an operator has no labels. -/
theorem labels_operation (op : Char) (right : Node) : labels (operation op right) = [] := by
  unfold operation
  split_ifs
  · rfl
  · rfl
  · exact labels_multiplication right
  · rfl
  · rfl

/-- The jump of an `IF` is not a label. -/
theorem labels_ifJump (op : Char) (id : Nat) : labels (ifJump op id) = [] := by
  unfold ifJump
  split_ifs <;> rfl

/-- The jump of a `WHILE` is not a label. -/
theorem labels_whileJump (op : Char) (id : Nat) : labels (whileJump op id) = [] := by
  unfold whileJump
  split_ifs <;> rfl

/-- The code of an `IF` from its parts. -/
theorem Fresh.if {conditionCode elseCode ifCode jump : Code} {l : Ids}
    (hcondition : Fresh i j conditionCode) (hjump : labels jump = [])
    (helse : Fresh { j with ifId := j.ifId + 1 } k elseCode) (hif : Fresh k l ifCode) :
    Fresh i l (conditionCode ++ jump ++ elseCode ++
      [.jmp (.endIf j.ifId), .label (.if j.ifId)] ++ ifCode ++
      [.jmp (.endIf j.ifId), .label (.endIf j.ifId)]) := by
  obtain ⟨h1, h1', hc1⟩ := hcondition
  obtain ⟨h2, h2', hc2⟩ := helse
  obtain ⟨h3, h3', hc3⟩ := hif
  refine ⟨by simp only at h2; omega, by simp only at h2'; omega, fun lbl => ?_⟩
  have hcount1 := hc1 lbl
  have hcount2 := hc2 lbl
  have hcount3 := hc3 lbl
  simp only [labels_append, List.count_append, hjump, List.count_nil]
  cases lbl <;> simp only [labels, List.filterMap_cons, List.filterMap_nil, List.count_cons,
    List.count_nil, beq_iff_eq, reduceCtorEq, Label.if.injEq, Label.endIf.injEq, if_false,
    Label.Taken] at * <;> grind

/-- The code of a `WHILE` from its parts. -/
theorem Fresh.while {conditionCode bodyCode jump : Code}
    (hcondition : Fresh { i with whileId := i.whileId + 1 } j conditionCode)
    (hjump : labels jump = []) (hbody : Fresh j k bodyCode) :
    Fresh i k ([.label (.while i.whileId)] ++ conditionCode ++ jump ++ bodyCode ++
      [.jmp (.while i.whileId), .label (.endWhile i.whileId)]) := by
  obtain ⟨h1, h1', hc1⟩ := hcondition
  obtain ⟨h2, h2', hc2⟩ := hbody
  refine ⟨by simp only at h1; omega, by simp only at h1'; omega, fun lbl => ?_⟩
  have hcount1 := hc1 lbl
  have hcount2 := hc2 lbl
  simp only [labels_append, List.count_append, hjump, List.count_nil]
  cases lbl <;> simp only [labels, List.filterMap_cons, List.filterMap_nil, List.count_cons,
    List.count_nil, beq_iff_eq, reduceCtorEq, Label.while.injEq, Label.endWhile.injEq, if_false,
    Label.Taken] at * <;> grind

mutual

/-- **Labels.** The code of a node defines labels with numbers taken in its
compilation, each once. -/
theorem compileAst_fresh {node : Node} {ids ids' : Ids} {code : Code}
    (h : compileAst node ids = some (code, ids')) : Fresh ids ids' code := by
  rcases compileAst_eq h with ⟨v, -, rfl, rfl⟩ | ⟨v, hfold⟩
  · exact Fresh.of_labels_nil rfl
  · match node, hfold, h with
    | .print expr, _, h =>
        obtain ⟨c, hc, rfl⟩ := compileAst_print h
        exact (compileAst_fresh hc).append_nil rfl
    | .binaryOp op left right, hfold, h =>
        obtain ⟨rightCode, j, leftCode, hright, hleft, rfl⟩ := compileAst_binaryOp hfold h
        have h1 : Fresh ids j (rightCode ++ [.push .rdi]) := (compileAst_fresh hright).append_nil rfl
        have h2 : Fresh j ids' (leftCode ++ [.pop .r10]) := (compileAst_fresh hleft).append_nil rfl
        have h3 := (h1.append h2).append_nil (labels_operation op right)
        simpa only [List.append_assoc] using h3
    | .var name, _, h =>
        cases h
        exact Fresh.of_labels_nil rfl
    | .let var value, _, h =>
        obtain ⟨c, hc, rfl⟩ := compileAst_let h
        exact (compileAst_fresh hc).append_nil rfl
    | .sequence statements, _, h => exact compileAll_fresh h
    | .if condition ifBranch elseBranch, _, h =>
        obtain ⟨conditionCode, j, op, elseCode, k, ifCode, hcondition, -, -, helse, hif,
        rfl⟩ := compileAst_if h
        exact (compileAst_fresh hcondition).if (labels_ifJump op _) (compileElse_fresh helse)
          (compileAst_fresh hif)
    | .while condition body, _, h =>
        obtain ⟨conditionCode, j, op, bodyCode, -, hcondition, -, hbody, rfl⟩ :=
        compileAst_while h
        exact (compileAst_fresh hcondition).while (labels_whileJump op _) (compileAst_fresh hbody)

/-- By induction on the statements. -/
theorem compileAll_fresh {nodes : List Node} {ids ids' : Ids} {code : Code}
    (h : compileAll nodes ids = some (code, ids')) : Fresh ids ids' code := by
  match nodes, h with
  | [], h =>
      cases h
      exact Fresh.of_labels_nil rfl
  | node :: nodes, h =>
      obtain ⟨c, j, rest, hc, hrest, rfl⟩ := compileAll_cons h
      exact (compileAst_fresh hc).append (compileAll_fresh hrest)

/-- The labels of an `ELSE` branch, if there is one. -/
theorem compileElse_fresh {node : Option Node} {ids ids' : Ids} {code : Code}
    (h : compileElse node ids = some (code, ids')) : Fresh ids ids' code := by
  match node, h with
  | none, h =>
      cases h
      exact Fresh.of_labels_nil rfl
  | some node, h =>
      have hnode : compileAst node ids = some (code, ids') := h
      exact compileAst_fresh hnode

end

/-- The labels of a program are distinct. -/
theorem compile_labels_nodup {ast : Node} {code : Code} (h : compile ast = some code) :
    (labels code).Nodup := by
  obtain ⟨c, ids, hc, rfl⟩ := compile_eq h
  have hfresh := compileAst_fresh hc
  rw [List.nodup_iff_count_le_one]
  intro l
  have hcount := hfresh.count_le l
  simp only [labels_append, List.count_append]
  have hheader : labels header = [] := rfl
  have hfooter : labels footer = [] := rfl
  rw [hheader, hfooter, List.count_nil]
  split_ifs at hcount <;> omega

end Basic
