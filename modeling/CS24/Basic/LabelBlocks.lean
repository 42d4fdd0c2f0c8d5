import CS24.Basic.CompileLabels

/-!
# Labels that enclose the code of their node

`CompileLabels` shows that no label is defined twice.  Here: the numbers that a
compilation takes from the counters are all used, one for each `IF` and `WHILE` of
the tree; code names no label but those of its own nodes; and so the labels and jumps
of a node stand around the code of its condition and branches, which is code of the
same kind and knows nothing of them.
-/

namespace Basic

open X86

mutual

/-- The `IF` and `WHILE` nodes of a tree, with what each of them counts for. -/
def Node.weight (ifWeight whileWeight : Nat) : Node → Nat
  | .num _ => 0
  | .var _ => 0
  | .print expr => expr.weight ifWeight whileWeight
  | .let _ value => value.weight ifWeight whileWeight
  | .binaryOp _ left right => right.weight ifWeight whileWeight + left.weight ifWeight whileWeight
  | .sequence statements => Node.weightAll ifWeight whileWeight statements
  | .if condition ifBranch elseBranch =>
    condition.weight ifWeight whileWeight + ifWeight +
      Node.weight? ifWeight whileWeight elseBranch + ifBranch.weight ifWeight whileWeight
  | .while condition body =>
    whileWeight + condition.weight ifWeight whileWeight + body.weight ifWeight whileWeight

def Node.weight? (ifWeight whileWeight : Nat) : Option Node → Nat
  | none => 0
  | some node => node.weight ifWeight whileWeight

def Node.weightAll (ifWeight whileWeight : Nat) : List Node → Nat
  | [] => 0
  | node :: nodes => node.weight ifWeight whileWeight + Node.weightAll ifWeight whileWeight nodes

end

/-- The number of `IF` nodes. -/
def Node.ifs (node : Node) : Nat := node.weight 1 0

/-- The number of `WHILE` nodes. -/
def Node.whiles (node : Node) : Nat := node.weight 0 1

/-- A constant has no `IF` or `WHILE` in it. -/
theorem weight_of_fold : ∀ {node : Node} {v : Word} (i w : Nat),
    fold node = some ⟨true, v⟩ → node.weight i w = 0
  | .num _, _, _, _, _ => rfl
  | .binaryOp op left right, v, i, w, h => by
      simp only [fold] at h
      obtain ⟨⟨cl, vl⟩, hl, h⟩ := bind_eq_some h
      obtain ⟨⟨cr, vr⟩, hr, h⟩ := bind_eq_some h
      by_cases hconstant : cl = true ∧ cr = true
      · obtain ⟨rfl, rfl⟩ := hconstant
        simp only [Node.weight, weight_of_fold i w hl, weight_of_fold i w hr]
      · rw [if_neg hconstant] at h
        cases h

/-- The code has all labels with a number taken in its compilation, and names no others. -/
structure Complete (before after : Ids) (code : Code) : Prop extends Fresh before after code where
  mem_labels : ∀ l : Label, l.Taken before after → l ∈ labels code
  taken : ∀ l : Label, Names code l → l.Taken before after

variable {i j k : Ids} {code code' : Code}

/-- Between equal counters no label is taken. -/
theorem Label.not_taken_self (l : Label) : ¬l.Taken i i := by
  cases l <;> simp only [Label.Taken] <;> omega

/-- Code between two values of the counters takes its numbers from one of the halves. -/
theorem Label.taken_trans {l : Label} (hij : Fresh i j code) (hjk : Fresh j k code') :
    l.Taken i k ↔ l.Taken i j ∨ l.Taken j k := by
  obtain ⟨hif, hwhile, -⟩ := hij
  obtain ⟨hif', hwhile', -⟩ := hjk
  cases l <;> simp only [Label.Taken] <;> omega

/-- Code without labels and jumps takes no numbers. -/
theorem Complete.of_names_nil (hlabels : labels code = []) (htargets : targets code = []) :
    Complete i i code where
  toFresh := Fresh.of_labels_nil hlabels
  mem_labels l hl := absurd hl l.not_taken_self
  taken l hl := by simp [Names, hlabels, htargets] at hl

/-- In a sequence the second part takes the numbers behind those of the first one. -/
theorem Complete.append (h : Complete i j code) (h' : Complete j k code') :
    Complete i k (code ++ code') where
  toFresh := h.toFresh.append h'.toFresh
  mem_labels l hl := by
    rw [labels_append, List.mem_append]
    rcases (Label.taken_trans h.toFresh h'.toFresh).mp hl with hl | hl
    · exact .inl (h.mem_labels l hl)
    · exact .inr (h'.mem_labels l hl)
  taken l hl := by
    rw [Label.taken_trans h.toFresh h'.toFresh]
    exact (names_append.mp hl).imp (h.taken l) (h'.taken l)

/-- Instructions without labels and jumps may follow. -/
theorem Complete.append_nil (h : Complete i j code) (hlabels : labels code' = [])
    (htargets : targets code' = []) : Complete i j (code ++ code') :=
  h.append (Complete.of_names_nil hlabels htargets)

/-- Pieces compiled one after the other share no label. -/
theorem Complete.apart {j' : Ids} (h : Complete i j code) (h' : Complete j' k code')
    (hif : j.ifId ≤ j'.ifId) (hwhile : j.whileId ≤ j'.whileId) : Apart code code' := by
  intro l hl hl'
  have hearly := h.taken l hl
  have hlate := h'.taken l hl'
  cases l <;> simp only [Label.Taken] at hearly hlate <;> omega

/-- The code of an operator does not jump. -/
theorem targets_operation (op : Char) (right : Node) : targets (operation op right) = [] := by
  unfold operation multiplication
  grind [targets]

/-- The jump of an `IF` goes to its own label. -/
theorem names_ifJump {op : Char} {id : Nat} {l : Label} (h : Names (ifJump op id) l) :
    l = .if id := by
  unfold ifJump at h
  grind [Names, labels, targets]

/-- The jump of a `WHILE` goes to its end. -/
theorem names_whileJump {op : Char} {id : Nat} {l : Label} (h : Names (whileJump op id) l) :
    l = .endWhile id := by
  unfold whileJump at h
  grind [Names, labels, targets]

/-- The code of an `IF` from its parts. -/
theorem Complete.if {conditionCode elseCode ifCode : Code} {op : Char} {l : Ids}
    (hcondition : Complete i j conditionCode)
    (helse : Complete { j with ifId := j.ifId + 1 } k elseCode) (hif : Complete k l ifCode) :
    Complete i l (conditionCode ++ ifJump op j.ifId ++ elseCode ++
      [.jmp (.endIf j.ifId), .label (.if j.ifId)] ++ ifCode ++
      [.jmp (.endIf j.ifId), .label (.endIf j.ifId)]) where
  toFresh := hcondition.toFresh.if (labels_ifJump op _) helse.toFresh hif.toFresh
  mem_labels lbl hl := by
    have hcond := hcondition.mem_labels lbl
    have helse' := helse.mem_labels lbl
    have hif' := hif.mem_labels lbl
    simp only [labels_append, List.mem_append]
    cases lbl <;> simp only [Label.Taken, labels, List.filterMap_cons, List.filterMap_nil,
      List.mem_singleton, Label.if.injEq, Label.endIf.injEq] at * <;> grind
  taken lbl hl := by
    have hcond := hcondition.taken lbl
    have helse' := helse.taken lbl
    have hif' := hif.taken lbl
    have hjump : Names (ifJump op j.ifId) lbl → lbl = .if j.ifId := names_ifJump
    obtain ⟨h1, h1', -⟩ := hcondition.toFresh
    obtain ⟨h2, h2', -⟩ := helse.toFresh
    obtain ⟨h3, h3', -⟩ := hif.toFresh
    simp only [names_append] at hl
    cases lbl <;> simp only [Label.Taken, Names, labels, targets, List.filterMap_cons,
      List.filterMap_nil, List.mem_singleton] at * <;> grind

/-- The code of a `WHILE` from its parts. -/
theorem Complete.while {conditionCode bodyCode : Code} {op : Char}
    (hcondition : Complete { i with whileId := i.whileId + 1 } j conditionCode)
    (hbody : Complete j k bodyCode) :
    Complete i k ([.label (.while i.whileId)] ++ conditionCode ++ whileJump op i.whileId ++
      bodyCode ++ [.jmp (.while i.whileId), .label (.endWhile i.whileId)]) where
  toFresh := hcondition.toFresh.while (labels_whileJump op _) hbody.toFresh
  mem_labels lbl hl := by
    have hcond := hcondition.mem_labels lbl
    have hbody' := hbody.mem_labels lbl
    simp only [labels_append, List.mem_append]
    cases lbl <;> simp only [Label.Taken, labels, List.filterMap_cons, List.filterMap_nil,
      List.mem_singleton, Label.while.injEq, Label.endWhile.injEq] at * <;> grind
  taken lbl hl := by
    have hcond := hcondition.taken lbl
    have hbody' := hbody.taken lbl
    have hjump : Names (whileJump op i.whileId) lbl → lbl = .endWhile i.whileId := names_whileJump
    obtain ⟨h1, h1', -⟩ := hcondition.toFresh
    obtain ⟨h2, h2', -⟩ := hbody.toFresh
    simp only [names_append] at hl
    cases lbl <;> simp only [Label.Taken, Names, labels, targets, List.filterMap_cons,
      List.filterMap_nil, List.mem_singleton] at * <;> grind

mutual

/-- **Completeness.** The code of a node defines every label with a number that was taken
in its compilation, and jumps to no others. -/
theorem compileAst_complete {node : Node} {ids ids' : Ids} {code : Code}
    (h : compileAst node ids = some (code, ids')) : Complete ids ids' code := by
  rcases compileAst_eq h with ⟨v, -, rfl, rfl⟩ | ⟨v, hfold⟩
  · exact Complete.of_names_nil rfl rfl
  · match node, hfold, h with
    | .print expr, _, h =>
        obtain ⟨c, hc, rfl⟩ := compileAst_print h
        exact (compileAst_complete hc).append_nil rfl rfl
    | .binaryOp op left right, hfold, h =>
        obtain ⟨rightCode, j, leftCode, hright, hleft, rfl⟩ := compileAst_binaryOp hfold h
        have h1 : Complete ids j (rightCode ++ [.push .rdi]) :=
          (compileAst_complete hright).append_nil rfl rfl
        have h2 : Complete j ids' (leftCode ++ [.pop .r10]) :=
          (compileAst_complete hleft).append_nil rfl rfl
        have h3 := (h1.append h2).append_nil (labels_operation op right)
          (targets_operation op right)
        simpa only [List.append_assoc] using h3
    | .var name, _, h =>
        cases h
        exact Complete.of_names_nil rfl rfl
    | .let var value, _, h =>
        obtain ⟨c, hc, rfl⟩ := compileAst_let h
        exact (compileAst_complete hc).append_nil rfl rfl
    | .sequence statements, _, h => exact compileAll_complete h
    | .if condition ifBranch elseBranch, _, h =>
        obtain ⟨conditionCode, j, op, elseCode, k, ifCode, hcondition, -, -, helse, hif,
        rfl⟩ := compileAst_if h
        exact (compileAst_complete hcondition).if (compileElse_complete helse)
          (compileAst_complete hif)
    | .while condition body, _, h =>
        obtain ⟨conditionCode, j, op, bodyCode, -, hcondition, -, hbody, rfl⟩ :=
        compileAst_while h
        exact (compileAst_complete hcondition).while (compileAst_complete hbody)

/-- By induction on the statements. -/
theorem compileAll_complete {nodes : List Node} {ids ids' : Ids} {code : Code}
    (h : compileAll nodes ids = some (code, ids')) : Complete ids ids' code := by
  match nodes, h with
  | [], h =>
      cases h
      exact Complete.of_names_nil rfl rfl
  | node :: nodes, h =>
      obtain ⟨c, j, rest, hc, hrest, rfl⟩ := compileAll_cons h
      exact (compileAst_complete hc).append (compileAll_complete hrest)

/-- The same for an `ELSE` branch, if there is one. -/
theorem compileElse_complete {node : Option Node} {ids ids' : Ids} {code : Code}
    (h : compileElse node ids = some (code, ids')) : Complete ids ids' code := by
  match node, h with
  | none, h =>
      cases h
      exact Complete.of_names_nil rfl rfl
  | some node, h =>
      have hnode : compileAst node ids = some (code, ids') := h
      exact compileAst_complete hnode

end

mutual

/-- Each `IF` and each `WHILE` takes one number. -/
theorem compileAst_ids {node : Node} {ids ids' : Ids} {code : Code}
    (h : compileAst node ids = some (code, ids')) :
    ids' = ⟨ids.ifId + node.weight 1 0, ids.whileId + node.weight 0 1⟩ := by
  rcases compileAst_eq h with ⟨v, hfold, -, rfl⟩ | ⟨v, hfold⟩
  · rw [weight_of_fold 1 0 hfold, weight_of_fold 0 1 hfold]
    rfl
  · match node, hfold, h with
    | .print expr, _, h =>
        obtain ⟨c, hc, -⟩ := compileAst_print h
        simpa only [Node.weight] using compileAst_ids hc
    | .binaryOp op left right, hfold, h =>
        obtain ⟨rightCode, j, leftCode, hright, hleft, -⟩ := compileAst_binaryOp hfold h
        rw [compileAst_ids hleft, compileAst_ids hright]
        simp only [Node.weight, Nat.add_assoc]
    | .var name, _, h =>
        cases h
        rfl
    | .let var value, _, h =>
        obtain ⟨c, hc, -⟩ := compileAst_let h
        simpa only [Node.weight] using compileAst_ids hc
    | .sequence statements, _, h => exact compileAll_ids h
    | .if condition ifBranch elseBranch, _, h =>
        obtain ⟨conditionCode, j, op, elseCode, k, ifCode, hcondition, -, -, helse, hif, -⟩ :=
        compileAst_if h
        rw [compileAst_ids hif, compileElse_ids helse, compileAst_ids hcondition]
        simp only [Node.weight, Nat.add_assoc, Nat.add_zero]
    | .while condition body, _, h =>
        obtain ⟨conditionCode, j, op, bodyCode, -, hcondition, -, hbody, -⟩ := compileAst_while h
        rw [compileAst_ids hbody, compileAst_ids hcondition]
        simp only [Node.weight, Nat.add_assoc, Nat.zero_add]

/-- By induction on the statements. -/
theorem compileAll_ids {nodes : List Node} {ids ids' : Ids} {code : Code}
    (h : compileAll nodes ids = some (code, ids')) :
    ids' = ⟨ids.ifId + Node.weightAll 1 0 nodes, ids.whileId + Node.weightAll 0 1 nodes⟩ := by
  match nodes, h with
  | [], h =>
      cases h
      rfl
  | node :: nodes, h =>
      obtain ⟨c, j, rest, hc, hrest, -⟩ := compileAll_cons h
      rw [compileAll_ids hrest, compileAst_ids hc]
      simp only [Node.weightAll, Nat.add_assoc]

/-- The same for an `ELSE` branch, if there is one. -/
theorem compileElse_ids {node : Option Node} {ids ids' : Ids} {code : Code}
    (h : compileElse node ids = some (code, ids')) :
    ids' = ⟨ids.ifId + Node.weight? 1 0 node, ids.whileId + Node.weight? 0 1 node⟩ := by
  match node, h with
  | none, h =>
      cases h
      rfl
  | some node, h =>
      have hnode : compileAst node ids = some (code, ids') := h
      exact compileAst_ids hnode

end

/-! ## Blocks -/

mutual

/-- The code of a node, whatever its numbers: that of an `IF` or a `WHILE` has its two
labels around the code of the condition and of the branches, which do not name them and
have no label in common. -/
inductive Block : Node → Code → Prop
  | constant {node : Node} {v : Word} (hfold : fold node = some ⟨true, v⟩) :
      Block node [.movImm v .rdi]
  | var (name : Char) : Block (.var name) [.load (offset name) .rbp .rdi]
  | print {expr : Node} {c : Code} (hexpr : Block expr c) : Block (.print expr) (c ++ [.call])
  | let (x : Char) {value : Node} {c : Code} (hvalue : Block value c) :
      Block (.let x value) (c ++ [.store .rdi (offset x) .rbp])
  | binaryOp (op : Char) {left right : Node} {leftCode rightCode : Code}
      (hright : Block right rightCode) (hleft : Block left leftCode)
      (hapart : Apart rightCode leftCode) :
      Block (.binaryOp op left right)
        (rightCode ++ [.push .rdi] ++ leftCode ++ [.pop .r10] ++ operation op right)
  | sequence {statements : List Node} {c : Code} (hstatements : Blocks statements c) :
      Block (.sequence statements) c
  | if {condition ifBranch : Node} {elseBranch : Option Node} {op : Char}
      {conditionCode elseCode ifCode : Code} (id : Nat) (hop : condition.op? = some op)
      (hcondition : Block condition conditionCode) (helse : BlockElse elseBranch elseCode)
      (hif : Block ifBranch ifCode) (hconditionElse : Apart conditionCode elseCode)
      (hbranches : Apart (conditionCode ++ elseCode) ifCode)
      (hlabel : ¬Names (conditionCode ++ elseCode ++ ifCode) (.if id))
      (hend : ¬Names (conditionCode ++ elseCode ++ ifCode) (.endIf id)) :
      Block (.if condition ifBranch elseBranch)
        (conditionCode ++ ifJump op id ++ elseCode ++ [.jmp (.endIf id), .label (.if id)] ++
          ifCode ++ [.jmp (.endIf id), .label (.endIf id)])
  | while {condition body : Node} {op : Char} {conditionCode bodyCode : Code} (id : Nat)
      (hop : condition.op? = some op) (hcondition : Block condition conditionCode)
      (hbody : Block body bodyCode) (hapart : Apart conditionCode bodyCode)
      (hlabel : ¬Names (conditionCode ++ bodyCode) (.while id))
      (hend : ¬Names (conditionCode ++ bodyCode) (.endWhile id)) :
      Block (.while condition body)
        ([.label (.while id)] ++ conditionCode ++ whileJump op id ++ bodyCode ++
          [.jmp (.while id), .label (.endWhile id)])

/-- The codes of statements in a row, with no label in common. -/
inductive Blocks : List Node → Code → Prop
  | nil : Blocks [] []
  | cons {node : Node} {nodes : List Node} {c rest : Code} (hnode : Block node c)
      (hnodes : Blocks nodes rest) (hapart : Apart c rest) : Blocks (node :: nodes) (c ++ rest)

/-- The code of an `ELSE` branch, if there is one. -/
inductive BlockElse : Option Node → Code → Prop
  | none : BlockElse none []
  | some {node : Node} {c : Code} (hnode : Block node c) : BlockElse (some node) c

end

/-- The code of an `IF` is a block around its parts. -/
theorem Block.of_if {condition ifBranch : Node} {elseBranch : Option Node} {op : Char}
    {conditionCode elseCode ifCode : Code} {l : Ids} (hop : condition.op? = some op)
    (hcondition : Complete i j conditionCode)
    (helse : Complete { j with ifId := j.ifId + 1 } k elseCode) (hif : Complete k l ifCode)
    (hconditionBlock : Block condition conditionCode) (helseBlock : BlockElse elseBranch elseCode)
    (hifBlock : Block ifBranch ifCode) :
    Block (.if condition ifBranch elseBranch)
      (conditionCode ++ ifJump op j.ifId ++ elseCode ++ [.jmp (.endIf j.ifId), .label (.if j.ifId)] ++
        ifCode ++ [.jmp (.endIf j.ifId), .label (.endIf j.ifId)]) := by
  have hgrow : j.ifId + 1 ≤ k.ifId := helse.ifId_le
  have hgrow' : j.whileId ≤ k.whileId := helse.whileId_le
  have hparts : ∀ lbl, Names (conditionCode ++ elseCode ++ ifCode) lbl →
      lbl ≠ .if j.ifId ∧ lbl ≠ .endIf j.ifId := by
    intro lbl hl
    have hcond := hcondition.taken lbl
    have helse' := helse.taken lbl
    have hif' := hif.taken lbl
    rw [names_append, names_append] at hl
    cases lbl <;> simp only [Label.Taken] at * <;> grind
  have hbranches : Apart (conditionCode ++ elseCode) ifCode := by
    intro lbl hl
    rcases names_append.mp hl with hl | hl
    · exact hcondition.apart hif (by omega) hgrow' lbl hl
    · exact helse.apart hif le_rfl le_rfl lbl hl
  exact .if j.ifId hop hconditionBlock helseBlock hifBlock
    (hcondition.apart helse (Nat.le_succ _) le_rfl) hbranches
    (fun hl => (hparts _ hl).1 rfl) (fun hl => (hparts _ hl).2 rfl)

/-- The code of a `WHILE` is a block around its parts. -/
theorem Block.of_while {condition body : Node} {op : Char} {conditionCode bodyCode : Code}
    (hop : condition.op? = some op)
    (hcondition : Complete { i with whileId := i.whileId + 1 } j conditionCode)
    (hbody : Complete j k bodyCode) (hconditionBlock : Block condition conditionCode)
    (hbodyBlock : Block body bodyCode) :
    Block (.while condition body)
      ([.label (.while i.whileId)] ++ conditionCode ++ whileJump op i.whileId ++ bodyCode ++
        [.jmp (.while i.whileId), .label (.endWhile i.whileId)]) := by
  have hgrow : i.whileId + 1 ≤ j.whileId := hcondition.whileId_le
  have hparts : ∀ lbl, Names (conditionCode ++ bodyCode) lbl →
      lbl ≠ .while i.whileId ∧ lbl ≠ .endWhile i.whileId := by
    intro lbl hl
    have hcond := hcondition.taken lbl
    have hbody' := hbody.taken lbl
    rw [names_append] at hl
    cases lbl <;> simp only [Label.Taken] at * <;> grind
  exact .while i.whileId hop hconditionBlock hbodyBlock (hcondition.apart hbody le_rfl le_rfl)
    (fun hl => (hparts _ hl).1 rfl) (fun hl => (hparts _ hl).2 rfl)

mutual

/-- **Nesting.** What is compiled for a node is a block. -/
theorem compileAst_block {node : Node} {ids ids' : Ids} {code : Code}
    (h : compileAst node ids = some (code, ids')) : Block node code := by
  rcases compileAst_eq h with ⟨v, hfold, rfl, -⟩ | ⟨v, hfold⟩
  · exact .constant hfold
  · match node, hfold, h with
    | .print expr, _, h =>
        obtain ⟨c, hc, rfl⟩ := compileAst_print h
        exact .print (compileAst_block hc)
    | .binaryOp op left right, hfold, h =>
        obtain ⟨rightCode, j, leftCode, hright, hleft, rfl⟩ := compileAst_binaryOp hfold h
        exact .binaryOp op (compileAst_block hright) (compileAst_block hleft)
          ((compileAst_complete hright).apart (compileAst_complete hleft) le_rfl le_rfl)
    | .var name, _, h =>
        cases h
        exact .var name
    | .let var value, _, h =>
        obtain ⟨c, hc, rfl⟩ := compileAst_let h
        exact .let var (compileAst_block hc)
    | .sequence statements, _, h => exact .sequence (compileAll_blocks h)
    | .if condition ifBranch elseBranch, _, h =>
        obtain ⟨conditionCode, j, op, elseCode, k, ifCode, hcondition, hop, -, helse, hif,
        rfl⟩ := compileAst_if h
        exact .of_if hop (compileAst_complete hcondition) (compileElse_complete helse)
          (compileAst_complete hif) (compileAst_block hcondition) (compileElse_block helse)
          (compileAst_block hif)
    | .while condition body, _, h =>
        obtain ⟨conditionCode, j, op, bodyCode, -, hcondition, hop, hbody, rfl⟩ :=
        compileAst_while h
        exact .of_while hop (compileAst_complete hcondition) (compileAst_complete hbody)
          (compileAst_block hcondition) (compileAst_block hbody)

/-- By induction on the statements. -/
theorem compileAll_blocks {nodes : List Node} {ids ids' : Ids} {code : Code}
    (h : compileAll nodes ids = some (code, ids')) : Blocks nodes code := by
  match nodes, h with
  | [], h =>
      cases h
      exact .nil
  | node :: nodes, h =>
      obtain ⟨c, j, rest, hc, hrest, rfl⟩ := compileAll_cons h
      exact .cons (compileAst_block hc) (compileAll_blocks hrest)
        ((compileAst_complete hc).apart (compileAll_complete hrest) le_rfl le_rfl)

/-- The same for an `ELSE` branch, if there is one. -/
theorem compileElse_block {node : Option Node} {ids ids' : Ids} {code : Code}
    (h : compileElse node ids = some (code, ids')) : BlockElse node code := by
  match node, h with
  | none, h =>
      cases h
      exact .none
  | some node, h =>
      have hnode : compileAst node ids = some (code, ids') := h
      exact .some (compileAst_block hnode)

end

/-- **Labels of a program.** Every label of an `IF` and of a `WHILE` is defined once, every
jump has its label, and the code between the header and the footer is nested as the tree. -/
theorem compile_blocks {ast : Node} {code : Code} (h : compile ast = some code) :
    (∀ l : Label, (labels code).count l =
      if l.Taken ⟨0, 0⟩ ⟨ast.ifs, ast.whiles⟩ then 1 else 0) ∧
    (∀ l ∈ targets code, l ∈ labels code) ∧
    ∃ c, Block ast c ∧ code = header ++ c ++ footer := by
  obtain ⟨c, ids, hc, rfl⟩ := compile_eq h
  have hcomplete := compileAst_complete hc
  have hlabels : labels (header ++ c ++ footer) = labels c := by
    have hheader : labels header = [] := rfl
    have hfooter : labels footer = [] := rfl
    rw [labels_append, labels_append, hheader, hfooter, List.nil_append, List.append_nil]
  have htargets : targets (header ++ c ++ footer) = targets c := by
    have hheader : targets header = [] := rfl
    have hfooter : targets footer = [] := rfl
    rw [targets_append, targets_append, hheader, hfooter, List.nil_append, List.append_nil]
  rw [hlabels, htargets]
  refine ⟨fun l => ?_, fun l hl => ?_, c, compileAst_block hc, rfl⟩
  · have hids : ids = ⟨ast.ifs, ast.whiles⟩ := by
      simpa only [Node.ifs, Node.whiles, Nat.zero_add] using compileAst_ids hc
    have hcount := hcomplete.count_le l
    have hmem := hcomplete.mem_labels l
    rw [hids] at hcount hmem
    split_ifs at hcount ⊢ with htaken
    · exact Nat.le_antisymm hcount (List.count_pos_iff.mpr (hmem htaken))
    · exact Nat.le_zero.mp hcount
  · exact hcomplete.mem_labels l (hcomplete.taken l (.inr hl))

/-- A loop with a decision in its body, and a decision in the `ELSE` branch of that. -/
def nestedNode : Node :=
  .while (.binaryOp '<' (.var 'A') (.num 9))
    (.if (.binaryOp '=' (.var 'A') (.num 3)) (.print (.var 'A'))
      (some (.if (.binaryOp '>' (.var 'B') (.var 'A')) (.print (.num 1)) none)))

/-- Two numbers for its decisions, one for its loop. -/
theorem nestedNode_blocks :
    ∃ code, compile nestedNode = some code ∧
      (∀ l : Label, (labels code).count l = if l.Taken ⟨0, 0⟩ ⟨2, 1⟩ then 1 else 0) ∧
      (∀ l ∈ targets code, l ∈ labels code) ∧
      ∃ c, Block nestedNode c ∧ code = header ++ c ++ footer := by
  have hsome : (compile nestedNode).isSome = true := by decide +kernel
  obtain ⟨code, hcode⟩ := Option.isSome_iff_exists.mp hsome
  exact ⟨code, hcode, compile_blocks hcode⟩

end Basic
