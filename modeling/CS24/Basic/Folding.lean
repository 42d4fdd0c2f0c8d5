import CS24.Basic.CompileCorrect
import CS24.Basic.ParserTrees

/-!
# Quotients that are folded

`fold` divides when the operands of a `/` have values without the store, wherever the
division stands.  A quotient that does not exist stops the compiler then, and not the
program.  What has to be known of a program is `Foldable`: each quotient of operands
without variables exists.
-/

namespace Basic

def arith? (op : Char) : Option ArithOp :=
  if op = '+' then some .add
  else if op = '-' then some .sub
  else if op = '*' then some .mul
  else if op = '/' then some .div
  else none

/-- The value of an expression without variables, where it has one. -/
def Node.constant : Node → Option Word
  | .num value => some value
  | .binaryOp op left right => do
    let a ← left.constant
    let b ← right.constant
    let op ← arith? op
    op.apply a b
  | _ => none

/-- In an expression each quotient of operands without variables exists. -/
def Node.Divides : Node → Prop
  | .binaryOp op left right =>
    left.Divides ∧ right.Divides ∧ (op = '/' → ∀ a b, left.constant = some a →
      right.constant = some b → ArithOp.div.apply a b ≠ none)
  | _ => True

mutual

/-- The same for the expressions of a statement. -/
def Node.Foldable : Node → Prop
  | .print expr => expr.Divides
  | .let _ value => value.Divides
  | .if condition ifBranch elseBranch =>
    condition.Divides ∧ ifBranch.Foldable ∧ Node.Foldable? elseBranch
  | .while condition body => condition.Divides ∧ body.Foldable
  | .sequence statements => Node.FoldableAll statements
  | _ => True

def Node.Foldable? : Option Node → Prop
  | none => True
  | some node => node.Foldable

def Node.FoldableAll : List Node → Prop
  | [] => True
  | node :: nodes => node.Foldable ∧ Node.FoldableAll nodes

end

mutual

/-- The counters behind a statement. -/
def Node.ids : Node → Ids → Ids
  | .if _ ifBranch elseBranch, ids =>
    ifBranch.ids (Node.ids? elseBranch { ids with ifId := ids.ifId + 1 })
  | .while _ body, ids => body.ids { ids with whileId := ids.whileId + 1 }
  | .sequence statements, ids => Node.idsAll statements ids
  | _, ids => ids

def Node.ids? : Option Node → Ids → Ids
  | none, ids => ids
  | some node, ids => node.ids ids

def Node.idsAll : List Node → Ids → Ids
  | [], ids => ids
  | node :: nodes, ids => Node.idsAll nodes (node.ids ids)

end

/-- A `return_t` for the value of an expression. -/
def Return.ofConstant : Option Word → Return
  | some v => ⟨true, v⟩
  | none => ⟨false, 0⟩

/-- Folding succeeds where no constant is divided by the constant 0, and gives the value. By
induction on the tree. -/
theorem fold_of_divides : ∀ node : Node, node.Divides →
    fold node = some (.ofConstant node.constant)
  | .num _, _ => rfl
  | .binaryOp op left right, ⟨hleft, hright, hdiv⟩ => by
      have hl := fold_of_divides left hleft
      have hr := fold_of_divides right hright
      rw [fold, hl, hr, Node.constant]
      cases ha : left.constant with
      | none => rfl
      | some a =>
          cases hb : right.constant with
          | none => rfl
          | some b =>
              simp only [Return.ofConstant, Option.bind_eq_bind, Option.bind_some, and_self,
                if_true, arith?]
              split
              · rfl
              split
              · rfl
              split
              · rfl
              split
              · rename_i hop
                have hne := hdiv hop a b ha hb
                simp only [ArithOp.apply, foldDiv, Option.bind_some] at hne ⊢
                split
                · rename_i hbad
                  exact absurd (if_pos hbad) hne
                · rfl
              · rfl
  | .var _, _ | .sequence _, _ | .print _, _ | .let _ _, _ | .if _ _ _, _ | .while _ _, _ => rfl

/-- It succeeds only there. -/
theorem divides_of_fold : ∀ {node : Node} {ret : Return}, fold node = some ret → node.Divides
  | .num _, _, _ => trivial
  | .binaryOp op left right, ret, h => by
      obtain ⟨l, hl, h⟩ := bind_eq_some h
      obtain ⟨r, hr, h⟩ := bind_eq_some h
      have hleft := divides_of_fold hl
      have hright := divides_of_fold hr
      refine ⟨hleft, hright, ?_⟩
      rintro rfl a b ha hb hnone
      rw [fold_of_divides left hleft, ha] at hl
      rw [fold_of_divides right hright, hb] at hr
      cases hl
      cases hr
      rw [if_pos ⟨rfl, rfl⟩] at h
      obtain ⟨v, hv, -⟩ := bind_eq_some (h : (foldDiv a b >>= _) = some ret)
      have hv : ArithOp.apply a b .div = some v := hv
      rw [hnone] at hv
      cases hv
  | .var _, _, _ | .sequence _, _, _ | .print _, _, _ | .let _ _, _, _ | .if _ _ _, _, _
  | .while _ _, _, _ => trivial

/-- The counters are values of an `int32_t`. -/
def Ids.Fits (ids : Ids) : Prop := ids.ifId < 2 ^ 31 ∧ ids.whileId < 2 ^ 31

mutual

/-- Counters that fit behind a statement fit in front of it. -/
theorem Node.fits_of_ids : ∀ (node : Node) {ids : Ids}, (node.ids ids).Fits → ids.Fits
  | .if _ ifBranch elseBranch, ids, h => by
      have h := Node.fits_of_ids? elseBranch (ifBranch.fits_of_ids h)
      exact ⟨by have := h.1; simp only at this; omega, h.2⟩
  | .while _ body, ids, h => by
      have h := body.fits_of_ids h
      exact ⟨h.1, by have := h.2; simp only at this; omega⟩
  | .sequence statements, _, h => Node.fits_of_idsAll statements h
  | .num _, _, h | .binaryOp _ _ _, _, h | .var _, _, h | .print _, _, h | .let _ _, _, h => h

/-- The same for an `ELSE` branch. -/
theorem Node.fits_of_ids? : ∀ (node : Option Node) {ids : Ids}, (Node.ids? node ids).Fits → ids.Fits
  | none, _, h => h
  | some node, _, h => node.fits_of_ids h

/-- The same for the statements of a sequence. -/
theorem Node.fits_of_idsAll : ∀ (nodes : List Node) {ids : Ids},
    (Node.idsAll nodes ids).Fits → ids.Fits
  | [], _, h => h
  | node :: nodes, _, h => node.fits_of_ids (Node.fits_of_idsAll nodes h)

end

/-! ## What is compiled -/

/-- A comparison of expressions; its operator may be missing. -/
def Node.IsComparison (node : Node) : Prop :=
  ∃ (op : Char) (left right : Expr), node = .binaryOp op left.toNode right.toNode ∧ arith? op = none

mutual

/-- Expressions, comparisons and statements are where the parser puts them. -/
def Node.Shaped : Node → Prop
  | .print expr => expr.IsExpr
  | .let _ value => value.IsExpr
  | .if condition ifBranch elseBranch =>
    condition.IsComparison ∧ ifBranch.Shaped ∧ Node.Shaped? elseBranch
  | .while condition body => condition.IsComparison ∧ body.Shaped
  | .sequence statements => Node.ShapedAll statements
  | _ => False

def Node.Shaped? : Option Node → Prop
  | none => True
  | some node => node.Shaped

def Node.ShapedAll : List Node → Prop
  | [] => True
  | node :: nodes => node.Shaped ∧ Node.ShapedAll nodes

end

/-- What is compiled is folded first. -/
theorem divides_of_compileAst {node : Node} {ids ids' : Ids} {code : Code}
    (h : compileAst node ids = some (code, ids')) : node.Divides := by
  rcases compileAst_eq h with ⟨v, hfold, -⟩ | ⟨v, hfold⟩
  · exact divides_of_fold hfold
  · exact divides_of_fold hfold

/-- The code of an operation does not touch the counters if that of its operands does not. -/
theorem binaryOp_compiles {op : Char} {left right : Node}
    (hleft : ∀ ids, ∃ code, compileAst left ids = some (code, ids))
    (hright : ∀ ids, ∃ code, compileAst right ids = some (code, ids))
    (h : (Node.binaryOp op left right).Divides) (ids : Ids) :
    ∃ code, compileAst (.binaryOp op left right) ids = some (code, ids) := by
  have hfold := fold_of_divides _ h
  cases hconstant : (Node.binaryOp op left right).constant with
  | some v =>
      rw [hconstant] at hfold
      exact ⟨[.movImm v .rdi], by rw [compileAst, hfold]; rfl⟩
  | none =>
      obtain ⟨leftCode, hleft⟩ := hleft ids
      obtain ⟨rightCode, hright⟩ := hright ids
      rw [hconstant] at hfold
      have hcode : compileAst (.binaryOp op left right) ids =
          compileAst right ids >>= fun r => compileAst left r.2 >>= fun l =>
            some (r.1 ++ [.push .rdi] ++ l.1 ++ [.pop .r10] ++ operation op right, l.2) := by
        rw [compileAst, hfold]
        rfl
      exact ⟨_, by rw [hcode, hright, Option.bind_eq_bind, Option.bind_some, hleft]; rfl⟩

/-- An expression compiles if it folds, and takes no labels. -/
theorem Expr.compiles (e : Expr) (h : e.toNode.Divides) (ids : Ids) :
    ∃ code, compileAst e.toNode ids = some (code, ids) := by
  induction e generalizing ids with
  | num value => exact ⟨_, rfl⟩
  | var x => exact ⟨_, rfl⟩
  | binary op left right ihleft ihright =>
      exact binaryOp_compiles (ihleft h.1) (ihright h.2.1) h ids

/-- So does a node that is one. -/
theorem Node.IsExpr.compiles {node : Node} (hexpr : node.IsExpr) (h : node.Divides) (ids : Ids) :
    ∃ code, compileAst node ids = some (code, ids) := by
  obtain ⟨e, rfl⟩ := hexpr
  exact e.compiles h ids

/-- A comparison compiles if its operands fold, and its operator is found by its jump. -/
theorem Node.IsComparison.compiles {node : Node} (hcomp : node.IsComparison) (h : node.Divides)
    (ids : Ids) : ∃ code op, compileAst node ids = some (code, ids) ∧ node.op? = some op := by
  obtain ⟨op, left, right, rfl, -⟩ := hcomp
  obtain ⟨code, hcode⟩ := binaryOp_compiles (left.compiles h.1) (right.compiles h.2.1) h ids
  exact ⟨code, op, hcode, rfl⟩

/-- A counter below the largest `int` goes up. -/
theorem increment_of_lt {id : Nat} (h : id + 1 < 2 ^ 31) : increment id = some (id + 1) :=
  if_pos (by omega)

/-- An `IF` compiles if its parts do and there is a number for its labels. -/
theorem if_compiles {condition ifBranch : Node} {elseBranch : Option Node} {ids j k ids' : Ids}
    {conditionCode elseCode ifCode : Code} {op : Char}
    (hcondition : compileAst condition ids = some (conditionCode, j))
    (hop : condition.op? = some op) (hid : j.ifId + 1 < 2 ^ 31)
    (helse : compileElse elseBranch { j with ifId := j.ifId + 1 } = some (elseCode, k))
    (hif : compileAst ifBranch k = some (ifCode, ids')) :
    ∃ code, compileAst (.if condition ifBranch elseBranch) ids = some (code, ids') := by
  have hcode : compileAst (.if condition ifBranch elseBranch) ids =
      compileAst condition ids >>= fun c => increment c.2.ifId >>= fun ifId =>
        condition.op? >>= fun op => compileElse elseBranch { c.2 with ifId } >>= fun e =>
          compileAst ifBranch e.2 >>= fun i => some (c.1 ++ ifJump op c.2.ifId ++ e.1 ++
            [.jmp (.endIf c.2.ifId), .label (.if c.2.ifId)] ++ i.1 ++
            [.jmp (.endIf c.2.ifId), .label (.endIf c.2.ifId)], i.2) := rfl
  simp [hcode, hcondition, increment_of_lt hid, hop, helse, hif]

/-- A `WHILE` compiles if its parts do and there is a number for its labels. -/
theorem while_compiles {condition body : Node} {ids j ids' : Ids}
    {conditionCode bodyCode : Code} {op : Char} (hid : ids.whileId + 1 < 2 ^ 31)
    (hcondition : compileAst condition { ids with whileId := ids.whileId + 1 } =
      some (conditionCode, j))
    (hop : condition.op? = some op) (hbody : compileAst body j = some (bodyCode, ids')) :
    ∃ code, compileAst (.while condition body) ids = some (code, ids') := by
  have hcode : compileAst (.while condition body) ids =
      increment ids.whileId >>= fun whileId =>
        compileAst condition { ids with whileId } >>= fun c => condition.op? >>= fun op =>
          compileAst body c.2 >>= fun b => some ([.label (.while ids.whileId)] ++ c.1 ++
            whileJump op ids.whileId ++ b.1 ++
            [.jmp (.while ids.whileId), .label (.endWhile ids.whileId)], b.2) := rfl
  simp [hcode, increment_of_lt hid, hcondition, hop, hbody]

mutual

/-- **What is foldable is compiled**, with one label pair for each `IF` and `WHILE`. -/
theorem Node.compiles : ∀ (node : Node) {ids : Ids}, node.Shaped → node.Foldable →
    (node.ids ids).Fits → ∃ code, compileAst node ids = some (code, node.ids ids)
  | .print expr, ids, hshaped, h, _ => by
      obtain ⟨code, hcode⟩ := IsExpr.compiles hshaped h ids
      have hprint : compileAst (.print expr) ids =
        compileAst expr ids >>= fun r => some (r.1 ++ [.call], r.2) := rfl
      exact ⟨_, by rw [hprint, hcode]; rfl⟩
  | .let x value, ids, hshaped, h, _ => by
      obtain ⟨code, hcode⟩ := IsExpr.compiles hshaped h ids
      have hlet : compileAst (.let x value) ids =
        compileAst value ids >>= fun r => some (r.1 ++ [.store .rdi (offset x) .rbp], r.2) := rfl
      exact ⟨_, by rw [hlet, hcode]; rfl⟩
  | .if condition ifBranch elseBranch, ids, ⟨hcomp, hif, helse⟩, ⟨hc, hi, he⟩, hfits => by
      have hfits' := ifBranch.fits_of_ids hfits
      have hid := (Node.fits_of_ids? elseBranch hfits').1
      obtain ⟨conditionCode, op, hcondition, hop⟩ := hcomp.compiles hc ids
      obtain ⟨elseCode, helse⟩ := Node.compiles? elseBranch helse he hfits'
      obtain ⟨ifCode, hif⟩ := ifBranch.compiles hif hi hfits
      exact if_compiles hcondition hop hid helse hif
  | .while condition body, ids, ⟨hcomp, hbody⟩, ⟨hc, hb⟩, hfits => by
      have hid := (body.fits_of_ids hfits).2
      obtain ⟨conditionCode, op, hcondition, hop⟩ :=
        hcomp.compiles hc { ids with whileId := ids.whileId + 1 }
      obtain ⟨bodyCode, hbody⟩ := body.compiles hbody hb hfits
      exact while_compiles hid hcondition hop hbody
  | .sequence statements, ids, hshaped, h, hfits => by
      obtain ⟨code, hcode⟩ := Node.compilesAll statements hshaped h hfits
      exact ⟨code, hcode⟩

/-- The same for an `ELSE` branch. -/
theorem Node.compiles? : ∀ (node : Option Node) {ids : Ids}, Node.Shaped? node →
    Node.Foldable? node → (Node.ids? node ids).Fits →
    ∃ code, compileElse node ids = some (code, Node.ids? node ids)
  | none, _, _, _, _ => ⟨[], rfl⟩
  | some node, _, hshaped, h, hfits => node.compiles hshaped h hfits

/-- The same for the statements of a sequence, one after the other. -/
theorem Node.compilesAll : ∀ (nodes : List Node) {ids : Ids}, Node.ShapedAll nodes →
    Node.FoldableAll nodes → (Node.idsAll nodes ids).Fits →
    ∃ code, compileAll nodes ids = some (code, Node.idsAll nodes ids)
  | [], _, _, _, _ => ⟨[], rfl⟩
  | node :: nodes, ids, ⟨hs, hss⟩, ⟨hf, hfs⟩, hfits => by
      obtain ⟨code, hcode⟩ := node.compiles hs hf (Node.fits_of_idsAll nodes hfits)
      obtain ⟨rest, hrest⟩ := Node.compilesAll nodes hss hfs hfits
      exact ⟨code ++ rest, by rw [compileAll, hcode]; simp [hrest, Node.idsAll]⟩

end

/-- An expression that is compiled leaves the counters as they are. -/
theorem Node.IsExpr.ids_of_compiles {node : Node} {ids ids' : Ids} {code : Code} (h : node.IsExpr)
    (hc : compileAst node ids = some (code, ids')) : node.Divides ∧ ids' = ids := by
  have hdivides := divides_of_compileAst hc
  obtain ⟨code', hcode⟩ := h.compiles hdivides ids
  rw [hc] at hcode
  cases hcode
  exact ⟨hdivides, rfl⟩

mutual

/-- **What is compiled is foldable**, and has no more labels than there are numbers. -/
theorem Node.foldable_of_compiles : ∀ (node : Node) {ids ids' : Ids} {code : Code}, node.Shaped →
    ids.Fits → compileAst node ids = some (code, ids') →
    node.Foldable ∧ ids'.Fits ∧ ids' = node.ids ids
  | .print expr, ids, _, _, hshaped, hfits, h => by
      obtain ⟨c, hc, -⟩ := compileAst_print h
      obtain ⟨hdivides, rfl⟩ := IsExpr.ids_of_compiles hshaped hc
      exact ⟨hdivides, hfits, rfl⟩
  | .let x value, ids, _, _, hshaped, hfits, h => by
      obtain ⟨c, hc, -⟩ := compileAst_let h
      obtain ⟨hdivides, rfl⟩ := IsExpr.ids_of_compiles hshaped hc
      exact ⟨hdivides, hfits, rfl⟩
  | .if condition ifBranch elseBranch, ids, _, _, ⟨hcomp, hif, helse⟩, hfits, h => by
      obtain ⟨conditionCode, j, op, elseCode, k, ifCode, hcondition, -, hid, helseCode, hifCode, -⟩ :=
        compileAst_if h
      have hdivides := divides_of_compileAst hcondition
      obtain ⟨c, o, hc, -⟩ := hcomp.compiles hdivides ids
      rw [hcondition] at hc
      cases hc
      have hfits : Ids.Fits { ids with ifId := ids.ifId + 1 } := ⟨hid, hfits.2⟩
      obtain ⟨he, hfits, rfl⟩ := Node.foldable_of_compiles? elseBranch helse hfits helseCode
      obtain ⟨hi, hfits, rfl⟩ := ifBranch.foldable_of_compiles hif hfits hifCode
      exact ⟨⟨hdivides, hi, he⟩, hfits, rfl⟩
  | .while condition body, ids, _, _, ⟨hcomp, hbody⟩, hfits, h => by
      obtain ⟨conditionCode, j, op, bodyCode, hid, hcondition, -, hbodyCode, -⟩ :=
        compileAst_while h
      have hdivides := divides_of_compileAst hcondition
      obtain ⟨c, o, hc, -⟩ := hcomp.compiles hdivides { ids with whileId := ids.whileId + 1 }
      rw [hcondition] at hc
      cases hc
      have hfits : Ids.Fits { ids with whileId := ids.whileId + 1 } := ⟨hfits.1, hid⟩
      obtain ⟨hb, hfits, rfl⟩ := body.foldable_of_compiles hbody hfits hbodyCode
      exact ⟨⟨hdivides, hb⟩, hfits, rfl⟩
  | .sequence statements, _, _, _, hshaped, hfits, h =>
      Node.foldable_of_compilesAll statements hshaped hfits h

/-- The same for an `ELSE` branch. -/
theorem Node.foldable_of_compiles? : ∀ (node : Option Node) {ids ids' : Ids} {code : Code},
    Node.Shaped? node → ids.Fits → compileElse node ids = some (code, ids') →
    Node.Foldable? node ∧ ids'.Fits ∧ ids' = Node.ids? node ids
  | none, _, _, _, _, hfits, h => by
      cases h
      exact ⟨trivial, hfits, rfl⟩
  | some node, _, _, _, hshaped, hfits, h => node.foldable_of_compiles hshaped hfits h

/-- The same for the statements of a sequence, one after the other. -/
theorem Node.foldable_of_compilesAll : ∀ (nodes : List Node) {ids ids' : Ids} {code : Code},
    Node.ShapedAll nodes → ids.Fits → compileAll nodes ids = some (code, ids') →
    Node.FoldableAll nodes ∧ ids'.Fits ∧ ids' = Node.idsAll nodes ids
  | [], _, _, _, _, hfits, h => by
      cases h
      exact ⟨trivial, hfits, rfl⟩
  | node :: nodes, _, _, _, ⟨hs, hss⟩, hfits, h => by
      obtain ⟨c, j, rest, hc, hrest, -⟩ := compileAll_cons h
      obtain ⟨hf, hfits, rfl⟩ := node.foldable_of_compiles hs hfits hc
      obtain ⟨hfs, hfits, rfl⟩ := Node.foldable_of_compilesAll nodes hss hfits hrest
      exact ⟨⟨hf, hfs⟩, hfits, rfl⟩

end

/-- A tree of the right shape is compiled if and only if it is foldable and has less than
`2 ^ 31` of each kind of label. -/
theorem compile_isSome_iff {ast : Node} (hshaped : ast.Shaped) :
    (∃ code, compile ast = some code) ↔ ast.Foldable ∧ (ast.ids ⟨0, 0⟩).Fits := by
  constructor
  · rintro ⟨code, hcode⟩
    obtain ⟨c, ids, hc, -⟩ := compile_eq hcode
    obtain ⟨hfoldable, hfits, rfl⟩ :=
      ast.foldable_of_compiles hshaped ⟨by decide, by decide⟩ hc
    exact ⟨hfoldable, hfits⟩
  · rintro ⟨hfoldable, hfits⟩
    obtain ⟨c, hc⟩ := ast.compiles hshaped hfoldable hfits
    exact ⟨header ++ c ++ footer, by rw [compile, hc]; rfl⟩

namespace Parser

open Node

/-- No operator of comparisons is one of arithmetic. -/
theorem arith?_char_comp (o : CompOp) : arith? o.char = none := by
  cases o <;> rfl

/-- What is read as a condition is a comparison of two expressions. -/
theorem CondRun.isComparison {s t : State} {node : Node} (h : CondRun s node t) :
    node.IsComparison := by
  cases h with
  | @mk s₁ s₂ _ op left right hleft hop hright =>
      obtain ⟨l, rfl⟩ := hleft.isExpr trivial
      obtain ⟨r, rfl⟩ := hright.isExpr trivial
      refine ⟨char op, l, r, rfl, ?_⟩
      by_cases hzero : op = 0
      · subst hzero
        decide
      · obtain ⟨o, ho⟩ := char_comp (tryAdvance_reads hop hzero).2
        rw [← ho]
        exact arith?_char_comp o

/-- A sequence of one statement is that statement, which changes nothing here. -/
theorem collect_shaped {nodes : List Node} {node : Node} (h : collect nodes = some node) :
    node.Shaped ↔ ShapedAll nodes := by
  unfold collect at h
  split at h
  · cases h
    exact ⟨fun hs => ⟨hs, trivial⟩, fun hs => hs.1⟩
  · cases h
    exact Iff.rfl

/-- What is read as statements has the shape of statements, by induction on how it is read. -/
theorem StmtsRun.shaped {s t : State} {nodes : List Node} (h : StmtsRun s nodes t) :
    ShapedAll nodes := by
  induction h with
  | eof | «else» | «end» => trivial
  | print _ _ hexpr _ ih => exact ⟨hexpr.isExpr trivial, ih⟩
  | «let» _ _ _ _ _ hvalue _ ih => exact ⟨hvalue.isExpr trivial, ih⟩
  | «if» _ _ hcondition _ hbranch _ _ _ ihbody ih =>
      exact ⟨⟨hcondition.isComparison, (collect_shaped hbranch).mpr ihbody, trivial⟩, ih⟩
  | ifElse _ _ hcondition _ hbranch _ _ hother _ _ _ ihbody ihelse ih =>
      exact ⟨⟨hcondition.isComparison, (collect_shaped hbranch).mpr ihbody,
        (collect_shaped hother).mpr ihelse⟩, ih⟩
  | ifFailed _ _ hcondition _ hbranch _ _ _ _ _ ihbody ih =>
      exact ⟨⟨hcondition.isComparison, (collect_shaped hbranch).mpr ihbody, trivial⟩, ih⟩
  | «while» _ _ hcondition _ hbranch _ _ _ ihbody ih =>
      exact ⟨⟨hcondition.isComparison, (collect_shaped hbranch).mpr ihbody⟩, ih⟩

/-- So has every tree that `parse` returns. -/
theorem parse_shaped {text : List UInt8} {ast : Node} (h : parse text = some ast) : ast.Shaped := by
  obtain ⟨t, ⟨nodes, hcollect, hrun⟩, -⟩ := parseFrom_run h
  exact (collect_shaped hcollect).mpr hrun.shaped

/-- **Folding does not stop the compiler** exactly when each quotient of operands without
variables exists (and the counters of labels do not overflow).  The code then does what
the program means: a division stops it where the interpreter is stopped. -/
theorem parse_compile_iff {text : List UInt8} {ast : Node} (h : parse text = some ast) :
    (∃ code, compile ast = some code ∧ ∀ stmt : Stmt, stmt.toNode = ast →
      ∀ E vars a s, Entry vars a s → Behaves stmt code E vars a s) ↔
    ast.Foldable ∧ (ast.ids ⟨0, 0⟩).Fits := by
  rw [← compile_isSome_iff (parse_shaped h)]
  constructor
  · rintro ⟨code, hcode, -⟩
    exact ⟨code, hcode⟩
  · rintro ⟨code, hcode⟩
    refine ⟨code, hcode, ?_⟩
    rintro stmt rfl E vars a s hs
    exact compile_behaves hcode hs

/-- The text of an `IF` with both branches. -/
theorem parse_compile_ifElse :
    ∃ ast, parse ifElseText = some ast ∧
      ((∃ code, compile ast = some code ∧ ∀ stmt : Stmt, stmt.toNode = ast →
        ∀ E vars a s, Entry vars a s → Behaves stmt code E vars a s) ↔
      ast.Foldable ∧ (ast.ids ⟨0, 0⟩).Fits) := by
  have hsome : (parse ifElseText).isSome = true := by decide +kernel
  obtain ⟨ast, hast⟩ := Option.isSome_iff_exists.mp hsome
  exact ⟨ast, hast, parse_compile_iff hast⟩

/-- `PRINT 1/0` -/
def zeroDivisionText : List UInt8 := bytes "PRINT 1/0".toList

/-- The quotient is folded, and the compiler stops. -/
theorem parse_zeroDivision :
    ∃ ast, parse zeroDivisionText = some ast ∧ compile ast = none := by
  have hsome : ((parse zeroDivisionText).bind compile).isNone = true := by decide +kernel
  have hast : (parse zeroDivisionText).isSome = true := by decide +kernel
  obtain ⟨ast, hast⟩ := Option.isSome_iff_exists.mp hast
  rw [hast] at hsome
  exact ⟨ast, hast, Option.isNone_iff_eq_none.mp hsome⟩

end Parser

end Basic
