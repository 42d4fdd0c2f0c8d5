import CS24.Basic.Compile
import CS24.Basic.Scanning
import CS24.Basic.SyntaxErrors

/-!
# The trees that are parsed

The comments of `ast.h` say which operators, names and children the nodes have; the nodes
for which they hold are those in the range of `toNode`.  What the parser returns is such a
node, and each `IF` and `WHILE` in it gets its jump, unless there is a condition in the text
whose first operand is not before `<`, `=` or `>`: `comparison` takes the character 0 for its
operator then.
-/

namespace Basic

/-- An expression as `ast.h` has it. -/
def Node.IsExpr (node : Node) : Prop := ∃ e : Expr, e.toNode = node

/-- A condition as `ast.h` has it. -/
def Node.IsCond (node : Node) : Prop := ∃ c : Cond, c.toNode = node

/-- A statement as `ast.h` has it. -/
def Node.IsStmt (node : Node) : Prop := ∃ s : Stmt, s.toNode = node

/-- Statements as `ast.h` has them. -/
def Node.AreStmts (nodes : List Node) : Prop := ∃ ss : List Stmt, Stmt.toNodes ss = nodes

mutual

/-- The compiler emits a jump for the condition of each `IF` and `WHILE`. -/
def Node.Jumps : Node → Prop
  | .if condition ifBranch elseBranch =>
    (∃ op, condition.op? = some op ∧ ∀ id, ifJump op id ≠ []) ∧ ifBranch.Jumps ∧
      Node.Jumps? elseBranch
  | .while condition body =>
    (∃ op, condition.op? = some op ∧ ∀ id, whileJump op id ≠ []) ∧ body.Jumps
  | .sequence statements => Node.JumpsAll statements
  | _ => True

def Node.Jumps? : Option Node → Prop
  | none => True
  | some node => node.Jumps

def Node.JumpsAll : List Node → Prop
  | [] => True
  | node :: nodes => node.Jumps ∧ Node.JumpsAll nodes

end

/-- The compiler has a jump for each of the three operators, behind the condition of an `IF`, -/
theorem Cond.ifJump (c : Cond) : ∃ op, c.toNode.op? = some op ∧ ∀ id, ifJump op id ≠ [] := by
  refine ⟨c.op.char, rfl, fun id => ?_⟩
  cases c.op <;> exact List.cons_ne_nil _ _

/-- and of a `WHILE`. -/
theorem Cond.whileJump (c : Cond) :
    ∃ op, c.toNode.op? = some op ∧ ∀ id, whileJump op id ≠ [] := by
  refine ⟨c.op.char, rfl, fun id => ?_⟩
  cases c.op <;> exact List.cons_ne_nil _ _

mutual

/-- So the trees of `ast.h` get all their jumps, by induction on the tree. -/
theorem Stmt.toNode_jumps : ∀ s : Stmt, s.toNode.Jumps
  | .print _ => trivial
  | .let _ _ => trivial
  | .if c ifBranch elseBranch =>
    ⟨c.ifJump, ifBranch.toNode_jumps, Stmt.toNode?_jumps elseBranch⟩
  | .while c body => ⟨c.whileJump, body.toNode_jumps⟩
  | .sequence statements => Stmt.toNodes_jumps statements

/-- The same for an `ELSE` branch. -/
theorem Stmt.toNode?_jumps : ∀ s : Option Stmt, Node.Jumps? (Stmt.toNode? s)
  | none => trivial
  | some s => s.toNode_jumps

/-- The same for the statements of a sequence. -/
theorem Stmt.toNodes_jumps : ∀ ss : List Stmt, Node.JumpsAll (Stmt.toNodes ss)
  | [] => trivial
  | s :: ss => ⟨s.toNode_jumps, Stmt.toNodes_jumps ss⟩

end

namespace Node

/-- A node that is a statement gets all its jumps. -/
theorem IsStmt.jumps {node : Node} (h : node.IsStmt) : node.Jumps := by
  obtain ⟨s, rfl⟩ := h
  exact s.toNode_jumps

/-- No nodes are no statements. -/
theorem areStmts_nil : AreStmts [] := ⟨[], rfl⟩

/-- Nodes are statements if each of them is one. -/
theorem areStmts_cons {node : Node} {nodes : List Node} :
    AreStmts (node :: nodes) ↔ node.IsStmt ∧ AreStmts nodes := by
  constructor
  · rintro ⟨_ | ⟨s, ss⟩, h⟩
    · cases h
    · obtain ⟨hs, hss⟩ := List.cons.inj h
      exact ⟨⟨s, hs⟩, ⟨ss, hss⟩⟩
  · rintro ⟨⟨s, rfl⟩, ⟨ss, rfl⟩⟩
    exact ⟨s :: ss, rfl⟩

/-- A `PRINT` of an expression is a statement. -/
theorem IsExpr.print {expr : Node} (h : expr.IsExpr) : (Node.print expr).IsStmt := by
  obtain ⟨e, rfl⟩ := h
  exact ⟨.print e, rfl⟩

/-- So is an assignment of one to a variable. -/
theorem IsExpr.let {value : Node} (h : value.IsExpr) (x : VarName) :
    (Node.let x.char value).IsStmt := by
  obtain ⟨e, rfl⟩ := h
  exact ⟨.let x e, rfl⟩

/-- An `IF` is a statement if its condition is one with an operator and its branch is a statement.
-/
theorem isStmt_if {condition ifBranch : Node} :
    (Node.if condition ifBranch none).IsStmt ↔ condition.IsCond ∧ ifBranch.IsStmt := by
  constructor
  · rintro ⟨s, h⟩
    cases s with
    | «if» c i e =>
        simp only [Stmt.toNode, Node.if.injEq] at h
        exact ⟨⟨c, h.1⟩, ⟨i, h.2.1⟩⟩
    | print | «let» | «while» | sequence => simp [Stmt.toNode] at h
  · rintro ⟨⟨c, rfl⟩, ⟨i, rfl⟩⟩
    exact ⟨.if c i none, rfl⟩

/-- With an `ELSE`, so has to be the other branch. -/
theorem isStmt_ifElse {condition ifBranch elseBranch : Node} :
    (Node.if condition ifBranch (some elseBranch)).IsStmt ↔
      condition.IsCond ∧ ifBranch.IsStmt ∧ elseBranch.IsStmt := by
  constructor
  · rintro ⟨s, h⟩
    cases s with
    | «if» c i e =>
        simp only [Stmt.toNode, Node.if.injEq] at h
        obtain ⟨hc, hi, he⟩ := h
        cases e with
        | none => cases he
        | some e => exact ⟨⟨c, hc⟩, ⟨i, hi⟩, ⟨e, Option.some.inj he⟩⟩
    | print | «let» | «while» | sequence => simp [Stmt.toNode] at h
  · rintro ⟨⟨c, rfl⟩, ⟨i, rfl⟩, ⟨e, rfl⟩⟩
    exact ⟨.if c i (some e), rfl⟩

/-- The same for a `WHILE` and its body. -/
theorem isStmt_while {condition body : Node} :
    (Node.while condition body).IsStmt ↔ condition.IsCond ∧ body.IsStmt := by
  constructor
  · rintro ⟨s, h⟩
    cases s with
    | «while» c b =>
        simp only [Stmt.toNode, Node.while.injEq] at h
        exact ⟨⟨c, h.1⟩, ⟨b, h.2⟩⟩
    | print | «let» | «if» | sequence => simp [Stmt.toNode] at h
  · rintro ⟨⟨c, rfl⟩, ⟨b, rfl⟩⟩
    exact ⟨.while c b, rfl⟩

/-- A sequence is a statement if its nodes are statements. -/
theorem isStmt_sequence {statements : List Node} :
    (Node.sequence statements).IsStmt ↔ AreStmts statements := by
  constructor
  · rintro ⟨s, h⟩
    cases s with
    | sequence ss =>
        simp only [Stmt.toNode, Node.sequence.injEq] at h
        exact ⟨ss, h⟩
    | print | «let» | «if» | «while» => simp [Stmt.toNode] at h
  · rintro ⟨ss, rfl⟩
    exact ⟨.sequence ss, rfl⟩

end Node

namespace Parser

open Node

/-- The node for some statements is as `ast.h` has it if they are. -/
theorem collect_isStmt {nodes : List Node} {node : Node} (h : collect nodes = some node) :
    node.IsStmt ↔ AreStmts nodes := by
  unfold collect at h
  split at h
  · cases h
    rw [areStmts_cons]
    exact ⟨fun hs => ⟨hs, areStmts_nil⟩, fun hs => hs.1⟩
  · cases h
    exact isStmt_sequence

/-- The letters that the parser takes for variables are those of the 26 variables. -/
theorem char_variable {c : UInt8} (h : isVariableName c = true) : ∃ x : VarName, x.char = char c := by
  obtain ⟨hlo, hhi⟩ : 65 ≤ c.toNat ∧ c.toNat ≤ 90 := by
    simpa [isVariableName, byte, UInt8.le_iff_toNat_le] using h
  refine ⟨⟨c.toNat - 65, by omega⟩, ?_⟩
  simp only [VarName.char, char]
  congr 1
  omega

/-- The operators of both levels are those of `ast.h`. -/
theorem char_arith {l : Level} {op : UInt8} (h : l.isOp op = true) :
    ∃ a : ArithOp, a.char = char op := by
  cases l with
  | factors =>
      rcases of_decide_eq_true h with rfl | rfl
      · exact ⟨.mul, rfl⟩
      · exact ⟨.div, rfl⟩
  | terms =>
      rcases of_decide_eq_true h with rfl | rfl
      · exact ⟨.add, rfl⟩
      · exact ⟨.sub, rfl⟩

/-- So are those of comparisons. -/
theorem char_comp {op : UInt8} (h : isComparisonOp op = true) : ∃ o : CompOp, o.char = char op := by
  rcases of_decide_eq_true h with rfl | rfl | rfl
  · exact ⟨.lt, rfl⟩
  · exact ⟨.eq, rfl⟩
  · exact ⟨.gt, rfl⟩

/-- NUL is none of them. -/
theorem compOp_char_ne (o : CompOp) : o.char ≠ char 0 := by
  cases o <;> decide

/-! ## Expressions and conditions -/

/-- A predicate that an operand has to satisfy for the phrase. -/
def Phrase.Good : Phrase → Prop
  | behind _ left => left.IsExpr
  | _ => True

/-- **Expressions are as `ast.h` has them.** -/
theorem ExprRun.isExpr {phrase : Phrase} {s t : State} {node : Node}
    (h : ExprRun phrase s node t) (hgood : phrase.Good) : node.IsExpr := by
  induction h with
  | paren _ _ _ _ _ ih => exact ih trivial
  | var _ hvar hc =>
      obtain ⟨x, hx⟩ := char_variable (tryAdvance_reads hvar hc).2
      exact ⟨.var x, congrArg Node.var hx⟩
  | num _ _ _ _ _ => exact ⟨.num _, rfl⟩
  | @chain l _ _ _ _ _ _ _ ihleft ihbehind =>
      have hoperand : l.operand.Good := by cases l <;> trivial
      exact ihbehind (ihleft hoperand)
  | done _ => exact hgood
  | @more l _ _ _ _ _ _ _ _ hnext hop _ _ ihright ihbehind =>
      have hoperand : l.operand.Good := by cases l <;> trivial
      obtain ⟨right, hright⟩ := ihright hoperand
      obtain ⟨left, hleft⟩ := hgood
      obtain ⟨a, ha⟩ := char_arith (tryAdvance_reads hnext hop).2
      have hbinary : (Node.binaryOp (char _) _ _).IsExpr :=
        ⟨.binary a left right, by rw [Expr.toNode, ha, hleft, hright]⟩
      exact ihbehind hbinary

/-- The next character that is not white space is one of these. -/
def NextIs (p : UInt8 → Bool) (text : List UInt8) : Prop :=
  ∃ c rest, skip text = c :: rest ∧ p c = true

/-- A comparison is as `ast.h` has it if its operator is there. -/
theorem CondRun.isCond_iff {s t u : State} {node left : Node} (h : CondRun s node t)
    (hleft : ExprRun (.chain .terms) s left u) : node.IsCond ↔ NextIs isComparisonOp u.rest := by
  cases h with
  | @mk s₁ s₂ _ op left' right hleft' hop hright =>
      obtain ⟨rfl, rfl⟩ := hleft.unique hleft'
      constructor
      · rintro ⟨c, hc⟩
        simp only [Cond.toNode, Node.binaryOp.injEq] at hc
        have hne : op ≠ 0 := by
          rintro rfl
          exact compOp_char_ne c.op hc.1
        obtain ⟨hskip, hp⟩ := tryAdvance_reads hop hne
        exact ⟨op, s₂.rest, hskip, hp⟩
      · rintro ⟨c, rest, hskip, hp⟩
        have hne : c ≠ 0 := by
          rintro rfl
          exact absurd hp (by decide)
        have hread : tryAdvance isComparisonOp u = _ := tryAdvance_of_next hskip hne hp
        rw [hread] at hop
        obtain ⟨rfl, -⟩ := Prod.mk.inj hop
        obtain ⟨l, rfl⟩ := hleft.isExpr trivial
        obtain ⟨r, rfl⟩ := hright.isExpr trivial
        obtain ⟨o, ho⟩ := char_comp hp
        exact ⟨⟨o, l, r⟩, by rw [Cond.toNode, ho]⟩

/-! ## Statements -/

/-- In the block at `text` the condition of an `IF` or `WHILE` has its place at `place`: behind
the keyword, behind the statements before it, or inside the branches and bodies of one.  An
`ELSE` branch that cannot be read has none. -/
inductive ConditionAt : List UInt8 → List UInt8 → Prop
  | here {text r₁ place token : List UInt8} (hgap : Scan .gap text true r₁)
      (hkeyword : NextWord r₁ (some token) place) (htoken : token = IF ∨ token = WHILE) :
      ConditionAt text place
  | behind {text r₁ r₂ place : List UInt8} (hgap : Scan .gap text true r₁)
      (hstmt : Scan .statement r₁ true r₂) (h : ConditionAt r₂ place) : ConditionAt text place
  | body {text r₁ r₂ r₃ place token : List UInt8} (hgap : Scan .gap text true r₁)
      (hkeyword : NextWord r₁ (some token) r₂) (htoken : token = IF ∨ token = WHILE)
      (hcondition : Scan .condition r₂ true r₃) (h : ConditionAt r₃ place) : ConditionAt text place
  | elseBranch {text r₁ r₂ r₃ r₄ r₅ r₆ place : List UInt8} (hgap : Scan .gap text true r₁)
      (hkeyword : NextWord r₁ (some IF) r₂) (hcondition : Scan .condition r₂ true r₃)
      (hbody : Scan .block r₃ true r₄) (helse : NextWord r₄ (some ELSE) r₅)
      (hother : Scan .block r₅ true r₆) (h : ConditionAt r₅ place) : ConditionAt text place

/-- Behind the first operand of each condition there is `<`, `=` or `>`. -/
def Compared (text : List UInt8) : Prop :=
  ∀ place behind, ConditionAt text place → Scan (.chain .terms) place true behind →
    NextIs isComparisonOp behind

section Compared

variable {s s₁ s₂ s₃ s₄ s₅ s₆ t : State} {condition node : Node} {body elseBody nodes : List Node}
  {text text' place token : List UInt8}

/-- A condition that is at such a place. -/
theorem Compared.isCond (h : Compared text) (hcondition : CondRun s condition t)
    (hplace : ConditionAt text s.rest) : condition.IsCond := by
  cases hcondition with
  | mk hleft hop hright =>
      have hnext := h _ _ hplace (expression_scan hleft.eval)
      exact ((CondRun.mk hleft hop hright).isCond_iff hleft).mpr hnext

/-- The places of a part are places of the whole: -/
theorem Compared.part (h : Compared text)
    (hplace : ∀ place, ConditionAt text' place → ConditionAt text place) : Compared text' :=
  fun place behind ht hleft => h place behind (hplace place ht) hleft

/-- those behind a statement, -/
theorem Compared.behind (h : Compared s.rest)
    (hstmt : statement sequence s = ((some node, false), t)) : Compared t.rest := by
  obtain ⟨r, hgap, hstmt⟩ := statement_scan hstmt
  exact h.part fun _ => .behind hgap hstmt

/-- those in a body -/
theorem Compared.inBody (h : Compared s.rest) (hgap : comments s = ((), s₁))
    (hkeyword : advanceUntilSeparator s₁ = (some token, s₂)) (htoken : token = IF ∨ token = WHILE)
    (hcondition : CondRun s₂ condition s₃) : Compared s₃.rest :=
  h.part fun _ => .body (comments_scan hgap) (nextWord_of_eq hkeyword) htoken
    (comparison_scan hcondition.eval)

/-- and those in an `ELSE` branch. -/
theorem Compared.inElse (h : Compared s.rest) (hgap : comments s = ((), s₁))
    (hkeyword : advanceUntilSeparator s₁ = (some IF, s₂)) (hcondition : CondRun s₂ condition s₃)
    (hbody : StmtsRun s₃ body s₄) (helse : advanceUntilSeparator s₄ = (some ELSE, s₅))
    (hother : StmtsRun s₅ elseBody s₆) : Compared s₅.rest := by
  obtain ⟨ifBranch, hbranch⟩ := exists_collect body
  obtain ⟨elseBranch, helseBranch⟩ := exists_collect elseBody
  exact h.part fun _ => .elseBranch (comments_scan hgap) (nextWord_of_eq hkeyword)
    (comparison_scan hcondition.eval) (sequence_scan (hbody.eval hbranch)) (nextWord_of_eq helse)
    (sequence_scan (hother.eval helseBranch))

/-- The condition behind a keyword is at its place. -/
theorem conditionAt_here (hgap : comments s = ((), s₁))
    (hkeyword : advanceUntilSeparator s₁ = (some token, s₂))
    (htoken : token = IF ∨ token = WHILE) : ConditionAt s.rest s₂.rest :=
  .here (comments_scan hgap) (nextWord_of_eq hkeyword) htoken

/-- **Statements are as `ast.h` has them** where each condition compares.  By induction on the
run: the condition of an `IF` or `WHILE` is at a place of its block. -/
theorem StmtsRun.areStmts (hrun : StmtsRun s nodes t) (h : Compared s.rest) : AreStmts nodes := by
  induction hrun with
  | eof | «else» | «end» => exact areStmts_nil
  | print hgap hkeyword hexpr _ ih =>
      have hrest := ih (h.behind (statement_print hgap hkeyword hexpr))
      exact areStmts_cons.mpr ⟨(hexpr.isExpr trivial).print, hrest⟩
  | «let» hgap hkeyword hnext hvar heq hvalue _ ih =>
      have hrest := ih (h.behind (statement_let hgap hkeyword hnext hvar heq hvalue))
      obtain ⟨x, hx⟩ := char_variable hvar
      rw [← hx]
      exact areStmts_cons.mpr ⟨(hvalue.isExpr trivial).let x, hrest⟩
  | «if» hgap hkeyword hcondition hbody hbranch hend hif _ ihbody ih =>
      have hstmt := statement_if hgap hkeyword hcondition (hbody.eval hbranch) hend hif
      have hrest := ih (h.behind hstmt)
      have hcond := h.isCond hcondition (conditionAt_here hgap hkeyword (.inl rfl))
      have hbody := ihbody (h.inBody hgap hkeyword (.inl rfl) hcondition)
      exact areStmts_cons.mpr ⟨isStmt_if.mpr ⟨hcond, (collect_isStmt hbranch).mpr hbody⟩, hrest⟩
  | ifElse hgap hkeyword hcondition hbody hbranch helse helseBody hother hend hif _ ihbody ihelse
      ih =>
      have hstmt := statement_ifElse hgap hkeyword hcondition (hbody.eval hbranch) helse
        (helseBody.eval hother) hend hif
      have hrest := ih (h.behind hstmt)
      have hcond := h.isCond hcondition (conditionAt_here hgap hkeyword (.inl rfl))
      have hplaces := h.inElse hgap hkeyword hcondition hbody helse helseBody
      have hbody := ihbody (h.inBody hgap hkeyword (.inl rfl) hcondition)
      exact areStmts_cons.mpr ⟨isStmt_ifElse.mpr ⟨hcond, (collect_isStmt hbranch).mpr hbody,
        (collect_isStmt hother).mpr (ihelse hplaces)⟩, hrest⟩
  | ifFailed hgap hkeyword hcondition hbody hbranch helse hfailed hend hif _ ihbody ih =>
      have hstmt := statement_ifElse hgap hkeyword hcondition (hbody.eval hbranch) helse hfailed
        hend hif
      have hrest := ih (h.behind hstmt)
      have hcond := h.isCond hcondition (conditionAt_here hgap hkeyword (.inl rfl))
      have hbody := ihbody (h.inBody hgap hkeyword (.inl rfl) hcondition)
      exact areStmts_cons.mpr ⟨isStmt_if.mpr ⟨hcond, (collect_isStmt hbranch).mpr hbody⟩, hrest⟩
  | «while» hgap hkeyword hcondition hbody hbranch hend hwhile _ ihbody ih =>
      have hstmt := statement_while hgap hkeyword hcondition (hbody.eval hbranch) hend hwhile
      have hrest := ih (h.behind hstmt)
      have hcond := h.isCond hcondition (conditionAt_here hgap hkeyword (.inr rfl))
      have hbody := ihbody (h.inBody hgap hkeyword (.inr rfl) hcondition)
      exact areStmts_cons.mpr ⟨isStmt_while.mpr ⟨hcond, (collect_isStmt hbranch).mpr hbody⟩, hrest⟩

/-- What is read of an `IF` or a `WHILE`: its condition, the body behind it and the branch behind
an `ELSE` are as `ast.h` has them if the statements are. -/
theorem StmtsRun.block {token : List UInt8} (hrun : StmtsRun s nodes t) (hstmts : AreStmts nodes)
    (hgap : comments s = ((), s₁)) (hkeyword : advanceUntilSeparator s₁ = (some token, s₂))
    (htoken : token = IF ∨ token = WHILE) :
    ∃ condition body s₃ s₄, CondRun s₂ condition s₃ ∧ condition.IsCond ∧
      StmtsRun s₃ body s₄ ∧ AreStmts body ∧
      ∀ s₅ elseBody s₆, advanceUntilSeparator s₄ = (some ELSE, s₅) → StmtsRun s₅ elseBody s₆ →
        AreStmts elseBody := by
  have hread : ∀ {s₁' s₂' : State} {token' : Option (List UInt8)}, comments s = ((), s₁') →
      advanceUntilSeparator s₁' = (token', s₂') → token' = some token ∧ s₂' = s₂ := by
    intro s₁' s₂' token' hgap' hkeyword'
    obtain ⟨-, rfl⟩ := Prod.mk.inj (hgap.symm.trans hgap')
    exact Prod.mk.inj (hkeyword'.symm.trans hkeyword)
  have hother : ∀ {token' : List UInt8}, some token' = some token →
      ¬(token' = PRINT ∨ token' = LET ∨ token' = ELSE ∨ token' = END) := by
    rintro token' ⟨⟩
    rcases htoken with rfl | rfl <;> decide
  -- behind a body that is before `END` there is no `ELSE`
  have hnone : ∀ {s₄ s₄' : State}, advanceUntilSeparator s₄ = (some END, s₄') →
      ∀ s₅ elseBody s₆, advanceUntilSeparator s₄ = (some ELSE, s₅) → StmtsRun s₅ elseBody s₆ →
        AreStmts elseBody := by
    intro s₄ s₄' hend s₅ elseBody s₆ helse
    have htokens := (Prod.mk.inj (hend.symm.trans helse)).1
    exact absurd (Option.some.inj htokens) (by decide)
  cases hrun with
  | eof hgap' hnone => exact absurd (hread hgap' hnone).1 (by simp)
  | «else» hgap' helse => exact absurd (by simp) (hother (hread hgap' helse).1)
  | «end» hgap' hend _ _ => exact absurd (by simp) (hother (hread hgap' hend).1)
  | print hgap' hkeyword' _ _ => exact absurd (by simp) (hother (hread hgap' hkeyword').1)
  | «let» hgap' hkeyword' _ _ _ _ _ => exact absurd (by simp) (hother (hread hgap' hkeyword').1)
  | «if» hgap' hkeyword' hcondition hbody hbranch hend _ _ =>
      obtain ⟨-, rfl⟩ := hread hgap' hkeyword'
      obtain ⟨hcond, hbranch'⟩ := isStmt_if.mp (areStmts_cons.mp hstmts).1
      exact ⟨_, _, _, _, hcondition, hcond, hbody, (collect_isStmt hbranch).mp hbranch', hnone hend⟩
  | ifElse hgap' hkeyword' hcondition hbody hbranch helse helseBody hother _ _ _ =>
      obtain ⟨-, rfl⟩ := hread hgap' hkeyword'
      obtain ⟨hcond, hbranch', hother'⟩ := isStmt_ifElse.mp (areStmts_cons.mp hstmts).1
      refine ⟨_, _, _, _, hcondition, hcond, hbody, (collect_isStmt hbranch).mp hbranch', ?_⟩
      intro s₅ elseBody s₆ helse' helseBody'
      obtain ⟨-, rfl⟩ := Prod.mk.inj (helse.symm.trans helse')
      rw [(helseBody'.unique helseBody).1]
      exact (collect_isStmt hother).mp hother'
  | ifFailed hgap' hkeyword' hcondition hbody hbranch helse hfailed _ _ _ =>
      obtain ⟨-, rfl⟩ := hread hgap' hkeyword'
      obtain ⟨hcond, hbranch'⟩ := isStmt_if.mp (areStmts_cons.mp hstmts).1
      refine ⟨_, _, _, _, hcondition, hcond, hbody, (collect_isStmt hbranch).mp hbranch', ?_⟩
      intro s₅ elseBody s₆ helse' helseBody'
      obtain ⟨-, rfl⟩ := Prod.mk.inj (helse.symm.trans helse')
      obtain ⟨node, hcollect⟩ := exists_collect elseBody
      rw [helseBody'.eval hcollect] at hfailed
      cases hfailed
  | «while» hgap' hkeyword' hcondition hbody hbranch hend _ _ =>
      obtain ⟨-, rfl⟩ := hread hgap' hkeyword'
      obtain ⟨hcond, hbranch'⟩ := isStmt_while.mp (areStmts_cons.mp hstmts).1
      exact ⟨_, _, _, _, hcondition, hcond, hbody, (collect_isStmt hbranch).mp hbranch', hnone hend⟩

/-- **The conditions of statements compare.**  By induction on the place of the condition, which
is where the run has been. -/
theorem ConditionAt.isCond (h : ConditionAt text place) (hrun : StmtsRun ⟨text⟩ nodes t)
    (hstmts : AreStmts nodes) :
    ∃ condition behind, CondRun ⟨place⟩ condition behind ∧ condition.IsCond := by
  induction h generalizing nodes t with
  | here hgap hkeyword htoken =>
      obtain ⟨condition, _, s₃, _, hcondition, hcond, -⟩ :=
        hrun.block hstmts hgap.does.1 hkeyword.read htoken
      exact ⟨condition, s₃, hcondition, hcond⟩
  | behind hgap hstmt _ ih =>
      obtain ⟨node, hnode, hok⟩ := hstmt.does
      have hread := (statement_of_gap hgap.does.1).trans hnode
      cases hrun.head with
      | ended h => cases hread.symm.trans h
      | read h hrest =>
          cases hread.symm.trans h
          exact ih hrest (areStmts_cons.mp hstmts).2
  | body hgap hkeyword htoken hcondition _ ih =>
      obtain ⟨condition, hcondition⟩ := hcondition.condRun
      obtain ⟨_, _, s₃, _, hcondition', -, hbody, hbodyStmts, -⟩ :=
        hrun.block hstmts hgap.does.1 hkeyword.read htoken
      obtain ⟨-, rfl⟩ := Prod.mk.inj (hcondition.eval.symm.trans hcondition'.eval)
      exact ih hbody hbodyStmts
  | elseBranch hgap hkeyword hcondition hbody helse hother _ ih =>
      obtain ⟨condition, hcondition⟩ := hcondition.condRun
      obtain ⟨body, hbody⟩ := hbody.stmtsRun
      obtain ⟨elseBody, hother⟩ := hother.stmtsRun
      obtain ⟨_, _, s₃, s₄, hcondition', -, hbody', -, helses⟩ :=
        hrun.block hstmts hgap.does.1 hkeyword.read (.inl rfl)
      obtain ⟨-, rfl⟩ := Prod.mk.inj (hcondition.eval.symm.trans hcondition'.eval)
      obtain ⟨-, rfl⟩ := hbody.unique hbody'
      exact ih hother (helses _ _ _ helse.read hother)

/-- Conversely, statements that are as `ast.h` has them have their operators in the text. -/
theorem StmtsRun.compared (hrun : StmtsRun ⟨text⟩ nodes t) (hstmts : AreStmts nodes) :
    Compared text := by
  intro place behind hplace hleft
  obtain ⟨condition, _, hcondition, hcond⟩ := hplace.isCond hrun hstmts
  obtain ⟨left, hleft⟩ := hleft.exprRun
  exact (hcondition.isCond_iff hleft).mp hcond

end Compared

/-- **A tree that is parsed is as `ast.h` has it** exactly when in the text `<`, `=` or `>` is
behind the first operand of each condition; then each `IF` and `WHILE` gets its jump. -/
theorem parse_isStmt_iff {text : List UInt8} {ast : Node} (h : parse text = some ast) :
    (ast.IsStmt ∧ ast.Jumps) ↔ Compared text := by
  obtain ⟨t, ⟨nodes, hcollect, hrun⟩, -⟩ := parseFrom_run h
  rw [collect_isStmt hcollect]
  constructor
  · rintro ⟨hstmts, -⟩
    exact hrun.compared hstmts
  · intro hcompared
    have hstmts := hrun.areStmts hcompared
    exact ⟨hstmts, ((collect_isStmt hcollect).mpr hstmts).jumps⟩

/-- The text of an `IF` with both branches. -/
theorem parse_isStmt_ifElse :
    ∃ ast, parse ifElseText = some ast ∧
      ((ast.IsStmt ∧ ast.Jumps) ↔ Compared ifElseText) := by
  have hsome : (parse ifElseText).isSome = true := by decide +kernel
  obtain ⟨ast, hast⟩ := Option.isSome_iff_exists.mp hsome
  exact ⟨ast, hast, parse_isStmt_iff hast⟩

/-- `IF 1 2 PRINT 3 END IF` -/
def bareText : List UInt8 := bytes "IF 1 2 PRINT 3 END IF".toList

/-- The condition has no operator, and the parser returns a tree with it. -/
theorem parse_bare : ∃ ast, parse bareText = some ast ∧ ¬(ast.IsStmt ∧ ast.Jumps) := by
  have hsome : (parse bareText).isSome = true := by decide +kernel
  obtain ⟨ast, hast⟩ := Option.isSome_iff_exists.mp hsome
  refine ⟨ast, hast, fun hstmt => ?_⟩
  obtain ⟨t, ⟨nodes, hcollect, hrun⟩, -⟩ := parseFrom_run hast
  have hcompared := hrun.compared ((collect_isStmt hcollect).mp hstmt.1)
  -- behind the `IF` the `1` is read, and the character behind it is `2`
  have hkeyword : (advanceUntilSeparator (comments (start bareText)).2).1 = some IF := by
    decide +kernel
  have hleft : (expression (advanceUntilSeparator (comments (start bareText)).2).2).1.isSome =
      true := by decide +kernel
  have hnext : (skip (expression (advanceUntilSeparator
      (comments (start bareText)).2).2).2.rest).head?.any isComparisonOp = false := by decide +kernel
  obtain ⟨left, hleft⟩ := Option.isSome_iff_exists.mp hleft
  have hplace := conditionAt_here rfl (Prod.ext hkeyword rfl) (.inl rfl)
  obtain ⟨c, rest, hskip, hop⟩ := hcompared _ _ hplace (expression_scan (Prod.ext hleft rfl))
  rw [hskip, List.head?_cons, Option.any_some, hop] at hnext
  cases hnext

end Parser

end Basic
