import CS24.Basic.ParserSteps

/-!
# The runs of the parser that return a tree

What the parser did when it returns a node, call by call.  What is to be said about its
results is an induction over these runs; the parser's own recursion is gone through once,
here.
-/

namespace Basic.Parser

/-- The levels of operators. -/
inductive Level
  | factors | terms

def Level.isOp : Level → UInt8 → Bool
  | factors => isFactorOp
  | terms => isTermOp

/-- A factor, the operands and operators of a level, or what follows an operand. -/
inductive Phrase
  | factor
  | chain (l : Level)
  | behind (l : Level) (left : Node)

/-- The operands of a level. -/
def Level.operand : Level → Phrase
  | factors => .factor
  | terms => .chain .factors

/-- `factor`, `term`, `expression` and the loops of the last two. -/
inductive ExprRun : Phrase → State → Node → State → Prop
  | paren {s s₁ s₂ s₃ : State} {c d : UInt8} {node : Node}
      (hopen : tryAdvance isOpenParen s = (c, s₁)) (hc : c ≠ 0)
      (hexpr : ExprRun (.chain .terms) s₁ node s₂)
      (hclose : tryAdvance isCloseParen s₂ = (d, s₃)) (hd : d ≠ 0) : ExprRun .factor s node s₃
  | var {s s₁ s₂ : State} {c : UInt8} (hopen : tryAdvance isOpenParen s = (0, s₁))
      (hvar : tryAdvance isVariableName s₁ = (c, s₂)) (hc : c ≠ 0) :
      ExprRun .factor s (.var (char c)) s₂
  | num {s s₁ s₂ s₃ : State} {token : List UInt8} {value : Int}
      (hopen : tryAdvance isOpenParen s = (0, s₁)) (hvar : tryAdvance isVariableName s₁ = (0, s₂))
      (htoken : advanceUntilSeparator s₂ = (some token, s₃)) (hvalue : strtol token = (value, []))
      (hrange : InRange value) : ExprRun .factor s (.num (BitVec.ofInt 64 value)) s₃
  | chain {l : Level} {s s₁ s₂ : State} {left node : Node} (hleft : ExprRun l.operand s left s₁)
      (hbehind : ExprRun (.behind l left) s₁ node s₂) : ExprRun (.chain l) s node s₂
  | done {l : Level} {left : Node} {s s₁ : State} (hnext : tryAdvance l.isOp s = (0, s₁)) :
      ExprRun (.behind l left) s left s₁
  | more {l : Level} {left right node : Node} {s s₁ s₂ s₃ : State} {op : UInt8}
      (hnext : tryAdvance l.isOp s = (op, s₁)) (hop : op ≠ 0)
      (hright : ExprRun l.operand s₁ right s₂)
      (hbehind : ExprRun (.behind l (.binaryOp (char op) left right)) s₂ node s₃) :
      ExprRun (.behind l left) s node s₃

/-- `comparison` -/
inductive CondRun : State → Node → State → Prop
  | mk {s s₁ s₂ s₃ : State} {op : UInt8} {left right : Node}
      (hleft : ExprRun (.chain .terms) s left s₁) (hop : tryAdvance isComparisonOp s₁ = (op, s₂))
      (hright : ExprRun (.chain .terms) s₂ right s₃) :
      CondRun s (.binaryOp (char op) left right) s₃

/-- The loop of `sequence`. -/
inductive StmtsRun : State → List Node → State → Prop
  | eof {s s₁ s₂ : State} (hgap : comments s = ((), s₁))
      (hnone : advanceUntilSeparator s₁ = (none, s₂)) : StmtsRun s [] s₂
  | else {s s₁ s₂ : State} (hgap : comments s = ((), s₁))
      (helse : advanceUntilSeparator s₁ = (some ELSE, s₂)) :
      StmtsRun s [] s₁
  | end {s s₁ s₂ s₃ : State} {token : List UInt8} (hgap : comments s = ((), s₁))
      (hend : advanceUntilSeparator s₁ = (some END, s₂))
      (hnext : advanceUntilSeparator s₂ = (some token, s₃)) (htoken : token = IF ∨ token = WHILE) :
      StmtsRun s [] s₁
  | print {s s₁ s₂ s₃ s₄ : State} {expr : Node} {nodes : List Node} (hgap : comments s = ((), s₁))
      (hkeyword : advanceUntilSeparator s₁ = (some PRINT, s₂))
      (hexpr : ExprRun (.chain .terms) s₂ expr s₃) (hrest : StmtsRun s₃ nodes s₄) :
      StmtsRun s (.print expr :: nodes) s₄
  | let {s s₁ s₂ s₃ s₄ s₅ s₆ : State} {c : UInt8} {value : Node} {nodes : List Node}
      (hgap : comments s = ((), s₁)) (hkeyword : advanceUntilSeparator s₁ = (some LET, s₂))
      (hnext : advance s₂ = (c, s₃)) (hvar : isVariableName c = true)
      (heq : advance s₃ = (byte '=', s₄)) (hvalue : ExprRun (.chain .terms) s₄ value s₅)
      (hrest : StmtsRun s₅ nodes s₆) : StmtsRun s (.let (char c) value :: nodes) s₆
  | if {s s₁ s₂ s₃ s₄ s₅ s₆ s₇ : State} {condition ifBranch : Node} {body nodes : List Node}
      (hgap : comments s = ((), s₁)) (hkeyword : advanceUntilSeparator s₁ = (some IF, s₂))
      (hcondition : CondRun s₂ condition s₃) (hbody : StmtsRun s₃ body s₄)
      (hbranch : collect body = some ifBranch) (hend : advanceUntilSeparator s₄ = (some END, s₅))
      (hif : advanceUntilSeparator s₅ = (some IF, s₆)) (hrest : StmtsRun s₆ nodes s₇) :
      StmtsRun s (.if condition ifBranch none :: nodes) s₇
  | ifElse {s s₁ s₂ s₃ s₄ s₅ s₆ s₇ s₈ s₉ : State} {condition ifBranch elseBranch : Node}
      {body elseBody nodes : List Node}
      (hgap : comments s = ((), s₁)) (hkeyword : advanceUntilSeparator s₁ = (some IF, s₂))
      (hcondition : CondRun s₂ condition s₃) (hbody : StmtsRun s₃ body s₄)
      (hbranch : collect body = some ifBranch) (helse : advanceUntilSeparator s₄ = (some ELSE, s₅))
      (helseBody : StmtsRun s₅ elseBody s₆) (helseBranch : collect elseBody = some elseBranch)
      (hend : advanceUntilSeparator s₆ = (some END, s₇))
      (hif : advanceUntilSeparator s₇ = (some IF, s₈)) (hrest : StmtsRun s₈ nodes s₉) :
      StmtsRun s (.if condition ifBranch (some elseBranch) :: nodes) s₉
  | ifFailed {s s₁ s₂ s₃ s₄ s₅ s₆ s₇ s₈ s₉ : State} {condition ifBranch : Node}
      {body nodes : List Node}
      (hgap : comments s = ((), s₁)) (hkeyword : advanceUntilSeparator s₁ = (some IF, s₂))
      (hcondition : CondRun s₂ condition s₃) (hbody : StmtsRun s₃ body s₄)
      (hbranch : collect body = some ifBranch) (helse : advanceUntilSeparator s₄ = (some ELSE, s₅))
      (hfailed : sequence s₅ = (none, s₆))
      (hend : advanceUntilSeparator s₆ = (some END, s₇))
      (hif : advanceUntilSeparator s₇ = (some IF, s₈)) (hrest : StmtsRun s₈ nodes s₉) :
      StmtsRun s (.if condition ifBranch none :: nodes) s₉
  | while {s s₁ s₂ s₃ s₄ s₅ s₆ s₇ : State} {condition bodyNode : Node} {body nodes : List Node}
      (hgap : comments s = ((), s₁)) (hkeyword : advanceUntilSeparator s₁ = (some WHILE, s₂))
      (hcondition : CondRun s₂ condition s₃) (hbody : StmtsRun s₃ body s₄)
      (hbranch : collect body = some bodyNode) (hend : advanceUntilSeparator s₄ = (some END, s₅))
      (hwhile : advanceUntilSeparator s₅ = (some WHILE, s₆)) (hrest : StmtsRun s₆ nodes s₇) :
      StmtsRun s (.while condition bodyNode :: nodes) s₇

/-! ## Expressions -/

/-- A binary node needs both operands. -/
theorem initBinaryNode_eq_some {op : UInt8} {left right : Option Node} {node : Node}
    (h : initBinaryNode op left right = some node) :
    ∃ l r, left = some l ∧ right = some r ∧ node = .binaryOp (char op) l r := by
  cases left with
  | none => cases h
  | some l =>
      cases right with
      | none => cases h
      | some r =>
          cases h
          exact ⟨l, r, rfl, rfl, rfl⟩

/-- Without the right one there is none. -/
theorem initBinaryNode_none (op : UInt8) (left : Option Node) :
    initBinaryNode op left none = none := by
  cases left <;> rfl

/-- A number is a token that `strtol` reads to its end, with a value in range. -/
theorem num_run {s : State} {node : Node} (h : (num s).1 = some node) :
    ∃ token value, advanceUntilSeparator s = (some token, (num s).2) ∧
      strtol token = (value, []) ∧ InRange value ∧ node = .num (BitVec.ofInt 64 value) := by
  unfold num at h ⊢
  rw [bind_apply] at h ⊢
  cases hread : (advanceUntilSeparator s).1 with
  | none =>
      rw [hread] at h
      cases h
  | some token =>
      rw [hread] at h
      simp only at h ⊢
      split at h
      · cases h
      · rename_i hok
        rw [not_or, not_not, not_not] at hok
        rw [if_neg (by rw [not_or, not_not, not_not]; exact hok)]
        cases h
        exact ⟨token, _, Prod.ext hread rfl, Prod.ext rfl hok.2, hok.1, rfl⟩

/-- The loop gives up an operand that is missing. -/
theorem operations_none {isOp : UInt8 → Bool} {f : Action (Option Node)} (hf : Shortens f)
    (s : State) : (operations isOp f none s).1 = none := by
  induction hsize : s.size using Nat.strong_induction_on generalizing s with
  | _ k ih =>
      rw [operations_eq _ hf]
      split
      · rfl
      · rename_i hop
        have hlt := tryAdvance_lt hop
        have hleft := hf (tryAdvance isOp s).2
        exact ih _ (by omega) _ rfl

section Expressions

variable {n : Nat}

/-- What is known of the operands with at most `n` characters left. -/
def RunsUpTo (n : Nat) (phrase : Phrase) (f : Action (Option Node)) : Prop :=
  ∀ s, s.size ≤ n → ∀ node, (f s).1 = some node → ExprRun phrase s node (f s).2

/-- The loop over operators has read operands of its level one after the other. By induction on
what is left of the text. -/
theorem operations_run {l : Level} {f : Action (Option Node)} (hf : Shortens f)
    (hruns : RunsUpTo n l.operand f) {s : State} (hs : s.size ≤ n) {left node : Node}
    (h : (operations l.isOp f (some left) s).1 = some node) :
    ExprRun (.behind l left) s node (operations l.isOp f (some left) s).2 := by
  induction hsize : s.size using Nat.strong_induction_on generalizing s left with
  | _ k ih =>
      rw [operations_eq _ hf] at h ⊢
      split at h
      · rename_i hop
        rw [if_pos hop]
        cases h
        exact .done (Prod.ext hop rfl)
      · rename_i hop
        have hlt := tryAdvance_lt hop
        have hle := hf (tryAdvance l.isOp s).2
        rw [if_neg hop]
        cases hright : (f (tryAdvance l.isOp s).2).1 with
        | none =>
            rw [hright, initBinaryNode_none, operations_none hf] at h
            cases h
        | some right =>
            rw [hright] at h
            have hrun := hruns (tryAdvance l.isOp s).2 (by omega) right hright
            have hrest := ih (f (tryAdvance l.isOp s).2).2.size (by omega) (by omega) h rfl
            exact .more rfl hop hrun hrest

/-- So have the first operand and the loop behind it. -/
theorem chain_run {l : Level} {f : Action (Option Node)} (hf : Shortens f)
    (hruns : RunsUpTo n l.operand f) {s : State} (hs : s.size ≤ n) {node : Node}
    (h : (operations l.isOp f (f s).1 (f s).2).1 = some node) :
    ExprRun (.chain l) s node (operations l.isOp f (f s).1 (f s).2).2 := by
  have hle := hf s
  cases hleft : (f s).1 with
  | none =>
      rw [hleft, operations_none hf] at h
      cases h
  | some left =>
      rw [hleft] at h
      exact .chain (hruns s hs _ hleft) (operations_run hf hruns (by omega) h)

/-- A factor is a number, a variable or an expression in parentheses, if shorter expressions are
what they should be. -/
theorem factor_run
    (hruns : ∀ s, s.size < n → ∀ node, (expression s).1 = some node →
      ExprRun (.chain .terms) s node (expression s).2) : RunsUpTo n .factor factor := by
  intro s hs node h
  unfold factor factorBody at h ⊢
  rw [bind_apply] at h ⊢
  by_cases hopen : (tryAdvance isOpenParen s).1 = 0
  · rw [if_neg (not_not.mpr hopen), bind_apply] at h ⊢
    by_cases hvar : (tryAdvance isVariableName (tryAdvance isOpenParen s).2).1 = 0
    · rw [if_neg (not_not.mpr hvar)] at h ⊢
      obtain ⟨token, value, htoken, hvalue, hrange, rfl⟩ := num_run h
      exact .num (Prod.ext hopen rfl) (Prod.ext hvar rfl) htoken hvalue hrange
    · rw [if_pos hvar, pure_apply, initVarNode, if_neg hvar] at h ⊢
      cases h
      exact .var (Prod.ext hopen rfl) rfl hvar
  · have hlt := tryAdvance_lt hopen
    rw [if_pos hopen, bind_apply, bind_apply] at h ⊢
    by_cases hclose :
        (tryAdvance isCloseParen (expression (tryAdvance isOpenParen s).2).2).1 = 0
    · rw [if_pos hclose] at h
      cases h
    · rw [if_neg hclose, pure_apply] at h ⊢
      exact .paren rfl hopen (hruns (tryAdvance isOpenParen s).2 (by omega) node h) rfl hclose

end Expressions

/-- **A run of `expression` that returns a node.** -/
theorem expression_run {s : State} {node : Node} (h : (expression s).1 = some node) :
    ExprRun (.chain .terms) s node (expression s).2 := by
  induction hsize : s.size using Nat.strong_induction_on generalizing s node with
  | _ k ih =>
      have hfactor : RunsUpTo k .factor factor :=
        factor_run fun t ht node hnode => ih _ ht hnode rfl
      have hterm : RunsUpTo k (.chain .factors) term := by
        intro t ht node hnode
        rw [term_eq] at hnode ⊢
        exact chain_run factor_shortens hfactor ht hnode
      rw [expression_eq] at h ⊢
      exact chain_run term_shortens hterm hsize.le h

/-- What `comparison` returns was read as a condition. -/
theorem comparison_run {s t : State} {node : Node} (h : comparison s = (some node, t)) :
    CondRun s node t := by
  unfold comparison at h
  rw [bind_apply, bind_apply, bind_apply, pure_apply] at h
  obtain ⟨hnode, ht⟩ := Prod.mk.inj h
  obtain ⟨left, right, hleft, hright, rfl⟩ := initBinaryNode_eq_some hnode
  subst ht
  exact .mk (expression_run hleft) rfl (expression_run hright)

/-! ## Statements -/

/-- What `print_statement` returns is a `PRINT` of the expression that it read. -/
theorem printStatement_run {s : State} {node : Node} (h : (printStatement s).1 = some node) :
    ∃ expr, node = .print expr ∧ ExprRun (.chain .terms) s expr (printStatement s).2 := by
  unfold printStatement at h ⊢
  rw [bind_apply, pure_apply] at h ⊢
  obtain ⟨expr, hexpr, rfl⟩ := Option.map_eq_some_iff.mp h
  exact ⟨expr, rfl, expression_run hexpr⟩

/-- What `let_statement` returns is an assignment of the expression that it read behind a variable
and `=`. -/
theorem letStatement_run {s : State} {node : Node} (h : (letStatement s).1 = some node) :
    ∃ c s₁ s₂ value, advance s = (c, s₁) ∧ isVariableName c = true ∧
      advance s₁ = (byte '=', s₂) ∧ node = .let (char c) value ∧
      ExprRun (.chain .terms) s₂ value (letStatement s).2 := by
  unfold letStatement at h ⊢
  rw [bind_apply] at h ⊢
  by_cases hvar : isVariableName (advance s).1 = true
  · rw [if_pos hvar, bind_apply] at h ⊢
    by_cases heq : (advance (advance s).2).1 = byte '='
    · rw [if_pos heq, bind_apply, pure_apply, initLetNode] at h ⊢
      split at h
      · cases h
      · obtain ⟨value, hvalue, rfl⟩ := Option.map_eq_some_iff.mp h
        exact ⟨_, _, _, value, rfl, hvar, Prod.ext heq rfl, rfl, expression_run hvalue⟩
    · rw [if_neg heq] at h
      cases h
  · rw [if_neg hvar] at h
    cases h

/-- A node for `IF` needs its condition and its first branch. -/
theorem initIfNode_eq_some {condition ifBranch elseBranch : Option Node} {node : Node}
    (h : initIfNode condition ifBranch elseBranch = some node) :
    ∃ c i, condition = some c ∧ ifBranch = some i ∧ node = .if c i elseBranch := by
  cases condition with
  | none => cases h
  | some c =>
      cases ifBranch with
      | none => cases h
      | some i =>
          cases h
          exact ⟨c, i, rfl, rfl, rfl⟩

/-- A node for `WHILE` needs its condition and its body. -/
theorem initWhileNode_eq_some {condition body : Option Node} {node : Node}
    (h : initWhileNode condition body = some node) :
    ∃ c b, condition = some c ∧ body = some b ∧ node = .while c b := by
  cases condition with
  | none => cases h
  | some c =>
      cases body with
      | none => cases h
      | some b =>
          cases h
          exact ⟨c, b, rfl, rfl, rfl⟩

/-- `END` and the keyword of the statement, behind its last body. -/
def closing (kind : List UInt8) (next : Option (List UInt8)) (result : Option Node) :
    Action (Option Node) :=
  if next = some END then do
    if (← advanceUntilSeparator) = some kind then pure result else pure none
  else pure none

/-- A statement that is closed was followed by `END` and its own keyword. -/
theorem closing_run {kind : List UInt8} {next : Option (List UInt8)} {result : Option Node}
    {s : State} {node : Node} (h : (closing kind next result s).1 = some node) :
    next = some END ∧ advanceUntilSeparator s = (some kind, (closing kind next result s).2) ∧
      result = some node := by
  unfold closing at h ⊢
  by_cases hend : next = some END
  · rw [if_pos hend, bind_apply] at h ⊢
    by_cases hkind : (advanceUntilSeparator s).1 = some kind
    · rw [if_pos hkind, pure_apply] at h ⊢
      exact ⟨hend, Prod.ext hkind rfl, h⟩
    · rw [if_neg hkind] at h
      cases h
  · rw [if_neg hend] at h
    cases h

/-- The steps of `while_statement`, written one after the other. -/
theorem whileStatement_apply (f : Action (Option Node)) (s : State) :
    whileStatement f s =
      closing WHILE (advanceUntilSeparator (f (comparison s).2).2).1
        (initWhileNode (comparison s).1 (f (comparison s).2).1)
        (advanceUntilSeparator (f (comparison s).2).2).2 := rfl

/-- What `while_statement` returns is a loop of the condition and the body that it read up to its
`END WHILE`. -/
theorem whileStatement_run {f : Action (Option Node)} {s : State} {node : Node}
    (h : (whileStatement f s).1 = some node) :
    ∃ condition body s₁ s₂ s₃, comparison s = (some condition, s₁) ∧ f s₁ = (some body, s₂) ∧
      advanceUntilSeparator s₂ = (some END, s₃) ∧
      advanceUntilSeparator s₃ = (some WHILE, (whileStatement f s).2) ∧
      node = .while condition body := by
  rw [whileStatement_apply] at h ⊢
  obtain ⟨hend, hwhile, hnode⟩ := closing_run h
  obtain ⟨condition, body, hcondition, hbody, rfl⟩ := initWhileNode_eq_some hnode
  exact ⟨condition, body, _, _, _, Prod.ext hcondition rfl, Prod.ext hbody rfl,
    Prod.ext hend rfl, hwhile, rfl⟩

/-- `ifStatement`, with the two ways behind the first body. -/
theorem ifStatement_apply (f : Action (Option Node)) (s : State) :
    ifStatement f s =
      let branch := f (comparison s).2
      let next := advanceUntilSeparator branch.2
      if next.1 = some ELSE then
        let other := f next.2
        let next := advanceUntilSeparator other.2
        closing IF next.1 (initIfNode (comparison s).1 branch.1 other.1) next.2
      else closing IF next.1 (initIfNode (comparison s).1 branch.1 none) next.2 := by
  unfold ifStatement
  rw [bind_apply, bind_apply, bind_apply, bind_apply]
  by_cases helse : (advanceUntilSeparator (f (comparison s).2).2).1 = some ELSE
  · simp only [helse, if_true]
    rfl
  · simp only [helse, if_false]
    rfl

/-- An `IF` has no `ELSE`, one that is kept, or one that does not parse. -/
theorem ifStatement_run {f : Action (Option Node)} {s : State} {node : Node}
    (h : (ifStatement f s).1 = some node) :
    ∃ condition ifBranch s₁ s₂ s₃, comparison s = (some condition, s₁) ∧ f s₁ = (some ifBranch, s₂) ∧
      ((advanceUntilSeparator s₂ = (some END, s₃) ∧
        advanceUntilSeparator s₃ = (some IF, (ifStatement f s).2) ∧
        node = .if condition ifBranch none) ∨
      (∃ other s₄ s₅, advanceUntilSeparator s₂ = (some ELSE, s₃) ∧ f s₃ = (some other, s₄) ∧
        advanceUntilSeparator s₄ = (some END, s₅) ∧
        advanceUntilSeparator s₅ = (some IF, (ifStatement f s).2) ∧
        node = .if condition ifBranch (some other)) ∨
      (∃ s₄ s₅, advanceUntilSeparator s₂ = (some ELSE, s₃) ∧ f s₃ = (none, s₄) ∧
        advanceUntilSeparator s₄ = (some END, s₅) ∧
        advanceUntilSeparator s₅ = (some IF, (ifStatement f s).2) ∧
        node = .if condition ifBranch none)) := by
  rw [ifStatement_apply] at h ⊢
  simp only at h ⊢
  by_cases helse : (advanceUntilSeparator (f (comparison s).2).2).1 = some ELSE
  · rw [if_pos helse] at h ⊢
    obtain ⟨hend, hif, hnode⟩ := closing_run h
    obtain ⟨condition, ifBranch, hcondition, hbranch, rfl⟩ := initIfNode_eq_some hnode
    refine ⟨condition, ifBranch, _, _, (advanceUntilSeparator (f (comparison s).2).2).2,
      Prod.ext hcondition rfl, Prod.ext hbranch rfl, .inr ?_⟩
    cases hother : (f (advanceUntilSeparator (f (comparison s).2).2).2).1 with
    | none =>
        rw [hother] at hif
        exact .inr ⟨_, _, Prod.ext helse rfl, Prod.ext hother rfl, Prod.ext hend rfl, hif, rfl⟩
    | some other =>
        rw [hother] at hif
        exact .inl ⟨other, _, _, Prod.ext helse rfl, Prod.ext hother rfl, Prod.ext hend rfl, hif,
          rfl⟩
  · rw [if_neg helse] at h ⊢
    obtain ⟨hend, hif, hnode⟩ := closing_run h
    obtain ⟨condition, ifBranch, hcondition, hbranch, rfl⟩ := initIfNode_eq_some hnode
    exact ⟨condition, ifBranch, _, _, _, Prod.ext hcondition rfl, Prod.ext hbranch rfl,
      .inl ⟨Prod.ext hend rfl, hif, rfl⟩⟩

/-- What `sequence` has read when it returns a node. -/
def SequenceRun (s : State) (node : Node) (t : State) : Prop :=
  ∃ nodes, collect nodes = some node ∧ StmtsRun s nodes t

/-- Statements always make one node. -/
theorem exists_collect (nodes : List Node) : ∃ node, collect nodes = some node := by
  unfold collect
  split <;> exact ⟨_, rfl⟩

section Statements

variable {n : Nat}

/-- What is known of the bodies with less than `n` characters left. -/
def BodiesBelow (n : Nat) : Prop :=
  ∀ s t, s.size < n → ∀ node, sequence s = (some node, t) → SequenceRun s node t

/-- An `IF` in front of statements that were read, from the three ways in which it can end. -/
theorem ifStatement_stmtsRun (hbodies : BodiesBelow n) {s s₁ s₂ t : State} {node : Node}
    {nodes : List Node} (hgap : comments s = ((), s₁))
    (hnext : advanceUntilSeparator s₁ = (some IF, s₂)) (hs : s₂.size < n)
    (hnode : (ifStatement sequence s₂).1 = some node)
    (hrest : StmtsRun (ifStatement sequence s₂).2 nodes t) : StmtsRun s (node :: nodes) t := by
  obtain ⟨condition, ifBranch, s₃, s₄, s₅, hcondition, hbranch, hways⟩ := ifStatement_run hnode
  have hsize := comparison_shortens.of_eq hcondition
  obtain ⟨body, hcollect, hbody⟩ := hbodies s₃ s₄ (by omega) _ hbranch
  rcases hways with ⟨hend, hif, rfl⟩ | ⟨other, s₆, s₇, helse, hother, hend, hif, rfl⟩ |
    ⟨s₆, s₇, helse, hother, hend, hif, rfl⟩
  · exact .if hgap hnext (comparison_run hcondition) hbody hcollect hend hif hrest
  · have hlt := advanceUntilSeparator_lt helse
    have hle := sequence_shortens.of_eq hbranch
    obtain ⟨elseBody, hcollectElse, helseBody⟩ := hbodies s₅ s₆ (by omega) _ hother
    exact .ifElse hgap hnext (comparison_run hcondition) hbody hcollect helse helseBody hcollectElse
      hend hif hrest
  · exact .ifFailed hgap hnext (comparison_run hcondition) hbody hcollect helse hother hend hif hrest

/-- A `WHILE` in front of statements that were read. -/
theorem whileStatement_stmtsRun (hbodies : BodiesBelow n) {s s₁ s₂ t : State} {node : Node}
    {nodes : List Node} (hgap : comments s = ((), s₁))
    (hnext : advanceUntilSeparator s₁ = (some WHILE, s₂)) (hs : s₂.size < n)
    (hnode : (whileStatement sequence s₂).1 = some node)
    (hrest : StmtsRun (whileStatement sequence s₂).2 nodes t) :
    StmtsRun s (node :: nodes) t := by
  obtain ⟨condition, bodyNode, s₃, s₄, s₅, hcondition, hbody, hend, hwhile, rfl⟩ :=
    whileStatement_run hnode
  have hsize := comparison_shortens.of_eq hcondition
  obtain ⟨body, hcollect, hbody⟩ := hbodies s₃ s₄ (by omega) _ hbody
  exact .while hgap hnext (comparison_run hcondition) hbody hcollect hend hwhile hrest

/-- A statement is read, and what is behind it. -/
theorem keyword_run (hbodies : BodiesBelow n) {s s₁ s₂ t : State} {next : List UInt8}
    {node : Node} {nodes : List Node} (hgap : comments s = ((), s₁))
    (hnext : advanceUntilSeparator s₁ = (some next, s₂)) (hs : s₂.size < n)
    (hnode : (keyword sequence s₁.rest next s₂).1.1 = some node)
    (hrest : StmtsRun (keyword sequence s₁.rest next s₂).2 nodes t) :
    StmtsRun s (node :: nodes) t := by
  rcases keyword_cases sequence s₁.rest next s₂ with ⟨-, h⟩ | ⟨token, t, -, -, -, h⟩ | ⟨-, h⟩ |
    ⟨x, hx, h⟩ | h
  · rw [h] at hnode
    cases hnode
  · rw [h] at hnode
    cases hnode
  · rw [h] at hnode
    cases hnode
  · rw [h] at hnode hrest
    rcases hx with ⟨rfl, rfl⟩ | ⟨rfl, rfl⟩ | ⟨rfl, rfl⟩ | ⟨rfl, rfl⟩
    · obtain ⟨expr, rfl, hexpr⟩ := printStatement_run hnode
      exact .print hgap hnext hexpr hrest
    · obtain ⟨c, s₃, s₄, value, hc, hvar, heq, rfl, hvalue⟩ := letStatement_run hnode
      exact .let hgap hnext hc hvar heq hvalue hrest
    · exact ifStatement_stmtsRun hbodies hgap hnext hs hnode hrest
    · exact whileStatement_stmtsRun hbodies hgap hnext hs hnode hrest
  · rw [h] at hnode
    cases hnode

/-- A statement ends the sequence, and is put back or at the end of the stream. -/
theorem statement_ended {s : State} (hend : (statement sequence s).1.2 = true) :
    StmtsRun s [] (statement sequence s).2 := by
  rw [statement, bind_apply, statementBody_apply] at hend ⊢
  cases hnext : (advanceUntilSeparator (comments s).2).1 with
  | none => exact .eof rfl (Prod.ext hnext rfl)
  | some next =>
      rw [hnext] at hend
      simp only at hend ⊢
      rcases keyword_cases sequence (comments s).2.rest next (advanceUntilSeparator (comments s).2).2
        with ⟨rfl, h⟩ | ⟨token, t, rfl, htoken, hkind, h⟩ | ⟨-, h⟩ | ⟨x, -, h⟩ | h
      · rw [h]
        exact .else rfl (Prod.ext hnext rfl)
      · rw [h]
        exact .end rfl (Prod.ext hnext rfl) htoken hkind
      · rw [h] at hend
        cases hend
      · rw [h] at hend
        cases hend
      · rw [h] at hend
        cases hend

/-- A statement that returns a node, and what is behind it. -/
theorem statement_node (hbodies : BodiesBelow n) {s t : State} (hs : s.size ≤ n) {node : Node}
    {nodes : List Node} (hend : (statement sequence s).1.2 = false)
    (hnode : (statement sequence s).1.1 = some node)
    (hrest : StmtsRun (statement sequence s).2 nodes t) : StmtsRun s (node :: nodes) t := by
  have hle := comments_shortens s
  rw [statement, bind_apply, statementBody_apply] at hend hnode hrest
  cases hnext : (advanceUntilSeparator (comments s).2).1 with
  | none =>
      rw [hnext] at hend
      cases hend
  | some next =>
      rw [hnext] at hnode hrest
      have hread : advanceUntilSeparator (comments s).2 =
        (some next, (advanceUntilSeparator (comments s).2).2) := Prod.ext hnext rfl
      have hlt := advanceUntilSeparator_lt hread
      exact keyword_run hbodies rfl hread (by omega) hnode hrest

/-- The loop over statements has read them one after the other. By induction on what is left of
the text. -/
theorem statements_run (hbodies : BodiesBelow n) {s : State} (hs : s.size ≤ n)
    {before nodes : List Node} (h : (statements sequence before s).1 = some nodes) :
    ∃ tail, nodes = before ++ tail ∧ StmtsRun s tail (statements sequence before s).2 := by
  induction hsize : s.size using Nat.strong_induction_on generalizing s before with
  | _ k ih =>
      rw [statements_eq sequence_shortens] at h ⊢
      by_cases hend : (statement sequence s).1.2 = true
      · rw [if_pos hend] at h ⊢
        cases h
        exact ⟨[], by simp, statement_ended hend⟩
      · rw [if_neg hend] at h ⊢
        have hlt := (statement_size sequence_shortens s).2 (by simpa using hend)
        cases hnode : (statement sequence s).1.1 with
        | none =>
            rw [hnode] at h
            cases h
        | some node =>
            rw [hnode] at h
            obtain ⟨tail, rfl, htail⟩ :=
              ih (statement sequence s).2.size (by omega) (by omega) h rfl
            refine ⟨node :: tail, by simp, ?_⟩
            exact statement_node hbodies hs (by simpa using hend) hnode htail

end Statements

/-- **A run of `sequence` that returns a node.** -/
theorem sequence_run {s t : State} {node : Node} (h : sequence s = (some node, t)) :
    SequenceRun s node t := by
  induction hsize : s.size using Nat.strong_induction_on generalizing s t node with
  | _ k ih =>
      have hbodies : BodiesBelow k := fun s t hs node hnode => ih s.size hs hnode rfl
      rw [sequence_eq] at h
      obtain ⟨hnode, rfl⟩ := Prod.mk.inj h
      obtain ⟨nodes, hnodes, hcollect⟩ := Option.bind_eq_some_iff.mp hnode
      obtain ⟨tail, rfl, hrun⟩ := statements_run hbodies hsize.le hnodes
      exact ⟨_, hcollect, hrun⟩

/-- **A run of the parser that returns a tree.** -/
theorem parseFrom_run {s : State} {ast : Node} (h : (parseFrom s).1 = some ast) :
    ∃ t, SequenceRun s ast t ∧ atEnd t = (true, (parseFrom s).2) := by
  unfold parseFrom at h ⊢
  rw [bind_apply, bind_apply] at h ⊢
  by_cases hend : (atEnd (sequence s).2).1 = true
  · rw [if_pos hend, pure_apply] at h ⊢
    exact ⟨_, sequence_run (Prod.ext h rfl), Prod.ext hend rfl⟩
  · rw [if_neg hend] at h
    cases h

/-! ## What a run returns -/

/-- The function that reads an operand of the level. -/
def Level.action : Level → Action (Option Node)
  | factors => factor
  | terms => term

/-- The function that reads a phrase. -/
def Phrase.action : Phrase → Action (Option Node)
  | factor => Parser.factor
  | chain .factors => term
  | chain .terms => expression
  | behind l left => operations l.isOp l.action (some left)

/-- The operands of a level are read by the function of the level below. -/
theorem Level.action_eq (l : Level) : l.operand.action = l.action := by
  cases l <;> rfl

/-- The functions of both levels read on. -/
theorem Level.action_shortens (l : Level) : Shortens l.action := by
  cases l with
  | factors => exact factor_shortens
  | terms => exact term_shortens

/-- A chain is read operand by operand. -/
theorem Level.chain_action (l : Level) (s : State) :
    (Phrase.chain l).action s = operations l.isOp l.action (l.action s).1 (l.action s).2 := by
  cases l with
  | factors => exact term_eq s
  | terms => exact expression_eq s

/-- **The converse of `expression_run`.** The function of a phrase returns what a run of the
phrase does. -/
theorem ExprRun.eval {phrase : Phrase} {s t : State} {node : Node} (h : ExprRun phrase s node t) :
    phrase.action s = (some node, t) := by
  induction h with
  | paren hopen hc _ hclose hd ih =>
      have ih : expression _ = _ := ih
      rw [Phrase.action, Parser.factor, factorBody, bind_apply, hopen, if_pos hc, bind_apply, ih,
        bind_apply, hclose, if_neg hd, pure_apply]
  | var hopen hvar hc =>
      rw [Phrase.action, Parser.factor, factorBody, bind_apply, hopen, if_neg (not_not.mpr rfl),
        bind_apply, hvar, if_pos hc, pure_apply, initVarNode, if_neg hc]
  | num hopen hvar htoken hvalue hrange =>
      rw [Phrase.action, Parser.factor, factorBody, bind_apply, hopen, if_neg (not_not.mpr rfl),
        bind_apply, hvar, if_neg (not_not.mpr rfl), Parser.num, bind_apply, htoken]
      simp only [hvalue]
      rw [if_neg (by simpa using hrange)]
      rfl
  | @chain l _ _ _ _ _ _ _ ihleft ihbehind =>
      rw [l.action_eq] at ihleft
      rw [l.chain_action, ihleft]
      exact ihbehind
  | @done l _ _ _ hnext =>
      rw [Phrase.action, operations_eq _ l.action_shortens, hnext]
      rfl
  | @more l _ _ _ _ _ _ _ _ hnext hop _ _ ihright ihbehind =>
      rw [l.action_eq] at ihright
      rw [Phrase.action, operations_eq _ l.action_shortens, hnext, if_neg hop, ihright]
      exact ihbehind

/-- Where an expression ends is fixed by where it begins. -/
theorem ExprRun.unique {phrase : Phrase} {s t t' : State} {node node' : Node}
    (h : ExprRun phrase s node t) (h' : ExprRun phrase s node' t') : node = node' ∧ t = t' := by
  obtain ⟨hnode, ht⟩ := Prod.mk.inj (h.eval.symm.trans h'.eval)
  exact ⟨Option.some.inj hnode, ht⟩

/-- What was read as a condition is what `comparison` returns. -/
theorem CondRun.eval {s t : State} {node : Node} (h : CondRun s node t) :
    comparison s = (some node, t) := by
  cases h with
  | mk hleft hop hright =>
      have hleft : expression _ = _ := hleft.eval
      have hright : expression _ = _ := hright.eval
      rw [comparison, bind_apply, hleft, bind_apply, hop, bind_apply, hright, pure_apply,
        initBinaryNode]

section Returns

variable {s s₁ s₂ s₃ s₄ s₅ s₆ s₇ s₈ : State} {next kind : List UInt8} {result : Option Node}
  {node condition ifBranch : Node} {nodes : List Node}

/-- The parser reads the keyword of a statement. -/
theorem statement_of_keyword (hgap : comments s = ((), s₁))
    (hkeyword : advanceUntilSeparator s₁ = (some next, s₂)) :
    statement sequence s = keyword sequence s₁.rest next s₂ := by
  rw [statement, bind_apply, hgap, statementBody_apply, hkeyword]

/-- The word `PRINT` makes a `PRINT`, -/
theorem keyword_print (start : List UInt8) (s : State) :
    keyword sequence start PRINT s = (((printStatement s).1, false), (printStatement s).2) := by
  rw [keyword, if_neg (by decide), if_neg (by decide), if_pos rfl, map_apply]

/-- the word `LET` an assignment, -/
theorem keyword_let (start : List UInt8) (s : State) :
    keyword sequence start LET s = (((letStatement s).1, false), (letStatement s).2) := by
  rw [keyword, if_neg (by decide), if_neg (by decide), if_neg (by decide), if_pos rfl, map_apply]

/-- `IF` a choice -/
theorem keyword_if (start : List UInt8) (s : State) :
    keyword sequence start IF s =
      (((ifStatement sequence s).1, false), (ifStatement sequence s).2) := by
  rw [keyword, if_neg (by decide), if_neg (by decide), if_neg (by decide), if_neg (by decide),
    if_pos rfl, map_apply]

/-- and `WHILE` a loop. -/
theorem keyword_while (start : List UInt8) (s : State) :
    keyword sequence start WHILE s =
      (((whileStatement sequence s).1, false), (whileStatement sequence s).2) := by
  rw [keyword, if_neg (by decide), if_neg (by decide), if_neg (by decide), if_neg (by decide),
    if_neg (by decide), if_pos rfl, map_apply]

/-- `END` and the keyword of the statement are there. -/
theorem closing_of_eq (hkind : advanceUntilSeparator s = (some kind, s₁)) :
    closing kind (some END) result s = (result, s₁) := by
  rw [closing, if_pos rfl, bind_apply, hkind, if_pos rfl, pure_apply]

/-- A `PRINT` that is there is what `statement` returns. -/
theorem statement_print {expr : Node} (hgap : comments s = ((), s₁))
    (hkeyword : advanceUntilSeparator s₁ = (some PRINT, s₂))
    (hexpr : ExprRun (.chain .terms) s₂ expr s₃) :
    statement sequence s = ((some (.print expr), false), s₃) := by
  have hread : expression _ = _ := hexpr.eval
  rw [statement_of_keyword hgap hkeyword, keyword_print, printStatement, bind_apply, hread,
    pure_apply]
  rfl

/-- A `LET` that is there is what `statement` returns. -/
theorem statement_let {c : UInt8} {value : Node} (hgap : comments s = ((), s₁))
    (hkeyword : advanceUntilSeparator s₁ = (some LET, s₂)) (hnext : advance s₂ = (c, s₃))
    (hvar : isVariableName c = true) (heq : advance s₃ = (byte '=', s₄))
    (hvalue : ExprRun (.chain .terms) s₄ value s₅) :
    statement sequence s = ((some (.let (char c) value), false), s₅) := by
  have hread : expression _ = _ := hvalue.eval
  have hc : c ≠ 0 := by
    rintro rfl
    exact absurd hvar (by decide)
  rw [statement_of_keyword hgap hkeyword, keyword_let, letStatement, bind_apply, hnext,
    if_pos hvar, bind_apply, heq, if_pos rfl, bind_apply, hread, pure_apply, initLetNode, if_neg hc]
  rfl

/-- An `IF` without an `ELSE` that is there is what `statement` returns. -/
theorem statement_if (hgap : comments s = ((), s₁))
    (hkeyword : advanceUntilSeparator s₁ = (some IF, s₂)) (hcondition : CondRun s₂ condition s₃)
    (hbody : sequence s₃ = (some ifBranch, s₄)) (hend : advanceUntilSeparator s₄ = (some END, s₅))
    (hif : advanceUntilSeparator s₅ = (some IF, s₆)) :
    statement sequence s = ((some (.if condition ifBranch none), false), s₆) := by
  rw [statement_of_keyword hgap hkeyword, keyword_if, ifStatement_apply, hcondition.eval]
  simp only [hbody, hend]
  rw [if_neg (by decide), closing_of_eq hif]
  rfl

/-- An `ELSE` branch is kept if it parses, and counts as none otherwise. -/
theorem statement_ifElse {other : Option Node} (hgap : comments s = ((), s₁))
    (hkeyword : advanceUntilSeparator s₁ = (some IF, s₂)) (hcondition : CondRun s₂ condition s₃)
    (hbody : sequence s₃ = (some ifBranch, s₄)) (helse : advanceUntilSeparator s₄ = (some ELSE, s₅))
    (hother : sequence s₅ = (other, s₆)) (hend : advanceUntilSeparator s₆ = (some END, s₇))
    (hif : advanceUntilSeparator s₇ = (some IF, s₈)) :
    statement sequence s = ((some (.if condition ifBranch other), false), s₈) := by
  rw [statement_of_keyword hgap hkeyword, keyword_if, ifStatement_apply, hcondition.eval]
  simp only [hbody, helse, if_true, hother, hend, closing_of_eq hif]
  rfl

/-- A `WHILE` that is there is what `statement` returns. -/
theorem statement_while {bodyNode : Node} (hgap : comments s = ((), s₁))
    (hkeyword : advanceUntilSeparator s₁ = (some WHILE, s₂)) (hcondition : CondRun s₂ condition s₃)
    (hbody : sequence s₃ = (some bodyNode, s₄)) (hend : advanceUntilSeparator s₄ = (some END, s₅))
    (hwhile : advanceUntilSeparator s₅ = (some WHILE, s₆)) :
    statement sequence s = ((some (.while condition bodyNode), false), s₆) := by
  rw [statement_of_keyword hgap hkeyword, keyword_while, whileStatement_apply, hcondition.eval,
    hbody, hend, closing_of_eq hwhile]
  rfl

/-- The loop of `sequence` goes on behind a statement. -/
theorem statements_of_statement (before : List Node)
    (h : statement sequence s = ((some node, false), s₁)) :
    statements sequence before s = statements sequence (before ++ [node]) s₁ := by
  rw [statements_eq sequence_shortens, h]
  rfl

/-- It ends at the end of the block. -/
theorem statements_of_ended (before : List Node)
    (h : statement sequence s = ((none, true), s₁)) :
    statements sequence before s = (some before, s₁) := by
  rw [statements_eq sequence_shortens, h]
  rfl

/-- A body is read by `sequence`. -/
theorem sequence_of_statements (h : statements sequence [] s = (some nodes, s₁))
    (hcollect : collect nodes = some node) : sequence s = (some node, s₁) := by
  rw [sequence_eq, h]
  exact Prod.ext hcollect rfl

end Returns

/-- What `statement` returns at the front of a run, and the run behind it. -/
inductive StmtsRun.Head (s : State) : List Node → State → Prop
  | ended {t : State} (h : statement sequence s = ((none, true), t)) : Head s [] t
  | read {s₁ t : State} {node : Node} {nodes : List Node}
      (h : statement sequence s = ((some node, false), s₁)) (hrest : StmtsRun s₁ nodes t) :
      Head s (node :: nodes) t

/-- **The converse of `sequence_run`.** The loop of `sequence` returns the nodes of the run, the
first of which `statement` does.  By induction on the run. -/
theorem StmtsRun.returns {s t : State} {nodes : List Node} (h : StmtsRun s nodes t)
    (before : List Node) :
    statements sequence before s = (some (before ++ nodes), t) ∧ Head s nodes t := by
  have hended : ∀ {s s₁ : State} (before : List Node),
      statement sequence s = ((none, true), s₁) →
      statements sequence before s = (some (before ++ []), s₁) ∧ Head s [] s₁ := by
    intro s s₁ before h
    rw [statements_of_ended before h, List.append_nil]
    exact ⟨rfl, .ended h⟩
  have hread : ∀ {s s₁ t : State} {node : Node} {nodes : List Node} (before : List Node),
      statement sequence s = ((some node, false), s₁) → StmtsRun s₁ nodes t →
      (∀ before, statements sequence before s₁ = (some (before ++ nodes), t) ∧ Head s₁ nodes t) →
      statements sequence before s = (some (before ++ node :: nodes), t) ∧
        Head s (node :: nodes) t := by
    intro s s₁ t node nodes before h hrest ih
    rw [statements_of_statement before h, (ih _).1, List.append_assoc]
    exact ⟨rfl, .read h hrest⟩
  induction h generalizing before with
  | eof hgap hnone =>
      refine hended before ?_
      rw [statement, bind_apply, hgap, statementBody_apply, hnone]
  | «else» hgap helse =>
      refine hended before ?_
      rw [statement_of_keyword hgap helse, keyword, if_pos rfl]
      rfl
  | «end» hgap hend hnext htoken =>
      refine hended before ?_
      rw [statement_of_keyword hgap hend, keyword, if_neg (by decide), if_pos rfl, bind_apply,
        hnext, if_pos (by simpa using htoken)]
      rfl
  | print hgap hkeyword hexpr hrest ih =>
      exact hread before (statement_print hgap hkeyword hexpr) hrest ih
  | «let» hgap hkeyword hnext hvar heq hvalue hrest ih =>
      exact hread before (statement_let hgap hkeyword hnext hvar heq hvalue) hrest ih
  | «if» hgap hkeyword hcondition _ hbranch hend hif hrest ihbody ih =>
      have hbody := sequence_of_statements (ihbody []).1 hbranch
      exact hread before (statement_if hgap hkeyword hcondition hbody hend hif) hrest ih
  | ifElse hgap hkeyword hcondition _ hbranch helse _ hother hend hif hrest ihbody ihelse ih =>
      have hbody := sequence_of_statements (ihbody []).1 hbranch
      have helseBody := sequence_of_statements (ihelse []).1 hother
      exact hread before (statement_ifElse hgap hkeyword hcondition hbody helse helseBody hend hif)
        hrest ih
  | ifFailed hgap hkeyword hcondition _ hbranch helse hfailed hend hif hrest ihbody ih =>
      have hbody := sequence_of_statements (ihbody []).1 hbranch
      exact hread before (statement_ifElse hgap hkeyword hcondition hbody helse hfailed hend hif)
        hrest ih
  | «while» hgap hkeyword hcondition _ hbranch hend hwhile hrest ihbody ih =>
      have hbody := sequence_of_statements (ihbody []).1 hbranch
      exact hread before (statement_while hgap hkeyword hcondition hbody hend hwhile) hrest ih

/-- What was read as statements begins as its first step says. -/
theorem StmtsRun.head {s t : State} {nodes : List Node} (h : StmtsRun s nodes t) : Head s nodes t :=
  (h.returns []).2

/-- A run of `sequence` determines what it returns. -/
theorem StmtsRun.eval {s t : State} {nodes : List Node} {node : Node} (h : StmtsRun s nodes t)
    (hcollect : collect nodes = some node) : sequence s = (some node, t) :=
  sequence_of_statements (h.returns []).1 hcollect

/-- Where a block ends is fixed by where it begins. -/
theorem StmtsRun.unique {s t t' : State} {nodes nodes' : List Node} (h : StmtsRun s nodes t)
    (h' : StmtsRun s nodes' t') : nodes = nodes' ∧ t = t' := by
  obtain ⟨hnodes, ht⟩ := Prod.mk.inj ((h.returns []).1.symm.trans (h'.returns []).1)
  exact ⟨Option.some.inj hnodes, ht⟩

end Basic.Parser
