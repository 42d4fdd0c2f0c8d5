import CS24.Basic.ParserRuns

/-!
# The texts of TeenyBASIC

What the parser is for: which characters at the front of a text are a phrase, and which
nodes they stand for.  A phrase is read up to the end of its last token, and white space
around its tokens is passed over.  Nothing else is, but for the comments before a
statement: each other character is part of a phrase.

The parser reads every program: a phrase at the front of a text is a run of the parser on
that text.
-/

namespace Basic.Parser

/-- `token` is at the front of the text, and `behind` is what follows it. -/
def TokenAt (text token behind : List UInt8) : Prop :=
  ∃ c rest, skip text = c :: rest ∧ token = c :: word rest ∧ behind = behindWord rest ∧
    token.length ≤ MAX_KEYWORD_LENGTH ∧ 0 ∉ token

/-- The next character is not one of these. -/
def NextIsNot (p : UInt8 → Bool) (text : List UInt8) : Prop :=
  ∀ c rest, skip text = c :: rest → c ≠ 0 ∧ p c = false

/-- The phrase is at the front of the text. -/
inductive ExprAt : Phrase → List UInt8 → Node → List UInt8 → Prop
  | paren {text r₁ r₂ r₃ : List UInt8} {node : Node}
      (hopen : skip text = byte '(' :: r₁) (hexpr : ExprAt (.chain .terms) r₁ node r₂)
      (hclose : skip r₂ = byte ')' :: r₃) : ExprAt .factor text node r₃
  | var {text rest : List UInt8} {c : UInt8} (hnext : skip text = c :: rest)
      (hc : isVariableName c = true) : ExprAt .factor text (.var (char c)) rest
  | num {text token rest : List UInt8} {value : Int}
      (hparen : NextIsNot isOpenParen text) (hvar : NextIsNot isVariableName text)
      (htoken : TokenAt text token rest) (hvalue : strtol token = (value, []))
      (hrange : InRange value) : ExprAt .factor text (.num (BitVec.ofInt 64 value)) rest
  | chain {l : Level} {text r₁ r₂ : List UInt8} {left node : Node}
      (hleft : ExprAt l.operand text left r₁) (hbehind : ExprAt (.behind l left) r₁ node r₂) :
      ExprAt (.chain l) text node r₂
  | done {l : Level} {left : Node} {text : List UInt8} (hnext : NextIsNot l.isOp text) :
      ExprAt (.behind l left) text left (skip text)
  | more {l : Level} {left right node : Node} {text r₁ r₂ r₃ : List UInt8} {op : UInt8}
      (hnext : skip text = op :: r₁) (hop : l.isOp op = true)
      (hright : ExprAt l.operand r₁ right r₂)
      (hbehind : ExprAt (.behind l (.binaryOp (char op) left right)) r₂ node r₃) :
      ExprAt (.behind l left) text node r₃

/-- A comparison.  The operator may be missing; the character 0 stands for it then. -/
inductive CondAt : List UInt8 → Node → List UInt8 → Prop
  | op {text r₁ r₂ r₃ : List UInt8} {left right : Node} {op : UInt8}
      (hleft : ExprAt (.chain .terms) text left r₁) (hnext : skip r₁ = op :: r₂)
      (hop : isComparisonOp op = true) (hright : ExprAt (.chain .terms) r₂ right r₃) :
      CondAt text (.binaryOp (char op) left right) r₃
  | bare {text r₁ r₂ : List UInt8} {left right : Node}
      (hleft : ExprAt (.chain .terms) text left r₁) (hnext : NextIsNot isComparisonOp r₁)
      (hright : ExprAt (.chain .terms) (skip r₁) right r₂) :
      CondAt text (.binaryOp (char 0) left right) r₂

/-- White space and comments. -/
inductive GapAt : List UInt8 → List UInt8 → Prop
  | done {text : List UInt8} (hnext : NextIsNot isCommentStart text) : GapAt text (skip text)
  | comment {text r₁ r₂ : List UInt8} {c : UInt8} (hnext : skip text = c :: r₁)
      (hc : isCommentStart c = true) (hgap : GapAt (afterLine r₁) r₂) : GapAt text r₂

/-- The end of the text, `ELSE`, `END IF` or `END WHILE`. -/
inductive BlockEnd : List UInt8 → Prop
  | eof {text : List UInt8} (h : skip text = []) : BlockEnd text
  | else {text rest : List UInt8} (h : TokenAt text ELSE rest) : BlockEnd text
  | end {text r₁ r₂ token : List UInt8} (hend : TokenAt text END r₁) (h : TokenAt r₁ token r₂)
      (htoken : token = IF ∨ token = WHILE) : BlockEnd text

/-- Statements up to the end of a block. -/
inductive StmtsAt : List UInt8 → List Node → List UInt8 → Prop
  | done {text r₁ : List UInt8} (hgap : GapAt text r₁) (hend : BlockEnd r₁) : StmtsAt text [] r₁
  | print {text r₁ r₂ r₃ r₄ : List UInt8} {expr : Node} {nodes : List Node}
      (hgap : GapAt text r₁) (hkeyword : TokenAt r₁ PRINT r₂)
      (hexpr : ExprAt (.chain .terms) r₂ expr r₃) (hrest : StmtsAt r₃ nodes r₄) :
      StmtsAt text (.print expr :: nodes) r₄
  | let {text r₁ r₂ r₃ r₄ r₅ r₆ : List UInt8} {c : UInt8} {value : Node} {nodes : List Node}
      (hgap : GapAt text r₁) (hkeyword : TokenAt r₁ LET r₂) (hnext : skip r₂ = c :: r₃)
      (hvar : isVariableName c = true) (heq : skip r₃ = byte '=' :: r₄)
      (hvalue : ExprAt (.chain .terms) r₄ value r₅) (hrest : StmtsAt r₅ nodes r₆) :
      StmtsAt text (.let (char c) value :: nodes) r₆
  | if {text r₁ r₂ r₃ r₄ r₅ r₆ r₇ : List UInt8} {condition ifBranch : Node}
      {body nodes : List Node}
      (hgap : GapAt text r₁) (hkeyword : TokenAt r₁ IF r₂) (hcondition : CondAt r₂ condition r₃)
      (hbody : StmtsAt r₃ body r₄) (hbranch : collect body = some ifBranch)
      (hend : TokenAt r₄ END r₅) (hif : TokenAt r₅ IF r₆) (hrest : StmtsAt r₆ nodes r₇) :
      StmtsAt text (.if condition ifBranch none :: nodes) r₇
  | ifElse {text r₁ r₂ r₃ r₄ r₅ r₆ r₇ r₈ r₉ : List UInt8} {condition ifBranch elseBranch : Node}
      {body elseBody nodes : List Node}
      (hgap : GapAt text r₁) (hkeyword : TokenAt r₁ IF r₂) (hcondition : CondAt r₂ condition r₃)
      (hbody : StmtsAt r₃ body r₄) (hbranch : collect body = some ifBranch)
      (helse : TokenAt r₄ ELSE r₅) (helseBody : StmtsAt r₅ elseBody r₆)
      (helseBranch : collect elseBody = some elseBranch)
      (hend : TokenAt r₆ END r₇) (hif : TokenAt r₇ IF r₈) (hrest : StmtsAt r₈ nodes r₉) :
      StmtsAt text (.if condition ifBranch (some elseBranch) :: nodes) r₉
  | while {text r₁ r₂ r₃ r₄ r₅ r₆ r₇ : List UInt8} {condition bodyNode : Node}
      {body nodes : List Node}
      (hgap : GapAt text r₁) (hkeyword : TokenAt r₁ WHILE r₂)
      (hcondition : CondAt r₂ condition r₃) (hbody : StmtsAt r₃ body r₄)
      (hbranch : collect body = some bodyNode)
      (hend : TokenAt r₄ END r₅) (hwhile : TokenAt r₅ WHILE r₆) (hrest : StmtsAt r₆ nodes r₇) :
      StmtsAt text (.while condition bodyNode :: nodes) r₇

/-- The text is a program, and `ast` stands for its statements. -/
def ProgramAt (text : List UInt8) (ast : Node) : Prop :=
  ∃ nodes rest, StmtsAt text nodes rest ∧ skip rest = [] ∧ collect nodes = some ast

/-! ## Tokens -/

/-- White space does not end in white space. -/
theorem skip_cons_not_isSpace {text rest : List UInt8} {c : UInt8} (h : skip text = c :: rest) :
    isSpace c = false := by
  have hne : text.dropWhile isSpace ≠ [] := by
    intro hnil
    rw [skip, hnil] at h
    cases h
  have hhead := List.head_dropWhile_not isSpace hne
  have hc : (text.dropWhile isSpace).head hne = c := by
    have h : text.dropWhile isSpace = c :: rest := h
    simp only [h, List.head_cons]
  rw [← hc]
  exact hhead

/-- Once is enough. -/
@[simp] theorem skip_skip (text : List UInt8) : skip (skip text) = skip text := by
  cases hskip : skip text with
  | nil => rfl
  | cons c rest => simp [skip, skip_cons_not_isSpace hskip]

/-- A token without a NUL byte is the C string that it is read as. -/
theorem cString_eq_self {token : List UInt8} (h : 0 ∉ token) : cString token = token := by
  unfold cString
  rw [List.takeWhile_eq_self_iff]
  intro c hc
  simpa using fun hzero : c = 0 => h (hzero ▸ hc)

/-- What is behind a gap begins with no white space. -/
theorem GapAt.skip_eq {text rest : List UInt8} (h : GapAt text rest) : skip rest = rest := by
  induction h with
  | done _ => exact skip_skip _
  | comment _ _ _ ih => exact ih

/-- The name of a variable is not read as something else. -/
theorem isVariableName_apart {c : UInt8} (h : isVariableName c = true) :
    c ≠ 0 ∧ isOpenParen c = false := by
  constructor
  · rintro rfl
    exact absurd h (by decide)
  · by_contra hparen
    have hc : c = byte '(' := of_decide_eq_true (Bool.eq_true_of_not_eq_false hparen)
    rw [hc] at h
    exact absurd h (by decide)

/-- What stands behind blanks and comments is not in the class if its first character is not. -/
theorem nextIsNot_of_skip {text rest : List UInt8} {p : UInt8 → Bool} {c : UInt8}
    (hskip : skip text = c :: rest) (hne : c ≠ 0) (hp : p c = false) : NextIsNot p text := by
  intro d r h
  rw [hskip] at h
  cases h
  exact ⟨hne, hp⟩

/-- Only what is behind the white space counts. -/
theorem NextIsNot.congr {p : UInt8 → Bool} {text text' : List UInt8} (h : NextIsNot p text)
    (hskip : skip text = skip text') : NextIsNot p text' :=
  fun c rest hc => h c rest (hskip.trans hc)

/-- Blanks and comments in front of a token do not count. -/
theorem TokenAt.congr {text text' token rest : List UInt8} (h : TokenAt text token rest)
    (hskip : skip text = skip text') : TokenAt text' token rest := by
  obtain ⟨c, r, hc, hrest⟩ := h
  exact ⟨c, r, hskip.symm.trans hc, hrest⟩

/-- NUL is no operator. -/
theorem Level.isOp_ne_zero {l : Level} {op : UInt8} (h : l.isOp op = true) : op ≠ 0 := by
  rintro rfl
  cases l <;> exact absurd h (by decide)

/-! ## What has to be read -/

section Parses

variable {text rest : List UInt8} {p : UInt8 → Bool} {c : UInt8}

/-- A character that is wanted is read. -/
theorem tryAdvance_of_next (hskip : skip text = c :: rest) (hc : c ≠ 0) (hp : p c = true) :
    tryAdvance p ⟨text⟩ = (c, ⟨rest⟩) := by
  rcases tryAdvance_cases p ⟨text⟩ with ⟨h, -⟩ | ⟨r, h, -⟩ | ⟨d, r, h, -, -, ht⟩ |
    ⟨d, r, h, -, hd, -⟩
  · rw [hskip] at h
    cases h
  · rw [hskip] at h
    cases h
    exact absurd rfl hc
  · rw [hskip] at h
    cases h
    exact ht
  · rw [hskip] at h
    cases h
    rw [hp] at hd
    cases hd

/-- Another one is left, and the white space before it is not. -/
theorem tryAdvance_of_not (hnot : NextIsNot p text) : tryAdvance p ⟨text⟩ = (0, ⟨skip text⟩) := by
  rcases tryAdvance_cases p ⟨text⟩ with ⟨h, ht⟩ | ⟨r, h, -⟩ | ⟨d, r, h, -, hd, -⟩ |
    ⟨d, r, h, -, -, ht⟩
  · rw [ht, show skip text = [] from h]
  · exact absurd rfl (hnot _ _ h).1
  · rw [(hnot _ _ h).2] at hd
    cases hd
  · rw [ht, show skip text = d :: r from h]

/-- The parser reads the token that is there. -/
theorem advanceUntilSeparator_of_token {token : List UInt8} (h : TokenAt text token rest) :
    advanceUntilSeparator ⟨text⟩ = (some token, ⟨rest⟩) := by
  obtain ⟨c, r, hskip, rfl, rfl, hlen, hzero⟩ := h
  rcases advanceUntilSeparator_cases ⟨text⟩ with ⟨h, -⟩ | ⟨d, r', h, -, ht⟩ | ⟨d, r', h, hlong, -⟩
  · rw [hskip] at h
    cases h
  · rw [hskip] at h
    cases h
    rw [ht, cString_eq_self hzero]
  · rw [hskip] at h
    cases h
    simp only [List.length_cons] at hlen
    omega

/-- At the end of the text it reads none. -/
theorem advanceUntilSeparator_of_eof (h : skip text = []) :
    advanceUntilSeparator ⟨text⟩ = (none, ⟨[]⟩) := by
  rcases advanceUntilSeparator_cases ⟨text⟩ with ⟨-, ht⟩ | ⟨d, r, h', -⟩ | ⟨d, r, h', -⟩
  · exact ht
  · rw [h] at h'
    cases h'
  · rw [h] at h'
    cases h'

/-- The parser reads the character that is next. -/
theorem advance_of_next (hskip : skip text = c :: rest) : advance ⟨text⟩ = (c, ⟨rest⟩) := by
  simp [advance, hskip]

/-- White space and comments are passed over. -/
theorem GapAt.parses (h : GapAt text rest) : comments ⟨text⟩ = ((), ⟨rest⟩) := by
  induction h with
  | done hnot =>
      rw [comments_eq, tryAdvance_of_not hnot]
      rfl
  | comment hskip hc _ ih =>
      have hne : ∀ c : UInt8, isCommentStart c = true → c ≠ 0 := by
        rintro c hc rfl
        exact absurd hc (by decide)
      rw [comments_eq, tryAdvance_of_next hskip (hne _ hc) hc, if_neg (hne _ hc)]
      exact ih

end Parses

/-- **Expressions.** A phrase at the front of a text is read as such. -/
theorem ExprAt.run {phrase : Phrase} {text rest : List UInt8} {node : Node}
    (h : ExprAt phrase text node rest) : ExprRun phrase ⟨text⟩ node ⟨rest⟩ := by
  induction h with
  | paren hopen _ hclose ih =>
      exact .paren (tryAdvance_of_next hopen (by decide) (by decide)) (by decide) ih
        (tryAdvance_of_next hclose (by decide) (by decide)) (by decide)
  | var hskip hc =>
      obtain ⟨hne, hnot⟩ := isVariableName_apart hc
      have hvar := tryAdvance_of_next ((skip_skip _).trans hskip) hne hc
      exact .var (tryAdvance_of_not (nextIsNot_of_skip hskip hne hnot)) hvar hne
  | num hparen hvar htoken hvalue hrange =>
      have hvar' := tryAdvance_of_not (hvar.congr (skip_skip _).symm)
      have htoken' := advanceUntilSeparator_of_token
        ((htoken.congr (skip_skip _).symm).congr (skip_skip _).symm)
      exact .num (tryAdvance_of_not hparen) hvar' htoken' hvalue hrange
  | chain _ _ ihleft ihbehind => exact .chain ihleft ihbehind
  | done hnot => exact .done (tryAdvance_of_not hnot)
  | more hnext hop _ _ ihright ihbehind =>
      have hne := Level.isOp_ne_zero hop
      exact .more (tryAdvance_of_next hnext hne hop) hne ihright ihbehind

/-- A condition by the grammar is read as one. -/
theorem CondAt.run {text rest : List UInt8} {node : Node} (h : CondAt text node rest) :
    CondRun ⟨text⟩ node ⟨rest⟩ := by
  cases h with
  | @op _ _ _ _ _ op hleft hnext hop hright =>
      have hne : op ≠ 0 := by
        rintro rfl
        exact absurd hop (by decide)
      exact .mk hleft.run (tryAdvance_of_next hnext hne hop) hright.run
  | bare hleft hnext hright => exact .mk hleft.run (tryAdvance_of_not hnext) hright.run

/-- **Statements.** -/
theorem StmtsAt.run {text rest : List UInt8} {nodes : List Node} (h : StmtsAt text nodes rest) :
    StmtsRun ⟨text⟩ nodes ⟨rest⟩ := by
  induction h with
  | done hgap hend =>
      cases hend with
      | eof h =>
          have hnil := hgap.skip_eq.symm.trans h
          subst hnil
          exact .eof hgap.parses (advanceUntilSeparator_of_eof h)
      | «else» h => exact .else hgap.parses (advanceUntilSeparator_of_token h)
      | «end» hend h htoken =>
          exact .end hgap.parses (advanceUntilSeparator_of_token hend)
            (advanceUntilSeparator_of_token h) htoken
  | print hgap hkeyword hexpr _ ih =>
      exact .print hgap.parses (advanceUntilSeparator_of_token hkeyword) hexpr.run ih
  | «let» hgap hkeyword hnext hvar heq hvalue _ ih =>
      exact .let hgap.parses (advanceUntilSeparator_of_token hkeyword) (advance_of_next hnext) hvar
        (advance_of_next heq) hvalue.run ih
  | «if» hgap hkeyword hcondition _ hbranch hend hif _ ihbody ih =>
      exact .if hgap.parses (advanceUntilSeparator_of_token hkeyword) hcondition.run ihbody hbranch
        (advanceUntilSeparator_of_token hend) (advanceUntilSeparator_of_token hif) ih
  | ifElse hgap hkeyword hcondition _ hbranch helse _ hother hend hif _ ihbody ihelse ih =>
      exact .ifElse hgap.parses (advanceUntilSeparator_of_token hkeyword) hcondition.run ihbody
        hbranch (advanceUntilSeparator_of_token helse) ihelse hother
        (advanceUntilSeparator_of_token hend) (advanceUntilSeparator_of_token hif) ih
  | «while» hgap hkeyword hcondition _ hbranch hend hwhile _ ihbody ih =>
      exact .while hgap.parses (advanceUntilSeparator_of_token hkeyword) hcondition.run ihbody
        hbranch (advanceUntilSeparator_of_token hend) (advanceUntilSeparator_of_token hwhile) ih

/-- **Completeness.** A program is parsed. -/
theorem ProgramAt.parses {text : List UInt8} {ast : Node} (h : ProgramAt text ast) :
    parse text = some ast := by
  obtain ⟨nodes, rest, hstmts, hskip, hcollect⟩ := h
  have hsequence : sequence (start text) = (some ast, ⟨rest⟩) := hstmts.run.eval hcollect
  have hend : atEnd ⟨rest⟩ = (true, ⟨[]⟩) := by
    simp [atEnd, advance, hskip, bind_apply, pure_apply]
  rw [parse, parseFrom, bind_apply, hsequence, bind_apply, hend, if_pos rfl, pure_apply]

end Basic.Parser
