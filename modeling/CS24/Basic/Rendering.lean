import CS24.Basic.Grammar
import CS24.Basic.Numerals

/-!
# Writing programs

A program is written as its tokens, with white space behind each token and with comments
where a statement can begin.  Numbers are decimal; an operand has parentheses where its
operators would bind less, and may have more.  However it is written, the parser returns
the tree.
-/

namespace Basic

def Stmt.isSequence : Stmt → Bool
  | .sequence _ => true
  | _ => false

mutual

/-- A `SEQUENCE` has not exactly one statement, and no statement of it is one. -/
def Stmt.Normal : Stmt → Prop
  | .print _ | .let _ _ => True
  | .if _ ifBranch elseBranch => ifBranch.Normal ∧ Stmt.Normal? elseBranch
  | .while _ body => body.Normal
  | .sequence statements => statements.length ≠ 1 ∧ Stmt.NormalAll statements

def Stmt.Normal? : Option Stmt → Prop
  | none => True
  | some s => s.Normal

def Stmt.NormalAll : List Stmt → Prop
  | [] => True
  | s :: ss => s.isSequence = false ∧ s.Normal ∧ Stmt.NormalAll ss

end

/-- The statements of a program or a branch. -/
def Stmt.body : Stmt → List Stmt
  | .sequence statements => statements
  | s => [s]

/-- The level of an operator. -/
def ArithOp.level : ArithOp → Parser.Level
  | mul | div => .factors
  | add | sub => .terms

namespace Parser

/-- White space. -/
def Blank (s : List UInt8) : Prop := ∀ c ∈ s, isSpace c = true

/-- White space and comments before `text`; the last line may end with it. -/
inductive Gap : List UInt8 → List UInt8 → Prop
  | blank {s text : List UInt8} (hs : Blank s) : Gap s text
  | comment {s line gap text : List UInt8} (hs : Blank s) (hline : byte '\n' ∉ line)
      (hgap : Gap gap text) : Gap (s ++ byte '#' :: (line ++ byte '\n' :: gap)) text
  | last {s line : List UInt8} (hs : Blank s) (hline : byte '\n' ∉ line) :
      Gap (s ++ byte '#' :: line) []

/-- A token, or a place where a statement begins or ends. -/
inductive Item
  | token (token : List UInt8)
  | boundary

/-- The text has these tokens, and gaps at the boundaries. -/
inductive Spells : List Item → List UInt8 → Prop
  | nil : Spells [] []
  | token {token sep text : List UInt8} {items : List Item} (hsep : Blank sep)
      (hne : sep = [] → text = []) (h : Spells items text) :
      Spells (.token token :: items) (token ++ (sep ++ text))
  | boundary {gap text : List UInt8} {items : List Item} (hgap : Gap gap text)
      (h : Spells items text) : Spells (.boundary :: items) (gap ++ text)

/-! ## Reading what was written -/

/-- Blanks are skipped. -/
theorem skip_blank {s : List UInt8} (hs : Blank s) (text : List UInt8) :
    skip (s ++ text) = skip text := by
  unfold skip
  rw [List.dropWhile_append_of_pos hs]

/-- A character that is none is what comes next. -/
theorem skip_cons {c : UInt8} (hc : isSpace c = false) (text : List UInt8) :
    skip (c :: text) = c :: text := by
  simp [skip, hc]

/-- Behind a line there is what follows its newline, -/
theorem afterLine_append {line : List UInt8} (hline : byte '\n' ∉ line) (text : List UInt8) :
    afterLine (line ++ byte '\n' :: text) = text := by
  have hall : ∀ c ∈ line, decide (c ≠ byte '\n') = true := by
    intro c hc
    exact decide_eq_true fun h => hline (h ▸ hc)
  unfold afterLine
  rw [List.dropWhile_append_of_pos hall]
  simp

/-- and behind the last one nothing. -/
theorem afterLine_last {line : List UInt8} (hline : byte '\n' ∉ line) : afterLine line = [] := by
  have hall : ∀ c ∈ line, decide (c ≠ byte '\n') = true := by
    intro c hc
    exact decide_eq_true fun h => hline (h ▸ hc)
  unfold afterLine
  rw [List.dropWhile_eq_nil_iff.mpr hall]
  rfl

/-- White space in front of an expression does not count. -/
theorem ExprAt.congr {phrase : Phrase} {text text' rest : List UInt8} {node : Node}
    (h : ExprAt phrase text node rest) (hskip : skip text = skip text') :
    ExprAt phrase text' node rest := by
  induction h with
  | paren hopen hexpr hclose => exact .paren (hskip.symm.trans hopen) hexpr hclose
  | var hnext hc => exact .var (hskip.symm.trans hnext) hc
  | num hparen hvar htoken hvalue hrange =>
      exact .num (hparen.congr hskip) (hvar.congr hskip) (htoken.congr hskip) hvalue hrange
  | chain _ hbehind ihleft _ => exact .chain (ihleft hskip) hbehind
  | done hnext =>
      rw [hskip]
      exact .done (hnext.congr hskip)
  | more hnext hop hright hbehind => exact .more (hskip.symm.trans hnext) hop hright hbehind

/-- Nor does it in front of comments. -/
theorem GapAt.congr {text text' rest : List UInt8} (h : GapAt text rest)
    (hskip : skip text = skip text') : GapAt text' rest := by
  cases h with
  | done hnext =>
      rw [hskip]
      exact .done (hnext.congr hskip)
  | comment hnext hc hgap => exact .comment (hskip.symm.trans hnext) hc hgap

/-- Nor does it in front of a condition. -/
theorem CondAt.congr {text text' rest : List UInt8} {node : Node} (h : CondAt text node rest)
    (hskip : skip text = skip text') : CondAt text' node rest := by
  cases h with
  | op hleft hnext hop hright => exact .op (hleft.congr hskip) hnext hop hright
  | bare hleft hnext hright => exact .bare (hleft.congr hskip) hnext hright

/-- A gap ends where something else than a comment begins. -/
theorem Gap.gapAt {gap text : List UInt8} (h : Gap gap text)
    (hnext : NextIsNot isCommentStart text) : GapAt (gap ++ text) (skip text) := by
  have hhash : isSpace (byte '#') = false := by decide
  induction h with
  | blank hs =>
      rw [← skip_blank hs]
      exact .done (hnext.congr (skip_blank hs _).symm)
  | @comment s line gap text hs hline _ ih =>
      have hskip : skip (s ++ byte '#' :: (line ++ byte '\n' :: gap) ++ text) =
          byte '#' :: (line ++ byte '\n' :: (gap ++ text)) := by
        rw [List.append_assoc, skip_blank hs, List.cons_append, skip_cons hhash, List.append_assoc,
          List.cons_append]
      refine .comment hskip (by decide) ?_
      rw [afterLine_append hline]
      exact ih hnext
  | @last s line hs hline =>
      have hskip : skip (s ++ byte '#' :: line ++ []) = byte '#' :: line := by
        rw [List.append_nil, skip_blank hs, skip_cons hhash]
      refine .comment hskip (by decide) ?_
      rw [afterLine_last hline]
      exact .done hnext

/-- Neither what follows a gap nor a comment begins with such a character. -/
theorem Gap.nextIsNot {p : UInt8 → Bool} {gap text : List UInt8} (h : Gap gap text)
    (hp : p (byte '#') = false) (hnext : NextIsNot p text) : NextIsNot p (gap ++ text) := by
  have hhash : isSpace (byte '#') = false := by decide
  cases h with
  | blank hs => exact hnext.congr (skip_blank hs _).symm
  | comment hs hline _ =>
      rw [List.append_assoc, List.cons_append]
      exact nextIsNot_of_skip ((skip_blank hs _).trans (skip_cons hhash _)) (by decide) hp
  | last hs hline =>
      rw [List.append_nil]
      exact nextIsNot_of_skip ((skip_blank hs _).trans (skip_cons hhash _)) (by decide) hp

/-- The texts of these items begin with no such character. -/
def Apart (p : UInt8 → Bool) (items : List Item) : Prop := ∀ text, Spells items text → NextIsNot p text

/-- The end of the text is no character. -/
theorem apart_nil (p : UInt8 → Bool) : Apart p [] := by
  rintro _ ⟨⟩ c rest h
  cases h

/-- What begins with a token begins with the first character of that. -/
theorem apart_token {p : UInt8 → Bool} {c : UInt8} {token : List UInt8} {items : List Item}
    (hspace : isSpace c = false) (hne : c ≠ 0) (hp : p c = false) :
    Apart p (.token (c :: token) :: items) := by
  rintro _ ⟨⟩
  exact nextIsNot_of_skip (skip_cons hspace _) hne hp

/-- What begins with a boundary begins with a comment, or with what is behind it. -/
theorem apart_boundary {p : UInt8 → Bool} {items : List Item} (hp : p (byte '#') = false)
    (h : Apart p items) : Apart p (.boundary :: items) := by
  rintro _ (_ | _ | ⟨hgap, htext⟩)
  exact hgap.nextIsNot hp (h _ htext)

/-- A token of one character is the next one. -/
theorem Spells.next {c : UInt8} {items : List Item} {text : List UInt8}
    (h : Spells (.token [c] :: items) text) (hspace : isSpace c = false) :
    ∃ text' rest, Spells items text' ∧ skip rest = skip text' ∧ skip text = c :: rest := by
  cases h with
  | token hsep _ h => exact ⟨_, _, h, skip_blank hsep _, skip_cons hspace _⟩

/-- No operator is white space. -/
theorem isSpace_of_isOperator {c : UInt8} (h : isOperator c = true) : isSpace c = false := by
  simp only [isOperator, isOpenParen, isCloseParen, isFactorOp, isTermOp, isComparisonOp,
    Bool.or_eq_true, decide_eq_true_eq] at h
  rcases h with (((rfl | rfl) | rfl | rfl) | rfl | rfl) | rfl | rfl | rfl <;> decide

/-- A token in which no separator follows the first character is read as one. -/
theorem Spells.tokenAt {c : UInt8} {token text : List UInt8} {items : List Item}
    (h : Spells (.token (c :: token) :: items) text) (hspace : isSpace c = false)
    (hseparator : token.all (!isSeparator ·) = true) (hlen : token.length < MAX_KEYWORD_LENGTH)
    (hzero : 0 ∉ c :: token) :
    ∃ text' rest, Spells items text' ∧ skip rest = skip text' ∧
      TokenAt text (c :: token) rest := by
  cases h with
  | @token _ sep text _ hsep hne h =>
      have hall : ∀ d ∈ token, (!isSeparator d) = true := List.all_eq_true.mp hseparator
      have hword : word (token ++ (sep ++ text)) = token ++ word (sep ++ text) := by
        unfold word
        rw [List.takeWhile_append_of_pos hall]
      have hbehind : behindWord (token ++ (sep ++ text)) = behindWord (sep ++ text) := by
        unfold behindWord
        rw [List.dropWhile_append_of_pos hall]
      have hstop : word (sep ++ text) = [] ∧ skip (behindWord (sep ++ text)) = skip text := by
        cases sep with
        | nil =>
            rw [hne rfl]
            exact ⟨rfl, rfl⟩
        | cons d sep =>
            have hd : isSpace d = true := hsep d List.mem_cons_self
            have hblank : Blank sep := fun x hx => hsep x (List.mem_cons_of_mem _ hx)
            have hsepd : isSeparator d = true := by simp [isSeparator, hd]
            have hop : isOperator d = false := by
              by_contra hop
              rw [isSpace_of_isOperator (Bool.eq_true_of_not_eq_false hop)] at hd
              cases hd
            rw [List.cons_append, word_cons_of hsepd, behindWord_cons_of hsepd, hop]
            exact ⟨rfl, skip_blank hblank _⟩
      refine ⟨text, _, h, hstop.2, c, token ++ (sep ++ text), skip_cons hspace _, ?_, hbehind.symm,
        by simpa using hlen, hzero⟩
      rw [hword, hstop.1, List.append_nil]

/-! ## Expressions -/

/-- The tokens of an expression, with parentheses where they are needed or more. -/
inductive ExprItems : Phrase → Expr → List Item → Prop
  | num (value : Word) : ExprItems .factor (.num value) [.token (decimal value)]
  | var (x : VarName) : ExprItems .factor (.var x) [.token [byte x.char]]
  | paren {e : Expr} {items : List Item} (h : ExprItems (.chain .terms) e items) :
      ExprItems .factor e (.token [byte '('] :: (items ++ [.token [byte ')']]))
  | operand {l : Level} {e : Expr} {items : List Item} (h : ExprItems l.operand e items) :
      ExprItems (.chain l) e items
  | binary {op : ArithOp} {left right : Expr} {items items' : List Item}
      (hleft : ExprItems (.chain op.level) left items)
      (hright : ExprItems op.level.operand right items') :
      ExprItems (.chain op.level) (.binary op left right)
        (items ++ .token [byte op.char] :: items')

/-- The items before which a phrase ends. -/
def Phrase.EndsBefore : Phrase → List Item → Prop
  | factor, _ => True
  | chain .factors, items => Apart isFactorOp items
  | chain .terms, items => Apart isFactorOp items ∧ Apart isTermOp items
  | behind _ _, _ => False

/-- A phrase is read from its tokens. -/
def Phrase.ReadFrom (phrase : Phrase) (e : Expr) (items : List Item) : Prop :=
  ∀ more text, phrase.EndsBefore more → Spells (items ++ more) text →
    ∃ text' rest, Spells more text' ∧ skip rest = skip text' ∧ ExprAt phrase text e.toNode rest

/-- The operands and operators of a level are read from their tokens, and may be the left
operand of what follows. -/
def Level.ReadFrom (l : Level) (e : Expr) (items : List Item) : Prop :=
  ∀ more text, l.operand.EndsBefore more → Spells (items ++ more) text →
    ∃ text' rest, Spells more text' ∧ skip rest = skip text' ∧
      ∀ node r, ExprAt (.behind l e.toNode) rest node r → ExprAt (.chain l) text node r

/-- The byte of a variable is read as that variable. -/
theorem byte_variable (x : VarName) : isVariableName (byte x.char) = true ∧
    char (byte x.char) = x.char ∧ isSpace (byte x.char) = false := by
  fin_cases x <;> decide

/-- The byte of an operator is read as that operator, at its level. -/
theorem byte_arith (op : ArithOp) : op.level.isOp (byte op.char) = true ∧
    char (byte op.char) = op.char ∧ isSpace (byte op.char) = false ∧ byte op.char ≠ 0 := by
  cases op <;> decide

/-- Operands and operators of a level are a phrase where no operator of that level follows. -/
theorem Level.ReadFrom.phrase {l : Level} {e : Expr} {items : List Item}
    (h : l.ReadFrom e items) : (Phrase.chain l).ReadFrom e items := by
  intro more text hends hspells
  have hends' : l.operand.EndsBefore more ∧ Apart l.isOp more := by
    cases l with
    | factors => exact ⟨trivial, hends⟩
    | terms => exact hends
  obtain ⟨text', rest, hmore, hskip, hread⟩ := h more text hends'.1 hspells
  have hnot := (hends'.2 text' hmore).congr hskip.symm
  exact ⟨text', skip rest, hmore, by rw [skip_skip, hskip], hread _ _ (.done hnot)⟩

/-- A number is read from its digits: they are one token, and `strtol` gives the value back. -/
theorem num_readFrom (value : Word) :
    Phrase.factor.ReadFrom (.num value) [.token (decimal value)] := by
  intro more text _ hspells
  obtain ⟨c, token, hdecimal, hc, hdigits⟩ := decimal_eq value
  have hlen := length_decimal_le value
  rw [hdecimal] at hspells hlen
  have hfirst : isSpace c = false ∧ isOpenParen c = false ∧ isVariableName c = false ∧ c ≠ 0 := by
    rcases hc with rfl | ⟨d, hd, rfl⟩
    · decide
    · interval_cases d <;> decide
  obtain ⟨hspace, hparen, hvar, hne⟩ := hfirst
  have hseparator : ∀ d ∈ token, isSeparator d = false ∧ d ≠ 0 := by
    intro x hx
    obtain ⟨d, hd, rfl⟩ := hdigits x hx
    interval_cases d <;> decide
  have hzero : 0 ∉ c :: token := by
    intro h
    rcases List.mem_cons.mp h with h | h
    · exact hne h.symm
    · exact (hseparator 0 h).2 rfl
  have hshort : token.length < MAX_KEYWORD_LENGTH := by
    rw [List.length_cons] at hlen
    have : MAX_KEYWORD_LENGTH = 100 := rfl
    omega
  have hall : token.all (!isSeparator ·) = true := by
    rw [List.all_eq_true]
    intro d hd
    rw [(hseparator d hd).1]
    rfl
  obtain ⟨text', rest, hmore, hskip, htoken⟩ := hspells.tokenAt hspace hall hshort hzero
  obtain ⟨c', r, hnext, heq, -⟩ := id htoken
  obtain ⟨rfl, -⟩ := List.cons.inj heq
  have hvalue := strtol_decimal value
  rw [hdecimal] at hvalue
  refine ⟨text', rest, hmore, hskip, ?_⟩
  have hnum := ExprAt.num (nextIsNot_of_skip hnext hne hparen) (nextIsNot_of_skip hnext hne hvar)
    htoken hvalue (inRange_toInt value)
  rwa [BitVec.ofInt_toInt] at hnum

/-- What is proved of the tokens of a phrase. -/
def Phrase.Readable : Phrase → Expr → List Item → Prop
  | chain l => l.ReadFrom
  | phrase => phrase.ReadFrom

/-- What is proved of a phrase gives what is read from its tokens. -/
theorem Phrase.Readable.readFrom {phrase : Phrase} {e : Expr} {items : List Item}
    (h : phrase.Readable e items) : phrase.ReadFrom e items := by
  cases phrase with
  | chain l => exact Level.ReadFrom.phrase h
  | factor | behind => exact h

/-- **An expression is read from its tokens.** -/
theorem ExprItems.readable {phrase : Phrase} {e : Expr} {items : List Item}
    (h : ExprItems phrase e items) : phrase.Readable e items := by
  induction h with
  | num value => exact num_readFrom value
  | var x =>
      intro more text _ hspells
      obtain ⟨hvar, hchar, hspace⟩ := byte_variable x
      obtain ⟨text', rest, hmore, hskip, hnext⟩ := hspells.next hspace
      refine ⟨text', rest, hmore, hskip, ?_⟩
      rw [Expr.toNode, ← hchar]
      exact .var hnext hvar
  | paren _ ih =>
      intro more text _ hspells
      have hclose : (Phrase.chain .terms).EndsBefore (.token [byte ')'] :: more) :=
        ⟨apart_token (by decide) (by decide) (by decide),
          apart_token (by decide) (by decide) (by decide)⟩
      rw [List.cons_append, List.append_assoc] at hspells
      obtain ⟨text₁, r₁, hspells, hskip₁, hopen⟩ := hspells.next (by decide)
      obtain ⟨text₂, r₂, hspells, hskip₂, hexpr⟩ := ih.readFrom _ _ hclose hspells
      obtain ⟨text₃, r₃, hspells, hskip₃, hnext⟩ := hspells.next (by decide)
      exact ⟨text₃, r₃, hspells, hskip₃,
        .paren hopen (hexpr.congr hskip₁.symm) (hskip₂.trans hnext)⟩
  | @operand l e items _ ih =>
      intro more text hends hspells
      obtain ⟨text', rest, hmore, hskip, hexpr⟩ := ih.readFrom more text hends hspells
      exact ⟨text', rest, hmore, hskip, fun node r h => .chain hexpr h⟩
  | @binary op left right items items' _ _ ihleft ihright =>
      obtain ⟨hop, hchar, hspace, hne⟩ := byte_arith op
      intro more text hends hspells
      have hends' : op.level.operand.EndsBefore (.token [byte op.char] :: (items' ++ more)) := by
        cases op with
        | mul | div => trivial
        | add | sub => exact apart_token (by decide) (by decide) (by decide)
      rw [List.append_assoc, List.cons_append] at hspells
      obtain ⟨text₁, r₁, hspells, hskip₁, hleft⟩ := ihleft _ _ hends' hspells
      obtain ⟨text₂, r₂, hspells, hskip₂, hnext⟩ := hspells.next hspace
      obtain ⟨text₃, r₃, hspells, hskip₃, hright⟩ := ihright.readFrom _ _ hends hspells
      refine ⟨text₃, r₃, hspells, hskip₃, fun node r h => hleft node r ?_⟩
      rw [Expr.toNode, ← hchar] at h
      exact .more (hskip₁.trans hnext) hop (hright.congr hskip₂.symm) h

/-! ## Statements -/

/-- The tokens of a condition. -/
inductive CondItems : Cond → List Item → Prop
  | mk {c : Cond} {items items' : List Item} (hleft : ExprItems (.chain .terms) c.left items)
      (hright : ExprItems (.chain .terms) c.right items') :
      CondItems c (items ++ .token [byte c.op.char] :: items')

/-- The tokens and boundaries of statements. -/
inductive StmtsItems : List Stmt → List Item → Prop
  | nil : StmtsItems [] [.boundary]
  | print {e : Expr} {ss : List Stmt} {expr rest : List Item}
      (hexpr : ExprItems (.chain .terms) e expr) (hrest : StmtsItems ss rest) :
      StmtsItems (.print e :: ss) (.boundary :: .token PRINT :: (expr ++ rest))
  | let {x : VarName} {e : Expr} {ss : List Stmt} {expr rest : List Item}
      (hexpr : ExprItems (.chain .terms) e expr) (hrest : StmtsItems ss rest) :
      StmtsItems (.let x e :: ss)
        (.boundary :: .token LET :: .token [byte x.char] :: .token [byte '='] :: (expr ++ rest))
  | if {c : Cond} {i : Stmt} {ss : List Stmt} {cond body rest : List Item}
      (hcond : CondItems c cond) (hbody : StmtsItems i.body body) (hrest : StmtsItems ss rest) :
      StmtsItems (.if c i none :: ss)
        (.boundary :: .token IF :: (cond ++ (body ++ .token END :: .token IF :: rest)))
  | ifElse {c : Cond} {i e : Stmt} {ss : List Stmt} {cond body elseBody rest : List Item}
      (hcond : CondItems c cond) (hbody : StmtsItems i.body body)
      (helse : StmtsItems e.body elseBody) (hrest : StmtsItems ss rest) :
      StmtsItems (.if c i (some e) :: ss) (.boundary :: .token IF :: (cond ++ (body ++
        .token ELSE :: (elseBody ++ .token END :: .token IF :: rest))))
  | while {c : Cond} {b : Stmt} {ss : List Stmt} {cond body rest : List Item}
      (hcond : CondItems c cond) (hbody : StmtsItems b.body body) (hrest : StmtsItems ss rest) :
      StmtsItems (.while c b :: ss)
        (.boundary :: .token WHILE :: (cond ++ (body ++ .token END :: .token WHILE :: rest)))

/-- The text is the program, written in some way. -/
def Renders (stmt : Stmt) (text : List UInt8) : Prop :=
  ∃ items, StmtsItems stmt.body items ∧ Spells items text

/-- The byte of a comparison is read as that comparison, and ends the operand before it. -/
theorem byte_comp (op : CompOp) : isComparisonOp (byte op.char) = true ∧
    char (byte op.char) = op.char ∧ isSpace (byte op.char) = false ∧ byte op.char ≠ 0 ∧
      isFactorOp (byte op.char) = false ∧ isTermOp (byte op.char) = false := by
  cases op <;> decide

/-- A keyword is read as one token. -/
theorem Spells.keyword {token text : List UInt8} {items : List Item}
    (h : Spells (.token token :: items) text)
    (htoken : token ∈ [PRINT, LET, IF, ELSE, WHILE, END]) :
    ∃ text' rest, Spells items text' ∧ skip rest = skip text' ∧ TokenAt text token rest := by
  simp only [List.mem_cons, List.not_mem_nil, or_false] at htoken
  rcases htoken with rfl | rfl | rfl | rfl | rfl | rfl <;>
    exact h.tokenAt (by decide) (by decide) (by decide) (by decide)

/-- The first character behind the boundary is none of these if the keywords begin with none. -/
theorem StmtsItems.apart {p : UInt8 → Bool} {ss : List Stmt} {items more : List Item}
    (h : StmtsItems ss items) (hhash : p (byte '#') = false)
    (hp : (bytes ['P', 'L', 'I', 'W']).all (!p ·) = true) (hmore : Apart p more) :
    Apart p (items ++ more) := by
  have hp : ∀ c ∈ bytes ['P', 'L', 'I', 'W'], p c = false := by
    intro c hc
    simpa using List.all_eq_true.mp hp c hc
  cases h with
  | nil => exact apart_boundary hhash hmore
  | print => exact apart_boundary hhash (apart_token (by decide) (by decide) (hp _ (by decide)))
  | «let» => exact apart_boundary hhash (apart_token (by decide) (by decide) (hp _ (by decide)))
  | «if» => exact apart_boundary hhash (apart_token (by decide) (by decide) (hp _ (by decide)))
  | ifElse => exact apart_boundary hhash (apart_token (by decide) (by decide) (hp _ (by decide)))
  | «while» => exact apart_boundary hhash (apart_token (by decide) (by decide) (hp _ (by decide)))

/-- The items end a block. -/
structure Closes (more : List Item) : Prop where
  blockEnd : ∀ text, Spells more text → BlockEnd text
  apart : ∀ p : UInt8 → Bool, p (byte 'E') = false → Apart p more

/-- The end of the text ends a block. -/
theorem closes_nil : Closes [] where
  blockEnd := by
    rintro _ ⟨⟩
    exact .eof rfl
  apart p _ := apart_nil p

/-- So does `ELSE`. -/
theorem closes_else (items : List Item) : Closes (.token ELSE :: items) where
  blockEnd := by
    intro text h
    obtain ⟨text', rest, -, -, htoken⟩ := h.keyword (by decide)
    exact .else htoken
  apart p hp := apart_token (by decide) (by decide) hp

/-- So does `END` with the keyword of the statement. -/
theorem closes_end {kind : List UInt8} (hkind : kind = IF ∨ kind = WHILE) (items : List Item) :
    Closes (.token END :: .token kind :: items) where
  blockEnd := by
    intro text h
    obtain ⟨text', rest, h, hskip, hend⟩ := h.keyword (by decide)
    have hmem : kind ∈ [PRINT, LET, IF, ELSE, WHILE, END] := by
      rcases hkind with rfl | rfl <;> decide
    obtain ⟨text'', rest', -, -, htoken⟩ := h.keyword hmem
    exact .end hend (htoken.congr hskip.symm) hkind
  apart p hp := apart_token (by decide) (by decide) hp

/-- White space in front of the end of a block does not count. -/
theorem BlockEnd.congr {text text' : List UInt8} (h : BlockEnd text) (hskip : skip text = skip text') :
    BlockEnd text' := by
  cases h with
  | eof h => exact .eof (hskip.symm.trans h)
  | «else» h => exact .else (h.congr hskip)
  | «end» hend h hkind => exact .end (hend.congr hskip) h hkind

/-- An expression ends before the boundary behind it. -/
theorem StmtsItems.endsBefore {ss : List Stmt} {items more : List Item} (h : StmtsItems ss items)
    (hmore : Closes more) : (Phrase.chain .terms).EndsBefore (items ++ more) :=
  ⟨h.apart (by decide) (by decide) (hmore.apart _ (by decide)),
    h.apart (by decide) (by decide) (hmore.apart _ (by decide))⟩

/-- A condition is read from its tokens. -/
theorem CondItems.readFrom {c : Cond} {items more : List Item} {text : List UInt8}
    (h : CondItems c items) (hmore : (Phrase.chain .terms).EndsBefore more)
    (hspells : Spells (items ++ more) text) :
    ∃ text' rest, Spells more text' ∧ skip rest = skip text' ∧ CondAt text c.toNode rest := by
  obtain ⟨hleft, hright⟩ := h
  obtain ⟨hop, hchar, hspace, hne, hfactor, hterm⟩ := byte_comp c.op
  rw [List.append_assoc, List.cons_append] at hspells
  obtain ⟨text₁, r₁, hspells, hskip₁, hleft⟩ := hleft.readable.readFrom _ _
    ⟨apart_token hspace hne hfactor, apart_token hspace hne hterm⟩ hspells
  obtain ⟨text₂, r₂, hspells, hskip₂, hnext⟩ := hspells.next hspace
  obtain ⟨text₃, r₃, hspells, hskip₃, hright⟩ := hright.readable.readFrom _ _ hmore hspells
  refine ⟨text₃, r₃, hspells, hskip₃, ?_⟩
  rw [Cond.toNode, ← hchar]
  exact .op hleft (hskip₁.trans hnext) hop (hright.congr hskip₂.symm)

/-- The gap at a boundary ends at the keyword behind it. -/
theorem Spells.gap {items : List Item} {text : List UInt8} (h : Spells (.boundary :: items) text)
    (happ : Apart isCommentStart items) :
    ∃ text', Spells items text' ∧ GapAt text (skip text') := by
  cases h with
  | boundary hgap h => exact ⟨_, h, hgap.gapAt (happ _ h)⟩

/-- The gap at a boundary, and the keyword behind it. -/
theorem Spells.statement {token text : List UInt8} {items : List Item}
    (h : Spells (.boundary :: .token token :: items) text)
    (htoken : token ∈ [PRINT, LET, IF, WHILE]) :
    ∃ text' r₁ r₂, Spells items text' ∧ skip r₂ = skip text' ∧ GapAt text r₁ ∧
      TokenAt r₁ token r₂ := by
  have happ : Apart isCommentStart (.token token :: items) := by
    simp only [List.mem_cons, List.not_mem_nil, or_false] at htoken
    rcases htoken with rfl | rfl | rfl | rfl <;>
      exact apart_token (by decide) (by decide) (by decide)
  have hmem : token ∈ [PRINT, LET, IF, ELSE, WHILE, END] := by
    simp only [List.mem_cons, List.not_mem_nil, or_false] at htoken ⊢
    tauto
  obtain ⟨text₁, h, hgap⟩ := h.gap happ
  obtain ⟨text₂, r₂, h, hskip, htoken⟩ := h.keyword hmem
  exact ⟨text₂, _, r₂, h, hskip, hgap, htoken.congr (skip_skip _).symm⟩

/-- The node for the statements of a body is that of the body. -/
theorem collect_body {s : Stmt} (h : s.Normal) : collect (Stmt.toNodes s.body) = some s.toNode := by
  cases s with
  | sequence ss =>
      match ss, h with
      | [], _ => rfl
      | [_], h => exact absurd rfl h.1
      | _ :: _ :: _, _ => rfl
  | print | «let» | «if» | «while» => rfl

/-- The statements of a body in normal form are in normal form. -/
theorem normalAll_body {s : Stmt} (h : s.Normal) : Stmt.NormalAll s.body := by
  cases s with
  | sequence ss => exact h.2
  | print | «let» | «if» | «while» => exact ⟨rfl, h, trivial⟩

/-- What is proved of the items of some statements. -/
def ReadFrom (ss : List Stmt) (items : List Item) : Prop :=
  ∀ more text, Closes more → Spells (items ++ more) text →
    ∃ text' rest, Spells more text' ∧ skip rest = skip text' ∧
      StmtsAt text (Stmt.toNodes ss) rest

/-- White space in front of statements does not count. -/
theorem StmtsAt.congr {text text' rest : List UInt8} {nodes : List Node}
    (h : StmtsAt text nodes rest) (hskip : skip text = skip text') : StmtsAt text' nodes rest := by
  cases h with
  | done hgap hend => exact .done (hgap.congr hskip) hend
  | print hgap hkeyword hexpr hrest => exact .print (hgap.congr hskip) hkeyword hexpr hrest
  | «let» hgap hkeyword hnext hvar heq hvalue hrest =>
      exact .let (hgap.congr hskip) hkeyword hnext hvar heq hvalue hrest
  | «if» hgap hkeyword hcondition hbody hbranch hend hif hrest =>
      exact .if (hgap.congr hskip) hkeyword hcondition hbody hbranch hend hif hrest
  | ifElse hgap hkeyword hcondition hbody hbranch helse helseBody hother hend hif hrest =>
      exact .ifElse (hgap.congr hskip) hkeyword hcondition hbody hbranch helse helseBody hother
        hend hif hrest
  | «while» hgap hkeyword hcondition hbody hbranch hend hwhile hrest =>
      exact .while (hgap.congr hskip) hkeyword hcondition hbody hbranch hend hwhile hrest

/-- `END` and the keyword of the statement are read as two tokens. -/
theorem Spells.ending {kind text : List UInt8} {items : List Item}
    (h : Spells (.token END :: .token kind :: items) text) (hkind : kind = IF ∨ kind = WHILE) :
    ∃ text' r₁ r₂, Spells items text' ∧ skip r₂ = skip text' ∧ TokenAt text END r₁ ∧
      TokenAt r₁ kind r₂ := by
  have hmem : kind ∈ [PRINT, LET, IF, ELSE, WHILE, END] := by
    rcases hkind with rfl | rfl <;> decide
  obtain ⟨text₁, r₁, h, hskip₁, hend⟩ := h.keyword (by decide)
  obtain ⟨text₂, r₂, h, hskip₂, htoken⟩ := h.keyword hmem
  exact ⟨text₂, r₁, r₂, h, hskip₂, hend, htoken.congr hskip₁.symm⟩

/-- **Statements are read from their items.** -/
theorem StmtsItems.readFrom {ss : List Stmt} {items : List Item} (h : StmtsItems ss items)
    (hnormal : Stmt.NormalAll ss) : ReadFrom ss items := by
  induction h with
  | nil =>
      intro more text hmore hspells
      obtain ⟨text', h, hgap⟩ := Spells.gap hspells (hmore.apart _ (by decide))
      exact ⟨text', skip text', h, skip_skip _,
        .done hgap ((hmore.blockEnd _ h).congr (skip_skip _).symm)⟩
  | print hexpr hrest ih =>
      intro more text hmore hspells
      rw [List.cons_append, List.cons_append, List.append_assoc] at hspells
      obtain ⟨text₁, r₁, r₂, hspells, hskip₂, hgap, hkeyword⟩ := hspells.statement (by decide)
      obtain ⟨text₃, r₃, hspells, hskip₃, hexpr⟩ :=
        hexpr.readable.readFrom _ _ (hrest.endsBefore hmore) hspells
      obtain ⟨text₄, r₄, hspells, hskip₄, hrest⟩ := ih hnormal.2.2 _ _ hmore hspells
      exact ⟨text₄, r₄, hspells, hskip₄,
        .print hgap hkeyword (hexpr.congr hskip₂.symm) (hrest.congr hskip₃.symm)⟩
  | @«let» x e ss expr rest hexpr hrest ih =>
      intro more text hmore hspells
      obtain ⟨hvar, hchar, hspace⟩ := byte_variable x
      simp only [List.cons_append, List.append_assoc] at hspells
      obtain ⟨text₁, r₁, r₂, hspells, hskip₂, hgap, hkeyword⟩ := hspells.statement (by decide)
      obtain ⟨text₃, r₃, hspells, hskip₃, hnext⟩ := hspells.next hspace
      obtain ⟨text₄, r₄, hspells, hskip₄, heq⟩ := hspells.next (by decide)
      obtain ⟨text₅, r₅, hspells, hskip₅, hexpr⟩ :=
        hexpr.readable.readFrom _ _ (hrest.endsBefore hmore) hspells
      obtain ⟨text₆, r₆, hspells, hskip₆, hrest⟩ := ih hnormal.2.2 _ _ hmore hspells
      refine ⟨text₆, r₆, hspells, hskip₆, ?_⟩
      rw [Stmt.toNodes, Stmt.toNode, ← hchar]
      exact .let hgap hkeyword (hskip₂.trans hnext) hvar (hskip₃.trans heq)
        (hexpr.congr hskip₄.symm) (hrest.congr hskip₅.symm)
  | «if» hcond hbody hrest ihbody ihrest =>
      intro more text hmore hspells
      obtain ⟨-, ⟨hi, -⟩, hss⟩ := hnormal
      simp only [List.cons_append, List.append_assoc] at hspells
      have hclose : ∀ items, Closes (.token END :: .token IF :: items) := closes_end (.inl rfl)
      obtain ⟨text₁, r₁, r₂, hspells, hskip₂, hgap, hkeyword⟩ := hspells.statement (by decide)
      obtain ⟨text₃, r₃, hspells, hskip₃, hcond⟩ := hcond.readFrom (hbody.endsBefore (hclose _)) hspells
      obtain ⟨text₄, r₄, hspells, hskip₄, hbody⟩ := ihbody (normalAll_body hi) _ _ (hclose _) hspells
      obtain ⟨text₅, r₅, r₆, hspells, hskip₆, hend, hif⟩ := hspells.ending (.inl rfl)
      obtain ⟨text₇, r₇, hspells, hskip₇, hrest⟩ := ihrest hss _ _ hmore hspells
      exact ⟨text₇, r₇, hspells, hskip₇, .if hgap hkeyword (hcond.congr hskip₂.symm)
        (hbody.congr hskip₃.symm) (collect_body hi) (hend.congr hskip₄.symm) hif
        (hrest.congr hskip₆.symm)⟩
  | ifElse hcond hbody helse hrest ihbody ihelse ihrest =>
      intro more text hmore hspells
      obtain ⟨-, ⟨hi, he⟩, hss⟩ := hnormal
      simp only [List.cons_append, List.append_assoc] at hspells
      have hclose : ∀ items, Closes (.token END :: .token IF :: items) := closes_end (.inl rfl)
      obtain ⟨text₁, r₁, r₂, hspells, hskip₂, hgap, hkeyword⟩ := hspells.statement (by decide)
      obtain ⟨text₃, r₃, hspells, hskip₃, hcond⟩ :=
        hcond.readFrom (hbody.endsBefore (closes_else _)) hspells
      obtain ⟨text₄, r₄, hspells, hskip₄, hbody⟩ := ihbody (normalAll_body hi) _ _ (closes_else _) hspells
      obtain ⟨text₅, r₅, hspells, hskip₅, htoken⟩ := hspells.keyword (by decide)
      obtain ⟨text₆, r₆, hspells, hskip₆, helse⟩ := ihelse (normalAll_body he) _ _ (hclose _) hspells
      obtain ⟨text₇, r₇, r₈, hspells, hskip₈, hend, hif⟩ := hspells.ending (.inl rfl)
      obtain ⟨text₉, r₉, hspells, hskip₉, hrest⟩ := ihrest hss _ _ hmore hspells
      exact ⟨text₉, r₉, hspells, hskip₉, .ifElse hgap hkeyword (hcond.congr hskip₂.symm)
        (hbody.congr hskip₃.symm) (collect_body hi) (htoken.congr hskip₄.symm)
        (helse.congr hskip₅.symm) (collect_body he) (hend.congr hskip₆.symm) hif
        (hrest.congr hskip₈.symm)⟩
  | «while» hcond hbody hrest ihbody ihrest =>
      intro more text hmore hspells
      obtain ⟨-, hb, hss⟩ := hnormal
      simp only [List.cons_append, List.append_assoc] at hspells
      have hclose : ∀ items, Closes (.token END :: .token WHILE :: items) :=
        closes_end (.inr rfl)
      obtain ⟨text₁, r₁, r₂, hspells, hskip₂, hgap, hkeyword⟩ := hspells.statement (by decide)
      obtain ⟨text₃, r₃, hspells, hskip₃, hcond⟩ := hcond.readFrom (hbody.endsBefore (hclose _)) hspells
      obtain ⟨text₄, r₄, hspells, hskip₄, hbody⟩ := ihbody (normalAll_body hb) _ _ (hclose _) hspells
      obtain ⟨text₅, r₅, r₆, hspells, hskip₆, hend, hwhile⟩ := hspells.ending (.inr rfl)
      obtain ⟨text₇, r₇, hspells, hskip₇, hrest⟩ := ihrest hss _ _ hmore hspells
      exact ⟨text₇, r₇, hspells, hskip₇, .while hgap hkeyword (hcond.congr hskip₂.symm)
        (hbody.congr hskip₃.symm) (collect_body hb) (hend.congr hskip₄.symm) hwhile
        (hrest.congr hskip₆.symm)⟩

/-- A program is at the front of each of its texts. -/
theorem Renders.programAt {stmt : Stmt} {text : List UInt8} (h : Renders stmt text)
    (hnormal : stmt.Normal) : ProgramAt text stmt.toNode := by
  obtain ⟨items, hitems, hspells⟩ := h
  rw [← List.append_nil items] at hspells
  obtain ⟨text', rest, hnil, hskip, hstmts⟩ :=
    hitems.readFrom (normalAll_body hnormal) [] text closes_nil hspells
  cases hnil
  exact ⟨_, rest, hstmts, hskip, collect_body hnormal⟩

/-- **Programs are parsed.** However a program in normal form is written, the parser returns
its tree. -/
theorem parse_renders {stmt : Stmt} {text : List UInt8} (hnormal : stmt.Normal)
    (h : Renders stmt text) : parse text = some stmt.toNode :=
  (h.programAt hnormal).parses

/-- A blank. -/
theorem blank_space : Blank [byte ' '] := by
  simp only [Blank, List.mem_singleton, forall_eq]
  decide

/-- A token with a blank behind it. -/
theorem spells_space {token text : List UInt8} {items : List Item} (h : Spells items text) :
    Spells (.token token :: items) (token ++ ([byte ' '] ++ text)) :=
  .token blank_space (fun hnil => absurd hnil (List.cons_ne_nil _ _)) h

/-- `PRINT (A + 1) * B` -/
def product : Stmt := .print (.binary .mul (.binary .add (.var 0) (.num 1)) (.var 1))

/-- A text of the product, with a comment, blanks and parentheses. -/
theorem product_renders : Renders product (bytes "#x\nPRINT ( A + 1 ) * B ".toList) := by
  have hone : decimal 1 = [byte '1'] := by
    have hnat : (BitVec.toInt (1 : Word)).natAbs = 1 := by decide
    rw [decimal, if_neg (by decide), hnat]
    unfold numeral
    rfl
  have hvar : ExprItems (.chain .factors) (.var 0) _ := .operand (.var 0)
  have hleft : ExprItems (.chain .terms) (.var 0) _ := .operand hvar
  have hright : ExprItems (.chain .factors) (.num 1) _ := .operand (.num 1)
  have hsum := @ExprItems.binary .add _ _ _ _ hleft hright
  have hparen : ExprItems (.chain .factors) (.binary .add (.var 0) (.num 1)) _ :=
    .operand (.paren hsum)
  have hproduct : ExprItems (.chain .terms) _ _ :=
    .operand (@ExprItems.binary .mul _ _ _ _ hparen (.var 1))
  have hitems : StmtsItems product.body _ := .print hproduct .nil
  rw [hone] at hitems
  refine ⟨_, hitems, ?_⟩
  have hline : byte '\n' ∉ [byte 'x'] := by decide
  have hnil : Blank [] := fun _ h => by cases h
  have hgap : ∀ text, Gap (byte '#' :: byte 'x' :: byte '\n' :: []) text :=
    fun text => .comment hnil hline (.blank hnil)
  have hend : Spells [.boundary] [] := .boundary (.blank hnil) .nil
  exact .boundary (hgap _) (spells_space (spells_space (spells_space (spells_space (spells_space
    (spells_space (spells_space (spells_space hend))))))))

/-- It is read as the product. -/
theorem parse_renders_product :
    parse (bytes "#x\nPRINT ( A + 1 ) * B ".toList) = some product.toNode :=
  parse_renders trivial product_renders

end Parser

end Basic
