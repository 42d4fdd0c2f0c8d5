import CS24.Basic.Grammar

/-!
# Syntax errors that are swallowed

A text for which the parser returns a tree need not be a program.  `NULL` stands for an
absent `ELSE` branch and for one that is malformed, for the end of the text and for a word
that is too long, and the NUL byte for the end of the text and of a word.  So a malformed
`ELSE` branch, a word of more than 100 characters in the place of a statement and a NUL
byte pass.  Nothing else does: where a text is without these, the tree is that of a
program and the text is that program.
-/

namespace Basic.Parser

/-! ## Comments -/

/-- The bytes of a text outside its comments, which go from a `#` to the end of the line;
the flag says whether the text begins inside one. -/
def outside : Bool → List UInt8 → List UInt8
  | _, [] => []
  | true, c :: rest => outside (c ≠ byte '\n') rest
  | false, c :: rest => if isCommentStart c then outside true rest else c :: outside false rest

/-- There is no NUL byte outside the comments. -/
def NulFree (text : List UInt8) : Prop := 0 ∉ outside false text

instance (text : List UInt8) : Decidable (NulFree text) := by unfold NulFree; infer_instance

section Comments

variable {text rest r₁ r₂ : List UInt8} {c : UInt8}

/-- A comment ends where `skip_line` does. -/
theorem outside_true (rest : List UInt8) : outside true rest = outside false (afterLine rest) := by
  induction rest with
  | nil => rfl
  | cons c rest ih =>
      by_cases hc : c = byte '\n'
      · simp [outside, afterLine, hc]
      · have hstep : afterLine (c :: rest) = afterLine rest := by simp [afterLine, hc]
        rw [hstep, ← ih]
        simp [outside, hc]

/-- No comment begins in these characters. -/
theorem outside_append {pre : List UInt8} (h : ∀ c ∈ pre, isCommentStart c = false)
    (rest : List UInt8) : outside false (pre ++ rest) = pre ++ outside false rest := by
  induction pre with
  | nil => rfl
  | cons c pre ih =>
      rw [List.forall_mem_cons] at h
      rw [List.cons_append, outside, if_neg (by simp [h.1]), ih h.2]
      rfl

/-- The characters in front of the first comment are looked at one by one. -/
theorem nulFree_append {pre : List UInt8} (h : ∀ c ∈ pre, isCommentStart c = false) :
    NulFree (pre ++ rest) ↔ 0 ∉ pre ∧ NulFree rest := by
  rw [NulFree, outside_append h, List.mem_append, not_or]
  rfl

/-- The case of one character. -/
theorem nulFree_cons (h : isCommentStart c = false) :
    NulFree (c :: rest) ↔ c ≠ 0 ∧ NulFree rest := by
  have hpre : ∀ d ∈ [c], isCommentStart d = false := by simpa using h
  have happend : NulFree ([c] ++ rest) ↔ 0 ∉ [c] ∧ NulFree rest := nulFree_append hpre
  rw [List.mem_singleton] at happend
  exact happend.trans (and_congr_left fun _ => not_congr eq_comm)

/-- A comment is left out. -/
theorem nulFree_comment (h : isCommentStart c = true) :
    NulFree (c :: rest) ↔ NulFree (afterLine rest) := by
  rw [NulFree, outside, if_pos h, outside_true]
  rfl

/-- White space is neither NUL nor the begin of a comment. -/
theorem isSpace_apart (h : isSpace c = true) : c ≠ 0 ∧ isCommentStart c = false := by
  constructor
  · rintro rfl
    exact absurd h (by decide)
  · by_contra hcomment
    rw [of_decide_eq_true (Bool.eq_true_of_not_eq_false hcomment)] at h
    exact absurd h (by decide)

/-- White space is neither. -/
theorem nulFree_skip (text : List UInt8) : NulFree (skip text) ↔ NulFree text := by
  have hspace : ∀ c ∈ text.takeWhile isSpace, c ≠ 0 ∧ isCommentStart c = false :=
    fun c hc => isSpace_apart (List.mem_takeWhile_imp hc)
  have hparts : text = text.takeWhile isSpace ++ skip text :=
    (List.takeWhile_append_dropWhile ..).symm
  have hzero : 0 ∉ text.takeWhile isSpace := fun h => (hspace 0 h).1 rfl
  conv_rhs => rw [hparts, nulFree_append fun c hc => (hspace c hc).2]
  exact (and_iff_right hzero).symm

/-- Nor is an operator. -/
theorem isOperator_apart (h : isOperator c = true) : c ≠ 0 ∧ isCommentStart c = false := by
  constructor
  · rintro rfl
    exact absurd h (by decide)
  · by_contra hcomment
    rw [of_decide_eq_true (Bool.eq_true_of_not_eq_false hcomment)] at h
    exact absurd h (by decide)

/-- The white space behind a word counts as little. -/
theorem nulFree_behindWord (rest : List UInt8) :
    NulFree (behindWord rest) ↔ NulFree (rest.dropWhile (!isSeparator ·)) := by
  unfold behindWord
  cases hdrop : rest.dropWhile (!isSeparator ·) with
  | nil => rfl
  | cons c behind =>
      dsimp only
      split
      · rfl
      · rename_i hop
        have hsep : isSeparator c = true := by
          have hhead := List.head_dropWhile_not (!isSeparator ·) (l := rest) (by rw [hdrop]; simp)
          simpa [hdrop] using hhead
        have hspace : isSpace c = true := by simpa [isSeparator, hop] using hsep
        obtain ⟨hne, hcomment⟩ := isSpace_apart hspace
        rw [nulFree_cons hcomment]
        exact (and_iff_right hne).symm

/-- A word in which no comment begins. -/
theorem nulFree_word (h : ∀ d ∈ c :: word rest, isCommentStart d = false) :
    NulFree (c :: rest) ↔ 0 ∉ c :: word rest ∧ NulFree (behindWord rest) := by
  have hparts : c :: rest = (c :: word rest) ++ rest.dropWhile (!isSeparator ·) := by
    rw [List.cons_append, word, List.takeWhile_append_dropWhile]
  conv_lhs => rw [hparts]
  rw [nulFree_append h, nulFree_behindWord]

/-! No comment begins in a number. -/

/-- There is no `#` in the text. -/
def HashFree (text : List UInt8) : Prop := ∀ c ∈ text, isCommentStart c = false

instance (text : List UInt8) : Decidable (HashFree text) := by unfold HashFree; infer_instance

/-- The first character, and the others. -/
theorem hashFree_cons : HashFree (c :: rest) ↔ isCommentStart c = false ∧ HashFree rest :=
  List.forall_mem_cons

/-- A `#` is no digit. -/
theorem digitValue_hash (base : Nat) (h : isCommentStart c = true) : digitValue base c = none := by
  rw [of_decide_eq_true h]
  rfl

/-- By induction on the digits. -/
theorem hashFree_of_readDigits {base value v : Nat} (h : readDigits base value text = (v, [])) :
    HashFree text := by
  induction text generalizing value with
  | nil => exact fun c hc => absurd hc List.not_mem_nil
  | cons c rest ih =>
      rw [readDigits] at h
      cases hdigit : digitValue base c with
      | none =>
          rw [hdigit] at h
          cases h
      | some digit =>
          rw [hdigit] at h
          refine hashFree_cons.mpr ⟨?_, ih h⟩
          by_contra hhash
          rw [digitValue_hash base (Bool.eq_true_of_not_eq_false hhash)] at hdigit
          cases hdigit

/-- Nor is it part of what tells the base, -/
theorem hashFree_of_detectBase (h : HashFree (detectBase text).2) : HashFree text := by
  unfold detectBase at h
  split at h
  · split_ifs at h with hprefix
    · obtain ⟨rfl, hx, -⟩ := hprefix
      refine hashFree_cons.mpr ⟨by decide, hashFree_cons.mpr ⟨?_, h⟩⟩
      rcases hx with rfl | rfl <;> decide
    all_goals exact h
  · split_ifs at h
    all_goals exact h
  · exact h

/-- of a sign, -/
theorem hashFree_of_detectSign (h : HashFree (detectSign text).2) : HashFree text := by
  unfold detectSign at h
  split at h
  · split_ifs at h with hminus hplus
    · exact hashFree_cons.mpr ⟨by rw [hminus]; decide, h⟩
    · exact hashFree_cons.mpr ⟨by rw [hplus]; decide, h⟩
    · exact h
  · exact h

/-- or of white space. -/
theorem hashFree_of_skip (h : HashFree (skip text)) : HashFree text := by
  intro c hc
  rw [← List.takeWhile_append_dropWhile (p := isSpace) (l := text), List.mem_append] at hc
  rcases hc with hc | hc
  · exact (isSpace_apart (List.mem_takeWhile_imp hc)).2
  · exact h c hc

/-- So what `strtol` reads to its end has none. -/
theorem hashFree_of_strtol {v : Int} (h : strtol text = (v, [])) : HashFree text := by
  unfold strtol at h
  dsimp only at h
  split at h
  · obtain ⟨-, rfl⟩ := Prod.mk.inj h
    exact fun c hc => absurd hc List.not_mem_nil
  · have hdigits := hashFree_of_readDigits (Prod.ext rfl (Prod.mk.inj h).2)
    exact hashFree_of_skip (hashFree_of_detectSign (hashFree_of_detectBase hdigits))

end Comments

/-! ## Phrases -/

section Phrases

variable {text rest token r₁ : List UInt8} {p : UInt8 → Bool} {c : UInt8} {node : Node}

/-- Tokens have no NUL byte. -/
theorem TokenAt.nulFree_iff (h : TokenAt text token rest) (hhash : HashFree token) :
    NulFree text ↔ NulFree rest := by
  obtain ⟨c, r, hskip, rfl, rfl, -, hzero⟩ := h
  rw [← nulFree_skip, hskip, nulFree_word hhash]
  exact and_iff_right hzero

/-- The next character and the white space in front of it. -/
theorem nulFree_of_next (hskip : skip text = c :: rest) (hc : c ≠ 0)
    (hhash : isCommentStart c = false) : NulFree text ↔ NulFree rest := by
  rw [← nulFree_skip, hskip, nulFree_cons hhash]
  exact and_iff_right hc

/-- The operators of both levels are operators. -/
theorem Level.isOperator {l : Level} (h : l.isOp c = true) : Parser.isOperator c = true := by
  cases l with
  | factors => simp [Parser.isOperator, show isFactorOp c = true from h]
  | terms => simp [Parser.isOperator, show isTermOp c = true from h]

/-- No variable begins a comment. -/
theorem isVariableName_hash (h : isVariableName c = true) : isCommentStart c = false := by
  by_contra hcomment
  rw [of_decide_eq_true (Bool.eq_true_of_not_eq_false hcomment)] at h
  exact absurd h (by decide)

/-- The bytes of an expression are not NUL. -/
theorem ExprAt.nulFree_iff {phrase : Phrase} (h : ExprAt phrase text node rest) :
    NulFree text ↔ NulFree rest := by
  induction h with
  | paren hopen _ hclose ih =>
      rw [nulFree_of_next hopen (by decide) (by decide), ih,
        nulFree_of_next hclose (by decide) (by decide)]
  | var hnext hc => exact nulFree_of_next hnext (isVariableName_apart hc).1 (isVariableName_hash hc)
  | num _ _ htoken hvalue _ => exact htoken.nulFree_iff (hashFree_of_strtol hvalue)
  | chain _ _ ihleft ihbehind => exact ihleft.trans ihbehind
  | done _ => exact (nulFree_skip _).symm
  | more hnext hop _ _ ihright ihbehind =>
      obtain ⟨hne, hhash⟩ := isOperator_apart (Level.isOperator hop)
      rw [nulFree_of_next hnext hne hhash, ihright, ihbehind]

/-- Nor are the bytes of a condition. -/
theorem CondAt.nulFree_iff (h : CondAt text node rest) : NulFree text ↔ NulFree rest := by
  cases h with
  | @op _ _ _ _ _ op hleft hnext hop hright =>
      have hoperator : isOperator op = true := by simp [isOperator, hop]
      obtain ⟨hne, hhash⟩ := isOperator_apart hoperator
      rw [hleft.nulFree_iff, nulFree_of_next hnext hne hhash, hright.nulFree_iff]
  | bare hleft _ hright => rw [hleft.nulFree_iff, ← hright.nulFree_iff, nulFree_skip]

/-- Comments and white space have no NUL bytes that count. -/
theorem GapAt.nulFree_iff (h : GapAt text rest) : NulFree text ↔ NulFree rest := by
  induction h with
  | done _ => exact (nulFree_skip _).symm
  | comment hnext hc _ ih => rw [← nulFree_skip, hnext, nulFree_comment hc, ih]

/-- No keyword has a `#`. -/
theorem hashFree_keywords : HashFree PRINT ∧ HashFree LET ∧ HashFree IF ∧ HashFree ELSE ∧
    HashFree WHILE ∧ HashFree END := by decide +kernel

/-- **Statements have no NUL byte** outside their comments. -/
theorem StmtsAt.nulFree_iff {nodes : List Node} (h : StmtsAt text nodes rest) :
    NulFree text ↔ NulFree rest := by
  obtain ⟨hPRINT, hLET, hIF, hELSE, hWHILE, hEND⟩ := hashFree_keywords
  induction h with
  | done hgap _ => exact hgap.nulFree_iff
  | print hgap hkeyword hexpr _ ih =>
      rw [hgap.nulFree_iff, hkeyword.nulFree_iff hPRINT, hexpr.nulFree_iff, ih]
  | «let» hgap hkeyword hnext hvar heq hvalue _ ih =>
      rw [hgap.nulFree_iff, hkeyword.nulFree_iff hLET,
        nulFree_of_next hnext (isVariableName_apart hvar).1 (isVariableName_hash hvar),
        nulFree_of_next heq (by decide) (by decide), hvalue.nulFree_iff, ih]
  | «if» hgap hkeyword hcondition _ _ hend hif _ ihbody ih =>
      rw [hgap.nulFree_iff, hkeyword.nulFree_iff hIF, hcondition.nulFree_iff, ihbody,
        hend.nulFree_iff hEND, hif.nulFree_iff hIF, ih]
  | ifElse hgap hkeyword hcondition _ _ helse _ _ hend hif _ ihbody ihelse ih =>
      rw [hgap.nulFree_iff, hkeyword.nulFree_iff hIF, hcondition.nulFree_iff, ihbody,
        helse.nulFree_iff hELSE, ihelse, hend.nulFree_iff hEND,
        hif.nulFree_iff hIF, ih]
  | «while» hgap hkeyword hcondition _ _ hend hwhile _ ihbody ih =>
      rw [hgap.nulFree_iff, hkeyword.nulFree_iff hWHILE, hcondition.nulFree_iff, ihbody,
        hend.nulFree_iff hEND, hwhile.nulFree_iff hWHILE, ih]

end Phrases

/-! ## The places where an error passes -/

/-- A statement, behind the gap before it. -/
inductive StmtAt : List UInt8 → Node → List UInt8 → Prop
  | print {text r₁ r₂ : List UInt8} {expr : Node} (hkeyword : TokenAt text PRINT r₁)
      (hexpr : ExprAt (.chain .terms) r₁ expr r₂) : StmtAt text (.print expr) r₂
  | let {text r₁ r₂ r₃ r₄ : List UInt8} {c : UInt8} {value : Node}
      (hkeyword : TokenAt text LET r₁) (hnext : skip r₁ = c :: r₂)
      (hvar : isVariableName c = true) (heq : skip r₂ = byte '=' :: r₃)
      (hvalue : ExprAt (.chain .terms) r₃ value r₄) : StmtAt text (.let (char c) value) r₄
  | if {text r₁ r₂ r₃ r₄ r₅ : List UInt8} {condition ifBranch : Node} {body : List Node}
      (hkeyword : TokenAt text IF r₁) (hcondition : CondAt r₁ condition r₂)
      (hbody : StmtsAt r₂ body r₃) (hbranch : collect body = some ifBranch)
      (hend : TokenAt r₃ END r₄) (hif : TokenAt r₄ IF r₅) :
      StmtAt text (.if condition ifBranch none) r₅
  | ifElse {text r₁ r₂ r₃ r₄ r₅ r₆ r₇ : List UInt8} {condition ifBranch elseBranch : Node}
      {body elseBody : List Node} (hkeyword : TokenAt text IF r₁)
      (hcondition : CondAt r₁ condition r₂) (hbody : StmtsAt r₂ body r₃)
      (hbranch : collect body = some ifBranch) (helse : TokenAt r₃ ELSE r₄)
      (helseBody : StmtsAt r₄ elseBody r₅) (helseBranch : collect elseBody = some elseBranch)
      (hend : TokenAt r₅ END r₆) (hif : TokenAt r₆ IF r₇) :
      StmtAt text (.if condition ifBranch (some elseBranch)) r₇
  | while {text r₁ r₂ r₃ r₄ r₅ : List UInt8} {condition bodyNode : Node} {body : List Node}
      (hkeyword : TokenAt text WHILE r₁) (hcondition : CondAt r₁ condition r₂)
      (hbody : StmtsAt r₂ body r₃) (hbranch : collect body = some bodyNode)
      (hend : TokenAt r₃ END r₄) (hwhile : TokenAt r₄ WHILE r₅) :
      StmtAt text (.while condition bodyNode) r₅

/-- Statements are one after the other, each behind a gap. -/
theorem stmtsAt_cons {text rest : List UInt8} {node : Node} {nodes : List Node} :
    StmtsAt text (node :: nodes) rest ↔
      ∃ r₁ r₂, GapAt text r₁ ∧ StmtAt r₁ node r₂ ∧ StmtsAt r₂ nodes rest := by
  constructor
  · intro h
    cases h with
    | print hgap hkeyword hexpr hrest => exact ⟨_, _, hgap, .print hkeyword hexpr, hrest⟩
    | «let» hgap hkeyword hnext hvar heq hvalue hrest =>
        exact ⟨_, _, hgap, .let hkeyword hnext hvar heq hvalue, hrest⟩
    | «if» hgap hkeyword hcondition hbody hbranch hend hif hrest =>
        exact ⟨_, _, hgap, .if hkeyword hcondition hbody hbranch hend hif, hrest⟩
    | ifElse hgap hkeyword hcondition hbody hbranch helse helseBody helseBranch hend hif hrest =>
        exact ⟨_, _, hgap, .ifElse hkeyword hcondition hbody hbranch helse helseBody helseBranch
          hend hif, hrest⟩
    | «while» hgap hkeyword hcondition hbody hbranch hend hwhile hrest =>
        exact ⟨_, _, hgap, .while hkeyword hcondition hbody hbranch hend hwhile, hrest⟩
  · rintro ⟨r₁, r₂, hgap, hstmt, hrest⟩
    cases hstmt with
    | print hkeyword hexpr => exact .print hgap hkeyword hexpr hrest
    | «let» hkeyword hnext hvar heq hvalue => exact .let hgap hkeyword hnext hvar heq hvalue hrest
    | «if» hkeyword hcondition hbody hbranch hend hif =>
        exact .if hgap hkeyword hcondition hbody hbranch hend hif hrest
    | ifElse hkeyword hcondition hbody hbranch helse helseBody helseBranch hend hif =>
        exact .ifElse hgap hkeyword hcondition hbody hbranch helse helseBody helseBranch hend hif
          hrest
    | «while» hkeyword hcondition hbody hbranch hend hwhile =>
        exact .while hgap hkeyword hcondition hbody hbranch hend hwhile hrest

/-- In the block at `text` a statement or the end of a block has its place at `place`: behind
the statements before it, or inside the branches and bodies of one. -/
inductive Place : List UInt8 → List UInt8 → Prop
  | here {text place : List UInt8} (hgap : GapAt text place) : Place text place
  | behind {text r₁ r₂ place : List UInt8} {node : Node} (hgap : GapAt text r₁)
      (hstmt : StmtAt r₁ node r₂) (h : Place r₂ place) : Place text place
  | ifBranch {text r₁ r₂ r₃ place : List UInt8} {condition : Node} (hgap : GapAt text r₁)
      (hkeyword : TokenAt r₁ IF r₂) (hcondition : CondAt r₂ condition r₃) (h : Place r₃ place) :
      Place text place
  | elseBranch {text r₁ r₂ r₃ r₄ r₅ place : List UInt8} {condition : Node} {body : List Node}
      (hgap : GapAt text r₁) (hkeyword : TokenAt r₁ IF r₂) (hcondition : CondAt r₂ condition r₃)
      (hbody : StmtsAt r₃ body r₄) (helse : TokenAt r₄ ELSE r₅) (h : Place r₅ place) :
      Place text place
  | body {text r₁ r₂ r₃ place : List UInt8} {condition : Node} (hgap : GapAt text r₁)
      (hkeyword : TokenAt r₁ WHILE r₂) (hcondition : CondAt r₂ condition r₃) (h : Place r₃ place) :
      Place text place

/-- A word of more than 100 characters. -/
def LongWord (text : List UInt8) : Prop :=
  ∃ c rest, skip text = c :: rest ∧ MAX_KEYWORD_LENGTH ≤ (word rest).length

/-- The `IF` at this place has an `ELSE`, and `branch` is what follows it. -/
def ElseAt (place branch : List UInt8) : Prop :=
  ∃ r₁ r₂ r₃ condition body, TokenAt place IF r₁ ∧ CondAt r₁ condition r₂ ∧
    StmtsAt r₂ body r₃ ∧ TokenAt r₃ ELSE branch

/-- The text has none of the errors that pass. -/
structure Legible (text : List UInt8) : Prop where
  nulFree : NulFree text
  /-- no word in the place of a statement is too long -/
  words : ∀ place, Place text place → ¬LongWord place
  /-- each `ELSE` is before statements -/
  elses : ∀ place branch, Place text place → ElseAt place branch →
    ∃ nodes rest, StmtsAt branch nodes rest

/-! ## Programs are legible -/

section Unique

variable {text rest rest' token token' r₁ r₂ r₃ r₄ r₅ place : List UInt8} {node node' : Node}
  {nodes body : List Node}

/-- The gap at the front of a text is one. -/
theorem GapAt.unique (h : GapAt text rest) (h' : GapAt text rest') : rest = rest' :=
  congrArg State.rest (Prod.mk.inj (h.parses.symm.trans h'.parses)).2

/-- The word at the front is one. -/
theorem TokenAt.unique (h : TokenAt text token rest) (h' : TokenAt text token' rest') :
    token = token' ∧ rest = rest' := by
  have hread := (advanceUntilSeparator_of_token h).symm.trans (advanceUntilSeparator_of_token h')
  obtain ⟨htoken, hrest⟩ := Prod.mk.inj hread
  exact ⟨Option.some.inj htoken, congrArg State.rest hrest⟩

/-- A condition ends at one place. -/
theorem CondAt.unique (h : CondAt text node rest) (h' : CondAt text node' rest') : rest = rest' :=
  congrArg State.rest (Prod.mk.inj (h.run.eval.symm.trans h'.run.eval)).2

/-- So do statements. -/
theorem StmtsAt.unique {nodes' : List Node} (h : StmtsAt text nodes rest)
    (h' : StmtsAt text nodes' rest') : rest = rest' :=
  congrArg State.rest (h.run.unique h'.run).2

/-- A statement is read by `statement`. -/
theorem StmtAt.statement_eq {s : State} (h : StmtAt text node rest)
    (hgap : comments s = ((), ⟨text⟩)) : statement sequence s = ((some node, false), ⟨rest⟩) := by
  cases h with
  | print hkeyword hexpr =>
      exact statement_print hgap (advanceUntilSeparator_of_token hkeyword) hexpr.run
  | «let» hkeyword hnext hvar heq hvalue =>
      exact statement_let hgap (advanceUntilSeparator_of_token hkeyword) (advance_of_next hnext)
        hvar (advance_of_next heq) hvalue.run
  | «if» hkeyword hcondition hbody hbranch hend hif =>
      exact statement_if hgap (advanceUntilSeparator_of_token hkeyword) hcondition.run
        (hbody.run.eval hbranch) (advanceUntilSeparator_of_token hend)
        (advanceUntilSeparator_of_token hif)
  | ifElse hkeyword hcondition hbody hbranch helse helseBody helseBranch hend hif =>
      exact statement_ifElse hgap (advanceUntilSeparator_of_token hkeyword) hcondition.run
        (hbody.run.eval hbranch) (advanceUntilSeparator_of_token helse)
        (helseBody.run.eval helseBranch) (advanceUntilSeparator_of_token hend)
        (advanceUntilSeparator_of_token hif)
  | «while» hkeyword hcondition hbody hbranch hend hwhile =>
      exact statement_while hgap (advanceUntilSeparator_of_token hkeyword) hcondition.run
        (hbody.run.eval hbranch) (advanceUntilSeparator_of_token hend)
        (advanceUntilSeparator_of_token hwhile)

/-- The gap before a place is passed over once. -/
theorem GapAt.again (h : GapAt text rest) : GapAt rest rest := by
  induction h with
  | @done text hnext =>
      have hgap : GapAt (skip text) (skip (skip text)) := .done (hnext.congr (skip_skip text).symm)
      rwa [skip_skip] at hgap
  | comment _ _ _ ih => exact ih

/-- So does one statement. -/
theorem StmtAt.unique (h : StmtAt text node rest) (h' : StmtAt text node' rest')
    (hgap : GapAt text text) : rest = rest' := by
  have hread := (h.statement_eq hgap.parses).symm.trans (h'.statement_eq hgap.parses)
  exact congrArg State.rest (Prod.mk.inj hread).2

/-- A statement begins with one of four keywords. -/
theorem StmtAt.keyword (h : StmtAt text node rest) :
    ∃ token r, TokenAt text token r ∧ (token = PRINT ∨ token = LET ∨ token = IF ∨ token = WHILE) := by
  cases h with
  | print hkeyword _ => exact ⟨_, _, hkeyword, .inl rfl⟩
  | «let» hkeyword _ _ _ _ => exact ⟨_, _, hkeyword, .inr (.inl rfl)⟩
  | «if» hkeyword _ _ _ _ _ => exact ⟨_, _, hkeyword, .inr (.inr (.inl rfl))⟩
  | ifElse hkeyword _ _ _ _ _ _ _ _ => exact ⟨_, _, hkeyword, .inr (.inr (.inl rfl))⟩
  | «while» hkeyword _ _ _ _ _ => exact ⟨_, _, hkeyword, .inr (.inr (.inr rfl))⟩

/-- None of them ends a block. -/
theorem BlockEnd.not_token (h : BlockEnd text) (htoken : TokenAt text token rest) :
    ¬(token = PRINT ∨ token = LET ∨ token = IF ∨ token = WHILE) := by
  cases h with
  | eof hskip =>
      obtain ⟨c, r, hc, -⟩ := htoken
      rw [hskip] at hc
      cases hc
  | «else» helse =>
      rw [(htoken.unique helse).1]
      decide
  | «end» hend _ _ =>
      rw [(htoken.unique hend).1]
      decide

/-- Behind a gap a block ends or a statement begins. -/
theorem StmtsAt.cases_head (h : StmtsAt text nodes rest) (hgap : GapAt text r₁) :
    (BlockEnd r₁ ∧ nodes = []) ∨
      ∃ node nodes' r₂, nodes = node :: nodes' ∧ StmtAt r₁ node r₂ ∧ StmtsAt r₂ nodes' rest := by
  cases nodes with
  | nil =>
      cases h with
      | done hgap' hend =>
          rw [hgap.unique hgap']
          exact .inl ⟨hend, rfl⟩
  | cons node nodes =>
      obtain ⟨r, r₂, hgap', hstmt, hrest⟩ := stmtsAt_cons.mp h
      rw [hgap'.unique hgap] at hstmt
      exact .inr ⟨node, nodes, r₂, rfl, hstmt, hrest⟩

/-- With a keyword there it is a statement that begins. -/
theorem StmtsAt.stmtAt (h : StmtsAt text nodes rest) (hgap : GapAt text r₁)
    (hkeyword : TokenAt r₁ token r₂)
    (htoken : token = PRINT ∨ token = LET ∨ token = IF ∨ token = WHILE) :
    ∃ node nodes' r, nodes = node :: nodes' ∧ StmtAt r₁ node r ∧ StmtsAt r nodes' rest := by
  rcases h.cases_head hgap with ⟨hend, -⟩ | hstmt
  · exact absurd htoken (hend.not_token hkeyword)
  · exact hstmt

/-- The branches of an `IF`. -/
theorem StmtAt.branches (h : StmtAt r₁ node rest) (hkeyword : TokenAt r₁ IF r₂)
    (hcondition : CondAt r₂ node' r₃) :
    (∃ body r₄, StmtsAt r₃ body r₄) ∧
      ∀ body r₄ r₅, StmtsAt r₃ body r₄ → TokenAt r₄ ELSE r₅ →
        ∃ elseBody r₆, StmtsAt r₅ elseBody r₆ := by
  cases h with
  | print hprint _ => exact absurd (hprint.unique hkeyword).1 (by decide)
  | «let» hlet _ _ _ _ => exact absurd (hlet.unique hkeyword).1 (by decide)
  | «if» hif hcondition' hbody _ hend _ =>
      rw [(hif.unique hkeyword).2] at hcondition'
      rw [hcondition'.unique hcondition] at hbody
      refine ⟨⟨_, _, hbody⟩, fun body r₄ r₅ hbody' helse => ?_⟩
      rw [hbody.unique hbody'] at hend
      exact absurd (hend.unique helse).1 (by decide)
  | ifElse hif hcondition' hbody _ helse helseBody _ _ _ =>
      rw [(hif.unique hkeyword).2] at hcondition'
      rw [hcondition'.unique hcondition] at hbody
      refine ⟨⟨_, _, hbody⟩, fun body r₄ r₅ hbody' helse' => ?_⟩
      rw [hbody.unique hbody'] at helse
      rw [(helse.unique helse').2] at helseBody
      exact ⟨_, _, helseBody⟩
  | «while» hwhile _ _ _ _ _ => exact absurd (hwhile.unique hkeyword).1 (by decide)

/-- The body of a `WHILE`. -/
theorem StmtAt.whileBody (h : StmtAt r₁ node rest) (hkeyword : TokenAt r₁ WHILE r₂)
    (hcondition : CondAt r₂ node' r₃) : ∃ body r₄, StmtsAt r₃ body r₄ := by
  cases h with
  | print hprint _ => exact absurd (hprint.unique hkeyword).1 (by decide)
  | «let» hlet _ _ _ _ => exact absurd (hlet.unique hkeyword).1 (by decide)
  | «if» hif _ _ _ _ _ => exact absurd (hif.unique hkeyword).1 (by decide)
  | ifElse hif _ _ _ _ _ _ _ _ => exact absurd (hif.unique hkeyword).1 (by decide)
  | «while» hwhile hcondition' hbody _ _ _ =>
      rw [(hwhile.unique hkeyword).2] at hcondition'
      rw [hcondition'.unique hcondition] at hbody
      exact ⟨_, _, hbody⟩

/-- **The places of a block** are before statements.  By induction on the place. -/
theorem Place.stmtsAt (h : Place text place) (hstmts : StmtsAt text nodes rest) :
    GapAt place place ∧ ∃ nodes' rest', StmtsAt place nodes' rest' := by
  induction h generalizing nodes rest with
  | here hgap =>
      refine ⟨hgap.again, ?_⟩
      rcases hstmts.cases_head hgap with ⟨hend, -⟩ | ⟨node, nodes', r₂, -, hstmt, hrest⟩
      · exact ⟨_, _, .done hgap.again hend⟩
      · exact ⟨_, _, stmtsAt_cons.mpr ⟨_, _, hgap.again, hstmt, hrest⟩⟩
  | behind hgap hstmt _ ih =>
      obtain ⟨token, r, hkeyword, htoken⟩ := hstmt.keyword
      obtain ⟨node', nodes', r₂, -, hstmt', hrest⟩ := hstmts.stmtAt hgap hkeyword htoken
      rw [hstmt'.unique hstmt hgap.again] at hrest
      exact ih hrest
  | ifBranch hgap hkeyword hcondition _ ih =>
      obtain ⟨_, _, _, -, hstmt, -⟩ := hstmts.stmtAt hgap hkeyword (.inr (.inr (.inl rfl)))
      obtain ⟨⟨body, r₄, hbody⟩, -⟩ := hstmt.branches hkeyword hcondition
      exact ih hbody
  | elseBranch hgap hkeyword hcondition hbody helse _ ih =>
      obtain ⟨_, _, _, -, hstmt, -⟩ := hstmts.stmtAt hgap hkeyword (.inr (.inr (.inl rfl)))
      obtain ⟨elseBody, r₆, helseBody⟩ := (hstmt.branches hkeyword hcondition).2 _ _ _ hbody helse
      exact ih helseBody
  | body hgap hkeyword hcondition _ ih =>
      obtain ⟨_, _, _, -, hstmt, -⟩ := hstmts.stmtAt hgap hkeyword (.inr (.inr (.inr rfl)))
      obtain ⟨body, r₄, hbody⟩ := hstmt.whileBody hkeyword hcondition
      exact ih hbody

/-- A token is no word that is too long. -/
theorem TokenAt.not_longWord (h : TokenAt text token rest) : ¬LongWord text := by
  rintro ⟨c, r, hskip, hlong⟩
  obtain ⟨d, r', hskip', rfl, -, hlen, -⟩ := h
  rw [hskip] at hskip'
  cases hskip'
  rw [List.length_cons] at hlen
  omega

/-- Statements begin with words that are not too long. -/
theorem StmtsAt.not_longWord (h : StmtsAt text nodes rest) (hgap : GapAt text text) :
    ¬LongWord text := by
  rcases h.cases_head hgap with ⟨hend, -⟩ | ⟨node, nodes', r₂, -, hstmt, -⟩
  · cases hend with
    | eof hskip =>
        rintro ⟨c, r, hc, -⟩
        rw [hskip] at hc
        cases hc
    | «else» htoken => exact htoken.not_longWord
    | «end» htoken _ _ => exact htoken.not_longWord
  · obtain ⟨token, r, htoken, -⟩ := hstmt.keyword
    exact htoken.not_longWord

/-- **Programs are legible.** -/
theorem ProgramAt.legible (h : ProgramAt text node) : Legible text := by
  obtain ⟨nodes, rest, hstmts, hskip, -⟩ := h
  refine ⟨?_, fun place hplace => ?_, fun place branch hplace => ?_⟩
  · rw [hstmts.nulFree_iff, ← nulFree_skip, hskip]
    exact List.not_mem_nil
  · obtain ⟨hgap, nodes', rest', hstmts'⟩ := hplace.stmtsAt hstmts
    exact hstmts'.not_longWord hgap
  · rintro ⟨r₁, r₂, r₃, condition, body, hkeyword, hcondition, hbody, helse⟩
    obtain ⟨hgap, nodes', rest', hstmts'⟩ := hplace.stmtsAt hstmts
    obtain ⟨_, _, _, -, hstmt, -⟩ := hstmts'.stmtAt hgap hkeyword (.inr (.inr (.inl rfl)))
    exact (hstmt.branches hkeyword hcondition).2 _ _ _ hbody helse

end Unique

/-! ## Legible texts are read as programs -/

section Reads

variable {s t : State} {p : UInt8 → Bool} {c : UInt8} {node : Node} {nodes : List Node}

/-- A character that is wanted is the next one. -/
theorem tryAdvance_reads (h : tryAdvance p s = (c, t)) (hc : c ≠ 0) :
    skip s.rest = c :: t.rest ∧ p c = true := by
  rcases tryAdvance_cases p s with ⟨-, ht⟩ | ⟨rest, -, ht⟩ | ⟨d, rest, hskip, -, hp, ht⟩ |
    ⟨d, rest, -, -, -, ht⟩
  · rw [ht] at h
    cases h
    exact absurd rfl hc
  · rw [ht] at h
    cases h
    exact absurd rfl hc
  · rw [ht] at h
    cases h
    exact ⟨hskip, hp⟩
  · rw [ht] at h
    cases h
    exact absurd rfl hc

/-- The next character is not NUL. -/
theorem NulFree.next (h : NulFree s.rest) {rest : List UInt8} (hskip : skip s.rest = c :: rest) :
    c ≠ 0 := by
  rintro rfl
  rw [← nulFree_skip, hskip, nulFree_cons (by decide)] at h
  exact h.1 rfl

/-- Only white space is passed over when the next character is not wanted. -/
theorem tryAdvance_stays (h : tryAdvance p s = (0, t)) (hnul : NulFree s.rest) :
    NextIsNot p s.rest ∧ t.rest = skip s.rest := by
  rcases tryAdvance_cases p s with ⟨hskip, ht⟩ | ⟨rest, hskip, -⟩ | ⟨d, rest, -, hd, -, ht⟩ |
    ⟨d, rest, hskip, hd, hp, ht⟩
  · rw [ht] at h
    cases h
    refine ⟨fun c rest hc => ?_, hskip.symm⟩
    rw [hskip] at hc
    cases hc
  · exact absurd rfl (hnul.next hskip)
  · rw [ht] at h
    cases h
    exact absurd rfl hd
  · rw [ht] at h
    cases h
    exact ⟨nextIsNot_of_skip hskip hd hp, hskip.symm⟩

/-- What precedes the first NUL byte of a word, and the word. -/
theorem cString_cases (w : List UInt8) : cString w = w ∨ ∃ rest, w = cString w ++ 0 :: rest := by
  induction w with
  | nil => exact .inl rfl
  | cons c w ih =>
      by_cases hc : c = 0
      · exact .inr ⟨w, by simp [cString, hc]⟩
      · have hcons : cString (c :: w) = c :: cString w := by simp [cString, hc]
        rw [hcons]
        rcases ih with ih | ⟨rest, ih⟩
        · exact .inl (congrArg (c :: ·) ih)
        · exact .inr ⟨rest, congrArg (c :: ·) ih⟩

/-- Where no NUL byte ends it, a word is read up to the separator. -/
theorem advanceUntilSeparator_reads {token : List UInt8}
    (h : advanceUntilSeparator s = (some token, t)) (hhash : HashFree token)
    (hnul : NulFree s.rest) : TokenAt s.rest token t.rest := by
  rcases advanceUntilSeparator_cases s with ⟨-, ht⟩ | ⟨c, rest, hskip, hlen, ht⟩ | ⟨c, rest, -, -, ht⟩
  · rw [ht] at h
    cases h
  · rw [ht] at h
    cases h
    have hparts : c :: rest = (c :: word rest) ++ rest.dropWhile (!isSeparator ·) := by
      rw [List.cons_append, word, List.takeWhile_append_dropWhile]
    rw [← nulFree_skip, hskip] at hnul
    rcases cString_cases (c :: word rest) with hself | ⟨tail, htail⟩
    · rw [hself] at hhash ⊢
      exact ⟨c, rest, hskip, rfl, rfl, by simpa using hlen, ((nulFree_word hhash).mp hnul).1⟩
    · rw [hparts, htail, List.append_assoc, List.cons_append, nulFree_append hhash,
        nulFree_cons (by decide)] at hnul
      exact absurd rfl hnul.2.1
  · rw [ht] at h
    cases h

/-- A character that was read stands behind white space. -/
theorem advance_reads (h : advance s = (c, t)) (hc : c ≠ 0) : skip s.rest = c :: t.rest := by
  unfold advance at h
  split at h
  · cases h
    exact absurd rfl hc
  · rename_i hskip
    cases h
    exact hskip

/-- Comments and white space are passed over. -/
theorem comments_reads (h : comments s = ((), t)) (hnul : NulFree s.rest) : GapAt s.rest t.rest := by
  induction hsize : s.size using Nat.strong_induction_on generalizing s with
  | _ k ih =>
      rw [comments_eq] at h
      split at h
      · rename_i hnext
        obtain ⟨-, rfl⟩ := Prod.mk.inj h
        obtain ⟨hnot, hrest⟩ := tryAdvance_stays (Prod.ext hnext rfl) hnul
        rw [hrest]
        exact .done hnot
      · rename_i hnext
        have hlt := tryAdvance_lt hnext
        have hle := length_afterLine_le (tryAdvance isCommentStart s).2.rest
        obtain ⟨hskip, hc⟩ := tryAdvance_reads rfl hnext
        rw [← nulFree_skip, hskip, nulFree_comment hc] at hnul
        exact .comment hskip hc (ih _ (hsize ▸ lt_of_le_of_lt hle hlt) h hnul rfl)

/-- **Expressions.** Without a NUL byte a run of the parser reads a phrase. -/
theorem ExprRun.reads {phrase : Phrase} (h : ExprRun phrase s node t) (hnul : NulFree s.rest) :
    ExprAt phrase s.rest node t.rest := by
  induction h with
  | paren hopen hc _ hclose hd ih =>
      obtain ⟨hskip, hp⟩ := tryAdvance_reads hopen hc
      obtain ⟨hskip', hp'⟩ := tryAdvance_reads hclose hd
      rw [of_decide_eq_true hp] at hskip
      rw [of_decide_eq_true hp'] at hskip'
      rw [nulFree_of_next hskip (by decide) (by decide)] at hnul
      exact .paren hskip (ih hnul) hskip'
  | var hopen hvar hc =>
      obtain ⟨hskip, hp⟩ := tryAdvance_reads hvar hc
      obtain ⟨-, hrest⟩ := tryAdvance_stays hopen hnul
      rw [hrest, skip_skip] at hskip
      exact .var hskip hp
  | num hopen hvar htoken hvalue hrange =>
      obtain ⟨hnotParen, hrest⟩ := tryAdvance_stays hopen hnul
      rw [← nulFree_skip, ← hrest] at hnul
      obtain ⟨hnotVar, hrest'⟩ := tryAdvance_stays hvar hnul
      rw [← nulFree_skip, ← hrest'] at hnul
      have htoken := advanceUntilSeparator_reads htoken (hashFree_of_strtol hvalue) hnul
      refine .num hnotParen ?_ ?_ hvalue hrange
      · simpa [NextIsNot, hrest] using hnotVar
      · simpa [TokenAt, hrest', hrest] using htoken
  | chain _ _ ihleft ihbehind =>
      have hleft := ihleft hnul
      exact .chain hleft (ihbehind (hleft.nulFree_iff.mp hnul))
  | done hnext =>
      obtain ⟨hnot, hrest⟩ := tryAdvance_stays hnext hnul
      rw [hrest]
      exact .done hnot
  | more hnext hop _ _ ihright ihbehind =>
      obtain ⟨hskip, hp⟩ := tryAdvance_reads hnext hop
      obtain ⟨hne, hhash⟩ := isOperator_apart (Level.isOperator hp)
      have hright := ihright ((nulFree_of_next hskip hne hhash).mp hnul)
      rw [nulFree_of_next hskip hne hhash, hright.nulFree_iff] at hnul
      exact .more hskip hp hright (ihbehind hnul)

/-- What was read as a condition is one by the grammar, if no NUL byte ends it. -/
theorem CondRun.reads (h : CondRun s node t) (hnul : NulFree s.rest) : CondAt s.rest node t.rest := by
  cases h with
  | @mk s₁ s₂ _ op left right hleft hop hright =>
      have hleft := hleft.reads hnul
      rw [hleft.nulFree_iff] at hnul
      by_cases hzero : op = 0
      · subst hzero
        obtain ⟨hnot, hrest⟩ := tryAdvance_stays hop hnul
        rw [← nulFree_skip, ← hrest] at hnul
        have hright := hright.reads hnul
        rw [hrest] at hright
        exact .bare hleft hnot hright
      · obtain ⟨hskip, hp⟩ := tryAdvance_reads hop hzero
        have hoperator : isOperator op = true := by simp [isOperator, hp]
        rw [nulFree_of_next hskip hzero (isOperator_apart hoperator).2] at hnul
        exact .op hleft hskip hp (hright.reads hnul)

/-- Behind a word that is read there is no NUL byte if there is none before it. -/
theorem word_reads {token : List UInt8} (h : advanceUntilSeparator s = (some token, t))
    (hhash : HashFree token) (hnul : NulFree s.rest) :
    TokenAt s.rest token t.rest ∧ NulFree t.rest := by
  have hword := advanceUntilSeparator_reads h hhash hnul
  exact ⟨hword, (hword.nulFree_iff hhash).mp hnul⟩

/-- The word in front of a statement, behind the comments. -/
theorem keyword_reads {u : State} {token : List UInt8} (hgap : comments s = ((), t))
    (hkeyword : advanceUntilSeparator t = (some token, u)) (hhash : HashFree token)
    (hnul : NulFree s.rest) :
    GapAt s.rest t.rest ∧ TokenAt t.rest token u.rest ∧ NulFree u.rest := by
  have hgap := comments_reads hgap hnul
  exact ⟨hgap, word_reads hkeyword hhash (hgap.nulFree_iff.mp hnul)⟩

/-- The part of a legible text that begins a block is legible. -/
theorem Legible.part {text part : List UInt8} (h : Legible text) (hnul : NulFree part)
    (hplaces : ∀ place, Place part place → Place text place) : Legible part :=
  ⟨hnul, fun place hplace => h.words place (hplaces place hplace),
    fun place branch hplace => h.elses place branch (hplaces place hplace)⟩

/-- **Statements.** A run on a legible text reads statements.  By induction on the run. -/
theorem StmtsRun.reads (h : StmtsRun s nodes t) (hlegible : Legible s.rest) :
    StmtsAt s.rest nodes t.rest := by
  obtain ⟨hPRINT, hLET, hIF, hELSE, hWHILE, hEND⟩ := hashFree_keywords
  induction h with
  | eof hgap hnone =>
      have hgap := comments_reads hgap hlegible.nulFree
      rcases advanceUntilSeparator_cases _ with ⟨hskip, ht⟩ | ⟨_, _, _, _, ht⟩ |
        ⟨c, rest, hskip, hlong, -⟩
      · rw [ht] at hnone
        cases hnone
        have hnil := hgap.skip_eq.symm.trans hskip
        rw [hnil] at hgap
        exact .done hgap (.eof rfl)
      · rw [ht] at hnone
        cases hnone
      · exact absurd ⟨c, rest, hskip, hlong⟩ (hlegible.words _ (.here hgap))
  | «else» hgap helse =>
      obtain ⟨hgap, helse, -⟩ := keyword_reads hgap helse hELSE hlegible.nulFree
      exact .done hgap (.else helse)
  | «end» hgap hend hnext hkind =>
      have hhash : HashFree _ := hkind.elim (fun h => h ▸ hIF) fun h => h ▸ hWHILE
      obtain ⟨hgap, hend, hnul⟩ := keyword_reads hgap hend hEND hlegible.nulFree
      exact .done hgap (.end hend (word_reads hnext hhash hnul).1 hkind)
  | print hgap hkeyword hexpr _ ih =>
      obtain ⟨hgap, hkeyword, hnul⟩ := keyword_reads hgap hkeyword hPRINT hlegible.nulFree
      have hexpr := hexpr.reads hnul
      rw [hexpr.nulFree_iff] at hnul
      have hstmt := StmtAt.print hkeyword hexpr
      exact .print hgap hkeyword hexpr (ih (hlegible.part hnul fun _ => .behind hgap hstmt))
  | «let» hgap hkeyword hnext hvar heq hvalue _ ih =>
      obtain ⟨hgap, hkeyword, hnul⟩ := keyword_reads hgap hkeyword hLET hlegible.nulFree
      have hnext := advance_reads hnext (isVariableName_apart hvar).1
      rw [nulFree_of_next hnext (isVariableName_apart hvar).1 (isVariableName_hash hvar)] at hnul
      have heq := advance_reads heq (by decide)
      rw [nulFree_of_next heq (by decide) (by decide)] at hnul
      have hvalue := hvalue.reads hnul
      rw [hvalue.nulFree_iff] at hnul
      have hstmt := StmtAt.let hkeyword hnext hvar heq hvalue
      exact .let hgap hkeyword hnext hvar heq hvalue
        (ih (hlegible.part hnul fun _ => .behind hgap hstmt))
  | «if» hgap hkeyword hcondition _ hbranch hend hif _ ihbody ih =>
      obtain ⟨hgap, hkeyword, hnul⟩ := keyword_reads hgap hkeyword hIF hlegible.nulFree
      have hcondition := hcondition.reads hnul
      rw [hcondition.nulFree_iff] at hnul
      have hbody := ihbody (hlegible.part hnul fun _ => .ifBranch hgap hkeyword hcondition)
      obtain ⟨hend, hnul⟩ := word_reads hend hEND (hbody.nulFree_iff.mp hnul)
      obtain ⟨hif, hnul⟩ := word_reads hif hIF hnul
      have hstmt := StmtAt.if hkeyword hcondition hbody hbranch hend hif
      exact .if hgap hkeyword hcondition hbody hbranch hend hif
        (ih (hlegible.part hnul fun _ => .behind hgap hstmt))
  | ifElse hgap hkeyword hcondition _ hbranch helse _ helseBranch hend hif _ ihbody ihelse ih =>
      obtain ⟨hgap, hkeyword, hnul⟩ := keyword_reads hgap hkeyword hIF hlegible.nulFree
      have hcondition := hcondition.reads hnul
      rw [hcondition.nulFree_iff] at hnul
      have hbody := ihbody (hlegible.part hnul fun _ => .ifBranch hgap hkeyword hcondition)
      obtain ⟨helse, hnul⟩ := word_reads helse hELSE (hbody.nulFree_iff.mp hnul)
      have helseBody := ihelse
        (hlegible.part hnul fun _ => .elseBranch hgap hkeyword hcondition hbody helse)
      obtain ⟨hend, hnul⟩ := word_reads hend hEND (helseBody.nulFree_iff.mp hnul)
      obtain ⟨hif, hnul⟩ := word_reads hif hIF hnul
      have hstmt := StmtAt.ifElse hkeyword hcondition hbody hbranch helse helseBody helseBranch
        hend hif
      exact .ifElse hgap hkeyword hcondition hbody hbranch helse helseBody helseBranch hend hif
        (ih (hlegible.part hnul fun _ => .behind hgap hstmt))
  | @ifFailed _ s₁ s₂ s₃ s₄ s₅ s₆ _ _ _ condition _ body _ hgap hkeyword hcondition _ _ helse
      hfailed _ _ _ ihbody _ =>
      obtain ⟨hgap, hkeyword, hnul⟩ := keyword_reads hgap hkeyword hIF hlegible.nulFree
      have hcondition := hcondition.reads hnul
      rw [hcondition.nulFree_iff] at hnul
      have hbody := ihbody (hlegible.part hnul fun _ => .ifBranch hgap hkeyword hcondition)
      obtain ⟨helse, -⟩ := word_reads helse hELSE (hbody.nulFree_iff.mp hnul)
      -- the branch parses, as there are statements behind the `ELSE`
      obtain ⟨elseBody, rest, helseBody⟩ := hlegible.elses _ s₅.rest (.here hgap)
        ⟨_, _, _, condition, body, hkeyword, hcondition, hbody, helse⟩
      obtain ⟨node, hcollect⟩ := exists_collect elseBody
      rw [show s₅ = ⟨s₅.rest⟩ from rfl, helseBody.run.eval hcollect] at hfailed
      cases hfailed
  | «while» hgap hkeyword hcondition _ hbranch hend hwhile _ ihbody ih =>
      obtain ⟨hgap, hkeyword, hnul⟩ := keyword_reads hgap hkeyword hWHILE hlegible.nulFree
      have hcondition := hcondition.reads hnul
      rw [hcondition.nulFree_iff] at hnul
      have hbody := ihbody (hlegible.part hnul fun _ => .body hgap hkeyword hcondition)
      obtain ⟨hend, hnul⟩ := word_reads hend hEND (hbody.nulFree_iff.mp hnul)
      obtain ⟨hwhile, hnul⟩ := word_reads hwhile hWHILE hnul
      have hstmt := StmtAt.while hkeyword hcondition hbody hbranch hend hwhile
      exact .while hgap hkeyword hcondition hbody hbranch hend hwhile
        (ih (hlegible.part hnul fun _ => .behind hgap hstmt))

/-- At the end of a legible text there is white space only. -/
theorem atEnd_reads (h : atEnd s = (true, t)) (hnul : NulFree s.rest) : skip s.rest = [] := by
  unfold atEnd advance at h
  rw [bind_apply] at h
  split at h
  · assumption
  · rename_i c rest hskip
    have hc := hnul.next hskip
    simp only [ne_eq, hc, not_false_eq_true, if_true] at h
    cases h

end Reads

/-- **No syntax error is swallowed** exactly where the text is legible: outside comments there
is no NUL byte, no word in the place of a statement is too long, and there are statements
behind each `ELSE`. -/
theorem parse_programAt_iff {text : List UInt8} {ast : Node} (h : parse text = some ast) :
    ProgramAt text ast ↔ Legible text := by
  constructor
  · exact ProgramAt.legible
  · intro hlegible
    obtain ⟨t, ⟨nodes, hcollect, hrun⟩, hend⟩ := parseFrom_run h
    have hstmts := hrun.reads hlegible
    exact ⟨nodes, t.rest, hstmts, atEnd_reads hend (hstmts.nulFree_iff.mp hlegible.nulFree), hcollect⟩

/-- `IF 1 = 1 PRINT 2 ELSE PRINT 3 END IF` -/
def ifElseText : List UInt8 :=
  bytes "IF 1 = 1 PRINT 2 ELSE PRINT 3 END IF".toList

/-- The text of an `IF` with both branches. -/
theorem parse_programAt_ifElse :
    ∃ ast, parse ifElseText = some ast ∧ (ProgramAt ifElseText ast ↔ Legible ifElseText) := by
  have hsome : (parse ifElseText).isSome = true := by decide +kernel
  obtain ⟨ast, hast⟩ := Option.isSome_iff_exists.mp hsome
  exact ⟨ast, hast, parse_programAt_iff hast⟩

/-- `IF 1 = 1 PRINT 2 ELSE X END IF` -/
def badElseText : List UInt8 :=
  bytes "IF 1 = 1 PRINT 2 ELSE X END IF".toList

/-- The `X` is no statement, and the parser returns a tree for the rest. -/
theorem parse_badElse : ∃ ast, parse badElseText = some ast ∧ ¬ProgramAt badElseText ast := by
  have hsome : (parse badElseText).isSome = true := by decide +kernel
  obtain ⟨ast, hast⟩ := Option.isSome_iff_exists.mp hsome
  refine ⟨ast, hast, fun hprogram => ?_⟩
  obtain ⟨nodes, rest, hstmts, -⟩ := hprogram
  -- what the parser reads: a statement, its keyword, the word behind the first branch, the second
  have hstmt : (statement sequence ⟨badElseText⟩).1.2 = false := by decide +kernel
  have hfirst : (advanceUntilSeparator (comments ⟨badElseText⟩).2).1 = some IF := by decide +kernel
  have hword : (advanceUntilSeparator (sequence (comparison (advanceUntilSeparator
      (comments ⟨badElseText⟩).2).2).2).2).1 = some ELSE := by decide +kernel
  have hbranch : (sequence (advanceUntilSeparator (sequence (comparison (advanceUntilSeparator
      (comments ⟨badElseText⟩).2).2).2).2).2).1.isNone = true := by decide +kernel
  have hhead := hstmts.run.head
  cases hstmts with
  | done hgap hend =>
      cases hhead with
      | ended h =>
          rw [h] at hstmt
          cases hstmt
  | print hgap hkeyword _ _ =>
      rw [hgap.parses, advanceUntilSeparator_of_token hkeyword] at hfirst
      exact absurd (Option.some.inj hfirst) (by decide)
  | «let» hgap hkeyword _ _ _ _ _ =>
      rw [hgap.parses, advanceUntilSeparator_of_token hkeyword] at hfirst
      exact absurd (Option.some.inj hfirst) (by decide)
  | «while» hgap hkeyword _ _ _ _ _ _ =>
      rw [hgap.parses, advanceUntilSeparator_of_token hkeyword] at hfirst
      exact absurd (Option.some.inj hfirst) (by decide)
  | «if» hgap hkeyword hcondition hbody hcollect hend _ _ =>
      rw [hgap.parses, advanceUntilSeparator_of_token hkeyword, hcondition.run.eval,
        hbody.run.eval hcollect, advanceUntilSeparator_of_token hend] at hword
      exact absurd (Option.some.inj hword) (by decide)
  | ifElse hgap hkeyword hcondition hbody hcollect helse helseBody hother _ _ _ =>
      rw [hgap.parses, advanceUntilSeparator_of_token hkeyword, hcondition.run.eval,
        hbody.run.eval hcollect, advanceUntilSeparator_of_token helse,
        helseBody.run.eval hother] at hbranch
      cases hbranch

end Basic.Parser
