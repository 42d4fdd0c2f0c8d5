import CS24.Basic.ParserRuns

/-!
# Scanning a text

Where the expressions, conditions, statements and blocks of a text end, and which of them can
be read, said of the text alone.  A text is scanned from left to right.  An expression that
cannot be read is scanned to its end all the same; a block is given up behind its first
statement that cannot be read, and the scan goes on there.  A NUL byte counts as the end of
the text and is passed over.
-/

namespace Basic.Parser

/-! ## Characters and words -/

/-- The next character that is not white space, and 0 at the end of the text. -/
def nextChar (text : List UInt8) : UInt8 := (skip text).headD 0

/-- What is behind that character. -/
def behindChar (text : List UInt8) : List UInt8 := (skip text).tail

/-- The next character is one of these, or it is another one and still to be read. -/
inductive Next (p : UInt8 → Bool) (text : List UInt8) : Bool → List UInt8 → Prop
  | found (hchar : nextChar text ≠ 0) (hp : p (nextChar text) = true) :
      Next p text true (behindChar text)
  | other (hchar : nextChar text ≠ 0) (hp : p (nextChar text) = false) :
      Next p text false (skip text)
  | nul (hchar : nextChar text = 0) : Next p text false (behindChar text)

/-- The next word.  There is none at the end of the text, and a word that is too long is none. -/
inductive NextWord (text : List UInt8) : Option (List UInt8) → List UInt8 → Prop
  | word {c : UInt8} {rest : List UInt8} (hskip : skip text = c :: rest)
      (hshort : (word rest).length < MAX_KEYWORD_LENGTH) :
      NextWord text (some (cString (c :: word rest))) (behindWord rest)
  | long {c : UInt8} {rest : List UInt8} (hskip : skip text = c :: rest)
      (hlong : MAX_KEYWORD_LENGTH ≤ (word rest).length) :
      NextWord text none (rest.drop MAX_KEYWORD_LENGTH)
  | eof (hskip : skip text = []) : NextWord text none []

/-- The word is a number in range. -/
def isNumeral (next : Option (List UInt8)) : Bool :=
  next.any fun word => decide (InRange (strtol word).1 ∧ (strtol word).2 = [])

/-- A block stops here: at the end of the text, before `ELSE` and before `END IF` and `END WHILE`.
-/
inductive Stops (text : List UInt8) : List UInt8 → Prop
  | eof {r₁ : List UInt8} (hnone : NextWord text none r₁) : Stops text r₁
  | else {r₁ : List UInt8} (helse : NextWord text (some ELSE) r₁) : Stops text text
  | end {r₁ r₂ kind : List UInt8} (hend : NextWord text (some END) r₁)
      (hkind : NextWord r₁ (some kind) r₂) (h : kind = IF ∨ kind = WHILE) : Stops text text

/-! ## The parts of a text -/

/-- A factor, the operands and operators of a level, what follows an operand, a condition, the
comments before a statement, the end of a statement with bodies, a statement and a block. -/
inductive Part
  | factor
  | chain (l : Level)
  | behind (l : Level)
  | condition
  | gap
  | closing (kind : List UInt8)
  | statement
  | block

/-- The operands of a level. -/
def Level.part : Level → Part
  | factors => .factor
  | terms => .chain .factors

/-- The part is at the front of the text; whether it can be read, and what is behind it. -/
inductive Scan : Part → List UInt8 → Bool → List UInt8 → Prop
  | paren {text r₁ r₂ r₃ : List UInt8} {ok closed : Bool} (hopen : Next isOpenParen text true r₁)
      (hexpr : Scan (.chain .terms) r₁ ok r₂) (hclose : Next isCloseParen r₂ closed r₃) :
      Scan .factor text (ok && closed) r₃
  | var {text r₁ r₂ : List UInt8} (hopen : Next isOpenParen text false r₁)
      (hvar : Next isVariableName r₁ true r₂) : Scan .factor text true r₂
  | num {text r₁ r₂ r₃ : List UInt8} {next : Option (List UInt8)}
      (hopen : Next isOpenParen text false r₁) (hvar : Next isVariableName r₁ false r₂)
      (hword : NextWord r₂ next r₃) : Scan .factor text (isNumeral next) r₃
  | chain {l : Level} {text r₁ r₂ : List UInt8} {ok ok' : Bool} (hleft : Scan l.part text ok r₁)
      (hbehind : Scan (.behind l) r₁ ok' r₂) : Scan (.chain l) text (ok && ok') r₂
  | done {l : Level} {text r₁ : List UInt8} (hnext : Next l.isOp text false r₁) :
      Scan (.behind l) text true r₁
  | more {l : Level} {text r₁ r₂ r₃ : List UInt8} {ok ok' : Bool}
      (hnext : Next l.isOp text true r₁) (hright : Scan l.part r₁ ok r₂)
      (hbehind : Scan (.behind l) r₂ ok' r₃) : Scan (.behind l) text (ok && ok') r₃
  /-- the operator of a condition may be missing -/
  | condition {text r₁ r₂ r₃ : List UInt8} {ok ok' found : Bool}
      (hleft : Scan (.chain .terms) text ok r₁) (hop : Next isComparisonOp r₁ found r₂)
      (hright : Scan (.chain .terms) r₂ ok' r₃) : Scan .condition text (ok && ok') r₃
  | gap {text r₁ : List UInt8} (hnext : Next isCommentStart text false r₁) : Scan .gap text true r₁
  | comment {text r₁ r₂ : List UInt8} (hnext : Next isCommentStart text true r₁)
      (hgap : Scan .gap (afterLine r₁) true r₂) : Scan .gap text true r₂
  | closed {text r₁ r₂ kind : List UInt8} {next : Option (List UInt8)}
      (hend : NextWord text (some END) r₁) (hkind : NextWord r₁ next r₂) :
      Scan (.closing kind) text (next = some kind) r₂
  | unclosed {text r₁ kind : List UInt8} {next : Option (List UInt8)}
      (hword : NextWord text next r₁) (hend : next ≠ some END) : Scan (.closing kind) text false r₁
  | print {text r₁ r₂ : List UInt8} {ok : Bool} (hkeyword : NextWord text (some PRINT) r₁)
      (hexpr : Scan (.chain .terms) r₁ ok r₂) : Scan .statement text ok r₂
  | noName {text r₁ : List UInt8} (hkeyword : NextWord text (some LET) r₁)
      (hvar : isVariableName (nextChar r₁) = false) : Scan .statement text false (behindChar r₁)
  | noEquals {text r₁ : List UInt8} (hkeyword : NextWord text (some LET) r₁)
      (hvar : isVariableName (nextChar r₁) = true) (heq : nextChar (behindChar r₁) ≠ byte '=') :
      Scan .statement text false (behindChar (behindChar r₁))
  | let {text r₁ r₂ : List UInt8} {ok : Bool} (hkeyword : NextWord text (some LET) r₁)
      (hvar : isVariableName (nextChar r₁) = true) (heq : nextChar (behindChar r₁) = byte '=')
      (hvalue : Scan (.chain .terms) (behindChar (behindChar r₁)) ok r₂) : Scan .statement text ok r₂
  | if {text r₁ r₂ r₃ r₄ r₅ : List UInt8} {ok ok' closed : Bool} {next : Option (List UInt8)}
      (hkeyword : NextWord text (some IF) r₁) (hcondition : Scan .condition r₁ ok r₂)
      (hbody : Scan .block r₂ ok' r₃) (hnext : NextWord r₃ next r₄) (helse : next ≠ some ELSE)
      (hclosing : Scan (.closing IF) r₃ closed r₅) : Scan .statement text (ok && ok' && closed) r₅
  /-- the branch behind the `ELSE` need not be one that can be read -/
  | ifElse {text r₁ r₂ r₃ r₄ r₅ r₆ : List UInt8} {ok ok' other closed : Bool}
      (hkeyword : NextWord text (some IF) r₁) (hcondition : Scan .condition r₁ ok r₂)
      (hbody : Scan .block r₂ ok' r₃) (helse : NextWord r₃ (some ELSE) r₄)
      (hother : Scan .block r₄ other r₅) (hclosing : Scan (.closing IF) r₅ closed r₆) :
      Scan .statement text (ok && ok' && closed) r₆
  | while {text r₁ r₂ r₃ r₄ : List UInt8} {ok ok' closed : Bool}
      (hkeyword : NextWord text (some WHILE) r₁) (hcondition : Scan .condition r₁ ok r₂)
      (hbody : Scan .block r₂ ok' r₃) (hclosing : Scan (.closing WHILE) r₃ closed r₄) :
      Scan .statement text (ok && ok' && closed) r₄
  | strayEnd {text r₁ r₂ : List UInt8} {next : Option (List UInt8)}
      (hend : NextWord text (some END) r₁) (hnext : NextWord r₁ next r₂) (hif : next ≠ some IF)
      (hwhile : next ≠ some WHILE) : Scan .statement text false r₂
  | noKeyword {text r₁ token : List UInt8} (hword : NextWord text (some token) r₁)
      (hother : token ∉ [ELSE, END, PRINT, LET, IF, WHILE]) : Scan .statement text false r₁
  | stops {text r₁ r₂ : List UInt8} (hgap : Scan .gap text true r₁) (hstops : Stops r₁ r₂) :
      Scan .block text true r₂
  | fails {text r₁ r₂ : List UInt8} (hgap : Scan .gap text true r₁)
      (hstmt : Scan .statement r₁ false r₂) : Scan .block text false r₂
  | behind {text r₁ r₂ r₃ : List UInt8} {ok : Bool} (hgap : Scan .gap text true r₁)
      (hstmt : Scan .statement r₁ true r₂) (hrest : Scan .block r₂ ok r₃) : Scan .block text ok r₃

/-! ## Each text is scanned -/

section Ends

variable {text : List UInt8} {n : Nat}

/-- Behind a character there is less than with it. -/
theorem length_behindChar (text : List UInt8) :
    (behindChar text).length ≤ text.length ∧
      (nextChar text ≠ 0 → (behindChar text).length < text.length) := by
  have hle := length_skip_le text
  unfold nextChar behindChar
  cases hskip : skip text with
  | nil => exact ⟨Nat.zero_le _, fun h => absurd rfl h⟩
  | cons c rest =>
      rw [hskip, List.length_cons] at hle
      exact ⟨Nat.le_of_lt hle, fun _ => hle⟩

/-- A character is looked for at the front of each text. -/
theorem exists_next (p : UInt8 → Bool) (text : List UInt8) :
    ∃ found rest, Next p text found rest ∧ rest.length ≤ text.length ∧
      (found = true → rest.length < text.length) := by
  obtain ⟨hle, hlt⟩ := length_behindChar text
  by_cases hchar : nextChar text = 0
  · exact ⟨false, _, .nul hchar, hle, fun h => by cases h⟩
  · cases hp : p (nextChar text) with
    | true => exact ⟨true, _, .found hchar hp, hle, fun _ => hlt hchar⟩
    | false => exact ⟨false, _, .other hchar hp, length_skip_le text, fun h => by cases h⟩

/-- So is a word. -/
theorem exists_nextWord (text : List UInt8) :
    ∃ next rest, NextWord text next rest ∧ rest.length ≤ text.length ∧
      (next ≠ none → rest.length < text.length) := by
  have hle := length_skip_le text
  cases hskip : skip text with
  | nil => exact ⟨none, [], .eof hskip, Nat.zero_le _, fun h => absurd rfl h⟩
  | cons c rest =>
      rw [hskip, List.length_cons] at hle
      by_cases hshort : (word rest).length < MAX_KEYWORD_LENGTH
      · have hbehind := length_behindWord_le rest
        exact ⟨_, _, .word hskip hshort, by omega, fun _ => by omega⟩
      · have hdrop := List.length_drop (l := rest) (i := MAX_KEYWORD_LENGTH)
        exact ⟨none, _, .long hskip (not_lt.mp hshort), by omega, fun h => absurd rfl h⟩

/-- The part has an end in the text. -/
def Ends (part : Part) (text : List UInt8) : Prop :=
  ∃ ok rest, Scan part text ok rest ∧ rest.length ≤ text.length

/-- The operators of a level have an end if the operands have one.  By induction on the text. -/
theorem behind_ends {l : Level} (hoperand : ∀ t : List UInt8, t.length ≤ n → Ends l.part t)
    (hle : text.length ≤ n) : Ends (.behind l) text := by
  induction hsize : text.length using Nat.strong_induction_on generalizing text with
  | _ k ih =>
      obtain ⟨found, r₁, hnext, hle₁, hlt⟩ := exists_next l.isOp text
      cases found with
      | false => exact ⟨true, r₁, .done hnext, hle₁⟩
      | true =>
          have hlt := hlt rfl
          obtain ⟨ok, r₂, hright, hle₂⟩ := hoperand r₁ (by omega)
          have hbehind : Ends (.behind l) r₂ := ih r₂.length (by omega) (by omega) rfl
          obtain ⟨ok', r₃, hbehind, hle₃⟩ := hbehind
          exact ⟨_, r₃, .more hnext hright hbehind, by omega⟩

/-- So has a chain. -/
theorem chain_ends {l : Level} (hoperand : ∀ t : List UInt8, t.length ≤ n → Ends l.part t)
    (hle : text.length ≤ n) : Ends (.chain l) text := by
  obtain ⟨ok, r₁, hleft, hle₁⟩ := hoperand text hle
  have hbehind : Ends (.behind l) r₁ := behind_ends hoperand (by omega)
  obtain ⟨ok', r₂, hbehind, hle₂⟩ := hbehind
  exact ⟨_, r₂, .chain hleft hbehind, by omega⟩

/-- A factor has an end if the expressions in shorter texts have one. -/
theorem factor_ends
    (hexpr : ∀ t : List UInt8, t.length < n → Ends (.chain .terms) t) (hle : text.length ≤ n) :
    Ends .factor text := by
  obtain ⟨found, r₁, hopen, hle₁, hlt⟩ := exists_next isOpenParen text
  cases found with
  | true =>
      have hlt := hlt rfl
      obtain ⟨ok, r₂, hexpr, hle₂⟩ := hexpr r₁ (by omega)
      obtain ⟨closed, r₃, hclose, hle₃, -⟩ := exists_next isCloseParen r₂
      exact ⟨_, r₃, .paren hopen hexpr hclose, by omega⟩
  | false =>
      obtain ⟨found, r₂, hvar, hle₂, -⟩ := exists_next isVariableName r₁
      cases found with
      | true => exact ⟨true, r₂, .var hopen hvar, by omega⟩
      | false =>
          obtain ⟨next, r₃, hword, hle₃, -⟩ := exists_nextWord r₂
          exact ⟨_, r₃, .num hopen hvar hword, by omega⟩

/-- **Each expression has an end.** -/
theorem expression_ends (text : List UInt8) : Ends (.chain .terms) text := by
  induction hsize : text.length using Nat.strong_induction_on generalizing text with
  | _ k ih =>
      have hexpr : ∀ t : List UInt8, t.length < k → Ends (.chain .terms) t :=
        fun t ht => ih _ ht t rfl
      have hfactor : ∀ t : List UInt8, t.length ≤ k → Ends .factor t := fun _ => factor_ends hexpr
      have hterm : ∀ t : List UInt8, t.length ≤ k → Ends (.chain .factors) t :=
        fun _ => chain_ends (l := .factors) hfactor
      exact chain_ends (l := .terms) hterm hsize.le

/-- So has each condition, -/
theorem condition_ends (text : List UInt8) : Ends .condition text := by
  obtain ⟨ok, r₁, hleft, hle₁⟩ := expression_ends text
  obtain ⟨found, r₂, hop, hle₂, -⟩ := exists_next isComparisonOp r₁
  obtain ⟨ok', r₃, hright, hle₃⟩ := expression_ends r₂
  exact ⟨_, r₃, .condition hleft hop hright, by omega⟩

/-- each row of comments -/
theorem gap_ends (text : List UInt8) : ∃ rest, Scan .gap text true rest ∧ rest.length ≤ text.length := by
  induction hsize : text.length using Nat.strong_induction_on generalizing text with
  | _ k ih =>
      obtain ⟨found, r₁, hnext, hle₁, hlt⟩ := exists_next isCommentStart text
      cases found with
      | false => exact ⟨r₁, .gap hnext, by omega⟩
      | true =>
          have hlt := hlt rfl
          have hline := length_afterLine_le r₁
          obtain ⟨r₂, hgap, hle₂⟩ := ih (afterLine r₁).length (by omega) (afterLine r₁) rfl
          exact ⟨r₂, .comment hnext hgap, by omega⟩

/-- and what closes a statement. -/
theorem closing_ends (kind text : List UInt8) : Ends (.closing kind) text := by
  obtain ⟨next, r₁, hword, hle₁, -⟩ := exists_nextWord text
  by_cases hend : next = some END
  · subst hend
    obtain ⟨next, r₂, hkind, hle₂, -⟩ := exists_nextWord r₁
    exact ⟨_, r₂, .closed hword hkind, by omega⟩
  · exact ⟨false, r₁, .unclosed hword hend, hle₁⟩

/-- What is behind a keyword is a statement or cannot be read, and then has an end, if the blocks
in shorter texts have one. -/
theorem statement_ends (hblock : ∀ t : List UInt8, t.length < n → Ends .block t)
    {token r₁ : List UInt8} (hword : NextWord text (some token) r₁) (hlt : r₁.length < n)
    (helse : token ≠ ELSE) (hend : token ≠ END) :
    ∃ ok rest, Scan .statement text ok rest ∧ rest.length ≤ r₁.length := by
  by_cases hPRINT : token = PRINT
  · subst hPRINT
    obtain ⟨ok, r₂, hexpr, hle⟩ := expression_ends r₁
    exact ⟨ok, r₂, .print hword hexpr, hle⟩
  by_cases hLET : token = LET
  · subst hLET
    have hle := (length_behindChar r₁).1
    have hle' := (length_behindChar (behindChar r₁)).1
    cases hvar : isVariableName (nextChar r₁) with
    | false => exact ⟨false, _, .noName hword hvar, hle⟩
    | true =>
        by_cases heq : nextChar (behindChar r₁) = byte '='
        · obtain ⟨ok, r₂, hvalue, hle₂⟩ := expression_ends (behindChar (behindChar r₁))
          exact ⟨ok, r₂, .let hword hvar heq hvalue, by omega⟩
        · exact ⟨false, _, .noEquals hword hvar heq, by omega⟩
  by_cases hIF : token = IF
  · subst hIF
    obtain ⟨ok, r₂, hcondition, hle₂⟩ := condition_ends r₁
    obtain ⟨ok', r₃, hbody, hle₃⟩ := hblock r₂ (by omega)
    obtain ⟨next, r₄, hnext, hle₄, -⟩ := exists_nextWord r₃
    by_cases helse : next = some ELSE
    · subst helse
      obtain ⟨other, r₅, hother, hle₅⟩ := hblock r₄ (by omega)
      obtain ⟨closed, r₆, hclosing, hle₆⟩ := closing_ends IF r₅
      exact ⟨_, r₆, .ifElse hword hcondition hbody hnext hother hclosing, by omega⟩
    · obtain ⟨closed, r₅, hclosing, hle₅⟩ := closing_ends IF r₃
      exact ⟨_, r₅, .if hword hcondition hbody hnext helse hclosing, by omega⟩
  by_cases hWHILE : token = WHILE
  · subst hWHILE
    obtain ⟨ok, r₂, hcondition, hle₂⟩ := condition_ends r₁
    obtain ⟨ok', r₃, hbody, hle₃⟩ := hblock r₂ (by omega)
    obtain ⟨closed, r₄, hclosing, hle₄⟩ := closing_ends WHILE r₃
    exact ⟨_, r₄, .while hword hcondition hbody hclosing, by omega⟩
  · exact ⟨false, r₁, .noKeyword hword (by simp [*]), le_refl _⟩

/-- **Each block has an end.**  By induction on the text. -/
theorem block_ends (text : List UInt8) : Ends .block text := by
  induction hsize : text.length using Nat.strong_induction_on generalizing text with
  | _ k ih =>
      have hblock : ∀ t : List UInt8, t.length < k → Ends .block t := fun t ht => ih _ ht t rfl
      obtain ⟨r₁, hgap, hle₁⟩ := gap_ends text
      -- behind a statement there is the rest of the block, or nothing of it is read
      have hrest : ∀ {ok r₂}, Scan .statement r₁ ok r₂ → r₂.length < k → Ends .block text := by
        intro ok r₂ hstmt hlt
        cases ok with
        | false => exact ⟨false, r₂, .fails hgap hstmt, by omega⟩
        | true =>
            obtain ⟨ok, r₃, hrest, hle₃⟩ := hblock r₂ hlt
            exact ⟨ok, r₃, .behind hgap hstmt hrest, by omega⟩
      obtain ⟨next, r₂, hword, hle₂, hlt⟩ := exists_nextWord r₁
      cases next with
      | none => exact ⟨true, r₂, .stops hgap (.eof hword), by omega⟩
      | some token =>
          have hlt := hlt (by simp)
          by_cases helse : token = ELSE
          · subst helse
            exact ⟨true, r₁, .stops hgap (.else hword), hsize ▸ hle₁⟩
          by_cases hend : token = END
          · subst hend
            obtain ⟨next, r₃, hnext, hle₃, -⟩ := exists_nextWord r₂
            by_cases hif : next = some IF
            · subst hif
              exact ⟨true, r₁, .stops hgap (.end hword hnext (.inl rfl)), hsize ▸ hle₁⟩
            by_cases hwhile : next = some WHILE
            · subst hwhile
              exact ⟨true, r₁, .stops hgap (.end hword hnext (.inr rfl)), hsize ▸ hle₁⟩
            · exact hrest (.strayEnd hword hnext hif hwhile) (by omega)
          · obtain ⟨ok, r₃, hstmt, hle₃⟩ := statement_ends hblock hword (by omega) helse hend
            exact hrest hstmt (by omega)

end Ends

/-! ## The parser scans -/

section Does

variable {text rest : List UInt8} {p : UInt8 → Bool} {ok : Bool}

/-- The character that is read, and what is behind it. -/
theorem advance_eq (text : List UInt8) : advance ⟨text⟩ = (nextChar text, ⟨behindChar text⟩) := by
  unfold advance nextChar behindChar
  split <;> simp_all

/-- A character that is found is read, -/
theorem Next.taken (h : Next p text true rest) :
    ∃ c, c ≠ 0 ∧ p c = true ∧ tryAdvance p ⟨text⟩ = (c, ⟨rest⟩) := by
  cases h with
  | found hchar hp =>
      refine ⟨_, hchar, hp, ?_⟩
      rw [tryAdvance, bind_apply, advance_eq, if_neg (by simp [hp])]
      rfl

/-- and another one is put back. -/
theorem Next.left (h : Next p text false rest) : tryAdvance p ⟨text⟩ = (0, ⟨rest⟩) := by
  cases h with
  | other hchar hp =>
      have hback : nextChar text :: behindChar text = skip text := by
        unfold nextChar behindChar at *
        cases hskip : skip text with
        | nil => simp [hskip] at hchar
        | cons c rest => rfl
      rw [tryAdvance, bind_apply, advance_eq, if_pos ⟨hchar, hp⟩, bind_apply, rewindOne, hback]
      rfl
  | nul hchar =>
      rw [tryAdvance, bind_apply, advance_eq, if_neg (by simp [hchar]), hchar]
      rfl

/-- A word that is next is what `advance_until_separator` returns. -/
theorem NextWord.read {next : Option (List UInt8)} (h : NextWord text next rest) :
    advanceUntilSeparator ⟨text⟩ = (next, ⟨rest⟩) := by
  rcases advanceUntilSeparator_cases ⟨text⟩ with ⟨hskip', hread⟩ | ⟨c, r, hskip', hshort', hread⟩ |
    ⟨c, r, hskip', hlong', hread⟩
  · cases h with
    | eof => exact hread
    | word hskip | long hskip => cases hskip.symm.trans hskip'
  · cases h with
    | eof hskip => cases hskip.symm.trans hskip'
    | word hskip hshort =>
        cases hskip.symm.trans hskip'
        exact hread
    | long hskip hlong =>
        cases hskip.symm.trans hskip'
        omega
  · cases h with
    | eof hskip => cases hskip.symm.trans hskip'
    | word hskip hshort =>
        cases hskip.symm.trans hskip'
        omega
    | long hskip hlong =>
        cases hskip.symm.trans hskip'
        exact hread

/-- The function ends there, and returns a node if the part can be read. -/
def Action.Does {α : Type} (x : Action (Option α)) (text : List UInt8) (ok : Bool)
    (rest : List UInt8) : Prop :=
  ∃ node, x ⟨text⟩ = (node, ⟨rest⟩) ∧ node.isSome = ok

/-- What the functions of the parser do where the part is. -/
def Part.Does : Part → List UInt8 → Bool → List UInt8 → Prop
  | factor => Parser.factor.Does
  | chain l => (Phrase.chain l).action.Does
  | behind l => fun text ok rest =>
    ∀ left, (operations l.isOp l.action left).Does text (left.isSome && ok) rest
  | condition => comparison.Does
  | gap => fun text ok rest => comments ⟨text⟩ = ((), ⟨rest⟩) ∧ ok = true
  | closing kind => fun text ok rest => ∀ result : Option Node, ∃ node,
    Parser.closing kind (advanceUntilSeparator ⟨text⟩).1 result (advanceUntilSeparator ⟨text⟩).2 =
      (node, ⟨rest⟩) ∧ node.isSome = (result.isSome && ok)
  | statement => fun text ok rest => ∃ node : Option Node,
    statementBody sequence ⟨text⟩ = ((node, false), ⟨rest⟩) ∧ node.isSome = ok
  | block => fun text ok rest => ∀ before, (statements sequence before).Does text ok rest

/-- The operands of a level are what its function reads. -/
theorem Level.part_does {l : Level} (h : l.part.Does text ok rest) : l.action.Does text ok rest := by
  cases l <;> exact h

/-- A block is what `sequence` reads. -/
theorem sequence_does (h : Part.block.Does text ok rest) : sequence.Does text ok rest := by
  obtain ⟨nodes, hnodes, hok⟩ := h []
  refine ⟨nodes.bind collect, ?_, ?_⟩
  · rw [sequence_eq, hnodes]
  · cases nodes with
    | none => exact hok
    | some nodes =>
        obtain ⟨node, hnode⟩ := exists_collect nodes
        rw [Option.bind_some, hnode]
        exact hok

/-- A binary node is there if both operands are, -/
theorem isSome_initBinaryNode (op : UInt8) (left right : Option Node) :
    (initBinaryNode op left right).isSome = (left.isSome && right.isSome) := by
  cases left <;> cases right <;> rfl

/-- one for `IF` if its condition and its first branch are, -/
theorem isSome_initIfNode (condition ifBranch elseBranch : Option Node) :
    (initIfNode condition ifBranch elseBranch).isSome = (condition.isSome && ifBranch.isSome) := by
  cases condition <;> cases ifBranch <;> rfl

/-- and one for `WHILE` if its condition and its body are. -/
theorem isSome_initWhileNode (condition body : Option Node) :
    (initWhileNode condition body).isSome = (condition.isSome && body.isSome) := by
  cases condition <;> cases body <;> rfl

/-- A number is read if the word is one. -/
theorem num_does {next : Option (List UInt8)} (h : NextWord text next rest) :
    num.Does text (isNumeral next) rest := by
  unfold Action.Does num
  rw [bind_apply, h.read]
  cases next with
  | none => exact ⟨none, rfl, rfl⟩
  | some token =>
      by_cases hok : InRange (strtol token).1 ∧ (strtol token).2 = []
      · have hnumeral : isNumeral (some token) = true := decide_eq_true hok
        refine ⟨some (.num (BitVec.ofInt 64 (strtol token).1)), ?_, hnumeral.symm⟩
        simp only
        rw [if_neg (by rw [not_or, not_not, not_not]; exact hok)]
        rfl
      · have hnumeral : isNumeral (some token) = false := decide_eq_false hok
        refine ⟨none, ?_, hnumeral.symm⟩
        simp only
        rw [if_pos (not_and_or.mp hok)]
        rfl

/-- The function of the keyword goes on behind it. -/
theorem NextWord.statementBody {token : List UInt8} (h : NextWord text (some token) rest) :
    statementBody sequence ⟨text⟩ = keyword sequence text token ⟨rest⟩ := by
  rw [statementBody_apply, h.read]

/-- Where a block stops there is no statement. -/
theorem Stops.ended (h : Stops text rest) :
    statementBody sequence ⟨text⟩ = ((none, true), ⟨rest⟩) := by
  cases h with
  | eof hnone => rw [statementBody_apply, hnone.read]
  | «else» helse =>
      rw [helse.statementBody, keyword, if_pos rfl]
      rfl
  | «end» hend hkind h =>
      rw [hend.statementBody, keyword, if_neg (by decide), if_pos rfl, bind_apply, hkind.read,
        if_pos (by simpa using h)]
      rfl

/-- The comments before a statement are passed over. -/
theorem statement_of_gap (hgap : comments ⟨text⟩ = ((), ⟨rest⟩)) :
    statement sequence ⟨text⟩ = statementBody sequence ⟨rest⟩ := by
  rw [statement, bind_apply, hgap]

/-- **The parser scans.**  By induction on the scan. -/
theorem Scan.does {part : Part} (h : Scan part text ok rest) : part.Does text ok rest := by
  induction h with
  | @paren _ _ _ _ _ closed hopen _ hclose ih =>
      obtain ⟨c, hc, -, hopen⟩ := hopen.taken
      obtain ⟨node, hnode, hok⟩ := ih
      have hnode : expression _ = _ := hnode
      cases closed with
      | true =>
          obtain ⟨d, hd, -, hclose⟩ := hclose.taken
          refine ⟨node, ?_, by simpa using hok⟩
          rw [Parser.factor, factorBody, bind_apply, hopen, if_pos hc, bind_apply, hnode,
            bind_apply, hclose, if_neg hd, pure_apply]
      | false =>
          refine ⟨none, ?_, by simp⟩
          rw [Parser.factor, factorBody, bind_apply, hopen, if_pos hc, bind_apply, hnode,
            bind_apply, hclose.left, if_pos rfl, pure_apply]
  | var hopen hvar =>
      obtain ⟨c, hc, -, hvar⟩ := hvar.taken
      refine ⟨some (.var (char c)), ?_, rfl⟩
      rw [Parser.factor, factorBody, bind_apply, hopen.left, if_neg (not_not.mpr rfl), bind_apply,
        hvar, if_pos hc, pure_apply, initVarNode, if_neg hc]
  | num hopen hvar hword =>
      obtain ⟨node, hnode, hok⟩ := num_does hword
      refine ⟨node, ?_, hok⟩
      rw [Parser.factor, factorBody, bind_apply, hopen.left, if_neg (not_not.mpr rfl), bind_apply,
        hvar.left, if_neg (not_not.mpr rfl), hnode]
  | @chain l _ _ _ _ _ _ _ ihleft ihbehind =>
      obtain ⟨left, hleft, hok⟩ := l.part_does ihleft
      obtain ⟨node, hnode, hok'⟩ := ihbehind left
      refine ⟨node, ?_, by rw [hok', hok]⟩
      rw [l.chain_action, hleft, hnode]
  | @done l _ _ hnext =>
      intro left
      refine ⟨left, ?_, by simp⟩
      rw [operations_eq _ l.action_shortens, hnext.left, if_pos rfl]
  | @more l _ _ _ _ _ _ hnext _ _ ihright ihbehind =>
      intro left
      obtain ⟨op, hop, -, hnext⟩ := hnext.taken
      obtain ⟨right, hright, hok⟩ := l.part_does ihright
      obtain ⟨node, hnode, hok'⟩ := ihbehind (initBinaryNode op left right)
      refine ⟨node, ?_, by rw [hok', isSome_initBinaryNode, hok, Bool.and_assoc]⟩
      rw [operations_eq _ l.action_shortens, hnext, if_neg hop, hright, hnode]
  | @condition _ _ _ _ _ _ found _ hop _ ihleft ihright =>
      obtain ⟨left, hleft, hok⟩ := ihleft
      obtain ⟨right, hright, hok'⟩ := ihright
      have hleft : expression _ = _ := hleft
      have hright : expression _ = _ := hright
      obtain ⟨op, hop⟩ : ∃ op, tryAdvance isComparisonOp ⟨_⟩ = (op, ⟨_⟩) := by
        cases found with
        | true =>
            obtain ⟨op, -, -, hop⟩ := hop.taken
            exact ⟨op, hop⟩
        | false => exact ⟨0, hop.left⟩
      refine ⟨initBinaryNode op left right, ?_, by rw [isSome_initBinaryNode, hok, hok']⟩
      rw [comparison, bind_apply, hleft, bind_apply, hop, bind_apply, hright, pure_apply]
  | gap hnext =>
      refine ⟨?_, rfl⟩
      rw [comments_eq, hnext.left, if_pos rfl]
  | comment hnext _ ih =>
      obtain ⟨c, hc, -, hnext⟩ := hnext.taken
      refine ⟨?_, rfl⟩
      rw [comments_eq, hnext, if_neg hc]
      exact ih.1
  | @closed _ _ _ kind next hend hkind =>
      intro result
      by_cases hnext : next = some kind
      · refine ⟨result, ?_, by simp [hnext]⟩
        rw [hend.read, Parser.closing, if_pos rfl, bind_apply, hkind.read, if_pos hnext, pure_apply]
      · refine ⟨none, ?_, by simp [hnext]⟩
        rw [hend.read, Parser.closing, if_pos rfl, bind_apply, hkind.read, if_neg hnext, pure_apply]
  | unclosed hword hend =>
      intro result
      refine ⟨none, ?_, by simp⟩
      rw [hword.read, Parser.closing, if_neg hend, pure_apply]
  | print hkeyword _ ih =>
      obtain ⟨expr, hexpr, hok⟩ := ih
      have hexpr : expression _ = _ := hexpr
      refine ⟨initPrintNode expr, ?_, by simpa [initPrintNode] using hok⟩
      rw [hkeyword.statementBody, keyword_print, printStatement, bind_apply, hexpr, pure_apply]
  | noName hkeyword hvar =>
      refine ⟨none, ?_, rfl⟩
      rw [hkeyword.statementBody, keyword_let, letStatement, bind_apply, advance_eq,
        if_neg (by simp [hvar]), pure_apply]
  | noEquals hkeyword hvar heq =>
      refine ⟨none, ?_, rfl⟩
      rw [hkeyword.statementBody, keyword_let, letStatement, bind_apply, advance_eq, if_pos hvar,
        bind_apply, advance_eq, if_neg heq, pure_apply]
  | @«let» _ r₁ _ _ hkeyword hvar heq _ ih =>
      obtain ⟨value, hvalue, hok⟩ := ih
      have hvalue : expression _ = _ := hvalue
      have hc : nextChar r₁ ≠ 0 := by
        intro hc
        rw [hc] at hvar
        exact absurd hvar (by decide)
      refine ⟨initLetNode (nextChar r₁) value, ?_, by simpa [initLetNode, hc] using hok⟩
      rw [hkeyword.statementBody, keyword_let, letStatement, bind_apply, advance_eq, if_pos hvar,
        bind_apply, advance_eq, if_pos heq, bind_apply, hvalue, pure_apply]
  | «if» hkeyword _ _ hnext helse _ ihcondition ihbody ihclosing =>
      obtain ⟨condition, hcondition, hok⟩ := ihcondition
      obtain ⟨ifBranch, hbranch, hok'⟩ := sequence_does ihbody
      obtain ⟨node, hnode, hclosed⟩ := ihclosing (initIfNode condition ifBranch none)
      rw [isSome_initIfNode, hok, hok'] at hclosed
      refine ⟨node, ?_, hclosed⟩
      rw [hkeyword.statementBody, keyword_if, ifStatement_apply, hcondition]
      simp only
      rw [hbranch, hnext.read, if_neg helse, ← hnext.read, hnode]
  | ifElse hkeyword _ _ helse _ _ ihcondition ihbody ihother ihclosing =>
      obtain ⟨condition, hcondition, hok⟩ := ihcondition
      obtain ⟨ifBranch, hbranch, hok'⟩ := sequence_does ihbody
      obtain ⟨elseBranch, hother, -⟩ := sequence_does ihother
      obtain ⟨node, hnode, hclosed⟩ := ihclosing (initIfNode condition ifBranch elseBranch)
      rw [isSome_initIfNode, hok, hok'] at hclosed
      refine ⟨node, ?_, hclosed⟩
      rw [hkeyword.statementBody, keyword_if, ifStatement_apply, hcondition]
      simp only
      rw [hbranch, helse.read, if_pos rfl, hother, hnode]
  | «while» hkeyword _ _ _ ihcondition ihbody ihclosing =>
      obtain ⟨condition, hcondition, hok⟩ := ihcondition
      obtain ⟨body, hbody, hok'⟩ := sequence_does ihbody
      obtain ⟨node, hnode, hclosed⟩ := ihclosing (initWhileNode condition body)
      rw [isSome_initWhileNode, hok, hok'] at hclosed
      refine ⟨node, ?_, hclosed⟩
      rw [hkeyword.statementBody, keyword_while, whileStatement_apply, hcondition, hbody, hnode]
  | strayEnd hend hnext hif hwhile =>
      refine ⟨none, ?_, rfl⟩
      rw [hend.statementBody, keyword, if_neg (by decide), if_pos rfl, bind_apply, hnext.read,
        if_neg (by simp [hif, hwhile]), pure_apply]
  | noKeyword hword hother =>
      simp only [List.mem_cons, List.not_mem_nil, or_false, not_or] at hother
      obtain ⟨hELSE, hEND, hPRINT, hLET, hIF, hWHILE⟩ := hother
      refine ⟨none, ?_, rfl⟩
      rw [hword.statementBody, keyword, if_neg hELSE, if_neg hEND, if_neg hPRINT, if_neg hLET,
        if_neg hIF, if_neg hWHILE, pure_apply]
  | stops _ hstops ih =>
      intro before
      have hended := (statement_of_gap ih.1).trans hstops.ended
      exact ⟨some before, statements_of_ended before hended, rfl⟩
  | fails _ _ ihgap ihstmt =>
      intro before
      obtain ⟨node, hnode, hok⟩ := ihstmt
      rw [Option.isSome_eq_false_iff, Option.isNone_iff_eq_none] at hok
      refine ⟨none, ?_, rfl⟩
      rw [statements_eq sequence_shortens, statement_of_gap ihgap.1, hnode, hok]
      rfl
  | behind _ _ _ ihgap ihstmt ihrest =>
      intro before
      obtain ⟨node, hnode, hok⟩ := ihstmt
      obtain ⟨node, rfl⟩ := Option.isSome_iff_exists.mp hok
      obtain ⟨nodes, hnodes, hok⟩ := ihrest (before ++ [node])
      refine ⟨nodes, ?_, hok⟩
      rw [statements_of_statement before ((statement_of_gap ihgap.1).trans hnode), hnodes]

end Does

/-! ## What the parser reads is scanned so -/

section Scans

variable {s t : State}

/-- The word that `advance_until_separator` returns is the next one. -/
theorem nextWord_of_eq {next : Option (List UInt8)} (h : advanceUntilSeparator s = (next, t)) :
    NextWord s.rest next t.rest := by
  obtain ⟨next', rest, hword, -⟩ := exists_nextWord s.rest
  obtain ⟨rfl, rfl⟩ := Prod.mk.inj (hword.read.symm.trans h)
  exact hword

/-- What a function reads is the part that has its end there. -/
theorem Ends.scan {part : Part} {x : Action (Option Node)} {node : Option Node}
    (hends : Ends part s.rest) (hx : ∀ {ok rest}, part.Does s.rest ok rest → x.Does s.rest ok rest)
    (h : x s = (node, t)) : Scan part s.rest node.isSome t.rest := by
  obtain ⟨ok, rest, hscan, -⟩ := hends
  obtain ⟨node', hnode, rfl⟩ := hx hscan.does
  obtain ⟨rfl, rfl⟩ := Prod.mk.inj (hnode.symm.trans h)
  exact hscan

/-- An expression, -/
theorem expression_scan {node : Option Node} (h : expression s = (node, t)) :
    Scan (.chain .terms) s.rest node.isSome t.rest := (expression_ends _).scan id h

/-- a condition -/
theorem comparison_scan {node : Option Node} (h : comparison s = (node, t)) :
    Scan .condition s.rest node.isSome t.rest := (condition_ends _).scan id h

/-- and a block are scanned as they are read, -/
theorem sequence_scan {node : Option Node} (h : sequence s = (node, t)) :
    Scan .block s.rest node.isSome t.rest := (block_ends _).scan sequence_does h

/-- and so are comments. -/
theorem comments_scan (h : comments s = ((), t)) : Scan .gap s.rest true t.rest := by
  obtain ⟨rest, hscan, -⟩ := gap_ends s.rest
  obtain ⟨-, rfl⟩ := Prod.mk.inj (hscan.does.1.symm.trans h)
  exact hscan

/-- A statement that is read is behind a gap. -/
theorem statement_scan {node : Node} (h : statement sequence s = ((some node, false), t)) :
    ∃ r, Scan .gap s.rest true r ∧ Scan .statement r true t.rest := by
  obtain ⟨ok, rest, hblock, -⟩ := block_ends s.rest
  cases hblock with
  | stops hgap hstops =>
      cases h.symm.trans ((statement_of_gap hgap.does.1).trans hstops.ended)
  | fails hgap hstmt =>
      obtain ⟨node', hnode, hok⟩ := hstmt.does
      cases h.symm.trans ((statement_of_gap hgap.does.1).trans hnode)
      cases hok
  | behind hgap hstmt _ =>
      obtain ⟨node', hnode, hok⟩ := hstmt.does
      cases h.symm.trans ((statement_of_gap hgap.does.1).trans hnode)
      exact ⟨_, hgap, hstmt⟩

variable {text rest : List UInt8}

/-- An expression that is scanned is read, -/
theorem Scan.exprRun (h : Scan (.chain .terms) text true rest) :
    ∃ node, ExprRun (.chain .terms) ⟨text⟩ node ⟨rest⟩ := by
  obtain ⟨node, hread, hok⟩ := h.does
  obtain ⟨node, rfl⟩ := Option.isSome_iff_exists.mp hok
  have hread : expression _ = _ := hread
  have hrun := expression_run (congrArg Prod.fst hread)
  rw [hread] at hrun
  exact ⟨node, hrun⟩

/-- and so are a condition -/
theorem Scan.condRun (h : Scan .condition text true rest) :
    ∃ condition, CondRun ⟨text⟩ condition ⟨rest⟩ := by
  obtain ⟨node, hread, hok⟩ := h.does
  obtain ⟨node, rfl⟩ := Option.isSome_iff_exists.mp hok
  exact ⟨node, comparison_run hread⟩

/-- and a block. -/
theorem Scan.stmtsRun (h : Scan .block text true rest) : ∃ nodes, StmtsRun ⟨text⟩ nodes ⟨rest⟩ := by
  obtain ⟨node, hread, hok⟩ := sequence_does h.does
  obtain ⟨node, rfl⟩ := Option.isSome_iff_exists.mp hok
  obtain ⟨nodes, -, hrun⟩ := sequence_run hread
  exact ⟨nodes, hrun⟩

end Scans

end Basic.Parser
