import CS24.Basic.Parser

/-!
# The parser comes to an end

No function of the parser leaves more to read than it found, and the recursive calls are
made behind a character that was read.  So the recursion equations hold, which are how the
source defines the functions.
-/

namespace Basic.Parser

open Descent

theorem bind_apply {α β : Type} (x : Action α) (f : α → Action β) (s : State) :
    (x >>= f) s = f (x s).1 (x s).2 := rfl

theorem pure_apply {α : Type} (a : α) (s : State) : (pure a : Action α) s = (a, s) := rfl

theorem map_apply {α β : Type} (f : α → β) (x : Action α) (s : State) :
    (f <$> x) s = (f (x s).1, (x s).2) := rfl

theorem get_apply (s : State) : (get : Action State) s = (s, s) := rfl

/-- The action leaves no more to read than it found. -/
def Shortens {α : Type} (x : Action α) : Prop := ∀ s, (x s).2.size ≤ s.size

/-- What an action leaves is no longer than what it found. -/
theorem Shortens.of_eq {α : Type} {x : Action α} (hx : Shortens x) {s t : State} {a : α}
    (h : x s = (a, t)) : t.size ≤ s.size := by
  have hle := hx s
  rwa [h] at hle

/-- A result without reading leaves the text as it is. -/
theorem Shortens.pure {α : Type} (a : α) : Shortens (pure a : Action α) := fun _ => le_refl _

/-- Two actions that read on do so one after the other. -/
theorem Shortens.bind {α β : Type} {x : Action α} {f : α → Action β} (hx : Shortens x)
    (hf : ∀ a, Shortens (f a)) : Shortens (x >>= f) := fun s => (hf _ _).trans (hx s)

/-- So do branches. -/
theorem Shortens.ite {α : Type} {p : Prop} [Decidable p] {x y : Action α} (hx : Shortens x)
    (hy : Shortens y) : Shortens (if p then x else y) := by
  split
  · exact hx
  · exact hy

/-- Skipping white space leaves no more. -/
theorem length_skip_le (rest : List UInt8) : (skip rest).length ≤ rest.length :=
  List.length_dropWhile_le _ _

/-- `try_advance` meets the end of the stream, a NUL byte, a character it wants, or
another one. -/
theorem tryAdvance_cases (p : UInt8 → Bool) (s : State) :
    (skip s.rest = [] ∧ tryAdvance p s = (0, ⟨[]⟩)) ∨
    (∃ rest, skip s.rest = 0 :: rest ∧ tryAdvance p s = (0, ⟨rest⟩)) ∨
    (∃ c rest, skip s.rest = c :: rest ∧ c ≠ 0 ∧ p c = true ∧
      tryAdvance p s = (c, ⟨rest⟩)) ∨
    (∃ c rest, skip s.rest = c :: rest ∧ c ≠ 0 ∧ p c = false ∧
      tryAdvance p s = (0, ⟨c :: rest⟩)) := by
  cases hskip : skip s.rest with
  | nil => simp [tryAdvance, advance, hskip, bind_apply, pure_apply]
  | cons c rest =>
      by_cases hc : c = 0
      · subst hc
        simp [tryAdvance, advance, hskip, bind_apply, pure_apply]
      · cases hp : p c <;>
          simp [tryAdvance, advance, hskip, bind_apply, pure_apply, map_apply, hc, hp, rewindOne]

/-- It leaves no more than it finds, taken or not. -/
theorem tryAdvance_shortens (p : UInt8 → Bool) : Shortens (tryAdvance p) := by
  intro s
  have hle := length_skip_le s.rest
  rcases tryAdvance_cases p s with ⟨-, h⟩ | ⟨rest, hskip, h⟩ | ⟨c, rest, hskip, -, -, h⟩ |
    ⟨c, rest, hskip, -, -, h⟩ <;> rw [h] <;> simp only [State.size] <;> grind

/-- A character that was wanted is gone. -/
theorem tryAdvance_lt {p : UInt8 → Bool} {s : State} (h : (tryAdvance p s).1 ≠ 0) :
    (tryAdvance p s).2.size < s.size := by
  have hle := length_skip_le s.rest
  rcases tryAdvance_cases p s with ⟨-, ht⟩ | ⟨rest, -, ht⟩ | ⟨c, rest, hskip, -, -, ht⟩ |
    ⟨c, rest, -, -, -, ht⟩
  · simp [ht] at h
  · simp [ht] at h
  · rw [ht]
    rw [hskip] at hle
    exact hle
  · simp [ht] at h

/-- It leaves no more than it finds. -/
theorem advance_shortens : Shortens advance := by
  intro s
  have hle := length_skip_le s.rest
  unfold advance
  split <;> simp only [State.size] <;> grind

/-- A token ends before an operator and at white space. -/
def isSeparator (c : UInt8) : Bool := isOperator c || isSpace c

/-- The characters up to the next separator. -/
def word (rest : List UInt8) : List UInt8 := rest.takeWhile (!isSeparator ·)

/-- What is behind them; white space that ends them is read. -/
def behindWord (rest : List UInt8) : List UInt8 :=
  match rest.dropWhile (!isSeparator ·) with
  | [] => []
  | c :: behind => if isOperator c then c :: behind else behind

/-- A word goes on with a character that is no separator, -/
theorem word_cons_of_not {c : UInt8} (h : isSeparator c = false) (rest : List UInt8) :
    word (c :: rest) = c :: word rest := by simp [word, h]

/-- and ends at one. -/
theorem word_cons_of {c : UInt8} (h : isSeparator c = true) (rest : List UInt8) :
    word (c :: rest) = [] := by simp [word, h]

/-- What is behind a word is behind its last character: -/
theorem behindWord_cons_of_not {c : UInt8} (h : isSeparator c = false) (rest : List UInt8) :
    behindWord (c :: rest) = behindWord rest := by simp [behindWord, h]

/-- the separator, if that is an operator, and otherwise what follows it. -/
theorem behindWord_cons_of {c : UInt8} (h : isSeparator c = true) (rest : List UInt8) :
    behindWord (c :: rest) = if isOperator c then c :: rest else rest := by
  simp [behindWord, h]

/-- The loop of `advance_until_separator`, behind the first character of a token. -/
theorem separatorLoop_eq {result : List UInt8} (h : 0 < result.length)
    (hle : result.length ≤ MAX_KEYWORD_LENGTH + 1) (rest : List UInt8) :
    separatorLoop result rest =
      if result.length + (word rest).length ≤ MAX_KEYWORD_LENGTH then
        (some (result ++ word rest), behindWord rest)
      else (none, rest.drop (MAX_KEYWORD_LENGTH + 1 - result.length)) := by
  induction rest generalizing result with
  | nil =>
      by_cases hlong : MAX_KEYWORD_LENGTH < result.length
      · simp [separatorLoop, hlong, word]
      · simp [separatorLoop, hlong, h, word, behindWord]
  | cons c rest ih =>
      by_cases hlong : MAX_KEYWORD_LENGTH < result.length
      · have hdrop : MAX_KEYWORD_LENGTH + 1 - result.length = 0 := by omega
        have hno : ¬ result.length + (word (c :: rest)).length ≤ MAX_KEYWORD_LENGTH := by omega
        rw [if_neg hno, hdrop]
        simp [separatorLoop, hlong]
      · by_cases hop : isOperator c = true
        · have hsep : isSeparator c = true := by simp [isSeparator, hop]
          rw [word_cons_of hsep, behindWord_cons_of hsep]
          simp [separatorLoop, hlong, hop, h]
        · by_cases hsp : isSpace c = true
          · have hsep : isSeparator c = true := by simp [isSeparator, hsp]
            rw [word_cons_of hsep, behindWord_cons_of hsep]
            simp [separatorLoop, hlong, hop, hsp, h]
          · have hsep : isSeparator c = false := by simp [isSeparator, hop, hsp]
            have hstep : separatorLoop result (c :: rest) = separatorLoop (result ++ [c]) rest := by
              simp [separatorLoop, hlong, hop, hsp]
            have hdrop : MAX_KEYWORD_LENGTH + 1 - result.length =
                MAX_KEYWORD_LENGTH + 1 - (result.length + 1) + 1 := by omega
            rw [hstep, ih (by simp) (by simp; omega), word_cons_of_not hsep,
              behindWord_cons_of_not hsep, hdrop]
            simp only [List.length_append, List.length_cons, List.length_nil, List.append_assoc,
              List.singleton_append, List.drop_succ_cons, Nat.zero_add]
            grind

/-- `advance_until_separator`: white space, then a character of any kind, then the
characters up to a separator. -/
theorem separatorLoop_nil (rest : List UInt8) :
    separatorLoop [] rest =
      match skip rest with
      | [] => (none, [])
      | c :: behind =>
        if (word behind).length < MAX_KEYWORD_LENGTH then
          (some (c :: word behind), behindWord behind)
        else (none, behind.drop MAX_KEYWORD_LENGTH) := by
  induction rest with
  | nil => simp [separatorLoop, skip]
  | cons c rest ih =>
      by_cases hsp : isSpace c = true
      · simpa [separatorLoop, hsp, skip] using ih
      · have hskip : skip (c :: rest) = c :: rest := by simp [skip, hsp]
        rw [hskip]
        have hstep : separatorLoop [] (c :: rest) = separatorLoop [c] rest := by
          simp [separatorLoop, hsp]
        rw [hstep, separatorLoop_eq (by simp) (by simp)]
        simp only [List.length_singleton, List.singleton_append, Nat.add_sub_cancel]
        grind

/-- Behind a word there is no more than with it. -/
theorem length_behindWord_le (rest : List UInt8) : (behindWord rest).length ≤ rest.length := by
  have hle := List.length_dropWhile_le (!isSeparator ·) rest
  unfold behindWord
  split
  · exact Nat.zero_le _
  · grind

/-- `advance_until_separator` meets the end of the stream, a token, or one that is too long. -/
theorem advanceUntilSeparator_cases (s : State) :
    (skip s.rest = [] ∧ advanceUntilSeparator s = (none, ⟨[]⟩)) ∨
    (∃ c rest, skip s.rest = c :: rest ∧ (word rest).length < MAX_KEYWORD_LENGTH ∧
      advanceUntilSeparator s = (some (cString (c :: word rest)), ⟨behindWord rest⟩)) ∨
    (∃ c rest, skip s.rest = c :: rest ∧ MAX_KEYWORD_LENGTH ≤ (word rest).length ∧
      advanceUntilSeparator s = (none, ⟨rest.drop MAX_KEYWORD_LENGTH⟩)) := by
  have hloop := separatorLoop_nil s.rest
  cases hskip : skip s.rest with
  | nil =>
      rw [hskip] at hloop
      simp [advanceUntilSeparator, hloop]
  | cons c rest =>
      rw [hskip] at hloop
      by_cases hshort : (word rest).length < MAX_KEYWORD_LENGTH
      · simp only [hshort, if_true] at hloop
        simp [advanceUntilSeparator, hloop, hshort]
      · simp only [hshort, if_false] at hloop
        simp [advanceUntilSeparator, hloop, not_lt.mp hshort]

/-- It leaves no more than it finds. -/
theorem advanceUntilSeparator_shortens : Shortens advanceUntilSeparator := by
  intro s
  have hle := length_skip_le s.rest
  rcases advanceUntilSeparator_cases s with ⟨-, h⟩ | ⟨c, rest, hskip, -, h⟩ |
    ⟨c, rest, hskip, -, h⟩
  · simp [h, State.size]
  · have hbehind := length_behindWord_le rest
    rw [h]
    simp only [State.size]
    grind
  · rw [h]
    simp only [State.size]
    grind

/-- A token is gone. -/
theorem advanceUntilSeparator_lt {s t : State} {token : List UInt8}
    (h : advanceUntilSeparator s = (some token, t)) : t.size < s.size := by
  have hle := length_skip_le s.rest
  rcases advanceUntilSeparator_cases s with ⟨-, ht⟩ | ⟨c, rest, hskip, -, ht⟩ |
    ⟨c, rest, hskip, -, ht⟩
  · rw [ht] at h
    cases h
  · have hbehind := length_behindWord_le rest
    rw [ht] at h
    cases h
    rw [hskip] at hle
    exact lt_of_le_of_lt hbehind (by simpa [State.size] using hle)
  · rw [ht] at h
    cases h

/-! ## Expressions -/

/-- The actions do the same where less than `n` characters are left. -/
def Agree {α : Type} (n : Nat) (x y : Action α) : Prop := ∀ s : State, s.size < n → x s = y s

/-- A function agrees with itself. -/
theorem Agree.refl {α : Type} (n : Nat) (x : Action α) : Agree n x x := fun _ _ => rfl

/-- Agreement on longer texts is agreement on shorter ones. -/
theorem Agree.mono {α : Type} {n m : Nat} {x y : Action α} (h : Agree n x y) (hle : m ≤ n) :
    Agree m x y := fun s hs => h s (by omega)

/-- Sequences agree where their parts do; the first part does not leave more text. -/
theorem Agree.bind {α β : Type} {n : Nat} {x y : Action α} {f g : α → Action β}
    (hxy : Agree n x y) (hx : Shortens x) (hfg : ∀ a, Agree n (f a) (g a)) :
    Agree n (x >>= f) (y >>= g) := by
  intro s hs
  rw [bind_apply, bind_apply, ← hxy s hs]
  exact hfg _ _ ((hx s).trans_lt hs)

/-- So do branches. -/
theorem Agree.ite {α : Type} {n : Nat} {p : Prop} [Decidable p] {x x' y y' : Action α}
    (hx : Agree n x x') (hy : Agree n y y') :
    Agree n (if p then x else y) (if p then x' else y') := by
  split
  · exact hx
  · exact hy

/-- It leaves no more than it finds. -/
theorem num_shortens : Shortens num := by
  refine advanceUntilSeparator_shortens.bind fun token => ?_
  cases token with
  | none => exact .pure _
  | some numString => exact .ite (.pure _) (.pure _)

section Expressions

variable {f g : Action (Option Node)}

/-- Reading an expression in parentheses leaves no more if `expression` does. -/
theorem factorBody_shortens (hf : Shortens f) : Shortens (factorBody f) := by
  refine (tryAdvance_shortens _).bind fun c => .ite ?_ ?_
  · exact hf.bind fun node => (tryAdvance_shortens _).bind fun c => .ite (.pure _) (.pure _)
  · exact (tryAdvance_shortens _).bind fun c => .ite (.pure _) num_shortens

/-- The expression in parentheses begins behind a parenthesis. -/
theorem factorBody_agree {n : Nat} (h : Agree n f g) : Agree (n + 1) (factorBody f) (factorBody g) := by
  intro s hs
  unfold factorBody
  rw [bind_apply, bind_apply]
  by_cases hparen : (tryAdvance isOpenParen s).1 = 0
  · simp only [hparen, ne_eq, not_true_eq_false, if_false]
  · have hlt := tryAdvance_lt hparen
    simp only [hparen, ne_eq, not_false_eq_true, if_true]
    rw [bind_apply, bind_apply (x := g), h _ (by omega)]

/-- One turn of the loop: no operator, or an operand behind it and the next turn. -/
theorem operationsBody_apply (isOp : UInt8 → Bool)
    (loop : Option Node × State → Option Node × State) (r : Option Node × State) :
    operationsBody isOp f loop r =
      if (tryAdvance isOp r.2).1 = 0 then (r.1, (tryAdvance isOp r.2).2)
      else
        loop (initBinaryNode (tryAdvance isOp r.2).1 r.1 (f (tryAdvance isOp r.2).2).1,
          (f (tryAdvance isOp r.2).2).2) := rfl

/-- The states of the loops of `term` and `expression`. -/
abbrev loopSize (r : Option Node × State) : Nat := r.2.size

/-- Each turn with an operator leaves less than it finds. -/
theorem operationsBody_descends (isOp : UInt8 → Bool) (hf : Shortens f) :
    Descends loopSize loopSize (operationsBody isOp f) where
  shrinks loop hloop := by
    intro r
    have hle := tryAdvance_shortens isOp r.2
    rw [operationsBody_apply]
    split
    · exact hle
    · exact (hloop _).trans ((hf _).trans hle)
  congr loop loop' r _ _ h := by
    rw [operationsBody_apply, operationsBody_apply]
    split
    · rfl
    · rename_i hop
      exact h _ ((hf _).trans_lt (tryAdvance_lt hop))

/-- So the loop may be unrolled by one turn. -/
theorem operations_eq (isOp : UInt8 → Bool) (hf : Shortens f) (result : Option Node) (s : State) :
    operations isOp f result s =
      if (tryAdvance isOp s).1 = 0 then (result, (tryAdvance isOp s).2)
      else
        operations isOp f
          (initBinaryNode (tryAdvance isOp s).1 result (f (tryAdvance isOp s).2).1)
          (f (tryAdvance isOp s).2).2 :=
  run_eq (operationsBody_descends isOp hf) (fun _ => le_refl _) (result, s)

/-- The loop leaves no more than it finds. -/
theorem operations_shortens (isOp : UInt8 → Bool) (hf : Shortens f) (result : Option Node) :
    Shortens (operations isOp f result) :=
  fun s => run_shrinks (operationsBody_descends isOp hf) (fun _ => le_refl _) (result, s)

/-- The operands of the loop begin behind an operator. -/
theorem operations_agree (isOp : UInt8 → Bool) (hf : Shortens f) (hg : Shortens g) {n : Nat}
    (h : Agree n f g) (result : Option Node) :
    Agree (n + 1) (operations isOp f result) (operations isOp g result) := by
  intro s hs
  induction hsize : s.size using Nat.strong_induction_on generalizing s result with
  | _ k ih =>
      rw [operations_eq isOp hf, operations_eq isOp hg]
      split
      · rfl
      · rename_i hop
        have hlt := tryAdvance_lt hop
        have hleft := hf (tryAdvance isOp s).2
        rw [← h _ (by omega)]
        exact ih _ (by omega) _ _ (by omega) rfl

/-- Terms leave no more than they find if `expression` does. -/
theorem termBody_shortens (hf : Shortens f) : Shortens (termBody f) :=
  (factorBody_shortens hf).bind fun _ => operations_shortens _ (factorBody_shortens hf) _

/-- Terms agree on a text if the expressions in their parentheses agree on shorter ones. -/
theorem termBody_agree (hf : Shortens f) (hg : Shortens g) {n : Nat} (h : Agree n f g) :
    Agree (n + 1) (termBody f) (termBody g) := by
  have hfactor := factorBody_agree h
  refine hfactor.bind (factorBody_shortens hf) fun _ => ?_
  have hloop := operations_agree isFactorOp (factorBody_shortens hf) (factorBody_shortens hg) hfactor
  exact (hloop _).mono (by omega)

/-- So do expressions. -/
theorem expressionBody_shortens (hf : Shortens f) : Shortens (expressionBody f) :=
  (termBody_shortens hf).bind fun _ => operations_shortens _ (termBody_shortens hf) _

/-- The same for expressions. -/
theorem expressionBody_agree (hf : Shortens f) (hg : Shortens g) {n : Nat} (h : Agree n f g) :
    Agree (n + 1) (expressionBody f) (expressionBody g) := by
  have hterm := termBody_agree hf hg h
  refine hterm.bind (termBody_shortens hf) fun _ => ?_
  have hloop := operations_agree isTermOp (termBody_shortens hf) (termBody_shortens hg) hterm
  exact (hloop _).mono (by omega)

/-- An expression calls itself for a shorter text only, behind a parenthesis. -/
theorem expressionBody_descends :
    Descends State.size (fun r : Option Node × State => r.2.size) expressionBody where
  shrinks _ hf := expressionBody_shortens hf
  congr _ _ s hf hg h := expressionBody_agree hf hg h s (Nat.lt_succ_self _)

end Expressions

/-- The result where the recursion stops. -/
theorem none_shortens :
    Shrinks State.size (fun r : Option Node × State => r.2.size) fun s => (none, s) :=
  fun _ => le_refl _

/-- An expression leaves no more than it finds. -/
theorem expression_shortens : Shortens expression := by
  have h := run_shrinks expressionBody_descends none_shortens
  unfold expression
  exact h

/-- Nor does a factor. -/
theorem factor_shortens : Shortens factor := by
  unfold factor
  exact factorBody_shortens expression_shortens

/-- Nor does a term. -/
theorem term_shortens : Shortens term := by
  unfold term
  exact termBody_shortens expression_shortens

/-- **The equation of `expression`.** -/
theorem expression_eq (s : State) :
    expression s = operations isTermOp term (term s).1 (term s).2 := by
  have h : expression s = expressionBody expression s := by
    unfold expression
    exact run_eq expressionBody_descends none_shortens s
  rw [h, expressionBody, bind_apply, ← term]

/-- `term` is a factor and the loop over operators. -/
theorem term_eq (s : State) :
    term s = operations isFactorOp factor (factor s).1 (factor s).2 := by
  rw [term, termBody, bind_apply, ← factor]

/-- Nor does a comparison. -/
theorem comparison_shortens : Shortens comparison :=
  expression_shortens.bind fun _ => (tryAdvance_shortens _).bind fun _ =>
    expression_shortens.bind fun _ => .pure _

/-! ## Statements -/

/-- Behind a line there is no more than with it. -/
theorem length_afterLine_le (rest : List UInt8) : (afterLine rest).length ≤ rest.length := by
  have hle := List.length_dropWhile_le (fun c => decide (c ≠ byte '\n')) rest
  unfold afterLine
  rw [List.length_drop]
  omega

/-- One turn of the loop: no comment, or the rest of its line and the next turn. -/
theorem commentsBody_apply (loop : State → Unit × State) (s : State) :
    commentsBody loop s =
      if (tryAdvance isCommentStart s).1 = 0 then ((), (tryAdvance isCommentStart s).2)
      else loop (skipLine (tryAdvance isCommentStart s).2).2 := rfl

/-- Each turn with a comment leaves less than it finds. -/
theorem commentsBody_descends :
    Descends State.size (fun r : Unit × State => r.2.size) commentsBody where
  shrinks loop hloop := by
    intro s
    have hle := tryAdvance_shortens isCommentStart s
    rw [commentsBody_apply]
    split
    · exact hle
    · exact (hloop _).trans ((length_afterLine_le _).trans hle)
  congr loop loop' s _ _ h := by
    rw [commentsBody_apply, commentsBody_apply]
    split
    · rfl
    · rename_i hop
      exact h _ ((length_afterLine_le _).trans_lt (tryAdvance_lt hop))

/-- So the loop may be unrolled by one turn. -/
theorem comments_eq (s : State) :
    comments s =
      if (tryAdvance isCommentStart s).1 = 0 then ((), (tryAdvance isCommentStart s).2)
      else comments (skipLine (tryAdvance isCommentStart s).2).2 := by
  unfold comments
  exact run_eq commentsBody_descends (fun _ => le_refl _) s

/-- Skipping comments leaves no more. -/
theorem comments_shortens : Shortens comments := by
  unfold comments
  exact run_shrinks commentsBody_descends fun _ => le_refl _

/-- `LET` leaves no more than it finds. -/
theorem letStatement_shortens : Shortens letStatement :=
  advance_shortens.bind fun _ => .ite
    (advance_shortens.bind fun _ => .ite (expression_shortens.bind fun _ => .pure _) (.pure _))
    (.pure _)

/-- Nor does `PRINT`. -/
theorem printStatement_shortens : Shortens printStatement :=
  expression_shortens.bind fun _ => .pure _

section Statements

variable {f g : Action (Option Node)} {n : Nat}

/-- Nor does `IF`, if the sequences in it do not. -/
theorem ifStatement_shortens (hf : Shortens f) : Shortens (ifStatement f) := by
  have haus := advanceUntilSeparator_shortens
  refine comparison_shortens.bind fun condition => hf.bind fun ifBranch => haus.bind fun next =>
    Shortens.bind ?_ fun r => ?_
  · exact .ite (hf.bind fun node => haus.bind fun next => .pure _) (.pure _)
  · exact .ite (haus.bind fun next => .ite (.pure _) (.pure _)) (.pure _)

/-- `IF` agrees where the sequences in it do. -/
theorem ifStatement_agree (hf : Shortens f) (h : Agree n f g) :
    Agree n (ifStatement f) (ifStatement g) := by
  have haus := advanceUntilSeparator_shortens
  refine (Agree.refl n comparison).bind comparison_shortens fun condition =>
    h.bind hf fun ifBranch => (Agree.refl n _).bind haus fun next => Agree.bind ?_ ?_ fun r => ?_
  · exact .ite (h.bind hf fun node => .refl n _) (.refl n _)
  · exact .ite (hf.bind fun node => haus.bind fun next => .pure _) (.pure _)
  · exact .refl n _

/-- `WHILE` leaves no more than it finds, if the sequence in it does not. -/
theorem whileStatement_shortens (hf : Shortens f) : Shortens (whileStatement f) := by
  have haus := advanceUntilSeparator_shortens
  exact comparison_shortens.bind fun condition => hf.bind fun body => haus.bind fun next =>
    .ite (haus.bind fun next => .ite (.pure _) (.pure _)) (.pure _)

/-- `WHILE` agrees where the sequence in it does. -/
theorem whileStatement_agree (hf : Shortens f) (h : Agree n f g) :
    Agree n (whileStatement f) (whileStatement g) :=
  (Agree.refl n comparison).bind comparison_shortens fun _ => h.bind hf fun _ => .refl n _

/-- What `statement` does with a keyword. -/
def keyword (sequence : Action (Option Node)) (start next : List UInt8) :
    Action (Option Node × Bool) :=
  if next = ELSE then do
    restorePosition start
    pure (none, true)
  else if next = END then do
    let next ← advanceUntilSeparator
    if next = some IF ∨ next = some WHILE then
      restorePosition start
      pure (none, true)
    else pure (none, false)
  else if next = PRINT then (·, false) <$> printStatement
  else if next = LET then (·, false) <$> letStatement
  else if next = IF then (·, false) <$> ifStatement sequence
  else if next = WHILE then (·, false) <$> whileStatement sequence
  else pure (none, false)

/-- The choice of the statement by the next word. -/
theorem statementBody_apply (s : State) :
    statementBody f s =
      match (advanceUntilSeparator s).1 with
      | none => ((none, true), (advanceUntilSeparator s).2)
      | some next => keyword f s.rest next (advanceUntilSeparator s).2 := by
  unfold statementBody
  rw [bind_apply, map_apply, get_apply, bind_apply]
  cases (advanceUntilSeparator s).1 <;> rfl

/-- A keyword ends the sequence and is put back, the parser goes on behind it, or it is
none. -/
theorem keyword_cases (f : Action (Option Node)) (start next : List UInt8) (s : State) :
    (next = ELSE ∧ keyword f start next s = ((none, true), ⟨start⟩)) ∨
    (∃ token t, next = END ∧ advanceUntilSeparator s = (some token, t) ∧
      (token = IF ∨ token = WHILE) ∧
      keyword f start next s = ((none, true), ⟨start⟩)) ∨
    (next = END ∧ keyword f start next s = ((none, false), (advanceUntilSeparator s).2)) ∨
    (∃ x, (next = PRINT ∧ x = printStatement ∨ next = LET ∧ x = letStatement ∨
        next = IF ∧ x = ifStatement f ∨ next = WHILE ∧ x = whileStatement f) ∧
      keyword f start next s = (((x s).1, false), (x s).2)) ∨
    keyword f start next s = ((none, false), s) := by
  unfold keyword
  split
  · exact .inl ⟨‹_›, rfl⟩
  split
  · rw [bind_apply]
    split
    · rename_i hend htoken
      rcases htoken with htoken | htoken
      · exact .inr (.inl ⟨_, _, hend, Prod.ext htoken rfl, .inl rfl, rfl⟩)
      · exact .inr (.inl ⟨_, _, hend, Prod.ext htoken rfl, .inr rfl, rfl⟩)
    · exact .inr (.inr (.inl ⟨‹_›, rfl⟩))
  split
  · exact .inr (.inr (.inr (.inl ⟨_, .inl ⟨‹_›, rfl⟩, map_apply _ _ _⟩)))
  split
  · exact .inr (.inr (.inr (.inl ⟨_, .inr (.inl ⟨‹_›, rfl⟩), map_apply _ _ _⟩)))
  split
  · exact .inr (.inr (.inr (.inl ⟨_, .inr (.inr (.inl ⟨‹_›, rfl⟩)), map_apply _ _ _⟩)))
  split
  · exact .inr (.inr (.inr (.inl ⟨_, .inr (.inr (.inr ⟨‹_›, rfl⟩)), map_apply _ _ _⟩)))
  · exact .inr (.inr (.inr (.inr rfl)))

/-- A word that ends the sequence is put back; behind any other one there is no more text than
before. -/
theorem keyword_size (hf : Shortens f) (start next : List UInt8) (s : State) :
    ((keyword f start next s).1.2 = true ∧ (keyword f start next s).2.rest = start) ∨
    ((keyword f start next s).1.2 = false ∧ (keyword f start next s).2.size ≤ s.size) := by
  rcases keyword_cases f start next s with ⟨-, h⟩ | ⟨token, t, -, -, -, h⟩ | ⟨-, h⟩ |
    ⟨x, hx, h⟩ | h
  · exact .inl (by rw [h]; exact ⟨rfl, rfl⟩)
  · exact .inl (by rw [h]; exact ⟨rfl, rfl⟩)
  · exact .inr (by rw [h]; exact ⟨rfl, advanceUntilSeparator_shortens s⟩)
  · have hshort : Shortens x := by
      rcases hx with ⟨-, rfl⟩ | ⟨-, rfl⟩ | ⟨-, rfl⟩ | ⟨-, rfl⟩
      · exact printStatement_shortens
      · exact letStatement_shortens
      · exact ifStatement_shortens hf
      · exact whileStatement_shortens hf
    exact .inr (by rw [h]; exact ⟨rfl, hshort s⟩)
  · exact .inr (by rw [h]; exact ⟨rfl, le_refl _⟩)

/-- The statements of a word agree where sequences do. -/
theorem keyword_agree (hf : Shortens f) (h : Agree n f g) (start next : List UInt8) :
    Agree n (keyword f start next) (keyword g start next) := by
  intro s hs
  unfold keyword
  have hif := ifStatement_agree hf h s hs
  have hwhile := whileStatement_agree hf h s hs
  simp only [apply_ite (fun x : Action (Option Node × Bool) => x s), map_apply, hif, hwhile]

/-- A statement that does not end the sequence is gone. -/
theorem statementBody_size (hf : Shortens f) (s : State) :
    (statementBody f s).2.size ≤ s.size ∧
      ((statementBody f s).1.2 = false → (statementBody f s).2.size < s.size) := by
  have hle := advanceUntilSeparator_shortens s
  rw [statementBody_apply]
  split
  · exact ⟨hle, fun h => by cases h⟩
  · rename_i next hnext
    have hlt : (advanceUntilSeparator s).2.size < s.size :=
      advanceUntilSeparator_lt (Prod.ext hnext rfl)
    rcases keyword_size hf s.rest next (advanceUntilSeparator s).2 with ⟨hend, hrest⟩ | ⟨-, hsize⟩
    · exact ⟨by simp [State.size, hrest], fun h => by simp [hend] at h⟩
    · exact ⟨by omega, fun _ => by omega⟩

/-- The bodies of a statement begin behind its keyword. -/
theorem statementBody_agree (hf : Shortens f) (h : Agree n f g) :
    Agree (n + 1) (statementBody f) (statementBody g) := by
  intro s hs
  rw [statementBody_apply, statementBody_apply]
  split
  · rfl
  · rename_i next hnext
    have hlt : (advanceUntilSeparator s).2.size < s.size :=
      advanceUntilSeparator_lt (Prod.ext hnext rfl)
    exact keyword_agree hf h _ _ _ (by omega)

/-- A statement leaves no more than it finds, and less if it does not end the sequence. -/
theorem statement_size (hf : Shortens f) (s : State) :
    (statement f s).2.size ≤ s.size ∧
      ((statement f s).1.2 = false → (statement f s).2.size < s.size) := by
  have hle := comments_shortens s
  have hbody := statementBody_size hf (comments s).2
  rw [statement, bind_apply]
  exact ⟨hbody.1.trans hle, fun h => (hbody.2 h).trans_le hle⟩

/-- Statements agree if the sequences in them agree on shorter texts. -/
theorem statement_agree (hf : Shortens f) (h : Agree n f g) :
    Agree (n + 1) (statement f) (statement g) :=
  (Agree.refl _ comments).bind comments_shortens fun _ => statementBody_agree hf h

/-- One turn of the loop: the end of the sequence, no statement, or one and the next turn. -/
theorem statementsBody_apply (loop : List Node × State → Option (List Node) × State)
    (r : List Node × State) :
    statementsBody f loop r =
      if (statement f r.2).1.2 then (some r.1, (statement f r.2).2)
      else
        match (statement f r.2).1.1 with
        | none => (none, (statement f r.2).2)
        | some node => loop (r.1 ++ [node], (statement f r.2).2) := rfl

/-- Each turn with a statement leaves less than it finds. -/
theorem statementsBody_descends (hf : Shortens f) :
    Descends (fun r : List Node × State => r.2.size)
      (fun r : Option (List Node) × State => r.2.size) (statementsBody f) where
  shrinks loop hloop := by
    intro r
    have hle := (statement_size hf r.2).1
    rw [statementsBody_apply]
    split
    · exact hle
    · split
      · exact hle
      · exact (hloop _).trans hle
  congr loop loop' r _ _ h := by
    have hlt := (statement_size hf r.2).2
    rw [statementsBody_apply, statementsBody_apply]
    split
    · rfl
    · rename_i hend
      split
      · rfl
      · exact h _ (hlt (by simpa using hend))

/-- So the loop may be unrolled by one turn. -/
theorem statements_eq (hf : Shortens f) (before : List Node) (s : State) :
    statements f before s =
      if (statement f s).1.2 then (some before, (statement f s).2)
      else
        match (statement f s).1.1 with
        | none => (none, (statement f s).2)
        | some node => statements f (before ++ [node]) (statement f s).2 :=
  run_eq (statementsBody_descends hf) (fun _ => le_refl _) (before, s)

/-- The loop leaves no more than it finds. -/
theorem statements_shortens (hf : Shortens f) (before : List Node) :
    Shortens (statements f before) :=
  fun s => run_shrinks (statementsBody_descends hf) (fun _ => le_refl _) (before, s)

/-- The loops agree if the sequences in their statements agree on shorter texts. -/
theorem statements_agree (hf : Shortens f) (hg : Shortens g) (h : Agree n f g)
    (before : List Node) : Agree (n + 1) (statements f before) (statements g before) := by
  intro s hs
  induction hsize : s.size using Nat.strong_induction_on generalizing s before with
  | _ k ih =>
      have hlt := (statement_size hf s).2
      rw [statements_eq hf, statements_eq hg, ← statement_agree hf h s hs]
      split
      · rfl
      · rename_i hend
        have hlt := hlt (by simpa using hend)
        split
        · rfl
        · exact ih _ (by omega) _ _ (by omega) rfl

/-- A sequence is the loop, with its statements made one node. -/
theorem sequenceBody_apply (s : State) :
    sequenceBody f s = ((statements f [] s).1.bind collect, (statements f [] s).2) := by
  unfold sequenceBody
  rw [bind_apply]
  cases (statements f [] s).1 <;> rfl

/-- A sequence calls itself for a shorter text only, behind a keyword. -/
theorem sequenceBody_descends :
    Descends State.size (fun r : Option Node × State => r.2.size) sequenceBody where
  shrinks f hf := by
    intro s
    rw [sequenceBody_apply]
    exact statements_shortens hf [] s
  congr f g s hf hg h := by
    rw [sequenceBody_apply, sequenceBody_apply,
      statements_agree hf hg h [] s (Nat.lt_succ_self _)]

end Statements

/-- A sequence leaves no more than it finds. -/
theorem sequence_shortens : Shortens sequence := by
  have h := run_shrinks sequenceBody_descends none_shortens
  unfold sequence
  exact h

/-- **The equation of `sequence`.** -/
theorem sequence_eq (s : State) :
    sequence s = ((statements sequence [] s).1.bind collect, (statements sequence [] s).2) := by
  have h : sequence s = sequenceBody sequence s := by
    unfold sequence
    exact run_eq sequenceBody_descends none_shortens s
  rw [h, sequenceBody_apply]

end Basic.Parser
