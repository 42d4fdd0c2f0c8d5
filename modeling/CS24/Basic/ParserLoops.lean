import CS24.Basic.ParserSteps

/-!
# The parser on a stream with a position

`parser.c` with the stream that it reads: `fgetc` moves a position forward and `fseek` moves
it back.  The loops and calls are those of the source, so nothing in them says that they
come to an end; `fuel` bounds their depth, and a function that runs out of it is `none`.
They follow the functions of the parser: what is left of the stream is what those have still
to read, and with enough fuel they return what those return.
-/

namespace Basic.Parser.Loops

/-- A `FILE`; `reads` counts the calls of `fgetc`. -/
structure Stream where
  text : List UInt8
  pos : Nat
  reads : Nat

/-- A function that changes the stream; `none` if the fuel runs out. -/
abbrev Run (α : Type) := StateT Stream Option α

/-- The fuel has run out. -/
def timeout {α : Type} : Run α := fun _ => none

/-! ## The functions of the source -/

/-- `fgetc`; `none` is `EOF`. -/
def fgetc : Run (Option UInt8) := fun stream =>
  match stream.text[stream.pos]? with
  | none => some (none, { stream with reads := stream.reads + 1 })
  | some c => some (some c, { stream with pos := stream.pos + 1, reads := stream.reads + 1 })

def savePosition : Run Nat := fun stream => some (stream.pos, stream)

def restorePosition (position : Nat) : Run Unit := fun stream =>
  some ((), { stream with pos := position })

def rewindOne : Run Unit := fun stream => some ((), { stream with pos := stream.pos - 1 })

def advance : Nat → Run UInt8
  | 0 => timeout
  | fuel + 1 => do
    match ← fgetc with
    | none => pure 0
    | some result => if isSpace result then advance fuel else pure result

section Fuel

variable (fuel : Nat)

def tryAdvance (predicate : UInt8 → Bool) : Run UInt8 := do
  let next ← advance fuel
  if next ≠ 0 ∧ predicate next = false then
    rewindOne
    pure 0
  else pure next

def atEnd : Run Bool := do
  let next ← advance fuel
  if next ≠ 0 then
    rewindOne
    pure false
  else pure true

end Fuel

/-- The loop of `advance_until_separator`. -/
def separatorLoop : Nat → List UInt8 → Run (Option (List UInt8))
  | 0, _ => timeout
  | fuel + 1, result => do
    if MAX_KEYWORD_LENGTH < result.length then pure none
    else
      match ← fgetc with
      | none => if 0 < result.length then pure (some result) else pure none
      | some c =>
        if isOperator c ∧ 0 < result.length then
          rewindOne
          pure (some result)
        else if isSpace c then
          if 0 < result.length then pure (some result) else separatorLoop fuel result
        else separatorLoop fuel (result ++ [c])

def skipLine : Nat → Run Unit
  | 0 => timeout
  | fuel + 1 => do
    match ← fgetc with
    | none => pure ()
    | some character => if character = byte '\n' then pure () else skipLine fuel

section Fuel

variable (fuel : Nat)

def advanceUntilSeparator : Run (Option (List UInt8)) := do
  let result ← separatorLoop fuel []
  pure (result.map cString)

def num : Run (Option Node) := do
  match ← advanceUntilSeparator fuel with
  | none => pure none
  | some numString =>
    let (value, numEnd) := strtol numString
    if ¬ InRange value ∨ numEnd ≠ [] then pure none
    else pure (initNumNode (BitVec.ofInt 64 value))

end Fuel

mutual

def factor : Nat → Run (Option Node)
  | 0 => timeout
  | fuel + 1 => do
    if (← tryAdvance fuel isOpenParen) ≠ 0 then
      let node ← expression fuel
      if (← tryAdvance fuel isCloseParen) = 0 then pure none else pure node
    else
      let var ← tryAdvance fuel isVariableName
      if var ≠ 0 then pure (initVarNode var) else num fuel

/-- The loop of `term`. -/
def termLoop : Nat → Option Node → Run (Option Node)
  | 0, _ => timeout
  | fuel + 1, result => do
    let next ← tryAdvance fuel isFactorOp
    if next = 0 then pure result
    else
      let right ← factor fuel
      termLoop fuel (initBinaryNode next result right)

def term : Nat → Run (Option Node)
  | 0 => timeout
  | fuel + 1 => do
    let result ← factor fuel
    termLoop fuel result

/-- The loop of `expression`. -/
def expressionLoop : Nat → Option Node → Run (Option Node)
  | 0, _ => timeout
  | fuel + 1, result => do
    let next ← tryAdvance fuel isTermOp
    if next = 0 then pure result
    else
      let right ← term fuel
      expressionLoop fuel (initBinaryNode next result right)

def expression : Nat → Run (Option Node)
  | 0 => timeout
  | fuel + 1 => do
    let result ← term fuel
    expressionLoop fuel result

end

/-- The loop over the comments before a statement. -/
def comments : Nat → Run Unit
  | 0 => timeout
  | fuel + 1 => do
    if (← tryAdvance fuel isCommentStart) = 0 then pure ()
    else
      skipLine fuel
      comments fuel

section Fuel

variable (fuel : Nat)

def comparison : Run (Option Node) := do
  let left ← expression fuel
  let op ← tryAdvance fuel isComparisonOp
  let right ← expression fuel
  pure (initBinaryNode op left right)

def printStatement : Run (Option Node) := do
  let expr ← expression fuel
  pure (initPrintNode expr)

def letStatement : Run (Option Node) := do
  let var ← advance fuel
  if isVariableName var then
    if (← advance fuel) = byte '=' then
      let value ← expression fuel
      pure (initLetNode var value)
    else pure none
  else pure none

end Fuel

mutual

/-- The part of `statement` for `IF`. -/
def ifStatement : Nat → Run (Option Node)
  | 0 => timeout
  | fuel + 1 => do
    let condition ← comparison fuel
    let ifBranch ← sequence fuel
    let next ← advanceUntilSeparator fuel
    let (elseNode, next) ← (do
      if next = some ELSE then
        let node ← sequence fuel
        let next ← advanceUntilSeparator fuel
        pure (node, next)
      else pure (none, next) : Run (Option Node × Option (List UInt8)))
    if next = some END then
      if (← advanceUntilSeparator fuel) = some IF then
        pure (initIfNode condition ifBranch elseNode)
      else pure none
    else pure none

/-- The part of `statement` for `WHILE`. -/
def whileStatement : Nat → Run (Option Node)
  | 0 => timeout
  | fuel + 1 => do
    let condition ← comparison fuel
    let body ← sequence fuel
    if (← advanceUntilSeparator fuel) = some END then
      if (← advanceUntilSeparator fuel) = some WHILE then pure (initWhileNode condition body)
      else pure none
    else pure none

/-- `statement`; the `Bool` is `end`. -/
def statement : Nat → Run (Option Node × Bool)
  | 0 => timeout
  | fuel + 1 => do
    comments fuel
    let start ← savePosition
    match ← advanceUntilSeparator fuel with
    | none => pure (none, true)
    | some next =>
      if next = ELSE then
        restorePosition start
        pure (none, true)
      else if next = END then
        let next ← advanceUntilSeparator fuel
        if next = some IF ∨ next = some WHILE then
          restorePosition start
          pure (none, true)
        else pure (none, false)
      else if next = PRINT then
        let node ← printStatement fuel
        pure (node, false)
      else if next = LET then
        let node ← letStatement fuel
        pure (node, false)
      else if next = IF then
        let node ← ifStatement fuel
        pure (node, false)
      else if next = WHILE then
        let node ← whileStatement fuel
        pure (node, false)
      else pure (none, false)

/-- The loop of `sequence`, behind `statements`. -/
def sequenceLoop : Nat → List Node → Run (Option (List Node))
  | 0, _ => timeout
  | fuel + 1, statements => do
    let (next, ended) ← statement fuel
    if ended then pure (some statements)
    else
      match next with
      | none => pure none
      | some node => sequenceLoop fuel (statements ++ [node])

def sequence : Nat → Run (Option Node)
  | 0 => timeout
  | fuel + 1 => do
    match ← sequenceLoop fuel [] with
    | none => pure none
    | some statements => pure (collect statements)

end

def parse (fuel : Nat) : Run (Option Node) := do
  let ast ← sequence fuel
  if ← atEnd fuel then pure ast else pure none

/-! ## Following the parser -/

/-- The stream is over a text, and this is what is left of it. -/
structure At (text : List UInt8) (stream : Stream) (rest : List UInt8) : Prop where
  text_eq : stream.text = text
  pos_le : stream.pos ≤ text.length
  rest_eq : rest = text.drop stream.pos

/-- The stream one character before. -/
def Stream.back (stream : Stream) : Stream := { stream with pos := stream.pos - 1 }

/-- With enough fuel the function returns. -/
def Returns {α : Type} (x : Nat → Run α) (stream : Stream) (a : α) (stream' : Stream) : Prop :=
  ∃ enough, ∀ fuel, enough ≤ fuel → x fuel stream = some (a, stream')

/-- Where less than `n` characters of the text are left, the function returns what the parser's
function returns, and leaves what that leaves to read. -/
def Follows {α : Type} (text : List UInt8) (n : Nat) (x : Nat → Run α) (y : Action α) : Prop :=
  ∀ stream s, At text stream s.rest → s.size < n →
    ∃ stream', Returns x stream (y s).1 stream' ∧ At text stream' (y s).2.rest

section Rules

variable {α β : Type} {text : List UInt8} {n : Nat} {x x' : Nat → Run α} {y y' : Action α}
  {stream stream' stream'' : Stream} {a : α} {b : β}

/-- A step that succeeds hands on its result and the stream. -/
theorem bind_some {x : Run α} {f : α → Run β} (h : x stream = some (a, stream')) :
    (x >>= f) stream = f a stream' := by
  change (x stream).bind (fun r => f r.1 r.2) = _
  rw [h, Option.bind_some]

/-- What needs no fuel returns. -/
theorem Returns.of_eq (h : ∀ fuel, x fuel stream = some (a, stream')) : Returns x stream a stream' :=
  ⟨0, fun fuel _ => h fuel⟩

/-- One call deeper. -/
theorem Returns.succ (h : Returns (fun fuel => x (fuel + 1)) stream a stream') :
    Returns x stream a stream' := by
  obtain ⟨enough, h⟩ := h
  refine ⟨enough + 1, fun fuel hfuel => ?_⟩
  obtain ⟨fuel, rfl⟩ : ∃ k, fuel = k + 1 := ⟨fuel - 1, by omega⟩
  exact h fuel (by omega)

/-- A step, and then the rest. -/
theorem Returns.step (h : Returns x' stream' a stream'')
    (hx : ∀ fuel, x (fuel + 1) stream = x' fuel stream') : Returns x stream a stream'' := by
  obtain ⟨enough, h⟩ := h
  exact Returns.succ ⟨enough, fun fuel hfuel => (hx fuel).trans (h fuel hfuel)⟩

/-- A sequence returns with the larger of the two amounts of fuel. -/
theorem Returns.bind {f : Nat → α → Run β} (h : Returns x stream a stream')
    (hf : Returns (fun fuel => f fuel a) stream' b stream'') :
    Returns (fun fuel => x fuel >>= f fuel) stream b stream'' := by
  obtain ⟨enough, h⟩ := h
  obtain ⟨enough', hf⟩ := hf
  refine ⟨max enough enough', fun fuel hfuel => ?_⟩
  change (x fuel >>= f fuel) stream = _
  rw [bind_some (h fuel (le_trans (le_max_left _ _) hfuel))]
  exact hf fuel (le_trans (le_max_right _ _) hfuel)

/-- A result without reading. -/
theorem Follows.pure (a : α) : Follows text n (fun _ => pure a) (pure a) :=
  fun stream _ hat _ => ⟨stream, .of_eq fun _ => rfl, hat⟩

/-- One more unit of fuel does no harm. -/
theorem Follows.succ (h : Follows text n (fun fuel => x (fuel + 1)) y) : Follows text n x y := by
  intro stream s hat hs
  obtain ⟨stream', hrun, hat'⟩ := h stream s hat hs
  exact ⟨stream', hrun.succ, hat'⟩

/-- Sequencing, where the second function may follow for less characters. -/
theorem Follows.bind_of_lt {f : Nat → α → Run β} {g : α → Action β} (h : Follows text n x y)
    (hfg : ∀ s, s.size < n →
      ∃ m, (y s).2.size < m ∧ Follows text m (fun fuel => f fuel (y s).1) (g (y s).1)) :
    Follows text n (fun fuel => x fuel >>= f fuel) (y >>= g) := by
  intro stream s hat hs
  obtain ⟨stream', hrun, hat'⟩ := h stream s hat hs
  obtain ⟨m, hm, hf⟩ := hfg s hs
  obtain ⟨stream'', hrun', hat''⟩ := hf stream' _ hat' hm
  exact ⟨stream'', hrun.bind hrun', hat''⟩

/-- Sequences follow if their parts do; the first part leaves no more than it found. -/
theorem Follows.bind {f : Nat → α → Run β} {g : α → Action β} (h : Follows text n x y)
    (hy : Shortens y) (hfg : ∀ a, Follows text n (fun fuel => f fuel a) (g a)) :
    Follows text n (fun fuel => x fuel >>= f fuel) (y >>= g) :=
  h.bind_of_lt fun s hs => ⟨n, (hy s).trans_lt hs, hfg _⟩

/-- So do branches. -/
theorem Follows.ite {p : Prop} [Decidable p] (h : Follows text n x y) (h' : Follows text n x' y') :
    Follows text n (fun fuel => if p then x fuel else x' fuel) (if p then y else y') := by
  split
  · exact h
  · exact h'

/-- The position of a stream is restored. -/
theorem Follows.restore {begin : Stream} {start : List UInt8} (h : At text begin start) (a : α) :
    Follows text n (fun _ => do restorePosition begin.pos; return a)
      (do Parser.restorePosition start; return a) :=
  fun stream _ hat _ => ⟨{ stream with pos := begin.pos }, .of_eq fun _ => rfl,
    hat.text_eq, h.pos_le, h.rest_eq⟩

/-- A statement that does not end the sequence. -/
theorem Follows.statement (h : Follows text n x y) :
    Follows text n (fun fuel => do let node ← x fuel; return (node, false)) ((·, false) <$> y) := by
  intro stream s hat hs
  obtain ⟨stream', hrun, hat'⟩ := h stream s hat hs
  exact ⟨stream', hrun.bind (.of_eq fun _ => rfl), hat'⟩

end Rules

section Reading

variable {text rest : List UInt8} {n : Nat} {stream : Stream} {c : UInt8}

/-- At the end of the text `fgetc` reads `EOF`, and goes on to do so. -/
theorem fgetc_nil (h : At text stream []) :
    ∃ stream', fgetc stream = some (none, stream') ∧ At text stream' [] := by
  have hnone : stream.text[stream.pos]? = none := by
    rw [h.text_eq, List.getElem?_eq_none_iff, ← List.drop_eq_nil_iff, ← h.rest_eq]
  refine ⟨{ stream with reads := stream.reads + 1 }, ?_, h.text_eq, h.pos_le, h.rest_eq⟩
  rw [fgetc, hnone]

/-- The character is read, and a step back is before it again. -/
theorem fgetc_cons (h : At text stream (c :: rest)) : ∃ stream',
    fgetc stream = some (some c, stream') ∧ At text stream' rest ∧
      At text stream'.back (c :: rest) := by
  obtain ⟨rfl, hpos, hrest⟩ := h
  have hlt : stream.pos < stream.text.length := by
    rw [← not_le, ← List.drop_eq_nil_iff, ← hrest]
    exact List.cons_ne_nil _ _
  rw [List.drop_eq_getElem_cons hlt, List.cons.injEq] at hrest
  obtain ⟨rfl, rfl⟩ := hrest
  refine ⟨{ stream with pos := stream.pos + 1, reads := stream.reads + 1 }, ?_, ⟨rfl, hlt, rfl⟩,
    ⟨rfl, hpos, (List.drop_eq_getElem_cons hlt).symm⟩⟩
  rw [fgetc, List.getElem?_eq_getElem hlt]

/-- `advance` gets to the end of the stream. -/
theorem advance_nil (h : At text stream rest) (hskip : skip rest = []) :
    ∃ stream', Returns advance stream 0 stream' ∧ At text stream' [] := by
  induction rest generalizing stream with
  | nil =>
      obtain ⟨stream', hget, hat⟩ := fgetc_nil h
      refine ⟨stream', Returns.succ (.of_eq fun fuel => ?_), hat⟩
      rw [advance, bind_some hget]
      rfl
  | cons c rest ih =>
      obtain ⟨stream', hget, hat, -⟩ := fgetc_cons h
      have hspace : isSpace c = true := by
        by_contra hno
        simp [skip, hno] at hskip
      obtain ⟨stream'', hrun, hat'⟩ := ih hat (by simpa [skip, hspace] using hskip)
      refine ⟨stream'', hrun.step fun fuel => ?_, hat'⟩
      rw [advance, bind_some hget]
      simp only [hspace, if_true]

/-- `advance` reads the next character that is not white space. -/
theorem advance_cons {behind : List UInt8} (h : At text stream rest) (hskip : skip rest = c :: behind) :
    ∃ stream', Returns advance stream c stream' ∧ At text stream' behind ∧
      At text stream'.back (c :: behind) := by
  induction rest generalizing stream with
  | nil => cases hskip
  | cons d rest ih =>
      obtain ⟨stream', hget, hat, hback⟩ := fgetc_cons h
      by_cases hspace : isSpace d = true
      · obtain ⟨stream'', hrun, hat', hback'⟩ := ih hat (by simpa [skip, hspace] using hskip)
        refine ⟨stream'', hrun.step fun fuel => ?_, hat', hback'⟩
        rw [advance, bind_some hget]
        simp only [hspace, if_true]
      · have hcons : d :: rest = c :: behind := by simpa [skip, hspace] using hskip
        obtain ⟨rfl, rfl⟩ := List.cons.inj hcons
        refine ⟨stream', Returns.succ (.of_eq fun fuel => ?_), hat, hback⟩
        rw [advance, bind_some hget]
        simp only [hspace]
        rfl

/-- The loop of `advance` returns, with the next character behind white space. -/
theorem advance_follows : Follows text n advance Parser.advance := by
  intro stream s hat _
  cases hskip : skip s.rest with
  | nil =>
      have hrun : Parser.advance s = (0, ⟨[]⟩) := by simp [Parser.advance, hskip]
      rw [hrun]
      exact advance_nil hat hskip
  | cons c behind =>
      have hrun : Parser.advance s = (c, ⟨behind⟩) := by simp [Parser.advance, hskip]
      obtain ⟨stream', hget, hat', -⟩ := advance_cons hat hskip
      rw [hrun]
      exact ⟨stream', hget, hat'⟩

/-- `try_advance` returns, and steps back before a character that it does not take. -/
theorem tryAdvance_follows (predicate : UInt8 → Bool) :
    Follows text n (fun fuel => tryAdvance fuel predicate) (Parser.tryAdvance predicate) := by
  intro stream s hat _
  simp only [tryAdvance]
  rcases tryAdvance_cases predicate s with ⟨hskip, hrun⟩ | ⟨behind, hskip, hrun⟩ |
    ⟨c, behind, hskip, hc, hp, hrun⟩ | ⟨c, behind, hskip, hc, hp, hrun⟩
  · obtain ⟨stream', hget, hat'⟩ := advance_nil hat hskip
    rw [hrun]
    exact ⟨stream', hget.bind (.of_eq fun _ => rfl), hat'⟩
  · obtain ⟨stream', hget, hat', -⟩ := advance_cons hat hskip
    rw [hrun]
    exact ⟨stream', hget.bind (.of_eq fun _ => rfl), hat'⟩
  · obtain ⟨stream', hget, hat', -⟩ := advance_cons hat hskip
    rw [hrun]
    refine ⟨stream', hget.bind (.of_eq fun _ => ?_), hat'⟩
    rw [if_neg (by simp [hp])]
    rfl
  · obtain ⟨stream', hget, -, hback⟩ := advance_cons hat hskip
    rw [hrun]
    refine ⟨stream'.back, hget.bind (.of_eq fun _ => ?_), hback⟩
    rw [if_pos ⟨hc, hp⟩]
    rfl

/-- The loop of `advance_until_separator`.  By induction on what is left. -/
theorem separatorLoop_returns (result : List UInt8) (h : At text stream rest) :
    ∃ stream', Returns (fun fuel => separatorLoop fuel result) stream
        (Parser.separatorLoop result rest).1 stream' ∧
      At text stream' (Parser.separatorLoop result rest).2 := by
  induction rest generalizing stream result with
  | nil =>
      obtain ⟨stream', hget, hat⟩ := fgetc_nil h
      rw [Parser.separatorLoop]
      split
      · refine ⟨stream, Returns.succ (.of_eq fun fuel => ?_), h⟩
        rw [separatorLoop, if_pos ‹_›]
        rfl
      · refine ⟨stream', Returns.succ (.of_eq fun fuel => ?_), ?_⟩
        · rw [separatorLoop, if_neg ‹_›, bind_some hget]
          dsimp only
          split <;> rfl
        · split <;> exact hat
  | cons c rest ih =>
      obtain ⟨stream', hget, hat, hback⟩ := fgetc_cons h
      have hstep (fuel : Nat) (hshort : ¬ MAX_KEYWORD_LENGTH < result.length) :
          separatorLoop (fuel + 1) result stream =
            (if isOperator c ∧ 0 < result.length then do rewindOne; pure (some result)
              else if isSpace c then
                if 0 < result.length then pure (some result) else separatorLoop fuel result
              else separatorLoop fuel (result ++ [c]) : Run _) stream' := by
        rw [separatorLoop, if_neg hshort, bind_some hget]
      rw [Parser.separatorLoop]
      split
      · refine ⟨stream, Returns.succ (.of_eq fun fuel => ?_), h⟩
        rw [separatorLoop, if_pos ‹_›]
        rfl
      rename_i hshort
      split
      · rename_i hop
        refine ⟨stream'.back, Returns.succ (.of_eq fun fuel => ?_), hback⟩
        rw [hstep fuel hshort, if_pos hop]
        rfl
      rename_i hop
      split
      · rename_i hspace
        split
        · rename_i hsome
          refine ⟨stream', Returns.succ (.of_eq fun fuel => ?_), hat⟩
          rw [hstep fuel hshort, if_neg hop, if_pos hspace, if_pos hsome]
          rfl
        · rename_i hnone
          obtain ⟨stream'', hrun, hat'⟩ := ih result hat
          refine ⟨stream'', hrun.step fun fuel => ?_, hat'⟩
          rw [hstep fuel hshort, if_neg hop, if_pos hspace, if_neg hnone]
      · rename_i hspace
        obtain ⟨stream'', hrun, hat'⟩ := ih (result ++ [c]) hat
        refine ⟨stream'', hrun.step fun fuel => ?_, hat'⟩
        rw [hstep fuel hshort, if_neg hop, if_neg hspace]

/-- The loop of `advance_until_separator` returns, with the next token. -/
theorem advanceUntilSeparator_follows :
    Follows text n advanceUntilSeparator Parser.advanceUntilSeparator := by
  intro stream s hat _
  obtain ⟨stream', hrun, hat'⟩ := separatorLoop_returns [] hat
  have hsource : Returns advanceUntilSeparator stream
      ((Parser.separatorLoop [] s.rest).1.map cString) stream' := hrun.bind (.of_eq fun _ => rfl)
  unfold Parser.advanceUntilSeparator
  split
  · rename_i behind hloop
    rw [hloop] at hat' hsource
    exact ⟨stream', hsource, hat'⟩
  · rename_i result behind hloop
    rw [hloop] at hat' hsource
    exact ⟨stream', hsource, hat'⟩

/-- `at_end` returns, and leaves what comes next if that is not the end. -/
theorem atEnd_follows : Follows text n atEnd Parser.atEnd := by
  intro stream s hat _
  cases hskip : skip s.rest with
  | nil =>
      obtain ⟨stream', hget, hat'⟩ := advance_nil hat hskip
      have hrun : Parser.atEnd s = (true, ⟨[]⟩) := by
        simp [Parser.atEnd, Parser.advance, hskip, bind_apply, pure_apply]
      rw [hrun]
      exact ⟨stream', hget.bind (.of_eq fun _ => rfl), hat'⟩
  | cons c behind =>
      obtain ⟨stream', hget, hat', hback⟩ := advance_cons hat hskip
      by_cases hc : c = 0
      · subst hc
        have hrun : Parser.atEnd s = (true, ⟨behind⟩) := by
          simp [Parser.atEnd, Parser.advance, hskip, bind_apply, pure_apply]
        rw [hrun]
        exact ⟨stream', hget.bind (.of_eq fun _ => rfl), hat'⟩
      · have hrun : Parser.atEnd s = (false, ⟨c :: behind⟩) := by
          simp [Parser.atEnd, Parser.advance, hskip, bind_apply, map_apply, hc, Parser.rewindOne]
        rw [hrun]
        refine ⟨stream'.back, hget.bind (.of_eq fun _ => ?_), hback⟩
        rw [if_pos hc]
        rfl

/-- The loop that skips a comment ends behind its line. -/
theorem skipLine_returns (h : At text stream rest) :
    ∃ stream', Returns skipLine stream () stream' ∧ At text stream' (afterLine rest) := by
  induction rest generalizing stream with
  | nil =>
      obtain ⟨stream', hget, hat⟩ := fgetc_nil h
      refine ⟨stream', Returns.succ (.of_eq fun fuel => ?_), hat⟩
      rw [skipLine, bind_some hget]
      rfl
  | cons c rest ih =>
      obtain ⟨stream', hget, hat, -⟩ := fgetc_cons h
      by_cases hline : c = byte '\n'
      · have hafter : afterLine (c :: rest) = rest := by simp [afterLine, hline]
        rw [hafter]
        refine ⟨stream', Returns.succ (.of_eq fun fuel => ?_), hat⟩
        rw [skipLine, bind_some hget]
        simp only [hline, if_true]
        rfl
      · have hafter : afterLine (c :: rest) = afterLine rest := by simp [afterLine, hline]
        obtain ⟨stream'', hrun, hat'⟩ := ih hat
        rw [hafter]
        refine ⟨stream'', hrun.step fun fuel => ?_, hat'⟩
        rw [skipLine, bind_some hget]
        simp only [hline, if_false]

/-- So it does what `skipLine` does in one step. -/
theorem skipLine_follows : Follows text n skipLine Parser.skipLine :=
  fun _ _ hat _ => skipLine_returns hat

end Reading

section Expressions

variable {text : List UInt8} {n : Nat}

/-- A number is read as far as the parser reads it. -/
theorem num_follows : Follows text n num Parser.num := by
  refine advanceUntilSeparator_follows.bind advanceUntilSeparator_shortens fun token => ?_
  cases token with
  | none => exact .pure _
  | some numString => exact .ite (.pure _) (.pure _)

/-- The expression in parentheses begins behind a parenthesis. -/
theorem factor_follows (h : Follows text n expression Parser.expression) :
    Follows text (n + 1) factor Parser.factor := by
  rw [Parser.factor, factorBody]
  refine Follows.succ ((tryAdvance_follows _).bind_of_lt fun s hs => ?_)
  by_cases hparen : (Parser.tryAdvance isOpenParen s).1 = 0
  · simp only [hparen, ne_eq, not_true_eq_false, if_false]
    refine ⟨n + 1, (tryAdvance_shortens _ s).trans_lt hs, ?_⟩
    exact (tryAdvance_follows _).bind (tryAdvance_shortens _) fun var => .ite (.pure _) num_follows
  · have hlt := tryAdvance_lt hparen
    simp only [hparen, ne_eq, not_false_eq_true, if_true]
    refine ⟨n, by omega, ?_⟩
    exact h.bind expression_shortens fun node =>
      (tryAdvance_follows _).bind (tryAdvance_shortens _) fun c => .ite (.pure _) (.pure _)

/-- The loops of `term` and `expression`.  By induction on what is left: each round reads an
operator. -/
theorem operations_follows {loop : Nat → Option Node → Run (Option Node)} {isOp : UInt8 → Bool}
    {operand : Nat → Run (Option Node)} {operand' : Action (Option Node)}
    (hloop : ∀ fuel result, loop (fuel + 1) result = do
      let next ← tryAdvance fuel isOp
      if next = 0 then pure result
      else
        let right ← operand fuel
        loop fuel (initBinaryNode next result right))
    (h : Follows text n operand operand') (hshort : Shortens operand') (result : Option Node) :
    Follows text n (fun fuel => loop fuel result) (operations isOp operand' result) := by
  intro stream s hat hs
  induction hsize : s.size using Nat.strong_induction_on generalizing stream s result with
  | _ k ih =>
      obtain ⟨stream', hrun, hat'⟩ := tryAdvance_follows isOp stream s hat hs
      rw [operations_eq isOp hshort]
      split
      · rename_i hop
        refine ⟨stream', Returns.succ ?_, hat'⟩
        simp only [hloop]
        exact hrun.bind (.of_eq fun _ => by rw [if_pos hop]; rfl)
      · rename_i hop
        have hlt := tryAdvance_lt hop
        have hleft := hshort (Parser.tryAdvance isOp s).2
        obtain ⟨stream'', hrun', hat''⟩ := h stream' _ hat' (by omega)
        obtain ⟨last, hrun'', hlast⟩ := ih _ (by omega)
          (initBinaryNode (Parser.tryAdvance isOp s).1 result (operand' _).1) stream'' _ hat''
          (by omega) rfl
        refine ⟨last, Returns.succ ?_, hlast⟩
        simp only [hloop]
        refine hrun.bind ?_
        simp only [if_neg hop]
        exact hrun'.bind hrun''

/-- The loop of `term` returns if `factor` does. -/
theorem term_follows (h : Follows text n factor Parser.factor) : Follows text n term Parser.term := by
  rw [Parser.term, termBody]
  exact Follows.succ (h.bind factor_shortens fun result =>
    operations_follows (fun fuel result => by rw [termLoop]) h factor_shortens result)

/-- **Expressions.** `expression` returns.  By induction on what is left. -/
theorem expression_follows : Follows text n expression Parser.expression := by
  induction n with
  | zero => exact fun _ _ _ hs => absurd hs (Nat.not_lt_zero _)
  | succ n ih =>
      have hterm := term_follows (factor_follows ih)
      have heq : Parser.expression = Parser.term >>= operations isTermOp Parser.term :=
        funext expression_eq
      rw [heq]
      exact Follows.succ (hterm.bind term_shortens fun result =>
        operations_follows (fun fuel result => by rw [expressionLoop]) hterm term_shortens result)

/-- A comparison returns, as both of its operands do. -/
theorem comparison_follows : Follows text n comparison Parser.comparison :=
  expression_follows.bind expression_shortens fun _ =>
    (tryAdvance_follows _).bind (tryAdvance_shortens _) fun _ =>
      expression_follows.bind expression_shortens fun _ => .pure _

end Expressions

section Statements

variable {text : List UInt8} {n : Nat}

/-- The loop over the comments.  By induction on what is left: each round reads a `#`. -/
theorem comments_follows : Follows text n comments Parser.comments := by
  intro stream s hat hs
  induction hsize : s.size using Nat.strong_induction_on generalizing stream s with
  | _ k ih =>
      obtain ⟨stream', hrun, hat'⟩ := tryAdvance_follows isCommentStart stream s hat hs
      rw [comments_eq]
      split
      · rename_i hop
        refine ⟨stream', Returns.succ (hrun.bind (.of_eq fun _ => ?_)), hat'⟩
        rw [if_pos hop]
        rfl
      · rename_i hop
        have hlt := tryAdvance_lt hop
        have hleft : (Parser.skipLine (Parser.tryAdvance isCommentStart s).2).2.size ≤
            (Parser.tryAdvance isCommentStart s).2.size := length_afterLine_le _
        obtain ⟨stream'', hrun', hat''⟩ := skipLine_follows stream' _ hat' (hlt.trans hs)
        obtain ⟨last, hrun'', hlast⟩ := ih _ (by omega) stream'' _ hat'' (by omega) rfl
        refine ⟨last, Returns.succ (hrun.bind ?_), hlast⟩
        simp only [if_neg hop]
        exact hrun'.bind hrun''

/-- `PRINT` returns, as its expression does. -/
theorem printStatement_follows : Follows text n printStatement Parser.printStatement :=
  expression_follows.bind expression_shortens fun _ => .pure _

/-- `LET` returns, as its value does. -/
theorem letStatement_follows : Follows text n letStatement Parser.letStatement :=
  advance_follows.bind advance_shortens fun _ => .ite
    (advance_follows.bind advance_shortens fun _ => .ite
      (expression_follows.bind expression_shortens fun _ => .pure _) (.pure _))
    (.pure _)

/-- `IF` returns if the sequences in its branches do. -/
theorem ifStatement_follows (h : Follows text n sequence Parser.sequence) :
    Follows text n ifStatement (Parser.ifStatement Parser.sequence) := by
  have hword := advanceUntilSeparator_shortens
  rw [Parser.ifStatement]
  refine Follows.succ (comparison_follows.bind comparison_shortens fun condition =>
    h.bind sequence_shortens fun ifBranch =>
      advanceUntilSeparator_follows.bind hword fun next => Follows.bind ?_ ?_ fun r => ?_)
  · exact .ite (h.bind sequence_shortens fun node =>
      advanceUntilSeparator_follows.bind hword fun next => .pure _) (.pure _)
  · exact .ite (sequence_shortens.bind fun node => hword.bind fun next => .pure _) (.pure _)
  · exact .ite (advanceUntilSeparator_follows.bind hword fun next => .ite (.pure _) (.pure _))
      (.pure _)

/-- `WHILE` returns if the sequence in its body does. -/
theorem whileStatement_follows (h : Follows text n sequence Parser.sequence) :
    Follows text n whileStatement (Parser.whileStatement Parser.sequence) := by
  have hword := advanceUntilSeparator_shortens
  rw [Parser.whileStatement]
  exact Follows.succ (comparison_follows.bind comparison_shortens fun condition =>
    h.bind sequence_shortens fun body => advanceUntilSeparator_follows.bind hword fun next =>
      .ite (advanceUntilSeparator_follows.bind hword fun next => .ite (.pure _) (.pure _)) (.pure _))

/-- The bodies of a statement begin behind its keyword. -/
theorem statement_follows (h : Follows text n sequence Parser.sequence) :
    Follows text (n + 1) statement (Parser.statement Parser.sequence) := by
  rw [Parser.statement]
  refine Follows.succ (comments_follows.bind comments_shortens fun _ => ?_)
  intro stream s hat hs
  have hsave (fuel : Nat) : savePosition stream = some (stream.pos, stream) := rfl
  have hbody : statementBody Parser.sequence s = (Parser.advanceUntilSeparator >>= fun next =>
      match next with
      | none => pure (none, true)
      | some next => keyword Parser.sequence s.rest next) s := by
    rw [statementBody_apply, bind_apply]
    cases (Parser.advanceUntilSeparator s).1 <;> rfl
  rw [hbody]
  -- The position is saved first, and then the keyword is read.
  suffices hrest : ∃ last, Returns _ stream _ last ∧ At text last _ by
    obtain ⟨last, hrun, hlast⟩ := hrest
    exact ⟨last, (Returns.of_eq hsave).bind hrun, hlast⟩
  refine advanceUntilSeparator_follows.bind_of_lt (fun s hs => ?_) stream s hat hs
  cases hnext : (Parser.advanceUntilSeparator s).1 with
  | none => exact ⟨n + 1, (advanceUntilSeparator_shortens s).trans_lt hs, .pure _⟩
  | some next =>
      have hlt : (Parser.advanceUntilSeparator s).2.size < s.size :=
        advanceUntilSeparator_lt (Prod.ext hnext rfl)
      refine ⟨n, by omega, .ite (.restore hat _) (.ite ?_ (.ite ?_ (.ite ?_ (.ite ?_ (.ite ?_ ?_)))))⟩
      · exact advanceUntilSeparator_follows.bind advanceUntilSeparator_shortens fun next =>
          .ite (.restore hat _) (.pure _)
      · exact printStatement_follows.statement
      · exact letStatement_follows.statement
      · exact (ifStatement_follows h).statement
      · exact (whileStatement_follows h).statement
      · exact .pure _

/-- The loop of `sequence`.  By induction on what is left: each round reads a statement. -/
theorem sequenceLoop_follows (h : Follows text n statement (Parser.statement Parser.sequence))
    (before : List Node) :
    Follows text n (fun fuel => sequenceLoop fuel before) (statements Parser.sequence before) := by
  intro stream s hat hs
  induction hsize : s.size using Nat.strong_induction_on generalizing stream s before with
  | _ k ih =>
      obtain ⟨stream', hrun, hat'⟩ := h stream s hat hs
      have hlt := (statement_size sequence_shortens s).2
      rw [statements_eq sequence_shortens]
      by_cases hend : (Parser.statement Parser.sequence s).1.2 = true
      · rw [if_pos hend]
        refine ⟨stream', Returns.succ (hrun.bind (.of_eq fun _ => ?_)), hat'⟩
        dsimp only
        rw [if_pos hend]
        rfl
      · rw [if_neg hend]
        have hlt := hlt (by simpa using hend)
        cases hnode : (Parser.statement Parser.sequence s).1.1 with
        | none =>
            refine ⟨stream', Returns.succ (hrun.bind (.of_eq fun _ => ?_)), hat'⟩
            dsimp only
            rw [if_neg hend, hnode]
            rfl
        | some node =>
            obtain ⟨last, hrun', hlast⟩ :=
              ih _ (by omega) (before ++ [node]) stream' _ hat' (by omega) rfl
            refine ⟨last, Returns.succ (hrun.bind ?_), hlast⟩
            simp only [if_neg hend, hnode]
            exact hrun'

/-- **Statements.** `sequence` returns.  By induction on what is left. -/
theorem sequence_follows : Follows text n sequence Parser.sequence := by
  induction n with
  | zero => exact fun _ _ _ hs => absurd hs (Nat.not_lt_zero _)
  | succ n ih =>
      have hloop := sequenceLoop_follows (statement_follows ih) []
      intro stream s hat hs
      obtain ⟨stream', hrun, hat'⟩ := hloop stream s hat hs
      rw [sequence_eq]
      refine ⟨stream', Returns.succ (hrun.bind (.of_eq fun _ => ?_)), hat'⟩
      cases (statements Parser.sequence [] s).1 <;> rfl

end Statements

/-- **Parsing terminates.** On every text `parse` returns, after some number of reads, and what it
returns is the tree of the parser. -/
theorem parse_returns (text : List UInt8) :
    ∃ stream enough, ∀ fuel, enough ≤ fuel →
      parse fuel ⟨text, 0, 0⟩ = some (Parser.parse text, stream) := by
  have hat : At text ⟨text, 0, 0⟩ (start text).rest := ⟨rfl, Nat.zero_le _, rfl⟩
  have hparse : Follows text ((start text).size + 1) parse parseFrom := by
    refine sequence_follows.bind sequence_shortens fun ast => ?_
    refine atEnd_follows.bind_of_lt fun s hs => ⟨_, Nat.lt_succ_self _, ?_⟩
    exact .ite (.pure _) (.pure _)
  obtain ⟨stream, hrun, -⟩ := hparse _ _ hat (Nat.lt_succ_self _)
  exact ⟨stream, hrun⟩

end Basic.Parser.Loops
