import CS24.Basic.Ast
import CS24.Lib.Descent

/-!
# The parser

`parser.c`, and the constructors of `ast.c`.  The stream is what is still to be read of
it: a rewind puts the last character back, and a saved position is the rest of the stream
at that point.  Characters are bytes, classified as in the C locale.
-/

namespace Basic.Parser

/-- A character of the source text. -/
def byte (c : Char) : UInt8 := UInt8.ofNat c.toNat

/-- A string of the source text. -/
def bytes (cs : List Char) : List UInt8 := cs.map byte

def isSpace (c : UInt8) : Bool := c = byte ' ' ∨ (byte '\t' ≤ c ∧ c ≤ byte '\r')

def isVariableName (c : UInt8) : Bool := byte 'A' ≤ c ∧ c ≤ byte 'Z'

def isOpenParen (c : UInt8) : Bool := c = byte '('

def isCloseParen (c : UInt8) : Bool := c = byte ')'

def isFactorOp (c : UInt8) : Bool := c = byte '*' ∨ c = byte '/'

def isTermOp (c : UInt8) : Bool := c = byte '+' ∨ c = byte '-'

def isComparisonOp (c : UInt8) : Bool := c = byte '<' ∨ c = byte '=' ∨ c = byte '>'

def isOperator (c : UInt8) : Bool :=
  isOpenParen c || isCloseParen c || isFactorOp c || isTermOp c || isComparisonOp c

def isCommentStart (c : UInt8) : Bool := c = byte '#'

def MAX_KEYWORD_LENGTH : Nat := 100

/-- The characters of a C string. -/
def cString (s : List UInt8) : List UInt8 := s.takeWhile (· ≠ 0)

/-- A `parser_state_t`: what is still to be read of the stream. -/
structure State where
  rest : List UInt8

/-- The functions of the parser change the state and return something. -/
abbrev Action (α : Type) := StateM State α

/-- The part of the stream from the next character on that is not white space. -/
def skip (rest : List UInt8) : List UInt8 := rest.dropWhile isSpace

/-- `advance`; the end of the stream is the character 0. -/
def advance : Action UInt8 := fun s =>
  match skip s.rest with
  | [] => (0, ⟨[]⟩)
  | c :: rest => (c, ⟨rest⟩)

/-- `rewind_one`, when `c` was read last. -/
def rewindOne (c : UInt8) : Action Unit := fun s => ((), ⟨c :: s.rest⟩)

def tryAdvance (predicate : UInt8 → Bool) : Action UInt8 := do
  let next ← advance
  if next ≠ 0 ∧ predicate next = false then
    rewindOne next
    pure 0
  else pure next

/-- The loop of `advance_until_separator`: `result` are the characters up to `index`. -/
def separatorLoop (result : List UInt8) : List UInt8 → Option (List UInt8) × List UInt8
  | [] =>
    if MAX_KEYWORD_LENGTH < result.length then (none, [])
    else if 0 < result.length then (some result, []) else (none, [])
  | c :: rest =>
    if MAX_KEYWORD_LENGTH < result.length then (none, c :: rest)
    else if isOperator c ∧ 0 < result.length then (some result, c :: rest)
    else if isSpace c then
      if 0 < result.length then (some result, rest) else separatorLoop result rest
    else separatorLoop (result ++ [c]) rest

/-- `advance_until_separator`; `none` is `NULL`. -/
def advanceUntilSeparator : Action (Option (List UInt8)) := fun s =>
  match separatorLoop [] s.rest with
  | (none, rest) => (none, ⟨rest⟩)
  | (some result, rest) => (some (cString result), ⟨rest⟩)

def atEnd : Action Bool := do
  let next ← advance
  if next ≠ 0 then
    rewindOne next
    pure false
  else pure true

/-- What is behind the end of the line. -/
def afterLine (rest : List UInt8) : List UInt8 := (rest.dropWhile (· ≠ byte '\n')).drop 1

def skipLine : Action Unit := fun s => ((), ⟨afterLine s.rest⟩)

/-! ## `strtol` with base 0 -/

/-- The value of a digit in a base up to 36. -/
def digitValue (base : Nat) (c : UInt8) : Option Nat :=
  let value :=
    if byte '0' ≤ c ∧ c ≤ byte '9' then some (c - byte '0').toNat
    else if byte 'a' ≤ c ∧ c ≤ byte 'z' then some ((c - byte 'a').toNat + 10)
    else if byte 'A' ≤ c ∧ c ≤ byte 'Z' then some ((c - byte 'A').toNat + 10)
    else none
  value.filter (· < base)

/-- The digits at the front, added to what was read of the number. -/
def readDigits (base value : Nat) : List UInt8 → Nat × List UInt8
  | [] => (value, [])
  | c :: rest =>
    match digitValue base c with
    | some digit => readDigits base (value * base + digit) rest
    | none => (value, c :: rest)

/-- The base, and where the digits start: `0x` before a digit and `0` say it. -/
def detectBase (s : List UInt8) : Nat × List UInt8 :=
  match s with
  | zero :: x :: digit :: rest =>
    if zero = byte '0' ∧ (x = byte 'x' ∨ x = byte 'X') ∧ (digitValue 16 digit).isSome then
      (16, digit :: rest)
    else if zero = byte '0' then (8, s) else (10, s)
  | zero :: _ => if zero = byte '0' then (8, s) else (10, s)
  | [] => (10, s)

/-- The sign, and what is behind it. -/
def detectSign (s : List UInt8) : Bool × List UInt8 :=
  match s with
  | c :: rest =>
    if c = byte '-' then (true, rest) else if c = byte '+' then (false, rest) else (false, s)
  | [] => (false, s)

/-- `strtol(s, &end, 0)`: the value, which is not in range when `errno` is set, and `end`.
Without digits the value is 0 and `end` is `s`. -/
def strtol (s : List UInt8) : Int × List UInt8 :=
  let (negative, unsigned) := detectSign (skip s)
  let (base, digits) := detectBase unsigned
  let (value, rest) := readDigits base 0 digits
  if rest.length = digits.length then (0, s)
  else (if negative then -(value : Int) else value, rest)

/-- The values of a `long`. -/
def InRange (v : Int) : Prop := -2 ^ 63 ≤ v ∧ v < 2 ^ 63

instance (v : Int) : Decidable (InRange v) := by unfold InRange; infer_instance

/-! ## The constructors of nodes -/

/-- A character of the source as it is stored in a node. -/
def char (c : UInt8) : Char := Char.ofNat c.toNat

def initNumNode (value : Word) : Option Node := some (.num value)

def initBinaryNode (op : UInt8) (left right : Option Node) : Option Node :=
  match left, right with
  | some left, some right => some (.binaryOp (char op) left right)
  | _, _ => none

def initVarNode (name : UInt8) : Option Node := if name = 0 then none else some (.var (char name))

def initSequenceNode (statements : List Node) : Option Node := some (.sequence statements)

def initPrintNode (expr : Option Node) : Option Node := expr.map .print

def initLetNode (var : UInt8) (value : Option Node) : Option Node :=
  if var = 0 then none else value.map (.let (char var))

def initIfNode (condition ifBranch elseBranch : Option Node) : Option Node :=
  match condition, ifBranch with
  | some condition, some ifBranch => some (.if condition ifBranch elseBranch)
  | _, _ => none

def initWhileNode (condition body : Option Node) : Option Node :=
  match condition, body with
  | some condition, some body => some (.while condition body)
  | _, _ => none

/-! ## Expressions -/

def num : Action (Option Node) := do
  match ← advanceUntilSeparator with
  | none => pure none
  | some numString =>
    let (value, numEnd) := strtol numString
    if ¬ InRange value ∨ numEnd ≠ [] then pure none
    else pure (initNumNode (BitVec.ofInt 64 value))

/-- `factor`, with the function for the expression in parentheses. -/
def factorBody (expression : Action (Option Node)) : Action (Option Node) := do
  if (← tryAdvance isOpenParen) ≠ 0 then
    let node ← expression
    if (← tryAdvance isCloseParen) = 0 then pure none else pure node
  else
    let var ← tryAdvance isVariableName
    if var ≠ 0 then pure (initVarNode var) else num

/-- What is left to read. -/
def State.size (s : State) : Nat := s.rest.length

/-- One round of the loops of `term` and `expression`. -/
def operationsBody (isOp : UInt8 → Bool) (operand : Action (Option Node))
    (loop : Option Node × State → Option Node × State) (r : Option Node × State) :
    Option Node × State :=
  let (next, s) := tryAdvance isOp r.2
  if next = 0 then (r.1, s)
  else
    let (right, s) := operand s
    loop (initBinaryNode next r.1 right, s)

/-- The loops of `term` and `expression`: operators and operands behind `result`. -/
def operations (isOp : UInt8 → Bool) (operand : Action (Option Node)) (result : Option Node) :
    Action (Option Node) := fun s =>
  Descent.run (fun r : Option Node × State => r.2.size) (operationsBody isOp operand) id (result, s)

def termBody (expression : Action (Option Node)) : Action (Option Node) := do
  let result ← factorBody expression
  operations isFactorOp (factorBody expression) result

def expressionBody (expression : Action (Option Node)) : Action (Option Node) := do
  let result ← termBody expression
  operations isTermOp (termBody expression) result

def expression : Action (Option Node) :=
  Descent.run State.size expressionBody fun s => (none, s)

def factor : Action (Option Node) := factorBody expression

def term : Action (Option Node) := termBody expression

def comparison : Action (Option Node) := do
  let left ← expression
  let op ← tryAdvance isComparisonOp
  let right ← expression
  pure (initBinaryNode op left right)

/-! ## Statements -/

def PRINT : List UInt8 := bytes ['P', 'R', 'I', 'N', 'T']

def LET : List UInt8 := bytes ['L', 'E', 'T']

def IF : List UInt8 := bytes ['I', 'F']

def ELSE : List UInt8 := bytes ['E', 'L', 'S', 'E']

def WHILE : List UInt8 := bytes ['W', 'H', 'I', 'L', 'E']

def END : List UInt8 := bytes ['E', 'N', 'D']

/-- One round of the loop over the comments before a statement. -/
def commentsBody (loop : State → Unit × State) (s : State) : Unit × State :=
  let (next, s) := tryAdvance isCommentStart s
  if next = 0 then ((), s)
  else loop (skipLine s).2

/-- The loop over the comments before a statement. -/
def comments : Action Unit := Descent.run State.size commentsBody fun s => ((), s)

/-- `restore_position` -/
def restorePosition (start : List UInt8) : Action Unit := fun _ => ((), ⟨start⟩)

/-- The part of `statement` for `IF`.  An `ELSE` branch that does not parse is the same as
none from here on. -/
def ifStatement (sequence : Action (Option Node)) : Action (Option Node) := do
  let condition ← comparison
  let ifBranch ← sequence
  let next ← advanceUntilSeparator
  let (elseNode, next) ← (do
    if next = some ELSE then
      let node ← sequence
      let next ← advanceUntilSeparator
      pure (node, next)
    else pure (none, next) : Action (Option Node × Option (List UInt8)))
  if next = some END then
    if (← advanceUntilSeparator) = some IF then pure (initIfNode condition ifBranch elseNode)
    else pure none
  else pure none

/-- The part of `statement` for `WHILE`. -/
def whileStatement (sequence : Action (Option Node)) : Action (Option Node) := do
  let condition ← comparison
  let body ← sequence
  if (← advanceUntilSeparator) = some END then
    if (← advanceUntilSeparator) = some WHILE then pure (initWhileNode condition body)
    else pure none
  else pure none

/-- The part of `statement` for `LET`. -/
def letStatement : Action (Option Node) := do
  let var ← advance
  if isVariableName var then
    if (← advance) = byte '=' then
      let value ← expression
      pure (initLetNode var value)
    else pure none
  else pure none

/-- The part of `statement` for `PRINT`. -/
def printStatement : Action (Option Node) := do
  let expr ← expression
  pure (initPrintNode expr)

/-- `statement`, behind the comments; the `Bool` is `end`. -/
def statementBody (sequence : Action (Option Node)) : Action (Option Node × Bool) := do
  let start ← State.rest <$> get
  match ← advanceUntilSeparator with
  | none => pure (none, true)
  | some next =>
    if next = ELSE then
      restorePosition start
      pure (none, true)
    else if next = END then
      let next ← advanceUntilSeparator
      if next = some IF ∨ next = some WHILE then
        restorePosition start
        pure (none, true)
      else pure (none, false)
    else if next = PRINT then (·, false) <$> printStatement
    else if next = LET then (·, false) <$> letStatement
    else if next = IF then (·, false) <$> ifStatement sequence
    else if next = WHILE then (·, false) <$> whileStatement sequence
    else pure (none, false)

/-- `statement`, with the function for the bodies. -/
def statement (sequence : Action (Option Node)) : Action (Option Node × Bool) := do
  comments
  statementBody sequence

/-- One round of the loop of `sequence`; `none` when a statement fails. -/
def statementsBody (sequence : Action (Option Node))
    (loop : List Node × State → Option (List Node) × State) (r : List Node × State) :
    Option (List Node) × State :=
  let ((next, ended), s) := statement sequence r.2
  if ended then (some r.1, s)
  else
    match next with
    | none => (none, s)
    | some node => loop (r.1 ++ [node], s)

/-- The loop of `sequence`, behind `statements`. -/
def statements (sequence : Action (Option Node)) (before : List Node) :
    Action (Option (List Node)) := fun s =>
  Descent.run (fun r : List Node × State => r.2.size) (statementsBody sequence)
    (fun r => (none, r.2)) (before, s)

/-- The node for the statements of a sequence. -/
def collect : List Node → Option Node
  | [statement] => some statement
  | statements => initSequenceNode statements

def sequenceBody (sequence : Action (Option Node)) : Action (Option Node) := do
  match ← statements sequence [] with
  | none => pure none
  | some statements => pure (collect statements)

def sequence : Action (Option Node) := Descent.run State.size sequenceBody fun s => (none, s)

/-- `parse`, with the state it ends in. -/
def parseFrom : Action (Option Node) := do
  let ast ← sequence
  if ← atEnd then pure ast else pure none

/-- The state in which a text is parsed. -/
def start (text : List UInt8) : State := ⟨text⟩

/-- `parse` -/
def parse (text : List UInt8) : Option Node := (parseFrom (start text)).1

end Basic.Parser
