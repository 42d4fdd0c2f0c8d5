import CS24.Basic.Ast

/-!
# What TeenyBASIC programs mean

A reference interpreter for well-formed trees, independent of the compiler.
Values are 64-bit words; `+`, `-` and `*` wrap around, and `/` truncates and has no
value where the quotient does not exist or is no word.  A loop is run for at most
as many turns as there is fuel, so an interpretation ends in a store, at a division
without a value, or in the output that was made before the fuel was used up.
-/

namespace Basic

/-- A store and what was printed. -/
structure Store where
  vars : VarName → Word
  output : List Word

/-- How an interpretation ends. -/
inductive Result
  | done (s : Store)
  | trap (s : Store)
  | timeout (output : List Word)

/-- What was printed. -/
def Result.output : Result → List Word
  | done s => s.output
  | trap s => s.output
  | timeout output => output

/-- Sequencing. -/
def Result.bind (r : Result) (f : Store → Result) : Result :=
  match r with
  | done s => f s
  | trap s => trap s
  | timeout output => timeout output

/-- Nothing more is done behind a result. -/
theorem Result.bind_done (r : Result) : r.bind .done = r := by
  cases r <;> rfl

/-- `none` where the quotient does not exist or is no word. -/
def ArithOp.apply (a b : Word) : ArithOp → Option Word
  | add => some (a + b)
  | sub => some (a - b)
  | mul => some (a * b)
  | div => if b = 0 ∨ (a = BitVec.intMin 64 ∧ b = -1) then none else some (a.sdiv b)

def CompOp.holds (a b : Word) : CompOp → Bool
  | lt => a.toInt < b.toInt
  | eq => a = b
  | gt => b.toInt < a.toInt

/-- The value of an expression, unless a division in it has none. -/
def Expr.eval (vars : VarName → Word) : Expr → Option Word
  | num value => some value
  | var x => some (vars x)
  | binary op left right => do
    let a ← left.eval vars
    let b ← right.eval vars
    op.apply a b

def Cond.eval (vars : VarName → Word) (c : Cond) : Option Bool := do
  let a ← c.left.eval vars
  let b ← c.right.eval vars
  some (c.op.holds a b)

/-- A loop of at most `fuel` turns. -/
def loop (c : Cond) (body : Store → Result) : Nat → Store → Result
  | 0, s => .timeout s.output
  | fuel + 1, s =>
    match c.eval s.vars with
    | none => .trap s
    | some false => .done s
    | some true => (body s).bind (loop c body fuel)

mutual

/-- The interpreter; each loop of the program gets `fuel`. -/
def Stmt.run (fuel : Nat) : Stmt → Store → Result
  | .print expr, s =>
    match expr.eval s.vars with
    | none => .trap s
    | some v => .done { s with output := s.output ++ [v] }
  | .let x value, s =>
    match value.eval s.vars with
    | none => .trap s
    | some v => .done { s with vars := Function.update s.vars x v }
  | .if c ifBranch elseBranch, s =>
    match c.eval s.vars with
    | none => .trap s
    | some true => Stmt.run fuel ifBranch s
    | some false => Stmt.run? fuel elseBranch s
  | .while c body, s => loop c (Stmt.run fuel body) fuel s
  | .sequence statements, s => Stmt.runAll fuel statements s

/-- The `ELSE` branch, if there is one. -/
def Stmt.run? (fuel : Nat) : Option Stmt → Store → Result
  | none, s => .done s
  | some elseBranch, s => Stmt.run fuel elseBranch s

/-- Statements in order. -/
def Stmt.runAll (fuel : Nat) : List Stmt → Store → Result
  | [], s => .done s
  | statement :: statements, s => (Stmt.run fuel statement s).bind (Stmt.runAll fuel statements)

end

end Basic
