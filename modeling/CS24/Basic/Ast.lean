import Mathlib

/-!
# The syntax tree of TeenyBASIC

`Node` is the tree as `ast.h` lays it out: one type for expressions and
statements, operators and variable names as characters, any node in any place.
The trees that its comments call for are `Expr`, `Cond` and `Stmt`; `toNode`
turns them into nodes, so a well-formed tree is one in the range of `toNode`.
-/

namespace Basic

/-- `value_t` -/
abbrev Word := BitVec 64

/-- A `node_t`.  `elseBranch` is `none` where the pointer is `NULL`. -/
inductive Node
  | num (value : Word)
  | binaryOp (op : Char) (left right : Node)
  | var (name : Char)
  | sequence (statements : List Node)
  | print (expr : Node)
  | let (var : Char) (value : Node)
  | if (condition ifBranch : Node) (elseBranch : Option Node)
  | while (condition body : Node)

/-- The variables `A` to `Z`. -/
abbrev VarName := Fin 26

def VarName.char (x : VarName) : Char := Char.ofNat (65 + x)

/-- The arithmetic operators. -/
inductive ArithOp
  | add | sub | mul | div
  deriving DecidableEq, Repr

def ArithOp.char : ArithOp → Char
  | add => '+'
  | sub => '-'
  | mul => '*'
  | div => '/'

/-- The operators of conditions. -/
inductive CompOp
  | lt | eq | gt
  deriving DecidableEq, Repr

def CompOp.char : CompOp → Char
  | lt => '<'
  | eq => '='
  | gt => '>'

inductive Expr
  | num (value : Word)
  | var (x : VarName)
  | binary (op : ArithOp) (left right : Expr)
  deriving DecidableEq, Repr

structure Cond where
  op : CompOp
  left : Expr
  right : Expr
  deriving DecidableEq, Repr

inductive Stmt
  | print (expr : Expr)
  | let (x : VarName) (value : Expr)
  | if (condition : Cond) (ifBranch : Stmt) (elseBranch : Option Stmt)
  | while (condition : Cond) (body : Stmt)
  | sequence (statements : List Stmt)

def Expr.toNode : Expr → Node
  | num value => .num value
  | var x => .var x.char
  | binary op left right => .binaryOp op.char left.toNode right.toNode

def Cond.toNode (c : Cond) : Node := .binaryOp c.op.char c.left.toNode c.right.toNode

mutual

def Stmt.toNode : Stmt → Node
  | .print expr => .print expr.toNode
  | .let x value => .let x.char value.toNode
  | .if condition ifBranch elseBranch =>
    .if condition.toNode ifBranch.toNode (Stmt.toNode? elseBranch)
  | .while condition body => .while condition.toNode body.toNode
  | .sequence statements => .sequence (Stmt.toNodes statements)

def Stmt.toNode? : Option Stmt → Option Node
  | none => none
  | some s => some s.toNode

def Stmt.toNodes : List Stmt → List Node
  | [] => []
  | s :: ss => s.toNode :: Stmt.toNodes ss

end

end Basic
