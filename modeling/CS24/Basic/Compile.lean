import CS24.Basic.Ast
import CS24.Lib.X86

/-!
# The compiler

`compile.c`, and `header` and `footer` of `compiler.c`.  Each `printf` of an
instruction or a label is one element of the list that is returned.  Where the C
code has no defined behaviour there is no result: a quotient that is folded and
does not exist, a counter behind `INT32_MAX`, or the operator of a condition that
is no `BINARY_OP`.  The counters `if_id` and `while_id` start at 0 and are passed
along.
-/

namespace Basic

open X86

/-- The labels; the number is the value of `if_id` or `while_id`. -/
inductive Label
  | if (id : Nat)
  | endIf (id : Nat)
  | while (id : Nat)
  | endWhile (id : Nat)
  deriving DecidableEq, Repr

abbrev Code := List (Instr Label)

/-- A `return_t`. -/
structure Return where
  isConstant : Bool
  val : Word
  deriving DecidableEq, Repr

/-- A C quotient, where there is one. -/
def foldDiv (a b : Word) : Option Word :=
  if b = 0 ∨ (a = BitVec.intMin 64 ∧ b = -1) then none else some (a.sdiv b)

def fold : Node → Option Return
  | .num value => some ⟨true, value⟩
  | .binaryOp op left right => do
    let left ← fold left
    let right ← fold right
    if left.isConstant ∧ right.isConstant then
      if op = '+' then some ⟨true, left.val + right.val⟩
      else if op = '-' then some ⟨true, left.val - right.val⟩
      else if op = '*' then some ⟨true, left.val * right.val⟩
      else if op = '/' then do
        let val ← foldDiv left.val right.val
        some ⟨true, val⟩
      else some ⟨false, 0⟩
    else some ⟨false, 0⟩
  | _ => some ⟨false, 0⟩

/-- The loop of `is_power_of_two`. -/
def powerLoop (num count power i : Nat) : Nat :=
  if num = 0 then power
  else
    let power := if num % 2 = 1 then i else power
    let count := if num % 2 = 1 then count + 1 else count
    if count > 1 then 0 else powerLoop (num / 2) count power (i + 1)
  termination_by num

def isPowerOfTwo (num : Word) : Nat := if 0 < num.toInt then powerLoop num.toNat 0 0 0 else 0

/-- `if_id` and `while_id`. -/
structure Ids where
  ifId : Nat
  whileId : Nat
  deriving DecidableEq, Repr

/-- `if_id++` or `while_id++` of an `int32_t`. -/
def increment (id : Nat) : Option Nat := if id < 2 ^ 31 - 1 then some (id + 1) else none

/-- The offset of a variable from `rbp`. -/
def offset (name : Char) : Int := ((name.toNat : Int) - 65 + 1) * -8

/-- `condition->op` -/
def Node.op? : Node → Option Char
  | binaryOp op _ _ => some op
  | _ => none

/-- The instruction of a `*`; the value on the right is in `r10`. -/
def multiplication (right : Node) : Instr Label :=
  match right with
  | .num num =>
    let power := isPowerOfTwo num
    if power ≠ 0 then .shl power .rdi else .imul .r10 .rdi
  | _ => .imul .r10 .rdi

/-- What follows the operands of a `BINARY_OP`. -/
def operation (op : Char) (right : Node) : Code :=
  if op = '+' then [.add .r10 .rdi]
  else if op = '-' then [.sub .r10 .rdi]
  else if op = '*' then [multiplication right]
  else if op = '/' then [.mov .rdi .rax, .cqto, .idiv .r10, .mov .rax .rdi]
  else [.cmp .r10 .rdi]

/-- The jump of an `IF` whose condition holds. -/
def ifJump (op : Char) (id : Nat) : Code :=
  if op = '=' then [.jcc .e (.if id)]
  else if op = '<' then [.jcc .l (.if id)]
  else if op = '>' then [.jcc .g (.if id)]
  else []

/-- The jump of a `WHILE` whose condition does not hold. -/
def whileJump (op : Char) (id : Nat) : Code :=
  if op = '=' then [.jcc .ne (.endWhile id)]
  else if op = '<' then [.jcc .ge (.endWhile id)]
  else if op = '>' then [.jcc .le (.endWhile id)]
  else []

mutual

/-- `compile_ast` -/
def compileAst (node : Node) (ids : Ids) : Option (Code × Ids) := do
  let ret ← fold node
  if ret.isConstant then some ([.movImm ret.val .rdi], ids)
  else
    match node with
    | .num value => some ([.movImm value .rdi], ids)
    | .print expr => do
      let (code, ids) ← compileAst expr ids
      some (code ++ [.call], ids)
    | .sequence statements => compileAll statements ids
    | .binaryOp op left right => do
      let (rightCode, ids) ← compileAst right ids
      let (leftCode, ids) ← compileAst left ids
      some (rightCode ++ [.push .rdi] ++ leftCode ++ [.pop .r10] ++ operation op right, ids)
    | .var name => some ([.load (offset name) .rbp .rdi], ids)
    | .let var value => do
      let (code, ids) ← compileAst value ids
      some (code ++ [.store .rdi (offset var) .rbp], ids)
    | .if condition ifBranch elseBranch => do
      let (conditionCode, ids) ← compileAst condition ids
      let id := ids.ifId
      let ifId ← increment id
      let op ← condition.op?
      let (elseCode, ids) ← compileElse elseBranch { ids with ifId }
      let (ifCode, ids) ← compileAst ifBranch ids
      some (conditionCode ++ ifJump op id ++ elseCode ++ [.jmp (.endIf id), .label (.if id)] ++
        ifCode ++ [.jmp (.endIf id), .label (.endIf id)], ids)
    | .while condition body => do
      let id := ids.whileId
      let whileId ← increment id
      let (conditionCode, ids) ← compileAst condition { ids with whileId }
      let op ← condition.op?
      let (bodyCode, ids) ← compileAst body ids
      some ([.label (.while id)] ++ conditionCode ++ whileJump op id ++ bodyCode ++
        [.jmp (.while id), .label (.endWhile id)], ids)

/-- The loop over the statements of a `SEQUENCE`. -/
def compileAll : List Node → Ids → Option (Code × Ids)
  | [], ids => some ([], ids)
  | statement :: statements, ids => do
    let (code, ids) ← compileAst statement ids
    let (rest, ids) ← compileAll statements ids
    some (code ++ rest, ids)

/-- The `ELSE` branch, if there is one. -/
def compileElse : Option Node → Ids → Option (Code × Ids)
  | none, ids => some ([], ids)
  | some elseBranch, ids => compileAst elseBranch ids

end

def header : Code := [.push .rbp, .mov .rsp .rbp, .subImm (26 * 8) .rsp]

def footer : Code := [.addImm (26 * 8) .rsp, .pop .rbp, .ret]

/-- What `main` prints for a tree. -/
def compile (ast : Node) : Option Code := do
  let (code, _) ← compileAst ast ⟨0, 0⟩
  some (header ++ code ++ footer)

/-! ## What a compilation with a result consists of -/

section Cases

variable {ids ids' : Ids} {code : Code}

/-- What a sequence of two steps needs in order to succeed. -/
theorem bind_eq_some {α β : Type} {x : Option α} {f : α → Option β} {b : β}
    (h : x >>= f = some b) : ∃ a, x = some a ∧ f a = some b :=
  Option.bind_eq_some_iff.mp h

/-- A label counter goes up by one while it fits an `int`. -/
theorem increment_eq {id id' : Nat} (h : increment id = some id') :
    id' = id + 1 ∧ id + 1 < 2 ^ 31 := by
  unfold increment at h
  split at h
  · exact ⟨(Option.some.inj h).symm, by omega⟩
  · cases h

/-- A node is folded to a constant, or it is not. -/
theorem compileAst_eq {node : Node} (h : compileAst node ids = some (code, ids')) :
    (∃ v, fold node = some ⟨true, v⟩ ∧ code = [.movImm v .rdi] ∧ ids' = ids) ∨
      (∃ v, fold node = some ⟨false, v⟩) := by
  unfold compileAst at h
  cases hfold : fold node with
  | none =>
      rw [hfold] at h
      cases h
  | some ret =>
      obtain ⟨isConstant, v⟩ := ret
      rw [hfold] at h
      cases isConstant with
      | false => exact .inr ⟨v, rfl⟩
      | true =>
          cases h
          exact .inl ⟨v, rfl, rfl, rfl⟩

/-- The code of `PRINT` is that of its expression and a call. -/
theorem compileAst_print {expr : Node} (h : compileAst (.print expr) ids = some (code, ids')) :
    ∃ c, compileAst expr ids = some (c, ids') ∧ code = c ++ [.call] := by
  have h : (compileAst expr ids >>= fun r => some (r.1 ++ [.call], r.2)) = some (code, ids') := h
  obtain ⟨⟨c, j⟩, hc, h⟩ := bind_eq_some h
  cases h
  exact ⟨c, hc, rfl⟩

/-- The code of `LET` is that of its value and a store. -/
theorem compileAst_let {x : Char} {value : Node}
    (h : compileAst (.let x value) ids = some (code, ids')) :
    ∃ c, compileAst value ids = some (c, ids') ∧ code = c ++ [.store .rdi (offset x) .rbp] := by
  have h : (compileAst value ids >>= fun r => some (r.1 ++ [.store .rdi (offset x) .rbp], r.2)) =
    some (code, ids') := h
  obtain ⟨⟨c, j⟩, hc, h⟩ := bind_eq_some h
  cases h
  exact ⟨c, hc, rfl⟩

/-- The code of a `BINARY_OP` that is no constant. -/
theorem compileAst_binaryOp {op : Char} {left right : Node} {v : Word}
    (hfold : fold (.binaryOp op left right) = some ⟨false, v⟩)
    (h : compileAst (.binaryOp op left right) ids = some (code, ids')) :
    ∃ rightCode j leftCode, compileAst right ids = some (rightCode, j) ∧
      compileAst left j = some (leftCode, ids') ∧
      code = rightCode ++ [.push .rdi] ++ leftCode ++ [.pop .r10] ++ operation op right := by
  unfold compileAst at h
  rw [hfold] at h
  have h : (compileAst right ids >>= fun r => compileAst left r.2 >>= fun l =>
    some (r.1 ++ [.push .rdi] ++ l.1 ++ [.pop .r10] ++ operation op right, l.2)) =
      some (code, ids') := h
  obtain ⟨⟨rightCode, j⟩, hright, h⟩ := bind_eq_some h
  obtain ⟨⟨leftCode, k⟩, hleft, h⟩ := bind_eq_some h
  cases h
  exact ⟨rightCode, j, leftCode, hright, hleft, rfl⟩

/-- The code of an `IF`. -/
theorem compileAst_if {condition ifBranch : Node} {elseBranch : Option Node}
    (h : compileAst (.if condition ifBranch elseBranch) ids = some (code, ids')) :
    ∃ conditionCode j op elseCode k ifCode,
      compileAst condition ids = some (conditionCode, j) ∧ condition.op? = some op ∧
      j.ifId + 1 < 2 ^ 31 ∧ compileElse elseBranch { j with ifId := j.ifId + 1 } = some (elseCode, k) ∧
      compileAst ifBranch k = some (ifCode, ids') ∧
      code = conditionCode ++ ifJump op j.ifId ++ elseCode ++
        [.jmp (.endIf j.ifId), .label (.if j.ifId)] ++ ifCode ++
        [.jmp (.endIf j.ifId), .label (.endIf j.ifId)] := by
  have h : (compileAst condition ids >>= fun c => increment c.2.ifId >>= fun ifId =>
    condition.op? >>= fun op => compileElse elseBranch { c.2 with ifId } >>= fun e =>
      compileAst ifBranch e.2 >>= fun i => some (c.1 ++ ifJump op c.2.ifId ++ e.1 ++
        [.jmp (.endIf c.2.ifId), .label (.if c.2.ifId)] ++ i.1 ++
        [.jmp (.endIf c.2.ifId), .label (.endIf c.2.ifId)], i.2)) = some (code, ids') := h
  obtain ⟨⟨conditionCode, j⟩, hcondition, h⟩ := bind_eq_some h
  obtain ⟨ifId, hid, h⟩ := bind_eq_some h
  obtain ⟨rfl, hlt⟩ := increment_eq hid
  obtain ⟨op, hop, h⟩ := bind_eq_some h
  obtain ⟨⟨elseCode, k⟩, helse, h⟩ := bind_eq_some h
  obtain ⟨⟨ifCode, l⟩, hif, h⟩ := bind_eq_some h
  cases h
  exact ⟨conditionCode, j, op, elseCode, k, ifCode, hcondition, hop, hlt, helse, hif, rfl⟩

/-- The code of a `WHILE`. -/
theorem compileAst_while {condition body : Node}
    (h : compileAst (.while condition body) ids = some (code, ids')) :
    ∃ conditionCode j op bodyCode, ids.whileId + 1 < 2 ^ 31 ∧
      compileAst condition { ids with whileId := ids.whileId + 1 } = some (conditionCode, j) ∧
      condition.op? = some op ∧ compileAst body j = some (bodyCode, ids') ∧
      code = [.label (.while ids.whileId)] ++ conditionCode ++ whileJump op ids.whileId ++
        bodyCode ++ [.jmp (.while ids.whileId), .label (.endWhile ids.whileId)] := by
  have h : (increment ids.whileId >>= fun whileId =>
    compileAst condition { ids with whileId } >>= fun c => condition.op? >>= fun op =>
      compileAst body c.2 >>= fun b => some ([.label (.while ids.whileId)] ++ c.1 ++
        whileJump op ids.whileId ++ b.1 ++
        [.jmp (.while ids.whileId), .label (.endWhile ids.whileId)], b.2)) =
      some (code, ids') := h
  obtain ⟨whileId, hid, h⟩ := bind_eq_some h
  obtain ⟨rfl, hlt⟩ := increment_eq hid
  obtain ⟨⟨conditionCode, j⟩, hcondition, h⟩ := bind_eq_some h
  obtain ⟨op, hop, h⟩ := bind_eq_some h
  obtain ⟨⟨bodyCode, k⟩, hbody, h⟩ := bind_eq_some h
  cases h
  exact ⟨conditionCode, j, op, bodyCode, hlt, hcondition, hop, hbody, rfl⟩

/-- The code of a sequence is that of its first statement and that of the others, with labels
counted on. -/
theorem compileAll_cons {statement : Node} {statements : List Node}
    (h : compileAll (statement :: statements) ids = some (code, ids')) :
    ∃ c j rest, compileAst statement ids = some (c, j) ∧
      compileAll statements j = some (rest, ids') ∧ code = c ++ rest := by
  obtain ⟨⟨c, j⟩, hc, h⟩ := bind_eq_some h
  obtain ⟨⟨rest, k⟩, hrest, h⟩ := bind_eq_some h
  cases h
  exact ⟨c, j, rest, hc, hrest, rfl⟩

/-- The code of a program is that of its statement between header and footer. -/
theorem compile_eq {ast : Node} (h : compile ast = some code) :
    ∃ c ids, compileAst ast ⟨0, 0⟩ = some (c, ids) ∧ code = header ++ c ++ footer := by
  obtain ⟨⟨c, ids⟩, hc, h⟩ := bind_eq_some h
  cases h
  exact ⟨c, ids, hc, rfl⟩

end Cases

end Basic
