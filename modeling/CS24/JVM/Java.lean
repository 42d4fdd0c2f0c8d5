import CS24.JVM.Branches
import CS24.JVM.IntegerOps
import CS24.JVM.StaticCalls

/-!
# The machine of the instruction set

What Java class files mean, for the part of the instruction set that the interpreter handles: values
know whether they are a number or a reference, arrays are lists, a local has no value before one is
stored, and `System.out` is an operand.  Where an exception would be thrown, or a class would not
pass verification, the machine has no step.

The field of `getstatic` is `System.out` and the method of `invokevirtual` is `println` of an `int`,
as the constants of the class say.
-/

namespace JVM.Java

open JVM

/-- A value. -/
inductive Value
  | int (n : Word)
  | ref (array : Nat)
  /-- `System.out` -/
  | out
  deriving DecidableEq, Repr

/-- An activation of a method. -/
structure Activation where
  method : Method
  locals : List (Option Value)
  stack : List Value
  pc : Nat

/-- A state of the machine. -/
structure Machine where
  frame : Activation
  callers : List Activation
  arrays : List (List Word)
  output : List Word

/-- `java/lang/System` -/
def systemName : CString :=
  [106, 97, 118, 97, 47, 108, 97, 110, 103, 47, 83, 121, 115, 116, 101, 109]

/-- `out` -/
def outName : CString := [111, 117, 116]

/-- `Ljava/io/PrintStream;` -/
def outType : CString :=
  [76, 106, 97, 118, 97, 47, 105, 111, 47, 80, 114, 105, 110, 116, 83, 116, 114, 101, 97, 109, 59]

/-- `java/io/PrintStream` -/
def printStreamName : CString :=
  [106, 97, 118, 97, 47, 105, 111, 47, 80, 114, 105, 110, 116, 83, 116, 114, 101, 97, 109]

/-- `println` -/
def printlnName : CString := [112, 114, 105, 110, 116, 108, 110]

/-- `(I)V` -/
def printlnType : CString := [40, 73, 41, 86]

/-- The type `int` as the operand of `newarray`. -/
def T_INT : UInt8 := 10

/-- The constant at an index; indices are from 1. -/
def constant (pool : List Constant) (index : Nat) : Option Constant :=
  if index = 0 then none else pool[index - 1]?

/-- The constants at these indices are the class, the name and the type of a member. -/
def IsMember (pool : List Constant) (classIndex nameAndTypeIndex : UInt16)
    (className name type : CString) : Prop :=
  ∃ classString nameIndex typeIndex : UInt16,
    constant pool classIndex.toNat = some (.class classString) ∧
    constant pool classString.toNat = some (.utf8 className) ∧
    constant pool nameAndTypeIndex.toNat = some (.nameAndType nameIndex typeIndex) ∧
    constant pool nameIndex.toNat = some (.utf8 name) ∧
    constant pool typeIndex.toNat = some (.utf8 type)

/-- The field is `System.out`. -/
def IsSystemOut (pool : List Constant) (index : Nat) : Prop :=
  ∃ classIndex nameAndTypeIndex, constant pool index = some (.fieldref classIndex nameAndTypeIndex) ∧
    IsMember pool classIndex nameAndTypeIndex systemName outName outType

/-- The method is `println` of an `int`. -/
def IsPrintln (pool : List Constant) (index : Nat) : Prop :=
  ∃ classIndex nameAndTypeIndex, constant pool index = some (.methodref classIndex nameAndTypeIndex) ∧
    IsMember pool classIndex nameAndTypeIndex printStreamName printlnName printlnType

/-- A comparison of numbers. -/
def specifiedComparison (a b : Int) : Condition → Bool
  | .eq => a = b
  | .ne => a ≠ b
  | .lt => a < b
  | .ge => a ≥ b
  | .gt => a > b
  | .le => a ≤ b

namespace Activation

variable (f : Activation)

/-- The byte `k` behind the opcode. -/
def operand (k : Nat) : Option UInt8 := f.method.code.code[f.pc + k]?

/-- On to the instruction `k` bytes on. -/
def advance (k : Nat) : Activation := { f with pc := f.pc + k }

/-- On to the instruction `k` bytes on, with another operand stack. -/
def next (k : Nat) (stack : List Value) : Activation := advance { f with stack := stack } k

/-- The value of a local. -/
def load (i : Nat) : Option Value := (f.locals[i]?).join

/-- A value is stored in a local. -/
def store (i : Nat) (v : Value) : Option Activation :=
  if i < f.locals.length then some { f with locals := f.locals.set i (some v) } else none

/-- A jump by `d` bytes. -/
def jump (d : Int) (stack : List Value) : Option Activation :=
  if 0 ≤ (f.pc : Int) + d then some { f with stack := stack, pc := ((f.pc : Int) + d).toNat } else none

/-- A branch instruction. -/
def branch (taken : Bool) (stack : List Value) : Option Activation := do
  let b1 ← f.operand 1
  let b2 ← f.operand 2
  if taken then f.jump (encodedDisplacement b1 b2) stack else some (f.next 3 stack)

end Activation

/-- What an instruction leads to: the activation, the arrays, and what is printed. -/
structure Effect where
  frame : Activation
  arrays : List (List Word)
  printed : List Word

/-- Whether a value is a reference, or else a number. -/
def Value.isA (isRef : Bool) : Value → Bool
  | .int _ => !isRef
  | .ref _ => isRef
  | .out => false

/-- An instruction that loads a number or a reference from a local. -/
def loads (f : Activation) (i width : Nat) (isRef : Bool) : Option Activation := do
  let v ← f.load i
  if v.isA isRef then some (f.next width (v :: f.stack)) else none

/-- An instruction that stores a number or a reference in a local. -/
def stores (f : Activation) (i width : Nat) (isRef : Bool) : Option Activation :=
  match f.stack with
  | v :: rest =>
    if v.isA isRef then (Activation.store { f with stack := rest } i v).map (·.advance width) else none
  | [] => none

/-- The instructions that stay in their activation; of the constants only whether they are what the
instruction needs is asked in `Step`. -/
def perform (pool : List Constant) (arrays : List (List Word)) (f : Activation) :
    Instruction → Option Effect
  | .nop => some ⟨f.next 1 f.stack, arrays, []⟩
  | .iconst k => some ⟨f.next 1 (.int (BitVec.ofInt 32 ((k : Int) - 1)) :: f.stack), arrays, []⟩
  | .bipush => do
    let b ← f.operand 1
    some ⟨f.next 2 (.int (BitVec.ofInt 32 b.toBitVec.toInt) :: f.stack), arrays, []⟩
  | .sipush => do
    let b1 ← f.operand 1
    let b2 ← f.operand 2
    some ⟨f.next 3 (.int (BitVec.ofInt 32 (b1.toBitVec ++ b2.toBitVec).toInt) :: f.stack), arrays, []⟩
  | .ldc => do
    let b ← f.operand 1
    match constant pool b.toNat with
    | some (.integer n) => some ⟨f.next 2 (.int n :: f.stack), arrays, []⟩
    | _ => none
  | .iload => do
    let i ← f.operand 1
    let f ← loads f i.toNat 2 false
    some ⟨f, arrays, []⟩
  | .aload => do
    let i ← f.operand 1
    let f ← loads f i.toNat 2 true
    some ⟨f, arrays, []⟩
  | .iload_ i => do
    let f ← loads f i 1 false
    some ⟨f, arrays, []⟩
  | .aload_ i => do
    let f ← loads f i 1 true
    some ⟨f, arrays, []⟩
  | .istore => do
    let i ← f.operand 1
    let f ← stores f i.toNat 2 false
    some ⟨f, arrays, []⟩
  | .astore => do
    let i ← f.operand 1
    let f ← stores f i.toNat 2 true
    some ⟨f, arrays, []⟩
  | .istore_ i => do
    let f ← stores f i 1 false
    some ⟨f, arrays, []⟩
  | .astore_ i => do
    let f ← stores f i 1 true
    some ⟨f, arrays, []⟩
  | .iinc => do
    let i ← f.operand 1
    let b ← f.operand 2
    match f.load i.toNat with
    | some (.int n) => do
      let f ← f.store i.toNat (.int (BitVec.ofInt 32 (n.toInt + b.toBitVec.toInt)))
      some ⟨f.advance 3, arrays, []⟩
    | _ => none
  | .dup =>
    match f.stack with
    | .int n :: rest => some ⟨f.next 1 (.int n :: .int n :: rest), arrays, []⟩
    | .ref r :: rest => some ⟨f.next 1 (.ref r :: .ref r :: rest), arrays, []⟩
    | _ => none
  | .binary op =>
    match f.stack with
    | .int b :: .int a :: rest =>
      -- `ArithmeticException`
      if (op = .idiv ∨ op = .irem) ∧ b = 0 then none
      else some ⟨f.next 1 (.int (op.specified a b) :: rest), arrays, []⟩
    | _ => none
  | .ineg =>
    match f.stack with
    | .int a :: rest => some ⟨f.next 1 (.int (BitVec.ofInt 32 (-a.toInt)) :: rest), arrays, []⟩
    | _ => none
  | .ifCond cond =>
    match f.stack with
    | .int a :: rest => do
      let f ← f.branch (specifiedComparison a.toInt 0 cond) rest
      some ⟨f, arrays, []⟩
    | _ => none
  | .ifIcmp cond =>
    match f.stack with
    | .int b :: .int a :: rest => do
      let f ← f.branch (specifiedComparison a.toInt b.toInt cond) rest
      some ⟨f, arrays, []⟩
    | _ => none
  | .goto => do
    let f ← f.branch true f.stack
    some ⟨f, arrays, []⟩
  | .getstatic => some ⟨f.next 3 (.out :: f.stack), arrays, []⟩
  | .invokevirtual =>
    match f.stack with
    | .int n :: .out :: rest => some ⟨f.next 3 rest, arrays, [n]⟩
    | _ => none
  | .newarray => do
    let type ← f.operand 1
    match f.stack with
    | .int n :: rest =>
      -- `NegativeArraySizeException`
      if type = T_INT ∧ 0 ≤ n.toInt then
        some ⟨f.next 2 (.ref arrays.length :: rest), arrays ++ [List.replicate n.toInt.toNat 0], []⟩
      else none
    | _ => none
  | .arraylength =>
    match f.stack with
    | .ref r :: rest => do
      let array ← arrays[r]?
      some ⟨f.next 1 (.int (BitVec.ofNat 32 array.length) :: rest), arrays, []⟩
    | _ => none
  | .iastore =>
    match f.stack with
    | .int v :: .int i :: .ref r :: rest => do
      let array ← arrays[r]?
      -- `ArrayIndexOutOfBoundsException`
      if 0 ≤ i.toInt ∧ i.toInt < array.length then
        some ⟨f.next 1 rest, arrays.set r (array.set i.toInt.toNat v), []⟩
      else none
    | _ => none
  | .iaload =>
    match f.stack with
    | .int i :: .ref r :: rest => do
      let array ← arrays[r]?
      if 0 ≤ i.toInt ∧ i.toInt < array.length then
        some ⟨f.next 1 (.int (array.getD i.toInt.toNat 0) :: rest), arrays, []⟩
      else none
    | _ => none
  | .ireturn | .areturn | .return | .invokestatic => none

/-- What an activation returns: a value, or nothing. -/
def Activation.result (f : Activation) : Instruction → Option (Option Value)
  | .ireturn =>
    match f.stack with
    | .int n :: _ => some (some (.int n))
    | _ => none
  | .areturn =>
    match f.stack with
    | .ref r :: _ => some (some (.ref r))
    | _ => none
  | .return => some none
  | _ => none

/-- The instruction that an activation is at. -/
def Activation.instruction (f : Activation) : Option Instruction := f.method.code.code[f.pc]?.bind decode

/-- The constants are what the instruction needs. -/
def MemberOk (pool : List Constant) (f : Activation) : Instruction → Prop
  | .getstatic => ∃ b1 b2, f.operand 1 = some b1 ∧ f.operand 2 = some b2 ∧
      IsSystemOut pool (unsignedPair b1 b2)
  | .invokevirtual => ∃ b1 b2, f.operand 1 = some b1 ∧ f.operand 2 = some b2 ∧
      IsPrintln pool (unsignedPair b1 b2)
  | _ => True

/-- A value for a parameter. -/
inductive Fits : ParamType → Value → Prop
  | int {type : BaseType} {n : Word} : Fits (.base type) (.int n)
  | ref {type : BaseType} {r : Nat} : Fits (.array type) (.ref r)

/-- The steps of the machine. -/
inductive Step (c : ClassFile) : Machine → Machine → Prop
  /-- An instruction that stays in its activation. -/
  | act {s : Machine} {i : Instruction} {e : Effect} : s.frame.instruction = some i →
      MemberOk c.constantPool s.frame i → perform c.constantPool s.arrays s.frame i = some e →
      e.frame.stack.length ≤ s.frame.method.code.maxStack →
      Step c s ⟨e.frame, s.callers, e.arrays, s.output ++ e.printed⟩
  /-- `invokestatic`: the arguments are the first locals of the method. -/
  | call {s : Machine} {b1 b2 : UInt8} {m : Method} {params : List ParamType} {returns : CString}
      {args rest : List Value} : s.frame.instruction = some .invokestatic →
      s.frame.operand 1 = some b1 → s.frame.operand 2 = some b2 → Names c (unsignedPair b1 b2) m →
      m.descriptor = descriptor params returns → s.frame.stack = args.reverse ++ rest →
      List.Forall₂ Fits params args → args.length ≤ m.code.maxLocals →
      Step c s ⟨⟨m, args.map some ++ List.replicate (m.code.maxLocals - args.length) none, [], 0⟩,
        { s.frame with stack := rest } :: s.callers, s.arrays, s.output⟩
  /-- A return to the caller, which goes on behind its call. -/
  | ret {s : Machine} {i : Instruction} {value : Option Value} {caller : Activation}
      {callers : List Activation} : s.frame.instruction = some i → s.frame.result i = some value →
      s.callers = caller :: callers →
      (value.toList ++ caller.stack).length ≤ caller.method.code.maxStack →
      Step c s ⟨caller.next 3 (value.toList ++ caller.stack), callers, s.arrays, s.output⟩

/-- The machine ends with the return of its first activation. -/
def Ends (s : Machine) (value : Option Value) : Prop :=
  s.callers = [] ∧ ∃ i, s.frame.instruction = some i ∧ s.frame.result i = some value

end JVM.Java
