import CS24.JVM.ClassFile

/-!
# The interpreter

`jvm.c`.  An activation of `execute` is a `Frame`; the activations that wait for
a callee are the `callers` of a state, so one `step` is one turn of the loop of
the innermost activation, and the recursion of `execute` is a growing list of
callers.  A C `int` is a 32-bit word; `+`, `-`, `*` and unary `-` wrap around.
`pc` is a `size_t`.

The locals of a callee come from `malloc`; what is in them before the arguments
are stored is a parameter of the step.
-/

namespace JVM

/-- A C `int`. -/
abbrev Word := BitVec 32

/-- The operations on two operands. -/
inductive BinaryOp
  | iadd | isub | imul | idiv | irem | ishl | ishr | iushr | iand | ior | ixor
  deriving DecidableEq, Repr

/-- The comparisons of the conditional branches. -/
inductive Condition
  | eq | ne | lt | ge | gt | le
  deriving DecidableEq, Repr

/-- The cases of the `switch` in `execute`.  `jvm_instruction_t` values that share
a case are one constructor with the offset in the range. -/
inductive Instruction
  | nop
  | iconst (offset : Nat)
  | bipush
  | sipush
  | ldc
  | iload
  | aload
  | iload_ (i : Nat)
  | aload_ (i : Nat)
  | iaload
  | istore
  | astore
  | istore_ (i : Nat)
  | astore_ (i : Nat)
  | iastore
  | dup
  | binary (op : BinaryOp)
  | ineg
  | iinc
  | ifCond (cond : Condition)
  | ifIcmp (cond : Condition)
  | goto
  | ireturn
  | areturn
  | return
  | getstatic
  | invokevirtual
  | invokestatic
  | newarray
  | arraylength
  deriving DecidableEq, Repr

/-- The values of `jvm_instruction_t` in `jvm.h`; anything else is the default
case. -/
def decode (instruction : UInt8) : Option Instruction :=
  match instruction.toNat with
  | 0x00 => some .nop
  | 0x02 => some (.iconst 0)
  | 0x03 => some (.iconst 1)
  | 0x04 => some (.iconst 2)
  | 0x05 => some (.iconst 3)
  | 0x06 => some (.iconst 4)
  | 0x07 => some (.iconst 5)
  | 0x08 => some (.iconst 6)
  | 0x10 => some .bipush
  | 0x11 => some .sipush
  | 0x12 => some .ldc
  | 0x15 => some .iload
  | 0x19 => some .aload
  | 0x1a => some (.iload_ 0)
  | 0x1b => some (.iload_ 1)
  | 0x1c => some (.iload_ 2)
  | 0x1d => some (.iload_ 3)
  | 0x2a => some (.aload_ 0)
  | 0x2b => some (.aload_ 1)
  | 0x2c => some (.aload_ 2)
  | 0x2d => some (.aload_ 3)
  | 0x2e => some .iaload
  | 0x36 => some .istore
  | 0x3a => some .astore
  | 0x3b => some (.istore_ 0)
  | 0x3c => some (.istore_ 1)
  | 0x3d => some (.istore_ 2)
  | 0x3e => some (.istore_ 3)
  | 0x4b => some (.astore_ 0)
  | 0x4c => some (.astore_ 1)
  | 0x4d => some (.astore_ 2)
  | 0x4e => some (.astore_ 3)
  | 0x4f => some .iastore
  | 0x59 => some .dup
  | 0x60 => some (.binary .iadd)
  | 0x64 => some (.binary .isub)
  | 0x68 => some (.binary .imul)
  | 0x6c => some (.binary .idiv)
  | 0x70 => some (.binary .irem)
  | 0x74 => some .ineg
  | 0x78 => some (.binary .ishl)
  | 0x7a => some (.binary .ishr)
  | 0x7c => some (.binary .iushr)
  | 0x7e => some (.binary .iand)
  | 0x80 => some (.binary .ior)
  | 0x82 => some (.binary .ixor)
  | 0x84 => some .iinc
  | 0x99 => some (.ifCond .eq)
  | 0x9a => some (.ifCond .ne)
  | 0x9b => some (.ifCond .lt)
  | 0x9c => some (.ifCond .ge)
  | 0x9d => some (.ifCond .gt)
  | 0x9e => some (.ifCond .le)
  | 0x9f => some (.ifIcmp .eq)
  | 0xa0 => some (.ifIcmp .ne)
  | 0xa1 => some (.ifIcmp .lt)
  | 0xa2 => some (.ifIcmp .ge)
  | 0xa3 => some (.ifIcmp .gt)
  | 0xa4 => some (.ifIcmp .le)
  | 0xa7 => some .goto
  | 0xac => some .ireturn
  | 0xb0 => some .areturn
  | 0xb1 => some .return
  | 0xb2 => some .getstatic
  | 0xb6 => some .invokevirtual
  | 0xb8 => some .invokestatic
  | 0xbc => some .newarray
  | 0xbe => some .arraylength
  | _ => none

/-- An activation of `execute`: its locals, its operand stack with the top first,
and where it is in the code. -/
structure Frame where
  method : Method
  locals : Vector Word method.code.maxLocals
  stack : List Word
  pc : Nat

/-- A `heap_t`: the reference table.  An array starts with the cell that holds its
length. -/
abbrev Heap := List (List Word)

/-- `heap_add` -/
def Heap.add (heap : Heap) (array : List Word) : Word × Heap :=
  (BitVec.ofNat 32 heap.length, heap ++ [array])

/-- `heap_get` -/
def Heap.get (heap : Heap) (ref : Word) : Except Fault (List Word) :=
  if 0 ≤ ref.toInt then
    match heap[ref.toNat]? with
    | some array => .ok array
    | none => .error .heapOutOfBounds
  else .error .heapOutOfBounds

/-- The cell `array[index + 1]`, where the sum is an `int`. -/
def cell (array : List Word) (index : Word) : Except Fault Nat :=
  let i := index + 1
  if 0 ≤ i.toInt ∧ i.toNat < array.length then .ok i.toNat else .error .heapOutOfBounds

namespace Frame

variable (f : Frame)

/-- `stack_push` -/
def push (item : Word) : Except Fault Frame :=
  if f.stack.length < f.method.code.maxStack then .ok { f with stack := item :: f.stack }
  else .error .stackOverflow

/-- `stack_pop` -/
def pop : Except Fault (Word × Frame) :=
  match f.stack with
  | item :: rest => .ok (item, { f with stack := rest })
  | [] => .error .stackUnderflow

/-- `code[pc + k]` -/
def byte (k : Nat) : Except Fault UInt8 :=
  match f.method.code.code[f.pc + k]? with
  | some b => .ok b
  | none => .error .codeOutOfBounds

/-- `locals[i]` -/
def load (i : Nat) : Except Fault Word :=
  match f.locals[i]? with
  | some v => .ok v
  | none => .error .localsOutOfBounds

/-- `locals[i] = v` -/
def store (i : Nat) (v : Word) : Except Fault Frame :=
  if h : i < f.method.code.maxLocals then .ok { f with locals := f.locals.set i v h }
  else .error .localsOutOfBounds

/-- `pc += d` for an `int`; the sum is a `size_t`. -/
def target (pc : Nat) (d : Int) : Nat := ((pc + d) % 2 ^ 64).toNat

/-- `pc += d` -/
def jump (d : Int) : Frame := { f with pc := target f.pc d }

end Frame

/-- The first four bytes of what `info` points to, as an `int`; a `Class` constant
and a short string have fewer. -/
def Constant.word : Constant → Option Word
  | .utf8 bytes =>
    match bytes ++ [0] with
    | b0 :: b1 :: b2 :: b3 :: _ => some (b3.toBitVec ++ b2.toBitVec ++ b1.toBitVec ++ b0.toBitVec)
    | _ => none
  | .integer bytes => some bytes
  | .class _ => none
  | .fieldref a b => some (b.toBitVec ++ a.toBitVec)
  | .methodref a b => some (b.toBitVec ++ a.toBitVec)
  | .nameAndType a b => some (b.toBitVec ++ a.toBitVec)

/-- `*(int *) class->constant_pool[b - 1].info`; the tag is not tested. -/
def poolWord (pool : List Constant) (b : UInt8) : Except Fault Word :=
  if b = 0 then .error .badConstant
  else
    match pool[b.toNat - 1]? with
    | some constant =>
      match constant.word with
      | some item => .ok item
      | none => .error .badConstant
    | none => .error .badConstant

/-- `(b1 << 8) | b2` of two `int8_t`, each extended to an `int` first. -/
def displacement (b1 b2 : UInt8) : Int :=
  ((b1.toBitVec.signExtend 32 <<< 8) ||| b2.toBitVec.signExtend 32).toInt

/-- `(b1 << 8) | b2` of two `u1`. -/
def unsignedPair (b1 b2 : UInt8) : Nat := b1.toNat * 256 + b2.toNat

/-- What the C operators give on operands `a` and `b`, where they give anything:
no quotient by zero, no quotient that does not fit, and no shift by less than 0
or more than 31. -/
def BinaryOp.apply (a b : Word) : BinaryOp → Except Fault Word
  | iadd => .ok (a + b)
  | isub => .ok (a - b)
  | imul => .ok (a * b)
  | idiv =>
    if b = 0 ∨ (a = BitVec.intMin 32 ∧ b = -1) then .error .undefinedOperation
    else .ok (a.sdiv b)
  | irem =>
    if b = 0 ∨ (a = BitVec.intMin 32 ∧ b = -1) then .error .undefinedOperation
    else .ok (a.srem b)
  | ishl => if b.toNat < 32 then .ok (a <<< b.toNat) else .error .undefinedOperation
  | ishr => if b.toNat < 32 then .ok (a.sshiftRight b.toNat) else .error .undefinedOperation
  | iushr => if b.toNat < 32 then .ok (a >>> b.toNat) else .error .undefinedOperation
  | iand => .ok (a &&& b)
  | ior => .ok (a ||| b)
  | ixor => .ok (a ^^^ b)

/-- The comparison `a ? b` of two `int`s. -/
def Condition.holds (a b : Word) : Condition → Bool
  | eq => a = b
  | ne => a ≠ b
  | lt => a.slt b
  | ge => b.sle a
  | gt => b.slt a
  | le => a.sle b

/-- What an instruction leads to: the next turn of the loop, a call, or the return
of an `optional_value_t`. -/
inductive Effect
  | continue (frame : Frame) (heap : Heap) (output : List Word)
  | call (caller callee : Frame)
  | return (value : Option Word)

/-- Part 2 of `invokestatic`: arguments are popped, the last one first, into the
first `k` locals of the callee. -/
def bindArguments : Nat → Frame → Frame → Except Fault (Frame × Frame)
  | 0, caller, callee => .ok (caller, callee)
  | k + 1, caller, callee => do
    let (item, caller) ← caller.pop
    let callee ← callee.store k item
    bindArguments k caller callee

/-- The branches: both operand bytes are read before the operands are popped. -/
def branch (f : Frame) (taken : Bool) (b1 b2 : UInt8) : Frame :=
  if taken then f.jump (displacement b1 b2) else f.jump 3

/-- One case of the `switch`.  `fresh` is what `malloc` leaves in new locals. -/
def execute (c : ClassFile) (fresh : (n : Nat) → Vector Word n) (f : Frame) (heap : Heap)
    (output : List Word) : Instruction → Except Fault Effect
  | .nop => .ok (.continue (f.jump 1) heap output)
  | .iconst offset => do
    let f ← f.push (BitVec.ofInt 32 ((offset : Int) - 1))
    .ok (.continue (f.jump 1) heap output)
  | .bipush => do
    let b ← f.byte 1
    let f ← f.push (b.toBitVec.signExtend 32)
    .ok (.continue (f.jump 2) heap output)
  | .sipush => do
    let b1 ← f.byte 1
    let b2 ← f.byte 2
    let f ← f.push ((BitVec.ofNat 16 (unsignedPair b1 b2)).signExtend 32)
    .ok (.continue (f.jump 3) heap output)
  | .ldc => do
    let b ← f.byte 1
    let item ← poolWord c.constantPool b
    let f ← f.push item
    .ok (.continue (f.jump 2) heap output)
  | .iload | .aload => do
    let i ← f.byte 1
    let v ← f.load i.toNat
    let f ← f.push v
    .ok (.continue (f.jump 2) heap output)
  | .iload_ i | .aload_ i => do
    let v ← f.load i
    let f ← f.push v
    .ok (.continue (f.jump 1) heap output)
  | .istore | .astore => do
    let i ← f.byte 1
    let (a, f) ← f.pop
    let f ← f.store i.toNat a
    .ok (.continue (f.jump 2) heap output)
  | .istore_ i | .astore_ i => do
    let (a, f) ← f.pop
    let f ← f.store i a
    .ok (.continue (f.jump 1) heap output)
  | .iinc => do
    let i ← f.byte 1
    let b ← f.byte 2
    let v ← f.load i.toNat
    let f ← f.store i.toNat (v + b.toBitVec.signExtend 32)
    .ok (.continue (f.jump 3) heap output)
  | .dup => do
    let (a, f) ← f.pop
    let f ← f.push a
    let f ← f.push a
    .ok (.continue (f.jump 1) heap output)
  | .binary op => do
    let (b, f) ← f.pop
    let (a, f) ← f.pop
    let v ← op.apply a b
    let f ← f.push v
    .ok (.continue (f.jump 1) heap output)
  | .ineg => do
    let (a, f) ← f.pop
    let f ← f.push (-a)
    .ok (.continue (f.jump 1) heap output)
  | .ifCond cond => do
    let b1 ← f.byte 1
    let b2 ← f.byte 2
    let (a, f) ← f.pop
    .ok (.continue (branch f (cond.holds a 0) b1 b2) heap output)
  | .ifIcmp cond => do
    let b1 ← f.byte 1
    let b2 ← f.byte 2
    let (b, f) ← f.pop
    let (a, f) ← f.pop
    .ok (.continue (branch f (cond.holds a b) b1 b2) heap output)
  | .goto => do
    let b1 ← f.byte 1
    let b2 ← f.byte 2
    .ok (.continue (f.jump (displacement b1 b2)) heap output)
  | .ireturn | .areturn => do
    let (a, _) ← f.pop
    .ok (.return (some a))
  | .return => .ok (.return none)
  | .getstatic => .ok (.continue (f.jump 3) heap output)
  | .invokevirtual => do
    let (item, f) ← f.pop
    .ok (.continue (f.jump 3) heap (output ++ [item]))
  | .invokestatic => do
    let b1 ← f.byte 1
    let b2 ← f.byte 2
    let method ← findMethodFromIndex (unsignedPair b1 b2) c
    let parameters ← getNumberOfParameters method
    let callee : Frame := ⟨method, fresh method.code.maxLocals, [], 0⟩
    let (f, callee) ← bindArguments parameters f callee
    .ok (.call f callee)
  | .newarray => do
    let _ ← f.byte 1
    let (count, f) ← f.pop
    -- a negative count and the largest one make the size of the array wrap
    if 0 ≤ count.toInt ∧ count ≠ BitVec.intMax 32 then
      let (ref, heap) := Heap.add heap (count :: List.replicate count.toNat 0)
      let f ← f.push ref
      .ok (.continue (f.jump 2) heap output)
    else .error .heapOutOfBounds
  | .arraylength => do
    let (ref, f) ← f.pop
    let array ← Heap.get heap ref
    match array with
    | count :: _ =>
      let f ← f.push count
      .ok (.continue (f.jump 1) heap output)
    | [] => .error .heapOutOfBounds
  | .iastore => do
    let (value, f) ← f.pop
    let (index, f) ← f.pop
    let (ref, f) ← f.pop
    let array ← Heap.get heap ref
    let i ← cell array index
    .ok (.continue (f.jump 1) (heap.set ref.toNat (array.set i value)) output)
  | .iaload => do
    let (index, f) ← f.pop
    let (ref, f) ← f.pop
    let array ← Heap.get heap ref
    let i ← cell array index
    let f ← f.push (array.getD i 0)
    .ok (.continue (f.jump 1) heap output)

/-- A state of the interpreter: the innermost activation, those that wait for it,
the heap, and what was printed. -/
structure State where
  frame : Frame
  callers : List Frame
  heap : Heap
  output : List Word

/-- The instruction that the next step carries out. -/
def State.instruction (s : State) : Option Instruction :=
  s.frame.method.code.code[s.frame.pc]?.bind decode

/-- What a step leads to: another state, or the end of the outermost activation. -/
inductive Outcome
  | running (s : State)
  | finished (value : Option Word) (heap : Heap) (output : List Word)

/-- An activation returns.  Part 5 of `invokestatic`: the caller pushes the value,
if there is one, and goes on behind the call. -/
def returnValue (value : Option Word) (s : State) : Except Fault Outcome :=
  match s.callers with
  | [] => .ok (.finished value s.heap s.output)
  | caller :: callers => do
    let caller ← match value with
      | some v => caller.push v
      | none => .ok caller
    .ok (.running ⟨caller.jump 3, callers, s.heap, s.output⟩)

/-- One turn of the loop of the innermost activation. -/
def step (c : ClassFile) (fresh : (n : Nat) → Vector Word n) (s : State) :
    Except Fault Outcome :=
  if s.frame.pc < s.frame.method.code.code.length then do
    let instruction ← s.frame.byte 0
    match decode instruction with
    | none => .error (.unhandled instruction)
    | some i =>
      match ← execute c fresh s.frame s.heap s.output i with
      | .continue frame heap output => .ok (.running ⟨frame, s.callers, heap, output⟩)
      | .call caller callee => .ok (.running ⟨callee, caller :: s.callers, s.heap, s.output⟩)
      | .return value => returnValue value s
  else returnValue none s

end JVM
