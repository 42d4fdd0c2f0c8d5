import CS24.Lib.Checked

/-!
# Class files in memory

What `read_class.c` leaves for the interpreter: an array of constants and an
array of methods, and the functions that look things up in them.  Strings are
C strings, the bytes up to the terminating zero.  A lookup ends in a `Fault`
where the C code fails an assertion or leaves defined behaviour.
-/

namespace JVM

/-- `char *` -/
abbrev CString := List UInt8

/-- How a run of the interpreter can end early. -/
inductive Fault
  /-- the assertion in `stack_push` -/
  | stackOverflow
  /-- the assertion in `stack_pop` -/
  | stackUnderflow
  /-- an access behind the end of the locals -/
  | localsOutOfBounds
  /-- a read behind the end of the code -/
  | codeOutOfBounds
  /-- `exit(EXIT_NUMBER)` -/
  | unhandled (instruction : UInt8)
  /-- a failed assertion on the constant pool, or a constant of the wrong kind -/
  | badConstant
  /-- a `NULL` method or descriptor part -/
  | noMethod
  /-- a C operation without a defined result -/
  | undefinedOperation
  /-- an access outside the reference table or outside an array -/
  | heapOutOfBounds
  deriving DecidableEq, Repr

/-- A constant pool entry, by its tag. -/
inductive Constant
  | utf8 (bytes : CString)
  | integer (bytes : BitVec 32)
  | class (stringIndex : UInt16)
  | fieldref (classIndex nameAndTypeIndex : UInt16)
  | methodref (classIndex nameAndTypeIndex : UInt16)
  | nameAndType (nameIndex descriptorIndex : UInt16)
  deriving DecidableEq, Repr

/-- A `code_t`; `code_length` is the length of `code`. -/
structure Code where
  maxStack : Nat
  maxLocals : Nat
  code : List UInt8
  deriving DecidableEq, Repr

/-- A `method_t`. -/
structure Method where
  name : CString
  descriptor : CString
  code : Code
  deriving DecidableEq, Repr

/-- A `class_file_t`; both arrays without their terminators. -/
structure ClassFile where
  constantPool : List Constant
  methods : List Method
  deriving DecidableEq, Repr

/-- `constant_pool_size`, which counts in a `u2`. -/
def constantPoolSize (pool : List Constant) : Nat := pool.length % 2 ^ 16

/-- `get_constant`: indices are from 1. -/
def getConstant (pool : List Constant) (index : Nat) : Except Fault Constant :=
  if 0 < index ∧ index ≤ constantPoolSize pool then
    match pool[index - 1]? with
    | some constant => .ok constant
    | none => .error .badConstant
  else .error .badConstant

/-- `get_method_name_and_type`, the two indices. -/
def getMethodNameAndType (pool : List Constant) (index : Nat) :
    Except Fault (UInt16 × UInt16) := do
  match ← getConstant pool index with
  | .methodref _ nameAndTypeIndex =>
    match ← getConstant pool nameAndTypeIndex.toNat with
    | .nameAndType nameIndex descriptorIndex => .ok (nameIndex, descriptorIndex)
    | _ => .error .badConstant
  | _ => .error .badConstant

/-- `find_method`: the first method of that name and descriptor. -/
def findMethod (name descriptor : CString) (c : ClassFile) : Option Method :=
  c.methods.find? fun m => m.name = name ∧ m.descriptor = descriptor

/-- A Utf8 constant. -/
def getUtf8 (pool : List Constant) (index : Nat) : Except Fault CString := do
  match ← getConstant pool index with
  | .utf8 bytes => .ok bytes
  | _ => .error .badConstant

/-- `find_method_from_index`.  Its caller follows the result without a test, so
`NULL` is a fault. -/
def findMethodFromIndex (index : Nat) (c : ClassFile) : Except Fault Method := do
  let (nameIndex, descriptorIndex) ← getMethodNameAndType c.constantPool index
  let name ← getUtf8 c.constantPool nameIndex.toNat
  let descriptor ← getUtf8 c.constantPool descriptorIndex.toNat
  match findMethod name descriptor c with
  | some method => .ok method
  | none => .error .noMethod

/-- The loop of `get_number_of_parameters` over the characters between the
parentheses: `[` and the character behind it are one parameter. -/
def countParameters : CString → Nat
  | [] => 0
  | [_] => 1
  | c :: d :: rest => if c = 91 then countParameters rest + 1 else countParameters (d :: rest) + 1

/-- `get_number_of_parameters`, which counts in a `u2`.  With no closing
parenthesis the loop does not run; with no opening one it starts at `NULL`. -/
def getNumberOfParameters (method : Method) : Except Fault Nat :=
  match method.descriptor.idxOf? 40, method.descriptor.idxOf? 41 with
  | some start, some stop =>
    .ok (countParameters ((method.descriptor.take stop).drop (start + 1)) % 2 ^ 16)
  | none, some _ => .error .noMethod
  | _, none => .ok 0

/-- **1-based indices**: `get_constant` accepts the indices of the pool, and returns what is
there. -/
theorem getConstant_eq_ok_iff {pool : List Constant} (h : pool.length < 65535) {index : Nat}
    {constant : Constant} :
    getConstant pool index = .ok constant ↔ 0 < index ∧ pool[index - 1]? = some constant := by
  have hsize : constantPoolSize pool = pool.length := Nat.mod_eq_of_lt (by omega)
  unfold getConstant
  rw [hsize]
  constructor
  · intro hok
    split at hok
    · rename_i hindex
      refine ⟨hindex.1, ?_⟩
      split at hok
      · rename_i c hget
        obtain rfl := Except.ok.inj hok
        exact hget
      · cases hok
    · cases hok
  · intro ⟨hpos, hget⟩
    have hlt : index - 1 < pool.length := (List.getElem?_eq_some_iff.mp hget).1
    rw [if_pos ⟨hpos, by omega⟩, hget]

/-- A method found by its index is a method of the class. -/
theorem findMethodFromIndex_mem {index : Nat} {c : ClassFile} {m : Method}
    (h : findMethodFromIndex index c = .ok m) : m ∈ c.methods := by
  obtain ⟨indices, -, h⟩ := Checked.bind_eq_ok h
  obtain ⟨name, -, h⟩ := Checked.bind_eq_ok h
  obtain ⟨descriptor, -, h⟩ := Checked.bind_eq_ok h
  split at h
  · rename_i m' hfind
    obtain rfl := Except.ok.inj h
    exact List.mem_of_find?_eq_some hfind
  · cases h

end JVM
