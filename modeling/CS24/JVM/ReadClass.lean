import CS24.JVM.ClassFile
import CS24.Lib.Cursor

/-!
# Reading a class file

`get_class` and the functions it calls, from `read_class.c`.  The file is a list of bytes
with a position; `malloc` says which requests for memory are served.  A failed assertion
is a `ReadFault`.  The two calls in `read_u1(f) << 8 | read_u1(f)` are made from left to
right.
-/

namespace JVM

open Cursor

/-- The assertions of `read_class.c` that stop the reading of a class. -/
inductive ReadFault
  /-- "Reached end of file prematurely" -/
  | endOfFile
  /-- "Failed to read UTF8 constant", "Failed to read method code" -/
  | shortRead
  /-- "Failed to allocate ..." -/
  | allocation
  /-- `header.magic == CLASS_MAGIC` -/
  | badMagic
  /-- "Unknown constant type %d" -/
  | unknownConstant (tag : UInt8)
  /-- "This VM does not support interfaces." -/
  | interfaces
  /-- "This VM does not support fields." -/
  | fields
  /-- "Invalid constant pool index", "Expected a UTF8" -/
  | badConstant
  /-- "This VM only supports static methods." -/
  | notStatic
  /-- "Duplicate method code" -/
  | duplicateCode
  /-- "Missing method code" -/
  | missingCode
  deriving DecidableEq, Repr

def CLASS_MAGIC : UInt32 := 0xCAFEBABE

def IS_STATIC : UInt16 := 0x0008

/-- `"Code"` -/
def codeName : CString := [67, 111, 100, 101]

/-- `"<init>"` -/
def initName : CString := [60, 105, 110, 105, 116, 62]

/-- A `class_header_t`. -/
structure ClassHeader where
  magic : UInt32
  minorVersion : UInt16
  majorVersion : UInt16

/-- A `class_info_t`. -/
structure ClassInfo where
  accessFlags : UInt16
  thisClass : UInt16
  superClass : UInt16

/-- The characters of a C string. -/
def cString (bytes : List UInt8) : CString := bytes.takeWhile (· ≠ 0)

section

variable (malloc : Nat → Bool) (file : List UInt8)

def readU1 : Reader ReadFault UInt8 := byte file .endOfFile

def readU2 : Reader ReadFault UInt16 := do
  let high ← readU1 file
  let low ← readU1 file
  pure (high.toUInt16 <<< 8 ||| low.toUInt16)

def readU4 : Reader ReadFault UInt32 := do
  let high ← readU2 file
  let low ← readU2 file
  pure (high.toUInt32 <<< 16 ||| low.toUInt32)

/-- A call of `malloc` and the assertion that it did not return `NULL`. -/
def allocate (size : Nat) : Reader ReadFault Unit := require (malloc size = true) .allocation

/-- `get_constant` and the assertion that the constant is a Utf8. -/
def lookUpUtf8 (pool : List Constant) (index : UInt16) : Reader ReadFault CString :=
  match getUtf8 pool index.toNat with
  | .ok bytes => pure bytes
  | .error _ => throw .badConstant

/-- The source reads the two versions in the other order than the format has them; nothing
uses them. -/
def getClassHeader : Reader ReadFault ClassHeader := do
  let magic ← readU4 file
  require (magic = CLASS_MAGIC) .badMagic
  let majorVersion ← readU2 file
  let minorVersion ← readU2 file
  pure ⟨magic, minorVersion, majorVersion⟩

/-- One round of the loop of `get_constant_pool`. -/
def readConstant : Reader ReadFault Constant := do
  let tag ← readU1 file
  match tag.toNat with
  | 1 => do
    let length ← readU2 file
    allocate malloc (length.toNat + 1)
    let info ← bytes file length.toNat .shortRead
    pure (.utf8 (cString info))
  | 3 => do
    allocate malloc 4
    let value ← readU4 file
    pure (.integer value.toBitVec)
  | 7 => do
    allocate malloc 2
    let stringIndex ← readU2 file
    pure (.class stringIndex)
  | 9 => do
    allocate malloc 4
    let classIndex ← readU2 file
    let nameAndTypeIndex ← readU2 file
    pure (.fieldref classIndex nameAndTypeIndex)
  | 10 => do
    allocate malloc 4
    let classIndex ← readU2 file
    let nameAndTypeIndex ← readU2 file
    pure (.methodref classIndex nameAndTypeIndex)
  | 12 => do
    allocate malloc 4
    let nameIndex ← readU2 file
    let descriptorIndex ← readU2 file
    pure (.nameAndType nameIndex descriptorIndex)
  | _ => throw (.unknownConstant tag)

/-- The count in the file includes the unused constant at index 0.  The array has one more
entry, for the terminator. -/
def getConstantPool : Reader ReadFault (List Constant) := do
  let constantPoolCount ← readU2 file
  let count := constantPoolCount - 1
  allocate malloc (16 * (count.toNat + 1))
  readList (readConstant malloc file) count.toNat

def getClassInfo : Reader ReadFault ClassInfo := do
  let accessFlags ← readU2 file
  let thisClass ← readU2 file
  let superClass ← readU2 file
  let interfacesCount ← readU2 file
  require (interfacesCount = 0) .interfaces
  let fieldsCount ← readU2 file
  require (fieldsCount = 0) .fields
  pure ⟨accessFlags, thisClass, superClass⟩

/-- The part of a Code attribute that is read. -/
def readCode : Reader ReadFault Code := do
  let maxStack ← readU2 file
  let maxLocals ← readU2 file
  let codeLength ← readU4 file
  allocate malloc codeLength.toNat
  let code ← bytes file codeLength.toNat .shortRead
  pure ⟨maxStack.toNat, maxLocals.toNat, code⟩

/-- What is done with an attribute before its end is sought. -/
def readAttributeInfo (pool : List Constant) (nameIndex : UInt16) (found : Option Code) :
    Reader ReadFault (Option Code) := do
  let type ← lookUpUtf8 pool nameIndex
  if type = codeName then do
    require (found = none) .duplicateCode
    let code ← readCode malloc file
    pure (some code)
  else pure found

/-- One round of the loop of `read_method_attributes`. -/
def readAttribute (pool : List Constant) (found : Option Code) :
    Reader ReadFault (Option Code) := do
  let nameIndex ← readU2 file
  let length ← readU4 file
  within length.toNat (readAttributeInfo malloc file pool nameIndex found)

/-- The loop of `read_method_attributes`; `found` is the code once it is found. -/
def readAttributes (pool : List Constant) : Nat → Option Code → Reader ReadFault (Option Code)
  | 0, found => pure found
  | attributes + 1, found => do
    let found ← readAttribute malloc file pool found
    readAttributes pool attributes found

def readMethodAttributes (pool : List Constant) (attributesCount : UInt16) :
    Reader ReadFault Code := do
  match ← readAttributes malloc file pool attributesCount.toNat none with
  | some code => pure code
  | none => throw .missingCode

/-- One round of the loop of `get_methods`. -/
def readMethod (pool : List Constant) : Reader ReadFault Method := do
  let accessFlags ← readU2 file
  let nameIndex ← readU2 file
  let descriptorIndex ← readU2 file
  let attributesCount ← readU2 file
  let name ← lookUpUtf8 pool nameIndex
  let descriptor ← lookUpUtf8 pool descriptorIndex
  require (name = initName ∨ accessFlags &&& IS_STATIC ≠ 0) .notStatic
  let code ← readMethodAttributes malloc file pool attributesCount
  pure ⟨name, descriptor, code⟩

def getMethods (pool : List Constant) : Reader ReadFault (List Method) := do
  let methodCount ← readU2 file
  allocate malloc (32 * (methodCount.toNat + 1))
  readList (readMethod malloc file pool) methodCount.toNat

def getClass : Reader ReadFault ClassFile := do
  allocate malloc 16
  let _ ← getClassHeader file
  let constantPool ← getConstantPool malloc file
  let _ ← getClassInfo file
  let methods ← getMethods malloc file constantPool
  pure ⟨constantPool, methods⟩

end

end JVM
