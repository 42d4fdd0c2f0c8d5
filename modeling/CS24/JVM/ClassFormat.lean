import CS24.JVM.ReadClass

/-!
# Class files are read back

The byte format of a class file, as the JVM specification lays it out: big-endian integers,
counted lists, and attributes with a length.  `get_class` returns for the bytes of a class
without interfaces and fields the constants and methods that went in.
-/

namespace JVM

open Cursor

/-- The length of a list as a `u2`. -/
def count16 {α : Type} (xs : List α) : List UInt8 := bigEndian16 (UInt16.ofNat xs.length)

/-- The length of a list as a `u4`. -/
def count32 {α : Type} (xs : List α) : List UInt8 := bigEndian32 (UInt32.ofNat xs.length)

def Constant.encode : Constant → List UInt8
  | .utf8 bytes => [1] ++ count16 bytes ++ bytes
  | .integer value => [3] ++ bigEndian32 ⟨value⟩
  | .class stringIndex => [7] ++ bigEndian16 stringIndex
  | .fieldref classIndex nameAndTypeIndex =>
    [9] ++ bigEndian16 classIndex ++ bigEndian16 nameAndTypeIndex
  | .methodref classIndex nameAndTypeIndex =>
    [10] ++ bigEndian16 classIndex ++ bigEndian16 nameAndTypeIndex
  | .nameAndType nameIndex descriptorIndex =>
    [12] ++ bigEndian16 nameIndex ++ bigEndian16 descriptorIndex

/-- An attribute with its contents. -/
structure AttributeInfo where
  nameIndex : UInt16
  info : List UInt8

def AttributeInfo.encode (a : AttributeInfo) : List UInt8 :=
  bigEndian16 a.nameIndex ++ count32 a.info ++ a.info

/-- An entry of the exception table of a Code attribute. -/
structure ExceptionEntry where
  startPc : UInt16
  endPc : UInt16
  handlerPc : UInt16
  catchType : UInt16

def ExceptionEntry.encode (e : ExceptionEntry) : List UInt8 :=
  bigEndian16 e.startPc ++ bigEndian16 e.endPc ++ bigEndian16 e.handlerPc ++
    bigEndian16 e.catchType

/-- A Code attribute. -/
structure CodeAttribute where
  nameIndex : UInt16
  maxStack : UInt16
  maxLocals : UInt16
  code : List UInt8
  exceptionTable : List ExceptionEntry
  attributes : List AttributeInfo

namespace CodeAttribute

/-- The part behind the code, which the reader skips. -/
def tables (c : CodeAttribute) : List UInt8 :=
  count16 c.exceptionTable ++ (c.exceptionTable.map ExceptionEntry.encode).flatten ++
    count16 c.attributes ++ (c.attributes.map AttributeInfo.encode).flatten

def info (c : CodeAttribute) : List UInt8 :=
  (bigEndian16 c.maxStack ++ bigEndian16 c.maxLocals ++ count32 c.code ++ c.code) ++ c.tables

def encode (c : CodeAttribute) : List UInt8 := (⟨c.nameIndex, c.info⟩ : AttributeInfo).encode

/-- What the virtual machine keeps of it. -/
def toCode (c : CodeAttribute) : Code := ⟨c.maxStack.toNat, c.maxLocals.toNat, c.code⟩

end CodeAttribute

/-- A method.  One of its attributes is the Code attribute, with others before and after. -/
structure MethodInfo where
  accessFlags : UInt16
  nameIndex : UInt16
  descriptorIndex : UInt16
  before : List AttributeInfo
  code : CodeAttribute
  after : List AttributeInfo

namespace MethodInfo

/-- The number of attributes. -/
def attributesCount (m : MethodInfo) : Nat := m.before.length + (m.after.length + 1)

def encode (m : MethodInfo) : List UInt8 :=
  bigEndian16 m.accessFlags ++ bigEndian16 m.nameIndex ++ bigEndian16 m.descriptorIndex ++
    bigEndian16 (UInt16.ofNat m.attributesCount) ++
    ((m.before.map AttributeInfo.encode).flatten ++
      (m.code.encode ++ (m.after.map AttributeInfo.encode).flatten))

end MethodInfo

/-- A class without interfaces and fields. -/
structure ClassData where
  minorVersion : UInt16
  majorVersion : UInt16
  pool : List Constant
  accessFlags : UInt16
  thisClass : UInt16
  superClass : UInt16
  methods : List MethodInfo
  attributes : List AttributeInfo

namespace ClassData

def header (c : ClassData) : List UInt8 :=
  bigEndian32 CLASS_MAGIC ++ bigEndian16 c.minorVersion ++ bigEndian16 c.majorVersion

/-- The count of the constants is one more than there are. -/
def encodePool (c : ClassData) : List UInt8 :=
  bigEndian16 (UInt16.ofNat (c.pool.length + 1)) ++ (c.pool.map Constant.encode).flatten

def encodeInfo (c : ClassData) : List UInt8 :=
  bigEndian16 c.accessFlags ++ bigEndian16 c.thisClass ++ bigEndian16 c.superClass ++
    bigEndian16 0 ++ bigEndian16 0

def encodeMethods (c : ClassData) : List UInt8 :=
  count16 c.methods ++ (c.methods.map MethodInfo.encode).flatten

def encodeAttributes (c : ClassData) : List UInt8 :=
  count16 c.attributes ++ (c.attributes.map AttributeInfo.encode).flatten

def encode (c : ClassData) : List UInt8 :=
  (c.header ++ (c.encodePool ++ (c.encodeInfo ++ c.encodeMethods))) ++ c.encodeAttributes

end ClassData

/-- The constant with this 1-based index is a Utf8. -/
def Utf8At (pool : List Constant) (index : UInt16) (bytes : CString) : Prop :=
  0 < index.toNat ∧ pool[index.toNat - 1]? = some (.utf8 bytes)

/-- A method that the virtual machine can hold and the format can express. -/
structure MethodInfo.WellFormed (pool : List Constant) (m : MethodInfo) : Prop where
  name : ∃ name, Utf8At pool m.nameIndex name ∧
    (name = initName ∨ m.accessFlags &&& IS_STATIC ≠ 0)
  descriptor : ∃ descriptor, Utf8At pool m.descriptorIndex descriptor
  code : Utf8At pool m.code.nameIndex codeName
  code_ne_nil : m.code.code ≠ []
  code_fits : m.code.info.length < 2 ^ 32
  others : ∀ a ∈ m.before ++ m.after, a.info.length < 2 ^ 32 ∧
    ∃ name, Utf8At pool a.nameIndex name ∧ name ≠ codeName
  count_fits : m.attributesCount < 2 ^ 16

/-- A class that the virtual machine can hold and the format can express. -/
structure ClassData.WellFormed (c : ClassData) : Prop where
  pool_fits : c.pool.length < 65535
  utf8 : ∀ bytes, .utf8 bytes ∈ c.pool → bytes.length < 2 ^ 16 ∧ 0 ∉ bytes
  methods_fit : c.methods.length < 2 ^ 16
  methods : ∀ m ∈ c.methods, m.WellFormed c.pool

/-- The method in memory is the one of the class. -/
structure MethodInfo.ReadAs (pool : List Constant) (m : MethodInfo) (method : Method) : Prop where
  name : Utf8At pool m.nameIndex method.name
  descriptor : Utf8At pool m.descriptorIndex method.descriptor
  code : method.code = m.code.toCode

section Reading

variable {malloc : Nat → Bool} {file : List UInt8} {pool : List Constant}

/-- A byte, -/
theorem readU1_reads (v : UInt8) : Reads file (readU1 file) [v] v := .byte _ v

/-- two bytes -/
theorem readU2_reads (v : UInt16) : Reads file (readU2 file) (bigEndian16 v) v := by
  have h : Reads file (readU2 file) ([(v >>> 8).toUInt8] ++ [v.toUInt8])
      ((v >>> 8).toUInt8.toUInt16 <<< 8 ||| v.toUInt8.toUInt16) := by
    unfold readU2
    exact (readU1_reads _).bind (readU1_reads _).bind_pure
  rwa [or_bytes] at h

/-- and four bytes are read as they were written. -/
theorem readU4_reads (v : UInt32) : Reads file (readU4 file) (bigEndian32 v) v := by
  have h : Reads file (readU4 file) (bigEndian32 v)
      ((v >>> 16).toUInt16.toUInt32 <<< 16 ||| v.toUInt16.toUInt32) := by
    unfold readU4
    exact (readU2_reads _).bind (readU2_reads _).bind_pure
  rwa [or_words] at h

/-- A length is read as the length, if it fits. -/
theorem toNat_count16 {n : Nat} (h : n < 2 ^ 16) : (UInt16.ofNat n).toNat = n := by
  simpa using h

/-- A count that fits in four bytes is what was counted. -/
theorem toNat_count32 {n : Nat} (h : n < 2 ^ 32) : (UInt32.ofNat n).toNat = n := by
  simpa using h

/-- An allocation reads nothing. -/
theorem allocate_reads (hmalloc : ∀ n, 0 < n → malloc n = true) {n : Nat} (hn : 0 < n) :
    Reads file (allocate malloc n) [] () := .require _ (hmalloc n hn)

/-- A name is looked up in the pool. -/
theorem lookUpUtf8_reads (hpool : pool.length < 65535) {index : UInt16} {bytes : CString}
    (h : Utf8At pool index bytes) : Reads file (lookUpUtf8 pool index) [] bytes := by
  have hget := (getConstant_eq_ok_iff hpool).mpr h
  have hutf8 : getUtf8 pool index.toNat = .ok bytes := by
    simp [getUtf8, hget, Bind.bind, Except.bind]
  rw [lookUpUtf8, hutf8]
  exact .pure bytes

/-- The header is read as it was written. -/
theorem getClassHeader_reads (c : ClassData) :
    Reads file (getClassHeader file) c.header
      ⟨CLASS_MAGIC, c.majorVersion, c.minorVersion⟩ := by
  unfold getClassHeader ClassData.header
  rw [List.append_assoc]
  refine (readU4_reads _).bind ?_
  refine (Reads.require _ rfl).bind_nil ?_
  refine (readU2_reads _).bind ?_
  exact (readU2_reads _).bind_pure

/-- A constant made of two indices. -/
theorem pair_reads (hmalloc : ∀ n, 0 < n → malloc n = true) (make : UInt16 → UInt16 → Constant)
    (i j : UInt16) :
    Reads file (do
      allocate malloc 4
      let first ← readU2 file
      let second ← readU2 file
      pure (make first second)) (bigEndian16 i ++ bigEndian16 j) (make i j) := by
  refine (allocate_reads hmalloc (by decide)).bind_nil ?_
  exact (readU2_reads i).bind (readU2_reads j).bind_pure

/-- **One constant** is read back, if its characters are those of a C string. -/
theorem readConstant_reads (hmalloc : ∀ n, 0 < n → malloc n = true) {constant : Constant}
    (h : ∀ bytes, constant = .utf8 bytes → bytes.length < 2 ^ 16 ∧ 0 ∉ bytes) :
    Reads file (readConstant malloc file) constant.encode constant := by
  unfold readConstant
  cases constant with
  | utf8 bytes =>
      obtain ⟨hlength, hzero⟩ := h bytes rfl
      have hstring : cString bytes = bytes := by
        refine List.takeWhile_eq_self_iff.mpr fun c hc => ?_
        simp only [ne_eq, decide_not, Bool.not_eq_true', decide_eq_false_iff_not]
        intro h0
        exact hzero (h0 ▸ hc)
      simp only [Constant.encode, List.append_assoc]
      refine (readU1_reads 1).bind ?_
      refine (readU2_reads _).bind ?_
      rw [toNat_count16 hlength]
      refine (allocate_reads hmalloc (Nat.succ_pos _)).bind_nil ?_
      have hinfo : Reads file (Cursor.bytes file bytes.length ReadFault.shortRead) bytes bytes :=
        .bytes _ bytes
      simpa only [hstring] using hinfo.bind_pure (g := fun info => Constant.utf8 (cString info))
  | integer value =>
      refine (readU1_reads 3).bind ?_
      refine (allocate_reads hmalloc (by decide)).bind_nil ?_
      exact (readU4_reads _).bind_pure
  | «class» stringIndex =>
      refine (readU1_reads 7).bind ?_
      refine (allocate_reads hmalloc (by decide)).bind_nil ?_
      exact (readU2_reads _).bind_pure
  | fieldref classIndex nameAndTypeIndex =>
      simp only [Constant.encode, List.append_assoc]
      exact (readU1_reads 9).bind (pair_reads hmalloc .fieldref _ _)
  | methodref classIndex nameAndTypeIndex =>
      simp only [Constant.encode, List.append_assoc]
      exact (readU1_reads 10).bind (pair_reads hmalloc .methodref _ _)
  | nameAndType nameIndex descriptorIndex =>
      simp only [Constant.encode, List.append_assoc]
      exact (readU1_reads 12).bind (pair_reads hmalloc .nameAndType _ _)

/-- **The constant pool** is read as it was written. -/
theorem getConstantPool_reads (hmalloc : ∀ n, 0 < n → malloc n = true) {c : ClassData}
    (h : c.WellFormed) : Reads file (getConstantPool malloc file) c.encodePool c.pool := by
  have hfits := h.pool_fits
  have hcount : (UInt16.ofNat (c.pool.length + 1) - 1).toNat = c.pool.length := by
    rw [UInt16.toNat_sub, toNat_count16 (by omega)]
    simp
    omega
  unfold getConstantPool ClassData.encodePool
  refine (readU2_reads _).bind ?_
  dsimp only
  rw [hcount]
  refine (allocate_reads hmalloc (by omega)).bind_nil ?_
  have hall : List.Forall₂ (Reads file (readConstant malloc file))
      (c.pool.map Constant.encode) c.pool := by
    rw [List.forall₂_map_left_iff, List.forall₂_same]
    intro constant hmem
    exact readConstant_reads hmalloc fun bytes hbytes => h.utf8 bytes (hbytes ▸ hmem)
  simpa using Reads.readList hall

/-- So are the numbers behind it. -/
theorem getClassInfo_reads (c : ClassData) :
    Reads file (getClassInfo file) c.encodeInfo ⟨c.accessFlags, c.thisClass, c.superClass⟩ := by
  simp only [getClassInfo, ClassData.encodeInfo, List.append_assoc]
  refine (readU2_reads _).bind ?_
  refine (readU2_reads _).bind ?_
  refine (readU2_reads _).bind ?_
  refine (readU2_reads 0).bind ?_
  refine (Reads.require _ rfl).bind_nil ?_
  rw [← List.append_nil (bigEndian16 0)]
  refine (readU2_reads 0).bind ?_
  exact (Reads.require _ rfl).bind_nil (.pure _)

/-- The code of a method, -/
theorem readCode_reads (hmalloc : ∀ n, 0 < n → malloc n = true) {c : CodeAttribute}
    (hne : c.code ≠ []) (hfits : c.code.length < 2 ^ 32) :
    Reads file (readCode malloc file)
      (bigEndian16 c.maxStack ++ bigEndian16 c.maxLocals ++ count32 c.code ++ c.code) c.toCode := by
  simp only [readCode, List.append_assoc]
  refine (readU2_reads _).bind ?_
  refine (readU2_reads _).bind ?_
  refine (readU4_reads _).bind ?_
  rw [toNat_count32 hfits]
  refine (allocate_reads hmalloc (List.length_pos_iff.mpr hne)).bind_nil ?_
  exact (Reads.bytes _ _).bind_pure

/-- An attribute, of whose contents only the first part is read. -/
theorem readAttribute_reads {a : AttributeInfo} {found found' : Option Code}
    {bs cs : List UInt8} (hinfo : a.info = bs ++ cs) (hfits : a.info.length < 2 ^ 32)
    (h : Reads file (readAttributeInfo malloc file pool a.nameIndex found) bs found') :
    Reads file (readAttribute malloc file pool found) a.encode found' := by
  simp only [readAttribute, AttributeInfo.encode, List.append_assoc]
  refine (readU2_reads _).bind ?_
  refine (readU4_reads _).bind ?_
  rw [toNat_count32 hfits, hinfo]
  exact h.within cs

/-- with its attribute, -/
theorem readCodeAttribute_reads (hmalloc : ∀ n, 0 < n → malloc n = true)
    (hpool : pool.length < 65535) {m : MethodInfo} (h : m.WellFormed pool) :
    Reads file (readAttribute malloc file pool none) m.code.encode (some m.code.toCode) := by
  refine readAttribute_reads rfl h.code_fits ?_
  unfold readAttributeInfo
  refine (lookUpUtf8_reads hpool h.code).bind_nil ?_
  refine (Reads.require _ rfl).bind_nil ?_
  refine (readCode_reads hmalloc h.code_ne_nil ?_).bind_pure
  have := h.code_fits
  simp only [CodeAttribute.info, List.length_append] at this
  omega

/-- and the other attributes, which are passed over. -/
theorem readOther_reads (hpool : pool.length < 65535) {a : AttributeInfo} {found : Option Code}
    (hfits : a.info.length < 2 ^ 32) {name : CString} (hname : Utf8At pool a.nameIndex name)
    (hne : name ≠ codeName) :
    Reads file (readAttribute malloc file pool found) a.encode found := by
  have hinfo : a.info = [] ++ a.info := rfl
  refine readAttribute_reads hinfo hfits ?_
  unfold readAttributeInfo
  refine (lookUpUtf8_reads hpool hname).bind_nil ?_
  rw [if_neg hne]
  exact .pure found

/-- **Attributes that are not Code** do not change what was found, and what comes behind
them is read as it would be without them. -/
theorem readAttributes_others (hpool : pool.length < 65535) {others : List AttributeInfo}
    (h : ∀ a ∈ others, a.info.length < 2 ^ 32 ∧
      ∃ name, Utf8At pool a.nameIndex name ∧ name ≠ codeName)
    {n : Nat} {found found' : Option Code} {bs : List UInt8}
    (hrest : Reads file (readAttributes malloc file pool n found) bs found') :
    Reads file (readAttributes malloc file pool (others.length + n) found)
      ((others.map AttributeInfo.encode).flatten ++ bs) found' := by
  induction others with
  | nil => simpa using hrest
  | cons a others ih =>
      obtain ⟨hfits, name, hname, hne⟩ := h a (by simp)
      have htail := ih fun b hb => h b (by simp [hb])
      have hcount : (a :: others).length + n = others.length + n + 1 := by
        simp only [List.length_cons]
        omega
      rw [hcount, List.map_cons, List.flatten_cons, List.append_assoc]
      exact (readOther_reads hpool hfits hname hne).bind htail

/-- All attributes of a method: the code among them is found. -/
theorem readMethodAttributes_reads (hmalloc : ∀ n, 0 < n → malloc n = true)
    (hpool : pool.length < 65535) {m : MethodInfo} (h : m.WellFormed pool) :
    Reads file (readMethodAttributes malloc file pool (UInt16.ofNat m.attributesCount))
      ((m.before.map AttributeInfo.encode).flatten ++
        (m.code.encode ++ (m.after.map AttributeInfo.encode).flatten)) m.code.toCode := by
  have hafter : Reads file (readAttributes malloc file pool m.after.length (some m.code.toCode))
      (m.after.map AttributeInfo.encode).flatten (some m.code.toCode) := by
    have hnone : Reads file (readAttributes malloc file pool 0 (some m.code.toCode)) []
        (some m.code.toCode) := .pure _
    simpa using readAttributes_others hpool (fun a ha => h.others a (by simp [ha])) hnone
  have hcode : Reads file (readAttributes malloc file pool (m.after.length + 1) none)
      (m.code.encode ++ (m.after.map AttributeInfo.encode).flatten) (some m.code.toCode) :=
    (readCodeAttribute_reads hmalloc hpool h).bind hafter
  have hbefore : ∀ a ∈ m.before, a.info.length < 2 ^ 32 ∧
      ∃ name, Utf8At pool a.nameIndex name ∧ name ≠ codeName :=
    fun a ha => h.others a (by simp [ha])
  have hall := readAttributes_others hpool hbefore hcode
  unfold readMethodAttributes
  rw [toNat_count16 h.count_fits, MethodInfo.attributesCount, ← List.append_nil (_ ++ _)]
  exact hall.bind (.pure _)

/-- **One method** is read back. -/
theorem readMethod_reads (hmalloc : ∀ n, 0 < n → malloc n = true)
    (hpool : pool.length < 65535) {m : MethodInfo} (h : m.WellFormed pool) :
    ∃ method, Reads file (readMethod malloc file pool) m.encode method ∧
      m.ReadAs pool method := by
  obtain ⟨name, hname, hstatic⟩ := h.name
  obtain ⟨descriptor, hdescriptor⟩ := h.descriptor
  refine ⟨⟨name, descriptor, m.code.toCode⟩, ?_, ⟨hname, hdescriptor, rfl⟩⟩
  simp only [readMethod, MethodInfo.encode, List.append_assoc]
  refine (readU2_reads _).bind ?_
  refine (readU2_reads _).bind ?_
  refine (readU2_reads _).bind ?_
  refine (readU2_reads _).bind ?_
  refine (lookUpUtf8_reads hpool hname).bind_nil ?_
  refine (lookUpUtf8_reads hpool hdescriptor).bind_nil ?_
  refine (Reads.require _ hstatic).bind_nil ?_
  exact (readMethodAttributes_reads hmalloc hpool h).bind_pure

/-- **The methods** are read as they were written. -/
theorem getMethods_reads (hmalloc : ∀ n, 0 < n → malloc n = true) {c : ClassData}
    (h : c.WellFormed) :
    ∃ methods, Reads file (getMethods malloc file c.pool) c.encodeMethods methods ∧
      List.Forall₂ (MethodInfo.ReadAs c.pool) c.methods methods := by
  have hone : ∀ m ∈ c.methods, ∃ method, Reads file (readMethod malloc file c.pool) m.encode method ∧
      m.ReadAs c.pool method :=
    fun m hm => readMethod_reads hmalloc h.pool_fits (h.methods m hm)
  obtain ⟨methods, hall, hread⟩ : ∃ methods,
      List.Forall₂ (Reads file (readMethod malloc file c.pool))
        (c.methods.map MethodInfo.encode) methods ∧
      List.Forall₂ (MethodInfo.ReadAs c.pool) c.methods methods := by
    generalize c.methods = ms at hone
    induction ms with
    | nil => exact ⟨[], .nil, .nil⟩
    | cons m ms ih =>
        obtain ⟨method, h1, h2⟩ := hone m (by simp)
        obtain ⟨methods, hs1, hs2⟩ := ih fun m' hm' => hone m' (by simp [hm'])
        exact ⟨method :: methods, .cons h1 hs1, .cons h2 hs2⟩
  refine ⟨methods, ?_, hread⟩
  unfold getMethods ClassData.encodeMethods count16
  refine (readU2_reads _).bind ?_
  rw [toNat_count16 h.methods_fit]
  refine (allocate_reads hmalloc (by omega)).bind_nil ?_
  simpa using Reads.readList hall

end Reading

/-- **Reading undoes encoding**: when memory does not run out, `get_class` returns the
constants and the methods of the class, and `get_constant` finds each constant of the class
under its index, and nothing under any other. -/
theorem getClass_encode {malloc : Nat → Bool} (hmalloc : ∀ n, 0 < n → malloc n = true)
    {c : ClassData} (h : c.WellFormed) :
    ∃ read pos, getClass malloc c.encode 0 = .ok (read, pos) ∧ read.constantPool = c.pool ∧
      List.Forall₂ (MethodInfo.ReadAs c.pool) c.methods read.methods ∧
      ∀ index constant, getConstant read.constantPool index = .ok constant ↔
        0 < index ∧ c.pool[index - 1]? = some constant := by
  obtain ⟨methods, hmethods, hread⟩ : ∃ methods,
      Reads c.encode (getMethods malloc c.encode c.pool) c.encodeMethods methods ∧
      List.Forall₂ (MethodInfo.ReadAs c.pool) c.methods methods := getMethods_reads hmalloc h
  have hclass : Reads c.encode (getClass malloc c.encode)
      (c.header ++ (c.encodePool ++ (c.encodeInfo ++ c.encodeMethods))) ⟨c.pool, methods⟩ := by
    unfold getClass
    refine (allocate_reads hmalloc (by decide)).bind_nil ?_
    refine (getClassHeader_reads c).bind ?_
    refine (getConstantPool_reads hmalloc h).bind ?_
    refine (getClassInfo_reads c).bind ?_
    exact hmethods.bind_pure
  exact ⟨_, _, hclass 0 ⟨c.encodeAttributes, rfl⟩, rfl, hread,
    fun index constant => getConstant_eq_ok_iff h.pool_fits⟩

/-- A class with one method, `static void m()`, which returns.  An attribute stands before
its code, and its code has an exception table. -/
def returningClass : ClassData where
  minorVersion := 0
  majorVersion := 52
  pool := [.utf8 codeName, .utf8 [109], .utf8 [40, 41, 86], .utf8 [88], .integer 7, .class 4]
  accessFlags := 32
  thisClass := 6
  superClass := 6
  methods := [⟨8, 2, 3, [⟨4, [1, 2]⟩], ⟨1, 1, 0, [177], [⟨0, 1, 0, 0⟩], []⟩, []⟩]
  attributes := [⟨4, []⟩]

/-- The class is well-formed, -/
theorem returningClass_wellFormed : returningClass.WellFormed where
  pool_fits := by decide
  utf8 := by
    intro bytes h
    simp only [returningClass, List.mem_cons, Constant.utf8.injEq, reduceCtorEq, List.not_mem_nil,
      or_false] at h
    rcases h with rfl | rfl | rfl | rfl <;> decide
  methods_fit := by decide
  methods := by
    intro m h
    obtain rfl := List.mem_singleton.mp h
    exact
      { name := ⟨[109], ⟨by decide, rfl⟩, Or.inr (by decide)⟩
        descriptor := ⟨[40, 41, 86], by decide, rfl⟩
        code := ⟨by decide, rfl⟩
        code_ne_nil := by decide
        code_fits := by decide
        others := fun a ha => by
          obtain rfl := List.mem_singleton.mp ha
          exact ⟨by decide, [88], ⟨by decide, rfl⟩, by decide⟩
        count_fits := by decide }

/-- and is read as it was written. -/
theorem getClass_returningClass :
    ∃ read pos, getClass (fun _ => true) returningClass.encode 0 = .ok (read, pos) ∧
      read.constantPool = returningClass.pool ∧
      List.Forall₂ (MethodInfo.ReadAs returningClass.pool) returningClass.methods read.methods ∧
      ∀ index constant, getConstant read.constantPool index = .ok constant ↔
        0 < index ∧ returningClass.pool[index - 1]? = some constant :=
  getClass_encode (fun _ _ => rfl) returningClass_wellFormed

end JVM
