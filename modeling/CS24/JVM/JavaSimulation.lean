import CS24.JVM.Java

/-!
# The interpreter follows the machine

The interpreter keeps numbers and references in one kind of cell, has no operand for `System.out`,
and finds an array by its number.  A step of the machine is a step of the interpreter wherever the
C code does what the instruction set says: where a taken branch has a low byte below 128 or a high
byte of 255, a shift is by less than 32, and a quotient fits.
-/

namespace JVM

open Java

/-! ## What the interpreter shares with the instruction set -/

/-- The displacement of the branch at `pc` is read as it is encoded. -/
def Java.Activation.ShortBranch (f : Activation) : Prop :=
  ∀ b1 b2, f.operand 1 = some b1 → f.operand 2 = some b2 → b2 < 128 ∨ b1 = 255

/-- The C code has the result of the instruction. -/
def PortableAt (arrays : List (List Word)) (f : Activation) : Instruction → Prop
  | .binary op => ∀ a b rest, f.stack = .int b :: .int a :: rest →
      (op.divides → ¬(a = BitVec.intMin 32 ∧ b = -1)) ∧ (op.shifts → b.toNat < 32)
  | .ifCond cond => ∀ a rest, f.stack = .int a :: rest →
      specifiedComparison a.toInt 0 cond = true → f.ShortBranch
  | .ifIcmp cond => ∀ a b rest, f.stack = .int b :: .int a :: rest →
      specifiedComparison a.toInt b.toInt cond = true → f.ShortBranch
  | .goto => f.ShortBranch
  | .newarray => arrays.length < 2 ^ 31 ∧ ∀ n rest, f.stack = .int n :: rest → n ≠ BitVec.intMax 32
  | _ => True

def Portable (s : Machine) : Prop :=
  ∀ i, s.frame.instruction = some i → PortableAt s.arrays s.frame i

/-- The sizes that the format of class files allows. -/
structure ClassFits (c : ClassFile) : Prop where
  code : ∀ m ∈ c.methods, m.code.code.length < 2 ^ 32
  locals : ∀ m ∈ c.methods, m.code.maxLocals < 2 ^ 16

/-! ## The relation -/

/-- The cell of a value; `System.out` has none. -/
def Java.Value.word : Value → Option Word
  | .int n => some n
  | .ref r => some (BitVec.ofNat 32 r)
  | .out => none

/-- The cells of an operand stack. -/
def words (stack : List Value) : List Word := stack.filterMap Value.word

/-- An activation of the interpreter for one of the machine. -/
structure FrameRel (c : ClassFile) (j : Activation) (f : Frame) : Prop where
  declared : j.method ∈ c.methods
  method : f.method = j.method
  stack : f.stack = words j.stack
  pc : f.pc = j.pc
  length : j.locals.length = j.method.code.maxLocals
  locals : ∀ i v, j.load i = some v → ∃ w, v.word = some w ∧ f.locals[i]? = some w

/-- The reference table for the arrays. -/
structure HeapRel (arrays : List (List Word)) (heap : Heap) : Prop where
  heap : heap = arrays.map fun array => BitVec.ofNat 32 array.length :: array
  count : arrays.length ≤ 2 ^ 31
  length : ∀ array ∈ arrays, array.length < 2 ^ 31 - 1

/-- A state of the interpreter for one of the machine. -/
structure StateRel (c : ClassFile) (s : Machine) (t : State) : Prop where
  frame : FrameRel c s.frame t.frame
  callers : List.Forall₂ (fun j f => FrameRel c j f ∧ j.pc < 2 ^ 32) s.callers t.callers
  heap : HeapRel s.arrays t.heap
  output : t.output = s.output

@[simp] theorem words_int (n : Word) (stack : List Value) : words (.int n :: stack) = n :: words stack := rfl

@[simp] theorem words_ref (r : Nat) (stack : List Value) :
    words (.ref r :: stack) = BitVec.ofNat 32 r :: words stack := rfl

@[simp] theorem words_out (stack : List Value) : words (.out :: stack) = words stack := rfl

/-- The words of a stack on another one, -/
theorem words_append (stack stack' : List Value) : words (stack ++ stack') = words stack ++ words stack' :=
  List.filterMap_append ..

/-- those of a stack the other way round, -/
theorem words_reverse (stack : List Value) : words stack.reverse = (words stack).reverse :=
  List.filterMap_reverse

/-- and how many there are. -/
theorem words_length (stack : List Value) : (words stack).length ≤ stack.length :=
  List.length_filterMap_le ..

/-- The conditions of the code are those of the specification. -/
theorem comparison_holds {a b : Word} {cond : Condition} :
    cond.holds a b = specifiedComparison a.toInt b.toInt cond := by
  cases cond <;>
    simp only [Condition.holds, specifiedComparison, BitVec.slt, BitVec.sle, BitVec.toInt_inj, ne_eq,
      ge_iff_le, gt_iff_lt]

/-! ## The operations of an activation -/

section Frames

variable {c : ClassFile} {j j' : Activation} {f : Frame} {v : Value} {w : Word} {rest : List Value}
  {k i : Nat} {b : UInt8}

/-- An operand is read as the byte that it is. -/
theorem FrameRel.byte (h : FrameRel c j f) (hb : j.operand k = some b) : f.byte k = .ok b := by
  obtain ⟨method, locals, stack, pc⟩ := f
  obtain ⟨-, rfl, -, rfl, -⟩ := h
  exact Frame.byte_eq hb

/-- Both stacks may be replaced by others that match. -/
theorem FrameRel.setStack (h : FrameRel c j f) (stack : List Value) :
    FrameRel c { j with stack := stack } { f with stack := words stack } :=
  ⟨h.declared, h.method, rfl, h.pc, h.length, h.locals⟩

/-- A value is popped as its word, -/
theorem FrameRel.pop (h : FrameRel c j f) (hstack : j.stack = v :: rest) (hv : v.word = some w) :
    ∃ g, f.pop = .ok (w, g) ∧ FrameRel c { j with stack := rest } g := by
  refine ⟨{ f with stack := words rest }, ?_, h.setStack rest⟩
  have hwords : f.stack = w :: words rest := by
    rw [h.stack, hstack, words, List.filterMap_cons_some hv, words]
  rw [Frame.pop, hwords]

/-- and pushed as its word if the method says that there is room. -/
theorem FrameRel.push (h : FrameRel c j f) (hv : v.word = some w)
    (hbound : (v :: j.stack).length ≤ j.method.code.maxStack) :
    ∃ g, f.push w = .ok g ∧ FrameRel c { j with stack := v :: j.stack } g := by
  have hwords : words (v :: j.stack) = w :: f.stack := by
    rw [h.stack, words, List.filterMap_cons_some hv, words]
  refine ⟨{ f with stack := words (v :: j.stack) }, ?_, h.setStack _⟩
  have hlength := words_length j.stack
  rw [← h.stack] at hlength
  rw [List.length_cons, ← h.method] at hbound
  rw [Frame.push, if_pos (by omega), hwords]

/-- Both go on behind the instruction. -/
theorem FrameRel.advance (h : FrameRel c j f) (hpc : j.pc < 2 ^ 32) (hk : k ≤ 3) :
    FrameRel c (j.advance k) (f.jump k) := by
  refine ⟨h.declared, h.method, h.stack, ?_, h.length, h.locals⟩
  rw [Frame.jump, Activation.advance, Frame.target, h.pc]
  dsimp only
  omega

/-- A local variable is read as its word, -/
theorem FrameRel.load (h : FrameRel c j f) (hv : j.load i = some v) :
    ∃ w, v.word = some w ∧ f.load i = .ok w := by
  obtain ⟨w, hw, hlocal⟩ := h.locals i v hv
  exact ⟨w, hw, by rw [Frame.load, hlocal]⟩

/-- A store does not move, -/
theorem store_pc (hstore : j.store i v = some j') : j'.pc = j.pc := by
  rw [Activation.store] at hstore
  split_ifs at hstore
  obtain rfl := Option.some.inj hstore
  rfl

/-- and writes the word of the value. -/
theorem FrameRel.store (h : FrameRel c j f) (hstore : j.store i v = some j') (hv : v.word = some w) :
    ∃ g, f.store i w = .ok g ∧ FrameRel c j' g := by
  rw [Activation.store] at hstore
  split_ifs at hstore with hi
  obtain rfl := Option.some.inj hstore
  have hi' : i < f.method.code.maxLocals := by rwa [h.method, ← h.length]
  refine ⟨{ f with locals := f.locals.set i w hi' }, dif_pos hi', h.declared, h.method, h.stack, h.pc,
    ?_, ?_⟩
  · rw [List.length_set]
    exact h.length
  · intro i' v' hv'
    rw [Activation.load] at hv'
    dsimp only at hv' ⊢
    by_cases heq : i = i'
    · subst heq
      rw [List.getElem?_set_self hi] at hv'
      obtain rfl : v = v' := Option.some.inj hv'
      exact ⟨w, hv, Vector.getElem?_set_self hi'⟩
    · rw [List.getElem?_set_ne heq] at hv'
      rw [Vector.getElem?_set_ne hi' heq]
      exact h.locals i' v' hv'

/-- **Branches.** The displacement is read as it is encoded where the branch is short. -/
theorem FrameRel.branch {taken : Bool} (h : FrameRel c j f) (hpc : j.pc < 2 ^ 32)
    (hbranch : j.branch taken rest = some j') (hshort : taken = true → j.ShortBranch) :
    ∃ b1 b2, j.operand 1 = some b1 ∧ j.operand 2 = some b2 ∧
      FrameRel c j' (JVM.branch { f with stack := words rest } taken b1 b2) := by
  obtain ⟨b1, h1, hbranch⟩ := Option.bind_eq_some_iff.mp hbranch
  obtain ⟨b2, h2, hbranch⟩ := Option.bind_eq_some_iff.mp hbranch
  refine ⟨b1, b2, h1, h2, ?_⟩
  cases taken with
  | false =>
      obtain rfl := Option.some.inj hbranch
      exact (h.setStack rest).advance hpc (le_refl 3)
  | true =>
      have hdisplacement := displacement_eq_encoded.mpr (hshort rfl b1 b2 h1 h2)
      have hbounds : -2 ^ 31 ≤ encodedDisplacement b1 b2 ∧ encodedDisplacement b1 b2 < 2 ^ 31 :=
        encodedDisplacement_bounds
      have hhigh : encodedDisplacement b1 b2 < 2 ^ 15 := BitVec.toInt_lt
      rw [if_pos rfl, Activation.jump] at hbranch
      split_ifs at hbranch with hpos
      obtain rfl := Option.some.inj hbranch
      have hrel := h.setStack rest
      refine ⟨h.declared, h.method, rfl, ?_, h.length, h.locals⟩
      rw [JVM.branch, if_pos rfl, Frame.jump, Frame.target, hdisplacement]
      dsimp only
      rw [h.pc, Int.emod_eq_of_lt hpos (by omega)]

end Frames

/-! ## Arrays -/

section Arrays

variable {arrays : List (List Word)} {heap : Heap} {array : List Word} {r : Nat} {n i v : Word}

/-- A word that is not negative is its number. -/
theorem toNat_of_nonneg (h : 0 ≤ n.toInt) : n.toInt.toNat = n.toNat := by
  rw [BitVec.toInt_eq_toNat_cond] at h ⊢
  split_ifs at h ⊢ <;> omega

/-- A number that is in range is the number of the array. -/
theorem HeapRel.get (h : HeapRel arrays heap) (harray : arrays[r]? = some array) :
    Heap.get heap (BitVec.ofNat 32 r) = .ok (BitVec.ofNat 32 array.length :: array) ∧
      (BitVec.ofNat 32 r).toNat = r := by
  obtain ⟨hlt, -⟩ := List.getElem?_eq_some_iff.mp harray
  have hcount := h.count
  have hnat : (BitVec.ofNat 32 r).toNat = r := by
    rw [BitVec.toNat_ofNat]
    omega
  have hpos : 0 ≤ (BitVec.ofNat 32 r).toInt := by
    rw [BitVec.toInt_eq_toNat_cond, hnat]
    split_ifs <;> omega
  refine ⟨?_, hnat⟩
  rw [Heap.get, if_pos hpos, hnat, h.heap, List.getElem?_map, harray]
  rfl

/-- The cell of an element. -/
theorem HeapRel.cell (h : HeapRel arrays heap) (harray : array ∈ arrays) (hpos : 0 ≤ i.toInt)
    (hlt : i.toInt < array.length) :
    JVM.cell (BitVec.ofNat 32 array.length :: array) i = .ok (i.toInt.toNat + 1) := by
  have hlength := h.length array harray
  have hnat := toNat_of_nonneg hpos
  have hsmall : i.toNat < 2 ^ 31 - 1 := by omega
  have hnext : (i + 1).toNat = i.toNat + 1 := by
    rw [BitVec.toNat_add]
    have hone : (1 : Word).toNat = 1 := rfl
    omega
  have hpos' : 0 ≤ (i + 1).toInt := by
    rw [BitVec.toInt_eq_toNat_cond, hnext]
    split_ifs <;> omega
  rw [JVM.cell, if_pos ⟨hpos', by rw [hnext, List.length_cons]; omega⟩, hnext, hnat]

/-- A new array. -/
theorem HeapRel.add (h : HeapRel arrays heap) (hcount : arrays.length < 2 ^ 31) (hpos : 0 ≤ n.toInt)
    (hmax : n ≠ BitVec.intMax 32) :
    HeapRel (arrays ++ [List.replicate n.toInt.toNat 0]) (heap ++ [n :: List.replicate n.toNat 0]) := by
  have hnat := toNat_of_nonneg hpos
  have hlt : n.toNat < 2 ^ 31 - 1 := by
    have hbound : n.toInt < 2 ^ 31 := BitVec.toInt_lt
    have hne : n.toNat ≠ 2 ^ 31 - 1 := fun heq => hmax (BitVec.eq_of_toNat_eq heq)
    omega
  refine ⟨?_, ?_, ?_⟩
  · rw [h.heap, List.map_append, hnat, List.map_singleton, List.length_replicate, BitVec.ofNat_toNat,
      BitVec.setWidth_eq]
  · rw [List.length_append, List.length_singleton]
    omega
  · intro array harray
    rcases List.mem_append.mp harray with hold | hnew
    · exact h.length array hold
    · rw [List.mem_singleton.mp hnew, List.length_replicate, hnat]
      exact hlt

/-- A store. -/
theorem HeapRel.set (h : HeapRel arrays heap) (harray : arrays[r]? = some array) {k : Nat} :
    HeapRel (arrays.set r (array.set k v))
      (heap.set r ((BitVec.ofNat 32 array.length :: array).set (k + 1) v)) := by
  refine ⟨?_, ?_, ?_⟩
  · rw [List.map_set, h.heap, List.length_set, List.set_cons_succ]
  · rw [List.length_set]
    exact h.count
  · intro array' harray'
    rcases List.mem_or_eq_of_mem_set harray' with hold | rfl
    · exact h.length array' hold
    · rw [List.length_set]
      exact h.length array (List.mem_of_getElem? harray)

end Arrays

/-! ## Instructions -/

section Instructions

variable {c : ClassFile} {fresh : (n : Nat) → Vector Word n} {arrays : List (List Word)}
  {j j' : Activation} {f : Frame} {heap : Heap} {output : List Word} {i : Instruction} {e : Java.Effect}

/-- The interpreter goes on as the machine does. -/
def Follows (c : ClassFile) (fresh : (n : Nat) → Vector Word n) (f : Frame) (heap : Heap)
    (output : List Word) (i : Instruction) (e : Java.Effect) : Prop :=
  ∃ f' heap', execute c fresh f heap output i = .ok (.continue f' heap' (output ++ e.printed)) ∧
    FrameRel c e.frame f' ∧ HeapRel e.arrays heap'

/-- A number and a reference have a cell. -/
theorem isA_word {v : Value} {isRef : Bool} (h : v.isA isRef) : ∃ w, v.word = some w := by
  cases v with
  | int n => exact ⟨n, rfl⟩
  | ref r => exact ⟨_, rfl⟩
  | out => cases h

/-- The two bytes of a displacement, sign-extended. -/
theorem signExtend_pair {b1 b2 : UInt8} : (BitVec.ofNat 16 (unsignedPair b1 b2)).signExtend 32 =
    BitVec.ofInt 32 (b1.toBitVec ++ b2.toBitVec).toInt := by
  have hpair : BitVec.ofNat 16 (unsignedPair b1 b2) = b1.toBitVec ++ b2.toBitVec := by
    apply BitVec.eq_of_toNat_eq
    have h1 := b1.toBitVec.isLt
    have h2 := b2.toBitVec.isLt
    have hfits : unsignedPair b1 b2 < 2 ^ 16 := by
      rw [unsignedPair]
      change b1.toBitVec.toNat * 256 + b2.toBitVec.toNat < 2 ^ 16
      omega
    rw [toNat_pair, BitVec.toNat_ofNat, Nat.mod_eq_of_lt hfits]
    rfl
  rw [hpair]
  rfl

/-- An integer of the constant pool is its word. -/
theorem poolWord_integer {pool : List Constant} {b : UInt8} {n : Word}
    (h : constant pool b.toNat = some (.integer n)) : poolWord pool b = .ok n := by
  rw [constant] at h
  split_ifs at h with hzero
  have hne : b ≠ 0 := fun heq => hzero (by rw [heq]; rfl)
  rw [poolWord, if_neg hne, h]
  rfl

/-- An instruction that pushes a number. -/
theorem Follows.pushed {n : Word} {k : Nat} (h : FrameRel c j f) (hheap : HeapRel arrays heap)
    (hpc : j.pc < 2 ^ 32) (hk : k ≤ 3) (he : e = ⟨j.next k (.int n :: j.stack), arrays, []⟩)
    (hbound : e.frame.stack.length ≤ j.method.code.maxStack)
    (hexec : ∀ g, f.push n = .ok g →
      execute c fresh f heap output i = .ok (.continue (g.jump k) heap output)) :
    Follows c fresh f heap output i e := by
  subst he
  obtain ⟨g, hpush, hrel⟩ := h.push (v := .int n) rfl hbound
  exact ⟨g.jump k, heap, by rw [hexec g hpush, List.append_nil], hrel.advance hpc hk, hheap⟩

/-- The instructions that push a constant. -/
theorem constants_simulated (hi : (∃ k, i = .iconst k) ∨ i = .bipush ∨ i = .sipush ∨ i = .ldc)
    (h : FrameRel c j f) (hheap : HeapRel arrays heap) (hpc : j.pc < 2 ^ 32)
    (hperform : perform c.constantPool arrays j i = some e)
    (hbound : e.frame.stack.length ≤ j.method.code.maxStack) :
    Follows c fresh f heap output i e := by
  rcases hi with ⟨k, rfl⟩ | rfl | rfl | rfl
  · refine .pushed h hheap hpc (by omega) (Option.some.inj hperform).symm hbound fun g hpush => ?_
    simp only [execute, hpush, bind, Except.bind]
    rfl
  · obtain ⟨b, hb, he⟩ := Option.bind_eq_some_iff.mp hperform
    refine .pushed h hheap hpc (by omega) (Option.some.inj he).symm hbound fun g hpush => ?_
    have hpush' : f.push (b.toBitVec.signExtend 32) = .ok g := hpush
    simp only [execute, h.byte hb, hpush', bind, Except.bind]
    rfl
  · obtain ⟨b1, h1, hperform⟩ := Option.bind_eq_some_iff.mp hperform
    obtain ⟨b2, h2, he⟩ := Option.bind_eq_some_iff.mp hperform
    refine .pushed h hheap hpc (by omega) (Option.some.inj he).symm hbound fun g hpush => ?_
    simp only [execute, h.byte h1, h.byte h2, signExtend_pair, hpush, bind, Except.bind]
    rfl
  · obtain ⟨b, hb, hperform⟩ := Option.bind_eq_some_iff.mp hperform
    split at hperform
    · rename_i n hconstant
      refine .pushed h hheap hpc (by omega) (Option.some.inj hperform).symm hbound fun g hpush => ?_
      simp only [execute, h.byte hb, poolWord_integer hconstant, hpush, bind, Except.bind]
      rfl
    · cases hperform

/-- The instructions on one or two numbers. -/
theorem arithmetic_simulated (hi : i = .ineg ∨ ∃ op, i = .binary op)
    (h : FrameRel c j f) (hheap : HeapRel arrays heap) (hpc : j.pc < 2 ^ 32)
    (hport : PortableAt arrays j i) (hperform : perform c.constantPool arrays j i = some e)
    (hbound : e.frame.stack.length ≤ j.method.code.maxStack) :
    Follows c fresh f heap output i e := by
  rcases hi with rfl | ⟨op, rfl⟩
  · rw [perform] at hperform
    split at hperform
    case h_2 => cases hperform
    case h_1 a rest hstack =>
      obtain rfl := Option.some.inj hperform
      obtain ⟨g, hpop, hrel⟩ := h.pop hstack rfl
      obtain ⟨g', hpush, hrel'⟩ := hrel.push (v := .int (BitVec.ofInt 32 (-a.toInt))) rfl hbound
      rw [BitVec.ofInt_neg, BitVec.ofInt_toInt] at hpush
      refine ⟨g'.jump 1, heap, ?_, hrel'.advance hpc (by omega), hheap⟩
      simp only [execute, hpop, hpush, bind, Except.bind, List.append_nil]
  · rw [perform] at hperform
    split at hperform
    case h_2 => cases hperform
    case h_1 b a rest hstack =>
      split_ifs at hperform with hzero
      obtain rfl := Option.some.inj hperform
      obtain ⟨g, hpop, hrel⟩ := h.pop hstack rfl
      obtain ⟨g₁, hpop₁, hrel₁⟩ := hrel.pop (v := .int a) rfl rfl
      obtain ⟨g₂, hpush, hrel₂⟩ := hrel₁.push (v := .int (op.specified a b)) rfl hbound
      have happly : op.apply a b = .ok (op.specified a b) :=
        (BinaryOp.apply_eq_specified fun hop hb => hzero ⟨hop, hb⟩).mpr (hport a b rest hstack)
      refine ⟨g₂.jump 1, heap, ?_, hrel₂.advance hpc (by omega), hheap⟩
      simp only [execute, hpop, hpop₁, happly, hpush, bind, Except.bind, List.append_nil]

/-- `iinc` -/
theorem iinc_simulated (h : FrameRel c j f) (hheap : HeapRel arrays heap) (hpc : j.pc < 2 ^ 32)
    (hperform : perform c.constantPool arrays j .iinc = some e) :
    Follows c fresh f heap output .iinc e := by
  obtain ⟨k, hk, hperform⟩ := Option.bind_eq_some_iff.mp hperform
  obtain ⟨b, hb, hperform⟩ := Option.bind_eq_some_iff.mp hperform
  split at hperform
  case h_2 => cases hperform
  case h_1 n hload =>
    obtain ⟨j₁, hstore, he⟩ := Option.bind_eq_some_iff.mp hperform
    obtain rfl := Option.some.inj he
    obtain ⟨w, hw, hload'⟩ := h.load hload
    obtain rfl : n = w := Option.some.inj hw
    obtain ⟨g, hset, hrel⟩ := h.store hstore rfl
    rw [BitVec.ofInt_add, BitVec.ofInt_toInt] at hset
    have hset' : f.store k.toNat (n + b.toBitVec.signExtend 32) = .ok g := hset
    have hpc' : j₁.pc = j.pc := store_pc hstore
    refine ⟨g.jump 3, heap, ?_, hrel.advance (hpc' ▸ hpc) (le_refl 3), hheap⟩
    simp only [execute, h.byte hk, h.byte hb, hload', hset', bind, Except.bind, List.append_nil]

/-- The branches. -/
theorem branches_simulated (hi : i = .goto ∨ (∃ cond, i = .ifCond cond) ∨ ∃ cond, i = .ifIcmp cond)
    (h : FrameRel c j f) (hheap : HeapRel arrays heap) (hpc : j.pc < 2 ^ 32)
    (hport : PortableAt arrays j i) (hperform : perform c.constantPool arrays j i = some e) :
    Follows c fresh f heap output i e := by
  rcases hi with rfl | ⟨cond, rfl⟩ | ⟨cond, rfl⟩
  · obtain ⟨j₁, hbranch, he⟩ := Option.bind_eq_some_iff.mp hperform
    obtain rfl := Option.some.inj he
    obtain ⟨b1, b2, h1, h2, hrel⟩ := h.branch hpc hbranch fun _ => hport
    rw [← h.stack] at hrel
    refine ⟨_, heap, ?_, hrel, hheap⟩
    simp only [execute, h.byte h1, h.byte h2, bind, Except.bind, List.append_nil]
    rfl
  · rw [perform] at hperform
    split at hperform
    case h_2 => cases hperform
    case h_1 a rest hstack =>
      obtain ⟨j₁, hbranch, he⟩ := Option.bind_eq_some_iff.mp hperform
      obtain rfl := Option.some.inj he
      obtain ⟨b1, b2, h1, h2, hrel⟩ := h.branch hpc hbranch (hport a rest hstack)
      have hpop : f.pop = .ok (a, { f with stack := words rest }) := by
        rw [Frame.pop, h.stack, hstack, words_int]
      have hcond : cond.holds a 0 = specifiedComparison a.toInt 0 cond := comparison_holds
      rw [← hcond] at hrel
      refine ⟨_, heap, ?_, hrel, hheap⟩
      simp only [execute, h.byte h1, h.byte h2, hpop, bind, Except.bind, List.append_nil]
  · rw [perform] at hperform
    split at hperform
    case h_2 => cases hperform
    case h_1 b a rest hstack =>
      obtain ⟨j₁, hbranch, he⟩ := Option.bind_eq_some_iff.mp hperform
      obtain rfl := Option.some.inj he
      obtain ⟨b1, b2, h1, h2, hrel⟩ := h.branch hpc hbranch (hport a b rest hstack)
      have hpop : f.pop = .ok (b, { f with stack := a :: words rest }) := by
        rw [Frame.pop, h.stack, hstack, words_int, words_int]
      have hpop' : Frame.pop { f with stack := a :: words rest } =
          .ok (a, { f with stack := words rest }) := rfl
      rw [← comparison_holds] at hrel
      refine ⟨_, heap, ?_, hrel, hheap⟩
      simp only [execute, h.byte h1, h.byte h2, hpop, hpop', bind, Except.bind, List.append_nil]

/-- An instruction that loads from a local. -/
theorem Follows.loaded {k width : Nat} {isRef : Bool} (h : FrameRel c j f) (hheap : HeapRel arrays heap)
    (hpc : j.pc < 2 ^ 32) (hwidth : width ≤ 3) (hloads : loads j k width isRef = some j')
    (hbound : j'.stack.length ≤ j.method.code.maxStack)
    (hexec : ∀ w g, f.load k = .ok w → f.push w = .ok g →
      execute c fresh f heap output i = .ok (.continue (g.jump width) heap output)) :
    Follows c fresh f heap output i ⟨j', arrays, []⟩ := by
  obtain ⟨v, hv, hloads⟩ := Option.bind_eq_some_iff.mp hloads
  split_ifs at hloads
  obtain rfl := Option.some.inj hloads
  obtain ⟨w, hw, hload⟩ := h.load hv
  obtain ⟨g, hpush, hrel⟩ := h.push hw hbound
  exact ⟨g.jump width, heap, by rw [hexec w g hload hpush, List.append_nil], hrel.advance hpc hwidth, hheap⟩

/-- An instruction that stores in a local. -/
theorem Follows.stored {k width : Nat} {isRef : Bool} (h : FrameRel c j f) (hheap : HeapRel arrays heap)
    (hpc : j.pc < 2 ^ 32) (hwidth : width ≤ 3) (hstores : stores j k width isRef = some j')
    (hexec : ∀ w g g', f.pop = .ok (w, g) → g.store k w = .ok g' →
      execute c fresh f heap output i = .ok (.continue (g'.jump width) heap output)) :
    Follows c fresh f heap output i ⟨j', arrays, []⟩ := by
  rw [stores] at hstores
  split at hstores
  case h_2 => cases hstores
  case h_1 v rest hstack =>
    split_ifs at hstores with hv
    obtain ⟨j₁, hstore, rfl⟩ := Option.map_eq_some_iff.mp hstores
    obtain ⟨w, hw⟩ := isA_word hv
    obtain ⟨g, hpop, hrel⟩ := h.pop hstack hw
    obtain ⟨g', hset, hrel'⟩ := hrel.store hstore hw
    have hpc' : j₁.pc = j.pc := store_pc (j := { j with stack := rest }) hstore
    refine ⟨g'.jump width, heap, ?_, hrel'.advance (hpc' ▸ hpc) hwidth, hheap⟩
    rw [hexec w g g' hpop hset, List.append_nil]

/-- The loads and stores. -/
theorem locals_simulated (hi : i = .iload ∨ i = .aload ∨ i = .istore ∨ i = .astore ∨
      ∃ k, i = .iload_ k ∨ i = .aload_ k ∨ i = .istore_ k ∨ i = .astore_ k)
    (h : FrameRel c j f) (hheap : HeapRel arrays heap) (hpc : j.pc < 2 ^ 32)
    (hperform : perform c.constantPool arrays j i = some e)
    (hbound : e.frame.stack.length ≤ j.method.code.maxStack) :
    Follows c fresh f heap output i e := by
  rcases hi with rfl | rfl | rfl | rfl | ⟨k, rfl | rfl | rfl | rfl⟩
  case inl | inr.inl =>
    obtain ⟨b, hb, hperform⟩ := Option.bind_eq_some_iff.mp hperform
    obtain ⟨j₁, hloads, he⟩ := Option.bind_eq_some_iff.mp hperform
    obtain rfl := Option.some.inj he
    refine .loaded h hheap hpc (by omega) hloads hbound fun w g hload hpush => ?_
    simp only [execute, h.byte hb, hload, hpush, bind, Except.bind]
    rfl
  case inr.inr.inl | inr.inr.inr.inl =>
    obtain ⟨b, hb, hperform⟩ := Option.bind_eq_some_iff.mp hperform
    obtain ⟨j₁, hstores, he⟩ := Option.bind_eq_some_iff.mp hperform
    obtain rfl := Option.some.inj he
    refine .stored h hheap hpc (by omega) hstores fun w g g' hpop hstore => ?_
    simp only [execute, h.byte hb, hpop, hstore, bind, Except.bind]
    rfl
  · obtain ⟨j₁, hloads, he⟩ := Option.bind_eq_some_iff.mp hperform
    obtain rfl := Option.some.inj he
    refine .loaded h hheap hpc (by omega) hloads hbound fun w g hload hpush => ?_
    simp only [execute, hload, hpush, bind, Except.bind]
    rfl
  · obtain ⟨j₁, hloads, he⟩ := Option.bind_eq_some_iff.mp hperform
    obtain rfl := Option.some.inj he
    refine .loaded h hheap hpc (by omega) hloads hbound fun w g hload hpush => ?_
    simp only [execute, hload, hpush, bind, Except.bind]
    rfl
  · obtain ⟨j₁, hstores, he⟩ := Option.bind_eq_some_iff.mp hperform
    obtain rfl := Option.some.inj he
    refine .stored h hheap hpc (by omega) hstores fun w g g' hpop hstore => ?_
    simp only [execute, hpop, hstore, bind, Except.bind]
    rfl
  · obtain ⟨j₁, hstores, he⟩ := Option.bind_eq_some_iff.mp hperform
    obtain rfl := Option.some.inj he
    refine .stored h hheap hpc (by omega) hstores fun w g g' hpop hstore => ?_
    simp only [execute, hpop, hstore, bind, Except.bind]
    rfl

/-- `dup` and the printing of a number; `System.out` has no cell to pop. -/
theorem stack_simulated (hi : i = .dup ∨ i = .invokevirtual) (h : FrameRel c j f)
    (hheap : HeapRel arrays heap) (hpc : j.pc < 2 ^ 32)
    (hperform : perform c.constantPool arrays j i = some e)
    (hbound : e.frame.stack.length ≤ j.method.code.maxStack) :
    Follows c fresh f heap output i e := by
  have hdup : ∀ v w rest, j.stack = v :: rest → v.word = some w →
      (v :: v :: rest).length ≤ j.method.code.maxStack →
      Follows c fresh f heap output .dup ⟨j.next 1 (v :: v :: rest), arrays, []⟩ := by
    intro v w rest hstack hw hbound
    rw [List.length_cons] at hbound
    obtain ⟨g, hpop, hrel⟩ := h.pop hstack hw
    obtain ⟨g₁, hpush₁, hrel₁⟩ := hrel.push hw (by dsimp only; omega)
    obtain ⟨g₂, hpush₂, hrel₂⟩ := hrel₁.push hw hbound
    refine ⟨g₂.jump 1, heap, ?_, hrel₂.advance hpc (by omega), hheap⟩
    simp only [execute, hpop, hpush₁, hpush₂, bind, Except.bind, List.append_nil]
  rcases hi with rfl | rfl
  · rw [perform] at hperform
    split at hperform
    case h_1 n rest hstack =>
      obtain rfl := Option.some.inj hperform
      exact hdup _ n rest hstack rfl hbound
    case h_2 r rest hstack =>
      obtain rfl := Option.some.inj hperform
      exact hdup _ _ rest hstack rfl hbound
    case h_3 => cases hperform
  · rw [perform] at hperform
    split at hperform
    case h_2 => cases hperform
    case h_1 n rest hstack =>
      obtain rfl := Option.some.inj hperform
      have hpop : f.pop = .ok (n, { f with stack := words rest }) := by
        rw [Frame.pop, h.stack, hstack, words_int, words_out]
      refine ⟨_, heap, ?_, (h.setStack rest).advance hpc (le_refl 3), hheap⟩
      simp only [execute, hpop, bind, Except.bind]
      rfl

/-- `newarray` and `arraylength`. -/
theorem newarray_simulated (h : FrameRel c j f) (hheap : HeapRel arrays heap) (hpc : j.pc < 2 ^ 32)
    (hport : PortableAt arrays j .newarray) (hperform : perform c.constantPool arrays j .newarray = some e)
    (hbound : e.frame.stack.length ≤ j.method.code.maxStack) :
    Follows c fresh f heap output .newarray e := by
  obtain ⟨type, htype, hperform⟩ := Option.bind_eq_some_iff.mp hperform
  split at hperform
  case h_2 => cases hperform
  case h_1 n rest hstack =>
    split_ifs at hperform with hsize
    obtain rfl := Option.some.inj hperform
    obtain ⟨hcount, hmax⟩ := hport
    have hne := hmax n rest hstack
    obtain ⟨g, hpop, hrel⟩ := h.pop hstack rfl
    obtain ⟨g', hpush, hrel'⟩ := hrel.push (v := .ref arrays.length) rfl hbound
    have hlength : heap.length = arrays.length := by rw [hheap.heap, List.length_map]
    rw [← hlength] at hpush
    refine ⟨g'.jump 2, heap ++ [n :: List.replicate n.toNat 0], ?_, hrel'.advance hpc (by omega),
      hheap.add hcount hsize.2 hne⟩
    simp only [execute, h.byte htype, hpop, hsize.2, hne, ne_eq, not_false_eq_true, and_self, if_true,
      Heap.add, hpush, bind, Except.bind, List.append_nil]

/-- `arraylength` pushes the length of the array, -/
theorem arraylength_simulated (h : FrameRel c j f) (hheap : HeapRel arrays heap) (hpc : j.pc < 2 ^ 32)
    (hperform : perform c.constantPool arrays j .arraylength = some e)
    (hbound : e.frame.stack.length ≤ j.method.code.maxStack) :
    Follows c fresh f heap output .arraylength e := by
  rw [perform] at hperform
  split at hperform
  case h_2 => cases hperform
  case h_1 r rest hstack =>
    obtain ⟨array, harray, he⟩ := Option.bind_eq_some_iff.mp hperform
    obtain rfl := Option.some.inj he
    obtain ⟨g, hpop, hrel⟩ := h.pop hstack rfl
    obtain ⟨g', hpush, hrel'⟩ := hrel.push (v := .int (BitVec.ofNat 32 array.length)) rfl hbound
    refine ⟨g'.jump 1, heap, ?_, hrel'.advance hpc (by omega), hheap⟩
    simp only [execute, hpop, (hheap.get harray).1, hpush, bind, Except.bind, List.append_nil]

/-- `iastore` writes an element -/
theorem iastore_simulated (h : FrameRel c j f) (hheap : HeapRel arrays heap) (hpc : j.pc < 2 ^ 32)
    (hperform : perform c.constantPool arrays j .iastore = some e) :
    Follows c fresh f heap output .iastore e := by
  rw [perform] at hperform
  split at hperform
  case h_2 => cases hperform
  case h_1 v k r rest hstack =>
    obtain ⟨array, harray, hperform⟩ := Option.bind_eq_some_iff.mp hperform
    split_ifs at hperform with hindex
    obtain rfl := Option.some.inj hperform
    obtain ⟨g, hpop, hrel⟩ := h.pop hstack rfl
    obtain ⟨g₁, hpop₁, hrel₁⟩ := hrel.pop (v := .int k) rfl rfl
    obtain ⟨g₂, hpop₂, hrel₂⟩ := hrel₁.pop (v := .ref r) rfl rfl
    obtain ⟨hget, hnumber⟩ := hheap.get harray
    have hcell := hheap.cell (List.mem_of_getElem? harray) hindex.1 hindex.2
    refine ⟨g₂.jump 1, _, ?_, hrel₂.advance hpc (by omega), hheap.set harray⟩
    simp only [execute, hpop, hpop₁, hpop₂, hget, hcell, hnumber, bind, Except.bind, List.append_nil]

/-- and `iaload` reads one. -/
theorem iaload_simulated (h : FrameRel c j f) (hheap : HeapRel arrays heap) (hpc : j.pc < 2 ^ 32)
    (hperform : perform c.constantPool arrays j .iaload = some e)
    (hbound : e.frame.stack.length ≤ j.method.code.maxStack) :
    Follows c fresh f heap output .iaload e := by
  rw [perform] at hperform
  split at hperform
  case h_2 => cases hperform
  case h_1 k r rest hstack =>
    obtain ⟨array, harray, hperform⟩ := Option.bind_eq_some_iff.mp hperform
    split_ifs at hperform with hindex
    obtain rfl := Option.some.inj hperform
    obtain ⟨g, hpop, hrel⟩ := h.pop hstack rfl
    obtain ⟨g₁, hpop₁, hrel₁⟩ := hrel.pop (v := .ref r) rfl rfl
    obtain ⟨hget, -⟩ := hheap.get harray
    have hcell := hheap.cell (List.mem_of_getElem? harray) hindex.1 hindex.2
    obtain ⟨g₂, hpush, hrel₂⟩ := hrel₁.push (v := .int (array.getD k.toInt.toNat 0)) rfl hbound
    refine ⟨g₂.jump 1, heap, ?_, hrel₂.advance hpc (by omega), hheap⟩
    simp only [execute, hpop, hpop₁, hget, hcell, List.getD_cons_succ, hpush, bind, Except.bind,
      List.append_nil]

/-- **One instruction.** -/
theorem perform_simulated (h : FrameRel c j f) (hheap : HeapRel arrays heap) (hpc : j.pc < 2 ^ 32)
    (hport : PortableAt arrays j i) (hperform : perform c.constantPool arrays j i = some e)
    (hbound : e.frame.stack.length ≤ j.method.code.maxStack) :
    Follows c fresh f heap output i e := by
  cases i with
  | nop =>
      obtain rfl := Option.some.inj hperform
      refine ⟨f.jump 1, heap, ?_, h.advance hpc (by omega), hheap⟩
      rw [execute, List.append_nil]
  | getstatic =>
      obtain rfl := Option.some.inj hperform
      have hrel := (h.setStack (.out :: j.stack)).advance hpc (le_refl 3)
      rw [words_out, ← h.stack] at hrel
      refine ⟨f.jump 3, heap, ?_, hrel, hheap⟩
      rw [execute, List.append_nil]
  | iconst k => exact constants_simulated (.inl ⟨k, rfl⟩) h hheap hpc hperform hbound
  | bipush | sipush | ldc => exact constants_simulated (by simp) h hheap hpc hperform hbound
  | ineg | binary op => exact arithmetic_simulated (by simp) h hheap hpc hport hperform hbound
  | iinc => exact iinc_simulated h hheap hpc hperform
  | goto | ifCond cond | ifIcmp cond => exact branches_simulated (by simp) h hheap hpc hport hperform
  | iload | aload | istore | astore | iload_ k | aload_ k | istore_ k | astore_ k =>
      exact locals_simulated (by simp) h hheap hpc hperform hbound
  | dup | invokevirtual => exact stack_simulated (by simp) h hheap hpc hperform hbound
  | newarray => exact newarray_simulated h hheap hpc hport hperform hbound
  | arraylength => exact arraylength_simulated h hheap hpc hperform hbound
  | iastore => exact iastore_simulated h hheap hpc hperform
  | iaload => exact iaload_simulated h hheap hpc hperform hbound
  | ireturn | areturn | «return» | invokestatic => cases hperform

end Instructions

/-! ## Calls and returns -/

section Calls

variable {c : ClassFile} {params : List ParamType} {args : List Value} {v : Value} {i n : Nat}

/-- An argument of a parameter type has a word. -/
theorem fits_word {param : ParamType} (h : Fits param v) : ∃ w, v.word = some w := by
  cases h with
  | int => exact ⟨_, rfl⟩
  | ref => exact ⟨_, rfl⟩

/-- Arguments are numbers and references, so each has its cell. -/
theorem words_fits (h : List.Forall₂ Fits params args) : (words args).length = params.length ∧
    ∀ (k : Nat) (v : Value), args[k]? = some v → ∃ w, v.word = some w ∧ (words args)[k]? = some w := by
  induction h with
  | nil => exact ⟨rfl, fun k v hv => by cases hv⟩
  | @cons param arg params args hfits _ ih =>
      obtain ⟨w, hw⟩ := fits_word hfits
      have hcons : words (arg :: args) = w :: words args := by
        rw [words, List.filterMap_cons_some hw, words]
      rw [hcons]
      refine ⟨by rw [List.length_cons, List.length_cons, ih.1], ?_⟩
      intro k v hv
      cases k with
      | zero =>
          obtain rfl : arg = v := Option.some.inj hv
          exact ⟨w, hw, rfl⟩
      | succ k => exact ih.2 k v hv

/-- Of the locals of a new activation only the arguments have a value. -/
theorem load_arguments {m : Method} {stack : List Value} {pc : Nat}
    (h : Activation.load ⟨m, args.map some ++ List.replicate n none, stack, pc⟩ i = some v) :
    i < args.length ∧ args[i]? = some v := by
  rw [Activation.load] at h
  dsimp only at h
  by_cases hi : i < args.length
  · rw [List.getElem?_append_left (by rwa [List.length_map]), List.getElem?_map,
      List.getElem?_eq_getElem hi] at h
    exact ⟨hi, by rw [List.getElem?_eq_getElem hi]; exact h⟩
  · rw [List.getElem?_append_right (by rw [List.length_map]; omega), List.getElem?_replicate] at h
    split_ifs at h <;> cases h

end Calls

/-! ## Steps -/

section Steps

variable {c : ClassFile} {fresh : (n : Nat) → Vector Word n} {s s' : Machine} {t t' : State}
  {i : Instruction} {value : Option Value}

/-- The turn of the loop on an instruction. -/
theorem step_execute {effect : Effect} (hi : t.instruction = some i)
    (h : execute c fresh t.frame t.heap t.output i = .ok effect) :
    step c fresh t = match effect with
      | .continue frame heap output => .ok (.running ⟨frame, t.callers, heap, output⟩)
      | .call caller callee => .ok (.running ⟨callee, caller :: t.callers, t.heap, t.output⟩)
      | .return value => returnValue value t := by
  obtain ⟨b, hb, hdecode⟩ := Option.bind_eq_some_iff.mp hi
  obtain ⟨hpc, -⟩ := List.getElem?_eq_some_iff.mp hb
  have hbyte : t.frame.byte 0 = .ok b := Frame.byte_eq hb
  rw [step, if_pos hpc]
  simp only [hbyte, hdecode, h, bind, Except.bind]
  cases effect <;> rfl

/-- Both run the same instruction. -/
theorem StateRel.instruction (h : StateRel c s t) (hi : s.frame.instruction = some i) :
    t.instruction = some i := by
  rw [State.instruction, h.frame.method, h.frame.pc]
  exact hi

/-- An instruction is in the code, which is short. -/
theorem StateRel.pc_lt (hfits : ClassFits c) (h : StateRel c s t) (hi : s.frame.instruction = some i) :
    s.frame.pc < 2 ^ 32 := by
  obtain ⟨b, hb, -⟩ := Option.bind_eq_some_iff.mp hi
  obtain ⟨hpc, -⟩ := List.getElem?_eq_some_iff.mp hb
  exact hpc.trans (hfits.code _ h.frame.declared)

/-- The cell of a value that is returned, or of none. -/
inductive Returned : Option Value → Option Word → Prop
  | none : Returned none none
  | some {v : Value} {w : Word} : v.word = some w → Returned (some v) (some w)

/-- A return returns the word of the value. -/
theorem execute_returns (h : FrameRel c s.frame t.frame) (hresult : s.frame.result i = some value) :
    ∃ word, execute c fresh t.frame t.heap t.output i = .ok (.return word) ∧ Returned value word := by
  rw [Activation.result.eq_def] at hresult
  split at hresult
  case h_4 => cases hresult
  case h_3 =>
    obtain rfl := Option.some.inj hresult
    exact ⟨none, rfl, .none⟩
  case h_1 =>
    split at hresult
    case h_2 => cases hresult
    case h_1 n rest hstack =>
      obtain rfl := Option.some.inj hresult
      obtain ⟨g, hpop, -⟩ := h.pop hstack rfl
      exact ⟨some n, by simp only [execute, hpop, bind, Except.bind], .some rfl⟩
  case h_2 =>
    split at hresult
    case h_2 => cases hresult
    case h_1 r rest hstack =>
      obtain rfl := Option.some.inj hresult
      obtain ⟨g, hpop, -⟩ := h.pop hstack rfl
      exact ⟨some (BitVec.ofNat 32 r), by simp only [execute, hpop, bind, Except.bind], .some rfl⟩

/-- An instruction that stays in its activation. -/
theorem StateRel.act {e : Java.Effect} (hfits : ClassFits c) (h : StateRel c s t)
    (hport : PortableAt s.arrays s.frame i) (hi : s.frame.instruction = some i)
    (hperform : perform c.constantPool s.arrays s.frame i = some e)
    (hbound : e.frame.stack.length ≤ s.frame.method.code.maxStack) :
    ∃ t', step c fresh t = .ok (.running t') ∧
      StateRel c ⟨e.frame, s.callers, e.arrays, s.output ++ e.printed⟩ t' := by
  obtain ⟨f, heap, hexec, hframe, hheap⟩ : Follows c fresh t.frame t.heap t.output i e :=
    perform_simulated h.frame h.heap (h.pc_lt hfits hi) hport hperform hbound
  refine ⟨_, step_execute (h.instruction hi) hexec, hframe, h.callers, hheap, ?_⟩
  dsimp only
  rw [h.output]

/-- A call. -/
theorem StateRel.call {b1 b2 : UInt8} {m : Method} {params : List ParamType} {returns : CString}
    {args rest : List Value} (hfits : ClassFits c) (h : StateRel c s t)
    (hi : s.frame.instruction = some .invokestatic) (h1 : s.frame.operand 1 = some b1)
    (h2 : s.frame.operand 2 = some b2) (hnames : Names c (unsignedPair b1 b2) m)
    (hm : m.descriptor = descriptor params returns) (hstack : s.frame.stack = args.reverse ++ rest)
    (hargs : List.Forall₂ Fits params args) (hlocals : args.length ≤ m.code.maxLocals) :
    ∃ t', step c fresh t = .ok (.running t') ∧ StateRel c
      ⟨⟨m, args.map some ++ List.replicate (m.code.maxLocals - args.length) none, [], 0⟩,
        { s.frame with stack := rest } :: s.callers, s.arrays, s.output⟩ t' := by
  have hwidth := hfits.locals m hnames.declared
  have hparams := hargs.length_eq
  obtain ⟨hlength, hwords⟩ := words_fits hargs
  have hcells : t.frame.stack = (words args).reverse ++ words rest := by
    rw [h.frame.stack, hstack, words_append, words_reverse]
  obtain ⟨locals, hbind, hfirst, -⟩ := @bindArguments_eq t.frame ⟨m, fresh m.code.maxLocals, [], 0⟩
    (words args) (words rest) hcells (by dsimp only; omega)
  have hcount : getNumberOfParameters m = .ok (words args).length := by
    rw [getNumberOfParameters_descriptor hm (by omega), hlength]
  have hexec : execute c fresh t.frame t.heap t.output .invokestatic =
      .ok (.call { t.frame with stack := words rest } ⟨m, locals, [], 0⟩) := by
    simp only [execute, h.frame.byte h1, h.frame.byte h2, hnames.find, hcount, hbind, bind, Except.bind]
  refine ⟨_, step_execute (h.instruction hi) hexec, ?_, ?_, h.heap, h.output⟩
  · refine ⟨hnames.declared, rfl, rfl, rfl, ?_, ?_⟩
    · dsimp only
      rw [List.length_append, List.length_map, List.length_replicate]
      omega
    · intro k v hload
      obtain ⟨hk, harg⟩ := load_arguments hload
      obtain ⟨w, hw, hcell⟩ := hwords k v harg
      exact ⟨w, hw, by rw [hfirst k (by omega), hcell]⟩
  · exact .cons ⟨h.frame.setStack rest, h.pc_lt hfits hi⟩ h.callers

/-- A return. -/
theorem StateRel.ret {caller : Activation} {callers : List Activation} (h : StateRel c s t)
    (hi : s.frame.instruction = some i) (hresult : s.frame.result i = some value)
    (hcallers : s.callers = caller :: callers)
    (hbound : (value.toList ++ caller.stack).length ≤ caller.method.code.maxStack) :
    ∃ t', step c fresh t = .ok (.running t') ∧
      StateRel c ⟨caller.next 3 (value.toList ++ caller.stack), callers, s.arrays, s.output⟩ t' := by
  obtain ⟨word, hexec, hreturned⟩ : ∃ word, execute c fresh t.frame t.heap t.output i = _ ∧ _ :=
    execute_returns h.frame hresult
  have hstep := step_execute (h.instruction hi) hexec
  have hwaiting := h.callers
  rw [hcallers] at hwaiting
  generalize hframes : t.callers = frames at hwaiting
  obtain - | ⟨⟨hcaller, hpc⟩, hrest⟩ := hwaiting
  rename_i f frames
  cases hreturned with
  | none =>
      have hnext : FrameRel c (caller.next 3 caller.stack) (f.jump 3) := hcaller.advance hpc (le_refl 3)
      refine ⟨⟨f.jump 3, frames, t.heap, t.output⟩, hstep.trans ?_, hnext, hrest, h.heap, h.output⟩
      change returnValue none t = _
      rw [returnValue, hframes]
      rfl
  | @some v w hv =>
      obtain ⟨g, hpush, hrel⟩ := hcaller.push hv hbound
      have hnext : FrameRel c (caller.next 3 (v :: caller.stack)) (g.jump 3) :=
        hrel.advance hpc (le_refl 3)
      refine ⟨⟨g.jump 3, frames, t.heap, t.output⟩, hstep.trans ?_, hnext, hrest, h.heap, h.output⟩
      change returnValue (some w) t = _
      rw [returnValue, hframes]
      simp only [hpush, bind, Except.bind]

variable (fresh) in
/-- **A step of the machine is a step of the interpreter**, whatever is in fresh locals. -/
theorem StateRel.step (hfits : ClassFits c) (h : StateRel c s t) (hport : Portable s)
    (hstep : Step c s s') : ∃ t', JVM.step c fresh t = .ok (.running t') ∧ StateRel c s' t' := by
  cases hstep with
  | act hi _ hperform hbound => exact h.act hfits (hport _ hi) hi hperform hbound
  | call hi h1 h2 hnames hm hstack hargs hlocals =>
      exact h.call hfits hi h1 h2 hnames hm hstack hargs hlocals
  | ret hi hresult hcallers hbound => exact h.ret hi hresult hcallers hbound

variable (fresh) in
/-- The end of the machine is the end of the interpreter. -/
theorem StateRel.ends (h : StateRel c s t) (hends : Ends s value) :
    ∃ word, JVM.step c fresh t = .ok (.finished word t.heap s.output) ∧ Returned value word := by
  obtain ⟨hcallers, i, hi, hresult⟩ := hends
  obtain ⟨word, hexec, hreturned⟩ : ∃ word, execute c fresh t.frame t.heap t.output i = _ ∧ _ :=
    execute_returns h.frame hresult
  have hnone : t.callers = [] := by
    have hwaiting := h.callers
    rw [hcallers] at hwaiting
    exact List.forall₂_nil_left_iff.mp hwaiting
  refine ⟨word, (step_execute (h.instruction hi) hexec).trans ?_, hreturned⟩
  change returnValue word t = _
  rw [returnValue, hnone, h.output]

end Steps

end JVM
