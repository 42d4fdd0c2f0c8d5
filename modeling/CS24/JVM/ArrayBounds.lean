import CS24.JVM.Arrays

/-!
# How far array accesses reach

The length of an array is in the cell in front of its elements, and no instruction
compares an index with it.  An index below the length leads to an element; the index
-1 leads to the length, and every other one leaves the array.  So what holds of runs
whose counts and indices are proper is that arrays keep to their elements and never
change their length, and nothing of this holds of an instruction with another count
or index.
-/

namespace JVM

open Checked System

/-- The operands of an instruction on arrays are what Java has a result for: a count
that is not negative and leaves room for the length, a reference to an array, an index
from 0 to below the length. -/
def Instruction.Proper (heap : Heap) : Instruction → List Word → Prop
  | newarray, count :: _ => 0 ≤ count.toInt ∧ count ≠ BitVec.intMax 32
  | arraylength, ref :: _ => ∃ array, heap.get ref = .ok array
  | iastore, _ :: index :: ref :: _ | iaload, index :: ref :: _ =>
      ∃ length cells, heap.get ref = .ok (length :: cells) ∧
        0 ≤ index.toInt ∧ index.toInt < length.toInt
  | _, _ => True

/-- A load or store does not go to the cell of the length. -/
def Instruction.Beside (heap : Heap) : Instruction → List Word → Prop
  | iastore, _ :: index :: ref :: _ | iaload, index :: ref :: _ =>
      ∀ array k, heap.get ref = .ok array → cell array index = .ok k → k ≠ 0
  | _, _ => True

/-- The next step has proper operands. -/
def Proper (s : State) : Prop :=
  ∀ i, s.instruction = some i → i.Proper s.heap s.frame.stack

/-- The next step leaves no array: it reads and writes nothing outside the reference
table and the arrays, and of the arrays only the elements. -/
def Confined (c : ClassFile) (s : State) : Prop :=
  ∀ i, s.instruction = some i → i.Beside s.heap s.frame.stack ∧
    ∀ fresh, execute c fresh s.frame s.heap s.output i ≠ .error .heapOutOfBounds

/-- Each array has its length in front of that many elements. -/
def Whole (heap : Heap) : Prop :=
  ∀ array ∈ heap, ∃ length cells, array = length :: cells ∧ 0 ≤ length.toInt ∧
    cells.length = length.toNat

/-- The arrays of `heap` are still there, with the same lengths. -/
def KeepsLengths (heap heap' : Heap) : Prop :=
  ∀ (k : Nat) (length : Word) (cells : List Word), heap[k]? = some (length :: cells) →
    ∃ cells', heap'[k]? = some (length :: cells') ∧ cells'.length = cells.length

/-- The steps with proper operands. -/
def ProperSteps (c : ClassFile) (s t : State) : Prop := Proper s ∧ Steps c s t

/-- The states of runs from a new heap whose steps have proper operands. -/
abbrev ProperRun (c : ClassFile) : State → Prop :=
  Reach (fun s => Starts c s ∧ s.heap = []) (ProperSteps c)

/-! ## One access -/

section Access

variable {heap heap' : Heap} {array cells : List Word} {ref index length value : Word} {k : Nat}

/-- A heap keeps its lengths when nothing happens, -/
theorem KeepsLengths.refl : KeepsLengths heap heap :=
  fun _ _ cells h => ⟨cells, h, rfl⟩

/-- and when things happen that keep them. -/
theorem KeepsLengths.trans {heap'' : Heap} (h : KeepsLengths heap heap')
    (h' : KeepsLengths heap' heap'') : KeepsLengths heap heap'' := by
  intro k length cells hk
  obtain ⟨cells', hk', hlength'⟩ := h k length cells hk
  obtain ⟨cells'', hk'', hlength''⟩ := h' k length cells' hk'
  exact ⟨cells'', hk'', hlength''.trans hlength'⟩

/-- An array of a whole heap has its length in front and as many cells. -/
theorem Whole.get (hheap : Whole heap) (hget : heap.get ref = .ok array) :
    ∃ length cells, array = length :: cells ∧ 0 ≤ length.toInt ∧ cells.length = length.toNat :=
  hheap array (List.mem_of_getElem? (Represents.get_ok hget).2)

/-- **The cells of an array**: -1 leads to the length, an index below the length to an
element, and every other index nowhere. -/
theorem cell_eq_ok (hlength : 0 ≤ length.toInt) (hcells : cells.length = length.toNat) :
    cell (length :: cells) index = .ok k ↔ index = -1 ∧ k = 0 ∨
      (0 ≤ index.toInt ∧ index.toInt < length.toInt) ∧ k = index.toNat + 1 := by
  have hsum : (index + 1).toNat = (index.toNat + 1) % 2 ^ 32 := BitVec.toNat_add index 1
  have hlast : index = -1 ↔ index.toNat = 2 ^ 32 - 1 := by
    rw [← BitVec.toNat_inj]
    rfl
  have hindex := index.isLt
  have hcount := length.isLt
  have hk : cell (length :: cells) index = .ok k ↔
      (2 * (index + 1).toNat < 2 ^ 32 ∧ (index + 1).toNat < length.toNat + 1) ∧
        (index + 1).toNat = k := by
    rw [cell, List.length_cons, hcells, BitVec.toInt_eq_toNat_cond]
    grind
  rw [hk, hsum, hlast]
  rw [BitVec.toInt_eq_toNat_cond] at hlength ⊢
  rw [BitVec.toInt_eq_toNat_cond]
  constructor
  · rintro ⟨⟨hlow, hhigh⟩, rfl⟩
    grind
  · rintro (⟨hindex, rfl⟩ | ⟨⟨hlow, hhigh⟩, rfl⟩) <;> grind

end Access

/-! ## Instructions that leave the arrays alone -/

/-- Not an access outside the reference table or outside an array. -/
def Fault.Inside (e : Fault) : Prop := e ≠ .heapOutOfBounds

section Inside

variable {c : ClassFile} {fresh : (n : Nat) → Vector Word n} {f : Frame} {heap : Heap}
  {output : List Word} {i : Instruction}

/-- No access is outside its array where all accesses are inside. -/
theorem inside_ne {α : Type} {x : Except Fault α} (h : Safe Fault.Inside (fun _ => True) x) :
    x ≠ .error .heapOutOfBounds := by
  rintro rfl
  exact h rfl

/-- A push accesses no array, -/
theorem inside_push (v : Word) : Safe Fault.Inside (fun _ => True) (f.push v) := by
  unfold Frame.push
  exact Safe.ite (fun _ => trivial) fun _ h => by cases h

/-- nor does a pop, -/
theorem inside_pop : Safe Fault.Inside (fun _ => True) f.pop := by
  unfold Frame.pop
  split
  · trivial
  · rintro ⟨⟩

/-- an operand, -/
theorem inside_byte (k : Nat) : Safe Fault.Inside (fun _ => True) (f.byte k) := by
  unfold Frame.byte
  split
  · trivial
  · rintro ⟨⟩

/-- a local variable that is read -/
theorem inside_load (k : Nat) : Safe Fault.Inside (fun _ => True) (f.load k) := by
  unfold Frame.load
  split
  · trivial
  · rintro ⟨⟩

/-- or written, -/
theorem inside_store (k : Nat) (v : Word) : Safe Fault.Inside (fun _ => True) (f.store k v) := by
  unfold Frame.store
  split
  · trivial
  · rintro ⟨⟩

/-- an operation, -/
theorem inside_apply (op : BinaryOp) (a b : Word) :
    Safe Fault.Inside (fun _ => True) (op.apply a b) := by
  cases op <;> simp only [BinaryOp.apply] <;> first | trivial | (split <;> first | trivial | rintro ⟨⟩)

/-- a constant, -/
theorem inside_poolWord (pool : List Constant) (b : UInt8) :
    Safe Fault.Inside (fun _ => True) (poolWord pool b) := by
  unfold poolWord
  split
  · rintro ⟨⟩
  · split
    · split
      · trivial
      · rintro ⟨⟩
    · rintro ⟨⟩

/-- an entry of the pool, -/
theorem inside_getConstant (pool : List Constant) (index : Nat) :
    Safe Fault.Inside (fun _ => True) (getConstant pool index) := by
  unfold getConstant
  split
  · split
    · trivial
    · rintro ⟨⟩
  · rintro ⟨⟩

/-- a name, -/
theorem inside_getUtf8 (pool : List Constant) (index : Nat) :
    Safe Fault.Inside (fun _ => True) (getUtf8 pool index) := by
  refine Safe.bind (inside_getConstant pool index) fun constant _ => ?_
  cases constant <;> first | trivial | rintro ⟨⟩

/-- a method that is looked up, -/
theorem inside_findMethodFromIndex (index : Nat) :
    Safe Fault.Inside (fun _ => True) (findMethodFromIndex index c) := by
  refine Safe.bind (p := fun _ => True) ?_ fun indices _ => ?_
  · refine Safe.bind (inside_getConstant c.constantPool index) fun constant _ => ?_
    cases constant with
    | methodref _ nameAndTypeIndex =>
        refine Safe.bind (inside_getConstant c.constantPool nameAndTypeIndex.toNat) fun pair _ => ?_
        cases pair <;> first | trivial | rintro ⟨⟩
    | _ => rintro ⟨⟩
  · refine Safe.bind (inside_getUtf8 c.constantPool indices.1.toNat) fun name _ => ?_
    refine Safe.bind (inside_getUtf8 c.constantPool indices.2.toNat) fun descriptor _ => ?_
    split
    · trivial
    · rintro ⟨⟩

/-- its parameters, -/
theorem inside_getNumberOfParameters (method : Method) :
    Safe Fault.Inside (fun _ => True) (getNumberOfParameters method) := by
  unfold getNumberOfParameters
  split
  · trivial
  · rintro ⟨⟩
  · trivial

/-- or the arguments that are bound to them. -/
theorem inside_bindArguments (k : Nat) (caller callee : Frame) :
    Safe Fault.Inside (fun _ => True) (bindArguments k caller callee) := by
  induction k generalizing caller callee with
  | zero => trivial
  | succ k ih =>
      refine Safe.bind inside_pop fun popped _ => ?_
      exact Safe.bind (inside_store k popped.1) fun callee _ => ih popped.2 callee

/-- The other instructions go to no array. -/
theorem execute_inside (hi : i.onArrays = false) :
    Safe Fault.Inside (fun _ => True) (execute c fresh f heap output i) := by
  cases i with
  | newarray | arraylength | iastore | iaload => cases hi
  | _ =>
      -- each operation of the frame ends in a value or in a fault of its own
      simp only [execute]
      repeat
        first
        | exact Safe.ok trivial
        | refine Safe.bind inside_pop fun _ _ => ?_
        | refine Safe.bind (inside_push _) fun _ _ => ?_
        | refine Safe.bind (inside_byte _) fun _ _ => ?_
        | refine Safe.bind (inside_load _) fun _ _ => ?_
        | refine Safe.bind (inside_store _ _) fun _ _ => ?_
        | refine Safe.bind (inside_apply _ _ _) fun _ _ => ?_
        | refine Safe.bind (inside_poolWord _ _) fun _ _ => ?_
        | refine Safe.bind (inside_findMethodFromIndex _) fun _ _ => ?_
        | refine Safe.bind (inside_getNumberOfParameters _) fun _ _ => ?_
        | refine Safe.bind (inside_bindArguments _ _ _) fun _ _ => ?_

end Inside

/-! ## Instructions on arrays -/

section OnArrays

variable {c : ClassFile} {fresh : (n : Nat) → Vector Word n} {f : Frame} {heap heap' : Heap}
  {output : List Word} {i : Instruction} {s t : State}

/-- The lookup of an array fails outside the table only. -/
theorem get_error {ref : Word} {e : Fault} (hget : heap.get ref = .error e) :
    e = .heapOutOfBounds := by
  rw [Heap.get] at hget
  grind

/-- A load or store with a reference and an index stays inside the array and beside its
length exactly if the index is below the length, whatever it does with the cell. -/
theorem access_iff {α : Type} (ref index : Word) {g : List Word → Nat → Except Fault α}
    (hheap : Whole heap) (hg : ∀ array k, Safe Fault.Inside (fun _ => True) (g array k)) :
    ((∀ array k, heap.get ref = .ok array → cell array index = .ok k → k ≠ 0) ∧
      (heap.get ref >>= fun array => cell array index >>= g array) ≠ .error .heapOutOfBounds) ↔
    ∃ length cells, heap.get ref = .ok (length :: cells) ∧
      0 ≤ index.toInt ∧ index.toInt < length.toInt := by
  cases hget : heap.get ref with
  | error e =>
      simp [get_error hget, bind, Except.bind]
  | ok array =>
      obtain ⟨length, cells, rfl, hlength, hcells⟩ := hheap.get hget
      have hcell : ∀ k, cell (length :: cells) index = .ok k ↔ _ :=
        fun k => cell_eq_ok hlength hcells
      constructor
      · rintro ⟨hbeside, hfault⟩
        cases hk : cell (length :: cells) index with
        | error e =>
            have he : e = .heapOutOfBounds := by
              rw [cell] at hk
              grind
            refine absurd ?_ hfault
            simp [bind, Except.bind, hk, he]
        | ok k =>
            rcases (hcell k).mp hk with ⟨-, hzero⟩ | ⟨hindex, -⟩
            · exact absurd hzero (hbeside _ k rfl hk)
            · exact ⟨length, cells, rfl, hindex⟩
      · rintro ⟨length', cells', heq, hindex⟩
        obtain ⟨rfl, rfl⟩ := List.cons.inj (Except.ok.inj heq)
        have hk := (hcell (index.toNat + 1)).mpr (.inr ⟨hindex, rfl⟩)
        refine ⟨?_, ?_⟩
        · intro array k harray hk'
          obtain rfl := Except.ok.inj harray
          obtain rfl := Except.ok.inj (hk.symm.trans hk')
          exact Nat.succ_ne_zero _
        · intro hfault
          simp only [bind, Except.bind, hk] at hfault
          exact inside_ne (hg (length :: cells) (index.toNat + 1)) hfault

/-- Without its operands an instruction stops at the stack. -/
theorem confined_underflow {i : Instruction} {f : Frame} (hbeside : i.Beside heap f.stack)
    (hproper : i.Proper heap f.stack)
    (hpop : ∀ fresh, execute c fresh f heap output i = .error .stackUnderflow) :
    (i.Beside heap f.stack ∧
      ∀ fresh, execute c fresh f heap output i ≠ .error .heapOutOfBounds) ↔
    i.Proper heap f.stack := by
  refine iff_of_true ⟨hbeside, ?_⟩ hproper
  intro fresh h
  cases (hpop fresh).symm.trans h

/-- **An instruction is confined exactly if its operands are proper.** -/
theorem confined_iff (hheap : Whole heap) (hbyte : i = .newarray → ∃ b, f.byte 1 = .ok b) :
    (i.Beside heap f.stack ∧
      ∀ fresh, execute c fresh f heap output i ≠ .error .heapOutOfBounds) ↔
    i.Proper heap f.stack := by
  obtain ⟨method, locals, stack, pc⟩ := f
  cases i with
  | newarray =>
      obtain ⟨b, hb⟩ := hbyte rfl
      obtain - | ⟨count, rest⟩ := stack
      · refine confined_underflow trivial trivial fun fresh => ?_
        simp only [execute, hb]
        rfl
      · rw [Instruction.Proper]
        constructor
        · rintro ⟨-, hfault⟩
          by_contra hcount
          refine hfault (fun n => Vector.replicate n 0) ?_
          simp only [execute, hb, Frame.pop, bind, Except.bind, if_neg hcount]
        · intro hcount
          refine ⟨trivial, ?_⟩
          intro fresh
          have hpush : execute c fresh ⟨method, locals, count :: rest, pc⟩ heap output .newarray =
              (Frame.push ⟨method, locals, rest, pc⟩ (BitVec.ofNat 32 heap.length) >>= fun f =>
                .ok (.continue (f.jump 2) (heap.add (count :: List.replicate count.toNat 0)).2
                  output)) := by
            simp only [execute, hb, Frame.pop, bind, Except.bind, if_pos hcount]
            rfl
          rw [hpush]
          exact inside_ne (Safe.bind (inside_push _) fun _ _ => trivial)
  | arraylength =>
      obtain - | ⟨ref, rest⟩ := stack
      · exact confined_underflow trivial trivial fun fresh => rfl
      · rw [Instruction.Proper]
        constructor
        · rintro ⟨-, hfault⟩
          cases hget : heap.get ref with
          | error e =>
              refine absurd ?_ (hfault fun n => Vector.replicate n 0)
              simp only [execute, Frame.pop, bind, Except.bind, hget, get_error hget]
          | ok array => exact ⟨array, rfl⟩
        · rintro ⟨array, hget⟩
          obtain ⟨length, cells, rfl, -, -⟩ := hheap.get hget
          refine ⟨trivial, ?_⟩
          intro fresh
          have hpush : execute c fresh ⟨method, locals, ref :: rest, pc⟩ heap output .arraylength =
              (Frame.push ⟨method, locals, rest, pc⟩ length >>= fun f =>
                .ok (.continue (f.jump 1) heap output)) := by
            simp only [execute, hget, Frame.pop, bind, Except.bind]
          rw [hpush]
          exact inside_ne (Safe.bind (inside_push _) fun _ _ => trivial)
  | iastore =>
      obtain - | ⟨value, - | ⟨index, - | ⟨ref, rest⟩⟩⟩ := stack
      · exact confined_underflow trivial trivial fun fresh => rfl
      · exact confined_underflow trivial trivial fun fresh => rfl
      · exact confined_underflow trivial trivial fun fresh => rfl
      · have haccess := access_iff ref index (g := fun array k => .ok
          (Effect.continue (Frame.jump ⟨method, locals, rest, pc⟩ 1)
            (heap.set ref.toNat (array.set k value)) output)) hheap fun _ _ => trivial
        rw [Instruction.Proper, ← haccess]
        exact ⟨fun h => ⟨h.1, h.2 fun n => Vector.replicate n 0⟩, fun h => ⟨h.1, fun _ => h.2⟩⟩
  | iaload =>
      obtain - | ⟨index, - | ⟨ref, rest⟩⟩ := stack
      · exact confined_underflow trivial trivial fun fresh => rfl
      · exact confined_underflow trivial trivial fun fresh => rfl
      · have haccess := access_iff ref index (g := fun array k => do
          let f ← Frame.push ⟨method, locals, rest, pc⟩ (array.getD k 0)
          .ok (Effect.continue (f.jump 1) heap output)) hheap
          fun _ _ => Safe.bind (inside_push _) fun _ _ => trivial
        rw [Instruction.Proper, ← haccess]
        exact ⟨fun h => ⟨h.1, h.2 fun n => Vector.replicate n 0⟩, fun h => ⟨h.1, fun _ => h.2⟩⟩
  | _ =>
      exact iff_of_true ⟨trivial, fun _ => inside_ne (execute_inside rfl)⟩ trivial

/-- The operands of a store in a run are those on the stack. -/
theorem event_iastore {ref index value : Word} {before after : List Word}
    (he : i.event before after = some (.iastore ref index value)) :
    i = .iastore ∧ ∃ rest, before = value :: index :: ref :: rest := by
  unfold Instruction.event at he
  split at he
  case h_3 value' index' ref' rest =>
      obtain ⟨rfl, rfl, rfl⟩ := ArrayEvent.iastore.inj (Option.some.inj he)
      exact ⟨rfl, rest, rfl⟩
  all_goals cases he

/-- A store with a proper index replaces an element. -/
theorem store_keeps {ref index value : Word} {rest : List Word} (hheap : Whole heap)
    (hproper : Instruction.iastore.Proper heap (value :: index :: ref :: rest))
    (hacts : (ArrayEvent.iastore ref index value).Acts heap heap') :
    Whole heap' ∧ KeepsLengths heap heap' := by
  obtain ⟨array, k, hget, hcell, rfl⟩ := hacts
  obtain ⟨length, cells, hget', hindex⟩ := hproper
  obtain rfl := Except.ok.inj (hget.symm.trans hget')
  obtain ⟨length', cells', heq, hlength, hcells⟩ := hheap.get hget
  obtain ⟨rfl, rfl⟩ := List.cons.inj heq
  have hk : k = index.toNat + 1 := by
    rcases (cell_eq_ok hlength hcells).mp hcell with ⟨rfl, -⟩ | ⟨-, hk⟩
    · exact absurd hindex.1 (by decide)
    · exact hk
  rw [hk, List.set_cons_succ]
  refine ⟨?_, ?_⟩
  · intro array hmem
    rcases List.mem_or_eq_of_mem_set hmem with hmem | rfl
    · exact hheap array hmem
    · exact ⟨length, _, rfl, hlength, by rw [List.length_set, hcells]⟩
  · intro j length' cells' hj
    by_cases hsame : ref.toNat = j
    · obtain rfl := hsame
      obtain ⟨rfl, rfl⟩ := List.cons.inj (Option.some.inj ((Represents.get_ok hget).2.symm.trans hj))
      refine ⟨cells.set index.toNat value, ?_, List.length_set⟩
      rw [List.getElem?_set_self (List.getElem?_eq_some_iff.mp hj).1]
    · exact ⟨cells', (List.getElem?_set_ne hsame).trans hj, rfl⟩

/-- The step lemma: arrays stay whole and keep their lengths. -/
theorem ProperSteps.keeps (h : ProperSteps c s t) (hheap : Whole s.heap) :
    Whole t.heap ∧ KeepsLengths s.heap t.heap := by
  obtain ⟨hproper, hstep⟩ := h
  rcases hstep.acts with ⟨-, heq⟩ | ⟨e, hevent, hacts⟩
  · rw [heq]
    exact ⟨hheap, KeepsLengths.refl⟩
  · cases e with
    | newarray count ref =>
        obtain ⟨hcount, hadd⟩ := hacts
        obtain ⟨-, hadd⟩ := Prod.mk.inj hadd
        rw [hadd]
        refine ⟨?_, ?_⟩
        · intro array hmem
          rcases List.mem_append.mp hmem with hmem | hmem
          · exact hheap array hmem
          · obtain rfl := List.mem_singleton.mp hmem
            exact ⟨count, _, rfl, hcount, List.length_replicate⟩
        · intro k length cells hk
          have hlt := (List.getElem?_eq_some_iff.mp hk).1
          exact ⟨cells, (List.getElem?_append_left hlt).trans hk, rfl⟩
    | arraylength | iaload =>
        rw [hacts.1]
        exact ⟨hheap, KeepsLengths.refl⟩
    | iastore ref index value =>
        obtain ⟨i, hi, he⟩ := Option.bind_eq_some_iff.mp hevent
        obtain ⟨rfl, rest, hstack⟩ := event_iastore he
        have hp := hproper _ hi
        rw [hstack] at hp
        exact store_keeps hheap hp hacts

/-- **Array accesses.** In every state of a run from a new heap whose steps had proper
operands, at any depth of calls, each array is its length and that many elements; the
next step keeps to the elements of the array it names exactly if its operands are proper
again; and as long as they are, no sequence of steps changes the length of an array. -/
theorem arrays_confined (hs : ProperRun c s) :
    Whole s.heap ∧
    ((s.instruction = some .newarray → ∃ b, s.frame.byte 1 = .ok b) →
      (Confined c s ↔ Proper s)) ∧
    ∀ t, Relation.ReflTransGen (ProperSteps c) s t → KeepsLengths s.heap t.heap := by
  have hwhole : Whole s.heap := by
    refine hs.invariant ?_ fun s t hheap hstep => (hstep.keeps hheap).1
    rintro s ⟨-, hheap⟩ array hmem
    rw [hheap] at hmem
    cases hmem
  refine ⟨hwhole, ?_, ?_⟩
  · intro hbyte
    refine forall_congr' fun i => forall_congr' fun hi => ?_
    exact confined_iff hwhole fun hnew => hbyte (hi.trans (congrArg some hnew))
  · intro t hrun
    have hkeeps : Whole t.heap ∧ KeepsLengths s.heap t.heap := by
      induction hrun with
      | refl => exact ⟨hwhole, KeepsLengths.refl⟩
      | tail _ hstep ih =>
          obtain ⟨hnext, hlengths⟩ := hstep.keeps ih.1
          exact ⟨hnext, ih.2.trans hlengths⟩
    exact hkeeps.2

end OnArrays

/-- `iconst_1; newarray int; dup; iconst_m1; iconst_5; iastore; arraylength; ireturn` -/
def storeInFront : Method :=
  ⟨[109], [40, 41, 73], ⟨4, 0, [0x04, 0xbc, 0x0a, 0x59, 0x02, 0x08, 0x4f, 0xbe, 0xac]⟩⟩

/-- A step of `storeInFront` with proper operands. -/
theorem storeInFront_step {s t : State} {i : Instruction}
    (hs : ProperRun ⟨[], [storeInFront]⟩ s) (hi : s.instruction = some i)
    (hproper : i.Proper s.heap s.frame.stack)
    (hstep : step ⟨[], [storeInFront]⟩ (fun n => Vector.replicate n 0) s = .ok (.running t)) :
    ProperRun ⟨[], [storeInFront]⟩ t := by
  refine hs.step ⟨?_, _, hstep⟩
  intro i' hi'
  obtain rfl := Option.some.inj (hi.symm.trans hi')
  exact hproper

/-- The run of `storeInFront` up to the store. -/
theorem storeInFront_runs : ProperRun ⟨[], [storeInFront]⟩
    ⟨⟨storeInFront, #v[], [5, -1, 0, 0], 6⟩, [], [[1, 0]], []⟩ := by
  have h0 : ProperRun ⟨[], [storeInFront]⟩ ⟨⟨storeInFront, #v[], [], 0⟩, [], [], []⟩ :=
    .init ⟨⟨List.mem_singleton.mpr rfl, rfl, rfl, rfl⟩, rfl⟩
  have h1 : ProperRun ⟨[], [storeInFront]⟩ ⟨⟨storeInFront, #v[], [1], 1⟩, [], [], []⟩ :=
    storeInFront_step (i := .iconst 2) h0 rfl trivial rfl
  have h2 : ProperRun ⟨[], [storeInFront]⟩ ⟨⟨storeInFront, #v[], [0], 3⟩, [], [[1, 0]], []⟩ :=
    storeInFront_step (i := .newarray) h1 rfl ⟨by decide, by decide⟩ rfl
  have h3 : ProperRun ⟨[], [storeInFront]⟩ ⟨⟨storeInFront, #v[], [0, 0], 4⟩, [], [[1, 0]], []⟩ :=
    storeInFront_step (i := .dup) h2 rfl trivial rfl
  have h4 : ProperRun ⟨[], [storeInFront]⟩
      ⟨⟨storeInFront, #v[], [-1, 0, 0], 5⟩, [], [[1, 0]], []⟩ :=
    storeInFront_step (i := .iconst 0) h3 rfl trivial rfl
  exact storeInFront_step (i := .iconst 6) h4 rfl trivial rfl

/-- In front of the store the array is whole, and nothing keeps the store in it. -/
theorem storeInFront_confined :
    Whole [[1, 0]] ∧ ¬ Confined ⟨[], [storeInFront]⟩
      ⟨⟨storeInFront, #v[], [5, -1, 0, 0], 6⟩, [], [[1, 0]], []⟩ := by
  obtain ⟨hwhole, hconfined, -⟩ := arrays_confined storeInFront_runs
  refine ⟨hwhole, ?_⟩
  rw [hconfined (by decide)]
  intro hproper
  obtain ⟨length, cells, -, hindex, -⟩ := hproper .iastore rfl
  exact absurd hindex (by decide)

/-- The store at index -1 makes the length 5. -/
theorem storeInFront_changes_length : ∃ s t, ProperRun ⟨[], [storeInFront]⟩ s ∧
    s.instruction = some .iastore ∧ s.frame.stack = [5, -1, 0, 0] ∧ s.heap = [[1, 0]] ∧
    Steps ⟨[], [storeInFront]⟩ s t ∧ t.heap = [[5, 0]] ∧ ¬ KeepsLengths s.heap t.heap := by
  refine ⟨_, ⟨⟨storeInFront, #v[], [0], 7⟩, [], [[5, 0]], []⟩, storeInFront_runs, rfl, rfl, rfl,
    ⟨fun n => Vector.replicate n 0, rfl⟩, rfl, ?_⟩
  intro hkeeps
  obtain ⟨cells, hcells, -⟩ := hkeeps 0 1 [0] rfl
  cases hcells

end JVM
