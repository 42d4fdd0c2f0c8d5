import CS24.JVM.DepthTyped

/-!
# Arrays over whole runs

The law of arrays is about the history of a run: a load finds what the last store
to the same place left, or 0, whatever happened to other arrays and in other
activations meanwhile.  `event` reads the array operations of a run off its states,
`ArrayEvent.Obeys` says what each of them may return after a history, and the
invariant `Represents` ties the history to the reference table.
-/

namespace JVM

open Checked System

/-! ## Histories -/

/-- An array operation with its operands and its result. -/
inductive ArrayEvent
  | newarray (count ref : Word)
  | arraylength (ref count : Word)
  | iastore (ref index value : Word)
  | iaload (ref index value : Word)
  deriving DecidableEq, Repr

/-- The array operations of a run, the last one first. -/
abbrev History := List ArrayEvent

namespace History

/-- How many arrays were created. -/
def created : History → Nat
  | [] => 0
  | .newarray _ _ :: past => created past + 1
  | _ :: past => created past

/-- The value of the most recent store to a place, or 0. -/
def lastStore (ref index : Word) : History → Word
  | [] => 0
  | .iastore ref' index' value :: past =>
    if ref' = ref ∧ index' = index then value else lastStore ref index past
  | _ :: past => lastStore ref index past

end History

namespace ArrayEvent

/-- What an operation may return after `past`: a reference that was not returned
before, the count the array was created with, the value of the last store. -/
def Obeys (past : History) : ArrayEvent → Prop
  | newarray _ ref => ∀ count, newarray count ref ∉ past
  | arraylength ref count => newarray count ref ∈ past
  | iastore ref _ _ => ∃ count, newarray count ref ∈ past
  | iaload ref index value => (∃ count, newarray count ref ∈ past) ∧
      value = past.lastStore ref index

/-- The index of a load or store is within the length of the array. -/
def InBounds (past : History) : ArrayEvent → Prop
  | iastore ref index _ | iaload ref index _ => ∀ count, newarray count ref ∈ past →
      0 ≤ index.toInt ∧ index.toInt < count.toInt
  | _ => True

end ArrayEvent

namespace History

/-- Every operation returns what the ones before it let it return. -/
def Lawful (h : History) : Prop := ∀ e past, e :: past <:+ h → e.Obeys past

/-- Every load and store is in bounds. -/
def InBounds (h : History) : Prop := ∀ e past, e :: past <:+ h → e.InBounds past

variable {h : History} {e : ArrayEvent}

/-- Nothing has happened yet. -/
theorem Lawful.nil : Lawful [] := by
  intro e past hsuffix
  cases List.suffix_nil.mp hsuffix

/-- One more event that obeys what was before it. -/
theorem Lawful.cons (he : e.Obeys h) (hh : Lawful h) : Lawful (e :: h) := by
  intro e' past hsuffix
  rcases List.suffix_cons_iff.mp hsuffix with heq | hsuffix
  · obtain ⟨rfl, rfl⟩ := List.cons.inj heq
    exact he
  · exact hh e' past hsuffix

/-- The last event is in bounds, -/
theorem InBounds.head (hh : InBounds (e :: h)) : e.InBounds h :=
  hh e h (List.suffix_refl _)

/-- and so are those before it. -/
theorem InBounds.tail (hh : InBounds (e :: h)) : InBounds h := fun e' past hsuffix =>
  hh e' past (hsuffix.trans (List.suffix_cons e h))

/-- Places without a store hold 0. -/
theorem lastStore_eq_zero {ref index : Word} (hno : ∀ index value, .iastore ref index value ∉ h) :
    lastStore ref index h = 0 := by
  induction h with
  | nil => rfl
  | cons e past ih =>
      have hpast : lastStore ref index past = 0 :=
        ih fun index value hmem => hno index value (List.mem_cons_of_mem _ hmem)
      cases e with
      | iastore ref' index' value =>
          have hne : ref' ≠ ref := by
            rintro rfl
            exact hno index' value List.mem_cons_self
          rw [lastStore, if_neg (fun heq => hne heq.1), hpast]
      | _ => exact hpast

/-- Arrays stay. -/
theorem created_le_cons : created h ≤ created (e :: h) := by
  cases e <;> simp [created]

end History

/-! ## The operations in a run -/

/-- The array operation of an instruction, with its operands on the stack before it
and its result on the stack after it. -/
def Instruction.event : Instruction → List Word → List Word → Option ArrayEvent
  | .newarray, count :: _, ref :: _ => some (.newarray count ref)
  | .arraylength, ref :: _, count :: _ => some (.arraylength ref count)
  | .iastore, value :: index :: ref :: _, _ => some (.iastore ref index value)
  | .iaload, index :: ref :: _, value :: _ => some (.iaload ref index value)
  | _, _, _ => none

/-- The array operation of the step from `s` to `t`. -/
def event (s t : State) : Option ArrayEvent :=
  (s.frame.method.code.code[s.frame.pc]?.bind decode).bind fun i =>
    i.event s.frame.stack t.frame.stack

/-- The runs of `execute` from a new heap, with their histories. -/
inductive Run (c : ClassFile) : History → State → Prop
  | start {s : State} : Starts c s → s.heap = [] → Run c [] s
  | turn {h : History} {s t : State} : Run c h s → Steps c s t →
      Run c ((event s t).toList ++ h) t

/-- What an operation does to the reference table. -/
def ArrayEvent.Acts (heap heap' : Heap) : ArrayEvent → Prop
  | newarray count ref => 0 ≤ count.toInt ∧
      (ref, heap') = heap.add (count :: List.replicate count.toNat 0)
  | arraylength ref count => heap' = heap ∧ ∃ cells, heap.get ref = .ok (count :: cells)
  | iastore ref index value => ∃ array i, heap.get ref = .ok array ∧ cell array index = .ok i ∧
      heap' = heap.set ref.toNat (array.set i value)
  | iaload ref index value => heap' = heap ∧ ∃ array i, heap.get ref = .ok array ∧
      cell array index = .ok i ∧ value = array.getD i 0

def ArrayEvent.isRead : ArrayEvent → Bool
  | arraylength _ _ | iaload _ _ _ => true
  | _ => false

/-- The instructions on arrays. -/
def Instruction.onArrays : Instruction → Bool
  | newarray | arraylength | iastore | iaload => true
  | _ => false

/-- The effect is not a new reference table. -/
def Effect.Keeps (heap : Heap) : Effect → Prop
  | .continue _ heap' _ => heap' = heap
  | _ => True

/-- The reference table after a step. -/
def Outcome.heap : Outcome → Heap
  | running s => s.heap
  | finished _ heap _ => heap

section Steps

variable {c : ClassFile} {fresh : (n : Nat) → Vector Word n} {s t : State} {f : Frame}
  {heap : Heap} {output : List Word} {i : Instruction} {effect : Effect}

/-- The other instructions leave the reference table alone. -/
theorem execute_keeps (hi : i.onArrays = false) :
    Safe (fun _ => True) (Effect.Keeps heap) (execute c fresh f heap output i) := by
  cases i with
  | newarray | arraylength | iastore | iaload => cases hi
  | ireturn | areturn | «return» | invokestatic =>
      simp only [execute]
      repeat (refine Safe.andThen ?_; intro _)
      exact Safe.ok trivial
  | _ =>
      -- whatever the operations of the frame give, the table goes into the effect unchanged
      simp only [execute]
      repeat (refine Safe.andThen ?_; intro _)
      exact Safe.ok rfl

/-- What is popped was on top, -/
theorem Frame.pop_ok {g : Frame} {item : Word} (h : f.pop = .ok (item, g)) :
    f.stack = item :: g.stack := by
  obtain ⟨method, locals, stack, pc⟩ := f
  obtain - | ⟨a, rest⟩ := stack
  · cases h
  · cases h
    rfl

/-- and what is pushed is. -/
theorem Frame.push_ok {g : Frame} {item : Word} (h : f.push item = .ok g) :
    g.stack = item :: f.stack := by
  rw [Frame.push] at h
  split at h
  · cases h
    rfl
  · cases h

/-- The instructions on arrays do what the history says of them. -/
theorem execute_acts (hi : i.onArrays = true) (h : execute c fresh f heap output i = .ok effect) :
    ∃ g heap' e, effect = .continue g heap' output ∧ i.event f.stack g.stack = some e ∧
      e.Acts heap heap' := by
  cases i with
  | newarray =>
      obtain ⟨b, -, h⟩ := bind_eq_ok h
      obtain ⟨⟨count, f1⟩, hpop, h⟩ := bind_eq_ok h
      by_cases hcount : 0 ≤ count.toInt ∧ count ≠ BitVec.intMax 32
      · simp only [if_pos hcount] at h
        obtain ⟨g, hpush, h⟩ := bind_eq_ok h
        obtain rfl := Except.ok.inj h
        refine ⟨_, _, .newarray count (BitVec.ofNat 32 heap.length), rfl, ?_, hcount.1, rfl⟩
        change Instruction.event _ f.stack g.stack = _
        rw [Frame.pop_ok hpop, Frame.push_ok hpush]
        rfl
      · simp only [if_neg hcount] at h
        cases h
  | arraylength =>
      obtain ⟨⟨ref, f1⟩, hpop, h⟩ := bind_eq_ok h
      obtain ⟨array, hget, h⟩ := bind_eq_ok h
      obtain - | ⟨count, cells⟩ := array
      · cases h
      · obtain ⟨g, hpush, h⟩ := bind_eq_ok h
        obtain rfl := Except.ok.inj h
        refine ⟨_, _, .arraylength ref count, rfl, ?_, rfl, cells, hget⟩
        change Instruction.event _ f.stack g.stack = _
        rw [Frame.pop_ok hpop, Frame.push_ok hpush]
        rfl
  | iastore =>
      obtain ⟨⟨value, f1⟩, hpop1, h⟩ := bind_eq_ok h
      obtain ⟨⟨index, f2⟩, hpop2, h⟩ := bind_eq_ok h
      obtain ⟨⟨ref, g⟩, hpop3, h⟩ := bind_eq_ok h
      obtain ⟨array, hget, h⟩ := bind_eq_ok h
      obtain ⟨k, hcell, h⟩ := bind_eq_ok h
      obtain rfl := Except.ok.inj h
      refine ⟨_, _, .iastore ref index value, rfl, ?_, array, k, hget, hcell, rfl⟩
      change Instruction.event _ f.stack g.stack = _
      rw [Frame.pop_ok hpop1, Frame.pop_ok hpop2, Frame.pop_ok hpop3]
      rfl
  | iaload =>
      obtain ⟨⟨index, f1⟩, hpop1, h⟩ := bind_eq_ok h
      obtain ⟨⟨ref, f2⟩, hpop2, h⟩ := bind_eq_ok h
      obtain ⟨array, hget, h⟩ := bind_eq_ok h
      obtain ⟨k, hcell, h⟩ := bind_eq_ok h
      obtain ⟨g, hpush, h⟩ := bind_eq_ok h
      obtain rfl := Except.ok.inj h
      refine ⟨_, _, .iaload ref index (array.getD k 0), rfl, ?_, rfl, array, k, hget, hcell, rfl⟩
      change Instruction.event _ f.stack g.stack = _
      rw [Frame.pop_ok hpop1, Frame.pop_ok hpop2, Frame.push_ok hpush]
      rfl
  | _ => cases hi

/-- Other instructions have no events. -/
theorem event_eq_none (hi : i.onArrays = false) (before after : List Word) :
    i.event before after = none := by
  cases i <;> first | rfl | cases hi

/-- An activation that returns leaves the reference table alone. -/
theorem returnValue_heap {value : Option Word} {o : Outcome} (h : returnValue value s = .ok o) :
    o.heap = s.heap := by
  obtain ⟨frame, callers, heap, output⟩ := s
  obtain - | ⟨caller, callers⟩ := callers
  · obtain rfl := Except.ok.inj h
    rfl
  · cases value with
    | none =>
        obtain rfl := Except.ok.inj h
        rfl
    | some v =>
        obtain ⟨f, -, h⟩ := bind_eq_ok h
        obtain rfl := Except.ok.inj h
        rfl

/-- A turn of the loop carries out an instruction, or the activation returns at the
end of its code. -/
theorem step_cases {o : Outcome} (h : step c fresh s = .ok o) :
    (s.frame.method.code.code.length ≤ s.frame.pc ∧ returnValue none s = .ok o) ∨
    ∃ i effect, s.frame.method.code.code[s.frame.pc]?.bind decode = some i ∧
      execute c fresh s.frame s.heap s.output i = .ok effect ∧
      match effect with
      | .continue frame heap output => o = .running ⟨frame, s.callers, heap, output⟩
      | .call caller callee => o = .running ⟨callee, caller :: s.callers, s.heap, s.output⟩
      | .return value => returnValue value s = .ok o := by
  rw [step] at h
  split at h
  · right
    obtain ⟨b, hb, h⟩ := bind_eq_ok h
    have hcode : s.frame.method.code.code[s.frame.pc]? = some b := by
      rw [Frame.byte] at hb
      grind
    cases hi : decode b with
    | none =>
        rw [hi] at h
        cases h
    | some i =>
        rw [hi] at h
        obtain ⟨effect, heff, h⟩ := bind_eq_ok h
        refine ⟨i, effect, by rw [hcode, Option.bind_some, hi], heff, ?_⟩
        cases effect with
        | «continue» | call => exact (Except.ok.inj h).symm
        | «return» => exact h
  · exact .inl ⟨by omega, h⟩

/-- A step either has no array operation and leaves the reference table alone, or
does to it what its operation does. -/
theorem Steps.acts (h : Steps c s t) :
    (event s t = none ∧ t.heap = s.heap) ∨ ∃ e, event s t = some e ∧ e.Acts s.heap t.heap := by
  obtain ⟨fresh, h⟩ := h
  rcases step_cases h with ⟨hend, hreturn⟩ | ⟨i, effect, hi, heff, ht⟩
  · refine .inl ⟨?_, returnValue_heap hreturn⟩
    rw [event, List.getElem?_eq_none hend]
    rfl
  · rw [event, hi]
    cases hon : i.onArrays with
    | false =>
        refine .inl ⟨event_eq_none hon _ _, ?_⟩
        have hkeeps : Safe (fun _ => True) (Effect.Keeps s.heap)
            (execute c fresh s.frame s.heap s.output i) := execute_keeps hon
        rw [heff] at hkeeps
        cases effect with
        | «continue» frame heap output =>
            obtain rfl := Outcome.running.inj ht
            exact hkeeps
        | call caller callee =>
            obtain rfl := Outcome.running.inj ht
            rfl
        | «return» value => exact returnValue_heap ht
    | true =>
        obtain ⟨g, heap, e, rfl, hevent, hacts⟩ := execute_acts hon heff
        obtain rfl := Outcome.running.inj ht
        exact .inr ⟨e, hevent, hacts⟩

/-- The end of the run leaves the reference table alone. -/
theorem finished_heap {value : Option Word} {heap' : Heap} {output' : List Word}
    (h : step c fresh s = .ok (.finished value heap' output')) : heap' = s.heap := by
  rcases step_cases h with ⟨-, hreturn⟩ | ⟨i, effect, -, -, ho⟩
  · exact returnValue_heap hreturn
  · cases effect with
    | «continue» | call => cases ho
    | «return» value => exact returnValue_heap ho

end Steps

/-! ## The invariant -/

/-- The reference table represents a history: there is one array for each reference
that was returned, with its count in front and behind it the values of the last
stores. -/
structure Represents (h : History) (heap : Heap) : Prop where
  length : heap.length = h.created
  named : ∀ k < heap.length, ∃ count, .newarray count (BitVec.ofNat 32 k) ∈ h
  array : ∀ count ref, .newarray count ref ∈ h → 0 ≤ ref.toInt ∧ ∃ cells,
    heap[ref.toNat]? = some (count :: cells) ∧ cells.length = count.toNat ∧
    ∀ index : Word, index.toNat < count.toNat →
      cells[index.toNat]? = some (h.lastStore ref index)
  stored : ∀ ref index value, .iastore ref index value ∈ h → ref.toNat < heap.length

namespace Represents

variable {h : History} {heap heap' : Heap} {ref count index value : Word} {array : List Word}
  {k : Nat}

/-- The empty heap stands for no events. -/
theorem nil : Represents [] [] := by
  refine ⟨rfl, ?_, ?_, ?_⟩
  · intro k hk
    cases hk
  · intro count ref hmem
    cases hmem
  · intro ref index value hmem
    cases hmem

/-- A reference that is followed is the number of an array. -/
theorem get_ok (hget : heap.get ref = .ok array) :
    0 ≤ ref.toInt ∧ heap[ref.toNat]? = some array := by
  rw [Heap.get] at hget
  grind

/-- What `heap_get` finds. -/
theorem find (hh : Represents h heap) (hget : heap.get ref = .ok array) :
    ∃ count cells, .newarray count ref ∈ h ∧ heap[ref.toNat]? = some array ∧
      array = count :: cells ∧ cells.length = count.toNat ∧
      ∀ index : Word, index.toNat < count.toNat →
        cells[index.toNat]? = some (h.lastStore ref index) := by
  obtain ⟨-, hat⟩ := get_ok hget
  obtain ⟨hlt, -⟩ := List.getElem?_eq_some_iff.mp hat
  obtain ⟨count, hmem⟩ := hh.named ref.toNat hlt
  rw [BitVec.ofNat_toNat, BitVec.setWidth_eq] at hmem
  obtain ⟨-, cells, hcells, hlength, hstores⟩ := hh.array count ref hmem
  exact ⟨count, cells, hmem, hat, Option.some.inj (hat.symm.trans hcells), hlength, hstores⟩

/-- An index within the length is the cell one further. -/
theorem cell_ok (hindex : 0 ≤ index.toInt ∧ index.toInt < count.toInt)
    (hcell : cell array index = .ok k) : k = index.toNat + 1 ∧ index.toNat < count.toNat := by
  have hi := index.isLt
  have hc := count.isLt
  rw [cell] at hcell
  rw [BitVec.toInt_eq_toNat_cond, BitVec.toInt_eq_toNat_cond] at hindex
  split at hcell
  · obtain rfl := Except.ok.inj hcell
    rw [BitVec.toNat_add]
    change (index.toNat + 1) % 2 ^ 32 = _ ∧ _
    grind
  · cases hcell

/-- Operations that only read. -/
theorem reads {e : ArrayEvent} (hh : Represents h heap) (he : e.isRead = true) :
    Represents (e :: h) heap := by
  cases e with
  | newarray | iastore => cases he
  | arraylength | iaload =>
      refine ⟨hh.length, ?_, ?_, ?_⟩
      · intro k hk
        obtain ⟨n, hmem⟩ := hh.named k hk
        exact ⟨n, List.mem_cons_of_mem _ hmem⟩
      · intro n r hmem
        exact hh.array n r ((List.mem_cons.mp hmem).resolve_left (by simp))
      · intro r i v hmem
        exact hh.stored r i v ((List.mem_cons.mp hmem).resolve_left (by simp))

/-- A creation returns the next reference and leaves the other arrays where they are. -/
theorem newarray (hh : Represents h heap) (hcreated : h.created + 1 < 2 ^ 31)
    (hacts : (ArrayEvent.newarray count ref).Acts heap heap') :
    (ArrayEvent.newarray count ref).Obeys h ∧ Represents (.newarray count ref :: h) heap' := by
  obtain ⟨hcount, hadd⟩ := hacts
  obtain ⟨rfl, rfl⟩ := Prod.mk.inj hadd
  have hlength := hh.length
  have href : (BitVec.ofNat 32 heap.length).toNat = heap.length :=
    (BitVec.toNat_ofNat _ _).trans (Nat.mod_eq_of_lt (by omega))
  have hnonneg : 0 ≤ (BitVec.ofNat 32 heap.length).toInt := by
    rw [BitVec.toInt_eq_toNat_cond, href]
    grind
  have hold : ∀ n r, .newarray n r ∈ h → r.toNat < heap.length := by
    intro n r hmem
    obtain ⟨-, cells, hcells, -⟩ := hh.array n r hmem
    exact (List.getElem?_eq_some_iff.mp hcells).1
  refine ⟨?_, ?_, ?_, ?_, ?_⟩
  · intro n hmem
    have := hold n _ hmem
    omega
  · rw [List.length_append, List.length_singleton, hlength]
    rfl
  · intro k hk
    rw [List.length_append, List.length_singleton] at hk
    rcases Nat.lt_succ_iff_lt_or_eq.mp hk with hk | rfl
    · obtain ⟨n, hmem⟩ := hh.named k hk
      exact ⟨n, List.mem_cons_of_mem _ hmem⟩
    · exact ⟨count, List.mem_cons_self⟩
  · intro n r hmem
    rcases List.mem_cons.mp hmem with heq | hmem
    · obtain ⟨rfl, rfl⟩ := ArrayEvent.newarray.inj heq
      refine ⟨hnonneg, List.replicate n.toNat 0, ?_, List.length_replicate, ?_⟩
      · rw [href, List.getElem?_concat_length]
      · intro index hindex
        rw [List.getElem?_replicate, if_pos hindex]
        refine congrArg some (History.lastStore_eq_zero ?_).symm
        intro index' value hmem
        rcases List.mem_cons.mp hmem with heq | hmem
        · cases heq
        · have := hh.stored _ _ _ hmem
          omega
    · obtain ⟨hr, cells, hcells, hrest⟩ := hh.array n r hmem
      refine ⟨hr, cells, ?_, hrest⟩
      rw [List.getElem?_append_left (hold n r hmem), hcells]
  · intro r index value hmem
    rcases List.mem_cons.mp hmem with heq | hmem
    · cases heq
    · rw [List.length_append, List.length_singleton]
      exact Nat.lt_succ_of_lt (hh.stored r index value hmem)

/-- `arraylength` returns the count of the creation. -/
theorem arraylength (hh : Represents h heap)
    (hacts : (ArrayEvent.arraylength ref count).Acts heap heap') :
    (ArrayEvent.arraylength ref count).Obeys h ∧
      Represents (.arraylength ref count :: h) heap' := by
  obtain ⟨rfl, cells, hget⟩ := hacts
  obtain ⟨n, cells', hmem, -, heq, -⟩ := hh.find hget
  obtain ⟨rfl, -⟩ := List.cons.inj heq
  exact ⟨hmem, hh.reads rfl⟩

/-- A load returns the value of the last store. -/
theorem iaload (hh : Represents h heap) (hin : (ArrayEvent.iaload ref index value).InBounds h)
    (hacts : (ArrayEvent.iaload ref index value).Acts heap heap') :
    (ArrayEvent.iaload ref index value).Obeys h ∧
      Represents (.iaload ref index value :: h) heap' := by
  obtain ⟨rfl, array, k, hget, hcell, rfl⟩ := hacts
  obtain ⟨n, cells, hmem, -, rfl, -, hstores⟩ := hh.find hget
  obtain ⟨rfl, hindex⟩ := cell_ok (hin n hmem) hcell
  refine ⟨⟨⟨n, hmem⟩, ?_⟩, hh.reads rfl⟩
  rw [List.getD_cons_succ, List.getD_eq_getElem?_getD, hstores index hindex, Option.getD_some]

/-- A store changes its own place only. -/
theorem iastore (hh : Represents h heap) (hin : (ArrayEvent.iastore ref index value).InBounds h)
    (hacts : (ArrayEvent.iastore ref index value).Acts heap heap') :
    (ArrayEvent.iastore ref index value).Obeys h ∧
      Represents (.iastore ref index value :: h) heap' := by
  obtain ⟨array, k, hget, hcell, rfl⟩ := hacts
  obtain ⟨n, cells, hmem, hat, rfl, hlength, hstores⟩ := hh.find hget
  obtain ⟨rfl, hindex⟩ := cell_ok (hin n hmem) hcell
  obtain ⟨hlt, -⟩ := List.getElem?_eq_some_iff.mp hat
  refine ⟨⟨n, hmem⟩, ?_, ?_, ?_, ?_⟩
  · rw [List.length_set]
    exact hh.length
  · intro j hj
    rw [List.length_set] at hj
    obtain ⟨m, hm⟩ := hh.named j hj
    exact ⟨m, List.mem_cons_of_mem _ hm⟩
  · intro m r hm
    have hm : .newarray m r ∈ h := (List.mem_cons.mp hm).resolve_left (by simp)
    obtain ⟨hr, cells', hcells', hlength', hstores'⟩ := hh.array m r hm
    refine ⟨hr, ?_⟩
    by_cases hsame : r = ref
    · subst hsame
      obtain ⟨rfl, rfl⟩ := List.cons.inj (Option.some.inj (hat.symm.trans hcells'))
      refine ⟨cells.set index.toNat value, ?_, ?_, ?_⟩
      · rw [List.getElem?_set_self hlt, List.set_cons_succ]
      · rw [List.length_set, hlength]
      · intro j hj
        rw [History.lastStore]
        by_cases hj' : index = j
        · subst hj'
          rw [if_pos ⟨rfl, rfl⟩, List.getElem?_set_self (by omega)]
        · have hne : index.toNat ≠ j.toNat := fun heq => hj' (BitVec.eq_of_toNat_eq heq)
          rw [if_neg (fun heq => hj' heq.2), List.getElem?_set_ne hne, hstores' j hj]
    · have hne : ref.toNat ≠ r.toNat := fun heq => hsame (BitVec.eq_of_toNat_eq heq.symm)
      refine ⟨cells', ?_, hlength', ?_⟩
      · rw [List.getElem?_set_ne hne, hcells']
      · intro j hj
        rw [hstores' j hj, History.lastStore, if_neg (fun heq => hsame heq.1.symm)]
  · intro r j v hm
    rw [List.length_set]
    rcases List.mem_cons.mp hm with heq | hm
    · obtain ⟨rfl, -, -⟩ := ArrayEvent.iastore.inj heq
      exact hlt
    · exact hh.stored r j v hm

/-- The step lemma: whatever the operation, it returns what it may, and the table
represents the longer history. -/
theorem acts {e : ArrayEvent} (hh : Represents h heap) (hin : e.InBounds h)
    (hcreated : History.created (e :: h) < 2 ^ 31) (hacts : e.Acts heap heap') :
    e.Obeys h ∧ Represents (e :: h) heap' := by
  cases e with
  | newarray count ref => exact hh.newarray hcreated hacts
  | arraylength ref count => exact hh.arraylength hacts
  | iastore ref index value => exact hh.iastore hin hacts
  | iaload ref index value => exact hh.iaload hin hacts

end Represents

section Runs

variable {c : ClassFile} {h : History} {s : State}

/-- The run lemma: the reference table represents the history. -/
theorem Run.represents (hrun : Run c h s) (hin : h.InBounds) (hcreated : h.created < 2 ^ 31) :
    h.Lawful ∧ Represents h s.heap := by
  induction hrun with
  | start _ hheap =>
      rw [hheap]
      exact ⟨History.Lawful.nil, Represents.nil⟩
  | @turn h s t hrun hstep ih =>
      rcases hstep.acts with ⟨hevent, hheap⟩ | ⟨e, hevent, hacts⟩
      · rw [hevent] at hin hcreated ⊢
        rw [hheap]
        exact ih hin hcreated
      · rw [hevent] at hin hcreated ⊢
        have hin : History.InBounds (e :: h) := hin
        have hcreated : History.created (e :: h) < 2 ^ 31 := hcreated
        obtain ⟨hlawful, hrepresents⟩ :=
          ih hin.tail (lt_of_le_of_lt History.created_le_cons hcreated)
        obtain ⟨hobeys, hnext⟩ := hrepresents.acts hin.head hcreated hacts
        exact ⟨hlawful.cons hobeys, hnext⟩

/-- **Arrays.** In a run of `execute` from a new heap, at any depth of calls, with every
load and store in bounds and fewer than 2^31 arrays: every operation in the history
returns what the ones before it let it return, and every reference that was returned
still leads to an array of its count, also in the table that the run ends with. -/
theorem Run.arrays (hrun : Run c h s) (hin : h.InBounds) (hcreated : h.created < 2 ^ 31) :
    h.Lawful ∧
    (∀ count ref, .newarray count ref ∈ h →
      ∃ cells, s.heap.get ref = .ok (count :: cells) ∧ cells.length = count.toNat) ∧
    ∀ fresh value heap output, step c fresh s = .ok (.finished value heap output) →
      heap = s.heap := by
  obtain ⟨hlawful, hrepresents⟩ := hrun.represents hin hcreated
  refine ⟨hlawful, ?_, ?_⟩
  · intro count ref hmem
    obtain ⟨href, cells, hcells, hlength, -⟩ := hrepresents.array count ref hmem
    refine ⟨cells, ?_, hlength⟩
    rw [Heap.get, if_pos href, hcells]
  · intro fresh value heap output hstep
    exact finished_heap hstep

end Runs

/-- `iconst_1; newarray int; iconst_0; iaload; ireturn` -/
def newAndLoad : Method := ⟨[109], [40, 41, 73], ⟨2, 0, [0x04, 0xbc, 0x0a, 0x03, 0x2e, 0xac]⟩⟩

/-- An array with one element, which is loaded. -/
theorem newAndLoad_arrays :
    ∃ s : State, s.frame.stack = [0] ∧
      History.Lawful [.iaload 0 0 0, .newarray 1 0] ∧
      (∀ count ref, .newarray count ref ∈ ([.iaload 0 0 0, .newarray 1 0] : History) →
        ∃ cells, s.heap.get ref = .ok (count :: cells) ∧ cells.length = count.toNat) ∧
      ∀ fresh value heap output, step ⟨[], [newAndLoad]⟩ fresh s =
        .ok (.finished value heap output) → heap = s.heap := by
  have h0 : Run ⟨[], [newAndLoad]⟩ [] ⟨⟨newAndLoad, #v[], [], 0⟩, [], [], []⟩ :=
    .start ⟨List.mem_singleton.mpr rfl, rfl, rfl, rfl⟩ rfl
  have h1 : Run ⟨[], [newAndLoad]⟩ [] ⟨⟨newAndLoad, #v[], [1], 1⟩, [], [], []⟩ :=
    h0.turn ⟨fun n => Vector.replicate n 0, rfl⟩
  have h2 : Run ⟨[], [newAndLoad]⟩ [.newarray 1 0]
      ⟨⟨newAndLoad, #v[], [0], 3⟩, [], [[1, 0]], []⟩ :=
    h1.turn ⟨fun n => Vector.replicate n 0, rfl⟩
  have h3 : Run ⟨[], [newAndLoad]⟩ [.newarray 1 0]
      ⟨⟨newAndLoad, #v[], [0, 0], 4⟩, [], [[1, 0]], []⟩ :=
    h2.turn ⟨fun n => Vector.replicate n 0, rfl⟩
  have h4 : Run ⟨[], [newAndLoad]⟩ [.iaload 0 0 0, .newarray 1 0]
      ⟨⟨newAndLoad, #v[], [0], 5⟩, [], [[1, 0]], []⟩ :=
    h3.turn ⟨fun n => Vector.replicate n 0, rfl⟩
  have hin : History.InBounds [.iaload 0 0 0, .newarray 1 0] := by
    intro e past hsuffix
    rcases List.suffix_cons_iff.mp hsuffix with heq | hsuffix
    · obtain ⟨rfl, rfl⟩ := List.cons.inj heq
      intro count hmem
      obtain ⟨rfl, -⟩ := ArrayEvent.newarray.inj (List.mem_singleton.mp hmem)
      decide
    · rcases List.suffix_cons_iff.mp hsuffix with heq | hsuffix
      · obtain ⟨rfl, rfl⟩ := List.cons.inj heq
        trivial
      · cases List.suffix_nil.mp hsuffix
  exact ⟨_, rfl, Run.arrays h4 hin (by decide)⟩

end JVM
