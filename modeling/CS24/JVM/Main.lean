import CS24.JVM.ClassFormat
import CS24.JVM.JavaSimulation

/-!
# The virtual machine

`main` of `jvm.c`: the class is read from its file, and `execute` runs its method `main` on locals
that are zero.  For the bytes of a class, the program prints what the machine of the instruction set
prints, whatever `malloc` leaves in the locals of the methods that are called.

A run is cut off after a number of turns of the loop.
-/

namespace JVM

open Cursor

/-- `"main"` -/
def MAIN_METHOD : CString := [109, 97, 105, 110]

/-- `"([Ljava/lang/String;)V"` -/
def MAIN_DESCRIPTOR : CString :=
  [40, 91, 76, 106, 97, 118, 97, 47, 108, 97, 110, 103, 47, 83, 116, 114, 105, 110, 103, 59, 41, 86]

/-- The turns of the loops of `execute`, at most as many as the number says: what the outermost
activation returns, and what was printed. -/
def run (c : ClassFile) (fresh : Nat → (n : Nat) → Vector Word n) :
    Nat → State → Option (Except Fault (Option Word × List Word))
  | 0, _ => none
  | turns + 1, s =>
    match step c (fresh turns) s with
    | .ok (.running t) => run c fresh turns t
    | .ok (.finished value _ output) => some (.ok (value, output))
    | .error fault => some (.error fault)

/-- The class has one `main`. -/
structure Java.IsMain (c : ClassFile) (m : Method) : Prop where
  declared : m ∈ c.methods
  name : m.name = MAIN_METHOD
  descriptor : m.descriptor = MAIN_DESCRIPTOR
  unique : ∀ m' ∈ c.methods, m'.name = MAIN_METHOD → m'.descriptor = MAIN_DESCRIPTOR → m' = m

/-- The machine at the start of `main`.  There are no strings, so its argument has no value. -/
def Java.start (m : Method) : Java.Machine :=
  ⟨⟨m, List.replicate m.code.maxLocals none, [], 0⟩, [], [], []⟩

/-- Steps of the machine, each on what the interpreter shares with the instruction set. -/
inductive Java.Runs (c : ClassFile) : Nat → Java.Machine → Java.Machine → Prop
  | refl {s : Java.Machine} : Runs c 0 s s
  | head {n : Nat} {s s' s'' : Java.Machine} : Portable s → Java.Step c s s' → Runs c n s' s'' →
      Runs c (n + 1) s s''

section Runs

variable {c : ClassFile} {fresh : Nat → (n : Nat) → Vector Word n} {s s' : Java.Machine} {t : State}
  {m : Method} {n turns : Nat} {value : Option Java.Value}

theorem StateRel.start (hm : m ∈ c.methods) :
    StateRel c (Java.start m) ⟨⟨m, Vector.replicate _ 0, [], 0⟩, [], [], []⟩ := by
  refine ⟨⟨hm, rfl, rfl, rfl, List.length_replicate, ?_⟩, .nil, ⟨rfl, Nat.zero_le _, ?_⟩, rfl⟩
  · intro i v hv
    rw [Java.start, Java.Activation.load] at hv
    dsimp only at hv
    rw [List.getElem?_replicate] at hv
    split_ifs at hv <;> cases hv
  · intro array harray
    cases harray

variable (fresh) in
/-- While the machine runs, so does the interpreter.  By induction on the run. -/
theorem StateRel.runs (hfits : ClassFits c) (h : StateRel c s t) (hrun : Java.Runs c n s s')
    (hturns : turns ≤ n) : run c fresh turns t = none := by
  induction hrun generalizing t turns with
  | refl =>
      obtain rfl : turns = 0 := by omega
      rfl
  | @head n s s₁ s₂ hport hstep _ ih =>
      cases turns with
      | zero => rfl
      | succ turns =>
          obtain ⟨t₁, hnext, hrel⟩ := h.step (fresh turns) hfits hport hstep
          rw [run, hnext]
          exact ih hrel (by omega)

end Runs

/-! ## From the file to the output -/

section File

variable {malloc : Nat → Bool} {c : ClassData} {methods : List Method} {m : Method}
  {fresh : Nat → (n : Nat) → Vector Word n}

theorem Java.IsMain.find {c : ClassFile} (h : IsMain c m) :
    findMethod MAIN_METHOD MAIN_DESCRIPTOR c = some m := by
  rw [findMethod]
  cases hfind : c.methods.find? fun m' => m'.name = MAIN_METHOD ∧ m'.descriptor = MAIN_DESCRIPTOR with
  | none =>
      exact absurd (decide_eq_true (And.intro h.name h.descriptor))
        (List.find?_eq_none.mp hfind m h.declared)
  | some m' =>
      have hsame : m'.name = MAIN_METHOD ∧ m'.descriptor = MAIN_DESCRIPTOR := by
        simpa using List.find?_some hfind
      rw [h.unique m' (List.mem_of_find?_eq_some hfind) hsame.1 hsame.2]

end File

end JVM
