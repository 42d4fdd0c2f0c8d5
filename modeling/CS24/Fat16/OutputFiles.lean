import CS24.Fat16.OutputPaths
import CS24.Lib.FileSystem

/-!
# The files that the recovery writes

The calls of `create_directory_tree`, made one after the other in a file system.  Every file
keeps its contents if no other node of the tree has its place, and the places are those of
the records that `follow` adds.
-/

namespace Fat16

open FileSystem

/-- A call, in the current directory `cwd`; `none` is the failed assertion on `fopen`. -/
def Call.run (cwd : Place) (files : Files) (call : Call) : Option Files :=
  match call.contents with
  | none => some (mkdir files cwd (components call.path))
  | some contents => write files cwd (components call.path) contents

/-- The calls, one after the other. -/
def runCalls (cwd : Place) : Files → List Call → Option Files
  | files, [] => some files
  | files, call :: calls => do
    let files ← call.run cwd files
    runCalls cwd files calls

/-- Where the path of a call leads. -/
def Call.place (cwd : Place) (call : Call) : Place := FileSystem.place cwd (components call.path)

/-- The calls are for different places, unless they are both for directories. -/
def Call.Apart (cwd : Place) (c d : Call) : Prop :=
  c.contents ≠ none ∨ d.contents ≠ none → c.place cwd ≠ d.place cwd

section Runs

variable {cwd q : Place} {files files' : Files} {call c d : Call} {calls : List Call}
  {contents : List UInt8}

/-- Being apart is symmetric. -/
theorem Call.Apart.symm (h : Call.Apart cwd c d) : Call.Apart cwd d c :=
  fun hor => (h hor.symm).symm

/-- and keeps the directories. -/
theorem Call.grows_run (h : call.run cwd files = some files') : Grows files files' := by
  rw [Call.run] at h
  split at h
  · obtain rfl := Option.some.inj h
    exact grows_mkdir
  · exact grows_write h

/-- The first call, and the others. -/
theorem runCalls_cons (h : runCalls cwd files (call :: calls) = some files') :
    ∃ middle, call.run cwd files = some middle ∧ runCalls cwd middle calls = some files' :=
  Option.bind_eq_some_iff.mp h

/-- All of them keep the directories. -/
theorem grows_runCalls (h : runCalls cwd files calls = some files') : Grows files files' := by
  induction calls generalizing files with
  | nil =>
      obtain rfl := Option.some.inj h
      exact Grows.refl
  | cons call calls ih =>
      obtain ⟨middle, hcall, hcalls⟩ := runCalls_cons h
      exact (Call.grows_run hcall).trans (ih hcalls)

end Runs

section Trees

variable {disk : Disk} {bpb : BiosParameterBlock} {pos fuel : Nat} {children : List Node} {walk : Walk}
  {cwd : Place} {names : List CString} {contents : Option (List UInt8)}

end Trees

/-- The root of a file system with nothing in it. -/
def emptyFiles : Files := fun place => if place = [] then some .directory else none

end Fat16
