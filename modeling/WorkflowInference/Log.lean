import WorkflowInference.StepName

/-!
Computations that print, warn and leave files. What was printed or written before a failure stays.
-/
namespace WorkflowInference

structure Transcript where
  printed : List String := []
  written : List (String × String) := []
  warned : List String := []

abbrev Logged := ExceptT Failure (StateM Transcript)

namespace Logged

def print (line : String) : Logged Unit :=
  modify fun t => { t with printed := (line ++ "\n") :: t.printed }

def printIf (b : Bool) (line : String) : Logged Unit := if b then print line else pure ()

def write (path text : String) : Logged Unit :=
  modify fun t => { t with written := (path, text) :: t.written }

def warn (text : String) : Logged Unit :=
  modify fun t => { t with warned := text :: t.warned }

def lift {α : Type} (r : Result α) : Logged α :=
  match r with
  | .ok a => pure a
  | .error e => throw e

instance : MonadLift Result Logged := ⟨lift⟩

def outcome {α : Type} (x : Logged α) (t : Transcript) : Result α × Transcript :=
  (ExceptT.run x).run t

end Logged

def Transcript.text (t : Transcript) : String := String.join t.printed.reverse

end WorkflowInference
