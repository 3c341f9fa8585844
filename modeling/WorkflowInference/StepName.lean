import WorkflowInference.Failure

/-!
Names of steps. A step is named by the workflow it stands in, its place and its key; the parts are
joined by double underscores, so a name can be taken apart again when neither the workflow nor the
key holds a double underscore. Names inside names are joined by triple underscores.
A mapping takes the name of a slot of a workflow to the names it stands for inside; following it to
its end gives the slots of tools.
-/
namespace WorkflowInference

abbrev Namespaces := List String

structure StepName where
  stem : String
  index : Int
  key : String
  deriving DecidableEq, Repr

namespace StepName

def text (s : StepName) : String := s.stem ++ "__step__" ++ toString (s.index + 1) ++ "__" ++ s.key

inductive Error where
  | parts (name : String)
  | number (name : String)
  deriving DecidableEq, Repr

namespace Error

def pattern : String := "\x7byaml_stem\x7d__step__\x7bi+1\x7d__\x7bstep_key\x7d"

def message : Error → String
  | parts n =>
    "Error! " ++ n ++ " is not of the format \n" ++ pattern ++
      "\nyaml_stem and step_key should not contain any double underscores."
  | number n => "Error! " ++ n ++ " is not of the format \n" ++ pattern

def failure (e : Error) : Failure := .stated .general e.message

end Error

def parse (s : String) : Except Error StepName :=
  match Text.splitOn "__" s with
  | [stem, _, n, key] =>
    match Text.int? n with
    | some i => .ok ⟨stem, i - 1, key⟩
    | none => .error (.number s)
  | _ => .error (.parts s)

def read (s : String) : Result StepName := (parse s).mapError Error.failure

end StepName

def stepName (stem : String) (i : Int) (key : String) : String := StepName.text ⟨stem, i, key⟩

namespace Namespaces

def sep : String := "___"

def join (ns : Namespaces) : String := Text.join sep ns

def split (s : String) : Namespaces := Text.splitOn sep s

def splitLast (s : String) : Namespaces × String :=
  let parts := split s
  (parts.dropLast, parts.getLastD "")

def partition : Namespaces → Namespaces → Namespaces × Namespaces
  | a :: as, b :: bs =>
    if a = b then
      let (heads, tails) := partition as bs
      (a :: heads, tails)
    else ([], a :: as)
  | as, _ => ([], as)

def shorten (sep name : String) : Result (String × String) := do
  let (ns, out) := splitLast name
  match ns with
  | [] => return ("", out)
  | n :: _ =>
    let stem := (← StepName.read n).stem
    let steps ← ns.mapM fun n => do
      let s ← StepName.read n
      return "step" ++ sep ++ toString (s.index + 1) ++ sep ++ s.key
    return (stem, join (steps ++ [out]))

end Namespaces

end WorkflowInference

namespace WorkflowInference.Workflow

/-- An input may also be a value that is no name; it is then the end of no other one. -/
abbrev InputMapping := List (Doc × List String)

def InputMapping.get? (m : InputMapping) (k : Doc) : Option (List String) :=
  match m with
  | [] => none
  | (l, v) :: m => if l == k then some v else InputMapping.get? m k

def InputMapping.put (m : InputMapping) (k : Doc) (v : List String) : InputMapping :=
  match m with
  | [] => [(k, v)]
  | (l, w) :: m => if l == k then (l, v) :: m else (l, w) :: InputMapping.put m k v

def InputMapping.add (m : InputMapping) (k : Doc) (name : String) : InputMapping :=
  InputMapping.put m k ((InputMapping.get? m k).getD [] ++ [name])

abbrev OutputMapping := List (String × String)

def reroot (name : String) (inner : String) : String :=
  Namespaces.join ((Namespaces.splitLast name).1 ++ [inner])

/-- The slots at the ends of the mapping. A way through it that ends meets no name twice, so one
that is longer than there are names goes on for ever. -/
def innermost (m : InputMapping) : Nat → String → Result (List String)
  | 0, _ => .error .endless
  | n + 1, name =>
    match InputMapping.get? m (.str name) with
    | some inner => do return (← inner.mapM fun s => innermost m n (reroot name s)).flatten
    | none => return [name]

def InputMapping.ends (m : InputMapping) (names : List String) : Result (List String) := do
  return (← names.mapM (innermost m (m.length + 1))).flatten

def origin (m : OutputMapping) : Nat → String → Result String
  | 0, _ => .error .endless
  | n + 1, name =>
    match m.lookup name with
    | some inner => origin m n (reroot name inner)
    | none => return name

def OutputMapping.source (m : OutputMapping) (name : String) : Result String :=
  origin m (m.length + 1) name

end WorkflowInference.Workflow
