import WorkflowInference.Path
import WorkflowInference.Workflow.Canonical

/-!
The tools that are known, by stem and name space, and their listings; and whether a document is a
tool that a runner would load: it states its version and class, and its parameters have known types.
-/
namespace WorkflowInference

structure StepId where
  stem : String
  space : String
  deriving DecidableEq, Repr

structure Tool where
  runPath : String
  cwl : Doc

def globalSpace : String := "global"

abbrev Registry := List (StepId × Tool)

namespace Registry

def get? (r : Registry) (id : StepId) : Option Tool :=
  match r with
  | [] => none
  | (k, t) :: r => if k = id then some t else get? r id

def has (r : Registry) (id : StepId) : Bool := (get? r id).isSome

def enter (r : Registry) (id : StepId) (t : Tool) : Registry :=
  match r with
  | [] => [(id, t)]
  | (k, u) :: r => if k = id then (k, t) :: r else (k, u) :: enter r id t

def entryOf (d : Doc) : Result (StepId × Tool) := do
  let es := d.fields
  let text (k dflt : String) : String := ((Entries.get? es k).bind Doc.str?).getD dflt
  let stem := text "stem" ""
  let cwl ← Workflow.canonical (Entries.getD es "cwl" .null)
  return (⟨stem, text "ns" globalSpace⟩, ⟨text "run_path" ("/tools/" ++ stem ++ ".cwl"), cwl⟩)

def ofDocs (ts : List Doc) : Result Registry :=
  ts.foldlM (fun r t => do
    let (id, tool) ← entryOf t
    return enter r id tool) []

end Registry

end WorkflowInference

namespace WorkflowInference.Registry

def versions : List String := ["v1.0", "v1.1", "v1.2"]

def classes : List String := ["CommandLineTool", "ExpressionTool", "Workflow", "Operation"]

def typeNames : List String :=
  ["null", "boolean", "int", "long", "float", "double", "string", "File", "Directory", "Any",
    "stdin", "stdout", "stderr"]

def isTypeName (s : String) : Bool :=
  let base (s mark : String) : String :=
    if Text.endsWith s mark then Text.dropEnd s mark.length else s
  typeNames.contains (base (base s "?") "[]")

mutual

def isType : Doc → Bool
  | .str s => isTypeName s
  | .list ts => areTypes ts
  | .map es => isTypeMap es
  | _ => false

def areTypes : List Doc → Bool
  | [] => true
  | t :: ts => isType t && areTypes ts

def isTypeMap : List (Doc × Doc) → Bool
  | [] => true
  | (k, v) :: es =>
    (match k with
      | .str "items" => isType v
      | .str "fields" => areFields v
      | .str "type" => v == .str "array" || v == .str "record" || v == .str "enum"
      | _ => true) && isTypeMap es

def areFields : Doc → Bool
  | .map es => areFieldEntries es
  | .list xs => areFieldItems xs
  | _ => false

def areFieldEntries : List (Doc × Doc) → Bool
  | [] => true
  | (_, v) :: es => (isField v || isType v) && areFieldEntries es

def areFieldItems : List Doc → Bool
  | [] => true
  | x :: xs => isField x && areFieldItems xs

def isField : Doc → Bool
  | .map es => hasType es
  | _ => false

def hasType : List (Doc × Doc) → Bool
  | [] => false
  | (k, v) :: es => if k == .str "type" then isType v else hasType es

end

def areParams : Doc → Bool
  | .map es => es.all fun e => isField e.2 || isType e.2
  | .list xs => xs.all isField
  | _ => false

def isLoadable (tool : Doc) : Bool :=
  match tool with
  | .map es =>
    let isOneOf (k : String) (xs : List String) : Bool :=
      ((Entries.get? es k).bind Doc.str?).any xs.contains
    isOneOf "cwlVersion" versions && isOneOf "class" classes &&
      ["inputs", "outputs"].all fun k => (Entries.get? es k).any areParams
  | _ => false

def check (tool : Doc) : Result Unit :=
  if isLoadable tool then .ok () else .error (.unstated "ValidationException")

end WorkflowInference.Registry
