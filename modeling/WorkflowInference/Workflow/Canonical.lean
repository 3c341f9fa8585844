import WorkflowInference.Workflow.Step

/-!
The canonical form of workflows and tools: inputs and outputs are maps from names to maps, steps
are a list of maps with an identifier each.
-/
namespace WorkflowInference.Workflow

open Entries

inductive FormError where
  | stepsItems
  | stepsKeys
  | stepsValues
  | stepsDictValues
  | inputsValues
  | inputsItems
  | outputsValues
  | outputsItems
  deriving DecidableEq, Repr

def FormError.message : FormError → String
  | stepsItems => "Error! If steps: tag is a List then all its elements should be Dictionaries!"
  | stepsKeys =>
    "Error! If steps: tag is a Dictionary then all its keys should be non-empty strings!"
  | stepsValues =>
    "Error! If steps: tag is a Dictionary then all its values should be Dictionaries!"
  | stepsDictValues =>
    "Error! If steps: tag is a dictionary then all its values should be dictionaries!"
  | inputsValues =>
    "Error! If inputs: tag is a dictionary, then all its values should be either strings " ++
      "(representing types) or dictionaries."
  | inputsItems => "Error! If inputs: tag is a list then all its elements should be dictionaries!"
  | outputsValues =>
    "Error! outputs: tag should be a dictionary whose values are either strings " ++
      "(representing output files) or dictionaries."
  | outputsItems => "Error! If outputs: tag is a list then all its elements should be dictionaries!"

def FormError.failure (e : FormError) (part : Doc) : Failure :=
  match Yaml.writeSorted part with
  | .ok s => .stated .general (e.message ++ "\n" ++ s)
  | .error f => f

def stepList (steps : Doc) : Result Doc :=
  match steps with
  | .list xs =>
    if xs.all Doc.isMap then do
      let _ ← xs.mapM (requireId "step")
      return steps
    else .error (FormError.stepsItems.failure steps)
  | .map es =>
    if es.any fun e => !e.1.isStr || e.1 == .str "" then .error (FormError.stepsKeys.failure steps)
    else if es.all fun e => e.2.isMap || e.2.isNull then
      .ok (.list (es.map fun e => .map (update [(.str "id", e.1)] (e.2.map?.getD []))))
    else .error (FormError.stepsValues.failure steps)
  | d => .ok d

def byId (xs : List Doc) : Result Doc := do
  let one (acc : Entries) (x : Doc) : Result Entries := do
    let id ← requireId "step" x
    return put acc id (.map (remove (x.map?.getD []) "id"))
  return .map (← xs.foldlM one [])

def stepMap (steps : Doc) : Result Doc :=
  match steps with
  | .list xs => if xs.all Doc.isMap then byId xs else .error (FormError.stepsItems.failure steps)
  | .map es =>
    if es.all fun e => e.2.isMap then .ok steps
    else .error (FormError.stepsDictValues.failure steps)
  | d => .ok d

def inputMap (inputs : Doc) : Result Doc :=
  match inputs with
  | .map es => do
    let fs ← es.mapM fun e =>
      match e.2 with
      | .map _ => .ok e
      | .str _ => .ok (e.1, Doc.obj [("type", e.2)])
      | _ => .error (FormError.inputsValues.failure inputs)
    return .map fs
  | .list xs => if xs.all Doc.isMap then byId xs else .error (FormError.inputsItems.failure inputs)
  | _ => .ok (.map [])

def outputMap (outputs : Doc) : Result Doc :=
  match outputs with
  | .map es =>
    if es.all fun e => e.2.isMap || e.2.isStr then .ok outputs
    else .error (FormError.outputsValues.failure outputs)
  | .list xs =>
    if xs.all Doc.isMap then byId xs else .error (FormError.outputsItems.failure outputs)
  | _ => .ok (.map [])

def onPart (k : String) (f : Doc → Result Doc) (es : Entries) : Result Entries :=
  match get? es k with
  | none => .ok es
  | some v => (f v).map (put es k)

def canonical (d : Doc) : Result Doc :=
  match d with
  | .map es => do
    let es ← onPart "inputs" inputMap es
    let es ← onPart "outputs" outputMap es
    let es ← onPart "steps" stepList es
    return .map es
  | .str s => do
    -- A text can be searched for the names of the parts, and no more.
    if ["inputs", "outputs", "steps"].any fun k => Text.contains s k then throw .wrongKind
    return d
  | .list xs => do
    if ["inputs", "outputs", "steps"].any fun k => xs.any (· == .str k) then throw .wrongKind
    return d
  | _ => .error .wrongKind

end WorkflowInference.Workflow
