import WorkflowInference.Assembly.Bind
import WorkflowInference.Assembly.Interface
import WorkflowInference.Yaml.Reader

/-!
Steps: made from a tool document, a tool file or a known tool, with settings for how often and
when they run.
-/
namespace WorkflowInference.Assembly

open Text Path Error

def withoutLead (name : String) : String := trimStartOf (· = ' ') (trimStartOf (· = '/') name)

def nameParts (name : String) : List String :=
  let s := withoutLead name
  (if root s = "" then [] else [root s]) ++ parts s

def workflowName (name : String) : String :=
  replace (trimStartOf (· = '_') (join "_" (nameParts name))) " " "_"

def scatterMethods : List String := ["dotproduct", "flat_crossproduct", "nested_crossproduct"]

def checkScatterMethod (d : Doc) : Result Unit :=
  match d with
  | .str s =>
    if s = "" || scatterMethods.contains s then .ok () else .error badScatterMethod.failure
  | _ => .ok ()

def checkCondition (d : Doc) : Result Unit :=
  match d with
  | .str s =>
    if s = "" || (startsWith s "$(" && endsWith s ")") then .ok () else .error badCondition.failure
  | d => if d.truthy then .error badCondition.failure else .ok ()

def checkAssignment (name : String) (d : Doc) : Result Unit :=
  match name, d with
  | "scatter", .list [] => .ok ()
  | "scatter", .list _ => .error scatterNotInputs.failure
  | "scatter", d => if d.truthy then .error scatterNotList.failure else .ok ()
  | "scatterMethod", d => checkScatterMethod d
  | "when", d => checkCondition d
  | _, _ => .ok ()

def pathOf (field : String) (d : Doc) : Result String :=
  match d with
  | .str s | .path s => .ok (plain s)
  | _ => .error (notPath field false).failure

def optionalPathOf (field : String) (d : Doc) : Result (Option String) :=
  match d with
  | .str s | .path s => .ok (some (plain s))
  | .null => .ok none
  | _ => .error (notPath field true).failure

namespace Assemble

def checkScatter (owner : Option Nat) (gs : List Given) : Assemble (List String) := do
  let keys ← gs.mapM fun g => do
    match g with
    | .input i k => return (i, k)
    | _ => fail .scatterNotInputs
  if keys.eraseDups.length < keys.length then fail .scatterRepeated
  match owner with
  | none => pure ()
  | some o => keys.forM fun (i, k) => do
    if i != o then fail .scatterForeign
    let x ← input i k
    if x.binding.isNone then fail .scatterUnbound
    if !x.scatterable then fail .scatterScalar
  return keys.map (·.2)

def stepPart (i : Nat) : Assemble StepPart := do
  match (← process i).content with
  | .step s => return s
  | .workflow _ => throw .noPart

def setStepPart (i : Nat) (s : StepPart) : Assemble Unit := do
  setProcess i { ← process i with content := .step s }

def setScatter (i : Nat) (gs : List Given) : Assemble Unit := do
  let keys ← checkScatter (some i) gs
  setStepPart i { ← stepPart i with scatter := keys }

def setScatterMethod (i : Nat) (d : Doc) : Assemble Unit := do
  checkScatterMethod d
  setStepPart i { ← stepPart i with scatterMethod := d }

def scatterOn (i : Nat) (gs : List Given) (method : Doc) : Assemble Unit := do
  setScatter i gs
  setScatterMethod i method

def assignStep (i : Nat) (name : String) (g : Given) : Assemble Unit := do
  let p ← process i
  let s ← stepPart i
  match name, g with
  | "scatter", .literal (.list xs) => setScatter i (xs.map .literal)
  | "scatter", .literal d =>
    if d.truthy then fail .scatterNotList else setStepPart i { s with scatter := [] }
  | "scatter", _ => fail .scatterNotList
  | "scatterMethod", .literal d => setScatterMethod i d
  | "when", .literal d => do
    checkCondition d
    setStepPart i { s with condition := d }
  | "when", _ => fail .badCondition
  | "process_name", .literal (.str n) => setProcess i { p with name := n }
  | "clt_path", .literal (.path q) | "clt_path", .literal (.str q) =>
    setStepPart i { s with path := q }
  | "yaml", .literal d => setStepPart i { s with tool := d }
  | "cfg_yaml", .literal (.map es) => setStepPart i { s with config := es }
  | "cwl_version", .literal d => setStepPart i { s with version := d }
  | _, _ =>
    if ["scatterMethod", "process_name", "clt_path", "yaml", "cfg_yaml", "cwl_version", "clt",
      "_tool_registry", "_inputs", "_outputs", "inputs", "outputs"].contains name then return
    else if Keyed.has p.inputs name then bindInput i name g false
    else if Keyed.has p.outputs name then fail (.readOnly name)
    else fail (.noInput p.name name)

def slotsOf {α : Type} (make : Facts → α) (ds : List Declared) : Result (List (String × α)) :=
  ds.foldlM (fun acc d => do
    let f ← Facts.make d.name d.type
    return Keyed.put acc f.name (make f)) []

def addStep (face : Interface) (tool : Doc) (path : String) (name : String) (config : Entries)
    (registry : Registry) : Assemble Nat := do
  let part : StepPart :=
    { path, tool, version := face.version, config, registry }
  let inputs ← slotsOf (fun f => ({ facts := f } : Input)) face.inputs
  let outputs ← slotsOf (fun f => ({ facts := f } : Output)) face.outputs
  let i ← addProcess
    { name := if name = "" then stem path else name, inputs, outputs, content := .step part }
  config.forM fun e => do
    let v ← configured (← files) e.2
    match e.1 with
    | .str k => assignStep i k (.literal v)
    | _ => throw .wrongKind
  return i

def interface (doc : Doc) (e : Failure) : Assemble Interface := do
  match Interface.read doc (← get).serial with
  | some (face, n) => do
    modify fun s => { s with serial := n }
    return face
  | none => throw e

def plainDocument (doc : Doc) : Result Doc := do
  match doc with
  | .map es =>
    let _ ← Yaml.write (.map es)
    return written (.map es)
  | _ => .error notMap.failure

def stepOfDocument (doc : Doc) (name runPath config : Doc) (registry : Registry) :
    Assemble Nat := do
  let es ← doc.entries
  let id := Entries.getD es "id" .null
  let dflt := if name.truthy then name.text else if id.truthy then id.text else "in_memory_tool"
  let path ← pathOf "run_path" (if runPath.truthy then runPath else .str (dflt ++ ".cwl"))
  let tool ← plainDocument doc
  let face ← interface tool (invalidDocument path).failure
  let config ← (if config.truthy then config.toEntries else .ok [] : Result Entries)
  addStep face tool path (if name.truthy then name.text else "") config registry

def stepOfTool (name : String) (doc : Doc) (stepName : Doc) (registry : Registry) :
    Assemble Nat := do
  let own := if stepName.truthy then stepName.text else name
  let path := plain (own ++ ".cwl")
  match doc with
  | .map _ => do
    let tool ← plainDocument doc
    let face ← interface tool (invalidDocument path).failure
    addStep face tool path own [] registry
  | _ => fail .notMapTool

def readDocument (p : String) : Assemble Doc := do
  let text ← ofAct (Act.readFile p)
  let d ← Yaml.read text
  return if d.truthy then d else .map []

def stepOfFile (path : String) (configPath : Option String) (stepName : Doc) (registry : Registry) :
    Assemble Nat := do
  let id : StepId := ⟨stem path, globalSpace⟩
  let bad := (invalidFile path).failure
  let (face, tool, registry) ←
    if (← files).exists? path then do
      let text := ((← files).read? path).getD ""
      match Yaml.read text with
      | .ok doc => do
        let face ← interface doc bad
        pure (face, doc, registry.enter id ⟨path, doc⟩)
      | .error _ => throw bad
    else
      match registry.get? id with
      | some t => do
        let face ← interface t.cwl (.unstated "ValidationException")
        pure (face, t.cwl, registry)
      | none => throw bad
  let config ←
    match configPath with
    | some p => (do (← readDocument p).toEntries : Assemble Entries)
    | none => pure []
  addStep face tool path (if stepName.truthy then stepName.text else "") config registry

def addWorkflow (children : List Nat) (name : String) : Assemble Nat :=
  addProcess { name := workflowName name, content := .workflow children }

end Assemble

end WorkflowInference.Assembly
