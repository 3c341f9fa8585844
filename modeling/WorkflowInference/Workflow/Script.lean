import WorkflowInference.Workflow.Tree

/-!
Steps that run a script. A script declares its inputs and outputs; a tool is generated from them
and takes the place of the step.
-/
namespace WorkflowInference.Workflow

open Entries

structure Script where
  inputs : Entries
  outputs : Entries
  params : List String

structure Scripts where
  /-- Whether the types that all scripts use can be loaded. -/
  hasTypes : Bool
  known : List (String × Script)

def Scripts.ofDoc (dir : String) (hasTypes : Bool) (d : Doc) : Scripts :=
  ⟨hasTypes, d.fields.map fun e =>
    let part (k : String) : Option Doc := (e.2.map?).bind (get? · k)
    let inputs := ((part "inputs").bind Doc.map?).getD []
    let params : List String :=
      match part "main" with
      | some (.list ps) => ps.filterMap Doc.str?
      | _ => names inputs
    (Path.join dir e.1.text, ⟨inputs, ((part "outputs").bind Doc.map?).getD [], params⟩)⟩

namespace Script

def typesPath : String := "../sophios/examples/scripts/workflow_types.py"

inductive Error where
  | cannotLoad (path : String)
  | noLoader (path : String)
  deriving DecidableEq, Repr

def Error.message : Error → String
  | cannotLoad p => "Error! Cannot load python_script " ++ p
  | noLoader p => "Error! Cannot load python_script spec None from file\n" ++ p

def Error.failure (e : Error) : Failure := .stated .general e.message

def checkArgs (inputs : Doc) (args : Doc) (all : Bool) : Logged Unit := do
  let given ← args.members
  let bad ← given.filterM fun a => do
    if ← (inputs.includes a) then return false
    Logged.print ("Error! wic argument " ++ a.text ++ " not in python arguments " ++ inputs.text)
    return true
  let declared ← (if all then inputs.members else pure [] : Result (List Doc))
  let missing ← declared.filterM fun a => do
    if ← (args.includes a) then return false
    Logged.print ("Error! Python argument " ++ a.text ++ " not in wic arguments " ++ args.text)
    return true
  if !bad.isEmpty || !missing.isEmpty then throw (.exit "1")

def binding (position : Nat) (flag : String) : Doc :=
  let more := if flag = "" then [] else [("prefix", Doc.str ("--" ++ flag))]
  Doc.obj (("position", .int position) :: more)

def tool (inputs outputs image : Doc) : Result Doc := do
  let fixed (type : String) (position : Nat) (dflt : Option String) : Doc :=
    Doc.obj ([("type", .str type), ("format", .str "edam:format_2330"),
      ("inputBinding", binding position "")] ++
      (dflt.map fun s => ("default", Doc.str s)).toList)
  let ins : Entries := [(.str "driver_script", fixed "string" 1 (some "/python_cwl_driver.py")),
    (.str "workflow_types", fixed "string" 2 (some "/workflow_types.py")),
    (.str "script", fixed "File" 3 none)]
  let declared ← (← inputs.entries).mapIdxM fun i e => do
    match e.2 with
    | .map es => return (e.1, Doc.map (put es "inputBinding" (binding (i + 4) e.1.text)))
    | _ => throw .wrongKind
  let outs ← (← outputs.entries).mapM fun e => do
    match ← e.2.members with
    | [glob, .map es] => return (e.1, Doc.map (put es "outputBinding" (Doc.obj [("glob", glob)])))
    | [_, _] => throw .wrongKind
    | _ => throw .badValue
  let reqs := ("InlineJavascriptRequirement", Doc.emptyMap) ::
    (if image.truthy then [("DockerRequirement", Doc.obj [("dockerPull", image)])] else [])
  return Doc.obj [("cwlVersion", .str "v1.0"), ("class", .str "CommandLineTool"),
    ("$namespaces", Doc.obj [("edam", .str "https://edamontology.org/")]), ("$schemas",
    Doc.strs ["https://raw.githubusercontent.com/edamontology/edamontology/master/EDAM_dev.owl"]),
    ("baseCommand", .str "python3"), ("requirements", Doc.obj reqs),
    ("inputs", .map (update ins declared)), ("outputs", .map outs), ("stdout", .str "stdout")]

def load (s : Scripts) (path : String) : Result Script := do
  if !s.hasTypes then throw (Error.cannotLoad typesPath).failure
  if Path.suffix path != ".py" then throw (Error.noLoader path).failure
  match s.known.lookup path with
  | some m => return m
  | none => throw (Error.cannotLoad path).failure

def plainValue (d : Doc) : Doc :=
  match d with
  | .map es => (get? es Yaml.inlineKey).getD d
  | _ => d

structure Stock where
  tools : Registry
  count : Nat := 0

def replaceStep (s : Scripts) (dir : String) (stock : Stock) (step : Doc) :
    Logged (Doc × Stock) := do
  let ins ← (do (← step.field "in").entries : Result Entries)
  let script := plainValue (getD ins "script" (.str ""))
  if !Entries.has ins "script" then throw .missingKey
  let args := remove ins "script"
  let image := plainValue (getD args "dockerPull" (.str ""))
  let args := remove args "dockerPull"
  let path ← (match script with
    | .str p => .ok (Path.join dir p)
    | _ => .error .wrongKind : Result String)
  let m ← load s path
  checkArgs (.map m.inputs) (Doc.strs m.params) false
  checkArgs (.map m.inputs) (.map args) false
  let cwl ← tool (.map m.inputs) (.map m.outputs) image
  let name := "python_script_" ++ toString (stock.count + 1)
  let file := "autogenerated/" ++ name ++ ".cwl"
  let text ← Yaml.write cwl
  Logged.write file text
  let es ← step.entries
  let es := put es "in" (.map (remove ins "dockerPull"))
  return (.map (put es "id" (.str name)),
    ⟨Registry.enter stock.tools ⟨name, globalSpace⟩ ⟨file, cwl⟩, stock.count + 1⟩)

def replaceIn (s : Scripts) (dir : String) : Nat → Stock → Tree → Logged (Tree × Stock)
  | 0, _, _ => throw .tooDeep
  | n + 1, stock, t => do
    let wic ← t.wic
    match ← (Tree.implementations? wic) with
    | some impls =>
      let one (acc : Entries × Stock) (e : Doc × Doc) : Logged (Entries × Stock) := do
        let (r, stock) ← replaceIn s dir n acc.2 ⟨Tree.implId e.1, e.2⟩
        return (acc.1 ++ [(e.1, r.yml)], stock)
      let (impls, stock) ← impls.foldlM one ([], stock)
      return (⟨t.id, ← Tree.setImplementations t.yml impls⟩, stock)
    | none =>
      let steps ← Tree.steps t.yml
      let one (acc : List Doc × Stock) (x : Doc × String) : Logged (List Doc × Stock) := do
        let (step, key) := x
        if isSubKey key then
          let sub ← step.field "subtree"
          let (r, stock) ← replaceIn s dir n acc.2 ⟨⟨key, t.id.space⟩, sub⟩
          let es ← step.entries
          return (acc.1 ++ [.map (put es "subtree" r.yml)], stock)
        else if key = "python_script" then
          let (step, stock) ← replaceStep s dir acc.2 step
          return (acc.1 ++ [step], stock)
        else return (acc.1 ++ [step], acc.2)
      let (steps, stock) ← steps.foldlM one ([], stock)
      return (⟨t.id, ← Tree.setSteps t.yml steps⟩, stock)

def replaceAll (s : Scripts) (dir : String) (tools : Registry) (t : Tree) :
    Logged (Tree × Registry) := do
  let (t, stock) ← replaceIn s dir (t.yml.depth + 1) ⟨tools, 0⟩ t
  return (t, stock.tools)

end Script

end WorkflowInference.Workflow
