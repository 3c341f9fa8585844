import WorkflowInference.StepName
import WorkflowInference.Yaml.Writer

/-!
The steps of a workflow. A step has an identifier, which names a tool, or another workflow when it
ends in `.wic`, and a list of the outputs it names, each alone or as the one key of a map that gives
the output a name of its own.
-/
namespace WorkflowInference.Workflow

open Entries

inductive StepError where
  | notMap (context : String)
  | noId
  | noSteps
  | noFirst
  deriving DecidableEq, Repr

def StepError.message : StepError → String
  | notMap context => "Error! " ++ context ++ " should be a dictionary."
  | noId => "Error! Each step dictionary must contain a non-empty string id: tag."
  | noSteps => "Error! workflows must define at least one step."
  | noFirst => "Error! Subworkflow has no concrete first step."

def StepError.failure (e : StepError) : Failure := .stated .general e.message

def stepKey (step : Doc) : Doc :=
  match step with
  | .map es => getD es "id" (.str "")
  | _ => .str ""

def stepKeys (steps : List Doc) : List Doc := steps.map stepKey

def requireId (context : String) (step : Doc) : Result String :=
  match step with
  | .map es =>
    match get? es "id" with
    | some (.str s) => if s = "" then .error StepError.noId.failure else .ok s
    | _ => .error StepError.noId.failure
  | _ => .error (StepError.notMap context).failure

def suffix : String := ".wic"

def isSubKey (key : String) : Bool := Text.endsWith key suffix

/-- The keys that name workflows; other documents than texts fail, unless they are empty. -/
def subKeys (keys : List Doc) : Result (List Doc) :=
  keys.filterMapM fun k =>
    match k with
    | .str s => .ok (if isSubKey s then some k else none)
    | k => if k.truthy then .error .noPart else .ok none

def firstName (firsts : List String) (stem : String) (ns : Namespaces) (keys : List String)
    (isSub : String → Bool) : Result String :=
  match keys with
  | [] => .error StepError.noSteps.failure
  | k :: _ =>
    if isSub k then
      match firsts with
      | [] => .error StepError.noFirst.failure
      | n :: _ => .ok n
    else .ok ("\"" ++ Namespaces.join (ns ++ [stepName stem 0 k]) ++ "\"")

inductive OutError where
  | notList
  | anchor
  | entry
  | unresolved
  deriving DecidableEq, Repr

def OutError.message : OutError → String
  | notList => "Error! The `out` tag should be a list."
  | anchor => "Error! There should only be one non-empty string anchor per out: list entry!"
  | entry => "Error! Each out: list entry should be a string or a single-key dictionary."
  | unresolved =>
    "Error! Each out: list entry should resolve to a string output name before " ++
      "workflow compilation."

def OutError.failure (e : OutError) : Failure := .stated .general e.message

def checkOutEntry : Doc → Except OutError Unit
  | .str _ => .ok ()
  | .map [(.str k, _)] => if k = "" then .error .anchor else .ok ()
  | .map _ => .error .anchor
  | _ => .error .entry

def checkOutEntries : List Doc → Except OutError Unit
  | [] => .ok ()
  | x :: xs =>
    match checkOutEntry x with
    | .ok () => checkOutEntries xs
    | .error e => .error e

def checkOut (out : Doc) : Result Unit :=
  match out with
  | .list xs => (checkOutEntries xs).mapError OutError.failure
  | _ => .error OutError.notList.failure

def outNames (out : Doc) : Result (List String) := do
  checkOut out
  let xs := (out.list?).getD []
  let names := xs.filterMap Doc.str?
  if names.length = xs.length then return names
  else throw OutError.unresolved.failure

def distinct (xs : List String) : List String :=
  xs.foldl (fun acc x => if acc.contains x then acc else acc ++ [x]) []

def addIn (step : Doc) (key : String) (new : Entries) : Result Doc :=
  match step with
  | .map [] => .ok (Doc.obj [("id", .str key), ("in", .map new)])
  | .map es =>
    match get? es "in" with
    | some (.map old) => .ok (.map (put es "in" (.map (update old new))))
    | some _ => .error .noPart
    | none => .ok (.map (put es "in" (.map new)))
  | d => if d.truthy then .error .noPart else .ok (Doc.obj [("id", .str key), ("in", .map new)])

def addOut (step : Doc) (key : String) (names : List String) : Result Doc :=
  match step with
  | .map [] => .ok (Doc.obj [("id", .str key), ("out", Doc.strs names)])
  | .map es =>
    match get? es "out" with
    | some out => do
      let old ← outNames out
      return .map (put es "out" (Doc.strs (distinct (old ++ names))))
    | none => .ok (.map (put es "out" (Doc.strs names)))
  | d =>
    if d.truthy then .error .noPart else .ok (Doc.obj [("id", .str key), ("out", Doc.strs names)])

end WorkflowInference.Workflow
