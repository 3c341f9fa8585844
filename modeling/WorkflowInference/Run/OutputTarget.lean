import WorkflowInference.Compile.Draft
import WorkflowInference.Format.Resolve

/-!
Directories that tools write into. When a tool makes a directory that it is given writable and
gives it back as an output, the input names where to write and holds nothing yet. For a run such an
input becomes a name: the type of the input, the places that refer to it, and the job inputs that
reach it through the workflow are changed.
-/
namespace WorkflowInference.Run

open Entries Text

open Workflow (distinct)

def isNameStart (c : Char) : Bool := c.isAlpha || c = '_'

def isNameChar (c : Char) : Bool := c.isAlphanum || c = '_' || c = '-'

def reference? (cs : List Char) : Option String :=
  match after? "inputs.".toList cs with
  | some (d :: rest) =>
    if isNameStart d then some (String.ofList (d :: rest.takeWhile isNameChar)) else none
  | _ => none

/-- The names of inputs that an expression refers to, after so many characters; `inWord` when the
character before can stand inside of a word. -/
def references : Nat → Bool → List Char → List String
  | _, _, [] => []
  | skip + 1, _, c :: cs => references skip (isWord c) cs
  | 0, inWord, c :: cs =>
    match inWord, reference? (c :: cs) with
    | false, some name => name :: references ("inputs".length + name.length) (isWord c) cs
    | _, _ => references 0 (isWord c) cs

mutual

def referenced : Doc → List String
  | .str s => references 0 false s.toList
  | .list xs => referencedItems xs
  | .map es => referencedEntries es
  | _ => []

def referencedItems : List Doc → List String
  | [] => []
  | x :: xs => referenced x ++ referencedItems xs

def referencedEntries : List (Doc × Doc) → List String
  | [] => []
  | (_, v) :: es => referenced v ++ referencedEntries es

end

mutual

def typeIncludes (name : String) : Doc → Bool
  | .str s => trimEndOf (· = '?') s == name
  | .list ts => typeIncludesAny name ts
  | .map es => get? es "type" == some (.str name)
  | _ => false

def typeIncludesAny (name : String) : List Doc → Bool
  | [] => false
  | t :: ts => typeIncludes name t || typeIncludesAny name ts

end

def localId (d : Doc) : String :=
  let last (sep s : String) : String := (splitOn sep s).getLastD ""
  last "#" (last "/" d.text)

def paramMap : Doc → Entries
  | .map es => es
  | .list xs => xs.foldl (fun acc x =>
      match x with
      | .map es =>
        match get? es "id" with
        | some id => put acc (localId id) x
        | none => acc
      | _ => acc) []
  | _ => []

def atKey (es : Entries) (k : String) : Doc := getD es k .null

def writableEntry? : Doc → Option Doc
  | .map es =>
    match get? es "writable" with
    | some (.bool true) => get? es "entry"
    | _ => none
  | _ => none

def listing? : Doc → Option Doc
  | .map es =>
    match get? es "InitialWorkDirRequirement" with
    | some (.map fs) => get? fs "listing"
    | _ => none
  | _ => none

def writableInputs (run : Entries) : List String :=
  ["requirements", "hints"].flatMap fun k =>
    match listing? (atKey run k) with
    | some (.list entries) => (entries.filterMap writableEntry?).flatMap referenced
    | _ => []

def outputGlob (out : Entries) : Doc :=
  match atKey out "outputBinding" with
  | .map es => atKey es "glob"
  | _ => .null

def targets (run : Entries) : List String :=
  let ins := paramMap (atKey run "inputs")
  let outs := paramMap (atKey run "outputs")
  let writable := writableInputs run
  let isTarget (name : String) : Bool :=
    match get? ins name with
    | some (.map es) => writable.contains name && typeIncludes "Directory" (atKey es "type")
    | _ => false
  if ins.isEmpty || outs.isEmpty || writable.isEmpty then []
  else distinct (outs.flatMap fun o =>
    match o.2 with
    | .map es =>
      if typeIncludes "Directory" (atKey es "type") then
        (referenced (outputGlob es)).filter isTarget else []
    | _ => [])

def sources : Doc → Option (List String)
  | .str s => some [s]
  | .map es =>
    match get? es "source" with
    | some (.str s) => some [s]
    | some (.list xs) => some (xs.filterMap Doc.str?)
    | _ => none
  | _ => none

def stepSources (ins : Doc) : Result (List (String × List String)) := do
  let bindings ←
    match ins with
    | .list xs => xs.foldlM (fun acc x =>
        match x with
        | .map es =>
          match get? es "id" with
          | some id => if id.hashable then .ok (write acc id x) else .error .wrongKind
          | none => .ok acc
        | _ => .ok acc) ([] : Entries)
    | .map es => pure es
    | _ => pure []
  return bindings.foldl (fun acc b =>
    match sources b.2 with
    | some ss => Keyed.put acc b.1.text ss
    | none => acc) []

def sourceKeys (step : Entries) (names : List String) : Result (List String) := do
  let all ← stepSources (atKey step "in")
  return distinct ((all.filter fun b => names.contains b.1).flatMap fun b =>
    b.2.filter fun s => !Text.contains s "/")

abbrev Runs := List (String × Doc)

def runOf (runs : Runs) (step : Entries) : Entries :=
  match atKey step "run" with
  | .map es => es
  | _ =>
    match runs.lookup (getD step "id" (.str "")).text with
    | some (.map es) => es
    | _ => []

def steps (workflow : Entries) : List Doc := ((atKey workflow "steps").list?).getD []

def workflowTargets (runs : Runs) (workflow : Entries) : Result (List String) := do
  let each ← (steps workflow).mapM fun s =>
    match s with
    | .map step =>
      match targets (runOf runs step) with
      | [] => .ok []
      | names => sourceKeys step names
    | _ => .ok []
  return distinct each.flatten

def setType (name : String) (type : Doc) (params : Doc) : Doc :=
  match params with
  | .map es =>
    match get? es name with
    | some (.map p) => .map (put es name (.map (put p "type" type)))
    | _ => params
  | .list xs => .list (xs.map fun x =>
      match x with
      | .map p =>
        match get? p "id" with
        | some id => if localId id == name then .map (put p "type" type) else x
        | none => x
      | _ => x)
  | _ => params

def setTexts (names : List String) (params : Doc) : Doc :=
  names.foldl (fun p n => setType n (.str "string") p) params

def onKey (k : String) (f : Doc → Doc) (es : Entries) : Entries :=
  match get? es k with
  | some v => put es k (f v)
  | none => es

def directoryExpression (name : String) : String :=
  "$\x7b\n  return \x7b\"class\": \"Directory\", \"basename\": inputs[" ++ quoted name ++
    "], \"listing\": []\x7d;\n\x7d"

def adaptListing (names : List String) (requirement : Doc) : Doc :=
  let entry (x : Doc) : Doc :=
    match writableEntry? x with
    | some v =>
      match distinct ((referenced v).filter names.contains) with
      | [n] => Doc.obj [("entry", .str (directoryExpression n)), ("writable", .bool true)]
      | _ => x
    | none => x
  match requirement, listing? requirement with
  | .map es, some (.list xs) =>
    .map (onKey "InitialWorkDirRequirement" (fun r =>
      match r with
      | .map fs => .map (put fs "listing" (.list (xs.map entry)))
      | _ => r) es)
  | _, _ => requirement

def plainReferences (names : List String) (text : String) : String :=
  names.foldl (fun t n =>
    let t := replace t ("inputs." ++ n ++ ".basename") ("inputs." ++ n)
    let t := replace t ("inputs[" ++ quoted n ++ "].basename") ("inputs[" ++ quoted n ++ "]")
    replace t ("inputs[\"" ++ n ++ "\"].basename") ("inputs[\"" ++ n ++ "\"]")) text

mutual

def adaptReferences (names : List String) : Doc → Doc
  | .str s => .str (plainReferences names s)
  | .list xs => .list (adaptItems names xs)
  | .map es => .map (adaptEntries names es)
  | d => d

def adaptItems (names : List String) : List Doc → List Doc
  | [] => []
  | x :: xs => adaptReferences names x :: adaptItems names xs

def adaptEntries (names : List String) : List (Doc × Doc) → List (Doc × Doc)
  | [] => []
  | (k, v) :: es => (k, adaptReferences names v) :: adaptEntries names es

end

def nameTargets (names : List String) (tool : Entries) : Entries :=
  if names.isEmpty then tool
  else
    let tool := onKey "inputs" (setTexts names) tool
    let tool := onKey "hints" (adaptListing names) (onKey "requirements" (adaptListing names) tool)
    adaptEntries names tool

def nameStep (runs : Runs) (step : Doc) : Result (Doc × List String) :=
  match step with
  | .map es => do
    let names := targets (runOf runs es)
    let step : Doc :=
      match atKey es "run" with
      | .map run =>
        if names.isEmpty then step else .map (put es "run" (.map (nameTargets names run)))
      | _ => step
    return (step, ← sourceKeys es names)
  | _ => .ok (step, [])

def nameWorkflow (runs : Runs) (workflow : Entries) : Result Entries := do
  match atKey workflow "steps" with
  | .list xs =>
    let named ← xs.mapM (nameStep runs)
    let keys := named.flatMap (·.2)
    let workflow := put workflow "steps" (.list (named.map (·.1)))
    return onKey "inputs" (setTexts keys) workflow
  | _ => return workflow

def normalCwl (runs : Runs) (cwl : Doc) : Result Doc := do
  let es ← cwl.toEntries
  match get? es "class" with
  | some (.str "CommandLineTool") => return .map (nameTargets (targets es) es)
  | some (.str "Workflow") => return .map (← nameWorkflow runs es)
  | _ => return .map es

mutual

def chooseFormats : Doc → Doc
  | .map es =>
    match get? es "class", get? es "format" with
    | some (.str "File"), some (.list formats) =>
      match Format.resolve es formats with
      | some f => .map (put es "format" (.str f))
      | none => .map (remove es "format")
    | _, _ => .map (chooseFormatsEntries es)
  | .list xs => .list (chooseFormatsItems xs)
  | d => d

def chooseFormatsItems : List Doc → List Doc
  | [] => []
  | x :: xs => chooseFormats x :: chooseFormatsItems xs

def chooseFormatsEntries : List (Doc × Doc) → List (Doc × Doc)
  | [] => []
  | (k, v) :: es => (k, chooseFormats v) :: chooseFormatsEntries es

end

inductive TargetError where
  | absolute (key : String)
  | notSimple (key location : String)
  deriving DecidableEq, Repr

def TargetError.message : TargetError → String
  | absolute k =>
    "output-target Directory input " ++ quoted k ++ " cannot use an absolute location; " ++
      "use the runner outdir to control final output placement"
  | notSimple k l =>
    "output-target Directory input " ++ quoted k ++
      " must be a simple directory name, got " ++ quoted l

def TargetError.failure (e : TargetError) : Failure := .stated .value e.message

def targetName (key location : String) : Result Doc :=
  if contains location "://" || Path.isAbsolute location then
    .error (TargetError.absolute key).failure
  else
    let name := Path.name location
    if name = "" || name != location then .error (TargetError.notSimple key location).failure
    else .ok (.str name)

def targetValue (key : String) (val : Doc) : Result Doc :=
  match val with
  | .str s => targetName key s
  | .map es =>
    match get? es "class", get? es "location", get? es "basename" with
    | some (.str "Directory"), some (.str s), _ => targetName key s
    | some (.str "Directory"), some (.map fs), _ =>
      match get? fs "wic_inline_input" with
      | some (.str s) => targetName key s
      | _ => .ok val
    | some (.str "Directory"), some _, _ => .ok val
    | some (.str "Directory"), none, some (.str s) => targetName key s
    | _, _, _ => .ok val
  | _ => .ok val

def nameAt (job : Entries) (k : String) : Result Entries := do
  match get? job k with
  | some v => return put job k (← targetValue k v)
  | none => return job

def normalJobInputs (runs : Runs) (workflow job : Doc) : Result Doc := do
  let job ← job.toEntries
  let keys ← workflowTargets runs (← workflow.entries)
  match chooseFormats (.map job) with
  | .map es => return .map (← keys.foldlM nameAt es)
  | d => return d

def runsOf (t : Compile.PartTree) : Runs :=
  t.subs.foldl (fun acc s =>
    match s.part.namespaces.getLast? with
    | some n => Keyed.put acc n s.part.cwl
    | none => acc) []

def normalTree (t : Compile.PartTree) : Result (Doc × Doc) := do
  let runs := runsOf t
  return (← normalCwl runs t.part.cwl, ← normalJobInputs runs t.part.cwl (.map t.part.jobInputs))

end WorkflowInference.Run
