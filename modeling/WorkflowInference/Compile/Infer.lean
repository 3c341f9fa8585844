import WorkflowInference.Compile.Provide
import WorkflowInference.Workflow.Annotation

/-!
Inputs that a step needs and does not provide. A value given inside of the workflow that the step
runs is passed on, a reference made there is resolved or brought up, and anything else is inferred:
the input takes the output of an earlier step whose type and format fit, of the latest such step the
last one. When there is none, the input becomes an input of the workflow.
-/
namespace WorkflowInference.Compile

open Namespaces

open Workflow (placeKey)

abbrev Candidate := String × Doc

structure Wanted where
  type : Doc
  formats : Doc

def Wanted.fits (w : Wanted) (type format : Doc) : Result Bool :=
  if Param.accepts w.type type then
    if w.formats.truthy then
      if format == w.formats then .ok true else w.formats.includes format
    else .ok true
  else .ok false

structure Scan where
  fitting : List Candidate := []
  seen : List Candidate := []
  /-- The inner step at whose output a rule ended the search; the search goes on to the end of
  that step. -/
  stop : Option String := none

def innerStep (out : String) : String := (splitLast out).1.getLastD ""

def promote (scattered : Bool) (type : Doc) : Doc := if scattered then Param.arrayOf type else type

def scanOutputs (w : Wanted) (scattered : Bool) (rules : Entries) :
    List (Doc × Doc) → Scan → Result Scan
  | [], s => .ok s
  | (k, out) :: outs, s => do
    let key ← (k.str?).elim (.error .noPart) Except.ok
    let inner := innerStep key
    if s.stop.any (· != inner) then return s
    let sig ← Param.signature out false
    let type := promote scattered (← sig.field "type")
    let format ← out.fieldD "format" (.str "")
    let fits ← w.fits type format
    let stop :=
      if Entries.getD rules key (.str "default") == .str "break" then some inner else s.stop
    scanOutputs w scattered rules outs
      ⟨if fits then s.fitting ++ [(key, format)] else s.fitting, s.seen ++ [(key, format)], stop⟩

def bareName (word name : String) : String := Text.replace (splitLast name).2 word ""

/-- The output that is taken of those that fit: the first one, or the first one whose name agrees
with the input's when naming conventions are used. -/
def choose (s : Setting) (arg : String) (fitting : List Candidate) : Option String :=
  match fitting with
  | [] => none
  | (first, _) :: _ =>
    if s.options.namingConventions && fitting.length > 1 then
      let wanted := s.renamings.foldl (fun n r => Text.replace n r.1 r.2) (bareName "input_" arg)
      match fitting.find? fun c => bareName "output_" c.1 == wanted with
      | some c => some c.1
      | none => some first
    else some first

def isLog (out : String) : Bool := Text.contains out "_log_"

def scanStep (c : Scope) (d : Draft) (w : Wanted) (j : Nat) : Result Scan := do
  let key := c.keys.getD j ""
  let note ← d.notes.fieldD (placeKey j key) (.map [])
  let tool ← (d.tools[j]?).elim (.error .outOfRange) Except.ok
  let outs ← (do (← tool.cwl.field "outputs").entries : Result Entries)
  let rules ← rulesOf note (Path.stem key)
  let rules ← (if outs.isEmpty then .ok [] else rules.entries : Result Entries)
  let scattered ← (d.step j).holds "scatter"
  scanOutputs w scattered rules outs.reverse {}

/-- Searches the steps before place `n`, the latest first. Gives the place and the name of the
output that is taken, if any, and all outputs that were looked at, by steps. -/
def searchSteps (c : Scope) (d : Draft) (w : Wanted) (arg : String) :
    Nat → Result (Option (Nat × String) × List (List Candidate))
  | 0 => .ok (none, [])
  | j + 1 => do
    let scan ← scanStep c d w j
    match choose c.setting arg (scan.fitting.filter fun x => !isLog x.1) with
    | some out => return (some (j, out), [scan.seen])
    | none =>
      if scan.stop.isSome then return (none, [scan.seen])
      else do
        let rest ← searchSteps c d w arg j
        return (rest.1, scan.seen :: rest.2)

def insertionStem : String := "insert_steps_automatically_"

def formatsOf (params : Doc) : Result (List Doc) := do
  let es ← params.entries
  es.filterMapM fun e => do
    if ← e.2.holds "format" then return some (← e.2.field "format") else return none

def candidate (target source : Doc) (t : StepId × Tool) : Result (Option StepId) := do
  if Text.startsWith t.1.stem insertionStem then
    let ins ← (← formatsOf (← t.2.cwl.field "inputs")).mapM Doc.members
    let outs ← formatsOf (← t.2.cwl.field "outputs")
    if outs.any (· == target) && ins.flatten.any (· == source) then return some t.1 else return none
  else return none

def insertions (tools : Registry) (formats : Doc) (seen : List Doc) : Result (List StepId) := do
  let wanted ← formats.members
  let pairs := wanted.flatMap fun a => (seen.filter fun b => !(a == b)).map fun b => (a, b)
  return (← pairs.mapM fun (a, b) => tools.filterMapM (candidate a b)).flatten

def wantedOf (step tool : Doc) (arg : String) : Result (Entries × Wanted) := do
  let param ← (← tool.field "inputs").field arg
  let sig ← Param.signature param true
  let scatter ← step.fieldD "scatter" (.list [])
  let scattered ← scatter.holds arg
  let type ← sig.field "type"
  let type := promote scattered type
  let formats ← param.fieldD "format" (.list [])
  return (Entries.put (← sig.entries) "type" type, ⟨type, formats⟩)

def drawInferred (c : Scope) (arg name here there out : String) (isWorkflow : Bool) (d : Draft) :
    Result Draft := do
  let own ← d.ownInputs.holds arg
  let ends ← argEnds d.inputMapping name arg own
  let out ← d.outputMapping.source out
  let ns := c.task.namespaces
  let label := if isWorkflow then (splitLast out).2 else out
  return d.onOwn fun g => ends.foldl (fun g e =>
    Graph.addEdge c.setting.graph g (edgeEnd ns there out) (edgeEnd ns here e) label none) g

def takeOutput (c : Scope) (i : Nat) (tool : Tool) (arg name : String) (j : Nat) (out : String)
    (d : Draft) : Result Draft := do
  let key := c.keys.getD i ""
  let here := stepName c.stem i key
  let there := stepName c.stem j (c.keys.getD j "")
  let cls ← (d.tools.getD j tool).cwl.field "class"
  let isWorkflow := cls == .str "Workflow"
  let val := there ++ "/" ++ out
  let d := { d with internals := d.internals ++ [if isWorkflow then out else val] }
  let step ← Workflow.addIn (d.step i) key [(.str arg, .str val)]
  drawInferred c arg name here there out isWorkflow (d.setStep i step)

def bringUp (c : Scope) (i : Nat) (arg : String) (sig : Entries) (d : Draft) : Result Draft := do
  let key := c.keys.getD i ""
  let inName := stepName c.stem i key ++ sep ++ arg
  let d := d.declare inName (.map sig)
  let step ← Workflow.addIn (d.step i) key [(.str arg, .str inName)]
  return d.setStep i step

def reportMiss (c : Scope) (i : Nat) (arg name : String) (seen : List Candidate) (d : Draft) :
    Logged Unit :=
  if c.task.isRoot && !Entries.has d.given name && !c.setting.testing then do
    Logged.print ("Error! No match found for input " ++ toString (i + 1) ++ " " ++
      c.keys.getD i "" ++ " " ++ arg)
    Logged.print ("number of attempted matches  " ++ toString seen.length)
    seen.forM fun s => Logged.print (Doc.tuple [.str s.1, s.2]).literal
  else return ()

/-- Provides an input of a step by inference. Gives also the tools that might be put in before the
step when no output fits. -/
def infer (c : Scope) (i : Nat) (tool : Tool) (arg name : String) (d : Draft) :
    Logged (Draft × List StepId) := do
  let wanted ← wantedOf (d.step i) tool.cwl arg
  let found ← searchSteps c d wanted.2 arg i
  match found.1 with
  | some (j, out) => return (← takeOutput c i tool arg name j out d, [])
  | none => do
    let seen := found.2.flatten
    let ids ← insertions c.setting.tools wanted.2.formats (seen.map (·.2))
    reportMiss c i arg name seen d
    return (← bringUp c i arg wanted.1 d, ids)

def isRequired (param : Doc) : Result Bool := do
  let dflt ← param.fieldD "default" .null
  if dflt.truthy then return false
  match ← param.field "type" with
  | .str t =>
    match t.toList.getLast? with
    | none => throw .outOfRange
    | some c => return c != '?'
  | .list ts => return !ts.any (· == .str "null")
  | _ => return true

def requiredArgs (tool : Tool) (params : Doc) : Result (List String) := do
  let cls ← tool.cwl.field "class"
  let keys ← params.members
  let name (k : Doc) : Result String := (k.str?).elim (.error .wrongKind) Except.ok
  if cls == .str "CommandLineTool" then
    (← keys.filterM fun k => do isRequired (← params.field (← name k))).mapM name
  else if cls == .str "Workflow" then keys.mapM name
  else throw (Error.unknownClass cls.literal).failure

def addOwnName (i : Nat) (d : Draft) (arg : String) : Result Draft := do
  let held ← (do (← d.ins i).holds arg : Result Bool)
  if held then return d else d.setIn i arg (.str arg)

def addOwnNames (i : Nat) (args : List String) (d : Draft) : Result Draft :=
  args.foldlM (addOwnName i) d

def stemsOf (ns : Namespaces) : Result (List String) :=
  ns.mapM fun n => return (← StepName.read n).stem

/-- Whether a workflow lies inside of the one that holds both ends of a reference, told by the
stems on the way from there to the call. -/
def liesInside (stem : String) : List String → Bool
  | [] => true
  | first :: rest => first != stem && rest.contains stem

def passReference (c : Scope) (s : Site) (arg : String) (site : EdgeSite) (d : Draft) :
    Result Draft := do
  let nsDef := site.path ++ (splitLast site.slot).1
  let nsCall := c.path s ++ (splitLast arg).1
  let stems ← stemsOf (partition nsCall nsDef).2
  let held ← (do (← d.ins s.index).holds arg : Result Bool)
  if !held then throw .missingKey
  else if liesInside c.stem stems then do
    let inName := s.inName arg
    let sig ← (do Param.signature (← s.params.field arg) false : Result Doc)
    let d ← (d.declare inName sig).setIn s.index arg (source inName)
    return d.call inName site
  else do d.setIn s.index arg (source (← sourceText (partition nsDef nsCall).2 site.slot))

/-- Takes care of an input that must be given. The tools that may be put in before the step come
back when the input could not be inferred. -/
def require (c : Scope) (s : Site) (provided : List Doc) (referred : List String) (d : Draft)
    (arg : String) : Logged (Draft × List StepId) := do
  let inName := s.inName arg
  if provided.any (· == .str arg) then return (d, [])
  if Entries.has d.given inName then
    let sig ← (do Param.signature (← s.params.field arg) false : Result Doc)
    let d := d.declare inName sig
    let step ← Workflow.addIn (d.step s.index) s.key [(.str arg, .str inName)]
    return (d.setStep s.index step, [])
  match referred.contains arg, d.edgeCalls.lookup arg with
  | true, some site => return (← passReference c s arg site d, [])
  | _, _ =>
    if c.setting.options.noInference then return (d, [])
    infer c s.index s.tool arg inName d

end WorkflowInference.Compile
