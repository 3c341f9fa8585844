import WorkflowInference.Compile.Infer
import WorkflowInference.Compile.JobInput
import WorkflowInference.Workflow.Implementation

/-!
Compilation of workflows. Each step gets the document it runs, the sources of its inputs and its
outputs; the workflow gets the inputs and outputs that its steps bring up. A step that is a
workflow is compiled first, and its compiled form is the tool that it runs. When a step has to be
put in, the workflow is compiled anew.
-/
namespace WorkflowInference.Compile

open Entries Path Namespaces Error
open Keyed hiding keys

open Workflow (placeKey)

def outStepName (c : Scope) (i : Nat) (tool : Tool) : String :=
  let key := c.keys.getD i ""
  let stem := Path.stem key
  if Text.endsWith key ".wic" || c.setting.tools.has ⟨stem, globalSpace⟩ ||
      stem = Path.stem tool.runPath then
    stepName c.stem i key
  else key

def drawOutput (c : Scope) (tool : Tool) (step : String) (d : Draft) (out : String) :
    Result Draft := do
  if !c.setting.graph.showOutputs then return d
  else do
    let cls ← tool.cwl.field "class"
    let node := join (c.task.namespaces ++ [step, out])
    let short := (splitLast out).2
    let internals := d.internals.map fun v => Text.replace v "/" sep
    let depth (s : String) : Nat := (split s).length
    let inner := cls == .str "Workflow" && !internals.contains out && !c.task.isRoot &&
      depth d.lastNode + 1 = depth node
    let outer := cls == .str "CommandLineTool" && !d.internals.contains (step ++ "/" ++ out)
    if inner || outer then
      let attrs := boxAttrs (.str short) (.str boxStyle) "lightyellow"
      let texts ← Graph.drawn attrs
      let edge := ("color", Graph.lineColor c.setting.graph) ::
        (if c.setting.graph.labelEdges then [("label", short)] else [])
      return d.onOwn fun g =>
        let g := g.addLines [Graph.Dot.node node texts, Graph.Dot.edge d.lastNode node edge]
        let g := (g.addName node).addArrow d.lastNode node
        { g with data := (g.data.addNode node attrs).addEdge d.lastNode node [] }
    else return d

def outputOf (step : String) (scattered : Bool) (e : Doc × Doc) : Result (Doc × Doc) := do
  let es ← e.2.entries
  let type ← Param.canonical (← e.2.field "type")
  let type := if scattered then Param.arrayOf type else type
  let es := Entries.put es "type" type
  return (.str (step ++ sep ++ e.1.text),
    .map (Entries.put es "outputSource" (.str (step ++ "/" ++ e.1.text))))

def stepOutputs (c : Scope) (acc : Draft × Entries) (i : Nat) : Result (Draft × Entries) := do
  let tool ← (acc.1.tools[i]?).elim (.error .outOfRange) Except.ok
  let step := outStepName c i tool
  let names ← (do Workflow.outNames (← (acc.1.step i).field "out") : Result (List String))
  let d ← names.foldlM (drawOutput c tool step) acc.1
  let scattered ← (d.step i).holds "scatter"
  let new ← (d.outputs.getD i []).mapM (outputOf step scattered)
  return (d, Entries.update acc.2 new)

def workflowOutputs (c : Scope) (d : Draft) : Result (Draft × Entries) :=
  (List.range c.keys.length).foldlM (stepOutputs c) (d, [])

def ontologySpace : String := "https://edamontology.org/"

def ontologySchema : String :=
  "https://raw.githubusercontent.com/edamontology/edamontology/master/EDAM_dev.owl"

def declaredSpaces (tree : Entries) : Result Entries :=
  match getD tree "$namespaces" (.map []) with
  | .null => .ok []
  | .map es => .ok es
  | _ => .error namespacesKind.failure

def declaredSchemas (tree : Entries) : Result (List Doc) :=
  match getD tree "$schemas" (.list []) with
  | .null => .ok []
  | .list xs => .ok xs
  | _ => .error schemasKind.failure

def addHeader (tree : Entries) : Result Entries := do
  let tree := put tree "cwlVersion" (getD tree "cwlVersion" (.str "v1.2"))
  let tree := put tree "class" (.str "Workflow")
  let spaces ← declaredSpaces tree
  let tree := put tree "$namespaces" (.map (put spaces "edam" (.str ontologySpace)))
  let schemas ← declaredSchemas tree
  if schemas.any (· == .str ontologySchema) then return tree
  else return put tree "$schemas" (.list (schemas ++ [.str ontologySchema]))

def noteAt (notes : Doc) (i : Nat) (key : String) : Result (Doc × String) := do
  let note ← notes.fieldD (placeKey i key) (.map [])
  let space ← (← note.fieldD "wic" (.map [])).fieldD "namespace" (.str globalSpace)
  return (note, space.text)

/-- The name of a step in the compiled workflow: workflows and known tools get a name that tells
the place, other steps keep their key. -/
def nameAt (c : Scope) (i : Nat) (key space : String) : String :=
  if Workflow.isSubKey key || c.setting.tools.has ⟨Path.stem key, space⟩ then
    stepName c.stem i key else key

def subGraph (key : String) (yml : Doc) : Result Graph := do
  let look ← (← yml.fieldD "wic" (.map [])).fieldD "graphviz" (.map [])
  let label ← look.fieldD "label" (.str key)
  let style ← look.fieldD "style" (.str "")
  let attrs : Entries :=
    [(.str "label", label), (.str "color", .str "lightblue")] ++
      (if style == .str "" then [] else [(.str "style", style)])
  let lines := (← Graph.drawn attrs).map fun a => Graph.Dot.attr a.1 a.2
  return (Graph.empty ("cluster_" ++ key) key).addLines lines

def underStep {α β : Type} (name : String) (text : α → String) (skip : α → Bool)
    (es : List (α × β)) : List (String × β) :=
  es.filterMap fun e => if skip e.1 then none else some (name ++ sep ++ text e.1, e.2)

def takeUp (c : Scope) (name : String) (env : Env) (d : Draft) : Draft :=
  let given := env.given.map fun e => ((Doc.str (name ++ sep ++ e.1.text), e.2) : Doc × Doc)
  let ins := underStep name Doc.text
    (fun k => (Workflow.InputMapping.get? c.task.inputMapping k).isSome) env.inputMapping
  let outs := underStep name id (fun k => has c.task.outputMapping k) env.outputMapping
  { d with
    given := update d.given given
    inputMapping := ins.foldl (fun m e => Workflow.InputMapping.put m (.str e.1) e.2) d.inputMapping
    outputMapping := update d.outputMapping outs
    internals := d.internals ++ env.internals
    edgeDefs := update d.edgeDefs env.edgeDefs
    edgeCalls := update d.edgeCalls env.edgeCalls }

/-- The annotations of the steps and of one of them, after the workflow that it is was compiled;
when steps were put in there, its annotations take the place of those that were given. -/
def noteAfter (i : Nat) (key : String) (old new notes note : Doc) : Logged (Doc × Doc) :=
  if old == new then return (notes, note)
  else do
    Logged.print ("AST modified " ++ key)
    let note := Doc.obj [("wic", ← new.fieldD "wic" (.map []))]
    let es ← notes.entries
    return (Doc.map (put es (placeKey i key) note), note)

def noteArgs : Doc → Doc
  | .map es => .map (remove es "wic")
  | n => n

def givenStep (step note : Doc) : Result Doc := do
  let id ← Workflow.requireId "step" step
  let given ← step.field "parentargs"
  let merged ← given.merge (noteArgs note)
  return .map (put (← merged.entries) "id" (.str id))

def subTask (c : Scope) (key name : String) (yml : Doc) (graph : Graph) (d : Draft) : Task :=
  ⟨key, yml, c.task.namespaces ++ [name], d.graphs ++ [graph], d.edgeDefs, d.edgeCalls,
    d.inputMapping, d.outputMapping, false⟩

abbrev Compiler := Task → Logged Compiled

def compileSub (sub : Compiler) (c : Scope) (i : Nat) (key name : String) (note : Doc) (d : Draft) :
    Logged (Draft × Doc × Tool) := do
  let yml ← (d.step i).field "subtree"
  let graph ← subGraph key yml
  let result ← sub (subTask c key name yml graph d)
  let part := result.tree.part
  let noted ← noteAfter i key yml part.yml d.notes note
  let step ← givenStep (d.step i) noted.2
  let d := { d with
    parts := d.parts ++ [result.tree]
    graphs := result.graphs.dropLast
    notes := noted.1
    steps := d.steps.set i step
    siblings := d.siblings ++ (result.graphs.getLast?).toList
    firsts := d.firsts ++ [part.firstName] }
  return (takeUp c name result.env d, noted.2, ⟨Path.stem key ++ ".cwl", part.cwl⟩)

def findTool (c : Scope) (i : Nat) (key name space : String) (d : Draft) :
    Result (Draft × Tool) := do
  let run ← (d.step i).fieldD "run" (.str "")
  let runStem :=
    match run with
    | .str s => Path.stem s
    | _ => ""
  let stem := Path.stem key
  match (c.setting.tools.get? ⟨stem, space⟩).or (c.setting.tools.get? ⟨runStem, globalSpace⟩) with
  | none => throw (noTool stem runStem).failure
  | some tool =>
    let part : Part :=
      ⟨[name], Path.stem tool.runPath, .map [], tool.cwl, tool.runPath, [], [], [], [], ""⟩
    return ({ d with parts := d.parts ++ [.node part []] }, tool)

def bringIn (sub : Compiler) (c : Scope) (i : Nat) (key name space : String) (note : Doc)
    (d : Draft) : Logged (Draft × Doc × Tool) :=
  if Workflow.isSubKey key then compileSub sub c i key name note d
  else do
    let found ← findTool c i key name space d
    return (found.1, note, found.2)

def runPath (c : Scope) (name : String) (isSub : Bool) (tool : Tool) : String :=
  let file := Path.stem tool.runPath ++ ".cwl"
  if c.setting.relativeRunPath then name ++ "/" ++ file
  else if isSub then join (c.task.namespaces ++ [name, file])
  else relative c.setting.cwd file "autogenerated/"

def setRun (c : Scope) (name : String) (i : Nat) (isSub : Bool) (tool : Tool) (d : Draft) :
    Result Draft := do
  let run ← (d.step i).fieldD "run" (.str "")
  let d ← (if run.isStr then d.setPart i "run" (.str (runPath c name isSub tool))
    else .ok d : Result Draft)
  let stated ← (d.step i).holds "in"
  if stated then return d else d.setPart i "in" (.map [])

def setTags (t : TagPaths) (cwd : String) (ins : Entries) (ns : Namespaces) (name : String)
    (calls : EdgeSites) : Entries × EdgeSites :=
  let val (s : String) : Doc := Doc.obj [(Yaml.inlineKey, .str s)]
  let tags := [("root_workflow_yml_path", absolute cwd (parent t.yaml)),
    ("cachedir_path", absolute cwd t.cachedir), ("homedir", t.homedir)]
  (tags.foldl (fun es e => put es e.1 (val e.2)) ins,
    tags.foldl (fun cs e => put cs (name ++ sep ++ e.1) ⟨ns ++ [name], e.1⟩) calls)

def tagStep (c : Scope) (name : String) (i : Nat) (d : Draft) : Result Draft := do
  match ← d.ins i with
  | .map ins =>
    let tagged := setTags c.setting.tags c.setting.cwd ins c.task.namespaces name d.edgeCalls
    (d.withCalls tagged.2).setPart i "in" (.map tagged.1)
  | _ => throw .wrongKind

def stepStyle (look : Doc) : Result String := do
  match ← look.fieldD "style" (.str "") with
  | .str t => return if t = "" then boxStyle else boxStyle ++ ", " ++ t
  | _ => throw .wrongKind

def drawStep (c : Scope) (s : Site) (d : Draft) : Result Draft := do
  let path := c.path s
  let label : Doc := .str (if c.setting.graph.labelSteps then s.name else s.key)
  let cls ← s.tool.cwl.field "class"
  if !(cls == .str "Workflow") then do
    let look ← (do (← s.note.fieldD "wic" (.map [])).fieldD "graphviz" (.map []) : Result Doc)
    let label ← look.fieldD "label" label
    let style ← stepStyle look
    let node := join path
    ({ d with lastNode := node }).addNode node (boxAttrs label (.str style) "lightblue")
  else if s.isSub && (c.task.namespaces.length : Int) < c.setting.graph.inlineDepth then
    return { d with lastNode := join path }
  else
    let node := Graph.shownName c.setting.graph path
    ({ d with lastNode := node }).addNode node (boxAttrs label (.str boxStyle) "lightblue")

def nameOutput (c : Scope) (s : Site) (acc : Draft × List Doc) (x : Doc) :
    Result (Draft × List Doc) :=
  match x with
  | .map [(.str k, v)] =>
    match under? v Yaml.anchorKey with
    | none => .ok (acc.1, acc.2 ++ [x])
    | some a => do
      let name ← edgeName a
      let site : EdgeSite := ⟨c.path s, k⟩
      if has acc.1.edgeDefs name then throw (multipleDefinitions name).failure
      else return ((acc.1.define name site).call name site, acc.2 ++ [.str k])
  | _ => .ok (acc.1, acc.2 ++ [x])

def nameOutputs (c : Scope) (s : Site) (d : Draft) : Result Draft := do
  let stated ← (d.step s.index).holds "out"
  let d ← (if stated then .ok d else d.setPart s.index "out" (.list []) : Result Draft)
  let out ← (d.step s.index).field "out"
  Workflow.checkOut out
  let named ← ((out.list?).getD []).foldlM (nameOutput c s) (d, [])
  named.1.setPart s.index "out" (.list named.2)

def requireAll (c : Scope) (s : Site) (provided : List Doc) (referred : List String) :
    List String → Draft → Logged (Draft × Option StepId)
  | [], d => return (d, none)
  | arg :: args, d => do
    let got ← require c s provided referred d arg
    match got.2.eraseDups, c.setting.options.insertSteps with
    | id :: more, true => do
      Logged.print ("Automaticaly inserting step " ++ (Doc.qual id.stem id.space).literal ++ " " ++
        toString s.index)
      Logged.printIf (!more.isEmpty)
        ("Warning! More than one step! Choosing " ++ (Doc.qual id.stem id.space).literal)
      return (got.1, some id)
    | _, _ => requireAll c s provided referred args got.1

def outputSigs (outs : Entries) : Result Entries :=
  outs.mapM fun e => return (e.1, ← Param.signature e.2 false)

def addOutputs (s : Site) (d : Draft) : Logged Draft := do
  let outs ← (do (← s.tool.cwl.field "outputs").entries : Result Entries)
  let sigs ← outputSigs outs
  Logged.printIf sigs.isEmpty ("Error! no outputs for step " ++ s.key)
  let step ← Workflow.addOut (d.step s.index) s.key (outs.map fun e => e.1.text)
  return (d.setStep s.index step).addOutputs sigs

def whenClause (args : List String) : String :=
  "$(" ++ Text.join " && " (args.map fun a => "inputs[\"" ++ a ++ "\"] != null") ++ ")"

def guardStep (c : Scope) (s : Site) (required : List String) (d : Draft) : Logged Draft :=
  if !c.setting.options.partialFailure || required.isEmpty then return d
  else do
    let guarded ← (d.step s.index).holds "when"
    Logged.printIf guarded "Warning! overwriting an existing \"when\" clause"
    d.setPart s.index "when" (.str (whenClause required))

def prepare (c : Scope) (name : String) (i : Nat) (key : String) (tool : Tool) (d : Draft) :
    Result Draft := do
  let d ← setRun c name i (Workflow.isSubKey key) tool (d.addTool tool)
  if key = "cwl_subinterpreter" then tagStep c name i d else return d

def bindInputs (c : Scope) (s : Site) (provided : List Doc) (d : Draft) :
    Logged (Draft × Option StepId × List String) := do
  let required ← requiredArgs s.tool s.params
  let cls ← s.tool.cwl.field "class"
  let d ← (if cls == .str "Workflow" then addOwnNames s.index required d else .ok d : Result Draft)
  let referred := required.filter fun a => has d.edgeCalls a
  let d ← drawStep c s d
  let d ← nameOutputs c s d
  let d ← provided.foldlM (provide c s) d
  let bound ← requireAll c s provided referred required d
  return (bound.1, bound.2, required)

/-- Compiles the step at a place. Gives the tool that has to be put in before it, if there is
one. -/
def compileStep (sub : Compiler) (c : Scope) (i : Nat) (key : String) (d : Draft) :
    Logged (Draft × Option StepId) := do
  let noted ← noteAt d.notes i key
  let name := nameAt c i key noted.2
  let run ← bringIn sub c i key name noted.2 noted.1 d
  let d ← prepare c name i key run.2.2 run.1
  let provided ← (do (← d.ins i).members : Result (List Doc))
  let params ← run.2.2.cwl.field "inputs"
  let s : Site := ⟨i, key, name, run.2.1, Workflow.isSubKey key, run.2.2, params⟩
  let bound ← bindInputs c s provided d
  match bound.2.1 with
  | some id => return (bound.1, some id)
  | none => do
    let d ← addOutputs s bound.1
    return (← guardStep c s bound.2.2 d, none)

def compileSteps (sub : Compiler) (c : Scope) :
    List String → Nat → Draft → Logged (Draft × Option (StepId × Nat))
  | [], _, d => return (d, none)
  | key :: keys, i, d => do
    let done ← compileStep sub c i key d
    match done.2 with
    | some id => return (done.1, some (id, i))
    | none => compileSteps sub c keys (i + 1) done.1

def ranks (c : Scope) (wic : Doc) : Result (List String) := do
  let look ← wic.fieldD "graphviz" (.map [])
  let pairs ← (← look.fieldD "ranksame" (.list [])).members
  pairs.mapM fun p =>
    match p with
    | .str s => do
      let (n, key) ← Workflow.parsePlace s
      return "\"" ++ join (c.task.namespaces ++ [stepName c.stem (n - 1) key]) ++ "\""
    | _ => .error .noPart

def ownOutputs (outs : Doc) (m : Workflow.OutputMapping) : Result Workflow.OutputMapping := do
  (← outs.entries).foldlM (fun m e => do
    match ← e.2.field "outputSource" with
    | .str s => return put m e.1.text (Text.replace s "/" sep)
    | _ => throw .noPart) m

def nameStep (c : Scope) (d : Draft) (i : Nat) : Result Doc := do
  let key := c.keys.getD i ""
  let noted ← noteAt d.notes i key
  let _ ← Workflow.requireId "step" (d.step i)
  let es ← (d.step i).entries
  return .map ((.str "id", .str (nameAt c i key noted.2)) :: remove es "id")

def nameSteps (c : Scope) (d : Draft) : Result (List Doc) :=
  (List.range c.keys.length).mapM (nameStep c d)

def annotations (tree : Entries) : Doc := getD tree "wic" (.map [])

def indent (ns : Namespaces) : String := String.join (ns.map fun _ => "  ")

def finish (c : Scope) (wic : Doc) (d : Draft) : Result (Draft × Entries × String) := do
  let ranks ← ranks c wic
  let drawn := d.onOwn fun g =>
    Graph.addSubgraphs c.setting.graph g d.siblings c.task.namespaces.length d.firsts ranks
  let first ← Workflow.firstName d.firsts c.stem c.task.namespaces c.keys Workflow.isSubKey
  let own ← d.ownInputs.entries
  let tree := put d.tree "inputs" (.map (update own d.inputs))
  let declared := getD tree "outputs" (.map [])
  let outMap ← ownOutputs declared d.outputMapping
  let brought ← workflowOutputs c
    { drawn with outputMapping := outMap, internals := d.internals.eraseDups }
  let stated ← declared.entries
  let tree := put tree "outputs" (.map (update stated brought.2))
  let tree := put tree "steps" (.list d.steps)
  let tree ← Workflow.addRequirements (.map tree) c.keys d.notes (c.keys.any Workflow.isSubKey)
  let steps ← nameSteps c d
  let tree ← tree.entries
  return (brought.1, put tree "steps" (.list steps), first)

def Draft.env (d : Draft) : Env :=
  ⟨d.inputMapping, d.outputMapping, d.given, d.internals, d.edgeDefs, d.edgeCalls⟩

def keysOf (steps : Doc) : Result (List String) := do
  let xs ← steps.members
  let keys := Workflow.stepKeys xs
  let _ ← Workflow.subKeys keys
  keys.mapM fun k => (k.str?).elim (.error .wrongKind) Except.ok

structure Opening where
  wic : Doc
  notes : Doc
  tree : Entries
  steps : List Doc
  keys : List String

def openWorkflow (t : Task) : Logged Opening := do
  let es ← t.yml.entries
  let wic := annotations es
  let notes ← wic.fieldD "steps" (.map [])
  let chosen ← Workflow.implementation (.map (remove es "wic")) wic (plain t.path)
  let steps ← chosen.2.field "steps"
  let keys ← keysOf steps
  if keys.isEmpty then throw noSteps.failure
  else do
    let tree ← (do addHeader (← chosen.2.entries) : Result Entries)
    return ⟨wic, notes, tree, (steps.list?).getD [], keys⟩

def Draft.start (t : Task) (o : Opening) : Draft :=
  { tree := o.tree, steps := o.steps, notes := o.notes, inputMapping := t.inputMapping
    outputMapping := t.outputMapping, edgeDefs := t.edgeDefs, edgeCalls := t.edgeCalls, graphs :=
      t.graphs }

def withInsertion (set : Setting) (t : Task) (id : StepId) (i : Nat) (d : Draft) :
    Result Compiled := do
  let yml ← insertStep set.rules t.yml id (set.tools.get? id) i
  let part : Part := ⟨t.namespaces, Path.stem t.path, yml,
    .map (put d.tree "steps" (.list d.steps)), "", [], t.edgeDefs, t.edgeCalls, d.inputs, ""⟩
  return ⟨.node part d.parts, d.env, d.graphs⟩

def conclude (c : Scope) (wic : Doc) (d : Draft) : Result Compiled := do
  let done ← finish c wic d
  let job ← jobInputs d.given
  let part : Part := ⟨c.task.namespaces, c.stem, c.task.yml, .map done.2.1,
    (d.tools.getLast?.map (·.runPath)).getD "", job, c.task.edgeDefs, c.task.edgeCalls,
    d.inputs, done.2.2⟩
  return ⟨.node part d.parts, done.1.env, done.1.graphs⟩

def compileOnce (sub : Compiler) (set : Setting) (t : Task) : Logged Compiled := do
  Logged.printIf (!set.testing) (" starting compilation of " ++ indent t.namespaces ++ t.path)
  let o ← openWorkflow t
  let c : Scope := ⟨set, t, Path.stem t.path, o.keys⟩
  let done ← compileSteps sub c o.keys 0 (.start t o)
  match done.2 with
  | some (id, i) => withInsertion set t id i done.1
  | none => do
    let r ← conclude c o.wic done.1
    Logged.printIf (!set.testing) ("finishing compilation of " ++ indent t.namespaces ++ t.path)
    return r

def rounds (once : Compiler) : Nat → Task → Logged Compiled
  | 0, t => once t
  | n + 1, t => do
    let r ← once t
    if t.yml == r.tree.part.yml || n = 0 then return r
    else rounds once n { t with yml := r.tree.part.yml }

/-- Compiles a workflow at its place. The depth of the workflow bounds the nesting. -/
def compileAt (set : Setting) : Nat → Task → Logged Compiled
  | 0, _ => throw .tooDeep
  | n + 1, t => do
    let r ← rounds (compileOnce (compileAt set n) set) maxRounds t
    if t.graphs.length = maxRounds + 1 then
      Logged.print (Workflow.yamlText r.tree.part.yml)
      throw tooManyRounds.failure
    return r

def keepRanks (old new : Graph) : Graph :=
  { new with data := { new.data with ranksame := old.data.ranksame } }

/-- Compiles a workflow with all workflows inside it. The ranks that it asks for are drawn, and are
not part of the nested view that it is given. -/
def compile (set : Setting) (t : Task) : Logged Compiled := do
  let r ← compileAt set (t.yml.depth + 2) t
  return { r with graphs := List.zipWith keepRanks t.graphs r.graphs }

end WorkflowInference.Compile
