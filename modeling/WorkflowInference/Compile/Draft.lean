import WorkflowInference.Compile.Error
import WorkflowInference.Graph.Basic
import WorkflowInference.Log
import WorkflowInference.Registry

/-!
What the compilation of a workflow is given, what it builds up step by step, and what it returns.
-/
namespace WorkflowInference.Compile

open Entries

open Workflow (InputMapping OutputMapping)

structure Options where
  partialFailure : Bool := false
  namingConventions : Bool := false
  insertSteps : Bool := false
  noInference : Bool := false
  allowRaw : Bool := false
  deriving Repr

structure TagPaths where
  cachedir : String
  yaml : String
  homedir : String
  deriving Repr

structure Setting where
  options : Options := {}
  graph : GraphSettings := {}
  tags : TagPaths
  tools : Registry
  rules : Entries := []
  renamings : List (String × String) := []
  relativeRunPath : Bool := true
  testing : Bool := true
  cwd : String

structure EdgeSite where
  path : Namespaces
  slot : String
  deriving DecidableEq, Repr

abbrev EdgeSites := List (String × EdgeSite)

structure Part where
  namespaces : Namespaces
  name : String
  yml : Doc
  cwl : Doc
  runPath : String
  jobInputs : Entries := []
  edgeDefs : EdgeSites := []
  edgeCalls : EdgeSites := []
  inputs : Entries := []
  firstName : String := ""

inductive PartTree where
  | node (part : Part) (subs : List PartTree)

namespace PartTree

def part : PartTree → Part
  | node p _ => p

def subs : PartTree → List PartTree
  | node _ ts => ts

mutual

def parts : PartTree → List Part
  | node p ts => p :: partsAll ts

def partsAll : List PartTree → List Part
  | [] => []
  | t :: ts => parts t ++ partsAll ts

def mapCwl (f : Part → Logged Doc) : PartTree → Logged PartTree
  | node p ts => do
    let d ← f p
    return node { p with cwl := d } (← mapCwlAll f ts)

def mapCwlAll (f : Part → Logged Doc) : List PartTree → Logged (List PartTree)
  | [] => return []
  | t :: ts => do
    let u ← mapCwl f t
    return u :: (← mapCwlAll f ts)

end

end PartTree

/-- What a workflow hands to the workflow around it. -/
structure Env where
  inputMapping : InputMapping
  outputMapping : OutputMapping
  given : Entries
  internals : List String
  edgeDefs : EdgeSites
  edgeCalls : EdgeSites

/-- The result of a compilation; `graphs` are those of the workflows around, then the own one. -/
structure Compiled where
  tree : PartTree
  env : Env
  graphs : List Graph

structure Task where
  path : String
  yml : Doc
  namespaces : Namespaces
  graphs : List Graph
  edgeDefs : EdgeSites
  edgeCalls : EdgeSites
  inputMapping : InputMapping
  outputMapping : OutputMapping
  isRoot : Bool

def Task.root (path : String) (yml : Doc) (graph : Graph) : Task :=
  ⟨path, yml, [], [graph], [], [], [], [], true⟩

structure Scope where
  setting : Setting
  task : Task
  stem : String
  keys : List String

/-- A workflow while its steps are compiled one after another. -/
structure Draft where
  tree : Entries
  steps : List Doc
  notes : Doc
  inputs : Entries := []
  given : Entries := []
  inputMapping : InputMapping
  outputMapping : OutputMapping
  outputs : List Entries := []
  internals : List String := []
  edgeDefs : EdgeSites
  edgeCalls : EdgeSites
  firsts : List String := []
  siblings : List Graph := []
  parts : List PartTree := []
  graphs : List Graph
  tools : List Tool := []
  lastNode : String := ""

namespace Draft

def step (d : Draft) (i : Nat) : Doc := d.steps.getD i .null

def setStep (d : Draft) (i : Nat) (s : Doc) : Draft := { d with steps := d.steps.set i s }

def ins (d : Draft) (i : Nat) : Result Doc := (d.step i).field "in"

def setIn (d : Draft) (i : Nat) (arg : String) (v : Doc) : Result Draft := do
  match d.step i with
  | .map es =>
    match get? es "in" with
    | some (.map ins) =>
      return d.setStep i (.map (put es "in" (.map (put ins arg v))))
    | some _ => throw .wrongKind
    | none => throw .missingKey
  | _ => throw .wrongKind

def setPart (d : Draft) (i : Nat) (k : String) (v : Doc) : Result Draft :=
  match d.step i with
  | .map es => .ok (d.setStep i (.map (put es k v)))
  | _ => .error .wrongKind

def declare (d : Draft) (name : String) (sig : Doc) : Draft :=
  { d with inputs := put d.inputs name sig }

def give (d : Draft) (name : String) (v : Doc) : Draft := { d with given := put d.given name v }

def define (d : Draft) (name : String) (s : EdgeSite) : Draft :=
  { d with edgeDefs := Keyed.put d.edgeDefs name s }

def call (d : Draft) (name : String) (s : EdgeSite) : Draft :=
  { d with edgeCalls := Keyed.put d.edgeCalls name s }

def withCalls (d : Draft) (calls : EdgeSites) : Draft := { d with edgeCalls := calls }

def addTool (d : Draft) (t : Tool) : Draft := { d with tools := d.tools ++ [t] }

def addOutputs (d : Draft) (outs : Entries) : Draft := { d with outputs := d.outputs ++ [outs] }

def ownInputs (d : Draft) : Doc := getD d.tree "inputs" (.map [])

def onGraph (d : Draft) (k : Nat) (f : Graph → Graph) : Result Draft :=
  match d.graphs[k]? with
  | some g => .ok { d with graphs := d.graphs.set k (f g) }
  | none => .error .outOfRange

def onOwn (d : Draft) (f : Graph → Graph) : Draft :=
  let k := d.graphs.length - 1
  match d.graphs[k]? with
  | some g => { d with graphs := d.graphs.set k (f g) }
  | none => d

/-- Changes the nested view that nodes are entered in: once a workflow among the steps has been
compiled, that is the view of the latest such workflow. -/
def onView (d : Draft) (f : GraphData → GraphData) : Draft :=
  match d.siblings.reverse with
  | [] => d.onOwn fun g => { g with data := f g.data }
  | g :: gs => { d with siblings := gs.reverse ++ [{ g with data := f g.data }] }

def addNode (d : Draft) (name : String) (attrs : Entries) : Result Draft := do
  let texts ← Graph.drawn attrs
  let d := d.onOwn fun g => (g.addLines [Graph.Dot.node name texts]).addName name
  return d.onView fun v => v.addNode name attrs

end Draft

def boxAttrs (label style : Doc) (fill : String) : Entries :=
  [(.str "label", label), (.str "shape", .str "box"), (.str "style", style),
    (.str "fillcolor", .str fill)]

def boxStyle : String := "rounded, filled"

def edgeEnd (ns : Namespaces) (step slot : String) : Namespaces :=
  let inner := (Namespaces.splitLast slot).1
  if Text.startsWith slot (Namespaces.join (ns ++ [step])) then inner
  else if Text.startsWith slot step then ns ++ inner
  else ns ++ [step] ++ inner

def argStart (m : InputMapping) (name arg : String) : List String :=
  if (InputMapping.get? m (.str name)).isSome then [name] else [arg]

def argEnds (m : InputMapping) (name arg : String) (own : Bool) : Result (List String) :=
  if own then .ok (argStart m name arg) else m.ends (argStart m name arg)

end WorkflowInference.Compile
