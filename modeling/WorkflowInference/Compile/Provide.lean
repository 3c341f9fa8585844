import WorkflowInference.Compile.Draft
import WorkflowInference.Param.Type
import WorkflowInference.Yaml.Reader

/-!
Inputs that a step provides itself: a reference to a named output, a value, or a text that is left
as it is.
-/
namespace WorkflowInference.Compile

open Entries Namespaces

open Yaml (anchorKey aliasKey inlineKey)

structure Site where
  index : Nat
  key : String
  name : String
  note : Doc
  isSub : Bool
  tool : Tool
  params : Doc

namespace Site

def inName (s : Site) (arg : String) : String := s.name ++ sep ++ arg

end Site

def Scope.path (c : Scope) (s : Site) : Namespaces := c.task.namespaces ++ [s.name]

def source (name : String) : Doc := Doc.obj [("source", .str name)]

def edgeName (d : Doc) : Result String := if d.hashable then .ok d.text else .error .wrongKind

def under? (d : Doc) (k : String) : Option Doc := d.map?.bind fun es => get? es k

def sourceText (tails : Namespaces) (slot : String) : Result String :=
  match tails with
  | [] => .error .outOfRange
  | t :: ts => .ok (t ++ "/" ++ join (ts ++ [slot]))

/-- Binds an input to an output that has been given a name. When both ends lie in this workflow,
the input takes the output; when the call lies deeper, the input is brought up. -/
def bindReference (s : Site) (arg : String) (sig : Doc) (site : EdgeSite)
    (nsDef nsCall : Namespaces) (d : Draft) : Result Draft :=
  match (partition nsCall nsDef).2 with
  | [] =>
    if nsDef = nsCall then throw (Error.selfReference nsDef nsCall).failure
    else throw (Error.noCallTail nsDef nsCall).failure
  | [_] => do d.setIn s.index arg (source (← sourceText (partition nsDef nsCall).2 site.slot))
  | _ =>
    let inName := s.inName arg
    ((d.declare inName sig).call inName site).setIn s.index arg (source inName)

def drawReference (c : Scope) (s : Site) (arg : String) (site : EdgeSite)
    (nsDef nsCall : Namespaces) (d : Draft) : Result Draft := do
  let own ← d.ownInputs.holds arg
  let ends ← argEnds d.inputMapping (s.inName arg) arg own
  let out ← d.outputMapping.source (join (site.path ++ [site.slot]))
  let nsShown := if Text.startsWith out (join site.path) then (splitLast out).1 else nsDef
  let label := (splitLast site.slot).2
  d.onGraph (partition nsDef nsCall).1.length fun g => ends.foldl (fun g e =>
    Graph.addEdge c.setting.graph g nsShown (edgeEnd c.task.namespaces s.name e) label
      (some "blue")) g

def refer (c : Scope) (s : Site) (arg : String) (sig : Doc) (target : Doc) (d : Draft) :
    Result Draft := do
  let inName := s.inName arg
  let name ← edgeName target
  match d.edgeDefs.lookup name with
  | none =>
    if c.task.isRoot && !c.setting.testing then throw (Error.noDefinition name).failure
    else do
      let d ← (d.declare inName sig).setIn s.index arg (source inName)
      return d.call inName ⟨c.path s, arg⟩
  | some site =>
    let nsDef := site.path ++ (splitLast site.slot).1
    let nsCall := c.path s ++ (splitLast arg).1
    let d ← bindReference s arg sig site nsDef nsCall d
    drawReference c s arg site nsDef nsCall d

def givenSig (step : Doc) (arg : String) (sig : Doc) : Result Entries := do
  let scatter ← step.fieldD "scatter" (.list [])
  let es ← sig.entries
  let scattered ← scatter.holds arg
  if scattered then return put es "type" (Param.arrayOf (← sig.field "type")) else return es

def drawValue (c : Scope) (s : Site) (arg : String) (d : Draft) : Result Draft :=
  if c.setting.graph.showInputs then do
    let node := join (c.path s ++ [arg])
    let d ← d.addNode node (boxAttrs (.str arg) (.str boxStyle) "lightgreen")
    let d := d.onOwn fun g =>
      (g.addLines [Graph.Dot.edge node d.lastNode
        [("color", Graph.lineColor c.setting.graph)]]).addArrow node d.lastNode
    return d.onView fun v => v.addEdge node d.lastNode []
  else .ok d

def giveValue (c : Scope) (s : Site) (arg : String) (sig val : Doc) (d : Draft) : Result Draft := do
  let inName := s.inName arg
  let es ← givenSig (d.step s.index) arg sig
  let d := (d.declare inName (.map es)).give inName (.map (put es "value" val))
  let d ← d.setIn s.index arg (source inName)
  drawValue c s arg d

def addText (es : Entries) (k : String) (new : Doc) : Result Entries :=
  match get? es k with
  | none => .ok (put es k new)
  | some old =>
    match new with
    | .str t =>
      let t := "\\n" ++ t
      match old with
      | .str o => .ok (put es k (.str (o ++ t)))
      | .list xs => .ok (put es k (.list (xs ++ t.toList.map fun ch => .str (String.singleton ch))))
      | _ => .error .wrongKind
    | _ => .error .wrongKind

def describe (tree : Entries) (var sig : Doc) : Result Entries := do
  match get? tree "inputs" with
  | some (.map ins) =>
    match at? ins var with
    | some (.map es) =>
      let es ← addText es "doc" (← sig.fieldD "doc" (.str ""))
      let es ← addText es "label" (← sig.fieldD "label" (.str ""))
      return put tree "inputs" (.map (write ins var (.map es)))
    | some _ => throw .wrongKind
    | none => return tree
  | _ => return tree

def namesInput (d : Draft) (val : Doc) : Result Bool :=
  if val.hashable then d.ownInputs.includes val else .ok false

def keepRaw (s : Site) (arg : String) (sig val : Doc) (d : Draft) : Result Draft := do
  let tree ← (if val.hashable then describe d.tree val sig else .ok d.tree : Result Entries)
  let mapping :=
    if val.hashable then Workflow.InputMapping.add d.inputMapping val (s.inName arg)
      else d.inputMapping
  { d with tree, inputMapping := mapping }.setIn s.index arg val

/-- A value that is left as it is; unless raw values are allowed, it has to name an input of the
workflow. -/
def leaveRaw (c : Scope) (s : Site) (arg : String) (sig val : Doc) (d : Draft) : Logged Draft := do
  let known ← namesInput d val
  if !c.setting.options.allowRaw && !known then do
    Logged.print ("Warning! Did you forget to use !ii before " ++ val.text ++ " in " ++
      c.stem ++ ".wic?")
    Logged.print "If you want to compile the workflow anyway, use --allow_raw_cwl"
    throw (.exit "1")
  else keepRaw s arg sig val d

def encodedArgs : List String := ["config"]

def encoded (arg : String) (val : Doc) : Result Doc :=
  match encodedArgs.contains arg, under? val inlineKey with
  | true, some v => do return Doc.obj [(inlineKey, .str (← Json.text .compact v))]
  | _, _ => .ok val

def isAuxiliary (arg : String) : Bool := Text.startsWith arg "__" && Text.endsWith arg "__"

def giveAuxiliary (s : Site) (arg : String) (val : Doc) (d : Draft) : Result Draft := do
  let inName := s.inName arg
  let type ← val.field "type"
  let d := (d.declare inName (Doc.obj [("type", type)])).give inName
    (Doc.obj [("type", type), ("value", val)])
  d.setIn s.index arg (source inName)

def provideArg (c : Scope) (s : Site) (arg : String) (val : Doc) (d : Draft) : Logged Draft :=
  if isAuxiliary arg then giveAuxiliary s arg val d
  else do
    let sig ← (do Param.signature (← s.params.field arg) true : Result Doc)
    match under? val aliasKey, under? val inlineKey with
    | some target, _ => refer c s arg sig target d
    | none, some v => giveValue c s arg sig v d
    | none, none => leaveRaw c s arg sig val d

def provide (c : Scope) (s : Site) (d : Draft) (k : Doc) : Logged Draft := do
  let ins ← d.ins s.index
  let val ← ((ins.map?.bind fun es => at? es k).elim (.error .missingKey) Except.ok : Result Doc)
  let known ← s.params.includes k
  match k, known with
  | .str arg, true => do
    let val ← encoded arg val
    provideArg c s arg val d
  | _, _ => throw (Error.unknownInput k.text s.key).failure

end WorkflowInference.Compile
