import WorkflowInference.Builder.Order
import WorkflowInference.Builder.Payload
import WorkflowInference.Yaml.Reader

/-!
Workflows from nodes and links. An output that a node names is marked with its name, an input that
is linked refers to the mark, and every other input is a value given in place.
-/
namespace WorkflowInference.Builder

open Entries

def stepKey : String := "_wic_step_id"

inductive LinkError where
  | noSource (link : Doc)
  | noTarget (link : Doc)

def LinkError.message : LinkError → String
  | noSource l => "output(s) of source node of edge" ++ l.literal ++ " must exist!"
  | noTarget l => "input(s) of target node of edge" ++ l.literal ++ " must exist!"

def LinkError.failure (e : LinkError) : Failure := .stated .assertion e.message

def sanitized (d : Doc) : String := Text.replace (Text.replace (Text.trim d.text) " " "_") "/" "_"

def stepName (node : Doc) : Result String := do
  let plugin := (Text.splitOn "@" (← node.fieldD "pluginId" (.str "")).text).headD ""
  let names :=
    [← node.fieldD stepKey (.str ""), .str plugin, ← node.fieldD "name" (.str "")].map sanitized
  return (names.find? (· != "")).getD ("step_" ++ (← node.fieldD "id" (.str "unknown")).text)

def marked (mark : String) (text : String) : Result Doc := Yaml.read (mark ++ " " ++ text)

def inPlace (d : Doc) : Result Doc := marked "!ii" d.text

def reference (out : Doc) : Result Doc :=
  let name :=
    match out with
    | .map es => getD es "wic_anchor" out
    | d => d
  marked "!*" name.text

def dropKeys (d : Doc) (ks : List String) : Doc :=
  match d with
  | .map es => .map (ks.foldl remove es)
  | d => d

def markOutput (e : Doc × Doc) : Result Doc := do
  match e.2 with
  | .str v => return Doc.map [(e.1, ← marked "!&" v)]
  | _ => .error .wrongKind

def openNode (node : Doc) : Result Doc := do
  let node := setKey node stepKey (.str (← stepName node))
  let settings ← node.fieldD "settings" .null
  if !settings.truthy then return node
  let node := setKey node "in" (← settings.fieldD "inputs" .null)
  let outs ← settings.fieldD "outputs" .null
  let node ←
    if outs.truthy then do
      let es ← (← outs.entries).mapM markOutput
      pure (setKey node "out" (.list es))
    else pure node
  return dropKeys node ["name", "internal"]

abbrev Settled := List (Doc × List Doc)

namespace Settled

def add (s : Settled) (id : Doc) : Settled := if s.any (·.1 == id) then s else s ++ [(id, [])]

def mark (s : Settled) (id key : Doc) : Settled :=
  s.map fun e => if e.1 == id then (e.1, e.2 ++ [key]) else e

def of (s : Settled) (id : Doc) : List Doc := ((s.find? (·.1 == id)).map (·.2)).getD []

end Settled

def placeInputs (ins : Doc) : Result (Doc × List Doc) := do
  match ins with
  | .map es =>
    let fs ← es.mapM fun e => do
      if e.2.text == "" then return e else return (e.1, ← inPlace e.2)
    return (.map fs, (es.filter fun e => e.2.text != "").map (·.1))
  | _ => .error .wrongKind

def placeSource (targets : List Doc) (nodes : List Doc × Settled) (node : Doc) :
    Result (List Doc × Settled) := do
  let id ← node.field "id"
  if targets.any (· == id) then return (nodes.1 ++ [node], nodes.2)
  if !id.hashable then .error .wrongKind
  let settled := nodes.2.add id
  let ins ← node.fieldD "in" .null
  if !ins.truthy then return (nodes.1 ++ [node], settled)
  let (ins, keys) ← placeInputs ins
  return (nodes.1 ++ [setKey node "in" ins], keys.foldl (fun s k => s.mark id k) settled)

def placeOf (id : Doc) : List Doc → Nat → Result (Option Nat)
  | [], _ => .ok none
  | n :: ns, i => do if (← n.field "id") == id then return some i else placeOf id ns (i + 1)

def linkEnds (nodes : List Doc) (link : Doc) : Result (Nat × Nat) := do
  let source ← link.field "sourceId"
  let target ← link.field "targetId"
  let s ← placeOf source nodes 0
  let t ← placeOf target nodes 0
  match s, t with
  | none, _ => .error (LinkError.noSource link).failure
  | _, none => .error (LinkError.noTarget link).failure
  | some s, some t => return (s, t)

def nodeIn (nodes : List Doc) (i : Nat) : Doc := (nodes[i]?).getD .null

def setInput (node key value : Doc) : Result Doc := do
  match ← node.field "in" with
  | .map es => return setKey node "in" (.map (write es key value))
  | _ => .error .wrongKind

def firstOutput (node name : Doc) : Result Doc := do
  (← (← node.field "out").index (.int 0)).index name

def followInlet (known : List (Doc × Face)) (st : List Doc × Settled) (link : Doc) :
    Result (List Doc × Settled) := do
  let (s, t) ← linkEnds st.1 link
  let (source, target) := (nodeIn st.1 s, nodeIn st.1 t)
  let sid ← link.field "sourceId"
  let tid ← link.field "targetId"
  if !(sid.hashable && tid.hashable) then .error .wrongKind
  let settled := (st.2.add sid).add tid
  let some (out, inp) ← linkedNames known source target link | return (st.1, settled)
  if (← target.fieldD "in" .null).truthy then
    let target ← setInput target inp (← reference (← firstOutput source out))
    return (st.1.set t target, settled.mark tid inp)
  else return (st.1, settled)

def nameOutput (outs : Doc) (s : Doc × Settled) (key : Doc) : Result (Doc × Settled) := do
  let v ← outs.index key
  if v.text == "" then return s
  else
    let node ← setInput s.1 key (← inPlace v)
    let id ← node.field "id"
    if s.2.any fun e => e.1 == id then return (node, s.2.mark id key) else .error .missingKey

def placeUnless (done : List Doc) (e : Doc × Doc) : Result (Doc × Doc) := do
  if done.any (· == e.1) then return e else return (e.1, ← inPlace e.2)

def placeRest (settled : Settled) (node : Doc) : Result (Doc × Settled) := do
  let outs ← (← node.field "settings").fieldD "outputs" (.map [])
  let (node, settled) ← (← outs.members).foldlM (nameOutput outs) (node, settled)
  let node := dropKeys node ["settings"]
  match node.map?.bind fun es => get? es "in" with
  | none => return (node, settled)
  | some ins =>
    let id ← node.field "id"
    let es ← (← ins.entries).mapM (placeUnless (settled.of id))
    return (setKey node "in" (.map es), settled)

def refer (s t : Nat) (nodes : List Doc) (k : Doc) : Result (List Doc) := do
  let target := nodeIn nodes t
  if ((at? (← (← target.field "in").entries) k).getD .null).truthy then
    return nodes.set t (← setInput target k (← reference (← firstOutput (nodeIn nodes s) k)))
  else return nodes

/-- Follows a link by name: inputs of the target named as outputs of the source refer to them, and
every other value is given in place. -/
def followNames (nodes : List Doc) (link : Doc) : Result (List Doc) := do
  let (s, t) ← linkEnds nodes link
  let (source, target) := (nodeIn nodes s, nodeIn nodes t)
  if !((← source.fieldD "out" .null).truthy && (← target.fieldD "in" .null).truthy) then
    return nodes
  let outs ← (← (← source.field "out").members).mapM fun o => do return (← o.entries).map (·.1)
  let outs := outs.flatten
  let _ ← (← target.field "in").entries
  let nodes ← outs.foldlM (refer s t) nodes
  let target := nodeIn nodes t
  let es ← (← (← target.field "in").entries).mapM (placeUnless outs)
  return nodes.set t (setKey target "in" (.map es))

def closeNode (node : Doc) : Result Doc := do
  return dropKeys (setKey node "id" (.str (← stepName node))) ["pluginId", stepKey]

def closeNext (s : List Doc × List Nat) (id : Doc) : Result (List Doc × List Nat) := do
  match ← placeOf id s.1 0 with
  | some i => return (s.1.set i (← closeNode (nodeIn s.1 i)), s.2 ++ [i])
  | none => return s

def closeNodes (order : List Doc) (nodes : List Doc) : Result (List Doc × List Nat) :=
  order.foldlM closeNext (nodes, [])

def endsOf (links : List Doc) : Result (List (Doc × Doc)) :=
  links.mapM fun l => do
    let s ← l.field "sourceId"
    let t ← l.field "targetId"
    if s.hashable && t.hashable then return (s, t) else .error .wrongKind

def placeAll (settled : Settled) (nodes : List Doc) : Result (List Doc) := do
  let (nodes, _) ← nodes.foldlM (fun (done, settled) n => do
    let (n, settled) ← placeRest settled n
    return (done ++ [n], settled)) ([], settled)
  return nodes

/-- The nodes with what the links join. With plugins the links join outlets and inlets by their
places; without them they join what has the same name. -/
def joinNodes (plugins : List Doc) (known : List (Doc × Face)) (links nodes : List Doc) :
    Result (List Doc) := do
  let targets ← links.mapM (·.field "targetId")
  let (nodes, settled) ← nodes.foldlM (placeSource targets) ([], [])
  if plugins.isEmpty then links.foldlM followNames (nodes.map fun n => dropKeys n ["settings"])
  else
    let (nodes, settled) ← links.foldlM (followInlet known) (nodes, settled)
    placeAll settled nodes

/-- The workflow of nodes that are joined: all that have a place in the order of the links, or the
first one when there are no links. -/
def layOut (links nodes : List Doc) : Result Doc := do
  if links.isEmpty then
    let first ← (Doc.list nodes).index (.int 0)
    let step ← closeNode first
    let script ← step.fieldD "cwlScript" .null
    return if script.truthy then script else Doc.obj [("steps", .list [step])]
  else
    let (nodes, places) ← closeNodes (Order.ofLinks (← endsOf links)) nodes
    return Doc.obj [("steps", .list (places.map (nodeIn nodes)))]

def toWorkflow (d : Doc) (plugins : List Doc) : Result Doc := do
  let (known, _) ← faces plugins
  let nodes ← (← (← d.field "nodes").members).mapM openNode
  let links ← (← d.field "links").members
  layOut links (← joinNodes plugins known links nodes)

end WorkflowInference.Builder
