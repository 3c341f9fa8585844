import WorkflowInference.Builder.Plugin
import WorkflowInference.Schema.Validity

/-!
Payloads of a workflow builder: nodes and links between them, with the plugins that the nodes use. A
payload is completed by naming the outputs that have no name and by passing those names along the
links; then all that is not needed any more is dropped.
-/
namespace WorkflowInference.Builder

open Entries

namespace PayloadSchema

open Schema (fieldsOf)

def ofType (t : String) : Doc := Doc.obj [("type", .str t)]

def listOf (item : Doc) : Doc := Doc.obj [("items", item), ("type", .str "array")]

def record (members : List (String × Doc)) (required : List String) : Doc :=
  Doc.obj ([("properties", Doc.obj members)] ++
    (if required.isEmpty then [] else [("required", Doc.strs required)]) ++
    [("type", .str "object")])

def text : Doc := ofType "string"

def number : Doc := ofType "number"

def flag : Doc := ofType "boolean"

def texts : Doc := listOf text

def linkKeys : List String := ["id", "sourceId", "targetId", "inletIndex", "outletIndex"]

def link : Doc := record (fieldsOf number (linkKeys ++ ["x1", "x2", "y1", "y2"])) linkKeys

def nodeKeys : List String := ["id", "name", "pluginId", "settings", "internal"]

def settings : Doc :=
  record [("inputs", Doc.obj [("additionalProperties", .map []), ("type", .str "object")]),
    ("outputs", Doc.obj [("additionalProperties", text), ("type", .str "object")])] []

def node : Doc :=
  record (fieldsOf flag ["expanded", "internal"] ++
    fieldsOf number ["height", "id", "width", "x", "y", "z"] ++
    fieldsOf text ["name", "pluginId"] ++ [("settings", settings)]) nodeKeys

def output : Doc :=
  record (fieldsOf text ["description", "name", "type"] ++ [("format", texts), ("required", flag)])
    ["name", "type"]

def input : Doc :=
  record (fieldsOf text ["description", "name", "type"] ++
    [("format", texts), ("options", record [("values", texts)] ["values"]), ("required", flag)])
    ["name", "type"]

def field : Doc :=
  record (fieldsOf text ["condition", "description", "key", "placeholder", "title", "type"] ++
    fieldsOf texts ["fields", "format"] ++
    [("required", flag)]) ["key", "title", "description", "type"]

def plugin : Doc :=
  record ([("author", Doc.obj [("type", Doc.strs ["string", "array"])]),
    ("hardware", ofType "object"),
    ("internal", flag), ("inputs", listOf input), ("outputs", listOf output),
    ("ui", listOf field)] ++
    fieldsOf texts ["baseCommand", "tags"] ++
    fieldsOf text ["contact", "container", "createdAt", "createdBy", "description", "documentation",
    "entrypoint", "id",
      "institution", "name", "path", "pid", "repository", "specVersion", "title", "updatedAt",
      "updatedBy",
      "version"])
    ["id", "pid", "name", "version", "title", "description", "inputs", "outputs", "ui"]

def stateKeys : List String := ["links", "nodes"]

def state : Doc :=
  record [("links", listOf link), ("nodes", listOf node), ("selection", listOf number)] stateKeys

def payload : Doc := record [("plugins", listOf plugin), ("state", state)] ["state", "plugins"]

end PayloadSchema

inductive PayloadError where
  | incoming
  | updated

def PayloadError.message : PayloadError → String
  | incoming => "Incoming WFB payload does not match the input object schema."
  | updated => "Updated WFB payload does not match the input object schema."

def PayloadError.failure (e : PayloadError) : Failure := .stated .value e.message

def checkPayload (e : PayloadError) (d : Doc) : Result Unit := do
  if ← Schema.accepts [] PayloadSchema.payload d then return () else .error e.failure

namespace Payload

def change (d : Doc) (k : String) (f : Doc → Result Doc) : Result Doc := do
  match d with
  | .map es => return .map (put es k (← f (← d.field k)))
  | _ => .error .wrongKind

def byName (params : Doc) : Result Entries := do
  (← params.members).foldlM (fun es p => do
    let n ← p.fieldD "name" .null
    if n.hashable then return write es n p else .error .wrongKind) []

def completeField (inputs outputs : Entries) (f : Doc) : Result Doc := do
  match ← f.fieldD "name" .null, f with
  | .str name, .map es =>
    let input := get? inputs name
    let output := get? outputs name
    let es :=
      if has es "key" then es
      else
        let side := if output.isSome && input.isNone then "outputs" else "inputs"
        put es "key" (.str (side ++ "." ++ name))
    let pick (d : Option Doc) : Option Doc := d.filter Doc.truthy
    let source := (pick input <|> pick output).getD (.map [])
    let dflt (es : Entries) (k : String) (v : Doc) : Entries := if has es k then es else put es k v
    let es := dflt es "title" (.str name)
    let es := dflt es "description" (← source.fieldD "description" (.str name))
    return .map (dflt es "type" (← source.fieldD "type" (.str "string")))
  | _, f => return f

def completeFields (plugin : Doc) : Result Doc := do
  let inputs ← byName (← plugin.fieldD "inputs" (.list []))
  let outputs ← byName (← plugin.fieldD "outputs" (.list []))
  let fields ← (← (← plugin.fieldD "ui" (.list [])).members).mapM (completeField inputs outputs)
  return withItems plugin "ui" fields

def withFields (d : Doc) : Result Doc := do
  let plugins ← (← (← d.fieldD "plugins" (.list [])).members).mapM completeFields
  return withItems d "plugins" plugins

def outputName (name : String) (id : Doc) (output : String) : String :=
  Text.lower (Text.replace name " " "") ++ "_" ++ id.text ++ "-" ++ output

def nameOutputs (outlets : List (Doc × Doc)) (node : Doc) : Result Doc := do
  let .str name ← node.field "name" | .error .noPart
  let id ← node.field "id"
  change node "settings" fun settings => do
    let settings ←
      match settings with
      | .map es => .ok (if has es "outputs" then es else put es "outputs" (.map []))
      | _ => .error .wrongKind
    change (.map settings) "outputs" fun outs => do
      let declared ← ((at? outlets (← node.field "pluginId")).getD (.list [])).members
      let outs ← outs.entries
      let outs ← declared.foldlM (fun outs o => do
        if (← o.field "type") == .str "path" then
          match ← o.field "name" with
          | .str n =>
            return if has outs n then outs else put outs n (.str (outputName name id n))
          | _ => .error .wrongKind
        else return outs) outs
      return .map outs

def nodeAt (nodes : List Doc) (id : Doc) : Result Nat := do
  let at' (i : Nat) : Bool :=
    (nodes[i]?.bind fun n => (n.map?).bind fun es => get? es "id").any (· == id)
  match ((List.range nodes.length).filter at').getLast? with
  | some i => return i
  | none => .error .missingKey

def passLink (known : List (Doc × Face)) (nodes : List Doc) (link : Doc) : Result (List Doc) := do
  let s ← nodeAt nodes (← link.field "sourceId")
  let t ← nodeAt nodes (← link.field "targetId")
  let source := (nodes[s]?).getD .null
  let target := (nodes[t]?).getD .null
  let some (out, inp) ← linkedNames known source target link | return nodes
  let value ← (← (← source.field "settings").field "outputs").index out
  let target ← change target "settings" fun st => change st "inputs" fun ins => do
    match ins with
    | .map es => return .map (write es inp value)
    | _ => .error .wrongKind
  return nodes.set t target

def complete (d : Doc) : Result Doc := do
  let d ← withFields d
  checkPayload .incoming d
  let plugins ← (← d.field "plugins").members
  if plugins.isEmpty then return d
  let (known, plugins) ← faces plugins
  let outlets : List (Doc × Doc) ← plugins.foldlM (fun es p => do
    let pid ← p.fieldD "pid" (.str "")
    if pid == .str "" then return es else return write es pid (← p.fieldD "outputs" (.list []))) []
  let state ← d.field "state"
  let nodes ← (← (← state.field "nodes").members).mapM (nameOutputs outlets)
  let nodes ← (← (← state.field "links").members).foldlM (passLink known) nodes
  let d ← change d "plugins" fun _ => .ok (.list plugins)
  let d ← change d "state" fun s => change s "nodes" fun _ => .ok (.list nodes)
  checkPayload .updated d
  return d

def keepKeys (keys : List String) (ds : Doc) : Result Doc := do
  return .list (← (← ds.members).mapM fun d => do
    return .map ((← d.entries).filter fun e => keys.any fun k => e.1 == .str k))

def withTool (toolOf : Doc → Result Doc) (plugins : List Doc) (node : Doc) : Result Doc := do
  let pid ← node.field "pluginId"
  let found ← plugins.findM? fun p => do return (← p.field "pid") == pid
  match found, node with
  | some p, .map es => return .map (put es "run" (← toolOf p))
  | _, n => return n

def steps (toolOf : Doc → Result Doc) (d : Doc) : Result Doc := do
  let state ← d.field "state"
  let nodes ← (← (← state.field "nodes").members).filterM fun n => do
    return !(← n.field "internal").truthy
  let ids ← nodes.mapM (·.field "id")
  let links ← (← (← state.field "links").members).filterM fun l => do
    if ids.any (· == (← l.field "sourceId")) then return ids.any (· == (← l.field "targetId"))
      else return false
  let plugins ← (← d.field "plugins").members
  let nodes ← nodes.mapM (withTool toolOf plugins)
  let rest := (← state.entries).filter fun e => !(e.1 == .str "nodes") && !(e.1 == .str "links")
  return .map (rest ++ [(.str "nodes", .list nodes), (.str "links", .list links)])

def slimEntry (e : Doc × Doc) : Result (Doc × Doc) := do
  if e.1 == .str "links" then return (e.1, ← keepKeys PayloadSchema.linkKeys e.2)
  else return (e.1, ← keepKeys (PayloadSchema.nodeKeys ++ ["cwlScript", "run"]) e.2)

def slim (toolOf : Doc → Result Doc) (d : Doc) : Result Doc := do
  let plugins ← d.fieldD "plugins" .null
  let state ← if plugins.truthy then steps toolOf d else d.field "state"
  let kept := (← state.entries).filter fun e => PayloadSchema.stateKeys.any fun k => e.1 == .str k
  return .map (← kept.mapM slimEntry)

end Payload

end WorkflowInference.Builder
