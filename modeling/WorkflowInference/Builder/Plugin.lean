import WorkflowInference.Failure

/-!
Plugins of a workflow builder: descriptions of tools with the form fields that a user sees. The
inputs that are files or directories are the inlets of a node; all other inputs are fields. A plugin
can be read as the tool that it describes.
-/
namespace WorkflowInference.Builder

open Entries

def fileTypes : List String := ["directory", "file", "path", "collection", "csvCollection"]

def isFolder (param : Doc) : Result Bool := do
  let type ← param.fieldD "type" (.str "")
  if fileTypes.any fun t => type == .str t then return true
  match ← param.fieldD "name" (.str "") with
  | .str n =>
    let n := Text.lower n
    return n == "file" || Text.endsWith n "path" || Text.endsWith n "dir"
  | _ => .error .noPart

def setKey (d : Doc) (k : String) (v : Doc) : Doc :=
  match d with
  | .map es => .map (put es k v)
  | d => d

def withItems (d : Doc) (k : String) (items : List Doc) : Doc :=
  if items.isEmpty then d else setKey d k (.list items)

structure Face where
  fields : List Doc
  inlets : List Doc
  outlets : Doc

namespace Face

def doc (f : Face) : Doc :=
  Doc.obj [("ui", .list f.fields), ("inputs", .list f.inlets), ("outputs", f.outlets)]

def keyOf (side : String) (param : Doc) : Result String := do
  match ← param.field "name" with
  | .str n => return side ++ "." ++ n
  | _ => .error .wrongKind

def fieldAt (side : String) (param : Doc) : List Doc → Nat → Result (Option Nat)
  | [], _ => .ok none
  | f :: fs, i => do
    if ← f.holds "key" then
      if (← f.field "key") == .str (← keyOf side param) then return some i
        else fieldAt side param fs (i + 1)
    else fieldAt side param fs (i + 1)

inductive Field where
  | kept (place : Nat)
  | made (d : Doc)

/-- The fields and inlets of the inputs, taken from the last to the first. A field takes over
whether its input is required, and its format. -/
def inputsOf : List Doc → List Doc → Result (List Doc × List Field × List Doc)
  | fields, [] => .ok (fields, [], [])
  | fields, param :: params => do
    let place ← fieldAt "inputs" param fields 0
    if ← isFolder param then
      let (fields, shown, inlets) ← inputsOf fields params
      return (fields, shown, param :: inlets)
    let (fields, own) ←
      match place with
      | none =>
        pure (fields, Field.made (Doc.obj [("key", .str (← keyOf "inputs" param)),
          ("type", ← param.field "type"), ("title", ← param.field "name"),
          ("required", ← param.field "required"), ("format", ← param.field "format")]))
      | some i =>
        let required ← param.field "required"
        let format ← param.field "format"
        pure (fields.modify i fun f =>
          setKey (setKey f "required" required) "format" format, .kept i)
    let (fields, shown, inlets) ← inputsOf fields params
    return (fields, own :: shown, inlets)

def ofPlugin (plugin : Doc) : Result (Face × List Doc) := do
  let fields ← (← plugin.fieldD "ui" (.list [])).members
  let inputs ← (← plugin.fieldD "inputs" (.list [])).members
  let (fields, shown, inlets) ← inputsOf fields inputs.reverse
  let outlets ← plugin.fieldD "outputs" (.list [])
  let outs ← (← outlets.members).filterMapM fun o => do
    return (← fieldAt "outputs" o fields 0).map Field.kept
  let look (f : Field) : Option Doc :=
    match f with
    | .kept i => fields[i]?
    | .made d => some d
  return (⟨(shown ++ outs).filterMap look, inlets, outlets⟩, fields)

end Face

def faces (plugins : List Doc) : Result (List (Doc × Face) × List Doc) :=
  plugins.foldlM (fun (known, done) plugin => do
    let pid ← plugin.fieldD "pid" (.str "")
    if pid == .str "" then return (known, done ++ [plugin])
    else
      let (face, fields) ← Face.ofPlugin plugin
      if !pid.hashable then .error .wrongKind
      else return (known.filter (fun k => !(k.1 == pid)) ++ [(pid, face)],
        done ++ [withItems plugin "ui" fields])) ([], [])

def faceOf (known : List (Doc × Face)) (pid : Doc) : Result (Option Face) :=
  if pid.hashable then .ok ((known.find? fun k => k.1 == pid).map (·.2)) else .error .wrongKind

def linkedNames (known : List (Doc × Face)) (source target link : Doc) :
    Result (Option (Doc × Doc)) := do
  match ← faceOf known (← source.field "pluginId"), ← faceOf known (← target.field "pluginId") with
  | some sf, some tf =>
    let inlet ← link.field "inletIndex"
    let outlet ← link.field "outletIndex"
    return some (← (← sf.outlets.index outlet).field
      "name", ← (← (Doc.list tf.inlets).index inlet).field "name")
  | _, _ => return none

inductive ParameterType where
  | string | number | array | boolean | path
  deriving DecidableEq

namespace ParameterType

def names : ParameterType → String × String
  | .string => ("string", "string")
  | .number => ("number", "double")
  | .array => ("array", "string")
  | .boolean => ("boolean", "boolean")
  | .path => ("path", "Directory")

def ofName? (s : String) : Option ParameterType :=
  [string, number, array, boolean, path].find? (·.names.1 == s)

end ParameterType

structure Parameter where
  name : String
  type : ParameterType
  dflt : Doc
  required : Bool
  format : Doc

namespace Parameter

def ofDoc (d : Doc) : Result Parameter := do
  let es := d.fields
  let description := getD es "description" .null
  let format := getD es "format" .null
  match get? es "name", (get? es "type").bind Doc.str? |>.bind ParameterType.ofName?,
    get? es "required" with
  | some (.str n), some t, some (.bool r) =>
    let texts := format.list?.any fun xs => xs.all Doc.isStr
    if (texts || format.isMap) && (description.isNull || description.isStr) then
      return ⟨n, t, getD es "defaultValue" .null, r, format⟩
    else .error .badModel
  | _, _, _ => .error .badModel

def formatOf (uri : Doc) : Result String :=
  match uri with
  | .str s => .ok ("edam:format_" ++ (Text.splitOn "_" s).getLastD "")
  | _ => .error .noPart

def formatEntry (p : Parameter) : Result (List (String × Doc)) :=
  match p.format with
  | .map es =>
    match getD es "uri" .null with
    | .null => .ok []
    | uri => (formatOf uri).map fun f => [("format", .str f)]
  | _ => .ok []

def isOptional (p : Parameter) : Bool := !p.dflt.isNull || !p.required

def input (p : Parameter) : Result Doc := do
  return Doc.obj ([("inputBinding", Doc.obj [("prefix", .str ("--" ++ p.name))]),
    ("type", .str (p.type.names.2 ++ if p.isOptional then "?" else ""))] ++ (← p.formatEntry) ++
    if p.dflt.isNull then [] else [("default", p.dflt)])

def output (p : Parameter) (names : List String) : Result Doc := do
  if p.type = .path && names.contains p.name then
    let folder ← isFolder (Doc.obj [("name", .str p.name)])
    return Doc.obj
      ([("outputBinding", Doc.obj [("glob", .str ("$(inputs." ++ p.name ++ ".basename)"))]),
      ("type", .str (if folder then "Directory" else "File"))] ++ (← p.formatEntry))
  else .error (.stated (.named "NotImplementedError") ("Output not supported " ++ p.name))

end Parameter

def toolOf (plugin : Doc) : Result Doc := do
  let es := plugin.fields
  let read (k : String) : Result (List Parameter) :=
    match get? es k with
    | some (.list ps) => ps.mapM Parameter.ofDoc
    | _ => .error .badModel
  let inputs ← read "inputs"
  let outputs ← read "outputs"
  let names := outputs.map (·.name)
  let ins ← (inputs ++ outputs).mapM fun p => do return (Doc.str p.name, ← p.input)
  let outs ← outputs.mapM fun p => do return (Doc.str p.name, ← p.output names)
  let staged := if names.contains "outDir" then
      [("InitialWorkDirRequirement",
        Doc.obj [("listing", .list [Doc.obj [("entry", .str "$(inputs.outDir)"),
        ("writable", .bool true)]])]), ("InlineJavascriptRequirement", .map [])]
    else []
  let requirements :=
    [("DockerRequirement", Doc.obj [("dockerPull", getD es "container" .null)])] ++ staged ++
    [("NetworkAccess", Doc.obj [("networkAccess", .bool true)])]
  return Doc.obj [("class", .str "CommandLineTool"), ("cwlVersion", .str "v1.2"),
    ("inputs", .map (ofPairs ins)), ("outputs", .map (ofPairs outs)),
    ("requirements", Doc.obj requirements), ("baseCommand", .list []),
    ("label", getD es "title" .null),
    ("doc", .str ((get? es "documentation").getD .null).text)]

end WorkflowInference.Builder
