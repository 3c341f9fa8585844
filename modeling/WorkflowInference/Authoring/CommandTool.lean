import WorkflowInference.Authoring.Spec
import WorkflowInference.Log
import WorkflowInference.Yaml.Writer

/-!
Descriptions of command line tools that are built step by step. A tool starts from its name, its
inputs and its outputs; each operation adds to it, and the document is made at the end. Raw maps
that an author puts in by hand may not assemble documents from other documents, nor set what the
tool sets itself.
-/
namespace WorkflowInference.Authoring

open Entries

def assemblyKeys : List String := ["$graph", "$import", "$include", "$mixin"]

def managedKeys : List String :=
  ["$namespaces", "$schemas", "arguments", "baseCommand", "class", "cwlVersion", "doc", "hints",
    "id", "inputs", "intent", "label", "outputs", "permanentFailCodes", "requirements", "stderr",
    "stdin", "stdout", "successCodes", "temporaryFailCodes"]

inductive RawError where
  | notMap (context : String)
  | badKeys (context : String)
  | assembly (context : String) (keys : List String)
  | managed (context : String) (keys : List String)
  | classKey (context : String)
  | dollarKeys (context : String)
  | badClass (name : String)
  | noClass
  | badRequirement
  | badArgument

def RawError.message : RawError → String
  | notMap c => c ++ " must be a mapping"
  | badKeys c => c ++ " keys must be non-empty strings"
  | assembly c ks => c ++ " does not accept SALAD document-assembly keys: " ++ Text.join ", " ks
  | managed c ks => c ++ " cannot override builder-managed keys: " ++ Text.join ", " ks
  | classKey c => c ++ " cannot set 'class' directly"
  | dollarKeys c => c ++ " does not accept raw '$'-prefixed document keys"
  | badClass n => "invalid requirement class name " ++ Text.quoted n
  | noClass => "raw requirement dicts must include a 'class' key"
  | badRequirement => "requirement must be a class name, requirement spec, or raw dict"
  | badArgument => "argument must be a string, CommandArgument, or raw dict"

def RawError.failure (e : RawError) : Failure :=
  match e with
  | notMap _ | badKeys _ | badRequirement | badArgument => .stated .type e.message
  | _ => .stated .value e.message

def sortTexts (xs : List String) : List String := xs.mergeSort fun a b => decide (a ≤ b)

def sanitize (v : Value) (context : String) (allowClass : Bool) (reserved : List String) :
    Result Entries := do
  match ← v.render with
  | .map es =>
    let keys := Entries.names es
    let within (ks : List String) := sortTexts (keys.filter ks.contains)
    if es.any fun e => e.1.str?.getD "" = "" then .error (RawError.badKeys context).failure
    else if !(within assemblyKeys).isEmpty then
      .error (RawError.assembly context (within assemblyKeys)).failure
    else if !(within reserved).isEmpty then
      .error (RawError.managed context (within reserved)).failure
    else if !allowClass && keys.contains "class" then .error (RawError.classKey context).failure
    else if keys.any fun k => Text.startsWith k "$" then
      .error (RawError.dollarKeys context).failure
    else return es
  | _ => .error (RawError.notMap context).failure

def warnRaw (context : String) : Logged Unit :=
  Logged.warn (context ++ " is using raw CWL injection. Structured helpers are safer; " ++
    "this path is sanitized for common misuse but still bypasses most type-level guidance.")

def isClassChar (c : Char) : Bool := c.isAlphanum || c = '_' || c = '.' || c = '-'

def isClassName (s : String) : Bool :=
  match Text.splitOn ":" s with
  | [a] => isWord a
  | [a, b] => isWord a && isWord b
  | _ => false
where
  isWord (a : String) : Bool := !a.isEmpty && a.toList.all isClassChar

def checkClass (s : String) : Result String :=
  if isClassName s then .ok s else .error (RawError.badClass s).failure

/-- The class and the entries of a requirement: a class name with a raw map, an element, or a raw
map that has its class. -/
def readRequirement (requirement payload : Value) : Logged (String × Entries) := do
  match requirement with
  | .plain (.str s) => do
    let c ← checkClass s
    if payload.isNull then return (c, [])
    else return (c, ← sanitize payload ("payload for " ++ c) false [])
  | .element k vals extra =>
    if k.isRequirement then do
      let d ← (Value.element k vals extra).render
      return (k.name, d.fields)
    else throw RawError.badRequirement.failure
  | .map es => do
    warnRaw "requirement()/hint()"
    let es ← sanitize (.map es) "raw requirement mapping" true []
    match Entries.get? es "class" with
    | none => throw RawError.noClass.failure
    | some c => return (← checkClass c.text, Entries.remove es "class")
  | _ => throw RawError.badRequirement.failure

def knownNamespaces : List (String × String) :=
  [("cwltool", "http://commonwl.org/cwltool#"), ("edam", "https://edamontology.org/")]

def knownSchemas : List (String × String) :=
  [("edam", "https://raw.githubusercontent.com/edamontology/edamontology/master/EDAM_dev.owl")]

abbrev Requirements := List (String × Entries)

structure CommandTool where
  name : Value
  inputs : Value
  outputs : Value
  version : Value := .str "v1.2"
  label : Value := .null
  doc : Value := .null
  command : List Value := []
  arguments : List Doc := []
  requirements : Requirements := []
  hints : Requirements := []
  stdin : Value := .null
  stdout : Value := .null
  stderr : Value := .null
  intent : List Value := []
  namespaces : List (Doc × Value) := []
  schemas : List Value := []
  successCodes : List Value := []
  temporaryFailCodes : List Value := []
  permanentFailCodes : List Value := []
  extra : Entries := []

namespace CommandTool

def make (name inputs outputs version : Value) : Result CommandTool :=
  match inputs, outputs with
  | .group .input _, .group .output _ =>
    .ok { name, inputs, outputs, version }
  | .group .input _, _ => .error (.stated .type "outputs must be an Outputs(...) collection")
  | _, _ => .error (.stated .type "inputs must be an Inputs(...) collection")

def bindPrefix (t : CommandTool) (name : Doc) (iri : Value) : CommandTool :=
  if t.namespaces.any (·.1 == name) then
    { t with namespaces := t.namespaces.map fun e => if e.1 == name then (e.1, iri) else e }
  else { t with namespaces := t.namespaces ++ [(name, iri)] }

def bindKnown (t : CommandTool) (className : String) : CommandTool :=
  match Text.cut? ":" className with
  | none => t
  | some (p, _) =>
    match knownNamespaces.lookup p with
    | some iri => if t.namespaces.any (·.1 == .str p) then t else t.bindPrefix (.str p) (.str iri)
    | none => t

def bucket (t : CommandTool) (asHint : Bool) : Requirements :=
  if asHint then t.hints else t.requirements

def setBucket (t : CommandTool) (asHint : Bool) (r : Requirements) : CommandTool :=
  if asHint then { t with hints := r } else { t with requirements := r }

def require (t : CommandTool) (asHint : Bool) (requirement payload : Value) :
    Logged CommandTool := do
  let (c, es) ← readRequirement requirement payload
  return (t.bindKnown c).setBucket asHint (Keyed.put (t.bucket asHint) c es)

def requireElement (t : CommandTool) (asHint : Bool) (k : Element) (args : List Value)
    (extra : Value) (named : Named) : Logged CommandTool := do
  let e ← k.make args extra named
  t.require asHint e .null

def addItem (t : CommandTool) (asHint : Bool) (className key : String) (item : Value) :
    Result CommandTool := do
  let d ← item.render
  let es := ((t.bucket asHint).lookup className).getD [(.str key, .list [])]
  match getD es key (.list []) with
  | .list xs =>
    return t.setBucket asHint
      (Keyed.put (t.bucket asHint) className (put es key (.list (xs ++ [d]))))
  | _ => .error (.stated .type (className ++ " " ++ key ++ " must be a list"))

def describe (t : CommandTool) (label doc : Value) : CommandTool :=
  let t := if label.isNull then t else { t with label }
  if doc.isNull then t else { t with doc }

def addNamespace (t : CommandTool) (name iri : Value) : Result CommandTool :=
  let key := name.opened
  if !key.hashable then .error .wrongKind
  else if !iri.isNull then .ok (t.bindPrefix key iri)
  else
    match key.str?.bind fun s => knownNamespaces.lookup s with
    | some known => .ok (t.bindPrefix key (.str known))
    | none =>
      .error (.stated .value
        ("Unknown namespace prefix " ++ key.literal ++ "; please provide an explicit iri"))

def addSchema (t : CommandTool) (iri : Value) : Result CommandTool :=
  let key := iri.opened
  if !key.hashable then .error .wrongKind
  else
    let v := (key.str?.bind fun s => knownSchemas.lookup s).elim iri .str
    if t.schemas.any fun s => s.opened == v.opened then .ok t
    else .ok { t with schemas := t.schemas ++ [v] }

def useFormats (t : CommandTool) : Result CommandTool := do
  (← t.addNamespace (.str "edam") .null).addSchema (.str "edam")

def addArgument (t : CommandTool) (a : Value) : Logged CommandTool := do
  let d ←
    match a with
    | .plain (.str s) => pure (Doc.str s)
    | .argument v b x => argumentDoc v b x
    | .map es => do
      warnRaw "add_argument()"
      pure (Doc.map (← sanitize (.map es) "raw argument mapping" false []))
    | _ => throw RawError.badArgument.failure
  return { t with arguments := t.arguments ++ [d] }

def takeNamed (named : Named) (k : String) : Value × Named :=
  ((named.lookup k).getD .null, named.filter fun n => n.1 != k)

def addBoundArgument (t : CommandTool) (value : Value) (named : Named) : Logged CommandTool := do
  let (bindingExtra, named) := takeNamed named "binding_extra"
  let (extra, named) := takeNamed named "extra"
  let bes ← bindingExtra.toEntries
  let es ← extra.toEntries
  let b ← Element.binding.make [] (.map bes) named
  t.addArgument (.argument value b (.map es))

def useDocker (t : CommandTool) (image : Value) (asHint : Bool) (named : Named) :
    Logged CommandTool := do
  let (pull, named) := takeNamed named "docker_pull"
  let (extra, named) := takeNamed named "extra"
  let es ← extra.toEntries
  t.requireElement asHint .docker [] (.map es)
    (("docker_pull", if pull.truthy then pull else image) :: named)

def useResources (t : CommandTool) (asHint : Bool) (extra : Value) (named : Named) :
    Logged CommandTool := do
  let bound (long short : String) : String × Value :=
    let v := (named.lookup long).getD .null
    (long, if v.isNull then (named.lookup short).getD .null else v)
  let lower := [bound "cores_min" "cores", bound "ram_min" "ram", bound "tmpdir_min" "tmpdir",
    bound "outdir_min" "outdir"]
  let taken :=
    ["cores_min", "cores", "ram_min", "ram", "tmpdir_min", "tmpdir", "outdir_min", "outdir"]
  let es ← extra.toEntries
  t.requireElement asHint .resource [] (.map es) (lower ++ named.filter fun n =>
    !taken.contains n.1)

def useGpu (t : CommandTool) (asHint : Bool) (versionMin capability countMin extra : Value) :
    Logged CommandTool := do
  let own := [("cudaVersionMin", versionMin), ("cudaComputeCapability", capability),
    ("cudaDeviceCountMin", countMin)]
  let es ← (own.filter fun e => !e.2.isNull).mapM fun e => do
    let d ← e.2.render
    return ((Doc.str e.1, d) : Doc × Doc)
  let more ← (if extra.truthy then do (← extra.render).toEntries else .ok [] : Result Entries)
  t.require asHint (.str "cwltool:CUDARequirement") (.ofDoc (.map (update es more)))

def stage (t : CommandTool) (reference writable entryname : Value) (asHint : Bool) (extra : Value) :
    Result CommandTool := do
  t.addItem asHint "InitialWorkDirRequirement" "listing"
    (← stagedInput reference writable entryname extra)

def setVariable (t : CommandTool) (name value : Value) (asHint : Bool) : Result CommandTool := do
  t.addItem asHint "EnvVarRequirement" "envDef"
    (← Element.environmentDef.make [name, value] .null [])

def addExtra (t : CommandTool) (values : Named) : Logged CommandTool := do
  warnRaw "extra()"
  let es ← sanitize (.map (values.map fun v => (.str v.1, v.2))) "extra()" false managedKeys
  return { t with extra := update t.extra es }

def requirementsDoc (r : Requirements) : Doc := .map (r.map fun e => (.str e.1, .map e.2))

def slots (t : CommandTool) : List (String × Result (Option Value)) :=
  let shown (v : Value) : Result (Option Value) :=
    if v.isNull then .ok none else v.render.map fun d => some (.ofDoc d)
  let listed (xs : List Value) : Result (Option Value) :=
    .ok (if xs.isEmpty then none else some (.list xs))
  let grouped (r : Requirements) : Result (Option Value) :=
    .ok (if r.isEmpty then none else some (.ofDoc (requirementsDoc r)))
  [("class", .ok (some (.str "CommandLineTool"))), ("cwlVersion", .ok (some t.version)),
    ("id", .ok (some t.name)), ("inputs", t.inputs.render.map fun d => some (.ofDoc d)),
    ("outputs", t.outputs.render.map fun d => some (.ofDoc d)),
    ("$namespaces", .ok (if t.namespaces.isEmpty then none else some (.map t.namespaces))),
    ("$schemas", listed t.schemas), ("label", shown t.label), ("doc", shown (.ofDoc t.doc.docText)),
    ("intent", listed t.intent), ("baseCommand", match t.command with
      | [c] => .ok (some c)
      | cs => listed cs),
    ("arguments", listed (Value.ofItems t.arguments)), ("requirements", grouped t.requirements),
      ("hints", grouped t.hints),
    ("stdin", shown t.stdin), ("stdout", shown t.stdout), ("stderr", shown t.stderr),
      ("successCodes", listed t.successCodes),
    ("temporaryFailCodes", listed t.temporaryFailCodes),
      ("permanentFailCodes", listed t.permanentFailCodes)]

def body (t : CommandTool) : Result (List (Doc × Value)) := do
  let own ← t.slots.mapM fun s => return (← s.2).map fun v => (Doc.str s.1, v)
  return own.filterMap id ++ Value.ofEntries t.extra

def expressionSupport : String := "InlineJavascriptRequirement"

def isSupported (doc : Entries) : Bool :=
  ["requirements", "hints"].any fun k => has (getD doc k .null).fields expressionSupport

/-- A tool that uses expressions asks for their support, unless it does so already. -/
def document (t : CommandTool) : Result Doc := do
  let es ← t.body
  let doc := Value.openedEntries es
  if ← Value.hasExpressionEntry es then
    let reqs := (getD doc "requirements" .null).fields
    return .map (put doc "requirements"
      (.map (if isSupported doc then reqs else put reqs expressionSupport (.map []))))
  else return .map doc

def yaml (t : CommandTool) : Result String := do Yaml.write (← t.document)

end CommandTool

end WorkflowInference.Authoring
