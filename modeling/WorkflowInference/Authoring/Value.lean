import WorkflowInference.Assembly.Slot

/-!
Values from which tool descriptions are built. Besides documents these are elements, which stand
for maps with fixed fields, descriptions of parameters, and collections of those. Rendering takes a
value to the document it stands for.
-/
namespace WorkflowInference.Authoring

inductive Element where
  | secondaryFile | dirent | environmentDef | binding | outputBinding | softwarePackage
  | docker | inlineJavascript | schemaDef | loadListing | shellCommand | software | initialWorkDir
  | envVar | resource | networkAccess | workReuse | inplaceUpdate | timeLimit
  deriving DecidableEq, Repr

inductive Rendering where
  | whole | items | types
  deriving DecidableEq, Repr

structure FieldRule where
  name : String
  dflt : Option Doc := none
  how : Rendering := .whole
  omitEmpty : Bool := false

namespace Element

def needed (name : String) : FieldRule := { name }

def optional (name : String) : FieldRule := { name, dflt := some .null }

def rules : Element → List FieldRule
  | secondaryFile => [needed "pattern", optional "required"]
  | dirent => [needed "entry", optional "entryname", optional "writable"]
  | environmentDef => [needed "env_name", needed "env_value"]
  | binding =>
    ["position", "prefix", "separate", "item_separator", "value_from", "shell_quote"].map optional
  | outputBinding => ["glob", "load_contents", "output_eval"].map optional
  | softwarePackage => [needed "package", optional "version", optional "specs"]
  | docker => ["docker_pull", "docker_load", "docker_file", "docker_import", "docker_image_id",
      "docker_output_directory"].map optional
  | inlineJavascript => [{ optional "expression_lib" with how := .items, omitEmpty := true }]
  | schemaDef => [{ needed "types" with how := .types }]
  | loadListing => [needed "load_listing"]
  | shellCommand => []
  | software => [{ needed "packages" with how := .items }]
  | initialWorkDir => [needed "listing"]
  | envVar => [{ needed "env_def" with how := .items }]
  | resource =>
    ["cores_min", "cores_max", "ram_min", "ram_max", "tmpdir_min", "tmpdir_max", "outdir_min",
      "outdir_max"].map optional
  | networkAccess => [needed "network_access"]
  | workReuse => [needed "enable_reuse"]
  | inplaceUpdate => [{ needed "inplace_update" with dflt := some (.bool true) }]
  | timeLimit => [needed "timelimit"]

def name : Element → String
  | secondaryFile => "SecondaryFile"
  | dirent => "Dirent"
  | environmentDef => "EnvironmentDef"
  | binding => "CommandLineBinding"
  | outputBinding => "CommandOutputBinding"
  | softwarePackage => "SoftwarePackage"
  | docker => "DockerRequirement"
  | inlineJavascript => "InlineJavascriptRequirement"
  | schemaDef => "SchemaDefRequirement"
  | loadListing => "LoadListingRequirement"
  | shellCommand => "ShellCommandRequirement"
  | software => "SoftwareRequirement"
  | initialWorkDir => "InitialWorkDirRequirement"
  | envVar => "EnvVarRequirement"
  | resource => "ResourceRequirement"
  | networkAccess => "NetworkAccess"
  | workReuse => "WorkReuse"
  | inplaceUpdate => "InplaceUpdateRequirement"
  | timeLimit => "ToolTimeLimit"

def all : List Element :=
  [secondaryFile, dirent, environmentDef, binding, outputBinding, softwarePackage, docker,
    inlineJavascript, schemaDef, loadListing, shellCommand, software, initialWorkDir, envVar,
    resource, networkAccess, workReuse, inplaceUpdate, timeLimit]

def isRequirement : Element → Bool
  | secondaryFile | dirent | environmentDef | binding | outputBinding | softwarePackage => false
  | _ => true

end Element

inductive SpecKind where
  | field | input | output
  deriving DecidableEq, Repr

inductive Value where
  | plain (d : Doc)
  | list (xs : List Value)
  | tuple (xs : List Value)
  | map (es : List (Doc × Value))
  | element (k : Element) (vals : List Value) (extra : List (Doc × Value))
  /-- A parameter description with its facets; a facet that is not there has not been set. -/
  | spec (k : SpecKind) (facets : List (String × Value))
  | group (k : SpecKind) (members : List (String × Value))
  | argument (value binding extra : Value)
  deriving Inhabited

abbrev Named := List (String × Value)

def canonicalText (s : String) : Doc :=
  if Text.endsWith s "?" then Param.optional (canonicalText (Text.dropEnd s 1))
  else if Text.endsWith s "[]" then Param.arrayOf (canonicalText (Text.dropEnd s 2))
  else .str s
termination_by s.toList.length
decreasing_by
  all_goals
    rename_i h
    have hne : s.toList ≠ [] := by
      intro hs
      simp [Text.endsWith, Text.after?, hs] at h
    have := List.length_pos_iff.mpr hne
    simp [Text.dropEnd]
    omega

mutual

/-- The canonical form of a type. Each level is rendered before it is looked at, and an array
without items stays as it is. -/
def canonicalType : Doc → Doc
  | .str s | .path s => canonicalText s
  | .list xs | .tuple xs => .list (Assembly.writtenAll xs)
  | .map es =>
    let rendered := Assembly.writtenEntries es
    .map (if Entries.getD rendered "type" .null == .str "array" then canonicalItems es
      else rendered)
  | d => d

def canonicalItems : List (Doc × Doc) → Entries
  | [] => []
  | (k, v) :: es =>
    if k == .str "items" then (k, canonicalType v) :: Assembly.writtenEntries es
    else (k, Assembly.written v) :: canonicalItems es

end

def applyRequired (t : Doc) (required : Bool) : Doc :=
  let c := canonicalType t
  if required then c
  else
    match c with
    | .list xs => if xs.any (· == .str "null") then c else Param.optional c
    | _ => Param.optional c

namespace SpecKind

def name : SpecKind → String
  | field => "FieldSpec"
  | input => "InputSpec"
  | output => "OutputSpec"

def groupName : SpecKind → String
  | field => "Fields"
  | input => "Inputs"
  | output => "Outputs"

def context : SpecKind → String
  | field => "record field name"
  | input => "input name"
  | output => "output name"

def facets : SpecKind → List String
  | field => ["label", "doc", "default"]
  | input =>
    ["label", "doc", "format", "secondary_files", "streamable", "load_contents",
      "load_listing", "default"]
  | output => ["label", "doc", "format", "secondary_files", "streamable", "load_listing"]

def bindingFacets : SpecKind → List String
  | field => []
  | input => ["position", "flag", "separate", "item_separator", "value_from", "shell_quote"]
  | output => ["glob", "load_contents", "output_eval"]

def bindingKey : SpecKind → String
  | output => "outputBinding"
  | _ => "inputBinding"

def parts : SpecKind → List String
  | field => ["type_", "name", "label_text", "doc_text", "default_value", "extra"]
  | input =>
    ["type_", "name", "position", "flag", "required", "separate", "item_separator",
      "binding_value_from", "shell_quote", "label_text", "doc_text", "format_value",
      "secondary_files_value", "streamable_value", "load_contents_value", "load_listing_value",
      "default_value", "binding_extra", "extra"]
  | output =>
    ["type_", "name", "required", "glob", "load_contents_value", "output_eval", "label_text",
      "doc_text", "format_value", "secondary_files_value", "streamable_value", "load_listing_value",
      "binding_extra", "extra"]

def reservedNames : SpecKind → List String
  | field => ["get", "items", "keys", "values", "to_dict", "to_list"]
  | _ => ["get", "items", "keys", "values", "to_dict"]

end SpecKind

def namelessField : Failure := .stated .value "Record fields must have a name before serialization"

namespace Value

def null : Value := plain .null

def str (s : String) : Value := plain (.str s)

mutual

def ofDoc : Doc → Value
  | .list xs => list (ofItems xs)
  | .tuple xs => tuple (ofItems xs)
  | .map es => map (ofEntries es)
  | d => plain d

def ofItems : List Doc → List Value
  | [] => []
  | x :: xs => ofDoc x :: ofItems xs

def ofEntries : List (Doc × Doc) → List (Doc × Value)
  | [] => []
  | (k, v) :: es => (k, ofDoc v) :: ofEntries es

end

def isNull : Value → Bool
  | plain .null => true
  | _ => false

def truthy : Value → Bool
  | plain d => d.truthy
  | list xs | tuple xs => !xs.isEmpty
  | map es => !es.isEmpty
  | group _ ms => !ms.isEmpty
  | element .. | spec .. | argument .. => true

mutual

def opened : Value → Doc
  | plain d => d
  | list xs => .list (openedAll xs)
  | tuple xs => .tuple (openedAll xs)
  | map es => .map (openedEntries es)
  | element k _ _ => .object k.name 0
  | spec k _ => .object k.name 0
  | group k _ => .object k.groupName 0
  | argument .. => .object "CommandArgument" 0

def openedAll : List Value → List Doc
  | [] => []
  | x :: xs => opened x :: openedAll xs

def openedEntries : List (Doc × Value) → List (Doc × Doc)
  | [] => []
  | (k, v) :: es => (k, opened v) :: openedEntries es

end

def docText : Value → Doc
  | plain (.str s) => .str s
  | list xs => .list (xs.map fun x => .str x.opened.text)
  | _ => .null

structure Facet where
  value : Value
  rendered : Result Doc

abbrev Facets := List (String × Facet)

namespace Facets

def isSet (fs : Facets) (name : String) : Bool :=
  (fs.lookup name).elim false fun f => !f.value.isNull

def rendered (fs : Facets) (name : String) : Result Doc :=
  (fs.lookup name).elim (.ok .null) (·.rendered)

def entries (fs : Facets) (name : String) : Result Entries := do return (← fs.rendered name).fields

def keyOf (name : String) : Doc := .str (if name = "flag" then "prefix" else Text.camelCase name)

def pick (fs : Facets) (names : List String) : Result Entries := do
  let es ← names.mapM fun n => do
    match fs.lookup n with
    | none => return none
    | some f =>
      if f.value.isNull then return none
      else if n = "doc" then return some (keyOf n, f.value.docText)
      else return some (keyOf n, ← f.rendered)
  return es.filterMap id

def own (k : SpecKind) (fs : Facets) : Result Entries := do
  match k with
  | .field =>
    if !fs.isSet "name" then .error namelessField
    else return [(.str "name", ← fs.rendered "name"),
      (.str "type", canonicalType (← fs.rendered "type"))]
  | _ =>
    let required := (fs.lookup "required").elim true fun f => f.value.truthy
    let type := applyRequired (← fs.rendered "type") required
    let binding := Entries.update (← fs.pick k.bindingFacets) (← fs.entries "binding_extra")
    return (.str "type", type) :: if binding.isEmpty then []
      else [(.str k.bindingKey, .map binding)]

def document (k : SpecKind) (fs : Facets) : Result Doc := do
  let es := Entries.update (← own k fs) (← fs.pick k.facets)
  return .map (Entries.update es (← fs.entries "extra"))

end Facets

def shorten (k : Element) (vals : List Value) (extra : List (Doc × Value)) (es : Entries) : Doc :=
  match k, vals, extra with
  | .secondaryFile, [plain (.str s), plain .null], [] => .str s
  | _, _, _ => .map es

mutual

def render : Value → Result Doc
  | plain (.path s) => .ok (.str s)
  | plain d => .ok d
  | list xs | tuple xs => (renderAll xs).map .list
  | map es => (renderEntries es).map .map
  | element k vals extra => do
    return shorten k vals extra
      (Entries.update (← renderFields k.rules vals) (← renderEntries extra))
  | spec k fs => Facets.document k (renderFacets fs)
  | group _ ms => (renderMembers ms).map .map
  | argument .. => .ok (.object "CommandArgument" 0)

def renderAll : List Value → Result (List Doc)
  | [] => .ok []
  | x :: xs => do return (← render x) :: (← renderAll xs)

def renderEntries : List (Doc × Value) → Result Entries
  | [] => .ok []
  | (k, v) :: es => do return (k, ← render v) :: (← renderEntries es)

def renderFields (rules : List FieldRule) : List Value → Result Entries
  | [] => .ok []
  | v :: vs =>
    match rules with
    | [] => .ok []
    | r :: rs => do
      if v.isNull || (r.omitEmpty && !v.truthy) then renderFields rs vs
      else
        let d ←
          match r.how with
          | .whole => render v
          | .items => (renderItems v).map .list
          | .types => (renderItems v).map fun xs => .list (xs.map canonicalType)
        return (.str (Text.camelCase r.name), d) :: (← renderFields rs vs)

def renderItems : Value → Result (List Doc)
  | list xs | tuple xs => renderAll xs
  | map es => .ok (es.map (·.1))
  | group _ ms => .ok (ms.map fun m => .str m.1)
  | plain d => d.members
  | element .. | spec .. | argument .. => .error .wrongKind

def renderFacets : Named → Facets
  | [] => []
  | (n, v) :: fs => (n, ⟨v, render v⟩) :: renderFacets fs

def renderMembers : Named → Result Entries
  | [] => .ok []
  | (n, v) :: ms => do return (.str n, ← render v) :: (← renderMembers ms)

end

def document : Value → Result Doc
  | v@(element ..) | v@(spec ..) | v@(group ..) => v.render
  | _ => .error .noPart

def toPair : Value → Result (Doc × Value)
  | list [k, w] | tuple [k, w] => if k.opened.hashable then .ok (k.opened, w) else .error .wrongKind
  | map [(k, _), (w, _)] => .ok (k, plain w)
  | plain (.str s) =>
    match s.toList with
    | [a, b] => .ok (.str (String.singleton a), str (String.singleton b))
    | _ => .error .badValue
  | list _ | tuple _ | map _ => .error .badValue
  | _ => .error .wrongKind

def putEntry (k : Doc) (v : Value) : List (Doc × Value) → List (Doc × Value)
  | [] => [(k, v)]
  | (l, w) :: es => if l == k then (l, v) :: es else (l, w) :: putEntry k v es

def toEntries (v : Value) : Result (List (Doc × Value)) :=
  if !v.truthy then .ok []
  else
    match v with
    | map es => .ok es
    | group _ ms => .ok (ms.map fun m => (.str m.1, m.2))
    | list xs | tuple xs => do return (← xs.mapM toPair).foldl (fun es p => putEntry p.1 p.2 es) []
    | plain (.str _) => .error .badValue
    | _ => .error .wrongKind

mutual

def docExpression : Doc → Bool
  | .str s => Text.contains s "$(" || Text.contains s "$\x7b"
  | .list xs | .tuple xs => docExpressionAny xs
  | .map es => docExpressionEntry es
  | _ => false

def docExpressionAny : List Doc → Bool
  | [] => false
  | x :: xs => docExpression x || docExpressionAny xs

def docExpressionEntry : List (Doc × Doc) → Bool
  | [] => false
  | (_, v) :: es => docExpression v || docExpressionEntry es

end

mutual

def hasExpression : Value → Result Bool
  | plain d => .ok (docExpression d)
  | list xs | tuple xs => hasExpressionAny xs
  | map es => hasExpressionEntry es
  | argument .. => .ok false
  | v => v.render.map docExpression

def hasExpressionAny : List Value → Result Bool
  | [] => .ok false
  | x :: xs => do if (← hasExpression x) then return true else hasExpressionAny xs

def hasExpressionEntry : List (Doc × Value) → Result Bool
  | [] => .ok false
  | (_, v) :: es => do if (← hasExpression v) then return true else hasExpressionEntry es

end

end Value

end WorkflowInference.Authoring
