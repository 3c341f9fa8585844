import WorkflowInference.Param.Type

/-!
The schema of a step that runs a tool or a workflow: which inputs it may bind and to values of which
types, and which outputs it may name.
-/
namespace WorkflowInference.Schema

open Entries

def closedMap : Entries :=
  [(.str "type", .str "object"), (.str "additionalProperties", .bool false),
    (.str "errorMessage", .str "Property is not allowed. IS YOUR INDENTATION CORRECT?")]

def openMap : Entries := [(.str "type", .str "object"), (.str "additionalProperties", .bool true)]

def closed (members : Entries) : Doc := .map (closedMap ++ [(.str "properties", .map members)])

def dialect : Doc × Doc := (.str "$schema", .str "https://json-schema.org/draft/2020-12/schema")

def someText : Entries := [(.str "type", .str "string"), (.str "minLength", .int 1)]

def anyOf (ss : List Doc) : Doc := Doc.obj [("anyOf", .list ss)]

def namedType (t : String) : Option Doc :=
  match t with
  | "" | "File" | "Directory" | "WritableFile" | "WritableDirectory" => none
  | "int" | "long" => some (.str "integer")
  | "float" | "double" => some (.str "number")
  | "bool" => some (.str "boolean")
  | "str" => some (.str "string")
  | "Any" => some (.map [])
  | t => some (.str t)

def memberType (d : Doc) : Doc :=
  match d with
  | .map es =>
    match get? es "type" with
    | some (.str "array") => .str "array"
    | some (.str "object") => .str "object"
    | _ => d
  | _ => d

mutual

def jsonType : Doc → Option Doc
  | .str s => namedType s
  | .map es =>
    match get? es "type", jsonItems es with
    | some (.str "array"), some none => none
    | some (.str "array"), some (some items) =>
      let wrapped :=
        match items, get? es "items" with
        | .map [], _ => items
        | _, some (.str _) => Doc.obj [("type", items)]
        | _, _ => items
      some (.map (put es "items" wrapped))
    | _, _ => some (.map es)
  | .list ts => (jsonTypes ts).map fun ts => .list (ts.map memberType)
  | .null => none
  | d => some d

def jsonItems : List (Doc × Doc) → Option (Option Doc)
  | [] => none
  | (.str "items", v) :: _ => some (jsonType v)
  | _ :: es => jsonItems es

def jsonTypes : List Doc → Option (List Doc)
  | [] => some []
  | t :: ts =>
    match jsonType t, jsonTypes ts with
    | some u, some us => some (u :: us)
    | _, _ => none

end

def typeSchema (t : Doc) : Doc :=
  match jsonType t with
  | none => .null
  | some d => if d.isStr || d.isList then Doc.obj [("type", d)] else d

def descriptionOf (param : Doc) : Result Entries := do
  return [(.str "title", ← param.fieldD "label" (.str "")),
    (.str "description", ← param.fieldD "doc" (.str ""))]

def withoutText : List Doc → List Doc
  | [] => []
  | t :: ts => if t == .str "string" then ts else t :: withoutText ts

/-- The first text `string` of a union goes, since a text is always allowed. -/
def besideText (es : Entries) (type : Doc) : Entries :=
  match type with
  | .list ts => put es "type" (.list (withoutText ts))
  | _ => es

def aliasSchema : Doc := closed [(.str "wic_alias", .map someText)]

def literalSchema : Doc := closed [(.str "wic_inline_input", .map [])]

def stringType : Doc := Doc.obj [("type", .str "string")]

def spread (d : Doc) : Result Entries :=
  match d with
  | .map es => .ok es
  | _ => .error .wrongKind

/-- The schema of the values that a step may bind to an input: a text, a reference, a value in place
or a value of its type. `configs` has schemas for the configuration of some tools. -/
def inputSchema (configs : Entries) (name : String) (key param : Doc) : Result Doc := do
  let about ← descriptionOf param
  let text := Doc.map (someText ++ about)
  let isConfig := key == .str "config"
  match isConfig, get? configs name with
  | true, some c =>
    return anyOf [text, aliasSchema, literalSchema, .map (update (← spread c) about)]
  | _, _ =>
    if isConfig && name == "cwl_subinterpreter" then return .map []
    else if isConfig && name == "config_tag_mdp" then
      return closed [(.str "wic_inline_input", getD configs "grompp" (.map []))]
    else
      let s := typeSchema (← Param.canonical (← param.fieldD "type" (.str "")))
      if !s.truthy then return anyOf [text, aliasSchema, literalSchema]
      else
        let s := if s == stringType then text else s
        let t ← s.field "type"
        return anyOf [text, aliasSchema, literalSchema,
          .map (update (besideText (← spread s) t) about)]

def outputSchema (param : Doc) : Result Doc := do
  let about ← descriptionOf param
  let text := Doc.map (someText ++ about)
  let s := typeSchema (← Param.canonical (← param.fieldD "type" (.str "")))
  if s.truthy then return anyOf [text, .map (update (← spread s) about)] else return text

def scatterMethodSchema : Doc :=
  Doc.obj [("type", .str "string"),
    ("enum", Doc.strs ["dotproduct", "flat_crossproduct", "nested_crossproduct"])]

def scatterSchema (inputs : Entries) : Result Entries := do
  if inputs.isEmpty then return []
  let consts ← inputs.mapM fun e => do return Doc.map (put (← spread e.2) "const" e.1)
  return [(.str "scatter", Doc.obj [("type", .str "array"), ("items", anyOf consts)]),
    (.str "scatterMethod", scatterMethodSchema)]

def step (configs : Entries) (name : String) (cwl : Doc) (folder : String) : Result Doc := do
  let inputs ← (← (← cwl.field "inputs").entries).mapM fun e => do
    return (e.1, ← inputSchema configs name e.1 e.2)
  let scatter ← scatterSchema inputs
  let outs ← (← cwl.field "outputs").entries
  let _ ← outs.mapM fun e => outputSchema e.2
  let out := Doc.obj [("type", .str "array"),
    ("items", anyOf [Doc.obj [("type", .str "string"), ("enum", .list outs.keys)], .map []])]
  let id := if folder == "workflows" then name ++ ".wic" else name
  let members : Entries := [(.str "in", closed inputs), (.str "out", out)] ++ scatter ++
    [(.str "run", .map []), (.str "id", Doc.obj [("type", .str "string"), ("const", .str id)]),
      (.str "hints", .map []), (.str "requirements", .map [])]
  return .map (closedMap ++ [(.str "title", ← cwl.fieldD "label" (.str "")),
    (.str "description", ← cwl.fieldD "doc" (.str "")), (.str "properties", .map members),
    (.str "$id", .str (folder ++ "/" ++ name ++ ".json"))])

end WorkflowInference.Schema
