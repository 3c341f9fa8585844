import WorkflowInference.Registry
import WorkflowInference.Schema.Step
import WorkflowInference.Schema.Validity

/-!
The schema of workflow files, with the schema of the annotations inside them, and the check of a
file against it.
-/
namespace WorkflowInference.Schema

open Entries

def placePattern : String := "\\([0-9]+, [A-Za-z0-9_\\.]+\\)"

def stylePattern : String :=
  "((,\\s*)*(dashed|dotted|solid|invis|bold|tapered|filled|striped|wedged|diagonals|rounded))+"

def textMatching (p : String) : Doc := Doc.obj [("type", .str "string"), ("pattern", .str p)]

/-- The schema of annotations. They nest: the annotation of a step may hold annotations. A `small`
schema leaves out what allows everything. -/
def annotation (small : Bool) : Doc :=
  let drawing := closed [(.str "label", .map someText), (.str "style", textMatching stylePattern),
    (.str "ranksame", Doc.obj [("type", .str "array"), ("items", textMatching placePattern)])]
  let free : Entries :=
    if small then [] else [(.str "in", .map []), (.str "out", .map []), (.str "scatter", .map [])]
  let choices := closed ([(.str "wic", Doc.obj [("$dynamicRef", .str "#wic")]),
    (.str "scatterMethod", scatterMethodSchema)] ++ free)
  let steps :=
    Doc.map (closedMap ++ [(.str "patternProperties", .map [(.str placePattern, choices)])])
  let members : Entries :=
    [(.str "graphviz", drawing), (.str "steps", steps), (.str "implementation", .map someText),
    (.str "default_implementation", .map someText), (.str "version", .map someText),
    (.str "driver", Doc.obj [("type", .str "string"), ("enum", Doc.strs ["slurm", "argo"])]),
    (.str "namespace", .map someText), (.str "inlineable", Doc.obj [("type", .str "boolean")])] ++
    if small then [] else [(.str "implementations", .map openMap)]
  .map (closedMap ++ [dialect, (.str "$id", .str "wic_tag"), (.str "$dynamicAnchor", .str "wic"),
    (.str "title", .str "Metadata annotations"), (.str "description", .str
    "Use steps: to recursively overload / pass parameters.\nUse graphviz: to modify the DAGs."),
    (.str "properties", .map members)])

def stored (store : Entries) (folder stem : String) : Doc :=
  let id := folder ++ "/" ++ stem ++ ".json"
  getD store id (Doc.obj [("$ref", .str id)])

def bareStep (name : String) : Doc :=
  closed [(.str "id", Doc.obj [("type", .str "string"), ("const", .str name)])]

def stepSchemas (tools : Registry) (stems : List String) (store : Entries) :
    List (String × Doc) × List (String × Doc) :=
  let known := tools.filter fun t => !(Text.startsWith t.1.stem "python_script")
  (known.map fun t => (t.1.stem, stored store "tools" t.1.stem),
    stems.map fun s => (s, stored store "workflows" s))

def oneOf (small : Bool) (xs : List Doc) : Result (List Doc) :=
  match small, xs with
  | false, xs => .ok xs
  | true, x :: _ => .ok [x]
  | true, [] => .error .outOfRange

def workflow (tools : Registry) (stems : List String) (store : Entries) (small : Bool) :
    Result Doc := do
  let (ts, ws) := stepSchemas tools stems store
  let listed := fun (e : String × Doc) => anyOf [e.2, bareStep e.1]
  let keyed := fun (e : String × Doc) => ((Doc.str e.1, anyOf [e.2, .map []]) : Doc × Doc)
  let text := Doc.map someText
  let script := closed
    [(.str "python_script", .map (openMap ++ [(.str "properties", .map [(.str "script", text)])]))]
  let ones := (← oneOf small (ts.map listed)) ++ (← oneOf small (ws.map listed)) ++
    if small then [] else [script, .map openMap]
  let items := Doc.obj ([("anyOf", .list ones), ("minItems", .int 1),
    ("title", .str "Valid workflow steps")] ++ if small then [("maxItems", .int 5)] else [])
  let list := Doc.obj [("type", .str "array"), ("description", .str "A list of workflow steps"),
    ("items", items)]
  let dict :=
    Doc.obj [("type", .str "object"), ("description", .str "An ordered dict of workflow steps"),
    ("properties", .map (ofPairs ((ts ++ ws).map keyed)))]
  let members : Entries := [(.str "steps", anyOf [list, dict]), (.str "class", text),
    (.str "cwlVersion", text), (.str "$base", text), (.str "$namespaces", .map []),
    (.str "$schemas", .map []), (.str "$graph", .map []), (.str "$import", .map []),
    (.str "$include", .map []), (.str "id", text), (.str "hints", .map []),
    (.str "requirements", .map []), (.str "label", text), (.str "doc", text)] ++ if small then []
    else [(.str "wic", annotation small), (.str "inputs", .map openMap),
    (.str "outputs", .map openMap)]
  return .map (closedMap ++ [dialect, (.str "$id", .str "wic_main"),
    (.str "title", .str "Validating against the Sophios workflow schema"),
    (.str "properties", .map members)])

def fillStore (tools : Registry) (stems : List String) (store : Entries) : Result Entries := do
  let store ← tools.foldlM (fun s t => do
    return put s ("tools/" ++ t.1.stem ++ ".json") (← step [] t.1.stem t.2.cwl "tools")) store
  return stems.foldl (fun s w =>
    let id := "workflows/" ++ w ++ ".json"
    if has s id then s else put s id (.map [])) store

def ofTools (tools : Registry) (stems : List String) (store : Entries) : Result Doc := do
  workflow tools stems (← fillStore tools stems store) false

def check (schema : Doc) : Result Unit :=
  if isWellFormed schema then .ok () else .error (.unstated "SchemaError")

def fits (schema d : Doc) : Result Bool := accepts [("#wic", annotation false)] schema d

end WorkflowInference.Schema
