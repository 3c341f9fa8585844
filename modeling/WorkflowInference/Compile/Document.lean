import WorkflowInference.Compile.Draft
import WorkflowInference.Doc.Merge

/-!
Settings and results of compilation written down as documents.
-/
namespace WorkflowInference.Compile

def Options.ofDoc (d : Doc) : Options :=
  let es := d.fields
  let isOn (k : String) : Bool := (Entries.getD es k .null).truthy
  { partialFailure := isOn "partial_failure_enable"
    namingConventions := isOn "inference_use_naming_conventions"
    insertSteps := isOn "insert_steps_automatically", noInference := isOn "inference_disable"
    allowRaw := isOn "allow_raw_cwl" }

def TagPaths.ofDoc (usual : TagPaths) (d : Doc) : TagPaths :=
  let text (k dflt : String) : String := ((Entries.get? d.fields k).bind Doc.str?).getD dflt
  ⟨text "cachedir" usual.cachedir, text "yaml" usual.yaml, text "homedir" usual.homedir⟩

namespace EdgeSites

def doc (es : EdgeSites) : Doc :=
  Doc.obj (es.map fun e => (e.1, .list [Doc.strs e.2.path, .str e.2.slot]))

def ofDoc (d : Doc) : EdgeSites :=
  d.fields.filterMap fun e =>
    match e.1, e.2 with
    | .str k, .list [.list p, .str v] => some (k, ⟨p.filterMap Doc.str?, v⟩)
    | _, _ => none

end EdgeSites

def sorted (xs : List String) : List String := xs.mergeSort fun a b => decide (a ≤ b)

def Env.doc (e : Env) : Doc :=
  Doc.obj [("input_mapping", .map (e.inputMapping.map fun m => (m.1, Doc.strs m.2))),
    ("output_mapping", Doc.obj (e.outputMapping.map fun m => (m.1, .str m.2))),
    ("inputs_file_workflow", .map e.given),
    ("vars_workflow_output_internal", Doc.strs (sorted e.internals)),
    ("explicit_edge_defs", EdgeSites.doc e.edgeDefs),
    ("explicit_edge_calls", EdgeSites.doc e.edgeCalls)]

namespace PartTree

mutual

def doc (arrange : Doc → Doc) : PartTree → Doc
  | node p ts =>
    Doc.obj [("namespaces", Doc.strs p.namespaces), ("name", .str p.name), ("cwl", arrange p.cwl),
      ("job_inputs", .map p.jobInputs), ("inputs_workflow", .map p.inputs),
      ("step_name_1", .str p.firstName),
      ("edge_defs", EdgeSites.doc p.edgeDefs), ("edge_calls", EdgeSites.doc p.edgeCalls),
      ("sub", .list (docs arrange ts))]

def docs (arrange : Doc → Doc) : List PartTree → List Doc
  | [] => []
  | t :: ts => doc arrange t :: docs arrange ts

end

def ofDocIn : Nat → Doc → PartTree
  | 0, d => node ⟨[], "", .null, d, "", [], [], [], [], ""⟩ []
  | n + 1, d =>
    let es := d.fields
    let items (k : String) : List Doc := (Entries.getD es k .null).items
    node ⟨(items "namespaces").filterMap Doc.str?, "", .null, Entries.getD es "cwl" .null, "", [],
      [], [], [], ""⟩ ((items "sub").map (ofDocIn n))

def ofDoc (d : Doc) : PartTree := ofDocIn (d.depth + 1) d

end PartTree

end WorkflowInference.Compile
