import WorkflowInference.Doc.Merge
import WorkflowInference.Graph.Basic

/-!
Graphs written down as documents.
-/
namespace WorkflowInference

namespace GraphData

def field (d : Doc) (k : String) : List Doc := (Entries.getD d.fields k .null).items

def nodeOf : Doc → String × Entries
  | .list [.str a, .map es] => (a, es)
  | _ => ("", [])

def edgeOf : Doc → String × String × Entries
  | .list [.str a, .str b, .map es] => (a, b, es)
  | _ => ("", "", [])

def ofDocIn : Nat → Doc → GraphData
  | 0, _ => empty ""
  | n + 1, d =>
    let name := (Entries.getD d.fields "name" (.str "")).text
    ⟨name, (field d "nodes").map nodeOf, (field d "edges").map edgeOf,
      (field d "subgraphs").map (ofDocIn n),
      (field d "ranksame").filterMap Doc.str?⟩

def ofDoc (d : Doc) : GraphData := ofDocIn (d.depth + 1) d

mutual

def doc (order : List Doc → List Doc) : GraphData → Doc
  | ⟨name, nodes, edges, subgraphs, ranksame⟩ =>
    Doc.obj [("name", .str name),
      ("nodes", .list (order (nodes.map fun n => .list [.str n.1, .map n.2]))),
      ("edges", .list (order (edges.map fun e => .list [.str e.1, .str e.2.1, .map e.2.2]))),
      ("subgraphs", .list (docs order subgraphs)), ("ranksame", Doc.strs ranksame)]

def docs (order : List Doc → List Doc) : List GraphData → List Doc
  | [] => []
  | g :: gs => doc order g :: docs order gs

end

end GraphData

def GraphSettings.ofDoc (d : Doc) : GraphSettings :=
  let es := d.fields
  let isOn (k : String) : Bool := (Entries.getD es k .null).truthy
  let usual : GraphSettings := {}
  { dark := isOn "graph_dark_theme"
    inlineDepth :=
      match Entries.get? es "graph_inline_depth" with
      | some (.int n) => n
      | _ => usual.inlineDepth
    labelEdges := isOn "graph_label_edges", labelSteps := isOn "graph_label_stepname"
    showOutputs := isOn "graph_show_outputs", showInputs := isOn "graph_show_inputs" }

end WorkflowInference
