import WorkflowInference.Graph.Basic
import WorkflowInference.Registry
import WorkflowInference.Session

/-!
Diagrams of tools: one tool with its inputs and outputs, or all tools side by side. Drawing them
needs a program that is not there, so only their texts are written.
-/
namespace WorkflowInference.Graph.Tools

open Dot (node edge attr digraph)

def boxed (attrs : List (String × String)) : List (String × String) :=
  attrs ++ [("shape", "box"), ("style", "rounded, filled")]

def lineColor (dark : Bool) : String := if dark then "black" else "white"

def shortName (name : String) : String :=
  let first := (Text.splitOn "__" ((Text.splitOn "___" name).headD "")).headD ""
  Text.replace name (first ++ "__") ""

def names (tool : Doc) (k : String) : Result (List String) := do
  (← (← tool.field k).members).mapM fun d => (d.str?).elim (.error .noPart) Except.ok

def toolLines (stem : String) (dark : Bool) (inputs outputs : List String) : List String :=
  let color := [("color", lineColor dark)]
  let shown := inputs.filter fun i => !Text.contains (shortName i) "output"
  [attr "bgcolor" "transparent", attr "fontcolor" (lineColor dark), attr "rankdir" "LR",
    node stem (boxed [("fillcolor", "lightblue")])] ++
  shown.flatMap (fun i =>
    [node ("input_" ++ i) (boxed [("label", shortName i), ("fillcolor", "lightgreen")]),
      edge ("input_" ++ i) stem color]) ++
  outputs.flatMap fun o =>
    [node ("output_" ++ o) (boxed [("label", shortName o), ("fillcolor", "lightyellow")]),
      edge stem ("output_" ++ o) color]

def render (name : String) (lines : List String) : Act Unit := do
  Act.makeFolders (Path.parent name)
  Act.writeFile (name ++ ".gv") (digraph name lines)
  throw (.unstated "ExecutableNotFound")

def ofTool (stem : String) (tool : Tool) (dark : Bool) : Act Unit := do
  let inputs ← names tool.cwl "inputs"
  let outputs ← names tool.cwl "outputs"
  render ("autogenerated/DAG/" ++ tool.runPath) (toolLines stem dark inputs outputs)

def ofRegistry (tools : Registry) (dark : Bool) : Act Unit :=
  let half := tools.take (tools.length / 2)
  let box (t : StepId × Tool) : String :=
    node (Path.stem t.2.runPath)
      (boxed [("fillcolor", "lightblue"), ("fontsize", "24"), ("width", "0.75")])
  render "autogenerated/DAG/plugins0"
    ([attr "pack" "0", attr "bgcolor" "transparent", attr "fontcolor" (lineColor dark)] ++
      half.map box)

end WorkflowInference.Graph.Tools
