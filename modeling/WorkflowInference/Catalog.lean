import WorkflowInference.Failure

/-!
The parts of the programming interface, by the names under which callers ask for them.
-/
namespace WorkflowInference.Catalog

def part (group name : String) : Result String :=
  match group with
  | "api" =>
    if ["python", "rest", "utils"].contains name then .ok ("sophios.api." ++ name)
    else .error (.stated .attribute ("module 'sophios.api' has no attribute " ++ Text.quoted name))
  | _ =>
    if ["tool_builder", "workflow"].contains name then .ok ("sophios.api.python." ++ name)
    else .error (.stated .attribute
      ("module 'sophios.api.python' exposes concrete modules only; import symbols " ++
      "from sophios.api.python.workflow or sophios.api.python.tool_builder"))

end WorkflowInference.Catalog
