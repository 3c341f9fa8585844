import WorkflowInference.Builder.Workflow
import WorkflowInference.Compile.Adapt
import WorkflowInference.Compile.Workflow
import WorkflowInference.Run.OutputTarget

/-!
The compile service of a workflow builder: from a payload to the workflow that can be run.
-/
namespace WorkflowInference.Builder.Service

def greeting : Doc := Doc.obj [("message", .str "The api has 1 route: compile")]

def workflowName : String := "workflow_"

def enterOwn (known : Registry) (step : Doc) : Result Registry := do
  let run ← step.fieldD "run" .null
  if run.truthy then return Registry.enter known ⟨(← step.field "id").text, globalSpace⟩ ⟨".", run⟩
    else return known

def withOwnTools (known : Registry) (steps : List Doc) : Result Registry :=
  steps.foldlM enterOwn known

def workflowOf (payload : Doc) : Result Doc := do
  let payload ← Payload.complete payload
  let slim ← Payload.slim toolOf payload
  let plugins ← payload.field "plugins"
  Workflow.canonical (← toWorkflow slim plugins.items)

def setting (tools : Registry) (cwd home : String) : Compile.Setting :=
  { tags := ⟨"cachedir", "", home⟩, tools, testing := false, cwd }

def task (workflow : Doc) : Compile.Task :=
  ⟨workflowName, workflow, [], [Graph.root workflowName], [], [], [], [], true⟩

def compileTree (known : Registry) (cwd home : String) (payload : Doc) :
    Logged Compile.PartTree := do
  let workflow ← workflowOf payload
  let steps ← (do (← workflow.field "steps").members : Result (List Doc))
  let tools ← withOwnTools known steps
  let r ← Compile.compile (setting tools cwd home) (task workflow)
  r.tree.withEmbedded

def stepsById (steps : List Doc) : Result Entries := do
  let es ← steps.mapM fun s => do return (← s.field "id", dropKeys s ["id"])
  return Entries.ofPairs es

def answer (tree : Compile.PartTree) : Result Doc := do
  let (cwl, job) ← Run.normalTree tree
  let steps ← stepsById (← (← cwl.field "steps").members)
  let rest := cwl.fields
  let head : Entries := [(.str "name", .str tree.part.name), (.str "cwlJobInputs", job)]
  return .map (Entries.update head (Entries.remove rest "steps") ++
    [(.str "steps", .map steps), (.str "retval", .str "0")])

def compile (known : Registry) (cwd home : String) (payload : Doc) : Logged Doc := do
  Logged.print "---------- Compile Workflow! ---------"
  let tree ← compileTree known cwd home payload
  answer tree

end WorkflowInference.Builder.Service
