import WorkflowInference.Assembly.Compile
import WorkflowInference.CommandLine.Options
import WorkflowInference.Run.Container
import WorkflowInference.Run.Local

/-!
Running workflows that were put together in memory.
-/
namespace WorkflowInference.Assembly.Assemble

def runFlags : List String :=
  ["copy_output_files", "docker_remove_entrypoints", "generate_run_script"]

def foreignSettings (name : String) (settings : Entries) : Act (List String) := do
  let s ← get
  let words := ["--yaml", name] ++ Run.arguments settings runFlags
  return (← Act.ofLogged (CommandLine.readKnown (CommandLine.compiler s.home s.files.cwd) words)).2

def deliver (settings : Entries) (name engine base : String) (env : Doc) (tree : Compile.PartTree) :
    Act Unit := do
  Run.Container.check engine false
  Run.writeTree tree base (Entries.getD settings "inputs_file" (.str "")).text
  Run.Container.extract engine (Entries.getD settings "pull_dir" .null).text
    (Path.join base (name ++ ".cwl"))
  if Run.isEnabled (Entries.getD settings "docker_remove_entrypoints" .null) then
    let _ ← Run.Container.removeEntrypoints engine tree
  let more ← foreignSettings name settings
  let _ ← Run.runLocal settings false more name base env

def run (i : Nat) (given env : Doc) (base : String) : Assemble Unit := do
  let p ← process i
  let settings ← Run.settings (← files).cwd given
  let tree ← compileTree i []
  let tree ← tree.withEmbedded
  let engine ← Run.needText settings "container_engine"
  ofAct (deliver settings p.name engine base env tree)

end WorkflowInference.Assembly.Assemble
