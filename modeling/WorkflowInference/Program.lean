import WorkflowInference.CommandLine.Options
import WorkflowInference.Compile.Workflow
import WorkflowInference.Configuration
import WorkflowInference.Run.Container
import WorkflowInference.Run.Local
import WorkflowInference.Schema.Workflow
import WorkflowInference.Search
import WorkflowInference.Workflow.Inlining
import WorkflowInference.Workflow.Script

/-!
The compiler as a program: it finds tools and workflows, compiles a workflow file, and writes or
runs the result.
-/
namespace WorkflowInference.Program

open Entries Path Act

structure Call where
  options : Entries
  more : List String

namespace Call

def isSet (c : Call) (k : String) : Bool := (getD c.options k .null).truthy

def text (c : Call) (k : String) : String := ((getD c.options k .null).str?).getD ""

def numbers (c : Call) (k : String) : List Int :=
  match getD c.options k .null with
  | .list xs => xs.filterMap fun x => match x with | .int n => some n | _ => none
  | _ => []

end Call

structure World where
  config : Doc
  tools : Registry
  shelves : Search.Shelves
  store : Entries
  schema : Doc

namespace World

def stems (shelves : Search.Shelves) : List String := shelves.flatMap fun s => s.2.map (·.1)

def shelf (w : World) (fs : Files) : Workflow.Shelf :=
  w.shelves.map fun s =>
    (s.1, s.2.map fun e => (e.1, (fs.read? e.2).elim (.error .notThere) Except.ok))

def fits (w : World) (c : Call) : Option (Doc → Bool) :=
  if c.isSet "ignore_validation_errors" then none
  else some fun d => (Schema.fits w.schema d).toOption == some true

def renamings (config : Doc) : List (String × String) :=
  match (config.map?).bind fun es => get? es "renaming_conventions" with
  | some (.list rs) =>
    rs.filterMap fun r => match r with | .list [.str a, .str b] => some (a, b) | _ => none
  | _ => []

def setting (w : World) (home cwd : String) (tools : Registry) (testing : Bool) : Compile.Setting :=
  { tags := ⟨"cachedir", "", home⟩, tools, testing, cwd
    rules := (((w.config.map?).bind fun es => get? es "inference_rules").bind Doc.map?).getD []
    renamings := renamings w.config }

end World

def schemaFile : String := "autogenerated/schemas/wic.json"

/-- The schema of workflow files, with the store of schemas that it was made from. A schema that is
on disk takes its place. -/
def makeSchema (tools : Registry) (stems : List String) (store : Entries) (write : Bool) :
    Act (Doc × Entries) := do
  let store ← Schema.fillStore tools stems store
  let schema ← Schema.workflow tools stems store false
  let store := put store "wic_main" schema
  if write then writeFile schemaFile (← Json.text ⟨some (Text.blanks 2), false⟩ schema)
  let schema ← if (← files).exists? schemaFile then do
      Json.read (← readFile schemaFile)
    else pure schema
  Schema.check schema
  return (schema, store)

def explore (c : Call) (usual : String) : Act World := do
  let config ← Configuration.get (c.text "config_file") usual
  let tools ← Search.tools config (if c.isSet "validate_plugins" then some Registry.check else none)
    (c.isSet "quiet")
  let shelves ← Search.workflows config "wic"
  let (schema, store) ← makeSchema tools (World.stems shelves) [] false
  return ⟨config, tools, shelves, store, schema⟩

def keep (c : Call) (stem suffix : String) (yml : Doc) : Act Unit := do
  if c.isSet "write_intermediate_wic" then
    makeFolders "autogenerated"
    writeFile ("autogenerated/" ++ stem ++ "_" ++ suffix ++ ".wic") (← Yaml.write yml)

def readTree (path name : String) : Act Workflow.Tree := do
  let yml ← Yaml.read (← readFile path)
  makeFolders "autogenerated/"
  let wic ← yml.fieldD "wic" (.map [])
  let space ← wic.fieldD "namespace" (.str globalSpace)
  return ⟨⟨name, space.text⟩, yml⟩

def complete (w : World) (c : Call) (path stem : String) (t : Workflow.Tree) :
    Act (Workflow.Tree × Registry) := do
  let fs ← files
  let raw ← ofLogged (Workflow.read (w.shelf fs) (w.fits c) t)
  keep c stem "tree_raw" raw.yml
  let merged ← raw.merge (.map [])
  keep c stem "tree_merged" merged.yml
  let dir := absolute fs.cwd (parent path)
  let r ← ofLogged (Workflow.Script.replaceAll ⟨false, []⟩ dir w.tools merged)
  keep c stem "tree_python_script" r.1.yml
  return r

def stepSchema (w : World) (c : Call) (stem path : String) : Act Doc := do
  let t ← readTree path stem
  let (t, tools) ← complete w
    { c with options := remove c.options "write_intermediate_wic" } path stem t
  keep c (Path.stem path) "tree_python_script" t.yml
  let s ← get
  let task : Compile.Task := ⟨t.id.stem, t.yml, [], [Graph.root path], [], [], [], [], true⟩
  let r ← ofLogged (Compile.compile (w.setting s.home s.files.cwd tools true) task)
  Schema.step [] stem r.tree.part.cwl "workflows"

def generateSchemas (w : World) (c : Call) : Act Unit := do
  let one (store : Entries) (e : String × String) : Act Entries := do
    return put store ("workflows/" ++ e.1 ++ ".json") (← stepSchema w c e.1 e.2)
  let store ← (w.shelves.flatMap (·.2)).foldlM one w.store
  let (_, store) ← makeSchema w.tools (World.stems w.shelves) store true
  writeFile "autogenerated/schemas/schema_store.json"
    (← Json.text ⟨some (Text.blanks 2), false⟩ (.map store))
  print "Finished generating schemas. Exiting."
  throw (.exit "0")

def emptyDiagram (path : String) (yml : Doc) : Result Graph := do
  let drawing ← (← yml.fieldD "wic" (.map [])).fieldD "graphviz" (.map [])
  match ← drawing.fieldD "label" (.str path) with
  | .str label =>
    return (Graph.empty ("cluster_" ++ path) path).addLines
      [Graph.Dot.attr "label" label, Graph.Dot.attr "color" "lightblue"]
  | _ => throw .wrongKind

def diagramText (path : String) (dark : Bool) (g : Graph) : String :=
  Graph.Dot.digraph path ([Graph.Dot.attr "newrank" "True", Graph.Dot.attr "bgcolor" "transparent",
    Graph.Dot.attr "fontcolor" (if dark then "black" else "white")] ++
    Graph.Dot.subgraph g.title g.lines)

def draw (c : Call) (path stem : String) (g : Graph) : Act Unit := do
  if (← get).programs.contains "dot" then
    let file := "autogenerated/" ++ stem ++ ".wic.gv"
    makeFolders (parent file)
    writeFile file (diagramText path (c.isSet "graph_dark_theme") g)
    let _ ← run (.str ("cat " ++ file ++ " | dot -Tpng > " ++ file ++ ".png"))
    let _ ← run (.str ("cwltool_filterlog --print-dot autogenerated/" ++ stem ++
      ".cwl | dot -Tsvg > autogenerated/" ++
      stem ++ ".svg"))
  else
    print "Warning: Cannot generate graphviz diagrams because the `dot` executable was not found."
    print "(This may happen if you installed the graphviz python package"
    print "but not the graphviz system package.)"

def compile (w : World) (path stem : String) (t : Workflow.Tree) (tools : Registry) :
    Act (Compile.PartTree × Graph) := do
  let g ← emptyDiagram path t.yml
  let s ← get
  let task : Compile.Task := ⟨t.id.stem, t.yml, [], [g], [], [], [], [], true⟩
  match ← attempt (ofLogged (Compile.compile (w.setting s.home s.files.cwd tools false) task)) with
  | .ok r => return (r.tree, r.graphs.getLastD g)
  | .error (.exit n) => throw (.exit n)
  | .error e =>
    let file := "error_" ++ stem ++ ".txt"
    print ("Failed to compile " ++ path)
    print ("See " ++ file ++ " for detailed technical information.")
    writeFile file e.report
    throw (.exit "1")

def run (c : Call) (path stem : String) (tree : Compile.PartTree) : Act Unit := do
  let base := "autogenerated"
  let engine := c.text "container_engine"
  Run.Container.check engine (c.isSet "ignore_docker_install")
  Run.writeTree tree base (c.text "inputs_file")
  Run.Container.extract engine (c.text "pull_dir") (join base (stem ++ ".cwl"))
  let tree ← if c.isSet "docker_remove_entrypoints" then Run.Container.removeEntrypoints engine tree
    else pure tree
  Run.stage tree.part.jobInputs (absolute (← files).cwd (parent path)) base true
  let yes (k : String) : Doc × Doc := (.str k, .str (if c.isSet k then "yes" else "no"))
  let same (k : String) : Doc × Doc := (.str k, .str (c.text k))
  let settings : Entries := [same "container_engine", same "cwl_runner", yes "copy_output_files",
    same "cachedir", same "outdir", yes "generate_run_script"]
  let _ ← Run.runLocal settings false c.more tree.part.name base .null

def finish (c : Call) (tree : Compile.PartTree) : Act Compile.PartTree := do
  let tree ← ofLogged tree.prependIncludes
  let tree ← if c.isSet "partial_failure_enable" then
      match c.numbers "partial_failure_success_codes_range" with
      | [a, b] => ofLogged (tree.allowFailure a b (c.numbers "partial_failure_success_codes"))
      | _ => pure tree
    else pure tree
  if c.isSet "cwl_inline_runtag" then (tree.withEmbedded : Result Compile.PartTree) else return tree

def deliver (c : Call) (path stem : String) (tree : Compile.PartTree) (g : Graph) : Act Unit := do
  let tree ← finish c tree
  if c.isSet "graphviz" then draw c path stem g
  if c.isSet "run_local" || c.isSet "generate_run_script" then run c path stem tree
  else if c.isSet "generate_cwl_workflow" then
    Run.writeTree tree "autogenerated" (c.text "inputs_file")
  else
    print "Please specify either --generate_cwl_workflow (compile) or --run_local (run)"
    throw (.exit "1")

def start (words : List String) : Act Unit := do
  let s ← get
  let (options, more) ← ofLogged
    (CommandLine.readKnown (CommandLine.compiler s.home s.files.cwd) words)
  let c : Call := ⟨options, more⟩
  let usual := join (c.text "homedir") "wic/global_config.json"
  if c.isSet "generate_config" then Configuration.generate usual
  let w ← explore c usual
  if c.isSet "generate_schemas" then generateSchemas w c
  let path := c.text "yaml"
  let stem := Path.stem path
  let (t, tools) ← complete w c path stem (← readTree path path)
  let t ← if c.isSet "cwl_inline_subworkflows" then do
      let (u, _) ← ofLogged (Workflow.inlineEverywhere t)
      let u : Workflow.Tree := ⟨⟨u.id.stem ++ "_inline", u.id.space⟩, u.yml⟩
      keep c stem "tree_merged_inlined" u.yml
      pure u
    else pure t
  let (tree, g) ← compile w path stem t tools
  deliver c path stem tree g

end WorkflowInference.Program
