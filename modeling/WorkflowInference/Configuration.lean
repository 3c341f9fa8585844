import WorkflowInference.Json
import WorkflowInference.Session

/-!
The configuration: where tools and workflows are searched, and the rules of inference. When there
is none yet, a basic one is written together with tools and examples to start from.
-/
namespace WorkflowInference.Configuration

def basic : Doc :=
  Doc.obj [
    ("search_paths_cwl", Doc.obj [("global", Doc.strs ["wic/cwl_adapters"]), ("gpu", .list [])]),
    ("search_paths_wic", Doc.obj [("global", Doc.strs ["wic/examples"])]),
    ("renaming_conventions", .list [Doc.strs ["energy_", "edr_"], Doc.strs ["structure_", "tpr_"],
      Doc.strs ["traj_", "trr_"]]),
    ("inference_rules", Doc.obj [("edam:format_3881", .str "continue"), ("edam:format_3987",
      .str "continue"), ("edam:format_3878", .str "break"), ("edam:format_2033", .str "break")])]

def pathFields : List String := ["search_paths_cwl", "search_paths_wic"]

def pathsFrom (dir : String) (paths : Doc) : Result Doc :=
  match paths with
  | .map es => do
    return .map (← es.mapM fun e => do
      let ps ← (← e.2.members).mapM fun p =>
        match p with
        | .str s => .ok (Doc.str (Path.join dir s))
        | _ => .error .wrongKind
      return (e.1, .list ps))
  | d => do if (← d.members).isEmpty then return d else .error .wrongKind

def located (dir : String) (config : Doc) : Result Doc :=
  pathFields.foldlM (fun c k => do
    let paths ← pathsFrom dir (← c.field k)
    return .map (Entries.put (← c.entries) k paths)) config

def readFile (path : String) : Act Doc := do
  let text ← Act.readFile path
  let some d := Json.read? text | throw .badJson
  located (← Act.files).cwd d

def writeFile (config : Doc) (path : String) : Act Unit := do
  Act.makeFolders (Path.parent path)
  Act.writeFile path (← Json.text ⟨some (Text.blanks 4), true⟩ config)

def firstPath (config : Doc) (field : String) : Result String := do
  match ← (← (← config.field field).field "global").members with
  | .str s :: _ => return s
  | _ :: _ => throw .wrongKind
  | [] => throw .outOfRange

def putExamples (config : Doc) : Act Unit :=
  pathFields.forM fun k => do
    let dir ← firstPath config k
    if (← Act.files).exists? dir then throw (.unstated "FileExistsError")
    Act.makeFolders dir

def create (path : String) : Act Doc := do
  let config ← located (← get).home basic
  writeFile config path
  putExamples config
  return config

def get (path usual : String) : Act Doc := do
  if (← Act.files).exists? path then readFile path
  else
    let config ← create usual
    Act.print ("default config file : " ++ usual ++ " generated")
    return config

def generate (usual : String) : Act Unit := do
  if (← Act.files).exists? usual then
    Act.print ("Config already exists. To overwrite delete " ++ Path.parent usual ++
      " directory. Exiting")
  else
    let _ ← create usual
    Act.print "Finished generating config. Exiting."
  throw (.exit "0")

def forCollections (dir : String) : Doc :=
  let paths (ps : List String) : Doc := Doc.strs (ps.map (Path.join dir))
  let cwl := Doc.obj [
    ("global", paths ["image-workflows/cwl_adapters", "biobb_adapters/biobb_adapters",
      "mm-workflows/cwl_adapters", "sophios/cwl_adapters"]),
    ("gpu", paths ["mm-workflows/gpu"])]
  let wic := Doc.obj [("global",
    paths ["sophios/docs/tutorials", "image-workflows/workflows", "mm-workflows/examples"])]
  match basic with
  | .map es => .map (Entries.put (Entries.put es "search_paths_cwl" cwl) "search_paths_wic" wic)
  | d => d

end WorkflowInference.Configuration
