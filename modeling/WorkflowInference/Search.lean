import WorkflowInference.Registry
import WorkflowInference.Session
import WorkflowInference.Yaml.Reader

/-!
Finding tools and workflows in the directories that a configuration lists under name spaces.
-/
namespace WorkflowInference.Search

open Act

def folders (config : Doc) (field : String) : Result (List (String × Doc)) := do
  match ← config.field field with
  | .map es => return es.map fun e => (e.1.text, e.2)
  | d => do if (← d.members).isEmpty then return [] else .error .wrongKind

def foldFolders {σ : Type} (config : Doc) (field : String) (step : σ → String → Doc → Act σ)
    (start : σ) : Act σ := do
  let spaces ← folders config field
  spaces.foldlM (fun s (space, dirs) => do
    let dirs ← dirs.members
    dirs.foldlM (fun s dir => step s space dir) s) start

def filesIn (field extension kind : String) (dir : Doc) : Act (List String) := do
  let .str d := dir | throw .wrongKind
  let found := Glob.find (← files) (Path.join (Path.plain d) ("**/*." ++ extension))
  makeFolders ("autogenerated/schemas/" ++ kind ++ "/")
  if found.isEmpty then
    print ("Warning! No " ++ extension ++ " files found in " ++ d ++ ".")
    print ("Check '" ++ field ++ "' in your config file")
    print "This almost certainly means you are not in the correct directory."
  return found

def quietly (stem : String) (tool : Doc) : Doc :=
  match tool with
  | .map es =>
    let keep (es : Entries) (k suffix : String) : Entries :=
      if Entries.has es k then es else Entries.put es k (.str (stem ++ suffix))
    .map (keep (keep es "stdout" ".out") "stderr" ".err")
  | d => d

def tools (config : Doc) (check : Option (Doc → Result Unit)) (quiet : Bool) : Act Registry := do
  foldFolders config "search_paths_cwl" (fun r space dir => do
    let found ← filesIn "search_paths_cwl" "cwl" "tools" dir
    (found.filter fun p => !(Text.contains p "biobb_md")).foldlM (fun r p => do
      let doc ← Yaml.read (← readFile p)
      if let some check := check then check doc
      let stem := Path.stem p
      let tool ← Workflow.canonical doc
      let tool := if quiet then quietly stem tool else tool
      return Registry.enter r ⟨stem, space⟩ ⟨(← files).place p, tool⟩) r) []

abbrev Shelves := List (String × List (String × String))

/-- The workflows in the listed directories: of files with one stem in one directory the one with
the shortest path counts, and later directories count more than earlier ones. -/
def workflows (config : Doc) (extension : String) : Act Shelves := do
  foldFolders config "search_paths_wic" (fun shelves space dir => do
    let found ← filesIn "search_paths_wic" extension "workflows" dir
    let sorted := found.mergeSort fun a b => decide (a.length ≥ b.length)
    let fs ← files
    let stems := (sorted.filter fun p => !(Text.contains p "_inputs")).map fun p =>
      (Path.stem p, fs.place p)
    return Keyed.put shelves space (Keyed.update ((shelves.lookup space).getD []) stems)) []

end WorkflowInference.Search
