import WorkflowInference.CommandLine.Options
import WorkflowInference.Compile.Workflow
import WorkflowInference.Schema.Validity
import WorkflowInference.Session
import WorkflowInference.Workflow.Script

/-!
Watching a directory for files that are new or have changed, and the watcher that runs a tool on
them.
-/
namespace WorkflowInference.Run.Watch

open Act

abbrev Stamps := List (String × Doc)

def changed (fs : Files) (times : String → Option Doc) (dir pattern : String) (before : Stamps) :
    Stamps :=
  (Glob.find fs (Path.join dir ("**/" ++ pattern))).filterMap fun p =>
    (times p).bind fun t =>
      match before.lookup p with
      | some old => if Schema.isAtLeast t old then none else some (p, t)
      | none => some (p, t)

def locate (cache pattern : String) : Act Doc := do
  let fs ← files
  match changed fs (fun _ => some (.int 0)) cache pattern [] with
  | [] =>
    print ("Warning! Changed files should be length one! " ++ pattern ++ "\n[]")
    return .str (Path.join cache pattern)
  | (p, _) :: _ => return .str (Path.absolute fs.cwd p)

mutual

def locateAll (cache : String) : Doc → Act Doc
  | .map es => do return .map (← locateEntries cache es)
  | _ => throw .noPart

def locateEntries (cache : String) : List (Doc × Doc) → Act (List (Doc × Doc))
  | [] => return []
  | (k, v) :: es => do
    let w ← match v with
      | .map _ => locateAll cache v
      | _ => do
        let .str name := k | throw .wrongKind
        if Text.contains name "input" && Text.contains name "path" then
          match v with
          | .str pattern => locate cache pattern
          | _ => throw .wrongKind
        else pure v
    return (k, w) :: (← locateEntries cache es)

end

def single (tool : String) (values : Doc) : Workflow.Tree :=
  let notes := Doc.obj
    [("steps", Doc.obj [("(1, " ++ tool ++ ")", Doc.obj [("wic", Doc.obj [("steps", values)])])])]
  if Path.suffix tool = ".wic" then
    ⟨⟨tool, globalSpace⟩, Doc.obj [("wic", notes), ("steps", .list [Doc.obj [(tool, .null)]])]⟩
  else ⟨⟨tool, globalSpace⟩, Doc.obj [("steps", .list [Doc.obj [(tool, values)]])]⟩

/-- Compiles a tool with values from the cache. A step has to have an identifier, and this one has
none, so the compiler refuses it. -/
def recompile (cache tool : String) (values : Doc) (tools : Registry) (shelf : Workflow.Shelf) :
    Act Unit := do
  let values ← locateAll cache values
  let t := single tool values
  let (t, tools) ← if Path.suffix tool = ".wic" then do
      let raw ← ofLogged (Workflow.read shelf none t)
      let merged ← raw.merge (.map [])
      ofLogged (Workflow.Script.replaceAll ⟨false, []⟩ "." tools merged)
    else pure (t, tools)
  let s ← get
  let name := tool ++ "_only.wic"
  let setting : Compile.Setting :=
    { tags := ⟨"cachedir", "", s.home⟩, tools, relativeRunPath := false,
                                     testing := false, cwd := s.files.cwd }
  let _ ← ofLogged
    (Compile.compile setting ⟨name, t.yml, [], [Graph.empty name name], [], [], [], [], true⟩)

def rerun (cache tool : String) (values : Doc) (tools : Registry) (shelf : Workflow.Shelf) :
    Act Unit := do
  match ← attempt (recompile cache tool values tools shelf) with
  | .ok _ => return
  | .error .notThere => print ""
  | .error e => throw e

def runProgram (program : String) (words : List String) : Act Unit := do
  print ("cwl_subinterpreter sys.argv " ++ (Doc.strs (program :: words)).text)
  let options ← ofLogged (CommandLine.read CommandLine.watcher words)
  let text (k : String) : String := (Entries.getD options k .null).text
  if (Text.int? (text "max_times")).isNone then throw .badValue
  let log := text "cwl_tool" ++ "_only.log"
  if !(← files).exists? log then writeFile log ""
  if (Json.read? (text "config")).isNone then throw .badJson
  if (Entries.getD options "homedir" .null).isNull then throw .wrongKind
  throw .noPart

end WorkflowInference.Run.Watch
