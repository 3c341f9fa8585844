import WorkflowInference.Json
import WorkflowInference.Session

/-!
The files of a run. Input files are brought to the place where it runs; the files that it made are
collected from its record, in which a file stands at a location and has a base name, and a directory
lists what is in it.
-/
namespace WorkflowInference.Provenance

structure OutputFile where
  location : String
  parent : String
  basename : String
  deriving DecidableEq, Repr

mutual

def files (parent : String) : Doc → Result (List OutputFile)
  | .list xs => filesOf parent xs
  | .map es =>
    let cls := Entries.getD es "class" (.str "")
    if cls == .str "File" then
      match Entries.get? es "location", Entries.get? es "basename" with
      | some l, some b => .ok [⟨l.text, parent, b.text⟩]
      | _, _ => .error .missingKey
    else if cls == .str "Directory" then
      match Entries.get? es "basename" with
      | some (.str b) => listing (parent ++ "/" ++ b) es
      | some _ => .error .wrongKind
      | none => .error .missingKey
    else .ok []
  | _ => .ok []

def filesOf (parent : String) : List Doc → Result (List OutputFile)
  | [] => .ok []
  | x :: xs =>
    match files parent x, filesOf parent xs with
    | .ok a, .ok b => .ok (a ++ b)
    | .error e, _ => .error e
    | _, .error e => .error e

def listing (parent : String) : List (Doc × Doc) → Result (List OutputFile)
  | [] => .error .missingKey
  | (k, v) :: es => if k == .str "listing" then files parent v else listing parent es

end

def outputFiles (record : Doc) : Result (List OutputFile) := do
  let es ← record.entries
  let fs ← es.mapM fun e => files e.1.text e.2
  return fs.flatten

end WorkflowInference.Provenance

namespace WorkflowInference.Run.Outputs

def folder (name : String) : String :=
  match Namespaces.shorten " " name with
  | .ok (stem, short) => stem ++ "/" ++ Text.replace short "___" "/"
  | .error _ => name

def freeName (fs : Files) (dir basename dest : String) : Nat → Nat → String
  | 0, _ => dest
  | n + 1, i =>
    if fs.exists? dest then
      freeName fs dir basename (dir ++ "/" ++ Path.stem basename ++ "_" ++ toString i ++
        Path.suffix basename) n (i + 1)
    else dest

def copy (source dest : String) : Act Unit := do
  let fs ← Act.files
  let failed := Act.unsuccessful (Doc.strs ["cp", source, dest]) 1
  match fs.read? source with
  | none => throw failed
  | some text =>
    let dest := if fs.isFolder dest then Path.join dest (Path.name source) else dest
    if fs.isFolder (Path.parent (fs.place dest)) then Act.writeFile dest text else throw failed

def collect (stem base : String) : Act Unit := do
  let record := "provenance/" ++ stem ++ "/workflow/primary-output.json"
  if (← Act.files).exists? record then
    let some d := Json.read? (← Act.readFile record) | throw .badJson
    let outputs ← Provenance.outputFiles d
    let one (seen : List String) (f : Provenance.OutputFile) : Act (List String) := do
      let dir := "outdir/" ++ folder f.parent
      Act.makeFolders dir
      let first := (if base = "" then "" else base ++ "/") ++ dir ++ "/" ++ f.basename
      let fs ← Act.files
      let dest :=
        if seen.contains first then
          freeName fs dir f.basename first (fs.texts.length + fs.folders.length + 2) 2
        else first
      copy ("provenance/" ++ stem ++ "/workflow/" ++ f.location) dest
      return dest :: seen
    let _ ← outputs.foldlM one []

end WorkflowInference.Run.Outputs

namespace WorkflowInference.Run

def fileLocation? : Doc → Option Doc
  | .map es =>
    if Entries.get? es "class" == some (.str "File") then Entries.get? es "location" else none
  | _ => none

/-- Copies a file into place; a directory as the place takes the file into it. -/
def copyInto (source dest : String) : Act Unit := do
  let fs ← Act.files
  let dest := if fs.isFolder dest then Path.join dest (Path.name source) else dest
  Act.writeFile dest (← Act.readFile source)

/-- Copies the files among the job inputs from one directory to another. A file that is not there
ends the run if `strict`. -/
def stage (inputs : Entries) (source dest : String) (strict : Bool) : Act Unit :=
  inputs.forM fun e =>
    match fileLocation? e.2 with
    | none => pure ()
    | some (.str location) => do
      let src := Path.join source location
      if !(← Act.files).exists? src && strict then
        Act.print ("Error! " ++ src ++ " does not exist!")
        throw (.exit "1")
      let dst := Path.join dest location
      Act.makeFolders (Path.parent dst)
      let fs ← Act.files
      if fs.place src != fs.place dst then copyInto src dst
    | some _ => throw .wrongKind

end WorkflowInference.Run
