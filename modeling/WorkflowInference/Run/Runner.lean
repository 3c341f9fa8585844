import WorkflowInference.Log
import WorkflowInference.Path

/-!
Command lines of the programs that run compiled workflows, with the settings of a run and the
variables of the environment that a user gives to it.
-/
namespace WorkflowInference.Run

structure Job where
  name : String
  base : String
  runner : String
  engine : String
  more : List String := []
  outdir : Option String := none

namespace Job

def engineOptions (engine : String) : List String :=
  if engine = "docker" then []
  else if engine = "singularity" then ["--singularity"]
  else ["--user-space-docker-cmd", engine]

def target (j : Job) (cwd now : String) : String :=
  match j.outdir with
  | some d => Path.resolve cwd d
  | none =>
    Path.resolve cwd j.base ++ "/outdir_" ++
      (if j.runner = "cwltool" then "cwltool" else "toil") ++ "_" ++ now

def command (j : Job) (cwd now : String) : List String :=
  let base := Path.resolve cwd j.base
  let provenance := ["--provenance", base ++ "/provenance/" ++ j.name]
  let files := [base ++ "/" ++ j.name ++ ".cwl", base ++ "/" ++ j.name ++ "_inputs.yml"]
  let common := ["--disable-pull", "--quiet"] ++ provenance ++ engineOptions j.engine ++
    ["--write-summary", base ++ "/output_" ++ j.name ++ ".json", "--skip-schemas",
      "--relax-path-checks"]
  if j.runner = "cwltool" then
    ["cwltool_filterlog"] ++ common ++
      ["--move-outputs", "--enable-ext", "--outdir", j.target cwd now] ++
      j.more ++ files
  else if j.runner = "toil-cwl-runner" then
    [j.runner] ++ engineOptions j.engine ++ ["--relax-path-checks"] ++
      (if j.more.contains "slurm" then [] else provenance) ++
      ["--outdir", j.target cwd now, "--jobStore", "file:" ++ base ++ "/jobStore_" ++ j.name,
        "--clean", "always",
        "--noLinkImports", "--disableProgress"] ++ j.more ++ files
  else [j.runner] ++ common

end Job

end WorkflowInference.Run

namespace WorkflowInference.Run.Environment

def isName (s : String) : Bool :=
  match s.toList with
  | [] => false
  | c :: cs => (c.isAlpha || c = '_') && cs.all fun c => c.isAlphanum || c = '_'

def isRisky (c : Char) : Bool := ";`'\"$()|<>&!\n\r".toList.contains c

def cleanValue (s : String) : String := String.ofList (s.toList.filter fun c => !isRisky c)

def clean (vars : Doc) : Logged (List (String × String)) := do
  let es ← vars.entries
  let one (acc : List (String × String)) (e : Doc × Doc) : Logged (List (String × String)) := do
    let .str k := e.1 | throw .wrongKind
    if isName k then
      match e.2 with
      | .str v => return Keyed.put acc k (cleanValue v)
      | _ => throw .wrongKind
    else
      Logged.print ("Warning: Invalid environment variable key '" ++ k ++ "' skipped.")
      return acc
  es.foldlM one []

end WorkflowInference.Run.Environment

namespace WorkflowInference.Run

def wordOf (d : Doc) : String := (Text.trim d.text).map Char.toLower

def isEnabled (d : Doc) : Bool := ["1", "true", "yes", "on"].contains (wordOf d)

def isDisabled (d : Doc) : Bool := ["0", "false", "no", "off", ""].contains (wordOf d)

/-- The settings as arguments. A flag is given by its name alone when it is switched on and not at
all when it is switched off. -/
def arguments (settings : Entries) (flags : List String) : List String :=
  settings.flatMap fun e =>
    let flag := "--" ++ e.1.text
    if flags.contains e.1.text then
      if isEnabled e.2 then [flag] else if isDisabled e.2 then [] else [flag, e.2.text]
    else [flag, e.2.text]

def defaults (cwd : String) : Entries :=
  [(.str "cwl_runner", .str "cwltool"), (.str "container_engine", .str "docker"),
    (.str "pull_dir", .str cwd)]

def settings (cwd : String) (given : Doc) : Result Entries := do
  if given.truthy then return Entries.update (defaults cwd) (← given.toEntries)
    else return defaults cwd

end WorkflowInference.Run
