import WorkflowInference.Run.Local

/-!
Running a compiled workflow in the background: what the runner prints is kept in files, and the end
of it is shown when the run fails.
-/
namespace WorkflowInference.Run.Background

open Text Path Act

def linesOf (text : String) : List String :=
  let lines := lines (replace (replace text "\r\n" "\n") "\r" "\n")
  if lines.getLast? == some "" then lines.dropLast else lines

def shownLines : Nat := 50

def showEnd (name : String) (status : Int) (stdout stderr : String) : Act Unit := do
  print ("Workflow \"" ++ name ++ "\" finished with non-zero exit code: " ++ toString status)
  match (← files).read? stderr with
  | none =>
    print
      ("Could not read stderr log for immediate display: [Errno 2] No such file or directory: " ++
      quoted stderr)
  | some text =>
    let lines := linesOf text
    let last := lines.drop (lines.length - shownLines)
    if !last.isEmpty then
      print "--- Last lines from stderr ---"
      last.forM fun l => print ("  " ++ trim l)
    print ("Full logs available at: " ++ stdout ++ " and " ++ stderr)

def runners : List String := ["cwltool", "toil-cwl-runner"]

def follow (job : Job) (settings : Entries) (command : List String) (env : Doc) : Act Int := do
  let vars ← ofLogged (Environment.clean env)
  let logs := join job.base "LOGS"
  makeFolders logs
  let stdout := join logs "stdout.txt"
  let stderr := join logs "stderr.txt"
  let o ← lendEnv vars (start (Doc.strs command))
  let (status, _) ← ended o
  if let .ended _ _ out err _ := o then
    if let some t := out then writeFile stdout t
    if let some t := err then writeFile stderr t
  if status != 0 then showEnd job.name status stdout stderr
  else if job.runner = "cwltool" && isYes settings "copy_output_files" then
    Outputs.collect job.name job.base
  return status

def run (job : Job) (settings : Entries) (env : Doc) : Act (Option Int) := do
  if !runners.contains job.runner then
    throw (.stated .value "cwl_runner must be 'cwltool' or 'toil-cwl-runner'")
  let s ← get
  let command := job.command s.files.cwd s.now
  if isYes settings "generate_run_script" then
    writeScript command
    return some 0
  print ("Running: " ++ join " " command)
  print "via async subprocess"
  match ← attempt (follow job settings command env) with
  | .ok status => return some status
  | .error (.exit n) => throw (.exit n)
  | .error e =>
    let file := "error_" ++ job.name ++ "_technical.log"
    makeFolders (parent file)
    writeFile file e.report
    print ("Failed to execute workflow \"" ++ job.name ++ "\". See " ++ file ++ " for details.")
    print ("Unhandled Python exception: " ++ e.title ++ ": " ++ e.said)
    return none

def runDocument (workflow : Doc) (job : Job) (settings : Entries) (env : Doc) :
    Act (Option Int) := do
  let name := (← workflow.field "name").text
  let base := if job.base = "/" then job.base else trimEndOf (· = '/') job.base
  makeFolders base
  let inputs ← (do
    normalJobInputs [] workflow (← workflow.fieldD "yaml_inputs" (.map [])) : Result Doc)
  let parts := workflow.fields.filter fun e =>
    !(["name", "retval", "yaml_inputs"].map Doc.str).any (· == e.1)
  let cwl ← normalCwl [] (.map parts)
  writeFile (join base (name ++ "_inputs.yml")) (← Yaml.write inputs)
  writeFile (join base (name ++ ".cwl"))
    ("#!/usr/bin/env cwl-runner\n" ++ (← Yaml.write cwl))
  run { job with name, base } settings env

end WorkflowInference.Run.Background
