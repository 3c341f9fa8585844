import WorkflowInference.Compile.Layout
import WorkflowInference.Run.Runner
import WorkflowInference.Run.Outputs
import WorkflowInference.Yaml.Reader

/-!
Running a compiled workflow on this machine.
-/
namespace WorkflowInference.Run

open Act

def writeTree (tree : Compile.PartTree) (dir inputsFile : String) : Act Unit := do
  let more ← if inputsFile = "" then pure [] else do
    let d ← Yaml.read (← readFile inputsFile)
    Compile.outerInputs d
  ofLogged (tree.write true more dir)

def writeScript (command : List String) : Act Unit :=
  writeFile "run.sh" ("#!/bin/bash -e\n" ++ Compile.header ++ Text.join " " command)

def needText (settings : Entries) (k : String) : Result String :=
  match Entries.get? settings k with
  | some (.str s) => .ok s
  | some _ => .error .wrongKind
  | none => .error .missingKey

def isYes (settings : Entries) (k : String) : Bool := Entries.get? settings k == some (.str "yes")

def outdirOf (settings : Entries) : Option String :=
  match Entries.get? settings "outdir" with
  | some (.str s) => if s = "" then none else some s
  | _ => none

def runInside (job : Job) (settings : Entries) (command : List String) : Act Int := do
  if job.runner = "cwltool" then
    print "via cwltool.main.main python API"
    let (status, _) ← run (Doc.strs ("cwltool.main" :: command.drop 1))
    print ("Final output json metadata blob is in output_" ++ job.name ++ ".json")
    if isYes settings "copy_output_files" then Outputs.collect job.name ""
    return status
  else if job.runner = "toil-cwl-runner" then
    print "via toil.cwl.cwltoil.main python API"
    let (status, _) ← run (Doc.strs ("toil.main" :: command.drop 1))
    return status
  else throw (.stated .value "unsupported cwl_runner")

/-- Keeps a failure in a file and tells the user. An end that was asked for is no failure. -/
def reportFailure (job : Job) (quiet : Bool) (e : Failure) : Act Int := do
  if let .exit _ := e then throw e
  print ("Failed to execute " ++ Path.join job.base job.name)
  let file := "error_" ++ job.name ++ ".txt"
  print ("See " ++ file ++ " for detailed technical information.")
  writeFile file e.report
  if !quiet then print e.said
  return 1

/-- Removes the directories beside the cache whose names start with its name. An absolute cache is
left alone. -/
def clearCache (cache : String) : Act Unit := do
  if Path.isAbsolute cache then return
  let found := Glob.find (← files) (cache ++ "*")
  for d in found do
    if Path.plain d != Path.plain cache then
      if (← files).isFolder d then modify fun s => { s with files := s.files.removeFolder d }
      else throw .notDirectory

def argumentOf (option dflt : String) : List String → String
  | a :: b :: rest => if a = option then b else argumentOf option dflt (b :: rest)
  | _ => dflt

/-- Runs a workflow, in a process of its own or inside of this one. The result is the status of the
runner. -/
def runLocal (settings : Entries) (separate : Bool) (more : List String) (name base : String)
    (env : Doc) : Act Int := do
  let runner ← needText settings "cwl_runner"
  let cache := Entries.getD settings "cachedir" (.str "cachedir")
  let engine ← needText settings "container_engine"
  let job : Job := ⟨name, base, runner, engine, more, outdirOf settings⟩
  let s ← get
  let command := job.command s.files.cwd s.now
  let env := if env.truthy then env else .map []
  let vars ← ofLogged (Environment.clean env)
  if isYes settings "generate_run_script" then
    writeScript command
    return 0
  print ("Running " ++ Text.join " " command)
  if separate then
    let (status, _) ← lendEnv vars (run (Doc.strs command))
    return status
  let r ← attempt (do
    let vars ← ofLogged (Environment.clean env)
    withEnv vars (runInside job settings command))
  let status ← match r with
    | .ok status => pure status
    | .error e => reportFailure job cache.truthy e
  if status == 0 then
    print ("Success! Runner outputs are under " ++ argumentOf "--outdir" base command ++ "/")
  else
    print "Failure! Please scroll up and find the FIRST error message."
    print "(You may have to scroll up A LOT.)"
  clearCache cache.text
  return status

end WorkflowInference.Run
