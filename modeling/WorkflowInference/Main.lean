import WorkflowInference.Program

/-!
The command line. The files that a call can reach are read first, the program then runs on them as
a session, and what it wrote is put back. No other program can be started from here: each is
reported as missing.
-/
namespace WorkflowInference.Shell

/-- The texts of the files in a directory, at any depth; a file that is no text is left out. -/
partial def gather (dir : String) : IO (List (String × String)) := do
  try
    let entries ← (← IO.FS.realPath dir).readDir
    let found ← entries.toList.mapM fun e => do
      if ← e.path.isDir then gather e.path.toString
      else try return [(e.path.toString, ← IO.FS.readFile e.path)] catch _ => return []
    return found.flatten
  catch _ => return []

def searched (files : Files) (path : String) : List String :=
  let config := ((files.read? path).bind Json.read?).getD .null
  Configuration.pathFields.flatMap fun k =>
    match (config.map?).bind fun es => Entries.get? es k with
    | some (.map spaces) => spaces.flatMap fun e => e.2.items.filterMap Doc.str?
    | _ => []

/-- All that a call can reach: the current directory, the usual configuration, and the directories
that the configuration names. -/
def reachable (cwd home : String) (words : List String) : IO Files := do
  let files : Files := { cwd, texts := (← gather cwd) ++ (← gather (Path.join home "wic")) }
  let config :=
    match (Logged.outcome (CommandLine.readKnown (CommandLine.compiler home cwd) words) {}).1 with
    | .ok (es, _) => ((Entries.getD es "config_file" .null).str?).getD ""
    | .error _ => ""
  let more ← (searched files config).mapM fun d => gather (files.place d)
  return { files with texts := Keyed.update files.texts more.flatten }

def store (old new : Files) : IO Unit := do
  for d in new.folders do IO.FS.createDirAll d
  for (p, t) in new.texts do
    if old.texts.lookup p != some t then
      IO.FS.createDirAll (Path.parent p)
      IO.FS.writeFile p t

def status (e : Failure) : UInt32 :=
  match e with
  | .exit n => ((Text.int? n).getD 1).toNat.toUInt32
  | _ => 1

end WorkflowInference.Shell

open WorkflowInference in
def main (words : List String) : IO UInt32 := do
  let cwd := (← IO.currentDir).toString
  let home := (← IO.getEnv "HOME").getD "/"
  let files ← Shell.reachable cwd home words
  let session : Session :=
    { files, home, now := toString (← IO.monoNanosNow), outcomes := List.replicate 1000 .missing }
  let (r, s) := Act.outcome (Program.start words) session
  IO.print s.log.text
  Shell.store files s.files
  match r with
  | .ok _ => return 0
  | .error e =>
    match e with
    | .exit _ => pure ()
    | _ => IO.eprintln e.report
    return Shell.status e
