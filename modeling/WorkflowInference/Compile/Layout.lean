import WorkflowInference.Run.OutputTarget

/-!
Compiled workflows on disk: a document and a file of job inputs for each part, in a directory for
each step or all in one directory.
-/
namespace WorkflowInference.Compile

def header : String :=
  "# This file was autogenerated using Sophios, version unknown\n" ++
    "# https://github.com/PolusAI/sophios\n"

def PartTree.dirIn (nested : Bool) (dir : String) (t : PartTree) : Result String :=
  if nested then
    match t.part.namespaces.getLast? with
    | some n => .ok (Path.join dir n)
    | none => .error .outOfRange
  else .ok dir

mutual

def PartTree.write (nested : Bool) (more : Entries) (dir : String) : PartTree → Logged Unit
  | .node p ts => do
    let runs := Run.runsOf (.node p ts)
    let cwl ← Run.normalCwl runs p.cwl
    let job ← Run.normalJobInputs runs p.cwl (.map (Entries.update p.jobInputs more))
    let file (s : String) : String :=
      Path.join dir (if nested then s else Namespaces.join (p.namespaces ++ [s]))
    let text ← Yaml.write cwl
    Logged.write (file (p.name ++ ".cwl")) ("#!/usr/bin/env cwl-runner\n" ++ header ++ text)
    let text ← Yaml.write job
    Logged.write (file (p.name ++ "_inputs.yml")) (header ++ text)
    writeAll nested more dir ts

def writeAll (nested : Bool) (more : Entries) (dir : String) : List PartTree → Logged Unit
  | [] => return
  | t :: ts => do
    let sub ← t.dirIn nested dir
    PartTree.write nested more sub t
    writeAll nested more dir ts

end

def outerInput (e : Doc × Doc) : Result (Doc × Doc) := do
  if ← e.2.holds "location" then
    match ← e.2.field "location" with
    | .str s =>
      if Path.isAbsolute s then return e
      return (e.1, .map (Entries.put (← e.2.entries) "location" (.str ("../" ++ s))))
    | _ => throw .wrongKind
  else return e

def outerInputs (inputs : Doc) : Result Entries := do (← inputs.entries).mapM outerInput

end WorkflowInference.Compile
