import WorkflowInference.Compile.Draft

/-!
Changes to compiled documents: outputs that may be missing, images without an entry point, files
that are included by their full paths, and workflows that hold the documents their steps run.
-/
namespace WorkflowInference.Compile

open Entries

def optionalType (out : Doc) : Result Doc := do
  match ← out.field "type" with
  | .str t =>
    match t.toList.getLast? with
    | none => throw .outOfRange
    | some c =>
      if c = '?' then return out
      return .map (put (← out.entries) "type" (.str (t ++ "?")))
  | _ => return out

def successCodes (lower upper : Int) (codes : List Int) : List Int :=
  let range := (List.range (upper - lower).toNat).map fun (i : Nat) => lower + i
  ((0 :: codes ++ range).eraseDups).mergeSort (· ≤ ·)

def allowFailure (lower upper : Int) (codes : List Int) (tool : Doc) : Result Doc := do
  if lower > upper then
    throw (.stated .assertion ("lower " ++ toString lower ++
      "  value can't be greater than higher " ++ toString upper ++ " value"))
  let es ← match tool with
    | .map es => pure es
    | _ => throw .wrongKind
  let es := put es "successCodes" (.list ((successCodes lower upper codes).map .int))
  let outs ← (← (Doc.map es).field "outputs").entries
  let outs ← outs.mapM fun e => return (e.1, ← optionalType e.2)
  return .map (put es "outputs" (.map outs))

def allowToolFailure (lower upper : Int) (codes : List Int) (d : Doc) : Result Doc := do
  if (← d.field "class") == .str "CommandLineTool" then allowFailure lower upper codes d
    else return d

def PartTree.allowFailure (lower upper : Int) (codes : List Int) (t : PartTree) : Logged PartTree :=
  t.mapCwl fun p => allowToolFailure lower upper codes p.cwl

def follow (d : Doc) (dflt : Doc) : List String → Result Doc
  | [] => .ok d
  | [k] => d.fieldD k dflt
  | k :: ks => do follow (← d.fieldD k (.map [])) dflt ks

def writeAt (v : Doc) (d : Doc) : List String → Result Doc
  | [] => .ok v
  | k :: ks =>
    match d with
    | .map es => do
      let inner ← (match ks, get? es k with
        | [], _ => .ok .null
        | _, some x => .ok x
        | _, none => .error .missingKey : Result Doc)
      return .map (put es k (← writeAt v inner ks))
    | _ => .error .wrongKind

def imagePath : List String := ["requirements", "DockerRequirement", "dockerPull"]

def noEntrySuffix : String := "-noentrypoint"

def splitImage (s : String) : Result (String × String) :=
  match Text.splitOn ":" s with
  | [repo] => .ok (repo, "latest")
  | [repo, tag] => .ok (repo, tag)
  | _ => .error .badValue

def withoutEntrypoint (tool : Doc) : Logged Doc := do
  let image ← follow tool (.str "") imagePath
  Logged.printIf image.truthy ("docker_image " ++ image.text)
  match image with
  | .str s =>
    let (repo, tag) ← splitImage s
    if repo != "" && tag != "" && !Text.endsWith tag noEntrySuffix then
      Logged.print ("repo, tag " ++ repo ++ " " ++ tag)
      writeAt (.str (repo ++ ":" ++ tag ++ noEntrySuffix)) tool imagePath
    else return tool
  | _ =>
    if ← image.holds ":" then throw .noPart
    else if image.truthy then throw .wrongKind else return tool

def PartTree.withoutEntrypoints (t : PartTree) : Logged PartTree :=
  t.mapCwl fun p => withoutEntrypoint p.cwl

def includePath : List String := ["hints", "DockerRequirement", "dockerFile", "$include"]

def prependInclude (tool : Doc) (path : String) : Result Doc := do
  match ← follow tool (.str "") includePath with
  | .str s =>
    if s = "" then return tool else writeAt (.str (Path.parent path ++ "/" ++ s)) tool includePath
  | d => if d.truthy then throw .wrongKind else return tool

def PartTree.prependIncludes (t : PartTree) : Logged PartTree :=
  t.mapCwl fun p => prependInclude p.cwl p.runPath

def embed (workflow : Entries) (name : String) (run : Doc) : Result Entries := do
  let steps ← (← (Doc.map workflow).field "steps").members
  let isIt (s : Doc) : Result Bool := do return (← s.fieldD "id" .null) == .str name
  let rec find : List Doc → Nat → Result Nat
    | [], _ => .error (.unstated "StopIteration")
    | s :: ss, i => do if ← isIt s then return i else find ss (i + 1)
  let i ← find steps 0
  let own := getD workflow "$namespaces" (.map [])
  let inner ← run.fieldD "$namespaces" (.map [])
  let spaces ← match own, inner with
    | .map a, .map b => pure (update a b)
    | _, _ => throw .wrongKind
  let run := Doc.map (remove (remove (← run.entries) "$namespaces") "$schemas")
  let step ← (steps.getD i .null).entries
  let steps := steps.set i (.map (put step "run" run))
  return put (put workflow "steps" (.list steps)) "$namespaces" (.map spaces)

mutual

def PartTree.embedded : PartTree → Result Doc
  | .node p ts =>
    match p.cwl with
    | .map es =>
      if get? es "class" == some (.str "Workflow") then (embedAll es ts).map .map
      else .ok p.cwl
    | _ => .error .noPart

def embedAll (workflow : Entries) : List PartTree → Result Entries
  | [] => .ok workflow
  | t :: ts =>
    match PartTree.embedded t with
    | .error e => .error e
    | .ok run =>
      match t.part.namespaces.getLast? with
      | none => .error .outOfRange
      | some name =>
        match embed workflow name run with
        | .error e => .error e
        | .ok w => embedAll w ts

end

def PartTree.withEmbedded : PartTree → Result PartTree
  | .node p ts => do return .node { p with cwl := ← PartTree.embedded (.node p ts) } ts

end WorkflowInference.Compile
