import WorkflowInference.Workflow.Tree

/-!
Putting the steps of a workflow in the place of the step that runs it. The inputs given at the
step replace the inputs of the workflow, and the annotations of the steps move along.
-/
namespace WorkflowInference.Workflow

open Entries Namespaces

def inlineableIn : Nat → Tree → Bool → Namespaces → Result (List Namespaces)
  | 0, _, _, _ => .error .tooDeep
  | n + 1, t, isImpl, path => do
    let wic ← t.wic
    match ← Tree.implementations? wic with
    | some impls =>
      let each ← impls.mapM fun e => inlineableIn n ⟨Tree.implId e.1, e.2⟩ true path
      return each.flatten
    | none =>
      let steps ← Tree.steps t.yml
      let allowed ← wic.fieldD "inlineable" (.bool true)
      let own := if allowed.truthy && !path.isEmpty && !isImpl then [path] else []
      let each ← steps.mapIdxM fun i (step, key) => do
        if isSubKey key then
          let sub ← step.field "subtree"
          inlineableIn n ⟨⟨key, t.id.space⟩, sub⟩ false
            (path ++ [stepName (Path.stem t.id.stem) i key])
        else return []
      return own ++ each.flatten

def inlineable (t : Tree) : Result (List Namespaces) := inlineableIn (t.yml.depth + 1) t false []

def applyArg (argKey argVal : Doc) (ins : Entries) : Result Entries :=
  ins.mapM fun e => do
    match argKey with
    | .str k => return if e.2 == .str ("~" ++ k) then (e.1, argVal) else e
    | _ => throw .wrongKind

def applyArgStep (argKey argVal : Doc) (step : Doc) : Result Doc := do
  let own ← step.fieldD "in" (.map [])
  if own.truthy then
    let ins ← applyArg argKey argVal (← own.entries)
    return .map (put (← step.entries) "in" (.map ins))
  else
    let parent ← step.fieldD "parentargs" (.map [])
    let inner ← parent.fieldD "in" (.map [])
    let ins ← applyArg argKey argVal (← inner.entries)
    if ← parent.holds "in" then
      let parent := Doc.map (put (← parent.entries) "in" (.map ins))
      return .map (put (← step.entries) "parentargs" parent)
    else return step

def applyArgs (yml args : Doc) : Logged Doc := do
  let inputs ← yml.fieldD "inputs" (.map [])
  let yml ← (do return Doc.map (remove (← yml.entries) "inputs") : Result Doc)
  let steps ← (do (← yml.field "steps").members : Result (List Doc))
  let names ← inputs.members
  let given ← args.fieldD "in" (.map [])
  names.forM fun k => do
    if !(← given.includes k) then
      Logged.print
        ("Warning! Inlineing " ++ k.text ++ " with explicit inputs: in the subworkflow" ++
        "but edge inference in the parent workflow is not supported.")
  let es ← given.entries
  let one (steps : List Doc) (e : Doc × Doc) : Result (List Doc) := do
    if !(← inputs.includes e.1) then
      let yml := Doc.map (put (← yml.entries) "steps" (.list steps))
      throw (.stated .general ("Error while inlineing " ++ e.1.text ++ "\n" ++ yamlText yml ++
        "\n" ++ yamlText args))
    steps.mapM (applyArgStep e.1 e.2)
  let steps ← (es.foldlM one steps : Result (List Doc))
  Tree.setSteps yml steps

def notesIn (tag : Doc) : Result Doc := do (← tag.fieldD "wic" (.map [])).fieldD "steps" (.map [])

def setNotes (tag notes : Doc) : Result Doc := do
  let wic ← tag.field "wic"
  return .map (put (← tag.entries) "wic" (.map (put (← wic.entries) "steps" notes)))

def inlineNotesAt (tag : Doc) (count : Int) : List (Int × String) → Result Doc
  | [] => .error .outOfRange
  | [(i, name)] => do
    let notes ← notesIn tag
    let key := placeKey i name
    let sub ← notes.fieldD key (.map [])
    let inner ← reindex (← (← notesIn sub).entries) 1 i
    let rest := remove (← notes.entries) key
    if !(← (← tag.field "wic").holds "steps") then throw .missingKey
    let outer ← reindex rest (i + 1) (count - 1)
    setNotes tag (← (Doc.map inner).merge (.map outer))
  | (i, name) :: path => do
    let notes ← notesIn tag
    let key := placeKey i name
    let sub ← notes.fieldD key (.map [])
    if ← (← sub.fieldD "wic" (.map [])).holds "steps" then
      let sub ← inlineNotesAt sub count path
      setNotes tag (.map (put (← notes.entries) key sub))
    else return tag

def inlineNotes (tag : Doc) (path : Namespaces) (count : Int) : Result Doc := do
  let _ ← tag.field "wic"
  let places ← path.mapM fun n => do
    let s ← StepName.read n
    return (s.index, s.key)
  (← inlineNotesAt tag count places).field "wic"

def liftNotes (wic : Doc) (i : Int) (key : String) (sub : Doc) : Result Doc := do
  let place := placeKey i key
  let note ← (← wic.fieldD "steps" (.map [])).fieldD place (.map [])
  let outer ← note.fieldD "wic" (.map [])
  let inner ← sub.fieldD "wic" (.map [])
  let merged ← inner.merge outer
  let notes ← (← wic.fieldD "steps" (.map [])).entries
  let note := Doc.map (put (← note.entries) "wic" merged)
  return .map (put (← wic.entries) "steps" (.map (put notes place note)))

def unknownStep (ns : String) (names : List String) : Failure :=
  .stated .general ("Error! " ++ ns ++ " not in " ++ literalStrs names)

def inlineIn : Nat → Tree → Namespaces → Logged (Tree × Nat)
  | 0, _, _ => throw .tooDeep
  | _ + 1, t, [] => return (t, 0)
  | n + 1, t, ns :: path => do
    let wic ← t.wic
    match ← (Tree.implementations? wic) with
    | some impls =>
      if path.isEmpty then
        let (name, yml) ← implementation t.yml wic "."
        let steps ← yml.field "steps"
        let _ ← steps.members
        return (⟨⟨name.text, t.id.space⟩, Doc.obj [("steps", steps)]⟩, 0)
      else
        let impls ← impls.mapM fun e => do
          let (r, _) ← inlineIn n ⟨Tree.implId e.1, e.2⟩ (ns :: path)
          return (Tree.implKey r.id, r.yml)
        return (⟨t.id, ← Tree.setImplementations t.yml (ofPairs impls)⟩, 0)
    | none =>
      let steps ← Tree.steps t.yml
      let stem := Path.stem t.id.stem
      let names := steps.mapIdx fun i s => stepName stem i s.2
      if !names.contains ns then throw (unknownStep ns names)
      let place ← StepName.read ns
      let i := place.index.toNat
      let step ← ((steps[i]?.map (·.1)).elim (.error .outOfRange) Except.ok : Result Doc)
      let sub ← step.field "subtree"
      let args ← step.field "parentargs"
      let docs := steps.map (·.1)
      match path with
      | [] =>
        let sub ← applyArgs sub args
        let inner ← (do (← sub.field "steps").members : Result (List Doc))
        let yml ← Tree.setSteps t.yml (docs.take i ++ inner ++ docs.drop (i + 1))
        let wic ← liftNotes wic place.index place.key sub
        let wic ← inlineNotes (Doc.obj [("wic", wic)]) [ns] inner.length
        let yml ← (do return Doc.map (put (← yml.entries) "wic" wic) : Result Doc)
        return (⟨t.id, yml⟩, inner.length)
      | _ =>
        let (r, count) ← inlineIn n ⟨⟨place.key, t.id.space⟩, sub⟩ path
        let step := Doc.obj [("id", .str place.key), ("subtree", r.yml), ("parentargs", args)]
        let yml ← Tree.setSteps t.yml (docs.set i step)
        let wic ← inlineNotes (Doc.obj [("wic", wic)]) (ns :: path) count
        let yml ← (do return Doc.map (put (← yml.entries) "wic" wic) : Result Doc)
        return (⟨t.id, yml⟩, count)

def inlineAt (t : Tree) (path : Namespaces) : Logged (Tree × Nat) :=
  inlineIn (t.yml.depth + path.length + 1) t path

/-- Inlines the first workflow that can be inlined until there is none, at most so often. Gives
also the paths. -/
def inlineAll : Nat → Tree → Logged (Tree × List Namespaces)
  | 0, t => return (t, [])
  | n + 1, t => do
    match ← (inlineable t) with
    | [] => return (t, [])
    | path :: _ =>
      let (t, _) ← inlineAt t path
      let (t, paths) ← inlineAll n t
      return (t, path :: paths)

/-- Inlines all workflows that can be inlined. There are fewer of them than parts of the document.
-/
def inlineEverywhere (t : Tree) : Logged (Tree × List Namespaces) := inlineAll (t.yml.size + 1) t

def slashLast (source : String) : String :=
  if Text.contains source "/" then
    let parts := split (Text.replace source "/" sep)
    join parts.dropLast ++ "/" ++ parts.getLastD ""
  else source

def slashLastIn : Doc → Result Doc
  | .str s => .ok (.str (slashLast s))
  | d => do if ← d.holds "/" then throw .noPart else return d

end WorkflowInference.Workflow
