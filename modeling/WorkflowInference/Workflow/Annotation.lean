import WorkflowInference.Doc.Merge
import WorkflowInference.Registry

/-!
Annotations of steps. An annotation is kept under a key of the form `(place, name)`, the place
counted from one; when a step is put in, the places after it move on. Annotations may give a rule of
inference for each output of a step; for a step that is a workflow the annotations of the steps
inside give them, under the names its outputs have.
-/
namespace WorkflowInference.Workflow

def placeKey (i : Int) (key : String) : String := "(" ++ toString (i + 1) ++ ", " ++ key ++ ")"

def parsePlace (s : String) : Result (Int × String) :=
  let inner := (Text.trim s).toList
  let inner := String.ofList (inner.drop 1).dropLast
  match Text.splitOn "," inner with
  | [a, b] =>
    match Text.int? a with
    | some i => .ok (i, Text.trim b)
    | none => .error .badValue
  | _ => .error .badValue

def reindex (steps : Entries) (index count : Int) : Result Entries :=
  let one (es : Entries) (e : Doc × Doc) : Result Entries := do
    match e.1 with
    | .str s =>
      let (i, name) ← parsePlace s
      let moved := if i ≥ index then "(" ++ toString (i + count) ++ ", " ++ name ++ ")" else s
      return Entries.put es moved e.2
    | _ => throw .noPart
  steps.foldlM one []

def stepFeatures (annotations : Doc) (i : Nat) (key : String) (step : Doc) :
    Result (List String) := do
  let sub ← annotations.fieldD (placeKey i key) (.map [])
  let scatter ← step.holds "scatter"
  let when_ ← step.holds "when"
  let ins ← step.fieldD "in" .null
  let own ← sub.holds "wic"
  let sub : Doc :=
    match sub with
    | .map es => if own then .map (Entries.remove es "wic") else sub
    | _ => sub
  let expr := Doc.mentions (.str "valueFrom") ins || Doc.mentions (.str "valueFrom") sub
  return (if scatter then ["ScatterFeatureRequirement"] else []) ++
    (if expr then ["StepInputExpressionRequirement", "InlineJavascriptRequirement"] else []) ++
    (if when_ then ["InlineJavascriptRequirement"] else [])

def addRequirements (tree : Doc) (keys : List String) (annotations : Doc) (hasSubs : Bool) :
    Result Doc := do
  let rec each (i : Nat) : List String → Result (List String)
    | [] => .ok []
    | k :: ks => do
      let steps ← tree.field "steps"
      let step ←
        match steps with
        | .list xs => (xs[i]?).elim (.error .outOfRange) Except.ok
        | _ => .error .wrongKind
      let here ← stepFeatures annotations i k step
      let rest ← each (i + 1) ks
      return here ++ rest
  let used ← each 0 keys
  let names := ["SubworkflowFeatureRequirement", "ScatterFeatureRequirement",
    "StepInputExpressionRequirement", "InlineJavascriptRequirement"].filter fun r =>
      if r = "SubworkflowFeatureRequirement" then hasSubs else used.contains r
  if names.isEmpty then return tree
  let new : Entries := names.map fun r => (.str r, .map [])
  let es ← tree.entries
  match Entries.get? es "requirements" with
  | none => return .map (Entries.put es "requirements" (.map new))
  | some (.map old) => return .map (Entries.put es "requirements" (.map (Entries.update old new)))
  | some _ => throw .noPart

end WorkflowInference.Workflow

namespace WorkflowInference.Compile

open Workflow (parsePlace)

def rulesIn : Nat → Doc → String → Result Doc
  | 0, _, _ => .error .tooDeep
  | n + 1, note, parent => do
    let wic ← note.fieldD "wic" (.map [])
    if ← wic.holds "steps" then
      let steps ← (← wic.field "steps").entries
      let one (rules : Entries) (e : Doc × Doc) : Result Entries := do
        let (place, key) ←
          match e.1 with
          | .str s => parsePlace s
          | _ => throw Failure.noPart
        let ns := stepName (Path.stem parent) (place - 1) key
        let inner ← (← rulesIn n e.2 key).entries
        inner.foldlM (fun rules r =>
          match r.1 with
          | .str k => .ok (Entries.put rules (ns ++ Namespaces.sep ++ k) r.2)
          | _ => .error .wrongKind) rules
      return .map (← steps.foldlM one [])
    else if ← wic.holds "inference" then wic.field "inference"
    else return .map []

def rulesOf (note : Doc) (parent : String) : Result Doc := rulesIn (note.depth + 1) note parent

open Workflow (placeKey reindex)

def insertionRules (rules : Entries) (tool : Tool) : Result Entries := do
  let outs ← (← tool.cwl.field "outputs").entries
  outs.filterMapM fun e => do
    if ← e.2.holds "format" then
      let format ← e.2.field "format"
      if !format.hashable then throw .wrongKind
      return some (e.1, (Entries.at? rules format).getD (.str "default"))
    else return none

def insertAt (id : StepId) (i : Int) : Doc → Result Doc
  | .list xs =>
    let n : Nat := if i ≥ 0 then i.toNat else xs.length - i.natAbs
    .ok (.list (xs.take n ++ [Doc.obj [(id.stem, .null)]] ++ xs.drop n))
  | _ => .error .noPart

def insertNote (i : Int) (key : String) (note : Doc) : Option Doc → Result Doc
  | none => .ok (Doc.obj [("steps", Doc.obj [(key, note)])])
  | some wic => do
    let stated ← wic.holds "steps"
    if stated then do
      let moved ← (do reindex (← (← wic.field "steps").entries) (i + 1) 1 : Result Entries)
      return .map (Entries.put (← wic.entries) "steps" (.map (Entries.put moved key note)))
    else return .map (Entries.put (← wic.entries) "steps" (Doc.obj [(key, note)]))

def insertStep (rules : Entries) (tree : Doc) (id : StepId) (tool : Option Tool) (i : Int) :
    Result Doc := do
  let old ← tree.field "steps"
  let steps ← insertAt id i old
  let tool ← tool.elim (.error .missingKey) Except.ok
  let inference ← insertionRules rules tool
  let note := Doc.obj [("wic", Doc.obj [("inference", .map inference)])]
  let es ← tree.entries
  let es := Entries.put es "steps" steps
  let wic ← insertNote i (placeKey i id.stem) note (Entries.get? es "wic")
  return .map (Entries.put es "wic" wic)

end WorkflowInference.Compile
