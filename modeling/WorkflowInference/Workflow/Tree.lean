import WorkflowInference.Workflow.Annotation
import WorkflowInference.Workflow.Implementation
import WorkflowInference.Yaml.Reader

/-!
Workflows with the workflows they run inside them. A step that is a workflow holds it as its
`subtree`, and the inputs given at the step as its `parentargs`. Annotations of a workflow go over
to the workflows inside, where they take precedence.
-/
namespace WorkflowInference.Workflow

open Entries

structure Tree where
  id : StepId
  yml : Doc

namespace Tree

def wic (t : Tree) : Result Doc := t.yml.fieldD "wic" (.map [])

def implementations? (wic : Doc) : Result (Option Entries) := do
  if ← wic.holds "implementations" then return some (← (← wic.field "implementations").entries)
  else return none

def steps (yml : Doc) : Result (List (Doc × String)) := do
  let xs ← (← yml.field "steps").members
  let keys := stepKeys xs
  let _ ← subKeys keys
  let names ← keys.mapM fun k => (k.str?).elim (.error .wrongKind) Except.ok
  return xs.zip names

def setSteps (yml : Doc) (steps : List Doc) : Result Doc := do
  return .map (put (← yml.entries) "steps" (.list steps))

def setImplementations (yml : Doc) (impls : Entries) : Result Doc := do
  let es ← yml.entries
  let wic := getD es "wic" (.map [])
  return .map (put es "wic" (.map (put (← wic.entries) "implementations" (.map impls))))

def implId : Doc → StepId
  | .qual s n => ⟨s, n⟩
  | k => ⟨k.text, globalSpace⟩

def implKey (id : StepId) : Doc := .qual id.stem id.space

end Tree

inductive ReadError where
  | noSpace (space : String)
  | noWorkflow (stem space parent : String)
  deriving DecidableEq, Repr

def ReadError.message : ReadError → String
  | noSpace s =>
    "Error! namespace " ++ s ++
      " not found in yaml paths. Check 'search_paths_wic' in your config file"
  | noWorkflow stem space parent =>
    "Error! " ++ stem ++ " not found in namespace " ++ space ++ " when attempting to read " ++
      parent ++ ".wic" ++ (if stem = "in" then
        "\n(Check that you have properly indented the `in` tag in " ++ parent ++ ")" else "")

def ReadError.failure (e : ReadError) : Failure := .stated .general e.message

/-- The texts of the workflows that can be read, by name space and stem; a workflow that is known
and cannot be read gives a failure. -/
abbrev Shelf := List (String × List (String × Result String))

namespace Shelf

def find (s : Shelf) (space stem parent : String) : Result String :=
  match s.lookup space with
  | none | some [] => .error (ReadError.noSpace space).failure
  | some files =>
    match files.lookup stem with
    | none => .error (ReadError.noWorkflow stem space parent).failure
    | some text => text

def size (s : Shelf) : Nat := s.foldl (fun n x => n + x.2.length) 0

end Shelf

def rejectTree {α : Type} (stem : String) : Logged α := do
  Logged.print ("Failed to validate " ++ Path.plain stem)
  let file := "validation_" ++ Path.stem stem ++ ".txt"
  Logged.print ("See " ++ file ++ " for detailed technical information.")
  Logged.write file ""
  throw (.exit "1")

/-- Reads the workflows inside of a workflow. A workflow that holds itself cannot be read. -/
def readIn (shelf : Shelf) (fits : Option (Doc → Bool)) : Nat → Tree → Logged Tree
  | 0, _ => throw .tooDeep
  | n + 1, t => do
    let yml ← canonical t.yml
    if let some fits := fits then
      if !fits yml then rejectTree t.id.stem
    let wic ← Tree.wic ⟨t.id, yml⟩
    match ← (Tree.implementations? wic) with
    | some impls =>
      let space ← wic.fieldD "namespace" (.str globalSpace)
      let impls ← impls.mapM fun e => do
        let id : StepId := ⟨e.1.text, space.text⟩
        let r ← readIn shelf fits n ⟨id, e.2⟩
        return (Tree.implKey id, r.yml)
      return ⟨t.id, ← Tree.setImplementations yml (ofPairs impls)⟩
    | none =>
      let _ ← yml.field "steps"
      let notes ← wic.fieldD "steps" (.map [])
      let steps ← Tree.steps yml
      let steps ← steps.mapIdxM fun i (step, key) => do
        if isSubKey key then
          let note ← notes.fieldD (placeKey i key) (.map [])
          let space ← (do
            (← note.fieldD "wic" (.map [])).fieldD "namespace" (.str globalSpace) : Result Doc)
          let text ← shelf.find space.text (Path.stem key) t.id.stem
          let raw ← Yaml.read text
          let sub ← readIn shelf fits n ⟨⟨key, space.text⟩, raw⟩
          let id ← requireId "step" step
          let es ← step.entries
          return Doc.obj [("id", .str id), ("subtree", sub.yml),
            ("parentargs", .map (remove es "id"))]
        else return step
      return ⟨t.id, ← Tree.setSteps yml steps⟩

/-- A workflow with all workflows inside it, each checked by `fits` if it is given. A chain of
workflows without repetition is no longer than the shelf, and implementations are as deep as the
documents. -/
def read (shelf : Shelf) (fits : Option (Doc → Bool)) (t : Tree) : Logged Tree :=
  readIn shelf fits (t.yml.depth + shelf.size + 1000) t

def mergeIn : Nat → Tree → Doc → Result Tree
  | 0, _, _ => .error .tooDeep
  | n + 1, t, outer => do
    let all ← (Doc.obj [("wic", ← t.wic)]).merge outer
    let wic ← all.field "wic"
    let yml := Doc.map (put (← t.yml.entries) "wic" wic)
    let notes ← wic.fieldD "steps" (.map [])
    match ← Tree.implementations? wic with
    | some impls =>
      let impls ← impls.mapM fun e => do
        let id := Tree.implId e.1
        return (e.1, (← mergeIn n ⟨id, e.2⟩ outer).yml)
      return ⟨t.id, ← Tree.setImplementations yml impls⟩
    | none =>
      let steps ← Tree.steps yml
      let steps ← steps.mapIdxM fun i (step, key) => do
        let note ← notes.fieldD (placeKey i key) (.map [])
        if isSubKey key then
          let sub ← mergeIn n ⟨⟨key, t.id.space⟩, ← step.field "subtree"⟩ note
          return Doc.map (put (← step.entries) "subtree" sub.yml)
        else
          let own ← note.holds "wic"
          let note : Doc :=
            match note with
            | .map es => if own then .map (remove es "wic") else note
            | _ => note
          let id ← requireId "step" step
          let merged ← step.merge note
          return Doc.map (put (← merged.entries) "id" (.str id))
      return ⟨t.id, ← Tree.setSteps yml steps⟩

def Tree.merge (t : Tree) (outer : Doc) : Result Tree :=
  mergeIn (t.yml.depth + outer.depth + 1) t outer

inductive Forest where
  | node (tree : Tree) (subs : List (StepId × Forest))

namespace Forest

def tree : Forest → Tree
  | node t _ => t

def subs : Forest → List (StepId × Forest)
  | node _ fs => fs

def ofTreeIn : Nat → Tree → Result Forest
  | 0, _ => .error .tooDeep
  | n + 1, t => do
    let wic ← t.wic
    match ← Tree.implementations? wic with
    | some impls =>
      let subs ← impls.mapM fun e => do
        let id := Tree.implId e.1
        return (id, ← ofTreeIn n ⟨id, e.2⟩)
      return .node t subs
    | none =>
      let steps ← Tree.steps t.yml
      let notes ← wic.fieldD "steps" (.map [])
      let subs ← steps.mapIdxM fun i (step, key) => do
        if isSubKey key then
          let note ← notes.fieldD (placeKey i key) (.map [])
          let space ← (← note.fieldD "wic" (.map [])).fieldD "namespace" (.str globalSpace)
          let id : StepId := ⟨key, space.text⟩
          return some (id, ← ofTreeIn n ⟨id, ← step.field "subtree"⟩)
        else return none
      return .node t (subs.filterMap id)

def ofTree (t : Tree) : Result Forest := ofTreeIn (t.yml.depth + 1) t

def find? (fs : List (StepId × Forest)) (id : StepId) : Option Forest :=
  (fs.reverse.find? fun f => f.1 = id).map (·.2)

/-- The workflows inside, each before those inside it. Of implementations, the chosen one counts
when it begins with a workflow. -/
def flattenIn : Nat → Forest → Logged (List Forest)
  | 0, _ => throw .tooDeep
  | n + 1, f => do
    let wic ← f.tree.wic
    let space ← wic.fieldD "namespace" (.str globalSpace)
    if ← (wic.holds "implementations") then
      let name ← chosen wic
      if name == .str "" then
        Logged.print (Tree.implKey f.tree.id).literal
        Logged.print (yamlText f.tree.yml)
        Logged.print ""
        throw (.stated .general "Error! No implementation in yaml forest!\n")
      match find? f.subs ⟨name.text, space.text⟩ with
      | none => throw .missingKey
      | some impl =>
        let steps ← (do (← impl.tree.yml.field "steps").members : Result (List Doc))
        match steps with
        | [] => throw .outOfRange
        | step :: _ =>
          let keys ← (do return (← step.entries).map (·.1) : Result (List Doc))
          match keys with
          | [] => throw .outOfRange
          | k :: _ => if Path.suffix k.text = ".wic" then flattenIn n impl else return [f]
    else
      let each ← f.subs.mapM fun s => do return s.2 :: (← flattenIn n s.2)
      return each.flatten

def flatten (f : Forest) : Logged (List Forest) := flattenIn (f.tree.yml.depth + 1) f

end Forest

end WorkflowInference.Workflow
