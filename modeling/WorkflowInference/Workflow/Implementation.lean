import WorkflowInference.Compile.Error
import WorkflowInference.Registry
import WorkflowInference.Log

/-!
A workflow may have several implementations; an annotation chooses one, whose steps become the
steps of the workflow.
-/
namespace WorkflowInference.Workflow

open Compile (Error)

def chosen (wic : Doc) : Result Doc := do
  let dflt ← wic.holds "default_implementation"
  let own ← wic.holds "implementation"
  if own then wic.field "implementation"
  else if dflt then wic.field "default_implementation"
  else return .str ""

def yamlText (d : Doc) : String := (Yaml.writeSorted d).toOption.getD ""

def findImplementation (all name space : Doc) : Option Doc :=
  match all, name, space with
  | .map es, .str s, .str n => Entries.at? es (.qual s n)
  | _, _, _ => none

def implementation (tree wic : Doc) (path : String) : Logged (Doc × Doc) := do
  if ← (wic.holds "implementations") then do
    let name ← chosen wic
    if name == .str "" then throw (Error.noImplementation path).failure
    else do
      let space ← wic.fieldD "namespace" (.str globalSpace)
      let all ← wic.field "implementations"
      match findImplementation all name space with
      | none => do
        Logged.print (yamlText tree)
        Logged.print (yamlText wic)
        Logged.print all.text
        throw (Error.noSuchImplementation name.text space.text path).failure
      | some impl => do
        let steps ← impl.field "steps"
        let es ← tree.entries
        return (name, .map (Entries.put es "steps" steps))
  else do
    if ← (tree.holds "steps") then return (.str "", tree)
    else throw (Error.neither path).failure

end WorkflowInference.Workflow
