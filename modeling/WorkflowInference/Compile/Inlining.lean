import WorkflowInference.Compile.Draft
import WorkflowInference.Workflow.Inlining

/-!
Compiled workflows with the compiled workflows inside them taken into them. Only workflows that
have no steps of their own can be treated: the steps of a compiled workflow are listed, and here
they are looked for by name.
-/
namespace WorkflowInference.Compile

def inlinedOutputs (outputs : Doc) : Result Entries := do
  (← outputs.entries).filterMapM fun e => do
    if ← e.1.holds "output_all" then return none
    let source ← Workflow.slashLastIn (← e.2.field "outputSource")
    return some (e.1, .map (Entries.put (← e.2.entries) "outputSource" source))

def inlineInto (names : Result (List String)) (cwl : Doc) : Logged Doc := do
  let steps ← (do (← cwl.field "steps").entries : Result Entries)
  let names ← names
  if !steps.isEmpty then throw .missingKey
  if !names.isEmpty then Logged.print "Error! Not all subworkflows inlined!"
  let outputs ← (do inlinedOutputs (← cwl.field "outputs") : Result Entries)
  return .map (Entries.put ((cwl.map?).getD []) "outputs" (.map outputs))

def lastNames (ts : List PartTree) : Result (List String) :=
  ts.mapM fun t => (t.part.namespaces.getLast?).elim (.error .outOfRange) Except.ok

mutual

def PartTree.inlined : PartTree → Logged Doc
  | .node p [] => return p.cwl
  | .node p (t :: ts) => do
    let _ ← PartTree.inlined t
    inlinedAll ts
    inlineInto (lastNames (t :: ts)) p.cwl

def inlinedAll : List PartTree → Logged Unit
  | [] => return ()
  | t :: ts => do
    let _ ← PartTree.inlined t
    inlinedAll ts

end

end WorkflowInference.Compile
