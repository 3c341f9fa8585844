import WorkflowInference.Assembly.Workflow
import WorkflowInference.Compile.Adapt
import WorkflowInference.Compile.Layout
import WorkflowInference.Compile.Workflow

/-!
Compiling workflows that were put together in memory.
-/
namespace WorkflowInference.Assembly

structure Product where
  name : String
  cwl : Doc
  jobInputs : Doc

namespace Scene

/-- The tools that the steps of a workflow know, each by the name of its step, then those that the
steps were made with, then the given ones. -/
def knownTools (s : Scene) (i : Nat) (given : Registry) : Registry :=
  let parts := (s.steps i).filterMap fun p =>
    match p.content with
    | .step part => some (p, part)
    | .workflow _ => none
  let own :=
    parts.foldl (fun r e => Registry.enter r ⟨e.1.name, globalSpace⟩ ⟨e.2.path, e.2.tool⟩) []
  let registered :=
    parts.foldl (fun r e => e.2.registry.foldl (fun r t => Registry.enter r t.1 t.2) r) own
  given.foldl (fun r t => Registry.enter r t.1 t.2) registered

def setting (s : Scene) (tools : Registry) : Compile.Setting :=
  { tags := ⟨"cachedir", "", s.session.home⟩, tools, testing := false, cwd := s.session.files.cwd }

end Scene

namespace Assemble

def compileTree (i : Nat) (tools : Registry) : Assemble Compile.PartTree := do
  let s ← get
  let p ← process i
  s.validate p
  let doc ← s.compilerDocument p
  let task : Compile.Task := ⟨p.name, doc, [], [Graph.root p.name], [], [], [], [], true⟩
  let r ← ofAct (Act.ofLogged (Compile.compile (s.setting (s.knownTools i tools)) task))
  return r.tree

def declaredOutputs (p : Process) (cwl : Doc) : Doc :=
  match cwl, (cwl.map?).bind fun es => (Entries.get? es "outputs").bind Doc.map? with
  | .map es, some outs =>
    if p.outputs.isEmpty then cwl
    else
      let own := p.outputs.filterMap fun o => (Entries.get? outs o.2.facts.name).map fun v =>
        (Doc.str o.2.facts.name, v)
      .map (Entries.put es "outputs" (.map (Entries.ofPairs own)))
  | _, _ => cwl

def compile (i : Nat) (tools : Registry) : Assemble Product := do
  let p ← process i
  let tree ← compileTree i tools
  let tree ← tree.withEmbedded
  let (cwl, job) ← Run.normalTree tree
  return ⟨p.name, declaredOutputs p cwl, job⟩

end Assemble

end WorkflowInference.Assembly
