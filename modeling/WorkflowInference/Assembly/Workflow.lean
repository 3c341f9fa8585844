import WorkflowInference.Assembly.Step

/-!
Workflows as documents. A workflow is sound when its steps have different names, its links go from
earlier steps to later ones, and its outputs have sources. Workflows inside it are written into the
document, or into files of their own beside it.
-/
namespace WorkflowInference.Assembly

open Entries Path Error

namespace Process

def children (p : Process) : List Nat :=
  match p.content with
  | .workflow cs => cs
  | .step _ => []

def boundInputs (p : Process) : Entries :=
  p.inputs.filterMap fun x =>
    if x.2.binding.isSome then some (.str x.2.facts.name, x.2.entry) else none

def stepEntries (p : Process) (s : StepPart) : Entries :=
  let outs := p.outputs.filterMap fun o =>
    if o.2.value.isNull then none else some (Doc.obj [(o.2.facts.name, o.2.value)])
  let names := s.scatter.filterMap fun k => (p.inputs.lookup k).map (·.facts.name)
  let method := if s.scatterMethod.truthy then s.scatterMethod else .str "dotproduct"
  [(.str "id", .str p.name), (.str "in", .map (ofPairs p.boundInputs)), (.str "out", .list outs)] ++
    (if names.isEmpty then [] else [(.str "scatter", Doc.strs names), (.str "scatterMethod",
    method)]) ++ (if s.condition.truthy then [(.str "when", s.condition)] else [])

end Process

namespace Scene

def process? (s : Scene) (i : Nat) : Option Process := s.processes[i]?

def nameOf (s : Scene) (i : Nat) : String := (s.process? i).elim "<unknown>" (·.name)

def childrenOf (s : Scene) (p : Process) : List (Nat × Process) :=
  p.children.filterMap fun c => (s.process? c).map fun q => (c, q)

def checkNames (w : String) : List String → List String → Result Unit
  | [], _ => .ok ()
  | n :: ns, seen =>
    if seen.contains n then .error (duplicateStep w n).failure else checkNames w ns (n :: seen)

def checkLinks (s : Scene) (w : Process) (earlier : List Nat) (c : Process) : Result Unit :=
  c.inputs.forM fun x =>
    match x.2.source? with
    | none => .ok ()
    | some r =>
      let source := s.nameOf r.owner
      let out :=
        ((s.process? r.owner).bind fun p => p.outputs.lookup r.key).elim r.key (·.facts.name)
      if !w.children.contains r.owner then
        .error (notChild c.name x.2.facts.name source out w.name).failure
      else if !earlier.contains r.owner then
        .error (notEarlier c.name x.2.facts.name source).failure
      else .ok ()

def checkAllLinks (s : Scene) (w : Process) : List Nat → List (Nat × Process) → Result Unit
  | _, [] => .ok ()
  | earlier, (i, c) :: cs => do
    checkLinks s w earlier c
    checkAllLinks s w (i :: earlier) cs

def checkSources (s : Scene) (w : Process) : Result Unit :=
  w.outputs.forM fun o =>
    match o.2.source.bind (·.output) with
    | none => .ok ()
    | some r =>
      if w.children.contains r.owner then .ok ()
      else .error (outputNotChild w.name o.2.facts.name (s.nameOf r.owner)).failure

def checkShape (s : Scene) (w : Process) : Result Unit := do
  let cs := s.childrenOf w
  checkNames w.name (cs.map (·.2.name)) []
  checkAllLinks s w [] cs
  checkSources s w

def validateTo (s : Scene) : Nat → Process → Result Unit
  | 0, _ => .error .tooDeep
  | n + 1, p =>
    if p.isStep then .ok ()
    else do
      checkShape s p
      p.outputs.forM fun o =>
        if o.2.source.isNone then .error (unboundOutput p.name o.2.facts.name).failure else .ok ()
      (s.childrenOf p).forM fun c =>
        match validateTo s n c.2 with
        | .ok _ => .ok ()
        | .error _ => .error (invalidStep c.2.name).failure

/-- Children have smaller numbers, so the number of a process bounds the depth below it. -/
def depthBound (s : Scene) : Nat := s.processes.length + 1

def validate (s : Scene) (p : Process) : Result Unit := validateTo s s.depthBound p

def inputDeclarations (p : Process) : Result Entries := do
  let es ← p.inputs.mapM fun x => do
    let t := x.2.facts.declared
    if t.isNull then .error (untypedInput p.name x.2.facts.name).failure
    else .ok (Doc.str x.2.facts.name, Doc.obj [("type", t)])
  return ofPairs es

def outputDeclarations (p : Process) (names : List (String × String)) : Result Entries := do
  let es ← p.outputs.mapM fun o => do return (Doc.str o.2.facts.name, ← o.2.declaration names)
  return ofPairs es

def fileName (p : Process) : String := p.name ++ ".wic"

def compiledNames (s : Scene) (p : Process) : List (String × String) :=
  ((s.childrenOf p).mapIdx fun i c =>
    (c.2.name, stepName p.name i (if c.2.isStep then c.2.name else fileName c.2))).foldl
      (fun acc e => Keyed.put acc e.1 e.2) []

def documentOf (ins outs : Entries) (steps : List Doc) : Doc :=
  .map ([(.str "steps", .list steps)] ++
    (if ins.isEmpty then [] else [(.str "inputs", .map ins)]) ++
    (if outs.isEmpty then [] else [(.str "outputs", .map outs)]))

def subtreeStep (p : Process) (doc : Doc) : Doc :=
  let bound := ofPairs p.boundInputs
  Doc.obj [("id", .str (fileName p)), ("subtree", doc),
    ("parentargs", if bound.isEmpty then .map [] else Doc.obj [("in", .map bound)])]

def fileStep (p : Process) : Doc :=
  let bound := ofPairs p.boundInputs
  .map ((.str "id", .str (fileName p)) :: if bound.isEmpty then [] else [(.str "in", .map bound)])

def stepApart (p : Process) : Doc :=
  match p.content with
  | .step part => .map (p.stepEntries part)
  | .workflow _ => fileStep p

def documentApart (s : Scene) (p : Process) : Result Doc := do
  let ins ← inputDeclarations p
  let outs ← outputDeclarations p []
  return documentOf ins outs ((s.childrenOf p).map fun c => stepApart c.2)

def stepWithin (document : Process → Result Doc) (p : Process) : Result Doc :=
  match p.content with
  | .step part => .ok (.map (p.stepEntries part))
  | .workflow _ => do return subtreeStep p (← document p)

def documentTo (s : Scene) : Nat → List (String × String) → Process → Result Doc
  | 0, _, _ => .error .tooDeep
  | n + 1, names, p => do
    let ins ← inputDeclarations p
    let outs ← outputDeclarations p names
    let steps ← (s.childrenOf p).mapM fun c => stepWithin (documentTo s n []) c.2
    return documentOf ins outs steps

def document (s : Scene) (p : Process) : Result Doc := documentTo s s.depthBound [] p

def compilerDocument (s : Scene) (p : Process) : Result Doc :=
  documentTo s s.depthBound (s.compiledNames p) p

def stepsTo (s : Scene) : Nat → Nat → List Process
  | 0, _ => []
  | n + 1, i =>
    match s.process? i with
    | none => []
    | some p => if p.isStep then [p] else (p.children.map (stepsTo s n)).flatten

def steps (s : Scene) (i : Nat) : List Process := stepsTo s s.depthBound i

def workflowsTo (s : Scene) : Nat → Nat → List Process
  | 0, _ => []
  | n + 1, i =>
    match s.process? i with
    | none => []
    | some p => if p.isStep then [] else p :: (p.children.map (workflowsTo s n)).flatten

def workflows (s : Scene) (i : Nat) : List Process := workflowsTo s s.depthBound i

end Scene

/-- The file to which a document goes: the given one if it has an allowed extension, else one of the
default name in the given directory. -/
def artifactPath (path : Doc) (dflt : String) (suffixes : List String) : Result String :=
  match path with
  | .null => .ok (plain dflt)
  | .str s | .path s =>
    let p := plain s
    if suffixes.contains (suffix p) then .ok p
    else if suffix p != "" then .error (badPath suffixes).failure
    else .ok (join p dflt)
  | _ => .error .wrongKind

def Scene.wicText (s : Scene) (p : Process) (inlined : Bool) : Result String := do
  s.validate p
  if !inlined && (s.childrenOf p).any fun c => !c.2.isStep then .error notInlined.failure
  else Yaml.write (← s.document p)

def Scene.writeApart (s : Scene) : Nat → Process → Doc → Logged String
  | 0, _, _ => throw .tooDeep
  | n + 1, p, path => do
    s.validate p
    let file ← artifactPath path (Scene.fileName p) [".wic"]
    let doc ← s.documentApart p
    (s.childrenOf p).forM fun c =>
      if c.2.isStep then pure ()
      else do
        let _ ← writeApart s n c.2 (.path (parent file))
    let text ← Yaml.write doc
    Logged.write file text
    return file

def Scene.writeWic (s : Scene) (p : Process) (path : Doc) (inlined : Bool) : Logged String := do
  if inlined then
    s.validate p
    let file ← artifactPath path (Scene.fileName p) [".wic"]
    let text ← (do Yaml.write (← s.document p) : Result String)
    Logged.write file text
    return file
  else s.writeApart s.depthBound p path

end WorkflowInference.Assembly
