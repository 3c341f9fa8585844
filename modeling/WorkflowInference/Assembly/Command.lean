import WorkflowInference.Assembly.Compile
import WorkflowInference.Authoring.Recipe

/-!
Commands that put workflows together. A command is a list that starts with what to do; it names
processes by words of its own choice, and says values as recipes do.
-/
namespace WorkflowInference.Assembly

open Text Act Yaml
open Assemble hiding files

abbrev Named := List (String × Nat)

inductive Command where
  | step (id doc options : Doc)
  | stepTool (id spec options : Doc)
  | toStep (id spec options : Doc)
  | stepFile (id files path config options : Doc)
  | stepRegistry (id path tools options : Doc)
  | stepToolConfig (spec path : Doc)
  | stepLike (name doc : Doc)
  | workflow (id : Doc) (children : List Doc) (name : String)
  | bind (id : Doc) (key : String) (value : Doc)
  | bindMethod (id : Doc) (key : String) (value : Doc)
  | set (id : Doc) (name : String) (value : Doc)
  | look (value : Doc)
  | setOutput (id : Doc) (key : String) (value : Doc)
  | bindOutput (id : Doc) (key : String) (value : Doc)
  | addInput (id : Doc) (key : String) (type : Doc)
  | addOutput (id : Doc) (key : String) (value type : Doc)
  | scatter (id : Doc) (values : List Doc)
  | scatterOn (id : Doc) (values : List Doc) (method : Doc)
  | index (id : Doc) (side : String) (place : Doc)
  | indexStore (id : Doc) (side : String) (place : Doc)
  | setValue (id : Doc) (side : String) (place value linked : Doc)
  | count (id : Doc)
  | ports (id : Doc)
  | yml (id : Doc)
  | yaml (id : Doc)
  | wic (id options : Doc)
  | writeWic (id path inlined : Doc)
  | validate (id : Doc)
  | flatten (id : Doc)
  | compile (id : Doc) (tools : List Doc)
  | jobYaml (id : Doc)
  | cwlYaml (id : Doc)
  | writeCompiled (id cwlPath jobPath : Doc)
  | compileToDisk (id : Doc)
  | slotTexts (id : Doc)
  | hold (id value : Doc)
  | hidden (id : Doc) (name : String)
  | asStep (id inlined : Doc)
  | unknown

def Command.ofDoc : Doc → Command
  | .list [.str "step", id, doc, opts] => .step id doc opts
  | .list [.str "step_tool", id, spec, opts] => .stepTool id spec opts
  | .list [.str "to_step", id, spec, opts] => .toStep id spec opts
  | .list [.str "step_file", id, files, path, config, opts] => .stepFile id files path config opts
  | .list [.str "step_registry", id, path, ts, opts] => .stepRegistry id path ts opts
  | .list [.str "step_tool_config", spec, path] => .stepToolConfig spec path
  | .list [.str "step_like", name, doc] => .stepLike name doc
  | .list [.str "workflow", id, .list children, .str name] => .workflow id children name
  | .list [.str "bind", id, .str key, v] => .bind id key v
  | .list [.str "bind_method", id, .str key, v] => .bindMethod id key v
  | .list [.str "set", id, .str attr, v] => .set id attr v
  | .list [.str "get", _, v] => .look v
  | .list [.str "set_output", id, .str key, v] => .setOutput id key v
  | .list [.str "bind_output", id, .str key, v] => .bindOutput id key v
  | .list [.str "add_input", id, .str key, type] => .addInput id key type
  | .list [.str "add_output", id, .str key, v, type] => .addOutput id key v type
  | .list [.str "scatter", id, .list vs] => .scatter id vs
  | .list (.str "scatter_on" :: id :: .list vs :: rest) =>
    .scatterOn id vs ((rest.head?).getD (.str "dotproduct"))
  | .list [.str "index", id, .str side, place] => .index id side place
  | .list [.str "index_store", id, .str side, place] => .indexStore id side place
  | .list [.str "set_value", id, .str side, place, v, linked] => .setValue id side place v linked
  | .list [.str "len", id] => .count id
  | .list [.str "ports", id] => .ports id
  | .list [.str "yml", id] => .yml id
  | .list [.str "yaml", id] => .yaml id
  | .list (.str "wic" :: id :: rest) => .wic id (rest.headD .null)
  | .list [.str "write_wic", id, path, inlined] => .writeWic id path inlined
  | .list [.str "validate", id] => .validate id
  | .list [.str "flatten", id] => .flatten id
  | .list (.str "compile" :: id :: rest) => .compile id (((rest.head?).bind Doc.list?).getD [])
  | .list [.str "job_yaml", id] => .jobYaml id
  | .list [.str "cwl_yaml", id] => .cwlYaml id
  | .list [.str "write_compiled", id, cwlPath, jobPath] => .writeCompiled id cwlPath jobPath
  | .list [.str "compile_to_disk", id] => .compileToDisk id
  | .list [.str "repr_ports", id] => .slotTexts id
  | .list [.str "private", id, v] => .hold id v
  | .list [.str "dunder", id, .str n] => .hidden id n
  | .list [.str "as_step", id, inlined] => .asStep id inlined
  | _ => .unknown

inductive Answer where
  | doc (d : Doc)
  | cwl (d : Doc)
  | product (p : Product)
  | written (also : List (String × Doc))

def refOf (ids : Named) (d : Doc) : Assemble Nat :=
  (ids.lookup d.text).elim (throw .missingKey) pure

def slotDoc (f : Facts) (linked : Bool) (value : Doc) (more : List (String × Doc)) : Doc :=
  Doc.obj ([("name", .str f.name), ("type", f.type), ("required", .bool f.required),
    ("linked", .bool linked), ("cwl_type", f.declared), ("value", value)] ++ more)

def inputDoc (x : Input) : Doc :=
  slotDoc x.facts x.linked x.value [("scatterable", .bool x.scatterable),
    ("bound_type", x.boundType)]

def outputDoc (x : Output) : Doc := slotDoc x.facts x.linked x.value []

def decoded (d : Doc) : Result Doc := do return (← Authoring.decode .null d).opened

def attrOf (i : Nat) (name : String) : Assemble Given := do
  let p ← Assemble.process i
  match p.content with
  | .step s =>
    match name with
    | "process_name" => return .literal (.str p.name)
    | "clt_path" => return .literal (.path s.path)
    | "cwl_version" => return .literal s.version
    | "yaml" => return .literal s.tool
    | "cfg_yaml" => return .literal (.map s.config)
    | "scatterMethod" => return .literal s.scatterMethod
    | "when" => return .literal s.condition
    | "scatter" => return .literal (.list (s.scatter.map fun _ => .object "InputParameter" 0))
    | _ =>
      if startsWith name "__" then fail (.hidden name)
      else if Keyed.has p.outputs name then return .output ⟨i, name⟩
      else fail (.noAttribute "Step" name)
  | .workflow _ =>
    match name with
    | "process_name" => return .literal (.str p.name)
    | "yml_path" => return .literal .null
    | "yaml" => return .literal (← (← get).document p)
    | "steps" => return .literal (.list (p.children.map fun _ => .object "Step" 0))
    | _ => if startsWith name "__" then fail (.hidden name) else return .reference i name true

def givenOf (ids : Named) (v : Doc) : Assemble Given := do
  match v with
  | .list [.str "lit", d] => return .literal (← decoded d)
  | .list (.str kind :: id :: .str name :: rest) =>
    let i ← refOf ids id
    let isStep := (← Assemble.process i).isStep
    let type := rest.headD .null
    match kind with
    | "out" =>
      if isStep then let _ ← Assemble.output i name else Assemble.addOutput i name none .null
      return .output ⟨i, name⟩
    | "out_as" =>
      if !isStep then Assemble.addOutput i name none .null
      let x ← Assemble.output i name
      Assemble.setOutput i name { x with facts := ← (x.facts.setType type) }
      return .output ⟨i, name⟩
    | "in" =>
      if isStep then let _ ← input i name; return .input i name
      else return .reference i name false
    | "in_as" =>
      if isStep then
        let x ← input i name
        setInput i name { x with facts := ← (x.facts.setType type) }
        return .input i name
      else
        ensureInput i name type false
        return .reference i name false
    | "attr" => attrOf i name
    | _ => throw .badValue
  | _ => throw .badValue

def givenDoc (g : Given) : Assemble Doc := do
  match g with
  | .literal d => return d
  | .output r => return outputDoc (← Assemble.output r.owner r.key)
  | .input i k => return inputDoc (← input i k)
  | .reference w n b =>
    return Doc.obj [("ref", .list [.str (← Assemble.process w).name, .str n, .bool b])]

def options (known : List String) (d : Doc) : Result (String → Doc) := do
  let es ← d.fields.mapM fun e => do return (e.1.text, ← decoded e.2)
  if es.any fun e => !known.contains e.1 then .error .wrongKind
  else return fun k => (es.lookup k).getD .null

def stepAnswer (i : Nat) : Assemble Doc := do
  let p ← Assemble.process i
  return .list [.str p.name, .path (← stepPart i).path]

def fileStep (path config : Doc) (o : String → Doc) (registry : Registry) : Assemble Nat := do
  if !path.isNull && !(o "clt_path").isNull then fail .twoSources
  let source := if path.isNull then o "clt_path" else path
  match source with
  | .str s | .path s =>
    let c ← optionalPathOf "config_path" config
    stepOfFile (Path.plain s) c (o "step_name") registry
  | _ => fail .noSource

def fileTexts (d : Doc) : List (String × String) :=
  d.fields.map fun e =>
    (e.1.text, match e.2 with
      | .str s => s
      | v => (write v).toOption.getD "")

def putFiles (fs : Files) (ts : List (String × String)) : Files :=
  ts.foldl (fun fs t => fs.write t.1 t.2) fs

def needWorkflow (i : Nat) (method : String) : Assemble Process := do
  let p ← Assemble.process i
  if p.isStep then fail (.noAttribute "Step" method) else return p

def indexed {α : Type} (xs : List (String × α)) (i : Doc) (kind : Failure) : Result (String × α) :=
  match i with
  | .int _ | .bool _ =>
    let n : Int :=
      match i with
      | .int n => n
      | .bool true => 1
      | _ => 0
    let m := if n < 0 then n + xs.length else n
    if m < 0 then .error .outOfRange else (xs[m.toNat]?).elim (.error .outOfRange) .ok
  | _ => .error kind

def storeKind : Failure :=
  .stated .type
    "parameter collections support integer indexing only; use attribute access for names"

def slotAt (p : Process) (side : String) (index : Doc) (bad : Failure) : Result Doc := do
  if side = "inputs" then return inputDoc (← indexed p.inputs index bad).2
  else return outputDoc (← indexed p.outputs index bad).2

def slotLiteral (kind : String) (f : Facts) (parent : String) (linked : Bool) : String :=
  kind ++ "(name=" ++ quoted f.name ++ ", parameter_type=" ++ f.type.literal ++
    ", parent_obj=" ++ parent ++ ", required=" ++ (Doc.bool f.required).literal ++ ", linked=" ++
    (Doc.bool linked).literal ++ ")"

def tupleText (xs : List String) : String :=
  match xs with
  | [x] => "(" ++ x ++ ",)"
  | xs => "(" ++ join ", " xs ++ ")"

def processText (p : Process) : String :=
  match p.content with
  | .step s => "Step(clt_path=" ++ (Doc.path s.path).literal ++ ")"
  | .workflow cs =>
    "Workflow(process_name=" ++ quoted p.name ++ ", steps=" ++ toString cs.length ++ ")"

def plain (x : Assemble Doc) : Assemble (Answer × Option (String × Nat)) := do
  return (.doc (← x), none)

def done (x : Assemble Unit) : Assemble (Answer × Option (String × Nat)) := do
  x
  return (.doc (.str "ok"), none)

def assign (i : Nat) (name : String) (g : Given) : Assemble Unit := do
  let p ← Assemble.process i
  if p.isStep then assignStep i name g
  else if ["steps", "_inputs", "_outputs", "inputs", "outputs", "yml_path"].contains name then
    pure ()
  else if name = "process_name" then
    match g with
    | .literal (.str n) => setProcess i { p with name := n }
    | _ => pure ()
  else if Keyed.has p.outputs name then Assemble.bindOutput i name g
  else bindInput i name g true

def Command.run (ids : Named) : Command → Assemble (Answer × Option (String × Nat))
  | step id doc opts => do
    let o ← options ["process_name", "run_path", "config", "tool_registry"] opts
    let i ← stepOfDocument doc (o "process_name") (o "run_path") (o "config") []
    return (.doc (.str (processText (← Assemble.process i))), some (id.text, i))
  | stepTool id spec opts => do
    let (tool, _) ← ofAct (ofLogged (Authoring.Recipe.ofDoc spec).run)
    let o ← options ["config_path", "clt_path", "step_name", "tool_registry"] opts
    if !(o "clt_path").isNull then fail .twoSources
    if !(o "config_path").isNull then fail .configWithTool
    let i ← stepOfTool tool.name.opened.text (← tool.document) (o "step_name") []
    return (.doc (← stepAnswer i), some (id.text, i))
  | toStep id spec opts => do
    let (tool, _) ← ofAct (ofLogged (Authoring.Recipe.ofDoc spec).run)
    let o ← options ["step_name", "run_path", "config", "tool_registry"] opts
    let name := if (o "step_name").truthy then o "step_name" else tool.name.opened
    let path :=
      if (o "run_path").truthy then o "run_path" else .path (Path.plain (name.text ++ ".cwl"))
    let i ← stepOfDocument (← tool.document) name path (o "config") []
    return (.doc (← stepAnswer i), some (id.text, i))
  | stepFile id files path config opts => do
    modify fun s =>
      { s with session := { s.session with files := putFiles s.session.files (fileTexts files) } }
    let o ← options ["clt_path", "step_name", "tool_registry"] opts
    let i ← fileStep (← decoded path) (← decoded config) o []
    return (.doc (← stepAnswer i), some (id.text, i))
  | stepRegistry id path ts opts => do
    let reg ← Registry.ofDocs ts.items
    let o ← options ["clt_path", "step_name", "config_path"] opts
    let i ← fileStep (← decoded path) (o "config_path") o reg
    return (.doc (← stepAnswer i), some (id.text, i))
  | stepToolConfig spec path => do
    let (tool, _) ← ofAct (ofLogged (Authoring.Recipe.ofDoc spec).run)
    if !path.isNull then fail .configWithTool
    let i ← stepOfTool tool.name.opened.text (← tool.document) .null []
    plain (do return .str (← Assemble.process i).name)
  | stepLike name doc =>
    match name with
    | .str n => plain (do
        let i ← stepOfTool n doc .null []
        return .str (← Assemble.process i).name)
    | _ => fail .noSource
  | workflow id children name => do
    let cs ← children.mapM (refOf ids)
    let i ← addWorkflow cs name
    return (.doc (.str (processText (← Assemble.process i))), some (id.text, i))
  | bind id key v => done do
    let i ← refOf ids id
    let g ← givenOf ids v
    if startsWith key "_" then return
    bindInput i key g false
  | bindMethod id key v => done do
    let i ← refOf ids id
    bindInput i key (← givenOf ids v) true
  | set id name v => done do
    let i ← refOf ids id
    assign i name (← givenOf ids v)
  | look v => plain (do givenDoc (← givenOf ids v))
  | setOutput id key v => done do
    let i ← refOf ids id
    let g ← givenOf ids v
    if startsWith key "_" then return
    assignOutput i key g
  | bindOutput id key v => done do
    let i ← refOf ids id
    let _ ← needWorkflow i "bind_output"
    Assemble.bindOutput i key (← givenOf ids v)
  | addInput id key type => do
    let i ← refOf ids id
    let _ ← needWorkflow i "add_input"
    ensureInput i key type false
    plain (do return inputDoc (← input i key))
  | addOutput id key v type => do
    let i ← refOf ids id
    let g ← if v.isNull then pure none else some <$> givenOf ids v
    let _ ← needWorkflow i "add_output"
    Assemble.addOutput i key g type
    plain (do return outputDoc (← Assemble.output i key))
  | scatter id vs => done do
    let i ← refOf ids id
    let gs ← vs.mapM (givenOf ids)
    if (← Assemble.process i).isStep then setScatter i gs
    else bindInput i "scatter" (.literal (.list (gs.map fun _ => .object "InputParameter" 0))) true
  | scatterOn id vs method => done do
    let i ← refOf ids id
    let gs ← vs.mapM (givenOf ids)
    if !(← Assemble.process i).isStep then throw .wrongKind
    Assemble.scatterOn i gs method
  | index id side place => plain do
    slotAt (← Assemble.process (← refOf ids id)) side place Error.indexKind.failure
  | indexStore id side place => plain do
    slotAt (← Assemble.process (← refOf ids id)) side place storeKind
  | setValue id side place v linked => do
    let i ← refOf ids id
    let p ← Assemble.process i
    let d ← decoded v
    if side = "inputs" then
      let (k, x) ← indexed p.inputs place Error.indexKind.failure
      let x ← x.setValue (← Assemble.files) d linked.truthy
      setInput i k x
      return (.doc (inputDoc x), none)
    else
      let (k, x) ← indexed p.outputs place Error.indexKind.failure
      let x := x.setValue d linked.truthy
      Assemble.setOutput i k x
      return (.doc (outputDoc x), none)
  | count id => do
    let p ← Assemble.process (← refOf ids id)
    return (.doc (.list [.int p.inputs.length, .int p.outputs.length]), none)
  | ports id => do
    let p ← Assemble.process (← refOf ids id)
    return (.doc (Doc.obj [("inputs", .list (p.inputs.map fun x => inputDoc x.2)),
      ("outputs", .list (p.outputs.map fun x => outputDoc x.2))]), none)
  | yml id => do
    let i ← refOf ids id
    let p ← Assemble.process i
    match p.content with
    | .step s => return (.doc (.map (p.stepEntries s)), none)
    | .workflow _ => plain (givenDoc (.reference i "_yml" true))
  | yaml id => plain (do givenDoc (← attrOf (← refOf ids id) "yaml"))
  | wic id opts => do
    let p ← needWorkflow (← refOf ids id) "to_wic_yaml"
    let inlined :=
      (((opts.map?).bind fun es => Entries.get? es "inline_subworkflows").elim true Doc.truthy)
    plain (do return .str (← (← get).wicText p inlined))
  | writeWic id path inlined => do
    let p ← needWorkflow (← refOf ids id) "write_wic"
    let s ← get
    let file ← ofAct (ofLogged (s.writeWic p (← decoded path) inlined.truthy))
    return (.written [("path", .str file)], none)
  | validate id => done do
    let p ← Assemble.process (← refOf ids id)
    (← get).validate p
  | flatten id => do
    let i ← refOf ids id
    let s ← get
    return (.doc
      (.list [Doc.strs ((s.steps i).map (·.name)), Doc.strs ((s.workflows i).map (·.name))]), none)
  | compile id tools => do
    let i ← refOf ids id
    let _ ← needWorkflow i "compile"
    let reg ← Registry.ofDocs tools
    return (.product (← Assemble.compile i reg), none)
  | jobYaml id => do
    let i ← refOf ids id
    let _ ← needWorkflow i "compile"
    plain (do return .str (← write (← Assemble.compile i []).jobInputs))
  | cwlYaml id => do
    let i ← refOf ids id
    let _ ← needWorkflow i "compile"
    let text ← write (← Assemble.compile i []).cwl
    return (.cwl (← read text), none)
  | writeCompiled id cwlPath jobPath => do
    let i ← refOf ids id
    let _ ← needWorkflow i "compile"
    let p ← Assemble.compile i []
    let write (path : Doc) (dflt : String) (ss : List String) (d : Doc) : Assemble String := do
      let file ← artifactPath (← (decoded path : Result Doc)) dflt ss
      ofAct (ofLogged (Logged.write file (← write d)))
      return file
    let a ← write cwlPath (p.name ++ ".cwl") [".cwl"] p.cwl
    let b ← write jobPath (p.name ++ "_inputs.yml") [".yml", ".yaml"] p.jobInputs
    return (.written [("paths", Doc.strs [a, b])], none)
  | compileToDisk id => do
    let i ← refOf ids id
    let _ ← needWorkflow i "_compile"
    let tree ← compileTree i []
    ofAct (ofLogged (tree.write true [] "autogenerated"))
    return (.written [], none)
  | slotTexts id => do
    let p ← Assemble.process (← refOf ids id)
    let parent := processText p
    let slots := [
      tupleText (p.inputs.map fun x => slotLiteral "InputParameter" x.2.facts parent x.2.linked),
      tupleText (p.outputs.map fun x => slotLiteral "OutputParameter" x.2.facts parent x.2.linked)]
    return (.doc (Doc.strs slots), none)
  | hold id v => do
    let _ ← refOf ids id
    return (.doc (← decoded v), none)
  | hidden id n => do
    let _ ← refOf ids id
    fail (.hidden ("__" ++ n))
  | asStep id inlined => do
    let p ← Assemble.process (← refOf ids id)
    match p.content with
    | .step s => return (.doc (.map (p.stepEntries s)), none)
    | .workflow _ =>
      if inlined.truthy then plain (do return Scene.subtreeStep p (← (← get).document p))
      else fail .noDirectory
  | unknown => throw .badValue

def Scene.unwarned (s : Scene) : Scene :=
  { s with session := { s.session with log := { s.session.log with warned := [] } } }

def Command.perform (c : Command) (ids : Named) (s : Scene) : Result Answer × Named × Scene :=
  match outcome (c.run ids) s.unwarned with
  | (.ok (a, some e), t) => (.ok a, e :: ids, t)
  | (.ok (a, none), t) => (.ok a, ids, t)
  | (.error e, t) => (.error e, ids, t)

def runCommands : List Doc → Named → Scene → List (Result Answer × Scene × List String) →
    List (Result Answer × Scene × List String) × Named × Scene
  | [], ids, s, acc => (acc.reverse, ids, s)
  | c :: cs, ids, s, acc =>
    match (Command.ofDoc c).perform ids s with
    | (r, ids, t) => runCommands cs ids t ((r, t, t.session.log.warned.reverse) :: acc)

end WorkflowInference.Assembly
