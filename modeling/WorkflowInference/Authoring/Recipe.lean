import WorkflowInference.Authoring.CommandTool

/-!
Tools written down as documents. A recipe names the inputs and outputs of a tool and the operations
that complete it. In its values, a map with `$new` makes an element or a description, one with
`$path` or `$tuple` is a path or a tuple, and one with `$input` is an input of the tool itself; all
else stands for itself.
-/
namespace WorkflowInference.Authoring

open Entries

structure Arguments where
  args : List Value := []
  named : Named := []

structure Signature where
  args : List (String × Option Value) := []
  more : Bool := false
  only : List (String × Option Value) := []
  others : Bool := false

structure Matched where
  vals : Named
  more : List Value
  others : Named

def Matched.get (m : Matched) (k : String) : Value := (m.vals.lookup k).getD .null

def Matched.flag (m : Matched) (k : String) : Bool := (m.get k).truthy

def needed (k : String) : String × Option Value := (k, none)

def opt (k : String) : String × Option Value := (k, some .null)

def optWith (k : String) (d : Doc) : String × Option Value := (k, some (.plain d))

def matchArgs (p : Signature) (g : Arguments) : Result Matched := do
  let n := p.args.length
  if g.args.length > n && !p.more then .error .wrongKind
  let own := (p.args.map (·.1)).zip g.args
  if own.any fun o => (g.named.lookup o.1).isSome then .error .wrongKind
  let rest := p.args.drop g.args.length ++ p.only
  let vals ← rest.mapM fun r =>
    match g.named.lookup r.1, r.2 with
    | some v, _ => .ok (r.1, v)
    | none, some d => .ok (r.1, d)
    | none, none => .error .wrongKind
  let names := (p.args ++ p.only).map (·.1)
  let others := g.named.filter fun o => !names.contains o.1
  if !others.isEmpty && !p.others then .error .wrongKind
  return ⟨own ++ vals, g.args.drop n, others⟩

def specKind? : String → Option SpecKind
  | "Input" | "InputSpec" => some .input
  | "Output" | "OutputSpec" => some .output
  | "Field" | "FieldSpec" => some .field
  | _ => none

def groupKind? : String → Option SpecKind
  | "Inputs" => some .input
  | "Outputs" => some .output
  | "Fields" => some .field
  | _ => none

def withoutNames (named : Named) (ks : List String) : Named :=
  named.filter fun n => !ks.contains n.1

def Value.items : Value → List Value
  | .list xs | .tuple xs => xs
  | _ => []

def Value.members : Value → Named
  | .map es => es.map fun e => (e.1.text, e.2)
  | _ => []

def typeMaker (others : Bool) (method : String) (g : Arguments) : Result (Value × Named) := do
  match method with
  | "array" =>
    let m ← matchArgs { args := [needed "items"], others } g
    return (← arrayType (m.get "items"), m.others)
  | "enum" =>
    let m ← matchArgs { more := true, only := [opt "name"], others } g
    return (← enumType m.more (m.get "name"), m.others)
  | "record" =>
    let m ← matchArgs { args := [needed "fields"], only := [opt "name"], others } g
    return (← recordType (m.get "fields") (m.get "name"), m.others)
  | _ => .error .noPart

def specMaker (k : SpecKind) (method : String) (g : Arguments) : Result Value := do
  if k = .output && (method == "stdout" || method == "stderr") then
    k.make (.str method) (← matchArgs { others := true } g).others
  else
    let (type, others) ← typeMaker true method g
    k.make type others

def construct (name : String) (g : Arguments) : Result Value := do
  match specKind? name, groupKind? name, Element.ofName? name with
  | some k, _, _ =>
    let m ← matchArgs { args := [needed "type_"], others := true } g
    k.make (m.get "type_") m.others
  | _, some k, _ => if g.args.isEmpty then collect k g.named else .error .wrongKind
  | _, _, some k =>
    k.make g.args ((g.named.lookup "extra").getD .null) (withoutNames g.named ["extra"])
  | _, _, _ =>
    match name with
    | "secondary_file" =>
      let m ← matchArgs { args := [needed "pattern"], only := [opt "required"], others := true } g
      Element.secondaryFile.make [] (.map (m.others.map fun o => (.str o.1, o.2)))
        [("pattern", m.get "pattern"), ("required", m.get "required")]
    | "CommandArgument" =>
      let m ← matchArgs { args := [opt "value", opt "binding", ("extra", some (.map []))] } g
      return .argument (m.get "value") (m.get "binding") (m.get "extra")
    | "Dirent.from_input" =>
      let m ← matchArgs { args := [needed "reference"], only := [optWith "writable" (.bool false),
        opt "entryname", opt "extra"] } g
      stagedInput (m.get "reference") (m.get "writable") (m.get "entryname") (m.get "extra")
    | "cwl.optional" =>
      let m ← matchArgs { args := [needed "type_"] } g
      optionalType (m.get "type_")
    | _ =>
      match Text.splitOn "." name with
      | ["cwl", method] => return (← typeMaker false method g).1
      | [kind, method] => (specKind? kind).elim (.error .noPart) (specMaker · method g)
      | _ => .error .noPart

def chain (v : Value) (method : String) (xs : List Value) : Result Value := do
  match v with
  | .spec k _ =>
    if method = "secondary_files" && k != .field then v.withFacet method (.list xs)
    else if method = "named" || k.settable.contains method then
      let [x] := xs | throw .wrongKind
      if method = "named" then v.named x.opened else v.withFacet method x
    else if method = "to_dict" then
      (if xs.isEmpty then return .ofDoc (← v.render) else .error .wrongKind)
    else if ["array", "enum", "record", "stdout", "stderr"].contains method then
      specMaker k method ⟨xs, []⟩
    else if k.parts.contains method then .error .wrongKind
    else .error .noPart
  | .element .. | .group .. =>
    if method = "to_dict" && xs.isEmpty then return .ofDoc (← v.render) else .error .noPart
  | .argument a b x =>
    if method = "to_cwl" && xs.isEmpty then return .ofDoc (← argumentDoc a b x) else .error .noPart
  | _ => .error .noPart

mutual

def decode (inputs : Value) : Doc → Result Value
  | .list xs => (decodeAll inputs xs).map .list
  | .map es =>
    match get? es "$path", get? es "$input" with
    | some (.str p), _ => .ok (.plain (.path (Path.plain p)))
    | _, some (.str n) => member inputs n
    | _, _ => do
      let parts ← decodeEntries inputs es
      let part (k : String) : Value := ((parts.find? fun e => e.1 == .str k).map (·.2)).getD .null
      match part "$tuple", part "$new" with
      | .list xs, _ => .ok (.tuple xs)
      | _, .plain (.str n) => do
        let v ← construct n ⟨(part "args").items, (part "kwargs").members⟩
        (part "then").items.foldlM (fun v c =>
          match c.items with
          | .plain (.str m) :: xs => chain v m xs
          | _ => .error .wrongKind) v
      | _, _ => .ok (.map parts)
  | d => .ok (.plain d)

def decodeAll (inputs : Value) : List Doc → Result (List Value)
  | [] => .ok []
  | x :: xs => do return (← decode inputs x) :: (← decodeAll inputs xs)

def decodeEntries (inputs : Value) : List (Doc × Doc) → Result (List (Doc × Value))
  | [] => .ok []
  | (k, v) :: es => do return (k, ← decode inputs v) :: (← decodeEntries inputs es)

end

def setList (t : CommandTool) (m : String) (xs : List Value) : CommandTool :=
  match m with
  | "intent" => { t with intent := t.intent ++ xs }
  | "base_command" => { t with command := xs }
  | "success_codes" => { t with successCodes := xs }
  | "temporary_fail_codes" => { t with temporaryFailCodes := xs }
  | _ => { t with permanentFailCodes := xs }

def setValue (t : CommandTool) (m : String) (v : Value) : CommandTool :=
  match m with
  | "label" => { t with label := v }
  | "doc" => { t with doc := v }
  | "stdin" => { t with stdin := v }
  | "stdout" => { t with stdout := v }
  | _ => { t with stderr := v }

def elementOf? : String → Option (Element × Option (String × Option Value) × Bool)
  | "load_listing" => some (.loadListing, some (needed "value"), false)
  | "shell_command" => some (.shellCommand, none, false)
  | "software" => some (.software, some (needed "packages"), false)
  | "initial_workdir" => some (.initialWorkDir, some (needed "listing"), false)
  | "work_reuse" => some (.workReuse, some (needed "enable"), false)
  | "network_access" => some (.networkAccess, some (needed "enable"), false)
  | "inplace_update" => some (.inplaceUpdate, some (optWith "enable" (.bool true)), true)
  | "time_limit" => some (.timeLimit, some (needed "seconds"), false)
  | _ => none

def toolCall (t : CommandTool) (method : String) (g : Arguments) : Logged CommandTool := do
  let params (p : Signature) : Logged Matched := Logged.lift (matchArgs p g)
  let hintFlag := optWith "as_hint" (.bool false)
  match elementOf? method with
  | some (k, field, hint) =>
    let m ← params { args := field.toList, only := [optWith "as_hint" (.bool hint), opt "extra"] }
    let extra ← (m.get "extra").toEntries
    t.requireElement (m.flag "as_hint") k (field.toList.map fun f => m.get f.1) (.map extra) []
  | none =>
    match method with
    | "intent" | "base_command" | "success_codes" | "temporary_fail_codes"
    | "permanent_fail_codes" =>
      let m ← params { more := true }
      return setList t method m.more
    | "stdin" | "stdout" | "stderr" =>
      let m ← params { args := [needed "value"] }
      return setValue t method (m.get "value")
    | "label" | "doc" =>
      let m ← params { args := [needed "text"] }
      return setValue t method (m.get "text")
    | "describe" =>
      let m ← params { args := [opt "label", opt "doc"] }
      return t.describe (m.get "label") (m.get "doc")
    | "namespace" =>
      let m ← params { args := [needed "prefix", opt "iri"] }
      t.addNamespace (m.get "prefix") (m.get "iri")
    | "schema" =>
      let m ← params { args := [needed "iri"] }
      t.addSchema (m.get "iri")
    | "edam" =>
      let _ ← params {}
      t.useFormats
    | "add_argument" =>
      let m ← params { args := [needed "argument"] }
      t.addArgument (m.get "argument")
    | "argument" =>
      let m ← params { args := [opt "value"], others := true }
      t.addBoundArgument (m.get "value") m.others
    | "requirement" | "hint" =>
      let m ← params { args := [needed "requirement", opt "value"] }
      t.require (method == "hint") (m.get "requirement") (m.get "value")
    | "docker" =>
      let m ← params { args := [opt "image"], only := [hintFlag], others := true }
      t.useDocker (m.get "image") (m.flag "as_hint") m.others
    | "inline_javascript" | "schema_definitions" =>
      let m ← params { more := true, only := [hintFlag, opt "extra"] }
      let extra := Value.map (← (m.get "extra").toEntries)
      if method = "schema_definitions" then
        t.requireElement (m.flag "as_hint") .schemaDef [.list m.more] extra []
      else
        let code := if m.more.isEmpty then .null else .list m.more
        t.requireElement (m.flag "as_hint") .inlineJavascript [code] extra []
    | "stage" =>
      let m ← params { args := [needed "reference"], only := [optWith "writable" (.bool false),
        opt "entryname", hintFlag, opt "extra"] }
      t.stage (m.get "reference") (m.get "writable") (m.get "entryname") (m.flag "as_hint")
        (m.get "extra")
    | "env_var" =>
      let m ← params { args := [needed "name", needed "value"], only := [hintFlag] }
      t.setVariable (m.get "name") (m.get "value") (m.flag "as_hint")
    | "resources" =>
      let m ← params { only := [hintFlag, opt "extra"], others := true }
      t.useResources (m.flag "as_hint") (m.get "extra") m.others
    | "gpu" =>
      let m ← params { only := [opt "cuda_version_min", opt "compute_capability",
        opt "device_count_min", optWith "as_hint" (.bool true), opt "extra"] }
      t.useGpu (m.flag "as_hint") (m.get "cuda_version_min") (m.get "compute_capability")
        (m.get "device_count_min") (m.get "extra")
    | "extra" =>
      if g.args.isEmpty then t.addExtra g.named else throw .wrongKind
    | "write_cwl" =>
      let m ← params { args := [needed "path"], only := [optWith "validate" (.bool false),
        optWith "skip_schemas" (.bool false)] }
      Logged.write (m.get "path").opened.text (← t.yaml)
      return t
    | "to_cwl_document" | "to_cwl_yaml" =>
      let _ ← params {}
      let _ ← if method = "to_cwl_yaml" then t.yaml else t.document.map fun _ => ""
      return t
    | "name" | "inputs" | "outputs" | "cwl_version" | "label_text" | "doc_text" => throw .wrongKind
    | _ => throw .noPart

def warned {α : Type} (x : Logged α) : Logged (Result α × List String) := fun t =>
  match Logged.outcome x { t with warned := [] } with
  | (r, u) => (.ok (r, u.warned.reverse), { u with warned := t.warned })

structure Recipe where
  name : Doc
  inputs : Entries
  outputs : Entries
  named : Entries := []
  calls : List (String × List Doc × Entries) := []

namespace Recipe

def ofDoc (d : Doc) : Recipe :=
  let es := d.fields
  let part (k : String) : Entries := (getD es k .null).fields
  let calls := (getD es "calls" .null).items.filterMap fun c =>
    match c with
    | .list (.str m :: rest) =>
      some (m, ((rest.head?).bind Doc.list?).getD [], ((rest[1]?).bind Doc.map?).getD [])
    | _ => none
  ⟨getD es "name" .null, part "inputs", part "outputs", part "kwargs", calls⟩

def textKeys (es : List (Doc × Value)) : Named := es.map fun e => (e.1.text, e.2)

def start (r : Recipe) : Result CommandTool := do
  let inputs ← collect .input (textKeys (← decodeEntries .null r.inputs))
  let outputs ← collect .output (textKeys (← decodeEntries inputs r.outputs))
  let name ← decode inputs r.name
  let m ← matchArgs { only := [optWith "cwl_version" (.str "v1.2")] }
    ⟨[], textKeys (← decodeEntries inputs r.named)⟩
  CommandTool.make name inputs outputs (m.get "cwl_version")

/-- The tool, and how each operation went, with its warnings. An operation that fails changes
nothing. -/
def run (r : Recipe) : Logged (CommandTool × List (Result Unit × List String)) := do
  let tool ← r.start
  r.calls.foldlM (fun (tool, out) c => do
    let (res, ws) ← warned (do
      let as ← decodeAll tool.inputs c.2.1
      let named ← decodeEntries tool.inputs c.2.2
      toolCall tool c.1 ⟨as, textKeys named⟩)
    match res with
    | .ok t => return (t, out ++ [(.ok (), ws)])
    | .error e => return (tool, out ++ [(.error e, ws)])) (tool, [])

end Recipe

end WorkflowInference.Authoring
