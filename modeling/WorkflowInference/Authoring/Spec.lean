import WorkflowInference.Authoring.Value

/-!
Making elements, parameter descriptions and collections from what an author gives, and the types
and arguments that are built from them.
-/
namespace WorkflowInference.Authoring

open Keyed

inductive ElementError where
  | tooMany (element : String) (most : Nat)
  | givenTwice (element field : String)
  | missing (element field : String)
  | unknown (element field : String)

def ElementError.message : ElementError → String
  | tooMany e n => e ++ " accepts at most " ++ toString n ++ " positional arguments"
  | givenTwice e f => e ++ " got multiple values for " ++ Text.quoted f
  | missing e f => e ++ " missing required argument: " ++ Text.quoted f
  | unknown e f => e ++ " got an unexpected keyword argument " ++ Text.quoted f

def ElementError.failure (e : ElementError) : Failure := .stated .type e.message

namespace Element

def namedFields (k : Element) : List FieldRule → Named →
    Result (List Value × Named)
  | [], named => .ok ([], named)
  | r :: rs, named => do
    let v ←
      match named.lookup r.name, r.dflt with
      | some v, _ => .ok v
      | none, some d => .ok (.plain d)
      | none, none => .error (ElementError.missing k.name r.name).failure
    let (vs, rest) ← namedFields k rs (named.filter fun n => n.1 != r.name)
    return (v :: vs, rest)

/-- An element from values in the order of its fields and values by name. One value too many holds
further entries, if none are given otherwise. -/
def make (k : Element) (args : List Value) (extra : Value) (named : Named) : Result Value := do
  let n := k.rules.length
  let (args, extra) ←
    if args.length ≤ n then .ok (args, extra)
    else if args.length = n + 1 && extra.isNull then .ok (args.take n, args.getLastD .null)
    else .error (ElementError.tooMany k.name n).failure
  let own := k.rules.take args.length
  match own.find? fun r => has named r.name with
  | some r => .error (ElementError.givenTwice k.name r.name).failure
  | none =>
    let (vals, rest) ← namedFields k (k.rules.drop args.length) named
    match rest with
    | (n, _) :: _ => .error (ElementError.unknown k.name n).failure
    | [] => return .element k (args ++ vals) (← extra.toEntries)

def ofName? (name : String) : Option Element := all.find? fun k => k.name == name

end Element

def referenceName (kind : String) (v : Value) : Result String :=
  let name : Option String :=
    match v with
    | .spec _ fs => (fs.lookup "name").bind fun n =>
        match n with
        | .plain (.str s) => some s
        | _ => none
    | .plain (.path p) => some (Path.name p)
    | _ => none
  match name with
  | some s => if s.isEmpty then .error fail else .ok s
  | none => .error fail
where
  fail : Failure := .stated .type (kind ++ " reference must be a named Input/Output object")

def inputExpression (name : String) : String := "$(inputs." ++ name ++ ")"

def basenameExpression (name : String) : String := "$(inputs." ++ name ++ ".basename)"

def stagedInput (reference writable entryname extra : Value) : Result Value := do
  let name ← referenceName "input" reference
  let shown := if entryname.truthy then entryname else .str (basenameExpression name)
  return .element .dirent [.str (inputExpression name), shown, writable] (← extra.toEntries)

namespace SpecKind

def given : SpecKind → List String
  | field => ["name", "label", "doc", "default", "extra"]
  | input =>
    ["position", "flag", "required", "separate", "item_separator", "value_from", "shell_quote",
      "label", "doc", "format", "secondary_files", "streamable", "load_contents", "load_listing",
      "default", "binding_extra", "extra", "name"]
  | output =>
    ["glob", "from_input", "required", "load_contents", "output_eval", "label", "doc", "format",
      "secondary_files", "streamable", "load_listing", "binding_extra", "extra", "name"]

def settable : SpecKind → List String
  | field => ["label", "doc", "default"]
  | input =>
    ["label", "doc", "default", "format", "streamable", "load_contents", "load_listing",
      "value_from"]
  | output => ["label", "doc", "format", "streamable", "load_contents", "load_listing"]

def withPattern (facets : Named) : Result Named := do
  let source := (facets.lookup "from_input").getD .null
  let pattern := (facets.lookup "glob").getD .null
  if source.isNull then return facets.filter fun f => f.1 != "from_input"
  else if !pattern.isNull then
    .error (.stated .value "Specify either glob= or from_input=, not both")
  else
    let name ← referenceName "input" source
    return put (facets.filter fun f => f.1 != "from_input") "glob" (.str (basenameExpression name))

def withMap (name : String) (facets : Named) : Result Named :=
  match facets.lookup name with
  | none => .ok facets
  | some v => do return put facets name (.map (← v.toEntries))

def withName (k : SpecKind) (facets : Named) : Result Named :=
  match facets.lookup "name" with
  | none => .ok facets
  | some n => do
    if n.isNull then return facets
    return put facets "name" (.str (← checkName k.context n.opened))

def make (k : SpecKind) (type : Value) (facets : Named) : Result Value := do
  if facets.any fun f => !k.given.contains f.1 then throw .wrongKind
  let fs ← match k with
    | .field => do withMap "extra" (← k.withName facets)
    | .input => do k.withName (← withMap "extra" (← withMap "binding_extra" facets))
    | .output =>
      do k.withName (← withMap "extra" (← withMap "binding_extra" (← withPattern facets)))
  return .spec k (("type", type) :: fs)

end SpecKind

namespace Value

def named (v : Value) (name : Doc) : Result Value :=
  match v with
  | spec k fs => do return spec k (put fs "name" (.str (← checkName k.context name)))
  | group _ ms =>
    if has ms "named" then .error .wrongKind else .error (.stated .attribute "named")
  | _ => .error .noPart

def withFacet (v : Value) (name : String) (x : Value) : Result Value :=
  match v with
  | spec k fs => .ok (spec k (put fs name x))
  | _ => .error .noPart

end Value

def collect (k : SpecKind) (members : Named) : Result Value := do
  let ms ← members.mapM fun m => do
    let n ← checkName "API name" (.str m.1)
    if Text.startsWith n "_" || k.reservedNames.contains n then
      .error (NameError.reserved k.groupName n).failure
    else return (n, ← m.2.named (.str n))
  return .group k ms

def member (group : Value) (name : String) : Result Value :=
  match group with
  | .group _ ms => (ms.lookup name).elim (.error (.stated .attribute name)) .ok
  | _ => .error .noPart

def optionalType (t : Value) : Result Value := do
  return .ofDoc (applyRequired (← t.render) false)

def arrayType (items : Value) : Result Value := do
  return .ofDoc (Param.arrayOf (canonicalType (← items.render)))

def withTypeName (type : List (Doc × Value)) (name : Value) : Result Value := do
  if name.isNull then return .map type
    else return .map (type ++ [(.str "name", .ofDoc (← name.render))])

def enumType (symbols : List Value) (name : Value) : Result Value :=
  withTypeName [(.str "type", .str "enum"), (.str "symbols", .list symbols)] name

def recordType (fields name : Value) : Result Value := do
  let fs ←
    match fields with
    | .group .field ms => Value.renderAll (ms.map (·.2))
    | .map es => es.mapM fun e => do (← e.2.named e.1).render
    | v => v.renderItems
  withTypeName [(.str "type", .str "record"), (.str "fields", .ofDoc (.list fs))] name

def argumentDoc (value binding extra : Value) : Result Doc := do
  let b ← if binding.isNull then .ok (.map []) else binding.document
  if value.isNull && !b.truthy && !extra.truthy then return .str ""
  else
    match value, b.truthy, extra.truthy with
    | .plain (.str s), false, false => return .str s
    | _, _, _ =>
      let es ← b.toEntries
      let es ← if value.isNull then .ok es else do .ok (Entries.put es "valueFrom" (← value.render))
      let more ← extra.render
      return .map (Entries.update es (← more.toEntries))

end WorkflowInference.Authoring
