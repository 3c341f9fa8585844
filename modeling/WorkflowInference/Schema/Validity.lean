import WorkflowInference.Doc.Merge
import WorkflowInference.Text.Pattern

/-!
Validity of documents under schemas of the 2020-12 dialect, which are documents too: a truth value,
or a map in which every keyword has a value of its kind. A keyword that is not known allows
everything and may have any value.
-/
namespace WorkflowInference.Schema

open Entries

def isWhole (d : Doc) : Bool :=
  match d with
  | .int _ => true
  | .float x => x.isFinite && x.floor == x
  | _ => false

def isOfType (d : Doc) (type : String) : Bool :=
  match type, d with
  | "null", .null => true
  | "boolean", .bool _ => true
  | "string", .str _ => true
  | "array", .list _ => true
  | "object", .map _ => true
  | "integer", d => isWhole d
  | "number", .int _ => true
  | "number", .float _ => true
  | _, _ => false

def fieldsOf (type : Doc) (names : List String) : List (String × Doc) :=
  names.map fun n => (n, type)

/-- Equality of documents that tells truth values from numbers. -/
def same (a b : Doc) : Bool :=
  match a, b with
  | .bool x, .bool y => x == y
  | .bool _, _ => false
  | _, .bool _ => false
  | a, b => a == b

def allM {α : Type} (p : α → Result Bool) : List α → Result Bool
  | [] => .ok true
  | x :: xs => do if ← p x then allM p xs else return false

def anyM {α : Type} (p : α → Result Bool) : List α → Result Bool
  | [] => .ok false
  | x :: xs => do if ← p x then return true else anyM p xs

def keyMatches (pattern : String) (key : Doc) : Result Bool :=
  match key, Text.Pattern.read? pattern with
  | .str k, some p => .ok (p.occurs k)
  | .str _, none => .error .badValue
  | _, _ => .error .wrongKind

abbrev Anchors := List (String × Doc)

def additional (schema instance_ : Entries) : Result Entries := do
  let known := (getD schema "properties" .null).fields
  let patterns := (getD schema "patternProperties" .null).fields.map (·.1.text)
  instance_.filterM fun e =>
    if (at? known e.1).isSome then .ok false
    else do return !(← anyM (fun p => keyMatches p e.1) patterns)

def isAtLeast (bound d : Doc) : Bool :=
  match bound, d with
  | .int a, .int b => a ≤ b
  | .int a, .float x => Float.ofInt a ≤ x
  | .float x, .int b => x ≤ Float.ofInt b
  | .float x, .float y => x ≤ y
  | _, _ => true

/-- Whether a document fits a schema. The fuel bounds the way down through schema and document. -/
def acceptsIn (anchors : Anchors) : Nat → Doc → Doc → Result Bool
  | 0, _, _ => .error .tooDeep
  | _, .bool b, _ => .ok b
  | n + 1, .map schema, d =>
    allM (fun (k, v) =>
      match k, v, d with
      | .str "type", .str t, d => .ok (isOfType d t)
      | .str "type", .list ts, d => .ok (ts.any fun t => t.str?.any (isOfType d))
      | .str "const", v, d => .ok (same v d)
      | .str "enum", .list vs, d => .ok (vs.any fun v => same v d)
      | .str "minLength", v, .str s => .ok (isAtLeast v (.int s.length))
      | .str "minimum", v, d => .ok (!(isOfType d "number") || isAtLeast v d)
      | .str "minItems", v, .list xs => .ok (isAtLeast v (.int xs.length))
      | .str "pattern", .str p, .str s => keyMatches p (.str s)
      | .str "items", v, .list xs => allM (acceptsIn anchors n v) xs
      | .str "required", .list ks, .map es => .ok (ks.all fun k => (at? es k).isSome)
      | .str "properties", .map ps, .map es =>
        allM (fun (p : Doc × Doc) =>
          match at? es p.1 with
          | some x => acceptsIn anchors n p.2 x
          | none => .ok true) ps
      | .str "patternProperties", .map ps, .map es =>
        allM (fun (p : Doc × Doc) =>
          allM (fun (e : Doc × Doc) => do
            if ← keyMatches p.1.text e.1 then acceptsIn anchors n p.2 e.2 else return true) es) ps
      | .str "additionalProperties", v, .map es => do
        allM (fun (e : Doc × Doc) => acceptsIn anchors n v e.2) (← additional schema es)
      | .str "anyOf", .list ss, d => anyM (fun s => acceptsIn anchors n s d) ss
      | .str "allOf", .list ss, d => allM (fun s => acceptsIn anchors n s d) ss
      | .str "not", s, d => do return !(← acceptsIn anchors n s d)
      | .str "$ref", .str r, d | .str "$dynamicRef", .str r, d =>
        match anchors.lookup r with
        | some s => acceptsIn anchors n s d
        | none => .error (.unstated "_WrappedReferencingError")
      | _, _, _ => .ok true) schema
  | _, _, _ => .ok true

def accepts (anchors : Anchors) (schema d : Doc) : Result Bool :=
  let deep := (schema :: anchors.map (·.2)).foldl (fun n s => max n s.depth) 0
  acceptsIn anchors ((deep + 2) * (d.depth + 2)) schema d

inductive Kind where
  | anything | text | flag | array
  | number | positive | count
  | type
  | texts
  | identifier | anchor
  | schema
  | schemas
  | schemaMap
  | textsMap
  | schemaOrTextsMap
  | flagMap

def kinds : List (Kind × List String) := [
  (.identifier, ["$id"]),
  (.text, ["$schema", "$ref", "$dynamicRef", "$comment", "$recursiveRef"]),
  (.anchor, ["$anchor", "$dynamicAnchor", "$recursiveAnchor"]),
  (.flagMap, ["$vocabulary"]),
  (.schemaMap, ["$defs", "definitions", "properties", "patternProperties", "dependentSchemas"]),
  (.schema, ["items", "contains", "additionalProperties", "propertyNames", "if", "then", "else",
    "not", "unevaluatedItems", "unevaluatedProperties", "contentSchema"]),
  (.schemas, ["prefixItems", "allOf", "anyOf", "oneOf"]),
  (.type, ["type"]),
  (.array, ["enum", "examples"]),
  (.positive, ["multipleOf"]),
  (.number, ["maximum", "exclusiveMaximum", "minimum", "exclusiveMinimum"]),
  (.count, ["maxLength", "minLength", "maxItems", "minItems", "maxContains", "minContains",
    "maxProperties", "minProperties"]),
  (.text, ["pattern", "title", "description", "format", "contentEncoding", "contentMediaType"]),
  (.flag, ["uniqueItems", "deprecated", "readOnly", "writeOnly"]),
  (.texts, ["required"]),
  (.textsMap, ["dependentRequired"]),
  (.schemaOrTextsMap, ["dependencies"])]

def kindOf (keyword : String) : Kind :=
  ((kinds.find? (·.2.contains keyword)).map (·.1)).getD .anything

def typeNames : List String := ["array", "boolean", "integer", "null", "number", "object", "string"]

def isTypeName (d : Doc) : Bool := d.str?.any typeNames.contains

def distinct : List Doc → Bool
  | [] => true
  | x :: xs => !(xs.any (same x)) && distinct xs

def isTexts (d : Doc) : Bool := d.list?.any fun xs => xs.all Doc.isStr && distinct xs

def isIdentifierText (s : String) : Bool :=
  let cs := s.toList
  !(cs.dropLast.contains '#')

def isAnchorText (s : String) : Bool :=
  match s.toList with
  | [] => false
  | c :: cs =>
    (c.isAlpha || c = '_') && cs.all fun c => c.isAlphanum || c = '-' || c = '.' || c = '_'

def plainKind (k : Kind) (d : Doc) : Bool :=
  match k with
  | .text => d.isStr
  | .flag => isOfType d "boolean"
  | .array => d.isList
  | .number => isOfType d "number"
  | .positive => isOfType d "number" && isAtLeast (.int 0) d && !(same d (.int 0))
  | .count => isWhole d && isAtLeast (.int 0) d
  | .type =>
    match d with
    | .list ts => !ts.isEmpty && ts.all isTypeName && distinct ts
    | d => isTypeName d
  | .texts => isTexts d
  | .identifier => d.str?.any isIdentifierText
  | .anchor => d.str?.any isAnchorText
  | .textsMap => d.map?.any fun es => es.all fun e => isTexts e.2
  | .flagMap => d.map?.any fun es => es.all fun e => isOfType e.2 "boolean"
  | _ => true

mutual

def isWellFormed : Doc → Bool
  | .bool _ => true
  | .map es => keywordsFit es
  | _ => false

def keywordsFit : List (Doc × Doc) → Bool
  | [] => true
  | (.str k, v) :: es =>
    (match kindOf k, v with
    | .schema, v => isWellFormed v
    | .schemas, .list ss => !ss.isEmpty && allWellFormed ss
    | .schemas, _ => false
    | .schemaMap, .map es => membersWellFormed es
    | .schemaMap, _ => false
    | .schemaOrTextsMap, .map es => membersWellFormedOrTexts es
    | .schemaOrTextsMap, _ => false
    | kind, v => plainKind kind v) && keywordsFit es
  | _ :: es => keywordsFit es

def allWellFormed : List Doc → Bool
  | [] => true
  | s :: ss => isWellFormed s && allWellFormed ss

def membersWellFormed : List (Doc × Doc) → Bool
  | [] => true
  | (_, s) :: es => isWellFormed s && membersWellFormed es

def membersWellFormedOrTexts : List (Doc × Doc) → Bool
  | [] => true
  | (_, s) :: es => (isWellFormed s || isTexts s) && membersWellFormedOrTexts es

end

end WorkflowInference.Schema
