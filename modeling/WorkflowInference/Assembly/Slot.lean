import WorkflowInference.Authoring.Name
import WorkflowInference.Files
import WorkflowInference.Param.Type

/-!
Slots of a process: its inputs with what is bound to them, and its outputs with where they come
from. A slot knows its type without the option of having no value, and whether a value is required.
-/
namespace WorkflowInference.Assembly

open Entries Text

def union : List Doc → Doc
  | [t] => t
  | ts => .list ts

def splitType (t : Doc) : Result (Doc × Bool) := do
  if t.isNull then return (.null, true)
  match ← Param.canonical t with
  | .list xs =>
    return (union (xs.filter fun x => !(x == .str "null")), !(xs.any (· == .str "null")))
  | c => return (c, true)

mutual

def allowsAny : Doc → Bool
  | .str s => s = "Any"
  | .list xs | .tuple xs => allowsAnyOf xs
  | .map es => allowsAnyType es
  | _ => false

def allowsAnyOf : List Doc → Bool
  | [] => false
  | x :: xs => allowsAny x || allowsAnyOf xs

def allowsAnyType : List (Doc × Doc) → Bool
  | [] => false
  | (.str "type", v) :: _ => allowsAny v
  | _ :: es => allowsAnyType es

end

mutual

def isArrayType : Doc → Bool
  | .map es => getD es "type" .null == .str "array"
  | .list xs => isArrayTypeAny xs
  | _ => false

def isArrayTypeAny : List Doc → Bool
  | [] => false
  | x :: xs => isArrayType x || isArrayTypeAny xs

end

def linkable (input output : Doc) : Bool :=
  allowsAny input || allowsAny output || Param.accepts input output

mutual

def written : Doc → Doc
  | .path s => .str s
  | .list xs => .list (writtenAll xs)
  | .tuple xs => .list (writtenAll xs)
  | .map es => .map (writtenEntries es)
  | d => d

def writtenAll : List Doc → List Doc
  | [] => []
  | x :: xs => written x :: writtenAll xs

def writtenEntries : List (Doc × Doc) → List (Doc × Doc)
  | [] => []
  | (k, v) :: es => (k, written v) :: writtenEntries es

end

mutual

def typeOf (fs : Files) : Doc → Doc
  | .null => .str "null"
  | .bool _ => .str "boolean"
  | .int _ => .str "int"
  | .float _ => .str "float"
  | .str _ => .str "string"
  | .path p =>
    if fs.exists? p then .str (if fs.isFolder p then "Directory" else "File")
    else .str (if Path.suffix p = "" then "Directory" else "File")
  | .list xs => itemType (typesOf fs xs)
  | .tuple xs => itemType (typesOf fs xs)
  | .map es =>
    match get? es "class" with
    | some (.str "File") => .str "File"
    | some (.str "Directory") => .str "Directory"
    | _ => .null
  | _ => .null

def typesOf (fs : Files) : List Doc → List Doc
  | [] => []
  | x :: xs => typeOf fs x :: typesOf fs xs

def itemType : List Doc → Doc
  | [] => .null
  | t :: ts => if t.isNull || ts.any (fun u => !(u == t)) then .null else Param.arrayOf t

end

inductive ValueError where
  | notFolder (path : String)
  | notFile (path : String)
  | noLocation

def ValueError.message : ValueError → String
  | notFolder p => p ++ " is not a directory"
  | notFile p => p ++ " is not a file"
  | noLocation => ""

def ValueError.failure (e : ValueError) : Failure :=
  .stated (.named "InvalidInputValueError") e.message

def located (fs : Files) (es : Entries) (folder : Bool) : Result Doc :=
  let place :=
    match get? es "location" with
    | some v => v
    | none => getD es "path" .null
  match place with
  | .str s | .path s =>
    let p := Path.plain s
    if folder then
      (if fs.isFolder p then .ok (.path p) else .error (ValueError.notFolder p).failure)
    else if fs.isFile p then .ok (.path p)
    else .error (ValueError.notFile p).failure
  | _ => .error ValueError.noLocation.failure

mutual

def configured (fs : Files) : Doc → Result Doc
  | .list xs => (configuredAll fs xs).map .list
  | .tuple xs => (configuredAll fs xs).map .list
  | .map es =>
    match get? es "class" with
    | some (.str "File") => located fs es false
    | some (.str "Directory") => located fs es true
    | some c => if c.hashable then (configuredEntries fs es).map .map else .error .wrongKind
    | none => (configuredEntries fs es).map .map
  | d => .ok d

def configuredAll (fs : Files) : List Doc → Result (List Doc)
  | [] => .ok []
  | x :: xs => do return (← configured fs x) :: (← configuredAll fs xs)

def configuredEntries (fs : Files) : List (Doc × Doc) → Result Entries
  | [] => .ok []
  | (k, v) :: es => do return (k, ← configured fs v) :: (← configuredEntries fs es)

end

structure OutputRef where
  owner : Nat
  key : String
  deriving DecidableEq, Repr

inductive Binding where
  | inline (value : Doc)
  /-- The output that carries a mark, if the output is known. -/
  | linked (mark : Doc) (source : Option OutputRef)
  | workflow (name : String)

structure Facts where
  name : String
  type : Doc
  required : Bool

namespace Facts

def setType (f : Facts) (t : Doc) : Result Facts := do
  let (t, required) ← splitType t
  return { f with type := t, required }

def make (name : String) (type : Doc) : Result Facts := do
  let (t, required) ← splitType type
  let context := "CWL parameter name"
  let n ← Authoring.checkName context (.str ((splitOn "#" name).getLastD ""))
  if startsWith n "_" then
    .error (.stated .value
      (context ++ " " ++ quoted n ++ " is reserved by port namespaces; choose a different name"))
  else return ⟨n, t, required⟩

def declared (f : Facts) : Doc :=
  if f.type.isNull then .null
  else if f.required then written f.type
  else
    match f.type with
    | .list xs =>
      if xs.any (· == .str "null") then written f.type else .list (.str "null" :: xs.map written)
    | t => .list [.str "null", written t]

end Facts

structure Input where
  facts : Facts
  linked : Bool := false
  binding : Option Binding := none
  boundType : Doc := .null

namespace Input

def value (i : Input) : Doc :=
  match i.binding with
  | none => .null
  | some (.inline v) => v
  | some (.linked m _) => Doc.obj [("wic_alias", written m)]
  | some (.workflow n) => .str n

def entry (i : Input) : Doc :=
  match i.binding with
  | none => .null
  | some (.inline v) => Doc.obj [("wic_inline_input", written v)]
  | some (.linked m _) => Doc.obj [("wic_alias", written m)]
  | some (.workflow n) => .str n

def bind (i : Input) (b : Binding) : Input :=
  { i with
    binding := some b
    linked :=
      match b with
      | .inline _ => false
      | _ => true }

def setBoundType (i : Input) (t : Doc) : Result Input := do
  return { i with boundType := (← splitType t).1 }

def scatterable (i : Input) : Bool :=
  match i.binding with
  | none => false
  | some b =>
    let sequence :=
      match b with
      | .inline (.list _) | .inline (.tuple _) => true
      | _ => false
    sequence || isArrayType i.boundType || allowsAny i.boundType

def source? (i : Input) : Option OutputRef :=
  match i.binding with
  | some (.linked _ s) => s
  | _ => none

def setValue (fs : Files) (i : Input) (v : Doc) (linked : Bool) : Result Input := do
  let inline (w : Doc) : Result Input := (i.bind (.inline w)).setBoundType (typeOf fs w)
  match v with
  | .map es =>
    match get? es "wic_alias", linked, get? es "wic_inline_input" with
    | some m, true, _ => return i.bind (.linked m none)
    | _, _, some w => inline w
    | _, _, none => return { (← inline v) with linked }
  | .str s => if linked then return i.bind (.workflow s) else return { (← inline v) with linked }
  | _ => return { (← inline v) with linked }

end Input

structure OutputSource where
  step : Option String
  name : String
  output : Option OutputRef

structure Output where
  facts : Facts
  linked : Bool := false
  mark : Option String := none
  source : Option OutputSource := none

namespace Output

def value (o : Output) : Doc := o.mark.elim .null fun m => Doc.obj [("wic_anchor", .str m)]

def ensureMark (o : Output) (suggested : String) : Output × String :=
  let m := o.mark.getD suggested
  ({ o with mark := some m, linked := true }, m)

def setValue (o : Output) (v : Doc) (linked : Bool) : Output :=
  let mark :=
    match v with
    | .map es =>
      match get? es "wic_anchor" with
      | some m => some m.text
      | none => o.mark
    | .str s => some s
    | .null => none
    | _ => o.mark
  { o with mark, linked := linked || mark.isSome }

def declaration (o : Output) (names : List (String × String)) : Result Doc :=
  match o.source with
  | none =>
    .error (.stated .value ("workflow output " ++ quoted o.facts.name ++ " has no source binding"))
  | some s =>
    if o.facts.declared.isNull then
      .error (.stated .value ("workflow output " ++ quoted o.facts.name ++ " has no resolved type"))
    else
      let text := s.step.elim s.name fun n => (names.lookup n).getD n ++ "/" ++ s.name
      .ok (Doc.obj [("type", o.facts.declared), ("outputSource", .str text)])

end Output

end WorkflowInference.Assembly
