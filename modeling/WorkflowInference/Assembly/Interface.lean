import WorkflowInference.Failure

/-!
The interface of a tool document: the names and types of its inputs and outputs. A document that
is no well-formed process has none. Types that are not plain names or choices of them are kept
apart by numbers: each declaration makes a type of its own.
-/
namespace WorkflowInference.Assembly

open Entries

structure Declared where
  name : String
  type : Doc

structure Interface where
  inputs : List Declared
  outputs : List Declared
  version : Doc

namespace Interface

abbrev Reader (α : Type) := StateT Nat Option α

def fresh (kind : String) : Reader Doc := fun n => some (.object kind n, n + 1)

def addType (ts : List Doc) (t : Doc) : List Doc := if ts.any (· == t) then ts else ts ++ [t]

def readName (side : String) : List Char → Reader Doc
  | '?' :: cs => do return .list [.str "null", ← readName side cs]
  | ']' :: '[' :: _ => fresh ("Command" ++ side ++ "ArraySchema")
  | cs => return .str (String.ofList cs.reverse)

mutual

def readType (side : String) : Doc → Reader Doc
  | .str s => readName side s.toList.reverse
  | .list xs => do return .list (← readTypes side xs [])
  | .map es => do
    match get? es "type" with
    | some (.str "array") => do
      readItems side es
      if has es "items" then fresh ("Command" ++ side ++ "ArraySchema") else failure
    | some (.str "enum") =>
      match get? es "symbols" with
      | some (.list _) => fresh ("Command" ++ side ++ "EnumSchema")
      | _ => failure
    | some (.str "record") => fresh ("Command" ++ side ++ "RecordSchema")
    | _ => failure
  | _ => failure

def readTypes (side : String) : List Doc → List Doc → Reader (List Doc)
  | [], acc => return acc
  | x :: xs, acc => do
    match x, ← readType side x with
    | .str _, .list ts => readTypes side xs (ts.foldl addType acc)
    | .str _, t => readTypes side xs (addType acc t)
    | _, t => readTypes side xs (acc ++ [t])

def readItems (side : String) : List (Doc × Doc) → Reader Unit
  | [] => return
  | (.str "items", v) :: _ => do let _ ← readType side v
  | _ :: es => readItems side es

end

def paramKeys (side : String) : List String :=
  ["label", "secondaryFiles", "streamable", "doc", "id", "format", "type"] ++
    if side = "Input" then ["loadContents", "loadListing", "default", "inputBinding"]
    else ["outputBinding"]

def isKnown (keys : List String) (k : Doc) : Bool :=
  match k with
  | .str s => keys.contains s || Text.contains s ":"
  | _ => false

def localName (id : String) : String :=
  (Text.splitOn "/" ((Text.splitOn "#" id).getLastD "")).getLastD ""

def readParam (side : String) (name : String) (d : Doc) : Reader Declared := do
  match d with
  | .map es =>
    if !(es.all fun e => isKnown (paramKeys side) e.1) then failure
    let some t := get? es "type" | failure
    return ⟨localName name, ← readType side t⟩
  | .str _ | .list _ => return ⟨localName name, ← readType side d⟩
  | _ => failure

def readParams (side : String) (d : Option Doc) : Reader (List Declared) := do
  match d with
  | some (.map es) => es.mapM fun e => do
    let .str k := e.1 | failure
    readParam side k e.2
  | some (.list xs) => xs.mapM fun x => do
    let some (.str k) := x.map?.bind (get? · "id") | failure
    readParam side k x
  | _ => failure

def versions : List String := ["v1.0", "v1.1", "v1.2"]

def processKeys : List String :=
  ["id", "label", "doc", "inputs", "outputs", "requirements", "hints", "cwlVersion", "intent",
    "class", "$namespaces", "$schemas", "$base"]

def classKeys : String → Option (List String)
  | "CommandLineTool" =>
    some (processKeys ++ ["baseCommand", "arguments", "stdin", "stderr", "stdout", "successCodes",
      "temporaryFailCodes", "permanentFailCodes"])
  | "Workflow" | "Operation" => some (processKeys ++ ["steps"])
  | "ExpressionTool" => some (processKeys ++ ["expression"])
  | _ => none

def isTexts : Doc → Bool
  | .str _ => true
  | .list xs => xs.all Doc.isStr
  | _ => false

def keyFits : String → Doc → Bool
  | "baseCommand", d | "doc", d => isTexts d
  | "label", d | "stdin", d | "stdout", d | "stderr", d | "id", d | "expression", d => d.isStr
  | "arguments", .list xs => xs.all fun x => x.isStr || x.isMap
  | "arguments", _ => false
  | "requirements", d | "hints", d => d.isMap || d.isList
  | _, _ => true

def isProcess (es : Entries) : Bool :=
  match get? es "class", get? es "cwlVersion" with
  | some (.str c), some (.str v) =>
    (classKeys c).elim false fun keys =>
      versions.contains v && es.all fun e =>
        isKnown keys e.1 && (e.1.str?.elim false fun k => keyFits k e.2)
  | _, _ => false

def read (doc : Doc) (serial : Nat) : Option (Interface × Nat) :=
  match doc with
  | .map es =>
    if isProcess es then
      (do
        let inputs ← readParams "Input" (get? es "inputs")
        let outputs ← readParams "Output" (get? es "outputs")
        return ⟨inputs, outputs, getD es "cwlVersion" .null⟩ : Reader Interface) serial
    else none
  | _ => none

end Interface

end WorkflowInference.Assembly
