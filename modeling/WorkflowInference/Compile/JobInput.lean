import WorkflowInference.Compile.Error
import WorkflowInference.Decimal.Reading

/-!
Job inputs: the values given for the inputs of a workflow, in the form that a run takes.
-/
namespace WorkflowInference.Compile

def allowsNull : Doc → Bool
  | .list ts => ts.any (· == .str "null")
  | .str t => Text.endsWith t "?"
  | _ => false

def withoutNull : Doc → Doc
  | .list ts =>
    match ts.filter fun t => !(t == .str "null") with
    | [t] => t
    | ts => .list ts
  | .str t => if Text.endsWith t "?" then .str (Text.dropEnd t 1) else .str t
  | d => d

def wholeNumber : Doc → Result Doc
  | .bool b => .ok (.int (if b then 1 else 0))
  | .int n => .ok (.int n)
  | .float x =>
    match (Doc.float x).dyadic? with
    | some (n, s) => .ok (.int (Int.tdiv n (Decimal.pow2 s)))
    | none => if x.isNaN then .error .badValue else .error (.unstated "OverflowError")
  | .str s => (Text.int? s).elim (.error .badValue) fun n => .ok (.int n)
  | .bytes bs =>
    (Text.int? (String.ofList (bs.map fun b => Char.ofNat b.toNat))).elim (.error .badValue)
      fun n => .ok (.int n)
  | _ => .error .wrongKind

def floatOfInt (n : Int) : Option Float :=
  let x := Json.toFloat (n < 0) (toString n.natAbs).toList [] 0
  if x.isInf then none else some x

def realNumber : Doc → Result Doc
  | .bool b => .ok (.float (if b then 1.0 else 0.0))
  | .int n => (floatOfInt n).elim (.error (.unstated "OverflowError")) fun x => .ok (.float x)
  | .float x => .ok (.float x)
  | .str s => (Decimal.read? s).elim (.error .badValue) fun x => .ok (.float x)
  | .bytes bs =>
    (Decimal.read? (String.ofList (bs.map fun b => Char.ofNat b.toNat))).elim
      (.error .badValue) fun x =>
      .ok (.float x)
  | _ => .error .wrongKind

def scalarInput (type val format : Doc) : Result Doc :=
  match type with
  | .str "File" =>
    .ok (Doc.obj ([("class", .str "File"), ("location", val)] ++
      (if format.truthy then [("format", format)] else [])))
  | .str "Directory" => .ok (Doc.obj [("class", .str "Directory"), ("location", val)])
  | .str "string" => .ok (.str val.text)
  | .str "int" => wholeNumber val
  | .str "float" => realNumber val
  | .str "boolean" => .ok (.bool val.truthy)
  | _ => .ok val

def arrayInput (items val format : Doc) : Result Doc := do
  let vals :=
    match val with
    | .list vs => vs
    | v => [v]
  return .list (← vals.mapM fun v => scalarInput (withoutNull items) v format)

def itemsOf? : Doc → Option (Result Doc)
  | .map es =>
    if Entries.get? es "type" == some (.str "array") then some ((Doc.map es).field "items")
    else none
  | _ => none

def jobInput (given : Doc) : Result Doc := do
  let type ← given.field "type"
  let val ← given.fieldD "value" .null
  let format ← given.fieldD "format" .null
  if val.isNull then
    if allowsNull type then return .null
    throw (Error.requiredInput type.text).failure
  let plain := withoutNull type
  let candidates :=
    match plain with
    | .list ts => ts
    | t => [t]
  match candidates.findSome? itemsOf? with
  | some items => arrayInput (← items) val format
  | none => scalarInput plain val format

def jobInputs (given : Entries) : Result Entries :=
  given.filterMapM fun e => do
    let v ← jobInput e.2
    return if v.isNull then none else some (e.1, v)

end WorkflowInference.Compile
