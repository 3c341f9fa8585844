import WorkflowInference.Failure

/-!
Types of parameters. A type may be written in short: `T?` for an optional `T` and `T[]` for an
array of `T`. The canonical form spells both out, and a type that has been spelt out is left as it
is, but for the items of an array.
-/
namespace WorkflowInference.Param

def arrayOf (items : Doc) : Doc := Doc.obj [("type", .str "array"), ("items", items)]

def optional (t : Doc) : Doc := .list [.str "null", t]

def canonicalName : List Char → Doc
  | '?' :: rest => optional (canonicalName rest)
  | ']' :: '[' :: rest => arrayOf (canonicalName rest)
  | rest => .str (String.ofList rest.reverse)

mutual

def canonical : Doc → Result Doc
  | .str s => .ok (canonicalName s.toList.reverse)
  | .map es =>
    match Entries.get? es "type" with
    | some (.str "array") => (canonicalItems es).map .map
    | _ => .ok (.map es)
  | d => .ok d

def canonicalItems : List (Doc × Doc) → Result (List (Doc × Doc))
  | [] => .error .missingKey
  | (.str "items", v) :: es => (canonical v).map fun w => (.str "items", w) :: es
  | e :: es => (canonicalItems es).map (e :: ·)

end

/-- The declared type, format, label and description of a parameter; with `required`, a type name
loses its question marks. -/
def signature (param : Doc) (required : Bool) : Result Doc := do
  let t ← param.field "type"
  let t : Doc :=
    match t with
    | .str s => if required then .str (Text.replace s "?" "") else t
    | _ => t
  let t ← canonical t
  let es ← param.entries
  let more := ["format", "label", "doc"].filterMap fun k => (Entries.get? es k).map fun v => (k, v)
  return Doc.obj (("type", t) :: more)

/-- Whether an output may be bound to an input. A list of types stands for any of its members, on
either side. -/
def accepts (input output : Doc) : Bool :=
  if input == output then true
  else
    match input, output with
    | .list is, .list os => os.any fun o => is.any (· == o)
    | .list is, o => is.any (· == o)
    | i, .list os => os.any (· == i)
    | _, _ => false

end WorkflowInference.Param
