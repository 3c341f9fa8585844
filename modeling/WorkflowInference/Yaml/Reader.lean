import WorkflowInference.Yaml.Node

/-!
Reading YAML texts into documents. Besides the standard tags there are three for workflows: `!&`
names a value, `!*` refers to such a name, and `!ii` gives an input in place. Each becomes a map
with one key, so that a document that was read can be written and read again.
-/
namespace WorkflowInference.Yaml

def anchorKey : String := "wic_anchor"

def aliasKey : String := "wic_alias"

def inlineKey : String := "wic_inline_input"

def scalarText : Node → Result String
  | .scalar _ s => .ok s
  | .map _ es => go es
  | .seq _ _ => .error .badYaml
where
  go : List (Node × Node) → Result String
  | [] => .error .badYaml
  | (.scalar (.core "value") _, v) :: _ => scalarText v
  | _ :: es => go es

def isMerge (e : Node × Node) : Bool := e.1 matches .scalar (.core "merge") _

mutual

def flatten : Nat → List (Node × Node) → Result (List (Node × Node))
  | 0, _ => .error .tooDeep
  | n + 1, es => do return (← merged n es) ++ es.filter (!isMerge ·)

def merged : Nat → List (Node × Node) → Result (List (Node × Node))
  | 0, _ => .error .tooDeep
  | _ + 1, [] => .ok []
  | n + 1, e :: es => do
    let here ← if isMerge e then mergedFrom n e.2 else .ok []
    return here ++ (← merged n es)

def mergedFrom : Nat → Node → Result (List (Node × Node))
  | 0, _ => .error .tooDeep
  | n + 1, .map _ fs => flatten n fs
  | n + 1, .seq _ xs => mergedSeq n xs
  | _ + 1, .scalar _ _ => .error .badYaml

def mergedSeq : Nat → List Node → Result (List (Node × Node))
  | 0, _ => .error .tooDeep
  | _ + 1, [] => .ok []
  | n + 1, .map _ fs :: xs => do
    let a ← flatten n fs
    return (← mergedSeq n xs) ++ a
  | _ + 1, _ :: _ => .error .badYaml

end

mutual

def Node.size : Node → Nat
  | .scalar _ _ => 1
  | .seq _ xs => sizeItems xs + 1
  | .map _ es => sizeEntries es + 1

def Node.sizeItems : List Node → Nat
  | [] => 0
  | x :: xs => x.size + sizeItems xs + 1

def Node.sizeEntries : List (Node × Node) → Nat
  | [] => 0
  | (k, v) :: es => k.size + v.size + sizeEntries es + 1

end

def insertAll (es : List (Doc × Doc)) : Result Entries :=
  if es.all fun e => e.1.hashable then .ok (Entries.ofPairs es) else .error .badYaml

def pairsOf (xs : List Doc) : Result (List Doc) :=
  xs.mapM fun x =>
    match x with
    | .map [(k, v)] => .ok (.tuple [k, v])
    | _ => .error .badYaml

def Node.tag : Node → Tag
  | .scalar t _ | .seq t _ | .map t _ => t

def scalarOf : String → String → Option (Result Doc)
  | "null", _ => some (.ok .null)
  | "str", s => some (.ok (.str s))
  | "bool", s => some (boolOf s)
  | "int", s => some (intOf s)
  | "float", s => some (floatOf s)
  | "timestamp", s => some (stampOf s)
  | "binary", s => some (bytesOf s)
  | _, _ => none

mutual

def construct (inner : String → Result Doc) : Nat → Node → Result Doc
  | 0, _ => .error .tooDeep
  | n + 1, v => do
    match v.tag, v with
    | .core k, .scalar _ s => (scalarOf k s).getD (.error .badYaml)
    | .core "seq", .seq _ xs => return .list (← constructItems inner n xs)
    | .core "omap", .seq _ xs | .core "pairs", .seq _ xs =>
      return .list (← pairsOf (← constructItems inner n xs))
    | .core "map", .map _ es => return .map (← constructEntries inner n es)
    | .core "set", .map _ es => return .set ((← constructEntries inner n es).map (·.1))
    | .core k, .map _ _ => (scalarOf k (← scalarText v)).getD (.error .badYaml)
    | .other "!&", v => return Doc.obj [(anchorKey, .str (← scalarText v))]
    | .other "!*", v => return Doc.obj [(aliasKey, .str (← scalarText v))]
    | .other "!ii", .scalar _ s =>
      return Doc.obj [(inlineKey, if s = "" then .str "" else (inner s).toOption.getD (.str s))]
    | .other "!ii", .seq _ xs => return Doc.obj [(inlineKey, .list (← constructItems inner n xs))]
    | .other "!ii", .map _ es => return Doc.obj [(inlineKey, .map (← constructEntries inner n es))]
    | _, _ => throw .badYaml

def constructItems (inner : String → Result Doc) : Nat → List Node → Result (List Doc)
  | 0, _ => .error .tooDeep
  | _ + 1, [] => .ok []
  | n + 1, x :: xs => do return (← construct inner n x) :: (← constructItems inner n xs)

def constructEntries (inner : String → Result Doc) : Nat → List (Node × Node) → Result Entries
  | 0, _ => .error .tooDeep
  | n + 1, es =>
    do insertAll (← constructPairs inner n (← flatten (3 * Node.sizeEntries es + 3) es))

def constructPairs (inner : String → Result Doc) :
    Nat → List (Node × Node) → Result (List (Doc × Doc))
  | 0, _ => .error .tooDeep
  | _ + 1, [] => .ok []
  | n + 1, (k, v) :: es => do
    let k : Node :=
      match k with
      | .scalar (.core "value") s => .scalar (.core "str") s
      | k => k
    return (← construct inner n k, ← construct inner n v) :: (← constructPairs inner n es)

end

def readDeep : Nat → String → Result Doc
  | 0, _ => .error .tooDeep
  | n + 1, text => do
    match ← node? text with
    | none => return .null
    | some v => construct (readDeep n) (4 * v.size + 4) v

/-- The document of a YAML text. An input given in place is shorter than the text it stands in, so
the depth is bounded by the length. -/
def read (text : String) : Result Doc := readDeep (text.length + 1) text

end WorkflowInference.Yaml
