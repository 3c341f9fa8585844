import WorkflowInference.Yaml.Token
import WorkflowInference.Yaml.Scalar

/-!
The tree that the tokens of a YAML text stand for. Every node has a tag; the tag of a scalar that
has none is decided by its text, if it stands without quotes. An alias is replaced by the node it
names.
-/
namespace WorkflowInference.Yaml

inductive Tag where
  | core (name : String)
  | other (name : String)
  deriving DecidableEq, Repr

inductive Node where
  | scalar (tag : Tag) (text : String)
  | seq (tag : Tag) (items : List Node)
  | map (tag : Tag) (entries : List (Node × Node))

def coreSpace : String := "tag:yaml.org,2002:"

def Tag.ofText (s : String) : Tag :=
  match Text.stripStart? s coreSpace with
  | some n => .core n
  | none => .other s

def Kind.tag : Kind → Tag
  | .bool => .core "bool"
  | .int => .core "int"
  | .float => .core "float"
  | .merge => .core "merge"
  | .null => .core "null"
  | .timestamp => .core "timestamp"
  | .value => .core "value"
  | .special => .core "yaml"
  | .str => .core "str"

/-- The tokens still to read, the prefixes of tag handles and the anchors met so far; an anchor
whose node is not complete has no node. -/
structure Parse where
  rest : List Token
  handles : List (String × String)
  anchors : List (String × Option Node)

namespace Parse

def peek (p : Parse) : Token := p.rest.headD .streamEnd

def next (p : Parse) : Parse := { p with rest := p.rest.tail }

def emptyNode : Node := .scalar (.core "null") ""

def fullTag (p : Parse) : Option String → String → Result String
  | none, suffix => .ok suffix
  | some h, suffix =>
    match p.handles.lookup h with
    | some pre => .ok (pre ++ suffix)
    | none => .error .badYaml

def anchor? (p : Parse) : Option String × Parse :=
  match p.peek with
  | .anchor a => (some a, p.next)
  | _ => (none, p)

def tag? (p : Parse) : Result (Option String × Parse) := do
  match p.peek with
  | .tag h s => return (some (← p.fullTag h s), p.next)
  | _ => return (none, p)

def properties (p : Parse) : Result (Option String × Option String × Parse) := do
  match p.anchor? with
  | (some a, p) => return (some a, ← p.tag?)
  | (none, p) =>
    let (t, p) ← p.tag?
    let (a, p) := if t.isSome then p.anchor? else (none, p)
    return (a, t, p)

def given (t : Option String) : Option String :=
  match t with
  | some "!" => none
  | t => t

def scalarTag (t : Option String) (plain : Bool) (text : String) : Tag :=
  match t with
  | none => if plain then (kindOf text).tag else .core "str"
  | some "!" => (kindOf text).tag
  | some t => .ofText t

def collectionTag (t : Option String) (dflt : String) : Tag :=
  match given t with
  | none => .core dflt
  | some t => .ofText t

def begin (p : Parse) (a : Option String) : Result Parse :=
  match a with
  | none => .ok p
  | some a =>
    if (p.anchors.lookup a).isSome then .error .badYaml
    else .ok { p with anchors := (a, none) :: p.anchors }

def finish (p : Parse) (a : Option String) (n : Node) : Parse :=
  match a with
  | none => p
  | some a => { p with anchors := (a, some n) :: p.anchors }

def isOneOf (ts : List Token) (p : Parse) : Bool := ts.contains p.peek

mutual

/-- A node; `block` when block collections may stand here, `loose` when a sequence may stand at the
column of the key it belongs to. -/
def node (block loose : Bool) : Nat → Parse → Result (Node × Parse)
  | 0, _ => .error .badYaml
  | n + 1, p => do
    if let .alias a := p.peek then
      let some (some v) := p.anchors.lookup a | throw .badYaml
      return (v, p.next)
    let (a, t, p) ← p.properties
    let p ← p.begin a
    let done (v : Node) (p : Parse) : Result (Node × Parse) := .ok (v, p.finish a v)
    let seq (x : List Node × Parse) := done (.seq (collectionTag t "seq") x.1) x.2
    let map (x : List (Node × Node) × Parse) := done (.map (collectionTag t "map") x.1) x.2
    match p.peek, block, loose with
    | .scalar s plain, _, _ => done (.scalar (scalarTag t plain s) s) p.next
    | .flowSequence, _, _ =>
      let (xs, p) ← flowParts .flowSequenceEnd true n p.next []
      seq (xs.map fun x => x.2.elim x.1 fun v => .map (.core "map") [(x.1, v)], p)
    | .flowMapping, _, _ =>
      let (xs, p) ← flowParts .flowMappingEnd true n p.next []
      map (xs.map fun x => (x.1, x.2.getD emptyNode), p)
    | .blockEntry, _, true => seq (← blockItems true n p [])
    | .blockSequence, true, _ => seq (← blockItems false n p.next [])
    | .blockMapping, true, _ => map (← blockEntries n p.next [])
    | _, _, _ =>
      if a.isSome || t.isSome then done (.scalar (scalarTag t true "") "") p else throw .badYaml

def nodeUnless (stops : List Token) (block loose : Bool) : Nat → Parse → Result (Node × Parse)
  | 0, _ => .error .badYaml
  | n + 1, p => if p.isOneOf stops then .ok (emptyNode, p) else node block loose n p

def blockItems (loose : Bool) : Nat → Parse → List Node → Result (List Node × Parse)
  | 0, _, _ => .error .badYaml
  | n + 1, p, acc => do
    match p.peek with
    | .blockEntry =>
      let (v, p) ← nodeUnless ([.blockEntry, .blockEnd] ++ if loose then [.key, .value] else [])
        true false n p.next
      blockItems loose n p (v :: acc)
    | t =>
      if loose then return (acc.reverse, p)
      else if t = .blockEnd then return (acc.reverse, p.next)
      else throw .badYaml

def valueAfter (stops : List Token) (block loose : Bool) : Nat → Parse → Result (Node × Parse)
  | 0, _ => .error .badYaml
  | n + 1, p =>
    if p.peek = .value then nodeUnless stops block loose n p.next else .ok (emptyNode, p)

def blockEntries : Nat → Parse → List (Node × Node) → Result (List (Node × Node) × Parse)
  | 0, _, _ => .error .badYaml
  | n + 1, p, acc => do
    match p.peek with
    | .key =>
      let (k, p) ← nodeUnless [.key, .value, .blockEnd] true true n p.next
      let (v, p) ← valueAfter [.key, .value, .blockEnd] true true n p
      blockEntries n p ((k, v) :: acc)
    | .blockEnd => return (acc.reverse, p.next)
    | _ => throw .badYaml

def flowParts (stop : Token) (first : Bool) :
    Nat → Parse → List (Node × Option Node) → Result (List (Node × Option Node) × Parse)
  | 0, _, _ => .error .badYaml
  | n + 1, p, acc => do
    if p.peek = stop then return (acc.reverse, p.next)
    if !first && p.peek != .flowEntry then throw .badYaml
    let p := if first then p else p.next
    if p.peek = .key then
      let (k, p) ← nodeUnless [.value, .flowEntry, stop] false false n p.next
      let (v, p) ← valueAfter [.flowEntry, stop] false false n p
      flowParts stop false n p ((k, some v) :: acc)
    else if p.peek = stop then return (acc.reverse, p.next)
    else
      let (v, p) ← node false false n p
      flowParts stop false n p ((v, none) :: acc)

end

def defaultHandles : List (String × String) := [("!", "!"), ("!!", coreSpace)]

def directives :
    List Token → Bool → List (String × String) → Result (List Token × List (String × String))
  | .version major :: rest, seen, hs =>
    if seen || major != 1 then .error .badYaml else directives rest true hs
  | .handle h pre :: rest, seen, hs =>
    if (hs.lookup h).isSome then .error .badYaml else directives rest seen ((h, pre) :: hs)
  | .reserved :: rest, seen, hs => directives rest seen hs
  | rest, _, hs => .ok (rest, hs)

def finishStream (p : Parse) : Result Unit :=
  match p.rest.dropWhile (· = .documentEnd) with
  | [.streamEnd] => .ok ()
  | _ => .error .badYaml

end Parse

def Token.isDirective : Token → Bool
  | .version _ | .handle _ _ | .reserved | .documentStart => true
  | _ => false

def node? (text : String) : Result (Option Node) := do
  let ts := (← tokens text).toList
  let some t := ts.head? | throw .badYaml
  if ts = [.streamEnd] then return none
  let (ts, hs) ← if t.isDirective then Parse.directives ts false [] else .ok (ts, [])
  let ts ← if !t.isDirective then .ok ts else if ts.head? = some .documentStart then .ok ts.tail
    else throw .badYaml
  let p : Parse := ⟨ts, hs ++ Parse.defaultHandles, []⟩
  let isEmpty := t.isDirective && (p.peek.isDirective || p.isOneOf [.documentEnd, .streamEnd])
  let (v, p) ← if isEmpty then .ok (Parse.emptyNode, p)
    else Parse.node true false (4 * ts.length + 12) p
  p.finishStream
  return some v

end WorkflowInference.Yaml
