import WorkflowInference.Doc.Literal
import WorkflowInference.Text.Basic

/-!
What stops a computation. Most causes say which expectation about a document was not met; a
`stated` failure carries the wording that is shown to the user, and the wording itself is chosen
where the cause is defined. A report has a title for the kind of failure.
-/
namespace WorkflowInference

open Entries

inductive Grade where
  | general
  | value
  | type
  | key
  | index
  | attribute
  | notFound
  | runtime
  | exists
  | permission
  | warning
  | assertion
  | named (name : String)
  deriving DecidableEq, Repr

inductive Failure where
  | missingKey
  | wrongKind
  | noPart
  | outOfRange
  | badValue
  | badYaml
  | badJson
  | badModel
  | notThere
  | isDirectory
  | notDirectory
  | processFailed
  | tooDeep
  /-- The computation goes on for ever. Nothing handles this. -/
  | endless
  | exit (status : String)
  | stated (grade : Grade) (message : String)
  /-- Something outside of the library failed, and this is what it says. -/
  | outer (name message : String)
  | unstated (name : String)
  deriving DecidableEq, Repr

abbrev Result := Except Failure

namespace Doc

def field (d : Doc) (k : String) : Result Doc :=
  match d with
  | map es => (get? es k).elim (.error .missingKey) .ok
  | _ => .error .wrongKind

def fieldD (d : Doc) (k : String) (dflt : Doc) : Result Doc :=
  match d with
  | map es => .ok (getD es k dflt)
  | _ => .error .noPart

def entries (d : Doc) : Result Entries :=
  match d with
  | map es => .ok es
  | _ => .error .noPart

/-- Whether a text is in a document: a key of a map, an item of a list, a part of a text. -/
def holds (d : Doc) (k : String) : Result Bool :=
  match d with
  | map es => .ok (has es k)
  | list xs | tuple xs | set xs => .ok (xs.any (· == str k))
  | str s => .ok (Text.contains s k)
  | _ => .error .wrongKind

def includes (d x : Doc) : Result Bool :=
  match d, x with
  | map es, _ => if x.hashable then .ok (at? es x).isSome else .error .wrongKind
  | list xs, _ | tuple xs, _ | set xs, _ => .ok (xs.any (· == x))
  | str _, str k => d.holds k
  | _, _ => .error .wrongKind

/-- What a walk through a document meets: the items of a list, the keys of a map, the characters
of a text. -/
def members (d : Doc) : Result (List Doc) :=
  match d with
  | list xs | tuple xs | set xs => .ok xs
  | map es => .ok (es.map (·.1))
  | str s => .ok (s.toList.map fun c => str (String.singleton c))
  | _ => .error .wrongKind

def toEntries (d : Doc) : Result Entries :=
  match d with
  | map es => .ok es
  | d => do
    let ps ← (← d.members).mapM fun p =>
      match p with
      | list [k, v] | tuple [k, v] => if k.hashable then .ok (k, v) else .error .wrongKind
      | str s =>
        match s.toList with
        | [a, b] => .ok (str (String.singleton a), str (String.singleton b))
        | _ => .error .badValue
      | map [(k, _), (v, _)] => .ok (k, v)
      | list _ | tuple _ | set _ | map _ => .error .badValue
      | _ => .error .wrongKind
    return ofPairs ps

def position? : Doc → Option Int
  | int n => some n
  | bool b => some (if b then 1 else 0)
  | _ => none

def nth (xs : List Doc) (i : Int) : Result Doc :=
  let n := (xs.length : Int)
  let j := if i < 0 then i + n else i
  if j < 0 then .error .outOfRange else (xs[j.toNat]?).elim (.error .outOfRange) .ok

def index (d i : Doc) : Result Doc :=
  match d with
  | list xs | tuple xs => i.position?.elim (.error .wrongKind) (nth xs)
  | str s =>
    i.position?.elim (.error .wrongKind) (nth (s.toList.map fun c => str (String.singleton c)))
  | map es => if i.hashable then (at? es i).elim (.error .missingKey) .ok else .error .wrongKind
  | _ => .error .wrongKind

end Doc

def Grade.title : Grade → String
  | .general => "Exception"
  | .value => "ValueError"
  | .type => "TypeError"
  | .key => "KeyError"
  | .index => "IndexError"
  | .attribute => "AttributeError"
  | .notFound => "FileNotFoundError"
  | .runtime => "RuntimeError"
  | .exists => "FileExistsError"
  | .permission => "PermissionError"
  | .warning => "UserWarning"
  | .assertion => "AssertionError"
  | .named n => n

namespace Failure

def title : Failure → String
  | .missingKey => "KeyError"
  | .wrongKind => "TypeError"
  | .noPart => "AttributeError"
  | .outOfRange => "IndexError"
  | .badValue => "ValueError"
  | .badYaml => "YAMLError"
  | .badJson => "JSONDecodeError"
  | .badModel => "ValidationError"
  | .notThere => "FileNotFoundError"
  | .isDirectory => "IsADirectoryError"
  | .notDirectory => "NotADirectoryError"
  | .processFailed => "CalledProcessError"
  | .tooDeep => "RecursionError"
  | .endless => "Endless"
  | .exit _ => "SystemExit"
  | .stated g _ => g.title
  | .outer n _ => n
  | .unstated n => n

def wording? : Failure → Option String
  | .exit s => some s
  | .stated _ m => some m
  | _ => none

def said : Failure → String
  | .outer _ m => m
  | e => e.wording?.getD ""

def origin (title : String) : String :=
  if title = "CalledProcessError" then "subprocess."
  else if title = "JSONDecodeError" then "json.decoder."
  else ""

def report (e : Failure) : String :=
  origin e.title ++ e.title ++ (if e.said = "" then "" else ": " ++ e.said) ++ "\n"

end Failure

end WorkflowInference
