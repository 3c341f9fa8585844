import WorkflowInference.Log

/-!
Reading command lines: options with their values, and the words that belong to no option. An option
is written with two dashes and its name, or with the start of its name when only one option starts
so; a value may be attached to it with an equals sign. The help text lists the options one by one.
-/
namespace WorkflowInference.CommandLine

open Text

inductive Arity where
  | flag
  | one
  | any
  | exactly (n : Nat)
  | stop (text : String)
  deriving DecidableEq, Repr

structure Switch where
  name : String
  arity : Arity := .one
  isNumber : Bool := false
  choices : List String := []
  initial : Doc := .null
  required : Bool := false
  /-- Options of one group exclude each other. -/
  group : Option Nat := none
  about : String := ""

inductive Word where
  | plain
  /-- The mark after which all words are values. -/
  | bar
  | option (s : Switch) (attached : Option String)
  /-- A dash and letters, the first of them the one that asks for help. -/
  | help (more : String)
  | unknown

def isNegative (w : String) : Bool :=
  match w.toList with
  | '-' :: cs =>
    let d := cs.takeWhile Char.isDigit
    match cs.drop d.length with
    | [] => !d.isEmpty
    | '.' :: f => !f.isEmpty && f.all Char.isDigit
    | _ => false
  | _ => false

def named? (ss : List Switch) (w : String) : Option Switch := ss.find? fun s => "--" ++ s.name = w

/-- A word that looks like no option at all: a value when it is a negative number or has blanks. -/
def strange (w : String) : Word := if isNegative w || contains w " " then .plain else .unknown

def abbreviated (ss : List Switch) (w : String) : Result Word :=
  let (start, attached) : String × Option String :=
    match cut? "=" w with
    | some (a, b) => (a, some b)
    | none => (w, none)
  match named? ss start, ss.filter fun s => startsWith ("--" ++ s.name) start with
  | some s, _ => .ok (.option s attached)
  | none, [] => .ok (strange w)
  | none, [s] => .ok (.option s attached)
  | none, _ => .error (.exit "2")

def Word.ofText (ss : List Switch) (w : String) : Result Word :=
  match w.toList with
  | '-' :: '-' :: [] => .ok .bar
  | '-' :: '-' :: _ =>
    match named? ss w with
    | some s => .ok (.option s none)
    | none => abbreviated ss w
  | ['-'] => .ok .plain
  | '-' :: 'h' :: more => .ok (.help (String.ofList more))
  | '-' :: _ => .ok (strange w)
  | _ => .ok .plain

def classify (ss : List Switch) : List String → Result (List (String × Word))
  | [] => .ok []
  | w :: ws => do
    match ← Word.ofText ss w with
    | .bar => return (w, .bar) :: ws.map (·, .plain)
    | k => return (w, k) :: (← classify ss ws)

structure Program where
  purpose : String
  switches : List Switch

def Switch.valuesShown (s : Switch) : String :=
  let word :=
    if s.choices.isEmpty then s.name.map Char.toUpper else "\x7b" ++ join "," s.choices ++ "\x7d"
  match s.arity with
  | .flag | .stop _ => ""
  | .one => " " ++ word
  | .any => " [" ++ word ++ " ...]"
  | .exactly n => String.join (List.replicate n (" " ++ word))

def Switch.heading (s : Switch) : String := "--" ++ s.name ++ s.valuesShown

namespace Program

def width : Nat := 78

def column : Nat := 24

def callOf (ss : List Switch) : List String :=
  if ss.any (·.required) then ss.flatMap fun s => words s.heading
  else ["[" ++ join " | " (ss.map Switch.heading) ++ "]"]

def sameGroup (a b : Switch) : Bool := a.group.isSome && a.group == b.group

def usage (p : Program) : List String :=
  let start := "usage: main "
  let calls := "[-h]" :: (p.switches.splitBy sameGroup).flatMap callOf
  match fill (width - start.length) (calls.map fun c => ⟨true, c⟩) "" with
  | [] => [start]
  | l :: ls => (start ++ l) :: ls.map (blanks start.length ++ ·)

def entry (heading about : String) : List String :=
  let lines := wrap (width - column) about
  let below := lines.map (blanks column ++ ·)
  if heading.length ≤ column - 4 then
    (padEnd column ("  " ++ heading) ++ lines.headD "") :: below.drop 1
  else ("  " ++ heading) :: below

def help (p : Program) : List String :=
  p.usage ++ ["", p.purpose, "", "options:"] ++
    entry "-h, --help" "show this help message and exit" ++
    p.switches.flatMap fun s => entry s.heading s.about

end Program

structure Reading where
  values : Entries
  seen : List String := []
  rest : List String := []

def refused {α : Type} : Result α := .error (.exit "2")

def Switch.value (s : Switch) (text : String) : Result Doc :=
  if s.isNumber then
    match int? text with
    | some n => .ok (.int n)
    | none => refused
  else if s.choices.isEmpty || s.choices.contains text then .ok (.str text)
  else refused

def Switch.takes (s : Switch) (available : Nat) : Result Nat :=
  match s.arity with
  | .flag | .stop _ => .ok 0
  | .one => if available = 0 then refused else .ok 1
  | .any => .ok available
  | .exactly n => if available < n then refused else .ok n

def Reading.set (r : Reading) (ss : List Switch) (s : Switch) (texts : List String) :
    Logged Reading := do
  let clash := ss.any fun t =>
    t.name != s.name && s.group.isSome && t.group == s.group && r.seen.contains t.name
  let value ← (match s.arity, texts with
    | .flag, _ | .stop _, _ => .ok (.bool true)
    | .one, [t] => s.value t
    | .one, _ => .error .badValue
    | _, ts => do return .list (← ts.mapM s.value) : Result Doc)
  if clash then throw (.exit "2")
  if let .stop text := s.arity then
    Logged.print text
    throw (.exit "0")
  return { r with values := Entries.put r.values s.name value, seen := s.name :: r.seen }

def Switch.attachedTexts (s : Switch) (text : String) : Result (List String) :=
  match s.arity with
  | .one | .any => .ok [text]
  | _ => refused

/-- How a run ends that asks for help with a letter, by what is written after the letter: it may be
repeated, and other letters are passed over. -/
def helpEnd : List Char → String
  | 'h' :: cs => helpEnd cs
  | '=' :: _ | '-' :: _ => "2"
  | _ => "0"

def isPlain (w : String × Word) : Bool := w.2 matches .plain

def endWithHelp {α : Type} (p : Program) (more : String) : Logged α := do
  let status := helpEnd more.toList
  if status = "0" then Logged.print (join "\n" p.help)
  throw (.exit status)

def consume (p : Program) (r : Reading) : List (String × Word) → Logged Reading
  | [] => return r
  | (w, k) :: ws =>
    match k with
    | .plain | .bar | .unknown => consume p { r with rest := r.rest ++ [w] } ws
    | .help more => endWithHelp p more
    | .option s (some text) => do
      consume p (← r.set p.switches s (← s.attachedTexts text)) ws
    | .option s none => do
      let n ← s.takes (ws.takeWhile isPlain).length
      consume p (← r.set p.switches s ((ws.take n).map (·.1))) (ws.drop n)
termination_by ws => ws.length
decreasing_by all_goals simp only [List.length_cons, List.length_drop]; omega

def helpOption (p : Program) : Switch := { name := "help", arity := .stop (join "\n" p.help) }

def readKnown (p : Program) (words : List String) : Logged (Entries × List String) := do
  let ws ← classify (helpOption p :: p.switches) words
  let r ← consume p { values := p.switches.map fun s => (.str s.name, s.initial) } ws
  if p.switches.any fun s => s.required && !r.seen.contains s.name then throw (.exit "2")
  return (r.values, r.rest)

def read (p : Program) (words : List String) : Logged Entries := do
  let (values, rest) ← readKnown p words
  if rest.isEmpty then return values else throw (.exit "2")

end WorkflowInference.CommandLine
