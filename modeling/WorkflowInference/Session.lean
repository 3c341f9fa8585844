import WorkflowInference.Files
import WorkflowInference.Log

/-!
Sessions: computations that work on files, start programs and send requests. The programs and the
servers are not part of the library; what they answer is given in advance, in the order in which it
is asked for, and a session keeps a record of what it asked.
-/
namespace WorkflowInference

inductive Outcome where
  | missing
  | broken (message : String)
  | ended (status : Int) (output : String) (stdout stderr : Option String)
      (writes : List (String × String))

structure Started where
  command : Doc
  env : List (String × Option String)
  files : Files

structure Image where
  repoTags : List String
  tags : List String

structure Build where
  tag : String
  recipe : String
  text : String

structure Response where
  ok : Bool
  status : Int
  body : Option Doc
  text : String

structure Session where
  files : Files
  log : Transcript := {}
  env : List (String × String) := []
  watched : List String := []
  outcomes : List Outcome := []
  started : List Started := []
  responses : List Response := []
  requests : List Doc := []
  programs : List String := []
  images : Option (List Image) := none
  builds : List Build := []
  now : String := ""
  home : String := ""

abbrev Act := ExceptT Failure (StateM Session)

namespace Act

def print (line : String) : Act Unit :=
  modify fun s => { s with log := { s.log with printed := (line ++ "\n") :: s.log.printed } }

def lift {α : Type} (r : Result α) : Act α :=
  match r with
  | .ok a => pure a
  | .error e => throw e

instance : MonadLift Result Act := ⟨lift⟩

/-- Runs a computation that prints and leaves files; the files are there afterwards, also when it
fails. -/
def ofLogged {α : Type} (x : Logged α) : Act α := fun s =>
  match Logged.outcome x s.log with
  | (r, t) =>
    let files := t.written.reverse.foldl (fun fs w => fs.write w.1 w.2) s.files
    (r, { s with log := { t with written := [] }, files })

def outcome {α : Type} (x : Act α) (s : Session) : Result α × Session := (ExceptT.run x).run s

def attempt {α : Type} (x : Act α) : Act (Result α) := fun s =>
  match outcome x s with
  | (.error .endless, s) => (.error .endless, s)
  | (r, s) => (.ok r, s)

def files : Act Files := do return (← get).files

def readFile (p : String) : Act String := do
  match (← files).read? p with
  | some t => return t
  | none => if (← files).isFolder p then throw .isDirectory else throw .notThere

def writeFile (p text : String) : Act Unit := do
  let fs ← files
  if fs.isFolder p then throw .isDirectory
  else if !fs.isFolder (Path.parent (fs.place p)) then throw .notThere
  else modify fun s => { s with files := s.files.write p text }

def makeFolders (p : String) : Act Unit := do
  if (← files).isFile p then throw (.unstated "FileExistsError")
  else modify fun s => { s with files := s.files.makeFolder p }

def start (command : Doc) : Act Outcome := do
  let s ← get
  let seen := s.watched.map fun n => (n, s.env.lookup n)
  match s.outcomes with
  | [] => throw .outOfRange
  | o :: os =>
    let record : Started := { command, env := seen, files := s.files }
    set { s with started := s.started ++ [record], outcomes := os }
    match o with
    | .ended _ _ _ _ ws =>
      modify fun s => { s with files := ws.foldl (fun fs w => fs.write w.1 w.2) s.files }
    | _ => pure ()
    return o

/-- What an ended program leaves: its status and what it printed. A program that did not end is a
failure. -/
def ended (o : Outcome) : Result (Int × String) :=
  match o with
  | .missing => .error (.outer "FileNotFoundError" "missing program")
  | .broken m => .error (.outer "RuntimeError" m)
  | .ended status output _ _ _ => .ok (status, output)

def run (command : Doc) : Act (Int × String) := do ended (← start command)

def unsuccessful (command : Doc) (status : Int) : Failure :=
  .outer "CalledProcessError"
    ("Command '" ++ command.text ++ "' returned non-zero exit status " ++ toString status ++ ".")

def runChecked (command : Doc) : Act Unit := do
  let (status, _) ← run command
  if status != 0 then throw (unsuccessful command status)

/-- Runs a part with variables of the environment set; afterwards they are as before. -/
def lendEnv {α : Type} (vars : List (String × String)) (x : Act α) : Act α := fun s =>
  match outcome x { s with env := Keyed.update s.env vars } with
  | (r, t) =>
    let back := vars.foldl (fun env v =>
      match s.env.lookup v.1 with
      | some old => Keyed.put env v.1 old
      | none => env.filter (·.1 != v.1)) t.env
    (r, { t with env := back })

/-- Sets variables in turn for a part. A value with a null character is refused; the variables
before it are set by then, and stay so. -/
def withEnv {α : Type} (vars : List (String × String)) (x : Act α) : Act α :=
  let taken := vars.takeWhile fun v => !v.2.contains '\x00'
  if taken.length < vars.length then do
    modify fun s => { s with env := Keyed.update s.env taken }
    throw (.outer "ValueError" "embedded null byte")
  else lendEnv vars x

def send (request : Doc) : Act Response := do
  modify fun s => { s with requests := s.requests ++ [request] }
  match (← get).responses with
  | [] => throw .outOfRange
  | r :: rs => do
    modify fun s => { s with responses := rs }
    return r

end Act

end WorkflowInference
