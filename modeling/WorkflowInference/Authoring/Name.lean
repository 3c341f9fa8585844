import WorkflowInference.Failure

/-!
Names that an author gives to parameters. They are used as attributes, so each of them has to be
an identifier that is no reserved word.
-/
namespace WorkflowInference.Authoring

def reservedWords : List String :=
  ["False", "None", "True", "and", "as", "assert", "async", "await", "break", "class", "continue",
    "def", "del", "elif", "else", "except", "finally", "for", "from", "global", "if", "import",
    "in", "is", "lambda", "nonlocal", "not", "or", "pass", "raise", "return", "try", "while",
    "with", "yield"]

def isName (s : String) : Bool := Text.isIdentifier s && !reservedWords.contains s

inductive NameError where
  | notIdentifier (context : String) (name : Doc)
  | reserved (owner : String) (name : String)

def NameError.message : NameError → String
  | notIdentifier context name =>
    context ++ " " ++ name.literal ++ " must be a valid Python identifier"
  | reserved owner name =>
    "API name " ++ Text.quoted name ++ " is reserved by " ++ owner ++ "; choose a different name"

def NameError.failure (e : NameError) : Failure := .stated .value e.message

def checkName (context : String) (name : Doc) : Result String :=
  match name with
  | .str s => if isName s then .ok s else .error (NameError.notIdentifier context name).failure
  | _ => .error (NameError.notIdentifier context name).failure

end WorkflowInference.Authoring
