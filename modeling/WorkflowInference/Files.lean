import WorkflowInference.Doc
import WorkflowInference.Path
import WorkflowInference.Text.Pattern

/-!
Files and directories. Files are texts under absolute paths; a directory is there when it was made
or when a file lies in it. In a part of a pattern a star stands for any characters, a question
mark for one, and brackets for one of a set; two stars as a part stand for any number of
directories. Names that start with a dot are found only by a part that starts with one.
-/
namespace WorkflowInference

open Path

structure Files where
  /-- The directory from which relative paths are taken. -/
  cwd : String
  texts : List (String × String) := []
  folders : List String := []

namespace Files

def place (fs : Files) (p : String) : String := resolve fs.cwd p

def isInside (dir p : String) : Bool :=
  if dir = "/" then Text.startsWith p "/" && p != "/" else Text.startsWith p (dir ++ "/")

def hasFolder (fs : Files) (q : String) : Bool :=
  q = fs.cwd || isInside q fs.cwd || fs.folders.any (fun f => f = q || isInside q f) ||
    fs.texts.any fun t => isInside q t.1

def ways (fs : Files) (p : String) : List String :=
  let ps := Path.parts (absolute fs.cwd p)
  (List.range ps.length).map fun i => resolve "/" (ofParts "/" (ps.take (i + 1)))

def leads (fs : Files) (p : String) : Bool :=
  !(Path.parts p).contains ".." || (fs.ways p).dropLast.all fs.hasFolder

def read? (fs : Files) (p : String) : Option String :=
  if fs.leads p then fs.texts.lookup (fs.place p) else none

def isFile (fs : Files) (p : String) : Bool := (fs.read? p).isSome

def isFolder (fs : Files) (p : String) : Bool := fs.leads p && fs.hasFolder (fs.place p)

def exists? (fs : Files) (p : String) : Bool := fs.isFile p || fs.isFolder p

def write (fs : Files) (p text : String) : Files :=
  { fs with texts := Keyed.put fs.texts (fs.place p) text }

def makeFolder (fs : Files) (p : String) : Files :=
  (fs.ways p).foldl (fun fs q =>
    if fs.hasFolder q then fs else { fs with folders := fs.folders ++ [q] }) fs

def removeFolder (fs : Files) (p : String) : Files :=
  let q := fs.place p
  let keep (r : String) : Bool := !(r = q || isInside q r)
  { fs with texts := fs.texts.filter (keep ·.1), folders := fs.folders.filter keep }

def under (fs : Files) (dir : String) : List (String × String) :=
  let q := fs.place dir
  fs.texts.filterMap fun t =>
    if isInside q t.1 then some (relative "/" t.1 q, t.2) else none

def allFolders (fs : Files) : List String :=
  let ups (p : String) : List String :=
    let ps := Path.parts p
    ((List.range ps.length).map fun i => ofParts "/" (ps.take (i + 1)))
  let all := (fs.folders.map ups).flatten ++ (fs.texts.map fun t => ups (parent t.1)).flatten
  (all.filter fun p => isInside fs.cwd p).eraseDups

end Files

end WorkflowInference

namespace WorkflowInference.Glob

open Text (Pattern)

def ranges : List Char → List (Char × Char)
  | a :: '-' :: b :: cs => (a, b) :: ranges cs
  | a :: cs => (a, a) :: ranges cs
  | [] => []

/-- The set that an open bracket starts, and what follows it. A bracket that is not closed stands
for itself. -/
def readSet (cs : List Char) : Pattern × List Char :=
  let (inside, body) : Bool × List Char :=
    match cs with
    | '!' :: cs => (false, cs)
    | cs => (true, cs)
  let (start, body) : List Char × List Char :=
    match body with
    | ']' :: cs => ([']'], cs)
    | cs => ([], cs)
  let set := body.takeWhile (· != ']')
  match body.drop set.length with
  | _ :: rest => (.one inside (ranges (start ++ set)), rest)
  | [] => (.char '[', cs)

def partPattern : Nat → List Char → Pattern
  | 0, _ => .empty
  | _, [] => .empty
  | n + 1, '*' :: cs => .seq (.star .anyChar) (partPattern n cs)
  | n + 1, '?' :: cs => .seq .anyChar (partPattern n cs)
  | n + 1, '[' :: cs =>
    let (p, rest) := readSet cs
    .seq p (partPattern n rest)
  | n + 1, c :: cs => .seq (.char c) (partPattern n cs)

def matchesPart (part name : String) : Bool :=
  (Text.startsWith part "." || !(Text.startsWith name ".")) &&
    (partPattern part.length part.toList).fits name

def isMagic (part : String) : Bool := part.toList.any fun c => c = '*' || c = '?' || c = '['

def children (fs : Files) (dir : String) : List String :=
  let q := fs.place dir
  let all := fs.texts.map (·.1) ++ fs.allFolders
  ((all.filter (Files.isInside q)).map fun p =>
    ((Path.parts p).drop (Path.parts q).length).headD "").eraseDups

def joined (base name : String) : String :=
  if base = "" then name else if base = "/" then "/" ++ name else base ++ "/" ++ name

def inner (fs : Files) (dir : String) : List String :=
  let q := fs.place dir
  (fs.allFolders.filter (Files.isInside q)).filterMap fun p =>
    let ps := (Path.parts p).drop (Path.parts q).length
    if ps.any (Text.startsWith · ".") then none else some (Text.join "/" ps)

def findParts (fs : Files) : List String → String → List String
  | [], base => [base]
  | part :: parts, base =>
    if part = "**" then
      if !(fs.isFolder (if base = "" then "." else base)) then []
      else
        let found := base :: (inner fs base).map (joined base)
        found.flatMap (findParts fs parts)
    else if isMagic part then
      ((children fs base).filter (matchesPart part)).flatMap fun name =>
        if parts.isEmpty || fs.isFolder (joined base name) then
          findParts fs parts (joined base name) else []
    else if fs.exists? (joined base part) then findParts fs parts (joined base part)
    else []

def find (fs : Files) (pattern : String) : List String :=
  findParts fs (Path.parts pattern) (Path.root pattern)

end WorkflowInference.Glob
