import WorkflowInference.Text.Basic

/-!
Paths of files. A path is a text; empty parts and parts that are a single dot do not count.
-/
namespace WorkflowInference.Path

def isAbsolute (p : String) : Bool := Text.startsWith p "/"

/-- The root of a path: two slashes count as a root of their own, three or more as one. -/
def root (p : String) : String :=
  if Text.startsWith p "///" then "/"
  else if Text.startsWith p "//" then "//"
  else if Text.startsWith p "/" then "/"
  else ""

def parts (p : String) : List String := (Text.splitOn "/" p).filter fun s => s != "" && s != "."

def ofParts (root : String) (ps : List String) : String :=
  if root = "" && ps.isEmpty then "." else root ++ Text.join "/" ps

def plain (p : String) : String := ofParts (root p) (parts p)

def name (p : String) : String := (parts p).getLastD ""

/-- The place of the last dot of a name that has characters on both sides of it. -/
def splitName (n : String) : String × String :=
  let cs := n.toList
  let ext := cs.reverse.takeWhile (· != '.')
  let i := cs.length - ext.length - 1
  if ext.length < cs.length && 0 < i && !ext.isEmpty then
    (String.ofList (cs.take i), String.ofList (cs.drop i))
  else (n, "")

@[irreducible] def stem (p : String) : String := (splitName (name p)).1

def suffix (p : String) : String := (splitName (name p)).2

def parent (p : String) : String := ofParts (root p) (parts p).dropLast

def join (p q : String) : String :=
  if isAbsolute q then plain q else ofParts (root p) (parts p ++ parts q)

def absolute (cwd p : String) : String := join cwd p

def collapse : List String → List String → List String
  | [], acc => acc.reverse
  | ".." :: ps, _ :: acc => collapse ps acc
  | ".." :: ps, [] => collapse ps []
  | p :: ps, acc => collapse ps (p :: acc)

def resolve (cwd p : String) : String :=
  let a := absolute cwd p
  ofParts (root a) (collapse (parts a) [])

def dropCommon : List String → List String → List String × List String
  | a :: as, b :: bs => if a = b then dropCommon as bs else (a :: as, b :: bs)
  | as, bs => (as, bs)

def relative (cwd p start : String) : String :=
  let a := parts (resolve cwd p)
  let b := parts (resolve cwd start)
  let (a, b) := dropCommon a b
  ofParts "" (b.map (fun _ => "..") ++ a)

end WorkflowInference.Path
