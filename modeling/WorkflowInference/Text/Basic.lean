/-!
Texts as lists of characters: trimming, splitting and joining, reading whole numbers, and filling
lines with words. A number may have blanks around it, a sign, and single underscores between its
digits, which may be those of any script. A word goes on the open line when it fits there; it may be
broken after dashes between letters.
-/
namespace WorkflowInference.Text

def isBlank (c : Char) : Bool :=
  let n := c.toNat
  (0x9 ≤ n && n ≤ 0xd) || (0x1c ≤ n && n ≤ 0x20) || n = 0x85 || n = 0xa0 || n = 0x1680 ||
    (0x2000 ≤ n && n ≤ 0x200a) || n = 0x2028 || n = 0x2029 || n = 0x202f || n = 0x205f || n = 0x3000

def dropEndWhile (p : Char → Bool) (cs : List Char) : List Char :=
  (cs.reverse.dropWhile p).reverse

def trimStart (s : String) : String := String.ofList (s.toList.dropWhile isBlank)

def trimEnd (s : String) : String := String.ofList (dropEndWhile isBlank s.toList)

def trim (s : String) : String := trimEnd (trimStart s)

def trimEndOf (p : Char → Bool) (s : String) : String := String.ofList (dropEndWhile p s.toList)

def trimStartOf (p : Char → Bool) (s : String) : String := String.ofList (s.toList.dropWhile p)

def wordsGo : List Char → List Char → List (List Char)
  | [], [] => []
  | [], acc => [acc.reverse]
  | c :: cs, acc =>
    if isBlank c then (if acc.isEmpty then wordsGo cs [] else acc.reverse :: wordsGo cs [])
    else wordsGo cs (c :: acc)

def words (s : String) : List String := (wordsGo s.toList []).map String.ofList

def after? : List Char → List Char → Option (List Char)
  | [], cs => some cs
  | p :: ps, c :: cs => if p = c then after? ps cs else none
  | _ :: _, [] => none

/-- The parts of a text between the places where `sep` stands, read from the left; `skip` is what
is left of a separator just found, and `acc` the part so far, backwards. -/
def splitChars (sep : List Char) : Nat → List Char → List Char → List (List Char)
  | _, [], acc => [acc.reverse]
  | skip + 1, _ :: cs, acc => splitChars sep skip cs acc
  | 0, c :: cs, acc =>
    if !sep.isEmpty && (after? sep (c :: cs)).isSome then
      acc.reverse :: splitChars sep (sep.length - 1) cs []
    else splitChars sep 0 cs (c :: acc)

def splitOn (sep s : String) : List String :=
  (splitChars sep.toList 0 s.toList []).map String.ofList

def replace (s old new : String) : String := String.intercalate new (splitOn old s)

def cut? (sep s : String) : Option (String × String) :=
  match splitOn sep s with
  | a :: b :: rest => some (a, String.intercalate sep (b :: rest))
  | _ => none

def startsWith (s pre : String) : Bool := (after? pre.toList s.toList).isSome

def endsWith (s suf : String) : Bool := (after? suf.toList.reverse s.toList.reverse).isSome

def contains (s sub : String) : Bool := (splitOn sub s).length > 1 || sub.isEmpty

def stripStart? (s pre : String) : Option String := (after? pre.toList s.toList).map String.ofList

def dropEnd (s : String) (n : Nat) : String :=
  String.ofList (s.toList.take (s.toList.length - n))

def join (sep : String) (xs : List String) : String := String.intercalate sep xs

/-- The lines of a text, the line breaks themselves left out; a break at the end adds an empty
line. -/
def lines (s : String) : List String := splitOn "\n" s

def zeros : List Nat := [
  0x30, 0x660, 0x6f0, 0x7c0, 0x966, 0x9e6, 0xa66, 0xae6, 0xb66, 0xbe6, 0xc66, 0xce6, 0xd66,
  0xde6, 0xe50, 0xed0, 0xf20, 0x1040, 0x1090, 0x17e0, 0x1810, 0x1946, 0x19d0, 0x1a80, 0x1a90,
  0x1b50, 0x1bb0, 0x1c40, 0x1c50, 0xa620, 0xa8d0, 0xa900, 0xa9d0, 0xa9f0, 0xaa50, 0xabf0, 0xff10,
  0x104a0, 0x10d30, 0x11066, 0x110f0, 0x11136, 0x111d0, 0x112f0, 0x11450, 0x114d0, 0x11650,
  0x116c0, 0x11730, 0x118e0, 0x11950, 0x11c50, 0x11d50, 0x11da0, 0x16a60, 0x16ac0, 0x16b50,
  0x1d7ce, 0x1d7d8, 0x1d7e2, 0x1d7ec, 0x1d7f6, 0x1e140, 0x1e2f0, 0x1e950, 0x1fbf0]

def digitVal? (c : Char) : Option Nat :=
  if c.toNat < 0x80 then (if c.isDigit then some (c.toNat - 48) else none)
  else (zeros.find? fun z => z ≤ c.toNat && c.toNat < z + 10).map (c.toNat - ·)

def natGo : Bool → Nat → List Char → Option Nat
  | after, n, [] => if after then some n else none
  | after, n, c :: cs =>
    if c = '_' then (if after then natGo false n cs else none)
    else
      match digitVal? c with
      | some d => natGo true (n * 10 + d) cs
      | none => none

def int? (s : String) : Option Int :=
  match (trim s).toList with
  | '-' :: cs => (natGo false 0 cs).map fun n => -(n : Int)
  | '+' :: cs => (natGo false 0 cs).map Int.ofNat
  | cs => (natGo false 0 cs).map Int.ofNat

def pieces : List Char → List Char → List (List Char)
  | [], acc => if acc.isEmpty then [] else [acc.reverse]
  | c :: cs, acc =>
    let before := (acc.take 2).all Char.isAlpha && 2 ≤ acc.length
    let after := (cs.take 2).all Char.isAlpha && 2 ≤ cs.length
    if c = '-' && before && after then (c :: acc).reverse :: pieces cs [] else pieces cs (c :: acc)

structure Piece where
  gap : Bool
  text : String
  deriving DecidableEq, Repr

def wordPieces (w : String) : List Piece :=
  match pieces w.toList [] with
  | [] => []
  | p :: ps => ⟨true, String.ofList p⟩ :: ps.map fun q => ⟨false, String.ofList q⟩

def fill (width : Nat) : List Piece → String → List String
  | [], line => if line = "" then [] else [line]
  | p :: ps, line =>
    if line = "" then fill width ps p.text
    else
      let longer := line ++ (if p.gap then " " else "") ++ p.text
      if longer.length ≤ width then fill width ps longer else line :: fill width ps p.text

def wrap (width : Nat) (s : String) : List String := fill width ((words s).flatMap wordPieces) ""

def blanks (n : Nat) : String := String.ofList (List.replicate n ' ')

def padEnd (width : Nat) (s : String) : String := s ++ blanks (width - s.length)

def camel : List Char → List Char
  | '_' :: c :: cs => c.toUpper :: camel cs
  | c :: cs => c :: camel cs
  | [] => []

def camelCase (s : String) : String := String.ofList (camel s.toList)

end WorkflowInference.Text
