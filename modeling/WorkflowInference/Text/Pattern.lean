/-!
Patterns over texts: classes of characters, choice, sequence and repetition, with a reader of their
usual spelling. A text is matched by following the set of rests of the pattern that remain possible
after each character.
-/
namespace WorkflowInference.Text

inductive Pattern where
  | empty
  | one (inside : Bool) (ranges : List (Char × Char))
  | seq (a b : Pattern)
  | alt (a b : Pattern)
  | star (a : Pattern)
  deriving DecidableEq

namespace Pattern

def char (c : Char) : Pattern := one true [(c, c)]

def anyChar : Pattern := one false []

def many1 (a : Pattern) : Pattern := seq a (star a)

def opt (a : Pattern) : Pattern := alt empty a

def holdsOf (inside : Bool) (ranges : List (Char × Char)) (c : Char) : Bool :=
  ranges.any (fun r => decide (r.1 ≤ c) && decide (c ≤ r.2)) == inside

def nullable : Pattern → Bool
  | empty => true
  | one _ _ => false
  | seq a b => a.nullable && b.nullable
  | alt a b => a.nullable || b.nullable
  | star _ => true

def rests (c : Char) : Pattern → List Pattern
  | empty => []
  | one i rs => if holdsOf i rs c then [empty] else []
  | seq a b =>
    let first := (rests c a).map fun r => if r = empty then b else seq r b
    if a.nullable then first ++ rests c b else first
  | alt a b => rests c a ++ rests c b
  | star a => (rests c a).map fun r => if r = empty then star a else seq r (star a)

def run : List Pattern → List Char → Bool
  | ps, [] => ps.any nullable
  | ps, c :: cs => run (ps.flatMap (rests c)).eraseDups cs

def fits (p : Pattern) (s : String) : Bool := run [p] s.toList

def occurs (p : Pattern) (s : String) : Bool :=
  run [seq (star anyChar) (seq p (star anyChar))] s.toList

def blanks : List (Char × Char) := [(' ', ' '), ('\t', '\r')]

def digits : List (Char × Char) := [('0', '9')]

def wordChars : List (Char × Char) := [('a', 'z'), ('A', 'Z'), ('0', '9'), ('_', '_')]

def escaped (c : Char) : List (Char × Char) :=
  match c with
  | 's' => blanks
  | 'd' => digits
  | 'w' => wordChars
  | 'n' => [('\n', '\n')]
  | 't' => [('\t', '\t')]
  | c => [(c, c)]

def readClass : List Char → List (Char × Char) → Option (List (Char × Char) × List Char)
  | ']' :: cs, acc => some (acc.reverse, cs)
  | '\\' :: c :: cs, acc => readClass cs ((escaped c).reverse ++ acc)
  | a :: '-' :: ']' :: cs, acc => some ((('-', '-') :: (a, a) :: acc).reverse, cs)
  | a :: '-' :: b :: cs, acc => readClass cs ((a, b) :: acc)
  | a :: cs, acc => readClass cs ((a, a) :: acc)
  | [], _ => none

def repeated (p : Pattern) : List Char → Pattern × List Char
  | '*' :: cs => repeated (star p) cs
  | '+' :: cs => repeated (many1 p) cs
  | '?' :: cs => repeated (opt p) cs
  | cs => (p, cs)

mutual

/-- An alternation up to a closing parenthesis or the end; each call reads at least a character
before the next, so the length of the text is enough fuel. -/
def readAlt : Nat → List Char → Option (Pattern × List Char)
  | 0, _ => none
  | n + 1, cs => do
    let (a, cs) ← readSeq n empty cs
    match cs with
    | '|' :: cs => do
      let (b, cs) ← readAlt n cs
      return (alt a b, cs)
    | cs => return (a, cs)

def readSeq : Nat → Pattern → List Char → Option (Pattern × List Char)
  | 0, _, _ => none
  | _, acc, [] => some (acc, [])
  | n + 1, acc, c :: cs =>
    if c = '|' || c = ')' then some (acc, c :: cs)
    else do
      let (item, cs) ← readItem n (c :: cs)
      let (item, cs) := repeated item cs
      readSeq n (if acc = empty then item else seq acc item) cs

def readItem : Nat → List Char → Option (Pattern × List Char)
  | 0, _ => none
  | n + 1, cs =>
    match cs with
    | '(' :: cs => do
      match ← readAlt n cs with
      | (p, ')' :: cs) => return (p, cs)
      | _ => none
    | '[' :: '^' :: cs => (readClass cs []).map fun (rs, cs) => (one false rs, cs)
    | '[' :: cs => (readClass cs []).map fun (rs, cs) => (one true rs, cs)
    | '\\' :: c :: cs => some (one true (escaped c), cs)
    | '.' :: cs => some (one false [('\n', '\n')], cs)
    | c :: cs => some (char c, cs)
    | [] => none

end

def read? (s : String) : Option Pattern := do
  match ← readAlt (3 * s.length + 3) s.toList with
  | (p, []) => return p
  | _ => none

end Pattern

end WorkflowInference.Text
