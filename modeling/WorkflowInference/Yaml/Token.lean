import WorkflowInference.Json

/-!
The tokens of a YAML text. A text is read from left to right; the column of what is read opens and
closes block collections, and a place where a key of one line might have begun is remembered until
a colon shows that it did.
-/
namespace WorkflowInference.Yaml

inductive Token where
  | version (major : Nat)
  | handle (handle pre : String)
  | reserved
  | documentStart
  | documentEnd
  | streamEnd
  | blockSequence
  | blockMapping
  | blockEnd
  | flowSequence
  | flowMapping
  | flowSequenceEnd
  | flowMappingEnd
  | key
  | value
  | blockEntry
  | flowEntry
  | alias (name : String)
  | anchor (name : String)
  | tag (handle : Option String) (suffix : String)
  | scalar (text : String) (plain : Bool)
  deriving DecidableEq, Repr, Inhabited

structure Cursor where
  rest : List Char
  index : Nat
  line : Nat
  column : Nat

namespace Cursor

def peek (c : Cursor) : Char := c.rest.headD '\x00'

def peekAt (c : Cursor) (n : Nat) : Char := (c.rest.drop n).headD '\x00'

end Cursor

def isBreak (c : Char) : Bool :=
  c = '\n' || c = '\r' || c = '\x85' || c = '\u2028' || c = '\u2029'

def isLineEnd (c : Char) : Bool := c = '\x00' || isBreak c

def isGap (c : Char) : Bool := c = ' ' || c = '\t' || isLineEnd c

def isSpaceOrEnd (c : Char) : Bool := c = ' ' || isLineEnd c

namespace Cursor

/-- One character on. A line ends after a line feed, and after a carriage return that none
follows. -/
def next (c : Cursor) : Cursor :=
  match c.rest with
  | [] => c
  | ch :: rest =>
    if ch = '\n' || ch = '\x85' || ch = '\u2028' || ch = '\u2029' ||
        (ch = '\r' && rest.headD '\x00' != '\n') then
      ⟨rest, c.index + 1, c.line + 1, 0⟩
    else if ch = '\ufeff' then ⟨rest, c.index + 1, c.line, c.column⟩
    else ⟨rest, c.index + 1, c.line, c.column + 1⟩

def advance (c : Cursor) : Nat → Cursor
  | 0 => c
  | n + 1 => c.next.advance n

def spanWhile (p : Char → Bool) (c : Cursor) : List Char × Cursor :=
  let cs := c.rest.takeWhile p
  (cs, c.advance cs.length)

def skipWhile (p : Char → Bool) (c : Cursor) : Cursor := (c.spanWhile p).2

def atBreak (c : Cursor) : Bool := c.rest.head?.any isBreak

def skipComment (c : Cursor) : Cursor :=
  let c := c.skipWhile (· = ' ')
  if c.peek = '#' then c.skipWhile (!isLineEnd ·) else c

def lineBreak (c : Cursor) : String × Cursor :=
  match c.rest with
  | '\r' :: '\n' :: _ => ("\n", c.advance 2)
  | ch :: _ =>
    if ch = '\r' || ch = '\n' || ch = '\x85' then ("\n", c.next)
    else if ch = '\u2028' || ch = '\u2029' then (ch.toString, c.next)
    else ("", c)
  | [] => ("", c)

def atMark (c : Cursor) : Bool :=
  match c.rest with
  | '-' :: '-' :: '-' :: rest | '.' :: '.' :: '.' :: rest => isGap (rest.headD '\x00')
  | _ => false

end Cursor

structure KeyPlace where
  token : Nat
  required : Bool
  index : Nat
  line : Nat
  column : Nat

structure Scan where
  cur : Cursor
  size : Nat
  tokens : Array Token := #[]
  flow : Nat := 0
  indent : Int := -1
  indents : List Int := []
  keyAllowed : Bool := true
  keys : List (Nat × KeyPlace) := []

namespace Scan

def emit (s : Scan) (t : Token) : Scan := { s with tokens := s.tokens.push t }

def dropKey (s : Scan) : Result Scan :=
  match s.keys.lookup s.flow with
  | none => .ok s
  | some k =>
    if k.required then .error .badYaml
    else .ok { s with keys := s.keys.filter fun e => e.1 != s.flow }

def saveKey (s : Scan) : Result Scan :=
  if s.keyAllowed then do
    let s ← s.dropKey
    let required := s.flow = 0 && s.indent = s.cur.column
    let place : KeyPlace := ⟨s.tokens.size, required, s.cur.index, s.cur.line, s.cur.column⟩
    return { s with keys := (s.flow, place) :: s.keys }
  else .ok s

def isStale (s : Scan) (k : KeyPlace) : Bool :=
  k.line != s.cur.line || s.cur.index - k.index > 1024

def dropStale (s : Scan) : Result Scan :=
  if s.keys.any fun e => s.isStale e.2 && e.2.required then .error .badYaml
  else .ok { s with keys := s.keys.filter fun e => !s.isStale e.2 }

def unwindGo (column : Int) : List Int → Scan → Scan
  | [], s => s
  | i :: is, s =>
    if s.indent > column then
      unwindGo column is { s.emit .blockEnd with indent := i, indents := is }
    else s

def unwind (s : Scan) (column : Int) : Scan :=
  if s.flow = 0 then unwindGo column s.indents s else s

def openAt (s : Scan) (column : Nat) (t : Token) (place : Nat) : Scan :=
  if s.indent < column then
    { s with
      indents := s.indent :: s.indents
      indent := column
      tokens := s.tokens.insertIdxIfInBounds place t }
  else s

def toNextToken : Nat → Scan → Scan
  | 0, s => s
  | n + 1, s =>
    match s.cur.skipComment.lineBreak with
    | ("", c) => { s with cur := c }
    | (_, c) => toNextToken n { s with cur := c, keyAllowed := s.keyAllowed || s.flow = 0 }

def isWordChar (c : Char) : Bool := c.isAlphanum || c = '-' || c = '_'

def isUriChar (c : Char) : Bool := c.isAlphanum || "-;/?:@&=+$,_.!~*'()[]%".toList.contains c

def uriBytes : Nat → List Char → List UInt8 × List Char
  | n + 1, '%' :: a :: b :: rest =>
    match Json.hexVal? a, Json.hexVal? b with
    | some x, some y =>
      let (bs, rest) := uriBytes n rest
      (UInt8.ofNat (x * 16 + y) :: bs, rest)
    | _, _ => ([], '%' :: a :: b :: rest)
  | _, cs => ([], cs)

def unescapeUri : Nat → List Char → Option (List Char)
  | 0, _ => some []
  | _ + 1, [] => some []
  | n + 1, '%' :: rest =>
    let (bs, after) := uriBytes n ('%' :: rest)
    if bs.isEmpty then none
    else do
      let s ← String.fromUTF8? ⟨bs.toArray⟩
      let more ← unescapeUri n after
      some (s.toList ++ more)
  | n + 1, c :: rest => (unescapeUri n rest).map (c :: ·)

def scanUri (c : Cursor) : Result (String × Cursor) :=
  match c.spanWhile isUriChar with
  | ([], _) => .error .badYaml
  | (cs, c) =>
    (unescapeUri (cs.length + 1) cs).elim (.error .badYaml) fun cs => .ok (String.ofList cs, c)

def scanHandle (c : Cursor) : Result (String × Cursor) :=
  if c.peek != '!' then .error .badYaml
  else
    let c := c.next
    if c.peek = ' ' then .ok ("!", c)
    else
      let (w, c) := c.spanWhile isWordChar
      if c.peek = '!' then .ok ("!" ++ String.ofList w ++ "!", c.next) else .error .badYaml

def finishLine (c : Cursor) : Result Cursor :=
  let c := c.skipComment
  if isLineEnd c.peek then .ok c.lineBreak.2 else .error .badYaml

def scanNumber (c : Cursor) : Result (Nat × Cursor) :=
  let (ds, c) := c.spanWhile Char.isDigit
  if ds.isEmpty then .error .badYaml else .ok (Json.digitsVal ds, c)

def scanDirective (s : Scan) : Result Scan := do
  let (w, c) := s.cur.next.spanWhile isWordChar
  if w.isEmpty || !isSpaceOrEnd c.peek then throw .badYaml
  let (t, c) ←
    match String.ofList w with
    | "YAML" => do
      let (major, c) ← scanNumber (c.skipWhile (· = ' '))
      if c.peek != '.' then throw .badYaml
      let (_, c) ← scanNumber c.next
      if !isSpaceOrEnd c.peek then throw .badYaml
      pure (Token.version major, c)
    | "TAG" => do
      let (h, c) ← scanHandle (c.skipWhile (· = ' '))
      if c.peek != ' ' then throw .badYaml
      let (p, c) ← scanUri (c.skipWhile (· = ' '))
      if !isSpaceOrEnd c.peek then throw .badYaml
      pure (Token.handle h p, c)
    | _ => pure (Token.reserved, c.skipWhile (!isLineEnd ·))
  return { s with cur := ← finishLine c }.emit t

def scanAnchorName (c : Cursor) : Result (String × Cursor) :=
  let (w, c) := c.next.spanWhile isWordChar
  if w.isEmpty then .error .badYaml
  else if isGap c.peek || "?:,]\x7d%@`".toList.contains c.peek then .ok (String.ofList w, c)
  else .error .badYaml

def hasHandle (cs : List Char) : Bool :=
  (cs.takeWhile fun c => !isSpaceOrEnd c).contains '!'

def scanTag (c : Cursor) : Result (Token × Cursor) := do
  let ch := c.peekAt 1
  let (t, c) ←
    if ch = '<' then do
      let (uri, c) ← scanUri (c.advance 2)
      if c.peek != '>' then throw .badYaml
      pure (Token.tag none uri, c.next)
    else if isGap ch then pure (Token.tag none "!", c.next)
    else do
      let (h, c) ← if hasHandle (c.rest.drop 1) then scanHandle c else pure ("!", c.next)
      let (uri, c) ← scanUri c
      pure (Token.tag (some h) uri, c)
  if !isSpaceOrEnd c.peek then throw .badYaml
  return (t, c)

def scalarBreaks (indent : Nat) : Nat → Cursor → List String → List String × Cursor
  | 0, c, acc => (acc.reverse, c)
  | n + 1, c, acc =>
    let c := c.advance (min (indent - c.column) (c.rest.takeWhile (· = ' ')).length)
    if c.atBreak then
      let (b, c) := c.lineBreak
      scalarBreaks indent n c (b :: acc)
    else (acc.reverse, c)

def scalarIndentation : Nat → Cursor → List String → Nat → List String × Nat × Cursor
  | 0, c, acc, most => (acc.reverse, most, c)
  | n + 1, c, acc, most =>
    if c.peek = ' ' then scalarIndentation n c.next acc (max most c.next.column)
    else if c.atBreak then
      let (b, c) := c.lineBreak
      scalarIndentation n c (b :: acc) most
    else (acc.reverse, most, c)

inductive Chomp where
  | strip
  | clip
  | keep
  deriving DecidableEq

def chomp? (c : Char) : Option Chomp :=
  if c = '+' then some .keep else if c = '-' then some .strip else none

def scanIndicators (c : Cursor) : Result (Chomp × Option Nat × Cursor) := do
  let digit (c : Cursor) : Result (Option Nat × Cursor) :=
    if c.peek.isDigit then
      if c.peek = '0' then .error .badYaml else .ok (some (c.peek.toNat - 48), c.next)
    else .ok (none, c)
  let (ch, inc, c) ←
    match chomp? c.peek with
    | some ch => do
      let (inc, c) ← digit c.next
      pure (ch, inc, c)
    | none => do
      let (inc, c) ← digit c
      match inc, chomp? c.peek with
      | some _, some ch => pure (ch, inc, c.next)
      | _, _ => pure (.clip, inc, c)
  if !isSpaceOrEnd c.peek then throw .badYaml
  return (ch, inc, c)

def blockLines (folded : Bool) (size indent : Nat) :
    Nat → Cursor → List String → List String → String → List String × String × List String × Cursor
  | 0, c, breaks, out, br => (out, br, breaks, c)
  | n + 1, c, breaks, out, br =>
    if c.column = indent && !c.rest.isEmpty then
      let out := breaks.reverse ++ out
      let solid := c.peek != ' ' && c.peek != '\t'
      let (cs, c) := c.spanWhile (!isLineEnd ·)
      let out := String.ofList cs :: out
      let (br, c) := c.lineBreak
      let (breaks, c) := scalarBreaks indent size c []
      if c.column = indent && !c.rest.isEmpty then
        if folded && br = "\n" && solid && c.peek != ' ' && c.peek != '\t' then
          blockLines folded size indent n c breaks (if breaks.isEmpty then " " :: out else out) ""
        else blockLines folded size indent n c breaks (br :: out) ""
      else (out, br, breaks, c)
    else (out, br, breaks, c)

def scanBlockScalar (s : Scan) (folded : Bool) : Result Scan := do
  let (ch, inc, c) ← scanIndicators s.cur.next
  let c ← finishLine c
  let least := (max (s.indent + 1) 1).toNat
  let (breaks, indent, c) :=
    match inc with
    | none =>
      let (bs, most, c) := scalarIndentation s.size c [] 0
      (bs, max least most, c)
    | some inc =>
      let (bs, c) := scalarBreaks (least + inc - 1) s.size c []
      (bs, least + inc - 1, c)
  let (out, br, breaks, c) := blockLines folded s.size indent s.size c breaks [] ""
  let out := if ch = .strip then out else br :: out
  let out := if ch = .keep then breaks.reverse ++ out else out
  return { s with cur := c }.emit (.scalar (String.join out.reverse) false)

def escapes : List (Char × Char) :=
  [('0', '\x00'), ('a', '\x07'), ('b', '\x08'), ('t', '\t'), ('\t', '\t'), ('n', '\n'),
    ('v', '\x0b'), ('f', '\x0c'), ('r', '\r'), ('e', '\x1b'), (' ', ' '), ('"', '"'), ('\\', '\\'),
    ('/', '/'), ('N', '\x85'), ('_', '\xa0'), ('L', '\u2028'), ('P', '\u2029')]

def escapeWidth? (c : Char) : Option Nat :=
  if c = 'x' then some 2 else if c = 'u' then some 4 else if c = 'U' then some 8 else none

def isBlank (c : Char) : Bool := c = ' ' || c = '\t'

def quotedBreaks : Nat → Cursor → List String → Result (List String × Cursor)
  | 0, c, acc => .ok (acc, c)
  | n + 1, c, acc =>
    if c.atMark then .error .badYaml
    else
      let c := c.skipWhile isBlank
      if c.atBreak then quotedBreaks n c.lineBreak.2 (c.lineBreak.1 :: acc) else .ok (acc, c)

def hexValue (cs : List Char) : Option Nat :=
  cs.foldlM (fun n c => (Json.hexVal? c).map (n * 16 + ·)) 0

def scanCode (c : Cursor) (width : Nat) : Result (Char × Cursor) :=
  let ds := c.rest.take width
  match hexValue ds with
  | none => .error .badYaml
  | some v =>
    if ds.length < width then .error .badYaml
    else if v ≥ 0x80000000 then .error (.unstated "OverflowError")
    else if v > 0x10ffff then .error .badValue
    else .ok (Char.ofNat v, c.advance width)

def quotedParts (double : Bool) (size : Nat) :
    Nat → Cursor → List String → Result (List String × Cursor)
  | 0, _, _ => .error .badYaml
  | n + 1, c, acc => do
    let (cs, c) := c.spanWhile fun ch => !(ch = '\'' || ch = '"' || ch = '\\' || isGap ch)
    let acc := if cs.isEmpty then acc else String.ofList cs :: acc
    let some ch := c.rest.head? | throw .badYaml
    if !double && ch = '\'' then
      if c.peekAt 1 = '\'' then quotedParts double size n (c.advance 2) ("'" :: acc)
        else return (acc, c.next)
    else if double && ch = '"' then return (acc, c.next)
    else if ch = '\'' || ch = '"' || (ch = '\\' && !double) then
      quotedParts double size n c.next (ch.toString :: acc)
    else if ch = '\\' then
      let c := c.next
      match escapes.lookup c.peek, escapeWidth? c.peek with
      | some r, _ => quotedParts double size n c.next (r.toString :: acc)
      | none, some w =>
        let (r, c) ← scanCode c.next w
        quotedParts double size n c (r.toString :: acc)
      | none, none =>
        if !c.atBreak then throw .badYaml
        let (bs, c) ← quotedBreaks size c.lineBreak.2 []
        quotedParts double size n c (bs ++ acc)
    else
      let (ws, c) := c.spanWhile isBlank
      if c.rest.isEmpty then throw .badYaml
      else if c.atBreak then
        let (br, c) := c.lineBreak
        let (bs, c) ← quotedBreaks size c []
        quotedParts double size n c (bs ++ if br != "\n" then br :: acc
          else if bs.isEmpty then " " :: acc else acc)
      else quotedParts double size n c (String.ofList ws :: acc)

def scanQuoted (s : Scan) (double : Bool) : Result Scan := do
  let (parts, c) ← quotedParts double s.size (s.size + 2) s.cur.next []
  return { s with cur := c }.emit (.scalar (String.join parts.reverse) false)

def plainRun (flow : Bool) : List Char → List Char
  | [] => []
  | c :: cs =>
    if isGap c then []
    else if c = ':' &&
      (isGap (cs.headD '\x00') || (flow && ",[]\x7b\x7d".toList.contains (cs.headD '\x00'))) then []
    else if flow && ",?[]\x7b\x7d".toList.contains c then []
    else c :: plainRun flow cs

def plainBreaks : Nat → Cursor → List String → Option (List String) × Cursor
  | 0, c, acc => (some acc.reverse, c)
  | n + 1, c, acc =>
    if c.peek = ' ' then plainBreaks n c.next acc
    else if c.atBreak then
      let (b, c) := c.lineBreak
      if c.atMark then (none, c) else plainBreaks n c (b :: acc)
    else (some acc.reverse, c)

def plainSpaces (size : Nat) (c : Cursor) : List String × Bool × Cursor :=
  let (ws, c) := c.spanWhile (· = ' ')
  if c.atBreak then
    let (br, c) := c.lineBreak
    if c.atMark then ([], true, c)
    else
      match plainBreaks size c [] with
      | (none, c) => ([], true, c)
      | (some bs, c) =>
        ((if br != "\n" then [br] else if bs.isEmpty then [" "] else []) ++ bs, true, c)
  else (if ws.isEmpty then [] else [String.ofList ws], false, c)

def plainParts (flow : Bool) (size : Nat) (indent : Int) :
    Nat → Cursor → List String → List String → Bool → List String × Bool × Cursor
  | 0, c, _, acc, allowed => (acc, allowed, c)
  | n + 1, c, spaces, acc, allowed =>
    if c.peek = '#' then (acc, allowed, c)
    else
      let run := plainRun flow c.rest
      if run.isEmpty then (acc, allowed, c)
      else
        let acc := String.ofList run :: (spaces.reverse ++ acc)
        let (spaces, broke, c) := plainSpaces size (c.advance run.length)
        if spaces.isEmpty || c.peek = '#' || (!flow && (c.column : Int) < indent) then
          (acc, broke, c)
        else plainParts flow size indent n c spaces acc broke

def scanPlain (s : Scan) : Scan :=
  let (parts, allowed, c) :=
    plainParts (s.flow > 0) s.size (s.indent + 1) s.size s.cur [] [] s.keyAllowed
  { s with cur := c, keyAllowed := allowed }.emit (.scalar (String.join parts.reverse) true)

def startsPlain (s : Scan) : Bool :=
  let ch := s.cur.peek
  !(isGap ch || "-?:,[]\x7b\x7d#&*!|>'\"%@`".toList.contains ch) ||
    (!isGap (s.cur.peekAt 1) && (ch = '-' || (s.flow = 0 && (ch = '?' || ch = ':'))))

def flowToken (s : Scan) (t : Token) : Scan := { s with cur := s.cur.next }.emit t

def openHere (s : Scan) (t : Token) : Result Scan :=
  if s.flow > 0 then .ok s
  else if s.keyAllowed then .ok (s.openAt s.cur.column t s.tokens.size)
  else .error .badYaml

def fetchValue (s : Scan) : Result Scan :=
  match s.keys.lookup s.flow with
  | some k => do
    let s := { s with
      keys := s.keys.filter fun e => e.1 != s.flow
      tokens := s.tokens.insertIdxIfInBounds k.token .key }
    let s := if s.flow = 0 then s.openAt k.column .blockMapping k.token else s
    return { s with keyAllowed := false, cur := s.cur.next }.emit .value
  | none => do
    let s ← s.openHere .blockMapping
    let s ← { s with keyAllowed := s.flow = 0 }.dropKey
    return { s with cur := s.cur.next }.emit .value

def fetchAt (s : Scan) (ch : Char) : Result Scan := do
  let c := s.cur
  if ch = '%' && c.column = 0 then
    let s ← (s.unwind (-1)).dropKey
    { s with keyAllowed := false }.scanDirective
  else if c.column = 0 && c.atMark then
    let s ← (s.unwind (-1)).dropKey
    return { s with keyAllowed := false, cur := c.advance 3 }.emit
      (if ch = '-' then .documentStart else .documentEnd)
  else if ch = '[' || ch = '\x7b' then
    let s ← s.saveKey
    return { s with flow := s.flow + 1, keyAllowed := true }.flowToken
      (if ch = '[' then .flowSequence else .flowMapping)
  else if ch = ']' || ch = '\x7d' then
    let s ← s.dropKey
    if s.flow = 0 then throw .badYaml
    return { s with flow := s.flow - 1, keyAllowed := false }.flowToken
      (if ch = ']' then .flowSequenceEnd else .flowMappingEnd)
  else if ch = ',' then return (← { s with keyAllowed := true }.dropKey).flowToken .flowEntry
  else if ch = '-' && isGap (c.peekAt 1) then
    let s ← s.openHere .blockSequence
    return (← { s with keyAllowed := true }.dropKey).flowToken .blockEntry
  else if ch = '?' && (s.flow > 0 || isGap (c.peekAt 1)) then
    let s ← s.openHere .blockMapping
    return (← { s with keyAllowed := s.flow = 0 }.dropKey).flowToken .key
  else if ch = ':' && (s.flow > 0 || isGap (c.peekAt 1)) then s.fetchValue
  else if ch = '*' || ch = '&' then
    let s ← s.saveKey
    let (name, c) ← scanAnchorName s.cur
    return { s with keyAllowed := false, cur := c }.emit
      (if ch = '*' then .alias name else .anchor name)
  else if ch = '!' then
    let s ← s.saveKey
    let (t, c) ← scanTag s.cur
    return { s with keyAllowed := false, cur := c }.emit t
  else if (ch = '|' || ch = '>') && s.flow = 0 then
    (← { s with keyAllowed := true }.dropKey).scanBlockScalar (ch = '>')
  else if ch = '\'' || ch = '"' then
    let s ← s.saveKey
    { s with keyAllowed := false }.scanQuoted (ch = '"')
  else if s.startsPlain then
    let s ← s.saveKey
    return { s with keyAllowed := false }.scanPlain
  else throw .badYaml

def run : Nat → Scan → Result (Array Token)
  | 0, _ => .error .badYaml
  | n + 1, s => do
    let s ← (s.toNextToken s.size).dropStale
    let s := s.unwind s.cur.column
    match s.cur.rest with
    | [] => return ((← (s.unwind (-1)).dropKey).emit .streamEnd).tokens
    | ch :: _ => run n (← s.fetchAt ch)

end Scan

def isAllowed (c : Char) : Bool :=
  let n := c.toNat
  n = 9 || n = 10 || n = 13 || (0x20 ≤ n && n ≤ 0x7e) || n = 0x85 || (0xa0 ≤ n && n ≤ 0xd7ff) ||
    (0xe000 ≤ n && n ≤ 0xfffd) || 0x10000 ≤ n

def tokens (text : String) : Result (Array Token) :=
  let cs := text.toList
  if !cs.all isAllowed then .error .badYaml
  else
    let size := cs.length + 1
    let c : Cursor := ⟨cs, 0, 0, 0⟩
    let c := if c.peek = '\ufeff' then c.next else c
    Scan.run (size + 1) { cur := c, size }

end WorkflowInference.Yaml
