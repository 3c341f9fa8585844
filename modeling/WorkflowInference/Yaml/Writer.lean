import WorkflowInference.Yaml.Scalar

/-!
Writing documents as YAML texts in block style. A text that would read back as something else, or
that a plain scalar cannot hold, is quoted: in single quotes where they can hold it, else in double
quotes with escapes. Long scalars are folded at blanks once a line has passed the width.
-/
namespace WorkflowInference.Yaml

/-- A tree to be written: nodes that are written a second time are given an anchor the first time
and an alias from then on. -/
inductive Tree where
  | scalar (text : String) (kind : Kind) (tagWidth : Nat)
  | seq (anchor : Option String) (items : List Tree)
  | map (anchor : Option String) (entries : List (Tree × Tree))
  | alias (name : String)

structure Traits where
  empty : Bool := false
  multiline : Bool := false
  plain : Bool := false
  single : Bool := true

def isNewline (c : Char) : Bool := c = '\n' || c = '\x85' || c = '\u2028' || c = '\u2029'

def isWriterGap (c : Char) : Bool := c = '\x00' || c = ' ' || c = '\t' || c = '\r' || isNewline c

structure Seen where
  indicators : Bool := false
  breaks : Bool := false
  special : Bool := false
  breakSpace : Bool := false
  spaceBreak : Bool := false
  afterSpace : Bool := false
  afterBreak : Bool := false
  afterGap : Bool := true

def Seen.step (s : Seen) (first : Bool) (c : Char) (rest : List Char) : Seen :=
  let gapNext := rest.isEmpty || isWriterGap (rest.headD ' ')
  let indicator : Bool :=
    if first then
      "#,[]\x7b\x7d&*!|>'\"%@`".toList.contains c || ((c = '?' || c = ':' || c = '-') && gapNext)
    else (c = ':' && gapNext) || (c = '#' && s.afterGap)
  let special : Bool := !(c = '\n' || (0x20 ≤ c.toNat && c.toNat ≤ 0x7e))
  let space := c = ' '
  let break_ := isNewline c
  { indicators := s.indicators || indicator
    breaks := s.breaks || break_
    special := s.special || special
    breakSpace := s.breakSpace || (space && s.afterBreak)
    spaceBreak := s.spaceBreak || (break_ && s.afterSpace)
    afterSpace := space
    afterBreak := break_
    afterGap := isWriterGap c }

def Seen.walk : Bool → Seen → List Char → Seen
  | _, s, [] => s
  | first, s, c :: cs => Seen.walk false (s.step first c cs) cs

def Traits.of (text : String) : Traits :=
  let cs := text.toList
  if cs.isEmpty then { empty := true, plain := true }
  else
    let marks := Text.startsWith text "---" || Text.startsWith text "..."
    let s := Seen.walk true { indicators := marks } cs
    let edge (c : Option Char) : Bool := c.elim false fun c => c = ' ' || isNewline c
    let edges := edge cs.head? || edge cs.getLast?
    { multiline := s.breaks
      plain := !(edges || s.breakSpace || s.spaceBreak || s.special || s.breaks || s.indicators)
      single := !(s.breakSpace || s.spaceBreak || s.special) }

inductive Form where
  | plain
  | single
  | double
  deriving DecidableEq

def formOf (text : String) (kind : Kind) (asKey : Bool) : Form :=
  let t := Traits.of text
  let oneLine := !(asKey && t.multiline)
  if kindOf text = kind && oneLine && t.plain then .plain
  else if t.single && oneLine then .single
  else .double

structure Pen where
  out : List String := []
  column : Nat := 0
  gap : Bool := true
  fresh : Bool := true
  openEnded : Bool := false

namespace Pen

def put (p : Pen) (s : String) : Pen :=
  { p with out := s :: p.out, column := p.column + s.length }

def lineBreak (p : Pen) (br : String) : Pen :=
  { p with out := br :: p.out, column := 0, gap := true, fresh := true }

def toIndent (p : Pen) (indent : Nat) : Pen :=
  let p :=
    if !p.fresh || p.column > indent || (p.column = indent && !p.gap) then p.lineBreak "\n" else p
  if p.column < indent then { p.put (Text.blanks (indent - p.column)) with gap := true } else p

def indicator (p : Pen) (s : String) (needGap : Bool) (gap fresh : Bool) : Pen :=
  let p' := p.put (if p.gap || !needGap then s else " " ++ s)
  { p' with gap, fresh := p.fresh && fresh, openEnded := false }

def width : Nat := 80

def plainRuns (split : Bool) (indent : Nat) : Nat → List Char → Pen → Pen
  | 0, _, p => p
  | _ + 1, [], p => p
  | n + 1, c :: cs, p =>
    if c = ' ' then
      let run := (c :: cs).takeWhile (· = ' ')
      let p :=
        if run.length = 1 && p.column > width && split then
          { p.toIndent indent with gap := false, fresh := false }
        else p.put (String.ofList run)
      plainRuns split indent n ((c :: cs).drop run.length) p
    else
      let run := (c :: cs).takeWhile (· != ' ')
      plainRuns split indent n ((c :: cs).drop run.length) (p.put (String.ofList run))

def plain (p : Pen) (text : String) (split root : Bool) (indent : Nat) : Pen :=
  let p := if root then { p with openEnded := true } else p
  if text.isEmpty then p
  else
    let p := if p.gap then p else p.put " "
    plainRuns split indent (text.length + 1) text.toList { p with gap := false, fresh := false }

/-- Breaks inside single quotes: a line feed is written twice at the start of a run of breaks. -/
def quotedBreaks (run : List Char) (p : Pen) : Pen :=
  let p := if run.head? = some '\n' then p.lineBreak "\n" else p
  run.foldl (fun p c => p.lineBreak c.toString) p

def singleRuns (split : Bool) (indent : Nat) (first : Bool) : Nat → List Char → Pen → Pen
  | 0, _, p => p
  | _ + 1, [], p => p
  | n + 1, c :: cs, p =>
    if c = ' ' then
      let run := (c :: cs).takeWhile (· = ' ')
      let rest := (c :: cs).drop run.length
      let p :=
        if run.length = 1 && p.column > width && split && !first && !rest.isEmpty then
          p.toIndent indent
        else p.put (String.ofList run)
      singleRuns split indent false n rest p
    else if isNewline c then
      let run := (c :: cs).takeWhile isNewline
      singleRuns split indent false n ((c :: cs).drop run.length)
        ((quotedBreaks run p).toIndent indent)
    else if c = '\'' then singleRuns split indent false n cs (p.put "''")
    else
      let run := (c :: cs).takeWhile fun c => !(c = ' ' || c = '\'' || isNewline c)
      singleRuns split indent false n ((c :: cs).drop run.length) (p.put (String.ofList run))

def single (p : Pen) (text : String) (split : Bool) (indent : Nat) : Pen :=
  let p := p.indicator "'" true false false
  let p := singleRuns split indent true (text.length + 1) text.toList p
  p.indicator "'" false false false

def writerEscapes : List (Char × String) :=
  [('\x00', "0"), ('\x07', "a"), ('\x08', "b"), ('\t', "t"), ('\n', "n"), ('\x0b', "v"),
    ('\x0c', "f"), ('\r', "r"), ('\x1b', "e"), ('"', "\""), ('\\', "\\"), ('\x85', "N"),
    ('\xa0', "_"), ('\u2028', "L"), ('\u2029', "P")]

def upperHex (width n : Nat) : String := (Text.hex width n).toUpper

def escape? (c : Char) : Option String :=
  match writerEscapes.lookup c with
  | some e => some ("\\" ++ e)
  | none =>
    if 0x20 ≤ c.toNat && c.toNat ≤ 0x7e then none
    else if c.toNat ≤ 0xff then some ("\\x" ++ upperHex 2 c.toNat)
    else if c.toNat ≤ 0xffff then some ("\\u" ++ upperHex 4 c.toNat)
    else some ("\\U" ++ upperHex 8 c.toNat)

/-- Text in double quotes. `held` is what has been passed over and not yet written, backwards; a
line is ended after a character that is a blank or an escape once the width is passed, unless it is
the first or one of the last. -/
def doubleRuns (split : Bool) (indent : Nat) : Bool → List Char → List Char → Pen → Pen
  | _, [], held, p => if held.isEmpty then p else p.put (String.ofList held.reverse)
  | first, c :: cs, held, p =>
    let flush (p : Pen) : Pen := if held.isEmpty then p else p.put (String.ofList held.reverse)
    let (p, held, escaped) :=
      match escape? c with
      | some e => ((flush p).put e, [], true)
      | none => (p, held, false)
    let mayFold := !first && !cs.isEmpty && (c = ' ' || held.isEmpty)
    let past : Bool := if escaped then p.column > width + 1 else p.column + held.length > width
    if mayFold && split && past then
      let p := p.put (String.ofList held.reverse ++ "\\")
      let p := { p.toIndent indent with gap := false, fresh := false }
      if escaped then
        let p := if cs.head? = some ' ' then p.put "\\" else p
        doubleRuns split indent false cs [] p
      else
        let p := if c = ' ' then p.put "\\" else p
        doubleRuns split indent false cs [c] p
    else doubleRuns split indent false cs (if escaped then held else c :: held) p

def double (p : Pen) (text : String) (split : Bool) (indent : Nat) : Pen :=
  let p := p.indicator "\"" true false false
  let p := doubleRuns split indent true text.toList [] p
  p.indicator "\"" false false false

def scalar (p : Pen) (text : String) (kind : Kind) (asKey root : Bool) (indent : Nat) : Pen :=
  match formOf text kind asKey with
  | .plain => p.plain text (!asKey) root indent
  | .single => p.single text (!asKey) indent
  | .double => p.double text (!asKey) indent

def anchor (p : Pen) (a : Option String) : Pen :=
  match a with
  | none => p
  | some a => p.indicator ("&" ++ a) true false false

def simpleKey : Tree → Bool
  | .scalar text _ w =>
    let t := Traits.of text
    decide (text.length + w < 128) && !t.empty && !t.multiline
  | .alias n => decide (n.length < 128)
  | .seq a xs => xs.isEmpty && decide ((a.elim 0 String.length) + 5 < 128)
  | .map a es => es.isEmpty && decide ((a.elim 0 String.length) + 5 < 128)

def deeper : Option Nat → Nat
  | none => 0
  | some n => n + 2

def scalarIndent : Option Nat → Nat
  | none => 2
  | some n => n + 2

structure Place where
  inMap : Bool := false
  asKey : Bool := false
  root : Bool := false

mutual

def tree (indent : Option Nat) (place : Place) : Tree → Pen → Pen
  | .alias n, p => p.indicator ("*" ++ n) true false false
  | .scalar text kind _, p => p.scalar text kind place.asKey place.root (scalarIndent indent)
  | .seq a xs, p =>
    let p := p.anchor a
    if xs.isEmpty then (p.indicator "[" true true false).indicator "]" false false false
    else
      let inner := if place.inMap && !p.fresh then indent.getD 0 else deeper indent
      items inner xs p
  | .map a es, p =>
    let p := p.anchor a
    if es.isEmpty then (p.indicator "\x7b" true true false).indicator "\x7d" false false false
    else members (deeper indent) es p

def items (indent : Nat) : List Tree → Pen → Pen
  | [], p => p
  | x :: xs, p =>
    let p := (p.toIndent indent).indicator "-" true false true
    items indent xs (tree (some indent) {} x p)

def members (indent : Nat) : List (Tree × Tree) → Pen → Pen
  | [], p => p
  | (k, v) :: es, p =>
    let p := p.toIndent indent
    let p :=
      if simpleKey k then
        let p := tree (some indent) { inMap := true, asKey := true } k p
        tree (some indent) { inMap := true } v (p.indicator ":" false false false)
      else
        let p := tree (some indent) { inMap := true } k (p.indicator "?" true false true)
        tree (some indent) { inMap := true } v ((p.toIndent indent).indicator ":" true false true)
    members indent es p

end

def finish (p : Pen) : String :=
  let p := p.toIndent 0
  let p := if p.openEnded then (p.indicator "..." true false false).toIndent 0 else p
  String.join p.out.reverse

end Pen

def Tree.text (t : Tree) : String := (Pen.tree none { root := true } t {}).finish

def keyLe (a b : Doc) : Bool :=
  match a, b with
  | .str a, .str b => decide (a ≤ b)
  | .int a, .int b => decide (a ≤ b)
  | _, _ => true

def sortable (es : Entries) : Bool :=
  es.all (fun e => e.1.isStr) || es.all fun e => match e.1 with | .int _ => true | _ => false

def sortTrees (es : List ((Doc × Doc) × (Tree × Tree))) : List ((Doc × Doc) × (Tree × Tree)) :=
  es.mergeSort fun a b => keyLe a.1.1 b.1.1

def floatText (x : Float) : String :=
  let s := Decimal.Format.plain.float x
  if x.isNaN then ".nan"
  else if x.isInf then (if x < 0 then "-.inf" else ".inf")
  else if !s.toList.contains '.' && s.toList.contains 'e' then Text.replace s "e" ".0e"
  else s

mutual

def Tree.ofDoc? (sorted : Bool) : Doc → Option Tree
  | .null => some (.scalar "null" .null 6)
  | .bool b => some (.scalar (if b then "true" else "false") .bool 6)
  | .int n => some (.scalar (toString n) .int 5)
  | .float x => some (.scalar (floatText x) .float 7)
  | .str s => some (.scalar s .str 5)
  | .date d => some (.scalar (d.text " ") .timestamp 11)
  | .list xs | .tuple xs => (Tree.ofItems? sorted xs).map (.seq none)
  | .map es =>
    (Tree.ofEntries? sorted es).map fun ts =>
      .map none (if sorted && sortable es then (sortTrees (es.zip ts)).map (·.2) else ts)
  | _ => none

def Tree.ofItems? (sorted : Bool) : List Doc → Option (List Tree)
  | [] => some []
  | x :: xs =>
    match Tree.ofDoc? sorted x, Tree.ofItems? sorted xs with
    | some x, some xs => some (x :: xs)
    | _, _ => none

def Tree.ofEntries? (sorted : Bool) : List (Doc × Doc) → Option (List (Tree × Tree))
  | [] => some []
  | (k, v) :: es =>
    match Tree.ofDoc? sorted k, Tree.ofDoc? sorted v, Tree.ofEntries? sorted es with
    | some k, some v, some es => some ((k, v) :: es)
    | _, _, _ => none

end

def write (d : Doc) : Result String :=
  (Tree.ofDoc? false d).elim (.error (.unstated "RepresenterError")) fun t => .ok t.text

def writeSorted (d : Doc) : Result String :=
  (Tree.ofDoc? true d).elim (.error (.unstated "RepresenterError")) fun t => .ok t.text

end WorkflowInference.Yaml
