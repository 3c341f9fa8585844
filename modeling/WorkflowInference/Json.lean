import WorkflowInference.Failure

/-!
JSON texts. Objects keep the order of their keys, a repeated key takes the last value, and a number
without point and exponent is an integer of any size. The recursion is bounded by the length of the
text, since every value takes at least one character. Texts are written in ASCII: other characters
become escapes of their UTF-16 units.
-/
namespace WorkflowInference.Json

def isSpace (c : Char) : Bool := c = ' ' || c = '\t' || c = '\n' || c = '\r'

def skip (cs : List Char) : List Char := cs.dropWhile isSpace

def hexVal? (c : Char) : Option Nat := "0123456789abcdef".toList.idxOf? c.toLower

def hex4? : List Char → Option (Nat × List Char)
  | a :: b :: c :: d :: rest => do
    some (← [a, b, c, d].foldlM (fun n c => (hexVal? c).map (n * 16 + ·)) 0, rest)
  | _ => none

def escapes : List (Char × Char) :=
  [('"', '"'), ('\\', '\\'), ('/', '/'), ('b', '\x08'), ('f', '\x0c'), ('n', '\n'), ('r', '\r'),
    ('t', '\t')]

/-- The character of an escape by its UTF-16 unit, two of which may stand for one character. -/
def readUnit (cs : List Char) : Option (Char × List Char) := do
  let (u, rest) ← hex4? cs
  match decide (0xd800 ≤ u ∧ u < 0xdc00), rest with
  | true, '\\' :: 'u' :: more =>
    let (v, more) ← hex4? more
    if 0xdc00 ≤ v && v < 0xe000 then
      some (Char.ofNat (0x10000 + (u - 0xd800) * 0x400 + (v - 0xdc00)), more)
    else some ('\ufffd', rest)
  | _, _ => some (if 0xd800 ≤ u && u < 0xe000 then '\ufffd' else Char.ofNat u, rest)

def readChars : Nat → List Char → List Char → Option (List Char × List Char)
  | 0, _, _ => none
  | _ + 1, [], _ => none
  | _ + 1, '"' :: rest, acc => some (acc.reverse, rest)
  | n + 1, '\\' :: 'u' :: rest, acc => do
    let (c, rest) ← readUnit rest
    readChars n rest (c :: acc)
  | n + 1, '\\' :: c :: rest, acc => do readChars n rest ((← escapes.lookup c) :: acc)
  | n + 1, c :: rest, acc => if c.toNat < 0x20 then none else readChars n rest (c :: acc)

def digitsVal (ds : List Char) : Nat := ds.foldl (fun n d => n * 10 + (d.toNat - 48)) 0

def toFloat (neg : Bool) (whole frac : List Char) (exp : Int) : Float :=
  let m := digitsVal (whole ++ frac)
  let e := exp - frac.length
  let len : Int := (whole ++ frac).length
  let x : Float :=
    if m = 0 then 0.0
    else if e + len > 400 then 1.0 / 0.0
    else if e + len < -400 then 0.0
    else if e ≥ 0 then Float.ofScientific m false e.toNat
    else Float.ofScientific m true e.natAbs
  if neg then -x else x

def isDigit (c : Char) : Bool := '0' ≤ c && c ≤ '9'

def sign : List Char → Bool × List Char
  | '-' :: cs => (true, cs)
  | '+' :: cs => (false, cs)
  | cs => (false, cs)

def readExponent (cs : List Char) : Option (Int × List Char) :=
  match cs with
  | e :: rest =>
    if e = 'e' || e = 'E' then
      let (neg, rest) := sign rest
      let ds := rest.takeWhile isDigit
      if ds.isEmpty then none
      else
        let n : Int := digitsVal (ds.take 9)
        some (if neg then -n else n, rest.dropWhile isDigit)
    else none
  | [] => none

def readNumber (cs : List Char) : Option (Doc × List Char) :=
  let (neg, cs) :=
    match cs with
    | '-' :: r => (true, r)
    | r => (false, r)
  let whole :=
    match cs with
    | '0' :: _ => ['0']
    | _ => cs.takeWhile isDigit
  let rest := cs.drop whole.length
  if whole.isEmpty then none
  else
    let (frac, rest) :=
      match rest with
      | '.' :: r =>
        let f := r.takeWhile isDigit
        if f.isEmpty then (none, rest) else (some f, r.dropWhile isDigit)
      | _ => (none, rest)
    match frac, readExponent rest with
    | f, some (e, rest) => some (.float (toFloat neg whole (f.getD []) e), rest)
    | some f, none => some (.float (toFloat neg whole f 0), rest)
    | none, none =>
      let n : Int := digitsVal whole
      some (.int (if neg then -n else n), rest)

def expect (word : String) (d : Doc) (cs : List Char) : Option (Doc × List Char) :=
  (Text.after? word.toList cs).map fun rest => (d, rest)

mutual

def readValue : Nat → List Char → Option (Doc × List Char)
  | 0, _ => none
  | n + 1, cs =>
    match skip cs with
    | '"' :: rest =>
      (readChars (rest.length + 1) rest []).map fun (s, rest) => (.str (String.ofList s), rest)
    | '[' :: rest =>
      match skip rest with
      | ']' :: rest => some (.list [], rest)
      | rest => (readItems n rest []).map fun (xs, rest) => (.list xs, rest)
    | '\x7b' :: rest =>
      match skip rest with
      | '\x7d' :: rest => some (.map [], rest)
      | rest => (readMembers n rest []).map fun (es, rest) => (.map (Entries.ofPairs es), rest)
    | 't' :: rest => expect "rue" (.bool true) rest
    | 'f' :: rest => expect "alse" (.bool false) rest
    | 'n' :: rest => expect "ull" .null rest
    | 'N' :: rest => expect "aN" (.float (0.0 / 0.0)) rest
    | 'I' :: rest => expect "nfinity" (.float (1.0 / 0.0)) rest
    | '-' :: 'I' :: rest => expect "nfinity" (.float (-1.0 / 0.0)) rest
    | cs => readNumber cs

def readItems : Nat → List Char → List Doc → Option (List Doc × List Char)
  | 0, _, _ => none
  | n + 1, cs, acc => do
    let (v, rest) ← readValue n cs
    match skip rest with
    | ',' :: rest => readItems n rest (v :: acc)
    | ']' :: rest => some ((v :: acc).reverse, rest)
    | _ => none

def readMembers : Nat → List Char → List (Doc × Doc) → Option (List (Doc × Doc) × List Char)
  | 0, _, _ => none
  | n + 1, cs, acc => do
    let '"' :: rest := skip cs | none
    let (k, rest) ← readChars (rest.length + 1) rest []
    let ':' :: rest := skip rest | none
    let (v, rest) ← readValue n rest
    let acc := (.str (String.ofList k), v) :: acc
    match skip rest with
    | ',' :: rest => readMembers n rest acc
    | '\x7d' :: rest => some (acc.reverse, rest)
    | _ => none

end

def read? (s : String) : Option Doc := do
  let (d, rest) ← readValue (s.toList.length + 1) s.toList
  if (skip rest).isEmpty then some d else none

def read (s : String) : Result Doc := (read? s).elim (.error .badJson) .ok

structure Layout where
  indent : Option String
  sorted : Bool
  deriving Repr

def indentOf : Doc → Option String
  | .str s => some s
  | .int n => some (Text.blanks n.toNat)
  | .bool b => some (Text.blanks b.toNat)
  | _ => none

def Layout.compact : Layout := ⟨none, false⟩

def escapeUnit (n : Nat) : String := "\\u" ++ Text.hex 4 n

def escape (c : Char) : String :=
  if let some e := escapes.find? fun e => e.2 = c && c != '/' then "\\" ++ e.1.toString
  else if 0x20 ≤ c.toNat && c.toNat < 0x7f then c.toString
  else if c.toNat < 0x10000 then escapeUnit c.toNat
  else
    let n := c.toNat - 0x10000
    escapeUnit (0xd800 + n / 0x400) ++ escapeUnit (0xdc00 + n % 0x400)

def quote (s : String) : String := "\"" ++ String.join (s.toList.map escape) ++ "\""

def keyText : Doc → Option String
  | .str s => some s
  | .int n => some (toString n)
  | .bool b => some (if b then "true" else "false")
  | .null => some "null"
  | .float x => some (Decimal.Format.json.float x)
  | _ => none

def newline (l : Layout) (depth : Nat) : String :=
  match l.indent with
  | none => ""
  | some s => "\n" ++ String.join (List.replicate depth s)

def separator (l : Layout) (depth : Nat) : String :=
  match l.indent with
  | none => ", "
  | some _ => "," ++ newline l depth

def bracket (l : Layout) (depth : Nat) (opening closing : String) (items : List String) : String :=
  if items.isEmpty then opening ++ closing
  else opening ++ newline l (depth + 1) ++ String.intercalate (separator l (depth + 1)) items ++
    newline l depth ++ closing

def sortMembers (ms : List (String × String)) : List (String × String) :=
  ms.mergeSort fun a b => decide (a.1 ≤ b.1)

mutual

def write (l : Layout) (depth : Nat) : Doc → Option String
  | .null => some "null"
  | .bool b => some (if b then "true" else "false")
  | .int n => some (toString n)
  | .float x => some (Decimal.Format.json.float x)
  | .str s => some (quote s)
  | .list xs | .tuple xs => (writeItems l (depth + 1) xs).map (bracket l depth "[" "]")
  | .qual s n => some (bracket l depth "[" "]" [quote s, quote n])
  | .map es =>
    (writeMembers l (depth + 1) es).map fun ms =>
      let ms := if l.sorted then sortMembers ms else ms
      bracket l depth "\x7b" "\x7d" (ms.map fun m => quote m.1 ++ ": " ++ m.2)
  | _ => none

def writeItems (l : Layout) (depth : Nat) : List Doc → Option (List String)
  | [] => some []
  | x :: xs =>
    match write l depth x, writeItems l depth xs with
    | some x, some xs => some (x :: xs)
    | _, _ => none

def writeMembers (l : Layout) (depth : Nat) : List (Doc × Doc) → Option (List (String × String))
  | [] => some []
  | (k, v) :: es =>
    match keyText k, write l depth v, writeMembers l depth es with
    | some k, some v, some es => some ((k, v) :: es)
    | _, _, _ => none

end

/-- The JSON text of a document; `wrongKind` when it holds a value that JSON has not. -/
def text (l : Layout) (d : Doc) : Result String := (write l 0 d).elim (.error .wrongKind) .ok

end WorkflowInference.Json
