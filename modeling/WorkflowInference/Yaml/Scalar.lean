import WorkflowInference.Decimal.Reading

/-!
Scalars: which kind of value the text of an unquoted scalar stands for, and the value itself.
-/
namespace WorkflowInference.Yaml

inductive Kind where
  | bool
  | int
  | float
  | merge
  | null
  | timestamp
  | value
  | special
  | str
  deriving DecidableEq, Repr

def isOctal (c : Char) : Bool := '0' ≤ c && c ≤ '7'

def isHex (c : Char) : Bool := (Json.hexVal? c).isSome

def orUnderscore (p : Char → Bool) (c : Char) : Bool := p c || c = '_'

def unsign : List Char → List Char
  | '-' :: cs => cs
  | '+' :: cs => cs
  | cs => cs

def sixties : Nat → List Char → Option (List Char)
  | n + 1, ':' :: a :: cs => do
    if !a.isDigit then none
    let r := if a ≤ '5' && cs.head?.any Char.isDigit then cs.tail else cs
    if r.head? = some ':' then sixties n r else some r
  | _, _ => none

def looksInt (cs : List Char) : Bool :=
  let u := unsign cs
  match u with
  | '0' :: 'b' :: r => !r.isEmpty && r.all (orUnderscore fun c => c = '0' || c = '1')
  | '0' :: 'x' :: r => !r.isEmpty && r.all (orUnderscore isHex)
  | ['0'] => true
  | '0' :: r => r.all (orUnderscore isOctal)
  | c :: r =>
    ('1' ≤ c && c ≤ '9') &&
      (r.all (orUnderscore Char.isDigit) ||
        (sixties (r.length + 1) (r.dropWhile (orUnderscore Char.isDigit)) == some []))
  | [] => false

def exponentEnd : List Char → Bool
  | [] => true
  | e :: s :: ds =>
    (e = 'e' || e = 'E') && (s = '-' || s = '+') && !ds.isEmpty && ds.all Char.isDigit
  | _ => false

def looksFloat (cs : List Char) : Bool :=
  let u := unsign cs
  let positional (cs : List Char) : Bool :=
    match cs with
    | c :: r =>
      c.isDigit &&
        match r.dropWhile (orUnderscore Char.isDigit) with
        | '.' :: r => exponentEnd (r.dropWhile (orUnderscore Char.isDigit))
        | r =>
          match sixties (r.length + 1) r with
          | some ('.' :: r) => r.all (orUnderscore Char.isDigit)
          | _ => false
    | [] => false
  let fraction : Bool :=
    match cs with
    | '.' :: d :: r => d.isDigit && exponentEnd (r.dropWhile (orUnderscore Char.isDigit))
    | _ => false
  let word : Bool :=
    [".inf", ".Inf", ".INF"].contains (String.ofList u) || [".nan", ".NaN", ".NAN"].contains
      (String.ofList cs)
  positional u || fraction || word

def takeDigits (least most : Nat) (cs : List Char) : Option (Nat × List Char) :=
  let ds := (cs.take most).takeWhile Char.isDigit
  if ds.length < least then none else some (Json.digitsVal ds, cs.drop ds.length)

def takeChar (c : Char) : List Char → Option (List Char)
  | d :: cs => if c = d then some cs else none
  | [] => none

def isTabOrSpace (c : Char) : Bool := c = ' ' || c = '\t'

def zone? (cs : List Char) : Option (Option Int) :=
  match cs.dropWhile isTabOrSpace with
  | [] => if cs.isEmpty then some none else none
  | ['Z'] => some (some 0)
  | s :: r => do
    if s != '-' && s != '+' then none
    let (h, r) ← takeDigits 1 2 r
    let (m, []) ← if r.isEmpty then some (0, []) else takeDigits 2 2 (← takeChar ':' r) | none
    some (some ((if s = '-' then -1 else 1) * (h * 60 + m : Nat)))

def micros (ds : List Char) : Nat :=
  let ds := ds.take 6
  Json.digitsVal (ds ++ List.replicate (6 - ds.length) '0')

def stamp? (cs : List Char) : Option Stamp := do
  let (y, r) ← takeDigits 4 4 cs
  let r ← takeChar '-' r
  let full := do
    let (m, r) ← takeDigits 2 2 r
    let r ← takeChar '-' r
    let (d, r) ← takeDigits 2 2 r
    if r.isEmpty then some (⟨y, m, d, none⟩ : Stamp) else none
  match full with
  | some d => some d
  | none => do
    let (m, r) ← takeDigits 1 2 r
    let r ← takeChar '-' r
    let (d, r) ← takeDigits 1 2 r
    let r ←
      match r with
      | 'T' :: r | 't' :: r => some r
      | c :: r => if isTabOrSpace c then some (r.dropWhile isTabOrSpace) else none
      | [] => none
    let (h, r) ← takeDigits 1 2 r
    let r ← takeChar ':' r
    let (mi, r) ← takeDigits 2 2 r
    let r ← takeChar ':' r
    let (s, r) ← takeDigits 2 2 r
    let (us, r) :=
      match r with
      | '.' :: r => (micros (r.takeWhile Char.isDigit), r.dropWhile Char.isDigit)
      | r => (0, r)
    let z ← zone? r
    some ⟨y, m, d, some ⟨h, mi, s, us, z⟩⟩

def boolWords : List (String × Bool) :=
  [("yes", true), ("no", false), ("true", true), ("false", false), ("on", true), ("off", false)]

def casings (w : String) : List String := [w, w.capitalize, w.toUpper]

def kindOf (text : String) : Kind :=
  let cs := text.toList
  if text = "" || ["~", "null", "Null", "NULL"].contains text then .null
  else if boolWords.any fun w => (casings w.1).contains text then .bool
  else if text = "<<" then .merge
  else if text = "=" then .value
  else if ["!", "&", "*"].contains text then .special
  else if looksFloat cs then .float
  else if looksInt cs then .int
  else if (stamp? cs).isSome then .timestamp
  else .str

def boolOf (text : String) : Result Doc :=
  (boolWords.lookup text.toLower).elim (.error .missingKey) fun b => .ok (.bool b)

def natOf (base : Nat) (cs : List Char) : Option Nat :=
  if cs.isEmpty then none
  else cs.foldlM (fun n c => (Json.hexVal? c).bind fun v =>
    if v < base then some (n * base + v) else none) 0

def octalOf : List Char → Option Nat
  | '0' :: 'o' :: r | '0' :: 'O' :: r => natOf 8 r
  | r => natOf 8 r

def sexagesimal (parts : List String) : Option Int :=
  parts.foldlM (fun n p => (Text.int? p).map (n * 60 + ·)) 0

/-- A whole number: binary after `0b`, hexadecimal after `0x`, octal after any other zero, and in
parts to the base sixty between colons. -/
def intOf (text : String) : Result Doc :=
  let cs := text.toList.filter (· != '_')
  let sign : Int := if cs.head? = some '-' then -1 else 1
  let u := unsign cs
  let n : Option Int :=
    match u with
    | ['0'] => some 0
    | '0' :: 'b' :: r => (natOf 2 r).map Int.ofNat
    | '0' :: 'x' :: r => (natOf 16 r).map Int.ofNat
    | '0' :: _ => (octalOf u).map Int.ofNat
    | r =>
      if r.contains ':' then sexagesimal (Text.splitOn ":" (String.ofList r))
        else Text.int? (String.ofList r)
  if u.isEmpty then .error .outOfRange
  else n.elim (.error .badValue) fun n => .ok (.int (sign * n))

def sixtiesSum : List Float → Float → Float → Float
  | [], _, sum => sum
  | x :: xs, base, sum => sixtiesSum xs (base * 60.0) (sum + x * base)

def floatOf (text : String) : Result Doc :=
  let cs := text.toLower.toList.filter (· != '_')
  let neg := cs.head? = some '-'
  let u := unsign cs
  let x : Option Float :=
    match String.ofList u with
    | ".inf" => some (1.0 / 0.0)
    | ".nan" => some (0.0 / 0.0)
    | s =>
      if u.contains ':' then
        ((Text.splitOn ":" s).mapM Decimal.read?).map fun xs => sixtiesSum xs.reverse 1.0 0.0
      else Decimal.read? s
  if cs.isEmpty then .error .outOfRange
  else x.elim (.error .badValue) fun x => .ok (.float (if neg then -x else x))

def isLeap (y : Nat) : Bool := (y % 4 = 0 && y % 100 != 0) || y % 400 = 0

def daysIn (y m : Nat) : Nat :=
  if m = 2 then (if isLeap y then 29 else 28)
  else if [4, 6, 9, 11].contains m then 30
  else 31

def stampOf (text : String) : Result Doc :=
  match stamp? text.toList with
  | none => .error .noPart
  | some d =>
    let dayOk :=
      1 ≤ d.year && 1 ≤ d.month && d.month ≤ 12 && 1 ≤ d.day && d.day ≤ daysIn d.year d.month
    let clockOk :=
      match d.clock with
      | none => true
      | some c =>
        c.hour < 24 && c.minute < 60 && c.second < 60 &&
          c.offset.elim true (fun m => m.natAbs < 24 * 60)
    if dayOk && clockOk then .ok (.date d) else .error .badValue

def base64Val? (c : Char) : Option Nat :=
  "ABCDEFGHIJKLMNOPQRSTUVWXYZabcdefghijklmnopqrstuvwxyz0123456789+/".toList.idxOf? c

/-- The bytes of base 64 characters, read from the left: `place` counts the characters of the group
so far, `left` holds their last bits, and `pads` the padding since the last of them. Other
characters are passed over; padding that completes a group ends the reading. -/
def base64Go : Nat → Nat → Nat → List Char → Option (List UInt8)
  | place, _, _, [] => if place = 0 then some [] else none
  | place, left, pads, c :: cs =>
    if c = '=' then
      if place ≥ 2 && place + pads + 1 ≥ 4 then some []
        else base64Go place left (if place ≥ 2 then pads + 1 else pads) cs
    else
      match base64Val? c with
      | none => base64Go place left pads cs
      | some v =>
        match place with
        | 0 => base64Go 1 v 0 cs
        | 1 => (base64Go 2 (v % 16) 0 cs).map (UInt8.ofNat (left * 4 + v / 16) :: ·)
        | 2 => (base64Go 3 (v % 4) 0 cs).map (UInt8.ofNat (left * 16 + v / 4) :: ·)
        | _ => (base64Go 0 0 0 cs).map (UInt8.ofNat (left * 64 + v) :: ·)

def bytesOf (text : String) : Result Doc :=
  let cs := text.toList
  if cs.any fun c => c.toNat ≥ 128 then .error .badYaml
  else (base64Go 0 0 0 cs).elim (.error .badYaml) fun bs => .ok (.bytes bs)

end WorkflowInference.Yaml
