import WorkflowInference.Json

/-!
Reading numbers with a point or an exponent. Blanks around the number, a sign, and single
underscores between digits are allowed; the infinities and not-a-number are read by their names.
-/
namespace WorkflowInference.Decimal

def plainDigits : Bool → List Char → List Char × List Char
  | _, [] => ([], [])
  | after, c :: cs =>
    if c = '_' then
      match cs with
      | d :: _ =>
        if after && (Text.digitVal? d).isSome then plainDigits false cs else ([], c :: cs)
      | [] => ([], [c])
    else
      match Text.digitVal? c with
      | some n =>
        let (ds, rest) := plainDigits true cs
        (Char.ofNat (48 + n) :: ds, rest)
      | none => ([], c :: cs)

def exponent? (cs : List Char) : Option Int :=
  match cs with
  | [] => some 0
  | e :: cs =>
    if e = 'e' || e = 'E' then
      let (neg, cs) := Json.sign cs
      match plainDigits false cs with
      | (d :: ds, []) =>
        let n : Int := Json.digitsVal (d :: ds)
        some (if neg then -n else n)
      | _ => none
    else none

def unsigned? (neg : Bool) (cs : List Char) : Option Float :=
  let word := (String.ofList cs).toLower
  let inf : Float := 1.0 / 0.0
  if word = "inf" || word = "infinity" then some (if neg then -inf else inf)
  else if word = "nan" then some (0.0 / 0.0)
  else
    let (whole, rest) := plainDigits false cs
    let (frac, rest) : List Char × List Char :=
      match rest with
      | '.' :: r => plainDigits false r
      | r => ([], r)
    if whole.isEmpty && frac.isEmpty then none
    else (exponent? rest).map fun e => Json.toFloat neg whole frac e

def read? (s : String) : Option Float :=
  let (neg, cs) := Json.sign (Text.trim s).toList
  unsigned? neg cs

end WorkflowInference.Decimal
