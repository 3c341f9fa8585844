/-!
The shortest decimal that reads back as a given binary number. A positive double is `m * 2 ^ q`; the
reals that round to it form an interval around it, closed when `m` is even. The digits chosen are
the fewest whose decimal lies in that interval, and of those the nearest. They are written
positionally while the exponent of the first digit is at least `-4` and less than `16`.
-/
namespace WorkflowInference.Decimal

def pow2 (n : Nat) : Nat := Nat.pow 2 n

def pow10 (n : Nat) : Nat := Nat.pow 10 n

/-- A positive binary number `m * 2 ^ q`; `narrow` when the gap below it is half the gap above. -/
structure Binary where
  m : Nat
  q : Int
  narrow : Bool
  deriving DecidableEq, Repr

def Binary.ofFloat (x : Float) : Binary :=
  let bits := x.toBits.toNat
  let e : Nat := bits / pow2 52 % 2048
  let f : Nat := bits % pow2 52
  if e = 0 then ⟨f, -1074, false⟩ else ⟨f + pow2 52, (e : Int) - 1075, f = 0 && e > 1⟩

/-- The digits `d` and the exponent `k` of the decimal `d * 10 ^ k`. -/
structure Digits where
  d : Nat
  k : Int
  deriving DecidableEq, Repr

def compareScaled (a : Nat) (p : Int) (b : Nat) (k : Int) : Ordering :=
  compare (a * pow2 p.toNat * pow10 (-k).toNat) (b * pow10 k.toNat * pow2 (-p).toNat)

def Binary.reads (v : Binary) (c : Nat) (k : Int) : Bool :=
  let lo := compareScaled (4 * v.m - (if v.narrow then 1 else 2)) (v.q - 2) c k
  let hi := compareScaled (4 * v.m + 2) (v.q - 2) c k
  let closed := v.m % 2 = 0
  (lo = .lt || (closed && lo = .eq)) && (hi = .gt || (closed && hi = .eq))

def Binary.floorAt (v : Binary) (k : Int) : Nat :=
  (v.m * pow2 v.q.toNat * pow10 (-k).toNat) / (pow10 k.toNat * pow2 (-v.q).toNat)

/-- Whether the number lies nearer to `c` than to `c + 1` on the grid of `10 ^ k`, a tie going to
the even one. -/
def Binary.nearerBelow (v : Binary) (c : Nat) (k : Int) : Bool :=
  match compareScaled (2 * v.m) v.q (2 * c + 1) k with
  | .lt => true
  | .gt => false
  | .eq => c % 2 = 0

def Binary.onGrid (v : Binary) (k : Int) : Option Digits :=
  let c := v.floorAt k
  match v.reads c k, v.reads (c + 1) k with
  | true, true => some ⟨if v.nearerBelow c k then c else c + 1, k⟩
  | true, false => some ⟨c, k⟩
  | false, true => some ⟨c + 1, k⟩
  | false, false => none

def Binary.decimalExponent (v : Binary) : Int :=
  let guess : Int := ((Nat.log2 v.m : Int) + v.q) * 30103 / 100000
  if v.floorAt (guess + 1) ≥ 1 then guess + 1
  else if v.floorAt guess ≥ 1 then guess
  else guess - 1

def Binary.search (v : Binary) (p : Int) (n : Nat) : Nat → Digits
  | 0 => ⟨v.floorAt (p - n + 1), p - n + 1⟩
  | more + 1 => (v.onGrid (p - n + 1)).getD (v.search p (n + 1) more)

def Digits.trim (x : Digits) : Nat → Digits
  | 0 => x
  | n + 1 => if x.d % 10 = 0 && x.d != 0 then Digits.trim ⟨x.d / 10, x.k + 1⟩ n else x

def Binary.shortest (v : Binary) : Digits :=
  (v.search v.decimalExponent 1 17).trim 400

structure Format where
  least : Int
  most : Int
  nan : String
  infinity : String

def Format.plain : Format := ⟨-4, 16, "nan", "inf"⟩

def Format.json : Format := ⟨-4, 16, "NaN", "Infinity"⟩

def padLeft (n : Nat) (s : String) : String :=
  String.ofList (List.replicate (n - s.length) '0') ++ s

def Format.render (f : Format) (x : Digits) : String :=
  let ds := toString x.d
  let p := x.k + (ds.length : Int) - 1
  if p < f.least || p ≥ f.most then
    let head := (ds.take 1).toString
    let tail := (ds.drop 1).toString
    let sign := if p < 0 then "-" else "+"
    (if tail.isEmpty then head else head ++ "." ++ tail) ++ "e" ++ sign ++
      padLeft 2 (toString p.natAbs)
  else if p < 0 then
    "0." ++ String.ofList (List.replicate (p.natAbs - 1) '0') ++ ds
  else if x.k ≥ 0 then
    ds ++ String.ofList (List.replicate x.k.toNat '0') ++ ".0"
  else
    (ds.take (p.toNat + 1)).toString ++ "." ++ (ds.drop (p.toNat + 1)).toString

def Format.float (f : Format) (x : Float) : String :=
  let sign := if x.toBits.toNat / pow2 63 = 1 then "-" else ""
  if x.isNaN then f.nan
  else if x.isInf then sign ++ f.infinity
  else if x == 0.0 then sign ++ "0.0"
  else sign ++ f.render (Binary.ofFloat x).shortest

end WorkflowInference.Decimal
