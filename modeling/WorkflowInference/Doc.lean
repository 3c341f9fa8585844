import WorkflowInference.Decimal.Shortest

/-!
Documents are the values that workflows, tools and job inputs are made of: scalars, lists, and
maps that keep the order in which their keys were first written. Two documents may be equal
without being the same tree: numbers are compared by value across kinds (`1`, `1.0` and `true`
are one number), and maps are compared without regard to order.
-/
namespace WorkflowInference

structure Clock where
  hour : Nat
  minute : Nat
  second : Nat
  micro : Nat
  offset : Option Int
  deriving DecidableEq, Repr, Inhabited

structure Stamp where
  year : Nat
  month : Nat
  day : Nat
  clock : Option Clock
  deriving DecidableEq, Repr, Inhabited

inductive Doc where
  | null
  | bool (b : Bool)
  | int (n : Int)
  | float (x : Float)
  | str (s : String)
  | bytes (bs : List UInt8)
  | date (d : Stamp)
  | path (s : String)
  | qual (stem space : String)
  | list (xs : List Doc)
  | tuple (xs : List Doc)
  | set (xs : List Doc)
  | map (es : List (Doc × Doc))
  /-- A value with an identity of its own, equal to nothing but itself. -/
  | object (kind : String) (serial : Nat)
  deriving Inhabited

abbrev Entries := List (Doc × Doc)

namespace Doc

/-- A number as `numerator / 2 ^ scale`, exactly; `none` for the infinities and not-a-number. -/
def dyadic? : Doc → Option (Int × Nat)
  | bool b => some (if b then 1 else 0, 0)
  | int n => some (n, 0)
  | float x =>
    let bits := x.toBits.toNat
    let e := bits / Decimal.pow2 52 % 2048
    let f := bits % Decimal.pow2 52
    let sign : Int := if bits / Decimal.pow2 63 = 1 then -1 else 1
    if e = 2047 then none
    else
      let m : Nat := if e = 0 then f else f + Decimal.pow2 52
      let q : Nat := if e = 0 then 1 else e
      if q ≥ 1075 then some (sign * (m * Decimal.pow2 (q - 1075) : Nat), 0)
      else some (sign * (m : Nat), 1075 - q)
  | _ => none

def numEq (a b : Doc) : Bool :=
  match a, b with
  | float x, float y => x == y
  | _, _ =>
    match dyadic? a, dyadic? b with
    | some (n, s), some (m, t) => n * Decimal.pow2 t == m * Decimal.pow2 s
    | _, _ => false

mutual

/-- Equality of documents: numbers by value, maps and sets without regard to order. -/
def eq : Doc → Doc → Bool
  | null, null => true
  | bool a, b => numEq (bool a) b
  | int a, b => numEq (int a) b
  | float a, b => numEq (float a) b
  | str a, str b => a == b
  | bytes a, bytes b => a == b
  | date a, date b => a == b
  | path a, path b => a == b
  | qual a b, qual c d => a == c && b == d
  | list a, list b => eqList a b
  | tuple a, tuple b => eqList a b
  | set a, set b => a.length == b.length && eqSubset a b
  | map a, map b => a.length == b.length && eqEntries a b
  | object k n, object l m => k == l && n == m
  | _, _ => false

def eqList : List Doc → List Doc → Bool
  | [], [] => true
  | x :: xs, y :: ys => eq x y && eqList xs ys
  | _, _ => false

def eqSubset : List Doc → List Doc → Bool
  | [], _ => true
  | x :: xs, ys => ys.any (fun y => eq x y) && eqSubset xs ys

def eqEntries : List (Doc × Doc) → List (Doc × Doc) → Bool
  | [], _ => true
  | (k, v) :: es, fs => fs.any (fun f => eq k f.1 && eq v f.2) && eqEntries es fs

end

instance : BEq Doc := ⟨eq⟩

def truthy : Doc → Bool
  | null => false
  | bool b => b
  | int n => n != 0
  | float x => x != 0.0
  | str s => !s.isEmpty
  | bytes bs => !bs.isEmpty
  | list xs | tuple xs | set xs => !xs.isEmpty
  | map es => !es.isEmpty
  | date _ | path _ | qual _ _ | object _ _ => true

def isStr : Doc → Bool
  | str _ => true
  | _ => false

def isList : Doc → Bool
  | list _ => true
  | _ => false

def isMap : Doc → Bool
  | map _ => true
  | _ => false

def isNull : Doc → Bool
  | null => true
  | _ => false

def str? : Doc → Option String
  | str s => some s
  | _ => none

def list? : Doc → Option (List Doc)
  | list xs => some xs
  | _ => none

def map? : Doc → Option Entries
  | map es => some es
  | _ => none

def fields (d : Doc) : Entries := d.map?.getD []

def items (d : Doc) : List Doc := d.list?.getD []

def hashable : Doc → Bool
  | list _ | map _ | set _ => false
  | _ => true

def strs (xs : List String) : Doc := list (xs.map str)

def obj (es : List (String × Doc)) : Doc := map (es.map fun e => (str e.1, e.2))

def emptyMap : Doc := map []

end Doc

namespace Entries

def get? (es : Entries) (k : String) : Option Doc :=
  match es with
  | [] => none
  | (.str s, v) :: es => if s = k then some v else get? es k
  | _ :: es => get? es k

def getD (es : Entries) (k : String) (d : Doc) : Doc := (get? es k).getD d

def has (es : Entries) (k : String) : Bool := (get? es k).isSome

/-- Writes at a text key: in place when the key is there, else at the end. -/
def put (es : Entries) (k : String) (v : Doc) : Entries :=
  match es with
  | [] => [(.str k, v)]
  | (.str s, w) :: es => if s = k then (.str s, v) :: es else (.str s, w) :: put es k v
  | e :: es => e :: put es k v

def remove (es : Entries) (k : String) : Entries :=
  match es with
  | [] => []
  | (.str s, w) :: es => if s = k then es else (.str s, w) :: remove es k
  | e :: es => e :: remove es k

def at? (es : Entries) (k : Doc) : Option Doc :=
  match es with
  | [] => none
  | (l, v) :: es => if Doc.eq l k then some v else at? es k

/-- Writes at any key: in place when an equal key is there, else at the end. -/
def write (es : Entries) (k v : Doc) : Entries :=
  match es with
  | [] => [(k, v)]
  | (l, w) :: es => if Doc.eq l k then (l, v) :: es else (l, w) :: write es k v

def update (es fs : Entries) : Entries := fs.foldl (fun es f => Entries.write es f.1 f.2) es

def ofPairs (ps : List (Doc × Doc)) : Entries := update [] ps

def keys (es : Entries) : List Doc := es.map (·.1)

def values (es : Entries) : List Doc := es.map (·.2)

def names (es : Entries) : List String := es.filterMap fun e => e.1.str?

end Entries

end WorkflowInference

namespace WorkflowInference.Keyed

variable {α : Type}

def put (es : List (String × α)) (k : String) (v : α) : List (String × α) :=
  match es with
  | [] => [(k, v)]
  | (l, w) :: es => if l = k then (l, v) :: es else (l, w) :: put es k v

def update (es fs : List (String × α)) : List (String × α) :=
  fs.foldl (fun es f => put es f.1 f.2) es

def has (es : List (String × α)) (k : String) : Bool := (es.lookup k).isSome

def keys (es : List (String × α)) : List String := es.map (·.1)

end WorkflowInference.Keyed
