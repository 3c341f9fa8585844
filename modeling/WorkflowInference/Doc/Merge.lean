import WorkflowInference.Failure

/-!
Searching a whole document for a key, removing it everywhere, and merging one map over another: maps
are merged entry by entry; any other value replaces the one that is there, and must be of the same
kind.
-/
namespace WorkflowInference.Doc

mutual

def purge (k : Doc) : Doc → Doc
  | list xs => list (purgeItems k xs)
  | map es => map (purgeEntries k es)
  | d => d

def purgeItems (k : Doc) : List Doc → List Doc
  | [] => []
  | x :: xs => purge k x :: purgeItems k xs

def purgeEntries (k : Doc) : List (Doc × Doc) → List (Doc × Doc)
  | [] => []
  | (l, v) :: es => if eq l k then purgeEntries k es else (l, purge k v) :: purgeEntries k es

end

mutual

def mentions (k : Doc) : Doc → Bool
  | list xs => mentionsItem k xs
  | map es => mentionsEntry k es
  | _ => false

def mentionsItem (k : Doc) : List Doc → Bool
  | [] => false
  | x :: xs => mentions k x || mentionsItem k xs

def mentionsEntry (k : Doc) : List (Doc × Doc) → Bool
  | [] => false
  | (l, v) :: es => eq l k || mentions k v || mentionsEntry k es

end

mutual

def depth : Doc → Nat
  | list xs | tuple xs | set xs => depthItems xs + 1
  | map es => depthEntries es + 1
  | _ => 0

def depthItems : List Doc → Nat
  | [] => 0
  | x :: xs => max (depth x) (depthItems xs)

def depthEntries : List (Doc × Doc) → Nat
  | [] => 0
  | (_, v) :: es => max (depth v) (depthEntries es)

end

mutual

def size : Doc → Nat
  | list xs | tuple xs | set xs => sizeItems xs + 1
  | map es => sizeEntries es + 1
  | _ => 1

def sizeItems : List Doc → Nat
  | [] => 0
  | x :: xs => size x + sizeItems xs

def sizeEntries : List (Doc × Doc) → Nat
  | [] => 0
  | (k, v) :: es => size k + size v + sizeEntries es

end

def sameKind : Doc → Doc → Bool
  | null, null | bool _, bool _ | int _, int _ | float _, float _ | str _, str _ | bytes _, bytes _
  | path _, path _ | qual _ _, qual _ _ | list _, list _ | tuple _, tuple _ | set _, set _
  | map _, map _ => true
  | date a, date b => a.clock.isSome == b.clock.isSome
  | object k _, object l _ => k == l
  | _, _ => false

mutual

def mergeEntries (dst : Entries) : List (Doc × Doc) → Result Entries
  | [] => .ok dst
  | (k, v) :: es =>
    match Entries.at? dst k with
    | none => mergeEntries (Entries.write dst k v) es
    | some old =>
      match mergeValue old v with
      | .error e => .error e
      | .ok new => mergeEntries (Entries.write dst k new) es

def mergeValue (old : Doc) : Doc → Result Doc
  | map es =>
    match old with
    | map ds =>
      match mergeEntries ds es with
      | .error e => .error e
      | .ok r => .ok (map r)
    | _ => .error .wrongKind
  | v => if sameKind old v then .ok v else .error .wrongKind

end

def merge (dst src : Doc) : Result Doc :=
  match dst, src with
  | map ds, map es => (mergeEntries ds es).map map
  | d, list xs | d, tuple xs => if xs.isEmpty then .ok d else .error .wrongKind
  | d, str s => if s.isEmpty then .ok d else .error .wrongKind
  | d, map [] => .ok d
  | _, _ => .error .wrongKind

end WorkflowInference.Doc
