import WorkflowInference.Text.Basic

/-!
Addresses of services: a scheme, and a host after two slashes. A numeric host has eight groups of
hexadecimal digits parted by colons; a run of groups that are zero may be left out once, the last
two groups may be written as four decimal numbers, and a zone may follow a percent sign.
-/
namespace WorkflowInference.Text

def isHex (c : Char) : Bool := c.isDigit || ('a' ≤ c && c ≤ 'f') || ('A' ≤ c && c ≤ 'F')

def isHexGroup (s : String) : Bool := s != "" && s.length ≤ 4 && s.toList.all isHex

def isByte (s : String) : Bool :=
  let cs := s.toList
  cs != [] && cs.length ≤ 3 && cs.all Char.isDigit && (s = "0" || cs.head? != some '0') &&
    cs.foldl (fun n c => n * 10 + (c.toNat - 48)) 0 ≤ 255

def isDotted (s : String) : Bool :=
  let bytes := splitOn "." s
  bytes.length = 4 && bytes.all isByte

def gaps (groups : List String) : List Nat :=
  (List.range groups.length).filter fun i => 0 < i && i + 1 < groups.length && groups[i]? = some ""

/-- Whether the groups on both sides of a gap leave room for it. An address that starts or ends
with the gap has an empty group there. -/
def fitsAround (groups : List String) (gap : Nat) : Bool :=
  let high := groups.take gap
  let low := groups.drop (gap + 1)
  let high := if high = [""] then [] else high
  let low := if low = [""] then [] else low
  high.all isHexGroup && low.all isHexGroup && high.length + low.length ≤ 7

def isGrouped (groups : List String) : Bool :=
  match gaps groups with
  | [] => groups.length = 8 && groups.all isHexGroup
  | [gap] => groups.length ≤ 9 && fitsAround groups gap
  | _ => false

def isNumericAddress (s : String) : Bool :=
  let address := (cut? "%" s).elim s (·.1)
  let zone := (cut? "%" s).map (·.2)
  let groups := splitOn ":" address
  let last := groups.getLastD ""
  let whole := if contains last "." then groups.dropLast ++ ["0", "0"] else groups
  groups.length ≥ 3 && (!contains last "." || isDotted last) && isGrouped whole &&
    zone.elim true (fun z => z != "" && !contains z "%")

/-- Whether a text may stand in brackets as a host: a numeric address, or `v`, a version, a point
and an address of that version. -/
def isBracketed (s : String) : Bool :=
  match s.toList with
  | 'v' :: cs =>
    let version := cs.takeWhile isHex
    match cs.drop version.length with
    | '.' :: c :: more => version != [] && (c :: more).all (· != '\n')
    | _ => false
  | _ => isNumericAddress s

def isSchemeChar (c : Char) : Bool := c.isAlphanum || c = '+' || c = '-' || c = '.'

def disguisedSigns : List Nat := [
  0x2047, 0x2048, 0x2049, 0x2100, 0x2101, 0x2105, 0x2106, 0x2a74, 0xfe13, 0xfe16, 0xfe55, 0xfe56,
  0xfe5f, 0xfe6b, 0xff03, 0xff0f, 0xff1a, 0xff1f, 0xff20]

/-- Whether a host part can be accepted: its brackets match and hold a numeric address, and no
character stands for a sign that parts an address. -/
def isHostPart (host : List Char) : Bool :=
  let inside := ((host.dropWhile (· != '[')).drop 1).takeWhile (· != ']')
  (host.contains '[' == host.contains ']') &&
    (!host.contains '[' || isBracketed (String.ofList inside)) &&
    host.all fun c => !disguisedSigns.contains c.toNat

def urlParts (url : String) : Option (String × String) :=
  let cs := (url.toList.dropWhile fun c => c.toNat ≤ 0x20).filter fun c =>
    !(c = '\t' || c = '\r' || c = '\n')
  let head := cs.takeWhile (· != ':')
  let hasScheme :=
    head.length < cs.length && head.head?.elim false Char.isAlpha && head.all isSchemeChar
  let scheme := if hasScheme then (String.ofList head).toLower else ""
  let rest := if hasScheme then cs.drop (head.length + 1) else cs
  match rest with
  | '/' :: '/' :: rest =>
    let host := rest.takeWhile fun c => !(c = '/' || c = '?' || c = '#')
    if isHostPart host then some (scheme, String.ofList host) else none
  | _ => some (scheme, "")

def isWebUrl (url : String) : Bool :=
  match urlParts url with
  | some (scheme, host) => host != "" && (scheme = "http" || scheme = "https")
  | none => false

end WorkflowInference.Text
