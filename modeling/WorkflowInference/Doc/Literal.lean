import WorkflowInference.Doc
import WorkflowInference.Text.Script

/-!
The text of a document inside a message: strings are quoted when they stand inside another
document and bare when they stand alone. Quotes are single, unless the text holds a single quote and
no double one; what cannot be shown is written as an escape.
-/
namespace WorkflowInference.Text

def hex (width n : Nat) : String :=
  Decimal.padLeft width (String.ofList (Nat.toDigits 16 n))

def escapeChar (shown : Char → Bool) (quote c : Char) : String :=
  if c = quote || c = '\\' then String.ofList ['\\', c]
  else if c = '\n' then "\\n"
  else if c = '\r' then "\\r"
  else if c = '\t' then "\\t"
  else if shown c then c.toString
  else if c.toNat < 0x100 then "\\x" ++ hex 2 c.toNat
  else if c.toNat < 0x10000 then "\\u" ++ hex 4 c.toNat
  else "\\U" ++ hex 8 c.toNat

def quoteMark (s : String) : Char :=
  if s.contains '\'' && !s.contains '"' then '"' else '\''

def quotedBy (shown : Char → Bool) (s : String) : String :=
  let q := quoteMark s
  String.join (q.toString :: s.toList.map (escapeChar shown q)) ++ q.toString

def quoted (s : String) : String := quotedBy isPrintable s

def quotedBytes (bs : List UInt8) : String :=
  "b" ++ quotedBy (fun c => 0x20 ≤ c.toNat && c.toNat < 0x7f)
    (String.ofList (bs.map fun b => Char.ofNat b.toNat))

end WorkflowInference.Text

namespace WorkflowInference

namespace Stamp

def two (n : Nat) : String := Decimal.padLeft 2 (toString n)

def dayText (d : Stamp) : String :=
  Decimal.padLeft 4 (toString d.year) ++ "-" ++ two d.month ++ "-" ++ two d.day

def offsetText (m : Int) : String :=
  (if m < 0 then "-" else "+") ++ two (m.natAbs / 60) ++ ":" ++ two (m.natAbs % 60)

def clockText (c : Clock) : String :=
  two c.hour ++ ":" ++ two c.minute ++ ":" ++ two c.second ++
    (if c.micro = 0 then "" else "." ++ Decimal.padLeft 6 (toString c.micro)) ++
    (c.offset.map offsetText).getD ""

def text (mark : String) (d : Stamp) : String :=
  match d.clock with
  | none => d.dayText
  | some c => d.dayText ++ mark ++ clockText c

def iso (d : Stamp) : String := d.text "T"

def literal (d : Stamp) : String :=
  let day := toString d.year ++ ", " ++ toString d.month ++ ", " ++ toString d.day
  match d.clock with
  | none => "datetime.date(" ++ day ++ ")"
  | some c =>
    let tail :=
      if c.micro != 0 then ", " ++ toString c.second ++ ", " ++ toString c.micro
      else if c.second != 0 then ", " ++ toString c.second
      else ""
    let zone :=
      match c.offset with
      | none => ""
      | some 0 => ", tzinfo=datetime.timezone.utc"
      | some m =>
        let days := if m < 0 then "days=-1, " else ""
        let secs := if m < 0 then 86400 + m * 60 else m * 60
        ", tzinfo=datetime.timezone(datetime.timedelta(" ++ days ++ "seconds=" ++
          toString secs ++ "))"
    "datetime.datetime(" ++ day ++ ", " ++ toString c.hour ++ ", " ++ toString c.minute ++
      tail ++ zone ++ ")"

end Stamp

namespace Doc

mutual

def literal : Doc → String
  | null => "None"
  | bool b => if b then "True" else "False"
  | int n => toString n
  | float x => Decimal.Format.plain.float x
  | str s => Text.quoted s
  | bytes bs => Text.quotedBytes bs
  | date d => d.literal
  | path s => "PosixPath(" ++ Text.quoted s ++ ")"
  | qual s n => "StepId(stem=" ++ Text.quoted s ++ ", plugin_ns=" ++ Text.quoted n ++ ")"
  | list xs => "[" ++ String.intercalate ", " (literals xs) ++ "]"
  | tuple xs =>
    match literals xs with
    | [x] => "(" ++ x ++ ",)"
    | ys => "(" ++ String.intercalate ", " ys ++ ")"
  | set xs =>
    if xs.isEmpty then "set()" else "\x7b" ++ String.intercalate ", " (literals xs) ++ "\x7d"
  | map es => "\x7b" ++ String.intercalate ", " (entryLiterals es) ++ "\x7d"
  | object k _ => "<" ++ k ++ ">"

def literals : List Doc → List String
  | [] => []
  | x :: xs => literal x :: literals xs

def entryLiterals : List (Doc × Doc) → List String
  | [] => []
  | (k, v) :: es => (literal k ++ ": " ++ literal v) :: entryLiterals es

end

def text : Doc → String
  | str s => s
  | path s => s
  | date d => d.text " "
  | d => d.literal

end Doc

def literalStrs (xs : List String) : String := (Doc.strs xs).literal

end WorkflowInference
