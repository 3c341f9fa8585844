import WorkflowInference.Session
import WorkflowInference.Yaml.Writer

/-!
Sessions written down as documents: the files that are there, what programs and servers will
answer, and what was asked of them.
-/
namespace WorkflowInference

open Entries

def fileText : Doc → String
  | .str s => s
  | d => ((Yaml.write d).toOption).getD ""

def filesOf (d : Doc) : List (String × String) := d.fields.map fun e => (e.1.text, fileText e.2)

def Files.put (fs : Files) (files : List (String × String)) : Files :=
  files.foldl (fun fs f => fs.write f.1 f.2) fs

def numberOr (dflt : Int) : Option Doc → Int
  | some (.int n) => n
  | _ => dflt

namespace Outcome

def stream : Option Doc → Option String
  | none => some ""
  | some d => d.str?

def ofDoc (d : Doc) : Outcome :=
  let es := d.fields
  if (getD es "missing" .null).truthy then .missing
  else
    match get? es "raise" with
    | some m => .broken m.text
    | none =>
      .ended (numberOr 0 (get? es "returncode")) (((get? es "output").bind Doc.str?).getD "")
        (stream (get? es "stdout")) (stream (get? es "stderr"))
        (filesOf (getD es "writes" .null))

end Outcome

def Response.ofDoc (d : Doc) : Response :=
  let es := d.fields
  ⟨(getD es "ok" (.bool true)).truthy, numberOr 200 (get? es "status_code"), get? es "body",
    ((get? es "text").bind Doc.str?).getD ""⟩

def textsOf (d : Doc) : List String := d.items.filterMap Doc.str?

def Image.ofDoc (d : Doc) : Image :=
  let es := d.fields
  ⟨textsOf (getD es "repo_tags" .null), textsOf (getD es "tags" .null)⟩

def Build.doc (b : Build) : Doc := Doc.strs [b.tag, b.recipe, b.text]

def Started.doc (s : Started) : Doc :=
  let env := Doc.obj (s.env.map fun e => (e.1, (e.2.map Doc.str).getD .null))
  Doc.obj (("cmd", s.command) :: if s.env.isEmpty then [] else [("env", env)])

namespace Session

def ofDoc (ground : Session) (d : Doc) : Session :=
  let es := d.fields
  let part (k : String) : Doc := getD es k .null
  let items (k : String) : List Doc := (part k).items
  { ground with
    files := ground.files.put (filesOf (part "files"))
    watched := (part "env").fields.map (·.1.text)
    outcomes := (items "runs").map Outcome.ofDoc
    responses := (items "responses").map Response.ofDoc
    programs := textsOf (part "which")
    images := (get? es "images").map fun i => i.items.map Image.ofDoc }

end Session

end WorkflowInference
