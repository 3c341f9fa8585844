import WorkflowInference.Assembly.Error
import WorkflowInference.Assembly.Slot
import WorkflowInference.Registry
import WorkflowInference.Session

/-!
Processes that are being put together: steps that run a tool and workflows made of other processes.
A process is known by its number. The children of a workflow are there before it, so they have
smaller numbers. An input takes a value, an output of a step, or an input of the workflow around it;
an output of a workflow comes from a step in it or from one of its inputs. Types that are not known
yet are taken over from the other side.
-/
namespace WorkflowInference.Assembly

structure StepPart where
  path : String
  tool : Doc
  version : Doc := .null
  config : Entries := []
  registry : Registry := []
  scatter : List String := []
  scatterMethod : Doc := .str ""
  condition : Doc := .str ""

inductive Content where
  | step (part : StepPart)
  | workflow (children : List Nat)

structure Process where
  name : String
  inputs : List (String × Input) := []
  outputs : List (String × Output) := []
  content : Content

def Process.isStep (p : Process) : Bool :=
  match p.content with
  | .step _ => true
  | .workflow _ => false

structure Scene where
  session : Session
  processes : List Process := []
  serial : Nat := 0

/-- Computations on a scene. A failure keeps what was done before it. -/
abbrev Assemble := ExceptT Failure (StateM Scene)

namespace Assemble

def lift {α : Type} (r : Result α) : Assemble α :=
  match r with
  | .ok a => pure a
  | .error e => throw e

instance : MonadLift Result Assemble := ⟨lift⟩

def ofAct {α : Type} (x : Act α) : Assemble α := fun s =>
  match Act.outcome x s.session with
  | (r, t) => (r, { s with session := t })

def outcome {α : Type} (x : Assemble α) (s : Scene) : Result α × Scene := (ExceptT.run x).run s

def fail {α : Type} (e : Error) : Assemble α := throw e.failure

def warn (text : String) : Assemble Unit := ofAct (Act.ofLogged (Logged.warn text))

def files : Assemble Files := do return (← get).session.files

def process (i : Nat) : Assemble Process := do
  match (← get).processes[i]? with
  | some p => return p
  | none => throw .missingKey

def setProcess (i : Nat) (p : Process) : Assemble Unit :=
  modify fun s => { s with processes := s.processes.set i p }

def addProcess (p : Process) : Assemble Nat := do
  let n := (← get).processes.length
  modify fun s => { s with processes := s.processes ++ [p] }
  return n

def input (i : Nat) (key : String) : Assemble Input := do
  let p ← process i
  match p.inputs.lookup key with
  | some x => return x
  | none => fail (.noSlot p.name "input" key)

def output (i : Nat) (key : String) : Assemble Output := do
  let p ← process i
  match p.outputs.lookup key with
  | some x => return x
  | none => fail (.noSlot p.name "output" key)

def setInput (i : Nat) (key : String) (x : Input) : Assemble Unit := do
  let p ← process i
  setProcess i { p with inputs := Keyed.put p.inputs key x }

def setOutput (i : Nat) (key : String) (x : Output) : Assemble Unit := do
  let p ← process i
  setProcess i { p with outputs := Keyed.put p.outputs key x }

end Assemble

inductive Given where
  | literal (d : Doc)
  | output (r : OutputRef)
  | input (owner : Nat) (key : String)
  /-- An input of a workflow, by name; `implicit` when it was not asked for as an input. -/
  | reference (workflow : Nat) (name : String) (implicit : Bool)

namespace Assemble

def resolve (f : Facts) (candidate : Doc) (context : String) : Result Facts :=
  if candidate.isNull then .ok f
  else if f.type.isNull then f.setType candidate
  else if linkable f.type candidate then .ok f
  else .error (Error.incompatible context f.type candidate).failure

def warnImplicit (workflow name kind : String) : Assemble Unit :=
  warn ("Implicitly declaring workflow " ++ kind ++
    " " ++ Text.quoted name ++ " on " ++ Text.quoted workflow ++ ". Prefer explicit " ++
    kind ++ "s via workflow.add_" ++ kind ++ "(...), workflow." ++ kind ++ "s." ++ name ++
    ", or typed bindings so interface drift is easier to spot.")

def ensureInput (w : Nat) (name : String) (type : Doc) (implicit : Bool) : Assemble Unit := do
  let p ← process w
  if !Keyed.has p.inputs name then
    if implicit then warnImplicit p.name name "input"
    let f ← Facts.make name type
    setInput w name { facts := f }
  let x ← input w name
  let f ← resolve x.facts type (p.name ++ ".inputs." ++ name)
  setInput w name { x with facts := f }

def ensureOutput (w : Nat) (name : String) (type : Doc) (implicit : Bool) : Assemble Unit := do
  let p ← process w
  if !Keyed.has p.outputs name then
    if implicit then warnImplicit p.name name "output"
    let f ← Facts.make name type
    setOutput w name { facts := f }
  let x ← output w name
  let f ← resolve x.facts type (p.name ++ ".outputs." ++ name)
  setOutput w name { x with facts := f }

def bindInline (i : Nat) (key : String) (d : Doc) : Assemble Unit := do
  let x := (← input i key).bind (.inline d)
  setInput i key x
  setInput i key (← x.setBoundType (typeOf (← files) d))

def bindOutputRef (i : Nat) (key : String) (r : OutputRef) : Assemble Unit := do
  let p ← process i
  let source ← output r.owner r.key
  let x ← input i key
  let f ← resolve x.facts source.facts.type (p.name ++ "." ++ key)
  setInput i key { x with facts := f }
  let (source, mark) := source.ensureMark (key ++ p.name)
  setOutput r.owner r.key source
  let x := (← input i key).bind (.linked (.str mark) (some r))
  setInput i key x
  setInput i key (← x.setBoundType source.facts.type)

def bindReference (i : Nat) (key : String) (w : Nat) (name : String) (implicit : Bool) :
    Assemble Unit := do
  ensureInput w name (← input i key).facts.type implicit
  let outer ← input w name
  let x := (← input i key).bind (.workflow name)
  setInput i key x
  setInput i key (← x.setBoundType outer.facts.type)

def bindExisting (i : Nat) (key : String) (g : Given) : Assemble Unit := do
  match g with
  | .reference w name implicit => bindReference i key w name implicit
  | .output r => do
    if (← process r.owner).isStep then bindOutputRef i key r
    else fail (.outputAsInput (← output r.owner r.key).facts.name)
  | .input _ _ => bindInline i key (.object "InputParameter" 0)
  | .literal d => bindInline i key d

def bindInput (i : Nat) (key : String) (g : Given) (implicit : Bool) : Assemble Unit := do
  if (← process i).isStep then
    let _ ← input i key
  else ensureInput i key .null implicit
  bindExisting i key g

def bindOutput (w : Nat) (key : String) (g : Given) : Assemble Unit := do
  ensureOutput w key .null true
  let p ← process w
  let context := p.name ++ ".outputs." ++ key
  let own ← output w key
  match g with
  | .output r => do
    let owner ← process r.owner
    if owner.isStep then
      let source ← output r.owner r.key
      let f ← resolve own.facts source.facts.type context
      setOutput w key { own with
        facts := f, linked := true, source := some ⟨some owner.name, source.facts.name, some r⟩ }
      setOutput r.owner r.key { source with linked := true }
    else fail .badOutputSource
  | .reference v name _ =>
    if v = w then do
      ensureInput w name .null true
      let x ← input w name
      let f ← resolve own.facts x.facts.type context
      setOutput w key { own with facts := f, linked := true, source := some ⟨none, name, none⟩ }
    else fail .badOutputSource
  | _ => fail .badOutputSource

def addOutput (w : Nat) (key : String) (source : Option Given) (type : Doc) : Assemble Unit := do
  ensureOutput w key type false
  match source with
  | some g => bindOutput w key g
  | none => return

def assignOutput (i : Nat) (key : String) (g : Given) : Assemble Unit := do
  if (← process i).isStep then fail (.readOnly key)
  else do
    ensureOutput i key .null false
    bindOutput i key g

end Assemble

end WorkflowInference.Assembly
