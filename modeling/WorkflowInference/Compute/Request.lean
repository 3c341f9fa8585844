import WorkflowInference.Json
import WorkflowInference.Schema.Validity
import WorkflowInference.Session
import WorkflowInference.Text.Url

/-!
Requests to a compute service: a compiled workflow with its job inputs, and settings of the runner,
of the place of the outputs and of the batch job around it. A request is sent, and then its state is
asked for until the service has started on it.
-/
namespace WorkflowInference.Compute

open Entries

abbrev Section := List (String × Doc)

namespace Section

/-- Reads settings by their names in the interface. Unknown names are refused, settings without a
value are left out, and paths become texts. -/
def read (names : List String) (given : Entries) : Result Section := do
  if given.all fun e => names.any fun n => e.1 == .str n then
    return names.filterMap fun n =>
      let key := if n = "time_limit" then "time" else Text.camelCase n
      match getD given n .null with
      | .null => none
      | .path p => some (key, .str p)
      | v => some (key, v)
  else .error .wrongKind

def doc (s : Section) : Doc := Doc.obj s

end Section

def toilNames : List String := ["log_level"]

def slurmNames : List String :=
  ["job_name", "partition", "slurm_job_gpu_count", "cpus_per_task", "nodes", "tasks_per_node",
    "output", "error", "time_limit", "memory"]

def outputNames : List String := ["mode", "output_dir"]

namespace Output

def serviceDefault : Section := [("mode", .str "serviceDefault")]

def workflowDeclared : Section := [("mode", .str "workflowDeclared")]

def userSpecified (dir : Doc) : Result Section :=
  Section.read outputNames [(.str "mode", .str "userSpecified"), (.str "output_dir", dir)]

def via (way : String) (given : Entries) : Result Section :=
  match way, given with
  | "service_default", [] => .ok serviceDefault
  | "workflow_declared", [] => .ok workflowDeclared
  | "user_specified", [(.str "output_dir", d)] => userSpecified d
  | "from_mapping", given => Section.read ["mode", "outputDir"] given
  | _, _ => .error .wrongKind

def check (s : Section) : Result Unit :=
  if (s.lookup "mode").any (· == .str "userSpecified") && (s.lookup "outputDir").isNone then
    .error (.stated .value "userSpecified output mode requires output_dir")
  else .ok ()

end Output

structure Config where
  toil : Option Section := none
  output : Option Section := none
  slurm : Option Section := none

namespace Config

def ofDoc (d : Doc) : Result Config := do
  let es := d.fields
  let part (k : String) : Option Entries := (get? es k).bind Doc.map?
  let output ← (part "output").mapM fun o =>
    match get? o "via" with
    | some w => Output.via w.text (remove o "via")
    | none => Section.read outputNames o
  return { toil := ← (part "toil").mapM (Section.read toilNames), output,
           slurm := ← (part "slurm").mapM (Section.read slurmNames) }

def doc (c : Config) : Result Doc := do
  c.output.forM Output.check
  let part (k : String) (s : Option Section) : List (String × Doc) :=
    (s.map fun s => (k, s.doc)).toList
  return Doc.obj (part "toilConfig" c.toil ++ part "outputConfig" c.output ++
    part "slurmConfig" c.slurm)

end Config

namespace RequestSchema

open Schema (fieldsOf)

def record (members : List (String × Doc)) (required : List String) : Doc :=
  Doc.obj [("type", .str "object"), ("additionalProperties", .bool false),
    ("required", Doc.strs required),
    ("properties", Doc.obj members)]

def text : Doc := Doc.obj [("type", .str "string")]

def count : Doc := Doc.obj [("type", .str "integer"), ("minimum", .int 1)]

def anyMap : Doc := Doc.obj [("type", .str "object"), ("additionalProperties", .bool true)]

def mode : Doc :=
  Doc.obj [("type", .str "string"),
    ("enum", Doc.strs ["serviceDefault", "userSpecified", "workflowDeclared"])]

def config : Doc :=
  record [("toilConfig", record [("logLevel", text)] []),
    ("outputConfig", record [("mode", mode), ("outputDir", text)] []), ("slurmConfig",
    record (fieldsOf text ["jobName", "partition", "output", "error", "time", "memory"] ++
    fieldsOf count ["slurmJobGpuCount", "cpusPerTask", "nodes", "tasksPerNode"]) [])] []

def request : Doc :=
  record [("id", text), ("cwlWorkflow", anyMap), ("cwlJobInputs", anyMap),
    ("computeConfig", config), ("jobs", record [] [])] ["cwlWorkflow", "cwlJobInputs", "jobs"]

end RequestSchema

inductive RequestError where
  | invalid
  | noId

def RequestError.failure : RequestError → Failure
  | invalid => .unstated "ComputeRequestValidationError"
  | noId => .stated .value "ComputeRequest.submit requires workflow_id or compiled workflow name"

structure Request where
  name : Doc
  workflow : Entries
  jobInputs : Entries
  id : Doc
  jobs : Entries := []
  config : Option Config := none

namespace Request

def make (name workflow jobInputs id jobs : Doc) (config : Option Config) : Result Request := do
  return { name, workflow := ← workflow.toEntries, jobInputs := ← jobInputs.toEntries,
           id := if id.truthy then id else name,
           jobs := ← (if jobs.truthy then jobs.toEntries else .ok []), config }

def ofDoc (d : Doc) (config : Option Config) : Result Request :=
  let part (k : String) : Doc := getD d.fields k .null
  make (part "name") (part "cwl_workflow") (part "cwl_job_inputs") (part "workflow_id")
    (part "jobs") config

def workflowId? (r : Request) : Option String :=
  match if r.id.truthy then r.id else getD r.workflow "id" .null with
  | .str s => if s = "" then none else some s
  | _ => none

def body (r : Request) : Result Doc := do
  let config ← r.config.elim (.ok .null) Config.doc
  return Doc.obj ([("cwlWorkflow", .map r.workflow), ("cwlJobInputs", .map r.jobInputs),
    ("jobs", .map r.jobs)] ++ (r.workflowId?.map fun i => ("id", Doc.str i)).toList ++
    if config.truthy then [("computeConfig", config)] else [])

def doc (r : Request) : Result Doc := do
  let d ← r.body
  match Schema.accepts [] RequestSchema.request d with
  | .ok true => return d
  | _ => .error RequestError.invalid.failure

def text (r : Request) (layout : Json.Layout) : Result String := do Json.text layout (← r.doc)

def prepared (r : Request) : Result (String × Doc) := do
  let some id := r.workflowId? | throw RequestError.noId.failure
  let d ← r.doc
  let _ ← Json.text .compact d
  return (id, d)

end Request

structure Sending where
  url : String
  timeout : Doc := .list [.int 5, .int 30]
  fetchLogs : Bool := true
  logPath : Option String := none

structure Submission where
  workflowId : String
  phase : Option String := none
  accepted : Bool := false
  submitted : Doc := .null
  state : Doc := .null
  logs : Doc := .null

namespace Submission

def exitCode (s : Submission) : Int := if s.accepted then 0 else 1

def doc (s : Submission) : Doc :=
  Doc.obj [("workflow_id", .str s.workflowId), ("phase", (s.phase.map Doc.str).getD .null),
    ("accepted", .bool s.accepted), ("ok", .bool s.accepted), ("exit_code", .int s.exitCode),
    ("submit_response", s.submitted), ("status_response", s.state), ("logs", s.logs)]

end Submission

namespace Sending

def optionNames : List String := ["timeout", "poll_interval_seconds", "fetch_logs", "log_path"]

def ofOptions (url : String) (options : Entries) : Result Sending :=
  if options.all fun e => optionNames.any fun n => e.1 == .str n then
    let usual : Sending := { url }
    .ok { url, timeout := getD options "timeout" usual.timeout
          fetchLogs := (getD options "fetch_logs" (.bool usual.fetchLogs)).truthy
          logPath := match getD options "log_path" .null with
            | .str p | .path p => some (Path.plain p)
            | _ => none }
  else .error .wrongKind

def address (s : Sending) (rest : List String) : String :=
  Text.trimEndOf (· = '/') s.url ++ "/" ++ String.join (rest.map (· ++ "/"))

def posting (s : Sending) (body : Doc) : Doc :=
  .list [.str "POST", .str (s.address []), body,
    Doc.obj [("Content-Type", .str "application/json")], s.timeout]

def question (s : Sending) (rest : List String) : Doc :=
  .list [.str "GET", .str (s.address rest), s.timeout]

end Sending

def bodyOf (r : Response) : Doc :=
  match r.body with
  | some (.map es) => .map es
  | some (.list xs) => .list xs
  | some d => .str d.text
  | none => .str r.text

/-- A capital letter. Two letters beside the small ones have a plain capital. -/
def capital (c : Char) : Char := if c = 'ı' then 'I' else if c = 'ſ' then 'S' else c.toUpper

def phaseOf (body : Doc) : Option String :=
  (body.map?.bind fun es => get? es "status").map fun d => d.text.map capital

def startedPhases : List String := ["RUNNING", "COMPLETED", "ERROR", "CANCELLED"]

def acceptedPhases : List String := ["RUNNING", "COMPLETED"]

def started? (r : Response) : Option String :=
  if r.ok then (phaseOf (bodyOf r)).filter startedPhases.contains else none

/-- Asks for the state until the service has started. Each question takes one of the answers that
are left, so their number bounds the questions. -/
def poll (s : Sending) (id : String) : Nat → Act (String × Doc)
  | 0 => throw .outOfRange
  | n + 1 => do
    let r ← Act.send (s.question [id, "status"])
    match started? r with
    | some p => return (p, bodyOf r)
    | none => poll s id n

def fetchLogs (s : Sending) (id phase : String) : Act Doc := do
  if s.fetchLogs && phase == "RUNNING" then
    let logs := bodyOf (← Act.send (s.question [id, "logs"]))
    s.logPath.forM fun p => Act.writeFile p logs.text
    return logs
  else return .null

def follow (s : Sending) (sub : Submission) : Act Submission := do
  let (phase, state) ← poll s sub.workflowId ((← get).responses.length + 1)
  let logs ← fetchLogs s sub.workflowId phase
  return { sub with phase := some phase, accepted := acceptedPhases.contains phase, state, logs }

def submit (r : Request) (s : Sending) : Act Submission := do
  let (id, d) ← r.prepared
  let answer ← Act.send (s.posting d)
  let sub : Submission := { workflowId := id, submitted := bodyOf answer }
  if answer.ok then follow s sub else return sub

def submitCompiled (name : String) (workflow inputs : Doc) (url : String) : Act Int := do
  let id := name ++ "__" ++ (← get).now ++ "__"
  let r ← Request.make (.str name) workflow inputs (.str id) .null none
  if !Text.isWebUrl url then
    Act.print "Ill-formed URL string detected! Please provide a valid URL"
    return 1
  return (← submit r { url, logPath := some ("compute_logs_" ++ id ++ ".txt") }).exitCode

end WorkflowInference.Compute
