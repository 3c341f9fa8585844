import WorkflowInference.Compile.Adapt
import WorkflowInference.Session

/-!
Checks of container engines, and work on their images.
-/
namespace WorkflowInference.Run.Container

def tryRun (command : Doc) : Act (Option (Int × String)) := do
  match ← Act.start command with
  | .missing => return none
  | o => return some (← Act.ended o)

def printAll (lines : List String) : Act Unit := lines.forM Act.print

def give {α : Type} (lines : List String) : Act α := do
  printAll lines
  throw (.exit "1")

def denied : String := "permission denied while trying to connect to the Docker daemon socket at"

def notForUser : List String :=
  ["Warning! docker appears to be installed, but not configured as a non-root user.",
    "See https://docs.docker.com/engine/install/linux-postinstall/#manage-docker-as-a-non-root-user",
    "TL;DR you probably just need to run the following command (and then restart your machine)",
    "sudo usermod -aG docker $USER"]

def missingEngine (engine : String) (needed use : List String) : List String :=
  ["Warning! The " ++ engine ++ " command does not appear to be installed."] ++ needed ++
    ["If you want to try running the workflow anyway, use --ignore_docker_install"] ++ use

def notInstalled (engine : String) : List String :=
  missingEngine engine
    ["Most workflows require docker containers and\n                  " ++
      "will fail at runtime if " ++ engine ++ " is not installed."]
    ["Note that --ignore_docker_install does\n                  " ++
      "NOT change whether or not any step in your workflow uses docker"]

def otherNotInstalled (engine : String) : List String :=
  missingEngine engine [] ["Note that --ignore_docker_install does NOT change whether or not",
    "any step in your workflow uses docker or any other containers"]

def maxProcesses : Int := 1000

def tooMany (n : Int) : List String :=
  ["Warning! There are " ++ toString n ++ " running docker processes.",
    "More than " ++ toString maxProcesses ++ " may potentially cause intermittent hanging issues.",
    "It is recommended to terminate the processes using the command",
    "`sudo pkill com.docker && sudo pkill Docker`", "and then restart Docker.",
    "If you want to run the workflow anyway, use --ignore_docker_processes"]

def greets (status : Int) (output : String) : Bool :=
  (status == 0 && Text.contains output "Hello from Docker!") ||
    Text.contains output "Hello Podman World"

def check (engine : String) (ignored : Bool) : Act Unit := do
  if engine = "docker" || engine = "podman" then
    let test ← tryRun (Doc.strs [engine, "run", "--rm", "hello-world"])
    let output := (test.map (·.2)).getD ""
    if !(test.elim false fun t => greets t.1 t.2) && !ignored then
      if Text.contains output denied then give notForUser
      give (notInstalled engine)
    if test.isSome then
      let (_, count) ← Act.run (.str "pgrep com.docker | wc -l")
      let some n := Text.int? count | throw .badValue
      if n > maxProcesses && !ignored then give (tooMany n)
  else
    let test ← tryRun (Doc.strs [engine, "--version"])
    if test.isNone && !ignored then give (otherNotInstalled engine)

def extract (engine pullDir cwl : String) : Act Unit :=
  let path := Path.plain cwl
  Act.runChecked (Doc.strs (
    if engine = "singularity" then ["cwl-docker-extract", "-s", "--dir", pullDir, path]
    else ["cwl-docker-extract", "--force-download", path]))

def recipe (tag : String) : String :=
  "\n                FROM " ++ tag ++ "\n                ENTRYPOINT []\n                "

def tagsToBuild (images : List Image) : List String :=
  (images.filter fun i => !i.repoTags.isEmpty && !i.tags.isEmpty).flatMap fun i =>
    i.tags.filter fun t => !Text.endsWith t Compile.noEntrySuffix

def buildAll (engine : String) : Act Unit := do
  let some images := (← get).images | throw (.unstated "DockerException")
  let tags := tagsToBuild images
  if engine = "docker" then
    let builds :=
      tags.map fun t => (⟨t ++ Compile.noEntrySuffix, "Dockerfile_tmp", recipe t⟩ : Build)
    modify fun s => { s with builds := s.builds ++ builds }
  else if !tags.isEmpty then throw .noPart

def removeEntrypoints (engine : String) (tree : Compile.PartTree) : Act Compile.PartTree := do
  if engine = "docker" || engine = "podman" then buildAll engine
  Act.ofLogged tree.withoutEntrypoints

end WorkflowInference.Run.Container
