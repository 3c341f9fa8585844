import WorkflowInference.CommandLine.Reading
import WorkflowInference.Path

/-!
The options of the programs, with what the help says about them.
-/
namespace WorkflowInference.CommandLine

def flag (name about : String) : Switch := { name, arity := .flag, initial := .bool false, about }

def flagOf (group : Nat) (name about : String) : Switch :=
  { flag name about with group := some group }

def plainOption (name about : String) : Switch := { name, about }

def textOption (name value about : String) : Switch :=
  { plainOption name about with initial := .str value }

def choiceOf (choices : List String) (name value about : String) : Switch :=
  { textOption name value about with choices }

def needed (name about : String) : Switch := { plainOption name about with required := true }

def version (about : String) : Switch :=
  { name := "version", arity := .stop "unknown", initial := .str "==SUPPRESS==", about }

def codes (name : String) (arity : Arity) (about : String) : Switch :=
  { name, arity, isNumber := true, initial := .list [.int 0, .int 1], about }

def depth (name about : String) : Switch :=
  { name, isNumber := true, initial := .int 9223372036854775807, about }

def aboutHome : String :=
  "The users home directory. This is necessary because CWL clears environment variables (e.g. HOME)"

def compilerSwitches (home cwd : String) : List Switch :=
  [ needed "yaml" "Yaml workflow file",
    flagOf 0 "generate_schemas"
      "Generate schemas for the files in config.json (search_paths_wic and search_paths_cwl)",
    flagOf 0 "generate_config"
      ("Generate default config in wic/global_config.json with default search_paths_wic and " ++
        "search_paths_cwl"),
    textOption "inputs_file" "" "Additional inputs Yaml file",
    textOption "config_file" (Path.join home "wic/global_config.json")
    "User provided (JSON) config file",
    version "Current version of the Sophios Compiler",
    textOption "homedir" home aboutHome,
    textOption "pull_dir" cwd
      ("The user specified pull directory for (singularity) image pull. The default is the " ++
        "current working directory i.e. `pwd`"),
    flag "insert_steps_automatically"
      ("Attempt to fix inference failures by speculatively inserting workflow steps from a " ++
        "curated whitelist."),
    flag "no_provenance"
      ("Do not use the --provenance feature of CWL. (You should only disable provenance if " ++
        "absolutely necessary.)"),
    flag "copy_output_files"
      "Copy primary outputs into the legacy outdir/ layout after a successful cwltool run.",
    flag "cwl_inline_runtag"
      "Copies cwl adapter file contents inline into the final .cwl in autogenerated/",
    flag "parallel"
      ("When running locally, execute independent steps in parallel. This is required for " ++
        "real-time analysis, but it may cause issues with hanging (particularly when " ++
        "scattering). See user guide for details."),
    flag "quiet"
      ("Disable verbose output. This will not print out the commands used for each step, " ++
        "and it will capture all stdout/stderr into log files for each step."),
    choiceOf ["cwltool", "toil-cwl-runner"] "cwl_runner" "cwltool"
      "The CWL runner to use for running workflows locally.",
    flag "allow_raw_cwl"
      "Do not check whether the input to a workflow step refers to the workflow inputs: tag",
    flag "ignore_docker_install"
      ("Do not check whether docker is installed before running workflows. " ++
        "--ignore_docker_install does NOT change whether or not any step in your workflow " ++
        "uses docker!"),
    flag "ignore_docker_processes"
      "Do not check whether there are too many running docker processes before running workflows.",
    textOption "container_engine" "docker" "Specify which command to use to run OCI containers.",
    flag "docker_remove_entrypoints"
      ("Remove entrypoints from docker images before running workflows. See " ++
        "https://cwl.discourse.group/t/override-docker-entrypoint-in-command-line-tool/695/2 " ++
        "If your CWL CommandLineTools rely on non-portable docker entrypoints (i.e. if they " ++
        "do NOT explicitly have baseCommand: and/or arguments: tags) then this flag will " ++
        "almost certainly cause your workflows to fail. In other words, this flag can be " ++
        "used to tell you if your workflows are trapped inside a walled garden of docker " ++
        "containers or if there is at least a chance that they can be run in dev " ++
        "environments (conda, etc) and/or directly on the host machine."),
    flag "partial_failure_enable"
      ("Let workflows to continue with partial failures (i.e. run next steps after failure " ++
        "step by guarding for possible no input)"),
    codes "partial_failure_success_codes" .any
      "Let users add custom error codes to be treated as success",
    codes "partial_failure_success_codes_range" (.exactly 2)
      "Let users add custom error code range to be treated as success",
    flagOf 1 "generate_run_script"
      "Just generates run.sh and exits. Does not actually invoke ./run.sh",
    flagOf 1 "run_local" "After generating the cwl file(s), run it on your local machine.",
    flagOf 1 "generate_cwl_workflow" "Compile the workflow without pulling the docker image",
    flag "cwl_inline_subworkflows" "Before generating the cwl file, inline all subworkflows.",
    flag "write_intermediate_wic"
      "Write intermediate compiler .wic trees under autogenerated/ for debugging.",
    flag "inference_disable" "Disables use of the inference algorithm when compiling.",
    flag "inference_use_naming_conventions"
      "Enables the use of naming conventions in the inference algorithm",
    flag "validate_plugins" "Validate all CWL CommandLineTools",
    flag "ignore_validation_errors"
      "Temporarily ignore validation errors. Do not use this permanently!",
    flag "no_skip_dollar_schemas"
      ("Does not skip processing $schemas tags in CWL files for performance. Skipping " ++
        "significantly improves initial validation performance, but is not always desired. " ++
        "See https://github.com/common-workflow-language/cwltool/issues/623"),
    textOption "cachedir" "cachedir"
      "The directory to save intermediate results; useful with RealtimePlots.py",
    textOption "outdir" "" "Workflow output directory passed to the CWL runner.",
    flag "graphviz" "Generate a DAG using graphviz.",
    flag "graph_label_edges"
      "Label the graph edges with the name of the intermediate input/output.",
    flag "graph_label_stepname" "Prepend the step name to each step node.",
    flag "graph_show_inputs" "Add nodes to the graph representing the workflow inputs.",
    flag "graph_show_outputs" "Add nodes to the graph representing the workflow outputs.",
    depth "graph_inline_depth" "Controls the depth of subgraphs which are displayed.",
    flag "graph_dark_theme" "Changees the color of the fonts and edges from white to black.",
    plainOption "custom_net" "Passes --custom-net flag to cwltool.",
    textOption "passthrough_flags" "no"
      ("Indicates that the user is passing flags to the cwl_runner backend. No checks are " ++
        "done on the flags or values passed. User must verify that they are sending correct " ++
        "flags. only two valid values of this flag 'yes' or 'no'. If set to 'no' (default) " ++
        "passthrough flags won't be sent to the cwl_runner backend.") ]

def compiler (home cwd : String) : Program :=
  ⟨"Convert a high-level yaml workflow file to CWL.", compilerSwitches home cwd⟩

def watcherSwitches : List Switch :=
  [ needed "cwl_tool" "CWL or WIC filestem",
    needed "cachedir_path" "This should be set to the --cachedir option from the main cli",
    needed "file_pattern" "This glob pattern is used to find files within --cachedir_path",
    needed "max_times" "--cwl_tool will be speculatively executed at most max_times",
    needed "config"
      "This should be a json-encoded representation of the config: YAML subtag of --cwl_tool",
    plainOption "homedir" aboutHome,
    needed "root_workflow_yml_path" "The full absolute path to the root workflow yml file." ]

def watcher : Program := ⟨"Speculatively execute a high-level yaml workflow file.", watcherSwitches⟩

end WorkflowInference.CommandLine
