import WorkflowInference.Failure

/-!
What can go wrong when workflows are put together from steps.
-/
namespace WorkflowInference.Assembly

open Text

inductive Error where
  | incompatible (context : String) (expected got : Doc)
  | outputAsInput (name : String)
  | badOutputSource
  | noSlot (owner kind name : String)
  | readOnly (name : String)
  | noInput (owner name : String)
  | noAttribute (kind name : String)
  | hidden (name : String)
  | scatterNotInputs
  | scatterRepeated
  | scatterForeign
  | scatterUnbound
  | scatterScalar
  | scatterNotList
  | badScatterMethod
  | badCondition
  | duplicateStep (workflow step : String)
  | notChild (step input source output workflow : String)
  | notEarlier (step input source : String)
  | outputNotChild (workflow output source : String)
  | unboundOutput (workflow output : String)
  | invalidStep (step : String)
  | untypedInput (workflow input : String)
  | notInlined
  | noDirectory
  | badPath (suffixes : List String)
  | invalidDocument (path : String)
  | invalidFile (path : String)
  | notPath (field : String) (optional : Bool)
  | notMap
  | twoSources
  | noSource
  | configWithTool
  | notMapTool
  | indexKind

def Error.message : Error → String
  | incompatible c e g =>
    c ++ " has incompatible types: expected " ++ e.literal ++ ", got " ++ g.literal
  | outputAsInput n =>
    "Workflow output " ++ quoted n ++ " cannot be bound as an input. Use workflow.inputs." ++ n ++
      " for formal inputs or workflow.outputs." ++ n ++ " = ... for outputs."
  | badOutputSource =>
    "workflow outputs must be bound to a step output or a workflow input reference"
  | noSlot o k n => quoted o ++ " has no " ++ k ++ " named " ++ quoted n
  | readOnly n => "Step outputs are read-only; cannot set " ++ quoted n
  | noInput o n =>
    quoted o ++ " has no input named " ++ quoted n ++
      ". Use step.inputs.<name> for declared inputs only."
  | noAttribute k n => k ++ " has no attribute " ++ quoted n
  | hidden n => n
  | scatterNotInputs => "all scatter inputs must be InputParameter type"
  | scatterRepeated => "scatter inputs must be unique"
  | scatterForeign => "scatter inputs must belong to the same step"
  | scatterUnbound => "scatter inputs must be bound before scattering"
  | scatterScalar => "scatter inputs must be bound to array-valued data"
  | scatterNotList => "scatter must be assigned a list of InputParameter values"
  | badScatterMethod =>
    "Invalid value for scatterMethod. Valid values are: dotproduct, flat_crossproduct, " ++
      "nested_crossproduct"
  | badCondition => "Invalid input to when. The js string must start with '$(' and end with ')'"
  | duplicateStep w s =>
    w ++ " has duplicate step name " ++ quoted s ++
      "; pass step_name=... when reusing the same tool in one workflow"
  | notChild s i p o w =>
    s ++ "." ++ i ++ " is linked to " ++ p ++ "." ++ o ++ ", but " ++ quoted p ++
      " is not a child of " ++ quoted w
  | notEarlier s i p =>
    s ++ "." ++ i ++ " is linked to " ++ quoted p ++
      ", which must appear earlier in the workflow step list"
  | outputNotChild w o p =>
    w ++ ".outputs." ++ o ++ " is linked to " ++ quoted p ++
      ", which is not a child of " ++ quoted w
  | unboundOutput w o => w ++ " has unbound output " ++ quoted o
  | invalidStep s => s ++ " is invalid"
  | untypedInput w i => "workflow input " ++ w ++ "." ++ i ++ " has no resolved type"
  | notInlined =>
    "to_wic_yaml(inline_subworkflows=False) cannot emit sibling files; " ++
      "use write_wic(..., inline_subworkflows=False) instead"
  | noDirectory => "directory is required when serializing subworkflows to disk"
  | badPath ss => "path must be a " ++ String.intercalate " or " ss ++ " file or a directory"
  | invalidDocument p => "invalid cwl document for: " ++ p
  | invalidFile p => "invalid cwl file: " ++ p
  | notPath f o => f ++ " must be a " ++ if o then "Path or str, or None" else "Path or str"
  | notMap => "document must be a mapping of CWL fields"
  | twoSources => "Step accepts either source or clt_path, not both"
  | noSource => "Step requires clt_path or a CommandLineTool-like source"
  | configWithTool => "config_path is only supported when Step is created from a CWL file path"
  | notMapTool => "CommandLineTool-like Step source must return a mapping from to_cwl_document()"
  | indexKind => "port namespaces support integer indexing only; use attribute access for names"

def Error.grade : Error → Grade
  | incompatible .. | outputAsInput _ | badOutputSource => .named "InvalidLinkError"
  | noSlot .. | readOnly _ | noInput .. | noAttribute .. | hidden _ => .attribute
  | scatterNotInputs | scatterNotList | notPath .. | notMap | twoSources | noSource | configWithTool
  | notMapTool
  | indexKind => .type
  | scatterRepeated | scatterForeign | scatterUnbound | scatterScalar | badScatterMethod
  | badCondition | notInlined
  | noDirectory | badPath _ => .value
  | duplicateStep .. | notChild .. | notEarlier .. | outputNotChild .. | unboundOutput ..
  | invalidStep _
  | untypedInput .. => .named "InvalidStepError"
  | invalidDocument _ | invalidFile _ => .named "InvalidCLTError"

def Error.failure (e : Error) : Failure := .stated e.grade e.message

end WorkflowInference.Assembly
