import WorkflowInference.StepName

/-!
Why a workflow cannot be compiled.
-/
namespace WorkflowInference.Compile

inductive Error where
  | noImplementation (path : String)
  | noSuchImplementation (stem space path : String)
  | neither (path : String)
  | noSteps
  | namespacesKind
  | schemasKind
  | noTool (stem runStem : String)
  | unknownClass (cls : String)
  | multipleDefinitions (name : String)
  | unknownInput (arg step : String)
  | noDefinition (name : String)
  | selfReference (define call : Namespaces)
  | noCallTail (define call : Namespaces)
  | tooManyRounds
  | requiredInput (type : String)
  deriving DecidableEq, Repr

def maxRounds : Nat := 100

namespace Error

def message : Error → String
  | noImplementation p => "Error! No implementation in " ++ p ++ "!"
  | noSuchImplementation s n p =>
    "Error! No steps for implementation " ++ (Doc.qual s n).literal ++ " in " ++ p ++ "!"
  | neither p => "Error! No implementations and/or steps in " ++ p ++ "!"
  | noSteps => "Error! workflows must define at least one step."
  | namespacesKind => "Error! $namespaces tag must be a dictionary if present."
  | schemasKind => "Error! $schemas tag must be a list if present."
  | noTool s r =>
    "Error! Neither " ++ s ++ " nor " ++ r ++ " found!" ++
      "check your 'search_paths_cwl' in global_config.json"
  | unknownClass c => "('Unknown class', " ++ c ++ ")"
  | multipleDefinitions n => "Error! Multiple definitions of &" ++ n ++ "!"
  | unknownInput a s =>
    "Error! Provided input " ++ a ++ " not found in interface of step " ++ s ++ "."
  | noDefinition n => "Error! No definition found for !&" ++ n ++ "!"
  | selfReference d c =>
    "Error! Cannot self-reference the same step!\nnss_def " ++ literalStrs d ++ "\n nss_call " ++
      literalStrs c
  | noCallTail d c =>
    "Error! len(nss_call_tails) == 0! Please file a bug report!\nnss_def " ++ literalStrs d ++
      "\n nss_call " ++ literalStrs c
  | tooManyRounds =>
    "Error! Maximum number of iterations (" ++ toString maxRounds ++
      ") reached in compile_workflow!"
  | requiredInput t => "Required input of type " ++ t ++ " was not provided."

def grade : Error → Grade
  | requiredInput _ => .value
  | _ => .general

def failure (e : Error) : Failure := .stated e.grade e.message

end Error

end WorkflowInference.Compile
