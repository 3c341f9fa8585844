import WorkflowInference.Text.Pattern
import WorkflowInference.Text.Basic

/-!
Log lines of the workflow runner that tell a user nothing.
-/
namespace WorkflowInference.Log

def keepsDefinition (line : String) : Bool := !(Text.endsWith line "previously defined")

def resolvedPattern : Option Text.Pattern := Text.Pattern.read? "Resolved '.*' to '.*'"

def keepsResolution (line : String) : Bool :=
  resolvedPattern.all fun p => !((Text.Pattern.seq p (.star .anyChar)).fits line)

def keepsConditional (line : String) : Bool :=
  !(Text.contains line "Source is from conditional step and may produce \x60null\x60")

end WorkflowInference.Log
