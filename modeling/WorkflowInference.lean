import WorkflowInference.Builder.Service
import WorkflowInference.Catalog
import WorkflowInference.Compile.Document
import WorkflowInference.Compile.Inlining
import WorkflowInference.Graph.Document
import WorkflowInference.Graph.Tools
import WorkflowInference.Log.Filter
import WorkflowInference.Main
import WorkflowInference.Run.Background
import WorkflowInference.Run.Watch
import WorkflowInference.Session.Document
import WorkflowInference.Proofs.Compile.Embedding
import WorkflowInference.Proofs.Compile.Explicit
import WorkflowInference.Proofs.Compile.Inlining
import WorkflowInference.Proofs.Compile.JobInputs
import WorkflowInference.Proofs.Assembly.Outputs
import WorkflowInference.Proofs.Assembly.Marks
import WorkflowInference.Proofs.Assembly.Name
import WorkflowInference.Proofs.Assembly.Files
import WorkflowInference.Proofs.Assembly.Scatter
import WorkflowInference.Proofs.Authoring.Types
import WorkflowInference.Proofs.Compile.OuterInputs
import WorkflowInference.Proofs.Workflow.Following
import WorkflowInference.Proofs.Compile.Matching
import WorkflowInference.Proofs.Compile.Values
import WorkflowInference.Proofs.Compile.SelfContained
import WorkflowInference.Proofs.Run.Provenance
import WorkflowInference.Proofs.Graph.Flattening
import WorkflowInference.Proofs.Format.Resolve
import WorkflowInference.Proofs.Builder.Order
import WorkflowInference.Proofs.Compute.Submission
import WorkflowInference.Proofs.Schema
