import ScriptTypes.Number.Binary64
import ScriptTypes.Number.Shortest
import ScriptTypes.Text.Printable
import ScriptTypes.Text.Quoted
import ScriptTypes.Text.Distance
import ScriptTypes.Text.Suggestion
import ScriptTypes.Json.Basic
import ScriptTypes.Json.Printer
import ScriptTypes.Json.Reader
import ScriptTypes.Descriptor.Basic
import ScriptTypes.Descriptor.Specificity
import ScriptTypes.Operator
import ScriptTypes.Method
import ScriptTypes.Fault
import ScriptTypes.Name
import ScriptTypes.Location
import ScriptTypes.Failure
import ScriptTypes.Settings
import ScriptTypes.Kind
import ScriptTypes.Scope
import ScriptTypes.Candidates
import ScriptTypes.Event
import ScriptTypes.Tree.Basic
import ScriptTypes.Tree.Reader
import ScriptTypes.Program
import ScriptTypes.Inference.State
import ScriptTypes.Inference.Typing
import ScriptTypes.Inference.Hints
import ScriptTypes.Inference.Run
import ScriptTypes.Listing
import ScriptTypes.Outline
import ScriptTypes.Text.Integer
import ScriptTypes.Text.Utf8
import ScriptTypes.CommandLine.Path
import ScriptTypes.CommandLine.Grammar
import ScriptTypes.CommandLine.Usage
import ScriptTypes.CommandLine.Invocation
import ScriptTypes.CommandLine.Run
import ScriptTypes.Main
import ScriptTypes.Proofs.Descriptor.Canonical
import ScriptTypes.Proofs.Descriptor.Acyclic
import ScriptTypes.Proofs.Inference.Consulting
import ScriptTypes.Proofs.Candidates.Table
import ScriptTypes.Proofs.Candidates.Weight
import ScriptTypes.Proofs.Tree.Numbering
import ScriptTypes.Proofs.Inference.Coherence
import ScriptTypes.Proofs.Inference.Teaching
import ScriptTypes.Proofs.Inference.Settling
import ScriptTypes.Proofs.Inference.Steadiness
import ScriptTypes.Proofs.Inference.Passes
import ScriptTypes.Proofs.Fixpoint
import ScriptTypes.Proofs.Convergence
import ScriptTypes.Proofs.Tree.Raw
import ScriptTypes.Proofs.Descriptor.Chains
import ScriptTypes.Proofs.Descriptor.Comparison
import ScriptTypes.Proofs.Changes
import ScriptTypes.Proofs.Tree.Places
import ScriptTypes.Proofs.Answers
import ScriptTypes.Proofs.Solution
import ScriptTypes.Proofs.Histories
import ScriptTypes.Proofs.Tree.Nesting
import ScriptTypes.Proofs.Members
import ScriptTypes.Proofs.Resolution
import ScriptTypes.Proofs.Tree.Grammar
import ScriptTypes.Proofs.Tree.Filing
import ScriptTypes.Proofs.Tree.Order
import ScriptTypes.Proofs.Bindings
import ScriptTypes.Proofs.Inference.Stability
import ScriptTypes.Proofs.Listing
import ScriptTypes.Proofs.Questioning
import ScriptTypes.Proofs.Twin.Lockstep
import ScriptTypes.Proofs.Twin.Typing
import ScriptTypes.Proofs.Twin.Running
import ScriptTypes.Proofs.Twin.Reading
import ScriptTypes.Proofs.Renaming
import ScriptTypes.Proofs.Irrelevance
import ScriptTypes.Proofs.Ownership
import ScriptTypes.Proofs.Descriptor.Climbing
import ScriptTypes.Proofs.Descriptor.Merging
import ScriptTypes.Proofs.Candidates.Registration
import ScriptTypes.Proofs.Descriptor.Rendering
import ScriptTypes.Proofs.Candidates.Turnover
import ScriptTypes.Proofs.Text.Distance
import ScriptTypes.Proofs.Text.Suggestion
import ScriptTypes.Proofs.Outline
