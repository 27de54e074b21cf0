import LayeredConfig.Document
import LayeredConfig.Evaluation.Loading
import LayeredConfig.Json.Agreement
import LayeredConfig.Json.Printer
import LayeredConfig.Node.Filter
import LayeredConfig.Node.Navigation
import LayeredConfig.ReservedKeys
import LayeredConfig.Rule.Declaration
import LayeredConfig.Rule.NodeTest
import LayeredConfig.Proofs.Members.Union
import LayeredConfig.Proofs.Node.Everywhere
import LayeredConfig.Proofs.Merge.Values
import LayeredConfig.Proofs.Merge.Regrouping
import LayeredConfig.Proofs.ObjectStep.Reference
import LayeredConfig.Proofs.Filter.Raw
import LayeredConfig.Proofs.Loading.Layers
import LayeredConfig.Proofs.Members.Listed
import LayeredConfig.Proofs.Evaluation.Marked
import LayeredConfig.Proofs.Json.Everywhere
import LayeredConfig.Proofs.ReservedKeys.Valid
import LayeredConfig.Proofs.Escaping.StrayKeys
import LayeredConfig.Proofs.Escaping.Escaped
import LayeredConfig.Proofs.Filter.Screening
import LayeredConfig.Proofs.Filter.Secrets
import LayeredConfig.Proofs.Node.Paths
import LayeredConfig.Proofs.ReservedKeys.Merged
import LayeredConfig.Proofs.Evaluation.Calls
import LayeredConfig.Proofs.Evaluation.Guard
import LayeredConfig.Proofs.Evaluation.Nesting
import LayeredConfig.Proofs.Evaluation.InTurn
import LayeredConfig.Proofs.Evaluation.Pending
import LayeredConfig.Proofs.Rule.Rounds
import LayeredConfig.Proofs.Merge.Precedence
import LayeredConfig.Proofs.Evaluation.Outcome
import LayeredConfig.Proofs.Evaluation.Instructions
import LayeredConfig.Proofs.Evaluation.Idle
import LayeredConfig.Proofs.Evaluation.MarkedRoot
import LayeredConfig.Proofs.Loading.Existing
import LayeredConfig.Proofs.Json.Distinct
import LayeredConfig.Proofs.Toml.Distinct
import LayeredConfig.Proofs.Source.Distinct
import LayeredConfig.Proofs.Loading.Stacking
import LayeredConfig.Proofs.Evaluation.MarkedBelow
import LayeredConfig.Proofs.Node.Forgetting
import LayeredConfig.Proofs.Evaluation.Alike
import LayeredConfig.Proofs.Rule.Overlooking
import LayeredConfig.Proofs.Evaluation.Tagging
import LayeredConfig.Proofs.ReservedKeys.Layers
import LayeredConfig.Proofs.Evaluation.Provenance
import LayeredConfig.Proofs.Evaluation.Surroundings
import LayeredConfig.Proofs.Merge.Reordered
import LayeredConfig.Proofs.ObjectStep.Rearranged
import LayeredConfig.Proofs.Loading.Origin
import LayeredConfig.Proofs.Evaluation.Redundant
import LayeredConfig.Proofs.Evaluation.Reporting
import LayeredConfig.Proofs.Filter.Survivors
import LayeredConfig.Proofs.Filter.Fusion
import LayeredConfig.Proofs.Node.Preorder
import LayeredConfig.Proofs.Node.Furthest
import LayeredConfig.Proofs.Node.Pointers
import LayeredConfig.Proofs.ReservedKeys.Reported
import LayeredConfig.Proofs.Node.SourceReport
import LayeredConfig.Proofs.Json.KeyOrder
import LayeredConfig.Proofs.Merge.Covering
import LayeredConfig.Proofs.Merge.Repetition
