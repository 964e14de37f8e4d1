import ValueCheck.Engine
import ValueCheck.Proofs.Matching.Correctness
import ValueCheck.Proofs.Checker.Naming
import ValueCheck.Schema.OfValue
import ValueCheck.Proofs.Matching.Halting
import ValueCheck.Proofs.Engine.History
import ValueCheck.Proofs.Matching.Execution
import ValueCheck.Proofs.Matching.Translation
import ValueCheck.Proofs.Matching.Isolation
import ValueCheck.Proofs.Matching.Location
import ValueCheck.Proofs.Grammar.Viability
import ValueCheck.Proofs.Schema.Faithful
import ValueCheck.Proofs.Matching.Following
import ValueCheck.Proofs.Matching.Excess
import ValueCheck.Proofs.Matching.Depth
import ValueCheck.Proofs.Checker.Inheritance
import ValueCheck.Proofs.Engine.Noninterference
import ValueCheck.Proofs.Matching.Attribution
import ValueCheck.Proofs.Engine.Selection
import ValueCheck.Proofs.Value.Walking
import ValueCheck.Proofs.Checker.Wording
import ValueCheck.Proofs.Checker.Identity
import ValueCheck.Proofs.Matching.Arguments
import ValueCheck.Proofs.Checker.Grouping
import ValueCheck.Proofs.Grammar.Agreement
import ValueCheck.Proofs.Grammar.Spacing
import ValueCheck.Proofs.Value.Length
import ValueCheck.Proofs.Text.Patterns
import ValueCheck.Proofs.Checker.Sizing
import ValueCheck.Proofs.Value.Distinct
import ValueCheck.Proofs.Keyed.Recording
import ValueCheck.Proofs.Grammar.Tiling
import ValueCheck.Proofs.Matching.Subclassing
