import OptionTree.Expression.Grammar
import OptionTree.Expression.Tree
import OptionTree.Main
import OptionTree.Model.History
import OptionTree.Observer
import OptionTree.Outline.Owners
import OptionTree.Proofs.Acceptance
import OptionTree.Proofs.Alternatives
import OptionTree.Proofs.AssignmentLines
import OptionTree.Proofs.Bindings
import OptionTree.Proofs.Bounds
import OptionTree.Proofs.Cascade
import OptionTree.Proofs.Causes
import OptionTree.Proofs.Definitions
import OptionTree.Proofs.Dependents
import OptionTree.Proofs.Digits
import OptionTree.Proofs.Enclosure
import OptionTree.Proofs.Export
import OptionTree.Proofs.Exposure
import OptionTree.Proofs.Failures
import OptionTree.Proofs.Footprint
import OptionTree.Proofs.Grouping
import OptionTree.Proofs.Growth
import OptionTree.Proofs.Implications
import OptionTree.Proofs.Import
import OptionTree.Proofs.Indexed
import OptionTree.Proofs.Infix
import OptionTree.Proofs.Joining
import OptionTree.Proofs.Magnitudes
import OptionTree.Proofs.Mentions
import OptionTree.Proofs.Modes
import OptionTree.Proofs.Moves
import OptionTree.Proofs.Nesting
import OptionTree.Proofs.Notices
import OptionTree.Proofs.Numbering
import OptionTree.Proofs.Outcome
import OptionTree.Proofs.OwnExport
import OptionTree.Proofs.Ownership
import OptionTree.Proofs.Placement
import OptionTree.Proofs.Policies
import OptionTree.Proofs.Presets
import OptionTree.Proofs.Printing
import OptionTree.Proofs.Readers
import OptionTree.Proofs.Reading
import OptionTree.Proofs.Rearrangement
import OptionTree.Proofs.Recording
import OptionTree.Proofs.Reference
import OptionTree.Proofs.Reimport
import OptionTree.Proofs.Repetition
import OptionTree.Proofs.Rereading
import OptionTree.Proofs.Resolution
import OptionTree.Proofs.Restatement
import OptionTree.Proofs.RoundTrip
import OptionTree.Proofs.Runs
import OptionTree.Proofs.SameTree
import OptionTree.Proofs.Scopes
import OptionTree.Proofs.ShuntingYard
import OptionTree.Proofs.Skeleton
import OptionTree.Proofs.Switches
import OptionTree.Proofs.Termination
import OptionTree.Proofs.TextDefaults
import OptionTree.Proofs.Tiling
import OptionTree.Proofs.Trimming
import OptionTree.Proofs.Uniqueness
import OptionTree.Proofs.Validation
import OptionTree.Proofs.Validity
import OptionTree.Proofs.Visibility
import OptionTree.Token.Source
