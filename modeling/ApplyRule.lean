import ApplyRule.Process
import ApplyRule.Proofs.Grouping
import ApplyRule.Proofs.PrintBack
import ApplyRule.Proofs.Identity
import ApplyRule.Proofs.Replacement
import ApplyRule.Proofs.Editing
import ApplyRule.Proofs.Outcome
import ApplyRule.Proofs.ProperItems
import ApplyRule.Proofs.Tidy
import ApplyRule.Proofs.Expands
import ApplyRule.Proofs.Substitution
import ApplyRule.Proofs.Flatten
import ApplyRule.Proofs.Operations
import ApplyRule.Proofs.NestedSets
import ApplyRule.Proofs.Places
import ApplyRule.Proofs.RootTree
import ApplyRule.Proofs.Resolution
import ApplyRule.Proofs.AnyOrder
import ApplyRule.Proofs.Idempotence
import ApplyRule.Proofs.Definitions
import ApplyRule.Proofs.Override
import ApplyRule.Proofs.Locality
import ApplyRule.Proofs.ClosedBlock
import ApplyRule.Proofs.Written
import ApplyRule.Proofs.Sheet
import ApplyRule.Proofs.FlatSets
import ApplyRule.Proofs.Predefined
import ApplyRule.Proofs.Unrelated
import ApplyRule.Proofs.Arena
import ApplyRule.Proofs.Aside
import ApplyRule.Proofs.Effects
import ApplyRule.Proofs.Completion
import ApplyRule.Proofs.Replacing
import ApplyRule.Proofs.WellLinked
import ApplyRule.Proofs.Refusal
import ApplyRule.Proofs.Formatting
import ApplyRule.Proofs.Classification
import ApplyRule.Proofs.UnclosedBody
import ApplyRule.Proofs.Reached
import ApplyRule.Proofs.Exchange
import ApplyRule.Proofs.Brought
import ApplyRule.Proofs.TextAfter
import ApplyRule.Proofs.Chained
import ApplyRule.Proofs.Malformed
import ApplyRule.Proofs.Insertion
import ApplyRule.Proofs.Duplicate
import ApplyRule.Proofs.Misplaced
import ApplyRule.Proofs.InertText
import ApplyRule.Proofs.ReferenceName
import ApplyRule.Proofs.Applicable
import ApplyRule.Proofs.FailingPiece
import ApplyRule.Proofs.FailingStatement
import ApplyRule.Proofs.FailingText
import ApplyRule.Proofs.Walks
import ApplyRule.Proofs.Indentation
import ApplyRule.Proofs.TopLevel
import ApplyRule.Proofs.LineBreaks
import ApplyRule.Proofs.Passages
import ApplyRule.Proofs.Rounds
import ApplyRule.Proofs.CallStack
import ApplyRule.Proofs.NodeByNode
