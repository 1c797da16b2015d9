import QueryPlan.Cache.Basic
import QueryPlan.Failure
import QueryPlan.Json.Codec
import QueryPlan.Node.Collect
import QueryPlan.Node.Digest
import QueryPlan.Node.Traversal
import QueryPlan.Rewrite.Forwarding
import QueryPlan.Rewrite.Replacement
import QueryPlan.Rewrite.Rewriter
import QueryPlan.Rewrite.Substitution
import QueryPlan.Settings.Document
import QueryPlan.Proofs.Attempt
import QueryPlan.Proofs.Annotations.Foreign
import QueryPlan.Proofs.Annotations.Hints
import QueryPlan.Proofs.Annotations.WellFormed
import QueryPlan.Proofs.Node.Parts
import QueryPlan.Proofs.Session.Basic
import QueryPlan.Proofs.Node.WellFormed
import QueryPlan.Proofs.Node.Updating
import QueryPlan.Proofs.Session.Soundness
import QueryPlan.Proofs.Node.Rebuilding
import QueryPlan.Proofs.Session.Traversal
import QueryPlan.Proofs.Session.Reached
import QueryPlan.Proofs.Session.Updating
import QueryPlan.Proofs.Session.VisitingChildren
import QueryPlan.Proofs.Node.Normal
import QueryPlan.Proofs.Session.Equality
import QueryPlan.Proofs.Rewrite.NormalRewriting
import QueryPlan.Proofs.Rewrite.Computing
import QueryPlan.Proofs.Rewrite.ForwardingTable
import QueryPlan.Proofs.Rewrite.StandardRules
import QueryPlan.Proofs.Rewrite.Congruence
import QueryPlan.Proofs.Rewrite.TypePreservation
import QueryPlan.Proofs.Decimal.Numeral
import QueryPlan.Proofs.Literal
import QueryPlan.Proofs.Printer.NodeTokens
import QueryPlan.Proofs.Printer.Names
import QueryPlan.Proofs.Printer.Reader
import QueryPlan.Proofs.Printer.Reading
import QueryPlan.Proofs.Printer.Unambiguous
import QueryPlan.Proofs.Annotations.Lookup
import QueryPlan.Proofs.Binary64
import QueryPlan.Proofs.Node.Alike
import QueryPlan.Proofs.Rewrite.ForwardingChains
import QueryPlan.Proofs.Session.Equivalence
import QueryPlan.Proofs.Rewrite.Reallocation
import QueryPlan.Proofs.Session.Digest
import QueryPlan.Proofs.Text.Difference
import QueryPlan.Proofs.Printer.Lowering
import QueryPlan.Proofs.Node.Description
import QueryPlan.Proofs.Printer.EqualPlans
import QueryPlan.Proofs.Cache.Table
import QueryPlan.Proofs.Cache.Operations
import QueryPlan.Proofs.Cache.Refinement
import QueryPlan.Proofs.Printer.AnnotatedText
import QueryPlan.Proofs.Printer.Attribution
import QueryPlan.Proofs.Node.Walking
import QueryPlan.Proofs.Node.Occurrences
import QueryPlan.Proofs.Node.Stations
import QueryPlan.Proofs.Node.Visiting
import QueryPlan.Proofs.Node.VisitRecords
import QueryPlan.Proofs.Rewrite.Registration
import QueryPlan.Proofs.Signature
import QueryPlan.Proofs.Session.Collections
import QueryPlan.Proofs.Rewrite.Relabelling
import QueryPlan.Proofs.Rewrite.RelabellingRules
import QueryPlan.Proofs.Rewrite.Interleaving
import QueryPlan.Proofs.Rewrite.Normalising
import QueryPlan.Proofs.Rewrite.Insertion
import QueryPlan.Proofs.Node.Relabelled
import QueryPlan.Proofs.Rewrite.SingleRule
import QueryPlan.Proofs.Rewrite.RulePasses
import QueryPlan.Proofs.Rewrite.MergedSubstitution
import QueryPlan.Proofs.Rewrite.Replacing
import QueryPlan.Proofs.Rewrite.ReplacingDownwards
import QueryPlan.Proofs.Node.Moved
import QueryPlan.Proofs.Rewrite.Uniformity
import QueryPlan.Proofs.Rewrite.PassLoop
import QueryPlan.Proofs.Rewrite.Fixpoint
import QueryPlan.Proofs.Rewrite.TransformingUp
import QueryPlan.Proofs.Rewrite.ReplacingAcross
import QueryPlan.Proofs.Cache.Balance
import QueryPlan.Proofs.Text.ByteOrder
import QueryPlan.Proofs.Annotations.Extensional
import QueryPlan.Proofs.Annotations.View
import QueryPlan.Proofs.Session.Annotating
import QueryPlan.Proofs.Printer.CommentMarkers
import QueryPlan.Proofs.Json.Escaping
import QueryPlan.Proofs.Json.Layouts
import QueryPlan.Proofs.Json.Reading
import QueryPlan.Proofs.Json.Descriptions
import QueryPlan.Proofs.Toml.Quoting
import QueryPlan.Proofs.Toml.Scalars
import QueryPlan.Proofs.Toml.Statements
import QueryPlan.Proofs.Toml.Sections
import QueryPlan.Proofs.Settings.Saving
import QueryPlan.Proofs.Settings.Building
