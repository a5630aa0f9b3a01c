import TaggedHeader.Main
import TaggedHeader.Proofs.Protection
import TaggedHeader.Proofs.Interface
import TaggedHeader.Proofs.Diagnostics
import TaggedHeader.Proofs.NestedProject
import TaggedHeader.Proofs.SelectedHeaders
import TaggedHeader.Proofs.MarkedLines
import TaggedHeader.Proofs.PromptStripping
import TaggedHeader.Proofs.Provenance
import TaggedHeader.Proofs.Draft.Commuting
import TaggedHeader.Proofs.Tag.Completeness
import TaggedHeader.Proofs.Tag.Form
import TaggedHeader.Proofs.Tag.Locality
import TaggedHeader.Proofs.Tag.Rendering
import TaggedHeader.Proofs.CommandLine.Check
import TaggedHeader.Proofs.PromptComment
import TaggedHeader.Proofs.Traversal
import TaggedHeader.Proofs.CommandLine.Batch
import TaggedHeader.Proofs.CommandLine.Failure
import TaggedHeader.Proofs.Region.Overrun
import TaggedHeader.Proofs.History
import TaggedHeader.Proofs.Positions
import TaggedHeader.Proofs.LineDiff
import TaggedHeader.Proofs.Retracing
