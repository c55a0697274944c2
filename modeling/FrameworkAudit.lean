import FrameworkAudit.Proofs.Attribute.Owner
import FrameworkAudit.Proofs.Attribute.Value
import FrameworkAudit.Proofs.Audit.Missing
import FrameworkAudit.Proofs.Audit.Outcome
import FrameworkAudit.Proofs.Breaking.Found
import FrameworkAudit.Proofs.Breaking.Reached
import FrameworkAudit.Proofs.CallSite
import FrameworkAudit.Proofs.Catalog.Support
import FrameworkAudit.Proofs.Cursor.Checked
import FrameworkAudit.Proofs.Dependency.Aggregate
import FrameworkAudit.Proofs.Dependency.Contribution
import FrameworkAudit.Proofs.Dependency.Mention
import FrameworkAudit.Proofs.Dependency.Merge
import FrameworkAudit.Proofs.Dependency.NameCase
import FrameworkAudit.Proofs.Dependency.Supplied
import FrameworkAudit.Proofs.Dependency.Unresolved
import FrameworkAudit.Proofs.DocId.Bounds
import FrameworkAudit.Proofs.DocId.Parameters
import FrameworkAudit.Proofs.DocId.Wrapping
import FrameworkAudit.Proofs.Encoding
import FrameworkAudit.Proofs.Extension
import FrameworkAudit.Proofs.Identity.Canonical
import FrameworkAudit.Proofs.Keys
import FrameworkAudit.Proofs.Metadata.Directory
import FrameworkAudit.Proofs.Metadata.Header
import FrameworkAudit.Proofs.Metadata.Heap
import FrameworkAudit.Proofs.Metadata.Image
import FrameworkAudit.Proofs.Metadata.Placement
import FrameworkAudit.Proofs.Metadata.Width
import FrameworkAudit.Proofs.Parent
import FrameworkAudit.Proofs.Policy
import FrameworkAudit.Proofs.Policy.Coverage
import FrameworkAudit.Proofs.Resolution.Chain
import FrameworkAudit.Proofs.Resolution.Cycle
import FrameworkAudit.Proofs.Resolution.Indirection
import FrameworkAudit.Proofs.Resolution.Reach
import FrameworkAudit.Proofs.Resolution.Termination
import FrameworkAudit.Proofs.Signature.Counts
import FrameworkAudit.Proofs.Signature.Delimited
import FrameworkAudit.Proofs.Signature.RoundTrip
import FrameworkAudit.Proofs.Signature.Sequence
import FrameworkAudit.Proofs.Text.Utf8
import FrameworkAudit.Proofs.Unsupported
import FrameworkAudit.Report
