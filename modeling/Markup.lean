import Markup.Divergence
import Markup.Proofs.Agreement
import Markup.Proofs.Building
import Markup.Proofs.Completeness
import Markup.Proofs.Conditions
import Markup.Proofs.Coverage
import Markup.Proofs.Decoration
import Markup.Proofs.Freshness
import Markup.Proofs.Independence
import Markup.Proofs.WrittenOut
import Markup.Proofs.Planting
import Markup.Proofs.Hanging
import Markup.Proofs.AnyOrder
import Markup.Proofs.Refusal
import Markup.Proofs.Readback
import Markup.Proofs.Harvesting
import Markup.Proofs.Rebuilding
import Markup.Proofs.Construction
import Markup.Proofs.Modes
import Markup.Proofs.Dangling
import Markup.Proofs.Resplitting
import Markup.Proofs.Guards
import Markup.Proofs.Sections
import Markup.Proofs.Differences
import Markup.Proofs.Positions
import Markup.Proofs.Recovery
import Markup.Proofs.Rendering
import Markup.Proofs.Mirroring
import Markup.Proofs.Margins
import Markup.Proofs.Traversal
import Markup.Proofs.ComponentTags
import Markup.Proofs.Linking
import Markup.Proofs.Joining
import Markup.Proofs.Sharing
import Markup.Proofs.Numbering
