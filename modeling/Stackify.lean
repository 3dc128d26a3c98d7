import Stackify.Code.Listing
import Stackify.Lower.Json
import Stackify.Machine.Json
import Stackify.Proofs.Validity
import Stackify.Ssa.Json
import Stackify.Proofs.Rethrow
import Stackify.Proofs.TypedLoads
import Stackify.Proofs.Appended
import Stackify.Proofs.StorageWidths
import Stackify.Proofs.Lifetimes
import Stackify.Proofs.Building
import Stackify.Proofs.GraphEdges
import Stackify.Proofs.InnermostHandlers
import Stackify.Proofs.BlockRuns
import Stackify.Proofs.AddressPaths
import Stackify.Proofs.NaturalAlignment
import Stackify.Proofs.SignatureRendering
import Stackify.Proofs.StringPrinting
import Stackify.Proofs.Postorder
import Stackify.Proofs.UnwindEdges
import Stackify.Code.Binary
import Stackify.Proofs.BinaryForm
import Stackify.Proofs.Interning
import Stackify.Proofs.MethodNumbers
