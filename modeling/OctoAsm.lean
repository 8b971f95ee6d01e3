import OctoAsm.Main
import OctoAsm.Proofs.Image.References
import OctoAsm.Proofs.Image.Encodable
import OctoAsm.Proofs.Image.Metadata
import OctoAsm.Proofs.Flow.Emission
import OctoAsm.Proofs.Resolve.Substitution
import OctoAsm.Proofs.Resolve.Stability
import OctoAsm.Proofs.Statement.Printing
import OctoAsm.Proofs.Machine.Decode
import OctoAsm.Proofs.Image.Disassembly
import OctoAsm.Proofs.Statement.Concatenation
import OctoAsm.Proofs.Image.Sites
import OctoAsm.Proofs.Resolve.Relocation
import OctoAsm.Proofs.Resolve.Defines
import OctoAsm.Proofs.Statement.Unique
import OctoAsm.Proofs.Text.Decimal
import OctoAsm.Proofs.Token.Words
import OctoAsm.Proofs.Image.Defines
import OctoAsm.Proofs.Resolve.Breaks
import OctoAsm.Proofs.Image.Origin
import OctoAsm.Proofs.Image.Addresses
import OctoAsm.Proofs.Command.Delivery
import OctoAsm.Proofs.Command.Refusals
import OctoAsm.Proofs.Resolve.Positions
import OctoAsm.Proofs.Statement.Positions
import OctoAsm.Proofs.Image.Positions
import OctoAsm.Proofs.Resolve.Provenance
import OctoAsm.Proofs.Flow.Conditions
import OctoAsm.Proofs.Resolve.Folding
import OctoAsm.Proofs.Image.Nearest
import OctoAsm.Proofs.Image.Holes
import OctoAsm.Proofs.Image.Subtraction
import OctoAsm.Proofs.Resolve.Depth
import OctoAsm.Proofs.Image.Memory
import OctoAsm.Proofs.Resolve.Hygiene
import OctoAsm.Proofs.Resolve.Numbering
import OctoAsm.Proofs.Resolve.Reordering
import OctoAsm.Proofs.Resolve.StringModes
import OctoAsm.Proofs.Token.Rendering
import OctoAsm.Proofs.Command.Numbers
import OctoAsm.Proofs.Statement.Calc
import OctoAsm.Proofs.Resolve.Nesting
import OctoAsm.Proofs.Token.Stream
import OctoAsm.Proofs.Statement.Progress
import OctoAsm.Proofs.Image.Listing
import OctoAsm.Proofs.Image.Shifts
