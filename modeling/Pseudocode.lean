import Pseudocode.Proofs.Excerpt.Numbering
import Pseudocode.Proofs.Grammar.Literals
import Pseudocode.Proofs.Grammar.Progress
import Pseudocode.Proofs.Insulation.Sources
import Pseudocode.Proofs.Integers.Counting
import Pseudocode.Proofs.Ir.Decoding.Modules
import Pseudocode.Proofs.Ir.Interning
import Pseudocode.Proofs.Ir.Splicing
import Pseudocode.Proofs.Lower.Chains
import Pseudocode.Proofs.Lower.Linked
import Pseudocode.Proofs.Lower.Meeting
import Pseudocode.Proofs.Memory.Reads
import Pseudocode.Proofs.Number.Nearest
import Pseudocode.Proofs.Regular.Statements
import Pseudocode.Proofs.Token.Spacing
import Pseudocode.Proofs.Typing.Elements
