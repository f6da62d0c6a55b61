import Straightline.Main
import Straightline.Proofs.TwoPasses
import Straightline.Proofs.Preservation
import Straightline.Proofs.Lowering.Valid
import Straightline.Proofs.Lowering.Activation
import Straightline.Proofs.Lowering.Calls
import Straightline.Proofs.Lowering.Execution
import Straightline.Proofs.Lowering.Simulation
import Straightline.Proofs.IR.Escape
import Straightline.Proofs.Units.Operands
import Straightline.Proofs.IR.Handles
import Straightline.Proofs.Reading.Locality
import Straightline.Proofs.Reading.Relocation
import Straightline.Proofs.Declaring.Locality
import Straightline.Proofs.Declaring.Rounds
import Straightline.Proofs.Emission.Renumbering
import Straightline.Proofs.Units.Independence
import Straightline.Proofs.Declaring.Order
import Straightline.Proofs.Declaring.Exchange
import Straightline.Proofs.Units.Order
import Straightline.Proofs.Lowering.HeapRuns
import Straightline.Proofs.Units.Symbols
import Straightline.Proofs.Units.Types
import Straightline.Proofs.Declaring.Progress
import Straightline.Proofs.Reading.Delimiters
import Straightline.Proofs.Units.Constants
import Straightline.Proofs.Units.Headers
import Straightline.Proofs.Lowering.FrameBase
import Straightline.Proofs.Lowering.CRules
import Straightline.Proofs.Lowering.Segments
import Straightline.Proofs.Lowering.Aggregates
import Straightline.Proofs.Lowering.Sums
import Straightline.Proofs.Emission.Elsewhere
import Straightline.Proofs.CommandLine.Loading
import Straightline.Proofs.CommandLine.Writing
import Straightline.Proofs.Units.Written
import Straightline.Proofs.Lowering.Slots
import Straightline.Proofs.IR.Numbering
import Straightline.Proofs.Units.Numbers
