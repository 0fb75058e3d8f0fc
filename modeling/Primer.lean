import Primer.Main
import Primer.Segment
import Primer.Proofs.OperandStack
import Primer.Proofs.TypeSoundness
import Primer.Proofs.Interpretation
import Primer.Proofs.CallFrames
import Primer.Proofs.Concatenation
import Primer.Proofs.Compilation.Exhaustion
import Primer.Proofs.Representation
import Primer.Proofs.Execution.Parallel
import Primer.Proofs.Compilation.Reads
import Primer.Proofs.StaleSlots
import Primer.Proofs.Execution.Relocation
import Primer.Proofs.Pieces
import Primer.Proofs.Unpacking
import Primer.Proofs.Streams
import Primer.Proofs.Retention
import Primer.Proofs.Withdrawal
import Primer.Proofs.Diagnostics
import Primer.Proofs.InferredTypes
import Primer.Proofs.Recursion
import Primer.Proofs.Decoding
import Primer.Proofs.Acceptance
import Primer.Proofs.Execution.Evaluation
import Primer.Proofs.Compilation.Arguments
import Primer.Proofs.ArgumentPassing
import Primer.Proofs.ResourceBounds
import Primer.Proofs.ListLiterals
import Primer.Proofs.StepLimit
import Primer.Proofs.Segments
import Primer.Proofs.Backpatching
import Primer.Proofs.NumberedLines
import Primer.Proofs.Neutrality
