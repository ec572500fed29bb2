import ClosureLift.Main
import ClosureLift.Proofs.Lift.Application
import ClosureLift.Proofs.Lift.Flattening
import ClosureLift.Proofs.Lift.Replacement
import ClosureLift.Proofs.Lift.Account
import ClosureLift.Proofs.Lift.Undisturbed
import ClosureLift.Proofs.Codec.RoundTrip
import ClosureLift.Proofs.Lift.Allocation
import ClosureLift.Proofs.Lift.Forgetting
import ClosureLift.Proofs.Machine.History
import ClosureLift.Proofs.Machine.Shape
import ClosureLift.Proofs.Lift.Rereading
import ClosureLift.Proofs.Lift.Storing
import ClosureLift.Proofs.Lift.Forwarding
import ClosureLift.Proofs.Lift.Occurrences
import ClosureLift.Proofs.Command.Batch
import ClosureLift.Proofs.Lift.FreeReferences
import ClosureLift.Proofs.Lift.Rewriting
import ClosureLift.Proofs.Lift.TypeParameters
import ClosureLift.Proofs.Lift.Innermost
import ClosureLift.Proofs.Program.Reversal
import ClosureLift.Proofs.Program.RenamedReferences
import ClosureLift.Proofs.Machine.CutOff
import ClosureLift.Proofs.Machine.Termination
import ClosureLift.Proofs.Lift.Resolution
import ClosureLift.Proofs.Lift.ClassNames
import ClosureLift.Proofs.Diagnostic.Lines
import ClosureLift.Proofs.Machine.Arithmetic
import ClosureLift.Proofs.Scope.Disambiguation
