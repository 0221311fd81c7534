import Comptime.Code.Listing
import Comptime.Lexicon
import Comptime.Proofs.Arithmetic.Range
import Comptime.Proofs.Constant.Folding
import Comptime.Proofs.Constant.Order
import Comptime.Proofs.Graph.Return
import Comptime.Proofs.Layout.Measure
import Comptime.Proofs.Machine.Index
import Comptime.Proofs.Machine.Isolation
import Comptime.Proofs.Overload.Argument
import Comptime.Proofs.Schedule.Order
import Comptime.Proofs.Session.Callee
import Comptime.Proofs.Session.Containment
import Comptime.Proofs.Session.Formed
import Comptime.Proofs.Session.Rerun
import Comptime.Proofs.Shortcut.Evaluation
import Comptime.Proofs.Value.Zero
import Comptime.Proofs.Machine.Blank
import Comptime.Proofs.Scope.Nearest
import Comptime.Proofs.Type.Interning
