import Mycel.Main
import Mycel.Proofs.Error.Chains
import Mycel.Proofs.Error.Snippets
import Mycel.Proofs.Evaluator.Correspondence
import Mycel.Proofs.Evaluator.Sequencing
import Mycel.Proofs.Heap.Writes
import Mycel.Proofs.Machine.Blame
import Mycel.Proofs.Machine.Buffers
import Mycel.Proofs.Machine.Cancellation
import Mycel.Proofs.Machine.Endings
import Mycel.Proofs.Machine.Fitting
import Mycel.Proofs.Machine.Frames
import Mycel.Proofs.Machine.Reuse
import Mycel.Proofs.Machine.Soundness
import Mycel.Proofs.Server.Counting
import Mycel.Proofs.Session.Addressing
import Mycel.Proofs.Session.Carets
import Mycel.Proofs.Session.Evaluation
import Mycel.Proofs.Session.Progress
import Mycel.Proofs.Session.Reentry
import Mycel.Proofs.Syntax.Acceptance
import Mycel.Proofs.Syntax.Completion
import Mycel.Proofs.Syntax.Descent
import Mycel.Proofs.Syntax.Formation
import Mycel.Proofs.Syntax.Grammar
import Mycel.Proofs.Syntax.Precedence
import Mycel.Proofs.Syntax.Printing
import Mycel.Proofs.Syntax.Recognition
import Mycel.Proofs.Syntax.Refusal
import Mycel.Proofs.Syntax.Rejection
import Mycel.Proofs.Syntax.Scoping
import Mycel.Proofs.Syntax.Spacing
import Mycel.Proofs.Syntax.Wholeness
import Mycel.Proofs.Token.Layout
import Mycel.Proofs.Token.Peeking
import Mycel.Proofs.Token.Placement
import Mycel.Proofs.Token.Positions
import Mycel.Server.Basic
import Mycel.Token.Reader
