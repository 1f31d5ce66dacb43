import Abacus.Main
import Abacus.Session.Basic
import Abacus.Proofs.Diagnostic.Excerpt
import Abacus.Proofs.Diagnostic.Traceback
import Abacus.Proofs.Eval.Definite
import Abacus.Proofs.Eval.Exact
import Abacus.Proofs.Expr.Reread
import Abacus.Proofs.Parse.Cursor
import Abacus.Proofs.Parse.Ending
import Abacus.Proofs.Parse.Messages
import Abacus.Proofs.Run.Assignment
import Abacus.Proofs.Run.Compose
import Abacus.Proofs.Run.Effect
import Abacus.Proofs.Run.Format
import Abacus.Proofs.Run.Independent
import Abacus.Proofs.Run.Spans
import Abacus.Proofs.Run.Values
import Abacus.Proofs.Scan.Longest
import Abacus.Proofs.Scan.Tiling
import Abacus.Proofs.Session.History
import Abacus.Proofs.Session.Refinement
import Abacus.Proofs.Shell.Agreement
