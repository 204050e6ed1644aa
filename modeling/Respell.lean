import Respell.Main
import Respell.Proofs.Diagnostics
import Respell.Proofs.Editor.Observing
import Respell.Proofs.Javascript.DeclaredAll
import Respell.Proofs.Javascript.DeclaredOnce
import Respell.Proofs.Javascript.Frames
import Respell.Proofs.Javascript.Shedding
import Respell.Proofs.Javascript.Translated
import Respell.Proofs.Lexing.Lines
import Respell.Proofs.Lexing.Respelling
import Respell.Proofs.Lexing.Slicing
import Respell.Proofs.Normalize.Exhaustion
import Respell.Proofs.Normalize.Leading
import Respell.Proofs.RunOnce
import Respell.Proofs.Scoping.BlockLocal
import Respell.Proofs.Scoping.Lexical
import Respell.Proofs.Tree.Building
import Respell.Proofs.Tree.Operators
