import Lox.Main
import Lox.Proofs.Counting.Sessions
import Lox.Proofs.Frames.Ledger
import Lox.Proofs.Grammar.Exact
import Lox.Proofs.Grammar.Interactive
import Lox.Proofs.Histories.Construction
import Lox.Proofs.Input.Interaction
import Lox.Proofs.Joining.Sources
import Lox.Proofs.Jumps.Ends
import Lox.Proofs.Lexical.Safety
import Lox.Proofs.Printing.Determined
import Lox.Proofs.Printing.Literals
import Lox.Proofs.Scanning.Strings
import Lox.Proofs.Scanning.Tiling
import Lox.Proofs.Reading.Breaks
import Lox.Proofs.Reading.Recovery
import Lox.Proofs.Renaming.Programs
import Lox.Proofs.Sessions.Outcomes
import Lox.Proofs.Scanning.Lexemes
import Lox.Proofs.Scope.Legal
import Lox.Proofs.Scope.Distances
import Lox.Proofs.Runs.Atomic
