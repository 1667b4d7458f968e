import Descent.Json.Document
import Descent.Main
import Descent.Pattern.Match
import Descent.Proofs.Json.Tokens
import Descent.Session
import Descent.Proofs.Json.Strings
import Descent.Proofs.Json.Cells
import Descent.Proofs.Json.Rules
import Descent.Proofs.Json.Answers
import Descent.Proofs.Json.History
import Descent.Proofs.Json.Numbers
import Descent.Proofs.Json.Pieces
import Descent.Proofs.Json.Rows
import Descent.Proofs.Json.Documents
import Descent.Proofs.Json.Values
import Descent.Proofs.Json.Language
import Descent.Proofs.Json.Scanning
import Descent.Proofs.Json.Spacing
import Descent.Proofs.Json.Use
import Descent.Proofs.Json.Nesting
import Descent.Proofs.Console
import Descent.Proofs.Json.Commas
import Descent.Proofs.Json.Trees
import Descent.Proofs.Lazies
import Descent.Proofs.Lines
import Descent.Proofs.Remainders
import Descent.Proofs.Tracing
import Descent.Proofs.Depth
import Descent.Proofs.Repetition
import Descent.Proofs.Sequencing
import Descent.Proofs.Json.TokenRules
import Descent.Proofs.Conversion
import Descent.Proofs.Json.Splitting
import Descent.Proofs.Json.Progress
import Descent.Proofs.Leftmost
import Descent.Proofs.Shortcuts
import Descent.Proofs.Json.Members
import Descent.Proofs.Chaining
import Descent.Proofs.Verbatim
import Descent.Proofs.Printed
import Descent.Proofs.Numerals
