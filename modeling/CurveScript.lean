import CurveScript.Byte
import CurveScript.Class
import CurveScript.Cursor
import CurveScript.Decode
import CurveScript.Diagnostic
import CurveScript.Expectation
import CurveScript.Fetch
import CurveScript.Kind
import CurveScript.Lexeme
import CurveScript.Munch
import CurveScript.Number.Binary64
import CurveScript.Number.Decimal
import CurveScript.Number.Nearest
import CurveScript.Number.Shortest
import CurveScript.Operator
import CurveScript.Proofs.Alignment
import CurveScript.Proofs.Alphabet
import CurveScript.Proofs.Boundary
import CurveScript.Proofs.Delimiters
import CurveScript.Proofs.Extension
import CurveScript.Proofs.GlobMode
import CurveScript.Proofs.Grammar
import CurveScript.Proofs.Joining
import CurveScript.Proofs.LongestMatch
import CurveScript.Proofs.Lookahead
import CurveScript.Proofs.Outcome
import CurveScript.Proofs.Placement
import CurveScript.Proofs.PlainFetch
import CurveScript.Proofs.Reading
import CurveScript.Proofs.Refinement
import CurveScript.Proofs.Relexing
import CurveScript.Proofs.Replay
import CurveScript.Proofs.Restoration
import CurveScript.Proofs.Session
import CurveScript.Proofs.Tiling
import CurveScript.Proofs.Values
import CurveScript.Proofs.WellFormed
import CurveScript.Proofs.ZeroByte
import CurveScript.Reader
import CurveScript.Source
import CurveScript.Span
import CurveScript.Tag
import CurveScript.Text
import CurveScript.Token
import CurveScript.Tokens
import CurveScript.Proofs.Stops
import CurveScript.Proofs.TestedFetch
import CurveScript.Proofs.Faults
import CurveScript.Proofs.Ending
import CurveScript.Proofs.Window
import CurveScript.Proofs.Decoding
import CurveScript.Proofs.Positional
import CurveScript.Proofs.Selection
import CurveScript.Proofs.Rounding
import CurveScript.Proofs.Moves
import CurveScript.Proofs.Numerals
import CurveScript.Proofs.Characters
import CurveScript.Proofs.Searches
import CurveScript.Proofs.Truncation
