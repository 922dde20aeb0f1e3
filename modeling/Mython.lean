import Mython.CommandLine
import Mython.Folder
import Mython.Main
import Mython.Program.Basic
import Mython.Program.Cursor
import Mython.Program.Expression
import Mython.Program.Statement
import Mython.Proofs.Program.Account
import Mython.Proofs.Program.Asking
import Mython.Proofs.Program.Canonical
import Mython.Proofs.Program.Concatenation
import Mython.Proofs.Program.ExpressionComplete
import Mython.Proofs.Program.ExpressionSound
import Mython.Proofs.Program.Following
import Mython.Proofs.Program.Grammar
import Mython.Proofs.Program.Language
import Mython.Proofs.Program.Mentions
import Mython.Proofs.Program.Moved
import Mython.Proofs.Program.Nesting
import Mython.Proofs.Program.Origins
import Mython.Proofs.Program.Outline
import Mython.Proofs.Program.Parts
import Mython.Proofs.Program.Places
import Mython.Proofs.Program.Precedence
import Mython.Proofs.Program.Progress
import Mython.Proofs.Program.Pulling
import Mython.Proofs.Program.Reader
import Mython.Proofs.Program.Resolution
import Mython.Proofs.Program.Seam
import Mython.Proofs.Program.SelfReads
import Mython.Proofs.Program.StatementComplete
import Mython.Proofs.Program.StatementSound
import Mython.Proofs.Program.Steps
import Mython.Proofs.Program.Telling
import Mython.Proofs.Program.Window
import Mython.Proofs.Run.Account
import Mython.Proofs.Run.Acts
import Mython.Proofs.Run.Binding
import Mython.Proofs.Run.Blame
import Mython.Proofs.Run.Calling
import Mython.Proofs.Run.Counting
import Mython.Proofs.Run.Course
import Mython.Proofs.Run.DepthLimit
import Mython.Proofs.Run.Discreet
import Mython.Proofs.Run.Dispatch
import Mython.Proofs.Run.Evaluation
import Mython.Proofs.Run.Evolution
import Mython.Proofs.Run.Expired
import Mython.Proofs.Run.FailingSink
import Mython.Proofs.Run.Hosted
import Mython.Proofs.Run.Likeness
import Mython.Proofs.Run.Moments
import Mython.Proofs.Run.Realm
import Mython.Proofs.Run.Receiver
import Mython.Proofs.Run.Reckoning
import Mython.Proofs.Run.Script
import Mython.Proofs.Run.Stringify
import Mython.Proofs.Run.Termination
import Mython.Proofs.Run.Truncation
import Mython.Proofs.Run.Twins
import Mython.Proofs.Session.Boundary
import Mython.Proofs.Session.Discipline
import Mython.Proofs.Session.FaultLines
import Mython.Proofs.Session.PrintedNumber
import Mython.Proofs.Store.Change
import Mython.Proofs.Store.Comparing
import Mython.Proofs.Store.Expired
import Mython.Proofs.Store.Gap
import Mython.Proofs.Store.Held
import Mython.Proofs.Store.Lasting
import Mython.Proofs.Store.Likeness
import Mython.Proofs.Store.Lives
import Mython.Proofs.Store.Ownership
import Mython.Proofs.Store.Sharing
import Mython.Proofs.Text.ByteOrder
import Mython.Proofs.Text.Utf8
import Mython.Proofs.Token.Continuation
import Mython.Proofs.Token.Digits
import Mython.Proofs.Token.Joined
import Mython.Proofs.Token.Layout
import Mython.Proofs.Token.LayoutFault
import Mython.Proofs.Token.LineHeads
import Mython.Proofs.Token.Margin
import Mython.Proofs.Token.Reading
import Mython.Proofs.Token.Rendering
import Mython.Proofs.Token.Requests
import Mython.Proofs.Token.Slices
import Mython.Proofs.Token.Spelling
import Mython.Run.Call
import Mython.Run.Expression
import Mython.Run.Fault
import Mython.Run.Machine
import Mython.Run.Sink
import Mython.Run.Statement
import Mython.Session
import Mython.Snapshot
import Mython.Store.Handle
import Mython.Store.Heap
import Mython.Store.Kind
import Mython.Store.Order
import Mython.SyntaxError
import Mython.Text.Address
import Mython.Text.Byte
import Mython.Text.Decimal
import Mython.Text.Extending
import Mython.Text.Position
import Mython.Text.Quoted
import Mython.Text.Unprintable
import Mython.Token.Basic
import Mython.Token.Lexeme
import Mython.Token.Scanner
import Mython.Token.Stream
import Mython.Workbench
