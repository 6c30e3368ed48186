import Lox.Number.Text
import Lox.Number.Numeral
import Lox.Token.Scan
import Lox.Token.Listing
import Lox.Diagnostic
import Lox.Text.Utf8
import Lox.Tree.Basic
import Lox.Tree.Statement
import Lox.Tree.Form
import Lox.Binding.Resolve
import Lox.Binding.Reference
import Lox.Store.Object
import Lox.Machine.Step
import Lox.Session
import Lox.CommandLine
import Lox.Main
import Lox.Proofs.Binding.Bound
import Lox.Proofs.Binding.Place
import Lox.Proofs.Binding.Rules
import Lox.Proofs.Lexical.Found
import Lox.Proofs.Machine.Calls
import Lox.Proofs.Session.Control
import Lox.Proofs.Machine.Progress
import Lox.Proofs.Renumbering.Follow
import Lox.Proofs.Renumbering.Expression
import Lox.Proofs.Renumbering.Statement
import Lox.Proofs.Renumbering.Program
import Lox.Proofs.Renumbering.Findings
import Lox.Proofs.Renumbering.Scan
import Lox.Proofs.Scanning.Lines
import Lox.Proofs.Renumbering.Step
import Lox.Proofs.Renumbering.Session
import Lox.Proofs.Session.Read
import Lox.Proofs.Session.Rejected
import Lox.Proofs.Machine.Program
import Lox.Proofs.Session.Joined
import Lox.Proofs.Session.Whole
import Lox.Proofs.Dispatch.Observer
import Lox.Proofs.Dispatch.Place
import Lox.Proofs.Dispatch.Receiver
import Lox.Proofs.Dispatch.Step
import Lox.Proofs.Dispatch.Run
import Lox.Proofs.Session.Printed
import Lox.Proofs.Bytes.Partition
import Lox.Proofs.Renaming.Tree
import Lox.Proofs.Renaming.Parser
import Lox.Proofs.Renaming.Occurrence
import Lox.Proofs.Renaming.Scope
import Lox.Proofs.Renaming.Findings
import Lox.Proofs.Renaming.Store
import Lox.Proofs.Renaming.Marked
import Lox.Proofs.Renaming.Frames
import Lox.Proofs.Renaming.Step
import Lox.Proofs.Scanning.Alike
import Lox.Proofs.Renaming.Text
import Lox.Proofs.Renaming.Session
import Lox.Proofs.Session.Gate
import Lox.Proofs.Grammar.Flattening
import Lox.Proofs.Parsing.Flattening
import Lox.Proofs.Grammar.Language
import Lox.Proofs.Grammar.Relaxed
import Lox.Proofs.Grammar.Viable
import Lox.Proofs.Parsing.Halting
import Lox.Proofs.Parsing.FirstError
import Lox.Proofs.Renumbering.Same
import Lox.Proofs.Recovery.Noting
import Lox.Proofs.Recovery.Line
import Lox.Proofs.Recovery.Segments
import Lox.Proofs.Renumbering.Lines
import Lox.Proofs.Scanning.Spaced
import Lox.Proofs.Slice.Progress
import Lox.Proofs.Loop.Refinement
import Lox.Proofs.Store.Access
import Lox.Proofs.Returns.Session
import Lox.Proofs.Objects.Code
import Lox.Proofs.Objects.Held
import Lox.Proofs.Objects.Step
import Lox.Proofs.Objects.Reached
import Lox.Proofs.Objects.History
import Lox.Proofs.Objects.Property
import Lox.Proofs.Machine.Ending
import Lox.Proofs.Objects.Construction
import Lox.Proofs.Store.Links
import Lox.Proofs.Objects.Links
import Lox.Proofs.Drawing.Identity
import Lox.Proofs.Number.Text
import Lox.Proofs.Form.Unambiguous
