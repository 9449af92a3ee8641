import AddressCode.Assign
import AddressCode.CallStack
import AddressCode.Cli.Duration
import AddressCode.Cli.Folder
import AddressCode.Cli.Inputs
import AddressCode.Cli.Markup
import AddressCode.Cli.Message
import AddressCode.Cli.Options
import AddressCode.Cli.Session
import AddressCode.Cli.Source
import AddressCode.Digest.Md5
import AddressCode.Engine
import AddressCode.Eval
import AddressCode.Fault
import AddressCode.Heap
import AddressCode.Instr.Basic
import AddressCode.Instr.Line
import AddressCode.Instr.Parser
import AddressCode.Instr.Printer
import AddressCode.Instr.Tokens
import AddressCode.Interpreter
import AddressCode.Labels
import AddressCode.Lexer.Pattern
import AddressCode.Lexer.Scan
import AddressCode.Lexer.Token
import AddressCode.Machine.Basic
import AddressCode.Machine.Step
import AddressCode.Main
import AddressCode.Number.Basic
import AddressCode.Number.Layout
import AddressCode.Number.Reading
import AddressCode.Number.Remainder
import AddressCode.Number.Rounding
import AddressCode.Number.Shortest
import AddressCode.Ordered
import AddressCode.Output
import AddressCode.Params
import AddressCode.Procedure
import AddressCode.Program
import AddressCode.Signal
import AddressCode.Span
import AddressCode.Store
import AddressCode.Text.Blank
import AddressCode.Text.Piece
import AddressCode.Text.Printable
import AddressCode.Text.Quoted
import AddressCode.Text.Split
import AddressCode.Text.Utf8
import AddressCode.Tree
import AddressCode.Value.Basic
import AddressCode.Value.Content
import AddressCode.Proofs.Effects
import AddressCode.Proofs.Runs
import AddressCode.Proofs.Maps
import AddressCode.Proofs.Reach
import AddressCode.Proofs.Separation
import AddressCode.Proofs.Calls
import AddressCode.Proofs.Isolation
import AddressCode.Proofs.NestedRuns
import AddressCode.Proofs.Halting
import AddressCode.Proofs.Nesting
import AddressCode.Proofs.Recording
import AddressCode.Proofs.Atomicity
import AddressCode.Proofs.Frames
import AddressCode.Proofs.Forms
import AddressCode.Proofs.Values
import AddressCode.Proofs.Storage
import AddressCode.Proofs.LineByLine
import AddressCode.Proofs.Order
import AddressCode.Proofs.Copies
import AddressCode.Proofs.Renaming
import AddressCode.Proofs.Twins
import AddressCode.Proofs.Noninterference
import AddressCode.Proofs.Termination
import AddressCode.Proofs.OutputLog
import AddressCode.Proofs.SinkFailures
import AddressCode.Proofs.History
import AddressCode.Proofs.Derivatives
import AddressCode.Proofs.Munch
import AddressCode.Proofs.Words
import AddressCode.Proofs.Grammar
import AddressCode.Proofs.Spacing
import AddressCode.Proofs.Ascii
import AddressCode.Proofs.Printing
import AddressCode.Proofs.PrintedForms
import AddressCode.Proofs.RoundTrip
import AddressCode.Proofs.Arguments
import AddressCode.Proofs.InsertedBlanks
import AddressCode.Proofs.WellFormedValues
import AddressCode.Proofs.Acyclicity
import AddressCode.Proofs.BlankLines
import AddressCode.Proofs.PointerAccess
import AddressCode.Proofs.ElementWrites
import AddressCode.Proofs.DeepCopies
import AddressCode.Proofs.NamedPointers
import AddressCode.Proofs.VisibleLabels
import AddressCode.Proofs.Queries
import AddressCode.Proofs.Arrays
import AddressCode.Proofs.Rounding
import AddressCode.Proofs.Decimals
import AddressCode.Proofs.Unambiguous
import AddressCode.Proofs.Fingerprints
import AddressCode.Proofs.ByteOrder
import AddressCode.Proofs.SortedKeys
import AddressCode.Proofs.Listings
