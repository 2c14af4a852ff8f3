import Stimulus.Cell.Basic
import Stimulus.Cell.Build
import Stimulus.Cell.Step
import Stimulus.Check
import Stimulus.Command.Arguments
import Stimulus.Command.Disk
import Stimulus.Command.FileFault
import Stimulus.Command.Host
import Stimulus.Command.Path
import Stimulus.Command.Place
import Stimulus.Command.Request
import Stimulus.Command.Script
import Stimulus.Command.Session
import Stimulus.Decimal.Basic
import Stimulus.Decimal.Nearest
import Stimulus.Decimal.Shortest
import Stimulus.Diagnostic
import Stimulus.Document.Decode
import Stimulus.Document.Encode
import Stimulus.Document.Form
import Stimulus.Document.Issue
import Stimulus.Document.Load
import Stimulus.Document.Text
import Stimulus.Error
import Stimulus.Expr.Basic
import Stimulus.Expr.Text
import Stimulus.Fault
import Stimulus.Forest
import Stimulus.Json.Basic
import Stimulus.Json.Printer
import Stimulus.Json.Reader
import Stimulus.Log
import Stimulus.Main
import Stimulus.Model.Basic
import Stimulus.Model.Compile
import Stimulus.Model.Cycle
import Stimulus.Operator
import Stimulus.Position
import Stimulus.Proofs.Cell.Binding
import Stimulus.Proofs.Cell.Build
import Stimulus.Proofs.Cell.Step
import Stimulus.Proofs.Cell.Tree
import Stimulus.Proofs.Random.Stream
import Stimulus.Random.Bounded
import Stimulus.Random.Pcg
import Stimulus.Random.Philox
import Stimulus.Random.Seeding
import Stimulus.Random.Source
import Stimulus.Sampling.Draw
import Stimulus.Sampling.Pool
import Stimulus.Sampling.WeightTable
import Stimulus.Sampling.WeightedPool
import Stimulus.Scope
import Stimulus.Settings
import Stimulus.Text.Blank
import Stimulus.Text.DecimalDigit
import Stimulus.Text.LowerCase
import Stimulus.Text.Numeral
import Stimulus.Text.Printable
import Stimulus.Text.Quoted
import Stimulus.Text.Surrogate
import Stimulus.Trace.Basic
import Stimulus.Trace.Export
import Stimulus.Trace.Symbol
import Stimulus.Trace.Table
import Stimulus.Word
import Stimulus.Proofs.Model.Stepping
import Stimulus.Proofs.Model.Calls
import Stimulus.Proofs.Model.Compiled
import Stimulus.Proofs.Model.Replay
import Stimulus.Proofs.Cell.Failure
import Stimulus.Proofs.Model.Containment
import Stimulus.Proofs.Model.Backward
import Stimulus.Proofs.Cell.Fair
import Stimulus.Proofs.Cell.Rounds
import Stimulus.Proofs.Cell.References
import Stimulus.Proofs.Scope.Growth
import Stimulus.Proofs.Model.Termination
import Stimulus.Proofs.Cell.Stream
import Stimulus.Proofs.Model.Clone
import Stimulus.Proofs.Cell.Choosers
import Stimulus.Proofs.Sampling.Bisection
import Stimulus.Proofs.Sampling.Fault
import Stimulus.Proofs.Cell.Fault
import Stimulus.Proofs.Model.Choosers
import Stimulus.Proofs.Model.Fault
import Stimulus.Proofs.Document.Checked
import Stimulus.Proofs.Document.Format
import Stimulus.Proofs.Document.Parts
import Stimulus.Proofs.Document.RoundTrip
import Stimulus.Proofs.Cell.Sound
import Stimulus.Proofs.Scope.Resolution
import Stimulus.Proofs.Document.Integers
import Stimulus.Proofs.Model.Acceptance
import Stimulus.Proofs.Model.Consistent
import Stimulus.Proofs.Cell.Renumber
import Stimulus.Proofs.Scope.Insertion
import Stimulus.Proofs.Model.Bystander
import Stimulus.Proofs.Model.Insertion
import Stimulus.Proofs.Document.Placement
import Stimulus.Proofs.Sampling.Exact
import Stimulus.Proofs.Cell.Nodes
import Stimulus.Proofs.Model.Nodes
import Stimulus.Proofs.Cell.Sampler
import Stimulus.Proofs.Cell.WellFormed
import Stimulus.Proofs.Model.WellFormed
import Stimulus.Proofs.Cell.PlayOut
import Stimulus.Proofs.Cell.Events
import Stimulus.Proofs.Model.Declared
import Stimulus.Proofs.Model.Reads
import Stimulus.Proofs.Model.Writes
import Stimulus.Proofs.Trace.Recording
import Stimulus.Proofs.Trace.Alignment
import Stimulus.Proofs.Text.Numeral
import Stimulus.Proofs.Trace.Symbol
import Stimulus.Proofs.Trace.Codes
import Stimulus.Proofs.Trace.DumpLine
import Stimulus.Proofs.Trace.Dump
import Stimulus.Proofs.Trace.Display
import Stimulus.Proofs.Trace.Exports
import Stimulus.Proofs.Model.Lockstep
import Stimulus.Proofs.Cell.Progression
import Stimulus.Proofs.Sampling.Dealing
import Stimulus.Proofs.Sampling.History
import Stimulus.Proofs.Sampling.Shuffle
import Stimulus.Proofs.Sampling.Bag
import Stimulus.Proofs.Word.Vector
import Stimulus.Proofs.Word.Wrapping
import Stimulus.Proofs.Cell.Composed
import Stimulus.Proofs.Random.Cycle
import Stimulus.Proofs.Random.Counting
import Stimulus.Proofs.Random.Shares
import Stimulus.Proofs.Random.Redraw
import Stimulus.Proofs.Random.Uniform
import Stimulus.Proofs.Cell.Visits
import Stimulus.Proofs.Cell.Admitted
import Stimulus.Proofs.Model.Visits
import Stimulus.Proofs.Model.FaultKind
import Stimulus.Proofs.Document.Flaws
import Stimulus.Proofs.Document.Location
import Stimulus.Proofs.Command.Script
import Stimulus.Proofs.Command.Problems
import Stimulus.Proofs.Json.Reading
import Stimulus.Proofs.Command.Session
