import BoxedScheme.CommandLine
import BoxedScheme.Config
import BoxedScheme.Continuation
import BoxedScheme.Double
import BoxedScheme.Double.Notation
import BoxedScheme.Double.Shortest
import BoxedScheme.Environment
import BoxedScheme.Error
import BoxedScheme.Evaluator
import BoxedScheme.Files
import BoxedScheme.Heap
import BoxedScheme.Heap.Collector
import BoxedScheme.History
import BoxedScheme.Location
import BoxedScheme.Machine
import BoxedScheme.Main
import BoxedScheme.Memory
import BoxedScheme.Numeral
import BoxedScheme.Operation
import BoxedScheme.Pool
import BoxedScheme.Primitive
import BoxedScheme.Primitive.Arguments
import BoxedScheme.Primitive.Numbers
import BoxedScheme.Primitive.Strings
import BoxedScheme.Printer
import BoxedScheme.Prompt
import BoxedScheme.Reader
import BoxedScheme.Session
import BoxedScheme.Sugar
import BoxedScheme.Terminal
import BoxedScheme.Text.Backspace
import BoxedScheme.Text.Cluster
import BoxedScheme.Text.ClusterClass
import BoxedScheme.Text.Column
import BoxedScheme.Text.Lines
import BoxedScheme.Text.Lower
import BoxedScheme.Text.Quoted
import BoxedScheme.Text.Ranges
import BoxedScheme.Text.Shapeless
import BoxedScheme.Text.Slice
import BoxedScheme.Text.Space
import BoxedScheme.Text.Utf8
import BoxedScheme.Token
import BoxedScheme.Token.Scan
import BoxedScheme.Viewer
import BoxedScheme.Viewer.HeapRows
import BoxedScheme.Viewer.Highlight
import BoxedScheme.Viewer.Pane
import BoxedScheme.Viewer.Screen
import BoxedScheme.Viewer.Scroll
import BoxedScheme.Viewer.Style
import BoxedScheme.Word
import BoxedScheme.Proofs.Pools
import BoxedScheme.Proofs.Reach
import BoxedScheme.Proofs.Collection
import BoxedScheme.Proofs.HeapRuns
import BoxedScheme.Proofs.Heaps
import BoxedScheme.Proofs.Renaming
import BoxedScheme.Proofs.Mutator
import BoxedScheme.Proofs.Recursive
import BoxedScheme.Proofs.Words
import BoxedScheme.Proofs.Scratch
import BoxedScheme.Proofs.Actions
import BoxedScheme.Proofs.Anchors
import BoxedScheme.Proofs.Safety
import BoxedScheme.Proofs.SymbolTables
import BoxedScheme.Proofs.Changes
import BoxedScheme.Proofs.RootStack
import BoxedScheme.Proofs.Numerals
import BoxedScheme.Proofs.Data
import BoxedScheme.Proofs.Scanning
import BoxedScheme.Proofs.Room
import BoxedScheme.Proofs.RoundTrip
import BoxedScheme.Proofs.Recording
import BoxedScheme.Proofs.Costs
import BoxedScheme.Proofs.Grammar
import BoxedScheme.Proofs.Supervision
import BoxedScheme.Proofs.Discipline
import BoxedScheme.Proofs.Tracking
import BoxedScheme.Proofs.Calls
import BoxedScheme.Proofs.Runs
import BoxedScheme.Proofs.Separation
import BoxedScheme.Proofs.Containment
import BoxedScheme.Proofs.Ranges
import BoxedScheme.Proofs.Environments
import BoxedScheme.Proofs.Unfinished
import BoxedScheme.Proofs.Reapplication
import BoxedScheme.Proofs.ListWalks
import BoxedScheme.Proofs.Lines
import BoxedScheme.Proofs.BindingForms
import BoxedScheme.Proofs.Survival
import BoxedScheme.Proofs.NamedLoops
import BoxedScheme.Proofs.Encoding
import BoxedScheme.Proofs.Places
import BoxedScheme.Proofs.Terminals
import BoxedScheme.Proofs.Procedures
import BoxedScheme.Proofs.GlobalBindings
import BoxedScheme.Proofs.Histories
import BoxedScheme.Proofs.Substrings
import BoxedScheme.Proofs.Highlighting
import BoxedScheme.Proofs.Scrolling
