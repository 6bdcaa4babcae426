import IntBackend.Source.Basic
import IntBackend.Source.Builder
import IntBackend.Source.Document
import IntBackend.Json.Fault
import IntBackend.Json.Reader
import IntBackend.Json.Text
import IntBackend.Json.Numeral
import IntBackend.Json.Skip
import IntBackend.Json.Grammar
import IntBackend.Json.Write
import IntBackend.Text.Visible
import IntBackend.Text.Quoted
import IntBackend.Machine.Basic
import IntBackend.Machine.Target
import IntBackend.Machine.Convention
import IntBackend.Machine.Assembly
import IntBackend.Machine.Listing
import IntBackend.Lowering.Fault
import IntBackend.Lowering.Frame
import IntBackend.Lowering.Scope
import IntBackend.Lowering.Code
import IntBackend.Output.Sink
import IntBackend.Session.Path
import IntBackend.Session.FileTree
import IntBackend.Session.Options
import IntBackend.Session.Event
import IntBackend.Session.Failure
import IntBackend.Session.Run
import IntBackend.Main
import IntBackend.Proofs.Results
import IntBackend.Proofs.Lowering.Inversion
import IntBackend.Proofs.Lowering.Sequences
import IntBackend.Proofs.Lowering.Scopes
import IntBackend.Proofs.Lowering.Checker
import IntBackend.Proofs.Lowering.Instructions
import IntBackend.Proofs.Lowering.FrameSize
import IntBackend.Proofs.Lowering.Layout
import IntBackend.Proofs.Lowering.Bodies
import IntBackend.Proofs.Lowering.Segments
import IntBackend.Proofs.Lowering.Forms
import IntBackend.Proofs.Lowering.Accesses
import IntBackend.Proofs.Lowering.Labels
import IntBackend.Proofs.Lowering.Shape
import IntBackend.Proofs.Lowering.Symbols
import IntBackend.Proofs.Lowering.Balance
import IntBackend.Proofs.Lowering.Destinations
import IntBackend.Proofs.Lowering.Stores
import IntBackend.Proofs.Lowering.Parking
import IntBackend.Proofs.Lowering.Emission
import IntBackend.Proofs.Lowering.ScratchUse
import IntBackend.Proofs.Lowering.ScopeHistory
import IntBackend.Proofs.Machine.Memory
import IntBackend.Proofs.Machine.Execution
import IntBackend.Proofs.Machine.Literals
import IntBackend.Proofs.Machine.Steps
import IntBackend.Proofs.Source.Nodes
import IntBackend.Proofs.Source.Meaning
import IntBackend.Proofs.Source.Discipline
import IntBackend.Proofs.Preservation.Values
import IntBackend.Proofs.Preservation.ParkedValues
import IntBackend.Proofs.Preservation.Arguments
import IntBackend.Proofs.Preservation.Calls
import IntBackend.Proofs.Preservation.Frames
import IntBackend.Proofs.Preservation.Statements
import IntBackend.Proofs.Preservation.Functions
import IntBackend.Proofs.Preservation.Programs
import IntBackend.Proofs.Preservation.RegisterArguments
import IntBackend.Proofs.Preservation.StackArguments
import IntBackend.Proofs.Lowering.Modularity
import IntBackend.Proofs.Printing.Lines
import IntBackend.Proofs.Printing.Targets
import IntBackend.Proofs.Printing.Recovery
import IntBackend.Proofs.Output.Delivery
import IntBackend.Proofs.Session.FileTrees
import IntBackend.Proofs.Session.Containment
import IntBackend.Proofs.Json.Numerals
import IntBackend.Proofs.Json.Compact
import IntBackend.Proofs.Source.Documents
import IntBackend.Proofs.Source.Spellings
