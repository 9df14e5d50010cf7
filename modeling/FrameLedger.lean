import FrameLedger.Ghost
import FrameLedger.Position
import FrameLedger.SortedMap
import FrameLedger.ScopeTable
import FrameLedger.Operator
import FrameLedger.Tree.Basic
import FrameLedger.Tree.Effects
import FrameLedger.Tree.Nodes
import FrameLedger.Number.Binary64
import FrameLedger.Number.Decimal
import FrameLedger.Number.Shortest
import FrameLedger.Number.Text
import FrameLedger.Program
import FrameLedger.Builder
import FrameLedger.Print.Basic
import FrameLedger.Print.Tree
import FrameLedger.Text.Blank
import FrameLedger.Value.Basic
import FrameLedger.Value.Store
import FrameLedger.Tree.Declared
import FrameLedger.Run.Machine
import FrameLedger.Run.Property
import FrameLedger.Run.Operation
import FrameLedger.Run.Evaluate
import FrameLedger.Run.Session
import FrameLedger.StackVars
import FrameLedger.Tree.Transform
import FrameLedger.Settings.Properties
import FrameLedger.Emulation.Mode
import FrameLedger.Emulation.Stats
import FrameLedger.Emulation.Locals
import FrameLedger.Emulation.Reserved
import FrameLedger.Emulation.Location
import FrameLedger.Emulation.Frames
import FrameLedger.Emulation.Pass
import FrameLedger.Json.Basic
import FrameLedger.Json.Printer
import FrameLedger.Json.Token
import FrameLedger.Json.Reader
import FrameLedger.Dump.Names
import FrameLedger.Dump.Writer
import FrameLedger.Dump.Reader
import FrameLedger.Text.Hex
import FrameLedger.Toml.Basic
import FrameLedger.Toml.Text
import FrameLedger.Toml.Reader
import FrameLedger.Settings.Build
import FrameLedger.Settings.Reader
import FrameLedger.Settings.Loader
import FrameLedger.Proofs.Activation
import FrameLedger.Proofs.Balance
import FrameLedger.Proofs.Probe
import FrameLedger.Proofs.Additions
import FrameLedger.Proofs.Fresh
import FrameLedger.Proofs.Capture
import FrameLedger.Proofs.Digits
import FrameLedger.Proofs.Modes
import FrameLedger.Proofs.Budget
import FrameLedger.Proofs.Descent
import FrameLedger.Proofs.Describing
import FrameLedger.Proofs.Termination
import FrameLedger.Proofs.Recovered
import FrameLedger.Proofs.Purity
import FrameLedger.Proofs.Continued
import FrameLedger.Proofs.Substituted
import FrameLedger.Proofs.Noting
import FrameLedger.Proofs.Placed
import FrameLedger.Proofs.Numerals
import FrameLedger.Proofs.Reloaded
import FrameLedger.Proofs.Elements
import FrameLedger.Proofs.Keeping
import FrameLedger.Proofs.Bookkeeping
import FrameLedger.Proofs.Tally
import FrameLedger.Proofs.Reckoning
import FrameLedger.Proofs.Reading
import FrameLedger.Proofs.Unambiguous
import FrameLedger.Proofs.Slots
import FrameLedger.Proofs.Precedence
import FrameLedger.Proofs.Constructors
import FrameLedger.Proofs.Branches
import FrameLedger.Proofs.Declaring
