import FixedInt.Width
import FixedInt.Scalar
import FixedInt.LaneVector
import FixedInt.WordOp
import FixedInt.ArithOp
import FixedInt.Predicate
import FixedInt.Operation
import FixedInt.Value
import FixedInt.Memory.Address
import FixedInt.Memory.LittleEndian
import FixedInt.Memory.Basic
import FixedInt.Memory.Bytes
import FixedInt.Memory.Traced
import FixedInt.Layout.CType
import FixedInt.Layout.Aggregate
import FixedInt.Layout.Slots
import FixedInt.Layout.Table
import FixedInt.Error
import FixedInt.Diagnostic
import FixedInt.Event
import FixedInt.Action
import FixedInt.Comparison
import FixedInt.Plan
import FixedInt.ResultStore
import FixedInt.Intrinsic
import FixedInt.Assoc
import FixedInt.Settings.Basic
import FixedInt.Settings.Document
import FixedInt.Toml.Lexeme
import FixedInt.Toml.Table
import FixedInt.Toml.Reader
import FixedInt.Toml.Printer
import FixedInt.Evaluator
import FixedInt.Session
import FixedInt.Proofs.Word
import FixedInt.Proofs.Arithmetic
import FixedInt.Proofs.Action
import FixedInt.Proofs.Layout
import FixedInt.Proofs.Overrides
import FixedInt.Proofs.Construction
import FixedInt.Proofs.Bytes
import FixedInt.Proofs.Storing
import FixedInt.Proofs.Runs
import FixedInt.Proofs.LayoutHistory
import FixedInt.Proofs.Guarding
import FixedInt.Proofs.Calls
import FixedInt.Proofs.ByName
import FixedInt.Proofs.Loading
import FixedInt.Proofs.Journal
import FixedInt.Proofs.LayoutWords
import FixedInt.Proofs.Keeping
import FixedInt.Proofs.Commuting
import FixedInt.Proofs.Comparing
import FixedInt.Proofs.Subtracting
import FixedInt.Proofs.Planning
import FixedInt.Proofs.Policy
import FixedInt.Proofs.Arrays
import FixedInt.Proofs.Moving
import FixedInt.Proofs.Keys
import FixedInt.Proofs.Documents
import FixedInt.Proofs.Symbols
import FixedInt.Proofs.Ranges
import FixedInt.Proofs.Targets
import FixedInt.Proofs.Handles
import FixedInt.Proofs.Stepping
import FixedInt.Proofs.Native
import FixedInt.Proofs.Walking
