import LogicCapture.Main
import LogicCapture.Files.Tree
import LogicCapture.Proofs.Doubles
import LogicCapture.Proofs.Packing
import LogicCapture.Proofs.Decoding
import LogicCapture.Proofs.Layout
import LogicCapture.Proofs.Events
import LogicCapture.Proofs.Capture
import LogicCapture.Proofs.Lines
import LogicCapture.Proofs.Effects
import LogicCapture.Proofs.Feeding
import LogicCapture.Proofs.Segments
import LogicCapture.Proofs.Failures
import LogicCapture.Proofs.Leading
import LogicCapture.Proofs.Truncation
import LogicCapture.Proofs.Recovery
import LogicCapture.Proofs.Ranges
import LogicCapture.Proofs.Growth
import LogicCapture.Proofs.Tables
import LogicCapture.Proofs.Headers
import LogicCapture.Proofs.Ledger
import LogicCapture.Proofs.Calls
import LogicCapture.Proofs.Apart
import LogicCapture.Proofs.Marks
import LogicCapture.Proofs.LineStream
import LogicCapture.Proofs.Endings
import LogicCapture.Proofs.Recognition
import LogicCapture.Proofs.Additions
import LogicCapture.Proofs.Beside
import LogicCapture.Proofs.Occupancy
import LogicCapture.Proofs.Cells
import LogicCapture.Proofs.Quoting
import LogicCapture.Proofs.Parity
import LogicCapture.Proofs.Joins
import LogicCapture.Proofs.Transactions
import LogicCapture.Proofs.Summaries
import LogicCapture.Proofs.Finishes
import LogicCapture.Proofs.Encoded
import LogicCapture.Proofs.Resolution
import LogicCapture.Proofs.Columns
import LogicCapture.Proofs.Replacement
import LogicCapture.Proofs.WholeText
import LogicCapture.Proofs.Retention
import LogicCapture.Proofs.Progress
import LogicCapture.Proofs.DoubleValues
import LogicCapture.Proofs.Widening
import LogicCapture.Proofs.Nearest
import LogicCapture.Proofs.Times
import LogicCapture.Proofs.Reads
