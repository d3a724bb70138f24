import StirlingTriangle.Recurrence
import StirlingTriangle.Memo.Store
import StirlingTriangle.Memo.Descent
import StirlingTriangle.Memo.Evaluate
import StirlingTriangle.Window.Buffer
import StirlingTriangle.Window.Sweep
import StirlingTriangle.Text.Numeral
import StirlingTriangle.Session
import StirlingTriangle.Memo.Pool
import StirlingTriangle.Triangle
import StirlingTriangle.Rounding
import StirlingTriangle.RunTime
import StirlingTriangle.CrossCheck
import StirlingTriangle.Arguments
import StirlingTriangle.CommandLine
import StirlingTriangle.Config
import StirlingTriangle.Main
import StirlingTriangle.Memo.Resolve
import StirlingTriangle.Proofs.Growth
import StirlingTriangle.Proofs.Admission
import StirlingTriangle.Proofs.Window.Filling
import StirlingTriangle.Proofs.Memo.Meaning
import StirlingTriangle.Proofs.Memo.Suspension
import StirlingTriangle.Proofs.Pool.Completion
import StirlingTriangle.Proofs.Pool.Determinacy
import StirlingTriangle.Proofs.Pool.Support
import StirlingTriangle.Proofs.Agreement
import StirlingTriangle.Proofs.CrossCheck
import StirlingTriangle.Proofs.Memo.Cone
import StirlingTriangle.Proofs.Triangle.Count
import StirlingTriangle.Proofs.CrossCheck.History
import StirlingTriangle.Proofs.Page
import StirlingTriangle.Proofs.Program
import StirlingTriangle.Proofs.Memo.Resolution
import StirlingTriangle.Proofs.Memo.Journal
import StirlingTriangle.Proofs.Memo.Footprint
import StirlingTriangle.Proofs.Memo.Safety
import StirlingTriangle.Proofs.Memo.Repetition
import StirlingTriangle.Proofs.ColumnOrder
import StirlingTriangle.Proofs.Memo.Enumeration
import StirlingTriangle.Proofs.Window.Steps
import StirlingTriangle.Proofs.CommonOrder
import StirlingTriangle.Proofs.Window.Progress
import StirlingTriangle.Proofs.AnyWidth
import StirlingTriangle.Proofs.OverflowRegion
import StirlingTriangle.Proofs.Text.Fields
import StirlingTriangle.Proofs.Reading
import StirlingTriangle.Proofs.Window.Safety
import StirlingTriangle.Proofs.Triangle.Cells
import StirlingTriangle.Proofs.Rounding
import StirlingTriangle.Proofs.RunTime
import StirlingTriangle.Proofs.Text.Integer
import StirlingTriangle.Proofs.Config
