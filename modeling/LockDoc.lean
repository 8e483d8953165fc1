import LockDoc.Lib.Run
import LockDoc.Lib.OrdMap
import LockDoc.Lib.Worklist
import LockDoc.Lib.Timeline
import LockDoc.Lib.Text
import LockDoc.Lib.Dict
import LockDoc.Lib.Counter
import LockDoc.Lib.KeyedSet
import LockDoc.Lib.NamedTree
import LockDoc.Lib.Trail
import LockDoc.Lib.Group
import LockDoc.Lib.Like
import LockDoc.Lib.Greedy
import LockDoc.Lib.Window
import LockDoc.Lib.Double
import LockDoc.Lib.Pruned
import LockDoc.Convert.Lock
import LockDoc.Convert.LockManager
import LockDoc.Convert.Transition
import LockDoc.Convert.Main
import LockDoc.Convert.Finish
import LockDoc.Convert.Effect
import LockDoc.Convert.Count
import LockDoc.Convert.Frame
import LockDoc.Convert.Step
import LockDoc.Convert.WellFormed
import LockDoc.Convert.Sync
import LockDoc.Convert.Abort
import LockDoc.Convert.Unwind
import LockDoc.Convert.Stranded
import LockDoc.Convert.Single
import LockDoc.Convert.Counters
import LockDoc.Convert.Mirror
import LockDoc.Convert.Recursive
import LockDoc.Convert.Attribute
import LockDoc.Convert.Filter
import LockDoc.Convert.References
import LockDoc.Convert.Ledger
import LockDoc.Convert.Live
import LockDoc.Convert.Keys
import LockDoc.Convert.Allocation
import LockDoc.Convert.Subclass
import LockDoc.Convert.Dummy
import LockDoc.Convert.Embedded
import LockDoc.Convert.Columns
import LockDoc.Convert.HalfParsed
import LockDoc.Convert.Lifecycle
import LockDoc.Convert.Bounds
import LockDoc.Convert.Reference
import LockDoc.Convert.Agree
import LockDoc.Convert.HeldSet
import LockDoc.Convert.Origin
import LockDoc.Convert.Drain
import LockDoc.Convert.Frames
import LockDoc.Convert.Tally
import LockDoc.Convert.Times
import LockDoc.Convert.Conserve
import LockDoc.Convert.Hex
import LockDoc.Convert.Stacktrace
import LockDoc.Convert.Blacklist
import LockDoc.Convert.LockRows
import LockDoc.Hypothesizer.Combination
import LockDoc.Hypothesizer.Member
import LockDoc.Hypothesizer.Graph
import LockDoc.Hypothesizer.Family
import LockDoc.Hypothesizer.Enumerate
import LockDoc.Hypothesizer.Input
import LockDoc.Hypothesizer.Load
import LockDoc.Hypothesizer.Uint64
import LockDoc.Hypothesizer.Support
import LockDoc.Hypothesizer.Copy
import LockDoc.Hypothesizer.Select
import LockDoc.Hypothesizer.Search
import LockDoc.Hypothesizer.Antimonotone
import LockDoc.Hypothesizer.Renumber
import LockDoc.Hypothesizer.BottomUp
import LockDoc.Hypothesizer.Lockset
import LockDoc.Hypothesizer.TopDown
import LockDoc.Hypothesizer.Sharpen
import LockDoc.Hypothesizer.Order
import LockDoc.Hypothesizer.Selection
import LockDoc.Hypothesizer.Homogeneous
import LockDoc.Hypothesizer.Reach
import LockDoc.Hypothesizer.Report
import LockDoc.Hypothesizer.OrderText
import LockDoc.Processing.Csv
import LockDoc.Processing.Util
import LockDoc.Processing.ReadBack
import LockDoc.Processing.Refusal
import LockDoc.Processing.CexTree
import LockDoc.Processing.CexPaths
import LockDoc.Processing.CexShown
import LockDoc.Processing.Groundtruth
import LockDoc.Processing.RuleSupport
import LockDoc.Queries.Counterexample
import LockDoc.Queries.Agreement
import LockDoc.Queries.LabelText
import LockDoc.Queries.TxnMembersLocks
import LockDoc.Queries.Flat
import LockDoc.Queries.Blacklist
import LockDoc.Queries.FromTrace
import LockDoc.Queries.StackMode
import LockDoc.Queries.Arguments
import LockDoc.Queries.Command
import LockDoc.Layout.Tag
import LockDoc.Layout.Printer
import LockDoc.Layout.Expansion
import LockDoc.Layout.Offsets
import LockDoc.Layout.Words
import LockDoc.Layout.Rows
import LockDoc.Layout.Flatten
import LockDoc.Coverage.Curves
import LockDoc.Coverage.Spiral
import LockDoc.Coverage.Hilbert
import LockDoc.Coverage.Colours
import LockDoc.Coverage.Usage
import LockDoc.Coverage.Blocks
import LockDoc.Coverage.GcovIo
import LockDoc.Coverage.Notes
import LockDoc.Coverage.Climber
