import L2Book.Lib.DList
import L2Book.Lib.Run
import L2Book.Lib.Fair
import L2Book.Lib.Trace
import L2Book.Lib.Cost
import L2Book.Lib.Double
import L2Book.Lib.Ladder
import L2Book.Lib.Linear
import L2Book.Lib.Bytes
import L2Book.Lib.OrderStat
import L2Book.Lib.Lines
import L2Book.Itch.Parser
import L2Book.Itch.Wire
import L2Book.Book.Model
import L2Book.Book.Level
import L2Book.Book.Recentre
import L2Book.Book.Insert
import L2Book.Book.Naive
import L2Book.Book.Pool
import L2Book.Book.Rep
import L2Book.Book.Step
import L2Book.Book.Likeness
import L2Book.Book.Feed
import L2Book.Book.Invariant
import L2Book.Book.Quote
import L2Book.Book.Rebuild
import L2Book.Book.Removal
import L2Book.Book.Window
import L2Book.Book.Contents
import L2Book.Book.Merge
import L2Book.Book.Restart
import L2Book.Book.Capacity
import L2Book.Book.Amortised
import L2Book.Book.TopOfBook
import L2Book.Book.Mirror
import L2Book.Book.BestQty
import L2Book.Book.Priority
import L2Book.Book.Halt
import L2Book.Book.Validator
import L2Book.Book.WireRange
import L2Book.Book.Isolation
import L2Book.Book.Replicas
import L2Book.Book.Session
import L2Book.Book.Ghosts
import L2Book.Book.Reduction
import L2Book.Book.SideBytes
import L2Book.Book.Raise
import L2Book.Book.Sentinel
import L2Book.Book.Analytics
import L2Book.Transport.Execution
import L2Book.Transport.Reader
import L2Book.Transport.Framing
import L2Book.Transport.Sticky
import L2Book.Pipeline
import L2Book.Progress
import L2Book.Replay
import L2Book.Validation
import L2Book.Checkpoints
import L2Book.Verdict
import L2Book.Load
import L2Book.Bench.Histogram
import L2Book.Bench.Percentiles
import L2Book.Lib.Decimal
import L2Book.Csv
import L2Book.Synthetic
import L2Book.Lib.RelAcq
import L2Book.Transport.Observer
import L2Book.Transport.WeakSpsc
import L2Book.WeakPipeline
import L2Book.Strong
import L2Book.WeakProgress
