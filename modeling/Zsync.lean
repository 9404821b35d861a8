import Zsync.Bytes.Text
import Zsync.Bytes.Window
import Zsync.Rsum
import Zsync.Control.Basic
import Zsync.Control.Header
import Zsync.Control.Records
import Zsync.Control.Format
import Zsync.Control.RoundTrip
import Zsync.Control.Target
import Zsync.Control.Maker
import Zsync.Control.Values
import Zsync.Control.Truncated
import Zsync.Data.Chain
import Zsync.Data.Scanner
import Zsync.Matcher.Basic
import Zsync.Matcher.Scan
import Zsync.Matcher.Index
import Zsync.Matcher.Reachable
import Zsync.Matcher.Plain
import Zsync.Matcher.Widths
import Zsync.Data.Prog
import Zsync.Data.Writer
import Zsync.Data.Sparse
import Zsync.Http.Client
import Zsync.Http.Redirect
import Zsync.Http.Ranges
import Zsync.Matcher.Known
import Zsync.Matcher.Confirmed
import Zsync.Matcher.Self
import Zsync.Matcher.Reading
import Zsync.Matcher.Copies
import Zsync.Matcher.Removal
import Zsync.Matcher.Threads
import Zsync.Matcher.Split
import Zsync.Matcher.Shape
import Zsync.Data.Checked
import Zsync.Matcher.Bounds
import Zsync.Matcher.Final
import Zsync.Http.Plan
import Zsync.Assembly.Basic
import Zsync.Assembly.Scan
import Zsync.Assembly.Download
import Zsync.Assembly.Url
import Zsync.Assembly.Complete
import Zsync.Assembly.Rules
import Zsync.Assembly.Fault
import Zsync.Assembly.Output
import Zsync.Assembly.Safety
import Zsync.Assembly.Stale
import Zsync.Assembly.Progress
import Zsync.Assembly.Windows
import Zsync.Assembly.Chunks
import Zsync.Assembly.Honest
import Zsync.Assembly.Delivery
import Zsync.Assembly.Steps
import Zsync.Assembly.Growth
import Zsync.Assembly.Overrun
import Zsync.Assembly.Reports
import Zsync.Assembly.Simulation
import Zsync.Assembly.Isolation
import Zsync.Assembly.Flaky
import Zsync.Assembly.Fetch
import Zsync.Data.Json
import Zsync.Cli.Report
import Zsync.Cli.Retry
import Zsync.Cli.Transfer
import Zsync.Cli.Delivery
import Zsync.Cli.Stdout
import Zsync.Data.Throttle
import Zsync.Cli.Throttle
import Zsync.Cli.Make
