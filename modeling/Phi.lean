import Phi.Ring.Link
import Phi.Ring.Bounds
import Phi.Ring.Layout
import Phi.Boot.Apart
import Phi.Tcp.Close
import Phi.Tcp.Deliver
import Phi.Tcp.Send
import Phi.Tcp.Receive
import Phi.Tcp.Wire
import Phi.Tcp.Table
import Phi.Tcp.Emit
import Phi.Blk.Poll
import Phi.Blk.Ends
import Phi.Disk.Order
import Phi.Disk.Once
import Phi.Disk.Engine
import Phi.Disk.Paths
import Phi.Disk.Aperture
import Phi.Rpc.Size
import Phi.Rpc.Stream
import Phi.Rpc.Decoders
import Phi.Rpc.Truncate
import Phi.Rpc.Resync
import Phi.Card.Env
import Phi.Card.Sessions
import Phi.Card.Input
import Phi.Card.Output
import Phi.Serve.Routing
import Phi.Serve.Asking
import Phi.Serve.Holding
import Phi.Serve.Room
import Phi.Serve.Leaving
import Phi.Xfer.Exact
import Phi.Net.Exchange
import Phi.Mvex.Audit
import Phi.Mvex.Tasks
import Phi.Ctl.Exec
import Phi.Dev.HostMem
import Phi.Dev.PhiRpc
import Phi.Dev.Readers
import Phi.Dev.Console
import Phi.Top.Controls
import Phi.Top.Kept
import Phi.Top.Lookup
import Phi.Top.Sort
import Phi.Top.Cores
import Phi.Top.Procs
import Phi.Top.Render
import Phi.Knc.Kernel
import Phi.Knc.Steps
import Phi.Knc.Unpack
import Phi.Knc.Cascade
import Phi.Card.Command
import Phi.Card.Kthreads
import Phi.Ctl.Sizes
import Phi.Top.Interval
import Phi.Card.Numbers
import Phi.Rpc.Scanning
import Phi.Card.Clipping
import Phi.Serve.Draining
import Phi.Knc.Slices
import Phi.Knc.Unffor
import Phi.Mvex.Signals
import Phi.Xfer.Transparent
import Phi.Boot.Handover
import Phi.Top.Shown
import Phi.Knc.Streams
import Phi.Boot.Sfi
import Phi.Dev.Sensors
import Phi.Dev.Typing
