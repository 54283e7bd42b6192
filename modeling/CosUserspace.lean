import CosUserspace.Contract.Flags
import CosUserspace.Contract.Identity
import CosUserspace.Contract.Sequence
import CosUserspace.Contract.Subscripts
import CosUserspace.Epistle.Calls
import CosUserspace.Epistle.Clients
import CosUserspace.Epistle.Concurrent
import CosUserspace.Epistle.Map
import CosUserspace.Epistle.Table
import CosUserspace.Epistle.Termination
import CosUserspace.Fifo.Invariant
import CosUserspace.Fifo.Leak
import CosUserspace.Fifo.Lord
import CosUserspace.Fifo.Lost
import CosUserspace.Fifo.Policy
import CosUserspace.Fifo.Rollback
import CosUserspace.Fifo.Waiting
import CosUserspace.Kernel
import CosUserspace.Library.Buffer
import CosUserspace.Library.Fairness
import CosUserspace.Library.Numerals
import CosUserspace.Library.OrderedMap
import CosUserspace.Library.Probing
import CosUserspace.Library.Queue
import CosUserspace.Library.Ranks
import CosUserspace.Library.Ring
import CosUserspace.Library.Runs
import CosUserspace.Library.Tracking
import CosUserspace.Library.Waiting
import CosUserspace.Lord.Assignment
import CosUserspace.Lord.Frame
import CosUserspace.Lord.Lifecycle
import CosUserspace.Lord.Model
import CosUserspace.Lord.Rollback
import CosUserspace.Lord.Schedule
import CosUserspace.Lord.Subscripts
import CosUserspace.Lord.Waiting
import CosUserspace.MessageQueue.Channel
import CosUserspace.MessageQueue.Delivery
import CosUserspace.Process.Model
import CosUserspace.Process.Progress
import CosUserspace.Process.Refinement
import CosUserspace.Process.Safety
import CosUserspace.Shinjuku.Asserts
import CosUserspace.Shinjuku.Assignment
import CosUserspace.Shinjuku.Invariant
import CosUserspace.Shinjuku.Lord
import CosUserspace.Shinjuku.Placement
import CosUserspace.Shinjuku.Policy
import CosUserspace.Shinjuku.Rollback
import CosUserspace.Shinjuku.Threads
import CosUserspace.Shinjuku.TimeSlice
import CosUserspace.Shinjuku.Waiting
import CosUserspace.ShootArea
import CosUserspace.Workload.Arrivals
import CosUserspace.Workload.Database
import CosUserspace.Workload.Delivery
import CosUserspace.Workload.Dispatch
import CosUserspace.Workload.Exit
import CosUserspace.Workload.Experiment
import CosUserspace.Workload.Found
import CosUserspace.Workload.Frames
import CosUserspace.Workload.Generator
import CosUserspace.Workload.GeneratorRound
import CosUserspace.Workload.HandOff
import CosUserspace.Workload.Lively
import CosUserspace.Workload.OpenLoop
import CosUserspace.Workload.Ownership
import CosUserspace.Workload.Percentiles
import CosUserspace.Workload.PollRequest
import CosUserspace.Workload.Ready
import CosUserspace.Workload.Reopen
import CosUserspace.Workload.Report
import CosUserspace.Workload.Response
import CosUserspace.Workload.Results
import CosUserspace.Workload.Scheduled
import CosUserspace.Workload.Service
import CosUserspace.Workload.Shutdown
import CosUserspace.Workload.Termination
import CosUserspace.Workload.Throughput
