import TaskQueue.Data.Table
import TaskQueue.Data.Placement
import TaskQueue.Data.Double
import TaskQueue.Data.Text
import TaskQueue.Data.Arrivals
import TaskQueue.Data.Roster
import TaskQueue.Data.Batch
import TaskQueue.Data.Tally
import TaskQueue.Data.Calendar
import TaskQueue.Data.ClockChange
import TaskQueue.Data.Word
import TaskQueue.Data.Weighted
import TaskQueue.Data.Fields
import TaskQueue.Transition.Run
import TaskQueue.Transition.Keyed
import TaskQueue.Job
import TaskQueue.Broker
import TaskQueue.Lifecycle
import TaskQueue.Observation
import TaskQueue.Memory.Broker
import TaskQueue.Memory.Machine
import TaskQueue.Memory.Steps
import TaskQueue.Memory.Location
import TaskQueue.Memory.Batches
import TaskQueue.Memory.Budget
import TaskQueue.Memory.Loops
import TaskQueue.Memory.Lease
import TaskQueue.Memory.Services
import TaskQueue.Memory.Unique
import TaskQueue.Memory.Errors
import TaskQueue.Memory.Stats
import TaskQueue.Redis.Store
import TaskQueue.Redis.Keys
import TaskQueue.Redis.Scripts
import TaskQueue.Redis.Broker
import TaskQueue.Redis.Machine
import TaskQueue.Redis.Steps
import TaskQueue.Redis.Location
import TaskQueue.Redis.Reexecution
import TaskQueue.Redis.Attempts
import TaskQueue.Fencing
import TaskQueue.Delivery
import TaskQueue.Transitions
import TaskQueue.Redis.Accounting
import TaskQueue.Memory.Waiting
import TaskQueue.Memory.Fifo
import TaskQueue.Conformance.Lockstep
import TaskQueue.Conformance.Reference
import TaskQueue.Conformance.Corresponding
import TaskQueue.Conformance.Promotion
import TaskQueue.Conformance.Reaping
import TaskQueue.Redis.Unique
import TaskQueue.Redis.Durations
import TaskQueue.Redis.Wire
import TaskQueue.Redis.Envelope
import TaskQueue.Redis.Workers
import TaskQueue.Scheduler.Model
import TaskQueue.Scheduler.Ticks
import TaskQueue.Scheduler.Keys
import TaskQueue.Cron.Schedule
import TaskQueue.Cron.Zone
import TaskQueue.Cron.Progress
import TaskQueue.Cron.Scan
import TaskQueue.Cron.Field
import TaskQueue.Cron.Grammar
import TaskQueue.Cron.Ranges
import TaskQueue.Cron.Parse
import TaskQueue.Cron.Gap
import TaskQueue.Scheduler.InMemory
import TaskQueue.Backoff
import TaskQueue.Queues
import TaskQueue.Server.Config
import TaskQueue.Scheduler.Pass
import TaskQueue.Server.Model
import TaskQueue.Server.Pool
import TaskQueue.Server.InFlight
import TaskQueue.Data.Utf8
import TaskQueue.Data.Keyspace
import TaskQueue.Redis.Lua
import TaskQueue.Redis.RoundTrip
import TaskQueue.Redis.Representation
import TaskQueue.Redis.Simulation
import TaskQueue.Redis.Refinement
import TaskQueue.Redis.Sharing
import TaskQueue.Transition.Backlog
import TaskQueue.Phases
import TaskQueue.Server.Loops
import TaskQueue.Redis.Recovery
import TaskQueue.Redis.Promotion
import TaskQueue.Scheduler.Election
import TaskQueue.Redis.Redelivery
import TaskQueue.Server.Mux
import TaskQueue.Cluster.Model
import TaskQueue.Cluster.Leases
import TaskQueue.Cluster.Traces
import TaskQueue.Cluster.Attempts
import TaskQueue.Cluster.Outcomes
import TaskQueue.Data.Successors
import TaskQueue.Cron.Upcoming
import TaskQueue.Transition.Cursor
import TaskQueue.Redis.CronSet
import TaskQueue.Scheduler.Missed
import TaskQueue.Redis.Window
import TaskQueue.Client
import TaskQueue.Server.Cancellation
import TaskQueue.Conformance.Cron
