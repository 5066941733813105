import NexusQueue.Account
import NexusQueue.Agreement
import NexusQueue.Alone
import NexusQueue.Attempts
import NexusQueue.Audit
import NexusQueue.Auth
import NexusQueue.Claims
import NexusQueue.Client
import NexusQueue.Command
import NexusQueue.Conduct
import NexusQueue.Course
import NexusQueue.Cron
import NexusQueue.CronPass
import NexusQueue.Custody
import NexusQueue.Deduplication
import NexusQueue.Delayed
import NexusQueue.Delivery
import NexusQueue.Denial
import NexusQueue.Discipline
import NexusQueue.Dlq
import NexusQueue.Double
import NexusQueue.Durability
import NexusQueue.Effects
import NexusQueue.Fairness
import NexusQueue.Faulty
import NexusQueue.Fifo
import NexusQueue.Firing
import NexusQueue.Identity
import NexusQueue.Janitor
import NexusQueue.Journal
import NexusQueue.Keys
import NexusQueue.LastWord
import NexusQueue.Layers
import NexusQueue.Lifecycle
import NexusQueue.Limiter
import NexusQueue.Listing
import NexusQueue.Naming
import NexusQueue.Ownership
import NexusQueue.Pace
import NexusQueue.Pass
import NexusQueue.Pool
import NexusQueue.Postgres
import NexusQueue.Producer
import NexusQueue.Prog
import NexusQueue.Promotion
import NexusQueue.Punctual
import NexusQueue.QueueDetail
import NexusQueue.RateLimiter
import NexusQueue.Records
import NexusQueue.Recovery
import NexusQueue.Redis
import NexusQueue.Removal
import NexusQueue.Repertoire
import NexusQueue.Report
import NexusQueue.Requests
import NexusQueue.Requeue
import NexusQueue.Rescheduling
import NexusQueue.Resubmit
import NexusQueue.Revival
import NexusQueue.Routes
import NexusQueue.Routing
import NexusQueue.Salvage
import NexusQueue.Scheduler
import NexusQueue.Sequential
import NexusQueue.Shutdown
import NexusQueue.Simulation
import NexusQueue.Slots
import NexusQueue.SortedSet
import NexusQueue.Stages
import NexusQueue.Standing
import NexusQueue.Standstill
import NexusQueue.Statistics
import NexusQueue.Submission
import NexusQueue.Success
import NexusQueue.Survival
import NexusQueue.Sweep
import NexusQueue.System
import NexusQueue.Tally
import NexusQueue.Throttle
import NexusQueue.TokenBucket
import NexusQueue.Tokens
import NexusQueue.Torn
import NexusQueue.Traces
import NexusQueue.Transition
import NexusQueue.Types
import NexusQueue.Uuid
import NexusQueue.Visible
import NexusQueue.WebSocketManager
import NexusQueue.Worker
