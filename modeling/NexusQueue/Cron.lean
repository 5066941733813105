/-
# Recurring jobs (`worker/src/cron.ts`)

`CronManager` keeps the definition of a recurring job in a hash and its next run
in the sorted set `nexus:cron:schedule`.
-/
import NexusQueue.Client

namespace NexusQueue

namespace CronManager

/-- `payload ?? {}`: a payload that is `null` counts as none. -/
def payloadOrEmpty : Option Json → Json
  | none => .obj []
  | some .null => .obj []
  | some v => v

/-- Register a recurring job: store the definition, schedule the next run. -/
def addJob (job : CronJobDef) : Async Unit := do
  let nextMs ← await (.cronNext job.cronExpression)
  redis.hsetCron (redisKeys.cronDef job.cronId)
    { cronId := some job.cronId
      jobName := some job.jobName
      payload := some (.of (payloadOrEmpty job.payload))
      cronExpression := some job.cronExpression
      queue := some (job.queue.getD "default")
      maxAttempts := some (.of (job.maxAttempts.getD 3))
      priority := some (job.priority.getD "normal") }
  redis.zadd redisKeys.cronSchedule nextMs job.cronId

/-- Remove a recurring job: the definition first, then the schedule entry. -/
def removeJob (cronId : CronId) : Async Unit := do
  redis.del (redisKeys.cronDef cronId)
  let _ ← redis.zrem redisKeys.cronSchedule cronId
  pure ()

/-- What `listJobs` says of a recurring job.  Its attempts are `none` where the field is not
a number. -/
structure ListedJob where
  cronId : CronId
  jobName : String
  payload : Json
  cronExpression : String
  queue : Option QueueName
  options : Option (Option ℚ × String)

/-- The entry of a stored definition, if it has an id. -/
def listed (data : CronHash) : Except Err (Option ListedJob) :=
  match truthy data.cronId with
  | none => .ok none
  | some cronId =>
      (parsePayload data.payload).map fun payload => some
        { cronId := cronId
          jobName := data.jobName.getD ""
          payload := payload
          cronExpression := data.cronExpression.getD ""
          queue := truthy data.queue
          options :=
            let maxAttempts := data.maxAttempts.filter (· ≠ .other "")
            if maxAttempts.isSome || (truthy data.priority).isSome then
              some (maxAttempts.elim (some 3) Numeral.toNumber, data.priority.getD "normal")
            else none }

/-- The loop of `listJobs`. -/
def listFrom : List CronId → Async (List ListedJob)
  | [] => pure []
  | cronId :: cronIds => do
      let data ← redis.hgetallCron (redisKeys.cronDef cronId)
      match listed data with
      | .error e => throw e
      | .ok job => do
          let jobs ← listFrom cronIds
          pure (job.toList ++ jobs)

/-- List all registered recurring jobs. -/
def listJobs : Async (List ListedJob) := do
  let cronIds ← redis.zrangebyscore redisKeys.cronSchedule none
  listFrom cronIds

end CronManager

end NexusQueue
