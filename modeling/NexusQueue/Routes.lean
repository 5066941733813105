/-
# Operator requests (`server/src/routes.ts`)

The two requests that bring dead jobs back: `POST /jobs/:id/retry` for one job, and
`POST /queues/:name/dlq/requeue` for some or all jobs of a dead-letter queue.  An
error that reaches the end of a handler is thrown.
-/
import NexusQueue.Client

namespace NexusQueue

/-- What a request is answered with. -/
inductive Response where
  | notFound
  | notRetriable
  | invalidRequest
  | success
  | requeued (requeued failed : ℕ)
  deriving DecidableEq

namespace Routes

/-- The fields both requests reset in the job hash. -/
def resetFields : JobHash where
  status := some .pending
  attempts := some (.of 0)
  startedAt := some .blank
  completedAt := some .blank
  errorMessage := some ""

/-- Only failed and dead jobs are retried. -/
def retriable (job : JobRow) : Bool := job.status = .failed ∨ job.status = .dlq

/-- Push a job to the ready list of a queue and its priority, and say so. -/
def pushRetried (queueName : QueueName) (id : JobId) (jobName : JobHash → String) :
    Async Unit := do
  let hash ← redis.hgetall (redisKeys.job id)
  redis.lpush (targetList queueName (hash.priority.getD "normal")) id
  let now ← dateNow
  await (.publish
    { type := "job.retried", jobId := id, jobName := jobName hash, queueName := queueName
      timestamp := now })

/-- `POST /jobs/:id/retry`. -/
def retry (id : JobId) : Async Response := do
  let job ← getJob id
  match job with
  | none => pure .notFound
  | some job =>
      if retriable job = false then pure .notRetriable
      else
        markJobPendingForRetry id
        redis.hset (redisKeys.job id) resetFields
        redis.lrem (redisKeys.dlq job.queueName) 0 id
        pushRetried job.queueName id fun _ => job.jobName
        pure .success

/-- The body of the loop of `requeue`. -/
def requeueJob (name : QueueName) (id : JobId) : Async Unit := do
  markJobPendingForRetry id
  redis.hset (redisKeys.job id) resetFields
  redis.lrem (redisKeys.dlq name) 1 id
  pushRetried name id fun hash => hash.jobName.getD ""

/-- The loop of `requeue`: a job that fails is counted and passed over. -/
def requeueJobs (name : QueueName) (requeued failed : ℕ) : List JobId → Async Response
  | [] => pure (.requeued requeued failed)
  | id :: jobIds => do
      let ok ← tryCatch (do requeueJob name id; pure true) fun _ => pure false
      if ok then requeueJobs name (requeued + 1) failed jobIds
      else requeueJobs name requeued (failed + 1) jobIds

/-- `POST /queues/:name/dlq/requeue`. -/
def requeue (name : QueueName) (body : RequeueBody) : Async Response :=
  if body.all then do
    let jobIds ← redis.lrange (redisKeys.dlq name) 0 (-1)
    requeueJobs name 0 0 jobIds
  else
    match body.jobIds with
    | some jobIds => requeueJobs name 0 0 jobIds
    | none => pure .invalidRequest

end Routes

end NexusQueue
