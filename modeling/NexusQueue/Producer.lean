/-
# The producer (`server/src/producer.ts`)

`Producer.enqueue`, statement by statement: the idempotency lookup, the audit
row in Postgres, then one `MULTI` that makes the job visible, then the
idempotency entry.
-/
import NexusQueue.Client

namespace NexusQueue

def DEFAULT_QUEUE : QueueName := "default"
def DEFAULT_MAX_ATTEMPTS : ℚ := 3

namespace Producer

/-- The delayed path: an audit row, then hash and sorted set in one `MULTI`. -/
def enqueueDelayed (id : Uuid) (jobName : String) (payload : Option Json)
    (queueName : QueueName) (maxAttempts : ℚ) (priority : String) (nowIso : ℕ) (delay : ℚ) :
    Async Unit := do
  let now ← dateNow
  let dueAt := now + delay
  -- this statement has no column for the idempotency key
  insertDelayedJob id queueName jobName payload maxAttempts dueAt priority
  redis.multi
    [.sadd redisKeys.queueRegistry queueName,
      .hset (redisKeys.job id)
        (newJobHash id queueName jobName payload .delayed (.of maxAttempts) priority nowIso),
      .zadd (redisKeys.delayed queueName) dueAt id]

/-- The immediate path: an audit row, then hash and ready list in one
`MULTI`. -/
def enqueueImmediate (id : Uuid) (jobName : String) (payload : Option Json)
    (queueName : QueueName) (maxAttempts : ℚ) (priority : String) (nowIso : ℕ)
    (idempotencyKey : Option String) : Async Unit := do
  -- and this one none for the priority, which is in the hash only
  insertPendingJob id queueName jobName payload maxAttempts idempotencyKey
  redis.multi
    [.sadd redisKeys.queueRegistry queueName,
      .hset (redisKeys.job id)
        (newJobHash id queueName jobName payload .pending (.of maxAttempts) priority nowIso),
      .lpush (targetList queueName priority) id]

/-- The branch on `delay`. -/
def store (id : Uuid) (jobName : String) (payload : Option Json) (options : EnqueueOptions)
    (queueName : QueueName) (nowIso : ℕ) : Async Unit :=
  let maxAttempts := options.maxAttempts.getD DEFAULT_MAX_ATTEMPTS
  let priority := (options.priority.getD .normal).name
  match options.delay.filter (0 < ·) with
  | some delay =>
      enqueueDelayed id jobName payload queueName maxAttempts priority nowIso delay
  | none =>
      enqueueImmediate id jobName payload queueName maxAttempts priority nowIso
        (truthy options.idempotencyKey)

/-- Store the idempotency key for future lookups, for 24 h. -/
def remember (idempotencyKey : Option String) (id : JobId) : Async Unit :=
  match truthy idempotencyKey with
  | some key => redis.set (redisKeys.idempotency key) id 86400
  | none => pure ()

/-- The part of `enqueue` after the idempotency lookup. -/
def create (jobName : String) (payload : Option Json) (options : EnqueueOptions) :
    Async JobId := do
  let id ← uuidv4
  let queueName := options.queue.getD DEFAULT_QUEUE
  let nowIso ← dateNow
  store id jobName payload options queueName nowIso
  remember options.idempotencyKey id
  let now ← dateNow
  await (.publish
    { type := "job.created", jobId := id, jobName := jobName, queueName := queueName
      timestamp := now })
  pure id

/-- `Producer.enqueue`, with an event bus. -/
def enqueue (jobName : String) (payload : Option Json) (options : EnqueueOptions) :
    Async JobId := do
  if jobName = "" then
    throw (.error "enqueue: jobName must be a non-empty string")
  else
    match truthy options.idempotencyKey with
    | none => create jobName payload options
    | some key =>
        let existing ← redis.get (redisKeys.idempotency key)
        match truthy existing with
        | some jobId => pure jobId
        | none => create jobName payload options

end Producer

end NexusQueue
