/-
# The worker (`worker/src/worker.ts`)

The pull loop, the processing of one job with its two ways to end, the start
and stop of a worker, and `processAvailable`, which the tests use in place of the
loop.  An iteration of a `while` loop ends by starting the
next one; a `processOne` call runs on its own from the moment it is dispatched,
and its promise leaves `activeJobs` when the call has settled.
-/
import NexusQueue.RateLimiter

namespace NexusQueue

namespace Worker

/-! ## Pulling -/

/-- The order in which the priorities are tried, by pull index modulo ten. -/
def getPriorityOrder (idx : ℕ) : List Priority :=
  if idx ≤ 5 then [.high, .normal, .low]
  else if idx ≤ 8 then [.normal, .high, .low]
  else [.low, .high, .normal]

/-- Try the ready lists of a queue in turn. -/
def pullFrom (queueName : QueueName) (processingKey : Key) :
    List Priority → Async (Option JobId)
  | [] => pure none
  | priority :: priorities => do
      let jobId ← redis.rpoplpush (targetList queueName priority.name) processingKey
      match truthy jobId with
      | some id => pure (some id)
      | none => pullFrom queueName processingKey priorities

/-- Pull a job if there is one. -/
def pullJobNonBlocking (env : Env) (w : WorkerId) : Async (Option JobId) := do
  let idx ← onWorker w .nextPull
  pullFrom (env.queue w) (redisKeys.processing w) (getPriorityOrder idx)

/-- Pull a job, waiting on the normal list if all lists are empty. -/
def pullJob (env : Env) (w : WorkerId) : Async (Option JobId) := do
  let idx ← onWorker w .nextPull
  let pulled ← pullFrom (env.queue w) (redisKeys.processing w) (getPriorityOrder idx)
  match pulled with
  | some id => pure (some id)
  | none => redis.blmove (redisKeys.queue (env.queue w)) (redisKeys.processing w)

/-- One iteration of the pull loop. -/
def loop (env : Env) (w : WorkerId) : Async Unit := do
  let top ← onWorker w .loopTop
  match top with
  | .exit => onWorker w .loopExit
  | .full snapshot =>
      onWorker w (.race snapshot)
      onWorker w .loopAgain
  | .pull =>
      tryCatch
        (do
          let jobId ← pullJob env w
          match truthy jobId with
          | none => pure ()
          | some id =>
              let _ ← onWorker w (.dispatch id)
              pure ())
        fun _ => sleep 500
      onWorker w .loopAgain

/-! ## Processing one job -/

/-- `Number(field ?? default)`. -/
def numberOr (field : Option Numeral) (default : ℚ) : Option ℚ :=
  (field.getD (.of default)).toNumber

/-- `String(Number(hash.attempts ?? '0') + 1)`. -/
def nextAttempt (attempts : Option Numeral) : Numeral :=
  ((numberOr attempts 0).map (· + 1)).elim (.other "NaN") .of

/-- `a >= b` on numbers; false on `NaN`. -/
def geNumber : Option ℚ → Option ℚ → Bool
  | some a, some b => b ≤ a
  | _, _ => false

/-- `Math.min(1000 * Math.pow(2, attempts - 1), 30000)`, for a whole number of
attempts. -/
def backoff (attempts : ℚ) : ℚ := min (1000 * 2 ^ (⌊attempts⌋ - 1)) 30000

/-- Record the success in both stores and acknowledge. -/
def complete (env : Env) (w : WorkerId) (jobId : JobId) : Async Unit := do
  markJobCompleted jobId
  let completedAt ← dateNow
  redis.hset (redisKeys.job jobId)
    { status := some .completed, completedAt := some (.at completedAt), errorMessage := some "" }
  redis.lrem (redisKeys.processing w) 1 jobId
  -- rejected here, the job is acknowledged and yet goes through `handleFailure`
  let hash ← redis.hgetall (redisKeys.job jobId)
  let now ← dateNow
  redis.publishQuietly
    { type := "job.completed", jobId := jobId, jobName := hash.jobName.getD ""
      queueName := hash.queueName.getD (env.queue w), timestamp := now }

/-- No more retries: into the dead-letter queue. -/
def deadLetter (w : WorkerId) (jobId : JobId) (errorMessage : String) (hash : JobHash) :
    Async Unit := do
  let queueName := hash.queueName.getD "default"
  markJobDlq jobId errorMessage
  let completedAt ← dateNow
  redis.hset (redisKeys.job jobId)
    { status := some .dlq, completedAt := some (.at completedAt)
      errorMessage := some errorMessage }
  redis.lpush (redisKeys.dlq queueName) jobId
  redis.lrem (redisKeys.processing w) 1 jobId
  let now ← dateNow
  redis.publishQuietly
    { type := "job.dlq", jobId := jobId, jobName := hash.jobName.getD ""
      queueName := queueName, timestamp := now, errorMessage := some errorMessage }

/-- Retry with exponential backoff: into the delayed set. -/
def scheduleRetry (w : WorkerId) (jobId : JobId) (attempts : Option ℚ) (hash : JobHash) :
    Async Unit := do
  let queueName := hash.queueName.getD "default"
  let now ← dateNow
  let dueAt := attempts.map fun a => now + backoff a
  markJobDelayed jobId
  redis.hset (redisKeys.job jobId)
    { status := some .delayed, startedAt := some .blank, completedAt := some .blank
      errorMessage := some "" }
  match dueAt with
  -- a score NaN, after the row and the hash have been written
  | none => throw (.error "ERR value is not a valid float")
  | some score =>
      redis.zadd (redisKeys.delayed queueName) score jobId
      redis.lrem (redisKeys.processing w) 1 jobId

def handleFailure (w : WorkerId) (jobId : JobId) (errorMessage : String) : Async Unit := do
  let hash ← redis.hgetall (redisKeys.job jobId)
  let attempts := numberOr hash.attempts 0
  let maxAttempts := numberOr hash.maxAttempts 3
  if geNumber attempts maxAttempts then deadLetter w jobId errorMessage hash
  else scheduleRetry w jobId attempts hash

/-- Give a rate-limited job back to its ready list, in one `MULTI`. -/
def pushBack (w : WorkerId) (jobId : JobId) (queueName : QueueName) (priority : String)
    (retryAfterMs : ℚ) : Async Unit := do
  redis.multi
    [.lrem (redisKeys.processing w) 1 jobId, .lpush (targetList queueName priority) jobId]
  sleep retryAfterMs

/-- Mark the job active and run its handler. -/
def runJob (env : Env) (w : WorkerId) (jobId : JobId) (hash : JobHash) (jobName : String)
    (queueName : QueueName) : Async Unit := do
  markJobActive jobId
  let startedAt ← dateNow
  redis.hset (redisKeys.job jobId)
    { status := some .active, startedAt := some (.at startedAt)
      attempts := some (nextAttempt hash.attempts) }
  let now ← dateNow
  redis.publishQuietly
    { type := "job.started", jobId := jobId, jobName := jobName, queueName := queueName
      timestamp := now }
  if env.handlers w jobName = false then
    handleFailure w jobId ("no handler registered for jobName=\"" ++ jobName ++ "\"")
  else
    match parsePayload hash.payload with
    | .error _ => handleFailure w jobId "payload JSON parse error"
    | .ok payload =>
        tryCatch
          (do
            await (.handler jobName payload ((numberOr hash.attempts 0).map (· + 1)))
            complete env w jobId)
          fun err => handleFailure w jobId err.message

/-- `Worker.processOne`. -/
def processOne (env : Env) (w : WorkerId) (jobId : JobId) : Async Unit := do
  let hash ← redis.hgetall (redisKeys.job jobId)
  match truthy hash.jobName with
  -- without a hash the entry stays on the processing list
  | none => pure ()
  | some jobName =>
      let queueName := hash.queueName.getD (env.queue w)
      match env.rateLimits w queueName with
      | none => runJob env w jobId hash jobName queueName
      | some rateConfig =>
          let result ← RateLimiter.checkLimitFallback queueName rateConfig
          if result.1 then runJob env w jobId hash jobName queueName
          else pushBack w jobId queueName (hash.priority.getD "normal") result.2

/-- The promise in `activeJobs`: `processOne(jobId).then(cb, cb)`. -/
def dispatched (env : Env) (w : WorkerId) (call : ℕ) (jobId : JobId) : Async Unit := do
  tryCatch (processOne env w jobId) fun _ => pure ()
  onWorker w (.settle call)

/-! ## Start, heartbeat and stop -/

/-- The value, `EX 15`, of the heartbeat key. -/
def beat (w : WorkerId) : Async Unit := do
  let now ← dateNow
  redis.set (redisKeys.heartbeat w) (toString now) 15

def start (env : Env) (w : WorkerId) : Async Unit := do
  onWorker w .begin
  redis.sadd redisKeys.workerRegistry w
  beat w
  let startedAt ← dateNow
  redis.hsetMeta (redisKeys.workerMeta w)
    { status := some "active", queue := some (env.queue w), startedAt := some (.at startedAt)
      currentJobs := some 0 }
  onWorker w .armTimer
  onWorker w .launch

/-- `writeHeartbeat`, called by the interval timer while it is armed. -/
def writeHeartbeat (w : WorkerId) : Async Unit := do
  onWorker w .timerFires
  beat w
  let size ← onWorker w .activeCount
  redis.hsetMeta (redisKeys.workerMeta w) { currentJobs := some size }

/-- Drain the calls in `snapshot`, if there are any, for at most 30 s. -/
def drain (w : WorkerId) (snapshot : Finset ℕ) : Async Unit :=
  if snapshot.card > 0 then do
    let now ← dateNow
    let _ ← onWorker w (.drain snapshot (now + 30000))
    pure ()
  else pure ()

def stop (w : WorkerId) : Async Unit := do
  onWorker w .requestStop
  redis.hsetMeta (redisKeys.workerMeta w) { status := some "draining" }
  let snapshot ← onWorker w .snapshot
  drain w snapshot
  onWorker w .awaitLoop
  redis.srem redisKeys.workerRegistry w
  redis.del (redisKeys.heartbeat w)
  redis.del (redisKeys.workerMeta w)
  onWorker w .clearTimer
  onWorker w .finish

/-! ## Without blocking -/

/-- One round of `processAvailable`: wait for a slot, or pull a job.  When there is no job,
`Promise.allSettled` waits for every call that is left. -/
def processAvailable (env : Env) (w : WorkerId) : Async Unit := do
  let activeJobs ← onWorker w .snapshot
  if env.concurrency w ≤ activeJobs.card then do
    onWorker w (.race activeJobs)
    onWorker w .loopAgain
  else do
    let jobId ← pullJobNonBlocking env w
    match truthy jobId with
    | some id => do
        let _ ← onWorker w (.dispatch id)
        onWorker w .loopAgain
    | none => do
        let activeJobs ← onWorker w .snapshot
        Prog.forEach (activeJobs.sort (· ≤ ·)) fun call => onWorker w (.race {call})

end Worker

end NexusQueue
