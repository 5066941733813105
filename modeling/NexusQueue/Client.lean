/-
# Client calls and the job DAO (`shared/src/db.ts`)

The calls the processes make on the two clients, under the names they have in
the source, the hash of a new job, and the functions of the job DAO.
-/
import NexusQueue.Command

namespace NexusQueue

/-- `await c`. -/
abbrev await (c : Cmd) : Async c.Resp := Prog.perform c

/-! ## Redis -/

namespace redis

abbrev sadd (k : Key) (m : String) : Async Unit := await (.write (.sadd k m))
abbrev srem (k : Key) (m : String) : Async Unit := await (.write (.srem k m))
abbrev smembers (k : Key) : Async (List String) := await (.smembers k)
abbrev lpush (k : Key) (v : String) : Async Unit := await (.write (.lpush k v))
abbrev lrem (k : Key) (count : ℕ) (v : String) : Async Unit := await (.write (.lrem k count v))
abbrev lrange (k : Key) (start stop : ℤ) : Async (List String) := await (.lrange k start stop)
abbrev rpoplpush (src dst : Key) : Async (Option String) := await (.rpoplpush src dst)
abbrev blmove (src dst : Key) : Async (Option String) := await (.blmove src dst)
abbrev zadd (k : Key) (score : ℚ) (m : String) : Async Unit := await (.write (.zadd k score m))
abbrev zrem (k : Key) (m : String) : Async ℕ := await (.zrem k m)
abbrev zrangebyscore (k : Key) (max : Option ℚ) : Async (List String) :=
  await (.zrangebyscore k max)
abbrev get (k : Key) : Async (Option String) := await (.get k)
abbrev set (k : Key) (v : String) (ex : ℕ) : Async Unit := await (.write (.set k v (some ex)))
abbrev del (k : Key) : Async Unit := await (.write (.del k))
abbrev existsKey (k : Key) : Async Bool := await (.existsKey k)
abbrev hset (k : Key) (fields : JobHash) : Async Unit := await (.write (.hset k fields))
abbrev hgetall (k : Key) : Async JobHash := await (.hgetall k)
abbrev hgetPriority (k : Key) : Async (Option String) := await (.hgetPriority k)
abbrev hsetCron (k : Key) (fields : CronHash) : Async Unit := await (.write (.hsetCron k fields))
abbrev hgetallCron (k : Key) : Async CronHash := await (.hgetallCron k)
abbrev hsetRate (k : Key) (fields : RateHash) : Async Unit := await (.write (.hsetRate k fields))
abbrev hgetallRate (k : Key) : Async RateHash := await (.hgetallRate k)
abbrev hsetMeta (k : Key) (fields : WorkerMeta) : Async Unit :=
  await (.write (.hsetMeta k fields))
abbrev multi (ws : List Write) : Async Unit := await (.multi ws)

/-- `publish(...).catch(() => {})`: a failed publication is ignored. -/
abbrev publishQuietly (e : JobEvent) : Async Unit :=
  tryCatch (await (.publish e)) fun _ => pure ()

end redis

/-- `Date.now()`. -/
abbrev dateNow : Async ℕ := await .now

/-- `uuidv4()`. -/
abbrev uuidv4 : Async Uuid := await .uuid

/-- `await new Promise((r) => setTimeout(r, ms))`. -/
abbrev sleep (ms : ℚ) : Async Unit := await (.sleep ms)

/-- A synchronous stretch of a worker's own code. -/
abbrev onWorker (w : WorkerId) (op : Local) : Async op.Resp := await (.onWorker w op)

/-! ## New jobs -/

/-- The hash a new job starts with. -/
def newJobHash (id : JobId) (queueName : QueueName) (jobName : String) (payload : Option Json)
    (status : JobStatus) (maxAttempts : Numeral) (priority : String) (createdAt : ℕ) : JobHash where
  id := some id
  queueName := some queueName
  jobName := some jobName
  payload := some (payload.elim (.malformed "") .of)
  status := some status
  attempts := some (.of 0)
  maxAttempts := some maxAttempts
  priority := some priority
  errorMessage := some ""
  createdAt := some (.at createdAt)
  startedAt := some .blank
  completedAt := some .blank

/-! ## The job DAO -/

/-- Insert a brand-new job row in `pending` state.  The statement has no
`priority` column. -/
def insertPendingJob (id : Uuid) (queueName : QueueName) (jobName : String)
    (payload : Option Json) (maxAttempts : ℚ) (idempotencyKey : Option String) : Async Unit :=
  await (.insert
    { id := id, queueName := queueName, jobName := jobName, payload := payload
      status := .pending, maxAttempts := some maxAttempts, idempotencyKey := idempotencyKey })

/-- Insert a job in `delayed` state.  The statement has no `idempotency_key`
column. -/
def insertDelayedJob (id : Uuid) (queueName : QueueName) (jobName : String)
    (payload : Option Json) (maxAttempts : ℚ) (delayedUntil : ℚ) (priority : String) :
    Async Unit :=
  await (.insert
    { id := id, queueName := queueName, jobName := jobName, payload := payload
      status := .delayed, maxAttempts := some maxAttempts, delayedUntil := some delayedUntil
      priority := priority })

/-- Mark a job `active`, stamp `started_at`, count the attempt. -/
def markJobActive (jobId : JobId) : Async Unit :=
  await (.update jobId { status := .active, startedAt := .now, countAttempt := true })

/-- Mark a job `completed` and clear its error. -/
def markJobCompleted (jobId : JobId) : Async Unit :=
  await (.update jobId
    { status := .completed, completedAt := .now, errorMessage := some none })

/-- Mark a job `dlq` and persist the error string. -/
def markJobDlq (jobId : JobId) (errorMessage : String) : Async Unit :=
  await (.update jobId
    { status := .dlq, completedAt := .now, errorMessage := some (some errorMessage) })

/-- Reset a job to `pending`, clearing its times. -/
def markJobPendingForRetry (jobId : JobId) : Async Unit :=
  await (.update jobId { status := .pending, startedAt := .null, completedAt := .null })

/-- Fetch a job row. -/
def getJob (jobId : JobId) : Async (Option JobRow) := await (.select jobId)

/-- Mark a job `delayed`, clearing its times. -/
def markJobDelayed (jobId : JobId) : Async Unit :=
  await (.update jobId { status := .delayed, startedAt := .null, completedAt := .null })

end NexusQueue
