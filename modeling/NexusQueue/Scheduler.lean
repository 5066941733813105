/-
# The scheduler (`worker/src/scheduler.ts`)

One tick promotes the due jobs of every known queue and then fires the due cron
entries.  Both loops read a list of what is due and then claim the entries one
by one with `ZREM`.
-/
import NexusQueue.Producer
import NexusQueue.Cron

namespace NexusQueue

open Prog (forEach)

namespace Scheduler

/-- The body of the inner loop of `promoteDelayedJobs`: claim one due job and
push it to its ready list. -/
def promoteJob (queue : QueueName) (jobId : JobId) : Async Unit := do
  let removed ← redis.zrem (redisKeys.delayed queue) jobId
  -- another scheduler has claimed the job
  if removed = 0 then pure ()
  else
    let priority ← redis.hgetPriority (redisKeys.job jobId)
    redis.lpush (targetList queue (priority.getD "normal")) jobId
    -- the row keeps its status
    redis.hset (redisKeys.job jobId) { status := some .pending }

/-- The body of the outer loop: read what is due in one queue, then promote
it. -/
def promoteQueue (now : ℕ) (queue : QueueName) : Async Unit := do
  let dueJobs ← redis.zrangebyscore (redisKeys.delayed queue) (some now)
  forEach dueJobs (promoteJob queue)

def promoteDelayedJobs : Async Unit := do
  let queues ← redis.smembers redisKeys.queueRegistry
  let now ← dateNow
  forEach queues (promoteQueue now)

/-- Enqueue one job of a definition that has just been rescheduled. -/
def enqueueCronJob (cronId : CronId) (defRaw : CronHash) : Async Unit := do
  let queueName := defRaw.queue.getD "default"
  let jobName := defRaw.jobName.getD cronId
  match parsePayload defRaw.payload with
  | .error e => throw e
  | .ok payload =>
      let id ← uuidv4
      let nowIso ← dateNow
      let maxAttempts := defRaw.maxAttempts.getD (.of 3)
      let priority := defRaw.priority.getD "normal"
      await (.insert
        { id := id, queueName := queueName, jobName := jobName, payload := some payload
          status := .pending, maxAttempts := maxAttempts.toNumber, priority := priority })
      redis.multi
        [.sadd redisKeys.queueRegistry queueName,
          .hset (redisKeys.job id)
            (newJobHash id queueName jobName (some payload) .pending maxAttempts priority nowIso),
          .lpush (targetList queueName priority) id]

/-- The body of the loop of `fireCronJobs`: claim one due entry, reschedule it,
enqueue its job. -/
def fireCron (cronId : CronId) : Async Unit := do
  let removed ← redis.zrem redisKeys.cronSchedule cronId
  if removed = 0 then pure ()
  else
    let defRaw ← redis.hgetallCron (redisKeys.cronDef cronId)
    match truthy defRaw.cronExpression with
    -- without a definition the entry is dropped
    | none => pure ()
    | some cronExpression =>
        let nextMs ← await (.cronNext cronExpression)
        redis.zadd redisKeys.cronSchedule nextMs cronId
        enqueueCronJob cronId defRaw

def fireCronJobs : Async Unit := do
  let now ← dateNow
  let dueEntries ← redis.zrangebyscore redisKeys.cronSchedule (some (now : ℚ))
  forEach dueEntries fireCron

/-- Execute one tick of the scheduler. -/
def tick : Async Unit := do
  promoteDelayedJobs
  fireCronJobs

end Scheduler

end NexusQueue
