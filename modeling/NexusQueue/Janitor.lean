/-
# The janitor (`worker/src/janitor.ts`)

A tick looks at every registered worker and, where the heartbeat is missing,
pushes every id of the processing list back to its ready list before it deletes
the list and the registration.
-/
import NexusQueue.Client

namespace NexusQueue

open Prog (forEach)

namespace Janitor

/-- The body of the inner loop: push one orphaned job back. -/
def recoverJob (jobId : JobId) : Async Unit := do
  let hash ← redis.hgetall (redisKeys.job jobId)
  let queueName := hash.queueName.getD "default"
  let priority := hash.priority.getD "normal"
  redis.lpush (targetList queueName priority) jobId
  redis.hset (redisKeys.job jobId)
    { status := some .pending, startedAt := some .blank, completedAt := some .blank }
  markJobPendingForRetry jobId

/-- The body of the outer loop: recover one worker if its heartbeat is gone. -/
def recoverWorker (workerId : WorkerId) : Async Unit := do
  let exists' ← redis.existsKey (redisKeys.heartbeat workerId)
  if exists' then pure ()
  else
    let orphanedJobs ← redis.lrange (redisKeys.processing workerId) 0 (-1)
    forEach orphanedJobs recoverJob
    -- whatever has come onto the list since it was read goes with it
    redis.del (redisKeys.processing workerId)
    redis.srem redisKeys.workerRegistry workerId
    redis.del (redisKeys.workerMeta workerId)

/-- Run one janitor cycle. -/
def tick : Async Unit := do
  let workerIds ← redis.smembers redisKeys.workerRegistry
  forEach workerIds recoverWorker

end Janitor

end NexusQueue
