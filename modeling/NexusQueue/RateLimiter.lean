/-
# The token bucket (`worker/src/rate-limiter.ts`)

`checkLimitFallback`, the variant the worker calls: read the bucket, refill it
by the time elapsed, take a token if there is one, write the bucket back.
Arithmetic is exact.
-/
import NexusQueue.Client
import Mathlib.Data.Rat.Floor

namespace NexusQueue

namespace RateLimiter

/-- The tokens in the bucket at time `now`, after refilling. -/
def refilled (config : RateLimitConfig) (now : ℕ) (data : RateHash) : ℚ :=
  let (tokens, lastRefill) := match data.tokens, data.lastRefill with
    | some t, some l => (t, l)
    -- a bucket that is not there is full
    | _, _ => (config.maxTokens, (now : ℚ))
  let elapsed := (now - lastRefill) / 1000
  min config.maxTokens (tokens + elapsed * config.refillRate)

/-- How long to wait for the next whole token. -/
def retryAfter (config : RateLimitConfig) (newTokens : ℚ) : ℚ :=
  ⌈(1 - newTokens) / config.refillRate * 1000⌉

/-- Whether a job may run, and otherwise the wait in milliseconds. -/
def checkLimitFallback (queueName : QueueName) (config : RateLimitConfig) :
    Async (Bool × ℚ) := do
  let now ← dateNow
  let data ← redis.hgetallRate (redisKeys.rateLimit queueName)
  let newTokens := refilled config now data
  if 1 ≤ newTokens then
    redis.hsetRate (redisKeys.rateLimit queueName)
      { tokens := some (newTokens - 1), lastRefill := some (now : ℚ) }
    pure (true, 0)
  else
    redis.hsetRate (redisKeys.rateLimit queueName)
      { tokens := some newTokens, lastRefill := some (now : ℚ) }
    pure (false, retryAfter config newTokens)

end RateLimiter

end NexusQueue
