/-
# Job data (`shared/src/types.ts`)

The values that travel between the processes and the stores.  Redis hashes hold
strings only; a field is kept here as the value its string was written from, so
`String(n)` followed by `Number(s)`, and `JSON.stringify` followed by
`JSON.parse`, are exact.  A field that is not set is `none`.  Strings are sequences
of Unicode characters: texts with half of a surrogate pair are left out.
-/
import NexusQueue.Keys

namespace NexusQueue

/-- A JSON value. -/
inductive Json where
  | null
  | bool (b : Bool)
  | num (q : ℚ)
  | str (s : String)
  | arr (xs : List Json)
  | obj (fields : List (String × Json))

/-- The text does not contain the character U+0000, which PostgreSQL does not store. -/
def plain (s : String) : Bool := s.toList.all (· ≠ Char.ofNat 0)

/-! Nor does it store a JSON value with the character in a string or in the name of a field. -/

mutual

def Json.plain : Json → Bool
  | .null | .bool _ | .num _ => true
  | .str s => NexusQueue.plain s
  | .arr xs => plainItems xs
  | .obj fields => plainFields fields

def plainItems : List Json → Bool
  | [] => true
  | x :: xs => x.plain && plainItems xs

def plainFields : List (String × Json) → Bool
  | [] => true
  | x :: fields => plainField x && plainFields fields

def plainField : String × Json → Bool
  | (name, x) => NexusQueue.plain name && x.plain

end

/-- The states of a job. -/
inductive JobStatus where
  | pending | active | completed | failed | delayed | dlq
  deriving DecidableEq, Repr

/-- The priorities a producer may ask for. -/
inductive Priority where
  | high | normal | low
  deriving DecidableEq, Repr

/-- The name of a priority, as it is written to the stores. -/
def Priority.name : Priority → String
  | .high => "high"
  | .normal => "normal"
  | .low => "low"

/-- A string value if it is truthy, that is, present and not empty. -/
def truthy (s : Option String) : Option String := s.filter (· ≠ "")

@[simp] theorem truthy_none : truthy none = none := rfl

@[simp] theorem truthy_blank : truthy (some "") = none := rfl

theorem truthy_some {s : String} (h : s ≠ "") : truthy (some s) = some s := by
  simp [truthy, h]

/-- What an awaited call can reject with. -/
inductive Err where
  | rejected
  | uniqueViolation (constraint : String)
  | invalidValue (column : String)
  | error (message : String)
  deriving DecidableEq, Repr

/-- `err instanceof Error ? err.message : String(err)`. -/
def Err.message : Err → String
  | .rejected => "Connection is closed."
  | .uniqueViolation c => "duplicate key value violates unique constraint \"" ++ c ++ "\""
  | .invalidValue c => "invalid value for column \"" ++ c ++ "\""
  | .error m => m

/-- A string field that holds a number: the decimal text of `q`, or some other
text. -/
inductive Numeral where
  | of (q : ℚ)
  | other (s : String)
  deriving DecidableEq

/-- `Number(s)`; `none` is `NaN`, and the empty string is zero. -/
def Numeral.toNumber : Numeral → Option ℚ
  | .of q => some q
  | .other s => if s = "" then some 0 else none

/-- A string field that holds JSON: the text of `v`, or text that `JSON.parse`
rejects. -/
inductive JsonText where
  | of (v : Json)
  | malformed (s : String)

/-- The truth value of the string. -/
def JsonText.truthy : JsonText → Bool
  | .of _ => true
  | .malformed s => s ≠ ""

/-- `JSON.parse(s)`. -/
def JsonText.parse : JsonText → Except Err Json
  | .of v => .ok v
  | .malformed _ => .error (.error "Unexpected token in JSON")

/-- `text ? JSON.parse(text) : {}`. -/
def parsePayload (text : Option JsonText) : Except Err Json :=
  match text.filter JsonText.truthy with
  | none => .ok (.obj [])
  | some t => t.parse

/-- A time field of a hash: an ISO date, or the empty string. -/
inductive Stamp where
  | blank
  | at (ms : ℕ)
  deriving DecidableEq

/-- The job hash `nexus:job:<id>`, all fields optional. -/
structure JobHash where
  id : Option String := none
  queueName : Option String := none
  jobName : Option String := none
  payload : Option JsonText := none
  status : Option JobStatus := none
  attempts : Option Numeral := none
  maxAttempts : Option Numeral := none
  priority : Option String := none
  errorMessage : Option String := none
  createdAt : Option Stamp := none
  startedAt : Option Stamp := none
  completedAt : Option Stamp := none

/-- `HSET`: the fields given replace the old ones, all others stay. -/
def JobHash.merge (old new : JobHash) : JobHash where
  id := new.id.or old.id
  queueName := new.queueName.or old.queueName
  jobName := new.jobName.or old.jobName
  payload := new.payload.or old.payload
  status := new.status.or old.status
  attempts := new.attempts.or old.attempts
  maxAttempts := new.maxAttempts.or old.maxAttempts
  priority := new.priority.or old.priority
  errorMessage := new.errorMessage.or old.errorMessage
  createdAt := new.createdAt.or old.createdAt
  startedAt := new.startedAt.or old.startedAt
  completedAt := new.completedAt.or old.completedAt

/-- The definition hash `nexus:cron:def:<cronId>`. -/
structure CronHash where
  cronId : Option String := none
  jobName : Option String := none
  payload : Option JsonText := none
  cronExpression : Option String := none
  queue : Option String := none
  maxAttempts : Option Numeral := none
  priority : Option String := none

/-- `HSET` on a definition hash. -/
def CronHash.merge (old new : CronHash) : CronHash where
  cronId := new.cronId.or old.cronId
  jobName := new.jobName.or old.jobName
  payload := new.payload.or old.payload
  cronExpression := new.cronExpression.or old.cronExpression
  queue := new.queue.or old.queue
  maxAttempts := new.maxAttempts.or old.maxAttempts
  priority := new.priority.or old.priority

/-- The bucket hash `nexus:ratelimit:<queue>`. -/
structure RateHash where
  tokens : Option ℚ := none
  lastRefill : Option ℚ := none
  deriving DecidableEq

/-- `HSET` on a bucket hash. -/
def RateHash.merge (old new : RateHash) : RateHash where
  tokens := new.tokens.or old.tokens
  lastRefill := new.lastRefill.or old.lastRefill

/-- The metadata hash `nexus:worker:<workerId>`. -/
structure WorkerMeta where
  status : Option String := none
  queue : Option String := none
  startedAt : Option Stamp := none
  currentJobs : Option ℕ := none
  deriving DecidableEq

/-- `HSET` on a metadata hash. -/
def WorkerMeta.merge (old new : WorkerMeta) : WorkerMeta where
  status := new.status.or old.status
  queue := new.queue.or old.queue
  startedAt := new.startedAt.or old.startedAt
  currentJobs := new.currentJobs.or old.currentJobs

/-- A message on the channel `nexus:events`. -/
structure JobEvent where
  type : String
  jobId : JobId
  jobName : String
  queueName : QueueName
  timestamp : ℕ
  errorMessage : Option String := none

/-- The options of `Producer.enqueue`. -/
structure EnqueueOptions where
  queue : Option QueueName := none
  maxAttempts : Option ℚ := none
  idempotencyKey : Option String := none
  delay : Option ℚ := none
  priority : Option Priority := none

/-- A recurring job, as `CronManager.addJob` takes it. -/
structure CronJobDef where
  cronId : CronId
  jobName : String
  payload : Option Json := none
  cronExpression : String
  queue : Option QueueName := none
  maxAttempts : Option ℚ := none
  priority : Option String := none

/-- The rate limit of a queue. -/
structure RateLimitConfig where
  maxTokens : ℚ
  refillRate : ℚ

end NexusQueue
