/-
# Redis key names (`shared/src/keys.ts`)

A key is kept in parsed form, `Key.text` is the string that is sent to Redis.
Parsing loses nothing (`Key.text_injective`), so a store indexed by `Key` is a
store indexed by strings.  The ready lists are the one family with two helpers:
`queue` and `queuePriority` both name `nexus:queue:<suffix>`, and two different
(queue, priority) pairs may well name the same list.
-/
import Mathlib.Tactic
import Mathlib.Data.String.Basic

namespace NexusQueue

abbrev JobId := String
abbrev QueueName := String
abbrev WorkerId := String
abbrev CronId := String

/-- The keys of the Redis namespace `nexus:`. -/
inductive Key where
  | queue (suffix : String)
  | job (id : JobId)
  | queues
  | processing (workerId : WorkerId)
  | dlq (queueName : QueueName)
  | idem (key : String)
  | delayed (queueName : QueueName)
  | cronSchedule
  | cronDef (cronId : CronId)
  | ratelimit (queueName : QueueName)
  | heartbeat (workerId : WorkerId)
  | worker (workerId : WorkerId)
  | workers
  | events
  deriving DecidableEq, Repr

/-- The families of keys: the part before the argument. -/
inductive Family where
  | queue | job | queues | processing | dlq | idem | delayed | cronSchedule | cronDef
  | ratelimit | heartbeat | worker | workers | events
  deriving DecidableEq

instance : Fintype Family where
  elems := {.queue, .job, .queues, .processing, .dlq, .idem, .delayed, .cronSchedule,
    .cronDef, .ratelimit, .heartbeat, .worker, .workers, .events}
  complete := by intro f; cases f <;> decide

/-- The fixed text of a family. -/
def Family.text : Family → String
  | queue => "nexus:queue:"
  | job => "nexus:job:"
  | queues => "nexus:queues"
  | processing => "nexus:processing:"
  | dlq => "nexus:dlq:"
  | idem => "nexus:idem:"
  | delayed => "nexus:delayed:"
  | cronSchedule => "nexus:cron:schedule"
  | cronDef => "nexus:cron:def:"
  | ratelimit => "nexus:ratelimit:"
  | heartbeat => "nexus:heartbeat:"
  | worker => "nexus:worker:"
  | workers => "nexus:workers"
  | events => "nexus:events"

/-- No family's text starts with another family's text. -/
theorem Family.eq_of_prefixed :
    ∀ f g : Family, f.text.toList <+: g.text.toList → f = g := by decide +kernel

/-- The family and the argument of a key. -/
def Key.parts : Key → Family × String
  | .queue s => (.queue, s)
  | .job id => (.job, id)
  | .queues => (.queues, "")
  | .processing w => (.processing, w)
  | .dlq q => (.dlq, q)
  | .idem k => (.idem, k)
  | .delayed q => (.delayed, q)
  | .cronSchedule => (.cronSchedule, "")
  | .cronDef c => (.cronDef, c)
  | .ratelimit q => (.ratelimit, q)
  | .heartbeat w => (.heartbeat, w)
  | .worker w => (.worker, w)
  | .workers => (.workers, "")
  | .events => (.events, "")

/-- The string a key stands for. -/
def Key.text (k : Key) : String := k.parts.1.text ++ k.parts.2

theorem Key.parts_injective : Function.Injective Key.parts := by
  intro a b h
  cases a <;> cases b <;> simp_all [Key.parts]

/-- Different keys are different strings. -/
theorem Key.text_injective : Function.Injective Key.text := by
  intro a b h
  have h' : a.parts.1.text.toList ++ a.parts.2.toList =
      b.parts.1.text.toList ++ b.parts.2.toList := by
    rw [← String.toList_append, ← String.toList_append]
    exact congrArg String.toList h
  have hfam : a.parts.1 = b.parts.1 := by
    rcases List.prefix_or_prefix_of_prefix (List.prefix_append _ a.parts.2.toList)
        (h' ▸ List.prefix_append _ b.parts.2.toList) with hp | hp
    · exact Family.eq_of_prefixed _ _ hp
    · exact (Family.eq_of_prefixed _ _ hp).symm
  rw [hfam] at h'
  have harg : a.parts.2 = b.parts.2 := String.toList_inj.mp (List.append_cancel_left h')
  exact Key.parts_injective (Prod.ext hfam harg)

namespace redisKeys

abbrev queue (name : QueueName) : Key := .queue name
abbrev queuePriority (name : QueueName) (priority : String) : Key := .queue (name ++ ":" ++ priority)
abbrev job (id : JobId) : Key := .job id
abbrev queueRegistry : Key := .queues
abbrev processing (workerId : WorkerId) : Key := .processing workerId
abbrev dlq (queueName : QueueName) : Key := .dlq queueName
abbrev idempotency (key : String) : Key := .idem key
abbrev delayed (queueName : QueueName) : Key := .delayed queueName
abbrev cronSchedule : Key := .cronSchedule
abbrev cronDef (cronId : CronId) : Key := .cronDef cronId
abbrev rateLimit (queueName : QueueName) : Key := .ratelimit queueName
abbrev heartbeat (workerId : WorkerId) : Key := .heartbeat workerId
abbrev workerMeta (workerId : WorkerId) : Key := .worker workerId
abbrev workerRegistry : Key := .workers
abbrev events : Key := .events

end redisKeys

/-- The ready list of a queue and priority; every process that routes a job
computes it with this same conditional. -/
def targetList (queueName : QueueName) (priority : String) : Key :=
  if priority = "normal" then redisKeys.queue queueName
  else redisKeys.queuePriority queueName priority

/-- Every ready list is named `nexus:queue:<suffix>`. -/
theorem exists_targetList (queueName : QueueName) (priority : String) :
    ∃ s, targetList queueName priority = .queue s := by
  unfold targetList
  split
  · exact ⟨_, rfl⟩
  · exact ⟨_, rfl⟩

end NexusQueue
