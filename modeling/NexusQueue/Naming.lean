/-
# Names of keys

The helpers of `redisKeys` are called with arbitrary strings, and none of them escapes
its arguments.  The text of a key determines the family and the argument, so two calls
can only give the same name within the one family that has two helpers: the list of the
queue `q:p` is the list of the queue `q` and the priority `p`.
-/
import NexusQueue.Types

namespace NexusQueue

namespace Naming

/-- A call of a helper of `redisKeys`, or one of its constants.  Priority lists are
named for the priorities other than `normal`. -/
inductive Call where
  | queue (name : QueueName)
  | queuePriority (name : QueueName) (priority : Priority) (h : priority ≠ .normal)
  | job (id : JobId)
  | queueRegistry
  | processing (workerId : WorkerId)
  | dlq (queueName : QueueName)
  | idempotency (key : String)
  | delayed (queueName : QueueName)
  | cronSchedule
  | cronDef (cronId : CronId)
  | rateLimit (queueName : QueueName)
  | heartbeat (workerId : WorkerId)
  | workerMeta (workerId : WorkerId)
  | workerRegistry
  | events

/-- The key a call gives. -/
def Call.key : Call → Key
  | .queue name => redisKeys.queue name
  | .queuePriority name priority _ => redisKeys.queuePriority name priority.name
  | .job id => redisKeys.job id
  | .queueRegistry => redisKeys.queueRegistry
  | .processing w => redisKeys.processing w
  | .dlq q => redisKeys.dlq q
  | .idempotency k => redisKeys.idempotency k
  | .delayed q => redisKeys.delayed q
  | .cronSchedule => redisKeys.cronSchedule
  | .cronDef c => redisKeys.cronDef c
  | .rateLimit q => redisKeys.rateLimit q
  | .heartbeat w => redisKeys.heartbeat w
  | .workerMeta w => redisKeys.workerMeta w
  | .workerRegistry => redisKeys.workerRegistry
  | .events => redisKeys.events

/-- The string a call gives. -/
def Call.text (a : Call) : String := a.key.text

/-- The second call names a priority list of a queue, and the first one the list of the
queue whose name is that of the other queue, a colon and the priority. -/
def imitates : Call → Call → Prop
  | .queue n, .queuePriority q p _ => n = q ++ ":" ++ p.name
  | _, _ => False

/-- The names of the two priorities do not end the same way. -/
theorem queuePriority_inj {q q' : QueueName} {p p' : Priority} (hp : p ≠ .normal)
    (hp' : p' ≠ .normal) (h : q ++ ":" ++ p.name = q' ++ ":" ++ p'.name) : q = q' ∧ p = p' := by
  have hlist : q.toList ++ (":" ++ p.name).toList = q'.toList ++ (":" ++ p'.name).toList := by
    rw [← String.toList_append, ← String.toList_append, ← String.append_assoc,
      ← String.append_assoc, h]
  have last : ∀ (q : QueueName) (p : Priority), (q.toList ++ (":" ++ p.name).toList).getLast? =
      (":" ++ p.name).toList.getLast? := by
    intro q p
    have hsome : (":" ++ p.name).toList.getLast?.isSome = true := by
      cases p <;> decide
    rw [List.getLast?_append, Option.or_of_isSome hsome]
  have hlast := congrArg List.getLast? hlist
  rw [last, last] at hlast
  have hsame : p = p' := by
    cases p with
    | normal => exact absurd rfl hp
    | high =>
        cases p' with
        | high => rfl
        | normal => exact absurd rfl hp'
        | low => exact absurd hlast (by decide)
    | low =>
        cases p' with
        | low => rfl
        | normal => exact absurd rfl hp'
        | high => exact absurd hlast (by decide)
  subst hsame
  exact ⟨String.toList_inj.mp (List.append_cancel_right hlist), rfl⟩

/-- Two different calls give the same key only where one imitates the other. -/
theorem eq_of_key {a b : Call} (h : a.key = b.key) : a = b ∨ imitates a b ∨ imitates b a := by
  cases a with
  | queue n =>
      cases b with
      | queue n' =>
          left
          rw [Key.queue.inj h]
      | queuePriority q p hp => exact Or.inr (Or.inl (Key.queue.inj h))
      | _ => cases h
  | queuePriority q p hp =>
      cases b with
      | queue n => exact Or.inr (Or.inr (Key.queue.inj h).symm)
      | queuePriority q' p' hp' =>
          left
          obtain ⟨rfl, rfl⟩ := queuePriority_inj hp hp' (Key.queue.inj h)
          rfl
      | _ => cases h
  | _ =>
      cases b <;> cases h
      all_goals exact Or.inl rfl

/-- **Names do not collide, unless one imitates another.**  Two calls that give the same
string are the same call, exactly if neither names the list of a queue `q:p` and the
other the list of the queue `q` and the priority `p`. -/
theorem text_eq_iff (a b : Call) :
    (a.text = b.text → a = b) ↔ ¬ imitates a b ∧ ¬ imitates b a := by
  constructor
  · intro h
    have hnot : ∀ {a b : Call}, imitates a b → a.text = b.text ∧ a ≠ b := by
      intro a b hab
      cases a with
      | queue n =>
          cases b with
          | queuePriority q p hp =>
              have hn : n = q ++ ":" ++ p.name := hab
              subst hn
              exact ⟨rfl, by simp⟩
          | _ => exact hab.elim
      | _ => exact hab.elim
    refine ⟨fun hab => ?_, fun hba => ?_⟩
    · exact (hnot hab).2 (h (hnot hab).1)
    · exact (hnot hba).2 (h (hnot hba).1.symm).symm
  · rintro ⟨hab, hba⟩ h
    rcases eq_of_key (Key.text_injective h) with heq | hab' | hba'
    · exact heq
    · exact absurd hab' hab
    · exact absurd hba' hba

/-- The list of the queue `mail:high` is the list of the urgent jobs of the queue
`mail`. -/
theorem two_names_collide :
    ∃ a b : Call, a = .queue "mail:high" ∧ b = .queuePriority "mail" .high (by decide) ∧
      a.text = b.text ∧ a ≠ b :=
  ⟨_, _, rfl, rfl, by decide, by simp⟩

end Naming

end NexusQueue
