/-
# What tasks never do

The custody protocol says nothing about the fields of a hash that change while a job is
processed, and nothing about the rate limiter.  `Task.may` does, for all tasks but
`processOne` calls: only a call runs a handler, writes a bucket of the rate limiter and
counts an attempt, and apart from it only a new job and an operator set the number of
attempts, to zero.

Nor does any task write the definition of a recurring job under the key of another one
(`Cmd.Named`); tasks other than the start, the stop and the heartbeat of a worker leave no
trace of one (`only_traceless`); and a call keeps to the commands of `Cmd.processes`, at its end to those of
`Cmd.concludes`.
-/
import NexusQueue.Layers
import NexusQueue.System

namespace NexusQueue

open Prog (Only only_pure only_throw only_bind only_handle only_perform only_step only_forEach)

/-- What tasks other than `processOne` calls may do. -/
def Task.may (t : Task) : Cmd → Prop
  | .write (.hsetRate _ _) | .handler _ _ _ => False
  | .update _ p => p.countAttempt = false
  | .write (.hset _ f) => f.attempts = none ∨ t.operator ∧ f.attempts = some (.of 0)
  | .multi ws => ∀ k f, Write.hset k f ∈ ws → f.attempts = some (.of 0)
  | _ => True

/-- Commands that touch neither the records of a job nor the buckets of the rate limiter,
and put no job into a ready list or a dead-letter queue. -/
def Cmd.plain : Cmd → Prop
  | .write (.hset _ _) | .write (.hsetRate _ _) | .write (.lpush _ _) => False
  | .multi _ | .hgetall _ | .insert _ | .update _ _ | .handler _ _ _ => False
  | _ => True

/-- Commands of one kind, except that a definition is written under its own key. -/
def Cmd.Named (S : Cmd → Prop) : Cmd → Prop
  | .write (.hsetCron k f) =>
      S (.write (.hsetCron k f)) ∧ ∃ c, k = redisKeys.cronDef c ∧ f.cronId = some c
  | c => S c

/-- Any command, except that a definition is written under its own key. -/
abbrev Cmd.wellNamed : Cmd → Prop := Cmd.Named fun _ => True

/-- Writes that leave no trace of a worker: no entry in the registry, no heartbeat and no
metadata. -/
def Write.traceless : Write → Prop
  | .sadd k _ => k ≠ redisKeys.workerRegistry
  | .set k _ _ => ∀ w, k ≠ redisKeys.heartbeat w
  | .hsetMeta _ _ => False
  | _ => True

/-- Commands that leave no trace of a worker, and neither begin nor finish its work. -/
def Cmd.traceless : Cmd → Prop
  | .write x => x.traceless
  | .multi ws => ∀ x ∈ ws, x.traceless
  | .onWorker _ .begin | .onWorker _ .finish => False
  | _ => True

/-- The commands of one kind that leave no trace of a worker. -/
def Cmd.Kept (S : Cmd → Prop) (c : Cmd) : Prop := Cmd.Named S c ∧ c.traceless

/-- The commands of a promotion. -/
def Cmd.promotes : Cmd → Prop
  | .smembers _ | .now | .hgetPriority _ | .write (.lpush _ _) => True
  | .zrangebyscore k _ | .zrem k _ => ∃ q, k = redisKeys.delayed q
  | .write (.hset _ f) => f = { status := some .pending }
  | _ => False

/-- The commands that end a call: no attempt is made or counted any more. -/
def Cmd.concludes : Cmd → Prop
  | .hgetall _ | .now | .publish _ => True
  | .write (.lpush _ _) | .write (.lrem _ _ _) | .write (.zadd _ _ _) => True
  | .write (.hset _ f) => f.attempts = none
  | .update _ p => p.countAttempt = false
  | _ => False

/-- The commands of a call until it settles. -/
def Cmd.processes : Cmd → Prop
  | .hgetall _ | .hgetallRate _ | .now | .sleep _ | .publish _ | .handler _ _ _ => True
  | .write (.lpush _ _) | .write (.lrem _ _ _) | .write (.zadd _ _ _) => True
  | .write (.hset _ _) | .write (.hsetRate _ _) | .update _ _ => True
  | .multi ws => ∃ k k' j, ws = [.lrem k 1 j, .lpush k' j]
  | _ => False

/-- The tasks that are about a worker as a whole. -/
def Task.traces : Task → Prop
  | .start _ | .stop _ | .heartbeat _ => True
  | _ => False

instance : (t : Task) → Decidable t.traces
  | .start _ | .stop _ | .heartbeat _ => .isTrue trivial
  | .enqueue _ _ _ | .tick | .loop _ | .processOne _ _ _ | .janitor => .isFalse id
  | .addJob _ | .removeJob _ | .retry _ | .requeue _ _ => .isFalse id

/-- The tasks that keep to them. -/
def Task.plain : Task → Prop
  | .start _ | .loop _ | .stop _ | .heartbeat _ | .addJob _ | .removeJob _ => True
  | _ => False

/-- They are of that kind. -/
theorem Cmd.Named.kind {S : Cmd → Prop} {c : Cmd} (h : Cmd.Named S c) : S c := by
  unfold Cmd.Named at h
  split at h
  · exact h.1
  · exact h

/-- Commands of one kind are of any wider kind. -/
theorem Cmd.Named.mono {S S' : Cmd → Prop} {c : Cmd} (h : Cmd.Named S c) (hS : ∀ c, S c → S' c) :
    Cmd.Named S' c := by
  unfold Cmd.Named at h ⊢
  split at h
  · exact ⟨hS _ h.1, h.2⟩
  · exact hS _ h

/-- What ends a call is part of it. -/
theorem Cmd.concludes.processes {c : Cmd} (h : c.concludes) : c.processes := by
  cases c with
  | write w => cases w <;> first | exact h.elim | trivial
  | hgetall _ | now | publish _ | update _ _ => trivial
  | _ => exact h.elim

/-- A call writes no definition. -/
theorem Cmd.processes.named {c : Cmd} (h : c.processes) : c.wellNamed := by
  cases c with
  | write w => cases w <;> first | exact h.elim | trivial
  | _ => trivial

/-- Any task may issue them. -/
theorem Cmd.plain.may {c : Cmd} (h : c.plain) (t : Task) : t.may c := by
  cases c with
  | write w => cases w <;> first | exact h.elim | trivial
  | multi ws => exact h.elim
  | update id p => exact h.elim
  | handler n v a => exact h.elim
  | _ => trivial

namespace Repertoire

theorem loop_plain (env : Env) (w : WorkerId) :
    Only (Cmd.Kept Cmd.plain) (Worker.loop env w) := by
  have pull : ∀ ps, Only (Cmd.Kept Cmd.plain)
      (Worker.pullFrom (env.queue w) (redisKeys.processing w) ps) := by
    intro ps
    induction ps with
    | nil => exact only_pure _
    | cons p ps ih =>
        refine only_step ⟨trivial, trivial⟩ fun r => ?_
        cases truthy r with
        | some id => exact only_pure _
        | none => exact ih
  refine only_step ⟨trivial, trivial⟩ fun top => ?_
  cases top with
  | exit => exact only_perform ⟨trivial, trivial⟩
  | full snapshot => exact only_step ⟨trivial, trivial⟩ fun _ => only_perform ⟨trivial, trivial⟩
  | pull =>
      refine only_bind (only_handle (only_bind ?_ fun r => ?_) fun _ => only_perform ⟨trivial, trivial⟩)
        fun _ => only_perform ⟨trivial, trivial⟩
      · refine only_step ⟨trivial, trivial⟩ fun idx => only_bind (pull _) fun r => ?_
        cases r with
        | some id => exact only_pure _
        | none => exact only_perform ⟨trivial, trivial⟩
      · cases truthy r with
        | some id => exact only_step ⟨trivial, trivial⟩ fun _ => only_pure _
        | none => exact only_pure _

theorem stop_plain (w : WorkerId) : Only (Cmd.Named Cmd.plain) (Worker.stop w) := by
  refine only_step trivial fun _ => only_step trivial fun _ => only_step trivial fun snapshot =>
    only_bind ?_ fun _ => ?_
  · unfold Worker.drain
    split
    · exact only_step trivial fun _ => only_step trivial fun _ => only_pure _
    · exact only_pure _
  · exact only_step trivial fun _ => only_step trivial fun _ => only_step trivial fun _ =>
      only_step trivial fun _ => only_step trivial fun _ => only_perform trivial

theorem addJob_only (job : CronJobDef) : Only (Cmd.Kept Cmd.plain) (CronManager.addJob job) :=
  only_step ⟨trivial, trivial⟩ fun _ => only_step ⟨⟨trivial, _, rfl, rfl⟩, trivial⟩ fun _ =>
    only_perform ⟨trivial, trivial⟩

theorem removeJob_only (c : CronId) : Only (Cmd.Kept Cmd.plain) (CronManager.removeJob c) :=
  only_step ⟨trivial, trivial⟩ fun _ => only_step ⟨trivial, trivial⟩ fun _ => only_pure _

/-- The tasks that touch no record of a job. -/
theorem plain_named (env : Env) {t : Task} (ht : t.plain) :
    Only (Cmd.Named Cmd.plain) (body env t) := by
  cases t with
  | start w =>
      refine only_bind ?_ fun _ => only_pure _
      refine only_step trivial fun _ => only_step trivial fun _ => only_bind ?_ fun _ => ?_
      · exact only_step trivial fun _ => only_perform trivial
      · exact only_step trivial fun _ => only_step trivial fun _ => only_step trivial fun _ =>
          only_perform trivial
  | loop w => exact (only_bind (loop_plain env w) fun _ => only_pure _).mono fun _ hc => hc.1
  | stop w => exact only_bind (stop_plain w) fun _ => only_pure _
  | heartbeat w =>
      refine only_bind ?_ fun _ => only_pure _
      refine only_step trivial fun _ => only_bind ?_ fun _ => ?_
      · exact only_step trivial fun _ => only_perform trivial
      · exact only_step trivial fun _ => only_perform trivial
  | addJob job =>
      exact (only_bind (addJob_only job) fun _ => only_pure _).mono fun _ hc => hc.1
  | removeJob c =>
      exact (only_bind (removeJob_only c) fun _ => only_pure _).mono fun _ hc => hc.1
  | _ => exact ht.elim

theorem only_plain (env : Env) {t : Task} (ht : t.plain) : Only Cmd.plain (body env t) :=
  (plain_named env ht).mono fun _ hc => hc.kind

/-- A `MULTI` that publishes a new job counts no attempt. -/
theorem may_publish {t : Task} {q : QueueName} {id : JobId} {n : String}
    {p : Option Json} {st : JobStatus} {m : Numeral} {pr : String} {now : ℕ} {w : Write}
    (hw : ∀ k f, w ≠ .hset k f) (htrace : w.traceless) :
    Cmd.Kept t.may
      (.multi [.sadd redisKeys.queueRegistry q,
        .hset (redisKeys.job id) (newJobHash id q n p st m pr now), w]) := by
  refine ⟨fun k' f hf => ?_, fun x hx => ?_⟩
  · simp only [List.mem_cons, List.not_mem_nil, or_false] at hf
    rcases hf with hf | hf | hf
    · cases hf
    · cases hf
      rfl
    · exact absurd hf.symm (hw k' f)
  · simp only [List.mem_cons, List.not_mem_nil, or_false] at hx
    rcases hx with rfl | rfl | rfl
    · simp [Write.traceless, redisKeys.queueRegistry, redisKeys.workerRegistry]
    · trivial
    · exact htrace

theorem enqueue_only (n : String) (p : Option Json) (o : EnqueueOptions) {t : Task} :
    Only (Cmd.Kept t.may) (Producer.enqueue n p o) := by
  have create : Only (Cmd.Kept t.may) (Producer.create n p o) := by
    refine only_step ⟨trivial, trivial⟩ fun id => only_step ⟨trivial, trivial⟩ fun nowIso => only_bind ?_ fun _ => ?_
    · unfold Producer.store
      cases o.delay.filter (0 < ·) with
      | some delay =>
          exact only_step ⟨trivial, trivial⟩ fun now => only_step ⟨trivial, trivial⟩ fun _ =>
            only_perform (may_publish (by simp) trivial)
      | none => exact only_step ⟨trivial, trivial⟩ fun _ => only_perform (may_publish (by simp [targetList]) trivial)
    · refine only_bind ?_ fun _ => only_step ⟨trivial, trivial⟩ fun now => only_step ⟨trivial, trivial⟩ fun _ => only_pure _
      unfold Producer.remember
      cases truthy o.idempotencyKey with
      | some key =>
          have hkey : ∀ w, redisKeys.idempotency key ≠ redisKeys.heartbeat w := by
            intro w hkey
            cases hkey
          exact only_perform ⟨trivial, hkey⟩
      | none => trivial
  unfold Producer.enqueue
  split
  · exact only_throw _
  · cases truthy o.idempotencyKey with
    | none => exact create
    | some key =>
        refine only_step ⟨trivial, trivial⟩ fun existing => ?_
        cases truthy existing with
        | some j => exact only_pure _
        | none => exact create

theorem promoteDelayedJobs_only : Only Cmd.promotes Scheduler.promoteDelayedJobs := by
  refine only_step trivial fun queues => only_step trivial fun now =>
    only_forEach (fun q => ?_) queues
  refine only_step ⟨q, rfl⟩ fun dueJobs => only_forEach (fun j => ?_) dueJobs
  refine only_step ⟨q, rfl⟩ fun removed => ?_
  split
  · exact only_pure _
  · exact only_step trivial fun _ => only_step trivial fun _ => only_perform rfl

theorem tick_only : Only (Cmd.Kept (Task.may .tick)) Scheduler.tick := by
  refine only_bind (promoteDelayedJobs_only.mono fun c hc => ?_) fun _ => ?_
  · cases c with
    | write w =>
        cases w with
        | hset k f =>
            cases hc
            exact ⟨Or.inl rfl, trivial⟩
        | lpush k v => exact ⟨trivial, trivial⟩
        | _ => exact hc.elim
    | smembers _ | now | hgetPriority _ | zrangebyscore _ _ | zrem _ _ =>
        exact ⟨trivial, trivial⟩
    | _ => exact hc.elim
  · refine only_step ⟨trivial, trivial⟩ fun now => only_step ⟨trivial, trivial⟩ fun dueEntries =>
      only_forEach (fun c => ?_) dueEntries
    refine only_step ⟨trivial, trivial⟩ fun removed => ?_
    split
    · exact only_pure _
    · refine only_step ⟨trivial, trivial⟩ fun defRaw => ?_
      cases truthy defRaw.cronExpression with
      | none => exact only_pure _
      | some e =>
          refine only_step ⟨trivial, trivial⟩ fun nextMs => only_step ⟨trivial, trivial⟩ fun _ => ?_
          unfold Scheduler.enqueueCronJob
          cases parsePayload defRaw.payload with
          | error e => exact only_throw _
          | ok payload =>
              exact only_step ⟨trivial, trivial⟩ fun id => only_step ⟨trivial, trivial⟩ fun nowIso =>
                only_step ⟨trivial, trivial⟩ fun _ => only_perform (may_publish (by simp) trivial)

theorem janitor_only {t : Task} : Only (Cmd.Kept t.may) Janitor.tick := by
  refine only_step ⟨trivial, trivial⟩ fun workerIds => only_forEach (fun w => ?_) workerIds
  refine only_step ⟨trivial, trivial⟩ fun found => ?_
  split
  · exact only_pure _
  · refine only_step ⟨trivial, trivial⟩ fun orphans => only_bind (only_forEach (fun j => ?_) orphans) fun _ =>
      only_step ⟨trivial, trivial⟩ fun _ => only_step ⟨trivial, trivial⟩ fun _ => only_perform ⟨trivial, trivial⟩
    refine only_step ⟨trivial, trivial⟩ fun hash => ?_
    refine only_step ⟨trivial, trivial⟩ fun _ => only_step ⟨Or.inl rfl, trivial⟩ fun _ => only_perform ⟨rfl, trivial⟩

/-- What both requests do with a job that has been lifted out of its queue. -/
theorem pushRetried_only (q : QueueName) (id : JobId) (f : JobHash → String) {t : Task} :
    Only (Cmd.Kept t.may) (Routes.pushRetried q id f) := by
  refine only_step ⟨trivial, trivial⟩ fun hash => ?_
  exact only_step ⟨trivial, trivial⟩ fun _ => only_step ⟨trivial, trivial⟩ fun _ => only_perform ⟨trivial, trivial⟩

theorem retry_only (id : JobId) :
    Only (Cmd.Kept (Task.may (.retry id))) (Routes.retry id) := by
  refine only_step ⟨trivial, trivial⟩ fun job => ?_
  cases job with
  | none => exact only_pure _
  | some job =>
      change Only _ (if Routes.retriable job = false then _ else _)
      split
      · exact only_pure _
      · exact only_step ⟨rfl, trivial⟩ fun _ => only_step ⟨Or.inr ⟨trivial, rfl⟩, trivial⟩ fun _ =>
          only_step ⟨trivial, trivial⟩ fun _ => only_bind (pushRetried_only _ _ _) fun _ => only_pure _

theorem requeue_only (q : QueueName) (b : RequeueBody) :
    Only (Cmd.Kept (Task.may (.requeue q b))) (Routes.requeue q b) := by
  have jobs : ∀ ids n m, Only (Cmd.Kept (Task.may (.requeue q b)))
      (Routes.requeueJobs q n m ids) := by
    intro ids
    induction ids with
    | nil => exact fun _ _ => only_pure _
    | cons id ids ih =>
        intro n m
        refine only_bind (only_handle (only_bind ?_ fun _ => only_pure _) fun _ => only_pure _)
          fun ok => ?_
        · exact only_step ⟨rfl, trivial⟩ fun _ => only_step ⟨Or.inr ⟨trivial, rfl⟩, trivial⟩ fun _ =>
            only_step ⟨trivial, trivial⟩ fun _ => pushRetried_only _ _ _
        · split
          · exact ih _ _
          · exact ih _ _
  unfold Routes.requeue
  split
  · exact only_step ⟨trivial, trivial⟩ fun ids => jobs ids 0 0
  · cases b.jobIds with
    | some ids => exact jobs ids 0 0
    | none => exact only_pure _

/-- A task that is neither a call nor about a worker as a whole. -/
theorem kept (env : Env) {t : Task} (ht : ∀ w n j, t ≠ .processOne w n j) (htr : ¬ t.traces) :
    Only (Cmd.Kept t.may) (body env t) := by
  have plain : ∀ {p : Async (Option JobId)}, Only (Cmd.Kept Cmd.plain) p →
      Only (Cmd.Kept t.may) p :=
    fun hp => hp.mono fun c hc => ⟨hc.1.mono fun c hc => hc.may t, hc.2⟩
  cases t with
  | enqueue n p o => exact only_bind (enqueue_only n p o) fun _ => only_pure _
  | tick => exact only_bind tick_only fun _ => only_pure _
  | processOne w n j => exact absurd rfl (ht w n j)
  | janitor => exact only_bind janitor_only fun _ => only_pure _
  | retry id => exact only_bind (retry_only id) fun _ => only_pure _
  | requeue q b => exact only_bind (requeue_only q b) fun _ => only_pure _
  | loop w => exact plain (only_bind (loop_plain env w) fun _ => only_pure _)
  | addJob job => exact plain (only_bind (addJob_only job) fun _ => only_pure _)
  | removeJob c => exact plain (only_bind (removeJob_only c) fun _ => only_pure _)
  | start w | stop w | heartbeat w => exact absurd trivial htr

theorem may_named (env : Env) {t : Task} (ht : ∀ w n j, t ≠ .processOne w n j) :
    Only (Cmd.Named t.may) (body env t) := by
  by_cases htr : t.traces
  · refine (plain_named env ?_).mono fun c hc => hc.mono fun c hc => hc.may _
    cases t <;> trivial
  · exact (kept env ht htr).mono fun _ hc => hc.1

/-- **No other task does what a call does.** -/
theorem only_may (env : Env) {t : Task} (ht : ∀ w n j, t ≠ .processOne w n j) :
    Only t.may (body env t) :=
  (may_named env ht).mono fun _ hc => hc.kind

/-! ## Calls -/

theorem publishQuietly_concludes (e : JobEvent) :
    (redis.publishQuietly e).Only Cmd.concludes :=
  only_handle (only_perform trivial) fun _ => only_pure _

theorem complete_concludes (env : Env) (w : WorkerId) (j : JobId) :
    (Worker.complete env w j).Only Cmd.concludes := by
  refine only_step rfl fun _ => only_step trivial fun _ => only_step rfl fun _ => ?_
  refine only_step trivial fun _ => only_step trivial fun _ => only_step trivial fun _ => ?_
  exact publishQuietly_concludes _

theorem handleFailure_concludes (w : WorkerId) (j : JobId) (message : String) :
    (Worker.handleFailure w j message).Only Cmd.concludes := by
  refine only_step trivial fun h => ?_
  change Only _ (if _ then _ else _)
  split
  · refine only_step rfl fun _ => only_step trivial fun _ => only_step rfl fun _ => ?_
    refine only_step trivial fun _ => only_step trivial fun _ => only_step trivial fun _ => ?_
    exact publishQuietly_concludes _
  · refine only_step trivial fun now => only_step rfl fun _ => only_step rfl fun _ => ?_
    cases (Worker.numberOr h.attempts 0).map fun a => (now : ℚ) + Worker.backoff a with
    | none => exact only_throw _
    | some score => exact only_step trivial fun _ => only_perform trivial

theorem runJob_processes (env : Env) (w : WorkerId) (j : JobId) (h : JobHash) (n : String)
    (q : QueueName) : (Worker.runJob env w j h n q).Only Cmd.processes := by
  have fails : ∀ message, (Worker.handleFailure w j message).Only Cmd.processes :=
    fun message => (handleFailure_concludes w j message).mono fun _ hc => hc.processes
  refine only_step trivial fun _ => only_step trivial fun _ => only_step trivial fun _ =>
    only_step trivial fun _ => only_bind ?_ fun _ => ?_
  · exact (publishQuietly_concludes _).mono fun _ hc => hc.processes
  · split
    · exact fails _
    · cases parsePayload h.payload with
      | error e => exact fails _
      | ok payload =>
          refine only_handle (only_step trivial fun _ => ?_) fun _ => fails _
          exact (complete_concludes env w j).mono fun _ hc => hc.processes

/-- **All commands of a call.** -/
theorem processOne_processes (env : Env) (w : WorkerId) (j : JobId) :
    (Worker.processOne env w j).Only Cmd.processes := by
  refine only_step trivial fun h => ?_
  cases truthy h.jobName with
  | none => exact only_pure _
  | some name =>
      dsimp only
      cases env.rateLimits w (h.queueName.getD (env.queue w)) with
      | none => exact runJob_processes _ _ _ _ _ _
      | some config =>
          refine only_bind ?_ fun result => ?_
          · refine only_step trivial fun now => only_step trivial fun data => ?_
            dsimp only
            split
            · exact only_step trivial fun _ => only_pure _
            · exact only_step trivial fun _ => only_pure _
          · split
            · exact runJob_processes _ _ _ _ _ _
            · exact only_step ⟨_, _, _, rfl⟩ fun _ => only_perform trivial

theorem dispatched_named (env : Env) (w : WorkerId) (n : ℕ) (j : JobId) :
    (Worker.dispatched env w n j).Only Cmd.wellNamed := by
  refine only_bind (only_handle ?_ fun _ => only_pure _) fun _ => only_perform trivial
  exact (processOne_processes env w j).mono fun _ hc => hc.named

/-- **Only a worker leaves traces.**  Tasks other than its start, its stop and its heartbeat
leave no trace of a worker. -/
theorem only_traceless (env : Env) {t : Task} (ht : ¬ t.traces) :
    Only Cmd.traceless (body env t) := by
  cases t with
  | processOne w n j =>
      refine only_bind (only_bind (only_handle ?_ fun _ => only_pure _) fun _ =>
        only_perform trivial) fun _ => only_pure _
      refine (processOne_processes env w j).mono fun c hc => ?_
      cases c with
      | write x => cases x <;> trivial
      | multi ws =>
          obtain ⟨k, k', j, rfl⟩ := hc
          intro x hx
          simp only [List.mem_cons, List.not_mem_nil, or_false] at hx
          rcases hx with rfl | rfl <;> trivial
      | onWorker w op => exact hc.elim
      | _ => trivial
  | _ => exact (kept env (by simp) ht).mono fun _ hc => hc.2

/-- **Every definition is written under its own key.** -/
theorem only_named (env : Env) (t : Task) : Only Cmd.wellNamed (body env t) := by
  cases t with
  | processOne w n j => exact only_bind (dispatched_named env w n j) fun _ => only_pure _
  | _ => exact (may_named env (by simp)).mono fun _ hc => hc.mono fun _ _ => trivial

end Repertoire

end NexusQueue
