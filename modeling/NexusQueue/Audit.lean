/-
# The audit row and the job hash

A job has two records: the row that is inserted into Postgres first, and the hash that is
written to Redis afterwards.  Queue, name, number of attempts allowed and payload of the
two agree from then on, and no task ever writes them again, whatever fails and whoever
halts.  A handler therefore receives the payload that the job was created with.

What a process has read or written of the records is a protocol of its own beside the
custody protocol: its last note.
-/
import NexusQueue.Identity
import NexusQueue.Repertoire

namespace NexusQueue

open Prog (Only only_pure only_throw only_bind only_handle only_perform only_step only_forEach)

/-! ## The two records -/

/-- What never changes in the row of a job. -/
structure JobRow.SameIdentity (r r' : JobRow) : Prop where
  queueName : r.queueName = r'.queueName
  jobName : r.jobName = r'.jobName
  payload : r.payload = r'.payload
  maxAttempts : r.maxAttempts = r'.maxAttempts

theorem JobRow.SameIdentity.refl (r : JobRow) : r.SameIdentity r := ⟨rfl, rfl, rfl, rfl⟩

theorem JobRow.SameIdentity.trans {r r' r'' : JobRow} (h : r.SameIdentity r')
    (h' : r'.SameIdentity r'') : r.SameIdentity r'' :=
  ⟨h.queueName.trans h'.queueName, h.jobName.trans h'.jobName, h.payload.trans h'.payload,
    h.maxAttempts.trans h'.maxAttempts⟩

/-- Hash and row agree on the queue, the name, the attempts allowed and the payload. -/
structure JobHash.Agrees (f : JobHash) (r : JobRow) : Prop where
  queueName : f.queueName = some r.queueName
  jobName : f.jobName = some r.jobName
  maxAttempts : f.maxAttempts.bind Numeral.toNumber = some (r.maxAttempts : ℚ)
  payload : parsePayload f.payload = .ok r.payload

/-- They agree as long as neither changes its identity. -/
theorem JobHash.Agrees.same {f f' : JobHash} {r r' : JobRow} (h : f.Agrees r)
    (hf : f'.SameIdentity f) (hr : r'.SameIdentity r) : f'.Agrees r' where
  queueName := by rw [hf.queueName, hr.queueName, h.queueName]
  jobName := by rw [hf.jobName, hr.jobName, h.jobName]
  maxAttempts := by rw [hf.maxAttempts, hr.maxAttempts, h.maxAttempts]
  payload := by rw [hf.payload, hr.payload, h.payload]

/-- The row has the values of the `INSERT`. -/
structure JobRow.Keeps (r : JobRow) (n : NewRow) : Prop where
  queueName : r.queueName = n.queueName
  jobName : r.jobName = n.jobName
  payload : n.payload = some r.payload
  maxAttempts : n.maxAttempts = some (r.maxAttempts : ℚ)

theorem JobRow.Keeps.same {r r' : JobRow} {n : NewRow} (h : r.Keeps n) (hr : r'.SameIdentity r) :
    r'.Keeps n where
  queueName := by rw [hr.queueName, h.queueName]
  jobName := by rw [hr.jobName, h.jobName]
  payload := by rw [hr.payload, h.payload]
  maxAttempts := by rw [hr.maxAttempts, h.maxAttempts]

/-- The hash is written from the same values as the row. -/
structure JobHash.Describes (f : JobHash) (n : NewRow) : Prop where
  queueName : f.queueName = some n.queueName
  jobName : f.jobName = some n.jobName
  payload : ∀ v, n.payload = some v → f.payload = some (.of v)
  maxAttempts : f.maxAttempts.bind Numeral.toNumber = n.maxAttempts

/-- A hash that is written from the values of a row agrees with it, whatever was in the
hash before. -/
theorem JobHash.Describes.agrees {f : JobHash} {n : NewRow} {r : JobRow} (hf : f.Describes n)
    (hr : r.Keeps n) (old : JobHash) : (old.merge f).Agrees r where
  queueName := by simp [JobHash.merge, hf.queueName, hr.queueName]
  jobName := by simp [JobHash.merge, hf.jobName, hr.jobName]
  maxAttempts := by
    have hmax : f.maxAttempts.bind Numeral.toNumber = some (r.maxAttempts : ℚ) := by
      rw [hf.maxAttempts, hr.maxAttempts]
    cases hm : f.maxAttempts with
    | none =>
        rw [hm] at hmax
        cases hmax
    | some m => simpa [JobHash.merge, hm] using hmax
  payload := by
    rw [show (old.merge f).payload = f.payload.or old.payload from rfl, hf.payload _ hr.payload]
    rfl

/-- The row a call of `enqueue` inserts. -/
structure NewRow.Requested (n : NewRow) (jobName : String) (payload : Option Json)
    (options : EnqueueOptions) : Prop where
  queueName : n.queueName = options.queue.getD DEFAULT_QUEUE
  jobName : n.jobName = jobName
  payload : n.payload = payload
  maxAttempts : n.maxAttempts = some (options.maxAttempts.getD DEFAULT_MAX_ATTEMPTS)

namespace Audit

open Identity (Known)

/-! ## Notes -/

/-- What a process has noted last: the job it has pushed or reset, the row it has
inserted, or the hash it has read. -/
inductive Note where
  | blank
  | job (j : JobId)
  | row (n : NewRow)
  | hash (h : JobHash)

namespace Note

/-- The commands on the records of jobs, and when a task may issue them. -/
def permits (t : Task) (l : Note) : Cmd → Prop
  | .write (.hset k _) => match t with
      | .processOne _ _ j => k = redisKeys.job j
      | _ => ∃ j, l = .job j ∧ k = redisKeys.job j
  | .insert n => match t with
      | .enqueue jobName payload options => l = .blank ∧ n.Requested jobName payload options
      | _ => True
  | .multi ws => ∀ k f, Write.hset k f ∈ ws →
      ∃ n, l = .row n ∧ k = redisKeys.job n.id ∧ f.Describes n
  | .handler name v _ => ∃ h, l = .hash h ∧ h.jobName = some name ∧ parsePayload h.payload = .ok v
  | .write (.zadd (.delayed q) _ _) | .write (.lpush (.dlq q) _) => match t with
      | .processOne _ _ _ => ∃ h, l = .hash h ∧ q = h.queueName.getD "default"
      | _ => True
  | _ => True

/-- The note after an answer. -/
def onOk (t : Task) (l : Note) : (c : Cmd) → c.Resp → Note
  | .insert n, _ => .row n
  | .hgetall _, h => match t with
      | .processOne _ _ _ => .hash h
      | _ => l
  | .write (.lpush _ j), _ => match t with
      | .tick | .janitor => .job j
      | _ => l
  | .update j _, _ => match t with
      | .retry _ | .requeue _ _ => .job j
      | _ => l
  | _, _ => l

end Note

/-- The protocol of notes. -/
def audit : Protocol Task Cmd Cmd.Resp Err Note where
  start _ := .blank
  permits t l c := l.permits t c
  next t l c
    | .ok a => l.onOk t c a
    | .error _ => l

section Conduct

/-- What a new hash is written from. -/
theorem describes_newJobHash {n : NewRow} {id : JobId} {q : QueueName} {name : String}
    {payload : Option Json} {st : JobStatus} {m : Numeral} {p : String} {now : ℕ}
    (hq : n.queueName = q) (hname : n.jobName = name) (hp : n.payload = payload)
    (hm : m.toNumber = n.maxAttempts) :
    (newJobHash id q name payload st m p now).Describes n := by
  subst hq hname hp
  refine ⟨rfl, rfl, fun v hv => ?_, hm⟩
  rw [newJobHash, hv]
  rfl

/-- The `MULTI` that publishes a job writes the hash of the row noted. -/
theorem permits_store {t : Task} {l : Note} {n : NewRow} {f : JobHash} {w : Write} {k : Key}
    {q : QueueName} (hl : l = .row n) (hk : k = redisKeys.job n.id) (hf : f.Describes n)
    (hw : ∀ k g, w ≠ .hset k g) :
    audit.permits t l (.multi [.sadd redisKeys.queueRegistry q, .hset k f, w]) := by
  intro k' g hg
  simp only [List.mem_cons, List.not_mem_nil, or_false] at hg
  rcases hg with hg | hg | hg
  · cases hg
  · cases hg
    exact ⟨n, hl, hk, hf⟩
  · exact absurd hg.symm (hw k' g)

/-- A push to a ready list is permitted anywhere. -/
theorem permits_push {t : Task} {l : Note} (q : QueueName) (p : String) (j : JobId) :
    audit.permits t l (.write (.lpush (targetList q p) j)) := by
  obtain ⟨x, hx⟩ := exists_targetList q p
  rw [hx]
  trivial

/-- Creating a job. -/
theorem create_audit (n : String) (p : Option Json) (o : EnqueueOptions) :
    Follows audit (.enqueue n p o) .blank (Producer.create n p o) fun _ _ => True := by
  refine follows_step trivial (fun id => ?_) (fun _ => trivial)
  refine follows_step trivial (fun nowIso => ?_) (fun _ => trivial)
  refine follows_bind (fun _ _ => True) ?_ (fun _ _ _ => ?_) (fun _ _ _ => trivial)
  · change Follows audit _ .blank _ _
    unfold Producer.store
    cases o.delay.filter (0 < ·) with
    | some delay =>
        refine follows_step trivial (fun now => ?_) (fun _ => trivial)
        refine follows_step ⟨rfl, rfl, rfl, rfl, rfl⟩ (fun _ => ?_) (fun _ => trivial)
        exact follows_perform (permits_store rfl rfl (describes_newJobHash rfl rfl rfl rfl) (by simp))
          fun _ => trivial
    | none =>
        refine follows_step ⟨rfl, rfl, rfl, rfl, rfl⟩ (fun _ => ?_) (fun _ => trivial)
        exact follows_perform (permits_store rfl rfl (describes_newJobHash rfl rfl rfl rfl) (by simp))
          fun _ => trivial
  · refine follows_any (only_bind ?_ fun _ => only_step (fun _ => trivial) fun now =>
      only_step (fun _ => trivial) fun _ => only_pure _)
    unfold Producer.remember
    cases truthy o.idempotencyKey with
    | some key => exact only_perform fun _ => trivial
    | none => exact only_pure _

theorem enqueue_audit (n : String) (p : Option Json) (o : EnqueueOptions) :
    Follows audit (.enqueue n p o) .blank (Producer.enqueue n p o) fun _ _ => True := by
  unfold Producer.enqueue
  split
  · exact follows_throw trivial
  · cases truthy o.idempotencyKey with
    | none => exact create_audit n p o
    | some key =>
        refine follows_step trivial (fun existing => ?_) (fun _ => trivial)
        cases truthy existing with
        | some j => exact follows_pure trivial
        | none => exact create_audit n p o

/-- A scheduler writes the hash of the job it has pushed or inserted. -/
theorem tick_audit (l : Note) : Follows audit .tick l Scheduler.tick fun _ _ => True := by
  refine follows_bind (fun _ _ => True) ?_ (fun _ l _ => ?_) (fun _ _ _ => trivial)
  · refine follows_step trivial (fun queues => ?_) (fun _ => trivial)
    refine follows_step trivial (fun now => ?_) (fun _ => trivial)
    refine follows_mono (follows_forEach (Q := fun _ _ => True) (fun _ _ => True) ?_
      (fun _ _ => trivial) queues _ trivial) fun _ _ _ => trivial
    intro q _ l _
    refine follows_mono (Q := fun _ _ => True) ?_ fun r _ _ => by cases r <;> trivial
    refine follows_step trivial (fun dueJobs => ?_) (fun _ => trivial)
    refine follows_mono (follows_forEach (Q := fun _ _ => True) (fun _ _ => True) ?_
      (fun _ _ => trivial) dueJobs _ trivial) fun _ _ _ => trivial
    intro j _ l _
    refine follows_mono (Q := fun _ _ => True) ?_ fun r _ _ => by cases r <;> trivial
    refine follows_step trivial (fun removed => ?_) (fun _ => trivial)
    split
    · exact follows_pure trivial
    · refine follows_step trivial (fun priority => ?_) (fun _ => trivial)
      refine follows_step (permits_push _ _ _) (fun _ => ?_) (fun _ => trivial)
      exact follows_perform ⟨j, rfl, rfl⟩ fun _ => trivial
  · refine follows_step trivial (fun now => ?_) (fun _ => trivial)
    refine follows_step trivial (fun dueEntries => ?_) (fun _ => trivial)
    refine follows_mono (follows_forEach (Q := fun _ _ => True) (fun _ _ => True) ?_
      (fun _ _ => trivial) dueEntries _ trivial) fun _ _ _ => trivial
    intro c _ l _
    refine follows_mono (Q := fun _ _ => True) ?_ fun r _ _ => by cases r <;> trivial
    refine follows_step trivial (fun removed => ?_) (fun _ => trivial)
    split
    · exact follows_pure trivial
    · refine follows_step trivial (fun defRaw => ?_) (fun _ => trivial)
      cases truthy defRaw.cronExpression with
      | none => exact follows_pure trivial
      | some e =>
          refine follows_step trivial (fun nextMs => ?_) (fun _ => trivial)
          refine follows_step trivial (fun _ => ?_) (fun _ => trivial)
          unfold Scheduler.enqueueCronJob
          cases parsePayload defRaw.payload with
          | error e => exact follows_throw trivial
          | ok payload =>
              refine follows_step trivial (fun id => ?_) (fun _ => trivial)
              refine follows_step trivial (fun nowIso => ?_) (fun _ => trivial)
              refine follows_step trivial (fun _ => ?_) (fun _ => trivial)
              exact follows_perform
                (permits_store rfl rfl (describes_newJobHash rfl rfl rfl rfl) (by simp))
                fun _ => trivial

/-- A publication whose failure is ignored leaves the note as it is. -/
theorem publishQuietly_audit {t : Task} (l : Note) (e : JobEvent) :
    Follows audit t l (redis.publishQuietly e) fun _ l' => l' = l := by
  refine follows_handle (fun _ l' => l' = l) (follows_perform trivial fun r => ?_)
    (fun _ _ hl => hl) (fun _ _ hl => follows_pure hl)
  cases r <;> rfl

/-- Where a failed job goes is read off the hash noted last. -/
theorem handleFailure_audit (w w' : WorkerId) (n : ℕ) (j : JobId) (message : String) (l : Note) :
    Follows audit (.processOne w' n j) l (Worker.handleFailure w j message) fun _ _ => True := by
  refine follows_step trivial (fun hash => ?_) (fun _ => trivial)
  change Follows audit _ (Note.hash hash) (if _ then _ else _) _
  split
  · refine follows_step trivial (fun _ => ?_) (fun _ => trivial)
    refine follows_step trivial (fun now => ?_) (fun _ => trivial)
    refine follows_step rfl (fun _ => ?_) (fun _ => trivial)
    refine follows_step ⟨hash, rfl, rfl⟩ (fun _ => ?_) (fun _ => trivial)
    refine follows_step trivial (fun _ => ?_) (fun _ => trivial)
    refine follows_step trivial (fun _ => ?_) (fun _ => trivial)
    exact follows_mono (publishQuietly_audit _ _) fun _ _ _ => trivial
  · refine follows_step trivial (fun now => ?_) (fun _ => trivial)
    refine follows_step trivial (fun _ => ?_) (fun _ => trivial)
    refine follows_step rfl (fun _ => ?_) (fun _ => trivial)
    cases (Worker.numberOr hash.attempts 0).map fun a => now + Worker.backoff a with
    | none => exact follows_throw trivial
    | some score =>
        exact follows_step ⟨hash, rfl, rfl⟩ (fun _ => follows_perform trivial fun _ => trivial)
          (fun _ => trivial)

theorem complete_audit (env : Env) (w w' : WorkerId) (n : ℕ) (j : JobId) :
    Only (fun c => ∀ l, audit.permits (.processOne w' n j) l c) (Worker.complete env w j) := by
  refine only_step (fun _ => trivial) fun _ => only_step (fun _ => trivial) fun now =>
    only_step (fun _ => rfl) fun _ => only_step (fun _ => trivial) fun _ =>
      only_step (fun _ => trivial) fun hash => only_step (fun _ => trivial) fun _ => ?_
  exact only_handle (only_perform fun _ => trivial) fun _ => only_pure _

/-- A call runs the handler on the name and the payload of the hash it has read. -/
theorem runJob_audit (env : Env) (w : WorkerId) (n : ℕ) (j : JobId) (h : JobHash)
    {name : String} (hname : h.jobName = some name) (q : QueueName) :
    Follows audit (.processOne w n j) (.hash h) (Worker.runJob env w j h name q)
      fun _ _ => True := by
  refine follows_step trivial (fun _ => ?_) (fun _ => trivial)
  refine follows_step trivial (fun startedAt => ?_) (fun _ => trivial)
  refine follows_step rfl (fun _ => ?_) (fun _ => trivial)
  refine follows_step trivial (fun now => ?_) (fun _ => trivial)
  refine follows_bind _ (publishQuietly_audit (.hash h) _) ?_ (fun _ _ _ => trivial)
  rintro _ _ rfl
  change Follows _ _ _ (if _ then _ else _) _
  split
  · exact handleFailure_audit w w n j _ _
  · cases hp : parsePayload h.payload with
    | error e => exact handleFailure_audit w w n j _ _
    | ok payload =>
        refine follows_handle (fun _ _ => True) ?_ (fun _ _ _ => trivial)
          (fun e l _ => handleFailure_audit w w n j _ l)
        refine follows_step ⟨h, rfl, hname, hp⟩ (fun _ => ?_) (fun _ => trivial)
        exact follows_any (complete_audit env w w n j)

theorem dispatched_audit (env : Env) (w : WorkerId) (n : ℕ) (j : JobId) (l : Note) :
    Follows audit (.processOne w n j) l (Worker.dispatched env w n j) fun _ _ => True := by
  refine follows_bind (fun _ _ => True) ?_ (fun _ _ _ => follows_perform trivial fun _ => trivial)
    (fun _ _ _ => trivial)
  refine follows_handle (fun _ _ => True) ?_ (fun _ _ _ => trivial)
    (fun _ _ _ => follows_pure trivial)
  refine follows_step trivial (fun hash => ?_) (fun _ => trivial)
  change Follows audit _ (Note.hash hash) _ _
  cases hname : truthy hash.jobName with
  | none => exact follows_pure trivial
  | some name =>
      have hsome : hash.jobName = some name := (Option.filter_eq_some_iff.mp hname).1
      dsimp only
      cases env.rateLimits w (hash.queueName.getD (env.queue w)) with
      | none => exact runJob_audit env w n j hash hsome _
      | some rateConfig =>
          refine follows_bind (fun _ l => l = .hash hash) ?_ ?_ (fun _ _ _ => trivial)
          · refine follows_step trivial (fun now => ?_) (fun _ => rfl)
            refine follows_step trivial (fun bucket => ?_) (fun _ => rfl)
            change Follows _ _ _ (if _ then _ else _) _
            split
            · exact follows_step trivial (fun _ => follows_pure rfl) (fun _ => rfl)
            · exact follows_step trivial (fun _ => follows_pure rfl) (fun _ => rfl)
          · rintro result _ rfl
            change Follows _ _ _ (if _ then _ else _) _
            split
            · exact runJob_audit env w n j hash hsome _
            · refine follows_any (only_step (fun l k f hf => ?_) fun _ => only_perform fun _ => trivial)
              simp at hf

/-- A janitor writes the hash of the job it has pushed. -/
theorem janitor_audit (l : Note) : Follows audit .janitor l Janitor.tick fun _ _ => True := by
  refine follows_step trivial (fun workerIds => ?_) (fun _ => trivial)
  refine follows_mono (follows_forEach (Q := fun _ _ => True) (fun _ _ => True) ?_
    (fun _ _ => trivial) workerIds _ trivial) fun _ _ _ => trivial
  intro w _ l _
  refine follows_mono (Q := fun _ _ => True) ?_ fun r _ _ => by cases r <;> trivial
  refine follows_step trivial (fun found => ?_) (fun _ => trivial)
  split
  · exact follows_pure trivial
  · refine follows_step trivial (fun orphans => ?_) (fun _ => trivial)
    refine follows_bind (fun _ _ => True) ?_ (fun _ _ _ => ?_) (fun _ _ _ => trivial)
    · refine follows_mono (follows_forEach (Q := fun _ _ => True) (fun _ _ => True) ?_
        (fun _ _ => trivial) orphans _ trivial) fun _ _ _ => trivial
      intro j _ l _
      refine follows_mono (Q := fun _ _ => True) ?_ fun r _ _ => by cases r <;> trivial
      refine follows_step trivial (fun hash => ?_) (fun _ => trivial)
      refine follows_step (permits_push _ _ _) (fun _ => ?_) (fun _ => trivial)
      exact follows_step ⟨j, rfl, rfl⟩ (fun _ => follows_perform trivial fun _ => trivial)
        (fun _ => trivial)
    · exact follows_any (only_step (fun _ => trivial) fun _ => only_step (fun _ => trivial)
        fun _ => only_perform fun _ => trivial)

/-- What both requests do with a job that has been lifted out of its queue. -/
theorem pushRetried_audit {t : Task} (q : QueueName) (id : JobId) (f : JobHash → String) :
    Only (fun c => ∀ l, audit.permits t l c) (Routes.pushRetried q id f) :=
  only_step (fun _ => trivial) fun _ => only_step (fun _ => permits_push _ _ _) fun _ =>
    only_step (fun _ => trivial) fun _ => only_perform fun _ => trivial

/-- A retry writes the hash of the job it has reset. -/
theorem retry_audit (id : JobId) (l : Note) :
    Follows audit (.retry id) l (Routes.retry id) fun _ _ => True := by
  refine follows_step trivial (fun job => ?_) (fun _ => trivial)
  cases job with
  | none => exact follows_pure trivial
  | some job =>
      change Follows _ _ _ (if _ then _ else _) _
      split
      · exact follows_pure trivial
      · refine follows_step trivial (fun _ => ?_) (fun _ => trivial)
        refine follows_step ⟨id, rfl, rfl⟩ (fun _ => ?_) (fun _ => trivial)
        exact follows_any (only_step (fun _ => trivial) fun _ =>
          only_bind (pushRetried_audit _ _ _) fun _ => only_pure _)

/-- So does a requeue, job by job. -/
theorem requeue_audit (q : QueueName) (b : RequeueBody) (l : Note) :
    Follows audit (.requeue q b) l (Routes.requeue q b) fun _ _ => True := by
  have jobs : ∀ ids l n m, Follows audit (.requeue q b) l (Routes.requeueJobs q n m ids)
      fun _ _ => True := by
    intro ids
    induction ids with
    | nil => exact fun _ _ _ => follows_pure trivial
    | cons id ids ih =>
        intro l n m
        refine follows_bind (fun _ _ => True) ?_ (fun ok l _ => ?_) (fun _ _ _ => trivial)
        · refine follows_handle (fun _ _ => True) ?_ (fun _ _ _ => trivial)
            (fun _ _ _ => follows_pure trivial)
          refine follows_bind (fun _ _ => True) ?_ (fun _ _ _ => follows_pure trivial)
            (fun _ _ _ => trivial)
          refine follows_step trivial (fun _ => ?_) (fun _ => trivial)
          refine follows_step ⟨id, rfl, rfl⟩ (fun _ => ?_) (fun _ => trivial)
          exact follows_any (only_step (fun _ => trivial) fun _ => pushRetried_audit _ _ _)
        · split
          · exact ih _ _ _
          · exact ih _ _ _
  unfold Routes.requeue
  split
  · exact follows_step trivial (fun ids => jobs ids _ 0 0) (fun _ => trivial)
  · cases b.jobIds with
    | some ids => exact jobs ids _ 0 0
    | none => exact follows_pure trivial

/-- A plain command is permitted after any note, except to a call. -/
theorem permits_plain {c : Cmd} (hc : c.plain) {t : Task} (ht : t.plain) (l : Note) :
    audit.permits t l c := by
  cases c with
  | write w =>
      cases w with
      | zadd k score m =>
          cases k with
          | delayed q => cases t <;> first | exact ht.elim | trivial
          | _ => trivial
      | hset _ _ | hsetRate _ _ | lpush _ _ => exact hc.elim
      | _ => trivial
  | multi _ | insert _ | handler _ _ _ => exact hc.elim
  | _ => trivial

/-- **Every task keeps its notes.** -/
theorem audit_follows {env : Env} (t : Task) :
    Follows audit t (audit.start t) (body env t) fun _ _ => True := by
  have plain : t.plain → Follows audit t (audit.start t) (body env t) fun _ _ => True := fun ht =>
    follows_any ((Repertoire.only_plain env ht).mono fun c hc l => permits_plain hc ht l)
  have rest : ∀ {α : Type} {p : Async α} {β : Type} {f : α → Async β},
      Follows audit t .blank p (fun _ _ => True) → (∀ a l, Follows audit t l (f a) fun _ _ => True) →
      Follows audit t .blank (p >>= f) fun _ _ => True := fun hp hf =>
    follows_bind _ hp (fun a l _ => hf a l) (fun _ _ _ => trivial)
  cases t with
  | enqueue n p o => exact rest (enqueue_audit n p o) fun _ _ => follows_pure trivial
  | tick => exact rest (tick_audit _) fun _ _ => follows_pure trivial
  | processOne w n j => exact rest (dispatched_audit env w n j _) fun _ _ => follows_pure trivial
  | janitor => exact rest (janitor_audit _) fun _ _ => follows_pure trivial
  | retry id => exact rest (retry_audit id _) fun _ _ => follows_pure trivial
  | requeue q b => exact rest (requeue_audit q b _) fun _ _ => follows_pure trivial
  | _ => exact plain trivial

end Conduct

/-! ## Rows and hashes under commands -/

section Records

variable {env : Env} {s s' : World} {t : Task} {l l' : Phase} {x : Note} {c : Cmd} {o : Oracle}
  {r : Except Err c.Resp} {ts : List Task}

/-- An `UPDATE` keeps the identity of every row. -/
theorem row_update {j id : JobId} {p : RowPatch} {row : JobRow} (h : s.pg.row? j = some row) :
    ∃ row', (s.updateRow id p).pg.row? j = some row' ∧ row'.SameIdentity row := by
  rw [Postgres.row?_update]
  split
  · exact ⟨row.patch s.clock p, by rw [h]; rfl, rfl, rfl, rfl, rfl⟩
  · exact ⟨row, h, .refl row⟩

/-- **The identity of a row never changes.** -/
theorem row_kept (he : Effect env s t l c r s' l' ts) {j : JobId} {row : JobRow}
    (h : s.pg.row? j = some row) :
    ∃ row', s'.pg.row? j = some row' ∧ row'.SameIdentity row := by
  cases he with
  | still hn hf hw => exact ⟨row, hf.pg ▸ h, .refl row⟩
  | @insert t id n pg hc hid hst hkey hins =>
      obtain ⟨payload, maxAttempts, hnone, -, -⟩ := Postgres.insert_ok hins
      obtain ⟨new, -, -, -, hrow⟩ := Postgres.row?_insert hins
      have hne : j ≠ n.id := by
        rintro rfl
        rw [hnone] at h
        cases h
      exact ⟨row, by rw [hrow, if_neg hne, h], .refl row⟩
  | mark _ | complete _ | brokenMark _ | resetRow _ | resetRetry _ | resetRequeue _ =>
      exact row_update h
  | _ => exact ⟨row, h, .refl row⟩

/-- A command that leaves custody alone changes the hash of a job by `HSET` only. -/
theorem hash_of_neutral (hn : c.neutral) (ha : World.answer env s o c = some (r, s'))
    (j : JobId) : s'.redis.jobs (redisKeys.job j) = s.redis.jobs (redisKeys.job j) ∨
      ∃ f, c = .write (.hset (redisKeys.job j) f) := by
  cases c with
  | write w =>
      cases ha
      cases w with
      | hset k f =>
          by_cases hk : redisKeys.job j = k
          · subst hk
            exact Or.inr ⟨f, rfl⟩
          · exact Or.inl (Function.update_of_ne hk _ _)
      | del k => cases k <;> first | exact hn.elim | exact Or.inl (by simp [Write.apply])
      | _ => exact Or.inl rfl
  | zrem k m =>
      cases ha
      exact Or.inl (by rw [Redis.zrem_snd])
  | onWorker w op =>
      obtain ⟨obj, rfl⟩ := answer_onWorker ha
      exact Or.inl rfl
  | smembers k | cronNext e | handler n v a =>
      simp only [World.answer] at ha
      repeat' split at ha
      all_goals cases ha
      all_goals exact Or.inl rfl
  | multi ws | rpoplpush src dst | blmove src dst | insert n | update id p | uuid => exact hn.elim
  | _ =>
      cases ha
      exact Or.inl rfl

/-- The `MULTI` that publishes a job writes the hash of that job. -/
theorem hash_register (s : World) (id : JobId) (q : QueueName) (f : JobHash) (j : JobId) :
    (s.register id q f).redis.jobs (redisKeys.job j) =
      if j = id then (s.redis.jobs (redisKeys.job id)).merge f
      else s.redis.jobs (redisKeys.job j) := by
  by_cases hj : j = id
  · subst hj
    simp [World.register]
  · simp [World.register, hj]

/-- The hash of a job changes by an `HSET` or with the `MULTI` that publishes the job. -/
theorem hash_of_effect (he : Effect env s t l c r s' l' ts)
    (ha : World.answer env s o c = some (r, s')) (j : JobId) :
    s'.redis.jobs (redisKeys.job j) = s.redis.jobs (redisKeys.job j) ∨
      (∃ f, c = .write (.hset (redisKeys.job j) f)) ∨
      ∃ ws f, c = .multi ws ∧ Write.hset (redisKeys.job j) f ∈ ws ∧ f.id.isSome ∧
        s'.redis.jobs (redisKeys.job j) = (s.redis.jobs (redisKeys.job j)).merge f := by
  cases he with
  | still hn hf hw => exact (hash_of_neutral hn ha j).imp id Or.inl
  | @publishReady t id q p f hc hid hq hpr =>
      have hhash := hash_register s id q f j
      by_cases hj : j = id
      · subst hj
        exact Or.inr (Or.inr ⟨_, f, rfl, by simp, by rw [hid]; rfl, by rwa [if_pos rfl] at hhash⟩)
      · exact Or.inl (by rwa [if_neg hj] at hhash)
  | @publishDelayed t id q f score hc hid hq =>
      have hhash := hash_register s id q f j
      by_cases hj : j = id
      · subst hj
        exact Or.inr (Or.inr ⟨_, f, rfl, by simp, by rw [hid]; rfl, by rwa [if_pos rfl] at hhash⟩)
      · exact Or.inl (by rwa [if_neg hj] at hhash)
  | dropHeartbeat | dropList => exact Or.inl (by simp [Write.apply])
  | _ => exact Or.inl rfl

end Records

/-! ## The records agree -/

/-- What a process knows of the records it has noted. -/
def knows (P : JobId → Prop) (t : Task) : Note → World → Prop
  | .row n, s => ∃ row, s.pg.row? n.id = some row ∧ row.Keeps n
  | .job j, s => Known P s j
  | .hash h, s => ∀ w n j, t = .processOne w n j →
      Known P s j ∧ h.SameIdentity (s.redis.jobs (redisKeys.job j))
  | .blank, _ => True

/-- Every hash belongs to a job that is visible, and agrees with the row of the job. -/
structure Recorded (P : JobId → Prop) (s : World) : Prop where
  row : ∀ j, s.enqueued j → ∃ row, s.pg.row? j = some row ∧
    (s.redis.jobs (redisKeys.job j)).Agrees row
  hash : ∀ j, s.redis.jobs (redisKeys.job j) ≠ {} → Known P s j

/-- The records of jobs as a discipline over the custody protocol and the notes. -/
def auditing (env : Env) (P : JobId → Prop) :
    Discipline (machine env) ((custody env).prod audit) Unit where
  good _ := True
  val _ _ := 0
  emit _ _ _ _ := 0
  loc t l := knows P t l.2
  inv s _ := Recorded P s
  allow s _ t l c o := Identity.Fit P s t l.1 ∧ (o.works → ∀ id ∈ c.revives s, P id)
  post t r l := Concluded t r l.1 ∧ True

/-- The note of a process. -/
abbrev noteOf (p : Process) : Note := audit.phase p.task p.hist

section Step

variable {env : Env} {P : JobId → Prop} {s s' : World} {t : Task} {l : Phase} {x : Note}
  {c : Cmd} {o : Oracle} {r : Except Err c.Resp}

/-- What a process knows of the records stays true. -/
theorem knows_later (h : knows P t x s) (hl : Identity.Later s s')
    (hr : ∀ j row, s.pg.row? j = some row →
      ∃ row', s'.pg.row? j = some row' ∧ row'.SameIdentity row) : knows P t x s' := by
  cases x with
  | blank => trivial
  | job j => exact Known.later h hl
  | row n =>
      obtain ⟨row, hrow, hkeeps⟩ := h
      obtain ⟨row', hrow', hsame⟩ := hr _ row hrow
      exact ⟨row', hrow', hkeeps.same hsame⟩
  | hash f =>
      intro w n j ht
      obtain ⟨hknown, hsame⟩ := h w n j ht
      exact ⟨hknown.later hl, hsame.trans (hl.identity j (.inr hknown.2)).symm⟩

/-- Whose hash is written by `HSET`, is visible. -/
theorem known_of_hset (hk : knows P t x s) (hi : Identity.knows P t l s) {j : JobId} {f : JobHash}
    (hp : audit.permits t x (.write (.hset (redisKeys.job j) f))) : Known P s j := by
  cases t with
  | processOne w n j' =>
      obtain rfl : j = j' := Key.job.inj hp
      exact Identity.knows_call hi
  | _ =>
      obtain ⟨j', rfl, hj⟩ := hp
      obtain rfl : j = j' := Key.job.inj hj
      exact hk

/-- What a scheduler or a janitor pushes is visible. -/
theorem known_of_lpush (hi : Identity.knows P t l s) (ht : t = .tick ∨ t = .janitor) {k : Key}
    {j : JobId} (hp : Permits env t l (.write (.lpush k j))) : Known P s j := by
  cases hp with
  | quiet hq => exact hq.elim
  | promote => exact hi.1
  | pushOrphan => exact hi.2 j (List.mem_cons_self ..)
  | bury | brokenBury => rcases ht with ht | ht <;> cases ht
  | place hop => rcases ht with rfl | rfl <;> exact hop.elim

/-- What a request resets is visible. -/
theorem known_of_reset (hi : Identity.knows P t l s) (ht : t.operator) {j : JobId}
    {p : RowPatch} (hp : Permits env t l (.update j p)) : Known P s j := by
  cases hp with
  | quiet hq => exact hq.elim
  | resetRetry _ | resetRequeue _ => exact hi j (List.mem_cons_self ..)
  | mark _ | complete _ | brokenMark _ | resetRow _ => exact ht.elim

/-- What a call reads is the hash of its job. -/
theorem eq_of_hgetall {w : WorkerId} {n : ℕ} {j : JobId} {k : Key}
    (hp : Permits env (.processOne w n j) l (.hgetall k)) : k = redisKeys.job j := by
  cases hp with
  | quiet hq => exact hq.elim
  | readJob => rfl
  | readLifted hop => exact hop.elim

/-- **Step lemma.**  A process knows the record it has noted. -/
theorem knows_next (hi : Identity.knows P t l s) (hp : Permits env t l c)
    (ha : World.answer env s o c = some (r, s')) (hk : knows P t x s')
    (hl : Identity.Later s s') : knows P t (audit.next t x c r) s' := by
  cases r with
  | error e => exact hk
  | ok a =>
      change knows P t (x.onOk t c a) s'
      unfold Note.onOk
      split
      · -- the row has been inserted
        rename_i n u
        simp only [World.answer] at ha
        split at ha
        · rename_i pg hins
          cases ha
          obtain ⟨row, hrow, hq, hn, hpay, hmax⟩ := Postgres.inserted hins
          exact ⟨row, hrow, hq, hn, hpay, hmax⟩
        · cases ha
      · rename_i k h
        split
        · rename_i w n j
          obtain rfl := eq_of_hgetall hp
          cases ha
          rintro _ _ _ ⟨⟩
          exact ⟨Identity.knows_call hi, .refl _⟩
        · exact hk
      · split
        · exact (known_of_lpush hi (Or.inl rfl) hp).later hl
        · exact (known_of_lpush hi (Or.inr rfl) hp).later hl
        · exact hk
      · split
        · exact (known_of_reset hi trivial hp).later hl
        · exact (known_of_reset hi trivial hp).later hl
        · exact hk
      · exact hk

/-- **Step lemma.**  The records agree after every command. -/
theorem Recorded.answer {g : JobId → ℕ} (h : Recorded P s) (hP : ∀ j, Uuid.Printed j → P j)
    (hco : Identity.Coherent P s' g) (hk : knows P t x s) (hi : Identity.knows P t l s)
    (hp : Permits env t l c) (hx : audit.permits t x c)
    (ha : World.answer env s o c = some (r, s')) (hl : Identity.Later s s') : Recorded P s' := by
  have he := effect_of_answer hp ha
  have kept : ∀ j, s.enqueued j →
      (s'.redis.jobs (redisKeys.job j)).SameIdentity (s.redis.jobs (redisKeys.job j)) →
      ∃ row, s'.pg.row? j = some row ∧ (s'.redis.jobs (redisKeys.job j)).Agrees row := by
    intro j hj hsame
    obtain ⟨row, hrow, hagree⟩ := h.row j hj
    obtain ⟨row', hrow', hrs⟩ := row_kept he hrow
    exact ⟨row', hrow', hagree.same hsame hrs⟩
  constructor
  · intro j hj
    rcases hash_of_effect he ha j with hsame | ⟨f, rfl⟩ | ⟨ws, f, rfl, hf, hid, hmerge⟩
    · have hj' : s.enqueued j := by
        rw [World.enqueued, hsame] at hj
        exact hj
      exact kept j hj' (hsame ▸ .refl _)
    · have hsame := hl.identity j (.inr (known_of_hset hk hi hx).2)
      rw [World.enqueued, hsame.id] at hj
      exact kept j hj hsame
    · -- the hash is written from the row noted
      obtain ⟨n, rfl, hj', hdesc⟩ := hx _ f hf
      obtain rfl : j = n.id := Key.job.inj hj'
      obtain ⟨row, hrow, hkeeps⟩ := hk
      obtain ⟨row', hrow', hrs⟩ := row_kept he hrow
      refine ⟨row', hrow', ?_⟩
      rw [hmerge]
      exact hdesc.agrees (hkeeps.same hrs) _
  · intro j hj
    rcases hash_of_effect he ha j with hsame | ⟨f, rfl⟩ | ⟨ws, f, rfl, hf, hid, hmerge⟩
    · rw [hsame] at hj
      exact (h.hash j hj).later hl
    · exact (known_of_hset hk hi hx).later hl
    · refine hco.known hP ?_
      rw [World.enqueued, hmerge]
      obtain ⟨id, hid⟩ := Option.isSome_iff_exists.mp hid
      simp [JobHash.merge, hid]

/-- **The records agree in every run.** -/
theorem auditing_sound (hP : ∀ j, Uuid.Printed j → P j) :
    (auditing env P).Sound fun c a => NamedBy P c a ∧ (Identity.identity env P).PoolOk c where
  follows t _ := follows_prod (custody_follows t) (audit_follows t)
  call s t l c o r s' F h := by
    obtain ⟨hp, hx⟩ := h.permits
    obtain ⟨⟨⟨g, hco⟩, hi⟩, hrev⟩ := h.allow
    rcases (exec_cases h.exec).2 with ⟨err, -, -, rfl, rfl⟩ | ⟨ho, ha⟩
    · exact ⟨h.inv, h.loc, fun t' _ => ⟨trivial, trivial⟩⟩
    · have he := effect_of_answer hp ha
      obtain ⟨hco', hl, -⟩ :=
        Identity.Coherent.effect hco hP hi (hrev (Oracle.works_of_takes ho)) he
      have hk : knows P t l.2 s' := knows_later h.loc hl fun _ _ => row_kept he
      exact ⟨h.inv.answer hP hco' h.loc hi hp hx ha hl, knows_next hi hp ha hk hl,
        fun t' _ => ⟨trivial, trivial⟩⟩
  stable s t l c o r s' F h t₂ l₂ F₂ _ _ hk := by
    obtain ⟨⟨⟨g, hco⟩, hi⟩, hrev⟩ := h.allow
    rcases (exec_cases h.exec).2 with ⟨-, -, -, rfl, -⟩ | ⟨ho, ha⟩
    · exact hk
    · have he := effect_of_answer h.permits.1 ha
      have hl := (Identity.Coherent.effect hco hP hi (hrev (Oracle.works_of_takes ho)) he).2.1
      exact knows_later hk hl fun _ _ => row_kept he
  start c t _ hc := ⟨trivial, hc.1, trivial⟩
  allows c i o p cmd k hok _ hp hprog := by
    rw [Protocol.prod_phase]
    exact ⟨Identity.fit_of_mem hok.2 (List.mem_of_getElem? hp),
      fun ho => hok.1.2 ho cmd (by simp [nextCmd, hp, hprog])⟩
  drift c m s' _ hc hm := by
    have hst := Identity.steady_drift (P := P) hm
    have hsame : s'.redis = c.store.redis ∧ s'.pg = c.store.pg := by
      cases m <;> cases hm <;> exact ⟨rfl, rfl⟩
    refine ⟨⟨fun j hj => ?_, fun j hj => ?_⟩, fun t l _ hk => ?_⟩
    · rw [World.enqueued, hsame.1] at hj
      rw [hsame.1, hsame.2]
      exact hc.1.row j hj
    · rw [hsame.1] at hj
      exact (hc.1.hash j hj).later hst.later
    · exact knows_later hk hst.later fun j row hrow => ⟨row, by rw [hsame.2, hrow], .refl row⟩

end Step

/-! ## Runs -/

/-- The id occurs as the key of a job hash, in a ready list, a processing list, a
dead-letter queue or a delayed set. -/
def Occurs (s : World) (j : JobId) : Prop :=
  s.redis.jobs (redisKeys.job j) ≠ {} ∨ Identity.Listed s j

/-- Rows and hashes keep the identity they have. -/
structure Kept (s s' : World) : Prop where
  row : ∀ j row, s.pg.row? j = some row → ∃ row', s'.pg.row? j = some row' ∧ row'.SameIdentity row
  hash : ∀ j, s.enqueued j →
    (s'.redis.jobs (redisKeys.job j)).SameIdentity (s.redis.jobs (redisKeys.job j))
  enqueued : ∀ j, s.enqueued j → s'.enqueued j

theorem Kept.refl (s : World) : Kept s s :=
  ⟨fun _ row h => ⟨row, h, .refl row⟩, fun _ _ => .refl _, fun _ h => h⟩

theorem Kept.trans {s₁ s₂ s₃ : World} (h : Kept s₁ s₂) (h' : Kept s₂ s₃) : Kept s₁ s₃ where
  row j row hrow := by
    obtain ⟨row', hrow', hsame⟩ := h.row j row hrow
    obtain ⟨row'', hrow'', hsame'⟩ := h'.row j row' hrow'
    exact ⟨row'', hrow'', hsame'.trans hsame⟩
  hash j hj := (h'.hash j (h.enqueued j hj)).trans (h.hash j hj)
  enqueued j hj := h'.enqueued j (h.enqueued j hj)

section Result

variable {env : Env} {P : JobId → Prop} {c c' : State}

/-- The records of a reachable state. -/
theorem audited (hP : ∀ j, Uuid.Printed j → P j)
    (hc : (machine env).Reach (NamedBy P) Blank c) : (auditing env P).PoolOk c := by
  refine (auditing_sound hP).reach ?_
    (hc.with_invariant fun _ h => Identity.poolOk_of_reach hP h)
  rintro _ ⟨now, room, rfl⟩
  exact ⟨⟨fun j hj => (by simp [World.enqueued] at hj), fun j hj => absurd rfl hj⟩, by simp⟩

/-- **Step lemma.**  No step changes the identity of a job. -/
theorem kept_step (hP : ∀ j, Uuid.Printed j → P j)
    (hc : (machine env).Reach (NamedBy P) Blank c) {a : Action} (hok : NamedBy P c a)
    (hs : (machine env).step c a = some c') : Kept c.store c'.store := by
  cases a with
  | start t =>
      cases hs
      exact .refl _
  | halt i =>
      obtain ⟨p, -, rfl⟩ := Machine.step_halt hs
      exact .refl _
  | drift m =>
      obtain ⟨s, hm, rfl⟩ := Machine.step_drift hs
      have hl := Identity.Steady.later (P := P) (Identity.steady_drift hm)
      refine ⟨fun j row hrow => ⟨row, ?_, .refl row⟩, fun j hj => hl.identity j (.inl hj),
        hl.enqueued⟩
      cases m <;> cases hm <;> exact hrow
  | call i o =>
      obtain ⟨p, cmd, k, r, s, hp, -, hprog, hex, rfl⟩ := Machine.step_call hs
      have hmem := List.mem_of_getElem? hp
      have hpool := Identity.poolOk_of_reach hP hc
      obtain ⟨-, -, hfol⟩ := hpool.2 p hmem
      rw [hprog] at hfol
      obtain ⟨⟨g, hco⟩, hi⟩ := Identity.fit_of_mem hpool hmem
      rcases (exec_cases hex).2 with ⟨-, -, -, rfl, -⟩ | ⟨ho, ha⟩
      · exact .refl _
      · have he := effect_of_answer hfol.1 ha
        have hrev := hok.2 (Oracle.works_of_takes ho) cmd (by simp [nextCmd, hp, hprog])
        have hl := (Identity.Coherent.effect hco hP hi hrev he).2.1
        exact ⟨fun _ _ => row_kept he, fun j hj => hl.identity j (.inl hj), hl.enqueued⟩

/-- **Run lemma.**  No run changes the identity of a job. -/
theorem kept_of_run (hP : ∀ j, Uuid.Printed j → P j)
    (hc : (machine env).Reach (NamedBy P) Blank c)
    (hrun : (machine env).Reach (NamedBy P) (· = c) c') :
    (machine env).Reach (NamedBy P) Blank c' ∧ Kept c.store c'.store := by
  induction hrun with
  | init hi =>
      cases hi
      exact ⟨hc, .refl _⟩
  | step a hprev hok hs ih => exact ⟨.step a ih.1 hok hs, ih.2.trans (kept_step hP ih.1 hok hs)⟩

/-- What has been inserted is in the row, and what a handler has received is. -/
def Witnessed (s : World) (t : Task) (e : Event Cmd Cmd.Resp Err) : Prop :=
  (∀ n, e = ⟨.insert n, .ok ()⟩ → (∃ row, s.pg.row? n.id = some row ∧ row.Keeps n) ∧
    ∀ jobName payload options, t = .enqueue jobName payload options →
      n.Requested jobName payload options) ∧
  ∀ w m j, t = .processOne w m j → ∀ name v a, e.cmd = .handler name v a →
    ∃ row, s.pg.row? j = some row ∧ row.jobName = name ∧ row.payload = v

/-- What has been witnessed stays so. -/
theorem Witnessed.kept {s s' : World} {t : Task} {e : Event Cmd Cmd.Resp Err}
    (h : Witnessed s t e) (hk : Kept s s') : Witnessed s' t e := by
  refine ⟨fun n hn => ?_, fun w m j ht name v a he => ?_⟩
  · obtain ⟨⟨row, hrow, hkeeps⟩, hreq⟩ := h.1 n hn
    obtain ⟨row', hrow', hsame⟩ := hk.row _ row hrow
    exact ⟨⟨row', hrow', hkeeps.same hsame⟩, hreq⟩
  · obtain ⟨row, hrow, hname, hpay⟩ := h.2 w m j ht name v a he
    obtain ⟨row', hrow', hsame⟩ := hk.row _ row hrow
    exact ⟨row', hrow', hsame.jobName.trans hname, hsame.payload.trans hpay⟩

/-- Every event of a run is witnessed by the rows. -/
theorem witnessed_of_reach (hc : (machine env).Reach (NamedBy AsPrinted) Blank c) :
    ∀ p ∈ c.pool, ∀ e ∈ p.hist, Witnessed c.store p.task e := by
  refine hc.events ?_ (fun c a c' hc hok hs t e h =>
    h.kept (kept_step asPrinted_of_printed hc hok hs)) ?_
  · rintro _ ⟨now, room, rfl⟩
    rfl
  · intro c i o p cmd k r s hc _ hp hprog hex
    have hok := audited asPrinted_of_printed hc
    obtain ⟨-, hk, hfol⟩ := hok.2 p (List.mem_of_getElem? hp)
    rw [hprog, Protocol.prod_phase] at hfol
    rw [Protocol.prod_phase] at hk
    obtain ⟨hperm, hx⟩ := hfol.1
    refine ⟨fun n hn => ?_, fun w m j ht name v a he => ?_⟩
    · cases hn
      refine ⟨?_, fun jobName payload options ht => ?_⟩
      · rcases (exec_cases hex).2 with ⟨err, -, -, -, hr⟩ | ⟨-, ha⟩
        · cases hr
        · simp only [World.answer] at ha
          split at ha
          · rename_i pg hins
            cases ha
            obtain ⟨row, hrow, hq, hn, hpay, hmax⟩ := Postgres.inserted hins
            exact ⟨row, hrow, hq, hn, hpay, hmax⟩
          · cases ha
      · rw [ht] at hx
        exact hx.2
    · -- the handler receives the name and the payload of the hash that was read
      cases he
      obtain ⟨h, hnote, hname, hpay⟩ := hx
      have hknows : knows AsPrinted p.task (noteOf p) c.store := hk
      rw [show noteOf p = .hash h from hnote] at hknows
      obtain ⟨henq, hsame⟩ := hknows w m j ht
      obtain ⟨row, hrow, hagree⟩ := hok.1.row j henq.enqueued
      have hs : s.pg = c.store.pg := by
        rcases (exec_cases hex).2 with ⟨-, -, -, rfl, -⟩ | ⟨-, ha⟩
        · rfl
        · simp only [World.answer] at ha
          repeat' split at ha
          all_goals cases ha
          all_goals rfl
      refine ⟨row, by rw [hs, hrow], ?_, ?_⟩
      · have hrowname := hagree.jobName
        rw [← hsame.jobName, hname] at hrowname
        exact (Option.some.inj hrowname).symm
      · have hrowpay := hagree.payload
        rw [← hsame.payload, hpay] at hrowpay
        exact (Except.ok.inj hrowpay).symm

/-- **The audit row comes first and the identity of a job is immutable.**  In every
reachable state, whatever fails and whoever halts, as long as operators requeue and retry
jobs under the spelling of the uuid that Postgres prints: every id that occurs in Redis has
a row, with which its hash agrees on queue, name, attempts allowed and payload; in every
later state rows and hashes have the identity they have now; and every handler that has
been run for a job has received the payload of its row, which is the one the job was
created with. -/
theorem audit_row_first (hc : (machine env).Reach (NamedBy AsPrinted) Blank c) :
    (∀ j, Occurs c.store j → ∃ row, c.store.pg.row? j = some row ∧
      (c.store.redis.jobs (redisKeys.job j)).Agrees row) ∧
    (∀ c', (machine env).Reach (NamedBy AsPrinted) (· = c) c' → ∀ j,
      (∀ row, c.store.pg.row? j = some row →
        ∃ row', c'.store.pg.row? j = some row' ∧ row'.SameIdentity row) ∧
      (Occurs c.store j → (c'.store.redis.jobs (redisKeys.job j)).SameIdentity
        (c.store.redis.jobs (redisKeys.job j)))) ∧
    ∀ p ∈ c.pool, ∀ w n j, p.task = .processOne w n j → ∀ name v a r,
      ⟨.handler name v a, r⟩ ∈ p.hist →
      (∃ row, c.store.pg.row? j = some row ∧ row.payload = v) ∧
      ∀ q ∈ c.pool, ∀ jobName payload options, q.task = .enqueue jobName payload options →
        ∀ m, ⟨.insert m, .ok ()⟩ ∈ q.hist → m.id = j → payload = some v := by
  have hok := audited asPrinted_of_printed hc
  have hco := (Identity.poolOk_of_reach asPrinted_of_printed hc).1
  have henq : ∀ j, Occurs c.store j → c.store.enqueued j := by
    rintro j (hj | hj)
    · exact (hok.1.hash j hj).enqueued
    · exact (hco.listed j hj).enqueued
  refine ⟨fun j hj => hok.1.row j (henq j hj), fun c' hrun j => ?_, ?_⟩
  · have hkept := (kept_of_run asPrinted_of_printed hc hrun).2
    exact ⟨hkept.row j, fun hj => hkept.hash j (henq j hj)⟩
  · intro p hp w n j ht name v a r he
    obtain ⟨row, hrow, -, hpay⟩ :=
      (witnessed_of_reach hc p hp _ he).2 w n j ht name v a rfl
    refine ⟨⟨row, hrow, hpay⟩, fun q hq jobName payload options htq m hm hid => ?_⟩
    obtain ⟨⟨row', hrow', hkeeps⟩, hreq⟩ := (witnessed_of_reach hc q hq _ hm).1 m rfl
    rw [hid, hrow] at hrow'
    cases hrow'
    rw [← (hreq jobName payload options htq).payload, hkeeps.payload, hpay]

/-- The theorem on a run in which a worker has completed a job. -/
theorem audit_row_first_completed :
    ∃ c, (machine sample).Reach (NamedBy AsPrinted) Blank c ∧
      (c.store.redis.jobs (redisKeys.job j1.text)).status = some .completed ∧
      (∃ row, c.store.pg.row? j1.text = some row ∧
        (c.store.redis.jobs (redisKeys.job j1.text)).Agrees row) ∧
      ∀ p ∈ c.pool, ∀ w n, p.task = .processOne w n j1.text → ∀ name v a r,
        ⟨.handler name v a, r⟩ ∈ p.hist →
        ∃ row, c.store.pg.row? j1.text = some row ∧ row.payload = v := by
  obtain ⟨c, hc, ht⟩ := Machine.exists_reach (machine sample) (NamedBy AsPrinted) Blank blank_blank
    ([.start (.enqueue "send" (some .null) {}), .call 0 (.fresh j1)] ++ goes 0 5 ++
      [.start (.start "w")] ++ goes 1 8 ++ goes 2 5 ++ goes 3 6 ++ returns 3 ++ goes 3 3)
    (fun c => decide ((c.store.redis.jobs (redisKeys.job j1.text)).status = some .completed))
    (by decide +kernel)
  have hstatus := of_decide_eq_true ht
  obtain ⟨hagree, -, hhandler⟩ := audit_row_first hc
  refine ⟨c, hc, hstatus, hagree j1.text (Or.inl fun hempty => ?_), fun p hp w n ht name v a r he =>
    (hhandler p hp w n j1.text ht name v a r he).1⟩
  rw [hempty] at hstatus
  cases hstatus

/-- A dead job is retried under another spelling of its uuid.  Postgres finds the row; Redis
takes the spelling for another job, whose hash is made of the fields that are reset. -/
theorem retried_in_capitals :
    ∃ c, (machine sample).Reach AnythingNamed Blank c ∧ Occurs c.store capitals ∧
      ∃ row, c.store.pg.select capitals = some row ∧
        ¬ (c.store.redis.jobs (redisKeys.job capitals)).Agrees row := by
  obtain ⟨c, hc, ht⟩ := Machine.exists_reach (machine sample) AnythingNamed Blank blank_blank
    ([.start (.enqueue "send" (some .null) { maxAttempts := some 1 }), .call 0 (.fresh lettered)] ++
      goes 0 5 ++ [.start (.start "w")] ++ goes 1 8 ++ goes 2 5 ++ goes 3 6 ++ throws 3 ++
      goes 3 9 ++ [.start (.retry capitals)] ++ goes 4 8)
    (fun c => decide (capitals ∈ c.store.redis.lists (redisKeys.queue "default") ∧
      (c.store.pg.select capitals).isSome = true ∧
      (c.store.redis.jobs (redisKeys.job capitals)).queueName = none))
    (by decide +kernel)
  obtain ⟨hmem, hrow, hqueue⟩ := of_decide_eq_true ht
  obtain ⟨row, hrow⟩ := Option.isSome_iff_exists.mp hrow
  refine ⟨c, hc, Or.inr (Or.inl ⟨_, hmem⟩), row, hrow, fun hagree => ?_⟩
  rw [hagree.queueName] at hqueue
  cases hqueue

end Result

end Audit

end NexusQueue
