/-
# The two status records

Every operation writes the status of a job twice: to the row in Postgres and to the hash
in Redis.  The ledger of a task says which of the two writes is still owed: one record is
ahead of the other, or both are even.  A task begins and ends even, whatever happens to it
on the way, except a scheduler that promotes a job: it writes the hash alone.

So when operations are executed one after the other, the two records agree after each of
them, as long as no scheduler finds a due job, and every row is changed under the spelling
of its uuid that the hash has.
-/
import NexusQueue.Audit
import NexusQueue.Sequential

namespace NexusQueue

open Prog (forEach)

namespace Agreement

/-- Which record of which job is ahead, and the status it holds.  A task is `lost` when it
promotes a job, or when a store has rejected the second write. -/
inductive Ledger where
  | even
  | row (id : JobId) (status : JobStatus)
  | hash (id : JobId) (status : JobStatus)
  | lost

/-- The writes that keep the records of a task in order. -/
def Ledger.permits : Ledger → Cmd → Prop
  | .lost, _ => True
  | .even, .write (.hset k f) => ∃ j st, k = redisKeys.job j ∧ f.status = some st
  | .even, .multi ws => ∀ k f, Write.hset k f ∉ ws
  | .even, _ => True
  | .row j st, .write (.hset k f) => k = redisKeys.job j ∧ f.status = some st
  | .row j st, .multi ws => ∃ q f w, ws = [.sadd redisKeys.queueRegistry q,
      .hset (redisKeys.job j) f, w] ∧ f.status = some st
  | .row _ _, c => c = .now
  | .hash j st, c => ∃ p, c = .update j p ∧ p.status = st

/-- The ledger after an answer. -/
def Ledger.next : Ledger → (c : Cmd) → Except Err c.Resp → Ledger
  | .even, .zrangebyscore (.delayed _) _, .ok (_ :: _) => .lost
  | .even, .insert n, .ok _ => .row n.id n.status
  | .even, .update j p, .ok _ => .row j p.status
  | .even, .write (.hset (.job j) f), .ok _ => f.status.elim .even (.hash j)
  | .even, _, _ => .even
  | .row j st, .now, .ok _ => .row j st
  | .row _ _, .write (.hset _ _), .ok _ => .even
  | .row _ _, .multi _, .ok _ => .even
  | .hash _ _, .update _ _, .ok _ => .even
  | _, _, _ => .lost

/-- The ledger as a protocol. -/
def ledger : Protocol Task Cmd Cmd.Resp Err Ledger where
  start _ := .even
  permits _ l c := l.permits c
  next _ l c r := l.next c r

/-! ## Every task keeps the ledger -/

/-- The records are even, or the task is lost. -/
def Ledger.closed (l : Ledger) : Prop := l = .even ∨ l = .lost

section Tasks

variable {env : Env} {t : Task} {α : Type}

/-- Once lost, a task may do anything. -/
theorem lost_follows (p : Async α) : Follows ledger t .lost p fun _ l => l = .lost := by
  induction p with
  | ret a => rfl
  | raise e => rfl
  | call c k ih =>
      refine ⟨trivial, fun r => ?_⟩
      have hnext : ledger.next t .lost c r = .lost := by
        cases c <;> rfl
      rw [hnext]
      exact ih r

/-- A task that is lost ends closed. -/
theorem lost_closed (p : Async α) : Follows ledger t .lost p fun _ l => l.closed :=
  follows_mono (lost_follows p) fun _ _ => Or.inr

/-- A row that is ahead, and the write to the hash that catches up. -/
theorem catchUp {j : JobId} {st : JobStatus} {f : JobHash} {q : Unit → Async α}
    (hf : f.status = some st) (h : ∀ a, Follows ledger t .even (q a) fun _ l => l.closed) :
    Follows ledger t (.row j st) (redis.hset (redisKeys.job j) f >>= q) fun _ l => l.closed :=
  follows_step ⟨rfl, hf⟩ h fun _ => Or.inr rfl

/-- Commands that write neither record. -/
def aside : Cmd → Prop
  | .write (.hset _ _) | .multi _ | .insert _ | .update _ _ => False
  | _ => True

theorem aside_of_plain {c : Cmd} (h : c.plain) : aside c := by
  cases c with
  | write w => cases w <;> first | exact h | trivial
  | multi _ | insert _ | update _ _ => exact h
  | _ => trivial

/-- They are permitted while the records are even, and leave them so unless a scheduler
finds a due job. -/
theorem even_aside {c : Cmd} (h : aside c) : ledger.permits t .even c ∧
    ∀ r, (ledger.next t .even c r).closed := by
  constructor
  · cases c with
    | write w => cases w <;> first | exact h.elim | trivial
    | multi _ | insert _ | update _ _ => exact h.elim
    | _ => trivial
  · intro r
    change (Ledger.next .even c r).closed
    unfold Ledger.next
    split
    case h_1 => exact Or.inr rfl
    all_goals first | exact h.elim | exact Or.inl rfl | simp_all

/-- A program that writes neither record. -/
theorem aside_follows {p : Async α} (h : p.Only aside) :
    Follows ledger t .even p fun _ l => l.closed := by
  induction p with
  | ret a => exact Or.inl rfl
  | raise e => exact Or.inl rfl
  | call c k ih =>
      refine ⟨(even_aside h.1).1, fun r => ?_⟩
      rcases (even_aside (t := t) h.1).2 r with hnext | hnext
      · rw [hnext]
        exact ih r (h.2 r)
      · rw [hnext]
        exact lost_closed _

/-- What may be done once the records are closed. -/
theorem closed_follows {l : Ledger} {p : Async α} (hl : l.closed)
    (h : Follows ledger t .even p fun _ l => l.closed) :
    Follows ledger t l p fun _ l => l.closed := by
  rcases hl with rfl | rfl
  · exact h
  · exact lost_closed p

/-- Sequencing of programs that end closed. -/
theorem closed_bind {β : Type} {l : Ledger} {p : Async α} {f : α → Async β}
    (h : Follows ledger t l p fun _ l => l.closed)
    (hf : ∀ a, Follows ledger t .even (f a) fun _ l => l.closed) :
    Follows ledger t l (p >>= f) fun _ l => l.closed :=
  follows_bind _ h (fun a _ hl => closed_follows hl (hf a)) fun _ _ hl => hl

/-- A `try`/`catch` of programs that end closed. -/
theorem closed_handle {p : Async α} {f : Err → Async α}
    (h : Follows ledger t .even p fun _ l => l.closed)
    (hf : ∀ e, Follows ledger t .even (f e) fun _ l => l.closed) :
    Follows ledger t .even (tryCatch p f) fun _ l => l.closed :=
  follows_handle _ h (fun _ _ hl => hl) fun e _ hl => closed_follows hl (hf e)

/-- A command that writes neither record, then the rest. -/
theorem aside_step {c : Cmd} {f : c.Resp → Async α} (h : aside c)
    (hf : ∀ a, Follows ledger t .even (f a) fun _ l => l.closed) :
    Follows ledger t .even (await c >>= f) fun _ l => l.closed :=
  follows_step (even_aside h).1 (fun a => closed_follows ((even_aside h).2 _) (hf a))
    fun _ => (even_aside h).2 _

/-- A loop whose body ends closed. -/
theorem closed_forEach {β : Type} {f : β → Async Unit}
    (h : ∀ x, Follows ledger t .even (f x) fun _ l => l.closed) :
    ∀ xs, Follows ledger t .even (forEach xs f) fun _ l => l.closed
  | [] => Or.inl rfl
  | x :: xs => closed_bind (h x) fun _ => closed_forEach h xs

/-- The row first, then the hash. -/
theorem rowFirst {j : JobId} {p : RowPatch} {f : JobHash} {q : Unit → Async α}
    (hf : f.status = some p.status)
    (h : ∀ a, Follows ledger t .even (q a) fun _ l => l.closed) :
    Follows ledger t .even (await (.update j p) >>= fun _ => redis.hset (redisKeys.job j) f >>= q)
      fun _ l => l.closed :=
  follows_step trivial (fun _ => catchUp hf h) fun _ => Or.inl rfl

/-- The row first, then the time, then the hash. -/
theorem rowThenTime {j : JobId} {p : RowPatch} {f : ℕ → JobHash} {q : Unit → Async α}
    (hf : ∀ now, (f now).status = some p.status)
    (h : ∀ a, Follows ledger t .even (q a) fun _ l => l.closed) :
    Follows ledger t .even (await (.update j p) >>= fun _ => dateNow >>= fun now =>
      redis.hset (redisKeys.job j) (f now) >>= q) fun _ l => l.closed :=
  follows_step trivial
    (fun _ => follows_step rfl (fun now => catchUp (hf now) h) fun _ => Or.inr rfl)
    fun _ => Or.inl rfl

/-- The row of a new job, then the `MULTI` that makes it visible. -/
theorem register {n : NewRow} {q : QueueName} {f : JobHash} {w : Write}
    (hf : f.status = some n.status) :
    Follows ledger t .even (await (.insert n) >>= fun _ =>
      redis.multi [.sadd redisKeys.queueRegistry q, .hset (redisKeys.job n.id) f, w])
      fun _ l => l.closed := by
  refine follows_step trivial (fun _ => ?_) fun _ => Or.inl rfl
  refine follows_perform ⟨q, f, w, rfl, hf⟩ fun r => ?_
  cases r
  · exact Or.inr rfl
  · exact Or.inl rfl

theorem enqueue_follows (n : String) (p : Option Json) (o : EnqueueOptions) :
    Follows ledger t .even (Producer.enqueue n p o) fun _ l => l.closed := by
  have create : Follows ledger t .even (Producer.create n p o) fun _ l => l.closed := by
    refine aside_step trivial fun id => aside_step trivial fun nowIso => closed_bind ?_ fun _ => ?_
    · unfold Producer.store
      cases o.delay.filter (0 < ·) with
      | some delay => exact aside_step trivial fun now => register rfl
      | none => exact register rfl
    · refine closed_bind ?_ fun _ => aside_step trivial fun now => aside_step trivial fun _ => ?_
      · unfold Producer.remember
        cases truthy o.idempotencyKey with
        | some key => exact aside_follows (Prog.only_perform trivial)
        | none => exact Or.inl rfl
      · exact Or.inl rfl
  unfold Producer.enqueue
  split
  · exact Or.inl rfl
  · cases truthy o.idempotencyKey with
    | none => exact create
    | some key =>
        refine aside_step trivial fun existing => ?_
        cases truthy existing with
        | some j => exact Or.inl rfl
        | none => exact create

/-- A tick is lost as soon as it finds a due job. -/
theorem tick_follows : Follows ledger t .even Scheduler.tick fun _ l => l.closed := by
  refine closed_bind ?_ fun _ => ?_
  · refine aside_step trivial fun queues => aside_step trivial fun now => ?_
    refine closed_forEach (fun q => ?_) queues
    refine follows_step trivial (fun due => ?_) fun _ => Or.inl rfl
    cases due with
    | nil => exact Or.inl rfl
    | cons j due => exact lost_closed _
  · refine aside_step trivial fun now => aside_step trivial fun dueEntries => ?_
    refine closed_forEach (fun c => ?_) dueEntries
    refine aside_step trivial fun removed => ?_
    split
    · exact Or.inl rfl
    · refine aside_step trivial fun defRaw => ?_
      cases truthy defRaw.cronExpression with
      | none => exact Or.inl rfl
      | some e =>
          refine aside_step trivial fun nextMs => aside_step trivial fun _ => ?_
          unfold Scheduler.enqueueCronJob
          cases parsePayload defRaw.payload with
          | error e => exact Or.inl rfl
          | ok payload =>
              exact aside_step trivial fun id => aside_step trivial fun nowIso =>
                register rfl

theorem janitor_follows : Follows ledger t .even Janitor.tick fun _ l => l.closed := by
  refine aside_step trivial fun workerIds => closed_forEach (fun w => ?_) workerIds
  refine aside_step trivial fun found => ?_
  split
  · exact Or.inl rfl
  · refine aside_step trivial fun orphans => closed_bind (closed_forEach (fun j => ?_) orphans)
      fun _ => ?_
    · refine aside_step trivial fun hash => aside_step trivial fun _ => ?_
      -- here the hash is ahead
      refine follows_step ⟨j, .pending, rfl, rfl⟩ (fun _ => ?_) fun _ => Or.inl rfl
      refine follows_perform ⟨_, rfl, rfl⟩ fun r => ?_
      cases r
      · exact Or.inr rfl
      · exact Or.inl rfl
    · exact aside_step trivial fun _ => aside_step trivial fun _ =>
        aside_follows (Prog.only_perform trivial)

theorem pushRetried_follows (q : QueueName) (id : JobId) (f : JobHash → String) :
    Follows ledger t .even (Routes.pushRetried q id f) fun _ l => l.closed :=
  aside_step trivial fun _ => aside_step trivial fun _ => aside_step trivial fun _ =>
    aside_follows (Prog.only_perform trivial)

theorem retry_follows (id : JobId) :
    Follows ledger t .even (Routes.retry id) fun _ l => l.closed := by
  refine aside_step trivial fun job => ?_
  cases job with
  | none => exact Or.inl rfl
  | some job =>
      change Follows _ _ _ (if Routes.retriable job = false then _ else _) _
      split
      · exact Or.inl rfl
      · exact rowFirst rfl fun _ => aside_step trivial fun _ =>
          closed_bind (pushRetried_follows _ _ _) fun _ => Or.inl rfl

theorem requeue_follows (q : QueueName) (b : RequeueBody) :
    Follows ledger t .even (Routes.requeue q b) fun _ l => l.closed := by
  have jobs : ∀ ids n m,
      Follows ledger t .even (Routes.requeueJobs q n m ids) fun _ l => l.closed := by
    intro ids
    induction ids with
    | nil => exact fun _ _ => Or.inl rfl
    | cons id ids ih =>
        intro n m
        refine closed_bind (closed_handle (closed_bind ?_ fun _ => Or.inl rfl) fun _ => Or.inl rfl)
          fun ok => ?_
        · exact rowFirst rfl fun _ => aside_step trivial fun _ => pushRetried_follows _ _ _
        · split
          · exact ih _ _
          · exact ih _ _
  unfold Routes.requeue
  split
  · exact aside_step trivial fun ids => jobs ids 0 0
  · cases b.jobIds with
    | some ids => exact jobs ids 0 0
    | none => exact Or.inl rfl

theorem publishQuietly_follows (e : JobEvent) :
    Follows ledger t .even (redis.publishQuietly e) fun _ l => l.closed :=
  closed_handle (aside_follows (Prog.only_perform trivial)) fun _ => Or.inl rfl

variable {w : WorkerId}

theorem handleFailure_follows (j : JobId) (message : String) :
    Follows ledger t .even (Worker.handleFailure w j message) fun _ l => l.closed := by
  refine aside_step trivial fun hash => ?_
  change Follows _ _ _ (if _ then _ else _) _
  split
  · exact rowThenTime (fun _ => rfl) fun _ => aside_step trivial fun _ => aside_step trivial
      fun _ => aside_step trivial fun _ => publishQuietly_follows _
  · refine aside_step trivial fun now => rowFirst rfl fun _ => ?_
    cases Option.map (fun a => (now : ℚ) + Worker.backoff a) (Worker.numberOr hash.attempts 0) with
    | none => exact Or.inl rfl
    | some score => exact aside_step trivial fun _ => aside_follows (Prog.only_perform trivial)

theorem complete_follows (j : JobId) :
    Follows ledger t .even (Worker.complete env w j) fun _ l => l.closed :=
  rowThenTime (fun _ => rfl) fun _ => aside_step trivial fun _ => aside_step trivial fun _ =>
    aside_step trivial fun _ => publishQuietly_follows _

theorem runJob_follows (j : JobId) (h : JobHash) (jobName : String) (q : QueueName) :
    Follows ledger t .even (Worker.runJob env w j h jobName q) fun _ l => l.closed := by
  refine rowThenTime (fun _ => rfl) fun _ => aside_step trivial fun now =>
    closed_bind (publishQuietly_follows _) fun _ => ?_
  split
  · exact handleFailure_follows j _
  · split
    · exact handleFailure_follows j _
    · exact closed_handle (aside_step trivial fun _ => complete_follows j)
        fun e => handleFailure_follows j _

theorem processOne_follows (j : JobId) :
    Follows ledger t .even (Worker.processOne env w j) fun _ l => l.closed := by
  refine aside_step trivial fun hash => ?_
  cases truthy hash.jobName with
  | none => exact Or.inl rfl
  | some jobName =>
      dsimp only
      cases env.rateLimits w (hash.queueName.getD (env.queue w)) with
      | none => exact runJob_follows j hash jobName _
      | some config =>
          refine closed_bind ?_ fun result => ?_
          · refine aside_step trivial fun now => aside_step trivial fun data => ?_
            dsimp only
            split
            · exact aside_step trivial fun _ => Or.inl rfl
            · exact aside_step trivial fun _ => Or.inl rfl
          · split
            · exact runJob_follows j hash jobName _
            · refine follows_step (by simp [ledger, Ledger.permits, targetList]) (fun _ => ?_)
                fun _ => Or.inl rfl
              exact aside_follows (Prog.only_perform trivial)

end Tasks

/-- **Every task keeps the ledger.** -/
theorem ledger_follows (env : Env) (t : Task) :
    Follows ledger t .even (body env t) fun _ l => l.closed := by
  cases t with
  | enqueue n p o => exact closed_bind (enqueue_follows n p o) fun _ => Or.inl rfl
  | tick => exact closed_bind tick_follows fun _ => Or.inl rfl
  | processOne w n j =>
      refine closed_bind ?_ fun _ => Or.inl rfl
      refine closed_bind (closed_handle (processOne_follows j) fun _ => Or.inl rfl) fun _ => ?_
      exact aside_follows (Prog.only_perform trivial)
  | janitor => exact closed_bind janitor_follows fun _ => Or.inl rfl
  | retry id => exact closed_bind (retry_follows id) fun _ => Or.inl rfl
  | requeue q b => exact closed_bind (requeue_follows q b) fun _ => Or.inl rfl
  | _ =>
      refine aside_follows ((Repertoire.only_plain env ?_).mono fun c hc => aside_of_plain hc)
      trivial

/-! ## The records agree -/

/-- The two records of a job say the same. -/
def Agree (s : World) (j : JobId) : Prop :=
  ∀ row, s.pg.row? j = some row → (s.redis.jobs (redisKeys.job j)).status = some row.status

/-- The records of all jobs agree, but for the one whose second write is owed. -/
def Kept : Ledger → World → Prop
  | .even, s => ∀ j, Agree s j
  | .row j st, s => (∀ i, i ≠ j → Agree s i) ∧ ∀ row, s.pg.row? j = some row → row.status = st
  | .hash j st, s => (∀ i, i ≠ j → Agree s i) ∧ (s.redis.jobs (redisKeys.job j)).status = some st
  | .lost, _ => False

/-- A scheduler finds no due job, and a statement that changes a row names it by its uuid
as Postgres prints it. -/
def Orderly (s : World) : Cmd → Prop
  | .zrangebyscore (.delayed q) max => (s.redis.zsets (.delayed q)).rangeByScore max = []
  | .update id _ => Uuid.Printed id
  | _ => True

instance (s : World) : (c : Cmd) → Decidable (Orderly s c)
  | .zrangebyscore (.delayed q) max =>
      inferInstanceAs (Decidable ((s.redis.zsets (.delayed q)).rangeByScore max = []))
  | .update id _ => inferInstanceAs (Decidable (Uuid.Printed id))
  | .zrangebyscore (.queue _) _ | .zrangebyscore (.job _) _ | .zrangebyscore .queues _
  | .zrangebyscore (.processing _) _ | .zrangebyscore (.dlq _) _ | .zrangebyscore (.idem _) _
  | .zrangebyscore .cronSchedule _ | .zrangebyscore (.cronDef _) _
  | .zrangebyscore (.ratelimit _) _ | .zrangebyscore (.heartbeat _) _
  | .zrangebyscore (.worker _) _ | .zrangebyscore .workers _ | .zrangebyscore .events _
  | .write _ | .multi _ | .smembers _ | .zrem _ _ | .hgetall _ | .hgetPriority _
  | .hgetallCron _ | .hgetallRate _ | .get _ | .existsKey _ | .lrange _ _ _ | .rpoplpush _ _
  | .blmove _ _ | .publish _ | .insert _ | .select _ | .now | .uuid | .sleep _ | .cronNext _
  | .handler _ _ _ | .onWorker _ _ => .isTrue trivial

section Step

variable {env : Env} {s s' : World} {t : Task} {l : Phase} {x : Ledger} {c : Cmd} {o : Oracle}
  {r : Except Err c.Resp}

/-- Rows change by statements. -/
theorem row_of_answer (ha : World.answer env s o c = some (r, s')) (j : JobId) :
    s'.pg.row? j = s.pg.row? j ∨ (∃ id p, c = .update id p) ∨ ∃ n, c = .insert n ∧ n.id = j := by
  cases c with
  | insert n =>
      simp only [World.answer] at ha
      split at ha
      · rename_i pg hins
        cases ha
        obtain ⟨row, -, -, -, hrow⟩ := Postgres.row?_insert hins
        by_cases hj : j = n.id
        · exact Or.inr (Or.inr ⟨n, rfl, hj.symm⟩)
        · exact Or.inl (by rw [hrow, if_neg hj])
      · cases ha
        exact Or.inl rfl
  | update id p =>
      cases ha
      exact Or.inr (Or.inl ⟨id, p, rfl⟩)
  | onWorker w op =>
      obtain ⟨obj, rfl⟩ := answer_onWorker ha
      exact Or.inl rfl
  | write w =>
      cases ha
      exact Or.inl rfl
  | _ =>
      simp only [World.answer] at ha
      repeat' split at ha
      all_goals cases ha
      all_goals exact Or.inl rfl

/-- Where neither record is written, they go on saying the same. -/
theorem agree_same {j : JobId} (h : Agree s j)
    (hhash : s'.redis.jobs (redisKeys.job j) = s.redis.jobs (redisKeys.job j))
    (hrow : s'.pg.row? j = s.pg.row? j) : Agree s' j := by
  intro row h'
  rw [hhash]
  exact h row (hrow ▸ h')

/-- `HSET` leaves the records of other jobs alone, and sets the status if it has one. -/
theorem hset_status (now : ℕ) (rd : Redis) (j : JobId) {f : JobHash} {st : JobStatus}
    (hf : f.status = some st) :
    (((Write.hset (redisKeys.job j) f).apply now rd).jobs (redisKeys.job j)).status = some st ∧
      ∀ i, i ≠ j → ((Write.hset (redisKeys.job j) f).apply now rd).jobs (redisKeys.job i) =
        rd.jobs (redisKeys.job i) := by
  constructor
  · simp [Write.apply, JobHash.merge, hf]
  · intro i hi
    have hne : redisKeys.job i ≠ redisKeys.job j := fun h => hi (Key.job.inj h)
    simp [Write.apply, Function.update_of_ne hne]

/-- The records do not depend on the time. -/
theorem Kept.later (h : Kept x s) (now : ℕ) : Kept x { s with clock := now } := by
  cases x <;> exact h

/-- **Step lemma, even records.** -/
theorem kept_even (h : ∀ j, Agree s j) (hp : Permits env t l c)
    (hx : Ledger.permits .even c) (horder : Orderly s c)
    (ha : World.answer env s o c = some (r, s')) : Kept (Ledger.next .even c r) s' := by
  by_cases haside : aside c
  · have hnext : Ledger.next .even c r = .even := by
      cases c with
      | zrangebyscore k max =>
          cases k with
          | delayed q =>
              cases ha
              rw [show (s.redis.zsets (.delayed q)).rangeByScore max = [] from horder]
              rfl
          | _ => rfl
      | write w => cases w <;> first | exact haside.elim | rfl
      | multi _ | insert _ | update _ _ => exact haside.elim
      | _ => rfl
    rw [hnext]
    intro j
    have hhash : s'.redis.jobs (redisKeys.job j) = s.redis.jobs (redisKeys.job j) := by
      rcases Audit.hash_of_effect (effect_of_answer hp ha) ha j with hsame | ⟨f, rfl⟩ |
        ⟨ws, f, rfl, -⟩
      · exact hsame
      · exact haside.elim
      · exact haside.elim
    have hrow : s'.pg.row? j = s.pg.row? j := by
      rcases row_of_answer ha j with hsame | ⟨id, p, rfl⟩ | ⟨n, rfl, -⟩
      · exact hsame
      · exact haside.elim
      · exact haside.elim
    exact agree_same (h j) hhash hrow
  · cases c with
    | write w =>
        cases w with
        | hset k f =>
            obtain ⟨j, st, rfl, hf⟩ := hx
            cases ha
            change Kept (f.status.elim .even (.hash j)) _
            rw [hf]
            obtain ⟨hst, hsame⟩ := hset_status s.clock s.redis j hf
            exact ⟨fun i hi => agree_same (h i) (hsame i hi) rfl, hst⟩
        | _ => exact absurd trivial haside
    | multi ws =>
        -- giving a job back to its ready list
        cases hp with
        | quiet hq => exact hq.elim
        | publishReady | publishDelayed =>
            exact absurd (List.mem_cons_of_mem _ (List.mem_cons_self ..)) (hx _ _)
        | pushBack =>
            cases ha
            exact h
    | insert n =>
        simp only [World.answer] at ha
        split at ha
        · rename_i pg hins
          cases ha
          obtain ⟨row, -, hst, -, hrow⟩ := Postgres.row?_insert hins
          refine ⟨fun i hi => agree_same (h i) rfl (by rw [hrow, if_neg hi]), fun row' h' => ?_⟩
          rw [hrow, if_pos rfl] at h'
          cases h'
          exact hst
        · cases ha
          exact h
    | update j p =>
        cases ha
        refine ⟨fun i hi => agree_same (h i) rfl
            (by rw [Postgres.row?_update_printed horder, if_neg hi]),
          fun row' h' => ?_⟩
        rw [Postgres.row?_update_printed horder, if_pos rfl, Option.map_eq_some_iff] at h'
        obtain ⟨row, -, rfl⟩ := h'
        rfl
    | _ => exact absurd trivial haside

/-- **Step lemma.**  The records of all jobs stay in order after an orderly command that is
answered. -/
theorem kept_step (h : Kept x s) (hp : Permits env t l c) (hx : x.permits c)
    (horder : Orderly s c) (ha : World.answer env s o c = some (r, s')) :
    Kept (x.next c r) s' := by
  cases x with
  | even => exact kept_even h hp hx horder ha
  | lost => exact h.elim
  | hash j st =>
      obtain ⟨p, rfl, rfl⟩ := hx
      obtain ⟨hothers, hhash⟩ := h
      cases ha
      intro i
      by_cases hi : i = j
      · subst hi
        intro row' h'
        rw [Postgres.row?_update_printed horder, if_pos rfl, Option.map_eq_some_iff] at h'
        obtain ⟨row, -, rfl⟩ := h'
        exact hhash
      · exact agree_same (hothers i hi) rfl
          (by rw [Postgres.row?_update_printed horder, if_neg hi])
  | row j st =>
      obtain ⟨hothers, hrow⟩ := h
      -- the hash catches up
      have caught : ∀ rd : Redis, (rd.jobs (redisKeys.job j)).status = some st →
          (∀ i, i ≠ j → rd.jobs (redisKeys.job i) = s.redis.jobs (redisKeys.job i)) →
          ∀ i, Agree { s with redis := rd } i := by
        intro rd hst hsame i
        by_cases hi : i = j
        · subst hi
          intro row h'
          exact hst.trans (congrArg some (hrow row h').symm)
        · exact agree_same (hothers i hi) (hsame i hi) rfl
      cases c with
      | now =>
          cases ha
          exact ⟨hothers, hrow⟩
      | write w =>
          cases w with
          | hset k f =>
              obtain ⟨rfl, hf⟩ := hx
              cases ha
              exact caught _ (hset_status _ _ _ hf).1 (hset_status _ _ _ hf).2
          | _ => cases hx
      | multi ws =>
          obtain ⟨q, f, w, rfl, hf⟩ := hx
          have hmulti : ∃ rd, s' = { s with redis := rd } ∧
              rd.jobs = ((Write.hset (redisKeys.job j) f).apply s.clock s.redis).jobs := by
            cases hp with
            | quiet hq => exact hq.elim
            | publishReady | publishDelayed =>
                cases ha
                exact ⟨_, rfl, rfl⟩
          obtain ⟨rd, rfl, hjobs⟩ := hmulti
          cases ha
          refine caught _ ?_ fun i hi => ?_
          · rw [hjobs]
            exact (hset_status s.clock s.redis j hf).1
          · rw [hjobs]
            exact (hset_status s.clock s.redis j hf).2 i hi
      | _ => cases hx

/-- A statement that cannot be read is not about a job, and leaves the records as they
are. -/
theorem kept_unreadable {e : Err} (h : Kept x s) (hx : x.permits c) (horder : Orderly s c)
    (hc : c.unreadable = true) : Kept (x.next c (.error e)) s := by
  cases c with
  | update id p =>
      rw [Cmd.unreadable, show Uuid.normal id = some id from horder] at hc
      cases hc
  | select id =>
      cases x with
      | even => exact h
      | lost => exact h
      | row j st => cases hx
      | hash j st =>
          obtain ⟨p, hp, -⟩ := hx
          cases hp
  | _ => cases hc

/-- **Step lemma.**  So they do when it is sent to stores that work. -/
theorem kept_exec (h : Kept x s) (hp : Permits env t l c) (hx : x.permits c)
    (horder : Orderly s c) (ho : o.works = true) (hex : World.exec env s t c o = some (r, s')) :
    Kept (x.next c r) s' := by
  rcases (exec_cases hex).2 with ⟨e, htakes, -, rfl, rfl⟩ | ⟨-, ha⟩
  · refine kept_unreadable h hx horder ?_
    rw [Oracle.takes, ho] at htakes
    simpa using htakes
  · exact kept_step h hp hx horder ha

/-- **The records agree after every operation.**  When operations are executed one after
the other, no scheduler finds a due job and every row is changed under the spelling of its
uuid that Postgres prints, the row of a job and its hash hold the same status after each of
them. -/
theorem agree_of_sequential (h : Sequential env Orderly s) {j : JobId} {row : JobRow}
    (hrow : s.pg.row? j = some row) :
    (s.redis.jobs (redisKeys.job j)).status = some row.status := by
  suffices hall : ∀ j, Agree s j from hall j row hrow
  clear hrow
  induction h with
  | blank now room =>
      intro j row hrow
      cases hrow
  | @drift s m s' _ hm ih =>
      cases m <;> cases hm <;> exact ih
  | @run s t x s' _ hrun ih =>
      have hkept := Prog.ends_follows (P := (custody env).prod ledger) (fun l s => Kept l.2 s)
        (fun l s c r s' hk hp (hone : unhurried env Orderly t s c r s') => by
          obtain ⟨horder, ms, o, ho, hex⟩ := hone
          have horder' : Orderly { s with clock := s.clock + ms } c := by
            cases c <;> exact horder
          exact kept_exec (hk.later (s.clock + ms)) hp.1 hp.2 horder' ho hex)
        (follows_prod (custody_follows t) (ledger_follows env t)) (show Kept .even s from ih)
      obtain ⟨l, ⟨-, hclosed⟩, hkeeps⟩ := hkept _ _ hrun
      rcases hclosed with hl | hl
      · rw [hl] at hkeeps
        exact hkeeps
      · rw [hl] at hkeeps
        exact hkeeps.elim

end Step

/-! ## An operation that writes one record -/

/-- A job is enqueued, pulled, fails, and waits for its next attempt. -/
def failingOnce : List (Move ⊕ Task × List Oracle) :=
  [.inr (.enqueue "echo" (some .null) {}, .fresh j1 :: List.replicate 5 .plain),
    .inr (.start "w", List.replicate 8 .plain),
    .inr (.loop "w", List.replicate 6 .plain),
    .inr (.processOne "w" 0 j1.text, List.replicate 6 .plain ++ [.outcome (.error "boom")] ++
      List.replicate 7 .plain)]

/-- After the failure both records say that the job waits. -/
theorem agree_after_failure : ∃ s, Sequential sample Orderly s ∧
    ((s.pg.row? j1.text).map JobRow.status = some .delayed) ∧
    ∀ row, s.pg.row? j1.text = some row →
      (s.redis.jobs (redisKeys.job j1.text)).status = some row.status := by
  have hrun : (script sample Orderly failingOnce {}).any
      (fun s => decide ((s.pg.row? j1.text).map JobRow.status = some .delayed)) = true := by
    decide +kernel
  obtain ⟨s, hs, ht⟩ := (Option.any_eq_true _ _).mp hrun
  have hseq : Sequential sample Orderly s := (Sequential.blank 0 _).script hs
  exact ⟨s, hseq, of_decide_eq_true ht, fun row => agree_of_sequential hseq⟩

/-- A tick promotes a job that was enqueued with a delay: its hash is pending, its row
still delayed. -/
theorem promotion_one_sided : ∃ s, Sequential sample (fun _ _ => True) s ∧
    ∃ row, s.pg.row? j1.text = some row ∧ row.status = .delayed ∧
      (s.redis.jobs (redisKeys.job j1.text)).status = some .pending := by
  have hrun : (script sample (fun _ _ => True)
      [.inr (.enqueue "echo" (some .null) { delay := some 1000 },
          .fresh j1 :: List.replicate 6 .plain),
        .inl (.pass 2000),
        .inr (.tick, .members ["default"] :: List.replicate 8 .plain)] {}).any
      (fun s => (s.pg.row? j1.text).any fun row => decide (row.status = .delayed ∧
        (s.redis.jobs (redisKeys.job j1.text)).status = some .pending)) = true := by
    decide +kernel
  obtain ⟨s, hs, ht⟩ := (Option.any_eq_true _ _).mp hrun
  obtain ⟨row, hrow, hst⟩ := (Option.any_eq_true _ _).mp ht
  exact ⟨s, (Sequential.blank 0 _).script hs, row, hrow, of_decide_eq_true hst⟩

end Agreement

end NexusQueue
