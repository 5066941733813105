/-
# The record of a new job

Three pieces of code create jobs: the two branches of `Producer.enqueue`, and the loop of
`fireCronJobs` in the scheduler.  Each has an `INSERT` of its own and writes the same hash.
`Recorded` says what row and hash a request should leave; the three pieces of code leave it
if the priority is `normal`, which the `INSERT` of the immediate path does not mention, and
the payload is not `null`, which `addJob` takes for a missing one (`same_record_iff`).
-/
import NexusQueue.Listing
import NexusQueue.Scheduler

namespace NexusQueue

open Prog (Runs Ends ends_bind ends_pure ends_throw)

namespace Records

/-! ## The request -/

/-- What is asked for on each of the three paths. -/
structure Request where
  jobName : String
  payload : Json
  queue : Option QueueName := none
  maxAttempts : Option ℚ := none
  priority : Option Priority := none

/-- The queue, or the default one. -/
def Request.queueName (req : Request) : QueueName := req.queue.getD DEFAULT_QUEUE

/-- The attempts, or the default number. -/
def Request.attempts (req : Request) : ℚ := req.maxAttempts.getD DEFAULT_MAX_ATTEMPTS

/-- The name of the priority, or of the default one. -/
def Request.priorityName (req : Request) : String := (req.priority.getD .normal).name

/-- The options for `Producer.enqueue`. -/
def Request.options (req : Request) (delay : Option ℚ) : EnqueueOptions where
  queue := req.queue
  maxAttempts := req.maxAttempts
  delay := delay
  priority := req.priority

/-- The recurring job for `addJob`. -/
def Request.definition (req : Request) (cronId : CronId) (cronExpression : String) :
    CronJobDef where
  cronId := cronId
  jobName := req.jobName
  payload := some req.payload
  cronExpression := cronExpression
  queue := req.queue
  maxAttempts := req.maxAttempts
  priority := req.priority.map Priority.name

/-! ## The record -/

/-- The row the request should get. -/
def Request.row (req : Request) (id : JobId) (status : JobStatus) (maxAttempts : ℤ)
    (createdAt : ℕ) (due : Option ℚ) : JobRow where
  id := id
  queueName := req.queueName
  jobName := req.jobName
  payload := req.payload
  status := status
  maxAttempts := maxAttempts
  createdAt := createdAt
  priority := some req.priorityName
  delayedUntil := due

/-- The hash the request should get. -/
def Request.hash (req : Request) (id : JobId) (status : JobStatus) (createdAt : ℕ) : JobHash :=
  newJobHash id req.queueName req.jobName (some req.payload) status (.of req.attempts)
    req.priorityName createdAt

/-- Where the job should wait: in its ready list, or in the delayed set until it is due. -/
def Request.Waits (req : Request) (id : JobId) (s : World) : Option ℚ → Prop
  | none => id ∈ s.redis.lists (targetList req.queueName req.priorityName)
  | some due => (s.redis.zsets (redisKeys.delayed req.queueName)).score? id = some due

/-- Row and hash of the job agree with the request, and so with each other, and the job waits
where it should. -/
structure Recorded (req : Request) (id : JobId) (status : JobStatus) (due : Option ℚ)
    (s : World) : Prop where
  row : ∃ (maxAttempts : ℤ) (createdAt : ℕ), (maxAttempts : ℚ) = req.attempts ∧
    s.pg.row? id = some (req.row id status maxAttempts createdAt due)
  hash : ∃ createdAt, s.redis.jobs (redisKeys.job id) = req.hash id status createdAt
  place : req.Waits id s due

/-! ## An insertion and the `MULTI` after it -/

variable {env : Env} {ok : World → Cmd → Prop} {t : Task} {s s' : World} {req : Request}

/-- What the insertion of a row and the `MULTI` after it leave. -/
structure Made (row : NewRow) (ws : List Write) (s s' : World) : Prop where
  row : ∃ payload maxAttempts createdAt, row.payload = some payload ∧
    row.maxAttempts = some ((maxAttempts : ℤ) : ℚ) ∧
    s'.pg.row? row.id = some (row.toRow payload maxAttempts createdAt)
  redis : ∃ now, s'.redis = s.redis.multi now ws
  ids : s'.ids = s.ids

/-- Another command does not touch what they leave. -/
theorem Made.later {row : NewRow} {ws : List Write} {s₁ s₂ : World} (h : Made row ws s s₁)
    (hpg : s₂.pg = s₁.pg) (hredis : s₂.redis = s₁.redis) (hids : s₂.ids = s₁.ids) :
    Made row ws s s₂ := by
  obtain ⟨hrow, hmulti, hdrawn⟩ := h
  exact ⟨hpg ▸ hrow, hredis ▸ hmulti, hids.trans hdrawn⟩

/-- The two commands. -/
theorem insert_multi_ends (row : NewRow) (ws : List Write) :
    Ends (unhurried env ok t) s (do await (.insert row); redis.multi ws)
      fun x s' => x = .ok () → Made row ws s s' := by
  refine ends_later rfl (fun ms o _ s₁ hinsert => ?_) fun ms o e s₁ _ h => by cases h
  simp only [World.answer] at hinsert
  split at hinsert
  · rename_i db' hdb
    cases hinsert
    obtain ⟨payload, maxAttempts, hpayload, hmax, hrow⟩ := Postgres.row_of_insert hdb
    refine Prog.ends_perform fun r s₂ hstep _ => ?_
    obtain ⟨-, ms', halone⟩ := hstep
    obtain ⟨o', ho'⟩ := answer_of_alone halone rfl
    cases ho'
    exact ⟨⟨payload, maxAttempts, _, hpayload, hmax, hrow⟩, ⟨_, rfl⟩, rfl⟩
  · cases hinsert

/-! ## What the three paths leave -/

/-- The statement of the immediate path. -/
def immediateRow (req : Request) (id : Uuid) : NewRow :=
  { id := id, queueName := req.queueName, jobName := req.jobName, payload := some req.payload
    status := .pending, maxAttempts := some req.attempts }

/-- The statement of the delayed path. -/
def delayedRow (req : Request) (id : Uuid) (due : ℚ) : NewRow :=
  { id := id, queueName := req.queueName, jobName := req.jobName, payload := some req.payload
    status := .delayed, maxAttempts := some req.attempts, delayedUntil := some due
    priority := req.priorityName }

/-- The statement of the scheduler. -/
def cronRow (req : Request) (id : Uuid) : NewRow :=
  { id := id, queueName := req.queueName, jobName := req.jobName
    payload := some (CronManager.payloadOrEmpty (some req.payload))
    status := .pending, maxAttempts := some req.attempts, priority := req.priorityName }

/-- The `MULTI` of a job that is ready. -/
def readyWrites (req : Request) (id : JobId) (payload : Json) (createdAt : ℕ) : List Write :=
  [.sadd redisKeys.queueRegistry req.queueName,
    .hset (redisKeys.job id)
      (newJobHash id req.queueName req.jobName (some payload) .pending (.of req.attempts)
        req.priorityName createdAt),
    .lpush (targetList req.queueName req.priorityName) id]

/-- The `MULTI` of a job that is not due yet. -/
def delayedWrites (req : Request) (id : JobId) (due : ℚ) (createdAt : ℕ) : List Write :=
  [.sadd redisKeys.queueRegistry req.queueName,
    .hset (redisKeys.job id)
      (newJobHash id req.queueName req.jobName (some req.payload) .delayed (.of req.attempts)
        req.priorityName createdAt),
    .zadd (redisKeys.delayed req.queueName) due id]

/-- The hash of a new job replaces what was there. -/
theorem merge_newJobHash (old : JobHash) (id : JobId) (queueName : QueueName) (jobName : String)
    (payload : Option Json) (status : JobStatus) (maxAttempts : Numeral) (priority : String)
    (createdAt : ℕ) :
    old.merge (newJobHash id queueName jobName payload status maxAttempts priority createdAt) =
      newJobHash id queueName jobName payload status maxAttempts priority createdAt := rfl

/-- The producer's calls before and after the branch do not touch what the branch leaves. -/
theorem enqueue_ends (req : Request) (delay : Option ℚ) {Q : Uuid → World → Prop}
    (hstore : ∀ id nowIso s₁, Ends (unhurried env ok t) s₁
      (Producer.store id req.jobName (some req.payload) (req.options delay) req.queueName nowIso)
      fun x s' => x = .ok () → Q id s')
    (hlater : ∀ id (s₁ s₂ : World), s₂.pg = s₁.pg → s₂.redis = s₁.redis → s₂.ids = s₁.ids →
      Q id s₁ → Q id s₂) :
    Ends (unhurried env ok t) s
      (Producer.enqueue req.jobName (some req.payload) (req.options delay)) fun x s' =>
        ∀ id, x = .ok id → ∃ u : Uuid, id = u ∧ Q u s' := by
  unfold Producer.enqueue
  by_cases hname : req.jobName = ""
  · rw [if_pos hname]
    exact ends_throw fun id h => by cases h
  · rw [if_neg hname]
    show Ends _ s (Producer.create req.jobName (some req.payload) (req.options delay)) _
    unfold Producer.create
    refine ends_later rfl (fun ms o id s₁ _ => ?_) fun ms o e s₁ _ id h => by cases h
    refine ends_later rfl (fun ms o nowIso s₂ _ => ?_) fun ms o e s₂ _ id h => by cases h
    refine ends_bind _ (hstore id nowIso s₂) (fun _ s₃ hmade => ?_) fun e s₃ _ id h => by cases h
    refine ends_later rfl (fun ms o now s₄ hnow => ?_) fun ms o e s₄ _ id h => by cases h
    cases hnow
    refine ends_later rfl (fun ms o _ s₅ hpub => ?_) fun ms o e s₅ _ id h => by cases h
    cases hpub
    refine ends_pure fun id' h => ?_
    cases h
    exact ⟨id, rfl, hlater id s₃ _ rfl rfl rfl (hmade rfl)⟩

/-- **The immediate path.** -/
theorem immediate_ends (req : Request) :
    Ends (unhurried env ok t) s
      (Producer.enqueue req.jobName (some req.payload) (req.options none)) fun x s' =>
        ∀ id, x = .ok id → ∃ u : Uuid, id = u ∧ ∃ createdAt s₁,
          Made (immediateRow req u) (readyWrites req u req.payload createdAt) s₁ s' := by
  refine enqueue_ends req none (fun id nowIso s₁ => ?_) ?_
  · exact (insert_multi_ends (immediateRow req id)
      (readyWrites req id req.payload nowIso)).mono fun x s' hmade hx => ⟨nowIso, s₁, hmade hx⟩
  · rintro id s₁ s₂ hpg hredis hids ⟨createdAt, s₀, hmade⟩
    exact ⟨createdAt, s₀, hmade.later hpg hredis hids⟩

/-- **The delayed path.** -/
theorem delayed_ends (req : Request) {delay : ℚ} (hdelay : 0 < delay) :
    Ends (unhurried env ok t) s
      (Producer.enqueue req.jobName (some req.payload) (req.options (some delay))) fun x s' =>
        ∀ id, x = .ok id → ∃ u : Uuid, id = u ∧ ∃ due createdAt s₁,
          Made (delayedRow req u due) (delayedWrites req u due createdAt) s₁ s' := by
  refine enqueue_ends req (some delay) (fun id nowIso s₁ => ?_) ?_
  · have hfilter : (req.options (some delay)).delay.filter (0 < ·) = some delay := by
      show (some delay).filter (0 < ·) = some delay
      rw [Option.filter_some, if_pos (by simpa using hdelay)]
    unfold Producer.store
    rw [hfilter]
    dsimp only
    unfold Producer.enqueueDelayed
    refine ends_later rfl (fun ms o now s₂ _ => ?_) fun ms o e s₂ _ h => by cases h
    exact (insert_multi_ends (delayedRow req id (now + delay))
      (delayedWrites req id (now + delay) nowIso)).mono fun x s' hmade hx =>
        ⟨now + delay, nowIso, s₂, hmade hx⟩
  · rintro id s₁ s₂ hpg hredis hids ⟨due, createdAt, s₀, hmade⟩
    exact ⟨due, createdAt, s₀, hmade.later hpg hredis hids⟩

/-- The definition has its expression. -/
theorem truthy_expression {cronId : CronId} {cronExpression : String} (h : cronExpression ≠ "") :
    truthy (Listing.hashOf (req.definition cronId cronExpression)).cronExpression =
      some cronExpression := truthy_some h

/-- The job of a definition is enqueued with the values of the request. -/
theorem enqueueCronJob_definition (req : Request) (cronId : CronId) (cronExpression : String) :
    Scheduler.enqueueCronJob cronId (Listing.hashOf (req.definition cronId cronExpression)) =
      (do
        let id ← uuidv4
        let nowIso ← dateNow
        await (.insert (cronRow req id))
        redis.multi
          (readyWrites req id (CronManager.payloadOrEmpty (some req.payload)) nowIso)) := by
  have hpriority : (req.priority.map Priority.name).getD "normal" = req.priorityName := by
    unfold Request.priorityName
    cases req.priority <;> rfl
  unfold Scheduler.enqueueCronJob
  have hname : ((Listing.hashOf (req.definition cronId cronExpression)).priority.getD "normal") =
      req.priorityName := hpriority
  rw [hname]
  rfl

/-- **One iteration of the scheduler's loop** over the definition of the request. -/
theorem fireCron_ends (req : Request) (cronId : CronId) {cronExpression : String}
    (hexpr : cronExpression ≠ "")
    (hdef : s.redis.crons (redisKeys.cronDef cronId) =
      Listing.hashOf (req.definition cronId cronExpression)) :
    Ends (unhurried env ok t) s (Scheduler.fireCron cronId) fun x s' =>
      x = .ok () → ∀ id ∈ s'.ids, id ∉ s.ids → ∃ u : Uuid, id = u ∧ ∃ createdAt s₁,
        Made (cronRow req u)
          (readyWrites req u (CronManager.payloadOrEmpty (some req.payload)) createdAt) s₁ s' := by
  unfold Scheduler.fireCron
  refine ends_later rfl (fun ms o removed s₁ hrem => ?_) fun ms o e s₁ _ h => by cases h
  cases hrem
  split
  · -- the entry has been claimed by another scheduler
    refine ends_pure fun _ id hid hnew => absurd hid ?_
    exact hnew
  · refine ends_later rfl (fun ms o defRaw s₂ hget => ?_) fun ms o e s₂ _ h => by cases h
    cases hget
    have hcrons : (s.redis.zrem redisKeys.cronSchedule cronId).2.crons
        (redisKeys.cronDef cronId) = Listing.hashOf (req.definition cronId cronExpression) := by
      rw [Redis.zrem_snd]
      exact hdef
    dsimp only
    rw [hcrons, truthy_expression hexpr]
    dsimp only
    refine ends_later rfl (fun ms o nextMs s₃ hnext => ?_) fun ms o e s₃ _ h => by cases h
    -- the id that is new in the end is the one drawn below
    have hids : s₃.ids = s.ids := by
      simp only [World.answer] at hnext
      split at hnext
      · cases hnext
        rfl
      · cases hnext
    refine ends_later rfl (fun ms o _ s₄ hadd => ?_) fun ms o e s₄ _ h => by cases h
    cases hadd
    rw [enqueueCronJob_definition]
    refine ends_later rfl (fun ms o id s₅ hid => ?_) fun ms o e s₅ _ h => by cases h
    have hdrawn : s₅.ids = insert id.text s.ids := by
      simp only [World.answer] at hid
      split at hid
      · split at hid
        · cases hid
        · cases hid
          exact congrArg (insert id.text) hids
      · cases hid
    refine ends_later rfl (fun ms o nowIso s₆ hnow => ?_) fun ms o e s₆ _ h => by cases h
    cases hnow
    refine Ends.mono (insert_multi_ends _ _) ?_
    intro x s' hmade hx id' hid' hnew
    rw [(hmade hx).ids] at hid'
    have heq : id' = id.text := by
      rcases Finset.mem_insert.mp (hdrawn ▸ hid') with heq | hold
      · exact heq
      · exact absurd hold hnew
    exact ⟨id, heq, _, _, hmade hx⟩

/-! ## What the records have in common -/

/-- The hash a `MULTI` of a ready job leaves, and the place of the job. -/
theorem ready_multi (r : Redis) (now : ℕ) (req : Request) (id : JobId) (payload : Json)
    (createdAt : ℕ) :
    (r.multi now (readyWrites req id payload createdAt)).jobs (redisKeys.job id) =
      newJobHash id req.queueName req.jobName (some payload) .pending (.of req.attempts)
        req.priorityName createdAt ∧
    id ∈ (r.multi now (readyWrites req id payload createdAt)).lists
      (targetList req.queueName req.priorityName) := by
  constructor
  · simp [Redis.multi, readyWrites, Write.apply, merge_newJobHash]
  · simp [Redis.multi, readyWrites, Write.apply]

/-- The same for a job that is not due yet. -/
theorem delayed_multi (r : Redis) (now : ℕ) (req : Request) (id : JobId) (due : ℚ)
    (createdAt : ℕ) :
    (r.multi now (delayedWrites req id due createdAt)).jobs (redisKeys.job id) =
      req.hash id .delayed createdAt ∧
    ((r.multi now (delayedWrites req id due createdAt)).zsets
      (redisKeys.delayed req.queueName)).score? id = some due := by
  constructor
  · simp [Redis.multi, delayedWrites, Write.apply, merge_newJobHash, Request.hash]
  · simp [Redis.multi, delayedWrites, Write.apply]

/-- Two priorities have two names. -/
theorem name_injective : Function.Injective Priority.name := by
  intro p q h
  cases p <;> cases q <;> first | rfl | (revert h; decide)

/-- The immediate path leaves the record of a request of priority `normal`, and no other. -/
theorem recorded_immediate_iff {id : Uuid} {createdAt : ℕ}
    (h : Made (immediateRow req id) (readyWrites req id req.payload createdAt) s s') :
    Recorded req id .pending none s' ↔ req.priority.getD .normal = .normal := by
  obtain ⟨⟨payload, maxAttempts, created, hpayload, hmax, hrow⟩, ⟨now, hredis⟩, -⟩ := h
  cases hpayload
  obtain ⟨hhash, hlist⟩ := ready_multi s.redis now req id req.payload createdAt
  constructor
  · rintro ⟨⟨m, created', -, hrow'⟩, -, -⟩
    have hsame := Option.some.inj (hrow.symm.trans hrow')
    have hname : "normal" = req.priorityName :=
      Option.some.inj (congrArg JobRow.priority hsame)
    exact name_injective hname.symm
  · intro hnormal
    have hname : req.priorityName = "normal" := congrArg Priority.name hnormal
    refine ⟨⟨maxAttempts, created, (Option.some.inj hmax).symm, ?_⟩, ⟨createdAt, ?_⟩, ?_⟩
    · rw [Request.row, hname]
      exact hrow
    · rw [hredis]
      exact hhash
    · show id.text ∈ s'.redis.lists _
      rw [hredis]
      exact hlist

/-- The delayed path leaves the record of the request. -/
theorem recorded_delayed {id : Uuid} {due : ℚ} {createdAt : ℕ}
    (h : Made (delayedRow req id due) (delayedWrites req id due createdAt) s s') :
    Recorded req id .delayed (some due) s' := by
  obtain ⟨⟨payload, maxAttempts, created, hpayload, hmax, hrow⟩, ⟨now, hredis⟩, -⟩ := h
  cases hpayload
  obtain ⟨hhash, hset⟩ := delayed_multi s.redis now req id due createdAt
  refine ⟨⟨maxAttempts, created, (Option.some.inj hmax).symm, hrow⟩, ⟨createdAt, ?_⟩, ?_⟩
  · rw [hredis]
    exact hhash
  · show (s'.redis.zsets _).score? id = some due
    rw [hredis]
    exact hset

/-- The scheduler leaves the record of a request whose payload is not `null`, and no other. -/
theorem recorded_cron_iff {id : Uuid} {createdAt : ℕ}
    (h : Made (cronRow req id)
      (readyWrites req id (CronManager.payloadOrEmpty (some req.payload)) createdAt) s s') :
    Recorded req id .pending none s' ↔ req.payload ≠ .null := by
  obtain ⟨⟨payload, maxAttempts, created, hpayload, hmax, hrow⟩, ⟨now, hredis⟩, -⟩ := h
  cases hpayload
  obtain ⟨hhash, hlist⟩ := ready_multi s.redis now req id
    (CronManager.payloadOrEmpty (some req.payload)) createdAt
  constructor
  · rintro ⟨⟨m, created', -, hrow'⟩, -, -⟩ hnull
    have hsame := Option.some.inj (hrow.symm.trans hrow')
    have hpayload : CronManager.payloadOrEmpty (some req.payload) = req.payload :=
      congrArg JobRow.payload hsame
    rw [hnull] at hpayload
    cases hpayload
  · intro hnull
    have hpayload : CronManager.payloadOrEmpty (some req.payload) = req.payload := by
      cases hp : req.payload with
      | null => exact absurd hp hnull
      | _ => rfl
    rw [hpayload] at hrow hredis hhash
    refine ⟨⟨maxAttempts, created, (Option.some.inj hmax).symm, hrow⟩, ⟨createdAt, ?_⟩, ?_⟩
    · rw [hredis]
      exact hhash
    · show id.text ∈ s'.redis.lists _
      rw [hredis]
      exact (ready_multi s.redis now req id req.payload createdAt).2

/-- **All paths record the same job, unless it has a priority or no payload to speak of.**
For any request that has been enqueued at once (job `i`), with a delay (job `j`), and by the
scheduler from the definition that `addJob` has stored (job `k`): the row and the hash of all
three agree with the request, and so with each other, in all but the status and the due date,
if and only if the priority is `normal` and the payload is not `null`. -/
theorem same_record_iff {req : Request} {t₁ t₂ t₃ t₄ : Task} {i j k : JobId} {delay : ℚ}
    {cronId : CronId} {cronExpression : String} {u u' v v₁ v₂ v' : World}
    (himmediate : Runs (unhurried env (fun _ _ => True) t₁) s
      (Producer.enqueue req.jobName (some req.payload) (req.options none)) (.ok i) s')
    (hdelay : 0 < delay)
    (hdelayed : Runs (unhurried env (fun _ _ => True) t₂) u
      (Producer.enqueue req.jobName (some req.payload) (req.options (some delay))) (.ok j) u')
    (hexpr : cronExpression ≠ "")
    (hadd : Runs (unhurried env (fun _ _ => True) t₃) v
      (CronManager.addJob (req.definition cronId cronExpression)) (.ok ()) v₁)
    (hkept : v₂.redis.crons (redisKeys.cronDef cronId) = v₁.redis.crons (redisKeys.cronDef cronId))
    (hfire : Runs (unhurried env (fun _ _ => True) t₄) v₂ (Scheduler.fireCron cronId) (.ok ()) v')
    (hk : k ∈ v'.ids) (hnew : k ∉ v₂.ids) :
    (Recorded req i .pending none s' ∧ (∃ due, Recorded req j .delayed (some due) u') ∧
      Recorded req k .pending none v') ↔
    req.priority.getD .normal = .normal ∧ req.payload ≠ .null := by
  obtain ⟨i, rfl, _, _, hmade₁⟩ := immediate_ends req _ _ himmediate _ rfl
  obtain ⟨j, rfl, due, _, _, hmade₂⟩ := delayed_ends req hdelay _ _ hdelayed _ rfl
  have hdef : v₂.redis.crons (redisKeys.cronDef cronId) =
      Listing.hashOf (req.definition cronId cronExpression) := by
    obtain ⟨-, -, hcrons, -⟩ := Listing.addJob_ends _ _ _ hadd rfl
    rw [hkept, hcrons]
    exact Function.update_self _ _ _
  obtain ⟨k, rfl, _, _, hmade₃⟩ := fireCron_ends req cronId hexpr hdef _ _ hfire rfl _ hk hnew
  rw [recorded_immediate_iff hmade₁, recorded_cron_iff hmade₃]
  constructor
  · rintro ⟨hnormal, -, hnull⟩
    exact ⟨hnormal, hnull⟩
  · rintro ⟨hnormal, hnull⟩
    exact ⟨hnormal, ⟨due, recorded_delayed hmade₂⟩, hnull⟩

/-- A request for a queue of its own, with five attempts. -/
def echo : Request where
  jobName := "echo"
  payload := .obj []
  queue := some "mail"
  maxAttempts := some 5

/-- The same with the priority `high`. -/
def urgent : Request := { echo with priority := some .high }

/-- A command that is answered at once. -/
theorem at_once {t : Task} {s s' : World} {c : Cmd} {r : Except Err c.Resp} {o : Oracle}
    (ho : o.works = true) (h : World.exec sample s t c o = some (r, s')) :
    unhurried sample (fun _ _ => True) t s c r s' :=
  ⟨trivial, 0, o, ho, h⟩

/-- A row that is taken. -/
theorem exec_insert {s : World} {row : NewRow} {pg : Postgres}
    (h : s.pg.insert s.clock row = .ok pg) :
    World.exec sample s .janitor (.insert row) .plain = some (.ok (), { s with pg := pg }) := by
  show World.answer sample s .plain (.insert row) = _
  simp only [World.answer, h]

/-- The theorem on a request that is recorded the same on all paths. -/
theorem same_record_echo :
    ∃ s' u' v', Recorded echo j1 .pending none s' ∧
      (∃ due, Recorded echo j2 .delayed (some due) u') ∧ Recorded echo j3 .pending none v' := by
  have himmediate : ∃ s', Runs (unhurried sample (fun _ _ => True) .janitor) {}
      (Producer.enqueue "echo" (some (.obj [])) (echo.options none)) (.ok j1) s' :=
    ⟨_, .call (at_once (o := .fresh j1) rfl rfl) (.call (at_once (o := .plain) rfl rfl)
      (.call (at_once (o := .plain) rfl rfl) (.call (at_once (o := .plain) rfl rfl)
        (.call (at_once (o := .plain) rfl rfl) (.call (at_once (o := .plain) rfl rfl) .ret)))))⟩
  have hdelayed : ∃ u', Runs (unhurried sample (fun _ _ => True) .janitor) {}
      (Producer.enqueue "echo" (some (.obj [])) (echo.options (some 1000))) (.ok j2) u' := by
    have haccept : ∃ pg, Postgres.empty.insert 0 (delayedRow echo j2 ((0 : ℕ) + 1000)) = .ok pg :=
      Postgres.insert_accepts (by decide +kernel) (fun _ _ => rfl) rfl (fun k hk => by cases hk) 0
    obtain ⟨pg, hpg⟩ := haccept
    exact ⟨_, .call (at_once (o := .fresh j2) rfl rfl) (.call (at_once (o := .plain) rfl rfl)
      (.call (at_once (o := .plain) rfl rfl) (.call (at_once (o := .plain) rfl (exec_insert hpg))
        (.call (at_once (o := .plain) rfl rfl) (.call (at_once (o := .plain) rfl rfl)
          (.call (at_once (o := .plain) rfl rfl) .ret))))))⟩
  have hcron : ∃ v₁ v', Runs (unhurried sample (fun _ _ => True) .janitor) {}
      (CronManager.addJob (echo.definition "c1" "* * * * *")) (.ok ()) v₁ ∧
      Runs (unhurried sample (fun _ _ => True) .tick) v₁ (Scheduler.fireCron "c1") (.ok ()) v' ∧
      j3.text ∈ v'.ids ∧ j3.text ∉ v₁.ids := by
    refine ⟨_, _, .call (at_once (o := .plain) rfl rfl) (.call (at_once (o := .plain) rfl rfl)
      (.call (at_once (o := .plain) rfl rfl) .ret)),
      .call (at_once (o := .plain) rfl rfl) (.call (at_once (o := .plain) rfl rfl)
        (.call (at_once (o := .plain) rfl rfl) (.call (at_once (o := .plain) rfl rfl)
          (.call (at_once (o := .fresh j3) rfl rfl) (.call (at_once (o := .plain) rfl rfl)
            (.call (at_once (o := .plain) rfl rfl)
              (.call (at_once (o := .plain) rfl rfl) .ret))))))), ?_, ?_⟩
    · exact Finset.mem_insert_self _ _
    · exact Finset.notMem_empty _
  obtain ⟨s', himmediate⟩ := himmediate
  obtain ⟨u', hdelayed⟩ := hdelayed
  obtain ⟨v₁, v', hadd, hfire, hk, hnew⟩ := hcron
  refine ⟨s', u', v', ?_⟩
  exact (same_record_iff himmediate (by norm_num) hdelayed (by decide) hadd rfl hfire hk hnew).mpr
    ⟨rfl, by simp [echo]⟩

/-- The row of a job with the priority `high` says `normal`, and its hash `high`. -/
theorem urgent_recorded_normal : ∃ s', Runs (unhurried sample (fun _ _ => True) .janitor) {}
      (Producer.enqueue "echo" (some (.obj [])) (urgent.options none)) (.ok j1) s' ∧
    (s'.redis.jobs (redisKeys.job j1)).priority = some "high" ∧
    ¬ Recorded urgent j1 .pending none s' := by
  have himmediate : ∃ s', Runs (unhurried sample (fun _ _ => True) .janitor) {}
      (Producer.enqueue "echo" (some (.obj [])) (urgent.options none)) (.ok j1) s' :=
    ⟨_, .call (at_once (o := .fresh j1) rfl rfl) (.call (at_once (o := .plain) rfl rfl)
      (.call (at_once (o := .plain) rfl rfl) (.call (at_once (o := .plain) rfl rfl)
        (.call (at_once (o := .plain) rfl rfl) (.call (at_once (o := .plain) rfl rfl) .ret)))))⟩
  obtain ⟨s', himmediate⟩ := himmediate
  obtain ⟨u, hu, createdAt, s₁, hmade⟩ := immediate_ends urgent _ _ himmediate j1 rfl
  cases Uuid.text_injective hu
  refine ⟨s', himmediate, ?_, fun hrec => ?_⟩
  · obtain ⟨-, ⟨now, hredis⟩, -⟩ := hmade
    rw [hredis, (ready_multi s₁.redis now urgent j1 urgent.payload createdAt).1]
    rfl
  · cases (recorded_immediate_iff hmade).mp hrec

end Records

end NexusQueue
