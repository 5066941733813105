/-
# The custody protocol

Which process holds which job, as an automaton over the commands.  A phase says
what the process has done and still owes; `Permits` lists, phase by phase, every
command that may touch the lists, the delayed sets, the table, the registries or
the idempotency entries.  `custody_follows` (module `Conduct`) says that the
programs of all tasks keep to it, whatever the answers.  Results about custody
are then proved transition by transition, without looking at the programs again.

* `missed`, `drawn`, `rowed`, `published`, `known`: a producer (or a cron firing)
  between its lookup, the uuid, the row, the `MULTI` that publishes the job and
  the idempotency entry;
* `due`, `inHand`: a scheduler working off a due list, and between its `ZREM`
  and its `LPUSH`;
* `pulled`: a pull loop that has moved an id and not dispatched it yet;
* `dispatched`, `claimed`, `handed`, `released`: a `processOne` call before it
  has read the job, before the job is in its next place, until its
  processing-list entry is removed, and after;
* `found`, `recovering`, `routing`, `restored`, `deleted`: a janitor at work on a
  dead worker;
* `requeuing`, `resetting`, `lifted`, `placing`: an operator request between its
  jobs, and at work on a job before it is removed from the dead-letter queue, after
  that, and when its ready list is known;
* `broken`: a task after one of its commands has rejected and ended what it was
  doing; `ended`: a task, or an iteration of the loop, that is over.
-/
import NexusQueue.System

namespace NexusQueue

/-- What a process has done and still owes. -/
inductive Phase where
  | idle
  | missed
  | drawn (id : JobId)
  | rowed (id : JobId)
  | published (id : JobId)
  | known (id : JobId)
  | clocked (now : ℕ)
  | due (now : ℕ) (queue : QueueName) (todo : List JobId)
  | inHand (now : ℕ) (queue : QueueName) (jobId : JobId) (target : Option Key)
      (todo : List JobId)
  | pulled (jobId : JobId)
  | dispatched
  | claimed (hash : JobHash)
  | handed
  | released
  | begun
  | registered
  | beating
  | loopDone
  | deregistered
  | found (w : WorkerId)
  | recovering (w : WorkerId) (todo : List JobId)
  | routing (w : WorkerId) (target : Key) (jobId : JobId) (todo : List JobId)
  | restored (w : WorkerId) (jobId : JobId) (todo : List JobId)
  | deleted (w : WorkerId)
  | requeuing (todo : List JobId)
  | resetting (jobId : JobId) (queue : QueueName) (todo : List JobId)
  | lifted (jobId : JobId) (queue : QueueName) (todo : List JobId)
  | placing (jobId : JobId) (queue : QueueName) (target : Key) (todo : List JobId)
  | broken
  | ended

/-- The fields of a job hash that are written once, when the job is created. -/
def JobHash.keepsIdentity (f : JobHash) : Prop :=
  f.id = none ∧ f.queueName = none ∧ f.jobName = none ∧ f.payload = none ∧
    f.maxAttempts = none ∧ f.priority = none ∧ f.createdAt = none

/-- A phase in which a scheduler holds nothing and owes nothing. -/
def Phase.free : Phase → Prop
  | .idle | .clocked _ | .due _ _ _ => True
  | _ => False

/-- A phase in which a `processOne` call may run `handleFailure`. -/
def Phase.failing : Phase → Prop
  | .claimed _ | .broken => True
  | _ => False

/-- Commands that touch neither the lists, nor the sets, the sorted sets, the
string keys, the table or the uuids, write no identity field of a job, reject
only if a store does, and whose answer no phase remembers, except for the clock
reading of a scheduler. -/
def Cmd.quiet : Cmd → Prop
  | .write (.hset _ f) => f.keepsIdentity
  | .write (.hsetCron _ _) | .write (.hsetRate _ _) | .write (.hsetMeta _ _) => True
  | .zrangebyscore k _ => k = redisKeys.cronSchedule
  | .smembers _ | .hgetallCron _ | .hgetallRate _ | .publish _ | .now | .sleep _ => True
  | _ => False

/-- Operations of a worker object that neither start nor end anything. -/
def Local.inert : Local → Prop
  | .armTimer | .timerFires | .loopTop | .nextPull | .race _ | .requestStop | .snapshot
  | .drain _ _ | .clearTimer | .activeCount => True
  | _ => False

/-- The status a running call writes to the row before it hands the job over. -/
def RowPatch.provisional (p : RowPatch) : Prop :=
  p.status = .active ∨ p.status = .dlq ∨ p.status = .delayed

theorem RowPatch.provisional.ne_completed {p : RowPatch} (h : p.provisional) :
    p.status ≠ .completed := by
  rcases h with h | h | h <;> simp [h]

/-- The status a row is inserted with. -/
def JobStatus.initial (st : JobStatus) : Prop := st = .pending ∨ st = .delayed

theorem JobStatus.initial.ne_completed {st : JobStatus} (h : st.initial) : st ≠ .completed := by
  rcases h with rfl | rfl <;> simp

/-- The idempotency key of the row a task inserts: only the immediate path of
`enqueue` writes one. -/
def Task.rowKey : Task → Option String
  | .enqueue _ _ o =>
      if (o.delay.filter (0 < ·)).isSome then none else truthy o.idempotencyKey
  | _ => none

/-- The tasks that create jobs. -/
def Task.creates : Task → Prop
  | .enqueue _ _ _ | .tick => True
  | _ => False

/-- The tasks that touch the cron schedule. -/
def Task.onCron : Task → Prop
  | .tick | .addJob _ | .removeJob _ => True
  | _ => False

/-- The commands a task may issue in a phase. -/
inductive Permits (env : Env) : Task → Phase → Cmd → Prop
  | quiet {t l c} : c.quiet → Permits env t l c
  -- creating a job
  | lookup {n p o k} : truthy o.idempotencyKey = some k →
      Permits env (.enqueue n p o) .idle (.get (redisKeys.idempotency k))
  | uuidKeyless {n p o} : truthy o.idempotencyKey = none →
      Permits env (.enqueue n p o) .idle .uuid
  | uuidMissed {n p o} : Permits env (.enqueue n p o) .missed .uuid
  | uuidCron {l} : l.free → Permits env .tick l .uuid
  | insert {t id row} : t.creates → row.id = id → row.status.initial →
      row.idempotencyKey = t.rowKey → Permits env t (.drawn id) (.insert row)
  | publishReady {t id q p f} : t.creates → f.id = some id → f.queueName = some q →
      f.priority = some p → Permits env t (.rowed id)
        (.multi [.sadd redisKeys.queueRegistry q, .hset (redisKeys.job id) f,
          .lpush (targetList q p) id])
  | publishDelayed {t id q f score} : t.creates → f.id = some id → f.queueName = some q →
      Permits env t (.rowed id)
        (.multi [.sadd redisKeys.queueRegistry q, .hset (redisKeys.job id) f,
          .zadd (redisKeys.delayed q) score id])
  | remember {n p o id k} : truthy o.idempotencyKey = some k →
      Permits env (.enqueue n p o) (.published id)
        (.write (.set (redisKeys.idempotency k) id (some 86400)))
  -- the scheduler
  | readDue {now : ℕ} {q l} : l = .clocked now ∨ (∃ q', l = .due now q' []) →
      Permits env .tick l (.zrangebyscore (redisKeys.delayed q) (some (now : ℚ)))
  | claimDue {now q j todo} :
      Permits env .tick (.due now q (j :: todo)) (.zrem (redisKeys.delayed q) j)
  | readPriority {now q j todo} : Permits env .tick (.inHand now q j none todo)
      (.hgetPriority (redisKeys.job j))
  | promote {now q j k todo} :
      Permits env .tick (.inHand now q j (some k) todo) (.write (.lpush k j))
  -- recurring jobs
  | cronClaim {t l c} : t.onCron → Permits env t l (.zrem redisKeys.cronSchedule c)
  | cronSchedule {t l score c} : t.onCron →
      Permits env t l (.write (.zadd redisKeys.cronSchedule score c))
  | cronDelete {t l c} : t.onCron → Permits env t l (.write (.del (redisKeys.cronDef c)))
  | cronNext {t l e} : t.onCron → l.free → Permits env t l (.cronNext e)
  -- the pull loop
  | pull {w p} : Permits env (.loop w) .idle
      (.rpoplpush (targetList (env.queue w) p) (redisKeys.processing w))
  | pullBlocking {w} : Permits env (.loop w) .idle
      (.blmove (redisKeys.queue (env.queue w)) (redisKeys.processing w))
  | dispatch {w j} : Permits env (.loop w) (.pulled j) (.onWorker w (.dispatch j))
  | loopAgain {w} : Permits env (.loop w) .idle (.onWorker w .loopAgain)
  | loopExit {w} : Permits env (.loop w) .idle (.onWorker w .loopExit)
  -- one `processOne` call
  | handler {w n j l name v a} : Permits env (.processOne w n j) l (.handler name v a)
  | readJob {w n j l} : Permits env (.processOne w n j) l (.hgetall (redisKeys.job j))
  | pushBack {w n j h} : Permits env (.processOne w n j) (.claimed h)
      (.multi [.lrem (redisKeys.processing w) 1 j,
        .lpush (targetList (h.queueName.getD (env.queue w)) (h.priority.getD "normal")) j])
  | mark {w n j h p} : p.provisional →
      Permits env (.processOne w n j) (.claimed h) (.update j p)
  | complete {w n j h p} : p.status = .completed →
      Permits env (.processOne w n j) (.claimed h) (.update j p)
  | retry {w n j h score} : Permits env (.processOne w n j) (.claimed h)
      (.write (.zadd (redisKeys.delayed (h.queueName.getD "default")) score j))
  | bury {w n j h} : Permits env (.processOne w n j) (.claimed h)
      (.write (.lpush (redisKeys.dlq (h.queueName.getD "default")) j))
  | ack {w n j} : Permits env (.processOne w n j) .handed
      (.write (.lrem (redisKeys.processing w) 1 j))
  | brokenMark {w n j p} : p.provisional →
      Permits env (.processOne w n j) .broken (.update j p)
  | brokenRetry {w n j q score} : Permits env (.processOne w n j) .broken
      (.write (.zadd (redisKeys.delayed q) score j))
  | brokenBury {w n j q} : Permits env (.processOne w n j) .broken
      (.write (.lpush (redisKeys.dlq q) j))
  | brokenAck {w n j} : Permits env (.processOne w n j) .broken
      (.write (.lrem (redisKeys.processing w) 1 j))
  | settle {w n j l} : Permits env (.processOne w n j) l (.onWorker w (.settle n))
  -- start, heartbeat, stop
  | object {t l w op} : t.host = some w → op.inert → Permits env t l (.onWorker w op)
  | begin {w} : Permits env (.start w) .idle (.onWorker w .begin)
  | register {w} : Permits env (.start w) .begun (.write (.sadd redisKeys.workerRegistry w))
  | firstBeat {w v} : Permits env (.start w) .registered
      (.write (.set (redisKeys.heartbeat w) v (some 15)))
  | launch {w} : Permits env (.start w) .beating (.onWorker w .launch)
  | beat {w v} : Permits env (.heartbeat w) .beating
      (.write (.set (redisKeys.heartbeat w) v (some 15)))
  | awaitLoop {w} : Permits env (.stop w) .idle (.onWorker w .awaitLoop)
  | deregister {w} : Permits env (.stop w) .loopDone (.write (.srem redisKeys.workerRegistry w))
  | dropHeartbeat {w} : Permits env (.stop w) .deregistered
      (.write (.del (redisKeys.heartbeat w)))
  | dropMeta {w} : Permits env (.stop w) .deregistered (.write (.del (redisKeys.workerMeta w)))
  | finish {w} : Permits env (.stop w) .deregistered (.onWorker w .finish)
  -- the janitor
  | checkHeartbeat {w l} : Permits env .janitor l (.existsKey (redisKeys.heartbeat w))
  | readOrphans {w} : Permits env .janitor (.found w)
      (.lrange (redisKeys.processing w) 0 (-1))
  | readOrphan {w j todo} : Permits env .janitor (.recovering w (j :: todo))
      (.hgetall (redisKeys.job j))
  | pushOrphan {w k j todo} : Permits env .janitor (.routing w k j todo) (.write (.lpush k j))
  | resetRow {w j todo p} : p.status = .pending →
      Permits env .janitor (.restored w j todo) (.update j p)
  | dropList {w} : Permits env .janitor (.recovering w [])
      (.write (.del (redisKeys.processing w)))
  | unregister {w} : Permits env .janitor (.deleted w)
      (.write (.srem redisKeys.workerRegistry w))
  | dropDeadMeta {w} : Permits env .janitor (.deleted w)
      (.write (.del (redisKeys.workerMeta w)))
  -- operator requests
  | selectJob {id} : Permits env (.retry id) .idle (.select id)
  | resetRetry {id q todo p} : p.status = .pending →
      Permits env (.retry id) (.resetting id q todo) (.update id p)
  | readDlq {q b} : Permits env (.requeue q b) .idle (.lrange (redisKeys.dlq q) 0 (-1))
  | resetRequeue {q b id todo p} : p.status = .pending →
      Permits env (.requeue q b) (.requeuing (id :: todo)) (.update id p)
  | lift {t id q todo n} : t.operator → Permits env t (.resetting id q todo)
      (.write (.lrem (redisKeys.dlq q) n id))
  | readLifted {t id q todo} : t.operator →
      Permits env t (.lifted id q todo) (.hgetall (redisKeys.job id))
  | place {t id q k todo} : t.operator →
      Permits env t (.placing id q k todo) (.write (.lpush k id))

namespace Phase

/-- The phase a task starts in. -/
def start : Task → Phase
  | .processOne _ _ _ => .dispatched
  | .requeue _ ⟨some jobIds, false⟩ => .requeuing jobIds
  | _ => .idle

/-- A request that lists its jobs starts with them. -/
theorem start_requeue (q : QueueName) (b : RequeueBody) :
    start (.requeue q b) = .idle ∨
      ∃ jobIds, b.jobIds = some jobIds ∧ start (.requeue q b) = .requeuing jobIds := by
  obtain ⟨_ | jobIds, _ | _⟩ := b
  · exact Or.inl rfl
  · exact Or.inl rfl
  · exact Or.inr ⟨jobIds, rfl, rfl⟩
  · exact Or.inl rfl

/-- A request gives up the job it is at work on, and goes on with the next one. -/
def passOver : Phase → Phase
  | .requeuing todo => .requeuing todo.tail
  | .resetting _ _ todo | .lifted _ _ todo | .placing _ _ _ todo => .requeuing todo
  | l => l

/-- A rejection breaks off what a task is doing, except where the code goes on
after it: a throwing handler, a failed publication in a `processOne` call, a
failed pull, after which the loop starts over, and a job that cannot be requeued,
which is passed over. -/
def afterError (l : Phase) : Task → Cmd → Phase
  | .processOne _ _ _, .handler _ _ _ => l
  | .processOne _ _ _, .publish _ => l
  | .loop _, _ => .idle
  | .requeue _ _, .publish _ => l
  | .requeue _ _, .now => l
  | .requeue _ _, _ => l.passOver
  | _, _ => .broken

/-- A producer after an answer. -/
def onEnqueue : Phase → (c : Cmd) → c.Resp → Phase
  | .idle, .get _, r => (truthy r).elim .missed .known
  | _, .uuid, id => .drawn id
  | .drawn id, .insert _, _ => .rowed id
  | .rowed id, .multi _, _ => .published id
  | .published id, .write (.set _ _ _), _ => .known id
  | l, _, _ => l

/-- A scheduler after an answer. -/
def onTick : Phase → (c : Cmd) → c.Resp → Phase
  | .idle, .now, now => .clocked now
  | .clocked _, .now, now => .clocked now
  | .due _ _ _, .now, now => .clocked now
  | .clocked now, .zrangebyscore (.delayed q) _, todo => .due now q todo
  | .due now _ _, .zrangebyscore (.delayed q) _, todo => .due now q todo
  | .due now q (j :: todo), .zrem (.delayed _) _, removed =>
      if removed = 0 then .due now q todo else .inHand now q j none todo
  | .inHand now q j _ todo, .hgetPriority _, p =>
      .inHand now q j (some (targetList q (p.getD "normal"))) todo
  | .inHand now q _ _ todo, .write (.lpush _ _), _ => .due now q todo
  | _, .uuid, id => .drawn id
  | .drawn id, .insert _, _ => .rowed id
  | .rowed _, .multi _, _ => .idle
  | l, _, _ => l

/-- A pull loop after an answer. -/
def onLoop : Phase → (c : Cmd) → c.Resp → Phase
  | _, .rpoplpush _ _, r => (truthy r).elim .idle .pulled
  | _, .blmove _ _, r => (truthy r).elim .idle .pulled
  | .pulled _, .onWorker _ (.dispatch _), _ => .idle
  | .idle, .onWorker _ .loopAgain, _ => .ended
  | .idle, .onWorker _ .loopExit, _ => .ended
  | l, _, _ => l

/-- A `processOne` call after an answer. -/
def onCall : Phase → (c : Cmd) → c.Resp → Phase
  | .dispatched, .hgetall _, h => .claimed h
  | .claimed _, .hgetall _, h => .claimed h
  | .claimed _, .multi _, _ => .released
  | .claimed h, .update _ p, _ => if p.status = .completed then .handed else .claimed h
  | .claimed _, .write (.zadd _ _ _), _ => .handed
  | .claimed _, .write (.lpush _ _), _ => .handed
  | .handed, .write (.lrem _ _ _), _ => .released
  | .released, .onWorker _ (.settle _), _ => .ended
  | l, _, _ => l

/-- A `start` after an answer. -/
def onStart : Phase → (c : Cmd) → c.Resp → Phase
  | .idle, .onWorker _ .begin, _ => .begun
  | .begun, .write (.sadd _ _), _ => .registered
  | .registered, .write (.set _ _ _), _ => .beating
  | .beating, .onWorker _ .launch, _ => .ended
  | l, _, _ => l

/-- A heartbeat write after an answer. -/
def onHeartbeat : Phase → (c : Cmd) → c.Resp → Phase
  | .idle, .onWorker _ .timerFires, _ => .beating
  | l, _, _ => l

/-- A `stop` after an answer. -/
def onStop : Phase → (c : Cmd) → c.Resp → Phase
  | .idle, .onWorker _ .awaitLoop, _ => .loopDone
  | .loopDone, .write (.srem _ _), _ => .deregistered
  | .deregistered, .onWorker _ .finish, _ => .ended
  | l, _, _ => l

/-- A janitor after an answer. -/
def onJanitor : Phase → (c : Cmd) → c.Resp → Phase
  | _, .existsKey (.heartbeat w), false => .found w
  | .found w, .lrange _ _ _, todo => .recovering w todo
  | .recovering w (j :: todo), .hgetall _, h =>
      .routing w (targetList (h.queueName.getD "default") (h.priority.getD "normal")) j todo
  | .routing w _ j todo, .write (.lpush _ _), _ => .restored w j todo
  | .restored w _ todo, .update _ _, _ => .recovering w todo
  | .recovering w [], .write (.del _), _ => .deleted w
  | l, _, _ => l

/-- A request at work on a job, after an answer. -/
def onRequest : Phase → (c : Cmd) → c.Resp → Phase
  | .resetting id q todo, .write (.lrem _ _ _), _ => .lifted id q todo
  | .lifted id q todo, .hgetall _, h =>
      .placing id q (targetList q (h.priority.getD "normal")) todo
  | .placing _ _ _ todo, .write (.lpush _ _), _ => .requeuing todo
  | l, _, _ => l

/-- A retry after an answer. -/
def onRetry : Phase → (c : Cmd) → c.Resp → Phase
  | .idle, .select id, some row =>
      if Routes.retriable row then .resetting id row.queueName [] else .idle
  | l, c, r => onRequest l c r

/-- A requeue from the dead-letter queue of `q` after an answer. -/
def onRequeue (q : QueueName) : Phase → (c : Cmd) → c.Resp → Phase
  | .idle, .lrange _ _ _, todo => .requeuing todo
  | .requeuing todo, .update id _, _ => .resetting id q todo.tail
  | l, c, r => onRequest l c r

/-- The phase after a command that succeeded. -/
def afterOk : Task → Phase → (c : Cmd) → c.Resp → Phase
  | .enqueue _ _ _ => onEnqueue
  | .tick => onTick
  | .loop _ => onLoop
  | .processOne _ _ _ => onCall
  | .start _ => onStart
  | .heartbeat _ => onHeartbeat
  | .stop _ => onStop
  | .janitor => onJanitor
  | .addJob _ | .removeJob _ => fun l _ _ => l
  | .retry _ => onRetry
  | .requeue q _ => onRequeue q

/-- The phase after an answer. -/
def next (t : Task) (l : Phase) (c : Cmd) : Except Err c.Resp → Phase
  | .ok r => afterOk t l c r
  | .error _ => l.afterError t c

end Phase

/-- The commands on the cron keys. -/
def Cmd.onCron : Cmd → Prop
  | .zrem k _ => k = redisKeys.cronSchedule
  | .write (.zadd k _ _) => k = redisKeys.cronSchedule
  | .write (.del (.cronDef _)) | .hgetallCron _ | .cronNext _ => True
  | _ => False

/-- They leave a task in its phase. -/
theorem Cmd.onCron.next {c : Cmd} (hc : c.onCron) {t : Task} (ht : t.onCron) (l : Phase)
    (a : c.Resp) : Phase.next t l c (.ok a) = l := by
  cases t with
  | tick =>
      cases c with
      | zrem k m =>
          cases hc
          cases l with
          | due now q todo => cases todo <;> rfl
          | _ => rfl
      | hgetallCron k => cases l <;> rfl
      | cronNext e => cases l <;> rfl
      | write w =>
          cases w with
          | zadd k score m =>
              cases hc
              cases l <;> rfl
          | del k => cases l <;> rfl
          | _ => exact hc.elim
      | _ => exact hc.elim
  | addJob _ | removeJob _ => rfl
  | _ => exact ht.elim

/-- The custody protocol. -/
def custody (env : Env) : Protocol Task Cmd Cmd.Resp Err Phase where
  start := Phase.start
  permits := Permits env
  next := Phase.next

/-- How the tasks end: a scheduler with nothing in hand, an `enqueue` that
returns an id with that job published or found, or throws because the job has no name
or it was broken off, a `start` or `stop` that returns with everything done. -/
def Concluded : Task → Except Err (Option JobId) → Phase → Prop
  | .tick, _, l => l.free ∨ l = .broken
  | .enqueue _ _ _, .ok r, l => ∃ id, r = some id ∧ (l = .published id ∨ l = .known id)
  | .enqueue n _ _, .error _, l => n = "" ∨ l = .broken
  | .start _, .ok _, l | .stop _, .ok _, l => l = .ended
  | _, _, _ => True

end NexusQueue
