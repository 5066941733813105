/-
# The programs keep to the custody protocol

One lemma for every function of the source, in the order of the modules they
come from: it says in which phase the function is called and which phase it
leaves behind, whether it returns or throws.  `custody_follows` collects them for
all tasks.
-/
import NexusQueue.Custody

namespace NexusQueue

variable {env : Env}

/-- The program succeeds in phase `l₀` or is broken off. -/
def OkIn {α : Type} (l₀ : Phase) : Except Err α → Phase → Prop
  | .ok _, l => l = l₀
  | .error _, l => l = .broken

/-- The program succeeds holding nothing, or throws holding nothing, or is broken
off. -/
def OkFree {α : Type} : Except Err α → Phase → Prop
  | .ok _, l => l.free
  | .error _, l => l.free ∨ l = .broken

/-- Nothing is claimed about the end of a program. -/
def Anyhow {α : Type} (_ : Except Err α) (_ : Phase) : Prop := True

/-- A write of fields that are not the identity of a job. -/
theorem quiet_hset {k : Key} {f : JobHash} (h : f.keepsIdentity) :
    Cmd.quiet (.write (.hset k f)) := h

/-- A last step about whose end nothing is claimed. -/
theorem follows_last {t : Task} {l : Phase} {c : Cmd} (h : Permits env t l c) :
    Follows (custody env) t l (Prog.perform c) Anyhow :=
  follows_perform h fun _ => trivial

/-- A last step that leaves a given phase. -/
theorem follows_into {t : Task} {l l' : Phase} {c : Cmd} (h : Permits env t l c)
    (hok : ∀ r, Phase.next t l c (.ok r) = l') (herr : ∀ e, Phase.next t l c (.error e) = .broken) :
    Follows (custody env) t l (Prog.perform c) (OkIn l') := by
  refine follows_perform h fun r => ?_
  cases r with
  | ok r => exact hok r
  | error e => exact herr e

/-- A task that ends by returning a fixed value. -/
theorem follows_finish {t : Task} {l : Phase} {α β : Type} {p : Async α} {b : β}
    (h : Follows (custody env) t l p Anyhow) :
    Follows (custody env) t l (p >>= fun _ => pure b) Anyhow :=
  follows_bind Anyhow h (fun _ _ _ => trivial) (fun _ _ _ => trivial)

/-! ## The scheduler -/

/-- One due job: whether it was claimed or not, it is off the list afterwards. -/
theorem promoteJob_follows (now : ℕ) (q : QueueName) (j : JobId) (todo : List JobId) :
    Follows (custody env) .tick (.due now q (j :: todo)) (Scheduler.promoteJob q j)
      (OkIn (.due now q todo)) := by
  refine follows_step .claimDue (fun removed => ?_) (fun _ => rfl)
  have hnext : (custody env).next .tick (.due now q (j :: todo))
      (.zrem (redisKeys.delayed q) j) (.ok removed) =
      if removed = 0 then .due now q todo else .inHand now q j none todo := rfl
  rw [hnext]
  by_cases h : removed = 0
  · simp only [h, if_true]
    exact follows_pure rfl
  · simp only [h, if_false]
    refine follows_step .readPriority (fun priority => ?_) (fun _ => rfl)
    refine follows_step .promote (fun _ => ?_) (fun _ => rfl)
    exact follows_into (.quiet (quiet_hset (by simp [JobHash.keepsIdentity]))) (fun _ => rfl)
      (fun _ => rfl)

/-- The whole due list of a queue. -/
theorem promoteQueue_follows (now : ℕ) (q : QueueName) {l : Phase}
    (hl : l = .clocked now ∨ ∃ q', l = .due now q' []) :
    Follows (custody env) .tick l (Scheduler.promoteQueue now q) (OkIn (.due now q [])) := by
  refine follows_step (.readDue hl) (fun dueJobs => ?_) (fun _ => rfl)
  have hdue : (custody env).next .tick l (.zrangebyscore (redisKeys.delayed q) (some now))
      (.ok dueJobs) = .due now q dueJobs := by
    rcases hl with rfl | ⟨q', rfl⟩ <;> rfl
  rw [hdue]
  refine follows_forEach (fun todo l => l = .due now q todo) ?_ ?_ dueJobs _ rfl
  · rintro j todo l rfl
    refine follows_mono (promoteJob_follows now q j todo) ?_
    rintro (_ | _) l' hl' <;> exact hl'
  · rintro l rfl
    rfl

theorem promoteDelayedJobs_follows :
    Follows (custody env) .tick .idle Scheduler.promoteDelayedJobs OkFree := by
  refine follows_step (.quiet trivial) (fun queues => ?_) (fun _ => Or.inr rfl)
  refine follows_step (.quiet trivial) (fun now => ?_) (fun _ => Or.inr rfl)
  refine follows_forEach (fun _ l => l = .clocked now ∨ ∃ q', l = .due now q' []) ?_ ?_ queues _
    (Or.inl rfl)
  · intro q queues l hl
    refine follows_mono (promoteQueue_follows now q hl) ?_
    rintro (_ | _) l hl
    · exact Or.inr hl
    · exact Or.inr ⟨q, hl⟩
  · rintro l (rfl | ⟨q', rfl⟩) <;> trivial

/-- Creating a job of a recurring definition. -/
theorem enqueueCronJob_follows (c : CronId) (d : CronHash) {l : Phase} (hl : l.free) :
    Follows (custody env) .tick l (Scheduler.enqueueCronJob c d) OkFree := by
  unfold Scheduler.enqueueCronJob
  cases parsePayload d.payload with
  | error e => exact follows_throw (Or.inl hl)
  | ok payload =>
      refine follows_step (.uuidCron hl) (fun id => ?_) (fun _ => Or.inr rfl)
      have hdrawn : (custody env).next .tick l .uuid (.ok id) = .drawn id := by
        cases l <;> rfl
      rw [hdrawn]
      refine follows_step (.quiet trivial) (fun nowIso => ?_) (fun _ => Or.inr rfl)
      refine follows_step (.insert trivial rfl (.inl rfl) rfl) (fun _ => ?_) (fun _ => Or.inr rfl)
      refine follows_perform (.publishReady trivial rfl rfl rfl) fun r => ?_
      cases r with
      | ok _ => trivial
      | error _ => exact Or.inr rfl

/-- The commands of `fireCron` leave a scheduler where it is. -/
theorem next_cron {l : Phase} (c : Cmd) (hc : c.onCron) (a : c.Resp) :
    (custody env).next .tick l c (.ok a) = l :=
  hc.next (t := .tick) trivial l a

theorem fireCron_follows (c : CronId) {l : Phase} (hl : l.free) :
    Follows (custody env) .tick l (Scheduler.fireCron c) OkFree := by
  refine follows_step (.cronClaim trivial) (fun removed => ?_) (fun _ => Or.inr rfl)
  rw [next_cron (.zrem redisKeys.cronSchedule c) rfl]
  by_cases h : removed = 0
  · simp only [h, if_true]
    exact follows_pure hl
  · simp only [h, if_false]
    refine follows_step (.quiet trivial) (fun defRaw => ?_) (fun _ => Or.inr rfl)
    rw [next_cron (.hgetallCron _) trivial]
    cases truthy defRaw.cronExpression with
    | none => exact follows_pure hl
    | some cronExpression =>
        refine follows_step (.cronNext trivial hl) (fun nextMs => ?_) (fun _ => Or.inr rfl)
        rw [next_cron (.cronNext _) trivial]
        refine follows_step (.cronSchedule trivial) (fun _ => ?_) (fun _ => Or.inr rfl)
        rw [next_cron (.write (.zadd redisKeys.cronSchedule nextMs c)) rfl]
        exact enqueueCronJob_follows c defRaw hl

theorem fireCronJobs_follows {l : Phase} (hl : l.free) :
    Follows (custody env) .tick l Scheduler.fireCronJobs OkFree := by
  refine follows_step (.quiet trivial) (fun now => ?_) (fun _ => Or.inr rfl)
  have hnow : (custody env).next .tick l .now (.ok now) = .clocked now := by
    cases l <;> first | rfl | cases hl
  rw [hnow]
  refine follows_step (.quiet rfl) (fun dueEntries => ?_) (fun _ => Or.inr rfl)
  refine follows_forEach (fun _ l => l.free) ?_ (fun l hl => hl) dueEntries _ trivial
  intro c _ l hl
  refine follows_mono (fireCron_follows c hl) ?_
  rintro (_ | _) l' hl' <;> exact hl'

theorem tick_follows : Follows (custody env) .tick .idle Scheduler.tick OkFree :=
  follows_bind OkFree promoteDelayedJobs_follows (fun _ _ hl => fireCronJobs_follows hl)
    (fun _ _ he => he)

/-! ## The producer -/

theorem enqueueDelayed_follows {n : String} {p : Option Json} {o : EnqueueOptions} (id : Uuid)
    (q : QueueName) (m : ℚ) (pr : String) (at' : ℕ) {delay : ℚ}
    (hd : o.delay.filter (0 < ·) = some delay) :
    Follows (custody env) (.enqueue n p o) (.drawn id)
      (Producer.enqueueDelayed id n p q m pr at' delay) (OkIn (.published id)) := by
  refine follows_step (.quiet trivial) (fun now => ?_) (fun _ => rfl)
  refine follows_step (.insert trivial rfl (.inr rfl) (by simp [Task.rowKey, hd])) (fun _ => ?_)
    (fun _ => rfl)
  exact follows_into (.publishDelayed trivial rfl rfl) (fun _ => rfl) (fun _ => rfl)

theorem enqueueImmediate_follows {n : String} {p : Option Json} {o : EnqueueOptions} (id : Uuid)
    (q : QueueName) (m : ℚ) (pr : String) (at' : ℕ) (hd : o.delay.filter (0 < ·) = none) :
    Follows (custody env) (.enqueue n p o) (.drawn id)
      (Producer.enqueueImmediate id n p q m pr at' (truthy o.idempotencyKey))
      (OkIn (.published id)) := by
  refine follows_step (.insert trivial rfl (.inl rfl) (by simp [Task.rowKey, hd])) (fun _ => ?_)
    (fun _ => rfl)
  exact follows_into (.publishReady trivial rfl rfl rfl) (fun _ => rfl) (fun _ => rfl)

/-- A program ends with the job published or found, or is broken off. -/
def Yields {α : Type} (id : α → JobId) : Except Err α → Phase → Prop
  | .ok a, l => l = .published (id a) ∨ l = .known (id a)
  | .error _, l => l = .broken

/-- The idempotency entry is written for the job just published. -/
theorem remember_follows {n : String} {p : Option Json} {o : EnqueueOptions} (id : JobId) :
    Follows (custody env) (.enqueue n p o) (.published id)
      (Producer.remember o.idempotencyKey id) (Yields fun _ => id) := by
  unfold Producer.remember
  cases hk : truthy o.idempotencyKey with
  | none => exact follows_pure (Or.inl rfl)
  | some key =>
      refine follows_perform (.remember hk) fun r => ?_
      cases r with
      | ok _ => exact Or.inr rfl
      | error _ => rfl

/-- After the lookup: the job is published, and known once the idempotency entry
is written. -/
theorem create_follows (n : String) (p : Option Json) (o : EnqueueOptions) {l : Phase}
    (hl : Permits env (.enqueue n p o) l .uuid) :
    Follows (custody env) (.enqueue n p o) l (Producer.create n p o) (Yields id) := by
  refine follows_step hl (fun j => ?_) (fun _ => rfl)
  have hdrawn : (custody env).next (.enqueue n p o) l .uuid (.ok j) = .drawn j := by
    cases l <;> rfl
  rw [hdrawn]
  refine follows_step (.quiet trivial) (fun nowIso => ?_) (fun _ => rfl)
  refine follows_bind (OkIn (.published j)) ?_ (fun _ l hl => ?_) (fun _ _ he => he)
  · unfold Producer.store
    cases hd : o.delay.filter (0 < ·) with
    | some delay => exact enqueueDelayed_follows j _ _ _ _ hd
    | none => exact enqueueImmediate_follows j _ _ _ _ hd
  cases hl
  refine follows_bind _ (remember_follows j) (fun _ l hl => ?_) (fun _ _ he => he)
  refine follows_step (.quiet trivial) (fun now => ?_) (fun _ => rfl)
  refine follows_step (.quiet trivial) (fun _ => ?_) (fun _ => rfl)
  rcases hl with rfl | rfl
  · exact follows_pure (Or.inl rfl)
  · exact follows_pure (Or.inr rfl)

theorem enqueue_follows (n : String) (p : Option Json) (o : EnqueueOptions) :
    Follows (custody env) (.enqueue n p o) .idle (Producer.enqueue n p o)
      fun r l => n = "" ∧ (∃ e, r = .error e) ∨ Yields id r l := by
  unfold Producer.enqueue
  split
  · rename_i hn
    exact follows_throw (Or.inl ⟨hn, _, rfl⟩)
  · refine follows_mono ?_ fun _ _ h => Or.inr h
    cases hk : truthy o.idempotencyKey with
    | none => exact create_follows n p o (.uuidKeyless hk)
    | some key =>
        refine follows_step (.lookup hk) (fun existing => ?_) (fun _ => rfl)
        have hnext : (custody env).next (.enqueue n p o) .idle
            (.get (redisKeys.idempotency key)) (.ok existing) =
            (truthy existing).elim .missed .known := rfl
        rw [hnext]
        cases truthy existing with
        | some j => exact follows_pure (Or.inr rfl)
        | none => exact create_follows n p o .uuidMissed

/-! ## The pull loop -/

/-- What the pulled id, if there is one, says about the phase. -/
def Carries : Except Err (Option JobId) → Phase → Prop
  | .ok r, l => l = (truthy r).elim Phase.idle Phase.pulled
  | .error _, l => l = .idle

theorem pullFrom_follows (w : WorkerId) (ps : List Priority) :
    Follows (custody env) (.loop w) .idle
      (Worker.pullFrom (env.queue w) (redisKeys.processing w) ps) Carries := by
  induction ps with
  | nil => exact follows_pure rfl
  | cons p ps ih =>
      refine follows_step .pull (fun r => ?_) (fun _ => rfl)
      have hnext : (custody env).next (.loop w) .idle
          (.rpoplpush (targetList (env.queue w) p.name) (redisKeys.processing w)) (.ok r) =
          (truthy r).elim Phase.idle Phase.pulled := rfl
      rw [hnext]
      cases h : truthy r with
      | some id =>
          have hid : truthy (some id) = some id := by
            rw [truthy, Option.filter_eq_some_iff] at h
            exact truthy_some (by simpa using h.2)
          exact follows_pure (by simp [Carries, hid])
      | none => exact ih

theorem pullJob_follows (w : WorkerId) :
    Follows (custody env) (.loop w) .idle (Worker.pullJob env w) Carries := by
  refine follows_step (.object rfl trivial) (fun idx => ?_) (fun _ => rfl)
  refine follows_bind _ (pullFrom_follows w _) (fun r l hl => ?_) (fun _ _ he => he)
  cases r with
  | some id => exact follows_pure hl
  | none =>
      cases hl
      refine follows_perform .pullBlocking fun r => ?_
      cases r <;> rfl

/-- One iteration: whatever the pull did, the loop holds nothing when it ends. -/
theorem loop_follows (w : WorkerId) :
    Follows (custody env) (.loop w) .idle (Worker.loop env w) Anyhow := by
  refine follows_step (.object rfl trivial) (fun top => ?_) (fun _ => trivial)
  cases top with
  | exit => exact follows_last .loopExit
  | full snapshot =>
      exact follows_step (.object rfl trivial) (fun _ => follows_last .loopAgain)
        (fun _ => trivial)
  | pull =>
      refine follows_bind (fun _ l => l = .idle) ?_ ?_ (fun _ _ _ => trivial)
      · refine follows_handle (fun _ l => l = .idle) ?_ (fun _ _ hl => hl) ?_
        · refine follows_bind _ (pullJob_follows w) (fun r l hl => ?_) (fun _ _ he => he)
          cases h : truthy r with
          | none => exact follows_pure (by rw [hl, h]; rfl)
          | some id =>
              have hid : l = .pulled id := by rw [hl, h]; rfl
              subst hid
              exact follows_step .dispatch (fun _ => rfl) (fun _ => rfl)
        · rintro _ l rfl
          refine follows_perform (.quiet trivial) fun r => ?_
          cases r <;> rfl
      · rintro _ l rfl
        exact follows_last .loopAgain

/-! ## One `processOne` call -/

/-- The bucket is read and written, the job is not. -/
theorem checkLimit_follows (w : WorkerId) (n : ℕ) (j : JobId) (h : JobHash) (q : QueueName)
    (config : RateLimitConfig) :
    Follows (custody env) (.processOne w n j) (.claimed h)
      (RateLimiter.checkLimitFallback q config) (OkIn (.claimed h)) := by
  refine follows_step (.quiet trivial) (fun now => ?_) (fun _ => rfl)
  refine follows_step (.quiet trivial) (fun data => ?_) (fun _ => rfl)
  dsimp only
  split
  · exact follows_step (.quiet trivial) (fun _ => follows_pure rfl) (fun _ => rfl)
  · exact follows_step (.quiet trivial) (fun _ => follows_pure rfl) (fun _ => rfl)

/-- A publication whose failure is ignored leaves a call where it is. -/
theorem publishQuietly_follows (w : WorkerId) (n : ℕ) (j : JobId) (l : Phase) (e : JobEvent) :
    Follows (custody env) (.processOne w n j) l (redis.publishQuietly e)
      fun r l' => r = .ok () ∧ l' = l := by
  have hnext : ∀ r, (custody env).next (.processOne w n j) l (.publish e) r = l := by
    intro r
    cases r with
    | ok _ => cases l <;> rfl
    | error _ => rfl
  refine follows_handle (fun _ l' => l' = l) ?_ (fun _ _ hl => ⟨rfl, hl⟩)
    (fun _ _ hl => follows_pure ⟨rfl, hl⟩)
  exact follows_perform (.quiet trivial) hnext

/-- A call that ends with a publication. -/
theorem follows_publish {w : WorkerId} {n : ℕ} {j : JobId} {l : Phase} (e : JobEvent) :
    Follows (custody env) (.processOne w n j) l (redis.publishQuietly e) Anyhow :=
  follows_mono (publishQuietly_follows w n j l e) fun _ _ _ => trivial

/-- If it throws, the call may still fail over. -/
def Fails {α : Type} (r : Except Err α) (l : Phase) : Prop := ∀ e, r = .error e → l.failing

/-- Success: the row, the hash, the acknowledgement. -/
theorem complete_follows (w : WorkerId) (n : ℕ) (j : JobId) (h : JobHash) :
    Follows (custody env) (.processOne w n j) (.claimed h) (Worker.complete env w j) Fails := by
  refine follows_step (.complete rfl) (fun _ => ?_) (fun _ _ _ => trivial)
  refine follows_step (.quiet trivial) (fun completedAt => ?_) (fun _ _ _ => trivial)
  refine follows_step (.quiet (quiet_hset (by simp [JobHash.keepsIdentity]))) (fun _ => ?_)
    (fun _ _ _ => trivial)
  refine follows_step .ack (fun _ => ?_) (fun _ _ _ => trivial)
  refine follows_step .readJob (fun hash => ?_) (fun _ _ _ => trivial)
  refine follows_step (.quiet trivial) (fun now => ?_) (fun _ _ _ => trivial)
  refine follows_mono (publishQuietly_follows w n j _ _) ?_
  rintro r l ⟨rfl, -⟩ e he
  cases he

theorem deadLetter_follows (w : WorkerId) (n : ℕ) (j : JobId) (message : String) (h : JobHash) :
    Follows (custody env) (.processOne w n j) (.claimed h) (Worker.deadLetter w j message h)
      Anyhow := by
  refine follows_step (.mark (.inr (.inl rfl))) (fun _ => ?_) (fun _ => trivial)
  refine follows_step (.quiet trivial) (fun completedAt => ?_) (fun _ => trivial)
  refine follows_step (.quiet (quiet_hset (by simp [JobHash.keepsIdentity]))) (fun _ => ?_)
    (fun _ => trivial)
  refine follows_step .bury (fun _ => ?_) (fun _ => trivial)
  refine follows_step .ack (fun _ => ?_) (fun _ => trivial)
  exact follows_step (.quiet trivial) (fun now => follows_publish _) (fun _ => trivial)

theorem scheduleRetry_follows (w : WorkerId) (n : ℕ) (j : JobId) (attempts : Option ℚ)
    (h : JobHash) :
    Follows (custody env) (.processOne w n j) (.claimed h) (Worker.scheduleRetry w j attempts h)
      Anyhow := by
  refine follows_step (.quiet trivial) (fun now => ?_) (fun _ => trivial)
  refine follows_step (.mark (.inr (.inr rfl))) (fun _ => ?_) (fun _ => trivial)
  refine follows_step (.quiet (quiet_hset (by simp [JobHash.keepsIdentity]))) (fun _ => ?_)
    (fun _ => trivial)
  cases attempts with
  | none => exact follows_throw trivial
  | some a => exact follows_step .retry (fun _ => follows_last .ack) (fun _ => trivial)

/-- The same two endings in a call that is already broken. -/
theorem brokenFailure_follows (w : WorkerId) (n : ℕ) (j : JobId) (message : String) :
    Follows (custody env) (.processOne w n j) .broken (Worker.handleFailure w j message)
      Anyhow := by
  refine follows_step .readJob (fun h => ?_) (fun _ => trivial)
  dsimp only
  split
  · refine follows_step (.brokenMark (.inr (.inl rfl))) (fun _ => ?_) (fun _ => trivial)
    refine follows_step (.quiet trivial) (fun completedAt => ?_) (fun _ => trivial)
    refine follows_step (.quiet (quiet_hset (by simp [JobHash.keepsIdentity]))) (fun _ => ?_)
      (fun _ => trivial)
    refine follows_step .brokenBury (fun _ => ?_) (fun _ => trivial)
    refine follows_step .brokenAck (fun _ => ?_) (fun _ => trivial)
    exact follows_step (.quiet trivial) (fun now => follows_publish _) (fun _ => trivial)
  · refine follows_step (.quiet trivial) (fun now => ?_) (fun _ => trivial)
    refine follows_step (.brokenMark (.inr (.inr rfl))) (fun _ => ?_) (fun _ => trivial)
    refine follows_step (.quiet (quiet_hset (by simp [JobHash.keepsIdentity]))) (fun _ => ?_)
      (fun _ => trivial)
    cases Worker.numberOr h.attempts 0 with
    | none => exact follows_throw trivial
    | some a =>
        exact follows_step .brokenRetry (fun _ => follows_last .brokenAck) (fun _ => trivial)

theorem handleFailure_follows (w : WorkerId) (n : ℕ) (j : JobId) (message : String) {l : Phase}
    (hl : l.failing) :
    Follows (custody env) (.processOne w n j) l (Worker.handleFailure w j message) Anyhow := by
  cases l with
  | claimed h₀ =>
      refine follows_step .readJob (fun h => ?_) (fun _ => trivial)
      dsimp only
      split
      · exact deadLetter_follows w n j message h
      · exact scheduleRetry_follows w n j _ h
  | broken => exact brokenFailure_follows w n j message
  | _ => cases hl

theorem runJob_follows (w : WorkerId) (n : ℕ) (j : JobId) (h : JobHash) (jobName : String)
    (q : QueueName) :
    Follows (custody env) (.processOne w n j) (.claimed h)
      (Worker.runJob env w j h jobName q) Anyhow := by
  refine follows_step (.mark (.inl rfl)) (fun _ => ?_) (fun _ => trivial)
  refine follows_step (.quiet trivial) (fun startedAt => ?_) (fun _ => trivial)
  refine follows_step (.quiet (quiet_hset (by simp [JobHash.keepsIdentity]))) (fun _ => ?_)
    (fun _ => trivial)
  refine follows_step (.quiet trivial) (fun now => ?_) (fun _ => trivial)
  refine follows_bind _ (publishQuietly_follows w n j (.claimed h) _) ?_ (fun _ _ _ => trivial)
  rintro _ l ⟨-, rfl⟩
  split
  · exact handleFailure_follows w n j _ trivial
  · split
    · exact handleFailure_follows w n j _ trivial
    · refine follows_handle Fails ?_ (fun _ _ _ => trivial)
        (fun e l hl => handleFailure_follows w n j _ (hl e rfl))
      refine follows_step .handler (fun _ => ?_) (fun _ _ _ => trivial)
      exact complete_follows w n j h

theorem dispatched_follows (w : WorkerId) (n : ℕ) (j : JobId) :
    Follows (custody env) (.processOne w n j) .dispatched (Worker.dispatched env w n j)
      Anyhow := by
  refine follows_bind Anyhow ?_ (fun _ _ _ => follows_last .settle) (fun _ _ _ => trivial)
  refine follows_handle Anyhow ?_ (fun _ _ _ => trivial) (fun _ _ _ => follows_pure trivial)
  refine follows_step .readJob (fun h => ?_) (fun _ => trivial)
  cases truthy h.jobName with
  | none => exact follows_pure trivial
  | some jobName =>
      dsimp only
      cases env.rateLimits w (h.queueName.getD (env.queue w)) with
      | none => exact runJob_follows w n j h jobName _
      | some config =>
          refine follows_bind _ (checkLimit_follows w n j h _ config) (fun result l hl => ?_)
            (fun _ _ _ => trivial)
          cases hl
          split
          · exact runJob_follows w n j h jobName _
          · exact follows_step .pushBack (fun _ => follows_last (.quiet trivial))
              (fun _ => trivial)

/-! ## Start, heartbeat and stop -/

theorem start_follows (w : WorkerId) :
    Follows (custody env) (.start w) .idle (Worker.start env w) (OkIn .ended) := by
  refine follows_step .begin (fun _ => ?_) (fun _ => rfl)
  refine follows_step .register (fun _ => ?_) (fun _ => rfl)
  refine follows_bind (OkIn .beating) ?_ (fun _ l hl => ?_) (fun _ _ he => he)
  · refine follows_step (.quiet trivial) (fun now => ?_) (fun _ => rfl)
    exact follows_into .firstBeat (fun _ => rfl) (fun _ => rfl)
  cases hl
  refine follows_step (.quiet trivial) (fun startedAt => ?_) (fun _ => rfl)
  refine follows_step (.quiet trivial) (fun _ => ?_) (fun _ => rfl)
  refine follows_step (.object rfl trivial) (fun _ => ?_) (fun _ => rfl)
  exact follows_into .launch (fun _ => rfl) (fun _ => rfl)

theorem writeHeartbeat_follows (w : WorkerId) :
    Follows (custody env) (.heartbeat w) .idle (Worker.writeHeartbeat w) Anyhow := by
  refine follows_step (.object rfl trivial) (fun _ => ?_) (fun _ => trivial)
  refine follows_bind Anyhow ?_ (fun _ l _ => ?_) (fun _ _ _ => trivial)
  · exact follows_step (.quiet trivial) (fun now => follows_last .beat) (fun _ => trivial)
  refine follows_step (.object rfl trivial) (fun size => ?_) (fun _ => trivial)
  exact follows_last (.quiet trivial)

theorem drain_follows (w : WorkerId) (snapshot : Finset ℕ) :
    Follows (custody env) (.stop w) .idle (Worker.drain w snapshot) (OkIn .idle) := by
  unfold Worker.drain
  split
  · refine follows_step (.quiet trivial) (fun now => ?_) (fun _ => rfl)
    exact follows_step (.object rfl trivial) (fun _ => follows_pure rfl) (fun _ => rfl)
  · exact follows_pure rfl

theorem stop_follows (w : WorkerId) :
    Follows (custody env) (.stop w) .idle (Worker.stop w) (OkIn .ended) := by
  refine follows_step (.object rfl trivial) (fun _ => ?_) (fun _ => rfl)
  refine follows_step (.quiet trivial) (fun _ => ?_) (fun _ => rfl)
  refine follows_step (.object rfl trivial) (fun snapshot => ?_) (fun _ => rfl)
  refine follows_bind _ (drain_follows w snapshot) (fun _ l hl => ?_) (fun _ _ he => he)
  cases hl
  refine follows_step .awaitLoop (fun _ => ?_) (fun _ => rfl)
  refine follows_step .deregister (fun _ => ?_) (fun _ => rfl)
  refine follows_step .dropHeartbeat (fun _ => ?_) (fun _ => rfl)
  refine follows_step .dropMeta (fun _ => ?_) (fun _ => rfl)
  refine follows_step (.object rfl trivial) (fun _ => ?_) (fun _ => rfl)
  exact follows_into .finish (fun _ => rfl) (fun _ => rfl)

/-! ## The janitor -/

theorem recoverJob_follows (w : WorkerId) (j : JobId) (todo : List JobId) :
    Follows (custody env) .janitor (.recovering w (j :: todo)) (Janitor.recoverJob j)
      (OkIn (.recovering w todo)) := by
  refine follows_step .readOrphan (fun h => ?_) (fun _ => rfl)
  refine follows_step .pushOrphan (fun _ => ?_) (fun _ => rfl)
  refine follows_step (.quiet (quiet_hset (by simp [JobHash.keepsIdentity]))) (fun _ => ?_)
    (fun _ => rfl)
  exact follows_into (.resetRow rfl) (fun _ => rfl) (fun _ => rfl)

theorem recoverWorker_follows (w : WorkerId) (l : Phase) :
    Follows (custody env) .janitor l (Janitor.recoverWorker w) Anyhow := by
  refine follows_step .checkHeartbeat (fun alive => ?_) (fun _ => trivial)
  cases alive with
  | true => exact follows_pure trivial
  | false =>
      have hfound : (custody env).next .janitor l (.existsKey (redisKeys.heartbeat w))
          (.ok false) = .found w := by
        cases l <;> rfl
      rw [hfound]
      refine follows_step .readOrphans (fun orphans => ?_) (fun _ => trivial)
      refine follows_bind (OkIn (.recovering w [])) ?_ (fun _ l hl => ?_) (fun _ _ _ => trivial)
      · refine follows_forEach (fun todo l => l = .recovering w todo) ?_ ?_ orphans _ rfl
        · rintro j todo l rfl
          refine follows_mono (recoverJob_follows w j todo) ?_
          rintro (_ | _) l' hl' <;> exact hl'
        · rintro l rfl
          rfl
      cases hl
      refine follows_step .dropList (fun _ => ?_) (fun _ => trivial)
      refine follows_step .unregister (fun _ => ?_) (fun _ => trivial)
      exact follows_last .dropDeadMeta

theorem janitor_follows : Follows (custody env) .janitor .idle Janitor.tick Anyhow := by
  refine follows_step (.quiet trivial) (fun workerIds => ?_) (fun _ => trivial)
  refine follows_forEach (fun _ _ => True) ?_ (fun _ _ => trivial) workerIds _ trivial
  intro w _ l _
  refine follows_mono (recoverWorker_follows w l) ?_
  rintro (_ | _) _ _ <;> trivial

/-! ## Operator requests -/

/-- Between its jobs a request only reads the clock and publishes. -/
theorem next_requeuing {q : QueueName} {b : RequeueBody} (todo : List JobId) (c : Cmd)
    (hc : c = .now ∨ ∃ e, c = .publish e) (r : Except Err c.Resp) :
    (custody env).next (.requeue q b) (.requeuing todo) c r = .requeuing todo := by
  rcases hc with rfl | ⟨e, rfl⟩ <;> cases r <;> rfl

/-- The reset row, hash, dead-letter queue and ready list of one job: whether it
goes through or not, the job is off the list afterwards. -/
theorem requeueJob_follows (q : QueueName) (b : RequeueBody) (id : JobId) (todo : List JobId) :
    Follows (custody env) (.requeue q b) (.requeuing (id :: todo)) (Routes.requeueJob q id)
      fun _ l => l = .requeuing todo := by
  refine follows_step (.resetRequeue rfl) (fun _ => ?_) (fun _ => rfl)
  refine follows_step (.quiet (quiet_hset (by simp [JobHash.keepsIdentity, Routes.resetFields])))
    (fun _ => ?_) (fun _ => rfl)
  refine follows_step (.lift trivial) (fun _ => ?_) (fun _ => rfl)
  refine follows_step (.readLifted trivial) (fun h => ?_) (fun _ => rfl)
  refine follows_step (.place trivial) (fun _ => ?_) (fun _ => rfl)
  refine follows_step (.quiet trivial) (fun now => ?_)
    (fun e => next_requeuing todo .now (.inl rfl) (.error e))
  have hnow : (custody env).next (.requeue q b) (.requeuing todo) .now (.ok now) =
      .requeuing todo := next_requeuing todo .now (.inl rfl) (.ok now)
  refine follows_perform (.quiet trivial) fun r => ?_
  exact (congrArg (fun l => (custody env).next (.requeue q b) l _ r) hnow).trans
    (next_requeuing todo _ (.inr ⟨_, rfl⟩) r)

/-- The loop over the jobs of a request. -/
theorem requeueJobs_follows (q : QueueName) (b : RequeueBody) (todo : List JobId)
    (requeued failed : ℕ) :
    Follows (custody env) (.requeue q b) (.requeuing todo)
      (Routes.requeueJobs q requeued failed todo) Anyhow := by
  induction todo generalizing requeued failed with
  | nil => exact follows_pure trivial
  | cons id todo ih =>
      refine follows_bind (fun r l => (∃ ok, r = .ok ok) ∧ l = .requeuing todo) ?_
        (fun ok l hl => ?_) (fun _ _ _ => trivial)
      · refine follows_handle (fun _ l => l = .requeuing todo) ?_ (fun _ _ hl => ⟨⟨_, rfl⟩, hl⟩)
          (fun _ _ hl => follows_pure ⟨⟨_, rfl⟩, hl⟩)
        exact follows_bind _ (requeueJob_follows q b id todo) (fun _ _ hl => follows_pure hl)
          (fun _ _ hl => hl)
      · obtain ⟨-, rfl⟩ := hl
        cases ok with
        | true => exact ih (requeued + 1) failed
        | false => exact ih requeued (failed + 1)

theorem requeue_follows (q : QueueName) (b : RequeueBody) :
    Follows (custody env) (.requeue q b) (Phase.start (.requeue q b)) (Routes.requeue q b)
      Anyhow := by
  obtain ⟨jobIds, all⟩ := b
  cases all with
  | true =>
      have hstart : Phase.start (.requeue q ⟨jobIds, true⟩) = .idle := by cases jobIds <;> rfl
      rw [hstart]
      exact follows_step .readDlq (fun todo => requeueJobs_follows q _ todo 0 0)
        (fun _ => trivial)
  | false =>
      cases jobIds with
      | none => exact follows_pure trivial
      | some todo => exact requeueJobs_follows q _ todo 0 0

theorem retry_follows (id : JobId) :
    Follows (custody env) (.retry id) .idle (Routes.retry id) Anyhow := by
  refine follows_step .selectJob (fun job => ?_) (fun _ => trivial)
  cases job with
  | none => exact follows_pure trivial
  | some row =>
      have hnext : (custody env).next (.retry id) .idle (.select id) (.ok (some row)) =
          if Routes.retriable row then .resetting id row.queueName [] else .idle := rfl
      rw [hnext]
      dsimp only
      cases Routes.retriable row with
      | false => exact follows_pure trivial
      | true =>
          refine follows_step (.resetRetry rfl) (fun _ => ?_) (fun _ => trivial)
          refine follows_step (.quiet (quiet_hset (by
            simp [JobHash.keepsIdentity, Routes.resetFields]))) (fun _ => ?_) (fun _ => trivial)
          refine follows_step (.lift trivial) (fun _ => ?_) (fun _ => trivial)
          refine follows_bind Anyhow ?_ (fun _ _ _ => follows_pure trivial) (fun _ _ _ => trivial)
          refine follows_step (.readLifted trivial) (fun h => ?_) (fun _ => trivial)
          refine follows_step (.place trivial) (fun _ => ?_) (fun _ => trivial)
          exact follows_step (.quiet trivial) (fun now => follows_last (.quiet trivial))
            (fun _ => trivial)

/-! ## All tasks -/

/-- **Every program keeps to the custody protocol.** -/
theorem custody_follows (t : Task) :
    Follows (custody env) t (Phase.start t) (body env t) (Concluded t) := by
  cases t with
  | enqueue n p o =>
      refine follows_bind _ (enqueue_follows n p o) ?_ ?_
      · rintro j l (⟨-, e, he⟩ | hl)
        · cases he
        · exact follows_pure ⟨j, rfl, hl⟩
      · rintro e l (⟨hn, -⟩ | hl)
        · exact Or.inl hn
        · exact Or.inr hl
  | tick =>
      refine follows_bind _ tick_follows (fun _ l hl => follows_pure (Or.inl hl)) ?_
      exact fun _ _ he => he
  | start w =>
      exact follows_bind _ (start_follows w) (fun _ l hl => follows_pure hl) fun _ _ _ => trivial
  | stop w =>
      exact follows_bind _ (stop_follows w) (fun _ l hl => follows_pure hl) fun _ _ _ => trivial
  | loop w => exact follows_finish (loop_follows w)
  | processOne w n j => exact follows_finish (dispatched_follows w n j)
  | heartbeat w => exact follows_finish (writeHeartbeat_follows w)
  | janitor => exact follows_finish janitor_follows
  | retry id => exact follows_finish (retry_follows id)
  | requeue name b => exact follows_finish (requeue_follows name b)
  | addJob job =>
      refine follows_finish (follows_step (.cronNext trivial trivial) (fun nextMs => ?_)
        (fun _ => trivial))
      refine follows_step (.quiet trivial) (fun _ => ?_) (fun _ => trivial)
      exact follows_last (.cronSchedule trivial)
  | removeJob c =>
      refine follows_finish (follows_step (.cronDelete trivial) (fun _ => ?_) (fun _ => trivial))
      exact follows_step (.cronClaim trivial) (fun _ => follows_pure trivial) (fun _ => trivial)

end NexusQueue
